import Mathlib.Data.Fintype.Card
import Utms7.Vfs

/-!
# The nodes of ramfs

The calls of `kernel/core/vfs.c` that make, remove and move nodes, where all mounted
file systems are ramfs.  To the nodes of `Vfs` come the ones that are allocated, their
reference counts and the data of files.

`kmalloc` gives a node from outside, or none.  `vfs_open` copies the last component of
a path into a buffer of 256 bytes without looking at its length; where the copy runs
over the end of the buffer, what the call does is not defined, and neither is the
state after it.
-/

namespace Utms7.Vfs

open Function

/-- The nodes with all that the calls read and write. -/
structure Store (N : Type*) extends Fs N where
  live : N → Bool
  refcount : N → Nat
  size : N → Nat
  -- the buffer of a file, as long as its capacity
  data : N → List UInt8

/-- `O_CREAT`. -/
def oCreat : BitVec 32 := 0x40#32

/-- `O_TRUNC`. -/
def oTrunc : BitVec 32 := 0x200#32

def hasFlags (flags flag : BitVec 32) : Bool := flags &&& flag != 0#32

/-- The text behind the last slash. -/
def lastComponent (s : Text) : Text := (s.reverse.takeWhile (· ≠ slash)).reverse

/-- The text before the last slash and the one behind it. -/
def strrchr (s : Text) : Option (Text × Text) :=
  if slash ∈ s then some (s.take (s.length - (lastComponent s).length - 1), lastComponent s)
  else none

/-- The directory of a path, and its last component. -/
def splitPath (path : Text) : Option (Text × Text) :=
  match strrchr (fit 1024 path) with
  | none => none
  | some (dir, comp) =>
    if maxName ≤ comp.length then none
    else some (if dir = [] then [slash] else dir, comp)

namespace Store

variable {N : Type*} [DecidableEq N] (s : Store N)

/-! ## ramfs -/

/-- `vfs_create_node`, in the memory that `kmalloc` gave. -/
def vfsCreateNode (node : N) (name : Text) (kind : Kind) : Store N :=
  { s with
    kind := update s.kind node kind
    name := update s.name node (fit maxName name)
    link := update s.link node []
    parent := update s.parent node none
    children := update s.children node []
    live := update s.live node true
    refcount := update s.refcount node 1
    size := update s.size node 0
    data := update s.data node [] }

def ramfsAddChild (dir child : N) : Store N :=
  { s with
    parent := update s.parent child (some dir)
    children := update s.children dir (child :: s.children dir) }

def ramfsRemoveChild (dir child : N) : Option (Store N) :=
  if child ∈ s.children dir then
    some { s with
      parent := update s.parent child none
      children := update s.children dir ((s.children dir).erase child) }
  else none

/-- The memory of one node goes back. -/
def kfree (node : N) : Store N :=
  { s with
    live := update s.live node false
    children := update s.children node [] }

/-- `ramfs_free_node`, down to a depth. -/
def freeBelow : Nat → Store N → N → Store N
  | 0, s, _ => s
  | depth + 1, s, node => ((s.children node).foldl (freeBelow depth) s).kfree node

/-- A tree is not deeper than it has nodes. -/
def ramfsFreeNode [Fintype N] (node : N) : Store N := freeBelow (Fintype.card N) s node

/-- The common part of `ramfs_create`, `ramfs_mkdir` and `ramfs_symlink`. -/
def ramfsMake (dir : N) (name : Text) (kind : Kind) (link : Text) (node : Option N) :
    Int × Store N :=
  if s.kind dir ≠ .dir then (-1, s)
  else if (s.ramfsFindChild dir name).isSome then (-1, s)
  else
    match node with
    | none => (-1, s)
    | some node =>
      let s := s.vfsCreateNode node name kind
      let s := { s with link := update s.link node link }
      (0, s.ramfsAddChild dir node)

def ramfsCreate (dir : N) (name : Text) (node : Option N) : Int × Store N :=
  s.ramfsMake dir name .file [] node

def ramfsMkdir (dir : N) (name : Text) (node : Option N) : Int × Store N :=
  s.ramfsMake dir name .dir [] node

def ramfsSymlink (dir : N) (name target : Text) (node : Option N) : Int × Store N :=
  s.ramfsMake dir name .symlink (fit maxName target) node

/-- A directory with children is neither removed nor replaced. -/
def full (node : N) : Bool := s.kind node == .dir && !(s.children node).isEmpty

def ramfsUnlink [Fintype N] (dir : N) (name : Text) : Int × Store N :=
  match s.ramfsFindChild dir name with
  | none => (-1, s)
  | some child =>
    if s.full child then (-1, s)
    else
      match s.ramfsRemoveChild dir child with
      | none => (-1, s)
      | some s => (0, s.ramfsFreeNode child)

/-- The node that a rename replaces is removed and freed first. -/
def dropExisting [Fintype N] (dir node : N) : Store N :=
  ((s.ramfsRemoveChild dir node).getD s).ramfsFreeNode node

/-- The second part of `ramfs_rename`: the node gets its new name and place. -/
def moveChild (oldDir child newDir : N) (newName : Text) : Int × Store N :=
  match s.ramfsRemoveChild oldDir child with
  | none => (-1, s)
  | some s =>
    let s := { s with name := update s.name child (fit maxName newName) }
    (0, s.ramfsAddChild newDir child)

def ramfsRename [Fintype N] (oldDir : N) (oldName : Text) (newDir : N) (newName : Text) :
    Int × Store N :=
  match s.ramfsFindChild oldDir oldName with
  | none => (-1, s)
  | some child =>
    match s.ramfsFindChild newDir newName with
    | none => s.moveChild oldDir child newDir newName
    | some existing =>
      if s.full existing then (-1, s)
      else (s.dropExisting newDir existing).moveChild oldDir child newDir newName

/-! ## The calls -/

/-- `vfs_resolve_path`. -/
def resolve (p : Process) (path : Text) : Option N × Store N :=
  let r := s.vfsResolvePath p path
  (r.1, { s with toFs := r.2 })

/-- A call that works on a directory and the last component of a path. -/
def inDirectory (p : Process) (path : Text) (call : Store N → N → Text → Int × Store N) :
    Int × Store N :=
  match splitPath (makeAbsolutePath p 1024 path) with
  | none => (-1, s)
  | some (dirPath, name) =>
    match s.resolve p dirPath with
    | (none, s) => (-1, s)
    | (some dir, s) => if s.kind dir ≠ .dir then (-1, s) else call s dir name

def vfsMkdir (p : Process) (path : Text) (node : Option N) : Int × Store N :=
  s.inDirectory p path fun s dir name => s.ramfsMkdir dir name node

def vfsSymlink (p : Process) (target linkPath : Text) (node : Option N) : Int × Store N :=
  s.inDirectory p linkPath fun s dir name => s.ramfsSymlink dir name target node

def vfsUnlink [Fintype N] (p : Process) (path : Text) : Int × Store N :=
  s.inDirectory p path fun s dir name => s.ramfsUnlink dir name

def vfsRmdir [Fintype N] (p : Process) (path : Text) : Int × Store N :=
  let resolved := makeAbsolutePath p 1024 path
  match s.resolve p resolved with
  | (none, s) => (-1, s)
  | (some node, s) => if s.kind node ≠ .dir then (-1, s) else s.vfsUnlink p resolved

def vfsRename [Fintype N] (p : Process) (old new : Text) : Int × Store N :=
  match splitPath (makeAbsolutePath p 1024 old), splitPath (makeAbsolutePath p 1024 new) with
  | some (oldDirPath, oldName), some (newDirPath, newName) =>
    match s.resolve p oldDirPath with
    | (oldDir, s) =>
      match oldDir, s.resolve p newDirPath with
      | some oldDir, (some newDir, s) =>
        if s.kind oldDir ≠ .dir ∨ s.kind newDir ≠ .dir then (-1, s)
        else s.ramfsRename oldDir oldName newDir newName
      | _, (_, s) => (-1, s)
  | _, _ => (-1, s)

/-- `vfs_open` of a node that is there. -/
def openNode (node : N) (flags : BitVec 32) : Store N :=
  let s := if hasFlags flags oTrunc ∧ s.kind node = .file then
      { s with size := update s.size node 0 } else s
  { s with refcount := update s.refcount node (s.refcount node + 1) }

/-- `vfs_open` of a file that is made. -/
def openNew (p : Process) (dirPath name : Text) (node : Option N) : Option N × Store N :=
  match s.resolve p dirPath with
  | (none, s) => (none, s)
  | (some dir, s) =>
    if s.kind dir ≠ .dir then (none, s)
    else
      match s.ramfsCreate dir name node with
      | (0, s) =>
        match s.ramfsLookup dir name with
        | none => (none, s)
        | some (new, fs) =>
          let s := { s with toFs := fs }
          (some new, { s with refcount := update s.refcount new (s.refcount new + 1) })
      | (_, s) => (none, s)

/-- `vfs_open`; no result means that the name ran over its buffer. -/
def vfsOpen (p : Process) (path : Text) (flags : BitVec 32) (node : Option N) :
    Option (Option N × Store N) :=
  let resolved := makeAbsolutePath p 1024 path
  match s.resolve p resolved with
  | (some found, s) => some (some found, s.openNode found flags)
  | (none, s) =>
    if !hasFlags flags oCreat then some (none, s)
    else
      match strrchr (fit 1024 resolved) with
      | none => some (none, s)
      | some (dir, name) =>
        if maxName ≤ name.length then none
        else some (s.openNew p (if dir = [] then [slash] else dir) name node)

end Store

end Utms7.Vfs
