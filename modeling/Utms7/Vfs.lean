import Utms7.NamedTree
import Utms7.Slashes

/-!
# Paths

`kernel/core/vfs.c`: how a path is made absolute, which mount it belongs to, and the
walk over its components; and from `kernel/core/syscall.c` `normalize_path` and
`sys_chroot`.  The file systems here are ramfs, the one whose nodes are all in memory.

A text is a list of bytes without the terminator, and a copy into a buffer of `size`
bytes keeps the first `size - 1`.  A look-up writes the parent of the child it finds,
so the walk hands the nodes on as a state.
-/

namespace Utms7.Vfs

abbrev Text := List UInt8

def slash : UInt8 := 47

def dot : UInt8 := 46

/-- `VFS_MAX_NAME`. -/
def maxName : Nat := 256

/-- A copy of a text in a buffer, by `strncpy` or `snprintf`. -/
def fit (size : Nat) (s : Text) : Text := s.take (size - 1)

/-- The components of a path. -/
def components (path : Text) : List Text := Slashes.words slash path

inductive Kind
  | file
  | dir
  | symlink
  | blockDevice
deriving DecidableEq, Repr

/-- An entry of the mount table that is in use. -/
structure Mount (N : Type*) where
  path : Text
  root : N

/-- The nodes, with the fields the walk reads, and the tables of `vfs.c`. -/
structure Fs (N : Type*) where
  kind : N → Kind
  name : N → Text
  link : N → Text
  parent : N → Option N
  children : N → List N
  mounts : Fin 16 → Option (Mount N)
  rootNode : Option N
  ready : Bool

/-- What a path is relative to: the directory a process was confined to, and the
current directory. -/
structure Process where
  chrootPath : Text
  currentDir : Text
deriving DecidableEq, Repr

variable {N : Type*} [DecidableEq N]

namespace Fs

variable (fs : Fs N)

/-! ## ramfs -/

def ramfsFindChild (dir : N) (name : Text) : Option N :=
  if fs.kind dir = .dir then (fs.children dir).find? fun c => fs.name c = name else none

def setParent (child dir : N) : Fs N :=
  { fs with
    parent := fun n => if n = child then some dir else fs.parent n }

def ramfsLookup (dir : N) (name : Text) : Option (N × Fs N) :=
  (fs.ramfsFindChild dir name).map fun child => (child, fs.setParent child dir)

def ramfsReadlink (node : N) (size : Nat) : Text := fit size (fs.link node)

/-! ## Mounts -/

end Fs

/-- A mount takes a path that goes on with a slash behind it, or ends there. -/
def Mount.covers (m : Mount N) (path : Text) : Bool :=
  m.path.isPrefixOf path &&
    (path.length == m.path.length || path[m.path.length]? == some slash || m.path.length == 1)

def bestLen (best : Option (Mount N)) : Nat := best.elim 0 fun m => m.path.length

def betterMount (path : Text) (best : Option (Mount N)) : Option (Mount N) → Option (Mount N)
  | none => best
  | some m => if m.covers path ∧ bestLen best < m.path.length then some m else best

namespace Fs

variable (fs : Fs N)

/-- The longest mount that covers a path, the first one among equals. -/
def findMount (path : Text) : Option (Mount N) :=
  (List.ofFn fs.mounts).foldl (betterMount path) none

/-- The part of the path behind the mount. -/
def relative (m : Mount N) (path : Text) : Text :=
  (path.drop m.path.length).dropWhile (· = slash)

/-! ## The walk -/

/-- The loop of `resolve_path_internal` over the components. -/
def walk : Fs N → N → List Text → Option N × Fs N
  | fs, node, [] => (some node, fs)
  | fs, node, comp :: comps =>
    if comp = [dot] then walk fs node comps
    else if comp = [dot, dot] then walk fs ((fs.parent node).getD node) comps
    else if fs.kind node ≠ .dir then (none, fs)
    else
      match fs.ramfsLookup node comp with
      | none => (none, fs)
      | some (next, fs') => walk fs' next comps

/-- `resolve_path_internal`, with the number of calls that are left for it: a mount
whose root is a link is followed up to eight times. -/
def resolvePathInternal : Nat → Text → Option N × Fs N
  | 0, _ => (none, fs)
  | calls + 1, path =>
    if !fs.ready then (none, fs)
    else if path = [] then (fs.rootNode, fs)
    else if path.head? ≠ some slash then (none, fs)
    else
      match fs.findMount path with
      | none => (none, fs)
      | some m =>
        if fs.kind m.root = .symlink ∧ (fs.ramfsReadlink m.root maxName).head? = some slash then
          resolvePathInternal calls (fs.ramfsReadlink m.root maxName)
        else if relative m path = [] then (some m.root, fs)
        else fs.walk m.root (components (fit 1024 (relative m path)))

end Fs

/-- Depths 0 to 8. -/
def resolveCalls : Nat := 9

def makeAbsolutePath (p : Process) (size : Nat) (path : Text) : Text :=
  if path.head? = some slash then fit size path
  else
    let cwd := if p.currentDir = [] then [slash] else p.currentDir
    if cwd = [slash] then fit size (slash :: path)
    else fit size (cwd ++ slash :: path)

def schedGetChroot (p : Process) : Text :=
  if p.chrootPath = [] then [slash] else p.chrootPath

/-- The path that `vfs_resolve_path` walks along. -/
def finalPath (p : Process) (path : Text) : Text :=
  let resolved := makeAbsolutePath p 1024 path
  let chroot := schedGetChroot p
  if chroot ≠ [] ∧ chroot ≠ [slash] ∧ resolved.head? = some slash then
    if resolved = [slash] then fit 1024 chroot else fit 1024 (chroot ++ resolved)
  else resolved

namespace Fs

variable (fs : Fs N)

def vfsResolvePath (p : Process) (path : Text) : Option N × Fs N :=
  fs.resolvePathInternal resolveCalls (finalPath p path)

def vfsIsdir (p : Process) (path : Text) : Bool × Fs N :=
  match fs.vfsResolvePath p (makeAbsolutePath p 1024 path) with
  | (none, fs') => (false, fs')
  | (some node, fs') => (fs'.kind node == .dir, fs')

end Fs

/-! ## Normal forms -/

/-- One component on the stack of `normalize_path`. -/
def pushPart (parts : List Text) (comp : Text) : List Text :=
  if comp = [dot, dot] then parts.dropLast
  else if comp = [dot] then parts
  else if parts.length < 64 then parts ++ [fit 256 comp]
  else parts

/-- The parts that fit into the buffer. -/
def joinParts (size : Nat) : Nat → List Text → Text
  | _, [] => []
  | pos, part :: parts =>
    if size - 1 ≤ pos + 1 + part.length then []
    else slash :: part ++ joinParts size (pos + 1 + part.length) parts

/-- `normalize_path`; `memory` says whether `kmalloc` has room for its buffers. -/
def normalizePath (memory : Bool) (size : Nat) (input : Text) : Text :=
  if !memory then [slash]
  else
    let parts := (components (fit 1024 input)).foldl pushPart []
    if parts = [] then [slash] else joinParts size 0 parts

/-- The path of the directory `sys_chroot` is asked for, seen from the root. -/
def realPath (p : Process) (path : Text) : Text :=
  let resolved := makeAbsolutePath p 256 (fit 255 path)
  if p.chrootPath ≠ [] ∧ p.chrootPath ≠ [slash] ∧ resolved.head? = some slash then
    if resolved = [slash] then fit 512 p.chrootPath else fit 512 (p.chrootPath ++ resolved)
  else fit 512 resolved

/-- `sys_chroot` with the text at the user's pointer; `none` is the result -1. -/
def Fs.sysChroot (fs : Fs N) (memory : Bool) (p : Process) (path : Text) : Option Process × Fs N :=
  let normalized := normalizePath memory 256 (realPath p path)
  match fs.vfsIsdir p normalized with
  | (false, fs') => (none, fs')
  | (true, fs') => (some { chrootPath := fit 256 normalized, currentDir := [slash] }, fs')

end Utms7.Vfs
