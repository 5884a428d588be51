import Utms7.UfsOperations

/-!
# UFS volumes, without their bytes

The driver of `UfsOperations` works on the bytes of a device.  A `Volume` is
what those bytes stand for: one bit for each block, one record for each inode
and the contents of each data block.  Its operations are the driver's, with
the encoding taken out and with `create`, `mkdir` and `symlink` as the three
uses of one operation, `make`.

`UfsRefinement` shows that each driver operation computes on the bytes what
the operation below computes on the volume; everything that is proved about
histories of operations is proved about volumes.
-/

namespace Utms7

open ByteMemory

/-- The state of a mounted volume. -/
structure Volume where
  totalBlocks : Nat
  dataStart : Nat
  inodeCount : Nat
  freeBlocks : BitVec 32
  freeInodes : BitVec 32
  nextFreeBlock : Nat
  nextFreeInode : Nat
  bit : Nat → Bool
  inode : Nat → UfsInode
  data : Nat → Bytes

/-- The volume on a mounted device, as the driver's own readers see it. -/
def UfsMount.volume (m : UfsMount) : Volume where
  totalBlocks := m.sb.totalBlocks.toNat
  dataStart := m.sb.dataStart.toNat
  inodeCount := m.sb.inodeCount.toNat
  freeBlocks := m.sb.freeBlocks
  freeInodes := m.sb.freeInodes
  nextFreeBlock := m.nextFreeBlock
  nextFreeInode := m.nextFreeInode
  bit b := ufsBitmapGet m b == 1
  inode n := (ufsReadInode m n).getD .zero
  data b := if m.sb.dataStart.toNat ≤ b then (ufsReadBlock m b).getD zeros else zeros

/-- The test with which the driver tells directories from other inodes. -/
def UfsInode.isDir (inode : UfsInode) : Bool := decide (inode.mode &&& ufsInodeDir ≠ 0#16)

/-- `ufs_append_block` where it succeeds. -/
def UfsInode.append (inode : UfsInode) (b : Nat) : UfsInode := (ufsAppendBlock inode b).2

/-- An object that `make` can put into a directory: an inode in use that has
no blocks yet. -/
structure NewNode where
  inode : UfsInode
  /-- The contents of its first block, given its inode number, if it has one. -/
  firstBlock : Option (Nat → Bytes)
  type : BitVec 8
  live : inode.mode ≠ 0#16
  empty : inode.extents = UfsInode.zero.extents

namespace Volume

variable (v : Volume)

/-- The inode numbers of the volume. -/
def HasInode (n : Nat) : Prop := 1 ≤ n ∧ n ≤ v.inodeCount

instance (n : Nat) : Decidable (v.HasInode n) := inferInstanceAs (Decidable (_ ∧ _))

/-- An inode in use. -/
def Live (n : Nat) : Prop := v.HasInode n ∧ (v.inode n).mode ≠ 0#16

instance (n : Nat) : Decidable (v.Live n) := inferInstanceAs (Decidable (_ ∧ _))

/-- A directory in use. -/
def LiveDir (n : Nat) : Prop := v.HasInode n ∧ (v.inode n).isDir = true

instance (n : Nat) : Decidable (v.LiveDir n) := inferInstanceAs (Decidable (_ ∧ _))

def setBit (b : Nat) (x : Bool) : Volume := { v with bit := Function.update v.bit b x }

def setInode (n : Nat) (inode : UfsInode) : Volume :=
  { v with inode := Function.update v.inode n inode }

def setData (b : Nat) (buf : Bytes) : Volume :=
  { v with data := Function.update v.data b (window buf 0 4096) }

def readBlock (b : Nat) : Option Bytes :=
  if b ≥ v.totalBlocks then none else some (v.data b)

def writeBlock (b : Nat) (buf : Bytes) : Volume :=
  if b ≥ v.totalBlocks then v else v.setData b buf

def readInode (n : Nat) : Option UfsInode :=
  if v.HasInode n then some (v.inode n) else none

def writeInode (n : Nat) (inode : UfsInode) : Volume :=
  if v.HasInode n then v.setInode n inode else v

/-- The block the allocator takes next. -/
def nextBlock : Option Nat :=
  ((List.range v.totalBlocks).map
      (ufsAllocCandidate v.totalBlocks v.dataStart v.nextFreeBlock)).find? fun b =>
    !decide (b < v.dataStart) && decide (b < v.totalBlocks) && !v.bit b

/-- The volume after the allocator has taken block `b`. -/
def takeBlock (b : Nat) : Volume :=
  { (v.setBit b true).setData b zeros with
    freeBlocks := v.freeBlocks - 1#32
    nextFreeBlock := (b + 1) % 2 ^ 32 }

def freeBlock (b : Nat) : Volume :=
  if b = 0 ∨ b ≥ v.totalBlocks then v
  else
    { v.setBit b false with
      freeBlocks := v.freeBlocks + 1#32
      nextFreeBlock := if b < v.nextFreeBlock then b else v.nextFreeBlock }

/-- The inode the allocator takes next. -/
def nextInode : Option Nat :=
  ((List.range v.inodeCount).map (ufsInodeCandidate v.inodeCount v.nextFreeInode)).find? fun n =>
    decide (v.HasInode n) && (v.inode n).mode == 0#16

/-- The volume after the allocator has taken inode `n`. -/
def takeInode (n : Nat) : Volume :=
  { v.setInode n .zero with
    freeInodes := v.freeInodes - 1#32
    nextFreeInode := (n + 1) % 2 ^ 32 }

def freeInode (n : Nat) : Volume :=
  if v.HasInode n then
    { v.setInode n .zero with
      freeInodes := v.freeInodes + 1#32
      nextFreeInode := if n < v.nextFreeInode then n else v.nextFreeInode }
  else v

def freeInodeBlocks (n : Nat) : Volume :=
  if v.HasInode n then (extentBlocks (v.inode n).extents).foldl freeBlock v else v

/-- `ufsDirScan` on a volume. -/
def scan (dir : UfsInode) (test : Bytes → Nat → Bool) : Option (Nat × Bytes × Nat) :=
  (List.range (ufsDirBlocks dir)).findSome? fun i =>
    let b := ufsGetBlock dir.extents i
    if b = 0 then none
    else
      match v.readBlock b with
      | none => none
      | some ents => ((List.range 64).find? (test ents)).map fun j => (b, ents, j)

def find (d : Nat) (name : CStr) : Option Nat :=
  if v.HasInode d then
    (v.scan (v.inode d) (direntMatches name)).map fun r => (direntInode r.2.1 r.2.2).toNat
  else none

/-- `ufs_add_to_dir`, and whether it succeeds. -/
def addEntry (d ino : Nat) (name : CStr) (type : BitVec 8) : Bool × Volume :=
  if v.HasInode d then
    let dir := v.inode d
    match v.scan dir direntFree with
    | some (b, ents, j) =>
      (true, (v.writeBlock b (direntPut ents j ino name type)).writeInode d
        { dir with size := dir.size + 64#32 })
    | none =>
      match v.nextBlock with
      | none => (false, v)
      | some nb =>
        let v := (v.takeBlock nb).setData nb (direntPut zeros 0 ino name type)
        if appendFits dir.extents nb then
          (true, v.writeInode d { dir.append nb with
            size := dir.size + 64#32
            blocks := (dir.size + 64#32 + 511#32) / 512#32 })
        else (false, v.freeBlock nb)
  else (false, v)

/-- `ufs_remove_from_dir`, and whether it succeeds. -/
def removeEntry (d : Nat) (name : CStr) : Bool × Volume :=
  if v.HasInode d then
    let dir := v.inode d
    match v.scan dir (direntMatches name) with
    | none => (false, v)
    | some (b, ents, j) =>
      (true, (v.writeBlock b (direntClear ents j)).writeInode d
        { dir with size := dir.size - 64#32 })
  else (false, v)

/-- The common course of `ufs_vfs_create`, `ufs_vfs_mkdir` and
`ufs_vfs_symlink`: inode, first block, entry. -/
def make (d : Nat) (name : CStr) (node : NewNode) : Bool × Volume :=
  if (v.find d name).isSome then (false, v)
  else
    match v.nextInode with
    | none => (false, v)
    | some n =>
      let v := v.takeInode n
      match node.firstBlock with
      | none => (v.setInode n node.inode).addEntry d n name node.type
      | some contents =>
        match v.nextBlock with
        | none => (false, v.freeInode n)
        | some b =>
          (((v.takeBlock b).setData b (contents n)).setInode n
            (node.inode.append b)).addEntry d n name node.type

/-- The check of `ufs_vfs_unlink` that refuses directories with entries. -/
def refusesUnlink (inode : UfsInode) : Bool :=
  inode.isDir && decide (inode.size.toNat > 128) && (v.scan inode direntUsed).isSome

def unlink (d : Nat) (name : CStr) : Bool × Volume :=
  match v.find d name with
  | none => (false, v)
  | some n =>
    if ¬ v.HasInode n ∨ v.refusesUnlink (v.inode n) then (false, v)
    else ((v.freeInodeBlocks n).freeInode n).removeEntry d name

def rename (d₁ : Nat) (a : CStr) (d₂ : Nat) (b : CStr) : Bool × Volume :=
  match v.find d₁ a with
  | none => (false, v)
  | some n =>
    if ¬ v.HasInode n then (false, v)
    else
      let v' := (v.removeEntry d₂ b).2
      let r := v'.removeEntry d₁ a
      if r.1 then r.2.addEntry d₂ n b (if (v.inode n).isDir then 2#8 else 1#8)
      else (false, r.2)

/-- `ufsBlockForWrite` on a volume. -/
def blockForWrite (inode : UfsInode) (idx : Nat) : Option Nat × Volume × UfsInode :=
  let b := ufsGetBlock inode.extents idx
  if b ≠ 0 then (some b, v, inode)
  else
    match v.nextBlock with
    | none => (none, v, inode)
    | some nb =>
      if appendFits inode.extents nb then (some nb, v.takeBlock nb, inode.append nb)
      else (none, (v.takeBlock nb).freeBlock nb, inode.append nb)

/-- `ufsWriteLoop` on a volume. -/
def writeLoop (buf : Bytes) (size : Nat) :
    Nat → Volume → UfsInode → Nat → Nat → Nat → Volume × UfsInode × Nat
  | 0, v, inode, _, _, written => (v, inode, written)
  | rounds + 1, v, inode, startBlock, startOff, written =>
    if written < size then
      match v.blockForWrite inode startBlock with
      | (none, v, inode) => (v, inode, written)
      | (some b, v, inode) =>
        if b ≥ v.totalBlocks then (v, inode, written)
        else
          let chunk := min (4096 - startOff) (size - written)
          writeLoop buf size rounds
            (v.setData b (blit (v.data b) startOff (fun i => buf (written + i)) chunk))
            inode ((startBlock + 1) % 2 ^ 32) 0 (written + chunk)
    else (v, inode, written)

/-- The inode `ufs_vfs_write` stores when the file has grown to `size` bytes. -/
def grownInode (inode : UfsInode) (size : Nat) (ticks : BitVec 32) : UfsInode :=
  { inode with
    size := BitVec.ofNat 32 size
    blocks := (BitVec.ofNat 32 size + 511#32) / 512#32
    mtime := ticks }

/-- `ufs_vfs_write` to inode `n`: the number of bytes written and the volume. -/
def write (n : Nat) (buf : Bytes) (size offset : Nat) (ticks : BitVec 32) : Nat × Volume :=
  let r := writeLoop buf size size v (v.inode n) (offset / 4096 % 2 ^ 32) (offset % 4096) 0
  if (offset + r.2.2) % 2 ^ 64 > r.2.1.size.toNat then
    (r.2.2, r.1.setInode n (grownInode r.2.1 (offset + r.2.2) ticks))
  else (r.2.2, r.1)

end Volume

end Utms7
