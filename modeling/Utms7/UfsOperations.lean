import Utms7.CString
import Utms7.UfsBlocks

/-!
# The kernel driver's directory and VFS operations

`kernel/fs/ufs.c` from `ufs_find_in_dir` on: directory blocks, the entry
points the VFS calls, format and mount.

A directory block is 64 packed `ufs_dirent_t` records of 64 bytes: inode
number, type, name length, padding and 56 bytes of name.  Five functions walk
a directory with the same two nested loops; the walk is `ufsDirScan`, and each
of them applies it to its own test.  Results of `get_ticks()` are arguments.
`vfs_resolve_path`, `kmalloc` and `vfs_create_node` succeed.
-/

namespace Utms7

open ByteMemory

/-- The `VFS_*` node types. -/
inductive VfsType where
  | file
  | dir
  | symlink
  | blockDevice
deriving DecidableEq

/-- The fields of `vfs_node_t` that the driver reads or sets; `private` is
the mount, an argument of every operation. -/
structure VfsNode where
  type : VfsType
  mode : BitVec 32
  size : Nat
  fsData : BitVec 32
deriving DecidableEq

/-- A `VFS_BLOCK_DEVICE` node: its size in bytes and its contents. -/
structure BlockDevice where
  size : Nat
  disk : Bytes

/-- One element of the buffer that `readdir` fills. -/
structure VfsDirent where
  name : List (BitVec 8)
  type : VfsType
  size : Nat
deriving DecidableEq

/-- `ents[j].inode`. -/
def direntInode (ents : Bytes) (j : Nat) : BitVec 32 := getU32 ents (64 * j)

/-- `ents[j].name_len`. -/
def direntNameLen (ents : Bytes) (j : Nat) : BitVec 8 := ents (64 * j + 5)

/-- `strlen(ents[j].name)`; the callers have just ended the name with a NUL. -/
def direntStrlen (ents : Bytes) (j : Nat) : Nat := (cstrAt ents (64 * j + 8) 56).length

/-- The stores with which `ufs_add_to_dir` fills entry `j`. -/
def direntPut (ents : Bytes) (j ino : Nat) (name : CStr) (type : BitVec 8) : Bytes :=
  let ents := putU32 ents (64 * j) (BitVec.ofNat 32 ino)
  let ents := putByte ents (64 * j + 4) type
  let ents := strncpy ents (64 * j + 8) name.chars 55
  let ents := putByte ents (64 * j + 8 + 55) 0#8
  putByte ents (64 * j + 5) (BitVec.ofNat 8 (direntStrlen ents j))

/-- The stores with which `ufs_remove_from_dir` clears entry `j`. -/
def direntClear (ents : Bytes) (j : Nat) : Bytes :=
  putByte (putU32 ents (64 * j) 0#32) (64 * j + 8) 0#8

/-- The first block of a new directory: `.` and `..`. -/
def direntDots (self parent : Nat) : Bytes :=
  let ents := putU32 zeros 0 (BitVec.ofNat 32 self)
  let ents := putByte ents 4 2#8
  let ents := strcpy ents 8 [46#8]
  let ents := putByte ents 5 1#8
  let ents := putU32 ents 64 (BitVec.ofNat 32 parent)
  let ents := putByte ents 68 2#8
  let ents := strcpy ents 72 [46#8, 46#8]
  putByte ents 69 2#8

/-- `(dir.size + UFS_BLOCK_SIZE - 1) / UFS_BLOCK_SIZE`. -/
def ufsDirBlocks (dir : UfsInode) : Nat := (dir.size.toNat + 4095) % 2 ^ 32 / 4096

/-- The walk over the entries of a directory that its size accounts for: the
first block and entry that pass the test, with the contents of the block. -/
def ufsDirScan (m : UfsMount) (dir : UfsInode) (test : Bytes → Nat → Bool) :
    Option (Nat × Bytes × Nat) :=
  (List.range (ufsDirBlocks dir)).findSome? fun i =>
    let b := ufsGetBlock dir.extents i
    if b = 0 then none
    else
      match ufsReadBlock m b with
      | none => none
      | some ents => ((List.range 64).find? (test ents)).map fun j => (b, ents, j)

/-- `ents[j].inode != 0 && strcmp(ents[j].name, name) == 0`. -/
def direntMatches (name : CStr) (ents : Bytes) (j : Nat) : Bool :=
  direntInode ents j != 0#32 && strcmpEq ents (64 * j + 8) name.chars

/-- `ents[j].inode == 0`. -/
def direntFree (ents : Bytes) (j : Nat) : Bool := direntInode ents j == 0#32

/-- `ents[j].inode != 0`. -/
def direntUsed (ents : Bytes) (j : Nat) : Bool := direntInode ents j != 0#32

/-- `ufs_find_in_dir`; `none` stands for `-1`. -/
def ufsFindInDir (m : UfsMount) (dirIno : Nat) (name : CStr) : Option Nat :=
  match ufsReadInode m dirIno with
  | none => none
  | some dir =>
    (ufsDirScan m dir (direntMatches name)).map fun r => (direntInode r.2.1 r.2.2).toNat

/-- `ufs_add_to_dir`. -/
def ufsAddToDir (m : UfsMount) (dirIno ino : Nat) (name : CStr) (type : BitVec 8) :
    Int × UfsMount :=
  match ufsReadInode m dirIno with
  | none => (-1, m)
  | some dir =>
    match ufsDirScan m dir direntFree with
    | some (b, ents, j) =>
      let m := (ufsWriteBlock m b (direntPut ents j ino name type)).2
      (0, (ufsWriteInode m dirIno { dir with size := dir.size + 64#32 }).2)
    | none =>
      let r := ufsAllocBlock m
      if r.1 = 0 then (-1, r.2)
      else
        let w := ufsWriteBlock r.2 r.1 (direntPut zeros 0 ino name type)
        let a := ufsAppendBlock dir r.1
        if w.1 ≠ 0 ∨ a.1 ≠ 0 then (-1, ufsFreeBlock w.2 r.1)
        else
          let dir := { a.2 with size := a.2.size + 64#32 }
          let dir := { dir with blocks := (dir.size + 511#32) / 512#32 }
          (0, (ufsWriteInode w.2 dirIno dir).2)

/-- `ufs_remove_from_dir`. -/
def ufsRemoveFromDir (m : UfsMount) (dirIno : Nat) (name : CStr) : Int × UfsMount :=
  match ufsReadInode m dirIno with
  | none => (-1, m)
  | some dir =>
    match ufsDirScan m dir (direntMatches name) with
    | none => (-1, m)
    | some (b, ents, j) =>
      let m := (ufsWriteBlock m b (direntClear ents j)).2
      (0, (ufsWriteInode m dirIno { dir with size := dir.size - 64#32 }).2)

/-- The node type `ufs_vfs_lookup` and `ufs_vfs_readdir` give an inode. -/
def ufsNodeType (inode : UfsInode) : VfsType :=
  if inode.mode &&& ufsInodeDir ≠ 0#16 then .dir else .file

/-- `ufs_vfs_create`. -/
def ufsVfsCreate (m : UfsMount) (dir : VfsNode) (name : CStr) (mode ticks : BitVec 32) :
    Int × UfsMount :=
  if !m.mounted then (-einval, m)
  else if (ufsFindInDir m dir.fsData.toNat name).isSome then (-eexist, m)
  else
    let r := ufsAllocInode m
    if r.1 = 0 then (-enospc, r.2)
    else
      let inode := { UfsInode.zero with
        mode := ufsInodeFile ||| (mode &&& 0x1FF#32).setWidth 16
        nlink := 1#16
        atime := ticks
        mtime := ticks
        ctime := ticks }
      let w := ufsWriteInode r.2 r.1 inode
      if w.1 ≠ 0 then (w.1, ufsFreeInode w.2 r.1)
      else ufsAddToDir w.2 dir.fsData.toNat r.1 name 1#8

/-- `ufs_vfs_mkdir`. -/
def ufsVfsMkdir (m : UfsMount) (dir : VfsNode) (name : CStr) (mode ticks : BitVec 32) :
    Int × UfsMount :=
  if !m.mounted then (-1, m)
  else if (ufsFindInDir m dir.fsData.toNat name).isSome then (-1, m)
  else
    let r := ufsAllocInode m
    if r.1 = 0 then (-1, r.2)
    else
      let inode := { UfsInode.zero with
        mode := ufsInodeDir ||| (mode &&& 0x1FF#32).setWidth 16
        nlink := 2#16
        atime := ticks
        mtime := ticks
        ctime := ticks }
      let a := ufsAllocBlock r.2
      if a.1 = 0 then (-1, ufsFreeInode a.2 r.1)
      else
        let inode := { (ufsAppendBlock inode a.1).2 with
          size := 128#32
          blocks := (128#32 + 511#32) / 512#32 }
        let m := (ufsWriteBlock a.2 a.1 (direntDots r.1 dir.fsData.toNat)).2
        let m := (ufsWriteInode m r.1 inode).2
        ufsAddToDir m dir.fsData.toNat r.1 name 2#8

/-- `ufs_vfs_symlink`. -/
def ufsVfsSymlink (m : UfsMount) (dir : VfsNode) (name target : CStr) (ticks : BitVec 32) :
    Int × UfsMount :=
  if !m.mounted then (-1, m)
  else if (ufsFindInDir m dir.fsData.toNat name).isSome then (-1, m)
  else
    let r := ufsAllocInode m
    if r.1 = 0 then (-1, r.2)
    else
      let inode := { UfsInode.zero with
        mode := ufsInodeSymlink ||| 0x1FF#16
        nlink := 1#16
        atime := ticks
        mtime := ticks
        ctime := ticks
        size := BitVec.ofNat 32 target.chars.length }
      let a := ufsAllocBlock r.2
      if a.1 = 0 then (-1, ufsFreeInode a.2 r.1)
      else
        let m := (ufsWriteBlock a.2 a.1 (strncpy zeros 0 target.chars 4095)).2
        let inode := (ufsAppendBlock inode a.1).2
        let inode := { inode with blocks := (inode.size + 511#32) / 512#32 }
        let m := (ufsWriteInode m r.1 inode).2
        ufsAddToDir m dir.fsData.toNat r.1 name 3#8

/-- `ufs_vfs_unlink`. -/
def ufsVfsUnlink (m : UfsMount) (dir : VfsNode) (name : CStr) : Int × UfsMount :=
  if !m.mounted then (-1, m)
  else
    match ufsFindInDir m dir.fsData.toNat name with
    | none => (-1, m)
    | some ino =>
      match ufsReadInode m ino with
      | none => (-1, m)
      | some inode =>
        if inode.mode &&& ufsInodeDir ≠ 0#16 ∧ inode.size.toNat > 128 ∧
            (ufsDirScan m inode direntUsed).isSome then (-enotempty, m)
        else
          let m := ufsFreeInodeBlocks m ino
          let m := ufsFreeInode m ino
          ufsRemoveFromDir m dir.fsData.toNat name

/-- The loop of `ufs_vfs_read`; every round copies at least one byte, so
`toCopy` rounds are enough. -/
def ufsReadLoop (m : UfsMount) (inode : UfsInode) (toCopy : Nat) :
    Nat → Bytes → Nat → Nat → Nat → Bytes × Nat
  | 0, buf, _, _, copied => (buf, copied)
  | rounds + 1, buf, startBlock, startOff, copied =>
    if copied < toCopy then
      let b := ufsGetBlock inode.extents startBlock
      if b = 0 then (buf, copied)
      else
        match ufsReadBlock m b with
        | none => (buf, copied)
        | some blk =>
          let chunk := min (4096 - startOff) (toCopy - copied)
          ufsReadLoop m inode toCopy rounds
            (blit buf copied (fun i => blk (startOff + i)) chunk)
            ((startBlock + 1) % 2 ^ 32) 0 (copied + chunk)
    else (buf, copied)

/-- A byte count returned as `int`. -/
def toInt32 (n : Nat) : Int := (BitVec.ofNat 32 n).toInt

/-- `ufs_vfs_read`: the result and the bytes left in the caller's buffer. -/
def ufsVfsRead (m : UfsMount) (node : VfsNode) (buf : Bytes) (size offset : Nat) :
    Int × Bytes :=
  if !m.mounted ∨ node.type ≠ .file then (-1, buf)
  else
    match ufsReadInode m node.fsData.toNat with
    | none => (-1, buf)
    | some inode =>
      if offset ≥ inode.size.toNat then (0, buf)
      else
        let toCopy := min size (inode.size.toNat - offset)
        let r := ufsReadLoop m inode toCopy toCopy buf (offset / 4096 % 2 ^ 32)
          (offset % 4096) 0
        (toInt32 r.2, r.1)

/-- The block that one round of the loop of `ufs_vfs_write` writes to: block
`idx` of the file, or one allocated and appended for it.  `none` stands for
the `break` when there is no such block. -/
def ufsBlockForWrite (m : UfsMount) (inode : UfsInode) (idx : Nat) :
    Option Nat × UfsMount × UfsInode :=
  let b := ufsGetBlock inode.extents idx
  if b ≠ 0 then (some b, m, inode)
  else
    let r := ufsAllocBlock m
    if r.1 = 0 then (none, r.2, inode)
    else
      let a := ufsAppendBlock inode r.1
      if a.1 ≠ 0 then (none, ufsFreeBlock r.2 r.1, a.2)
      else (some r.1, r.2, a.2)

/-- The loop of `ufs_vfs_write`; every round writes at least one byte, so
`size` rounds are enough. -/
def ufsWriteLoop (buf : Bytes) (size : Nat) :
    Nat → UfsMount → UfsInode → Nat → Nat → Nat → UfsMount × UfsInode × Nat
  | 0, m, inode, _, _, written => (m, inode, written)
  | rounds + 1, m, inode, startBlock, startOff, written =>
    if written < size then
      match ufsBlockForWrite m inode startBlock with
      | (none, m, inode) => (m, inode, written)
      | (some b, m, inode) =>
        match ufsReadBlock m b with
        | none => (m, inode, written)
        | some blk =>
          let chunk := min (4096 - startOff) (size - written)
          let w := ufsWriteBlock m b
            (blit blk startOff (fun i => buf (written + i)) chunk)
          if w.1 ≠ 0 then (w.2, inode, written)
          else
            ufsWriteLoop buf size rounds w.2 inode ((startBlock + 1) % 2 ^ 32) 0
              (written + chunk)
    else (m, inode, written)

/-- `ufs_vfs_write`: the result, the volume and the node, whose size it sets. -/
def ufsVfsWrite (m : UfsMount) (node : VfsNode) (buf : Bytes) (size offset : Nat)
    (ticks : BitVec 32) : Int × UfsMount × VfsNode :=
  if !m.mounted ∨ node.type ≠ .file then (-1, m, node)
  else
    match ufsReadInode m node.fsData.toNat with
    | none => (-1, m, node)
    | some inode =>
      let r := ufsWriteLoop buf size size m inode (offset / 4096 % 2 ^ 32) (offset % 4096) 0
      let m := r.1
      let inode := r.2.1
      let written := r.2.2
      if (offset + written) % 2 ^ 64 > inode.size.toNat then
        let inode := { inode with size := BitVec.ofNat 32 (offset + written) }
        let inode := { inode with
          blocks := (inode.size + 511#32) / 512#32
          mtime := ticks }
        (toInt32 written, (ufsWriteInode m node.fsData.toNat inode).2,
          { node with size := inode.size.toNat })
      else (toInt32 written, m, node)

/-- What `ufs_vfs_readdir` stores for entry `j` of a block. -/
def ufsReaddirEntry (m : UfsMount) (ents : Bytes) (j : Nat) : VfsDirent :=
  let name := cstrAt ents (64 * j + 8) 255
  match ufsReadInode m (direntInode ents j).toNat with
  | some child => { name := name, type := ufsNodeType child, size := child.size.toNat }
  | none => { name := name, type := .file, size := 0 }

/-- How many entries of its block `i` a directory listing looks at: all 64,
except in the last block. -/
def ufsReaddirLimit (dir : UfsInode) (i : Nat) : Nat :=
  if i = ufsDirBlocks dir - 1 then (dir.size.toNat - i * 4096) / 64 else 64

/-- The entries `ufs_vfs_readdir` meets, in order. -/
def ufsReaddirEntries (m : UfsMount) (dir : UfsInode) : List VfsDirent :=
  (List.range (ufsDirBlocks dir)).flatMap fun i =>
    let b := ufsGetBlock dir.extents i
    if b = 0 then []
    else
      match ufsReadBlock m b with
      | none => []
      | some ents =>
        ((List.range (ufsReaddirLimit dir i)).filter fun j =>
          direntInode ents j != 0#32 && decide (direntNameLen ents j > 0#8)).map
            (ufsReaddirEntry m ents)

/-- `ufs_vfs_readdir` into a buffer of `count` entries: the entries stored, or
`none` for `-1`.  The loops stop when the buffer is full. -/
def ufsVfsReaddir (m : UfsMount) (dir : VfsNode) (count : Nat) : Option (List VfsDirent) :=
  if !m.mounted ∨ dir.type ≠ .dir then none
  else (ufsReadInode m dir.fsData.toNat).map fun inode => (ufsReaddirEntries m inode).take count

/-- `ufs_vfs_rename`. -/
def ufsVfsRename (m : UfsMount) (oldDir : VfsNode) (oldName : CStr) (newDir : VfsNode)
    (newName : CStr) : Int × UfsMount :=
  if !m.mounted then (-1, m)
  else
    match ufsFindInDir m oldDir.fsData.toNat oldName with
    | none => (-1, m)
    | some ino =>
      match ufsReadInode m ino with
      | none => (-1, m)
      | some inode =>
        let m := (ufsRemoveFromDir m newDir.fsData.toNat newName).2
        let r := ufsRemoveFromDir m oldDir.fsData.toNat oldName
        if r.1 ≠ 0 then (-1, r.2)
        else
          ufsAddToDir r.2 newDir.fsData.toNat ino newName
            (if inode.mode &&& ufsInodeDir ≠ 0#16 then 2#8 else 1#8)

/-- `ufs_vfs_mount`: the mount and the root node, or the error. -/
def ufsVfsMount (dev : BlockDevice) : Except Int (UfsMount × VfsNode) :=
  let sb := UfsSuperblock.ofBytes (window dev.disk 0 4096) 0
  if sb.magic ≠ ufsMagic then .error (-einval)
  else if sb.checksum ≠ ufsCalcSbChecksum sb then .error (-eio)
  else
    .ok ({ sb := sb, mounted := true, nextFreeBlock := 0, nextFreeInode := 2, disk := dev.disk },
      { type := .dir, mode := 0x1ED#32, size := 0, fsData := sb.rootInode })

/-- `ufs_vfs_unmount`. -/
def ufsVfsUnmount (m : UfsMount) : Int × UfsMount :=
  (0, { (ufsWriteSuperblock m).2 with mounted := false })

/-- The superblock `ufs_vfs_format` starts from: the layout of a volume of
`total` blocks, all of its blocks past the metadata and all inodes free. -/
def ufsFormatSuperblock (total : Nat) : UfsSuperblock :=
  let bitmapBlocks := (total + 32767) % 2 ^ 32 / 32768
  let dataStart := 1 + bitmapBlocks + 35
  { UfsSuperblock.zero with
    magic := ufsMagic
    version := ufsVersion
    totalBlocks := BitVec.ofNat 32 total
    inodeCount := 1024#32
    bitmapStart := 1#32
    inodeTableStart := BitVec.ofNat 32 (1 + bitmapBlocks)
    dataStart := BitVec.ofNat 32 dataStart
    rootInode := 1#32
    freeBlocks := BitVec.ofNat 32 total - BitVec.ofNat 32 dataStart
    freeInodes := 1024#32 }

/-- The inode `ufs_vfs_format` gives the root directory. -/
def ufsRootInode (rootBlock : Nat) (ticks : BitVec 32) : UfsInode :=
  { UfsInode.zero with
    mode := ufsInodeDir ||| 0x1ED#16
    nlink := 2#16
    atime := ticks
    mtime := ticks
    ctime := ticks
    size := 128#32
    blocks := (128#32 + 511#32) / 512#32
    extents := ⟨BitVec.ofNat 32 rootBlock, 1#32⟩ :: List.replicate 7 ⟨0, 0⟩
    extents_length := by simp }

/-- The first half of `ufs_vfs_format`: the metadata blocks are cleared and
marked in the bitmap. -/
def ufsFormatMetadata (total : Nat) (disk : Bytes) : UfsMount :=
  let sb := ufsFormatSuperblock total
  let m : UfsMount :=
    { sb := sb, mounted := false, nextFreeBlock := 0, nextFreeInode := 0, disk := disk }
  let m := (List.range sb.dataStart.toNat).foldl (fun m i => (ufsWriteBlock m i zeros).2) m
  (List.range sb.dataStart.toNat).foldl (fun m i => (ufsBitmapSet m i true).2) m

/-- The second half of `ufs_vfs_format`: the root directory and, last, the
superblock. -/
def ufsFormatRoot (m : UfsMount) (ticks : BitVec 32) : Int × Bytes :=
  let r := ufsAllocBlock m
  if r.1 = 0 then (-1, r.2.disk)
  else
    let m := (ufsWriteInode r.2 1 (ufsRootInode r.1 ticks)).2
    let w := ufsWriteBlock m r.1 (direntDots 1 1)
    if w.1 ≠ 0 then (-1, w.2.disk)
    else
      let m := w.2
      let sb := { m.sb with freeInodes := 1024#32 - 1#32 }
      let sb := { sb with checksum := ufsCalcSbChecksum sb }
      (0, (ufsWriteBlock { m with sb := sb } 0 (blit zeros 0 (bytesOfWords sb.words) 260)).2.disk)

/-- `ufs_vfs_format`: the result and the bytes left on the device. -/
def ufsVfsFormat (dev : BlockDevice) (ticks : BitVec 32) : Int × Bytes :=
  let total := dev.size / 4096 % 2 ^ 32
  if total < 10 then (-1, dev.disk)
  else ufsFormatRoot (ufsFormatMetadata total dev.disk) ticks

end Utms7
