import Utms7.UfsOperations

/-!
# The Linux driver

`tools/ufs/ufs.c`: mounting, the inode table and the directory operations.

The state is the `ufs_sb_info`, the bytes of the device and the inodes the
kernel has in core.  Buffers are written through (`sync_dirty_buffer`), so
the device is always up to date, and `sb_bread` and `sb_getblk` succeed.  The
mutex only serialises the allocators.  An in-core inode stays in core; what
`ufs_evict_inode` does when the last user is gone is a step of its own.
-/

namespace Utms7

open ByteMemory

namespace Linux

/-- `struct ufs_inode_info`, with the members of the VFS inode that the driver
reads or sets. -/
structure UfsInodeInfo where
  diskInode : UfsInode
  ino : Nat
  iMode : BitVec 16
  iUid : BitVec 32
  iGid : BitVec 32
  iNlink : BitVec 32
  iSize : Nat
  iAtime : BitVec 32
  iMtime : BitVec 32
  iCtime : BitVec 32

/-- The mounted file system: `sbi->sb`, the device and the inodes in core. -/
structure UfsSbInfo where
  sb : UfsSuperblock
  disk : Bytes
  inodes : Nat → Option UfsInodeInfo

/-- `ENOENT`. -/
def enoent : Int := 2

/-- `sb_bread(sb, block)->b_data`. -/
def sbBread (disk : Bytes) (block : Nat) : Bytes := window disk (block * 4096) 4096

/-- A buffer written back to its block. -/
def syncBuffer (s : UfsSbInfo) (block : Nat) (data : Bytes) : UfsSbInfo :=
  { s with disk := blit s.disk (block * 4096) data 4096 }

/-- `ufs_calc_sb_checksum`. -/
def ufsCalcSbChecksum (sb : UfsSuperblock) : BitVec 32 :=
  ({ sb with checksum := 0 } : UfsSuperblock).words.foldl (· ^^^ ·) 0#32

/-- `ufs_calc_inode_checksum`. -/
def ufsCalcInodeChecksum (inode : UfsInode) : BitVec 32 :=
  ({ inode with checksum := 0 } : UfsInode).words.foldl (· ^^^ ·) 0#32

/-- The block of the inode table that holds inode `ino`. -/
def inodeBlock (sb : UfsSuperblock) (ino : Nat) : Nat :=
  (sb.inodeTableStart.toNat + (ino + 2 ^ 32 - 1) % 2 ^ 32 / 30) % 2 ^ 32

/-- The byte offset of inode `ino` in its block. -/
def inodeOffset (ino : Nat) : Nat := (ino + 2 ^ 32 - 1) % 2 ^ 32 % 30 * 136

/-- `ufs_read_inode`: the inode in core that it fills, or the error. -/
def ufsReadInode (sb : UfsSuperblock) (disk : Bytes) (ino : Nat) : Except Int UfsInodeInfo :=
  let inode := UfsInode.ofBytes (sbBread disk (inodeBlock sb ino)) (inodeOffset ino)
  if inode.checksum ≠ ufsCalcInodeChecksum inode then .error (-eio)
  else
    .ok
      { diskInode := inode
        ino := ino
        iMode := inode.mode
        iUid := inode.uid.setWidth 32
        iGid := inode.gid.setWidth 32
        iNlink := inode.nlink.setWidth 32
        iSize := inode.size.toNat
        iAtime := inode.atime
        iMtime := inode.mtime
        iCtime := inode.ctime }

/-- The superblock check of `ufs_fill_super`. -/
def ufsCheckSuper (disk : Bytes) : Except Int UfsSuperblock :=
  let dsb := UfsSuperblock.ofBytes (sbBread disk 0) 0
  if dsb.magic ≠ ufsMagic then .error (-einval)
  else if dsb.checksum ≠ ufsCalcSbChecksum dsb then .error (-eio)
  else .ok dsb

/-- `ufs_iget`: the inode in core, read if it is not there yet. -/
def ufsIget (s : UfsSbInfo) (ino : Nat) : Except Int (UfsInodeInfo × UfsSbInfo) :=
  match s.inodes ino with
  | some inode => .ok (inode, s)
  | none =>
    match ufsReadInode s.sb s.disk ino with
    | .error _ => .error (-eio)
    | .ok inode => .ok (inode, { s with inodes := Function.update s.inodes ino (some inode) })

/-- The in-core inode that a pointer to inode `n` refers to. -/
def deref (s : UfsSbInfo) (n : Nat) : UfsInodeInfo :=
  (s.inodes n).getD
    { diskInode := .zero, ino := n, iMode := 0, iUid := 0, iGid := 0, iNlink := 0, iSize := 0,
      iAtime := 0, iMtime := 0, iCtime := 0 }

/-- Stores through a pointer to inode `n`. -/
def assign (s : UfsSbInfo) (n : Nat) (inode : UfsInodeInfo) : UfsSbInfo :=
  { s with inodes := Function.update s.inodes n (some inode) }

/-- `ufs_write_superblock`. -/
def ufsWriteSuperblock (s : UfsSbInfo) : UfsSbInfo :=
  let sb := { s.sb with checksum := ufsCalcSbChecksum s.sb }
  syncBuffer { s with sb := sb } 0 (blit (sbBread s.disk 0) 0 (bytesOfWords sb.words) 260)

/-- The block of the bitmap that holds the bit of block `b`. -/
def bitmapBlock (sb : UfsSuperblock) (b : Nat) : Nat := (sb.bitmapStart.toNat + b / 32768) % 2 ^ 32

/-- `bh->b_data[off] & (1 << bit)` for block `b`. -/
def bitmapBit (s : UfsSbInfo) (b : Nat) : Bool :=
  (sbBread s.disk (bitmapBlock s.sb b) (b % 32768 / 8)).getLsbD (b % 8)

/-- The bit of block `b` set or cleared in its buffer. -/
def bitmapStore (s : UfsSbInfo) (b : Nat) (val : Bool) : UfsSbInfo :=
  let buf := sbBread s.disk (bitmapBlock s.sb b)
  let off := b % 32768 / 8
  let byte := if val then buf off ||| (1#8 <<< (b % 8)) else buf off &&& ~~~(1#8 <<< (b % 8))
  syncBuffer s (bitmapBlock s.sb b) (putByte buf off byte)

/-- `ufs_alloc_block`: the first free block, or 0.  Its contents stay. -/
def ufsAllocBlock (s : UfsSbInfo) : Nat × UfsSbInfo :=
  let start := s.sb.dataStart.toNat
  match (List.range' start (s.sb.totalBlocks.toNat - start)).find? fun b => !bitmapBit s b with
  | none => (0, s)
  | some b =>
    let s := bitmapStore s b true
    if b ≠ 0 then
      (b, ufsWriteSuperblock { s with sb := { s.sb with freeBlocks := s.sb.freeBlocks - 1#32 } })
    else (b, s)

/-- `ufs_free_block`, which takes any block number. -/
def ufsFreeBlock (s : UfsSbInfo) (b : Nat) : UfsSbInfo :=
  let s := bitmapStore s b false
  ufsWriteSuperblock { s with sb := { s.sb with freeBlocks := s.sb.freeBlocks + 1#32 } }

/-- The record that `ufs_write_inode` stores for an inode in core. -/
def UfsInodeInfo.record (ui : UfsInodeInfo) : UfsInode :=
  let inode := { ui.diskInode with
    mode := ui.iMode
    uid := ui.iUid.setWidth 16
    gid := ui.iGid.setWidth 16
    nlink := ui.iNlink.setWidth 16
    size := BitVec.ofNat 32 ui.iSize
    atime := ui.iAtime
    mtime := ui.iMtime
    ctime := ui.iCtime }
  { inode with checksum := ufsCalcInodeChecksum inode }

/-- A record stored in the inode table. -/
def storeInode (s : UfsSbInfo) (ino : Nat) (inode : UfsInode) : UfsSbInfo :=
  syncBuffer s (inodeBlock s.sb ino)
    (blit (sbBread s.disk (inodeBlock s.sb ino)) (inodeOffset ino) (bytesOfWords inode.words) 136)

/-- `ufs_write_inode`. -/
def ufsWriteInode (s : UfsSbInfo) (inode : Nat) : UfsSbInfo :=
  let ui := deref s inode
  storeInode (assign s inode { ui with diskInode := ui.record }) ui.ino ui.record

/-- `ufs_evict_inode`, without what it does to the page cache. -/
def ufsEvictInode (s : UfsSbInfo) (inode : Nat) : UfsSbInfo :=
  let ui := deref s inode
  if ui.iNlink = 0#32 then
    ufsFreeBlock ((extentBlocks ui.diskInode.extents).foldl ufsFreeBlock s) ui.ino
  else s

/-- `di->mode == 0`, with which `ufs_new_inode` finds a free slot of the table. -/
def slotIsFree (s : UfsSbInfo) (ino : Nat) : Bool :=
  (UfsInode.ofBytes (sbBread s.disk (inodeBlock s.sb ino)) (inodeOffset ino)).mode == 0#16

/-- The record that `ufs_new_inode` stores. -/
def newRecord (mode : BitVec 16) (now : BitVec 32) : UfsInode :=
  let di := { UfsInode.zero with
    mode := mode
    nlink := 1#16
    atime := now
    mtime := now
    ctime := now }
  { di with checksum := ufsCalcInodeChecksum di }

/-- `ufs_new_inode` takes slot `ino` of the table. -/
def takeSlot (s : UfsSbInfo) (ino : Nat) (mode : BitVec 16) (now : BitVec 32) : UfsSbInfo :=
  let s := storeInode s ino (newRecord mode now)
  ufsWriteSuperblock { s with sb := { s.sb with freeInodes := s.sb.freeInodes - 1#32 } }

/-- `ufs_new_inode`: the number of the new inode, which is in core, or the error. -/
def ufsNewInode (s : UfsSbInfo) (mode : BitVec 16) (now : BitVec 32) :
    Except Int Nat × UfsSbInfo :=
  match (List.range' 1 s.sb.inodeCount.toNat).find? (slotIsFree s) with
  | none => (.error (-enospc), s)
  | some ino =>
    match ufsIget (takeSlot s ino mode now) ino with
    | .error e => (.error e, takeSlot s ino mode now)
    | .ok (_, s) => (.ok ino, s)

/-! ## File data -/

/-- The loop that every function of the driver has inline: block `idx` of the
file, or 0.  It is the loop of the kernel's `ufs_get_block`. -/
def physBlock (ui : UfsInodeInfo) (idx : Nat) : Nat := ufsGetBlock ui.diskInode.extents idx

/-- The first unused extent becomes block `b`; without one nothing is recorded. -/
def addExtent : List Extent → Nat → List Extent
  | [], _ => []
  | e :: es, b =>
    if e.len = 0#32 then ⟨BitVec.ofNat 32 b, 1#32⟩ :: es else e :: addExtent es b

@[simp] theorem addExtent_length (es : List Extent) (b : Nat) :
    (addExtent es b).length = es.length := by
  induction es with
  | nil => rfl
  | cons e es ih =>
    simp only [addExtent]
    split
    · rfl
    · simp [ih]

/-- The in-core inode with that extent. -/
def UfsInodeInfo.addBlock (ui : UfsInodeInfo) (b : Nat) : UfsInodeInfo :=
  { ui with diskInode := { ui.diskInode with
      extents := addExtent ui.diskInode.extents b
      extents_length := by rw [addExtent_length, ui.diskInode.extents_length] } }

/-- `ufs_read_folio`: the contents of the page with this index. -/
def ufsReadFolio (s : UfsSbInfo) (inode index : Nat) : Bytes :=
  let block := physBlock (deref s inode) (index % 2 ^ 32)
  if block = 0 then zeros else sbBread s.disk block

/-- `ufs_write_begin`: the state and the page to write to, or the error.
`cached` is the page if the page cache has it. -/
def ufsWriteBegin (s : UfsSbInfo) (inode pos : Nat) (cached : Option Bytes) :
    Except Int Bytes × UfsSbInfo :=
  let block := physBlock (deref s inode) (pos / 4096 % 2 ^ 32)
  if block = 0 then
    let r := ufsAllocBlock s
    if r.1 = 0 then (.error (-enospc), r.2)
    else
      let s := ufsWriteInode (assign r.2 inode ((deref r.2 inode).addBlock r.1)) inode
      (.ok (cached.getD (sbBread s.disk r.1)), s)
  else (.ok (cached.getD (sbBread s.disk block)), s)

/-- `ufs_write_end` with the page as the caller has filled it. -/
def ufsWriteEnd (s : UfsSbInfo) (inode pos copied : Nat) (page : Bytes) : UfsSbInfo :=
  let block := physBlock (deref s inode) (pos / 4096 % 2 ^ 32)
  let s := if block > 0 then syncBuffer s block page else s
  let ui := deref s inode
  if pos + copied > ui.iSize then
    ufsWriteInode (assign s inode { ui with iSize := pos + copied }) inode
  else s

/-! ## Directories -/

/-- `strncmp(m + off, s, n) == 0`. -/
def strncmpEq (m : Bytes) (off : Nat) : Nat → List (BitVec 8) → Bool
  | 0, _ => true
  | _ + 1, [] => m off == 0#8
  | n + 1, c :: cs => m off == c && strncmpEq m (off + 1) n cs

/-- `(i_size + UFS_BLOCK_SIZE - 1) / UFS_BLOCK_SIZE`. -/
def dirBlocks (ui : UfsInodeInfo) : Nat := (ui.iSize + 4095) / 4096 % 2 ^ 32

/-- The walk over a directory: the first block and entry that pass the test.
It ends at the first block that is not there. -/
def dirScan (s : UfsSbInfo) (ui : UfsInodeInfo) (test : Bytes → Nat → Bool) : Nat → Nat →
    Option (Nat × Nat)
  | 0, _ => none
  | n + 1, b =>
    let block := physBlock ui b
    if block = 0 then none
    else
      match (List.range 64).find? (test (sbBread s.disk block)) with
      | some j => some (block, j)
      | none => dirScan s ui test n (b + 1)

/-- The record that `ufs_add_entry` stores. -/
def newEnt (ino : Nat) (name : CStr) (type : BitVec 8) : Bytes :=
  let ent := putU32 zeros 0 (BitVec.ofNat 32 ino)
  let ent := putByte ent 4 type
  let ent := strcpy ent 8 (name.chars.take 55)
  putByte ent 5 (BitVec.ofNat 8 (name.chars.take 55).length)

/-- `ufs_add_entry`. -/
def ufsAddEntry (s : UfsSbInfo) (dir : Nat) (name : CStr) (ino : Nat) (type : BitVec 8) :
    Int × UfsSbInfo :=
  let ui := deref s dir
  match dirScan s ui direntFree (dirBlocks ui) 0 with
  | some (block, j) =>
    (0, syncBuffer s block (blit (sbBread s.disk block) (64 * j) (newEnt ino name type) 64))
  | none =>
    let r := ufsAllocBlock s
    if r.1 = 0 then (-enospc, r.2)
    else
      let s := syncBuffer r.2 r.1 (blit zeros 0 (newEnt ino name type) 64)
      let ui' := (deref s dir).addBlock r.1
      let ui' := { ui' with iSize := (dirBlocks ui + 1) * 4096 % 2 ^ 32 }
      (0, ufsWriteInode (assign s dir ui') dir)

/-- `ents[j].inode != 0 && strncmp(ents[j].name, name, 56) == 0`. -/
def entMatches (name : CStr) (ents : Bytes) (j : Nat) : Bool :=
  direntInode ents j != 0#32 && strncmpEq ents (64 * j + 8) 56 name.chars

/-- `ufs_remove_entry`. -/
def ufsRemoveEntry (s : UfsSbInfo) (dir : Nat) (name : CStr) : Int × UfsSbInfo :=
  let ui := deref s dir
  match dirScan s ui (entMatches name) (dirBlocks ui) 0 with
  | some (block, j) => (0, syncBuffer s block (direntClear (sbBread s.disk block) j))
  | none => (-enoent, s)

/-- `ufs_lookup`: the inode that the entry names, in core, `none` if there is no
entry, or the error. -/
def ufsLookup (s : UfsSbInfo) (dir : Nat) (name : CStr) : Except Int (Option Nat × UfsSbInfo) :=
  let ui := deref s dir
  match dirScan s ui (entMatches name) (dirBlocks ui) 0 with
  | none => .ok (none, s)
  | some (block, j) =>
    let ino := (direntInode (sbBread s.disk block) j).toNat
    (ufsIget s ino).map fun r => (some ino, r.2)

/-- `S_IFREG`. -/
def sIfreg : BitVec 16 := 0x8000#16

/-- `S_IFDIR`. -/
def sIfdir : BitVec 16 := 0x4000#16

/-- `S_ISDIR(mode)`. -/
def sIsdir (mode : BitVec 16) : Bool := mode &&& 0xF000#16 == sIfdir

/-- `ufs_create`. -/
def ufsCreate (s : UfsSbInfo) (dir : Nat) (name : CStr) (mode : BitVec 16) (now : BitVec 32) :
    Int × UfsSbInfo :=
  match ufsNewInode s (mode ||| sIfreg) now with
  | (.error e, s) => (e, s)
  | (.ok ino, s) => ufsAddEntry s dir name ino 1#8

/-- The name `.`. -/
def dot : CStr := ⟨[46#8], by decide⟩

/-- The name `..`. -/
def dotdot : CStr := ⟨[46#8, 46#8], by decide⟩

/-- `ufs_mkdir`. -/
def ufsMkdir (s : UfsSbInfo) (dir : Nat) (name : CStr) (mode : BitVec 16) (now : BitVec 32) :
    Int × UfsSbInfo :=
  match ufsNewInode s (mode ||| sIfdir) now with
  | (.error e, s) => (e, s)
  | (.ok ino, s) =>
    -- The results of these two calls are ignored.
    let s := (ufsAddEntry s ino dot ino 2#8).2
    let s := (ufsAddEntry s ino dotdot dir 2#8).2
    let r := ufsAddEntry s dir name ino 2#8
    if r.1 ≠ 0 then r
    else
      let s := ufsWriteInode (assign r.2 ino { deref r.2 ino with iSize := 128 }) ino
      (0, assign s dir { deref s dir with iNlink := (deref s dir).iNlink + 1#32 })

/-- `ufs_unlink` of the entry `name` for the inode that it names. -/
def ufsUnlink (s : UfsSbInfo) (dir : Nat) (name : CStr) (inode : Nat) : Int × UfsSbInfo :=
  let r := ufsRemoveEntry s dir name
  if r.1 ≠ 0 then r
  else
    let ui := deref r.2 inode
    (0, ufsWriteInode (assign r.2 inode { ui with iNlink := ui.iNlink - 1#32 }) inode)

/-- `ufs_rmdir`. -/
def ufsRmdir (s : UfsSbInfo) (dir : Nat) (name : CStr) (inode : Nat) : Int × UfsSbInfo :=
  if (deref s inode).iSize > 128 then (-enotempty, s)
  else
    let r := ufsUnlink s dir name inode
    if r.1 ≠ 0 then r
    else
      let ui := deref r.2 dir
      (r.1, assign r.2 dir { ui with iNlink := ui.iNlink - 1#32 })

end Linux

end Utms7
