import Utms7.UfsLayout

/-!
# The kernel driver below the directory level

`kernel/fs/ufs.c` up to `ufs_free_inode_blocks`: block access, superblock,
inode table, bitmap, the two allocators and the extent list of an inode.

The mounted volume is the `ufs_mount_t` together with the bytes of the device
it sits on.  The device is error free: `vfs_read` and `vfs_write` transfer all
4096 bytes.  The scratch buffers `blk_buf` and `inode_buf` are local values
here, because no function fills one of them and then calls another function
before it has used what it filled; the only trace they leave is in the bytes
of block 0 past the superblock, which no driver reads and which the model
therefore leaves alone.  A `u32` local variable is a natural number, reduced
modulo `2^32` where the sum that defines it can overflow.
-/

namespace Utms7

open ByteMemory

/-- `ufs_mount_t`, with the contents of `dev_node`. -/
structure UfsMount where
  sb : UfsSuperblock
  mounted : Bool
  nextFreeBlock : Nat
  nextFreeInode : Nat
  disk : Bytes

/-- `EIO`. -/
def eio : Int := 5

/-- `EEXIST`. -/
def eexist : Int := 17

/-- `EINVAL`. -/
def einval : Int := 22

/-- `ENOSPC`. -/
def enospc : Int := 28

/-- `ENOTEMPTY`. -/
def enotempty : Int := 39

/-- `ufs_calc_sb_checksum`. -/
def ufsCalcSbChecksum (sb : UfsSuperblock) : BitVec 32 :=
  ({ sb with checksum := 0 } : UfsSuperblock).words.foldl (· ^^^ ·) 0#32

/-- `ufs_read_block`; `none` stands for its non-zero results. -/
def ufsReadBlock (m : UfsMount) (b : Nat) : Option Bytes :=
  if b ≥ m.sb.totalBlocks.toNat then none
  else some (window m.disk (b * 4096) 4096)

/-- `ufs_write_block`. -/
def ufsWriteBlock (m : UfsMount) (b : Nat) (buf : Bytes) : Int × UfsMount :=
  if b ≥ m.sb.totalBlocks.toNat then (-einval, m)
  else (0, { m with disk := blit m.disk (b * 4096) buf 4096 })

/-- `ufs_write_superblock`. -/
def ufsWriteSuperblock (m : UfsMount) : Int × UfsMount :=
  let sb := { m.sb with checksum := ufsCalcSbChecksum m.sb }
  ufsWriteBlock { m with sb := sb } 0
    (blit (window m.disk 0 4096) 0 (bytesOfWords sb.words) 260)

/-- The block of the inode table that holds inode `ino`. -/
def ufsInodeBlock (m : UfsMount) (ino : Nat) : Nat :=
  (m.sb.inodeTableStart.toNat + (ino - 1) / 30) % 2 ^ 32

/-- The byte offset of inode `ino` in its block. -/
def ufsInodeOffset (ino : Nat) : Nat := (ino - 1) % 30 * 136

/-- `ufs_read_inode`; `none` stands for `-1`. -/
def ufsReadInode (m : UfsMount) (ino : Nat) : Option UfsInode :=
  if ino = 0 ∨ ino > m.sb.inodeCount.toNat then none
  else (ufsReadBlock m (ufsInodeBlock m ino)).map (UfsInode.ofBytes · (ufsInodeOffset ino))

/-- `ufs_write_inode`. -/
def ufsWriteInode (m : UfsMount) (ino : Nat) (inode : UfsInode) : Int × UfsMount :=
  if ino = 0 ∨ ino > m.sb.inodeCount.toNat then (-1, m)
  else
    match ufsReadBlock m (ufsInodeBlock m ino) with
    | none => (-1, m)
    | some buf =>
      ufsWriteBlock m (ufsInodeBlock m ino)
        (blit buf (ufsInodeOffset ino) (bytesOfWords inode.words) 136)

/-- The block of the bitmap that holds the bit of block `b`. -/
def ufsBitmapBlock (m : UfsMount) (b : Nat) : Nat :=
  (m.sb.bitmapStart.toNat + b / 32768) % 2 ^ 32

/-- `ufs_bitmap_get`. -/
def ufsBitmapGet (m : UfsMount) (b : Nat) : Int :=
  if b ≥ m.sb.totalBlocks.toNat then -1
  else
    match ufsReadBlock m (ufsBitmapBlock m b) with
    | none => -1
    | some buf => if (buf (b % 32768 / 8)).getLsbD (b % 8) then 1 else 0

/-- `ufs_bitmap_set`. -/
def ufsBitmapSet (m : UfsMount) (b : Nat) (val : Bool) : Int × UfsMount :=
  if b ≥ m.sb.totalBlocks.toNat then (-1, m)
  else
    match ufsReadBlock m (ufsBitmapBlock m b) with
    | none => (-1, m)
    | some buf =>
      let off := b % 32768 / 8
      let byte :=
        if val then buf off ||| (1#8 <<< (b % 8)) else buf off &&& ~~~(1#8 <<< (b % 8))
      ufsWriteBlock m (ufsBitmapBlock m b) (putByte buf off byte)

/-- The block that round `i` of the loop of `ufs_alloc_block` looks at. -/
def ufsAllocCandidate (total dataStart next i : Nat) : Nat :=
  let start := if next < dataStart then dataStart else next
  let b := (start + i) % 2 ^ 32
  if b ≥ total then (dataStart + (b - total)) % 2 ^ 32 else b

/-- `ufs_alloc_block`: the number of a zeroed block that was free, or 0. -/
def ufsAllocBlock (m : UfsMount) : Nat × UfsMount :=
  let candidate :=
    ufsAllocCandidate m.sb.totalBlocks.toNat m.sb.dataStart.toNat m.nextFreeBlock
  match (List.range m.sb.totalBlocks.toNat).find? (fun i =>
      !decide (candidate i < m.sb.dataStart.toNat) && ufsBitmapGet m (candidate i) == 0) with
  | none => (0, m)
  | some i =>
    let b := candidate i
    let m := (ufsBitmapSet m b true).2
    let m := { m with
      sb := { m.sb with freeBlocks := m.sb.freeBlocks - 1#32 }
      nextFreeBlock := (b + 1) % 2 ^ 32 }
    let m := (ufsWriteBlock m b zeros).2
    (b, (ufsWriteSuperblock m).2)

/-- `ufs_free_block`. -/
def ufsFreeBlock (m : UfsMount) (b : Nat) : UfsMount :=
  if b = 0 ∨ b ≥ m.sb.totalBlocks.toNat then m
  else
    let m := (ufsBitmapSet m b false).2
    let m := { m with
      sb := { m.sb with freeBlocks := m.sb.freeBlocks + 1#32 }
      nextFreeBlock := if b < m.nextFreeBlock then b else m.nextFreeBlock }
    (ufsWriteSuperblock m).2

/-- The inode number that round `k` of the loop of `ufs_alloc_inode` looks at. -/
def ufsInodeCandidate (count next k : Nat) : Nat :=
  let start := if next < 1 then 1 else next
  let start := if start > count then 1 else start
  let ino := (start + k) % 2 ^ 32
  if ino > count then 1 + (ino - count - 1) else ino

/-- The test of `ufs_alloc_inode`: its block can be read and `inodes[j].mode == 0`. -/
def ufsInodeIsFree (m : UfsMount) (ino : Nat) : Bool :=
  match ufsReadBlock m (ufsInodeBlock m ino) with
  | none => false
  | some buf => (UfsInode.ofBytes buf (ufsInodeOffset ino)).mode == 0#16

/-- `ufs_alloc_inode`: the number of a zeroed inode that was free, or 0. -/
def ufsAllocInode (m : UfsMount) : Nat × UfsMount :=
  let count := m.sb.inodeCount.toNat
  let candidate := ufsInodeCandidate count m.nextFreeInode
  match (List.range count).find? (fun k =>
      !decide (candidate k = 0) && !decide (candidate k > count) &&
      ufsInodeIsFree m (candidate k)) with
  | none => (0, m)
  | some k =>
    let ino := candidate k
    match ufsReadBlock m (ufsInodeBlock m ino) with
    | none => (0, m)
    | some buf =>
      let m := (ufsWriteBlock m (ufsInodeBlock m ino)
        (blit buf (ufsInodeOffset ino) zeros 136)).2
      let m := { m with
        sb := { m.sb with freeInodes := m.sb.freeInodes - 1#32 }
        nextFreeInode := (ino + 1) % 2 ^ 32 }
      (ino, (ufsWriteSuperblock m).2)

/-- `ufs_free_inode`. -/
def ufsFreeInode (m : UfsMount) (ino : Nat) : UfsMount :=
  if ino = 0 ∨ ino > m.sb.inodeCount.toNat then m
  else
    match ufsReadInode m ino with
    | none => m
    | some _ =>
      let m := (ufsWriteInode m ino .zero).2
      let m := { m with
        sb := { m.sb with freeInodes := m.sb.freeInodes + 1#32 }
        nextFreeInode := if ino < m.nextFreeInode then ino else m.nextFreeInode }
      (ufsWriteSuperblock m).2

/-- `ufs_get_block` on the extents of an inode: block `idx` of the file, or 0. -/
def ufsGetBlock : List Extent → Nat → Nat
  | [], _ => 0
  | e :: es, idx =>
    if e.len = 0#32 then 0
    else if idx < e.len.toNat then (e.start.toNat + idx) % 2 ^ 32
    else ufsGetBlock es (idx - e.len.toNat)

/-- Whether the loop of `ufs_append_block` finds a place for block `b`. -/
def appendFits : List Extent → Nat → Bool
  | [], _ => false
  | e :: es, b =>
    if e.len = 0#32 then true
    else if (e.start + e.len).toNat = b then true
    else appendFits es b

/-- The extents `ufs_append_block` leaves. -/
def appendExtent : List Extent → Nat → List Extent
  | [], _ => []
  | e :: es, b =>
    if e.len = 0#32 then ⟨BitVec.ofNat 32 b, 1#32⟩ :: es
    else if (e.start + e.len).toNat = b then ⟨e.start, e.len + 1#32⟩ :: es
    else e :: appendExtent es b

@[simp] theorem appendExtent_length (es : List Extent) (b : Nat) :
    (appendExtent es b).length = es.length := by
  induction es with
  | nil => rfl
  | cons e es ih =>
    simp only [appendExtent]
    split
    · rfl
    · split
      · rfl
      · simp [ih]

/-- `ufs_append_block`. -/
def ufsAppendBlock (inode : UfsInode) (b : Nat) : Int × UfsInode :=
  (if appendFits inode.extents b then 0 else -1, { inode with
      extents := appendExtent inode.extents b
      extents_length := by rw [appendExtent_length, inode.extents_length] })

/-- The blocks of all eight extents, in the order of the loops of
`ufs_free_inode_blocks`. -/
def extentBlocks (es : List Extent) : List Nat :=
  es.flatMap fun e => (List.range e.len.toNat).map fun j => (e.start.toNat + j) % 2 ^ 32

/-- `ufs_free_inode_blocks`. -/
def ufsFreeInodeBlocks (m : UfsMount) (ino : Nat) : UfsMount :=
  match ufsReadInode m ino with
  | none => m
  | some inode => (extentBlocks inode.extents).foldl ufsFreeBlock m

end Utms7
