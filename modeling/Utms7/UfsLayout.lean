import Mathlib.Data.List.GetD
import Utms7.ByteMemory

/-!
# The on-disk structures of UFS

The kernel driver (`kernel/fs/ufs.c`), the Linux driver (`tools/ufs/ufs.c`)
and `mkfs.ufs` each declare the same three packed structures.  They are
modelled once, field by field, together with the little-endian words that a
cast to `u32*` sees; the checksums of both drivers are sums over these words.

A structure with an array member carries the length of the array as a field,
so a decoded record always has all its extents and all its padding.
-/

namespace Utms7

open ByteMemory List

/-- `UFS_MAGIC`. -/
def ufsMagic : BitVec 32 := 0x55544D53#32

/-- `UFS_VERSION`. -/
def ufsVersion : BitVec 32 := 2#32

/-- `UFS_INODE_FILE`. -/
def ufsInodeFile : BitVec 16 := 0x8000#16

/-- `UFS_INODE_DIR`. -/
def ufsInodeDir : BitVec 16 := 0x4000#16

/-- `UFS_INODE_SYMLINK`. -/
def ufsInodeSymlink : BitVec 16 := 0xA000#16

/-- `extent_t`: a run of `len` consecutive blocks. -/
structure Extent where
  start : BitVec 32
  len : BitVec 32
deriving DecidableEq

/-- `ufs_superblock_t`, 65 words. -/
structure UfsSuperblock where
  magic : BitVec 32
  version : BitVec 32
  totalBlocks : BitVec 32
  freeBlocks : BitVec 32
  inodeCount : BitVec 32
  freeInodes : BitVec 32
  bitmapStart : BitVec 32
  inodeTableStart : BitVec 32
  dataStart : BitVec 32
  rootInode : BitVec 32
  pad : List (BitVec 32)
  checksum : BitVec 32
  pad_length : pad.length = 54
deriving DecidableEq

/-- `ufs_inode_t`, 34 words (136 bytes, so 30 of them to a block). -/
structure UfsInode where
  mode : BitVec 16
  uid : BitVec 16
  gid : BitVec 16
  nlink : BitVec 16
  size : BitVec 32
  blocks : BitVec 32
  atime : BitVec 32
  mtime : BitVec 32
  ctime : BitVec 32
  extents : List Extent
  pad : List (BitVec 32)
  checksum : BitVec 32
  extents_length : extents.length = 8
  pad_length : pad.length = 10
deriving DecidableEq

/-- The superblock as `(u32*)sb` sees it. -/
def UfsSuperblock.words (sb : UfsSuperblock) : List (BitVec 32) :=
  [sb.magic, sb.version, sb.totalBlocks, sb.freeBlocks, sb.inodeCount, sb.freeInodes,
    sb.bitmapStart, sb.inodeTableStart, sb.dataStart, sb.rootInode] ++ sb.pad ++ [sb.checksum]

/-- The superblock read from 65 words. -/
def UfsSuperblock.ofWords (ws : List (BitVec 32)) : UfsSuperblock where
  magic := ws.getD 0 0#32
  version := ws.getD 1 0#32
  totalBlocks := ws.getD 2 0#32
  freeBlocks := ws.getD 3 0#32
  inodeCount := ws.getD 4 0#32
  freeInodes := ws.getD 5 0#32
  bitmapStart := ws.getD 6 0#32
  inodeTableStart := ws.getD 7 0#32
  dataStart := ws.getD 8 0#32
  rootInode := ws.getD 9 0#32
  pad := (List.range 54).map fun i => ws.getD (10 + i) 0#32
  checksum := ws.getD 64 0#32
  pad_length := by simp

/-- The superblock left by `memset(&mnt, 0, sizeof(mnt))`. -/
def UfsSuperblock.zero : UfsSuperblock where
  magic := 0
  version := 0
  totalBlocks := 0
  freeBlocks := 0
  inodeCount := 0
  freeInodes := 0
  bitmapStart := 0
  inodeTableStart := 0
  dataStart := 0
  rootInode := 0
  pad := List.replicate 54 0
  checksum := 0
  pad_length := by simp

/-- The words of the eight extents. -/
def extentWords (es : List Extent) : List (BitVec 32) :=
  es.flatMap fun e => [e.start, e.len]

/-- Two adjacent `u16` members, the first of them the low half. -/
def halves (lo hi : BitVec 16) : BitVec 32 :=
  BitVec.ofNat 32 (lo.toNat + 65536 * hi.toNat)

/-- The `u16` member in the low half of a word. -/
def lowHalf (w : BitVec 32) : BitVec 16 := BitVec.ofNat 16 w.toNat

/-- The `u16` member in the high half of a word. -/
def highHalf (w : BitVec 32) : BitVec 16 := BitVec.ofNat 16 (w.toNat / 65536)

/-- The inode as `(u32*)in` sees it: the four 16-bit fields fill two words. -/
def UfsInode.words (inode : UfsInode) : List (BitVec 32) :=
  [halves inode.mode inode.uid, halves inode.gid inode.nlink, inode.size, inode.blocks,
    inode.atime, inode.mtime, inode.ctime] ++ extentWords inode.extents ++ inode.pad
    ++ [inode.checksum]

/-- The inode read from 34 words. -/
def UfsInode.ofWords (ws : List (BitVec 32)) : UfsInode where
  mode := lowHalf (ws.getD 0 0#32)
  uid := highHalf (ws.getD 0 0#32)
  gid := lowHalf (ws.getD 1 0#32)
  nlink := highHalf (ws.getD 1 0#32)
  size := ws.getD 2 0#32
  blocks := ws.getD 3 0#32
  atime := ws.getD 4 0#32
  mtime := ws.getD 5 0#32
  ctime := ws.getD 6 0#32
  extents := (List.range 8).map fun i => ⟨ws.getD (7 + 2 * i) 0#32, ws.getD (8 + 2 * i) 0#32⟩
  pad := (List.range 10).map fun i => ws.getD (23 + i) 0#32
  checksum := ws.getD 33 0#32
  extents_length := by simp
  pad_length := by simp

/-- `ufs_inode_t inode = {0}`. -/
def UfsInode.zero : UfsInode where
  mode := 0
  uid := 0
  gid := 0
  nlink := 0
  size := 0
  blocks := 0
  atime := 0
  mtime := 0
  ctime := 0
  extents := List.replicate 8 ⟨0, 0⟩
  pad := List.replicate 10 0
  checksum := 0
  extents_length := by simp
  pad_length := by simp

/-- `memcpy(&sb, buf, sizeof(sb))`. -/
def UfsSuperblock.ofBytes (m : Bytes) (off : Nat) : UfsSuperblock :=
  .ofWords (wordsAt m off 65)

/-- `memcpy(&in, buf + off, sizeof(in))`. -/
def UfsInode.ofBytes (m : Bytes) (off : Nat) : UfsInode :=
  .ofWords (wordsAt m off 34)

@[simp] theorem lowHalf_halves (lo hi : BitVec 16) : lowHalf (halves lo hi) = lo := by
  apply BitVec.eq_of_toNat_eq
  simp only [lowHalf, halves, BitVec.toNat_ofNat]
  omega

@[simp] theorem highHalf_halves (lo hi : BitVec 16) : highHalf (halves lo hi) = hi := by
  apply BitVec.eq_of_toNat_eq
  simp only [highHalf, halves, BitVec.toNat_ofNat]
  omega

@[simp] theorem UfsSuperblock.words_length (sb : UfsSuperblock) : sb.words.length = 65 := by
  simp [words, sb.pad_length]

@[simp] theorem extentWords_length (es : List Extent) :
    (extentWords es).length = 2 * es.length := by
  induction es with
  | nil => rfl
  | cons e es ih => simp only [extentWords, flatMap_cons, length_append,
      length_cons, length_nil] at ih ⊢; omega

@[simp] theorem UfsInode.words_length (inode : UfsInode) : inode.words.length = 34 := by
  simp [words, inode.extents_length, inode.pad_length]

theorem extentWords_getD {es : List Extent} (i : Nat) :
    (extentWords es).getD (2 * i) 0#32 = ((es.map Extent.start).getD i 0#32) ∧
    (extentWords es).getD (2 * i + 1) 0#32 = ((es.map Extent.len).getD i 0#32) := by
  induction es generalizing i with
  | nil => simp [extentWords]
  | cons e es ih =>
    cases i with
    | zero => simp [extentWords]
    | succ i =>
      have h := ih i
      simp only [extentWords] at h ⊢
      have h2 : 2 * (i + 1) = (2 * i) + 1 + 1 := by omega
      rw [h2]
      simpa using h

theorem UfsSuperblock.ofWords_words (sb : UfsSuperblock) : ofWords sb.words = sb := by
  obtain ⟨magic, version, total, free, icount, ifree, bs, its, ds, root, pad, sum, hpad⟩ := sb
  simp only [ofWords, mk.injEq]
  refine ⟨rfl, rfl, rfl, rfl, rfl, rfl, rfl, rfl, rfl, rfl, ?_, ?_⟩
  · apply ext_getElem (by simp [hpad])
    intro i hi hi'
    simp only [words, getElem_map, append_assoc]
    rw [getD_append_right _ _ _ _ (by simp)]
    simp [hi', getElem?_append_left]
  · simp only [words]
    simp [hpad]

theorem UfsInode.ofWords_words (inode : UfsInode) : ofWords inode.words = inode := by
  obtain ⟨mode, uid, gid, nlink, size, blocks, at', mt, ct, es, pad, sum, hes, hpad⟩ := inode
  have htail : ∀ k, (words ⟨mode, uid, gid, nlink, size, blocks, at', mt, ct, es, pad, sum,
      hes, hpad⟩).getD (7 + k) 0#32 = (extentWords es ++ pad ++ [sum]).getD k 0#32 := by
    intro k
    simp only [words, append_assoc]
    rw [getD_append_right _ _ _ _ (by simp)]
    simp
  simp only [ofWords, mk.injEq]
  refine ⟨?_, ?_, ?_, ?_, rfl, rfl, rfl, rfl, rfl, ?_, ?_, ?_⟩
  · simp [words]
  · simp [words]
  · simp [words]
  · simp [words]
  · apply ext_getElem (by simp [hes])
    intro i hi hi'
    have h8 : 8 + 2 * i = 7 + (2 * i + 1) := by omega
    simp only [getElem_map, getElem_range, h8, htail]
    rw [append_assoc, getD_append _ _ _ _ (by simp [hes]; omega),
      getD_append _ _ _ _ (by simp [hes]; omega),
      (extentWords_getD i).1, (extentWords_getD i).2]
    simp [hi']
  · apply ext_getElem (by simp [hpad])
    intro i hi hi'
    have h23 : 23 + i = 7 + (16 + i) := by omega
    simp only [getElem_map, getElem_range, h23, htail, append_assoc]
    rw [getD_append_right _ _ _ _ (by simp [hes]), getD_append _ _ _ _ (by simp [hpad]; omega)]
    simp [hes, hi']
  · have h33 : 33 = 7 + 26 := rfl
    rw [h33, htail, append_assoc, getD_append_right _ _ _ _ (by simp [hes])]
    simp [hes, hpad]

end Utms7
