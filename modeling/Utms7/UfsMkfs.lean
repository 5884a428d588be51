import Utms7.UfsChecksum

/-!
# Images made by mkfs.ufs

`tools/ufs/mkfs.ufs.c` lays out a volume like the kernel's format does, except
that it may make fewer inodes, and writes it with `lseek` and `write`.  It
fills in every field of the superblock but the checksum, which stays zero.

Both drivers compare the checksum with the sum of the other words.  That sum
is never zero: above bit 18 only the magic number and the two block counts
have bits, the counts differ by less than `2^18`, and no such difference can
make up for the bits of the magic number.
-/

namespace Utms7

open ByteMemory BitVec UfsSuperblock

namespace Mkfs

/-- `lseek(fd, block * UFS_BLOCK_SIZE, SEEK_SET)`: the product is an `unsigned int`. -/
def blockOffset (block : Nat) : Nat := block * 4096 % 2 ^ 32

/-- `write_block`, without errors. -/
def writeBlock (image : Bytes) (block : Nat) (data : Bytes) : Bytes :=
  blit image (blockOffset block) data 4096

/-- The steps with which `main` sets the bit of block `i`: read the byte, set
the bit, write it back. -/
def setBit (sb : UfsSuperblock) (image : Bytes) (i : Nat) : Bytes :=
  let block := (sb.bitmapStart.toNat + i / 32768) % 2 ^ 32
  let off := (block * 4096 + i % 32768 / 8) % 2 ^ 32
  putByte image off (image off ||| 1#8 <<< (i % 8))

/-- The superblock `main` starts from. -/
def superblock (total : Nat) : UfsSuperblock :=
  let bitmapBlocks := (total + 32767) % 2 ^ 32 / 32768
  let inodeCount := if 1024 > total / 4 then total / 4 else 1024
  let inodeBlocks := (inodeCount + 29) / 30
  let dataStart := 1 + bitmapBlocks + inodeBlocks
  { UfsSuperblock.zero with
    magic := ufsMagic
    version := ufsVersion
    totalBlocks := BitVec.ofNat 32 total
    inodeCount := BitVec.ofNat 32 inodeCount
    bitmapStart := 1#32
    inodeTableStart := BitVec.ofNat 32 (1 + bitmapBlocks)
    dataStart := BitVec.ofNat 32 dataStart
    rootInode := 1#32
    freeBlocks := BitVec.ofNat 32 total - BitVec.ofNat 32 dataStart
    freeInodes := BitVec.ofNat 32 inodeCount }

/-- The root inode; `time(NULL)` is an argument. -/
def rootInode (rootBlock : Nat) (time : BitVec 32) : UfsInode :=
  { UfsInode.zero with
    mode := 0x4000#16 ||| 0x1ED#16
    nlink := 2#16
    atime := time
    mtime := time
    ctime := time
    size := 128#32
    blocks := 1#32
    extents := ⟨BitVec.ofNat 32 rootBlock, 1#32⟩ :: List.replicate 7 ⟨0#32, 0#32⟩
    extents_length := by simp }

/-- `main` on an image of `size` bytes; `none` stands for the refusal of one
that is too small. -/
def main (image : BlockDevice) (time : BitVec 32) : Option BlockDevice :=
  let total := image.size / 4096 % 2 ^ 32
  if total < 10 then none
  else
    let sb := superblock total
    let disk := (List.range sb.dataStart.toNat).foldl (fun d i => writeBlock d i zeros) image.disk
    let disk := (List.range sb.dataStart.toNat).foldl (setBit sb) disk
    let rootBlock := sb.dataStart.toNat
    let sb := { sb with freeBlocks := sb.freeBlocks - 1#32 }
    let disk := setBit sb disk rootBlock
    let table := sb.inodeTableStart.toNat
    let disk := writeBlock disk table
      (blit (window disk (blockOffset table) 4096) 0
        (bytesOfWords (rootInode rootBlock time).words) 136)
    let sb := { sb with freeInodes := sb.freeInodes - 1#32 }
    let disk := writeBlock disk rootBlock (direntDots 1 1)
    some { image with disk := blit disk 0 (bytesOfWords sb.words) 260 }

end Mkfs

/-- The superblock that ends up on the image. -/
def mkfsSuperblock (total : Nat) : UfsSuperblock :=
  { Mkfs.superblock total with
    freeBlocks := (Mkfs.superblock total).freeBlocks - 1#32
    freeInodes := (Mkfs.superblock total).freeInodes - 1#32 }

theorem mkfs_superblock_words {image out : BlockDevice} {time : BitVec 32}
    (h : Mkfs.main image time = some out) :
    wordsAt out.disk 0 65 = (mkfsSuperblock (image.size / 4096 % 2 ^ 32)).words := by
  unfold Mkfs.main at h
  simp only at h
  generalize image.size / 4096 % 2 ^ 32 = total at h
  split at h
  · cases h
  · cases h
    exact wordsAt_blit_bytesOfWords (n := 65) (by simp)

/-- The sum of a superblock whose padding is empty. -/
theorem calcSbChecksum_of_pad {sb : UfsSuperblock} (hpad : sb.pad = List.replicate 54 0#32) :
    ufsCalcSbChecksum sb = sb.magic ^^^ sb.version ^^^ sb.totalBlocks ^^^ sb.freeBlocks ^^^
      sb.inodeCount ^^^ sb.freeInodes ^^^ sb.bitmapStart ^^^ sb.inodeTableStart ^^^
      sb.dataStart ^^^ sb.rootInode := by
  unfold ufsCalcSbChecksum words
  simp only [hpad]
  rw [List.foldl_append, List.foldl_append, foldl_xor_zeros]
  simp only [List.foldl_cons, BitVec.zero_xor]
  exact xor_zero

/-- Words below `2^18` have no bit from 18 on. -/
theorem getLsbD_small {x : BitVec 32} (h : x.toNat < 2 ^ 18) {i : Nat} (hi : 18 ≤ i) :
    x.getLsbD i = false := by
  exact Nat.testBit_lt_two_pow (Nat.lt_of_lt_of_le h (Nat.pow_le_pow_right (by omega) hi))

/-- Two counts that differ by less than `2^18` cannot differ in bit 20 unless
they differ in bit 19. -/
theorem counts_bits {t d : Nat} (ht : t < 2 ^ 32) (hd : d < 2 ^ 18)
    (h19 : t / 2 ^ 19 % 2 = (t + 2 ^ 32 - d) % 2 ^ 32 / 2 ^ 19 % 2) :
    t / 2 ^ 20 % 2 = (t + 2 ^ 32 - d) % 2 ^ 32 / 2 ^ 20 % 2 := by
  omega

section Superblock

variable {total : Nat} (htotal : total < 2 ^ 32)

/-- The metadata and the root block: what the free blocks fall short of all blocks. -/
private def reserved (total : Nat) : Nat :=
  2 + (total + 32767) % 2 ^ 32 / 32768 +
    ((if 1024 > total / 4 then total / 4 else 1024) + 29) / 30

theorem reserved_small (total : Nat) : reserved total < 2 ^ 18 := by
  unfold reserved
  split <;> omega

include htotal in
theorem mkfs_totalBlocks : (mkfsSuperblock total).totalBlocks.toNat = total := by
  change (BitVec.ofNat 32 total).toNat = total
  rw [toNat_ofNat]
  omega

include htotal in
theorem mkfs_freeBlocks :
    (mkfsSuperblock total).freeBlocks.toNat = (total + 2 ^ 32 - reserved total) % 2 ^ 32 := by
  have hsmall := reserved_small total
  unfold reserved at hsmall ⊢
  simp only [mkfsSuperblock, Mkfs.superblock, toNat_sub, toNat_ofNat]
  split <;> omega

/-- Apart from the magic and the two block counts, the fields are small. -/
theorem mkfs_small_fields (h : 4 ≤ total) {x : BitVec 32}
    (hx : x ∈ [(mkfsSuperblock total).version, (mkfsSuperblock total).inodeCount,
      (mkfsSuperblock total).freeInodes, (mkfsSuperblock total).bitmapStart,
      (mkfsSuperblock total).inodeTableStart, (mkfsSuperblock total).dataStart,
      (mkfsSuperblock total).rootInode]) : x.toNat < 2 ^ 18 := by
  simp only [mkfsSuperblock, Mkfs.superblock, List.mem_cons, List.not_mem_nil, or_false] at hx
  rcases hx with rfl | rfl | rfl | rfl | rfl | rfl | rfl
  · decide
  · rw [toNat_ofNat]
    split <;> omega
  · rw [toNat_sub]
    split <;> simp only [toNat_ofNat] <;> omega
  · decide
  · rw [toNat_ofNat]
    omega
  · refine Nat.lt_of_le_of_lt (Nat.mod_le _ _) ?_
    split <;> omega
  · decide

include htotal in
/-- The sum of the superblock of an image is never zero. -/
theorem mkfs_checksum_ne_zero (h10 : 10 ≤ total) :
    ufsCalcSbChecksum (mkfsSuperblock total) ≠ 0#32 := by
  intro hzero
  rw [calcSbChecksum_of_pad rfl] at hzero
  -- From bit 18 on, only the magic and the two block counts take part in the sum.
  have hbit : ∀ i, 18 ≤ i → ((mkfsSuperblock total).magic.getLsbD i ^^
      (mkfsSuperblock total).totalBlocks.getLsbD i ^^
        (mkfsSuperblock total).freeBlocks.getLsbD i) = false := by
    intro i hi
    have hsum := congrArg (fun x => x.getLsbD i) hzero
    have hfour : 4 ≤ total := by omega
    have hsmall := fun {x} hx => getLsbD_small (mkfs_small_fields (x := x) hfour hx) hi
    simp only [getLsbD_xor, getLsbD_zero] at hsum
    rw [hsmall (x := (mkfsSuperblock total).version) (by simp),
      hsmall (x := (mkfsSuperblock total).inodeCount) (by simp),
      hsmall (x := (mkfsSuperblock total).freeInodes) (by simp),
      hsmall (x := (mkfsSuperblock total).bitmapStart) (by simp),
      hsmall (x := (mkfsSuperblock total).inodeTableStart) (by simp),
      hsmall (x := (mkfsSuperblock total).dataStart) (by simp),
      hsmall (x := (mkfsSuperblock total).rootInode) (by simp)] at hsum
    simpa only [Bool.bne_false] using hsum
  -- The magic has bit 20 and lacks bit 19.
  have h19 : (mkfsSuperblock total).totalBlocks.getLsbD 19 =
      (mkfsSuperblock total).freeBlocks.getLsbD 19 := by
    have hmagic : (mkfsSuperblock total).magic.getLsbD 19 = false := by
      change ufsMagic.getLsbD 19 = false
      decide
    simpa only [hmagic, Bool.false_bne, bne_eq_false_iff_eq] using hbit 19 (by omega)
  have h20 : (mkfsSuperblock total).totalBlocks.getLsbD 20 ≠
      (mkfsSuperblock total).freeBlocks.getLsbD 20 := by
    have hmagic : (mkfsSuperblock total).magic.getLsbD 20 = true := by
      change ufsMagic.getLsbD 20 = true
      decide
    simpa only [hmagic, Bool.true_bne, Bool.not_bne, Bool.not_eq_eq_eq_not, Bool.not_false,
      bne_iff_ne] using hbit 20 (by omega)
  simp only [← testBit_toNat, mkfs_totalBlocks htotal, mkfs_freeBlocks htotal,
    Nat.testBit_eq_decide_div_mod_eq, ne_eq, decide_eq_decide] at h19 h20
  have hcounts := counts_bits htotal (reserved_small total)
  omega

end Superblock

section Image

variable {image out : BlockDevice} {time : BitVec 32}

theorem mkfs_accepts_iff : (∃ out, Mkfs.main image time = some out) ↔
    10 ≤ image.size / 4096 % 2 ^ 32 := by
  unfold Mkfs.main
  simp only
  generalize image.size / 4096 % 2 ^ 32 = total
  by_cases h : total < 10
  · rw [if_pos h]
    simp only [reduceCtorEq, exists_false, false_iff]
    omega
  · rw [if_neg h]
    exact ⟨fun _ => by omega, fun _ => ⟨_, rfl⟩⟩

section

variable (h : Mkfs.main image time = some out)
include h

/-- What both drivers find in block 0 of an image: the magic, and no valid checksum. -/
theorem mkfs_block_zero :
    (ofBytes (window out.disk 0 4096) 0).magic = ufsMagic ∧
      (ofBytes (window out.disk 0 4096) 0).checksum ≠
        ufsCalcSbChecksum (ofBytes (window out.disk 0 4096) 0) := by
  have hread : ofBytes (window out.disk 0 4096) 0 =
      mkfsSuperblock (image.size / 4096 % 2 ^ 32) := by
    unfold ofBytes
    rw [wordsAt_window (by omega), mkfs_superblock_words h, ofWords_words]
  rw [hread]
  exact ⟨rfl, (mkfs_checksum_ne_zero (by omega) (mkfs_accepts_iff.mp ⟨out, h⟩)).symm⟩

theorem mkfs_kernel_mount : ufsVfsMount out = .error (-eio) := by
  obtain ⟨hmagic, hsum⟩ := mkfs_block_zero h
  unfold ufsVfsMount
  simp only [hmagic, ne_eq, not_true_eq_false, if_false]
  rw [if_pos hsum]

theorem mkfs_linux_checkSuper : Linux.ufsCheckSuper out.disk = .error (-eio) := by
  obtain ⟨hmagic, hsum⟩ := mkfs_block_zero h
  unfold Linux.ufsCheckSuper Linux.sbBread
  simp only [hmagic, ne_eq, not_true_eq_false]
  exact if_pos hsum

end

/-- The kernel mounts the image, and the Linux driver accepts its superblock
and reads its root inode. -/
def MountableByBoth (out : BlockDevice) : Prop :=
  (∃ r, ufsVfsMount out = .ok r) ∧
    ∃ sb, Linux.ufsCheckSuper out.disk = .ok sb ∧
      ∃ root, Linux.ufsReadInode sb out.disk sb.rootInode.toNat = .ok root

/-- No image that `mkfs.ufs` makes is accepted by either driver. -/
theorem mkfs_image_rejected {image out : BlockDevice} {time : BitVec 32}
    (h : Mkfs.main image time = some out) :
    ufsVfsMount out = .error (-eio) ∧ Linux.ufsCheckSuper out.disk = .error (-eio) ∧
      ¬ MountableByBoth out := by
  refine ⟨mkfs_kernel_mount h, mkfs_linux_checkSuper h, ?_⟩
  rintro ⟨⟨r, hr⟩, -⟩
  rw [mkfs_kernel_mount h] at hr
  cases hr

/-- The smallest image that `mkfs.ufs` accepts. -/
def tenBlockImage : BlockDevice := { size := 10 * 4096, disk := zeros }

theorem mkfs_image_rejected_tenBlocks : ∃ out, Mkfs.main tenBlockImage 0#32 = some out ∧
    ufsVfsMount out = .error (-eio) ∧ Linux.ufsCheckSuper out.disk = .error (-eio) ∧
      ¬ MountableByBoth out := by
  obtain ⟨out, h⟩ := mkfs_accepts_iff.mpr
    (show 10 ≤ tenBlockImage.size / 4096 % 2 ^ 32 by decide)
  exact ⟨out, h, mkfs_image_rejected h⟩

theorem mkfs_image_not_mountable : ¬ ∀ (image out : BlockDevice) (time : BitVec 32),
    Mkfs.main image time = some out → MountableByBoth out := by
  intro hall
  obtain ⟨out, h⟩ := mkfs_accepts_iff.mpr
    (show 10 ≤ tenBlockImage.size / 4096 % 2 ^ 32 by decide)
  obtain ⟨r, hr⟩ := (hall tenBlockImage out 0#32 h).1
  rw [mkfs_kernel_mount h] at hr
  cases hr

end Image

end Utms7
