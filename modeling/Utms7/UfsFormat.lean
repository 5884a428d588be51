import Utms7.UfsDirectory

/-!
# Formatting a device and mounting it

`ufs_vfs_format` clears the metadata blocks, marks them in the bitmap, takes
one block for the root directory through the ordinary allocator and writes the
superblock last.  The device it leaves holds the volume `freshVolume`, whatever
it held before: the bitmap and the inode table are cleared before they are
used, and the only data block in use is written in full.

The layout only makes sense when the data area starts below the end of the
device.  On a smaller device the allocator looks at no block at all, and the
format fails.
-/

namespace Utms7

open ByteMemory Function List BitVec Volume UfsInode

variable {k total b n : Nat} {m : UfsMount} {v : Volume} {sb : UfsSuperblock} {disk : Bytes}

/-- The first data block of a formatted volume of `total` blocks. -/
def formatDataStart (total : Nat) : Nat := 36 + (total + 32767) / 32768

/-- The contents a device of `total` blocks had in what becomes its data area. -/
def oldData (total : Nat) (old : Bytes) (b : Nat) : Bytes :=
  if formatDataStart total ≤ b ∧ b < total then window old (b * 4096) 4096 else zeros

/-- What `ufs_vfs_format` and `ufs_vfs_mount` make of a device: only the root
directory, in the first data block.  Free blocks keep their old contents. -/
def freshVolume (total : Nat) (ticks : BitVec 32) (old : Bytes) : Volume where
  totalBlocks := total
  dataStart := formatDataStart total
  inodeCount := 1024
  freeBlocks := BitVec.ofNat 32 (total - formatDataStart total - 1)
  freeInodes := 1023#32
  nextFreeBlock := 0
  nextFreeInode := 2
  bit b := decide (b ≤ formatDataStart total)
  inode := update (fun _ => UfsInode.zero) 1
    (ufsRootInode (formatDataStart total) ticks)
  data := update (oldData total old) (formatDataStart total)
    (window (direntDots 1 1) 0 4096)

/-- The volume in the course of `ufs_vfs_format`: the first `marked` blocks are
marked, and nothing else is in use. -/
def emptyVolume (total marked : Nat) (old : Bytes) : Volume where
  totalBlocks := total
  dataStart := formatDataStart total
  inodeCount := 1024
  freeBlocks := BitVec.ofNat 32 total - BitVec.ofNat 32 (formatDataStart total)
  freeInodes := 1024#32
  nextFreeBlock := 0
  nextFreeInode := 0
  bit b := decide (b < marked)
  inode _ := UfsInode.zero
  data := oldData total old

section Layout

variable {total : Nat}

section

variable (h : total + 32767 < 2 ^ 32)
include h

theorem formatSuperblock_totalBlocks : (ufsFormatSuperblock total).totalBlocks.toNat = total := by
  simp only [ufsFormatSuperblock, toNat_ofNat]
  omega

theorem formatSuperblock_dataStart :
    (ufsFormatSuperblock total).dataStart.toNat = formatDataStart total := by
  simp only [ufsFormatSuperblock, toNat_ofNat, formatDataStart]
  omega

theorem formatSuperblock_tableStart :
    (ufsFormatSuperblock total).inodeTableStart.toNat = formatDataStart total - 35 := by
  simp only [ufsFormatSuperblock, toNat_ofNat, formatDataStart]
  omega

end

end Layout

theorem clearBlocks (hk : k ≤ m.sb.totalBlocks.toNat) :
    (List.range k).foldl (fun m i => (ufsWriteBlock m i zeros).2) m =
      { m with disk := blit m.disk 0 zeros (k * 4096) } := by
  induction k with
  | zero =>
    rfl
  | succ k ih =>
    have hdisk : blit (blit m.disk 0 zeros (k * 4096)) (k * 4096) zeros 4096 =
        blit m.disk 0 zeros ((k + 1) * 4096) := by
      funext i
      rcases Nat.lt_or_ge i (k * 4096) with hlow | hlow
      · rw [blit_outside (by omega), blit_inside (by omega) (by omega),
          blit_inside (by omega) (by omega)]
      · rcases Nat.lt_or_ge i (k * 4096 + 4096) with hhigh | hhigh
        · rw [blit_inside hlow hhigh, blit_inside (by omega) (by omega)]
          rfl
        · rw [blit_outside (by omega), blit_outside (by omega), blit_outside (by omega)]
    rw [range_succ, foldl_append, ih (by omega)]
    simp only [foldl_cons, foldl_nil, ufsWriteBlock]
    rw [if_neg (by omega), hdisk]

theorem UfsInode.ofBytes_of_zero {m : Bytes} {off : Nat} (h : ∀ i, i < 136 → m (off + i) = 0#8) :
    ofBytes m off = .zero := by
  have hwords : wordsAt m off 34 = zero.words := by
    have hzeros : wordsAt m off 34 = wordsAt zeros 0 34 :=
      wordsAt_congr fun i hi => h i (by omega)
    rw [hzeros]
    decide
  unfold ofBytes
  rw [hwords, ofWords_words]

/-- Marking the first `k` blocks. -/
theorem Represents.markBlocks (h : Represents m v) (hk : k ≤ v.totalBlocks) :
    Represents ((List.range k).foldl (fun m i => (ufsBitmapSet m i true).2) m)
      { v with bit := fun b => decide (b < k) || v.bit b } := by
  induction k with
  | zero => simpa using h
  | succ k ih =>
    rw [range_succ, foldl_append]
    have hset := (ih (by omega)).bitmapSet (b := k) hk true
    have hbit : (fun b => decide (b < k + 1) || v.bit b) =
        update (fun b => decide (b < k) || v.bit b) k true := by
      funext b
      by_cases hb : b = k
      · simp [hb]
      · have hlt : b < k + 1 ↔ b < k := by omega
        simp [hb, hlt]
    rw [hbit]
    exact hset

/-- The allocator finds the first data block of a formatted volume. -/
theorem nextBlock_formatted (h : v.Sized) (hnext : v.nextFreeBlock = 0)
    (hbit : v.bit v.dataStart = false) : v.nextBlock = some v.dataStart := by
  have hstart := h.start
  have hroom := h.room
  have hsmall := h.small
  unfold nextBlock
  obtain ⟨t, ht⟩ : ∃ t, v.totalBlocks = t + 1 := ⟨v.totalBlocks - 1, by omega⟩
  have hcand : ufsAllocCandidate v.totalBlocks v.dataStart v.nextFreeBlock 0 = v.dataStart := by
    have hpos : 0 < v.dataStart := by omega
    unfold ufsAllocCandidate
    simp only [hnext, hpos, if_true, Nat.add_zero]
    rw [Nat.mod_eq_of_lt (by omega), if_neg (by omega)]
  rw [ht, range_succ_eq_map, map_cons, ← ht, hcand]
  simp [hbit, hroom]

section

variable (hsb : m.sb = ufsFormatSuperblock total) (hsmall : total + 32767 < 2 ^ 32)
include hsb hsmall

theorem represents_cleared (hroom : formatDataStart total < total) (hnext : m.nextFreeBlock = 0)
    (hnext' : m.nextFreeInode = 0) (old : Bytes)
    (hdisk : m.disk = blit old 0 zeros (formatDataStart total * 4096)) :
    Represents m (emptyVolume total 0 old) where
  sized := ⟨rfl, rfl, hsmall, hroom⟩
  canonical := ⟨fun _ _ => by simp [emptyVolume], fun _ _ => rfl, fun _ hb => if_neg hb⟩
  totalBlocks := by rw [hsb]; exact formatSuperblock_totalBlocks hsmall
  dataStart := by rw [hsb]; exact formatSuperblock_dataStart hsmall
  inodeCount := by rw [hsb]; rfl
  bitmapStart := by rw [hsb]; rfl
  tableStart := by rw [hsb]; exact formatSuperblock_tableStart hsmall
  freeBlocks := by
    rw [hsb]
    simp only [ufsFormatSuperblock, emptyVolume, formatDataStart]
    congr 2
    omega
  freeInodes := by rw [hsb]; rfl
  nextFreeBlock := hnext
  nextFreeInode := hnext'
  bit b hb := by
    have hb' : b < total := hb
    rw [hdisk, blit_inside (by omega) (by unfold formatDataStart; omega)]
    simp [emptyVolume]
  inode n hn := by
    have hn' : n ≤ 1024 := hn.2
    have hzero : ofBytes m.disk (inodeAddr (formatDataStart total) n) = .zero := by
      apply ofBytes_of_zero
      intro i hi
      rw [hdisk, blit_inside (by omega) (by simp only [inodeAddr, formatDataStart]; omega)]
      rfl
    exact hzero.symm
  data b hlo hb := by
    have hlo' : formatDataStart total ≤ b := hlo
    rw [hdisk, window_blit_outside (by omega)]
    exact if_pos ⟨hlo, hb⟩

/-- On a device whose metadata would fill it the allocator finds nothing. -/
theorem allocBlock_no_room (hnext : m.nextFreeBlock = 0) (hroom : total ≤ formatDataStart total) :
    (ufsAllocBlock m).1 = 0 := by
  have htotal : m.sb.totalBlocks.toNat = total := by
    rw [hsb, formatSuperblock_totalBlocks hsmall]
  have hstart : m.sb.dataStart.toNat = formatDataStart total := by
    rw [hsb, formatSuperblock_dataStart hsmall]
  -- every round looks past the end, where the bitmap has no bit to offer
  have hnone : (List.range m.sb.totalBlocks.toNat).find? (fun i =>
      !decide (ufsAllocCandidate m.sb.totalBlocks.toNat m.sb.dataStart.toNat m.nextFreeBlock i
        < m.sb.dataStart.toNat) &&
      ufsBitmapGet m (ufsAllocCandidate m.sb.totalBlocks.toNat m.sb.dataStart.toNat
        m.nextFreeBlock i) == 0) = none := by
    rw [find?_eq_none]
    intro i hi
    have hi' : i < total := by simpa [htotal] using hi
    have hpast : ufsAllocCandidate m.sb.totalBlocks.toNat m.sb.dataStart.toNat
        m.nextFreeBlock i ≥ m.sb.totalBlocks.toNat := by
      have hpos : 0 < formatDataStart total := by unfold formatDataStart; omega
      have hle : formatDataStart total ≤ 36 + (total + 32767) / 32768 := Nat.le_refl _
      unfold ufsAllocCandidate
      simp only [hstart, hnext, hpos, if_true]
      rw [if_pos (by omega)]
      omega
    simp [ufsBitmapGet, hpast]
  unfold ufsAllocBlock
  simp only [hnone]

end

@[simp] theorem ufsWriteBlock_nextFreeBlock (m : UfsMount) (b : Nat) (buf : Bytes) :
    (ufsWriteBlock m b buf).2.nextFreeBlock = m.nextFreeBlock := by
  unfold ufsWriteBlock
  split <;> rfl

@[simp] theorem ufsBitmapSet_nextFreeBlock (m : UfsMount) (b : Nat) (x : Bool) :
    (ufsBitmapSet m b x).2.nextFreeBlock = m.nextFreeBlock := by
  unfold ufsBitmapSet
  split
  · rfl
  · split
    · rfl
    · simp

/-- Clearing and marking blocks keeps what is in memory. -/
theorem clearMark_memory {k : Nat} :
    let m' := (List.range k).foldl (fun m i => (ufsBitmapSet m i true).2)
      ((List.range n).foldl (fun m i => (ufsWriteBlock m i zeros).2) m)
    m'.sb = m.sb ∧ m'.nextFreeBlock = m.nextFreeBlock := by
  have hclear : ∀ (bs : List Nat) (m : UfsMount),
      (bs.foldl (fun m i => (ufsWriteBlock m i zeros).2) m).sb = m.sb ∧
        (bs.foldl (fun m i => (ufsWriteBlock m i zeros).2) m).nextFreeBlock =
          m.nextFreeBlock := by
    intro bs
    induction bs with
    | nil => exact fun m => ⟨rfl, rfl⟩
    | cons b bs ih =>
      intro m
      rw [foldl_cons, (ih _).1, (ih _).2, ufsWriteBlock_nextFreeBlock, ufsWriteBlock_sb]
      exact ⟨rfl, rfl⟩
  have hmark : ∀ (bs : List Nat) (m : UfsMount),
      (bs.foldl (fun m i => (ufsBitmapSet m i true).2) m).sb = m.sb ∧
        (bs.foldl (fun m i => (ufsBitmapSet m i true).2) m).nextFreeBlock =
          m.nextFreeBlock := by
    intro bs
    induction bs with
    | nil => exact fun m => ⟨rfl, rfl⟩
    | cons b bs ih =>
      intro m
      rw [foldl_cons, (ih _).1, (ih _).2, ufsBitmapSet_nextFreeBlock, ufsBitmapSet_sb]
      exact ⟨rfl, rfl⟩
  intro m'
  exact ⟨((hmark _ _).1).trans (hclear _ _).1, ((hmark _ _).2).trans (hclear _ _).2⟩

theorem formatMetadata_sb (total : Nat) (disk : Bytes) :
    (ufsFormatMetadata total disk).sb = ufsFormatSuperblock total :=
  (clearMark_memory).1

theorem formatMetadata_nextFreeBlock {total : Nat} :
    (ufsFormatMetadata total disk).nextFreeBlock = 0 :=
  (clearMark_memory).2

theorem formatRoot_no_block (h : (ufsAllocBlock m).1 = 0) {ticks : BitVec 32} :
    (ufsFormatRoot m ticks).1 = -1 := by
  unfold ufsFormatRoot
  simp only
  rw [if_pos h]

/-- Where the metadata leave no room, formatting fails. -/
theorem format_no_room (dev : BlockDevice) (ticks : BitVec 32)
    (hsmall : dev.size / 4096 % 2 ^ 32 + 32767 < 2 ^ 32)
    (hroom : dev.size / 4096 % 2 ^ 32 ≤ formatDataStart (dev.size / 4096 % 2 ^ 32)) :
    (ufsVfsFormat dev ticks).1 = -1 := by
  unfold ufsVfsFormat
  simp only
  generalize dev.size / 4096 % 2 ^ 32 = total at hsmall hroom
  split
  · rfl
  · exact formatRoot_no_block (allocBlock_no_room (formatMetadata_sb total dev.disk) hsmall
      (formatMetadata_nextFreeBlock) hroom)

/-- Writing the superblock over a cleared block 0 changes no part of the volume. -/
theorem Represents.writeHeader (h : Represents m v) (buf : Bytes) :
    Represents (ufsWriteBlock m 0 buf).2 v := by
  have hs := h.sized.start
  have hr := h.sized.room
  unfold ufsWriteBlock
  rw [h.totalBlocks, if_neg (by omega)]
  refine h.congr_disk ?_ ?_ ?_
  · intro b _
    exact blit_outside (by omega)
  · intro n _ i _
    exact blit_outside (by unfold inodeAddr; omega)
  · intro b _ _ i _
    exact blit_outside (by omega)

theorem mount_of_header
    (hwords : wordsAt disk 0 65 = sb.words) (hmagic : sb.magic = ufsMagic)
    (hsum : sb.checksum = ufsCalcSbChecksum sb) {size : Nat} :
    ufsVfsMount { size := size, disk := disk } = .ok
      ({ sb := sb, mounted := true, nextFreeBlock := 0, nextFreeInode := 2, disk := disk },
        { type := .dir, mode := 0x1ED#32, size := 0, fsData := sb.rootInode }) := by
  have hread : UfsSuperblock.ofBytes (window disk 0 4096) 0 = sb := by
    unfold UfsSuperblock.ofBytes
    rw [wordsAt_window (by omega), hwords, UfsSuperblock.ofWords_words]
  unfold ufsVfsMount
  simp only [hread, hmagic, ne_eq, not_true_eq_false, if_false]
  rw [if_neg (by simpa using hsum)]

/-- After the first half every metadata block is marked and nothing else is
in use. -/
theorem represents_formatMetadata (hsmall : total + 32767 < 2 ^ 32)
    (hroom : formatDataStart total < total) (old : Bytes) :
    Represents (ufsFormatMetadata total old) (emptyVolume total (formatDataStart total) old) := by
  unfold ufsFormatMetadata
  simp only [formatSuperblock_dataStart hsmall]
  rw [clearBlocks (by simp only [formatSuperblock_totalBlocks hsmall]; omega)]
  have h := represents_cleared (m :=
    { sb := ufsFormatSuperblock total, mounted := false, nextFreeBlock := 0, nextFreeInode := 0,
      disk := blit old 0 zeros (formatDataStart total * 4096) }) rfl hsmall hroom rfl rfl old rfl
  simpa [emptyVolume] using h.markBlocks (Nat.le_of_lt hroom)

/-- The node that `ufs_vfs_mount` returns for the root directory. -/
def rootNode : VfsNode := { type := .dir, mode := 0x1ED#32, size := 0, fsData := 1#32 }

theorem freeBlocks_formatted {ds : Nat} (hsmall : total < 2 ^ 32) (hroom : ds < total) :
    BitVec.ofNat 32 total - BitVec.ofNat 32 ds - 1#32 = BitVec.ofNat 32 (total - ds - 1) := by
  apply eq_of_toNat_eq
  simp only [toNat_sub, toNat_ofNat]
  omega

theorem freshVolume_eq (hsmall : total + 32767 < 2 ^ 32)
    (hroom : formatDataStart total < total) (ticks : BitVec 32) (old : Bytes) :
    { (((emptyVolume total (formatDataStart total) old).takeBlock
      (formatDataStart total)).setInode 1
        (ufsRootInode (formatDataStart total) ticks)).setData (formatDataStart total)
        (direntDots 1 1) with
      freeInodes := 1023#32
      nextFreeBlock := 0
      nextFreeInode := 2 } = freshVolume total ticks old := by
  have hbit : update (fun b => decide (b < formatDataStart total))
      (formatDataStart total) true = fun b => decide (b ≤ formatDataStart total) := by
    funext b
    by_cases hb : b = formatDataStart total
    · simp [hb]
    · have hlt : b < formatDataStart total ↔ b ≤ formatDataStart total := by omega
      simp [hb, hlt]
  have hfree := freeBlocks_formatted (by omega : total < 2 ^ 32) hroom
  simp only [setData, setInode, takeBlock, setBit, freshVolume,
    emptyVolume, update_idem, hbit, hfree]

section

variable (h : Represents m v) (hmagic : m.sb.magic = ufsMagic) (hroot : m.sb.rootInode = 1#32)
include h hmagic hroot

theorem Represents.mount (size : Nat)
    (hsb : sb = { m.sb with checksum := ufsCalcSbChecksum m.sb }) : ∃ m', ufsVfsMount
        { size := size
          disk := (ufsWriteBlock { m with sb := sb } 0
            (blit zeros 0 (bytesOfWords sb.words) 260)).2.disk } = .ok (m', rootNode) ∧
      Holds m' { v with nextFreeBlock := 0, nextFreeInode := 2 } := by
  have h' : Represents { m with sb := sb } v := by
    rw [hsb]
    exact { h with }
  have hw := h'.writeHeader (blit zeros 0 (bytesOfWords sb.words) 260)
  have hpos : ¬ 0 ≥ sb.totalBlocks.toNat := by
    have htotal := h'.totalBlocks
    have hr := h.sized.room
    simp only at htotal
    omega
  simp only [ufsWriteBlock, hpos, if_false] at hw ⊢
  have hwords : wordsAt (blit m.disk 0 (blit zeros 0 (bytesOfWords sb.words) 260) 4096) 0 65 =
      sb.words := by
    have hinner : wordsAt (blit zeros 0 (bytesOfWords sb.words) 260) 0 65 = sb.words :=
      wordsAt_blit_bytesOfWords (n := 65) (by simp)
    refine Eq.trans (wordsAt_congr fun i hi => ?_) hinner
    rw [blit_inside (by omega) (by omega), Nat.sub_zero]
  have hmagic' : sb.magic = ufsMagic := by rw [hsb]; exact hmagic
  have hsum : sb.checksum = ufsCalcSbChecksum sb := by rw [hsb]; rfl
  have hroot' : sb.rootInode = 1#32 := by rw [hsb]; exact hroot
  refine ⟨
    { sb := sb
      mounted := true
      nextFreeBlock := 0
      nextFreeInode := 2
      disk := blit m.disk 0 (blit zeros 0 (bytesOfWords sb.words) 260) 4096 },
    ?_, { hw with canonical := { hw.canonical with }, nextFreeBlock := rfl, nextFreeInode := rfl },
    ?_⟩
  · rw [mount_of_header hwords hmagic' hsum, hroot']
    rfl
  · exact
      { mounted := rfl
        magic := hmagic'
        rootInode := hroot'
        checksum := hsum
        synced := hwords }

theorem Represents.formatRoot (hb : v.nextBlock = some b) (ticks : BitVec 32) (size : Nat) :
    (ufsFormatRoot m ticks).1 = 0 ∧
      ∃ m', ufsVfsMount { size := size, disk := (ufsFormatRoot m ticks).2 } =
          .ok (m', rootNode) ∧
        Holds m' { ((v.takeBlock b).setInode 1 (ufsRootInode b ticks)).setData b
            (direntDots 1 1) with
          freeInodes := 1023#32
          nextFreeBlock := 0
          nextFreeInode := 2 } := by
  obtain ⟨hlo, hhi, -⟩ := Volume.nextBlock_spec hb
  have hstart := h.sized.start
  obtain ⟨halloc, h0⟩ := h.allocBlock_eq hb
  have h1 := h0.writeSuperblock
  have hhas : (v.takeBlock b).HasInode 1 := ⟨Nat.le_refl 1, by
    have := h.sized.count
    simp only [Volume.takeBlock, Volume.setData, Volume.setBit]
    omega⟩
  have h2 := h1.writeInode 1 (ufsRootInode b ticks)
  rw [Volume.writeInode, if_pos hhas] at h2
  have h3 := h2.writeBlock (b := b) hlo (direntDots 1 1)
  rw [Volume.writeBlock, if_neg (by simpa [Volume.setInode, Volume.takeBlock, Volume.setData,
    Volume.setBit] using hhi)] at h3
  have hcode : (ufsWriteBlock (ufsWriteInode (ufsWriteSuperblock (m.take b)).2 1
      (ufsRootInode b ticks)).2 b (direntDots 1 1)).1 = 0 := h2.writeBlock_code hhi
  have h4 := h3.inodeCounters
    1023#32 (ufsWriteBlock (ufsWriteInode (ufsWriteSuperblock (m.take b)).2 1
    (ufsRootInode b ticks)).2 b (direntDots 1 1)).2.nextFreeInode
  unfold ufsFormatRoot
  simp only [halloc]
  rw [if_neg (by omega)]
  simp only [hcode, ne_eq, not_true_eq_false, if_false]
  obtain ⟨m', hmount, hholds⟩ :=
    h4.mount (by simpa [ufsWriteSuperblock, UfsMount.take] using hmagic)
    (by simpa [ufsWriteSuperblock, UfsMount.take] using hroot) size rfl
  exact ⟨trivial, m', hmount, hholds⟩

end

/-- Format, then mount: on a device with room for the metadata and one
block more, formatting succeeds, mounting what it left succeeds, and the mount
holds the fresh volume. -/
theorem format_mount (dev : BlockDevice) (ticks : BitVec 32)
    (hsmall : dev.size / 4096 % 2 ^ 32 + 32767 < 2 ^ 32)
    (hroom : formatDataStart (dev.size / 4096 % 2 ^ 32) < dev.size / 4096 % 2 ^ 32) :
    (ufsVfsFormat dev ticks).1 = 0 ∧
      ∃ m, ufsVfsMount { dev with disk := (ufsVfsFormat dev ticks).2 } = .ok (m, rootNode) ∧
        Holds m (freshVolume (dev.size / 4096 % 2 ^ 32) ticks dev.disk) := by
  unfold ufsVfsFormat
  simp only
  generalize dev.size / 4096 % 2 ^ 32 = total at hsmall hroom
  have hds : formatDataStart total = 36 + (total + 32767) / 32768 := rfl
  rw [if_neg (by omega)]
  have h := represents_formatMetadata hsmall hroom dev.disk
  have hsb := formatMetadata_sb total dev.disk
  have hnext : (emptyVolume total (formatDataStart total) dev.disk).nextBlock =
      some (formatDataStart total) :=
    nextBlock_formatted h.sized rfl (by simp [emptyVolume])
  have hfinal := h.formatRoot (by rw [hsb]; rfl) (by rw [hsb]; rfl) hnext ticks dev.size
  rwa [freshVolume_eq hsmall hroom] at hfinal

/-! ## What the device holds then -/

section Fresh

variable (total : Nat) (ticks : BitVec 32) (old : Bytes)

theorem freshVolume_root : (freshVolume total ticks old).inode 1 =
    ufsRootInode (formatDataStart total) ticks := by
  simp [freshVolume]

theorem freshVolume_other (hn : n ≠ 1) :
    (freshVolume total ticks old).inode n = .zero := by
  simp [freshVolume, hn]

theorem isDir_rootInode (b : Nat) : (ufsRootInode b ticks).isDir = true := by
  have hmode : (ufsRootInode b ticks).mode &&& ufsInodeDir ≠ 0#16 := by
    change (ufsInodeDir ||| 0x1ED#16) &&& ufsInodeDir ≠ 0#16
    decide
  exact decide_eq_true hmode

theorem blockList_rootInode (hb : b < 2 ^ 32) : blockList (ufsRootInode b ticks).extents = [b] := by
  have hunused : blockList (List.replicate 7 ⟨0#32, 0#32⟩) = [] :=
    blockList_of_unused fun e he => by rw [(mem_replicate.mp he).2]
  have hstart : (BitVec.ofNat 32 b).toNat = b := by
    exact Nat.mod_eq_of_lt hb
  change blockList (⟨BitVec.ofNat 32 b, 1#32⟩ :: List.replicate 7 ⟨0#32, 0#32⟩) = [b]
  rw [blockList_cons, hstart]
  rfl

theorem freshVolume_entries (hsmall : total + 32767 < 2 ^ 32) :
    (freshVolume total ticks old).entries 1 = [([46#8], 1), ([46#8, 46#8], 1)] := by
  have hds : formatDataStart total < 2 ^ 32 := by unfold formatDataStart; omega
  have hdata : (freshVolume total ticks old).data (formatDataStart total) =
      window (direntDots 1 1) 0 4096 := by
    simp [freshVolume]
  unfold entries slots
  rw [freshVolume_root, blockList_rootInode ticks hds, map_singleton, hdata,
    blockSlots_window]
  decide

end Fresh

/-- **What formatting and mounting a device gives.**  On every device of at most
2 TiB, with any old contents, `ufs_vfs_format` succeeds exactly when the data
area is not empty.  The device can then be mounted, its root directory holds
`.` and `..` only, no other inode is in use, the bitmap marks the metadata and
the root block, and the counters say so. -/
theorem format_then_mount (dev : BlockDevice) (ticks : BitVec 32) (hdev : dev.size ≤ 2 ^ 41) :
    ((ufsVfsFormat dev ticks).1 = 0 ↔ (ufsFormatSuperblock (dev.size / 4096)).totalBlocks.toNat >
        (ufsFormatSuperblock (dev.size / 4096)).dataStart.toNat) ∧
    ((ufsVfsFormat dev ticks).1 = 0 →
      ∃ m, ufsVfsMount { dev with disk := (ufsVfsFormat dev ticks).2 } = .ok (m, rootNode) ∧
        m.sb.totalBlocks.toNat = dev.size / 4096 ∧
        m.sb.rootInode = 1#32 ∧
        (m.volume.inode 1).isDir = true ∧
        m.volume.entries 1 = [([46#8], 1), ([46#8, 46#8], 1)] ∧
        (∀ n, 1 ≤ n → n ≤ m.sb.inodeCount.toNat → n ≠ 1 →
          ∃ inode, ufsReadInode m n = some inode ∧ inode.mode = 0#16) ∧
        (∀ b, b < m.sb.totalBlocks.toNat →
          ufsBitmapGet m b = if b ≤ m.sb.dataStart.toNat then 1 else 0) ∧
        m.sb.freeBlocks.toNat = m.sb.totalBlocks.toNat - m.sb.dataStart.toNat - 1 ∧
        m.sb.freeInodes.toNat = 1023) := by
  have hmod : dev.size / 4096 % 2 ^ 32 = dev.size / 4096 := Nat.mod_eq_of_lt (by omega)
  have hsmall : dev.size / 4096 + 32767 < 2 ^ 32 := by omega
  rw [formatSuperblock_totalBlocks hsmall, formatSuperblock_dataStart hsmall]
  by_cases hroom : formatDataStart (dev.size / 4096) < dev.size / 4096
  · obtain ⟨hcode, m, hmount, hholds⟩ := format_mount dev ticks (by rw [hmod]; exact hsmall)
      (by rw [hmod]; exact hroom)
    rw [hmod] at hholds
    refine ⟨by simp [hcode, hroom], fun _ => ⟨m, hmount, ?_⟩⟩
    have hv := hholds.rep.volume_eq
    have h := hholds.rep
    refine ⟨h.totalBlocks, hholds.header.rootInode, ?_, ?_, ?_, ?_, ?_, ?_⟩
    · rw [hv, freshVolume_root, isDir_rootInode]
    · rw [hv, freshVolume_entries _ _ _ hsmall]
    · intro n hlo hhi hne
      refine ⟨.zero, ?_, rfl⟩
      rw [h.inodeCount] at hhi
      rw [h.readInode_eq, readInode, if_pos ⟨hlo, hhi⟩, freshVolume_other _ _ _ hne]
    · intro b hb
      rw [h.totalBlocks] at hb
      rw [h.bitmapGet_eq, if_neg (by omega), h.dataStart]
      by_cases hle : b ≤ formatDataStart (dev.size / 4096) <;> simp [freshVolume, hle]
    · rw [h.freeBlocks, h.totalBlocks, h.dataStart]
      simp only [freshVolume, toNat_ofNat]
      omega
    · rw [h.freeInodes]
      rfl
  · have hfail := format_no_room dev ticks (by rw [hmod]; exact hsmall) (by rw [hmod]; omega)
    simp [hfail, hroom]

/-- The smallest device that can be formatted has 38 blocks. -/
theorem format_then_mount_smallest :
    (ufsVfsFormat { size := 38 * 4096, disk := zeros } 0#32).1 = 0 ∧
      (ufsVfsFormat { size := 37 * 4096, disk := zeros } 0#32).1 ≠ 0 := by
  have h38 := (format_then_mount { size := 38 * 4096, disk := zeros } 0#32 (by decide)).1
  have h37 := (format_then_mount { size := 37 * 4096, disk := zeros } 0#32 (by decide)).1
  exact ⟨h38.mpr (by decide), fun h => absurd (h37.mp h) (by decide)⟩

end Utms7
