import Utms7.UfsExtents
import Utms7.UfsVolume

/-!
# The bytes of a device represent a volume

`Represents m v` says which volume the mounted device `m` holds: the bitmap
starts in block 1, the inode table follows it with 35 blocks for the 1024
inodes, and the data blocks come last.  The three areas are disjoint, so each
write of the driver changes the one object it is meant for.

For every function of `UfsBlocks` there is a lemma that takes a represented
volume to the volume after the corresponding operation of `UfsVolume`.  Block
writes are described for data blocks only; that no directory or file ever
reaches a metadata block is the invariant `Placed`.
-/

namespace Utms7

open ByteMemory Function List UfsInode

variable {n b : Nat} {m : UfsMount} {v : Volume} {disk : Bytes}

/-- The geometry `ufs_vfs_format` gives a volume. -/
structure Geometry (total dataStart inodeCount : Nat) : Prop where
  count : inodeCount = 1024
  start : dataStart = 36 + (total + 32767) / 32768
  small : total + 32767 < 2 ^ 32
  room : dataStart < total

/-- A volume with the geometry `ufs_vfs_format` gives it. -/
abbrev Volume.Sized (v : Volume) : Prop := Geometry v.totalBlocks v.dataStart v.inodeCount

open Volume

/-- The blocks of every inode lie in the data area. -/
def Volume.Placed (v : Volume) : Prop :=
  ∀ n, v.HasInode n → ExtentsIn v.dataStart v.totalBlocks (v.inode n).extents

/-- The byte address of inode `n` on a volume whose data starts at block `ds`. -/
def inodeAddr (ds n : Nat) : Nat := (ds - 35 + (n - 1) / 30) * 4096 + (n - 1) % 30 * 136

/-- Two inodes never share a byte. -/
theorem inodeAddr_disjoint (ds : Nat) {n' : Nat} (hn : 1 ≤ n) (hn' : 1 ≤ n') (h : n' ≠ n) :
    inodeAddr ds n' + 136 ≤ inodeAddr ds n ∨ inodeAddr ds n + 136 ≤ inodeAddr ds n' := by
  unfold inodeAddr
  rcases Nat.lt_trichotomy ((n - 1) / 30) ((n' - 1) / 30) with hq | hq | hq
  · omega
  · omega
  · omega

/-- Outside the device a volume has nothing. -/
structure Volume.Canonical (v : Volume) : Prop where
  bit : ∀ b, v.totalBlocks ≤ b → v.bit b = false
  inode : ∀ n, ¬ v.HasInode n → v.inode n = .zero
  data : ∀ b, ¬ (v.dataStart ≤ b ∧ b < v.totalBlocks) → v.data b = zeros

/-- The device of `m` holds the volume `v`. -/
structure Represents (m : UfsMount) (v : Volume) : Prop where
  sized : v.Sized
  canonical : v.Canonical
  totalBlocks : m.sb.totalBlocks.toNat = v.totalBlocks
  dataStart : m.sb.dataStart.toNat = v.dataStart
  inodeCount : m.sb.inodeCount.toNat = v.inodeCount
  bitmapStart : m.sb.bitmapStart.toNat = 1
  tableStart : m.sb.inodeTableStart.toNat = v.dataStart - 35
  freeBlocks : m.sb.freeBlocks = v.freeBlocks
  freeInodes : m.sb.freeInodes = v.freeInodes
  nextFreeBlock : m.nextFreeBlock = v.nextFreeBlock
  nextFreeInode : m.nextFreeInode = v.nextFreeInode
  bit : ∀ b, b < v.totalBlocks → v.bit b = (m.disk (4096 + b / 8)).getLsbD (b % 8)
  inode : ∀ n, v.HasInode n → v.inode n = UfsInode.ofBytes m.disk (inodeAddr v.dataStart n)
  data : ∀ b, v.dataStart ≤ b → b < v.totalBlocks → v.data b = window m.disk (b * 4096) 4096

namespace Represents

section

variable (h : Represents m v)
include h

/-- A change of the device that keeps all three areas keeps the volume. -/
theorem congr_disk
    (hbits : ∀ b, b < v.totalBlocks → disk (4096 + b / 8) = m.disk (4096 + b / 8))
    (hinodes : ∀ n, v.HasInode n → ∀ i, i < 136 →
      disk (inodeAddr v.dataStart n + i) = m.disk (inodeAddr v.dataStart n + i))
    (hdata : ∀ b, v.dataStart ≤ b → b < v.totalBlocks → ∀ i, i < 4096 →
      disk (b * 4096 + i) = m.disk (b * 4096 + i)) :
    Represents { m with disk := disk } v :=
  { h with
    bit := fun b hb => by
      rw [h.bit b hb, ← hbits b hb]
    inode := fun n hn => by
      rw [h.inode n hn]
      unfold ofBytes
      rw [wordsAt_congr fun i hi => (hinodes n hn i (by omega)).symm]
    data := fun b hlo hhi => by
      rw [h.data b hlo hhi]
      funext i
      by_cases hi : i < 4096
      · rw [window_apply hi, window_apply hi, ← hdata b hlo hhi i hi]
      · simp [window, hi] }

theorem readBlock_eq (hb : v.dataStart ≤ b) : ufsReadBlock m b = v.readBlock b := by
  unfold ufsReadBlock readBlock
  rw [h.totalBlocks]
  split
  · rfl
  · rw [h.data b hb (by omega)]

theorem writeBlock_code {buf : Bytes} (hb : b < v.totalBlocks) : (ufsWriteBlock m b buf).1 = 0 := by
  unfold ufsWriteBlock
  rw [h.totalBlocks, if_neg (by omega)]

theorem writeBlock (hb : v.dataStart ≤ b) (buf : Bytes) :
    Represents (ufsWriteBlock m b buf).2 (v.writeBlock b buf) := by
  unfold ufsWriteBlock Volume.writeBlock
  rw [h.totalBlocks]
  split
  · exact h
  have hs := h.sized.start
  have hc := h.sized.count
  refine { h with canonical := ?_, bit := ?_, inode := ?_, data := ?_ }
  · refine { h.canonical with data := fun b' hb' => ?_ }
    have hbb : b' ≠ b := by
      rintro rfl
      exact hb' ⟨hb, by simpa [Volume.setData] using ‹¬ b' ≥ v.totalBlocks›⟩
    exact (update_of_ne hbb _ _).trans (h.canonical.data b' hb')
  · intro b' hb'
    simp only [Volume.setData] at hb' ⊢
    rw [blit_outside (by omega)]
    exact h.bit b' hb'
  · intro n hn
    simp only [Volume.setData, Volume.HasInode] at hn ⊢
    unfold ofBytes
    rw [wordsAt_blit_outside (by unfold inodeAddr; omega)]
    exact h.inode n hn
  · intro b' hlo hhi
    simp only [Volume.setData] at hlo hhi ⊢
    by_cases hbb : b' = b
    · subst hbb
      rw [update_self, window_blit_same]
    · rw [update_of_ne hbb, window_blit_outside (by omega)]
      exact h.data b' hlo hhi

theorem inodeBlock_eq (hn : v.HasInode n) :
    ufsInodeBlock m n = v.dataStart - 35 + (n - 1) / 30 ∧
      v.dataStart - 35 + (n - 1) / 30 < v.totalBlocks ∧
      v.dataStart - 35 + (n - 1) / 30 < v.dataStart ∧ ufsInodeOffset n + 136 ≤ 4096 ∧
      inodeAddr v.dataStart n = (v.dataStart - 35 + (n - 1) / 30) * 4096 + ufsInodeOffset n := by
  have hs := h.sized.start
  have hc := h.sized.count
  have hr := h.sized.room
  have hsm := h.sized.small
  obtain ⟨hlo, hhi⟩ := hn
  refine ⟨?_, by omega, by omega, ?_, rfl⟩
  · unfold ufsInodeBlock
    rw [h.tableStart]
    omega
  · unfold ufsInodeOffset
    omega

theorem readBlock_table (hn : v.HasInode n) : ufsReadBlock m (ufsInodeBlock m n) =
      some (window m.disk (ufsInodeBlock m n * 4096) 4096) := by
  obtain ⟨hblk, hlt, -⟩ := h.inodeBlock_eq hn
  unfold ufsReadBlock
  rw [h.totalBlocks, if_neg (by omega)]

theorem ofBytes_table (hn : v.HasInode n) :
    ofBytes (window m.disk (ufsInodeBlock m n * 4096) 4096) (ufsInodeOffset n) =
      v.inode n := by
  obtain ⟨hblk, -, -, hoff, haddr⟩ := h.inodeBlock_eq hn
  rw [h.inode n hn]
  unfold ofBytes
  rw [wordsAt_window (by omega), hblk, haddr]

theorem hasInode_iff (n : Nat) : (n = 0 ∨ n > m.sb.inodeCount.toNat) ↔ ¬ v.HasInode n := by
  rw [h.inodeCount]
  unfold Volume.HasInode
  omega

/-- The driver reads the inode that the volume has. -/
theorem readInode_eq (n : Nat) : ufsReadInode m n = v.readInode n := by
  unfold ufsReadInode readInode
  by_cases hn : v.HasInode n
  · rw [if_neg (by rw [h.hasInode_iff]; simpa using hn), if_pos hn, h.readBlock_table hn,
      Option.map_some, h.ofBytes_table hn]
  · rw [if_pos (by rw [h.hasInode_iff]; exact hn), if_neg hn]

/-- What storing an inode does to the device. -/
theorem writeTable (hn : v.HasInode n) (src : Bytes) : ufsWriteBlock m (ufsInodeBlock m n)
        (blit (window m.disk (ufsInodeBlock m n * 4096) 4096) (ufsInodeOffset n) src 136) =
      (0, { m with disk := blit m.disk (inodeAddr v.dataStart n) src 136 }) := by
  obtain ⟨hblk, hlt, -, hoff, haddr⟩ := h.inodeBlock_eq hn
  unfold ufsWriteBlock
  rw [h.totalBlocks, if_neg (by omega), blit_window_blit hoff, haddr, hblk]

theorem blitInode (hn : v.HasInode n) (src : Bytes) (inode : UfsInode)
    (hsrc : wordsAt (blit m.disk (inodeAddr v.dataStart n) src 136)
      (inodeAddr v.dataStart n) 34 = inode.words) :
    Represents { m with disk := blit m.disk (inodeAddr v.dataStart n) src 136 }
      (v.setInode n inode) := by
  have hs := h.sized.start
  have hc := h.sized.count
  have hcanon : (v.setInode n inode).Canonical :=
    { h.canonical with
      inode := fun n' hn' => by
        have hnn : n' ≠ n := by
          rintro rfl
          exact hn' hn
        exact (update_of_ne hnn _ _).trans (h.canonical.inode n' hn') }
  obtain ⟨hnlo, hnhi⟩ := hn
  refine { h with canonical := hcanon, bit := ?_, inode := ?_, data := ?_ }
  · intro b hb
    simp only [setInode] at hb ⊢
    rw [blit_outside (by unfold inodeAddr; omega)]
    exact h.bit b hb
  · intro n' hn'
    simp only [setInode] at hn' ⊢
    obtain ⟨hlo', hhi'⟩ := hn'
    unfold ofBytes
    by_cases hnn : n' = n
    · subst hnn
      rw [update_self, hsrc, ofWords_words]
    · have hdis := inodeAddr_disjoint v.dataStart hnlo hlo' hnn
      rw [update_of_ne hnn, wordsAt_blit_outside (by omega)]
      exact h.inode n' ⟨hlo', hhi'⟩
  · intro b hlo hhi
    simp only [setInode] at hlo hhi ⊢
    rw [window_blit_outside (by unfold inodeAddr; omega)]
    exact h.data b hlo hhi

theorem writeInode_code (hn : v.HasInode n) (inode : UfsInode) :
    (ufsWriteInode m n inode).1 = 0 := by
  unfold ufsWriteInode
  rw [if_neg (by rw [h.hasInode_iff]; simpa using hn), h.readBlock_table hn]
  simp only
  rw [h.writeTable hn]

/-- The driver writes an inode where it reads it. -/
theorem writeInode (n : Nat) (inode : UfsInode) :
    Represents (ufsWriteInode m n inode).2 (v.writeInode n inode) := by
  unfold ufsWriteInode Volume.writeInode
  by_cases hn : v.HasInode n
  · rw [if_neg (by rw [h.hasInode_iff]; simpa using hn), if_pos hn, h.readBlock_table hn]
    simp only
    rw [h.writeTable hn]
    exact h.blitInode hn _ _ (wordsAt_blit_bytesOfWords (n := 34) (by simp))
  · rw [if_pos (by rw [h.hasInode_iff]; exact hn), if_neg hn]
    exact h

theorem clearInode (hn : v.HasInode n) : Represents (ufsWriteBlock m (ufsInodeBlock m n)
        (blit (window m.disk (ufsInodeBlock m n * 4096) 4096) (ufsInodeOffset n) zeros 136)).2
      (v.setInode n .zero) := by
  rw [h.writeTable hn]
  refine h.blitInode hn _ _ ?_
  apply ext_getElem (by simp)
  intro k hk hk'
  have hzero : zero.words = List.replicate 34 0#32 := by decide
  have hk34 : k < 34 := by simpa using hk
  simp only [hzero, wordsAt, getElem_map, getElem_range, getElem_replicate]
  rw [getU32_blit_inside (by omega) (by omega)]
  simp

theorem bitmapBlock_eq (hb : b < v.totalBlocks) :
    ufsBitmapBlock m b = 1 + b / 32768 ∧ 1 + b / 32768 < v.totalBlocks ∧
      (1 + b / 32768) * 4096 + b % 32768 / 8 = 4096 + b / 8 := by
  have hs := h.sized.start
  have hr := h.sized.room
  have hsm := h.sized.small
  refine ⟨?_, by omega, by omega⟩
  unfold ufsBitmapBlock
  rw [h.bitmapStart]
  omega

theorem readBlock_bitmap (hb : b < v.totalBlocks) : ufsReadBlock m (ufsBitmapBlock m b) =
    some (window m.disk ((1 + b / 32768) * 4096) 4096) := by
  obtain ⟨hblk, hlt, -⟩ := h.bitmapBlock_eq hb
  unfold ufsReadBlock
  rw [h.totalBlocks, hblk, if_neg (by omega)]

/-- The driver reads the bit of a block, and refuses numbers out of range. -/
theorem bitmapGet_eq (b : Nat) :
    ufsBitmapGet m b = if b ≥ v.totalBlocks then -1 else if v.bit b then 1 else 0 := by
  unfold ufsBitmapGet
  rw [h.totalBlocks]
  by_cases hb : b ≥ v.totalBlocks
  · simp [hb]
  · obtain ⟨-, -, haddr⟩ := h.bitmapBlock_eq (b := b) (by omega)
    rw [if_neg hb, if_neg hb, h.readBlock_bitmap (by omega)]
    simp only
    rw [window_apply (by omega), haddr, ← h.bit b (by omega)]

/-- A bit is one bit of one byte. -/
theorem bitmapSet_eq (hb : b < v.totalBlocks) (x : Bool) :
    (ufsBitmapSet m b x).2 = { m with
      disk := putByte m.disk (4096 + b / 8) (if x then m.disk (4096 + b / 8) ||| 1#8 <<< (b % 8)
        else m.disk (4096 + b / 8) &&& ~~~(1#8 <<< (b % 8))) } := by
  obtain ⟨hblk, hlt, haddr⟩ := h.bitmapBlock_eq hb
  unfold ufsBitmapSet
  rw [h.totalBlocks, if_neg (by omega), h.readBlock_bitmap hb]
  simp only
  unfold ufsWriteBlock
  rw [h.totalBlocks, hblk, if_neg (by omega), blit_window_putByte (by omega),
    window_apply (by omega), haddr]

theorem bitmapSet (hb : b < v.totalBlocks) (x : Bool) :
    Represents (ufsBitmapSet m b x).2 (v.setBit b x) := by
  have hs := h.sized.start
  rw [h.bitmapSet_eq hb]
  have hcanon : (v.setBit b x).Canonical :=
    { h.canonical with
      bit := fun b' hb' => by
        have hbb : b' ≠ b := by
          rintro rfl
          exact absurd hb (Nat.not_lt.mpr hb')
        exact (update_of_ne hbb _ _).trans (h.canonical.bit b' hb') }
  refine { h with canonical := hcanon, bit := ?_, inode := ?_, data := ?_ }
  · intro b' hb'
    simp only [setBit] at hb' ⊢
    by_cases hbyte : b' / 8 = b / 8
    · rw [hbyte]
      have hold := h.bit b' hb'
      rw [hbyte] at hold
      by_cases hbb : b' = b
      · subst hbb
        cases x
        · simp [getLsbD_clear _ (Nat.mod_lt _ (by omega)) (Nat.mod_lt _ (by omega))]
        · simp [getLsbD_set _ (Nat.mod_lt _ (by omega)) (Nat.mod_lt _ (by omega))]
      · have hmod : b' % 8 ≠ b % 8 := by omega
        rw [update_of_ne hbb, hold]
        cases x
        · simp [getLsbD_clear _ (Nat.mod_lt _ (by omega)) (Nat.mod_lt _ (by omega)), hmod]
        · simp [getLsbD_set _ (Nat.mod_lt _ (by omega)) (Nat.mod_lt _ (by omega)), hmod]
    · have hbb : b' ≠ b := fun hbb => hbyte (by rw [hbb])
      rw [update_of_ne hbb, putByte_other (by omega)]
      exact h.bit b' hb'
  · intro n hn
    simp only [setBit] at hn ⊢
    unfold ofBytes
    rw [wordsAt_putByte_outside (by unfold inodeAddr; omega)]
    exact h.inode n hn
  · intro b' hlo hhi
    simp only [setBit] at hlo hhi ⊢
    rw [window_putByte_outside (by omega)]
    exact h.data b' hlo hhi

/-- Writing the superblock changes no part of the volume. -/
theorem writeSuperblock : Represents (ufsWriteSuperblock m).2 v := by
  have hs := h.sized.start
  have hr := h.sized.room
  unfold ufsWriteSuperblock ufsWriteBlock
  simp only
  rw [h.totalBlocks, if_neg (by omega)]
  have h' : Represents { m with sb := { m.sb with checksum := ufsCalcSbChecksum m.sb } } v :=
    { h with }
  refine h'.congr_disk ?_ ?_ ?_
  · intro b _
    exact blit_outside (by omega)
  · intro n _ i _
    exact blit_outside (by unfold inodeAddr; omega)
  · intro b _ _ i _
    exact blit_outside (by omega)

theorem blockCounters (free : BitVec 32) (next : Nat) :
    Represents { m with sb := { m.sb with freeBlocks := free }, nextFreeBlock := next }
      { v with freeBlocks := free, nextFreeBlock := next } :=
  { h with canonical := { h.canonical with }, freeBlocks := rfl, nextFreeBlock := rfl }

theorem inodeCounters (free : BitVec 32) (next : Nat) :
    Represents { m with sb := { m.sb with freeInodes := free }, nextFreeInode := next }
      { v with freeInodes := free, nextFreeInode := next } :=
  { h with canonical := { h.canonical with }, freeInodes := rfl, nextFreeInode := rfl }

/-- A device holds at most one volume: the one its readers see. -/
theorem volume_eq : m.volume = v := by
  have hbit : ∀ b, (ufsBitmapGet m b == 1) = v.bit b := by
    intro b
    rw [h.bitmapGet_eq]
    by_cases hb : b ≥ v.totalBlocks
    · simp [hb, h.canonical.bit b hb]
    · cases v.bit b <;> simp [hb]
  have hinode : ∀ n, (ufsReadInode m n).getD .zero = v.inode n := by
    intro n
    rw [h.readInode_eq, readInode]
    by_cases hn : v.HasInode n
    · simp [hn]
    · simp [hn, h.canonical.inode n hn]
  have hdata : ∀ b, (if v.dataStart ≤ b then (ufsReadBlock m b).getD zeros else zeros) =
      v.data b := by
    intro b
    by_cases hlo : v.dataStart ≤ b
    · rw [if_pos hlo, h.readBlock_eq hlo, readBlock]
      by_cases hhi : b ≥ v.totalBlocks
      · rw [if_pos hhi, h.canonical.data b (by omega)]
        rfl
      · rw [if_neg hhi]
        rfl
    · rw [if_neg hlo, h.canonical.data b (by omega)]
  unfold UfsMount.volume
  rw [h.totalBlocks, h.dataStart, h.inodeCount, h.freeBlocks, h.freeInodes, h.nextFreeBlock,
    h.nextFreeInode, funext hbit, funext hinode, funext hdata]

end

end Represents

section

variable (m : UfsMount) (b : Nat)

@[simp] theorem ufsWriteBlock_sb (buf : Bytes) : (ufsWriteBlock m b buf).2.sb = m.sb := by
  unfold ufsWriteBlock
  split <;> rfl

@[simp] theorem ufsWriteBlock_mounted (buf : Bytes) :
    (ufsWriteBlock m b buf).2.mounted = m.mounted := by
  unfold ufsWriteBlock
  split <;> rfl

@[simp] theorem ufsBitmapSet_sb (x : Bool) : (ufsBitmapSet m b x).2.sb = m.sb := by
  unfold ufsBitmapSet
  split
  · rfl
  · split
    · rfl
    · simp

@[simp] theorem ufsBitmapSet_mounted (x : Bool) : (ufsBitmapSet m b x).2.mounted = m.mounted := by
  unfold ufsBitmapSet
  split
  · rfl
  · split
    · rfl
    · simp

end

section

variable (m : UfsMount) (n : Nat) (inode : UfsInode)

@[simp] theorem ufsWriteInode_sb : (ufsWriteInode m n inode).2.sb = m.sb := by
  unfold ufsWriteInode
  split
  · rfl
  · split
    · rfl
    · simp

@[simp] theorem ufsWriteInode_mounted : (ufsWriteInode m n inode).2.mounted = m.mounted := by
  unfold ufsWriteInode
  split
  · rfl
  · split
    · rfl
    · simp

end

/-- What a mounted device needs besides its volume: it is mounted, and block 0
is the superblock in memory, under its checksum. -/
structure Header (m : UfsMount) : Prop where
  mounted : m.mounted = true
  magic : m.sb.magic = ufsMagic
  rootInode : m.sb.rootInode = 1#32
  checksum : m.sb.checksum = ufsCalcSbChecksum m.sb
  synced : wordsAt m.disk 0 65 = m.sb.words

/-- A write past the superblock keeps it. -/
theorem Header.congr_disk (h : Header m) (hd : ∀ i, i < 260 → disk i = m.disk i) :
    Header { m with disk := disk } :=
  { h with
    synced := by
      rw [← h.synced]
      exact wordsAt_congr fun i hi => by simpa using hd i (by omega) }

theorem Header.writeBlock (h : Header m) (hb : 1 ≤ b) (buf : Bytes) :
    Header (ufsWriteBlock m b buf).2 := by
  unfold ufsWriteBlock
  split
  · exact h
  · exact h.congr_disk fun i _ => blit_outside (by omega)

/-- `ufs_write_superblock` makes memory and device agree again. -/
theorem Header.of_writeSuperblock (hmounted : m.mounted = true) (hmagic : m.sb.magic = ufsMagic)
    (hroot : m.sb.rootInode = 1#32) (htotal : 0 < m.sb.totalBlocks.toNat) :
    Header (ufsWriteSuperblock m).2 := by
  unfold ufsWriteSuperblock ufsWriteBlock
  simp only
  rw [if_neg (by omega), blit_window_blit (by omega)]
  have hwords : ∀ sb : UfsSuperblock,
      wordsAt (blit m.disk 0 (bytesOfWords sb.words) 260) 0 65 = sb.words := fun sb =>
    wordsAt_blit_bytesOfWords (n := 65) (by simp)
  exact
    { mounted := hmounted
      magic := hmagic
      rootInode := hroot
      checksum := rfl
      synced := hwords _ }

/-- The mounted device `m` holds the volume `v`. -/
structure Holds (m : UfsMount) (v : Volume) : Prop where
  rep : Represents m v
  header : Header m

namespace Holds

section

variable (h : Holds m v)
include h

theorem dataStart_pos : 36 ≤ v.dataStart := by
  have := h.rep.sized.start
  omega

theorem writeBlock (hb : v.dataStart ≤ b) (buf : Bytes) :
    Holds (ufsWriteBlock m b buf).2 (v.writeBlock b buf) :=
  ⟨h.rep.writeBlock hb buf, h.header.writeBlock (by have := h.dataStart_pos; omega) buf⟩

theorem writeInode (n : Nat) (inode : UfsInode) :
    Holds (ufsWriteInode m n inode).2 (v.writeInode n inode) := by
  refine ⟨h.rep.writeInode n inode, ?_⟩
  unfold ufsWriteInode
  split
  · exact h.header
  rename_i hn
  have hn' : v.HasInode n := by
    rw [h.rep.hasInode_iff] at hn
    simpa using hn
  rw [h.rep.readBlock_table hn']
  refine h.header.writeBlock ?_ _
  unfold ufsInodeBlock
  have hs := h.rep.sized
  have := hs.start
  have := hs.small
  rw [h.rep.tableStart]
  omega

theorem bitmapSet (hb : b < v.totalBlocks) (x : Bool) :
    Holds (ufsBitmapSet m b x).2 (v.setBit b x) := by
  refine ⟨h.rep.bitmapSet hb x, ?_⟩
  unfold ufsBitmapSet
  split
  · exact h.header
  split
  · exact h.header
  · refine h.header.writeBlock ?_ _
    unfold ufsBitmapBlock
    rw [h.rep.bitmapStart]
    omega

/-- Counters may change on the way to a superblock write. -/
theorem commit {m' : UfsMount} {v' : Volume} (hrep : Represents m' v')
    (hmounted : m'.mounted = m.mounted) (hmagic : m'.sb.magic = m.sb.magic)
    (hroot : m'.sb.rootInode = m.sb.rootInode) : Holds (ufsWriteSuperblock m').2 v' := by
  refine ⟨hrep.writeSuperblock, Header.of_writeSuperblock ?_ ?_ ?_ ?_⟩
  · rw [hmounted, h.header.mounted]
  · rw [hmagic, h.header.magic]
  · rw [hroot, h.header.rootInode]
  · rw [hrep.totalBlocks]
    have := hrep.sized.room
    omega

end

end Holds

/-- The allocator takes free blocks of the data area. -/
theorem Volume.nextBlock_spec {v : Volume} (h : v.nextBlock = some b) :
    v.dataStart ≤ b ∧ b < v.totalBlocks ∧ v.bit b = false := by
  have := find?_some h
  simp only [Bool.and_eq_true, Bool.not_eq_true', decide_eq_false_iff_not,
    decide_eq_true_eq] at this
  exact ⟨by omega, this.1.2, this.2⟩

/-- The allocator takes free inodes of the table. -/
theorem Volume.nextInode_spec {v : Volume} (h : v.nextInode = some n) :
    v.HasInode n ∧ (v.inode n).mode = 0#16 := by
  have := find?_some h
  simpa using this

/-- The device with block `b` taken, before `ufs_alloc_block` writes the superblock. -/
def UfsMount.take (m : UfsMount) (b : Nat) : UfsMount :=
  { m with
    sb := { m.sb with freeBlocks := m.sb.freeBlocks - 1#32 }
    nextFreeBlock := (b + 1) % 2 ^ 32
    disk := blit (putByte m.disk (4096 + b / 8) (m.disk (4096 + b / 8) ||| 1#8 <<< (b % 8)))
      (b * 4096) zeros 4096 }

namespace Represents

section

variable (h : Represents m v)
include h

/-- The search of the driver finds the block that the volume takes next. -/
theorem allocBlock_search :
    ((List.range m.sb.totalBlocks.toNat).find? fun i =>
        !decide (ufsAllocCandidate m.sb.totalBlocks.toNat m.sb.dataStart.toNat m.nextFreeBlock i
            < m.sb.dataStart.toNat) &&
        ufsBitmapGet m (ufsAllocCandidate m.sb.totalBlocks.toNat m.sb.dataStart.toNat
          m.nextFreeBlock i) == 0).map
      (ufsAllocCandidate m.sb.totalBlocks.toNat m.sb.dataStart.toNat m.nextFreeBlock) =
    v.nextBlock := by
  unfold nextBlock
  rw [find?_map, h.totalBlocks, h.dataStart, h.nextFreeBlock]
  congr 2
  funext i
  simp only [h.bitmapGet_eq, Bool.and_assoc]
  congr 1
  generalize ufsAllocCandidate v.totalBlocks v.dataStart v.nextFreeBlock i = c
  by_cases hc : c ≥ v.totalBlocks
  · have hlt : ¬ c < v.totalBlocks := by omega
    simp [hc, hlt]
  · have hlt : c < v.totalBlocks := by omega
    cases v.bit c <;> simp [hc, hlt]

theorem allocBlock_none (hn : v.nextBlock = none) : ufsAllocBlock m = (0, m) := by
  have hs := h.allocBlock_search
  rw [hn, Option.map_eq_none_iff] at hs
  unfold ufsAllocBlock
  simp only [hs]

theorem allocBlock_eq (hb : v.nextBlock = some b) :
    ufsAllocBlock m = (b, (ufsWriteSuperblock (m.take b)).2) ∧ Represents (m.take b)
      (v.takeBlock b) := by
  have hs := h.allocBlock_search
  rw [hb, Option.map_eq_some_iff] at hs
  obtain ⟨i, hi, hib⟩ := hs
  obtain ⟨hlo, hhi, -⟩ := Volume.nextBlock_spec hb
  have hset := h.bitmapSet hhi true
  rw [h.bitmapSet_eq hhi] at hset
  have htake := (hset.blockCounters (m.sb.freeBlocks - 1#32) ((b + 1) % 2 ^ 32)).writeBlock
    (b := b) hlo zeros
  have htotal : ¬ b ≥ m.sb.totalBlocks.toNat := by rw [h.totalBlocks]; omega
  have hvol : Volume.writeBlock { v.setBit b true with
      freeBlocks := m.sb.freeBlocks - 1#32
      nextFreeBlock := (b + 1) % 2 ^ 32 } b zeros = v.takeBlock b := by
    rw [Volume.writeBlock, if_neg (by simpa [Volume.setBit] using hhi), h.freeBlocks]
    rfl
  rw [ufsWriteBlock, if_neg htotal, hvol] at htake
  refine ⟨?_, htake⟩
  unfold ufsAllocBlock
  simp only [hi, hib, h.bitmapSet_eq hhi]
  rw [ufsWriteBlock, if_neg htotal]
  rfl

/-- The search of the driver finds the inode that the volume takes next. -/
theorem allocInode_search : ((List.range m.sb.inodeCount.toNat).find? fun k =>
        !decide (ufsInodeCandidate m.sb.inodeCount.toNat m.nextFreeInode k = 0) &&
        !decide (ufsInodeCandidate m.sb.inodeCount.toNat m.nextFreeInode k
          > m.sb.inodeCount.toNat) &&
        ufsInodeIsFree m (ufsInodeCandidate m.sb.inodeCount.toNat m.nextFreeInode k)).map
      (ufsInodeCandidate m.sb.inodeCount.toNat m.nextFreeInode) = v.nextInode := by
  unfold nextInode
  rw [find?_map, h.inodeCount, h.nextFreeInode]
  congr 2
  funext k
  simp only [comp]
  generalize ufsInodeCandidate v.inodeCount v.nextFreeInode k = n
  by_cases hn : v.HasInode n
  · have h0 : ¬ n = 0 := by have := hn.1; omega
    have h1 : ¬ n > v.inodeCount := by have := hn.2; omega
    simp only [ufsInodeIsFree, h0, h1, hn, h.readBlock_table hn, h.ofBytes_table hn]
    simp
  · have h01 : n = 0 ∨ n > v.inodeCount := by
      unfold Volume.HasInode at hn
      omega
    rcases h01 with h0 | h1
    · simp [h0, Volume.HasInode]
    · simp [h1, hn]

theorem allocInode_none (hn : v.nextInode = none) : ufsAllocInode m = (0, m) := by
  have hs := h.allocInode_search
  rw [hn, Option.map_eq_none_iff] at hs
  unfold ufsAllocInode
  simp only [hs]

theorem allocInode_eq (hn : v.nextInode = some n) :
    ∃ m', ufsAllocInode m = (n, (ufsWriteSuperblock m').2) ∧ Represents m' (v.takeInode n) ∧
      m'.mounted = m.mounted ∧ m'.sb.magic = m.sb.magic ∧ m'.sb.rootInode = m.sb.rootInode := by
  have hs := h.allocInode_search
  rw [hn, Option.map_eq_some_iff] at hs
  obtain ⟨k, hk, hkn⟩ := hs
  obtain ⟨hhas, -⟩ := nextInode_spec hn
  unfold ufsAllocInode
  simp only [hk, hkn, h.readBlock_table hhas]
  have h1 := h.clearInode hhas
  have h2 := h1.inodeCounters ((ufsWriteBlock m (ufsInodeBlock m n)
      (blit (window m.disk (ufsInodeBlock m n * 4096) 4096) (ufsInodeOffset n) zeros
        136)).2.sb.freeInodes - 1#32) ((n + 1) % 2 ^ 32)
  have hv : { v.setInode n .zero with
      freeInodes := (ufsWriteBlock m (ufsInodeBlock m n)
        (blit (window m.disk (ufsInodeBlock m n * 4096) 4096) (ufsInodeOffset n) zeros
          136)).2.sb.freeInodes - 1#32
      nextFreeInode := (n + 1) % 2 ^ 32 } = v.takeInode n := by
    rw [h1.freeInodes]
    rfl
  rw [hv] at h2
  exact ⟨_, rfl, h2, by simp, by simp, by simp⟩

end

end Represents

namespace Holds

section

variable (h : Holds m v)
include h

theorem allocBlock_some (hb : v.nextBlock = some b) :
    (ufsAllocBlock m).1 = b ∧ Holds (ufsAllocBlock m).2 (v.takeBlock b) := by
  obtain ⟨heq, hrep⟩ := h.rep.allocBlock_eq hb
  rw [heq]
  exact ⟨rfl, h.commit hrep rfl rfl rfl⟩

theorem allocBlock_none (hn : v.nextBlock = none) :
    ufsAllocBlock m = (0, m) := h.rep.allocBlock_none hn

/-- Giving a block back. -/
theorem freeBlock (b : Nat) : Holds (ufsFreeBlock m b) (v.freeBlock b) := by
  unfold ufsFreeBlock Volume.freeBlock
  rw [h.rep.totalBlocks]
  split
  · exact h
  rename_i hb
  have h1 := (h.bitmapSet (b := b) (by omega) false).rep
  have hnext : (ufsBitmapSet m b false).2.nextFreeBlock = v.nextFreeBlock := h1.nextFreeBlock
  have hfree : (ufsBitmapSet m b false).2.sb.freeBlocks = v.freeBlocks := h1.freeBlocks
  have h2 := h1.blockCounters (v.freeBlocks + 1#32)
    (if b < v.nextFreeBlock then b else v.nextFreeBlock)
  simp only [hnext, hfree]
  exact h.commit h2 (by simp) (by simp) (by simp)

theorem allocInode_none (hn : v.nextInode = none) : ufsAllocInode m = (0, m) :=
  h.rep.allocInode_none hn

theorem allocInode_some (hn : v.nextInode = some n) :
    (ufsAllocInode m).1 = n ∧ Holds (ufsAllocInode m).2 (v.takeInode n) := by
  obtain ⟨m', heq, hrep, hmounted, hmagic, hroot⟩ := h.rep.allocInode_eq hn
  rw [heq]
  exact ⟨rfl, h.commit hrep hmounted hmagic hroot⟩

/-- Giving an inode back. -/
theorem freeInode (n : Nat) : Holds (ufsFreeInode m n) (v.freeInode n) := by
  unfold ufsFreeInode Volume.freeInode
  by_cases hn : v.HasInode n
  · rw [if_neg (by rw [h.rep.hasInode_iff]; simpa using hn), if_pos hn, h.rep.readInode_eq,
      Volume.readInode, if_pos hn]
    have h1 := (h.writeInode n .zero).rep
    rw [Volume.writeInode, if_pos hn] at h1
    have hnext : (ufsWriteInode m n .zero).2.nextFreeInode = v.nextFreeInode := h1.nextFreeInode
    have hfree : (ufsWriteInode m n .zero).2.sb.freeInodes = v.freeInodes := h1.freeInodes
    have h2 := h1.inodeCounters (v.freeInodes + 1#32)
      (if n < v.nextFreeInode then n else v.nextFreeInode)
    simp only [hnext, hfree]
    exact h.commit h2 (by simp) (by simp) (by simp)
  · rw [if_pos (by rw [h.rep.hasInode_iff]; exact hn), if_neg hn]
    exact h

theorem freeBlocks_foldl {bs : List Nat} :
    Holds (bs.foldl ufsFreeBlock m) (bs.foldl Volume.freeBlock v) := by
  induction bs generalizing m v with
  | nil => exact h
  | cons b bs ih => exact ih (h.freeBlock b)

/-- The driver frees the blocks of the extents one by one. -/
theorem freeInodeBlocks (n : Nat) : Holds (ufsFreeInodeBlocks m n) (v.freeInodeBlocks n) := by
  unfold ufsFreeInodeBlocks Volume.freeInodeBlocks
  rw [h.rep.readInode_eq, Volume.readInode]
  by_cases hn : v.HasInode n
  · rw [if_pos hn, if_pos hn]
    exact h.freeBlocks_foldl
  · rw [if_neg hn, if_neg hn]
    exact h

end

end Holds

end Utms7
