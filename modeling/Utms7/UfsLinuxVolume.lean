import Mathlib.Data.List.Find
import Utms7.UfsLinux
import Utms7.UfsOwnership

/-!
# The Linux driver on volumes

A device that the Linux driver has mounted is also a device that the kernel
could mount: `kernelView` is what `ufs_vfs_mount` would make of it.  The
primitives of the Linux driver do to the volume what those of the kernel do, so
the lemmas of `UfsRefinement` serve both drivers.  `Linux.Shows s v` adds the
inodes in core: in mode, size and extents they are in step with the table.
-/

namespace Utms7

open ByteMemory Function List Linux Volume UfsSuperblock

variable {m : UfsMount} {v : Volume} {n b k : Nat} {ui : UfsInodeInfo}

/-- The module looks for an inode where the kernel's driver does. -/
theorem linux_inodeBlock {m : UfsMount} {n : Nat} (hlo : 1 ≤ n) (hhi : n ≤ 1024) :
    inodeBlock m.sb n = ufsInodeBlock m n ∧ inodeOffset n = ufsInodeOffset n := by
  have hsub : (n + 2 ^ 32 - 1) % 2 ^ 32 = n - 1 := by omega
  unfold inodeBlock inodeOffset ufsInodeBlock ufsInodeOffset
  rw [hsub]
  exact ⟨rfl, rfl⟩

/-- The Linux driver finds an inode where the kernel driver keeps it. -/
theorem Holds.linux_table (h : Holds m v)
    (hn : v.HasInode n) :
    UfsInode.ofBytes (sbBread m.disk (inodeBlock m.sb n)) (inodeOffset n) =
      v.inode n := by
  have hcount := h.rep.sized.count
  obtain ⟨hblock, hoff⟩ := linux_inodeBlock (m := m) hn.1 (by have := hn.2; omega)
  rw [hblock, hoff]
  exact h.rep.ofBytes_table hn

/-- The Linux driver reads the inode the kernel driver wrote, and compares. -/
theorem Holds.linux_readInode (h : Holds m v)
    (hn : v.HasInode n) : (∃ info, Linux.ufsReadInode m.sb m.disk n = .ok info) ↔
      (v.inode n).checksum = Linux.ufsCalcInodeChecksum (v.inode n) := by
  unfold Linux.ufsReadInode
  simp only [h.linux_table hn]
  split
  · rename_i hne
    simp [hne]
  · rename_i heq
    simp only [not_not] at heq
    simp [heq]

/-- The superblock on the device always passes the check. -/
theorem Holds.linux_checkSuper (h : Holds m v) :
    Linux.ufsCheckSuper m.disk = .ok m.sb := by
  have hread : ofBytes (Linux.sbBread m.disk 0) 0 = m.sb := by
    unfold ofBytes Linux.sbBread
    rw [wordsAt_window (by omega), h.header.synced, ofWords_words]
  have hsum : m.sb.checksum = Linux.ufsCalcSbChecksum m.sb := h.header.checksum
  unfold Linux.ufsCheckSuper
  simp only [hread, h.header.magic, ne_eq, not_true_eq_false, if_false]
  rw [if_neg (by simpa using hsum)]

namespace Linux

section Fields

variable (s : UfsSbInfo)

@[simp] theorem syncBuffer_sb (b : Nat) (data : Bytes) : (syncBuffer s b data).sb = s.sb := rfl

@[simp] theorem syncBuffer_inodes (b : Nat) (data : Bytes) :
    (syncBuffer s b data).inodes = s.inodes := rfl

@[simp] theorem storeInode_sb (ino : Nat) (inode : UfsInode) :
    (storeInode s ino inode).sb = s.sb := by
  rw [storeInode, syncBuffer_sb]

@[simp] theorem storeInode_inodes (ino : Nat) (inode : UfsInode) :
    (storeInode s ino inode).inodes = s.inodes := by
  rw [storeInode, syncBuffer_inodes]

@[simp] theorem ufsWriteSuperblock_inodes : (ufsWriteSuperblock s).inodes = s.inodes := by
  rw [ufsWriteSuperblock, syncBuffer_inodes]

@[simp] theorem takeSlot_inodes (ino : Nat) (mode : BitVec 16) (now : BitVec 32) :
    (takeSlot s ino mode now).inodes = s.inodes := by
  rw [takeSlot, ufsWriteSuperblock_inodes, storeInode_inodes]

end Fields

/-- What the kernel's `ufs_vfs_mount` makes of the device. -/
def kernelView (s : UfsSbInfo) : UfsMount where
  sb := s.sb
  mounted := true
  nextFreeBlock := 0
  nextFreeInode := 2
  disk := s.disk

/-- An inode in core is in step with its record in the table. -/
structure InStep (v : Volume) (n : Nat) (ui : UfsInodeInfo) : Prop where
  has : v.HasInode n
  ino : ui.ino = n
  extents : ui.diskInode.extents = (v.inode n).extents
  mode : ui.iMode = (v.inode n).mode
  -- The size on disk has 32 bits.
  size : (v.inode n).size = BitVec.ofNat 32 ui.iSize

/-- The device of `s` holds the volume `v`, and so do the inodes in core. -/
structure Shows (s : UfsSbInfo) (v : Volume) : Prop where
  holds : Holds (kernelView s) v
  core : ∀ {n ui}, s.inodes n = some ui → InStep v n ui

/-- The superblock counters of a volume. -/
def recount (v : Volume) (freeBlocks freeInodes : BitVec 32) : Volume :=
  { v with freeBlocks := freeBlocks, freeInodes := freeInodes }

/-- The first free block of the data area. -/
def firstFree (v : Volume) : Option Nat :=
  (List.range' v.dataStart (v.totalBlocks - v.dataStart)).find? fun b => !v.bit b

/-- The volume after the Linux allocator has taken block `b`. -/
def claimBlock (v : Volume) (b : Nat) : Volume :=
  recount (v.setBit b true) (v.freeBlocks - 1#32) v.freeInodes

/-- The first free slot of the inode table. -/
def firstSlot (v : Volume) : Option Nat :=
  (List.range' 1 v.inodeCount).find? fun n => (v.inode n).mode == 0#16

theorem newRecord_checksum {mode : BitVec 16} {now : BitVec 32} :
    (newRecord mode now).checksum = ufsCalcInodeChecksum (newRecord mode now) := by
  rfl

/-- The volume after `ufs_new_inode` has taken slot `n`. -/
def claimInode (v : Volume) (n : Nat) (mode : BitVec 16) (now : BitVec 32) : Volume :=
  recount (v.setInode n (newRecord mode now)) v.freeBlocks (v.freeInodes - 1#32)

/-- The slot is one whose inode is not in use. -/
theorem firstSlot_spec (h : firstSlot v = some n) :
    v.HasInode n ∧ (v.inode n).mode = 0#16 := by
  have hmem := mem_range'_1.mp (mem_of_find?_eq_some h)
  have hmode := find?_some h
  simp only [beq_iff_eq] at hmode
  exact ⟨⟨hmem.1, by omega⟩, hmode⟩

/-- The block is free and in the data area. -/
theorem firstFree_spec (h : firstFree v = some b) :
    v.dataStart ≤ b ∧ b < v.totalBlocks ∧ v.bit b = false := by
  have hmem := mem_range'_1.mp (mem_of_find?_eq_some h)
  have hbit := find?_some h
  simp only [Bool.not_eq_true'] at hbit
  exact ⟨hmem.1, by omega, hbit⟩

theorem kernelView_of_fresh {dev : BlockDevice} {ticks : BitVec 32}
    (h : FreshMount dev ticks m) (inodes : Nat → Option UfsInodeInfo) :
    kernelView { sb := m.sb, disk := m.disk, inodes := inodes } = m := by
  obtain ⟨root, hroot⟩ := h.mounted
  unfold ufsVfsMount at hroot
  extract_lets sb at hroot
  split at hroot
  · cases hroot
  · split at hroot
    · cases hroot
    · cases hroot
      rfl

/-! ## The primitives on the device -/

section Primitives

variable {s : UfsSbInfo}

section

variable (h : Holds (kernelView s) v)
include h

theorem total_eq : s.sb.totalBlocks.toNat = v.totalBlocks :=
  h.rep.totalBlocks

theorem start_eq : s.sb.dataStart.toNat = v.dataStart :=
  h.rep.dataStart

theorem sbBread_data {b : Nat} (hlo : v.dataStart ≤ b) (hhi : b < v.totalBlocks) :
    sbBread s.disk b = v.data b := (h.rep.data b hlo hhi).symm

theorem holds_syncBuffer (hlo : v.dataStart ≤ b) (hhi : b < v.totalBlocks) {data : Bytes} :
    Holds (kernelView (syncBuffer s b data)) (v.setData b data) := by
  have hw := h.writeBlock hlo data
  have htotal := total_eq h
  have hlt : ¬ b ≥ (kernelView s).sb.totalBlocks.toNat := by
    change ¬ b ≥ s.sb.totalBlocks.toNat
    omega
  rw [ufsWriteBlock, if_neg hlt, writeBlock, if_neg (by omega)] at hw
  exact hw

/-- The module reads the bitmap as the kernel does. -/
theorem bitmapBit_eq (hb : b < v.totalBlocks) : bitmapBit s b = v.bit b := by
  have hget := h.rep.bitmapGet_eq b
  rw [if_neg (by omega)] at hget
  unfold ufsBitmapGet ufsReadBlock at hget
  rw [h.rep.totalBlocks, if_neg (by omega)] at hget
  have hs := h.rep.sized.start
  have hr := h.rep.sized.room
  have hblk : ufsBitmapBlock (kernelView s) b < v.totalBlocks := by
    unfold ufsBitmapBlock
    rw [h.rep.bitmapStart]
    omega
  rw [if_neg (by omega)] at hget
  simp only at hget
  change (window s.disk (ufsBitmapBlock (kernelView s) b * 4096) 4096 (b % 32768 / 8)).getLsbD
    (b % 8) = v.bit b
  change (if (window s.disk (ufsBitmapBlock (kernelView s) b * 4096) 4096
    (b % 32768 / 8)).getLsbD (b % 8) then (1 : Int) else 0) = if v.bit b then 1 else 0 at hget
  cases hbit : v.bit b <;> rw [hbit] at hget
  · split at hget
    · exact absurd hget (by decide)
    · rename_i hf
      simpa using hf
  · split at hget
    · rename_i ht
      exact ht
    · exact absurd hget (by decide)

theorem holds_bitmapStore (hb : b < v.totalBlocks) {x : Bool} :
    Holds (kernelView (bitmapStore s b x)) (v.setBit b x) := by
  have hw := h.bitmapSet hb x
  have hs := h.rep.sized.start
  have hr := h.rep.sized.room
  have htotal := h.rep.totalBlocks
  have hblk : ufsBitmapBlock (kernelView s) b < v.totalBlocks := by
    unfold ufsBitmapBlock
    rw [h.rep.bitmapStart]
    omega
  unfold ufsBitmapSet ufsReadBlock ufsWriteBlock at hw
  rw [if_neg (by omega), if_neg (by omega)] at hw
  simp only at hw
  rw [if_neg (by omega)] at hw
  exact hw

end

/-- The counters of free blocks and inodes may change. -/
theorem represents_recount (h : Represents (kernelView s) v) (freeBlocks freeInodes : BitVec 32) :
    Represents (kernelView { s with sb := { s.sb with
      freeBlocks := freeBlocks
      freeInodes := freeInodes } }) (recount v freeBlocks freeInodes) :=
  { h with canonical := { h.canonical with }, freeBlocks := rfl, freeInodes := rfl }

/-- The superblock is written after its counters have changed. -/
theorem holds_writeSuperblock (h : Holds (kernelView s) v) {s' : UfsSbInfo} {v' : Volume}
    (hrep : Represents (kernelView s') v') (hmagic : s'.sb.magic = s.sb.magic)
    (hroot : s'.sb.rootInode = s.sb.rootInode) : Holds (kernelView (ufsWriteSuperblock s')) v' := by
  have hw := h.commit hrep rfl hmagic hroot
  have hr := hrep.sized.room
  have htotal : ¬ 0 ≥ s'.sb.totalBlocks.toNat := by
    have : s'.sb.totalBlocks.toNat = v'.totalBlocks := hrep.totalBlocks
    omega
  unfold Utms7.ufsWriteSuperblock ufsWriteBlock at hw
  simp only at hw
  rw [if_neg (by exact htotal)] at hw
  exact hw

section

variable (h : Holds (kernelView s) v)
include h

/-- The module takes the first free block from the start of the data area on. -/
theorem allocBlock_eq :
    match firstFree v with
    | none => ufsAllocBlock s = (0, s)
    | some b => (ufsAllocBlock s).1 = b ∧ (ufsAllocBlock s).2.inodes = s.inodes ∧
        Holds (kernelView (ufsAllocBlock s).2) (claimBlock v b) := by
  have hfind : (List.range' s.sb.dataStart.toNat
      (s.sb.totalBlocks.toNat - s.sb.dataStart.toNat)).find? (fun b => !bitmapBit s b) =
      firstFree v := by
    rw [start_eq h, total_eq h]
    refine find?_congr fun b hb => ?_
    have hmem := mem_range'_1.mp hb
    rw [bitmapBit_eq h (by omega)]
  unfold ufsAllocBlock
  simp only [hfind]
  cases hfree : firstFree v with
  | none => rfl
  | some b =>
    obtain ⟨hlo, hhi, -⟩ := firstFree_spec hfree
    have hpos := h.dataStart_pos
    have hblocks : s.sb.freeBlocks = v.freeBlocks := h.rep.freeBlocks
    have hinodes : s.sb.freeInodes = v.freeInodes := h.rep.freeInodes
    simp only [if_pos (show b ≠ 0 by omega), true_and]
    refine ⟨rfl, holds_writeSuperblock h ?_ rfl rfl⟩
    unfold claimBlock
    rw [← hblocks, ← hinodes]
    exact represents_recount (holds_bitmapStore h hhi).rep (s.sb.freeBlocks - 1#32)
      s.sb.freeInodes

theorem holds_storeInode (hn : v.HasInode n)
    (inode : UfsInode) : Holds (kernelView (storeInode s n inode)) (v.setInode n inode) := by
  have hcount := h.rep.sized.count
  have hw := h.writeInode n inode
  obtain ⟨hblock, hoff⟩ := linux_inodeBlock (m := kernelView s) hn.1 (by have := hn.2; omega)
  have hblk : ¬ ufsInodeBlock (kernelView s) n ≥ (kernelView s).sb.totalBlocks.toNat := by
    intro hge
    have hread := h.rep.readBlock_table hn
    rw [ufsReadBlock, if_pos hge] at hread
    cases hread
  unfold Utms7.ufsWriteInode at hw
  rw [if_neg (by rw [h.rep.hasInode_iff]; simpa using hn), h.rep.readBlock_table hn] at hw
  simp only at hw
  rw [ufsWriteBlock, if_neg hblk, writeInode, if_pos hn, ← hblock, ← hoff] at hw
  exact hw

theorem slotIsFree_eq (hn : v.HasInode n) : slotIsFree s n = ((v.inode n).mode == 0#16) :=
  congrArg (fun i : UfsInode => i.mode == 0#16) (h.linux_table hn)

end

end Primitives

/-! ## The inodes in core -/

namespace Shows

variable {s : UfsSbInfo}

theorem deref_eq (hn : s.inodes n = some ui) : deref s n = ui := by
  rw [deref, hn, Option.getD_some]

theorem deref_assign (s : UfsSbInfo) (n : Nat) (ui : UfsInodeInfo) :
    deref (assign s n ui) n = ui := by
  simp [deref, assign]

section

variable (h : Shows s v)
include h

/-- Only the inodes in core and those on disk matter. -/
theorem congr {s' : UfsSbInfo} {v' : Volume} (hholds : Holds (kernelView s') v')
    (hcore : s'.inodes = s.inodes) (hs : v.SameShape v') (hinode : v'.inode = v.inode) :
    Shows s' v' where
  holds := hholds
  core {k ui} hk := by
    rw [hcore] at hk
    have hstep := h.core hk
    refine { hstep with
      has := (hs.hasInode_iff k).mpr hstep.has, extents := ?_, mode := ?_, size := ?_ }
    · rw [hinode]
      exact hstep.extents
    · rw [hinode]
      exact hstep.mode
    · rw [hinode]
      exact hstep.size

theorem syncBuffer (hlo : v.dataStart ≤ b) (hhi : b < v.totalBlocks) (data : Bytes) :
    Shows (syncBuffer s b data) (v.setData b data) :=
  h.congr (holds_syncBuffer h.holds hlo hhi) rfl (v.setData_sameShape b data) rfl

theorem allocBlock (hb : firstFree v = some b) :
    (ufsAllocBlock s).1 = b ∧ (ufsAllocBlock s).2.inodes = s.inodes ∧
      Shows (ufsAllocBlock s).2 (claimBlock v b) := by
  have halloc := allocBlock_eq h.holds
  rw [hb] at halloc
  obtain ⟨hnum, hcore, hholds⟩ := halloc
  exact ⟨hnum, hcore, h.congr hholds hcore ⟨rfl, rfl, rfl⟩ rfl⟩

theorem allocBlock_none (hnone : firstFree v = none) : ufsAllocBlock s = (0, s) := by
  have halloc := allocBlock_eq h.holds
  rwa [hnone] at halloc

/-- Another inode in core, in step with its record. -/
theorem assign (hui : InStep v n ui) : Shows (Linux.assign s n ui) v where
  holds := h.holds
  core {k uk} hk := by
    by_cases hkn : k = n
    · subst hkn
      simp only [Linux.assign, update_self, Option.some.injEq] at hk
      exact hk ▸ hui
    · simp only [Linux.assign, update_of_ne hkn] at hk
      exact h.core hk

theorem writeInode (hn : v.HasInode n) (hino : ui.ino = n) :
    Shows (ufsWriteInode (Linux.assign s n ui) n) (v.setInode n ui.record) := by
  have hwrite : ufsWriteInode (Linux.assign s n ui) n =
      storeInode (Linux.assign (Linux.assign s n ui) n { ui with diskInode := ui.record }) n
        ui.record := by
    unfold ufsWriteInode
    simp only [deref_assign, hino]
  rw [hwrite]
  have hholds : Holds (kernelView (storeInode (Linux.assign (Linux.assign s n ui) n
      { ui with diskInode := ui.record }) n ui.record)) (v.setInode n ui.record) :=
    holds_storeInode (s := Linux.assign (Linux.assign s n ui) n _) h.holds hn ui.record
  refine ⟨hholds, fun {k uk} hk => ?_⟩
  change update (update s.inodes n (some ui)) n _ k = some uk at hk
  by_cases hkn : k = n
  · subst hkn
    rw [update_self, Option.some.injEq] at hk
    subst hk
    refine ⟨hn, hino, ?_, ?_, ?_⟩ <;> simp [setInode, UfsInodeInfo.record]
  · rw [update_of_ne hkn, update_of_ne hkn] at hk
    have hstep := h.core hk
    refine ⟨hstep.has, hstep.ino, ?_, ?_, ?_⟩
    · simpa [setInode, hkn] using hstep.extents
    · simpa [setInode, hkn] using hstep.mode
    · simpa [setInode, hkn] using hstep.size

end

theorem writeInode_inodes (s : UfsSbInfo) (n : Nat) (ui : UfsInodeInfo) :
    (ufsWriteInode (Linux.assign s n ui) n).inodes =
      update s.inodes n (some { ui with diskInode := ui.record }) := by
  rw [ufsWriteInode, storeInode_inodes]
  simp only [Linux.assign, deref, update_self, Option.getD_some, update_idem]

/-- The inode in core that `ufs_read_inode` makes of a record. -/
def loaded (n : Nat) (inode : UfsInode) : UfsInodeInfo where
  diskInode := inode
  ino := n
  iMode := inode.mode
  iUid := inode.uid.setWidth 32
  iGid := inode.gid.setWidth 32
  iNlink := inode.nlink.setWidth 32
  iSize := inode.size.toNat
  iAtime := inode.atime
  iMtime := inode.mtime
  iCtime := inode.ctime

theorem readInode_ok {sb : UfsSuperblock} {disk : Bytes} {inode : UfsInode}
    (htable : UfsInode.ofBytes (sbBread disk (inodeBlock sb k)) (inodeOffset k) = inode)
    (hsum : inode.checksum = ufsCalcInodeChecksum inode) :
    ufsReadInode sb disk k = .ok (loaded k inode) := by
  unfold ufsReadInode
  rw [htable]
  simp only
  rw [if_neg (not_not.mpr hsum)]
  rfl

theorem inStep_loaded (v : Volume) (hk : v.HasInode k) :
    InStep v k (loaded k (v.inode k)) :=
  ⟨hk, rfl, rfl, rfl, by rw [loaded, BitVec.ofNat_toNat, BitVec.setWidth_eq]⟩

/-- An inode that is not in core is read and checked. -/
theorem iget_fresh (h : Holds (kernelView s) v) (hk : v.HasInode k)
    (hnone : s.inodes k = none) (hsum : (v.inode k).checksum = ufsCalcInodeChecksum (v.inode k)) :
    ufsIget s k = .ok (loaded k (v.inode k), Linux.assign s k (loaded k (v.inode k))) := by
  have hread : ufsReadInode s.sb s.disk k = .ok (loaded k (v.inode k)) :=
    readInode_ok (h.linux_table hk) hsum
  unfold ufsIget
  rw [hnone, hread]
  rfl

/-- The table and the counter after `ufs_new_inode` has taken a slot. -/
theorem takeSlot (h : Holds (kernelView s) v) (hk : v.HasInode k) (mode : BitVec 16)
    (now : BitVec 32) : Holds (kernelView (Linux.takeSlot s k mode now))
      (claimInode v k mode now) := by
  have hblocks : s.sb.freeBlocks = v.freeBlocks := h.rep.freeBlocks
  have hinodes : s.sb.freeInodes = v.freeInodes := h.rep.freeInodes
  have hstore := holds_storeInode h hk (newRecord mode now)
  have hrep := represents_recount hstore.rep s.sb.freeBlocks (s.sb.freeInodes - 1#32)
  have hlast := holds_writeSuperblock h hrep (by rw [storeInode_sb]) (by rw [storeInode_sb])
  unfold Linux.takeSlot claimInode
  simp only [storeInode_sb] at hlast ⊢
  rw [← hblocks, ← hinodes]
  exact hlast

theorem claimInode_self (v : Volume) (k : Nat) (mode : BitVec 16) (now : BitVec 32) :
    (claimInode v k mode now).inode k = newRecord mode now := by
  simp [claimInode, recount, setInode]

theorem claimInode_other (v : Volume) {j k : Nat} (hjk : j ≠ k) (mode : BitVec 16)
    (now : BitVec 32) : (claimInode v k mode now).inode j = v.inode j := by
  simp [claimInode, recount, setInode, hjk]

/-- The search finds the first inode that is not in use. -/
theorem newInode_search (h : Shows s v) :
    (List.range' 1 s.sb.inodeCount.toNat).find? (slotIsFree s) = firstSlot v := by
  have hcount : s.sb.inodeCount.toNat = v.inodeCount := h.holds.rep.inodeCount
  rw [hcount]
  refine find?_congr fun k hk => slotIsFree_eq h.holds ?_
  have hmem := mem_range'_1.mp hk
  exact ⟨hmem.1, by omega⟩

theorem newInode_none (h : Shows s v) (hnone : firstSlot v = none) (mode : BitVec 16)
    (now : BitVec 32) : ufsNewInode s mode now = (.error (-enospc), s) := by
  unfold ufsNewInode
  rw [h.newInode_search, hnone]

theorem newInode_some (h : Shows s v) (hslot : firstSlot v = some k) (mode : BitVec 16)
    (now : BitVec 32) (hcore : ∀ k uk, s.inodes k = some uk → (v.inode k).mode ≠ 0#16) :
    ∃ s', ufsNewInode s mode now = (.ok k, s') ∧
      s'.inodes = update s.inodes k (some (loaded k (newRecord mode now))) ∧
      Shows s' (claimInode v k mode now) := by
  obtain ⟨hhas, hfree⟩ := firstSlot_spec hslot
  -- A slot that is free cannot be in core.
  have hnone : s.inodes k = none := by
    cases hk : s.inodes k with
    | none => rfl
    | some uk => exact absurd hfree (hcore k uk hk)
  have hholds := takeSlot h.holds hhas mode now
  have hrecord := claimInode_self v k mode now
  have hget : ufsIget (Linux.takeSlot s k mode now) k = .ok (loaded k (newRecord mode now),
      Linux.assign (Linux.takeSlot s k mode now) k (loaded k (newRecord mode now))) := by
    have hfresh := iget_fresh hholds (k := k) hhas (by rw [takeSlot_inodes]; exact hnone)
      (by rw [hrecord]; exact newRecord_checksum)
    rwa [hrecord] at hfresh
  refine ⟨Linux.assign (Linux.takeSlot s k mode now) k (loaded k (newRecord mode now)), ?_, ?_, ?_⟩
  · unfold ufsNewInode
    simp only [h.newInode_search, hslot, hget]
  · rw [Linux.assign, takeSlot_inodes]
  · have hui := inStep_loaded (claimInode v k mode now) (k := k) hhas
    rw [hrecord] at hui
    refine Shows.assign ⟨hholds, fun {j uj} hj => ?_⟩ hui
    rw [takeSlot_inodes] at hj
    have hstep := h.core hj
    have hjk : j ≠ k := by
      rintro rfl
      rw [hnone] at hj
      cases hj
    have hother := claimInode_other v hjk mode now
    exact ⟨hstep.has, hstep.ino, by rw [hother]; exact hstep.extents,
      by rw [hother]; exact hstep.mode, by rw [hother]; exact hstep.size⟩

end Shows

section Blocks

variable {s : UfsSbInfo}

section

variable (h : Shows s v) (hi : v.Intact) (hn : s.inodes n = some ui)
include h hi hn

/-- The block that the driver finds for an index. -/
theorem physBlock_some {idx b : Nat} (hb : (v.blocksOf n)[idx]? = some b) :
    physBlock ui idx = b ∧ v.dataStart ≤ b ∧ b < v.totalBlocks := by
  have hstep := h.core hn
  have hsmall := hi.sized.small
  rw [blocksOf_of_hasInode hstep.has] at hb
  have hin := hi.placed n hstep.has
  refine ⟨?_, hin.mem_bounds (mem_of_getElem? hb)⟩
  unfold physBlock
  rw [hstep.extents]
  exact hin.getBlock_of_getElem (by omega) hb

theorem physBlock_none {idx : Nat} (hidx : (v.blocksOf n).length ≤ idx) : physBlock ui idx = 0 := by
  have hstep := h.core hn
  have hsmall := hi.sized.small
  have hstart := hi.sized.start
  rw [blocksOf_of_hasInode hstep.has] at hidx
  unfold physBlock
  rw [hstep.extents]
  exact ((hi.placed n hstep.has).getBlock_eq_zero_iff (by omega) (by omega) idx).mpr hidx

end

end Blocks

/-! ## Extents -/

theorem addExtent_of_full {es : List Extent} (h : ∀ e ∈ es, e.len ≠ 0#32) (b : Nat) :
    addExtent es b = es := by
  induction es with
  | nil => rfl
  | cons e es ih =>
    rw [addExtent, if_neg (h e mem_cons_self), ih fun x hx => h x (mem_cons_of_mem _ hx)]

/-- Block `b` becomes the last one of the file. -/
theorem blockList_addExtent {lo hi : Nat} {es : List Extent} (h : ExtentsIn lo hi es)
    (hb : b < 2 ^ 32) (hfree : ∃ e ∈ es, e.len = 0#32) :
    blockList (addExtent es b) = blockList es ++ [b] := by
  induction es with
  | nil =>
    obtain ⟨e, he, -⟩ := hfree
    cases he
  | cons e es ih =>
    by_cases he : e.len = 0#32
    · rw [addExtent, if_pos he, blockList_cons, blockList_cons, h.tail_blocks_nil he]
      have hb' : b < 4294967296 := hb
      simp [he, hb']
    · rw [addExtent, if_neg he, blockList_cons, blockList_cons, ih h.tail ?_, append_assoc]
      obtain ⟨x, hx, hlen⟩ := hfree
      rcases mem_cons.mp hx with rfl | hx
      · exact absurd hlen he
      · exact ⟨x, hx, hlen⟩

/-- A block is added in the data area. -/
theorem extentsIn_addExtent {lo hi : Nat} {es : List Extent} (h : ExtentsIn lo hi es)
    (hhi : hi ≤ 2 ^ 32) (hlo : lo ≤ b) (hb : b < hi) : ExtentsIn lo hi (addExtent es b) := by
  induction es with
  | nil => exact h
  | cons e es ih =>
    obtain ⟨hhead, htail⟩ := pairwise_cons.mp h.shaped
    by_cases he : e.len = 0#32
    · rw [addExtent, if_pos he]
      refine ⟨fun x hx hlen => ?_, pairwise_cons.mpr ⟨fun x _ h0 => ?_, htail⟩⟩
      · rcases mem_cons.mp hx with rfl | hx
        · simp only [BitVec.toNat_ofNat]
          omega
        · exact h.tail.inside x hx hlen
      · exact absurd h0 (show ¬ 1#32 = 0#32 by decide)
    · rw [addExtent, if_neg he]
      have hrest := ih h.tail
      refine ⟨fun x hx hlen => ?_, pairwise_cons.mpr ⟨fun _ _ h0 => absurd h0 he, hrest.shaped⟩⟩
      rcases mem_cons.mp hx with rfl | hx
      · exact h.inside x mem_cons_self hlen
      · exact hrest.inside x hx hlen

/-- An inode gets a free block for itself. -/
theorem intact_claimBlock (h : v.Intact) {n b : Nat} (hn : v.HasInode n)
    (hb : firstFree v = some b) {inode : UfsInode}
    (hext : inode.extents = addExtent (v.inode n).extents b) :
    ((claimBlock v b).setInode n inode).Intact := by
  obtain ⟨hlo, hhi, hfree⟩ := firstFree_spec hb
  have hsmall := h.sized.small
  have hs : v.SameShape ((claimBlock v b).setInode n inode) := ⟨rfl, rfl, rfl⟩
  have hplaced : ((claimBlock v b).setInode n inode).Placed := by
    refine Volume.Placed.setInode (v := claimBlock v b) h.placed ?_
    rw [hext]
    exact extentsIn_addExtent (h.placed n hn) (show v.totalBlocks ≤ 2 ^ 32 by omega) hlo hhi
  have hother : ∀ k, k ≠ n → ((claimBlock v b).setInode n inode).blocksOf k = v.blocksOf k :=
    fun k hk => hs.blocksOf_eq (by simp [setInode, hk, claimBlock, recount, setBit])
  have hself : ((claimBlock v b).setInode n inode).blocksOf n =
      blockList (addExtent (v.inode n).extents b) := by
    rw [blocksOf_of_hasInode (v := (claimBlock v b).setInode n inode) hn, ← hext]
    simp [setInode]
  have hbit : ∀ c, v.bit c = true → ((claimBlock v b).setInode n inode).bit c = true := by
    intro c hc
    change update v.bit b true c = true
    by_cases hcb : c = b
    · rw [hcb, update_self]
    · rw [update_of_ne hcb]
      exact hc
  refine ⟨h.sized, hplaced, ?_⟩
  by_cases hroom : ∃ e ∈ (v.inode n).extents, e.len = 0#32
  · refine Allocation.Sound.grow h.owned hfree (i := n) ?_ hother hbit (update_self ..)
    rw [hself, blockList_addExtent (h.placed n hn) (by omega) hroom, blocksOf_of_hasInode hn]
    exact perm_append_singleton b _
  -- Without a free extent the block belongs to nobody.
  have hfull : addExtent (v.inode n).extents b = (v.inode n).extents :=
    addExtent_of_full (fun e he hlen => hroom ⟨e, he, hlen⟩) b
  exact h.owned.of_same hs
    (setInode_field_self (v := claimBlock v b) (·.extents) (hext.trans hfull))
    hbit

theorem intact_setInode (h : v.Intact) (hn : v.HasInode n) {inode : UfsInode}
    (hext : inode.extents = (v.inode n).extents) : (v.setInode n inode).Intact := by
  exact ⟨h.sized, h.placed.setInode (hext ▸ h.placed n hn), h.owned.of_same
    (v.setInode_sameShape n inode) (setInode_field_self (·.extents) hext) fun _ hb => hb⟩

/-- A new inode has no blocks. -/
theorem intact_claimInode (h : v.Intact) (hn : v.HasInode n)
    (mode : BitVec 16) (now : BitVec 32) : (claimInode v n mode now).Intact := by
  have hs : v.SameShape (claimInode v n mode now) := ⟨rfl, rfl, rfl⟩
  have hblocks : (claimInode v n mode now).blocksOf n = [] := by
    rw [blocksOf_of_hasInode (v := claimInode v n mode now) hn, Shows.claimInode_self]
    rfl
  refine ⟨h.sized, ?_, h.owned.clear hs hblocks (fun k hk => ?_) fun _ _ hc => hc⟩
  · exact Volume.Placed.setInode (v := v) h.placed (zero_extentsIn _ _)
  · rw [Shows.claimInode_other v hk]

theorem intact_setData (h : v.Intact) (b : Nat) (data : Bytes) :
    (v.setData b data).Intact :=
  ⟨h.sized, h.placed.setData b data, h.owned.setData b data⟩

end Linux

end Utms7
