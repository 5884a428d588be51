import Utms7.UfsLinuxVolume
import Utms7.UfsReaddir

/-!
# Directories written by the Linux driver

The kernel's `ufs_vfs_readdir` looks at the first `size / 64` slots of a
directory.  The Linux driver fills the first free slot of a directory without
touching its size, and gives a directory that it has just made the size of two
entries: the next entry is one that the kernel does not list, and `ufs_rmdir`
removes the directory all the same.

`DirSound` says that the entries of a directory are where the kernel looks, and
`AddsInSight` when an addition keeps it so.  `SoundDirs` says it of all
directories of a volume, and each of the driver's primitives keeps it.
-/

namespace Utms7

open ByteMemory Function List DirSlot Volume

namespace Linux

variable {slots : List DirSlot} {size d n : Nat} {s s' : UfsSbInfo} {v : Volume}
  {ui u : UfsInodeInfo} {inode : UfsInode} {name : CStr} {a : DirSlot}

/-- The entries of a directory are all where a listing looks, and a directory of
the size of an empty one has none but the dots. -/
structure DirSound (slots : List DirSlot) (size : Nat) : Prop where
  formed : ∀ s ∈ slots, s.Formed
  small : size + 4095 < 2 ^ 32
  named : ∀ s ∈ slots, s.used = true → s.name ≠ []
  covered : ∀ s ∈ slots.drop (size / 64), s.used = false
  dots : size ≤ 128 → ∀ s ∈ slots, s.used = true → s.name = dot.chars ∨ s.name = dotdot.chars

/-- The slot that `ufs_add_entry` fills, among the blocks that the size accounts for. -/
def freeSlot (slots : List DirSlot) (size : Nat) : Option Nat :=
  (slots.take (64 * ((size + 4095) / 4096))).findIdx? fun s => !s.used

/-- The entry that `ufs_add_entry` adds will be listed: its slot is one of the
first `size / 64` in a directory that is larger than an empty one, or it needs a
new block and the directory has no more blocks than its size accounts for. -/
def AddsInSight (slots : List DirSlot) (size : Nat) : Prop :=
  match freeSlot slots size with
  | some p => p < size / 64 ∧ 128 < size
  | none => slots.length ≤ 64 * ((size + 4095) / 4096) ∧ ((size + 4095) / 4096 + 1) * 4096 < 2 ^ 32

instance (slots : List DirSlot) (size : Nat) : Decidable (AddsInSight slots size) := by
  unfold AddsInSight
  split <;> infer_instance

/-! ## Lists of slots -/

section Slots

variable {a : DirSlot} {p : Nat}

theorem mem_set_cases {l : List DirSlot} {x : DirSlot} (h : x ∈ l.set p a) :
    x ∈ l ∨ x = a := mem_or_eq_of_mem_set h

/-- An entry in a slot that is listed. -/
theorem DirSound.fill (h : DirSound slots size) (hp : p < size / 64) (hsize : 128 < size)
    (hf : a.Formed) (hname : a.name ≠ []) : DirSound (slots.set p a) size where
  formed x hx := (mem_set_cases hx).elim (h.formed x) fun hxa => hxa ▸ hf
  small := h.small
  named x hx hused := (mem_set_cases hx).elim (fun hx => h.named x hx hused) fun hxa => hxa ▸ hname
  covered x hx := by
    rw [drop_set_of_lt hp] at hx
    exact h.covered x hx
  dots hle := absurd hle (by omega)

/-- An entry is removed. -/
theorem DirSound.clear (h : DirSound slots size) (p : Nat) (hf : a.Formed) (ha : a.used = false) :
    DirSound (slots.set p a) size where
  formed x hx := (mem_set_cases hx).elim (h.formed x) fun hxa => hxa ▸ hf
  small := h.small
  named x hx hused := (mem_set_cases hx).elim (fun hx => h.named x hx hused) fun hxa => by
    rw [hxa, ha] at hused
    cases hused
  covered x hx := by
    rw [drop_set] at hx
    split at hx
    · exact h.covered x hx
    · exact (mem_set_cases hx).elim (h.covered x) fun hxa => hxa ▸ ha
  dots hle x hx hused := (mem_set_cases hx).elim (fun hx => h.dots hle x hx hused) fun hxa => by
    rw [hxa, ha] at hused
    cases hused

/-- A block of slots behind those that the size accounts for, which is then the
size of all of them. -/
theorem DirSound.extend (h : DirSound slots size) {new : List DirSlot}
    (hlen : slots.length ≤ 64 * ((size + 4095) / 4096))
    (hsmall : ((size + 4095) / 4096 + 1) * 4096 < 2 ^ 32) (hnew : new.length ≤ 64)
    (hf : ∀ a ∈ new, a.Formed) (hname : ∀ a ∈ new, a.used = true → a.name ≠ []) :
    DirSound (slots ++ new) (((size + 4095) / 4096 + 1) * 4096) where
  formed x hx := (mem_append.mp hx).elim (h.formed x) (hf x)
  small := by
    have hk : (size + 4095) / 4096 + 1 ≤ 2 ^ 20 - 1 := by omega
    exact Nat.lt_of_le_of_lt (Nat.add_le_add_right (Nat.mul_le_mul_right 4096 hk) 4095) (by decide)
  named x hx := (mem_append.mp hx).elim (h.named x) (hname x)
  covered x hx := by
    rw [drop_eq_nil_of_le (by rw [length_append]; omega)] at hx
    cases hx
  dots hle := absurd hle (by omega)

/-- The slots of a block with one entry. -/
theorem newBlock_spec {ino : Nat} (hname : name.chars ≠ [])
    (ha : a ∈ named ino name :: List.replicate 63 zero) :
    a.Formed ∧ (a.used = true → a = named ino name ∧ a.name ≠ []) := by
  rcases mem_cons.mp ha with rfl | ha
  · refine ⟨formed_named ino name, fun _ => ⟨rfl, ?_⟩⟩
    simp [named, hname]
  · rw [(mem_replicate.mp ha).2]
    refine ⟨formed_zero, fun hused => ?_⟩
    cases hused

end Slots

/-! ## Records -/

/-- The record that the driver stores is the slot that the kernel would store. -/
theorem blockSlots_newEnt (ents : Bytes) (j ino : Nat) (name : CStr) (type : BitVec 8) :
    blockSlots (blit ents (64 * j) (newEnt ino name type) 64) =
      (blockSlots ents).set j (named ino name) := by
  have hlen : (name.chars.take 55).length ≤ 55 := by simp
  have hfield : ∀ i, i ≤ (name.chars.take 55).length →
      newEnt ino name type (64 * 0 + 8 + i) = (name.chars.take 55).getD i 0#8 := by
    intro i hi
    unfold newEnt strcpy
    rw [putByte_other (by omega), blit_inside (by omega) (by omega)]
    congr 1
    omega
  have hino : direntInode (newEnt ino name type) 0 = BitVec.ofNat 32 ino := by
    unfold direntInode newEnt strcpy
    rw [getU32_putByte_other (by omega), getU32_blit_outside (by omega),
      getU32_putByte_other (by omega), getU32_putU32]
  have hnl : direntNameLen (newEnt ino name type) 0 =
      BitVec.ofNat 8 (name.chars.take 55).length := by
    unfold direntNameLen newEnt
    rw [putByte_same]
  refine blockSlots_eq_set ?_ fun j' hj => dirSlot_congr fun i hi => blit_outside (by omega)
  have hsame : dirSlot (blit ents (64 * j) (newEnt ino name type) 64) j =
      dirSlot (newEnt ino name type) 0 :=
    dirSlot_congr fun i hi => by
      rw [blit_inside (by omega) (by omega)]
      congr 1
      omega
  rw [hsame, dirSlot_eq (by omega) (take_noNul name 55) hfield, hino, hnl, named]

/-! ## Walks -/

section Walks

variable {test : Bytes → Nat → Bool}

section

variable (h : Shows s v) (hi : v.Intact) (hopen : s.inodes d = some ui)
include h hi hopen

/-- Where a walk stops, and that no earlier slot passes the test. -/
theorem dirScan_some
    {n b block j : Nat} (hscan : dirScan s ui test n b = some (block, j)) :
    ∃ i, b ≤ i ∧ i < b + n ∧ (v.blocksOf d)[i]? = some block ∧ j < 64 ∧
      test (v.data block) j = true ∧ ∀ i' j' b', b ≤ i' → j' < 64 → 64 * i' + j' < 64 * i + j →
        (v.blocksOf d)[i']? = some b' → test (v.data b') j' = false := by
  have hstart := hi.sized.start
  induction n generalizing b with
  | zero => cases hscan
  | succ n ih =>
    unfold dirScan at hscan
    cases hb : (v.blocksOf d)[b]? with
    | none =>
      rw [physBlock_none h hi hopen (List.getElem?_eq_none_iff.mp hb)] at hscan
      cases hscan
    | some c =>
      obtain ⟨hblock, hlo, hhi⟩ := physBlock_some h hi hopen hb
      rw [hblock] at hscan
      simp only [if_neg (show c ≠ 0 by omega), sbBread_data h.holds hlo hhi] at hscan
      cases hfind : (List.range 64).find? (test (v.data c)) with
      | some k =>
        rw [hfind] at hscan
        cases hscan
        obtain ⟨htest, hk, hfirst⟩ := find?_range_eq_some.mp hfind
        have hlt := mem_range.mp hk
        refine ⟨b, Nat.le_refl b, by omega, hb, hlt, htest, ?_⟩
        intro i' j' b' hle hj' hbefore hb'
        obtain rfl : i' = b := by omega
        rw [hb] at hb'
        cases hb'
        simpa using hfirst j' (by omega)
      | none =>
        rw [hfind] at hscan
        obtain ⟨i, hle, hlt, hbi, hj, htest, hfirst⟩ := ih hscan
        refine ⟨i, by omega, by omega, hbi, hj, htest, ?_⟩
        intro i' j' b' hle' hj' hlt' hb'
        by_cases hib : i' = b
        · subst hib
          rw [hb] at hb'
          cases hb'
          simpa using find?_eq_none.mp hfind j' (mem_range.mpr hj')
        · exact hfirst i' j' b' (by omega) hj' hlt' hb'

theorem dirScan_none
    {n b : Nat} (hscan : dirScan s ui test n b = none) {i j c : Nat}
    (hlo : b ≤ i) (hhi : i < b + n) (hc : (v.blocksOf d)[i]? = some c) (hj : j < 64) :
    test (v.data c) j = false := by
  have hstart := hi.sized.start
  induction n generalizing b with
  | zero => omega
  | succ n ih =>
    have hlt : b < (v.blocksOf d).length := by
      have := (List.getElem?_eq_some_iff.mp hc).1
      omega
    have hb := getElem?_eq_getElem hlt
    generalize (v.blocksOf d)[b] = c' at hb
    obtain ⟨hblock, hlo', hhi'⟩ := physBlock_some h hi hopen hb
    unfold dirScan at hscan
    rw [hblock] at hscan
    simp only [if_neg (show c' ≠ 0 by omega), sbBread_data h.holds hlo' hhi'] at hscan
    cases hfind : (List.range 64).find? (test (v.data c')) with
    | some k =>
      rw [hfind] at hscan
      cases hscan
    | none =>
      rw [hfind] at hscan
      by_cases hib : i = b
      · subst hib
        rw [hb] at hc
        cases hc
        simpa using find?_eq_none.mp hfind j (mem_range.mpr hj)
      · exact ih hscan (by omega) (by omega)

end

end Walks

/-! ## Directories of a volume -/

/-- Directory `d` has these slots and this size, and the other inodes are as before. -/
structure DirChange (v v' : Volume) (d : Nat) (slots : List DirSlot) (size : Nat) : Prop where
  shape : v.SameShape v'
  intact : v'.Intact
  slots : v'.slotsOf d = slots
  size : (v'.inode d).size.toNat = size
  mode : ∀ k, (v'.inode k).mode = (v.inode k).mode
  other : ∀ k, k ≠ d → v'.slotsOf k = v.slotsOf k ∧ (v'.inode k).size = (v.inode k).size

section Changes

/-- A record of a directory block is written. -/
theorem dirChange_setData (hi : v.Intact) {i j b : Nat} (hb : (v.blocksOf d)[i]? = some b)
    (hj : j < 64) {ents : Bytes} (hents : blockSlots ents = (blockSlots (v.data b)).set j a) :
    DirChange v (v.setData b ents) d ((v.slotsOf d).set (64 * i + j) a)
      (v.inode d).size.toNat where
  shape := v.setData_sameShape b ents
  intact := intact_setData hi b ents
  slots := by
    refine Chunks.flatMap_set (fun _ => blockSlots_length _) (hi.owned.nodup d) hb hj ?_ ?_
    · simp only [setData, update_self]
      rw [blockSlots_window, hents]
    · intro c _ hc
      simp only [setData, update_of_ne hc]
  size := rfl
  mode _ := rfl
  other k hk := by
    refine ⟨slotsOf_congr rfl fun c hc => ?_, rfl⟩
    have hcb : c ≠ b := by
      rintro rfl
      exact hk (hi.owned.apart hc (mem_of_getElem? hb))
    simp only [setData, update_of_ne hcb]

/-- The record of inode `d` is written, with a new size at most. -/
theorem dirChange_setInode (hi : v.Intact) (hd : v.HasInode d)
    (hext : inode.extents = (v.inode d).extents) (hmode : inode.mode = (v.inode d).mode)
    (hsize : inode.size.toNat = size) :
    DirChange v (v.setInode d inode) d (v.slotsOf d) size where
  shape := v.setInode_sameShape d inode
  intact := intact_setInode hi hd hext
  slots := slotsOf_congr
    ((v.setInode_sameShape d inode).blocksOf_eq (by simp [setInode, hext])) fun _ _ => rfl
  size := by simpa [setInode] using hsize
  mode := setInode_field_self (·.mode) hmode
  other k hk := by
    refine ⟨slotsOf_congr (blocksOf_setInode_other inode hk) fun _ _ => rfl, ?_⟩
    simp [setInode, hk]

/-- Directory `d` gets the block that the allocator takes, if it has a free
extent. -/
theorem dirChange_grow (hi : v.Intact) (hd : v.HasInode d) {nb : Nat} (hnb : firstFree v = some nb)
    {data : Bytes} (hext : inode.extents = addExtent (v.inode d).extents nb)
    (hmode : inode.mode = (v.inode d).mode) (hsize : inode.size.toNat = size) :
    ∃ new, ((∃ e ∈ (v.inode d).extents, e.len = 0#32) → new = blockSlots data) ∧
      (new = blockSlots data ∨ new = []) ∧
      DirChange v (((claimBlock v nb).setData nb data).setInode d inode) d (v.slotsOf d ++ new)
        size := by
  obtain ⟨hlo, hhi, hfree⟩ := firstFree_spec hnb
  have hsmall := hi.sized.small
  have hshape : v.SameShape (((claimBlock v nb).setData nb data).setInode d inode) :=
    ⟨rfl, rfl, rfl⟩
  have hintact := intact_setData (intact_claimBlock hi hd hnb hext) nb data
  have hdata : ∀ c, c ≠ nb →
      (((claimBlock v nb).setData nb data).setInode d inode).data c = v.data c := by
    intro c hc
    change update v.data nb _ c = v.data c
    rw [update_of_ne hc]
  have hnot : ∀ k, nb ∉ v.blocksOf k := fun k hk => by
    rw [hi.owned.marked hk] at hfree
    cases hfree
  have hself : (((claimBlock v nb).setData nb data).setInode d inode).blocksOf d =
      blockList (addExtent (v.inode d).extents nb) := by
    rw [blocksOf_of_hasInode (v := ((claimBlock v nb).setData nb data).setInode d inode) hd,
      ← hext]
    simp [setInode]
  have hold : ∀ l : List Nat, (∀ c ∈ l, c ≠ nb) →
      (l.flatMap fun c => blockSlots
        ((((claimBlock v nb).setData nb data).setInode d inode).data c)) =
        l.flatMap fun c => blockSlots (v.data c) := by
    intro l hl
    rw [flatMap_def]
    congr 1
    exact map_congr_left fun c hc => by rw [hdata c (hl c hc)]
  have hkeep : ∀ c ∈ v.blocksOf d, c ≠ nb := fun c hc hcb => hnot d (hcb ▸ hc)
  have hrest : ∀ new, (((claimBlock v nb).setData nb data).setInode d inode).slotsOf d =
      v.slotsOf d ++ new →
      DirChange v (((claimBlock v nb).setData nb data).setInode d inode) d (v.slotsOf d ++ new)
        size := by
    refine fun new hslots => ⟨hshape, hintact, hslots, by simpa [setInode] using hsize,
      setInode_field_self (v := claimBlock v nb) (·.mode) hmode, fun k hk => ?_⟩
    have hinode : (((claimBlock v nb).setData nb data).setInode d inode).inode k = v.inode k := by
      simp [setInode, hk, setData, claimBlock, recount, setBit]
    refine ⟨slotsOf_congr (hshape.blocksOf_eq (by rw [hinode])) fun c hc => ?_, by rw [hinode]⟩
    exact hdata c fun hcb => hnot k (hcb ▸ hc)
  by_cases hroom : ∃ e ∈ (v.inode d).extents, e.len = 0#32
  · refine ⟨blockSlots data, fun _ => rfl, .inl rfl, hrest _ ?_⟩
    unfold slotsOf
    rw [hself, blockList_addExtent (hi.placed d hd) (by omega) hroom, flatMap_append,
      ← blocksOf_of_hasInode hd, hold _ hkeep]
    congr 1
    change blockSlots (update v.data nb _ nb) = _
    rw [update_self, blockSlots_window]
  · refine ⟨[], fun h => absurd h hroom, .inr rfl, hrest _ ?_⟩
    have hfull : addExtent (v.inode d).extents nb = (v.inode d).extents :=
      addExtent_of_full (fun e he hlen => hroom ⟨e, he, hlen⟩) nb
    unfold slotsOf
    rw [hself, hfull, ← blocksOf_of_hasInode hd, hold _ hkeep, append_nil]

end Changes

/-- The device shows an intact volume, the inodes in core have the sizes of the
table, every directory has its entries where the kernel looks, and they name
inodes in use. -/
structure SoundDirs (s : UfsSbInfo) (v : Volume) : Prop where
  shown : Shows s v
  intact : v.Intact
  core : ∀ {n ui}, s.inodes n = some ui →
    (v.inode n).mode ≠ 0#16 ∧ ui.iSize = (v.inode n).size.toNat
  dirs : ∀ {d}, v.LiveDir d → DirSound (v.slotsOf d) (v.inode d).size.toNat
  linked : ∀ {d a}, v.LiveDir d → a ∈ v.slotsOf d → a.used = true → v.Live a.inode.toNat

section Kept

variable {v' : Volume}

theorem DirChange.live_iff (hc : DirChange v v' d slots size) {n : Nat} : v'.Live n ↔ v.Live n := by
  unfold Volume.Live
  rw [hc.shape.hasInode_iff, hc.mode]

theorem DirChange.liveDir_iff (hc : DirChange v v' d slots size) (n : Nat) :
    v'.LiveDir n ↔ v.LiveDir n := by
  unfold Volume.LiveDir UfsInode.isDir
  rw [hc.shape.hasInode_iff, hc.mode]

section

variable (h : SoundDirs s v)
include h

/-- A change of one directory keeps the volume sound if it keeps that directory so. -/
theorem SoundDirs.change (hs : Shows s' v') (hc : DirChange v v' d slots size)
    (hcore : ∀ {n ui}, s'.inodes n = some ui →
      (s.inodes n).isSome ∧ ui.iSize = (v'.inode n).size.toNat)
    (hdir : v.LiveDir d → DirSound slots size ∧
      ∀ a ∈ slots, a.used = true → v.Live a.inode.toNat) : SoundDirs s' v' where
  shown := hs
  intact := hc.intact
  core {n ui} hn := by
    obtain ⟨hin, hsize⟩ := hcore hn
    obtain ⟨u, hu⟩ := Option.isSome_iff_exists.mp hin
    rw [hc.mode]
    exact ⟨(h.core hu).1, hsize⟩
  dirs {k} hk := by
    have hlive := (hc.liveDir_iff k).mp hk
    by_cases hkd : k = d
    · subst hkd
      rw [hc.slots, hc.size]
      exact (hdir hlive).1
    · rw [(hc.other k hkd).1, (hc.other k hkd).2]
      exact h.dirs hlive
  linked {k a} hk ha hused := by
    have hlive := (hc.liveDir_iff k).mp hk
    rw [hc.live_iff]
    by_cases hkd : k = d
    · subst hkd
      rw [hc.slots] at ha
      exact (hdir hlive).2 a ha hused
    · rw [(hc.other k hkd).1] at ha
      exact h.linked hlive ha hused

theorem SoundDirs.core_same (hc : DirChange v v' d slots (v.inode d).size.toNat)
    (hcore : s'.inodes = s.inodes) (hn : s'.inodes n = some ui) :
    (s.inodes n).isSome ∧ ui.iSize = (v'.inode n).size.toNat := by
  rw [hcore] at hn
  refine ⟨by rw [hn]; rfl, ?_⟩
  rw [(h.core hn).2]
  by_cases hnd : n = d
  · rw [hnd, hc.size]
  · rw [(hc.other n hnd).2]

/-- The sizes in core after inode `d` was written. -/
theorem SoundDirs.core_update (hc : DirChange v v' d slots size)
    (hu : u.iSize = size) (hin : (s.inodes d).isSome)
    (hcore : s'.inodes = update s.inodes d (some u)) (hn : s'.inodes n = some ui) :
    (s.inodes n).isSome ∧ ui.iSize = (v'.inode n).size.toNat := by
  rw [hcore] at hn
  by_cases hnd : n = d
  · subst hnd
    rw [update_self] at hn
    cases hn
    exact ⟨hin, by rw [hu, hc.size]⟩
  · rw [update_of_ne hnd] at hn
    exact ⟨by rw [hn]; rfl, by rw [(h.core hn).2, (hc.other n hnd).2]⟩

/-- Directories in core. -/
theorem SoundDirs.live (hn : s.inodes n = some ui) :
    v.Live n := ⟨(h.shown.core hn).has, (h.core hn).1⟩

end

theorem isDir_of_sIsdir (h : sIsdir inode.mode = true) : inode.isDir = true := by
  have hand : inode.mode &&& 0xF000#16 = 0x4000#16 := by simpa [sIsdir, sIfdir] using h
  have hbit : inode.mode &&& 0x4000#16 = 0x4000#16 := by
    have := congrArg (· &&& 0x4000#16) hand
    simpa [BitVec.and_assoc] using this
  unfold UfsInode.isDir ufsInodeDir
  simp only [decide_eq_true_eq]
  intro hzero
  rw [hbit] at hzero
  exact absurd hzero (by decide)

theorem SoundDirs.liveDir (h : SoundDirs s v) (hn : s.inodes n = some ui)
    (hdir : sIsdir ui.iMode = true) : v.LiveDir n := by
  have hstep := h.shown.core hn
  rw [hstep.mode] at hdir
  exact ⟨hstep.has, isDir_of_sIsdir hdir⟩

end Kept

/-! ## `ufs_add_entry` and `ufs_remove_entry` -/

section Entries

variable {ino k : Nat} {v' : Volume}

section

variable (h : SoundDirs s v) (hopen : s.inodes d = some ui)
include h hopen

theorem dirBlocks_eq : dirBlocks ui = ((v.inode d).size.toNat + 4095) / 4096 := by
  unfold dirBlocks
  rw [(h.core hopen).2]
  omega

theorem freeSlot_of_some {block j : Nat}
    (hscan : dirScan s ui direntFree (dirBlocks ui) 0 = some (block, j)) :
    ∃ i, (v.blocksOf d)[i]? = some block ∧ j < 64 ∧
      freeSlot (v.slotsOf d) (v.inode d).size.toNat = some (64 * i + j) := by
  obtain ⟨i, -, hi, hb, hj, htest, hfirst⟩ := dirScan_some h.shown h.intact hopen hscan
  rw [dirBlocks_eq h hopen] at hi
  refine ⟨i, hb, hj, ?_⟩
  have hget := slotsOf_getElem? hb hj
  have hlen := (List.getElem?_eq_some_iff.mp hget).1
  unfold freeSlot
  rw [findIdx?_eq_some_iff_getElem]
  refine ⟨by rw [length_take]; omega, ?_, fun q hq => ?_⟩
  · rw [getElem_take, (List.getElem?_eq_some_iff.mp hget).2, ← direntFree_eq]
    exact htest
  · have hqi : q / 64 < (v.blocksOf d).length := by
      have := (List.getElem?_eq_some_iff.mp hb).1
      omega
    have hslot := slotsOf_getElem? (getElem?_eq_getElem hqi) (Nat.mod_lt q (by decide : 64 > 0))
    rw [Nat.div_add_mod] at hslot
    rw [getElem_take, (List.getElem?_eq_some_iff.mp hslot).2, ← direntFree_eq,
      hfirst (q / 64) (q % 64) _ (Nat.zero_le _) (by omega) (by omega) (getElem?_eq_getElem hqi)]
    simp

theorem freeSlot_of_none (hscan : dirScan s ui direntFree (dirBlocks ui) 0 = none) :
    freeSlot (v.slotsOf d) (v.inode d).size.toNat = none := by
  unfold freeSlot
  rw [findIdx?_eq_none_iff]
  intro a ha
  obtain ⟨q, hq, hget⟩ := getElem_of_mem ha
  rw [length_take] at hq
  have hlen : (v.slotsOf d).length = 64 * (v.blocksOf d).length :=
    Chunks.length_flatMap (fun _ => blockSlots_length _) _
  have hqi : q / 64 < (v.blocksOf d).length := by omega
  have hslot := slotsOf_getElem? (getElem?_eq_getElem hqi) (Nat.mod_lt q (by decide : 64 > 0))
  rw [Nat.div_add_mod] at hslot
  have hnot := dirScan_none h.shown h.intact hopen hscan (Nat.zero_le (q / 64))
    (by rw [dirBlocks_eq h hopen]; omega) (getElem?_eq_getElem hqi)
    (Nat.mod_lt q (by decide : 64 > 0))
  rw [getElem_take, (List.getElem?_eq_some_iff.mp hslot).2] at hget
  rw [← hget, ← direntFree_eq]
  exact hnot

end

/-- The size that `ufs_add_entry` gives a directory with a new block. -/
def grownSize (size : Nat) : Nat := ((size + 4095) / 4096 + 1) * 4096 % 2 ^ 32

@[elab_as_elim]
theorem SoundDirs.addEntry_cases (h : SoundDirs s v) (hopen : s.inodes d = some ui) (name : CStr)
    (ino : Nat) (type : BitVec 8) {P : Int × UfsSbInfo → Prop}
    (hslot : ∀ p s' v', freeSlot (v.slotsOf d) (v.inode d).size.toNat = some p → Shows s' v' →
      s'.inodes = s.inodes →
      DirChange v v' d ((v.slotsOf d).set p (named ino name)) (v.inode d).size.toNat →
      P (0, s'))
    (hfull : freeSlot (v.slotsOf d) (v.inode d).size.toNat = none → firstFree v = none →
      P (-enospc, s))
    (hgrow : ∀ nb s' v' u new, freeSlot (v.slotsOf d) (v.inode d).size.toNat = none →
      firstFree v = some nb → Shows s' v' → s'.inodes = update s.inodes d (some u) →
      u.iSize = grownSize (v.inode d).size.toNat → ((∃ e ∈ (v.inode d).extents, e.len = 0#32) →
        new = named ino name :: List.replicate 63 zero) →
      (new = named ino name :: List.replicate 63 zero ∨ new = []) →
      DirChange v v' d (v.slotsOf d ++ new) (grownSize (v.inode d).size.toNat) → P (0, s')) :
    P (ufsAddEntry s d name ino type) := by
  have hui := h.shown.core hopen
  have hstart := h.intact.sized.start
  have hblock : blockSlots (blit zeros 0 (newEnt ino name type) 64) =
      named ino name :: List.replicate 63 zero := by
    have hset := blockSlots_newEnt zeros 0 ino name type
    rw [hset]
    rfl
  cases hscan : dirScan s ui direntFree (dirBlocks ui) 0 with
  | some r =>
    obtain ⟨block, j⟩ := r
    obtain ⟨i, hb, hj, hfree⟩ := freeSlot_of_some h hopen hscan
    obtain ⟨-, hlo, hhi⟩ := physBlock_some h.shown h.intact hopen hb
    have hadd : ufsAddEntry s d name ino type = (0, syncBuffer s block
        (blit (v.data block) (64 * j) (newEnt ino name type) 64)) := by
      unfold ufsAddEntry
      simp only [Shows.deref_eq hopen, hscan, sbBread_data h.shown.holds hlo hhi]
    rw [hadd]
    exact hslot _ _ _ hfree (h.shown.syncBuffer hlo hhi _) rfl
      (dirChange_setData h.intact hb hj (blockSlots_newEnt _ _ _ _ _))
  | none =>
    have hfree := freeSlot_of_none h hopen hscan
    cases hnb : firstFree v with
    | none =>
      have hadd : ufsAddEntry s d name ino type = (-enospc, s) := by
        unfold ufsAddEntry
        simp only [Shows.deref_eq hopen, hscan, h.shown.allocBlock_none hnb, if_true]
      rw [hadd]
      exact hfull hfree hnb
    | some nb =>
      obtain ⟨hlo, hhi, -⟩ := firstFree_spec hnb
      obtain ⟨hnum, hcore, hclaimed⟩ := h.shown.allocBlock hnb
      have hstored := hclaimed.syncBuffer hlo hhi (blit zeros 0 (newEnt ino name type) 64)
      have hderef : deref (syncBuffer (ufsAllocBlock s).2 nb
          (blit zeros 0 (newEnt ino name type) 64)) d = ui :=
        Shows.deref_eq (by rw [syncBuffer_inodes, hcore]; exact hopen)
      let u : UfsInodeInfo :=
        { ui.addBlock nb with iSize := grownSize (v.inode d).size.toNat }
      have hadd : ufsAddEntry s d name ino type = (0, ufsWriteInode (assign (syncBuffer
          (ufsAllocBlock s).2 nb (blit zeros 0 (newEnt ino name type) 64)) d u) d) := by
        unfold ufsAddEntry
        simp only [Shows.deref_eq hopen, hscan, hnum, if_neg (show nb ≠ 0 by omega), hderef]
        rw [dirBlocks_eq h hopen]
        rfl
      have hext : u.record.extents = addExtent (v.inode d).extents nb := by
        change addExtent ui.diskInode.extents nb = _
        rw [hui.extents]
      have hsize : u.record.size.toNat = grownSize (v.inode d).size.toNat := by
        change (BitVec.ofNat 32 (grownSize (v.inode d).size.toNat)).toNat = _
        rw [BitVec.toNat_ofNat, grownSize, Nat.mod_mod]
      obtain ⟨new, hnew, hcases, hchange⟩ := dirChange_grow h.intact hui.has hnb hext hui.mode hsize
      rw [hblock] at hnew hcases
      rw [hadd]
      refine hgrow nb _ _ { u with diskInode := u.record } new hfree hnb
        (hstored.writeInode hui.has hui.ino) ?_ rfl hnew hcases hchange
      rw [Shows.writeInode_inodes, syncBuffer_inodes, hcore]

/-- A directory that gets an entry in a free slot, or none for want of space. -/
structure Added (s : UfsSbInfo) (v : Volume) (d : Nat) (s' : UfsSbInfo) (v' : Volume) : Prop where
  sound : SoundDirs s' v'
  core : ∀ n, (s.inodes n).isSome → (s'.inodes n).isSome
  live : ∀ n, v.Live n → v'.Live n
  other : ∀ k, k ≠ d → v'.slotsOf k = v.slotsOf k ∧ (v'.inode k).size = (v.inode k).size

theorem Added.refl (h : SoundDirs s v) (d : Nat) : Added s v d s v :=
  ⟨h, fun _ hn => hn, fun _ hn => hn, fun _ _ => ⟨rfl, rfl⟩⟩

theorem Added.trans {s1 s2 : UfsSbInfo} {v1 v2 : Volume} (h1 : Added s v d s1 v1)
    (h2 : Added s1 v1 d s2 v2) : Added s v d s2 v2 where
  sound := h2.sound
  core n hn := h2.core n (h1.core n hn)
  live n hn := h2.live n (h1.live n hn)
  other k hk := by
    rw [(h2.other k hk).1, (h2.other k hk).2]
    exact h1.other k hk

/-- Inode numbers fit the field of an entry. -/
theorem named_inode (hi : v.Intact) (hino : v.Live ino) (name : CStr) :
    (named ino name).inode.toNat = ino ∧ (named ino name).used = true := by
  have hcount := hi.sized.count
  have hlt := hino.1.2
  have hpos := hino.1.1
  have htoNat : (BitVec.ofNat 32 ino).toNat = ino := by
    rw [BitVec.toNat_ofNat]
    omega
  refine ⟨htoNat, ?_⟩
  simp only [used, named, bne_iff_ne]
  intro hzero
  rw [hzero] at htoNat
  simp at htoNat
  omega

theorem SoundDirs.added_same (h : SoundDirs s v) (hs : Shows s' v')
    (hcore : s'.inodes = s.inodes) (hc : DirChange v v' d slots (v.inode d).size.toNat)
    (hdir : v.LiveDir d → DirSound slots (v.inode d).size.toNat ∧
      ∀ a ∈ slots, a.used = true → v.Live a.inode.toNat) : Added s v d s' v' where
  sound := h.change hs hc (h.core_same hc hcore) hdir
  core n hn := by rwa [hcore]
  live n := (hc.live_iff).mpr
  other := hc.other

theorem SoundDirs.added_update (h : SoundDirs s v) (hopen : s.inodes d = some ui)
    (hs : Shows s' v') (hu : u.iSize = size)
    (hcore : s'.inodes = update s.inodes d (some u)) (hc : DirChange v v' d slots size)
    (hdir : v.LiveDir d → DirSound slots size ∧
      ∀ a ∈ slots, a.used = true → v.Live a.inode.toNat) : Added s v d s' v' where
  sound := h.change hs hc (h.core_update hc hu (by rw [hopen]; rfl) hcore) hdir
  core n hn := by
    rw [hcore]
    by_cases hnd : n = d
    · rw [hnd, update_self]
      rfl
    · rwa [update_of_ne hnd]
  live n := (hc.live_iff).mpr
  other := hc.other

/-- Where the entry has gone. -/
inductive AddCourse (s : UfsSbInfo) (v : Volume) (d : Nat) (a : DirSlot) (s' : UfsSbInfo)
    (v' : Volume) : Prop where
  | slot {p : Nat} (free : freeSlot (v.slotsOf d) (v.inode d).size.toNat = some p)
      (slots : v'.slotsOf d = (v.slotsOf d).set p a)
  | full (free : freeSlot (v.slotsOf d) (v.inode d).size.toNat = none) (none : firstFree v = none)
      (state : s' = s) (volume : v' = v)
  | grow (free : freeSlot (v.slotsOf d) (v.inode d).size.toNat = none) (some : firstFree v ≠ none)
      (size : (v'.inode d).size.toNat = grownSize (v.inode d).size.toNat)
      (slots : (∃ e ∈ (v.inode d).extents, e.len = 0#32) →
        v'.slotsOf d = v.slotsOf d ++ a :: List.replicate 63 DirSlot.zero)

section

variable (h : SoundDirs s v) (hopen : s.inodes d = some ui)
include h hopen

/-- **An entry added in sight is listed.** -/
theorem SoundDirs.addEntry (hsight : AddsInSight (v.slotsOf d) (v.inode d).size.toNat)
    (hname : name.chars ≠ []) (hino : v.Live ino) (type : BitVec 8) :
    ∃ v', Added s v d (ufsAddEntry s d name ino type).2 v' ∧
      AddCourse s v d (named ino name) (ufsAddEntry s d name ino type).2 v' := by
  obtain ⟨hnum, -⟩ := named_inode h.intact hino name
  have hnonempty : (named ino name).name ≠ [] := by simp [named, hname]
  refine h.addEntry_cases hopen name ino type ?_ ?_ ?_
  · intro p s' v' hfree hs hcore hc
    unfold AddsInSight at hsight
    rw [hfree] at hsight
    refine ⟨v', h.added_same hs hcore hc fun hlive =>
      ⟨(h.dirs hlive).fill hsight.1 hsight.2 (formed_named ino name) hnonempty, ?_⟩,
      .slot hfree hc.slots⟩
    intro a ha hused
    rcases mem_set_cases ha with ha | rfl
    · exact h.linked hlive ha hused
    · rwa [hnum]
  · exact fun hfree hnone => ⟨v, .refl h d, .full hfree hnone rfl rfl⟩
  · intro nb s' v' u new hfree hnb hs hcore hu hroom hnew hc
    unfold AddsInSight at hsight
    rw [hfree] at hsight
    have hsize : grownSize (v.inode d).size.toNat =
        (((v.inode d).size.toNat + 4095) / 4096 + 1) * 4096 := Nat.mod_eq_of_lt hsight.2
    have hspec : ∀ a ∈ new, a.Formed ∧
        (a.used = true → a = named ino name ∧ a.name ≠ []) := by
      intro a ha
      rcases hnew with rfl | rfl
      · exact newBlock_spec hname ha
      · cases ha
    have hlen : new.length ≤ 64 := by
      rcases hnew with rfl | rfl <;> simp
    refine ⟨v', h.added_update hopen hs hu hcore hc fun hlive => ⟨?_, ?_⟩,
      .grow hfree (by rw [hnb]; exact Option.some_ne_none nb) hc.size
        fun he => by rw [hc.slots, hroom he]⟩
    · rw [hsize]
      exact (h.dirs hlive).extend hsight.1 hsight.2 hlen (fun a ha => (hspec a ha).1)
        fun a ha hused => ((hspec a ha).2 hused).2
    · intro a ha hused
      rcases mem_append.mp ha with ha | ha
      · exact h.linked hlive ha hused
      · rw [((hspec a ha).2 hused).1, hnum]
        exact hino

theorem SoundDirs.removeEntry (name : CStr) : ∃ v', Added s v d (ufsRemoveEntry s d name).2 v' := by
  unfold ufsRemoveEntry
  simp only [Shows.deref_eq hopen]
  cases hscan : dirScan s ui (entMatches name) (dirBlocks ui) 0 with
  | none => exact ⟨v, .refl h d⟩
  | some r =>
    obtain ⟨i, -, -, hb, hj, -, -⟩ := dirScan_some h.shown h.intact hopen hscan
    obtain ⟨-, hlo, hhi⟩ := physBlock_some h.shown h.intact hopen hb
    simp only [sbBread_data h.shown.holds hlo hhi]
    refine ⟨_, h.added_same (h.shown.syncBuffer hlo hhi _) rfl
      (dirChange_setData h.intact hb hj (blockSlots_clear _ _)) fun hlive =>
        ⟨(h.dirs hlive).clear _ (formed_of_unused rfl rfl) rfl, ?_⟩⟩
    intro a ha hused
    rcases mem_set_cases ha with ha | rfl
    · exact h.linked hlive ha hused
    · cases hused

/-- An inode in core is written with another link count or size. -/
theorem SoundDirs.writeInode (hino : u.ino = ui.ino)
    (hdisk : u.diskInode = ui.diskInode) (hmode : u.iMode = ui.iMode) (hlt : u.iSize < 2 ^ 32)
    (hdir : v.LiveDir d → DirSound (v.slotsOf d) u.iSize) :
    ∃ v', Added s v d (ufsWriteInode (assign s d u) d) v' ∧ v'.slotsOf d = v.slotsOf d ∧
      (v'.inode d).size.toNat = u.iSize := by
  have hui := h.shown.core hopen
  have hsize : u.record.size.toNat = u.iSize := by
    change (BitVec.ofNat 32 u.iSize).toNat = u.iSize
    rw [BitVec.toNat_ofNat, Nat.mod_eq_of_lt hlt]
  have hext : u.record.extents = (v.inode d).extents := by
    rw [← hui.extents, ← hdisk]
    rfl
  have hc := dirChange_setInode h.intact hui.has hext (hmode.trans hui.mode) hsize
  exact ⟨_, h.added_update hopen (u := { u with diskInode := u.record })
    (h.shown.writeInode hui.has (hino.trans hui.ino)) rfl (Shows.writeInode_inodes s d u) hc
    fun hlive => ⟨hdir hlive, fun a => h.linked hlive⟩, hc.slots, hc.size⟩

theorem SoundDirs.writeNlink (nlink : BitVec 32) :
    ∃ v', Added s v d (ufsWriteInode (assign s d { ui with iNlink := nlink }) d) v' := by
  have hsize := (h.core hopen).2
  have hlt : ui.iSize < 2 ^ 32 := by
    rw [hsize]
    exact (v.inode d).size.isLt
  obtain ⟨v', hadded, -⟩ := h.writeInode hopen (u := { ui with iNlink := nlink }) rfl rfl rfl hlt
    fun hlive => by
      change DirSound (v.slotsOf d) ui.iSize
      rw [hsize]
      exact h.dirs hlive
  exact ⟨v', hadded⟩

/-- An inode in core gets another link count. -/
theorem SoundDirs.assignNlink (nlink : BitVec 32) :
    SoundDirs (assign s d { ui with iNlink := nlink }) v where
  shown := h.shown.assign { h.shown.core hopen with }
  intact := h.intact
  core {n u} hn := by
    by_cases hnd : n = d
    · subst hnd
      simp only [assign, update_self, Option.some.injEq] at hn
      rw [← hn]
      have hcore := h.core hopen
      exact hcore
    · simp only [assign, update_of_ne hnd] at hn
      exact h.core hn
  dirs := h.dirs
  linked := h.linked

end

/-! ## `ufs_new_inode` and `ufs_lookup` -/

theorem claimInode_slotsOf (hk : firstSlot v = some k) (mode : BitVec 16) (now : BitVec 32) :
    (claimInode v k mode now).slotsOf n = if n = k then [] else v.slotsOf n := by
  have hshape : v.SameShape (claimInode v k mode now) := ⟨rfl, rfl, rfl⟩
  split
  · rename_i hnk
    subst hnk
    unfold slotsOf
    rw [blocksOf_of_hasInode (v := claimInode v n mode now) (firstSlot_spec hk).1,
      Shows.claimInode_self]
    rfl
  · rename_i hnk
    exact slotsOf_congr (hshape.blocksOf_eq (by rw [Shows.claimInode_other v hnk]))
      fun _ _ => rfl

theorem dirSound_nil (h : size + 4095 < 2 ^ 32) : DirSound [] size where
  formed := nofun
  small := h
  named := nofun
  covered a ha := by
    rw [drop_nil] at ha
    cases ha
  dots _ := nofun

/-- A new inode is an empty directory, or none. -/
theorem SoundDirs.newInode (h : SoundDirs s v) (hk : firstSlot v = some k) {mode : BitVec 16}
    (hmode : mode ≠ 0#16) (now : BitVec 32) :
    ∃ s', ufsNewInode s mode now = (.ok k, s') ∧ SoundDirs s' (claimInode v k mode now) ∧
      s'.inodes = update s.inodes k (some (Shows.loaded k (newRecord mode now))) := by
  obtain ⟨hhas, hfree⟩ := firstSlot_spec hk
  obtain ⟨s', hnew, hcore, hs⟩ := h.shown.newInode_some hk mode now fun n u hn => (h.core hn).1
  have hlive : ∀ n, v.Live n → (claimInode v k mode now).Live n := by
    intro n hn
    refine ⟨hn.1, ?_⟩
    by_cases hnk : n = k
    · rw [hnk, Shows.claimInode_self]
      exact hmode
    · rw [Shows.claimInode_other v hnk]
      exact hn.2
  have holdDir : ∀ n, n ≠ k → (claimInode v k mode now).LiveDir n → v.LiveDir n := by
    intro n hnk hn
    refine ⟨hn.1, ?_⟩
    rw [← Shows.claimInode_other v hnk mode now]
    exact hn.2
  refine ⟨s', hnew, ⟨hs, intact_claimInode h.intact hhas mode now, ?_, ?_, ?_⟩, hcore⟩
  · intro n u hn
    rw [hcore] at hn
    by_cases hnk : n = k
    · subst hnk
      rw [update_self] at hn
      cases hn
      rw [Shows.claimInode_self]
      exact ⟨hmode, rfl⟩
    · rw [update_of_ne hnk] at hn
      rw [Shows.claimInode_other v hnk]
      exact h.core hn
  · intro n hn
    rw [claimInode_slotsOf hk]
    split
    · rename_i hnk
      rw [hnk, Shows.claimInode_self]
      exact dirSound_nil (by decide : 0 + 4095 < 2 ^ 32)
    · rename_i hnk
      rw [Shows.claimInode_other v hnk]
      exact h.dirs (holdDir n hnk hn)
  · intro n a hn ha hused
    rw [claimInode_slotsOf hk] at ha
    split at ha
    · cases ha
    · rename_i hnk
      exact hlive _ (h.linked (holdDir n hnk hn) ha hused)

/-- An inode that comes into core. -/
theorem SoundDirs.iget (h : SoundDirs s v) (hn : v.Live n) {r : UfsInodeInfo × UfsSbInfo}
    (hget : ufsIget s n = .ok r) : SoundDirs r.2 v ∧ (r.2.inodes n).isSome ∧
      (∀ k u, s.inodes k = some u → r.2.inodes k = some u) ∧ r.2.sb = s.sb ∧ r.2.disk = s.disk := by
  cases hin : s.inodes n with
  | some u =>
    unfold ufsIget at hget
    rw [hin] at hget
    cases hget
    exact ⟨h, by rw [hin]; rfl, fun _ _ hk => hk, rfl, rfl⟩
  | none =>
    have hsum : (v.inode n).checksum = ufsCalcInodeChecksum (v.inode n) := by
      refine (h.shown.holds.linux_readInode hn.1).mp ?_
      unfold ufsIget at hget
      rw [hin] at hget
      cases hread : ufsReadInode s.sb s.disk n with
      | error e =>
        rw [hread] at hget
        cases hget
      | ok info => exact ⟨info, hread⟩
    rw [Shows.iget_fresh h.shown.holds hn.1 hin hsum] at hget
    cases hget
    have hother : ∀ k u, s.inodes k = some u →
        (assign s n (Shows.loaded n (v.inode n))).inodes k = some u := by
      intro k u hk
      have hkn : k ≠ n := by
        rintro rfl
        rw [hin] at hk
        cases hk
      simpa only [assign, update_of_ne hkn] using hk
    refine ⟨⟨h.shown.assign (Shows.inStep_loaded v hn.1), h.intact, ?_, h.dirs, h.linked⟩, ?_,
      hother, rfl, rfl⟩
    · intro k u hk
      by_cases hkn : k = n
      · subst hkn
        simp only [assign, update_self, Option.some.injEq] at hk
        subst hk
        exact ⟨hn.2, rfl⟩
      · simp only [assign, update_of_ne hkn] at hk
        exact h.core hk
    · simp only [assign, update_self]
      rfl

/-- `ufs_lookup` in a directory brings the inode into core and changes nothing else. -/
theorem SoundDirs.lookup (h : SoundDirs s v) (hopen : s.inodes d = some ui) (hdir : v.LiveDir d)
    {found : Option Nat} (hlook : ufsLookup s d name = .ok (found, s')) :
    SoundDirs s' v ∧ s'.inodes d = some ui ∧ (∀ n, found = some n → (s'.inodes n).isSome) ∧
      (found = none → s' = s) := by
  unfold ufsLookup at hlook
  simp only [Shows.deref_eq hopen] at hlook
  cases hscan : dirScan s ui (entMatches name) (dirBlocks ui) 0 with
  | none =>
    rw [hscan] at hlook
    cases hlook
    exact ⟨h, hopen, nofun, fun _ => rfl⟩
  | some r =>
    obtain ⟨block, j⟩ := r
    obtain ⟨i, -, -, hb, hj, htest, -⟩ := dirScan_some h.shown h.intact hopen hscan
    obtain ⟨-, hlo, hhi⟩ := physBlock_some h.shown h.intact hopen hb
    rw [hscan] at hlook
    simp only [sbBread_data h.shown.holds hlo hhi] at hlook
    have hused : (dirSlot (v.data block) j).used = true := by
      unfold entMatches at htest
      rw [Bool.and_eq_true] at htest
      exact htest.1
    have hlive := h.linked hdir (mem_of_getElem? (slotsOf_getElem? hb hj)) hused
    cases hget : ufsIget s (direntInode (v.data block) j).toNat with
    | error e =>
      rw [hget] at hlook
      cases hlook
    | ok r =>
      rw [hget] at hlook
      cases hlook
      obtain ⟨hsound, hin, hkeep, -, -⟩ := h.iget hlive hget
      refine ⟨hsound, hkeep d ui hopen, fun n hn => ?_, nofun⟩
      cases hn
      exact hin

/-! ## The entries of a new directory -/

/-- The slots of a directory that `ufs_mkdir` has made: the dots, or nothing. -/
def DotsOnly (slots : List DirSlot) : Prop :=
  (∀ a ∈ slots, a.used = true → a.name = dot.chars ∨ a.name = dotdot.chars) ∧
    ∀ a ∈ slots.drop 2, a.used = false

theorem addsInSight_nil : AddsInSight [] 0 := by decide

/-- The slots after the entry `.`. -/
theorem freeSlot_one (ha : a.used = true) :
    freeSlot (a :: List.replicate 63 zero) 4096 = some 1 := by
  unfold freeSlot
  rw [take_of_length_le (by simp), findIdx?_cons, ha]
  simp [findIdx?_cons, zero_unused]

theorem dotsOnly_dots {self parent : Nat} :
    DotsOnly (named self dot :: named parent dotdot ::
      List.replicate 62 zero) := by
  have hzero : ∀ a ∈ List.replicate 62 zero, a.used = false := by
    intro a ha
    rw [(mem_replicate.mp ha).2]
    exact zero_unused
  refine ⟨fun a ha hused => ?_, hzero⟩
  rcases mem_cons.mp ha with rfl | ha
  · exact .inl rfl
  · rcases mem_cons.mp ha with rfl | ha
    · exact .inr rfl
    · rw [hzero a ha] at hused
      cases hused

/-- `.` and `..` in a new directory `d`: both, or none if there is no free block. -/
theorem SoundDirs.addDots (h : SoundDirs s v) (hopen : s.inodes d = some ui)
    (hslots : v.slotsOf d = []) (hsize : (v.inode d).size.toNat = 0)
    (hroom : ∃ e ∈ (v.inode d).extents, e.len = 0#32) (hd : v.Live d) {parent : Nat}
    (hparent : v.Live parent) :
    ∃ v', Added s v d (ufsAddEntry (ufsAddEntry s d dot d 2#8).2 d dotdot parent 2#8).2 v' ∧
      DotsOnly (v'.slotsOf d) := by
  have hsight : AddsInSight (v.slotsOf d) (v.inode d).size.toNat := by
    rw [hslots, hsize]
    exact addsInSight_nil
  have hfresh : freeSlot (v.slotsOf d) (v.inode d).size.toNat = none := by
    rw [hsize]
    rfl
  obtain ⟨v1, hadded, hcourse⟩ := h.addEntry hopen hsight (by decide : dot.chars ≠ []) hd 2#8
  obtain ⟨u, hu⟩ := Option.isSome_iff_exists.mp (hadded.core d (by rw [hopen]; rfl))
  cases hcourse with
  | slot hfree =>
    rw [hfresh] at hfree
    cases hfree
  | full _ hnone hs hv =>
    -- No block is free, so the second call fails as well.
    rw [hs] at *
    obtain ⟨v2, hadded', hcourse'⟩ := h.addEntry hopen hsight
      (by decide : dotdot.chars ≠ []) hparent 2#8
    cases hcourse' with
    | slot hfree =>
      rw [hfresh] at hfree
      cases hfree
    | full _ _ _ hv' =>
      refine ⟨v2, hadded', ?_⟩
      rw [hv', hslots]
      exact ⟨nofun, nofun⟩
    | grow _ hsome => exact absurd hnone hsome
  | grow _ _ hgrown hblock =>
    have hfirst := hblock hroom
    rw [hslots] at hfirst
    rw [hsize] at hgrown
    obtain ⟨-, hused⟩ := named_inode h.intact hd dot
    have hone : freeSlot (v1.slotsOf d) (v1.inode d).size.toNat = some 1 := by
      rw [hfirst, hgrown]
      exact freeSlot_one hused
    have hsight' : AddsInSight (v1.slotsOf d) (v1.inode d).size.toNat := by
      unfold AddsInSight
      rw [hone, hgrown]
      exact (by decide : 1 < grownSize 0 / 64 ∧ 128 < grownSize 0)
    obtain ⟨v2, hadded', hcourse'⟩ := hadded.sound.addEntry hu hsight'
      (by decide : dotdot.chars ≠ []) (hadded.live parent hparent) 2#8
    refine ⟨v2, hadded.trans hadded', ?_⟩
    cases hcourse' with
    | slot hfree hset =>
      rw [hone] at hfree
      cases hfree
      rw [hset, hfirst]
      exact dotsOnly_dots
    | full hfree | grow hfree =>
      rw [hone] at hfree
      cases hfree

/-- The size that `ufs_mkdir` gives the new directory. -/
theorem DirSound.of_dotsOnly (h : DirSound slots size) (hdots : DotsOnly slots) :
    DirSound slots 128 where
  formed := h.formed
  small := by decide
  named := h.named
  covered := hdots.2
  dots _ := hdots.1

end Entries

end Linux

end Utms7
