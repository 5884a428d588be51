import Utms7.UfsSimulation

/-!
# Directory blocks as lists of slots

A directory block holds 64 records of 64 bytes.  `blockSlots` decodes them,
and each of the driver's stores into a block changes exactly one element of
that list: `ufs_add_to_dir` fills a slot, `ufs_remove_from_dir` clears one.

`Volume.slots` puts the blocks of a directory together, in the order in which
`ufs_get_block` finds them.  A walk over the directory looks at the first
`ufsDirBlocks` of these lists and at no others, whatever the later blocks hold.
-/

namespace Utms7

open ByteMemory List

variable {ents ents' : Bytes} {j j' ino i : Nat} {name : CStr} {type : BitVec 8}

/-- A decoded `ufs_dirent_t`, without its type.  `ended` says that the name
field holds a NUL. -/
structure DirSlot where
  inode : BitVec 32
  nameLen : BitVec 8
  name : List (BitVec 8)
  ended : Bool
deriving DecidableEq

open DirSlot

namespace DirSlot

/-- The slot of a cleared record. -/
def zero : DirSlot := { inode := 0, nameLen := 0, name := [], ended := true }

/-- The slot that `ufs_add_to_dir` writes: it keeps 55 bytes of the name. -/
def named (ino : Nat) (name : CStr) : DirSlot where
  inode := BitVec.ofNat 32 ino
  nameLen := BitVec.ofNat 8 (name.chars.take 55).length
  name := name.chars.take 55
  ended := true

/-- `ents[j].inode != 0`. -/
def used (s : DirSlot) : Bool := s.inode != 0#32

end DirSlot

/-- Record `j` of a directory block. -/
def dirSlot (ents : Bytes) (j : Nat) : DirSlot where
  inode := direntInode ents j
  nameLen := direntNameLen ents j
  name := cstrAt ents (64 * j + 8) 56
  ended := (List.range 56).any fun i => ents (64 * j + 8 + i) == 0#8

/-- A slot depends on its own 64 bytes only. -/
theorem dirSlot_congr (h : ∀ i, i < 64 → ents (64 * j + i) = ents' (64 * j' + i)) :
    dirSlot ents j = dirSlot ents' j' := by
  have hname : ∀ i, i < 56 → ents (64 * j + 8 + i) = ents' (64 * j' + 8 + i) := by
    intro i hi
    have := h (8 + i) (by omega)
    simpa [Nat.add_assoc] using this
  have hended : ((List.range 56).any fun i => ents (64 * j + 8 + i) == 0#8) =
      (List.range 56).any fun i => ents' (64 * j' + 8 + i) == 0#8 := by
    rw [Bool.eq_iff_iff, any_eq_true, any_eq_true]
    constructor
    · rintro ⟨i, hi, heq⟩
      exact ⟨i, hi, by rw [← hname i (mem_range.mp hi)]; exact heq⟩
    · rintro ⟨i, hi, heq⟩
      exact ⟨i, hi, by rw [hname i (mem_range.mp hi)]; exact heq⟩
  simp only [dirSlot, mk.injEq]
  refine ⟨getU32_congr fun k hk => h k (by omega), h 5 (by omega), cstrAt_congr hname, hended⟩

theorem dirSlot_window (hj : j < 64) : dirSlot (window ents 0 4096) j = dirSlot ents j :=
  dirSlot_congr fun i hi => by rw [window_apply (by omega), Nat.zero_add]

/-- The slot with the given fields, whose name ends with a NUL. -/
theorem dirSlot_eq {w : List (BitVec 8)} (hlen : w.length < 56) (hnul : 0#8 ∉ w)
    (hfield : ∀ i, i ≤ w.length → ents (64 * j + 8 + i) = w.getD i 0#8) :
    dirSlot ents j = ⟨direntInode ents j, direntNameLen ents j, w, true⟩ := by
  have hended : ((List.range 56).any fun i => ents (64 * j + 8 + i) == 0#8) = true := by
    refine any_eq_true.mpr ⟨w.length, mem_range.mpr hlen, ?_⟩
    rw [hfield _ (Nat.le_refl _)]
    simp
  simp only [dirSlot, cstrAt_of_bytes hnul hlen hfield, hended]

/-! ## The stores of the driver -/

theorem direntPut_other (hi : i < 64 * j ∨ 64 * j + 64 ≤ i) :
    direntPut ents j ino name type i = ents i := by
  unfold direntPut strncpy
  rw [putByte_other (by omega), putByte_other (by omega), blit_outside (by omega),
    putByte_other (by omega), putU32_outside (by omega)]

theorem dirSlot_put_other (hj : j' ≠ j) :
    dirSlot (direntPut ents j ino name type) j' = dirSlot ents j' :=
  dirSlot_congr fun _ _ => direntPut_other (by omega)

theorem direntClear_other (hi : i < 64 * j ∨ 64 * j + 64 ≤ i) : direntClear ents j i = ents i := by
  unfold direntClear
  rw [putByte_other (by omega), putU32_outside (by omega)]

theorem dirSlot_clear_other (hj : j' ≠ j) : dirSlot (direntClear ents j) j' = dirSlot ents j' :=
  dirSlot_congr fun _ _ => direntClear_other (by omega)

/-- A name field filled by `strncpy(_, name, 55)` and a NUL. -/
theorem nameField_getD {off : Nat} (hi : i ≤ 55) :
    putByte (strncpy ents off name.chars 55) (off + 55) 0#8 (off + i) =
      (name.chars.take 55).getD i 0#8 := by
  rw [getD_eq_getElem?_getD, getElem?_take]
  by_cases h55 : i = 55
  · subst h55
    simp
  have hlt : i < 55 := by omega
  unfold strncpy
  rw [putByte_other (by omega), blit_inside (by omega) (by omega), if_pos hlt]
  congr 2
  omega

theorem take_noNul (name : CStr) (n : Nat) : 0#8 ∉ name.chars.take n := fun h =>
  name.noNul (mem_of_mem_take h)

theorem dirSlot_put_same (ents : Bytes) (j ino : Nat) (name : CStr) (type : BitVec 8) :
    dirSlot (direntPut ents j ino name type) j = named ino name := by
  have hlen : (name.chars.take 55).length ≤ 55 := List.length_take_le 55 _
  -- the name field, before and after `name_len` is stored
  have hfield : ∀ i, i ≤ (name.chars.take 55).length →
      direntPut ents j ino name type (64 * j + 8 + i) = (name.chars.take 55).getD i 0#8 := by
    intro i hi
    unfold direntPut
    rw [putByte_other (by omega), nameField_getD (by omega)]
  have hstr : ∀ es : Bytes,
      cstrAt (putByte (strncpy es (64 * j + 8) name.chars 55) (64 * j + 8 + 55) 0#8)
        (64 * j + 8) 56 = name.chars.take 55 := fun _ =>
    cstrAt_of_bytes (take_noNul name 55) (by omega) fun i hi => nameField_getD (by omega)
  have hino : direntInode (direntPut ents j ino name type) j = BitVec.ofNat 32 ino := by
    unfold direntInode direntPut strncpy
    rw [getU32_putByte_other (by omega), getU32_putByte_other (by omega),
      getU32_blit_outside (by omega), getU32_putByte_other (by omega), getU32_putU32]
  have hnl : direntNameLen (direntPut ents j ino name type) j =
      BitVec.ofNat 8 (name.chars.take 55).length := by
    unfold direntNameLen direntPut direntStrlen
    rw [putByte_same, hstr]
  rw [dirSlot_eq (by omega) (take_noNul name 55) hfield, hino, hnl, named]

/-- The slot that `ufs_remove_from_dir` leaves. -/
theorem dirSlot_clear_same (ents : Bytes) (j : Nat) :
    dirSlot (direntClear ents j) j =
      { inode := 0, nameLen := direntNameLen ents j, name := [], ended := true } := by
  have hfield : ∀ i, i ≤ 0 → direntClear ents j (64 * j + 8 + i) = [].getD i 0#8 := by
    rintro _ ⟨⟩
    exact putByte_same ..
  have hino : direntInode (direntClear ents j) j = 0#32 := by
    unfold direntInode direntClear
    rw [getU32_putByte_other (by omega), getU32_putU32]
  have hnl : direntNameLen (direntClear ents j) j = direntNameLen ents j := by
    unfold direntNameLen direntClear
    rw [putByte_other (by omega), putU32_outside (by omega)]
  rw [dirSlot_eq (w := []) (by simp) (by simp) hfield, hino, hnl]
  rfl

/-- The stores with which `ufs_vfs_mkdir` fills the entry `.` or `..`. -/
private def fillDots (ents : Bytes) (j ino : Nat) (name : List (BitVec 8)) (len : BitVec 8) :
    Bytes :=
  putByte (strcpy (putByte (putU32 ents (64 * j) (BitVec.ofNat 32 ino)) (64 * j + 4) 2#8)
    (64 * j + 8) name) (64 * j + 5) len

theorem direntDots_eq (self parent : Nat) :
    direntDots self parent =
      fillDots (fillDots zeros 0 self [46#8] 1#8) 1 parent [46#8, 46#8] 2#8 := rfl

theorem fillDots_other {name : List (BitVec 8)} {len : BitVec 8} (hlen : name.length < 56)
    (hj : j' ≠ j) : dirSlot (fillDots ents j ino name len) j' = dirSlot ents j' := by
  refine dirSlot_congr fun i hi => ?_
  unfold fillDots strcpy
  rw [putByte_other (by omega), blit_outside (by omega), putByte_other (by omega),
    putU32_outside (by omega)]

theorem fillDots_same (ents : Bytes) (j ino : Nat) {name : List (BitVec 8)}
    (len : BitVec 8) (hlen : name.length < 56) (hnul : 0#8 ∉ name) :
    dirSlot (fillDots ents j ino name len) j =
      { inode := BitVec.ofNat 32 ino, nameLen := len, name := name, ended := true } := by
  have hfield : ∀ i, i ≤ name.length → fillDots ents j ino name len (64 * j + 8 + i) =
      name.getD i 0#8 := by
    intro i hi
    unfold fillDots strcpy
    rw [putByte_other (by omega), blit_inside (by omega) (by omega)]
    congr 1
    omega
  have hino : direntInode (fillDots ents j ino name len) j = BitVec.ofNat 32 ino := by
    unfold direntInode fillDots strcpy
    rw [getU32_putByte_other (by omega), getU32_blit_outside (by omega),
      getU32_putByte_other (by omega), getU32_putU32]
  have hnl : direntNameLen (fillDots ents j ino name len) j = len := by
    unfold direntNameLen fillDots
    rw [putByte_same]
  rw [dirSlot_eq hlen hnul hfield, hino, hnl]

/-- The slot of `.` or `..`. -/
def DirSlot.dots (ino : Nat) (name : List (BitVec 8)) : DirSlot where
  inode := BitVec.ofNat 32 ino
  nameLen := BitVec.ofNat 8 name.length
  name := name
  ended := true

/-- The slots of a block. -/
def blockSlots (ents : Bytes) : List DirSlot := (List.range 64).map (dirSlot ents)

@[simp] theorem blockSlots_length (ents : Bytes) : (blockSlots ents).length = 64 := by
  simp [blockSlots]

theorem blockSlots_getElem? (hj : j < 64) : (blockSlots ents)[j]? = some (dirSlot ents j) := by
  simp [blockSlots, hj]

theorem blockSlots_window (ents : Bytes) : blockSlots (window ents 0 4096) = blockSlots ents :=
  map_congr_left fun _ hj => dirSlot_window (mem_range.mp hj)

/-- A store that changes one record only. -/
theorem blockSlots_eq_set {s : DirSlot} (hsame : dirSlot ents' j = s)
    (hother : ∀ j', j' ≠ j → dirSlot ents' j' = dirSlot ents j') :
    blockSlots ents' = (blockSlots ents).set j s := by
  apply ext_getElem (by simp)
  intro k hk hk'
  simp only [blockSlots, getElem_map, getElem_range, getElem_set]
  by_cases hjk : j = k
  · rw [if_pos hjk, ← hjk, hsame]
  · rw [if_neg hjk, hother k (Ne.symm hjk)]

/-- `ufs_add_to_dir` fills one slot. -/
theorem blockSlots_put (ents : Bytes) (j ino : Nat) (name : CStr) (type : BitVec 8) :
    blockSlots (direntPut ents j ino name type) =
      (blockSlots ents).set j (named ino name) :=
  blockSlots_eq_set (dirSlot_put_same ..) fun _ => dirSlot_put_other

/-- `ufs_remove_from_dir` clears one slot. -/
theorem blockSlots_clear (ents : Bytes) (j : Nat) :
    blockSlots (direntClear ents j) = (blockSlots ents).set j
      { inode := 0, nameLen := direntNameLen ents j, name := [], ended := true } :=
  blockSlots_eq_set (dirSlot_clear_same ..) fun _ => dirSlot_clear_other

/-- A new directory holds `.` and `..` and nothing else. -/
theorem blockSlots_dots (self parent : Nat) : blockSlots (direntDots self parent) =
      dots self [46#8] :: dots parent [46#8, 46#8] ::
        List.replicate 62 zero := by
  rw [direntDots_eq, blockSlots_eq_set (fillDots_same _ 1 parent 2#8 (by decide) (by decide))
      (fun _ => fillDots_other (by decide)),
    blockSlots_eq_set (fillDots_same zeros 0 self 1#8 (by decide) (by decide))
      (fun _ => fillDots_other (by decide))]
  rfl

/-! ## Walks over a directory -/

theorem direntFree_eq (ents : Bytes) (j : Nat) : direntFree ents j = !(dirSlot ents j).used := by
  simp [direntFree, dirSlot, used, bne]

/-- `strcmp` compares names where a NUL ends the stored one. -/
theorem direntMatches_iff (hended : (dirSlot ents j).ended = true) (name : CStr) :
    direntMatches name ents j = true ↔
      (dirSlot ents j).used = true ∧ (dirSlot ents j).name = name.chars := by
  obtain ⟨i, hi, hz⟩ := any_eq_true.mp hended
  have hcmp : strcmpEq ents (64 * j + 8) name.chars = true ↔
      cstrAt ents (64 * j + 8) 56 = name.chars :=
    strcmpEq_iff name.noNul ⟨i, mem_range.mp hi, by simpa using hz⟩
  unfold direntMatches
  rw [Bool.and_eq_true, hcmp]
  rfl

namespace Volume

variable {v : Volume}

/-- The slots of a directory, block by block. -/
def slots (v : Volume) (dir : UfsInode) : List (List DirSlot) :=
  (blockList dir.extents).map fun b => blockSlots (v.data b)

/-- The entries of directory `n`, in all of its blocks: names and inode numbers. -/
def entries (v : Volume) (n : Nat) : List (List (BitVec 8) × Nat) :=
  ((v.slots (v.inode n)).flatten.filter DirSlot.used).map fun s => (s.name, s.inode.toNat)

theorem scan_some {dir : UfsInode} (hv : v.Sized)
    (hdir : ExtentsIn v.dataStart v.totalBlocks dir.extents) {test : Bytes → Nat → Bool}
    {b : Nat} (h : v.scan dir test = some (b, ents, j)) :
    ∃ i, i < ufsDirBlocks dir ∧ (blockList dir.extents)[i]? = some b ∧ v.data b = ents ∧
      j < 64 ∧ test ents j = true := by
  obtain ⟨i, hi, hb, h0, -, hdata, hj, htest⟩ := scan_spec h
  have hsmall := hv.small
  rw [hdir.getBlock_eq (by omega)] at hb
  refine ⟨i, hi, ?_, hdata, hj, htest⟩
  cases hget : (blockList dir.extents)[i]? with
  | none => exact absurd (by simpa [hget] using hb.symm) h0
  | some b' => simpa [hget] using hb

end Volume

end Utms7
