import Utms7.Chunks
import Utms7.UfsOwnership

/-!
# A directory as one list of slots

`slotsOf` strings the blocks of a directory together.  The driver's walks look
at the first blocks only, as many as the size of the directory covers:
`visible` is that part, and `ufs_find_in_dir` is a search in it.

`ufs_add_to_dir` and `ufs_remove_from_dir` change one slot, or insert a block
of slots, and the size by 64.  What they do to the list is all that later
modules need to know about them.
-/

namespace Utms7

variable {s : DirSlot}

open ByteMemory Function List DirSlot Chunks

namespace DirSlot

/-- A record that the driver wrote: its name ends, and `name_len` is right. -/
structure Formed (s : DirSlot) : Prop where
  ended : s.ended = true
  length : s.used = true → s.nameLen.toNat = s.name.length

/-- What `ufs_remove_from_dir` leaves of a slot. -/
def cleared (s : DirSlot) : DirSlot :=
  { inode := 0, nameLen := s.nameLen, name := [], ended := true }

/-- The entry of this slot has this name. -/
def hasName (name : CStr) (s : DirSlot) : Bool := s.used && decide (s.name = name.chars)

theorem zero_unused : zero.used = false := by decide

theorem cleared_unused (s : DirSlot) : s.cleared.used = false := by
  simp [cleared, used]

theorem formed_of_unused (hended : s.ended = true) (hunused : s.used = false) : s.Formed :=
  ⟨hended, fun hused => by rw [hunused] at hused; cases hused⟩

theorem formed_zero : zero.Formed := formed_of_unused rfl zero_unused

theorem formed_cleared (s : DirSlot) : s.cleared.Formed := formed_of_unused rfl s.cleared_unused

theorem formed_named (ino : Nat) (name : CStr) : (named ino name).Formed where
  ended := rfl
  length _ := by
    have hlen : (name.chars.take 55).length ≤ 55 := by simp
    simp only [named, BitVec.toNat_ofNat]
    omega

theorem formed_dots {ino : Nat} {name : List (BitVec 8)} (h : name.length < 256) :
    (dots ino name).Formed where
  ended := rfl
  length _ := by
    simp only [dots, BitVec.toNat_ofNat]
    omega

theorem hasName_iff {name : CStr} :
    s.hasName name = true ↔ s.used = true ∧ s.name = name.chars := by
  simp [hasName]

theorem hasName_of_unused {name : CStr} (h : s.used = false) : s.hasName name = false := by
  simp [hasName, h]

end DirSlot

/-- Directories are in use. -/
theorem mode_ne_of_isDir {inode : UfsInode} (h : inode.isDir = true) : inode.mode ≠ 0#16 := by
  intro h0
  simp [UfsInode.isDir, h0] at h

/-- A new directory starts with records of the driver's. -/
def NewNode.Formed (node : NewNode) : Prop :=
  node.inode.isDir = true → ∀ contents, node.firstBlock = some contents →
    ∀ n, ∀ s ∈ blockSlots (contents n), s.Formed

/-- The inode number of the first entry with this name. -/
def lookup (slots : List DirSlot) (name : CStr) : Option Nat :=
  (slots.find? (DirSlot.hasName name)).map fun s => s.inode.toNat

namespace Volume

variable {v v' : Volume} {n d i b j nb : Nat} {node : NewNode} {w : Volume}
  {I : Nat → Prop} {test : Bytes → Nat → Bool} {P : Bool × Volume → Prop}

/-- The slots of inode `n`, block after block. -/
def slotsOf (v : Volume) (n : Nat) : List DirSlot :=
  (v.blocksOf n).flatMap fun b => blockSlots (v.data b)

/-- The slots that the walks over directory `n` look at. -/
def visible (v : Volume) (n : Nat) : List DirSlot :=
  (v.slotsOf n).take (64 * ufsDirBlocks (v.inode n))

/-- All records of directory `n` are the driver's. -/
def FormedDir (v : Volume) (n : Nat) : Prop := ∀ s ∈ v.slotsOf n, s.Formed

theorem entries_eq (hn : v.HasInode n) :
    v.entries n = ((v.slotsOf n).filter used).map fun s => (s.name, s.inode.toNat) := by
  unfold entries slots slotsOf
  rw [blocksOf_of_hasInode hn, flatMap_def]

theorem slotsOf_congr (hblocks : v'.blocksOf n = v.blocksOf n)
    (hdata : ∀ b ∈ v.blocksOf n, v'.data b = v.data b) : v'.slotsOf n = v.slotsOf n := by
  unfold slotsOf
  rw [hblocks, flatMap_def]
  congr 1
  exact map_congr_left fun b hb => by rw [hdata b hb]

/-- Directories that a step does not touch keep their slots. -/
theorem Touches.slotsOf_eq (h : Touches I v v') (ho : v.Owned) (hn : ¬ I n) :
    v'.slotsOf n = v.slotsOf n := by
  obtain ⟨hinode, hdata⟩ := h.file ho hn
  exact slotsOf_congr (h.shape.blocksOf_eq (by rw [hinode])) hdata

/-- Directories that a step does not touch look the same. -/
theorem Touches.find_eq (ht : Touches I v v') (h : v.Intact) (hd : ¬ I d)
    (name : CStr) : v'.find d name = v.find d name := by
  have hsmall := h.sized.small
  obtain ⟨hinode, hdata⟩ := ht.file h.owned hd
  unfold find
  simp only [ht.shape.hasInode_iff, hinode]
  split
  · rename_i hi
    have hscan : v'.scan (v.inode d) (direntMatches name) =
        v.scan (v.inode d) (direntMatches name) := by
      unfold scan readBlock
      rw [ht.shape.totalBlocks]
      congr 1
      funext i
      rw [(h.placed d hi).getBlock_eq (by omega)]
      cases hget : (blockList (v.inode d).extents)[i]? with
      | none => simp
      | some b =>
        have hb : b ∈ v.blocksOf d := by
          rw [blocksOf_of_hasInode hi]
          exact mem_of_getElem? hget
        simp only [Option.getD_some, hdata b hb]
    rw [hscan]
  · rfl

theorem slotsOf_getElem? (hb : (v.blocksOf n)[i]? = some b) (hj : j < 64) :
    (v.slotsOf n)[64 * i + j]? = some (dirSlot (v.data b) j) := by
  unfold slotsOf
  rw [getElem?_flatMap (fun _ => blockSlots_length _) _ _ hj, hb, Option.bind_some,
    blockSlots_getElem? hj]

theorem mem_visible (h : s ∈ v.visible n) : s ∈ v.slotsOf n :=
  mem_of_mem_take h

/-- The names of slots are strings. -/
theorem slot_noNul (h : s ∈ v.slotsOf n) : 0#8 ∉ s.name := by
  obtain ⟨b, -, hs⟩ := mem_flatMap.mp h
  obtain ⟨j, -, rfl⟩ := mem_map.mp hs
  exact cstrAt_noNul _ _ _

theorem visible_eq (v : Volume) (n : Nat) : v.visible n =
    ((v.blocksOf n).take (ufsDirBlocks (v.inode n))).flatMap fun b => blockSlots (v.data b) :=
  take_flatMap (fun _ => blockSlots_length _) _ _

/-- **A walk over a directory is a search in its visible slots.** -/
theorem scan_eq_find? (hv : v.Sized) (hp : v.Placed) (hn : v.HasInode n) {p : DirSlot → Bool}
    (htest : ∀ b ∈ v.blocksOf n, ∀ j < 64, test (v.data b) j = p (dirSlot (v.data b) j)) :
    (v.scan (v.inode n) test).map (fun r => dirSlot r.2.1 r.2.2) = (v.visible n).find? p := by
  have hsmall := hv.small
  have hstart := hv.start
  have hscan : v.scan (v.inode n) test = (List.range (ufsDirBlocks (v.inode n))).findSome?
      fun i => (v.blocksOf n)[i]?.bind fun b =>
        ((List.range 64).find? (test (v.data b))).map fun j => (b, v.data b, j) := by
    unfold scan
    congr 1
    funext i
    rw [blocksOf_of_hasInode hn, (hp n hn).getBlock_eq (by omega)]
    cases hget : (blockList (v.inode n).extents)[i]? with
    | none => simp
    | some b =>
      have hb := (hp n hn).mem_bounds (mem_of_getElem? hget)
      simp [readBlock, show ¬ b = 0 by omega, show ¬ v.totalBlocks ≤ b by omega]
  rw [hscan, findSome?_range, visible_eq, find?_flatMap, map_findSome?]
  refine findSome?_congr fun b hb => ?_
  have hmem : b ∈ v.blocksOf n := mem_of_mem_take hb
  have hfind : (List.range 64).find? (test (v.data b)) =
      (List.range 64).find? (p ∘ dirSlot (v.data b)) :=
    find?_congr fun j hj => htest b hmem j (mem_range.mp hj)
  rw [blockSlots, find?_map, comp_apply, hfind, Option.map_map]
  rfl

theorem find_eq_lookup (h : v.Intact) (hd : v.HasInode d) (hf : v.FormedDir d) (name : CStr) :
    v.find d name = lookup (v.visible d) name := by
  have htest : ∀ b ∈ v.blocksOf d, ∀ j < 64,
      direntMatches name (v.data b) j = (dirSlot (v.data b) j).hasName name := by
    intro b hb j hj
    obtain ⟨i, hi⟩ := getElem?_of_mem hb
    have hended := (hf _ (mem_of_getElem? (slotsOf_getElem? hi hj))).ended
    rw [Bool.eq_iff_iff, direntMatches_iff hended, hasName_iff]
  unfold find lookup
  rw [if_pos hd, ← scan_eq_find? h.sized h.placed hd htest, Option.map_map]
  rfl

theorem scan_free_eq_none_iff (h : v.Intact) (hd : v.HasInode d) :
    v.scan (v.inode d) direntFree = none ↔ ∀ s ∈ v.visible d, s.used = true := by
  rw [← Option.map_eq_none_iff (f := fun r => dirSlot r.2.1 r.2.2),
    scan_eq_find? h.sized h.placed hd (p := fun s => !s.used) fun _ _ _ _ => direntFree_eq _ _]
  simp

/-- Where a walk over directory `d` stops. -/
theorem scan_at (h : v.Intact) (hd : v.HasInode d) {ents : Bytes}
    (hscan : v.scan (v.inode d) test = some (b, ents, j)) :
    ∃ i, i < ufsDirBlocks (v.inode d) ∧ (v.blocksOf d)[i]? = some b ∧ v.data b = ents ∧ j < 64 ∧
      test ents j = true := by
  rw [blocksOf_of_hasInode hd]
  exact scan_some h.sized (h.placed d hd) hscan

/-! ## The two changes of a directory -/

/-- Slot `p` of directory `d` becomes `s`, and the directory has a new size. -/
structure SlotChange (v v' : Volume) (d p : Nat) (s : DirSlot) (size : BitVec 32) : Prop where
  slots : v'.slotsOf d = (v.slotsOf d).set p s
  rest : v' = { v with
    inode := update v.inode d { v.inode d with size := size }
    data := v'.data }

theorem slotChange_writeBlock (h : v.Intact) (hd : v.HasInode d) (hb : (v.blocksOf d)[i]? = some b)
    (hj : j < 64) {ents : Bytes} (hents : blockSlots ents = (blockSlots (v.data b)).set j s)
    {size : BitVec 32} :
    SlotChange v ((v.writeBlock b ents).writeInode d { v.inode d with size := size }) d
      (64 * i + j) s size := by
  have hlt : ¬ b ≥ v.totalBlocks := by
    have hmem := mem_of_getElem? hb
    rw [blocksOf_of_hasInode hd] at hmem
    have := (h.placed d hd).mem_bounds hmem
    omega
  have hval : (v.writeBlock b ents).writeInode d { v.inode d with size := size } =
      { v with
        inode := update v.inode d { v.inode d with size := size }
        data := update v.data b (window ents 0 4096) } := by
    rw [writeBlock, if_neg hlt, writeInode,
      if_pos (((v.setData_sameShape b ents).hasInode_iff d).mpr hd)]
    rfl
  refine ⟨?_, by rw [hval]⟩
  have hblocks : ((v.writeBlock b ents).writeInode d { v.inode d with size := size }).blocksOf d =
      v.blocksOf d := by
    refine ((v.writeBlock_sameShape b ents).trans (writeInode_sameShape _ d _)).blocksOf_eq ?_
    rw [hval]
    simp
  unfold slotsOf
  rw [hblocks, hval]
  refine flatMap_set (fun _ => blockSlots_length _) (h.owned.nodup d) hb hj ?_ ?_
  · simp only [update_self]
    rw [blockSlots_window, hents]
  · intro c _ hc
    simp only [update_of_ne hc]

/-- The courses that `removeEntry` can take. -/
@[elab_as_elim]
theorem removeEntry_cases (h : v.Intact) (hd : v.HasInode d) (hf : v.FormedDir d) (name : CStr)
    (habsent : v.find d name = none → P (false, v))
    (hremoved : ∀ p s v', p < 64 * ufsDirBlocks (v.inode d) → (v.slotsOf d)[p]? = some s →
      s.hasName name = true → v.find d name = some s.inode.toNat →
      SlotChange v v' d p s.cleared ((v.inode d).size - 64#32) → P (true, v')) :
    P (v.removeEntry d name) := by
  unfold removeEntry
  rw [if_pos hd]
  simp only
  cases hscan : v.scan (v.inode d) (direntMatches name) with
  | none => exact habsent (by rw [find, if_pos hd, hscan]; rfl)
  | some r =>
    obtain ⟨b, ents, j⟩ := r
    obtain ⟨i, hi, hb, rfl, hj, htest⟩ := scan_at h hd hscan
    have hslot := slotsOf_getElem? hb hj
    have hended := (hf _ (mem_of_getElem? hslot)).ended
    refine hremoved (64 * i + j) _ _ (by omega) hslot ?_ (by rw [find, if_pos hd, hscan]; rfl)
      (slotChange_writeBlock h hd hb hj (blockSlots_clear _ _))
    rw [hasName_iff, ← direntMatches_iff hended]
    exact htest

/-- The block `nb` joins directory `d`, with `s` in its first slot. -/
structure BlockChange (v v' : Volume) (d nb : Nat) (s : DirSlot) : Prop where
  slots : ∃ i, (blockList (appendExtent (v.inode d).extents nb))[i]? = some nb ∧
    v'.slotsOf d = (v.slotsOf d).take (64 * i) ++
      (s :: List.replicate 63 DirSlot.zero) ++ (v.slotsOf d).drop (64 * i)
  rest : v' = { v with
    freeBlocks := v.freeBlocks - 1#32
    nextFreeBlock := (nb + 1) % 2 ^ 32
    bit := update v.bit nb true
    inode := update v.inode d { (v.inode d).append nb with
      size := (v.inode d).size + 64#32
      blocks := ((v.inode d).size + 64#32 + 511#32) / 512#32 }
    data := v'.data }
  data : ∀ b, b ≠ nb → v'.data b = v.data b

/-- A block was taken and given back: nothing but the allocator's position and
the contents of the free block has changed. -/
structure BlockUndone (v v' : Volume) (nb : Nat) : Prop where
  free : v.bit nb = false
  rest : v' = { v with nextFreeBlock := v'.nextFreeBlock, data := v'.data }
  data : ∀ b, b ≠ nb → v'.data b = v.data b

theorem blockUndone_freeBlock (h : v.Intact) (hnext : v.nextBlock = some nb) {buf : Bytes} :
    BlockUndone v (((v.takeBlock nb).setData nb buf).freeBlock nb) nb := by
  obtain ⟨hlo, hhi, hfree⟩ := nextBlock_spec hnext
  have hstart := h.sized.start
  refine ⟨hfree, ?_, fun b hb => ?_⟩
  · have hin : ¬ (nb = 0 ∨ nb ≥ ((v.takeBlock nb).setData nb buf).totalBlocks) := by
      rintro (h0 | h0)
      · omega
      · exact absurd h0 (Nat.not_le.mpr hhi)
    have hbit : update (update v.bit nb true) nb false = v.bit := by
      rw [update_idem, ← hfree, update_eq_self]
    rw [freeBlock, if_neg hin]
    simp only [setBit, setData, takeBlock]
    congr 1
    exact BitVec.sub_add_cancel _ _
  · simp [setData, takeBlock, setBit, hb]

theorem blockSlots_first {n : Nat} {name : CStr} (type : BitVec 8) :
    blockSlots (window (direntPut zeros 0 n name type) 0 4096) =
      named n name :: List.replicate 63 zero := by
  rw [blockSlots_window, blockSlots_put]
  rfl

/-- A block that joins a file brings its slots. -/
theorem slotsOf_insert {before after : List Nat} (hold : v.blocksOf d = before ++ after)
    (hnew : v'.blocksOf d = before ++ nb :: after) (hnb : nb ∉ v.blocksOf d)
    (hdata : ∀ b, b ≠ nb → v'.data b = v.data b) :
    v'.slotsOf d = (v.slotsOf d).take (64 * before.length) ++ blockSlots (v'.data nb) ++
      (v.slotsOf d).drop (64 * before.length) := by
  have hsame : ∀ l : List Nat, (∀ b ∈ l, b ∈ v.blocksOf d) →
      (l.flatMap fun b => blockSlots (v'.data b)) = l.flatMap fun b => blockSlots (v.data b) := by
    intro l hl
    rw [flatMap_def]
    congr 1
    refine map_congr_left fun b hb => ?_
    rw [hdata b]
    rintro rfl
    exact hnb (hl b hb)
  unfold slotsOf
  rw [take_flatMap (fun _ => blockSlots_length _),
    drop_flatMap (fun _ => blockSlots_length _), hnew, hold, take_left, drop_left,
    flatMap_append, flatMap_cons, hsame before (by simp +contextual [hold]),
    hsame after (by simp +contextual [hold]), append_assoc]

theorem blockChange_writeInode (h : v.Intact) (hd : v.HasInode d) (hnext : v.nextBlock = some nb)
    (hfits : appendFits (v.inode d).extents nb = true) {n : Nat} {name : CStr} {type : BitVec 8} :
    BlockChange v (((v.takeBlock nb).setData nb (direntPut zeros 0 n name type)).writeInode d
      { (v.inode d).append nb with
        size := (v.inode d).size + 64#32
        blocks := ((v.inode d).size + 64#32 + 511#32) / 512#32 }) d nb
      (named n name) := by
  have hsmall := h.sized.small
  obtain ⟨-, hhi, hfree⟩ := nextBlock_spec hnext
  have hs := (v.takeBlock_sameShape nb).trans
    (setData_sameShape _ nb (direntPut zeros 0 n name type))
  have hval : ∀ inode : UfsInode,
      ((v.takeBlock nb).setData nb (direntPut zeros 0 n name type)).writeInode d inode =
        { v with
          freeBlocks := v.freeBlocks - 1#32
          nextFreeBlock := (nb + 1) % 2 ^ 32
          bit := update v.bit nb true
          inode := update v.inode d inode
          data := update v.data nb (window (direntPut zeros 0 n name type) 0 4096) } := by
    intro inode
    rw [writeInode, if_pos ((hs.hasInode_iff d).mpr hd)]
    simp only [setInode, setData, takeBlock, setBit, update_idem]
  have hshape := fun inode => hs.trans (writeInode_sameShape _ d inode)
  obtain ⟨before, after, hold, hnew⟩ :=
    blockList_appendExtent (h.placed d hd) (by omega) hhi hfits
  have hdata : ∀ inode b, b ≠ nb → (((v.takeBlock nb).setData nb
      (direntPut zeros 0 n name type)).writeInode d inode).data b = v.data b := by
    intro inode b hb
    rw [hval]
    simp [hb]
  refine ⟨⟨before.length, ?_, ?_⟩, by rw [hval], hdata _⟩
  · rw [hnew]
    simp
  · rw [slotsOf_insert ((blocksOf_of_hasInode hd).trans hold) ?_ (h.owned.not_mem hfree d)
      (hdata _)]
    · rw [hval, ← blockSlots_first type]
      simp
    · rw [blocksOf_of_hasInode (((hshape _).hasInode_iff d).mpr hd), hval]
      simpa using hnew

/-- The courses that `addEntry` can take. -/
@[elab_as_elim]
theorem addEntry_cases (h : v.Intact) (hd : v.HasInode d) (n : Nat) (name : CStr) (type : BitVec 8)

    (hslot : ∀ p s v', p < 64 * ufsDirBlocks (v.inode d) → (v.slotsOf d)[p]? = some s →
      s.used = false → SlotChange v v' d p (DirSlot.named n name) ((v.inode d).size + 64#32) →
      P (true, v')) (hnone : (∀ s ∈ v.visible d, s.used = true) → v.nextBlock = none → P (false, v))
    (hundone : ∀ nb v', (∀ s ∈ v.visible d, s.used = true) → v.nextBlock = some nb →
      appendFits (v.inode d).extents nb = false → BlockUndone v v' nb → P (false, v'))
    (hblock : ∀ nb v', (∀ s ∈ v.visible d, s.used = true) → v.nextBlock = some nb →
      appendFits (v.inode d).extents nb = true → BlockChange v v' d nb (DirSlot.named n name) →
      P (true, v')) :
    P (v.addEntry d n name type) := by
  unfold addEntry
  rw [if_pos hd]
  simp only
  cases hscan : v.scan (v.inode d) direntFree with
  | some r =>
    obtain ⟨b, ents, j⟩ := r
    obtain ⟨i, hi, hb, rfl, hj, htest⟩ := scan_at h hd hscan
    refine hslot (64 * i + j) _ _ (by omega) (slotsOf_getElem? hb hj) ?_
      (slotChange_writeBlock h hd hb hj (blockSlots_put _ _ _ _ _))
    simpa [direntFree_eq] using htest
  | none =>
    have hfull := (scan_free_eq_none_iff h hd).mp hscan
    simp only
    cases hnext : v.nextBlock with
    | none => exact hnone hfull hnext
    | some nb =>
      simp only
      cases hfits : appendFits (v.inode d).extents nb with
      | false =>
        exact hundone nb _ hfull hnext hfits (blockUndone_freeBlock h hnext)
      | true =>
        exact hblock nb _ hfull hnext hfits (blockChange_writeInode h hd hnext hfits)

/-! ## The driver's records -/

theorem SlotChange.formedDir {p : Nat} {size : BitVec 32} (h : SlotChange v v' d p s size)
    (hf : v.FormedDir d) (hs : s.Formed) : v'.FormedDir d := by
  intro t ht
  rw [h.slots] at ht
  rcases mem_or_eq_of_mem_set ht with ht | rfl
  · exact hf t ht
  · exact hs

theorem BlockChange.formedDir (h : BlockChange v v' d nb s) (hf : v.FormedDir d) (hs : s.Formed) :
    v'.FormedDir d := by
  obtain ⟨i, -, hslots⟩ := h.slots
  intro t ht
  rw [hslots] at ht
  simp only [mem_append, mem_cons, mem_replicate] at ht
  rcases ht with (ht | rfl | ⟨-, rfl⟩) | ht
  · exact hf t (mem_of_mem_take ht)
  · exact hs
  · exact formed_zero
  · exact hf t (mem_of_mem_drop ht)

theorem BlockUndone.slotsOf_eq (h : v.Intact) (hu : BlockUndone v v' nb) (n : Nat) :
    v'.slotsOf n = v.slotsOf n := by
  refine slotsOf_congr ?_ fun b hb => hu.data b ?_
  · rw [hu.rest]
    rfl
  · rintro rfl
    exact h.owned.not_mem hu.free n hb

theorem FormedDir.addEntry (h : v.Intact) (hf : v.FormedDir d) (n : Nat) (name : CStr)
    (type : BitVec 8) : (v.addEntry d n name type).2.FormedDir d := by
  by_cases hd : v.HasInode d
  · refine addEntry_cases h hd n name type ?_ ?_ ?_ ?_
    · intro p s v' _ _ _ hc
      exact hc.formedDir hf (formed_named n name)
    · exact fun _ _ => hf
    · intro nb v' _ _ _ hu
      unfold FormedDir
      rw [hu.slotsOf_eq h]
      exact hf
    · intro nb v' _ _ _ hc
      exact hc.formedDir hf (formed_named n name)
  · rw [Volume.addEntry, if_neg hd]
    exact hf

theorem FormedDir.removeEntry (h : v.Intact) (hf : v.FormedDir d) (name : CStr) :
    (v.removeEntry d name).2.FormedDir d := by
  by_cases hd : v.HasInode d
  · refine removeEntry_cases h hd hf name (fun _ => hf) ?_
    intro p s v' _ _ _ _ hc
    exact hc.formedDir hf s.formed_cleared
  · rw [Volume.removeEntry, if_neg hd]
    exact hf

theorem writeInode_mode {inode : UfsInode} (hw : w.inode = v.inode)
    (hmode : inode.mode = (v.inode d).mode) (k : Nat) :
    ((w.writeInode d inode).inode k).mode = (v.inode k).mode := by
  unfold writeInode
  split
  · have hset := setInode_field (·.mode) (n := d) hw hmode k
    rwa [setInode_self] at hset
  · rw [hw]

/-- Entries come and go, modes stay. -/
theorem addEntry_mode (v : Volume) (d n : Nat) (name : CStr) (type : BitVec 8) (k : Nat) :
    ((v.addEntry d n name type).2.inode k).mode = (v.inode k).mode := by
  unfold addEntry
  split
  · simp only
    split
    · exact writeInode_mode (writeBlock_inode _ _ _) (by rfl) k
    split
    · rfl
    · split
      · exact writeInode_mode rfl (by rfl) k
      · rw [freeBlock_inode]
        rfl
  · rfl

theorem removeEntry_mode (v : Volume) (d : Nat) (name : CStr) (k : Nat) :
    ((v.removeEntry d name).2.inode k).mode = (v.inode k).mode := by
  unfold removeEntry
  split
  · simp only
    split
    · rfl
    · exact writeInode_mode (writeBlock_inode _ _ _) (by rfl) k
  · rfl

/-- All records of all directories are the driver's. -/
def FormedDirs (v : Volume) : Prop := ∀ n, v.LiveDir n → v.FormedDir n

theorem SameShape.liveDir_iff (h : v.SameShape v') (hmode : (v'.inode n).mode = (v.inode n).mode) :
    v'.LiveDir n ↔ v.LiveDir n := by
  unfold LiveDir UfsInode.isDir
  rw [h.hasInode_iff, hmode]

theorem LiveDir.live (hd : v.LiveDir d) : v.Live d := ⟨hd.1, mode_ne_of_isDir hd.2⟩

theorem LiveDir.ne_nextInode (hd : v.LiveDir d) (hn : v.nextInode = some n) : d ≠ n := by
  rintro rfl
  exact hd.live.2 (nextInode_spec hn).2

theorem Prepared.live (h : Prepared v n node w) : (w.inode n).mode ≠ 0#16 := by
  cases h <;> simpa [setInode] using node.live

/-- Directories other than the new object are as before. -/
theorem Prepared.dir_eq (h : Prepared v n node w) (hv : v.Intact) (hd : d ≠ n) :
    w.inode d = v.inode d ∧ w.slotsOf d = v.slotsOf d := by
  have ht := h.touches hv.sized (I := (· = n)) rfl
  exact ⟨ht.inode d hd, ht.slotsOf_eq hv.owned hd⟩

theorem Prepared.slotsOf_self (hw : Prepared v n node w) (h : v.Intact) (hn : v.HasInode n) :
    w.slotsOf n = node.firstBlock.elim [] fun contents => blockSlots (contents n) := by
  have hsmall := h.sized.small
  unfold slotsOf
  rw [blocksOf_of_hasInode ((hw.follows.shape.hasInode_iff n).mpr hn)]
  cases hw with
  | plain hfirst => simp [setInode, node.blockList_eq, hfirst]
  | @block contents b hfirst hb =>
    have hblocks : blockList (appendExtent node.inode.extents b) = [b] := by
      have hperm := blockList_appendExtent_perm (node.extentsIn v.dataStart v.totalBlocks)
        (by omega) (nextBlock_spec hb).2.1 (by rw [node.empty]; rfl)
      rw [node.blockList_eq] at hperm
      exact perm_singleton.mp hperm
    simp [setInode, hblocks, setData, blockSlots_window, hfirst]

theorem Prepared.isDir_self (hw : Prepared v n node w) : (w.inode n).isDir = node.inode.isDir := by
  cases hw <;> simp [setInode, UfsInode.isDir]

/-- What is left of the directories when file `n` is given up. -/
theorem freeFile_slotsOf (h : v.Intact) (hn : v.HasInode n) (k : Nat) :
    ((v.freeInodeBlocks n).freeInode n).slotsOf k = if k = n then [] else v.slotsOf k := by
  by_cases hk : k = n
  · subst hk
    rw [slotsOf, blocksOf_of_hasInode (((v.freeFile_sameShape k).hasInode_iff k).mpr hn),
      freeFile_inode hn]
    simp [UfsInode.zero]
  · rw [if_neg hk]
    exact (((Touches.refl v).freeInodeBlocks (I := (· = n)) h.placed h.sized rfl).freeInode
      rfl).slotsOf_eq h.owned hk

theorem FormedDir.freeFile (h : v.Intact) (hf : v.FormedDir d) (hn : v.HasInode n) :
    ((v.freeInodeBlocks n).freeInode n).FormedDir d := by
  unfold FormedDir
  rw [freeFile_slotsOf h hn]
  split
  · simp
  · exact hf

namespace FormedDirs

section

variable (hf : v.FormedDirs)
include hf

/-- Only the directories that a step touches need a look. -/
theorem of_touches (ho : v.Owned) (h : Touches I v v')
    (hI : ∀ n, I n → v'.LiveDir n → v'.FormedDir n) : v'.FormedDirs := by
  intro n hn
  by_cases hin : I n
  · exact hI n hin hn
  · unfold FormedDir
    rw [h.slotsOf_eq ho hin]
    exact hf n ((h.shape.liveDir_iff (by rw [h.inode n hin])).mp hn)

section

variable (h : v.Intact)
include h

theorem addEntry (d n : Nat) (name : CStr) (type : BitVec 8) :
    (v.addEntry d n name type).2.FormedDirs := by
  refine hf.of_touches h.owned ((Touches.refl v).addEntry h.placed h.sized rfl n name type) ?_
  rintro k rfl hk
  refine FormedDir.addEntry h (hf _ ?_) n name type
  exact ((v.addEntry_follows _ n name type).shape.liveDir_iff
    (addEntry_mode v _ n name type _)).mp hk

theorem removeEntry (d : Nat) (name : CStr) : (v.removeEntry d name).2.FormedDirs := by
  refine hf.of_touches h.owned ((Touches.refl v).removeEntry h.placed h.sized rfl name) ?_
  rintro k rfl hk
  refine FormedDir.removeEntry h (hf _ ?_) name
  exact ((v.removeEntry_follows _ name).shape.liveDir_iff (removeEntry_mode v _ name _)).mp hk

/-- What `make` has prepared is a directory of the driver's, if it is one. -/
theorem prepared (hn : v.HasInode n) (hnode : node.Formed)
    (hw : Prepared v n node w) : w.FormedDirs := by
  refine hf.of_touches h.owned (hw.touches h.sized (I := (· = n)) rfl) ?_
  rintro k rfl hk s hs
  have hdir := hk.2
  rw [hw.isDir_self] at hdir
  rw [hw.slotsOf_self h hn] at hs
  cases hfirst : node.firstBlock with
  | none => simp [hfirst] at hs
  | some contents =>
    rw [hfirst] at hs
    exact hnode hdir contents hfirst k s hs

theorem make (d : Nat) (name : CStr) (hnode : node.Formed) : (v.make d name node).2.FormedDirs := by
  refine make_cases v d name node (fun _ => hf) ?_ ?_
  · intro n _ hn _ _
    have hi := ((v.takeInode_sameShape n).hasInode_iff n).mpr (nextInode_spec hn).1
    refine hf.of_touches h.owned (((Touches.refl v).takeInode (I := (· = n)) rfl).freeInode rfl) ?_
    rintro k rfl hk
    have hdir := hk.2
    rw [freeInode_inode hi] at hdir
    simp [UfsInode.isDir, UfsInode.zero] at hdir
  · intro n w _ hn hw
    have hi := (nextInode_spec hn).1
    exact (hf.prepared h hi hnode hw).addEntry (h.prepared hi hw) _ _ _ _

theorem freeFile (n : Nat) : ((v.freeInodeBlocks n).freeInode n).FormedDirs := by
  refine hf.of_touches h.owned
    (((Touches.refl v).freeInodeBlocks (I := (· = n)) h.placed h.sized rfl).freeInode rfl) ?_
  rintro k rfl hk
  have hdir := hk.2
  rw [freeFile_inode (((v.freeFile_sameShape k).hasInode_iff k).mp hk.1)] at hdir
  simp [UfsInode.isDir, UfsInode.zero] at hdir

theorem unlink (d : Nat) (name : CStr) : (v.unlink d name).2.FormedDirs := by
  unfold Volume.unlink
  split
  · exact hf
  · split
    · exact hf
    · exact (hf.freeFile h _).removeEntry (h.freeFile _) d name

theorem rename (d1 : Nat) (a : CStr) (d2 : Nat) (b : CStr) : (v.rename d1 a d2 b).2.FormedDirs := by
  have h1 := h.removeEntry d2 b
  have hf' := (hf.removeEntry h d2 b).removeEntry h1 d1 a
  unfold Volume.rename
  split
  · exact hf
  split
  · exact hf
  · simp only
    split
    · exact hf'.addEntry (h1.removeEntry d1 a) _ _ _ _
    · exact hf'

end

end

end FormedDirs

end Volume

theorem formed_direntDots (self parent : Nat)
    (hs : s ∈ blockSlots (direntDots self parent)) : s.Formed := by
  rw [blockSlots_dots] at hs
  simp only [mem_cons, mem_replicate] at hs
  rcases hs with rfl | rfl | ⟨-, rfl⟩
  · exact formed_dots (by decide)
  · exact formed_dots (by decide)
  · exact formed_zero

theorem formed_fileNode (mode ticks : BitVec 32) : (fileNode mode ticks).Formed := by
  intro _ contents hfirst
  cases hfirst

theorem formed_dirNode (parent : Nat) (mode ticks : BitVec 32) :
    (dirNode parent mode ticks).Formed := by
  rintro _ _ ⟨⟩ n s hs
  exact formed_direntDots n parent hs

theorem formed_linkNode (target : CStr) (ticks : BitVec 32) : (linkNode target ticks).Formed := by
  intro hdir
  have hlink : (linkNode target ticks).inode.isDir = false := by
    change decide ((ufsInodeSymlink ||| 0x1FF#16) &&& ufsInodeDir ≠ 0#16) = false
    decide
  rw [hlink] at hdir
  cases hdir

/-- Calls that work on directories. -/
def UfsCall.OnDirectories : UfsCall → Prop
  | write .. => False
  | _ => True

theorem Volume.FormedDirs.call {v : Volume} (hf : v.FormedDirs) (h : v.Intact) {c : UfsCall}
    (hc : c.OnDirectories) : (c.apply v).FormedDirs := by
  cases c with
  | create dir name mode ticks => exact hf.make h _ _ (formed_fileNode mode ticks)
  | mkdir dir name mode ticks => exact hf.make h _ _ (formed_dirNode _ mode ticks)
  | symlink dir name target ticks => exact hf.make h _ _ (formed_linkNode target ticks)
  | write node buf size offset ticks => exact hc.elim
  | unlink dir name => exact hf.unlink h _ _
  | rename oldDir oldName newDir newName => exact hf.rename h _ _ _ _

theorem freshVolume_slotsOf {total : Nat} (hsmall : total + 32767 < 2 ^ 32) (ticks : BitVec 32)
    (old : Bytes) : (freshVolume total ticks old).slotsOf 1 = blockSlots (direntDots 1 1) := by
  unfold Volume.slotsOf
  rw [freshVolume_blocksOf hsmall]
  simp [freshVolume, blockSlots_window]

theorem freshVolume_formedDirs {total : Nat} (hsmall : total + 32767 < 2 ^ 32) (ticks : BitVec 32)
    (old : Bytes) : (freshVolume total ticks old).FormedDirs := by
  intro n hn s hs
  by_cases h1 : n = 1
  · rw [h1, freshVolume_slotsOf hsmall] at hs
    exact formed_direntDots 1 1 hs
  · have hdir := hn.2
    rw [freshVolume_other _ _ _ h1] at hdir
    simp [UfsInode.isDir, UfsInode.zero] at hdir

/-- Histories of directory calls keep a fresh volume in order. -/
theorem FreshMount.run_onDirectories {dev : BlockDevice} {ticks : BitVec 32} {m : UfsMount}
    (h : FreshMount dev ticks m) {cs : List UfsCall} (hcs : ∀ c ∈ cs, c.OnDirectories) :
    Mounted (Runs.run UfsCall.run m cs) ∧ (Runs.run UfsCall.run m cs).volume.Intact ∧
      (Runs.run UfsCall.run m cs).volume.FormedDirs := by
  obtain ⟨hvol, hmounted⟩ := h.isMounted.run cs
  refine ⟨hmounted, ?_⟩
  rw [hvol]
  refine (Runs.guarded_of_forall hcs m.volume).invariant
    (I := fun v : Volume => v.Intact ∧ v.FormedDirs) ?_ ⟨h.intact, ?_⟩
  · rintro v c ⟨hv, hf⟩ hc
    exact ⟨hv.call c, hf.call hv hc⟩
  · rw [h.volume_eq]
    exact freshVolume_formedDirs h.small ticks dev.disk

end Utms7
