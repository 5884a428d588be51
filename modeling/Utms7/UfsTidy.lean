import Utms7.UfsListing

/-!
# Tidy directories

A directory is tidy when it is what its functions take it for: the size counts
the entries, no name occurs twice, and every entry lies in a block that the
size covers.  Then lookup is lookup in the whole list of slots.

Adding an entry keeps a directory tidy when the entry ends up in a covered
block.  Removing one keeps it tidy when the size that is left still covers the
other entries; the entries themselves never move.
-/

namespace Utms7

open ByteMemory List DirSlot

variable {name : CStr} {n p i : Nat} {size' size : BitVec 32} {block slots : List DirSlot}
  {s t : DirSlot}

/-! ## Lookup in a list of slots -/

section Lookup

variable {k : Nat}

theorem lookup_eq_none_iff : lookup slots name = none ↔ ∀ s ∈ slots, s.hasName name = false := by
  unfold lookup
  simp

theorem lookup_eq_some (hs : s ∈ slots) (hname : s.hasName name = true)
    (hall : ∀ t ∈ slots, t.hasName name = true → t.inode.toNat = n) :
    lookup slots name = some n := by
  unfold lookup
  cases hfind : slots.find? (hasName name) with
  | none =>
    have := find?_eq_none.mp hfind s hs
    exact absurd hname this
  | some t =>
    rw [Option.map_some, hall t (mem_of_find?_eq_some hfind) (find?_some hfind)]

theorem exists_of_lookup (h : lookup slots name = some n) :
    ∃ s ∈ slots, s.hasName name = true ∧ s.inode.toNat = n := by
  obtain ⟨s, hs, rfl⟩ := Option.map_eq_some_iff.mp h
  exact ⟨s, mem_of_find?_eq_some hs, find?_some hs, rfl⟩

/-- Slots beyond `k` do not matter to a name that none of them has. -/
theorem lookup_take (h : ∀ s ∈ slots.drop k, s.hasName name = false) :
    lookup (slots.take k) name = lookup slots name := by
  conv_rhs => rw [← take_append_drop k slots]
  unfold lookup
  have hnone : (slots.drop k).find? (hasName name) = none :=
    find?_eq_none.mpr fun s hs => by simp [h s hs]
  rw [find?_append, hnone, Option.or_none]

/-- Changing a slot does not matter to names that it neither had nor gets. -/
theorem lookup_set (hs : slots[p]? = some s) (hold : s.hasName name = false)
    (hnew : t.hasName name = false) : lookup (slots.set p t) name = lookup slots name := by
  obtain ⟨hlt, hget⟩ := List.getElem?_eq_some_iff.mp hs
  have hsplit : slots = slots.take p ++ s :: slots.drop (p + 1) := by
    rw [← hget, getElem_cons_drop, take_append_drop]
  unfold lookup
  conv_rhs => rw [hsplit]
  rw [set_eq_take_append_cons_drop, if_pos hlt, find?_append, find?_append,
    find?_cons_of_neg (by simp [hnew]), find?_cons_of_neg (by simp [hold])]

/-- Inserting slots does not matter to names that none of them has. -/
theorem lookup_insert (h : ∀ s ∈ block, s.hasName name = false) {i : Nat} :
    lookup (slots.take i ++ block ++ slots.drop i) name = lookup slots name := by
  conv_rhs => rw [← take_append_drop i slots]
  unfold lookup
  have hnone : block.find? (hasName name) = none :=
    find?_eq_none.mpr fun s hs => by simp [h s hs]
  rw [find?_append, find?_append, find?_append, hnone, Option.or_none]

end Lookup

theorem DirSlot.named_used (hlo : 1 ≤ n) (hhi : n < 2 ^ 32) (name : CStr) :
    (named n name).used = true := by
  have hne : BitVec.ofNat 32 n ≠ 0#32 := by
    intro h0
    have := congrArg BitVec.toNat h0
    simp at this
    omega
  simpa [named, used] using hne

theorem DirSlot.named_inode (hhi : n < 2 ^ 32) (name : CStr) :
    (named n name).inode.toNat = n := by
  exact Nat.mod_eq_of_lt hhi

/-- An entry has the name it was made with if that fits into the record. -/
theorem DirSlot.named_hasName_iff (hlo : 1 ≤ n) (hhi : n < 2 ^ 32) {name name' : CStr} :
    (named n name).hasName name' = true ↔ name.chars.take 55 = name'.chars := by
  rw [hasName_iff]
  exact ⟨fun h => h.2, fun h => ⟨named_used hlo hhi name, h⟩⟩

/-! ## The names in use -/

/-- The names of the entries, in the order of their slots. -/
def usedNames (slots : List DirSlot) : List (List (BitVec 8)) :=
  (slots.filter DirSlot.used).map DirSlot.name

section UsedNames

theorem usedNames_append (l l' : List DirSlot) :
    usedNames (l ++ l') = usedNames l ++ usedNames l' := by
  simp [usedNames]

theorem usedNames_cons (s : DirSlot) (l : List DirSlot) :
    usedNames (s :: l) = (if s.used then [s.name] else []) ++ usedNames l := by
  unfold usedNames
  cases hs : s.used <;> simp [hs]

theorem mem_usedNames_iff : name.chars ∈ usedNames slots ↔ ∃ s ∈ slots, s.hasName name = true := by
  unfold usedNames
  simp only [mem_map, mem_filter, hasName_iff, and_assoc]

theorem lookup_eq_none_iff_names : lookup slots name = none ↔ name.chars ∉ usedNames slots := by
  rw [lookup_eq_none_iff, mem_usedNames_iff]
  simp

section

variable (hs : slots[p]? = some s)
include hs

theorem split_at : slots = slots.take p ++ s :: slots.drop (p + 1) ∧
      ∀ t, slots.set p t = slots.take p ++ t :: slots.drop (p + 1) := by
  obtain ⟨hlt, hget⟩ := List.getElem?_eq_some_iff.mp hs
  refine ⟨by rw [← hget, getElem_cons_drop, take_append_drop], fun t => ?_⟩
  rw [set_eq_take_append_cons_drop, if_pos hlt]

theorem usedNames_set (t : DirSlot) :
    ((if s.used then [s.name] else []) ++ usedNames (slots.set p t)).Perm
      ((if t.used then [t.name] else []) ++ usedNames slots) := by
  obtain ⟨hsplit, hset⟩ := split_at hs
  rw [hset t]
  conv_rhs => rw [hsplit]
  rw [usedNames_append, usedNames_append, usedNames_cons, usedNames_cons]
  generalize (if s.used then [s.name] else []) = a
  generalize (if t.used then [t.name] else []) = b
  generalize usedNames (slots.take p) = x
  generalize usedNames (slots.drop (p + 1)) = y
  refine perm_iff_count.mpr fun c => ?_
  simp only [count_append]
  omega

theorem usedNames_fill (hfree : s.used = false) (ht : t.used = true) :
    (usedNames (slots.set p t)).Perm (t.name :: usedNames slots) := by
  simpa [hfree, ht] using usedNames_set hs t

theorem usedNames_clear (hused : s.used = true) :
    (usedNames slots).Perm (s.name :: usedNames (slots.set p s.cleared)) := by
  simpa [hused, s.cleared_unused] using (usedNames_set hs s.cleared).symm

end

theorem usedNames_insert (ht : t.used = true) {i : Nat} :
    (usedNames (slots.take i ++ (t :: List.replicate 63 zero) ++ slots.drop i)).Perm
      (t.name :: usedNames slots) := by
  have hzero : usedNames (List.replicate 63 zero) = [] := by
    simp [usedNames, zero_unused]
  conv_rhs => rw [← take_append_drop i slots]
  rw [usedNames_append, usedNames_append, usedNames_append, usedNames_cons, hzero, ht]
  simp

end UsedNames

/-! ## Tidy lists of slots -/

/-- How many blocks a directory of this size has to walk. -/
def coveredBlocks (size : BitVec 32) : Nat := (size.toNat + 4095) % 2 ^ 32 / 4096

theorem ufsDirBlocks_eq (dir : UfsInode) : ufsDirBlocks dir = coveredBlocks dir.size := rfl

/-- The size counts the entries, and their names differ. -/
structure Counted (slots : List DirSlot) (size : BitVec 32) : Prop where
  small : size.toNat + 4095 < 2 ^ 32
  count : size.toNat = 64 * (usedNames slots).length
  distinct : (usedNames slots).Nodup

/-- The size covers all entries. -/
def Seen (slots : List DirSlot) (size : BitVec 32) : Prop :=
  ∀ s ∈ slots.drop (64 * coveredBlocks size), s.used = false

/-- A directory that is what its functions take it for. -/
structure Tidy (slots : List DirSlot) (size : BitVec 32) : Prop extends Counted slots size where
  seen : Seen slots size

section Tidy

variable {slots' : List DirSlot}

namespace Counted

theorem covered_eq (h : Counted slots size) : coveredBlocks size = (size.toNat + 4095) / 4096 := by
  have := h.small
  unfold coveredBlocks
  rw [Nat.mod_eq_of_lt this]

/-- An entry goes: its name is not in use any more. -/
theorem clear (h : Counted slots size) (hs : slots[p]? = some s) (hused : s.used = true) :
    Counted (slots.set p s.cleared) (size - 64#32) ∧
      (size - 64#32).toNat + 64 = size.toNat ∧ s.name ∉ usedNames (slots.set p s.cleared) := by
  have hperm := usedNames_clear hs hused
  have hcount := h.count
  have hsmall := h.small
  have hlen := hperm.length_eq
  rw [length_cons] at hlen
  obtain ⟨hnew, hnodup⟩ := nodup_cons.mp (hperm.nodup_iff.mp h.distinct)
  have hsub : (size - 64#32).toNat + 64 = size.toNat := by
    rw [BitVec.toNat_sub]
    simp only [BitVec.toNat_ofNat]
    omega
  exact ⟨⟨by omega, by omega, hnodup⟩, hsub, hnew⟩

theorem index_unique (h : Counted slots size) {q : Nat} (hs : slots[p]? = some s)
    (hsname : s.hasName name = true) (ht : slots[q]? = some t) (htname : t.hasName name = true) :
    p = q := by
  by_contra hne
  obtain ⟨hused, hchars⟩ := hasName_iff.mp hsname
  refine (h.clear hs hused).2.2 ?_
  rw [hchars, mem_usedNames_iff]
  exact ⟨t, mem_of_getElem? (by rw [getElem?_set_ne hne, ht]), htname⟩

theorem size_add (hwrap : size.toNat + 64 + 4095 < 2 ^ 32) :
    (size + 64#32).toNat = size.toNat + 64 :=
  toNat_add_ofNat (by omega)

theorem of_perm (h : Counted slots size)
    (hperm : (usedNames slots').Perm (t.name :: usedNames slots)) (hnew : t.name ∉ usedNames slots)
    (hwrap : size.toNat + 64 + 4095 < 2 ^ 32) : Counted slots' (size + 64#32) := by
  have hadd := size_add hwrap
  have hlen := hperm.length_eq
  rw [length_cons] at hlen
  have hcount := h.count
  exact ⟨by omega, by omega, hperm.nodup_iff.mpr (nodup_cons.mpr ⟨hnew, h.distinct⟩)⟩

/-- A directory without a free slot in the blocks it walks is full to the last
of them, and has no entry after it. -/
theorem of_full (h : Counted slots size) {k : Nat} (hlen : slots.length = 64 * k)
    (hfull : ∀ s ∈ slots.take (64 * coveredBlocks size), s.used = true) :
    size.toNat = 4096 * coveredBlocks size ∧ Seen slots size := by
  have hcov := h.covered_eq
  have hcount := h.count
  have hnames : (usedNames slots).length = slots.countP used := by
    rw [usedNames, length_map, countP_eq_length_filter]
  have hsplit : slots.countP used =
      (slots.take (64 * coveredBlocks size)).length +
        (slots.drop (64 * coveredBlocks size)).countP used := by
    conv_lhs => rw [← take_append_drop (64 * coveredBlocks size) slots]
    rw [countP_append, countP_eq_length.mpr hfull]
  have htake : (slots.take (64 * coveredBlocks size)).length =
      min (64 * coveredBlocks size) (64 * k) := by
    rw [length_take, hlen]
  have hdrop : (slots.drop (64 * coveredBlocks size)).countP used ≤
      64 * k - 64 * coveredBlocks size := by
    refine Nat.le_trans countP_le_length ?_
    rw [length_drop, hlen]
  have hzero : (slots.drop (64 * coveredBlocks size)).countP used = 0 := by omega
  refine ⟨by omega, fun s hs => ?_⟩
  have := countP_eq_zero.mp hzero s hs
  simpa using this

end Counted

section

variable (h : Seen slots size)
include h

theorem Seen.lookup_take (name : CStr) :
    lookup (slots.take (64 * coveredBlocks size)) name = lookup slots name :=
  Utms7.lookup_take fun s hs => hasName_of_unused (h s hs)

theorem Seen.mono (hcov : coveredBlocks size ≤ coveredBlocks size') : Seen slots size' := by
  intro s hs
  refine h s (mem_of_mem_drop (i := 64 * coveredBlocks size' - 64 * coveredBlocks size) ?_)
  rw [drop_drop]
  have hsum : 64 * coveredBlocks size + (64 * coveredBlocks size' - 64 * coveredBlocks size) =
      64 * coveredBlocks size' := by omega
  rwa [hsum]

/-- Changing a slot among the covered ones hides nothing. -/
theorem Seen.set (hcov : coveredBlocks size ≤ coveredBlocks size')
    (hp : p < 64 * coveredBlocks size') (t : DirSlot) : Seen (slots.set p t) size' := by
  intro s hs
  rw [drop_set_of_lt hp] at hs
  exact h.mono hcov s hs

/-- Neither does a block that is inserted among the covered ones, or right after them. -/
theorem Seen.insert (hcov : coveredBlocks size' = coveredBlocks size + 1)
    (hblock : block.length = 64) (hi : i ≤ coveredBlocks size) :
    Seen (slots.take (64 * i) ++ block ++ slots.drop (64 * i)) size' := by
  intro s hs
  have hcut : (slots.take (64 * i) ++ block).length ≤ 64 * coveredBlocks size' := by
    rw [length_append, length_take]
    omega
  rw [drop_append, drop_of_length_le hcut, drop_drop] at hs
  refine h s (mem_of_mem_drop (i := 64 * i +
    (64 * coveredBlocks size' - (slots.take (64 * i) ++ block).length) -
      64 * coveredBlocks size) ?_)
  rw [drop_drop]
  have hsum : 64 * coveredBlocks size + (64 * i +
      (64 * coveredBlocks size' - (slots.take (64 * i) ++ block).length) -
        64 * coveredBlocks size) =
      64 * i + (64 * coveredBlocks size' - (slots.take (64 * i) ++ block).length) := by
    rw [length_append, length_take]
    omega
  rwa [hsum]

end

/-- One more entry. -/
structure Extended (slots slots' : List DirSlot) (t : DirSlot) : Prop where
  names : (usedNames slots').Perm (t.name :: usedNames slots)
  lookup_other : ∀ x : CStr, t.hasName x = false → lookup slots' x = lookup slots x
  mem : t ∈ slots'
  sub : ∀ s ∈ slots', s = t ∨ s ∈ slots ∨ s.used = false

theorem extended_fill (hs : slots[p]? = some s) (hfree : s.used = false) (ht : t.used = true) :
    Extended slots (slots.set p t) t where
  names := usedNames_fill hs hfree ht
  lookup_other x hx := lookup_set hs (hasName_of_unused hfree) hx
  mem := mem_set (List.getElem?_eq_some_iff.mp hs).1 t
  sub r hr := by
    rcases mem_or_eq_of_mem_set hr with hr | rfl
    · exact .inr (.inl hr)
    · exact .inl rfl

theorem extended_insert (ht : t.used = true) (i : Nat) :
    Extended slots (slots.take i ++ (t :: List.replicate 63 zero) ++ slots.drop i) t where
  names := usedNames_insert ht
  lookup_other x hx := by
    refine lookup_insert (fun s hs => ?_)
    rcases mem_cons.mp hs with rfl | hs
    · exact hx
    · rw [(mem_replicate.mp hs).2]
      exact hasName_of_unused zero_unused
  mem := by simp
  sub r hr := by
    simp only [mem_append, mem_cons, mem_replicate] at hr
    rcases hr with (hr | rfl | ⟨-, rfl⟩) | hr
    · exact .inr (.inl (mem_of_mem_take hr))
    · exact .inl rfl
    · exact .inr (.inr zero_unused)
    · exact .inr (.inl (mem_of_mem_drop hr))

section

variable (hlo : 1 ≤ n) (hhi : n < 2 ^ 32) (h : Extended slots slots' (named n name))
  (hnew : name.chars ∉ usedNames slots)
include hlo hhi h hnew

/-- What lookup says after an entry for a new name was added. -/
theorem Extended.lookup_named (hshort : name.chars.length ≤ 55) (x : CStr) :
    lookup slots' x = if x = name then some n else lookup slots x := by
  have htake : name.chars.take 55 = name.chars := take_of_length_le hshort
  by_cases hx : x = name
  · subst hx
    rw [if_pos rfl]
    refine lookup_eq_some h.mem ((named_hasName_iff hlo hhi).mpr htake) ?_
    intro r hr hname
    rcases h.sub r hr with rfl | hr | hunused
    · exact named_inode hhi x
    · exact absurd (mem_usedNames_iff.mpr ⟨r, hr, hname⟩) hnew
    · rw [hasName_of_unused hunused] at hname
      cases hname
  · rw [if_neg hx]
    refine h.lookup_other x ?_
    rw [Bool.eq_false_iff]
    intro hname
    rw [named_hasName_iff hlo hhi, htake] at hname
    cases x
    cases name
    exact hx (by simpa using hname.symm)

/-- A new entry that can be found has a name that fits. -/
theorem Extended.short (hs : s ∈ slots') (hname : s.hasName name = true) :
    name.chars.length ≤ 55 := by
  rcases h.sub s hs with rfl | hs | hunused
  · rw [named_hasName_iff hlo hhi] at hname
    rw [← hname, length_take]
    omega
  · exact absurd (mem_usedNames_iff.mpr ⟨s, hs, hname⟩) hnew
  · rw [hasName_of_unused hunused] at hname
    cases hname

end

end Tidy

/-! ## Tidy directories of a volume -/

namespace Volume

variable {v v' : Volume} {d : Nat} {nb : Nat}

/-- Directory `d` is tidy. -/
structure TidyDir (v : Volume) (d : Nat) : Prop where
  formed : v.FormedDir d
  tidy : Tidy (v.slotsOf d) (v.inode d).size

theorem slotsOf_length (v : Volume) (n : Nat) : (v.slotsOf n).length = 64 * (v.blocksOf n).length :=
  Chunks.length_flatMap (fun _ => blockSlots_length _) _

theorem TidyDir.find_eq (ht : v.TidyDir d) (h : v.Intact) (hd : v.HasInode d) (name : CStr) :
    v.find d name = lookup (v.slotsOf d) name := by
  rw [find_eq_lookup h hd ht.formed, visible, ufsDirBlocks_eq, ht.tidy.seen.lookup_take]

theorem SlotChange.size_eq (h : SlotChange v v' d p s size) : (v'.inode d).size = size := by
  rw [h.rest]
  simp

theorem BlockChange.size_eq (h : BlockChange v v' d nb s) :
    (v'.inode d).size = (v.inode d).size + 64#32 := by
  rw [h.rest]
  simp

theorem coveredBlocks_mono (h : size.toNat ≤ size'.toNat)
    (hsmall : size'.toNat + 4095 < 2 ^ 32) : coveredBlocks size ≤ coveredBlocks size' := by
  unfold coveredBlocks
  exact Nat.div_le_div_right (by omega)

/-- One more entry than fits into full blocks takes one more block. -/
theorem covered_of_full (h : size.toNat = 4096 * coveredBlocks size)
    (hwrap : size.toNat + 64 + 4095 < 2 ^ 32) :
    coveredBlocks (size + 64#32) = coveredBlocks size + 1 := by
  unfold coveredBlocks at h ⊢
  rw [Counted.size_add hwrap]
  omega

/-- The block `nb` would be among the first `k + 1` blocks of directory `d`. -/
def JoinsWithin (v : Volume) (d nb k : Nat) : Prop :=
  ∃ i, (blockList (appendExtent (v.inode d).extents nb))[i]? = some nb ∧ i ≤ k

/-- A block has one place in a directory. -/
theorem joins_index_unique (h : v.Intact) (hd : v.HasInode d) {j : Nat}
    (hnext : v.nextBlock = some nb) (hfits : appendFits (v.inode d).extents nb = true)
    (hi : (blockList (appendExtent (v.inode d).extents nb))[i]? = some nb)
    (hj : (blockList (appendExtent (v.inode d).extents nb))[j]? = some nb) : i = j := by
  have hsmall := h.sized.small
  obtain ⟨-, hhi, hfree⟩ := nextBlock_spec hnext
  have hnotin := h.owned.not_mem hfree d
  have hnodup := h.owned.nodup d
  rw [blocksOf_of_hasInode hd] at hnotin hnodup
  have hperm := blockList_appendExtent_perm (h.placed d hd) (by omega) hhi hfits
  have hnew := hperm.nodup_iff.mpr (nodup_cons.mpr ⟨hnotin, hnodup⟩)
  exact (getElem?_inj (List.getElem?_eq_some_iff.mp hi).1 hnew).mp (hi.trans hj.symm)

section

variable (h : v.Intact) (hd : v.HasInode d) (hn : v.HasInode n) (hshort : name.chars.length ≤ 55)
  (hwrap : (v.inode d).size.toNat + 64 + 4095 < 2 ^ 32)
  (hroom : ∀ nb, (∀ s ∈ v.visible d, s.used = true) → v.nextBlock = some nb →
    v.JoinsWithin d nb (ufsDirBlocks (v.inode d))) {type : BitVec 8}
  (hok : (v.addEntry d n name type).1 = true)
include h hd hn hshort hwrap hroom hok

/-- **An entry is added.**  The directory is tidy afterwards, and lookup finds
the new entry, if the name fits and the entry lands where walks look. -/
theorem addEntry_tidies (hformed : v.FormedDir d) (hcount : Counted (v.slotsOf d) (v.inode d).size)
    (hseen : Seen (v.slotsOf d) ((v.inode d).size + 64#32))
    (hnew : name.chars ∉ usedNames (v.slotsOf d)) :
    (v.addEntry d n name type).2.TidyDir d ∧ ∀ x, (v.addEntry d n name type).2.find d x =
        if x = name then some n else lookup (v.slotsOf d) x := by
  have hinodes := h.sized.count
  have hlo := hn.1
  have hhi : n < 2 ^ 32 := by have := hn.2; omega
  have hused := named_used hlo hhi name
  have hname : (named n name).name ∉ usedNames (v.slotsOf d) := by
    change name.chars.take 55 ∉ _
    rwa [take_of_length_le hshort]
  have hadd := Counted.size_add hwrap
  have hgrow : coveredBlocks (v.inode d).size ≤ coveredBlocks ((v.inode d).size + 64#32) :=
    coveredBlocks_mono (by omega) (by omega)
  have h' := h.addEntry d n name type
  have hd' := ((v.addEntry_follows d n name type).shape.hasInode_iff d).mpr hd
  -- It is enough to look at the slots and the size afterwards.
  suffices hslots : (v.addEntry d n name type).2.TidyDir d ∧
      Extended (v.slotsOf d) ((v.addEntry d n name type).2.slotsOf d) (named n name) by
    refine ⟨hslots.1, fun x => ?_⟩
    rw [hslots.1.find_eq h' hd', hslots.2.lookup_named hlo hhi hnew hshort]
  refine addEntry_cases h hd n name type ?_ ?_ ?_ ?_ hok
  · intro p s v' hp hs hfree hc _
    have hext : Extended (v.slotsOf d) (v'.slotsOf d) (named n name) := by
      rw [hc.slots]
      exact extended_fill hs hfree hused
    refine ⟨⟨hc.formedDir hformed (formed_named n name), ?_⟩, hext⟩
    rw [hc.size_eq]
    refine ⟨hcount.of_perm hext.names hname hwrap, ?_⟩
    rw [hc.slots]
    exact hseen.set (Nat.le_refl _) (Nat.lt_of_lt_of_le hp (Nat.mul_le_mul_left 64 hgrow)) _
  · intro _ _ hok
    cases hok
  · intro nb v' _ _ _ _ hok
    cases hok
  · intro nb v' hfull hnext hfits hc _
    obtain ⟨i, hi, hslots⟩ := hc.slots
    obtain ⟨j, hj, hle⟩ := hroom nb hfull hnext
    obtain rfl := joins_index_unique h hd hnext hfits hi hj
    have hext : Extended (v.slotsOf d) (v'.slotsOf d) (named n name) := by
      rw [hslots]
      exact extended_insert hused _
    refine ⟨⟨hc.formedDir hformed (formed_named n name), ?_⟩, hext⟩
    rw [hc.size_eq]
    refine ⟨hcount.of_perm hext.names hname hwrap, ?_⟩
    obtain ⟨hsize, hcovered⟩ := hcount.of_full (v.slotsOf_length d) hfull
    rw [hslots]
    exact hcovered.insert (covered_of_full hsize hwrap) (by simp) hle

theorem TidyDir.addEntry (ht : v.TidyDir d) (hnew : v.find d name = none) :
    (v.addEntry d n name type).2.TidyDir d ∧
      ∀ x, (v.addEntry d n name type).2.find d x = if x = name then some n else v.find d x := by
  have hadd := Counted.size_add hwrap
  have hseen : Seen (v.slotsOf d) ((v.inode d).size + 64#32) :=
    ht.tidy.seen.mono (coveredBlocks_mono (by omega) (by omega))
  rw [ht.find_eq h hd, lookup_eq_none_iff_names] at hnew
  obtain ⟨htidy, hmap⟩ := addEntry_tidies h hd hn hshort hwrap hroom hok ht.formed
    ht.tidy.toCounted hseen hnew
  exact ⟨htidy, fun x => by rw [hmap, ht.find_eq h hd]⟩

end

/-- The size that is left when an entry goes covers all others but `name`. -/
def CoversRest (v : Volume) (d : Nat) (name : CStr) : Prop :=
  ∀ s ∈ (v.slotsOf d).drop (64 * coveredBlocks ((v.inode d).size - 64#32)), s.used = true →
    s.name = name.chars

theorem lookup_clear (h : Counted slots size) (hs : slots[p]? = some s)
    (hname : s.hasName name = true) (x : CStr) :
    lookup (slots.set p s.cleared) x = if x = name then none else lookup slots x := by
  obtain ⟨hused, hchars⟩ := hasName_iff.mp hname
  by_cases hx : x = name
  · subst hx
    rw [if_pos rfl, lookup_eq_none_iff_names, ← hchars]
    exact (h.clear hs hused).2.2
  rw [if_neg hx]
  refine lookup_set hs ?_ (hasName_of_unused s.cleared_unused)
  rw [Bool.eq_false_iff]
  intro hsx
  have hsame := (hasName_iff.mp hsx).2
  rw [hchars] at hsame
  cases x
  cases name
  exact hx (by simpa using hsame.symm)

theorem seen_clear (h : Counted slots size) (hs : slots[p]? = some s) (hused : s.used = true)
    (hrest : ∀ r ∈ slots.drop (64 * coveredBlocks (size - 64#32)), r.used = true →
      r.name = s.name) : Seen (slots.set p s.cleared) (size - 64#32) := by
  intro r hr
  by_contra hrused
  rw [Bool.not_eq_false] at hrused
  have hgone := (h.clear hs hused).2.2
  have hmem : r.name ∈ usedNames (slots.set p s.cleared) :=
    mem_map.mpr ⟨r, mem_filter.mpr ⟨mem_of_mem_drop hr, hrused⟩, rfl⟩
  have hold : r ∈ slots.drop (64 * coveredBlocks (size - 64#32)) := by
    rw [drop_set] at hr
    split at hr
    · exact hr
    · rcases mem_or_eq_of_mem_set hr with hr | rfl
      · exact hr
      · cases hrused
  rw [hrest r hold hrused] at hmem
  exact hgone hmem

/-- **An entry is removed from a tidy directory.**  It stays tidy if the size
that is left covers the other entries. -/
theorem TidyDir.removeEntry (ht : v.TidyDir d) (h : v.Intact) (hd : v.HasInode d)
    (hfind : v.find d name ≠ none) (hrest : v.CoversRest d name) :
    (v.removeEntry d name).1 = true ∧ (v.removeEntry d name).2.TidyDir d ∧
      ∀ x, (v.removeEntry d name).2.find d x = if x = name then none else v.find d x := by
  have h' := h.removeEntry d name
  have hd' := ((v.removeEntry_follows d name).shape.hasInode_iff d).mpr hd
  have hdone : (v.removeEntry d name).2.TidyDir d →
      (∀ x, lookup ((v.removeEntry d name).2.slotsOf d) x =
        if x = name then none else lookup (v.slotsOf d) x) →
      ∀ x, (v.removeEntry d name).2.find d x = if x = name then none else v.find d x := by
    intro htidy hlookup x
    rw [htidy.find_eq h' hd', hlookup, ht.find_eq h hd]
  refine removeEntry_cases h hd ht.formed name ?_ ?_ hdone
  · exact fun habsent => absurd habsent hfind
  · intro p s v' _ hs hname _ hc hdone
    obtain ⟨hused, hchars⟩ := hasName_iff.mp hname
    have htidy : v'.TidyDir d := by
      refine ⟨hc.formedDir ht.formed s.formed_cleared, ?_⟩
      rw [hc.size_eq, hc.slots]
      refine ⟨(ht.tidy.clear hs hused).1, seen_clear ht.tidy.toCounted hs hused ?_⟩
      rw [hchars]
      exact hrest
    refine ⟨rfl, htidy, hdone htidy fun x => ?_⟩
    rw [hc.slots]
    exact lookup_clear ht.tidy.toCounted hs hname x

end Volume

end Utms7
