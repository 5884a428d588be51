import Mathlib.Data.Finset.Card

/-!
# Owners, cells and marks

Owners hold lists of cells, and an allocator keeps a mark for each cell that
is taken.  `Sound` is what makes the marks trustworthy: no cell is held twice
and every held cell is marked, so an unmarked cell can be handed out.
`Covered` is the other direction: every mark in the area is due to an owner.
`unmarked` counts what the allocator has left.

Each change of owners and marks that keeps `Sound` or `Covered` has one rule.
-/

namespace Allocation

open List

variable {ι β : Type*}

/-- No cell is held twice, and every held cell is marked. -/
structure Sound (held : ι → List β) (marked : β → Bool) : Prop where
  nodup : ∀ i, (held i).Nodup
  apart : ∀ {i j b}, b ∈ held i → b ∈ held j → i = j
  marked : ∀ {i b}, b ∈ held i → marked b = true

/-- Every marked cell of the area is held by an owner. -/
def Covered (area : β → Prop) (held : ι → List β) (marked : β → Bool) : Prop :=
  ∀ b, area b → marked b = true → ∃ i, b ∈ held i

variable {held held' : ι → List β} {marked marked' : β → Bool} {area : β → Prop} {i : ι} {b : β}

namespace Sound

section

variable (h : Sound held marked)
include h

/-- An unmarked cell is held by nobody. -/
theorem not_mem (hb : marked b = false) (i : ι) : b ∉ held i := by
  intro hi
  have := h.marked hi
  rw [hb] at this
  cases this

/-- Marks may change where nobody holds a cell. -/
theorem remark (hm : ∀ i b, b ∈ held i → marked' b = true) : Sound held marked' :=
  ⟨h.nodup, h.apart, fun {i b} => hm i b⟩

/-- An owner takes an unmarked cell. -/
theorem grow (hb : marked b = false) (hown : (held' i).Perm (b :: held i))
    (hother : ∀ j, j ≠ i → held' j = held j) (hmark : ∀ c, marked c = true → marked' c = true)
    (hb' : marked' b = true) : Sound held' marked' := by
  have hnew : ∀ {j c}, c ∈ held' j → c ∈ held j ∨ (j = i ∧ c = b) := by
    intro j c hc
    by_cases hj : j = i
    · subst hj
      rcases mem_cons.mp (hown.mem_iff.mp hc) with rfl | hc
      · exact .inr ⟨rfl, rfl⟩
      · exact .inl hc
    · rw [hother j hj] at hc
      exact .inl hc
  refine ⟨fun j => ?_, fun {j k c} hj hk => ?_, fun {j c} hj => ?_⟩
  · by_cases hj : j = i
    · subst hj
      exact hown.nodup_iff.mpr (nodup_cons.mpr ⟨h.not_mem hb j, h.nodup j⟩)
    · rw [hother j hj]
      exact h.nodup j
  · rcases hnew hj with hj | ⟨hji, rfl⟩ <;> rcases hnew hk with hk | ⟨hki, hcb⟩
    · exact h.apart hj hk
    · exact absurd hj (hcb ▸ h.not_mem hb j)
    · exact absurd hk (h.not_mem hb k)
    · exact hji.trans hki.symm
  · rcases hnew hj with hj | ⟨rfl, rfl⟩
    · exact hmark c (h.marked hj)
    · exact hb'

/-- An owner gives up its cells; the marks of the others stay. -/
theorem release (hown : held' i = []) (hother : ∀ j, j ≠ i → held' j = held j)
    (hmark : ∀ c, c ∉ held i → marked c = true → marked' c = true) : Sound held' marked' := by
  have hold : ∀ {j c}, c ∈ held' j → j ≠ i ∧ c ∈ held j := by
    intro j c hc
    have hj : j ≠ i := by
      rintro rfl
      rw [hown] at hc
      cases hc
    exact ⟨hj, hother j hj ▸ hc⟩
  refine ⟨fun j => ?_, fun {j k c} hj hk => h.apart (hold hj).2 (hold hk).2, fun {j c} hj => ?_⟩
  · by_cases hj : j = i
    · subst hj
      rw [hown]
      exact nodup_nil
    · rw [hother j hj]
      exact h.nodup j
  · obtain ⟨hne, hj⟩ := hold hj
    exact hmark c (fun hi => hne (h.apart hj hi)) (h.marked hj)

end

end Sound

namespace Covered

/-- An owner takes a cell, and only that cell is newly marked. -/
theorem grow (h : Covered area held marked) (hown : (held' i).Perm (b :: held i))
    (hother : ∀ j, j ≠ i → held' j = held j)
    (hmark : ∀ c, marked' c = true → c = b ∨ marked c = true) : Covered area held' marked' := by
  intro c hc hm
  rcases hmark c hm with rfl | hm
  · exact ⟨i, hown.mem_iff.mpr mem_cons_self⟩
  · obtain ⟨j, hj⟩ := h c hc hm
    by_cases hji : j = i
    · subst hji
      exact ⟨j, hown.mem_iff.mpr (mem_cons_of_mem _ hj)⟩
    · exact ⟨j, by rwa [hother j hji]⟩

/-- An owner gives up its cells, and their marks are cleared. -/
theorem release (h : Covered area held marked) (hother : ∀ j, j ≠ i → held' j = held j)
    (hmark : ∀ c, marked' c = true → c ∉ held i ∧ marked c = true) :
    Covered area held' marked' := by
  intro c hc hm
  obtain ⟨hi, hm⟩ := hmark c hm
  obtain ⟨j, hj⟩ := h c hc hm
  have hji : j ≠ i := by
    rintro rfl
    exact hi hj
  exact ⟨j, by rwa [hother j hji]⟩

end Covered

/-- How many cells of the area are not marked. -/
def unmarked (cells : Finset β) (marked : β → Bool) : Nat :=
  (cells.filter fun b => marked b = false).card

variable {cells : Finset β}

/-- Marking a cell uses up one. -/
theorem unmarked_mark [DecidableEq β] (hb : b ∈ cells) (hfree : marked b = false)
    (hmark : marked' b = true) (hother : ∀ c, c ≠ b → marked' c = marked c) :
    unmarked cells marked' + 1 = unmarked cells marked := by
  have hset : cells.filter (fun c => marked' c = false) =
      (cells.filter fun c => marked c = false).erase b := by
    ext c
    by_cases hc : c = b
    · subst hc
      simp [hmark]
    · simp [hc, hother c hc]
  have hmem : b ∈ cells.filter fun c => marked c = false := Finset.mem_filter.mpr ⟨hb, hfree⟩
  unfold unmarked
  rw [hset, Finset.card_erase_add_one hmem]

theorem unmarked_clear [DecidableEq β] (hb : b ∈ cells) (hmark : marked b = true)
    (hfree : marked' b = false) (hother : ∀ c, c ≠ b → marked' c = marked c) :
    unmarked cells marked' = unmarked cells marked + 1 :=
  (unmarked_mark hb hfree hmark fun c hc => (hother c hc).symm).symm

/-- Clearing the marks of a list of cells gives them all back. -/
theorem unmarked_release [DecidableEq β] {l : List β} (hnodup : l.Nodup)
    (hcells : ∀ c ∈ l, c ∈ cells) (hmark : ∀ c ∈ l, marked c = true)
    (hfree : ∀ c ∈ l, marked' c = false) (hother : ∀ c, c ∉ l → marked' c = marked c) :
    unmarked cells marked' = unmarked cells marked + l.length := by
  have hset : cells.filter (fun c => marked' c = false) =
      (cells.filter fun c => marked c = false) ∪ l.toFinset := by
    ext c
    by_cases hc : c ∈ l
    · simp [hc, hcells c hc, hfree c hc]
    · simp [hc, hother c hc]
  have hdisj : Disjoint (cells.filter fun c => marked c = false) l.toFinset := by
    rw [Finset.disjoint_left]
    intro c hc hl
    have := (Finset.mem_filter.mp hc).2
    rw [hmark c (mem_toFinset.mp hl)] at this
    cases this
  unfold unmarked
  rw [hset, Finset.card_union_of_disjoint hdisj, toFinset_card_of_nodup hnodup]

theorem unmarked_le (cells : Finset β) (marked : β → Bool) : unmarked cells marked ≤ cells.card :=
  Finset.card_filter_le _ _

/-- The books are right: every mark in the area is due to an owner, and `free`
is the number of cells that are left. -/
structure Accounted (cells : Finset β) (held : ι → List β) (marked : β → Bool) (free : Nat) :
    Prop where
  covered : Covered (· ∈ cells) held marked
  count : free = unmarked cells marked

namespace Accounted

variable {free : Nat}

/-- An owner takes an unmarked cell. -/
theorem grow [DecidableEq β] (h : Accounted cells held marked free) (hb : b ∈ cells)
    (hfree : marked b = false) (hown : (held' i).Perm (b :: held i))
    (hother : ∀ j, j ≠ i → held' j = held j) (hmark : marked' b = true)
    (hsame : ∀ c, c ≠ b → marked' c = marked c) :
    0 < free ∧ Accounted cells held' marked' (free - 1) := by
  have hcount := unmarked_mark hb hfree hmark hsame
  have hfree := h.count
  refine ⟨by omega, h.covered.grow hown hother fun c hc => ?_, by omega⟩
  by_cases hcb : c = b
  · exact .inl hcb
  · rw [hsame c hcb] at hc
    exact .inr hc

/-- An owner gives up its cells. -/
theorem release [DecidableEq β] (h : Accounted cells held marked free)
    (hs : Sound held marked) (hcells : ∀ c ∈ held i, c ∈ cells)
    (hother : ∀ j, j ≠ i → held' j = held j) (hfree : ∀ c ∈ held i, marked' c = false)
    (hsame : ∀ c, c ∉ held i → marked' c = marked c) :
    Accounted cells held' marked' (free + (held i).length) := by
  refine ⟨h.covered.release hother fun c hc => ?_, ?_⟩
  · have hci : c ∉ held i := by
      intro hci
      rw [hfree c hci] at hc
      cases hc
    rw [hsame c hci] at hc
    exact ⟨hci, hc⟩
  · rw [unmarked_release (hs.nodup i) hcells (fun c hc => hs.marked hc) hfree hsame, h.count]

end Accounted

end Allocation
