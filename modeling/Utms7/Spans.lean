import Mathlib.Algebra.GroupWithZero.Nat
import Mathlib.Order.Interval.Finset.Nat

/-!
# Tilings by spans

A span is a half-open interval of addresses.  `Tiles ss area` says that the
spans `ss` cut up `area` without overlap and without remainder.  Cutting a span
in two and joining two that touch are the two ways in which an allocator changes
a tiling, and both keep the area.

A tiling without touching spans is the coarsest one: every span of any other
tiling lies inside one of its spans.
-/

namespace Spans

open List Nat

structure Span where
  start : Nat
  stop : Nat
deriving DecidableEq

namespace Span

variable {s t : Span}

/-- The address lies in the span. -/
def Has (s : Span) (a : Nat) : Prop := s.start ≤ a ∧ a < s.stop

instance (s : Span) (a : Nat) : Decidable (s.Has a) := inferInstanceAs (Decidable (_ ∧ _))

def length (s : Span) : Nat := s.stop - s.start

/-- The spans do not overlap. -/
def Apart (s t : Span) : Prop := s.stop ≤ t.start ∨ t.stop ≤ s.start

instance (s t : Span) : Decidable (s.Apart t) := inferInstanceAs (Decidable (_ ∨ _))

theorem Apart.symm (h : s.Apart t) : t.Apart s := Or.symm h

instance : Std.Symm Apart := ⟨fun _ _ h => h.symm⟩

end Span

/-- The spans cut up the area. -/
structure Tiles (ss : List Span) (area : Set Nat) : Prop where
  proper : ∀ s ∈ ss, s.start < s.stop
  apart : ss.Pairwise Span.Apart
  cover : ∀ a, a ∈ area ↔ ∃ s ∈ ss, s.Has a

/-- The length of all spans together. -/
def total (ss : List Span) : Nat := (ss.map Span.length).sum

@[simp] theorem total_cons (s : Span) (ss : List Span) : total (s :: ss) = s.length + total ss := by
  simp [total]

theorem total_append (ss ts : List Span) : total (ss ++ ts) = total ss + total ts := by
  simp [total]

theorem total_perm {ss ts : List Span} (h : ss.Perm ts) : total ss = total ts :=
  (h.map Span.length).sum_nat

namespace Tiles

variable {ss ts : List Span} {s t : Span} {area : Set Nat}

theorem nil : Tiles [] ∅ where
  proper := nofun
  apart := .nil
  cover a := by simp

theorem perm (h : Tiles ss area) (hp : ss.Perm ts) : Tiles ts area where
  proper s hs := h.proper s (hp.mem_iff.mpr hs)
  apart := h.apart.perm hp fun hst => hst.symm
  cover a := by
    rw [h.cover a]
    constructor
    · rintro ⟨s, hs, ha⟩
      exact ⟨s, hp.mem_iff.mp hs, ha⟩
    · rintro ⟨s, hs, ha⟩
      exact ⟨s, hp.mem_iff.mpr hs, ha⟩

/-- A span beside the area joins the tiling. -/
theorem cons (h : Tiles ss area) (hs : s.start < s.stop) (hout : ∀ a, s.Has a → a ∉ area) :
    Tiles (s :: ss) (area ∪ { a | s.Has a }) where
  proper t ht := by
    rcases mem_cons.mp ht with rfl | ht
    · exact hs
    · exact h.proper t ht
  apart := by
    refine pairwise_cons.mpr ⟨fun t ht => ?_, h.apart⟩
    have htt := h.proper t ht
    -- Otherwise the later of the two starts lies in both.
    by_contra hover
    unfold Span.Apart at hover
    have hmem : max s.start t.start ∈ area := (h.cover _).mpr ⟨t, ht, by
      constructor <;> omega⟩
    exact hout _ (by constructor <;> omega) hmem
  cover a := by
    simp only [Set.mem_union, mem_cons, exists_eq_or_imp, h.cover a]
    exact or_comm

/-- The first span is cut in two at `m`. -/
theorem split {m : Nat} (h : Tiles (s :: ss) area) (hlo : s.start < m) (hhi : m < s.stop) :
    Tiles (⟨s.start, m⟩ :: ⟨m, s.stop⟩ :: ss) area where
  proper t ht := by
    simp only [mem_cons] at ht
    rcases ht with rfl | rfl | ht
    · exact hlo
    · exact hhi
    · exact h.proper t (mem_cons_of_mem _ ht)
  apart := by
    obtain ⟨hhead, htail⟩ := pairwise_cons.mp h.apart
    refine pairwise_cons.mpr ⟨fun t ht => ?_, pairwise_cons.mpr ⟨fun t ht => ?_, htail⟩⟩
    · rcases mem_cons.mp ht with rfl | ht
      · exact .inl (le_refl m)
      · rcases hhead t ht with hst | hst
        · exact .inl (le_trans (le_of_lt hhi) hst)
        · exact .inr hst
    · rcases hhead t ht with hst | hst
      · exact .inl hst
      · exact .inr (le_trans hst (le_of_lt hlo))
  cover a := by
    rw [h.cover a]
    simp only [mem_cons, exists_eq_or_imp, Span.Has]
    constructor
    · rintro (ha | ha)
      · rcases lt_or_ge a m with hlt | hge
        · exact .inl ⟨ha.1, hlt⟩
        · exact .inr (.inl ⟨hge, ha.2⟩)
      · exact .inr (.inr ha)
    · rintro (ha | ha | ha)
      · exact .inl ⟨ha.1, by omega⟩
      · exact .inl ⟨by omega, ha.2⟩
      · exact .inr ha

/-- The first two spans touch and become one. -/
theorem join (h : Tiles (s :: t :: ss) area) (htouch : s.stop = t.start) :
    Tiles (⟨s.start, t.stop⟩ :: ss) area where
  proper u hu := by
    have hs := h.proper s mem_cons_self
    have ht := h.proper t (mem_cons_of_mem _ mem_cons_self)
    rcases mem_cons.mp hu with rfl | hu
    · change s.start < t.stop
      omega
    · exact h.proper u (mem_cons_of_mem _ (mem_cons_of_mem _ hu))
  apart := by
    obtain ⟨hhead, htail⟩ := pairwise_cons.mp h.apart
    obtain ⟨hsecond, hrest⟩ := pairwise_cons.mp htail
    refine pairwise_cons.mpr ⟨fun u hu => ?_, hrest⟩
    have hu' := h.proper u (mem_cons_of_mem _ (mem_cons_of_mem _ hu))
    have h1 := hhead u (mem_cons_of_mem _ hu)
    have h2 := hsecond u hu
    simp only [Span.Apart] at h1 h2 ⊢
    omega
  cover a := by
    have hs := h.proper s mem_cons_self
    have ht := h.proper t (mem_cons_of_mem _ mem_cons_self)
    rw [h.cover a]
    simp only [mem_cons, exists_eq_or_imp, Span.Has]
    constructor
    · rintro (ha | ha | ha)
      · exact .inl ⟨ha.1, by omega⟩
      · exact .inl ⟨by omega, ha.2⟩
      · exact .inr ha
    · rintro (ha | ha)
      · rcases lt_or_ge a t.start with hlt | hge
        · exact .inl ⟨ha.1, by omega⟩
        · exact .inr (.inl ⟨hge, ha.2⟩)
      · exact .inr (.inr ha)

section

variable (h : Tiles ss area)
include h

/-- Different spans of a tiling do not overlap. -/
theorem apart_of_ne (hs : s ∈ ss) (ht : t ∈ ss) (hne : s ≠ t) : s.Apart t :=
  h.apart.forall hs ht hne

/-- **A tiling without touching spans is the coarsest one.** -/
theorem exists_superset (ht : Tiles ts area) (hfree : ∀ t ∈ ts, ∀ u ∈ ts, t.stop ≠ u.start)
    (hs : s ∈ ss) : ∃ t ∈ ts, t.start ≤ s.start ∧ s.stop ≤ t.stop := by
  have hproper := h.proper s hs
  -- the span of the other tiling over the first address
  obtain ⟨t, htmem, htlo, hthi⟩ :=
    (ht.cover s.start).mp ((h.cover s.start).mpr ⟨s, hs, le_refl _, hproper⟩)
  refine ⟨t, htmem, htlo, ?_⟩
  by_contra hshort
  -- its end is an address of `s`; the span over that address cannot start before it
  obtain ⟨u, hu, hulo, huhi⟩ :=
    (ht.cover t.stop).mp ((h.cover t.stop).mpr ⟨s, hs, by omega, by omega⟩)
  have hne : t ≠ u := by
    rintro rfl
    exact lt_irrefl _ huhi
  rcases ht.apart_of_ne htmem hu hne with hle | hle
  · exact hfree t htmem u hu (le_antisymm hle hulo)
  · omega

/-- The spans have as many addresses as the area. -/
theorem exists_finset : ∃ F : Finset Nat, (∀ a, a ∈ F ↔ a ∈ area) ∧ F.card = total ss := by
  induction ss generalizing area with
  | nil => exact ⟨∅, fun a => by simp [h.cover a], rfl⟩
  | cons s ss ih =>
    obtain ⟨hhead, htail⟩ := pairwise_cons.mp h.apart
    have hrest : Tiles ss { a | ∃ t ∈ ss, t.Has a } :=
      ⟨fun t ht => h.proper t (mem_cons_of_mem _ ht), htail, fun _ => Iff.rfl⟩
    obtain ⟨F, hF, hcard⟩ := ih hrest
    have hdisj : Disjoint (Finset.Ico s.start s.stop) F := by
      refine Finset.disjoint_left.mpr fun a ha haF => ?_
      rw [Finset.mem_Ico] at ha
      obtain ⟨t, ht, hlo, hhi⟩ := (hF a).mp haF
      rcases hhead t ht with hst | hst <;> omega
    refine ⟨Finset.Ico s.start s.stop ∪ F, fun a => ?_, ?_⟩
    · rw [Finset.mem_union, Finset.mem_Ico, hF, h.cover a]
      simp only [mem_cons, exists_eq_or_imp, Span.Has, Set.mem_ofPred_eq]
    · rw [Finset.card_union_of_disjoint hdisj, card_Ico, hcard, total_cons, Span.length]

/-- Two tilings of an area have the same length. -/
theorem total_eq (ht : Tiles ts area) : total ss = total ts := by
  obtain ⟨F, hF, hcard⟩ := h.exists_finset
  obtain ⟨G, hG, hcard'⟩ := ht.exists_finset
  have hFG : F = G := Finset.ext fun a => (hF a).trans (hG a).symm
  rw [← hcard, ← hcard', hFG]

theorem total_le {lo hi : Nat} (harea : ∀ a ∈ area, lo ≤ a ∧ a < hi) : total ss ≤ hi - lo := by
  obtain ⟨F, hF, hcard⟩ := h.exists_finset
  rw [← hcard, ← card_Ico]
  refine Finset.card_le_card fun a ha => ?_
  rw [Finset.mem_Ico]
  exact harea a ((hF a).mp ha)

theorem length_le_total : ss.length ≤ total ss := by
  have hproper := h.proper
  clear h
  induction ss with
  | nil => exact le_refl 0
  | cons s ss ih =>
    have hs := hproper s mem_cons_self
    have := ih fun t ht => hproper t (mem_cons_of_mem _ ht)
    rw [total_cons, Span.length, length_cons]
    omega

end

end Tiles

end Spans
