import Mathlib.Data.List.Basic

/-!
# Singly linked lists

`Seg next p as q` says that following `next` from `p` visits the nodes `as` in
this order and then arrives at `q`.  A null-terminated list is a segment that
arrives at the null node.

A loop that follows a list until a test succeeds is `walk`: it keeps the node
before the current one, as a program does that is going to relink there.  It is
`none` where the loop would not end within the given number of rounds.

`Path` is the same as `Seg` for links that may be missing.
-/

namespace LinkedList

open List

variable {ι : Type*} {next : ι → ι} {as bs : List ι} {p q : Option ι}

/-- The nodes between `p` and `q`. -/
def Seg (next : ι → ι) : ι → List ι → ι → Prop
  | p, [], q => p = q
  | p, a :: as, q => p = a ∧ Seg next (next a) as q

theorem seg_append {p q : ι} :
    Seg next p (as ++ bs) q ↔ ∃ r, Seg next p as r ∧ Seg next r bs q := by
  induction as generalizing p with
  | nil =>
    constructor
    · exact fun h => ⟨p, rfl, h⟩
    · rintro ⟨r, rfl, h⟩
      exact h
  | cons a as ih =>
    simp only [cons_append, Seg, ih]
    constructor
    · rintro ⟨rfl, r, h1, h2⟩
      exact ⟨r, ⟨rfl, h1⟩, h2⟩
    · rintro ⟨r, ⟨rfl, h1⟩, h2⟩
      exact ⟨rfl, r, h1, h2⟩

section Walk

variable [DecidableEq ι] {n : Nat}

/-- `while (curr && !test(curr)) { prev = curr; curr = curr->next; }`. -/
def walk (next : ι → ι) (null : ι) (test : ι → Bool) : Nat → ι → ι → Option (ι × ι)
  | 0, _, _ => none
  | n + 1, prev, curr =>
    if curr = null ∨ test curr = true then some (prev, curr)
    else walk next null test n curr (next curr)

/-- A walk along nodes that fail the test. -/
theorem walk_eq {null p q : ι} {test : ι → Bool} (h : Seg next p as q)
    (hnull : ∀ a ∈ as, a ≠ null) (htest : ∀ a ∈ as, test a = false)
    (hq : q = null ∨ test q = true) (hn : as.length < n) (prev : ι) :
    walk next null test n prev p = some (as.getLastD prev, q) := by
  induction as generalizing p n prev with
  | nil =>
    obtain rfl : p = q := h
    obtain ⟨n, rfl⟩ : ∃ k, n = k + 1 := ⟨n - 1, by simp at hn; omega⟩
    rw [walk, if_pos hq]
    rfl
  | cons a as ih =>
    obtain ⟨rfl, h⟩ := h
    obtain ⟨n, rfl⟩ : ∃ k, n = k + 1 := ⟨n - 1, by simp at hn; omega⟩
    have hstop : ¬ (p = null ∨ test p = true) := by
      simp [hnull p mem_cons_self, htest p mem_cons_self]
    rw [walk, if_neg hstop, ih h (fun b hb => hnull b (mem_cons_of_mem _ hb))
      (fun b hb => htest b (mem_cons_of_mem _ hb)) (by simpa using hn),
      getLastD_cons]

/-- The nodes from `p` to the null node. -/
def nodes (next : ι → ι) (null : ι) : Nat → ι → Option (List ι)
  | 0, _ => none
  | n + 1, p => if p = null then some [] else (nodes next null n (next p)).map (p :: ·)

theorem nodes_eq {null p : ι} (h : Seg next p as null) (hnull : ∀ a ∈ as, a ≠ null)
    (hn : as.length < n) : nodes next null n p = some as := by
  induction as generalizing p n with
  | nil =>
    obtain rfl : p = null := h
    obtain ⟨n, rfl⟩ : ∃ k, n = k + 1 := ⟨n - 1, by simp at hn; omega⟩
    rw [nodes, if_pos rfl]
  | cons a as ih =>
    obtain ⟨rfl, h⟩ := h
    obtain ⟨n, rfl⟩ : ∃ k, n = k + 1 := ⟨n - 1, by simp at hn; omega⟩
    rw [nodes, if_neg (hnull p mem_cons_self),
      ih h (fun b hb => hnull b (mem_cons_of_mem _ hb)) (by simpa using hn), Option.map_some]

end Walk

section Path

variable {link link' : ι → Option ι} {t : ι}

/-- Following the links from `p` visits the nodes `as` and arrives at `q`. -/
def Path (link : ι → Option ι) : Option ι → List ι → Option ι → Prop
  | p, [], q => p = q
  | p, a :: as, q => p = some a ∧ Path link (link a) as q

theorem path_append :
    Path link p (as ++ bs) q ↔ ∃ r, Path link p as r ∧ Path link r bs q := by
  induction as generalizing p with
  | nil =>
    constructor
    · exact fun h => ⟨p, rfl, h⟩
    · rintro ⟨r, rfl, h⟩
      exact h
  | cons a as ih =>
    simp only [cons_append, Path, ih]
    constructor
    · rintro ⟨rfl, r, h1, h2⟩
      exact ⟨r, ⟨rfl, h1⟩, h2⟩
    · rintro ⟨r, ⟨rfl, h1⟩, h2⟩
      exact ⟨rfl, r, h1, h2⟩

/-- A path depends on the links of its own nodes only. -/
theorem Path.congr (h : Path link p as q)
    (hlink : ∀ a ∈ as, link' a = link a) : Path link' p as q := by
  induction as generalizing p with
  | nil => exact h
  | cons a as ih =>
    obtain ⟨rfl, h⟩ := h
    refine ⟨rfl, ?_⟩
    rw [hlink a mem_cons_self]
    exact ih h fun b hb => hlink b (mem_cons_of_mem _ hb)

theorem Path.head_eq (h : Path link p as none) : p = as.head? := by
  cases as with
  | nil => exact h
  | cons a as => exact h.1

/-- Behind the node `t` a path goes on in another way. -/
theorem Path.retail {r : Option ι} {cs : List ι}
    (h : Path link p (as ++ t :: bs) q) (hlink : ∀ a ∈ as, link' a = link a)
    (ht : Path link' (link' t) cs r) : Path link' p (as ++ t :: cs) r := by
  obtain ⟨u, has, hu, -⟩ := path_append.mp h
  exact path_append.mpr ⟨u, has.congr hlink, hu, ht⟩

theorem Path.behind (h : Path link p (as ++ t :: bs) q) :
    Path link (link t) bs q := by
  obtain ⟨u, -, -, ht⟩ := path_append.mp h
  exact ht

end Path

end LinkedList
