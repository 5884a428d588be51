import Mathlib.Data.List.Infix
import Mathlib.Data.Set.Basic

/-!
# Radix trees in memory

A memory holds tables of entries.  An entry of a table at depth `d` may point to
another table, which `child d` says.  A path of indices is followed from a root
table: `walk` is the table that it leads to, and `trail` is the list of the entries
that are read on the way.

What a path reads decides where it leads.  So a table can be filled that no path
from a root reads, and an entry can be written without an effect on the paths that
do not read it.
-/

namespace Radix

open Function List Option

variable {F ι E : Type*} (child : Nat → E → Option F)

/-- The table that a path leads to, from table `t` at depth `d`. -/
def walk (m : F → ι → E) : Nat → F → List ι → Option F
  | _, t, [] => some t
  | d, t, i :: p => (child d (m t i)).bind fun g => walk m (d + 1) g p

/-- The entries that are read on the way. -/
def trail (m : F → ι → E) : Nat → F → List ι → List E
  | _, _, [] => []
  | d, t, i :: p => m t i :: (child d (m t i)).elim [] fun g => trail m (d + 1) g p

/-- Following `p` from `t` reads entry `i` of table `f`. -/
def Reads (m : F → ι → E) (d : Nat) (t : F) (p : List ι) (f : F) (i : ι) : Prop :=
  ∃ q, q ++ [i] <+: p ∧ walk child m d t q = some f

variable {child} {m m' : F → ι → E} {d : Nat} {t f g : F} {i j : ι} {p q : List ι} {e : E}

@[simp] theorem walk_nil : walk child m d t [] = some t := rfl

theorem walk_cons : walk child m d t (i :: p) =
    (child d (m t i)).bind fun g => walk child m (d + 1) g p := rfl

theorem trail_cons : trail child m d t (i :: p) =
    m t i :: (child d (m t i)).elim [] fun g => trail child m (d + 1) g p := rfl

/-- A walk in two parts. -/
theorem walk_append : walk child m d t (p ++ q) =
    (walk child m d t p).bind fun g => walk child m (d + p.length) g q := by
  induction p generalizing d t with
  | nil => rfl
  | cons i p ih =>
    rw [cons_append, walk_cons, walk_cons, Option.bind_assoc]
    congr 1
    funext g
    rw [ih, length_cons, Nat.add_right_comm, Nat.add_assoc]

theorem walk_snoc : walk child m d t (p ++ [i]) =
    (walk child m d t p).bind fun g => child (d + p.length) (m g i) := by
  rw [walk_append]
  congr 1
  funext g
  rw [walk_cons]
  cases child (d + p.length) (m g i) <;> rfl

/-- The entries read on a walk in two parts. -/
theorem trail_append (h : walk child m d t p = some f) : trail child m d t (p ++ q) =
    trail child m d t p ++ trail child m (d + p.length) f q := by
  induction p generalizing d t with
  | nil =>
    obtain rfl : t = f := by simpa using h
    rfl
  | cons i p ih =>
    rw [walk_cons] at h
    rw [cons_append, trail_cons, trail_cons]
    cases hg : child d (m t i) with
    | none =>
      rw [hg] at h
      cases h
    | some g =>
      rw [hg] at h
      rw [elim_some, elim_some, ih h, length_cons, Nat.add_right_comm, Nat.add_assoc, cons_append]

theorem length_trail (h : walk child m d t p = some f) :
    (trail child m d t p).length = p.length := by
  induction p generalizing d t with
  | nil => rfl
  | cons i p ih =>
    obtain ⟨g, hg, hrest⟩ := bind_eq_some_iff.mp h
    rw [trail_cons, hg, elim_some, length_cons, ih hrest, length_cons]

theorem reads_cons : Reads child m d t (j :: p) f i ↔
    (t = f ∧ j = i) ∨ ∃ g, child d (m t j) = some g ∧ Reads child m (d + 1) g p f i := by
  constructor
  · rintro ⟨q, hq, hwalk⟩
    cases q with
    | nil =>
      refine .inl ⟨by simpa using hwalk, ?_⟩
      simpa using (cons_prefix_cons.mp hq).1.symm
    | cons k q =>
      obtain ⟨rfl, hrest⟩ := cons_prefix_cons.mp hq
      obtain ⟨g, hg, hwalk⟩ := bind_eq_some_iff.mp hwalk
      exact .inr ⟨g, hg, q, hrest, hwalk⟩
  · rintro (⟨rfl, rfl⟩ | ⟨g, hg, q, hq, hwalk⟩)
    · exact ⟨[], by simp, rfl⟩
    · exact ⟨j :: q, cons_prefix_cons.mpr ⟨rfl, hq⟩, by rw [walk_cons, hg]; exact hwalk⟩

/-- **What a path reads decides where it leads.** -/
theorem same_of_reads (h : ∀ f i, Reads child m d t p f i → m' f i = m f i) :
    walk child m' d t p = walk child m d t p ∧ trail child m' d t p = trail child m d t p := by
  induction p generalizing d t with
  | nil => exact ⟨rfl, rfl⟩
  | cons j p ih =>
    have hhead : m' t j = m t j := h t j (reads_cons.mpr (.inl ⟨rfl, rfl⟩))
    rw [walk_cons, walk_cons, trail_cons, trail_cons, hhead]
    cases hg : child d (m t j) with
    | none => exact ⟨rfl, rfl⟩
    | some g =>
      obtain ⟨hw, ht⟩ := ih fun f i hr => h f i (reads_cons.mpr (.inr ⟨g, hg, hr⟩))
      exact ⟨hw, by rw [elim_some, elim_some, ht]⟩

section Write

variable [DecidableEq F]

/-- Table `g` is filled. -/
def fill (m : F → ι → E) (g : F) (table : ι → E) : F → ι → E := update m g table

@[simp] theorem fill_self (m : F → ι → E) (g : F) (table : ι → E) : fill m g table g = table :=
  update_self ..

theorem fill_of_ne (m : F → ι → E) (table : ι → E) (h : f ≠ g) : fill m g table f = m f :=
  update_of_ne h ..

/-- A table that the walk does not read may be filled. -/
theorem fill_same {table : ι → E} (h : ∀ i, ¬ Reads child m d t p g i) :
    walk child (fill m g table) d t p = walk child m d t p ∧
      trail child (fill m g table) d t p = trail child m d t p := by
  refine same_of_reads fun f i hr => ?_
  rw [fill_of_ne]
  rintro rfl
  exact h i hr

variable [DecidableEq ι]

/-- Entry `i` of table `t` is written. -/
def write (m : F → ι → E) (t : F) (i : ι) (e : E) : F → ι → E := fill m t (update (m t) i e)

@[simp] theorem write_self (m : F → ι → E) (t : F) (i : ι) (e : E) : write m t i e t i = e := by
  rw [write, fill_self, update_self]

theorem write_of_ne (m : F → ι → E) (e : E) (h : ¬ (f = t ∧ j = i)) :
    write m t i e f j = m f j := by
  by_cases hf : f = t
  · subst hf
    rw [write, fill_self, update_of_ne fun hj => h ⟨rfl, hj⟩]
  · rw [write, fill_of_ne _ _ hf]

theorem write_table_of_ne (m : F → ι → E) (i : ι) (e : E) (h : f ≠ t) : write m t i e f = m f :=
  fill_of_ne _ _ h

/-- An entry that the walk does not read may be written. -/
theorem write_same (h : ¬ Reads child m d t p f i) :
    walk child (write m f i e) d t p = walk child m d t p ∧
      trail child (write m f i e) d t p = trail child m d t p := by
  refine same_of_reads fun f' i' hr => write_of_ne m e ?_
  rintro ⟨rfl, rfl⟩
  exact h hr

/-- A path through an entry that is written. -/
theorem write_through (h : walk child m d t q = some f) (hoff : ¬ Reads child m d t q f i) :
    walk child (write m f i e) d t (q ++ i :: p) = (child (d + q.length) e).bind (fun g =>
        walk child (write m f i e) (d + q.length + 1) g p) ∧
    trail child (write m f i e) d t (q ++ i :: p) = trail child m d t q ++
      e :: (child (d + q.length) e).elim [] (fun g =>
        trail child (write m f i e) (d + q.length + 1) g p) := by
  obtain ⟨hwalk, htrail⟩ := write_same (e := e) hoff
  constructor
  · rw [walk_append, hwalk, h, bind_some, walk_cons, write_self]
  · rw [trail_append (hwalk.trans h), htrail, trail_cons, write_self]

end Write

end Radix
