import Mathlib.Data.List.Find

/-!
# Lists put together from chunks of one length

`as.flatMap f`, where every `f a` has `k` elements: element `k * i + j` of the
whole is element `j` of chunk `i`, cutting at a multiple of `k` cuts between
chunks, and changing one element of one chunk changes one element of the whole.
-/

namespace Chunks

open List

variable {α β γ : Type*} {f f' : α → List β} {k j : Nat}

section

variable (h : ∀ a, (f a).length = k) (as : List α)
include h as

theorem length_flatMap : (as.flatMap f).length = k * as.length := by
  induction as with
  | nil => rfl
  | cons a as ih =>
    rw [flatMap_cons, length_append, ih, h, length_cons, Nat.mul_succ, Nat.add_comm]

theorem getElem?_flatMap (i : Nat) (hj : j < k) :
    (as.flatMap f)[k * i + j]? = as[i]?.bind fun a => (f a)[j]? := by
  induction as generalizing i with
  | nil => simp
  | cons a as ih =>
    cases i with
    | zero => simp [getElem?_append_left (show j < (f a).length by rw [h]; exact hj)]
    | succ i =>
      have hoff : k * (i + 1) + j - (f a).length = k * i + j := by
        rw [h, Nat.mul_succ]
        omega
      have hlen : (f a).length ≤ k * (i + 1) + j := by
        rw [h, Nat.mul_succ]
        omega
      rw [flatMap_cons, getElem?_append_right hlen, hoff, ih, getElem?_cons_succ]

theorem take_flatMap (i : Nat) : (as.flatMap f).take (k * i) = (as.take i).flatMap f := by
  induction as generalizing i with
  | nil => simp
  | cons a as ih =>
    cases i with
    | zero => simp
    | succ i =>
      have hcut : k * (i + 1) = (f a).length + k * i := by rw [h, Nat.mul_succ, Nat.add_comm]
      rw [flatMap_cons, hcut, take_length_add_append, ih, take_succ_cons, flatMap_cons]

theorem drop_flatMap (i : Nat) : (as.flatMap f).drop (k * i) = (as.drop i).flatMap f := by
  induction as generalizing i with
  | nil => simp
  | cons a as ih =>
    cases i with
    | zero => simp
    | succ i =>
      have hcut : k * (i + 1) = (f a).length + k * i := by rw [h, Nat.mul_succ, Nat.add_comm]
      rw [flatMap_cons, hcut, drop_length_add_append, ih, drop_succ_cons]

end

/-- One element of one chunk changes. -/
theorem flatMap_set (h : ∀ a, (f a).length = k) {as : List α} (hnodup : as.Nodup) {i : Nat}
    {a : α} (hi : as[i]? = some a) (hj : j < k) {x : β} (hchunk : f' a = (f a).set j x)
    (hother : ∀ c ∈ as, c ≠ a → f' c = f c) : as.flatMap f' = (as.flatMap f).set (k * i + j) x := by
  induction as generalizing i with
  | nil => simp at hi
  | cons c as ih =>
    obtain ⟨hc, hnodup⟩ := nodup_cons.mp hnodup
    cases i with
    | zero =>
      obtain rfl : c = a := by simpa using hi
      have hrest : as.flatMap f' = as.flatMap f := by
        rw [flatMap_def]
        congr 1
        refine map_congr_left fun e he => hother e (mem_cons_of_mem _ he) ?_
        rintro rfl
        exact hc he
      rw [flatMap_cons, flatMap_cons, hrest, hchunk, Nat.mul_zero, Nat.zero_add,
        set_append_left _ _ (by rw [h]; exact hj)]
    | succ i =>
      have hi' : as[i]? = some a := by simpa using hi
      have hca : c ≠ a := by
        rintro rfl
        exact hc (mem_of_getElem? hi')
      have hoff : k * (i + 1) + j - (f c).length = k * i + j := by
        rw [h, Nat.mul_succ]
        omega
      have hlen : (f c).length ≤ k * (i + 1) + j := by
        rw [h, Nat.mul_succ]
        omega
      rw [flatMap_cons, flatMap_cons, hother c mem_cons_self hca, set_append_right _ _ hlen, hoff,
        ih hnodup hi' fun e he => hother e (mem_cons_of_mem _ he)]

/-- A collection by index over the first `n` elements. -/
theorem flatMap_range (as : List α) (n : Nat) :
    (List.range n).flatMap (fun i => as[i]?.elim [] f) = (as.take n).flatMap f := by
  induction n with
  | zero => simp
  | succ n ih =>
    rw [range_succ, flatMap_append, ih, take_add_one]
    cases hn : as[n]? <;> simp [hn]

/-- The first `n` chunks and a part of the next one. -/
theorem take_flatMap_add (h : ∀ a, (f a).length = k) (as : List α) (n : Nat) {r : Nat} :
    ((as.take (n + 1)).flatMap f).take (k * n + r) =
      (as.take n).flatMap f ++ as[n]?.elim [] fun a => (f a).take r := by
  rw [take_add_one, flatMap_append]
  cases hn : as[n]? with
  | none =>
    have hlen : as.length ≤ n := List.getElem?_eq_none_iff.mp hn
    have hle : ((as.take n).flatMap f).length ≤ k * n + r := by
      rw [length_flatMap h, take_of_length_le hlen]
      exact Nat.le_add_right_of_le (Nat.mul_le_mul_left k hlen)
    rw [Option.toList_none, flatMap_nil, append_nil, take_of_length_le hle]
    simp
  | some a =>
    have hlt : n < as.length := (List.getElem?_eq_some_iff.mp hn).1
    have hlen : ((as.take n).flatMap f).length = k * n := by
      rw [length_flatMap h, length_take, Nat.min_eq_left (Nat.le_of_lt hlt)]
    rw [← hlen, take_length_add_append]
    simp

theorem findSome?_congr {as : List α} {g g' : α → Option γ} (h : ∀ a ∈ as, g a = g' a) :
    as.findSome? g = as.findSome? g' := by
  induction as with
  | nil => rfl
  | cons a as ih =>
    rw [findSome?_cons, findSome?_cons, h a mem_cons_self,
      ih fun c hc => h c (mem_cons_of_mem _ hc)]

/-- A search by index over the first `n` elements. -/
theorem findSome?_range (as : List α) (g : α → Option γ) (n : Nat) :
    (List.range n).findSome? (fun i => as[i]?.bind g) = (as.take n).findSome? g := by
  induction as generalizing n with
  | nil => simp
  | cons a as ih =>
    cases n with
    | zero => simp
    | succ n =>
      rw [range_succ_eq_map, findSome?_cons, findSome?_map, take_succ_cons]
      have hrest : (List.range n).findSome? ((fun i => (a :: as)[i]?.bind g) ∘ Nat.succ) =
          (as.take n).findSome? g := by
        rw [← ih n]
        congr 1
      rw [hrest]
      rfl

end Chunks
