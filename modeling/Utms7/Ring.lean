import Mathlib.Data.Fin.Basic
import Mathlib.Data.Nat.ModEq

/-!
# Ring buffers

Cells that are used in a circle.  `contents` lists the cells in use, from the first
one on; the rules say what it becomes when cells are appended behind the last one or
taken away at the front.
-/

namespace Ring

open Function List

variable {α : Type*} {n j : Nat} [NeZero n] {cells : Fin n → α} {start count : Nat}

/-- The cells in use. -/
def contents (cells : Fin n → α) (start count : Nat) : List α :=
  (List.range count).map fun i => cells (Fin.ofNat n (start + i))

@[simp] theorem contents_zero : contents cells start 0 = [] := rfl

@[simp] theorem length_contents : (contents cells start count).length = count := by
  simp [contents]

theorem contents_snoc : contents cells start (count + 1) =
    contents cells start count ++ [cells (Fin.ofNat n (start + count))] := by
  simp [contents, range_succ]

/-- The first cell and the ones after it. -/
theorem contents_succ : contents cells start (count + 1) =
    cells (Fin.ofNat n start) :: contents cells (start + 1) count := by
  simp [contents, range_succ_eq_map, Nat.add_right_comm, Nat.add_assoc]

theorem contents_add (more : Nat) : contents cells start (count + more) =
    contents cells start count ++ contents cells (start + count) more := by
  induction more with
  | zero => simp
  | succ more ih => rw [← Nat.add_assoc, contents_snoc, ih, contents_snoc, append_assoc,
      Nat.add_assoc]

theorem ofNat_mod (i : Nat) : Fin.ofNat n (start % n + i) = Fin.ofNat n (start + i) := by
  simp [Fin.ext_iff]

theorem contents_mod : contents cells (start % n) count = contents cells start count := by
  simp only [contents, ofNat_mod]

theorem contents_congr (cells' : Fin n → α)
    (h : ∀ i < count, cells (Fin.ofNat n (start + i)) = cells' (Fin.ofNat n (start + i))) :
    contents cells start count = contents cells' start count := by
  refine map_congr_left fun i hi => h i (mem_range.mp hi)

/-- Two places of the circle are the same cell only if they are the same place. -/
theorem ofNat_inj (start : Nat) {i : Nat} (hi : i < n) (hj : j < n) :
    Fin.ofNat n (start + i) = Fin.ofNat n (start + j) ↔ i = j := by
  constructor
  · intro h
    have hmod : (start + i) % n = (start + j) % n := by simpa [Fin.ext_iff] using h
    have hcancel : i ≡ j [MOD n] := Nat.ModEq.add_left_cancel' start hmod
    exact Nat.ModEq.eq_of_lt_of_lt hcancel hi hj
  · rintro rfl
    rfl

/-- A cell behind the ones in use may be written. -/
theorem contents_update (hj : j < n) (hcount : count ≤ j) (x : α) :
    contents (update cells (Fin.ofNat n (start + j)) x) start count =
      contents cells start count := by
  refine contents_congr _ fun i hi => update_of_ne ?_ _ _
  rw [Ne, ofNat_inj start (by omega) hj]
  omega

/-- **Appending.** -/
theorem contents_push (hcount : count < n) (x : α) :
    contents (update cells (Fin.ofNat n (start + count)) x) start (count + 1) =
      contents cells start count ++ [x] := by
  rw [contents_snoc, contents_update hcount (Nat.le_refl _), update_self]

/-- Values written from a cell on. -/
def write (cells : Fin n → α) (start : Nat) : List α → Fin n → α
  | [] => cells
  | x :: xs => write (update cells (Fin.ofNat n start) x) (start + 1) xs

theorem write_append (cells : Fin n → α) (start : Nat) (xs ys : List α) :
    write cells start (xs ++ ys) = write (write cells start xs) (start + xs.length) ys := by
  induction xs generalizing cells start with
  | nil => rfl
  | cons x xs ih =>
    rw [cons_append, write, ih, write, length_cons, Nat.add_right_comm, Nat.add_assoc]

theorem write_congr (cells : Fin n → α) {start' : Nat} (h : start % n = start' % n) (xs : List α) :
    write cells start xs = write cells start' xs := by
  induction xs generalizing cells start start' with
  | nil => rfl
  | cons x xs ih =>
    have hcell : Fin.ofNat n start = Fin.ofNat n start' := Fin.ext h
    rw [write, write, hcell, ih _ (Nat.ModEq.add_right 1 h)]

/-- **Appending** several values. -/
theorem contents_write (xs : List α) (hfit : count + xs.length ≤ n) :
    contents (write cells (start + count) xs) start (count + xs.length) =
      contents cells start count ++ xs := by
  induction xs generalizing cells count with
  | nil => simp [write]
  | cons x xs ih =>
    rw [length_cons] at hfit
    have hrest : contents (write (update cells (Fin.ofNat n (start + count)) x)
        (start + (count + 1)) xs) start (count + 1 + xs.length) =
          contents (update cells (Fin.ofNat n (start + count)) x) start (count + 1) ++
            xs := ih (by omega)
    have hlen : count + (x :: xs).length = count + 1 + xs.length := by
      rw [length_cons]
      omega
    rw [hlen, write, Nat.add_assoc start, hrest, contents_push (by omega), append_assoc,
      singleton_append]

end Ring
