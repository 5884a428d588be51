import Mathlib.Algebra.Group.Int.Defs
import Mathlib.Algebra.Group.Nat.Defs
import Mathlib.Tactic.Common

/-!
# Computations that leave a log

`Logged ε α` is a computation that may stop before its end and logs events of type
`ε` on the way.  `All P` says that every event of the log satisfies `P`; the rules
below take it through sequencing, tests and loops.
-/

/-- A log, and the value unless the computation stopped. -/
structure Logged (ε α : Type*) where
  log : List ε
  value : Option α

namespace Logged

open Nat

variable {ε α β : Type} {P : ε → Prop} {x : Logged ε α} {f : α → Logged ε β} {p : Prop} {a : α}

instance : Monad (Logged ε) where
  pure a := ⟨[], some a⟩
  bind x f := match x.value with
    | none => ⟨x.log, none⟩
    | some a => ⟨x.log ++ (f a).log, (f a).value⟩

/-- The computation stops. -/
def fail : Logged ε α := ⟨[], none⟩

/-- One event. -/
def emit (e : ε) : Logged ε Unit := ⟨[e], some ()⟩

/-- The computation goes on only if `p` holds. -/
def require (p : Prop) [Decidable p] : Logged ε Unit := if p then pure () else fail

/-- Whether `x` stops is seen by what comes after it. -/
def attempt (x : Logged ε α) : Logged ε (Option α) := ⟨x.log, some x.value⟩

/-- The rounds `i`, `i + 1`, … of a loop, `n` of them. -/
def loop (body : Nat → Logged ε Unit) : Nat → Nat → Logged ε Unit
  | 0, _ => pure ()
  | n + 1, i => do
    body i
    loop body n (i + 1)

/-- Every event of the log satisfies `P`. -/
def All (P : ε → Prop) (x : Logged ε α) : Prop := ∀ e ∈ x.log, P e

/-! ## Values -/

@[simp] theorem value_pure {b : α} : (pure a : Logged ε α).value = some b ↔ a = b :=
  Option.some.injEq a b ▸ Iff.rfl

@[simp] theorem value_fail : (fail : Logged ε α).value = some a ↔ False := by
  simp [fail]

@[simp] theorem value_emit {e : ε} {a : Unit} : (emit e).value = some a ↔ True := by
  simp [emit]

@[simp] theorem value_require [Decidable p] {a : Unit} :
    (require p : Logged ε Unit).value = some a ↔ p := by
  unfold require
  split <;> simp [*]

@[simp] theorem value_attempt {a : Option α} : (attempt x).value = some a ↔ x.value = a := by
  simp [attempt]

@[simp] theorem value_bind {b : β} :
    (x >>= f).value = some b ↔ ∃ a, x.value = some a ∧ (f a).value = some b := by
  show (match x.value with
    | none => (⟨x.log, none⟩ : Logged ε β)
    | some a => ⟨x.log ++ (f a).log, (f a).value⟩).value = some b ↔ _
  cases x.value with
  | none => simp
  | some a => simp

/-! ## Logs -/

@[simp] theorem all_pure : All P (pure a : Logged ε α) ↔ True := by
  simp [All, pure]

@[simp] theorem all_fail : All P (fail : Logged ε α) ↔ True := by
  simp [All, fail]

@[simp] theorem all_emit {e : ε} : All P (emit e) ↔ P e := by
  simp [All, emit]

@[simp] theorem all_require [Decidable p] : All P (require p : Logged ε Unit) ↔ True := by
  unfold require
  split <;> simp

@[simp] theorem all_attempt : All P (attempt x) ↔ All P x := Iff.rfl

/-- What comes second is reached with the values that the first part returns. -/
@[simp] theorem all_bind : All P (x >>= f) ↔ All P x ∧ ∀ a, x.value = some a → All P (f a) := by
  show All P (match x.value with
    | none => (⟨x.log, none⟩ : Logged ε β)
    | some a => ⟨x.log ++ (f a).log, (f a).value⟩) ↔ _
  cases x.value with
  | none => simp [All]
  | some a =>
    simp only [All, List.mem_append, Option.some.injEq, forall_eq']
    constructor
    · exact fun h => ⟨fun e he => h e (.inl he), fun e he => h e (.inr he)⟩
    · rintro ⟨h, h'⟩ e (he | he)
      · exact h e he
      · exact h' e he

@[simp] theorem all_ite {c : Prop} [Decidable c] {y : Logged ε α} :
    All P (if c then x else y) ↔ (c → All P x) ∧ (¬ c → All P y) := by
  split <;> simp [*]

/-- A round of a loop is reached if no round before it has stopped. -/
theorem all_loop {body : Nat → Logged ε Unit} (n i : Nat) : All P (loop body n i) ↔
      ∀ j < n, (∀ m < j, (body (i + m)).value = some ()) → All P (body (i + j)) := by
  induction n generalizing i with
  | zero => simp [loop]
  | succ n ih =>
    rw [loop, all_bind]
    constructor
    · rintro ⟨hfirst, hrest⟩ j hj hpast
      cases j with
      | zero => exact hfirst
      | succ j =>
        have hnext := (ih (i + 1)).mp (hrest () (hpast 0 (succ_pos j))) j (by omega)
          fun m hm => by
            have hm' := hpast (m + 1) (by omega)
            rwa [add_assoc, add_comm 1 m]
        rwa [add_assoc, add_comm 1 j] at hnext
    · intro h
      refine ⟨h 0 (succ_pos n) fun m hm => absurd hm (not_lt_zero m), fun _ hval => ?_⟩
      refine (ih (i + 1)).mpr fun j hj hpast => ?_
      have hnext := h (j + 1) (by omega) fun m hm => by
        cases m with
        | zero => exact hval
        | succ m =>
          have hm' := hpast m (by omega)
          rwa [add_assoc, add_comm 1 m] at hm'
      rwa [add_assoc, add_comm 1 j]

end Logged
