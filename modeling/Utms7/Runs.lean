import Mathlib.Order.Basic

/-!
# Runs of a state machine

A run applies one step after the other.  `Guarded` singles out the runs all of
whose steps are taken where a condition on state and step holds; an invariant
that such steps keep holds at the end of every guarded run, and two machines
that stay related step by step stay related along whole runs.
-/

namespace Runs

open List

variable {σ α : Type*}

/-- The state after a run. -/
def run (step : σ → α → σ) (s : σ) (as : List α) : σ := as.foldl step s

/-- Every step of the run is taken in a state that allows it. -/
def Guarded (step : σ → α → σ) (ok : σ → α → Prop) : σ → List α → Prop
  | _, [] => True
  | s, a :: as => ok s a ∧ Guarded step ok (step s a) as

variable {step : σ → α → σ} {ok ok' : σ → α → Prop} {as : List α} {s : σ} {I P : σ → Prop}
  {A : α → Prop}

instance Guarded.decidable [∀ s a, Decidable (ok s a)] :
    ∀ (s : σ) (as : List α), Decidable (Guarded step ok s as)
  | _, [] => .isTrue trivial
  | s, a :: as => @instDecidableAnd _ _ _ (Guarded.decidable (step s a) as)

@[simp] theorem run_nil (s : σ) : run step s [] = s := rfl

@[simp] theorem run_cons (s : σ) (a : α) (as : List α) :
    run step s (a :: as) = run step (step s a) as := rfl

theorem run_append (s : σ) (as bs : List α) :
    run step s (as ++ bs) = run step (run step s as) bs := foldl_append

theorem guarded_append {bs : List α} :
    Guarded step ok s (as ++ bs) ↔ Guarded step ok s as ∧ Guarded step ok (run step s as) bs := by
  induction as generalizing s with
  | nil => simp [Guarded]
  | cons a as ih => simp only [cons_append, Guarded, run_cons, ih, and_assoc]

/-- What guarded steps keep holds after every guarded run. -/
theorem Guarded.invariant (hstep : ∀ s a, I s → ok s a → I (step s a))
    (hguard : Guarded step ok s as) (hinit : I s) : I (run step s as) := by
  induction as generalizing s with
  | nil => exact hinit
  | cons a as ih =>
    obtain ⟨hok, hrest⟩ := hguard
    exact ih hrest (hstep s a hinit hok)

/-- What every step keeps holds after every run. -/
theorem invariant (hstep : ∀ s a, I s → I (step s a)) (as : List α)
    (hinit : I s) : I (run step s as) := by
  induction as generalizing s with
  | nil => exact hinit
  | cons a as ih => exact ih (hstep s a hinit)

theorem guarded_of_forall {p : α → Prop} (h : ∀ a ∈ as, p a) (s : σ) :
    Guarded step (fun _ a => p a) s as := by
  induction as generalizing s with
  | nil => trivial
  | cons a as ih =>
    exact ⟨h a mem_cons_self, ih (fun b hb => h b (mem_cons_of_mem _ hb)) _⟩

theorem Guarded.and (h : Guarded step ok s as)
    (h' : Guarded step ok' s as) : Guarded step (fun s a => ok s a ∧ ok' s a) s as := by
  induction as generalizing s with
  | nil => trivial
  | cons a as ih => exact ⟨⟨h.1, h'.1⟩, ih h.2 h'.2⟩

/-- Guards may be weakened, under an invariant. -/
theorem Guarded.imp
    (hstep : ∀ s a, I s → ok s a → I (step s a)) (himp : ∀ s a, I s → ok s a → ok' s a)
    (hguard : Guarded step ok s as) (hinit : I s) : Guarded step ok' s as := by
  induction as generalizing s with
  | nil => trivial
  | cons a as ih =>
    obtain ⟨hok, hrest⟩ := hguard
    exact ⟨himp s a hinit hok, ih hrest (hstep s a hinit hok)⟩

/-- Guards that agree under an invariant. -/
theorem guarded_congr
    (hI : ∀ s a, I s → A a → I (step s a)) (h : ∀ s a, I s → A a → (ok s a ↔ ok' s a))
    (hA : ∀ a ∈ as, A a) (hinit : I s) : Guarded step ok s as ↔ Guarded step ok' s as := by
  induction as generalizing s with
  | nil => exact Iff.rfl
  | cons a as ih =>
    have ha : A a := hA a mem_cons_self
    exact and_congr (h s a hinit ha)
      (ih (fun b hb => hA b (mem_cons_of_mem a hb)) (hI s a hinit ha))

/-- A property holds in every state of the run. -/
def Always (step : σ → α → σ) (P : σ → Prop) (s : σ) (as : List α) : Prop :=
  ∀ bs, bs <+: as → P (run step s bs)

theorem always_nil : Always step P s [] ↔ P s := by
  constructor
  · exact fun h => h [] nil_prefix
  · rintro h bs hbs
    rwa [prefix_nil.mp hbs]

theorem always_cons {a : α} : Always step P s (a :: as) ↔ P s ∧ Always step P (step s a) as := by
  constructor
  · intro h
    exact ⟨h [] nil_prefix, fun bs hbs => h (a :: bs) (cons_prefix_cons.mpr ⟨rfl, hbs⟩)⟩
  · rintro ⟨hs, h⟩ bs hbs
    cases bs with
    | nil => exact hs
    | cons b bs =>
      obtain ⟨rfl, hrest⟩ := cons_prefix_cons.mp hbs
      exact h bs hrest

/-- Where the guard says exactly when a step keeps a property, the property holds
throughout a run exactly if the run is guarded. -/
theorem always_iff_guarded (hI : ∀ s a, I s → A a → I (step s a))
    (hP : ∀ s a, I s → A a → P s → (P (step s a) ↔ ok s a))
    (hA : ∀ a ∈ as, A a) (hinit : I s) (hs : P s) : Always step P s as ↔ Guarded step ok s as := by
  induction as generalizing s with
  | nil => exact always_nil.trans (iff_of_true hs trivial)
  | cons a as ih =>
    have ha : A a := hA a mem_cons_self
    have has : ∀ b ∈ as, A b := fun b hb => hA b (mem_cons_of_mem a hb)
    rw [always_cons, Guarded, ← hP s a hinit ha hs]
    constructor
    · rintro ⟨-, h⟩
      have hnext : P (step s a) := h [] nil_prefix
      exact ⟨hnext, (ih has (hI s a hinit ha) hnext).mp h⟩
    · rintro ⟨hnext, h⟩
      exact ⟨hs, (ih has (hI s a hinit ha) hnext).mpr h⟩

/-- Some step of the run is taken in a state where `E` holds of it. -/
def Occurs (step : σ → α → σ) (E : σ → α → Prop) (s : σ) (as : List α) : Prop :=
  ∃ bs a cs, as = bs ++ a :: cs ∧ E (run step s bs) a

/-- What only the steps with `E` can end still holds, or one of them was taken. -/
theorem Guarded.stays_or_occurs {E : σ → α → Prop} (hstep : ∀ s a, I s → ok s a → I (step s a))
    (hstay : ∀ s a, I s → ok s a → P s → P (step s a) ∨ E s a)
    (hguard : Guarded step ok s as) (hinit : I s) (hP : P s) :
    P (run step s as) ∨ Occurs step E s as := by
  induction as generalizing s with
  | nil => exact .inl hP
  | cons a as ih =>
    obtain ⟨hok, hrest⟩ := hguard
    rcases hstay s a hinit hok hP with hP' | hE
    · refine (ih hrest (hstep s a hinit hok) hP').imp_right ?_
      rintro ⟨bs, b, cs, rfl, hE⟩
      exact ⟨a :: bs, b, cs, rfl, hE⟩
    · exact .inr ⟨[], a, as, rfl, hE⟩

end Runs
