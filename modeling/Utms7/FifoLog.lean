import Mathlib.Data.List.Nodup

/-!
# Logs of a queue

A log records who enters a queue and who is let out.  `replay` follows it: an
element enters at the end, only the first one is let out, and while the queue is
empty anybody may be.  In a log that can be followed nobody overtakes.
-/

namespace FifoLog

open List

variable {α : Type*}

inductive Event (α : Type*) where
  | enter (a : α)
  | leave (a : α)
deriving DecidableEq

open Event

variable [DecidableEq α] {es : List (Event α)} {q v : List α} {x : α}

/-- The queue after a log, if it can be followed. -/
def replay : List α → List (Event α) → Option (List α)
  | q, [] => some q
  | q, .enter a :: es => if a ∈ q then none else replay (q ++ [a]) es
  | [], .leave _ :: es => replay [] es
  | b :: q, .leave a :: es => if a = b then replay q es else none

theorem replay_append (q : List α) (es fs : List (Event α)) :
    replay q (es ++ fs) = (replay q es).bind fun q' => replay q' fs := by
  induction es generalizing q with
  | nil => rfl
  | cons e es ih =>
    cases e with
    | enter a =>
      simp only [cons_append, replay]
      split
      · rfl
      · exact ih _
    | leave a =>
      cases q with
      | nil => exact ih _
      | cons b q =>
        simp only [cons_append, replay]
        split
        · exact ih _
        · rfl

theorem replay_enter {as : List α} (h : (q ++ as).Nodup) :
    replay q (as.map .enter) = some (q ++ as) := by
  induction as generalizing q with
  | nil => simp [replay]
  | cons a as ih =>
    have ha : a ∉ q := by
      rw [nodup_middle] at h
      exact fun hmem => (nodup_cons.mp h).1 (mem_append_left _ hmem)
    rw [map_cons, replay, if_neg ha, ih (by simpa using h)]
    simp

/-- Who does not leave stays, with the same elements in front or fewer. -/
theorem replay_stays {u : List α} (h : replay (u ++ x :: v) es = some q) (hx : leave x ∉ es) :
    ∃ u' v', q = u' ++ x :: v' ∧ ∀ y ∉ u, leave y ∉ es ∧ y ∉ u' := by
  induction es generalizing u v with
  | nil =>
    obtain rfl : u ++ x :: v = q := Option.some.inj h
    exact ⟨u, v, rfl, fun y hy => ⟨not_mem_nil, hy⟩⟩
  | cons e es ih =>
    have hx' : leave x ∉ es := fun hmem => hx (mem_cons_of_mem _ hmem)
    cases e with
    | enter a =>
      rw [replay] at h
      split at h
      · cases h
      · rw [append_assoc] at h
        obtain ⟨u', v', hq, hback⟩ := ih h hx'
        refine ⟨u', v', hq, fun y hy => ⟨?_, (hback y hy).2⟩⟩
        simpa using (hback y hy).1
    | leave a =>
      cases u with
      | nil =>
        -- the first one is `x` itself
        rw [nil_append, replay] at h
        split at h
        · rename_i ha
          exact absurd mem_cons_self (ha ▸ hx)
        · cases h
      | cons b u =>
        rw [cons_append, replay] at h
        split at h
        · rename_i ha
          subst ha
          obtain ⟨u', v', hq, hback⟩ := ih h hx'
          refine ⟨u', v', hq, fun y hy => ?_⟩
          obtain ⟨hya, hyu⟩ : y ≠ a ∧ y ∉ u := by simpa using hy
          refine ⟨?_, (hback y hyu).2⟩
          simpa [hya] using (hback y hyu).1
        · cases h

/-- Who is not in the queue and does not enter is not in it later. -/
theorem replay_absent {q' : List α}
    (h : replay q es = some q') (hq : x ∉ q) (hx : enter x ∉ es) : x ∉ q' := by
  induction es generalizing q with
  | nil =>
    obtain rfl : q = q' := Option.some.inj h
    exact hq
  | cons e es ih =>
    have hx' : enter x ∉ es := fun hmem => hx (mem_cons_of_mem _ hmem)
    cases e with
    | enter a =>
      have hxa : x ≠ a := by
        rintro rfl
        exact hx mem_cons_self
      rw [replay] at h
      split at h
      · cases h
      · exact ih h (by simp [hq, hxa]) hx'
    | leave a =>
      cases q with
      | nil => exact ih h hq hx'
      | cons b q =>
        rw [replay] at h
        split at h
        · exact ih h (fun hmem => hq (mem_cons_of_mem _ hmem)) hx'
        · cases h

/-- Who stands first and enters only once is gone as soon as somebody has left. -/
theorem replay_first
    (h : replay (x :: v) es = some q) (hv : x ∉ v) (hx : enter x ∉ es)
    {a : α} (ha : leave a ∈ es) : x ∉ q := by
  induction es generalizing v with
  | nil => exact absurd ha not_mem_nil
  | cons e es ih =>
    have hx' : enter x ∉ es := fun hmem => hx (mem_cons_of_mem _ hmem)
    cases e with
    | enter b =>
      have hxb : x ≠ b := by
        rintro rfl
        exact hx mem_cons_self
      rw [replay] at h
      split at h
      · cases h
      · exact ih h (by simp [hv, hxb]) hx' (by simpa using ha)
    | leave b =>
      rw [replay] at h
      split at h
      · exact replay_absent h hv hx'
      · cases h

/-- **Nobody overtakes.**  While `x` waits, nobody who entered after it is let
out. -/
theorem fair (h : replay [] es = some q) {y : α} {before mid late : List (Event α)}
    (hes : es = before ++ .enter x :: (mid ++ .enter y :: late))
    (hx : leave x ∉ mid ++ enter y :: late) : leave y ∉ late := by
  have hxm : leave x ∉ mid := fun hmem => hx (mem_append_left _ hmem)
  have hxl : leave x ∉ late := fun hmem =>
    hx (mem_append_right _ (mem_cons_of_mem _ hmem))
  rw [hes, replay_append] at h
  obtain ⟨q0, -, h⟩ := Option.bind_eq_some_iff.mp h
  rw [replay] at h
  split at h
  · cases h
  rw [replay_append] at h
  obtain ⟨q1, hq1, h⟩ := Option.bind_eq_some_iff.mp h
  obtain ⟨u, v, rfl, -⟩ := replay_stays hq1 hxm
  rw [replay] at h
  split at h
  · cases h
  · rename_i hy
    rw [append_assoc] at h
    obtain ⟨_, _, -, hback⟩ := replay_stays h hxl
    exact (hback y fun hmem => hy (mem_append_left _ hmem)).1

end FifoLog
