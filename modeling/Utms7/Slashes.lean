import Mathlib.Data.List.Basic

/-!
# Words between separators

The words of a text: the longest pieces without a separator in them.  Separators at
either end and repeated ones make no words of their own, so two texts that are put
together with a separator between them have the words of both.
-/

namespace Slashes

open List

variable {α : Type*} [DecidableEq α] {sep : α} {s w word : List α} {ws : List (List α)}

/-- A word that is finished, unless it is empty. -/
def finish : List α → List (List α) → List (List α)
  | [], rest => rest
  | c :: word, rest => (c :: word) :: rest

/-- The words of a text whose first word has begun already. -/
def wordsFrom (sep : α) (word : List α) : List α → List (List α)
  | [] => finish word []
  | c :: s => if c = sep then finish word (wordsFrom sep [] s) else wordsFrom sep (word ++ [c]) s

/-- The words of a text. -/
def words (sep : α) (s : List α) : List (List α) := wordsFrom sep [] s

@[simp] theorem words_sep_cons : words sep (sep :: s) = words sep s := by
  rw [words, wordsFrom, if_pos rfl]
  rfl

omit [DecidableEq α] in
theorem finish_append (word : List α) (xs ys : List (List α)) :
    finish word xs ++ ys = finish word (xs ++ ys) := by
  cases word with
  | nil => rfl
  | cons c word => rfl

theorem wordsFrom_append_sep (word a b : List α) :
    wordsFrom sep word (a ++ sep :: b) = wordsFrom sep word a ++ words sep b := by
  induction a generalizing word with
  | nil =>
    have hnil : wordsFrom sep word [] = finish word [] := rfl
    rw [nil_append, hnil, finish_append, wordsFrom, if_pos rfl]
    rfl
  | cons c a ih =>
    rw [cons_append, wordsFrom, wordsFrom]
    split
    · rw [ih, finish_append]
    · exact ih (word ++ [c])

/-- **Two texts with a separator between them.** -/
theorem words_append_sep (a b : List α) :
    words sep (a ++ sep :: b) = words sep a ++ words sep b := wordsFrom_append_sep [] a b

/-- Separators in front do not count. -/
theorem words_dropWhile (s : List α) : words sep (s.dropWhile (· = sep)) = words sep s := by
  induction s with
  | nil => rfl
  | cons c s ih =>
    by_cases hc : c = sep
    · subst hc
      rw [dropWhile_cons_of_pos (by simp), ih, words_sep_cons]
    · rw [dropWhile_cons_of_neg (by simpa using hc)]

theorem wordsFrom_of_not_mem (hs : sep ∉ s) : wordsFrom sep word s = finish (word ++ s) [] := by
  induction s generalizing word with
  | nil => rw [wordsFrom, append_nil]
  | cons c s ih =>
    have hc : c ≠ sep := fun h => hs (h ▸ mem_cons_self)
    have hrest : sep ∉ s := fun h => hs (mem_cons_of_mem c h)
    rw [wordsFrom, if_neg hc, ih hrest, append_assoc, singleton_append]

theorem words_word (hne : s ≠ []) (hs : sep ∉ s) : words sep s = [s] := by
  rw [words, wordsFrom_of_not_mem hs]
  cases s with
  | nil => exact absurd rfl hne
  | cons c s => rfl

theorem mem_wordsFrom (hword : sep ∉ word) (hw : w ∈ wordsFrom sep word s) : w ≠ [] ∧ sep ∉ w := by
  have hfinish : ∀ {word : List α} {rest : List (List α)}, sep ∉ word →
      (w ∈ rest → w ≠ [] ∧ sep ∉ w) → w ∈ finish word rest → w ≠ [] ∧ sep ∉ w := by
    intro word rest hword hrest hmem
    cases word with
    | nil => exact hrest hmem
    | cons c word =>
      rcases mem_cons.mp hmem with rfl | hmem
      · exact ⟨cons_ne_nil c word, hword⟩
      · exact hrest hmem
  induction s generalizing word with
  | nil => exact hfinish hword (fun h => absurd h not_mem_nil) hw
  | cons c s ih =>
    rw [wordsFrom] at hw
    split at hw
    · exact hfinish hword (ih not_mem_nil) hw
    rename_i hc
    refine ih ?_ hw
    intro hmem
    rcases mem_append.mp hmem with h | h
    · exact hword h
    · exact hc (mem_singleton.mp h).symm

theorem mem_words (hw : w ∈ words sep s) : w ≠ [] ∧ sep ∉ w :=
  mem_wordsFrom not_mem_nil hw

/-- The text of some words, a separator in front of each. -/
def join (sep : α) (ws : List (List α)) : List α := ws.flatMap fun w => sep :: w

omit [DecidableEq α] in
theorem join_cons (w : List α) (ws : List (List α)) :
    join sep (w :: ws) = sep :: (w ++ join sep ws) := by
  rfl

omit [DecidableEq α] in
theorem length_join_finish (sep : α) (word : List α) (rest : List (List α)) :
    (join sep (finish word rest)).length ≤ word.length + 1 + (join sep rest).length := by
  cases word with
  | nil => exact Nat.le_add_left _ _
  | cons c word =>
    rw [finish, join_cons, length_cons, length_append]
    omega

theorem length_join_wordsFrom (sep : α) (word s : List α) :
    (join sep (wordsFrom sep word s)).length ≤ word.length + s.length + 1 := by
  induction s generalizing word with
  | nil => exact length_join_finish sep word []
  | cons c s ih =>
    rw [wordsFrom, length_cons]
    split
    · have hfinish := length_join_finish sep word (wordsFrom sep [] s)
      have hrest := ih []
      rw [length_nil] at hrest
      omega
    · have hrest := ih (word ++ [c])
      rw [length_append, length_singleton] at hrest
      omega

/-- The words of a text make no longer text, up to a separator in front. -/
theorem length_join_words (sep : α) (s : List α) :
    (join sep (words sep s)).length ≤ s.length + 1 := by
  have h := length_join_wordsFrom sep [] s
  rwa [length_nil, Nat.zero_add] at h

omit [DecidableEq α] in
theorem length_le_join (sep : α) (hw : w ∈ ws) : w.length + 1 ≤ (join sep ws).length := by
  induction ws with
  | nil => cases hw
  | cons v ws ih =>
    rw [join_cons, length_cons, length_append]
    rcases mem_cons.mp hw with rfl | hmem
    · omega
    · have := ih hmem
      omega

/-- **A text that is made of words** has these words. -/
theorem words_join (hws : ∀ w ∈ ws, w ≠ [] ∧ sep ∉ w) : words sep (join sep ws) = ws := by
  induction ws with
  | nil => rfl
  | cons w ws ih =>
    obtain ⟨hne, hsep⟩ := hws w mem_cons_self
    have hrest := ih fun v hv => hws v (mem_cons_of_mem w hv)
    rw [join_cons, words_sep_cons]
    cases ws with
    | nil => exact (congrArg (words sep) (append_nil w)).trans (words_word hne hsep)
    | cons v vs =>
      rw [join_cons, words_sep_cons] at hrest
      rw [join_cons, words_append_sep, words_word hne hsep, hrest, singleton_append]

end Slashes
