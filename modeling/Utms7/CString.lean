import Utms7.ByteMemory

/-!
# C strings in byte memories

A C string is a list of non-zero bytes; in memory it is followed by a NUL.
`cstrAt` reads the string stored at an offset of a buffer of known size, and
`strcmpEq` is the test `strcmp(p, s) == 0` of a stored string against a
string held elsewhere.
-/

namespace ByteMemory

variable {m : Bytes} {off n : Nat} {s : List (BitVec 8)}

/-- The bytes of a C string, without its NUL. -/
structure CStr where
  chars : List (BitVec 8)
  noNul : 0#8 ∉ chars
deriving DecidableEq

/-- `strcmp(m + off, s) == 0`. -/
def strcmpEq (m : Bytes) (off : Nat) : List (BitVec 8) → Bool
  | [] => m off == 0#8
  | c :: cs => m off == c && strcmpEq m (off + 1) cs

/-- The string stored at `off` of a buffer with `n` bytes left there. -/
def cstrAt (m : Bytes) (off : Nat) : Nat → List (BitVec 8)
  | 0 => []
  | n + 1 => if m off = 0#8 then [] else m off :: cstrAt m (off + 1) n

/-- `strncpy(dst + off, s, n)`: the string, padded with NULs to `n` bytes. -/
def strncpy (dst : Bytes) (off : Nat) (s : List (BitVec 8)) (n : Nat) : Bytes :=
  blit dst off (fun i => s.getD i 0#8) n

/-- `strcpy(dst + off, s)`: the string and its NUL. -/
def strcpy (dst : Bytes) (off : Nat) (s : List (BitVec 8)) : Bytes :=
  blit dst off (fun i => s.getD i 0#8) (s.length + 1)

/-- Reading a string looks at its own bytes only. -/
theorem cstrAt_congr {m' : Bytes} {off' : Nat} (h : ∀ i, i < n → m (off + i) = m' (off' + i)) :
    cstrAt m off n = cstrAt m' off' n := by
  induction n generalizing off off' with
  | zero => rfl
  | succ n ih =>
    have h0 := h 0 (by omega)
    simp only [Nat.add_zero] at h0
    simp only [cstrAt, h0]
    rw [ih]
    intro i hi
    have := h (i + 1) (by omega)
    simpa [Nat.add_assoc, Nat.add_comm 1 i] using this

theorem cstrAt_noNul (m : Bytes) (off n : Nat) : 0#8 ∉ cstrAt m off n := by
  induction n generalizing off with
  | zero => simp [cstrAt]
  | succ n ih =>
    simp only [cstrAt]
    split
    · simp
    · rename_i h
      simp [ih (off + 1), Ne.symm h]

/-- Reading back a string of at most `n` bytes that a NUL follows. -/
theorem cstrAt_of_bytes (hnul : 0#8 ∉ s) (hlen : s.length < n)
    (hget : ∀ i, i ≤ s.length → m (off + i) = s.getD i 0#8) : cstrAt m off n = s := by
  induction s generalizing off n with
  | nil =>
    cases n with
    | zero => simp at hlen
    | succ n =>
      have h0 := hget 0 (by simp)
      simp only [Nat.add_zero] at h0
      simp [cstrAt, h0]
  | cons c cs ih =>
    cases n with
    | zero => simp at hlen
    | succ n =>
      have h0 := hget 0 (by simp)
      simp only [Nat.add_zero] at h0
      have hc : c ≠ 0#8 := by
        intro hc
        exact hnul (by simp [hc])
      have hcs : cstrAt m (off + 1) n = cs := by
        apply ih
        · intro hmem
          exact hnul (List.mem_cons_of_mem _ hmem)
        · simpa using hlen
        · intro i hi
          have := hget (i + 1) (by simpa using hi)
          simpa [Nat.add_assoc, Nat.add_comm 1 i] using this
      simp [cstrAt, h0, hc, hcs]

/-- A string that ends is the same for every longer limit. -/
theorem cstrAt_of_ended {n' : Nat} (hend : ∃ i, i < n ∧ m (off + i) = 0#8) (hle : n ≤ n') :
    cstrAt m off n' = cstrAt m off n := by
  induction n generalizing off n' with
  | zero =>
    omega
  | succ n ih =>
    obtain ⟨k, rfl⟩ : ∃ k, n' = k + 1 := ⟨n' - 1, by omega⟩
    simp only [cstrAt]
    split
    · rfl
    rename_i h0
    obtain ⟨i, hi, hz⟩ := hend
    cases i with
    | zero => exact absurd hz h0
    | succ i =>
      have hz' : m (off + 1 + i) = 0#8 := by
        rw [← hz]
        congr 1
        omega
      rw [ih ⟨i, by omega, hz'⟩ (by omega)]

/-- **`strcmp` compares the stored string.**  When a NUL ends the stored
string inside its buffer, the test is equality of the two strings. -/
theorem strcmpEq_iff (hnul : 0#8 ∉ s) (hend : ∃ i, i < n ∧ m (off + i) = 0#8) :
    strcmpEq m off s = true ↔ cstrAt m off n = s := by
  induction n generalizing off s with
  | zero =>
    omega
  | succ n ih =>
    by_cases h0 : m off = 0#8
    · cases s with
      | nil => simp [strcmpEq, cstrAt]
      | cons c cs =>
        have hc : ¬ (0#8 = c) := by
          intro hc
          exact hnul (by simp [← hc])
        simp [strcmpEq, cstrAt, h0, hc]
    · cases s with
      | nil => simp [strcmpEq, cstrAt]
      | cons c cs =>
        have hend' : ∃ i, i < n ∧ m (off + 1 + i) = 0#8 := by
          obtain ⟨i, hi, hz⟩ := hend
          cases i with
          | zero => exact absurd hz h0
          | succ i =>
            refine ⟨i, by omega, ?_⟩
            simpa [Nat.add_assoc, Nat.add_comm 1 i] using hz
        have hcs := ih (s := cs) (fun hmem => hnul (List.mem_cons_of_mem _ hmem)) hend'
        simp [strcmpEq, cstrAt, h0, hcs]

end ByteMemory
