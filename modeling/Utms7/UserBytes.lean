import Mathlib.Algebra.GroupWithZero.Nat
import Utms7.UserMemory

/-!
# Bytes in pages

The bytes of a page of 512 words, and the bytes that a process sees at its addresses.
`memcpy` is a run of stores of single bytes.
-/

namespace Utms7.Paging

open Radix BitVec

/-- A page has 512 words. -/
instance pageWords_neZero : NeZero 512 := ⟨by decide⟩

/-- The byte at an offset in a page. -/
def getByte (table : Index → Entry) (off : Nat) : BitVec 8 :=
  (table (Fin.ofNat 512 (off / 8))).extractLsb' (8 * (off % 8)) 8

/-- A byte is stored in a page. -/
def setByte (table : Index → Entry) (off : Nat) (v : BitVec 8) : Index → Entry :=
  Function.update table (Fin.ofNat 512 (off / 8))
    ((table (Fin.ofNat 512 (off / 8)) &&& ~~~(0xFF#64 <<< (8 * (off % 8)))) |||
      (v.setWidth 64 <<< (8 * (off % 8))))

/-- `memcpy` of `n` bytes into a page at `dst`. -/
def copyBytes (table : Index → Entry) (dst : Nat) (data : Nat → BitVec 8) : Nat → Index → Entry
  | 0 => table
  | n + 1 => setByte (copyBytes table dst data n) (dst + n) (data n)

/-- The byte that the process with the given tables has at an address. -/
def userByte (s : Machine) (root : Frame) (virt : BitVec 64) : Option (BitVec 8) :=
  (translate s.mem root virt).map fun p => getByte (s.mem p.frame) (virt.toNat % 4096)

/-- A store of one byte at an address; `none` stands for a fault. -/
def pokeByte (s : Machine) (root : Frame) (virt : BitVec 64) (v : BitVec 8) : Option Machine :=
  if canonical virt then
    (translate s.mem root virt).map fun p =>
      { s with mem := fill s.mem p.frame (setByte (s.mem p.frame) (virt.toNat % 4096) v) }
  else none

theorem getLsbD_setByte_word {x : Entry} {v : BitVec 8} {k : Nat} {i : Nat} (hi : i < 64) :
    ((x &&& ~~~(0xFF#64 <<< (8 * k))) ||| (v.setWidth 64 <<< (8 * k))).getLsbD i =
      if i / 8 = k then v.getLsbD (i % 8) else x.getLsbD i := by
  have hff : ∀ j, (0xFF#64).getLsbD j = decide (j < 8) := by
    intro j
    by_cases hj : j < 64
    · revert j
      decide
    · rw [getLsbD_of_ge _ _ (not_lt.mp hj)]
      exact (decide_eq_false (by omega)).symm
  rw [getLsbD_or, getLsbD_and, getLsbD_not, getLsbD_shiftLeft,
    getLsbD_shiftLeft, hff]
  by_cases hlow : i < 8 * k
  · have hne : i / 8 ≠ k := by omega
    simp [hlow, hne, hi]
  by_cases hin : i < 8 * k + 8
  · have heq : i / 8 = k := by omega
    have hmod : i - 8 * k = i % 8 := by omega
    have h8 : i % 8 < 8 := Nat.mod_lt i (by decide)
    have h64 : i % 8 < 64 := by omega
    simp [hlow, heq, hi, hmod, h8, h64]
  · have hne : i / 8 ≠ k := by omega
    have h8 : ¬i - 8 * k < 8 := by omega
    have hbit : v.getLsbD (i - 8 * k) = false := getLsbD_of_ge v _ (not_lt.mp h8)
    simp [hne, hi, h8, hbit]

/-- **A store changes one byte.** -/
theorem getByte_setByte (table : Index → Entry) {off off' : Nat} (hoff : off < 4096)
    (hoff' : off' < 4096) (v : BitVec 8) :
    getByte (setByte table off v) off' = if off' = off then v else getByte table off' := by
  have hword : ∀ o, o < 4096 → (Fin.ofNat 512 (o / 8) : Index).val = o / 8 := by
    intro o ho
    exact Nat.mod_eq_of_lt (by omega)
  unfold getByte setByte
  by_cases hsame : off' / 8 = off / 8
  · rw [hsame, Function.update_self]
    refine eq_of_getLsbD_eq fun i hi => ?_
    have hindex : (8 * (off' % 8) + i) / 8 = off' % 8 := by omega
    have hbit : (8 * (off' % 8) + i) % 8 = i := by omega
    rw [getLsbD_extractLsb', getLsbD_setByte_word (by omega), hindex, hbit, decide_eq_true hi,
      Bool.true_and]
    by_cases heq : off' = off
    · rw [if_pos heq, heq, if_pos rfl]
    · rw [if_neg heq, if_neg (by omega), getLsbD_extractLsb', decide_eq_true hi, Bool.true_and]
  · have hne : (Fin.ofNat 512 (off' / 8) : Index) ≠ Fin.ofNat 512 (off / 8) := by
      intro heq
      have hval := congrArg Fin.val heq
      rw [hword off' hoff', hword off hoff] at hval
      exact hsame hval
    rw [Function.update_of_ne hne, if_neg (fun heq => hsame (by rw [heq]))]

theorem getByte_emptyTable (off : Nat) : getByte emptyTable off = 0#8 := by
  refine eq_of_getLsbD_eq fun i hi => ?_
  rw [getByte, emptyTable, getLsbD_extractLsb', getLsbD_zero, getLsbD_zero, Bool.and_false]

/-- **A copy into a page.** -/
theorem getByte_copyBytes (table : Index → Entry) {dst n : Nat} (hfit : dst + n ≤ 4096)
    (data : Nat → BitVec 8) {off : Nat} (hoff : off < 4096) :
    getByte (copyBytes table dst data n) off =
      if dst ≤ off ∧ off < dst + n then data (off - dst) else getByte table off := by
  induction n with
  | zero =>
    rw [if_neg (by omega)]
    rfl
  | succ n ih =>
    rw [copyBytes, getByte_setByte _ (by omega) hoff, ih (by omega)]
    by_cases hlast : off = dst + n
    · rw [if_pos hlast, if_pos (by omega), hlast, Nat.add_sub_cancel_left]
    · by_cases hin : dst ≤ off ∧ off < dst + n
      · rw [if_neg hlast, if_pos hin, if_pos (by omega)]
      · rw [if_neg hlast, if_neg hin, if_neg (by omega)]

end Utms7.Paging
