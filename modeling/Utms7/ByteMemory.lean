import Mathlib.Algebra.Group.Int.Defs
import Mathlib.Algebra.Group.Nat.Defs
import Mathlib.Data.List.Basic

/-!
# Byte memories and little-endian records

A storage device, a block buffer and a packed C structure are all the same
thing here: a total map from byte offsets to bytes.  The three operations a
block driver performs on such memories are

* `blit`   -- `memcpy` into the middle of a memory;
* `window` -- the bytes of one block, read as a memory of its own;
* `getU32` / `bytesOfWords` -- the little-endian view of a run of words.

Every lemma below says either that a read sees the bytes written last, or
that a read of a disjoint range does not see a write at all.  Nothing in this
file knows what the bytes stand for.
-/

namespace ByteMemory

open List

/-- A memory of bytes; offsets outside the object it stands for are unused. -/
abbrev Bytes := Nat → BitVec 8

/-- The memory that `memset(_, 0, _)` leaves. -/
def zeros : Bytes := fun _ => 0#8

/-- `memcpy(dst + off, src, n)`. -/
def blit (dst : Bytes) (off : Nat) (src : Bytes) (n : Nat) : Bytes :=
  fun i => if off ≤ i ∧ i < off + n then src (i - off) else dst i

/-- One byte stored at `off`. -/
def putByte (dst : Bytes) (off : Nat) (v : BitVec 8) : Bytes :=
  fun i => if i = off then v else dst i

/-- The `n` bytes starting at `off`, as a memory that is zero past them. -/
def window (m : Bytes) (off n : Nat) : Bytes :=
  fun i => if i < n then m (off + i) else 0#8

/-- Byte `k` of a little-endian word. -/
def byteOf (w : BitVec 32) (k : Nat) : BitVec 8 :=
  BitVec.ofNat 8 (w.toNat / 256 ^ k)

/-- The little-endian word stored at `off`. -/
def getU32 (m : Bytes) (off : Nat) : BitVec 32 :=
  BitVec.ofNat 32 ((m off).toNat + 256 * (m (off + 1)).toNat
    + 65536 * (m (off + 2)).toNat + 16777216 * (m (off + 3)).toNat)

/-- The little-endian half word stored at `off`. -/
def getU16 (m : Bytes) (off : Nat) : BitVec 16 := m (off + 1) ++ m off

/-- The little-endian double word stored at `off`. -/
def getU64 (m : Bytes) (off : Nat) : BitVec 64 := getU32 m (off + 4) ++ getU32 m off

/-- The bytes of a run of little-endian words. -/
def bytesOfWords (ws : List (BitVec 32)) : Bytes :=
  fun i => byteOf (ws.getD (i / 4) 0#32) (i % 4)

/-- The `n` words stored from `off` on. -/
def wordsAt (m : Bytes) (off n : Nat) : List (BitVec 32) :=
  (List.range n).map (fun k => getU32 m (off + 4 * k))

/-- A word stored at `off`. -/
def putU32 (dst : Bytes) (off : Nat) (w : BitVec 32) : Bytes :=
  blit dst off (bytesOfWords [w]) 4

variable {dst src m m' : Bytes} {off n i off' len base size j : Nat} {v : BitVec 8} {w : BitVec 32}

theorem blit_inside (hlo : off ≤ i) (hhi : i < off + n) : blit dst off src n i = src (i - off) := by
  simp [blit, hlo, hhi]

theorem blit_outside (h : i < off ∨ off + n ≤ i) : blit dst off src n i = dst i := by
  have hn : ¬ (off ≤ i ∧ i < off + n) := by omega
  simp [blit, hn]

@[simp] theorem putByte_same (dst : Bytes) (off : Nat) (v : BitVec 8) :
    putByte dst off v off = v := by
  simp [putByte]

theorem putByte_other (h : i ≠ off) : putByte dst off v i = dst i := by
  simp [putByte, h]

theorem window_apply (h : i < n) : window m off n i = m (off + i) := by
  simp [window, h]

@[simp] theorem zeros_apply (i : Nat) : zeros i = 0#8 := rfl

@[simp] theorem window_zeros (off n : Nat) : window zeros off n = zeros := by
  funext i
  simp [window]

/-- A word depends on its own four bytes only. -/
theorem getU32_congr (h : ∀ k, k < 4 → m (off + k) = m' (off' + k)) :
    getU32 m off = getU32 m' off' := by
  have h0 := h 0 (by omega)
  have h1 := h 1 (by omega)
  have h2 := h 2 (by omega)
  have h3 := h 3 (by omega)
  simp only [Nat.add_zero] at h0
  simp only [getU32, h0, h1, h2, h3]

@[simp] theorem getU32_zeros (off : Nat) : getU32 zeros off = 0#32 := by
  simp [getU32]

/-- The four bytes of a word determine it. -/
theorem getU32_of_bytes (h : ∀ k, k < 4 → m (off + k) = byteOf w k) : getU32 m off = w := by
  have h0 := h 0 (by omega)
  have h1 := h 1 (by omega)
  have h2 := h 2 (by omega)
  have h3 := h 3 (by omega)
  simp only [Nat.add_zero] at h0
  apply BitVec.eq_of_toNat_eq
  simp only [getU32, h0, h1, h2, h3, byteOf, BitVec.toNat_ofNat]
  omega

/-- Reading word `k` of a run of words gives that word. -/
theorem getU32_bytesOfWords (ws : List (BitVec 32)) (k : Nat) :
    getU32 (bytesOfWords ws) (4 * k) = ws.getD k 0#32 := by
  apply getU32_of_bytes
  intro i hi
  have hdiv : (4 * k + i) / 4 = k := by omega
  have hmod : (4 * k + i) % 4 = i := by omega
  simp [bytesOfWords, hdiv, hmod]

/-- A word inside a copied range is the word of the source. -/
theorem getU32_blit_inside (hlo : off ≤ i) (hhi : i + 4 ≤ off + n) :
    getU32 (blit dst off src n) i = getU32 src (i - off) := by
  apply getU32_congr
  intro k hk
  rw [blit_inside (by omega) (by omega)]
  congr 1
  omega

/-- A word outside a copied range is unchanged. -/
theorem getU32_blit_outside (h : i + 4 ≤ off ∨ off + n ≤ i) :
    getU32 (blit dst off src n) i = getU32 dst i := by
  apply getU32_congr
  intro k hk
  exact blit_outside (by omega)

theorem getU32_putByte_other (h : off < i ∨ i + 4 ≤ off) :
    getU32 (putByte dst off v) i = getU32 dst i := by
  apply getU32_congr
  intro k hk
  exact putByte_other (by omega)

@[simp] theorem getU32_putU32 (dst : Bytes) (off : Nat) (w : BitVec 32) :
    getU32 (putU32 dst off w) off = w := by
  rw [putU32, getU32_blit_inside (Nat.le_refl _) (Nat.le_refl _)]
  simpa using getU32_bytesOfWords [w] 0

theorem getU32_putU32_other (h : i + 4 ≤ off ∨ off + 4 ≤ i) :
    getU32 (putU32 dst off w) i = getU32 dst i :=
  getU32_blit_outside h

theorem putU32_outside (h : i < off ∨ off + 4 ≤ i) : putU32 dst off w i = dst i :=
  blit_outside h

@[simp] theorem wordsAt_length (m : Bytes) (off n : Nat) : (wordsAt m off n).length = n := by
  simp [wordsAt]

/-- Runs of words that agree byte for byte are equal. -/
theorem wordsAt_congr (h : ∀ i, i < 4 * n → m (off + i) = m' (off' + i)) :
    wordsAt m off n = wordsAt m' off' n := by
  apply map_congr_left
  intro k hk
  have hk' : k < n := mem_range.mp hk
  apply getU32_congr
  intro j hj
  simpa [Nat.add_assoc] using h (4 * k + j) (by omega)

/-- **Record round trip.**  Words copied to `off` are the words read there. -/
theorem wordsAt_blit_bytesOfWords {ws : List (BitVec 32)} (hlen : ws.length = n) :
    wordsAt (blit dst off (bytesOfWords ws) (4 * n)) off n = ws := by
  apply ext_getElem (by simp [hlen])
  intro k hk hk'
  simp only [wordsAt, getElem_map, getElem_range]
  rw [getU32_blit_inside (by omega) (by omega), Nat.add_sub_cancel_left, getU32_bytesOfWords]
  simp [getElem?_eq_getElem hk']

/-- Words outside a copied range are unchanged. -/
theorem wordsAt_blit_outside (h : i + 4 * n ≤ off ∨ off + len ≤ i) :
    wordsAt (blit dst off src len) i n = wordsAt dst i n :=
  wordsAt_congr fun _ _ => blit_outside (by omega)

theorem wordsAt_window {k : Nat} (h : i + 4 * k ≤ n) :
    wordsAt (window m off n) i k = wordsAt m (off + i) k := by
  apply wordsAt_congr
  intro j hj
  rw [window_apply (by omega), Nat.add_assoc]

/-- A block written whole is the block read back. -/
theorem window_blit_same (dst src : Bytes) (off n : Nat) :
    window (blit dst off src n) off n = window src 0 n := by
  funext i
  by_cases hi : i < n
  · rw [window_apply hi, window_apply hi, blit_inside (by omega) (by omega)]
    congr 1
    omega
  · simp [window, hi]

/-- A block disjoint from the written range is unchanged. -/
theorem window_blit_outside (h : i + len ≤ off ∨ off + n ≤ i) :
    window (blit dst off src n) i len = window dst i len := by
  funext j
  by_cases hj : j < len
  · rw [window_apply hj, window_apply hj, blit_outside (by omega)]
  · simp [window, hj]

/-- Patching a copy of a block and writing the block back patches the memory:
the read-modify-write cycle of a block driver changes the patched bytes only. -/
theorem blit_window_blit (h : off + n ≤ size) :
    blit m base (blit (window m base size) off src n) size = blit m (base + off) src n := by
  funext i
  by_cases hin : base ≤ i ∧ i < base + size
  · rw [blit_inside hin.1 hin.2]
    by_cases hp : off ≤ i - base ∧ i - base < off + n
    · rw [blit_inside hp.1 hp.2, blit_inside (by omega) (by omega)]
      congr 1
      omega
    · rw [blit_outside (by omega), blit_outside (by omega), window_apply (by omega)]
      congr 1
      omega
  · rw [blit_outside (by omega), blit_outside (by omega)]

theorem blit_window_putByte (h : off < size) :
    blit m base (putByte (window m base size) off v) size = putByte m (base + off) v := by
  funext i
  by_cases hin : base ≤ i ∧ i < base + size
  · rw [blit_inside hin.1 hin.2]
    by_cases hp : i = base + off
    · subst hp
      simp [putByte]
    · rw [putByte_other (by omega), putByte_other hp, window_apply (by omega)]
      congr 1
      omega
  · rw [blit_outside (by omega), putByte_other (by omega)]

/-- A block that does not hold the patched byte is unchanged. -/
theorem window_putByte_outside (h : off < i ∨ i + len ≤ off) :
    window (putByte m off v) i len = window m i len := by
  funext j
  by_cases hj : j < len
  · rw [window_apply hj, window_apply hj, putByte_other (by omega)]
  · simp [window, hj]

theorem wordsAt_putByte_outside (h : off < i ∨ i + 4 * n ≤ off) :
    wordsAt (putByte m off v) i n = wordsAt m i n :=
  wordsAt_congr fun _ _ => putByte_other (by omega)

/-! ## Bits of a byte -/

theorem getLsbD_set (x : BitVec 8) (hi : i < 8) (hj : j < 8) :
    (x ||| (1#8 <<< i)).getLsbD j = if j = i then true else x.getLsbD j := by
  simp only [BitVec.getLsbD_or, BitVec.getLsbD_shiftLeft, hj, decide_true]
  by_cases hji : j = i
  · subst hji
    simp
  · rw [if_neg hji]
    by_cases hlt : j < i
    · simp [hlt]
    · have : j - i ≠ 0 := by omega
      simp [this]

theorem getLsbD_clear (x : BitVec 8) (hi : i < 8) (hj : j < 8) :
    (x &&& ~~~(1#8 <<< i)).getLsbD j = if j = i then false else x.getLsbD j := by
  simp only [BitVec.getLsbD_and, BitVec.getLsbD_not, BitVec.getLsbD_shiftLeft, hj, decide_true]
  by_cases hji : j = i
  · subst hji
    simp
  · rw [if_neg hji]
    by_cases hlt : j < i
    · simp [hlt]
    · have : j - i ≠ 0 := by omega
      simp [this]

/-! ## 64-bit words -/

/-- The little-endian 64-bit word stored at `off`. -/
def load64 (m : Bytes) (off : Nat) : Nat :=
  (getU32 m off).toNat + 2 ^ 32 * (getU32 m (off + 4)).toNat

/-- A 64-bit word stored at `off`. -/
def store64 (m : Bytes) (off v : Nat) : Bytes :=
  putU32 (putU32 m off (BitVec.ofNat 32 v)) (off + 4) (BitVec.ofNat 32 (v / 2 ^ 32))

@[simp] theorem load64_store64 (m : Bytes) (off v : Nat) :
    load64 (store64 m off v) off = v % 2 ^ 64 := by
  unfold load64 store64
  rw [getU32_putU32_other (by omega), getU32_putU32, getU32_putU32, BitVec.toNat_ofNat,
    BitVec.toNat_ofNat]
  omega

theorem store64_outside {v : Nat} (h : i < off ∨ off + 8 ≤ i) : store64 m off v i = m i := by
  unfold store64
  rw [putU32_outside (by omega), putU32_outside (by omega)]

/-- A word depends on its own eight bytes only. -/
theorem load64_congr (h : ∀ k, k < 8 → m (off + k) = m' (off + k)) :
    load64 m off = load64 m' off := by
  have hlo : getU32 m off = getU32 m' off := getU32_congr fun k hk => h k (by omega)
  have hhi : getU32 m (off + 4) = getU32 m' (off + 4) := getU32_congr fun k hk => by
    simpa [Nat.add_assoc] using h (4 + k) (by omega)
  rw [load64, load64, hlo, hhi]

theorem load64_store64_other {v : Nat} (h : i + 8 ≤ off ∨ off + 8 ≤ i) :
    load64 (store64 m off v) i = load64 m i :=
  load64_congr fun _ _ => store64_outside (by omega)

theorem load64_putByte_other (h : off < i ∨ i + 8 ≤ off) :
    load64 (putByte m off v) i = load64 m i :=
  load64_congr fun _ _ => putByte_other (by omega)

theorem load64_lt (m : Bytes) (off : Nat) : load64 m off < 2 ^ 64 := by
  unfold load64
  omega

/-! ## Sums and masks -/

theorem toNat_add_ofNat {w : Nat} {x : BitVec w} (h : x.toNat + n < 2 ^ w) :
    (x + BitVec.ofNat w n).toNat = x.toNat + n := by
  rw [BitVec.toNat_add, BitVec.toNat_ofNat, Nat.mod_eq_of_lt (a := n) (by omega),
    Nat.mod_eq_of_lt h]

/-- Bit `i` of a mask of `n` low bits. -/
theorem getLsbD_mask {w : Nat} (n i : Nat) :
    (BitVec.ofNat w (2 ^ n - 1)).getLsbD i = (decide (i < w) && decide (i < n)) := by
  rw [BitVec.getLsbD_ofNat, Nat.testBit_two_pow_sub_one]

/-- The low `n` bits are cleared. -/
theorem toNat_and_not_low {w : Nat} (x : BitVec w) (n : Nat) :
    (x &&& ~~~BitVec.ofNat w (2 ^ n - 1)).toNat = x.toNat / 2 ^ n * 2 ^ n := by
  have hshift : x &&& ~~~BitVec.ofNat w (2 ^ n - 1) = (x >>> n) <<< n := by
    refine BitVec.eq_of_getLsbD_eq fun i hi => ?_
    rw [BitVec.getLsbD_and, BitVec.getLsbD_not, BitVec.getLsbD_shiftLeft, getLsbD_mask]
    by_cases h : i < n
    · simp [h]
    · have h1 : n + (i - n) = i := by omega
      simp [h, hi, h1]
  rw [hshift, BitVec.toNat_shiftLeft, BitVec.toNat_ushiftRight, Nat.shiftRight_eq_div_pow,
    Nat.shiftLeft_eq]
  exact Nat.mod_eq_of_lt (Nat.lt_of_le_of_lt (Nat.div_mul_le_self _ _) x.isLt)

end ByteMemory
