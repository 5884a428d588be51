import Mathlib.Data.List.Perm.Basic
import Utms7.UfsBlocks

/-!
# The blocks of an extent list

An inode names its blocks by at most eight runs.  `blockList` is the list of
block numbers they stand for, in file order, and the functions of the driver
that work on extents are described by it: `ufs_get_block` indexes the list and
`ufs_append_block` inserts one block into it.

Insertion is not always at the end.  `ufs_append_block` extends the *first*
run the new block continues, and if that is not the last run, the block lands
in the middle of the file (`blockList_appendExtent`).
-/

namespace Utms7

open List

variable {es : List Extent} {b hi lo : Nat}

/-- The blocks an extent list stands for, in file order. -/
def blockList (es : List Extent) : List Nat :=
  es.flatMap fun e => List.range' e.start.toNat e.len.toNat

/-- Extents that lie inside `[lo, hi)` and of which the used ones come first. -/
structure ExtentsIn (lo hi : Nat) (es : List Extent) : Prop where
  inside : ∀ e ∈ es, e.len ≠ 0#32 → lo ≤ e.start.toNat ∧ e.start.toNat + e.len.toNat ≤ hi
  shaped : es.Pairwise fun e e' => e.len = 0#32 → e'.len = 0#32

@[simp] theorem blockList_nil : blockList [] = [] := rfl

@[simp] theorem blockList_cons (e : Extent) (es : List Extent) :
    blockList (e :: es) = List.range' e.start.toNat e.len.toNat ++ blockList es := rfl

theorem blockList_of_unused (h : ∀ e ∈ es, e.len = 0#32) : blockList es = [] := by
  induction es with
  | nil => rfl
  | cons e es ih =>
    have he : e.len = 0#32 := h e (by simp)
    have hes := ih fun x hx => h x (by simp [hx])
    simp [he, hes]

namespace ExtentsIn

variable {e : Extent}

theorem tail (h : ExtentsIn lo hi (e :: es)) : ExtentsIn lo hi es where
  inside x hx := h.inside x (mem_cons_of_mem _ hx)
  shaped := (pairwise_cons.mp h.shaped).2

theorem tail_blocks_nil (h : ExtentsIn lo hi (e :: es)) (he : e.len = 0#32) : blockList es = [] :=
  blockList_of_unused fun x hx => (pairwise_cons.mp h.shaped).1 x hx he

theorem unused (n : Nat) : ExtentsIn lo hi (List.replicate n ⟨0#32, 0#32⟩) where
  inside e he hlen := by
    obtain ⟨-, rfl⟩ := mem_replicate.mp he
    exact absurd rfl hlen
  shaped := by
    rw [pairwise_iff_getElem]
    intro i j hi hj _
    simp

section

variable (h : ExtentsIn lo hi es)
include h

theorem mem_bounds (hb : b ∈ blockList es) : lo ≤ b ∧ b < hi := by
  obtain ⟨e, he, hb'⟩ := mem_flatMap.mp hb
  rw [mem_range'_1] at hb'
  have hlen : e.len ≠ 0#32 := by
    intro h0
    simp [h0] at hb'
    omega
  have := h.inside e he hlen
  omega

section

variable (hhi : hi ≤ 2 ^ 32)
include hhi

/-- The loops of `ufs_free_inode_blocks` visit the blocks of the file. -/
theorem extentBlocks_eq : extentBlocks es = blockList es := by
  unfold extentBlocks blockList
  rw [flatMap_def]
  congr 1
  apply map_congr_left
  intro e he
  apply ext_getElem (by simp)
  intro j hj hj'
  have hlt : j < e.len.toNat := by simpa using hj
  have hlen : e.len ≠ 0#32 := by
    intro h0
    simp [h0] at hlt
  have hin := h.inside e he hlen
  simp only [getElem_map, getElem_range, getElem_range']
  omega

/-- **`ufs_get_block` indexes the block list**, with 0 past its end. -/
theorem getBlock_eq (idx : Nat) : ufsGetBlock es idx = (blockList es)[idx]?.getD 0 := by
  induction es generalizing idx with
  | nil => simp [ufsGetBlock]
  | cons e es ih =>
    by_cases hlen : e.len = 0#32
    · simp [ufsGetBlock, hlen, h.tail_blocks_nil hlen]
    have hin := h.inside e (by simp) hlen
    simp only [ufsGetBlock, hlen, blockList_cons]
    by_cases hidx : idx < e.len.toNat
    · have hmod : (e.start.toNat + idx) % 2 ^ 32 = e.start.toNat + idx := by omega
      rw [hmod, getElem?_append_left (by simpa using hidx)]
      simp [hidx]
    · rw [if_neg hidx, ih h.tail, getElem?_append_right (by simpa using hidx)]
      simp

/-- A mapped block number of a file is never 0, so 0 means "not mapped". -/
theorem getBlock_eq_zero_iff (hlo : 0 < lo) (idx : Nat) :
    ufsGetBlock es idx = 0 ↔ (blockList es).length ≤ idx := by
  rw [h.getBlock_eq hhi]
  constructor
  · intro h0
    by_contra hlt
    have hsome := getElem?_eq_getElem (Nat.lt_of_not_le hlt)
    have := h.mem_bounds (mem_of_getElem? hsome)
    rw [hsome, Option.getD_some] at h0
    omega
  · intro hle
    simp [getElem?_eq_none hle]

theorem getBlock_of_getElem {idx : Nat} (hb : (blockList es)[idx]? = some b) :
    ufsGetBlock es idx = b := by
  rw [h.getBlock_eq hhi, hb]
  rfl

end

end

end ExtentsIn

/-- Where `ufs_append_block` finds no place it leaves the extents alone. -/
theorem appendExtent_of_not_fits (h : appendFits es b = false) : appendExtent es b = es := by
  induction es with
  | nil => rfl
  | cons e es ih =>
    simp only [appendFits] at h
    split at h
    · simp at h
    · split at h
      · simp at h
      · rename_i h1 h2
        simp only [appendExtent, h1, h2, if_false, ih h]

theorem toNat_add_of_inside {e : Extent} (hhi : hi < 2 ^ 32)
    (h : e.start.toNat + e.len.toNat ≤ hi) :
    (e.start + e.len).toNat = e.start.toNat + e.len.toNat := by
  rw [BitVec.toNat_add]
  omega

section

variable (h : ExtentsIn lo hi es) (hhi : hi < 2 ^ 32)
include h hhi

/-- **`ufs_append_block` inserts one block.**  It keeps the order of the
blocks that were there, but the new block need not come last. -/
theorem blockList_appendExtent (hb : b < hi) (hfits : appendFits es b = true) :
    ∃ before after, blockList es = before ++ after ∧
      blockList (appendExtent es b) = before ++ b :: after := by
  induction es with
  | nil => simp [appendFits] at hfits
  | cons e es ih =>
    by_cases hlen : e.len = 0#32
    · refine ⟨[], blockList es, by simp [hlen], ?_⟩
      have hmod : b % 4294967296 = b := by omega
      simp [appendExtent, hlen, hmod]
    have hin := h.inside e (by simp) hlen
    have hsum := toNat_add_of_inside hhi hin.2
    by_cases hnext : (e.start + e.len).toNat = b
    · refine ⟨List.range' e.start.toNat e.len.toNat, blockList es, rfl, ?_⟩
      have hlen' : (e.len + 1#32).toNat = e.len.toNat + 1 := by
        rw [BitVec.toNat_add]
        simp only [BitVec.toNat_ofNat]
        omega
      rw [hsum] at hnext
      simp only [appendExtent, hlen, if_false, hsum, hnext, if_true, blockList_cons, hlen',
        range'_concat, Nat.one_mul, append_assoc, cons_append, nil_append]
    · have hfits' : appendFits es b = true := by
        simpa only [appendFits, hlen, hnext, if_false] using hfits
      obtain ⟨before, after, hold, hnew⟩ := ih h.tail hfits'
      refine ⟨List.range' e.start.toNat e.len.toNat ++ before, after, ?_, ?_⟩
      · simp [hold]
      · simp only [appendExtent, hlen, hnext, if_false, blockList_cons, hnew, append_assoc]

theorem blockList_appendExtent_perm (hb : b < hi) (hfits : appendFits es b = true) :
    (blockList (appendExtent es b)).Perm (b :: blockList es) := by
  obtain ⟨before, after, hold, hnew⟩ := blockList_appendExtent h hhi hb hfits
  rw [hold, hnew]
  exact perm_middle

/-- The extents stay inside the data area and in shape. -/
theorem ExtentsIn.append (hlo : lo ≤ b) (hb : b < hi) : ExtentsIn lo hi (appendExtent es b) := by
  induction es with
  | nil => exact h
  | cons e es ih =>
    obtain ⟨hhead, htail⟩ := pairwise_cons.mp h.shaped
    by_cases hlen : e.len = 0#32
    · refine ⟨?_, ?_⟩
      · intro x hx hx0
        simp only [appendExtent, hlen, if_true, mem_cons] at hx
        rcases hx with rfl | hx
        · simp only [BitVec.toNat_ofNat]
          omega
        · exact h.inside x (by simp [hx]) hx0
      · simp only [appendExtent, hlen]
        refine pairwise_cons.mpr ⟨?_, htail⟩
        intro x hx _
        exact hhead x hx hlen
    · have hin := h.inside e (by simp) hlen
      have hsum := toNat_add_of_inside hhi hin.2
      by_cases hnext : (e.start + e.len).toNat = b
      · have hlen' : (e.len + 1#32).toNat = e.len.toNat + 1 := by
          rw [BitVec.toNat_add]
          simp only [BitVec.toNat_ofNat]
          omega
        refine ⟨?_, ?_⟩
        · intro x hx hx0
          simp only [appendExtent, hlen, if_false, hnext, if_true, mem_cons] at hx
          rcases hx with rfl | hx
          · simp only [hlen']
            omega
          · exact h.inside x (by simp [hx]) hx0
        · simp only [appendExtent, hlen, hnext]
          refine pairwise_cons.mpr ⟨?_, htail⟩
          intro x _ h0
          have h0' := congrArg BitVec.toNat h0
          rw [hlen'] at h0'
          simp at h0'
      · have hrec := ih h.tail
        refine ⟨?_, ?_⟩
        · intro x hx hx0
          simp only [appendExtent, hlen, if_false, hnext, mem_cons] at hx
          rcases hx with rfl | hx
          · exact hin
          · exact hrec.inside x hx hx0
        · simp only [appendExtent, hlen, hnext]
          exact pairwise_cons.mpr ⟨fun _ _ h0 => absurd h0 hlen, hrec.shaped⟩

end

end Utms7
