import Utms7.ByteMemory

/-!
# The physical page allocator

`pmm_init_region`, `pmm_alloc_page` and `pmm_free_page` of
`kernel/core/memory.c`.  The first pages of the region hold a bitmap with one bit
for each of the others; a search for a free page starts behind the page that was
found last.

`Ready` says what `pmm_init_region` sets up.  Under it each function is described
by what it does to the bits and to the rest of the memory.
-/

namespace Utms7.Pmm

open ByteMemory Nat

/-- `PMM_PAGE_SIZE`. -/
def pageSize : Nat := 4096

/-- The memory and the static variables of the allocator. -/
structure State where
  mem : Bytes
  bitmap : Nat
  base : Nat
  total : Nat
  cursor : Nat

/-- `pmm_init_region`. -/
def pmmInitRegion (s : State) (base size : Nat) : State :=
  if s.bitmap ≠ 0 then s
  else
    let b := (base + pageSize - 1) % 2 ^ 64 / pageSize * pageSize
    let e := (base + size) % 2 ^ 64 / pageSize * pageSize
    if e ≤ b then s
    else
      let pages := (e - b) / pageSize
      let bitmapBytes := (pages + 7) / 8
      let bitmapPages := (bitmapBytes + pageSize - 1) / pageSize
      if pages ≤ bitmapPages + 1 then s
      else
        { mem := blit s.mem b zeros (bitmapPages * pageSize)
          bitmap := b
          base := b + bitmapPages * pageSize
          total := pages - bitmapPages
          cursor := 0 }

/-- `(u8)(1 << (idx % 8))`. -/
def bitMask (idx : Nat) : BitVec 8 := 1#8 <<< (idx % 8)

/-- `pmm_bitmap[idx / 8] & bit`. -/
def isUsed (s : State) (idx : Nat) : Bool := s.mem (s.bitmap + idx / 8) &&& bitMask idx != 0#8

/-- `pmm_alloc_page`: the page, 0 for `NULL`, and the new state. -/
def pmmAllocPage (s : State) : Nat × State :=
  if s.bitmap = 0 then (0, s)
  else
    match (List.range s.total).find? fun i => !isUsed s ((s.cursor + i) % s.total) with
    | none => (0, s)
    | some i =>
      let idx := (s.cursor + i) % s.total
      let byte := s.bitmap + idx / 8
      let m := putByte s.mem byte (s.mem byte ||| bitMask idx)
      let p := s.base + idx * pageSize
      let m := if p = 0 then m else blit m p zeros pageSize
      (p, { s with mem := m, cursor := (idx + 1) % s.total })

/-- `pmm_free_page`. -/
def pmmFreePage (s : State) (ptr : Nat) : State :=
  if s.bitmap = 0 ∨ ptr = 0 then s
  else if ptr ≥ s.base then
    let idx := (ptr - s.base) / pageSize
    if idx < s.total then
      let byte := s.bitmap + idx / 8
      { s with mem := putByte s.mem byte (s.mem byte &&& ~~~bitMask idx) }
    else s
  else s

/-! ## What is set up -/

/-- The allocator is set up. -/
structure Ready (s : State) : Prop where
  bitmap_pos : s.bitmap ≠ 0
  -- the bits fit between the bitmap and the first page
  bits : s.bitmap + (s.total + 7) / 8 ≤ s.base
  aligned : 4096 ∣ s.base
  limit : s.base + 4096 * s.total ≤ 2 ^ 64
  cursor : s.cursor < s.total

/-- Page number `idx`. -/
def page (s : State) (idx : Nat) : Nat := s.base + 4096 * idx

theorem isUsed_eq (s : State) (idx : Nat) :
    isUsed s idx = (s.mem (s.bitmap + idx / 8)).getLsbD (idx % 8) := by
  have hlt : idx % 8 < 8 := mod_lt _ (by decide)
  have key : ∀ (x : BitVec 8) (k : Fin 8), (x &&& 1#8 <<< k.val != 0#8) = x.getLsbD k.val := by
    decide +kernel
  exact key _ ⟨idx % 8, hlt⟩

/-- What `pmm_init_region` leaves if it sets the allocator up: `lo` is where the
bitmap starts. -/
theorem pmmInitRegion_spec {s : State} {base size : Nat} (h0 : s.bitmap = 0) (hbase : base < 2 ^ 64)
    (hsize : size < 2 ^ 64) (hset : (pmmInitRegion s base size).bitmap ≠ 0) :
    Ready (pmmInitRegion s base size) ∧ base ≤ (pmmInitRegion s base size).bitmap ∧
      page (pmmInitRegion s base size) (pmmInitRegion s base size).total ≤ base + size ∧
      base + size < 2 ^ 64 ∧
      ∀ idx < (pmmInitRegion s base size).total,
        isUsed (pmmInitRegion s base size) idx = false := by
  unfold pmmInitRegion at *
  rw [if_neg (by simpa using h0)] at *
  simp only at hset ⊢
  generalize hb : (base + pageSize - 1) % 2 ^ 64 / pageSize * pageSize = b at *
  generalize he : (base + size) % 2 ^ 64 / pageSize * pageSize = e at *
  generalize hpages : (e - b) / pageSize = pages at *
  generalize hbp : ((pages + 7) / 8 + pageSize - 1) / pageSize = bitmapPages at *
  split at hset
  · exact absurd h0 hset
  rename_i hlt
  split at hset
  · exact absurd h0 hset
  rename_i hmany
  rw [if_neg hlt, if_neg hmany]
  simp only [pageSize] at *
  -- Neither end of the region wraps around.
  have hnowrap : base + size < 2 ^ 64 := by
    by_contra hwrap
    omega
  refine ⟨⟨hset, ?_, ?_, ?_, ?_⟩, ?_, ?_, hnowrap, ?_⟩
  · simp only
    omega
  · simp only
    omega
  · simp only
    omega
  · simp only
    omega
  · omega
  · simp only [page]
    omega
  · intro idx hidx
    rw [isUsed_eq]
    simp only at hidx ⊢
    rw [blit_inside (by omega) (by omega)]
    simp

/-! ## Bits and pages -/

section Steps

variable {s : State} {idx a : Nat}

/-- The bytes of the bitmap. -/
def InBitmap (s : State) (a : Nat) : Prop := s.bitmap ≤ a ∧ a < s.base

/-- The bits depend on the bitmap only. -/
theorem isUsed_congr {s' : State} (h : Ready s) (hbitmap : s'.bitmap = s.bitmap)
    (hmem : ∀ a, InBitmap s a → s'.mem a = s.mem a) (hidx : idx < s.total) :
    isUsed s' idx = isUsed s idx := by
  have hbits := h.bits
  rw [isUsed_eq, isUsed_eq, hbitmap, hmem _ ⟨by omega, by omega⟩]

theorem page_not_inBitmap (ha : page s idx ≤ a) : ¬ InBitmap s a := by
  unfold page at ha
  rintro ⟨-, hlt⟩
  omega

/-- The circular search looks at every page. -/
theorem search_none (h : Ready s)
    (hnone : (List.range s.total).find? (fun i => !isUsed s ((s.cursor + i) % s.total)) = none)
    (hidx : idx < s.total) : isUsed s idx = true := by
  have hcursor := h.cursor
  -- `idx` lies this far behind the cursor
  have hi : (s.cursor + (idx + s.total - s.cursor) % s.total) % s.total = idx := by
    rw [add_mod_mod, show s.cursor + (idx + s.total - s.cursor) = idx + s.total by omega,
      add_mod_right, mod_eq_of_lt hidx]
  have hfail := List.find?_eq_none.mp hnone ((idx + s.total - s.cursor) % s.total)
    (List.mem_range.mpr (mod_lt _ (by omega)))
  simpa [hi] using hfail

/-- What `pmm_alloc_page` does where it finds page `idx`. -/
structure Taken (s : State) (idx : Nat) (s' : State) : Prop where
  lt : idx < s.total
  free : isUsed s idx = false
  ready : Ready s'
  bitmap : s'.bitmap = s.bitmap
  base : s'.base = s.base
  total : s'.total = s.total
  used : ∀ j < s.total, isUsed s' j = if j = idx then true else isUsed s j
  zero : ∀ a, page s idx ≤ a → a < page s idx + 4096 → s'.mem a = 0#8
  other : ∀ a, ¬ InBitmap s a → ¬ (page s idx ≤ a ∧ a < page s idx + 4096) → s'.mem a = s.mem a

theorem page_ne_zero (h : Ready s) (idx : Nat) : page s idx ≠ 0 := by
  have hbits := h.bits
  have hpos := h.bitmap_pos
  unfold page
  omega

/-- **`pmm_alloc_page`** takes a free page and fills it with zeros, or there is none. -/
theorem alloc_cases (h : Ready s) {P : Nat × State → Prop}
    (hfull : (∀ idx < s.total, isUsed s idx = true) → P (0, s))
    (htaken : ∀ idx s', Taken s idx s' → P (page s idx, s')) : P (pmmAllocPage s) := by
  unfold pmmAllocPage
  rw [if_neg h.bitmap_pos]
  cases hfind : (List.range s.total).find? fun i => !isUsed s ((s.cursor + i) % s.total) with
  | none => exact hfull fun idx hidx => search_none h hfind hidx
  | some i =>
    have hcursor := h.cursor
    have hbits := h.bits
    simp only
    generalize hidxdef : (s.cursor + i) % s.total = idx
    have hidx : idx < s.total := by
      rw [← hidxdef]
      exact mod_lt _ (by omega)
    have hfree : isUsed s idx = false := by
      have := List.find?_some hfind
      rw [hidxdef] at this
      simpa using this
    have hpage : s.base + idx * pageSize = page s idx := by
      simp only [page, pageSize]
      omega
    rw [hpage, if_neg (page_ne_zero h idx)]
    refine htaken idx _ ⟨hidx, hfree, ?_, rfl, rfl, rfl, fun j hj => ?_, fun a hlo hhi => ?_,
      fun a hout hnot => ?_⟩
    · exact ⟨h.bitmap_pos, h.bits, h.aligned, h.limit, mod_lt _ (by omega)⟩
    · rw [isUsed_eq, isUsed_eq]
      simp only
      rw [blit_outside (by unfold page; omega)]
      by_cases hbyte : j / 8 = idx / 8
      · rw [hbyte, putByte_same, bitMask, getLsbD_set _ (mod_lt _ (by decide))
          (mod_lt _ (by decide))]
        by_cases hj : j = idx
        · rw [if_pos (by rw [hj]), if_pos hj]
        · rw [if_neg (by omega), if_neg hj]
      · rw [putByte_other (by omega), if_neg (by rintro rfl; exact hbyte rfl)]
    · simp only
      rw [blit_inside hlo (show a < page s idx + pageSize from hhi), zeros_apply]
    · simp only
      rw [blit_outside (by simp only [pageSize]; omega), putByte_other]
      rintro rfl
      exact hout ⟨by omega, by omega⟩

/-- What `pmm_free_page` does to page `idx`. -/
structure Freed (s : State) (idx : Nat) (s' : State) : Prop where
  ready : Ready s'
  bitmap : s'.bitmap = s.bitmap
  base : s'.base = s.base
  total : s'.total = s.total
  used : ∀ j < s.total, isUsed s' j = if j = idx then false else isUsed s j
  other : ∀ a, ¬ InBitmap s a → s'.mem a = s.mem a

/-- **`pmm_free_page`** of a page clears its bit. -/
theorem free_page (h : Ready s) (hidx : idx < s.total) :
    Freed s idx (pmmFreePage s (page s idx)) := by
  have hbits := h.bits
  have hnum : (page s idx - s.base) / pageSize = idx := by
    simp only [page, pageSize]
    omega
  have hfree : pmmFreePage s (page s idx) = { s with
      mem := putByte s.mem (s.bitmap + idx / 8)
        (s.mem (s.bitmap + idx / 8) &&& ~~~bitMask idx) } := by
    unfold pmmFreePage
    rw [if_neg (by simp [h.bitmap_pos, page_ne_zero h idx]),
      if_pos (show page s idx ≥ s.base by unfold page; omega)]
    simp only [hnum, if_pos hidx]
  rw [hfree]
  refine ⟨⟨h.bitmap_pos, h.bits, h.aligned, h.limit, h.cursor⟩, rfl, rfl, rfl, fun j hj => ?_,
    fun a hout => ?_⟩
  · rw [isUsed_eq, isUsed_eq]
    simp only
    by_cases hbyte : j / 8 = idx / 8
    · rw [hbyte, putByte_same, bitMask, getLsbD_clear _ (mod_lt _ (by decide))
        (mod_lt _ (by decide))]
      by_cases hj : j = idx
      · rw [if_pos (by rw [hj]), if_pos hj]
      · rw [if_neg (by omega), if_neg hj]
    · rw [putByte_other (by omega), if_neg (by rintro rfl; exact hbyte rfl)]
  · simp only
    rw [putByte_other]
    rintro rfl
    exact hout ⟨by omega, by omega⟩

/-- An address that is not in one of the pages is ignored. -/
theorem free_outside (ha : a < s.base ∨ page s s.total ≤ a) : pmmFreePage s a = s := by
  unfold pmmFreePage
  split
  · rfl
  split
  · rename_i hge
    have hnum : ¬ (a - s.base) / pageSize < s.total := by
      simp only [page, pageSize] at *
      omega
    simp only [if_neg hnum]
  · rfl

end Steps

end Utms7.Pmm
