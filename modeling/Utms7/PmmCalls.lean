import Mathlib.Data.List.Perm.Basic
import Utms7.Pmm
import Utms7.Runs

/-!
# Histories of calls on the page allocator

Pages are allocated and freed, and their users write to them; nobody writes to
the bitmap.  The pages that are outstanding are then those whose bit is set.
-/

namespace Utms7.Pmm

open ByteMemory

/-- The allocator and the pages that were returned and not freed since. -/
structure Run where
  state : State
  out : List Nat

inductive Call where
  | alloc
  | free (ptr : Nat)
  -- a user of the memory stores a byte
  | write (addr : Nat) (x : BitVec 8)

open Call

namespace Call

def run (r : Run) : Call → Run
  | alloc =>
    let a := pmmAllocPage r.state
    { state := a.2, out := if a.1 = 0 then r.out else a.1 :: r.out }
  | free ptr => { state := pmmFreePage r.state ptr, out := r.out.erase ptr }
  | write addr x => { r with state := { r.state with mem := putByte r.state.mem addr x } }

/-- Outstanding pages are freed, and the bitmap is not written to. -/
def Legal (r : Run) : Call → Prop
  | alloc => True
  | free ptr => ptr ∈ r.out
  | write addr _ => ¬ InBitmap r.state addr

end Call

/-- What the next `pmm_alloc_page` returns, for a region `[base, base + size)`. -/
structure AllocRight (base size : Nat) (r : Run) : Prop where
  null_iff : (pmmAllocPage r.state).1 = 0 ↔ ∀ idx < r.state.total, page r.state idx ∈ r.out
  aligned : 4096 ∣ (pmmAllocPage r.state).1
  inside : (pmmAllocPage r.state).1 ≠ 0 →
    base ≤ (pmmAllocPage r.state).1 ∧ (pmmAllocPage r.state).1 + 4096 ≤ base + size
  off_bitmap : (pmmAllocPage r.state).1 ≠ 0 → ∀ i < 4096,
    ¬ InBitmap r.state ((pmmAllocPage r.state).1 + i)
  apart : (pmmAllocPage r.state).1 ≠ 0 → ∀ q ∈ r.out,
    q + 4096 ≤ (pmmAllocPage r.state).1 ∨ (pmmAllocPage r.state).1 + 4096 ≤ q
  zero : (pmmAllocPage r.state).1 ≠ 0 → ∀ i < 4096,
    (pmmAllocPage r.state).2.mem ((pmmAllocPage r.state).1 + i) = 0#8

/-- The invariant along a history. -/
structure Sound (base size : Nat) (r : Run) : Prop where
  ready : Ready r.state
  low : base ≤ r.state.bitmap
  high : page r.state r.state.total ≤ base + size
  nodup : r.out.Nodup
  pages : ∀ p ∈ r.out, ∃ idx < r.state.total, p = page r.state idx
  used : ∀ idx < r.state.total, isUsed r.state idx = true ↔ page r.state idx ∈ r.out

section Pages

variable {s s' : State}

theorem page_inj {i j : Nat} (h : page s i = page s j) : i = j := by
  unfold page at h
  omega

theorem page_congr (h : s'.base = s.base) (idx : Nat) : page s' idx = page s idx := by
  rw [page, page, h]

theorem pages_apart {i j : Nat} (h : i ≠ j) :
    page s i + 4096 ≤ page s j ∨ page s j + 4096 ≤ page s i := by
  unfold page
  omega

end Pages

namespace Sound

variable {base size : Nat} {r : Run}

section

variable (h : Sound base size r)
include h

theorem alloc : Sound base size (alloc.run r) := by
  refine alloc_cases h.ready (P := fun a => Sound base size
    { state := a.2, out := if a.1 = 0 then r.out else a.1 :: r.out }) (fun _ => ?_) ?_
  · exact h
  · intro idx s' ht
    rw [if_neg (page_ne_zero h.ready idx)]
    have hnot : page r.state idx ∉ r.out := by
      rw [← h.used idx ht.lt, ht.free]
      decide
    refine ⟨ht.ready, by rw [ht.bitmap]; exact h.low, ?_,
      List.nodup_cons.mpr ⟨hnot, h.nodup⟩, ?_, ?_⟩
    · rw [ht.total, page_congr ht.base]
      exact h.high
    · intro p hp
      simp only [ht.total, page_congr ht.base]
      rcases List.mem_cons.mp hp with rfl | hp
      · exact ⟨idx, ht.lt, rfl⟩
      · exact h.pages p hp
    · intro j hj
      rw [ht.total] at hj
      rw [ht.used j hj, page_congr ht.base, List.mem_cons]
      by_cases hji : j = idx
      · simp [hji]
      · rw [if_neg hji, h.used j hj]
        exact ⟨.inr, fun hor => hor.resolve_left fun heq => hji (page_inj heq)⟩

theorem free_ {ptr : Nat} (hptr : ptr ∈ r.out) : Sound base size ((free ptr).run r) := by
  obtain ⟨idx, hidx, rfl⟩ := h.pages ptr hptr
  have hf := free_page h.ready hidx
  refine ⟨hf.ready, ?_, ?_, h.nodup.erase _, ?_, ?_⟩
  · simp only [run, hf.bitmap]
    exact h.low
  · simp only [run, hf.total, page_congr hf.base]
    exact h.high
  · intro p hp
    simp only [run, hf.total, page_congr hf.base]
    exact h.pages p (List.mem_of_mem_erase hp)
  · intro j hj
    simp only [run, hf.total] at hj
    simp only [run, page_congr hf.base, hf.used j hj, h.nodup.mem_erase_iff]
    by_cases hji : j = idx
    · simp [hji]
    · rw [if_neg hji, h.used j hj]
      exact ⟨fun hmem => ⟨fun heq => hji (page_inj heq), hmem⟩, fun hand => hand.2⟩

theorem run {c : Call} (hc : c.Legal r) : Sound base size (c.run r) := by
  cases c with
  | alloc => exact h.alloc
  | free ptr => exact h.free_ hc
  | write addr x =>
    have hr := h.ready
    refine ⟨⟨hr.bitmap_pos, hr.bits, hr.aligned, hr.limit, hr.cursor⟩, h.low, h.high, h.nodup,
      h.pages, fun idx hidx => ?_⟩
    have hsame : isUsed { r.state with mem := putByte r.state.mem addr x } idx =
        isUsed r.state idx := by
      refine isUsed_congr hr ?_ (fun a ha => putByte_other ?_) hidx
      · rfl
      · rintro rfl
        exact hc ha
    rw [Call.run, hsame]
    exact h.used idx hidx

/-- **What the next `pmm_alloc_page` returns.** -/
theorem allocRight : AllocRight base size r := by
  have hlow := h.low
  have hhigh := h.high
  have hbits := h.ready.bits
  obtain ⟨k, hk⟩ := h.ready.aligned
  generalize ha : pmmAllocPage r.state = a
  have hcases := alloc_cases h.ready (P := fun a =>
    (a.1 = 0 ∧ ∀ idx < r.state.total, isUsed r.state idx = true) ∨
      ∃ idx, a.1 = page r.state idx ∧ Taken r.state idx a.2)
    (fun hfull => .inl ⟨rfl, hfull⟩) fun idx s' ht => .inr ⟨idx, rfl, ht⟩
  rw [ha] at hcases
  rcases hcases with ⟨hnull, hfull⟩ | ⟨idx, hp, ht⟩
  · have hall : ∀ idx < r.state.total, page r.state idx ∈ r.out := fun idx hidx =>
      (h.used idx hidx).mp (hfull idx hidx)
    refine ⟨?_, ?_, ?_, ?_, ?_, ?_⟩ <;> rw [ha, hnull]
    · exact ⟨fun _ => hall, fun _ => rfl⟩
    · exact Nat.dvd_zero 4096
    all_goals exact fun hne => absurd rfl hne
  · have hlt := ht.lt
    have hnot : page r.state idx ∉ r.out := by
      rw [← h.used idx hlt, ht.free]
      decide
    refine ⟨?_, ?_, ?_, ?_, ?_, ?_⟩ <;> rw [ha, hp]
    · constructor
      · exact fun hzero => absurd hzero (page_ne_zero h.ready idx)
      · exact fun hall => absurd (hall idx hlt) hnot
    · unfold page
      exact ⟨k + idx, by omega⟩
    · unfold page at *
      omega
    · exact fun _ i _ => page_not_inBitmap (Nat.le_add_right _ i)
    · intro _ q hq
      obtain ⟨j, -, rfl⟩ := h.pages q hq
      refine pages_apart ?_
      rintro rfl
      exact hnot hq
    · intro _ i hi
      exact ht.zero _ (by omega) (by omega)

end

end Sound

/-- **The page allocator.**  For every region for which `pmm_init_region` sets it
up, after every history: the next page is aligned, inside the region, off the
bitmap and the outstanding pages and zero, there is none exactly if all pages are
outstanding, and freeing an address that is in no page changes nothing. -/
theorem pages_right (s : State) (h₀ : s.bitmap = 0) (base size : BitVec 64)
    (hset : (pmmInitRegion s base.toNat size.toNat).bitmap ≠ 0) (cs : List Call)
    (hcs : Runs.Guarded Call.run Call.Legal
      { state := pmmInitRegion s base.toNat size.toNat, out := [] } cs) :
    AllocRight base.toNat size.toNat
        (Runs.run run { state := pmmInitRegion s base.toNat size.toNat, out := [] } cs) ∧
      ∀ a, a < (pmmInitRegion s base.toNat size.toNat).base ∨
          page (pmmInitRegion s base.toNat size.toNat)
            (pmmInitRegion s base.toNat size.toNat).total ≤ a →
        pmmFreePage
            (Runs.run run { state := pmmInitRegion s base.toNat size.toNat, out := [] }
              cs).state a =
          (Runs.run run { state := pmmInitRegion s base.toNat size.toNat, out := [] }
            cs).state := by
  obtain ⟨hready, hlow, hhigh, -, hfree⟩ := pmmInitRegion_spec h₀ base.isLt size.isLt hset
  generalize hs1 : pmmInitRegion s base.toNat size.toNat = s1 at *
  have hstart : Sound base.toNat size.toNat { state := s1, out := [] } :=
    ⟨hready, hlow, hhigh, List.nodup_nil, nofun, fun idx hidx => by
      simp only [hfree idx hidx]
      simp⟩
  have hrun := hcs.invariant (I := fun r => Sound base.toNat size.toNat r ∧
    r.state.base = s1.base ∧ r.state.total = s1.total)
    (fun r c ⟨hr, hb, ht⟩ hc => ⟨hr.run hc, ?_⟩) ⟨hstart, rfl, rfl⟩
  · obtain ⟨hsound, hb, ht⟩ := hrun
    refine ⟨hsound.allocRight, fun a ha => free_outside ?_⟩
    rwa [page, hb, ht]
  · rw [← hb, ← ht]
    cases c with
    | alloc =>
      exact alloc_cases hr.ready (P := fun a => a.2.base = r.state.base ∧ a.2.total = r.state.total)
        (fun _ => ⟨rfl, rfl⟩) fun idx s' htaken => ⟨htaken.base, htaken.total⟩
    | free ptr =>
      obtain ⟨idx, hidx, rfl⟩ := hr.pages ptr hc
      have hf := free_page hr.ready hidx
      exact ⟨hf.base, hf.total⟩
    | write addr x => exact ⟨rfl, rfl⟩

/-- Four pages at 4096: one for the bitmap, and one of the others is taken and
given back. -/
theorem pages_right_fourPages :
    AllocRight 4096 16384 (Runs.run Call.run
      { state := pmmInitRegion ⟨fun _ => 255#8, 0, 0, 0, 0⟩ 4096 16384, out := [] }
      [.alloc, .free 8192]) :=
  (pages_right ⟨fun _ => 255#8, 0, 0, 0, 0⟩ rfl 4096#64 16384#64 (by decide +kernel)
    [.alloc, .free 8192]
    ⟨trivial, (by decide +kernel : 8192 ∈ (alloc.run
      { state := pmmInitRegion ⟨fun _ => 255#8, 0, 0, 0, 0⟩ 4096 16384, out := [] }).out),
      trivial⟩).1

end Utms7.Pmm
