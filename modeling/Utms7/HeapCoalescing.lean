import Utms7.HeapCalls

/-!
# Coalescing in the kernel heap

`kfree` joins a block with its neighbours in the list, which are its neighbours
in memory if the list is sorted by address.  `memory_add_region` puts the block
of a new region in front, so the list is sorted only if each region lies below
those that were given before.

In such a heap no two free blocks touch.  When everything is freed, the free
blocks are those of the heap in the beginning, because a tiling without touching
spans is the coarsest one.
-/

namespace Utms7.Heap

open ByteMemory Spans List Runs

/-- The blocks are sorted, with a gap between any two. -/
def Gapped (free : List Block) : Prop := free.Pairwise fun b c => b.stop < c.addr

section Lists

variable {free pre post lo hi : List Block} {b c : Block}

theorem joinRuns_of_gapped (h : Gapped (c :: post)) : joinRuns c post = c :: post := by
  induction post generalizing c with
  | nil => rfl
  | cons d ds ih =>
    obtain ⟨hhead, htail⟩ := pairwise_cons.mp h
    have hlt := hhead d mem_cons_self
    rw [joinRuns, if_neg (by omega), ih htail]

theorem joined_of_gapped (h : Gapped free) : joined free = free := by
  cases free with
  | nil => rfl
  | cons c cs => exact joinRuns_of_gapped h

/-- A block below a list with gaps is joined with the first block at most. -/
theorem gapped_joinRuns (h : Gapped post) (hc : ∀ d ∈ post, c.stop ≤ d.addr) :
    Gapped (joinRuns c post) := by
  cases post with
  | nil => exact pairwise_singleton _ c
  | cons d ds =>
    obtain ⟨hhead, htail⟩ := pairwise_cons.mp h
    rw [joinRuns]
    by_cases htouch : c.stop = d.addr
    · have hjoin : Gapped (c.join d :: ds) := by
        refine pairwise_cons.mpr ⟨fun x hx => ?_, htail⟩
        rw [Block.join_stop htouch]
        exact hhead x hx
      rw [if_pos htouch, joinRuns_of_gapped hjoin]
      exact hjoin
    · have hlt := hc d mem_cons_self
      rw [if_neg htouch, joinRuns_of_gapped h]
      refine pairwise_cons.mpr ⟨fun x hx => ?_, h⟩
      rcases mem_cons.mp hx with rfl | hx
      · omega
      · have hx' := hhead x hx
        have hd := d.addr_lt_stop
        omega

/-- The rest of a block that was cut stays in its place. -/
theorem gapped_cut (h : Gapped (pre ++ c :: post)) {n : Nat} (hn : n ≤ c.size) :
    Gapped (pre ++ ((cut c n).2 ++ post)) := by
  obtain ⟨hpre, hrest, hcross⟩ := pairwise_append.mp h
  obtain ⟨hc, hpost⟩ := pairwise_cons.mp hrest
  have hout : Gapped (pre ++ post) := pairwise_append.mpr
    ⟨hpre, hpost, fun x hx y hy => hcross x hx y (mem_cons_of_mem _ hy)⟩
  unfold cut
  split
  · refine pairwise_append.mpr ⟨hpre, pairwise_cons.mpr ⟨fun y hy => ?_, hpost⟩, ?_⟩
    · have hy' := hc y hy
      simp only [Block.stop] at *
      omega
    · intro x hx y hy
      rcases mem_cons.mp hy with rfl | hy
      · have hx' := hcross x hx c mem_cons_self
        simp only
        omega
      · exact hcross x hx y (mem_cons_of_mem _ hy)
  · exact hout

theorem gapped_absorbNext (h : Gapped hi) (hb : ∀ d ∈ hi, b.stop ≤ d.addr) :
    ∃ c cs, absorbNext b hi = c :: cs ∧ c.addr = b.addr ∧ Gapped (c :: cs) := by
  cases hi with
  | nil => exact ⟨b, [], rfl, rfl, pairwise_singleton _ b⟩
  | cons d ds =>
    obtain ⟨hhead, htail⟩ := pairwise_cons.mp h
    rw [absorbNext]
    by_cases htouch : b.stop = d.addr
    · rw [if_pos htouch]
      refine ⟨_, _, rfl, rfl, pairwise_cons.mpr ⟨fun x hx => ?_, htail⟩⟩
      rw [Block.join_stop htouch]
      exact hhead x hx
    · rw [if_neg htouch]
      refine ⟨_, _, rfl, rfl, pairwise_cons.mpr ⟨fun x hx => ?_, h⟩⟩
      have hlt := hb d mem_cons_self
      rcases mem_cons.mp hx with rfl | hx
      · omega
      · have hx' := hhead x hx
        have hd := d.addr_lt_stop
        omega

theorem gapped_absorbPrev (hlo : Gapped lo) (hhi : Gapped (c :: hi))
    (hc : ∀ d ∈ lo, d.stop ≤ c.addr) : Gapped (absorbPrev lo c hi) := by
  obtain ⟨hhead, htail⟩ := pairwise_cons.mp hhi
  rcases eq_nil_or_concat lo with rfl | ⟨lo, p, rfl⟩
  · exact hhi
  rw [concat_eq_append] at *
  obtain ⟨hlo', -, hp⟩ := pairwise_append.mp hlo
  have hpc := hc p (by simp)
  have hplt := p.addr_lt_stop
  have hclt := c.addr_lt_stop
  have hbefore : ∀ x ∈ lo, x.stop < p.addr := fun x hx => hp x hx p (by simp)
  simp only [absorbPrev, getLast?_append, getLast?_singleton, Option.some_or, dropLast_concat]
  by_cases htouch : p.stop = c.addr
  · rw [if_pos htouch]
    refine pairwise_append.mpr ⟨hlo', pairwise_cons.mpr ⟨fun y hy => ?_, htail⟩, ?_⟩
    · rw [Block.join_stop htouch]
      exact hhead y hy
    · intro x hx y hy
      have hx' := hbefore x hx
      rcases mem_cons.mp hy with rfl | hy
      · exact hx'
      · have hy' := hhead y hy
        omega
  · rw [if_neg htouch]
    refine pairwise_append.mpr ⟨hlo, hhi, fun x hx y hy => ?_⟩
    have hxp : x.stop < c.addr := by
      rcases mem_append.mp hx with hx | hx
      · have := hbefore x hx
        omega
      · rw [mem_singleton.mp hx]
        omega
    rcases mem_cons.mp hy with rfl | hy
    · exact hxp
    · have hy' := hhead y hy
      omega

/-- **`kfree` leaves no two free blocks that touch**, if there were none and the
list was sorted. -/
theorem gapped_settle (h : Gapped free) (hb : ∀ c ∈ free, c.span.Apart b.span) :
    Gapped (settle free b) := by
  have hblt := b.addr_lt_stop
  obtain ⟨lo, hi, rfl, hlow, hfirst, hsettle⟩ := settle_split free b
  obtain ⟨hlo, hhi, -⟩ := pairwise_append.mp h
  have hbelow : ∀ c ∈ lo, c.stop ≤ b.addr := by
    intro c hc
    have hlt := hlow c hc
    have hapart := hb c (mem_append_left _ hc)
    simp only [Span.Apart, Block.span] at hapart
    omega
  have habove : ∀ c ∈ hi, b.stop ≤ c.addr := by
    intro c hc
    have hge : b.addr ≤ c.addr := by
      cases hi with
      | nil => cases hc
      | cons d ds =>
        have hnot := hfirst d rfl
        rcases mem_cons.mp hc with rfl | hc
        · omega
        · have := (pairwise_cons.mp hhi).1 c hc
          have := d.addr_lt_stop
          omega
    have hclt := c.addr_lt_stop
    have hapart := hb c (mem_append_right _ hc)
    simp only [Span.Apart, Block.span] at hapart
    omega
  obtain ⟨c, cs, hcs, haddr, hgap⟩ := gapped_absorbNext hhi habove
  rw [hsettle hcs]
  refine gapped_absorbPrev hlo hgap fun d hd => ?_
  rw [haddr]
  exact hbelow d hd

theorem Gapped.stop_ne (h : Gapped free) (hb : b ∈ free) (hc : c ∈ free) : b.stop ≠ c.addr := by
  have hblt := b.addr_lt_stop
  have hclt := c.addr_lt_stop
  induction free with
  | nil => cases hb
  | cons d ds ih =>
    obtain ⟨hhead, htail⟩ := pairwise_cons.mp h
    rcases mem_cons.mp hb with rfl | hb'
    · rcases mem_cons.mp hc with rfl | hc'
      · omega
      · have := hhead c hc'
        omega
    · rcases mem_cons.mp hc with rfl | hc'
      · have := hhead b hb'
        omega
      · exact ih htail hb' hc'

end Lists

/-! ## Histories -/

/-- A region with room for a block lies below the regions given before. -/
def Call.Descends (r : Run) : Call → Prop
  | .addRegion base size => headerSize + 16 ≤ size.toNat →
      ∀ g ∈ r.regions, base.toNat + size.toNat ≤ g.start
  | _ => True

/-- A call that the history may make. -/
def Call.Downward (r : Option Run) (c : Call) : Prop := c.Allowed r ∧ ∀ r' ∈ r, c.Descends r'

/-- Allocations, frees and writes. -/
def Call.OnBlocks : Call → Prop
  | .malloc _ | .free _ | .write _ _ => True
  | _ => False

/-- No two free blocks touch. -/
def Run.NoTouch (r : Run) : Prop :=
  ∀ free, freeBlocks r.heap = some free → ∀ b ∈ free, ∀ c ∈ free, b.stop ≠ c.addr

/-- The request is served. -/
def Serves (s : State) (n : BitVec 64) : Prop := ∃ p s', kmalloc s n.toNat = some (p, s') ∧ p ≠ 0

/-- The calls that build a heap. -/
def building (base size : BitVec 64) (gs : List (BitVec 64 × BitVec 64)) : List Call :=
  .init base size :: gs.map fun g => .addRegion g.1 g.2

namespace Run.Sound

variable {r r' : Run} {free live free' live' : List Block} {area area' : Set Nat} {c : Call}

section

variable (h : r.Sound free live area) (hgap : Gapped free)
include h hgap

/-- One call keeps the gaps. -/
theorem gapped_change (hdesc : c.Descends r) (hlegal : c.Legal r)
    (hchange : Change free live area c free' area') : Gapped free' := by
  cases hchange with
  | none => exact hgap
  | init base size hfirst =>
    subst hfirst
    unfold Inv.withRegion
    cases usable base.toNat size.toNat with
    | none => exact .nil
    | some b => exact pairwise_singleton _ b
  | region base size =>
    unfold Inv.withRegion
    cases hb : usable base.toNat size.toNat with
    | none =>
      rw [Option.toList_none, nil_append, joined_of_gapped hgap]
      exact hgap
    | some b =>
      refine gapped_joinRuns hgap fun d hd => ?_
      cases hready : r.heap.initialized with
      | false =>
        rw [(h.idle hready).1] at hd
        cases hd
      | true =>
        have hnew := hlegal hready
        have hlarge : headerSize + 16 ≤ size.toNat := by
          by_contra hsmall
          rw [usable, if_pos (by omega)] at hb
          cases hb
        obtain ⟨-, -, hstop, -⟩ := usable_spec hnew.1 hb
        obtain ⟨g, hg, hga⟩ := h.area_sub (h.inv.addr_mem (mem_append_left _ hd))
        have hbelow := hdesc hlarge g hg
        have := hga.1
        omega
  | take hfit =>
    obtain ⟨rfl, hroom, -⟩ := firstFit_some hfit
    exact gapped_cut hgap hroom
  | put hb =>
    refine gapped_settle hgap fun d hd => ?_
    have hpair := h.inv.tiles.apart
    rw [map_append] at hpair
    exact (pairwise_append.mp hpair).2.2 _ (mem_map_of_mem hd) _ (mem_map_of_mem hb)

theorem noTouch : r.NoTouch := by
  intro free' hfree' b hb c hc
  have hlist := h.safe.list
  rw [hfree', Option.some.injEq] at hlist
  subst hlist
  exact hgap.stop_ne hb hc

/-- A call of `memory_init` or `memory_add_region` leaves the allocated blocks alone. -/
theorem step_region (hcall : ¬ c.OnBlocks) (hc : c.Downward (some r)) :
    ∃ r' free' area', c.step r = some r' ∧ r'.Sound free' live area' ∧ Gapped free' := by
  obtain ⟨hlegal, hnull⟩ := hc.1 r rfl
  have hdesc := hc.2 r rfl
  cases c with
  | init base size =>
    obtain ⟨r', free', area', hstep, hsound, hchange⟩ := h.init hlegal hnull
    exact ⟨r', free', area', hstep, hsound, h.gapped_change hgap hdesc hlegal hchange⟩
  | addRegion base size =>
    obtain ⟨r', free', area', hstep, hsound, hchange⟩ := h.addRegion hlegal hnull
    exact ⟨r', free', area', hstep, hsound, h.gapped_change hgap hdesc hlegal hchange⟩
  | malloc n | free ptr | write addr x => exact absurd trivial hcall

/-- Other calls leave the memory of the heap alone. -/
theorem step_onBlocks (hcall : c.OnBlocks) (hc : c.Downward (some r)) :
    ∃ r' free' live', c.step r = some r' ∧ r'.Sound free' live' area ∧ Gapped free' := by
  obtain ⟨hlegal, hnull⟩ := hc.1 r rfl
  obtain ⟨r', free', live', area', hstep, hsound, hchange⟩ := h.step hlegal hnull
  have hgap' := h.gapped_change hgap (hc.2 r rfl) hlegal hchange
  cases hchange with
  | none => exact ⟨r', _, live', hstep, hsound, hgap'⟩
  | init base size | region base size => exact absurd hcall not_false
  | take hfit | put hb => exact ⟨r', _, live', hstep, hsound, hgap'⟩

end

/-- A request is served exactly if a free block has room for it. -/
theorem serves_iff (h : r.Sound free live area) {n : BitVec 64} :
    Serves r.heap n ↔ n.toNat ≠ 0 ∧ ∃ c ∈ free, alignUp n.toNat ≤ c.size := by
  constructor
  · rintro ⟨p, s', halloc, hp⟩
    by_cases hgo : r.heap.initialized = false ∨ n.toNat = 0
    · rw [kmalloc, if_pos hgo] at halloc
      cases halloc
      exact absurd rfl hp
    rw [not_or, Bool.not_eq_false] at hgo
    refine ⟨hgo.2, ?_⟩
    by_contra hnone
    have hfit : firstFit (alignUp n.toNat) free = none :=
      firstFit_none.mpr fun c hc hroom => hnone ⟨c, hc, hroom⟩
    rw [h.inv.kmalloc_none hgo.1 hgo.2 hfit] at halloc
    cases halloc
    exact absurd rfl hp
  · rintro ⟨hn, c, hc, hroom⟩
    have hready : r.heap.initialized = true := by
      by_contra hf
      rw [Bool.not_eq_true] at hf
      rw [(h.idle hf).1] at hc
      cases hc
    cases hfit : firstFit (alignUp n.toNat) free with
    | none => exact absurd hroom (firstFit_none.mp hfit c hc)
    | some t =>
      obtain ⟨s', halloc, -⟩ := h.inv.kmalloc_some hready hn hfit
      exact ⟨_, s', halloc, by unfold headerSize; omega⟩

/-- Two heaps without allocated blocks over the same memory serve the same
requests, if no free blocks of the second touch. -/
theorem serves_again (h : r.Sound free [] area) (h' : r'.Sound free' [] area) (hgap : Gapped free')
    {n : BitVec 64} (hserves : Serves r.heap n) : Serves r'.heap n := by
  obtain ⟨hn, c, hc, hroom⟩ := (h.serves_iff).mp hserves
  have htiles := h.inv.tiles
  have htiles' := h'.inv.tiles
  rw [append_nil] at htiles htiles'
  obtain ⟨t, ht, hlo, hhi⟩ := htiles.exists_superset htiles' (fun x hx y hy => by
    obtain ⟨b, hb, rfl⟩ := mem_map.mp hx
    obtain ⟨d, hd, rfl⟩ := mem_map.mp hy
    exact hgap.stop_ne hb hd) (mem_map_of_mem hc)
  obtain ⟨d, hd, rfl⟩ := mem_map.mp ht
  refine (h'.serves_iff).mpr ⟨hn, d, hd, ?_⟩
  simp only [Block.span, Block.stop] at hlo hhi
  omega

end Run.Sound

/-- **Coalescing.**  If each region lies below those given before, then after
every history no two free blocks touch, and once everything is freed the heap
serves every request that it served in the beginning. -/
theorem heap_coalesces (mem : Bytes) (base size : BitVec 64) (gs : List (BitVec 64 × BitVec 64))
    (cs : List Call) (hblocks : ∀ c ∈ cs, c.OnBlocks)
    (hcs : Runs.Guarded Call.run Call.Downward (some (Run.start mem))
      (building base size gs ++ cs)) :
    ∃ r₀ r, Runs.run Call.run (some (Run.start mem)) (building base size gs) = some r₀ ∧
      Runs.run Call.run (some r₀) cs = some r ∧ r.NoTouch ∧
      (r.live = [] → ∀ n, Serves r₀.heap n → Serves r.heap n) := by
  obtain ⟨hbuild, hrest⟩ := guarded_append.mp hcs
  -- while the heap is built, nothing is allocated
  have hregions : ∀ c ∈ building base size gs, ¬ c.OnBlocks := by
    intro c hc
    rcases mem_cons.mp hc with rfl | hc
    · exact not_false
    · obtain ⟨g, -, rfl⟩ := mem_map.mp hc
      exact not_false
  obtain ⟨r₀, free0, area, hr0, hsound0, hgap0⟩ : ∃ r free area,
      run Call.run (some (Run.start mem)) (building base size gs) = some r ∧
        r.Sound free [] area ∧ Gapped free := by
    refine (hbuild.and (guarded_of_forall hregions _)).invariant
      (I := fun o => ∃ r free area, o = some r ∧ r.Sound free [] area ∧ Gapped free)
      (fun o c ⟨r, free, area, ho, hr, hgap⟩ hc => ?_) ⟨_, _, _, rfl, .start mem, .nil⟩
    subst ho
    exact hr.step_region hgap hc.2 hc.1
  rw [hr0] at hrest
  -- afterwards the memory of the heap stays
  obtain ⟨r, free, live, hr, hsound, hgap⟩ : ∃ r free live,
      run Call.run (some r₀) cs = some r ∧ r.Sound free live area ∧ Gapped free := by
    refine (hrest.and (guarded_of_forall hblocks _)).invariant
      (I := fun o => ∃ r free live, o = some r ∧ r.Sound free live area ∧ Gapped free)
      (fun o c ⟨r, free, live, ho, hr, hgap⟩ hc => ?_) ⟨_, _, _, rfl, hsound0, hgap0⟩
    subst ho
    exact hr.step_onBlocks hgap hc.2 hc.1
  refine ⟨r₀, r, hr0, hr, hsound.noTouch hgap, fun hlive n hserves => ?_⟩
  have hnil : live = [] := by
    have hperm := hsound.ptrs
    rw [hlive] at hperm
    simpa using hperm.symm.eq_nil
  subst hnil
  exact hsound0.serves_again hsound hgap hserves

/-- Two regions, the second below the first, and one block taken and given back. -/
theorem heap_coalesces_downward : ∃ r₀ r, Runs.run Call.run (some (Run.start zeros))
      (building 65536#64 4096#64 [(4096#64, 8192#64)]) = some r₀ ∧
    Runs.run Call.run (some r₀) [.malloc 5000#64, .free 4120] = some r ∧ r.NoTouch ∧
      (r.live = [] → ∀ n, Serves r₀.heap n → Serves r.heap n) := by
  refine heap_coalesces zeros 65536#64 4096#64 [(4096#64, 8192#64)] [.malloc 5000#64, .free 4120]
    (by simp [Call.OnBlocks]) ⟨⟨Call.allowed_init (by decide) (by decide), fun _ _ => trivial⟩,
      ⟨?_, ?_⟩, ⟨fun _ _ => ⟨trivial, trivial⟩, fun _ _ => trivial⟩,
        ⟨?_, fun _ _ => trivial⟩, trivial⟩
  · refine Call.allowed_of_all (p := fun r => decide (r.regions = [⟨65536, 69632⟩]))
      (by decide +kernel) (fun r hr _ => Call.newRegion_of_apart (by decide) ?_) fun _ => by decide
    rw [of_decide_eq_true hr]
    decide
  · intro r hr _
    have hregions : (Call.run (some (Run.start zeros)) (.init 65536#64 4096#64)).all
        (fun r => decide (r.regions = [⟨65536, 69632⟩])) = true := by decide +kernel
    rw [Option.mem_def.mp hr, Option.all_some, decide_eq_true_eq] at hregions
    rw [hregions]
    decide
  · exact Call.allowed_of_all (p := fun r => decide (4120 ∈ r.live)) (by decide +kernel)
      (fun r hr => of_decide_eq_true (p := 4120 ∈ r.live) hr) trivial

/-- A second region above the first one; a block of the first is taken and given
back. -/
def upward : List Call :=
  building 4096#64 8192#64 [(65536#64, 4096#64)] ++ [.malloc 5000#64, .free 4120]

theorem upward_not_noTouch : Runs.Guarded Call.run Call.Allowed (some (Run.start zeros)) upward ∧
    ∃ r, Runs.run Call.run (some (Run.start zeros)) upward = some r ∧ ¬ r.NoTouch := by
  refine ⟨⟨Call.allowed_init (by decide) (by decide), ?_, fun _ _ => ⟨trivial, trivial⟩, ?_,
    trivial⟩,
    ?_⟩
  · refine Call.allowed_of_all (p := fun r => decide (r.regions = [⟨4096, 12288⟩]))
      (by decide +kernel) (fun r hr _ => Call.newRegion_of_apart (by decide) ?_) fun _ => by decide
    rw [of_decide_eq_true hr]
    decide
  · exact Call.allowed_of_all (p := fun r => decide (4120 ∈ r.live)) (by decide +kernel)
      (fun r hr => of_decide_eq_true (p := 4120 ∈ r.live) hr) trivial
  · have hstate : (run Call.run (some (Run.start zeros)) upward).any (fun r =>
        decide (freeBlocks r.heap = some [⟨4096, 5000⟩, ⟨65536, 4072⟩, ⟨9120, 3144⟩])) = true := by
      decide +kernel
    cases hr : run Call.run (some (Run.start zeros)) upward with
    | none =>
      rw [hr] at hstate
      cases hstate
    | some r =>
      rw [hr, Option.any_some, decide_eq_true_eq] at hstate
      exact ⟨r, rfl, fun h => h _ hstate ⟨4096, 5000⟩ (by simp) ⟨9120, 3144⟩ (by simp) (by decide)⟩

end Utms7.Heap
