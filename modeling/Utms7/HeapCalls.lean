import Utms7.HeapSteps
import Utms7.Runs

/-!
# Histories of calls on the kernel heap

A history gives regions to the allocator, allocates, frees what was allocated,
and writes into payloads.  Along every such history the invariant of the heap
holds, provided that no region starts at address 0: the block of such a region
would be the null pointer, and the list of free blocks would end there.
-/

namespace Utms7.Heap

open ByteMemory LinkedList Spans List Block Nat

/-! ## States along a history -/

/-- The heap, the regions that it was given, and the pointers that were returned
and not freed since. -/
structure Run where
  heap : State
  regions : List Span
  live : List Nat

def Run.start (mem : Bytes) : Run := { heap := .start mem, regions := [], live := [] }

/-- What can happen to the heap. -/
inductive Call where
  | init (base size : BitVec 64)
  | addRegion (base size : BitVec 64)
  | malloc (n : BitVec 64)
  | free (ptr : Nat)
  -- a client stores a byte
  | write (addr : Nat) (x : BitVec 8)

def region (base size : BitVec 64) : Span := ⟨base.toNat, base.toNat + size.toNat⟩

namespace Call

/-- One call, `none` if it does not return. -/
def step (r : Run) : Call → Option Run
  | init base size => (memoryInit r.heap base.toNat size.toNat).map fun s =>
    { r with
      heap := s
      regions := if r.heap.initialized then r.regions else region base size :: r.regions }
  | addRegion base size => (memoryAddRegion r.heap base.toNat size.toNat).map fun s =>
    { r with
      heap := s
      regions := if r.heap.initialized then region base size :: r.regions else r.regions }
  | malloc n => (kmalloc r.heap n.toNat).map fun (p, s) =>
    { r with heap := s, live := if p = 0 then r.live else p :: r.live }
  | free ptr => (kfree r.heap ptr).map fun s => { r with heap := s, live := r.live.erase ptr }
  | write addr x => some { r with heap := { r.heap with mem := putByte r.heap.mem addr x } }

def run (r : Option Run) (c : Call) : Option Run := r.bind fun r => c.step r

/-- A region of memory that the allocator does not have yet. -/
def NewRegion (r : Run) (base size : BitVec 64) : Prop :=
  base.toNat + size.toNat ≤ 2 ^ 64 ∧ ∀ g ∈ r.regions, ∀ a, g.Has a → ¬ (region base size).Has a

/-- The regions are disjoint, only live pointers are freed, and clients write
inside their payloads. -/
def Legal (r : Run) : Call → Prop
  | init base size => r.heap.initialized = false → NewRegion r base size
  | addRegion base size => r.heap.initialized = true → NewRegion r base size
  | malloc _ => True
  | free ptr => ptr ∈ r.live
  | write addr _ => ∃ p ∈ r.live, p ≤ addr ∧ addr < p + size r.heap.mem (p - headerSize)

/-- A region that is large enough for a block does not start at address 0. -/
def OffNull : Call → Prop
  | init base size | addRegion base size => headerSize + 16 ≤ size.toNat → base ≠ 0#64
  | _ => True

end Call

/-! ## Safety -/

/-- The blocks of the free list, `none` if it does not end. -/
def freeBlocks (s : State) : Option (List Block) :=
  (nodes (next s.mem) 0 rounds s.freeList).map fun as => as.map fun a => ⟨a, size s.mem a⟩

/-- The block of a pointer that `kmalloc` returned. -/
def blockOf (m : Bytes) (ptr : Nat) : Block := ⟨ptr - headerSize, size m (ptr - headerSize)⟩

def Run.liveBlocks (r : Run) : List Block := r.live.map (blockOf r.heap.mem)

/-- The heap is safe; `free` is its free list. -/
structure Run.Safe (r : Run) (free : List Block) : Prop where
  -- the list ends and visits no block twice
  list : freeBlocks r.heap = some free
  distinct : (free.map Block.addr).Nodup
  freed : ∀ b ∈ free, flag r.heap.mem b.addr ≠ 0#8
  taken : ∀ b ∈ r.liveBlocks, flag r.heap.mem b.addr = 0#8
  apart : (free ++ r.liveBlocks).Pairwise fun b c => b.span.Apart c.span
  inside : ∀ b ∈ free ++ r.liveBlocks, ∀ a, b.span.Has a → ∃ g ∈ r.regions, g.Has a
  -- whatever can be used and is not allocated is in the list
  exact : ∀ g ∈ r.regions, ∀ b ∈ usable g.start g.length, ∀ a, b.span.Has a →
    ∃ c ∈ free ++ r.liveBlocks, c.span.Has a
  aligned : ∀ p ∈ r.live, 8 ∣ p
  used : memoryUsed r.heap = (r.liveBlocks.map fun b => headerSize + b.size).sum
  bounded : memoryUsed r.heap ≤ total r.regions

/-! ## The invariant along a history -/

variable {area : Set Nat} {r : Run} {n : Nat} {c : Call} {s' s : State} {b : Block}

namespace Inv

variable {s : State} {free live live' : List Block} {b c : Block}

/-- The invariant does not read the other variables. -/
theorem of_same (h : Inv s free live area) (hmem : s'.mem = s.mem)
    (hlist : s'.freeList = s.freeList) (hused : s'.usedMemory = s.usedMemory) :
    Inv s' free live area := by
  refine of_linked ?_ ?_ h.tiles h.bounds h.placed (by rw [hused, h.used])
  · rw [hmem, hlist]
    exact h.linked
  · rw [hmem]
    exact fun b hb => h.live_header hb

theorem perm_live (h : Inv s free live area) (hp : live.Perm live') : Inv s free live' area := by
  have hall : (free ++ live).Perm (free ++ live') := hp.append_left free
  exact of_linked h.linked (fun b hb => h.live_header (hp.mem_iff.mpr hb))
    (h.tiles.perm (hall.map Block.span)) h.bounds
    (fun b hb => h.placed b (hall.mem_iff.mpr hb))
    (by rw [h.used, total_perm (hp.map Block.span)])

/-- Clients do not touch headers. -/
theorem write (h : Inv s free live area) (hb : b ∈ live) {m : Bytes}
    (hsame : ∀ a, a < b.addr + headerSize ∨ b.stop ≤ a → m a = s.mem a) :
    Inv { s with mem := m } free live area := by
  have hheader : ∀ c ∈ free ++ live, header m c.addr = header s.mem c.addr := by
    intro c hc
    refine header_congr fun i hi => hsame _ ?_
    by_cases hbc : b = c
    · subst hbc
      omega
    have hne : b.span ≠ c.span := by
      intro heq
      have haddr : b.addr = c.addr := congrArg Span.start heq
      refine hbc ?_
      have hsize : b.size = c.size := by
        rw [← h.sizes b (mem_append_right _ hb), ← h.sizes c hc, haddr]
      cases b
      cases c
      simp_all
    have hapart := h.tiles.apart_of_ne (mem_map_of_mem (mem_append_right _ hb))
      (mem_map_of_mem hc) hne
    simp only [Span.Apart, Block.span, Block.stop] at *
    omega
  exact of_linked (h.linked.congr fun c hc => hheader c (mem_append_left _ hc))
    (fun c hc => h.live_congr hheader hc (mem_append_right _ hc)) h.tiles h.bounds h.placed h.used

end Inv

/-- The pointer to the payload. -/
def Block.ptr (b : Block) : Nat := b.addr + headerSize

/-- The blocks that the regions yield. -/
def usableBlocks (gs : List Span) : List Block := gs.filterMap fun g => usable g.start g.length

theorem usableBlocks_cons (g : Span) (gs : List Span) :
    usableBlocks (g :: gs) = (usable g.start g.length).toList ++ usableBlocks gs := by
  unfold usableBlocks
  rw [filterMap_cons]
  cases usable g.start g.length <;> rfl

/-- The invariant along a history. -/
structure Run.Sound (r : Run) (free live : List Block) (area : Set Nat) : Prop where
  inv : Inv r.heap free live area
  ptrs : r.live.Perm (live.map Block.ptr)
  idle : r.heap.initialized = false → free = [] ∧ r.live = [] ∧ r.regions = []
  regions : ∀ g ∈ r.regions, g.start ≤ g.stop ∧ g.stop ≤ 2 ^ 64 ∧ g.length < 2 ^ 64
  tiled : Tiles ((usableBlocks r.regions).map Block.span) area

namespace Run.Sound

variable {free live : List Block} {a : Nat}

theorem start (mem : Bytes) : (Run.start mem).Sound [] [] ∅ where
  inv := .of_linked rfl nofun .nil nofun nofun rfl
  ptrs := .nil
  idle _ := ⟨rfl, rfl, rfl⟩
  regions := nofun
  tiled := .nil

/-- The used part of a region lies in the region. -/
theorem usable_has {g : Span} (hg : g.start ≤ g.stop ∧ g.stop ≤ 2 ^ 64 ∧ g.length < 2 ^ 64)
    (hb : usable g.start g.length = some b) (ha : b.span.Has a) : g.Has a := by
  have hlen : g.start + g.length = g.stop := by
    unfold Span.length
    omega
  obtain ⟨hlo, -, hstop, -⟩ := usable_spec (by omega) hb
  exact ⟨le_trans hlo ha.1, lt_of_lt_of_le ha.2 (by simp only [Block.span]; omega)⟩

theorem area_sub (h : r.Sound free live area) (ha : a ∈ area) : ∃ g ∈ r.regions, g.Has a := by
  obtain ⟨s, hs, hsa⟩ := (h.tiled.cover a).mp ha
  obtain ⟨b, hb, rfl⟩ := mem_map.mp hs
  obtain ⟨g, hg, hgb⟩ := mem_filterMap.mp hb
  exact ⟨g, hg, usable_has (h.regions g hg) hgb hsa⟩

theorem region_length (base size : BitVec 64) : (region base size).length = size.toNat := by
  simp [Span.length, region]

theorem region_ok {base size : BitVec 64} (h : base.toNat + size.toNat ≤ 2 ^ 64) :
    (region base size).start ≤ (region base size).stop ∧ (region base size).stop ≤ 2 ^ 64 ∧
      (region base size).length < 2 ^ 64 := by
  rw [region_length]
  exact ⟨le_add_right _ _, h, size.isLt⟩

theorem addFreeBlock (h : r.Sound free live area) {base size : BitVec 64}
    (hnew : Call.NewRegion r base size) (hnull : headerSize + 16 ≤ size.toNat → base ≠ 0#64) :
    Inv (Heap.addFreeBlock r.heap base.toNat size.toNat)
        (Inv.withRegion free base.toNat size.toNat) live
        (area ∪ Inv.regionArea base.toNat size.toNat) ∧
      Tiles ((usableBlocks (region base size :: r.regions)).map span)
        (area ∪ Inv.regionArea base.toNat size.toNat) ∧
      ∀ g ∈ region base size :: r.regions,
        g.start ≤ g.stop ∧ g.stop ≤ 2 ^ 64 ∧ g.length < 2 ^ 64 := by
  have hfresh : ∀ a, base.toNat ≤ a → a < base.toNat + size.toNat → a ∉ area := by
    intro a hlo hhi ha
    obtain ⟨g, hg, hga⟩ := h.area_sub ha
    exact hnew.2 g hg a hga ⟨hlo, hhi⟩
  refine ⟨h.inv.addFreeBlock hnew.1 size.isLt (fun b hb => ?_) hfresh, ?_,
    forall_mem_cons.mpr ⟨region_ok hnew.1, h.regions⟩⟩
  · have hlarge : headerSize + 16 ≤ size.toNat := by
      by_contra hsmall
      rw [usable, if_pos (by omega)] at hb
      cases hb
    intro hzero
    exact hnull hlarge (BitVec.eq_of_toNat_eq (by simpa using hzero))
  · have hstart : (region base size).start = base.toNat := rfl
    unfold Inv.regionArea
    rw [usableBlocks_cons, region_length, hstart]
    cases hb : usable base.toNat size.toNat with
    | none => simpa using h.tiled
    | some b =>
      obtain ⟨hlo, -, hstop, -⟩ := usable_spec hnew.1 hb
      have hcons := h.tiled.cons (s := b.span) b.addr_lt_stop fun a ha =>
        hfresh a (le_trans hlo ha.1) (lt_of_lt_of_le ha.2 (le_of_eq hstop))
      simpa using hcons

end Run.Sound

/-- What a call does to the free list and to the memory of the heap. -/
inductive Change (free live : List Block) (area : Set Nat) :
    Call → List Block → Set Nat → Prop where
  | none (c : Call) : Change free live area c free area
  | init (base size : BitVec 64) (first : free = []) : Change free live area (.init base size)
      (joined (Inv.withRegion free base.toNat size.toNat))
      (area ∪ Inv.regionArea base.toNat size.toNat)
  | region (base size : BitVec 64) : Change free live area (.addRegion base size)
      (joined (Inv.withRegion free base.toNat size.toNat))
      (area ∪ Inv.regionArea base.toNat size.toNat)
  | take {n : BitVec 64} {pre post : List Block} {c : Block}
      (fit : firstFit (alignUp n.toNat) free = some (pre, c, post)) :
      Change free live area (.malloc n) (pre ++ ((cut c (alignUp n.toNat)).2 ++ post)) area
  | put {b : Block} (taken : b ∈ live) : Change free live area (.free b.ptr) (settle free b) area

namespace Run.Sound

variable {free live : List Block}

/-- In the state that the kernel starts in, `memory_init` sets the variables to
what they are. -/
theorem initRegion_eq {base size : BitVec 64} (hlist : s.freeList = 0)
    (hused : s.usedMemory = 0) (hbound : base.toNat + size.toNat ≤ 2 ^ 64) :
    (initRegion s base.toNat size.toNat).mem = (Heap.addFreeBlock s base.toNat size.toNat).mem ∧
    (initRegion s base.toNat size.toNat).freeList =
      (Heap.addFreeBlock s base.toNat size.toNat).freeList ∧
    (initRegion s base.toNat size.toNat).usedMemory =
      (Heap.addFreeBlock s base.toNat size.toNat).usedMemory := by
  unfold initRegion
  simp only [addFreeBlock_eq _ hbound size.isLt]
  cases hb : usable base.toNat size.toNat with
  | none => split <;> simp [hlist, hused]
  | some b =>
    have hpos : size.toNat > 0 := by
      by_contra hzero
      rw [usable, if_pos (by unfold headerSize; omega)] at hb
      cases hb
    rw [if_pos hpos]
    simp [hlist, hused]

section

variable (h : r.Sound free live area)
include h

/-- `memory_init`. -/
theorem init {base size : BitVec 64} (hlegal : (Call.init base size).Legal r)
    (hnull : (Call.init base size).OffNull) :
    ∃ r' free' area', (Call.init base size).step r = some r' ∧ r'.Sound free' live area' ∧
      Change free live area (.init base size) free' area' := by
  cases hready : r.heap.initialized with
  | true =>
    refine ⟨r, free, area, ?_, h, .none _⟩
    simp [Call.step, memoryInit, hready]
  | false =>
    have hnew := hlegal hready
    obtain ⟨hinv, htiled, hregions⟩ := h.addFreeBlock hnew hnull
    obtain ⟨rfl, hlive, -⟩ := h.idle hready
    have hlist : r.heap.freeList = 0 := h.inv.chain
    have hlivenil : live = [] := by
      have hperm := h.ptrs
      rw [hlive] at hperm
      simpa using hperm.symm.eq_nil
    have hused : r.heap.usedMemory = 0 := by
      rw [h.inv.used, hlivenil]
      rfl
    have hsame := initRegion_eq hlist hused hnew.1
    have hinv1 := hinv.of_same hsame.1 hsame.2.1 hsame.2.2
    obtain ⟨m, hloop, hinv2⟩ := hinv1.mergeLoop
    refine ⟨{ r with
        heap := { initRegion r.heap base.toNat size.toNat with mem := m, initialized := true }
        regions := region base size :: r.regions }, _, _, ?_,
      ⟨hinv2.of_same rfl rfl rfl, h.ptrs, nofun, hregions, htiled⟩, .init base size rfl⟩
    simp only [Call.step, memoryInit, hready, Bool.false_eq_true]
    rw [hloop]
    rfl

theorem addRegion {base size : BitVec 64} (hlegal : (Call.addRegion base size).Legal r)
    (hnull : (Call.addRegion base size).OffNull) :
    ∃ r' free' area', (Call.addRegion base size).step r = some r' ∧ r'.Sound free' live area' ∧
      Change free live area (.addRegion base size) free' area' := by
  cases hready : r.heap.initialized with
  | false =>
    refine ⟨r, free, area, ?_, h, .none _⟩
    simp [Call.step, memoryAddRegion, hready]
  | true =>
    have hnew := hlegal hready
    obtain ⟨hinv, htiled, hregions⟩ := h.addFreeBlock hnew hnull
    by_cases hzero : size.toNat = 0
    · -- An empty region is ignored, and yields no block.
      have hnone : usable base.toNat size.toNat = none := by
        rw [usable, if_pos (by unfold headerSize; omega)]
      refine ⟨{ r with regions := region base size :: r.regions }, free, area, ?_,
        ⟨h.inv, h.ptrs, fun hf => ?_, hregions, ?_⟩, .none _⟩
      · simp [Call.step, memoryAddRegion, hready, hzero]
      · rw [hready] at hf
        cases hf
      · have hstart : (region base size).start = base.toNat := rfl
        rw [usableBlocks_cons, region_length, hstart, hnone]
        exact h.tiled
    · obtain ⟨m, hloop, hinv2⟩ := hinv.mergeLoop
      refine ⟨{ r with
          heap := { Heap.addFreeBlock r.heap base.toNat size.toNat with
            mem := m
            totalMemory := ((Heap.addFreeBlock r.heap base.toNat size.toNat).totalMemory +
              size.toNat) % 2 ^ 64 }
          regions := region base size :: r.regions }, _, _, ?_,
        ⟨hinv2.of_same rfl rfl rfl, h.ptrs, fun hf => ?_, hregions, htiled⟩, .region base size⟩
      · simp only [Call.step, memoryAddRegion, hready, hzero, Bool.true_eq_false, or_self, hloop]
        rfl
      · have hkept : (Heap.addFreeBlock r.heap base.toNat size.toNat).initialized = true := by
          rw [addFreeBlock_eq _ hnew.1 size.isLt]
          cases usable base.toNat size.toNat <;> exact hready
        rw [show (Heap.addFreeBlock r.heap base.toNat size.toNat).initialized = false from
          hf] at hkept
        cases hkept

/-- `kmalloc`. -/
theorem malloc (n : BitVec 64) :
    ∃ r' free' live', (Call.malloc n).step r = some r' ∧ r'.Sound free' live' area ∧
      Change free live area (.malloc n) free' area := by
  by_cases hidle : r.heap.initialized = false ∨ n.toNat = 0
  · refine ⟨r, free, live, ?_, h, .none _⟩
    simp only [Call.step, kmalloc, if_pos hidle, Option.map_some, if_true]
  rw [not_or, Bool.not_eq_false] at hidle
  obtain ⟨hready, hn⟩ := hidle
  cases hfit : firstFit (alignUp n.toNat) free with
  | none =>
    refine ⟨r, free, live, ?_, h, .none _⟩
    simp only [Call.step, h.inv.kmalloc_none hready hn hfit, Option.map_some, if_true]
  | some t =>
    obtain ⟨pre, c, post⟩ := t
    obtain ⟨s', halloc, hready', hinv⟩ := h.inv.kmalloc_some hready hn hfit
    have haddr : (cut c (alignUp n.toNat)).1.addr = c.addr := by
      unfold cut
      split <;> rfl
    have hne : c.addr + headerSize ≠ 0 := by
      unfold headerSize
      omega
    refine ⟨{ r with heap := s', live := (c.addr + headerSize) :: r.live }, _, _, ?_,
      ⟨hinv, ?_, fun hf => ?_, h.regions, h.tiled⟩, .take hfit⟩
    · simp only [Call.step, halloc, Option.map_some, if_neg hne]
    · rw [map_cons, ptr, haddr]
      exact h.ptrs.cons _
    · rw [show s'.initialized = false from hf] at hready'
      cases hready'

/-- `kfree` of a live pointer. -/
theorem free_ {ptr : Nat} (hptr : ptr ∈ r.live) :
    ∃ r' free' live', (Call.free ptr).step r = some r' ∧ r'.Sound free' live' area ∧
      Change free live area (.free ptr) free' area := by
  have hmem : ptr ∈ live.map Block.ptr := h.ptrs.mem_iff.mp hptr
  obtain ⟨b, hb, rfl⟩ := mem_map.mp hmem
  have hready : r.heap.initialized = true := by
    by_contra hidle
    rw [Bool.not_eq_true] at hidle
    rw [(h.idle hidle).2.1] at hptr
    cases hptr
  obtain ⟨l1, l2, rfl⟩ := append_of_mem hb
  have hperm : (l1 ++ b :: l2).Perm (b :: (l1 ++ l2)) := perm_middle
  obtain ⟨s', hfree, hready', hinv⟩ := (h.inv.perm_live hperm).kfree hready
  refine ⟨{ r with heap := s', live := r.live.erase b.ptr }, _, _, ?_,
    ⟨hinv, ?_, fun hf => ?_, h.regions, h.tiled⟩, .put hb⟩
  · simp only [Call.step, Block.ptr, hfree, Option.map_some]
  · have hptrs := (h.ptrs.trans (hperm.map Block.ptr)).erase b.ptr
    rw [map_cons, erase_cons_head] at hptrs
    exact hptrs
  · rw [show s'.initialized = false from hf] at hready'
    cases hready'

/-- **One call keeps the heap sound.** -/
theorem step (hlegal : c.Legal r) (hnull : c.OffNull) :
    ∃ r' free' live' area', c.step r = some r' ∧ r'.Sound free' live' area' ∧
      Change free live area c free' area' := by
  cases c with
  | init base size =>
    obtain ⟨r', free', area', hstep⟩ := h.init hlegal hnull
    exact ⟨r', free', live, area', hstep⟩
  | addRegion base size =>
    obtain ⟨r', free', area', hstep⟩ := h.addRegion hlegal hnull
    exact ⟨r', free', live, area', hstep⟩
  | malloc n =>
    obtain ⟨r', free', live', hstep⟩ := h.malloc n
    exact ⟨r', free', live', area, hstep⟩
  | free ptr =>
    obtain ⟨r', free', live', hstep⟩ := h.free_ hlegal
    exact ⟨r', free', live', area, hstep⟩
  | write addr x =>
    obtain ⟨p, hp, hlo, hhi⟩ := hlegal
    obtain ⟨b, hb, rfl⟩ := mem_map.mp (h.ptrs.mem_iff.mp hp)
    have hsize := (h.inv.live_header hb).1
    rw [ptr, Nat.add_sub_cancel, hsize] at hhi
    have hinv : Inv { r.heap with mem := putByte r.heap.mem addr x } free live area :=
      h.inv.write hb fun a ha => putByte_other (by grind [ptr, stop])
    exact ⟨{ r with heap := { r.heap with mem := putByte r.heap.mem addr x } }, free, live,
      area, rfl,
      ⟨hinv, h.ptrs, h.idle, h.regions, h.tiled⟩, .none _⟩

end

theorem total_usable (h : ∀ g ∈ r.regions, g.start ≤ g.stop ∧ g.stop ≤ 2 ^ 64 ∧ g.length < 2 ^ 64) :
    total ((usableBlocks r.regions).map Block.span) ≤ total r.regions := by
  generalize r.regions = gs at h
  induction gs with
  | nil => exact le_refl 0
  | cons g gs ih =>
    have hrest := ih fun g' hg' => h g' (mem_cons_of_mem _ hg')
    obtain ⟨hlo, hhi, -⟩ := h g mem_cons_self
    have hlen : g.start + g.length = g.stop := by
      unfold Span.length
      omega
    rw [usableBlocks_cons, map_append, total_append]
    refine Nat.add_le_add ?_ hrest
    cases hb : usable g.start g.length with
    | none => exact zero_le _
    | some b =>
      obtain ⟨hblo, -, hbstop, -⟩ := usable_spec (by omega) hb
      simp only [Option.toList_some, map_singleton, total, sum_singleton, Span.length, Block.span]
      omega

/-- **The invariant says that the heap is safe.** -/
theorem safe (h : r.Sound free live area) : r.Safe free := by
  have hlive : r.liveBlocks.Perm live := by
    have hmap := h.ptrs.map (blockOf r.heap.mem)
    have hsame : (live.map ptr).map (blockOf r.heap.mem) = live := by
      rw [map_map]
      refine (map_congr_left fun b hb => ?_).trans (map_id live)
      simp only [Function.comp_apply, blockOf, ptr, Nat.add_sub_cancel,
        (h.inv.live_header hb).1, id]
    rw [hsame] at hmap
    exact hmap
  have hinv := h.inv.perm_live hlive.symm
  have hcover := hinv.tiles
  refine ⟨?_, ?_, ?_, hinv.taken, ?_, ?_, ?_, ?_, ?_, ?_⟩
  · have hnodes := nodes_eq h.inv.chain h.inv.null_free
      (by rw [length_map]; exact h.inv.length_lt)
    unfold freeBlocks
    rw [hnodes, Option.map_some, map_map]
    refine congrArg some ((map_congr_left fun b hb => ?_).trans (map_id free))
    simp only [Function.comp_apply, (h.inv.free_header hb).1, id]
  · refine pairwise_map.mpr ((pairwise_append.mp h.inv.pairwise_off).1.imp ?_)
    intro b c hoff heq
    unfold Off headerSize at hoff
    omega
  · intro b hb
    rw [h.inv.freed b hb]
    decide
  · exact pairwise_map.mp hcover.apart
  · intro b hb a ha
    exact h.area_sub ((hcover.cover a).mpr ⟨b.span, mem_map_of_mem hb, ha⟩)
  · intro g hg b hb a ha
    have hmem : a ∈ area := (h.tiled.cover a).mpr
      ⟨b.span, mem_map_of_mem (mem_filterMap.mpr ⟨g, hg, hb⟩), ha⟩
    obtain ⟨t, ht, hta⟩ := (hcover.cover a).mp hmem
    obtain ⟨c, hc, rfl⟩ := mem_map.mp ht
    exact ⟨c, hc, hta⟩
  · intro p hp
    obtain ⟨b, hb, rfl⟩ := mem_map.mp (h.ptrs.mem_iff.mp hp)
    have := (h.inv.placed b (mem_append_right _ hb)).1
    unfold ptr headerSize
    omega
  · rw [memoryUsed, hinv.used, total, map_map]
    congr 2
    funext b
    exact b.length_span
  · rw [memoryUsed, h.inv.used]
    have hle := total_usable h.regions
    rw [← h.inv.tiles.total_eq h.tiled, map_append, total_append] at hle
    omega

end Run.Sound

/-- A call that the history may make. -/
def Call.Allowed (r : Option Run) (c : Call) : Prop := ∀ r' ∈ r, c.Legal r' ∧ c.OffNull

/-- A call is allowed if the state before it passes a test that makes it legal. -/
theorem Call.allowed_of_all {o : Option Run} {p : Run → Bool} (h : o.all p = true)
    (hlegal : ∀ r, p r = true → c.Legal r) (hnull : c.OffNull) : c.Allowed o := by
  intro r hr
  rw [hr] at h
  exact ⟨hlegal r h, hnull⟩

theorem Call.newRegion_of_apart {r : Run} {base size : BitVec 64}
    (hbound : base.toNat + size.toNat ≤ 2 ^ 64) (h : ∀ g ∈ r.regions, g.Apart (region base size)) :
    Call.NewRegion r base size := by
  refine ⟨hbound, fun g hg a hga hnew => ?_⟩
  have h1 := hga
  have h2 := hnew
  unfold Span.Has at h1 h2
  rcases h g hg with hle | hle <;> omega

/-- The first region of a heap. -/
theorem Call.allowed_init {mem : Bytes} {base size : BitVec 64}
    (hbound : base.toNat + size.toNat ≤ 2 ^ 64) (hnull : base ≠ 0#64) :
    (Call.init base size).Allowed (some (Run.start mem)) := by
  intro r hr
  cases hr
  exact ⟨fun _ => ⟨hbound, nofun⟩, fun _ => hnull⟩

/-- The invariant holds along every history. -/
theorem sound_run {r0 : Option Run} {cs : List Call}
    (hinit : ∃ r free live area, r0 = some r ∧ r.Sound free live area)
    (hcs : Runs.Guarded Call.run Call.Allowed r0 cs) :
    ∃ r free live area, Runs.run Call.run r0 cs = some r ∧ r.Sound free live area := by
  refine hcs.invariant (I := fun o => ∃ r free live area, o = some r ∧ r.Sound free live area)
    (fun o c ⟨r, free, live, area, ho, hr⟩ hc => ?_) hinit
  subst ho
  obtain ⟨hlegal, hnull⟩ := hc r rfl
  obtain ⟨r', free', live', area', hstep, hr', -⟩ := hr.step hlegal hnull
  exact ⟨r', free', live', area', hstep, hr'⟩

/-- **The kernel heap is safe** after every history in which no region with room
for a block starts at address 0; in particular every call of it returns. -/
theorem heap_safe (mem : Bytes) (cs : List Call)
    (hcs : Runs.Guarded Call.run Call.Allowed (some (Run.start mem)) cs) :
    ∃ r free, Runs.run Call.run (some (Run.start mem)) cs = some r ∧ r.Safe free := by
  obtain ⟨r, free, live, area, hrun, hr⟩ := sound_run ⟨_, _, _, _, rfl, .start mem⟩ hcs
  exact ⟨r, free, hrun, hr.safe⟩

/-- Two pages, of which one block is taken and given back. -/
theorem heap_safe_twoPages : ∃ r free, Runs.run Call.run (some (Run.start zeros))
    [.init 4096#64 8192#64, .malloc 100#64, .free 4120] = some r ∧ r.Safe free := by
  refine heap_safe zeros _ ⟨Call.allowed_init (by decide) (by decide),
    fun _ _ => ⟨trivial, trivial⟩, ?_, trivial⟩
  exact Call.allowed_of_all (p := fun r => decide (4120 ∈ r.live)) (by decide +kernel)
    (fun r hr => of_decide_eq_true (p := 4120 ∈ r.live) hr) trivial

/-- The block of a region at address 0 is not in the list. -/
theorem region_at_null_not_safe : ∃ r, (Call.init 0#64 4096#64).Legal (Run.start zeros) ∧
    Runs.run Call.run (some (Run.start zeros)) [.init 0#64 4096#64] = some r ∧
      ∀ free, ¬ r.Safe free := by
  obtain ⟨r, hr⟩ : ∃ r, Runs.run Call.run (some (Run.start zeros)) [.init 0#64 4096#64] = some r :=
    Option.isSome_iff_exists.mp (by decide +kernel)
  have hstate : (Runs.run Call.run (some (Run.start zeros)) [.init 0#64 4096#64]).all (fun r =>
      decide (freeBlocks r.heap = some [] ∧ r.live = [] ∧ r.regions = [⟨0, 4096⟩])) = true := by
    decide +kernel
  rw [hr, Option.all_some, decide_eq_true_eq] at hstate
  obtain ⟨hlist, hlive, hregions⟩ := hstate
  refine ⟨r, fun _ => ⟨by decide, nofun⟩, hr, fun free hsafe => ?_⟩
  have hfree : free = [] := by
    have := hsafe.list
    rw [hlist] at this
    exact (Option.some.inj this).symm
  obtain ⟨c, hc, -⟩ := hsafe.exact ⟨0, 4096⟩ (by rw [hregions]; simp) ⟨0, 4072⟩ (by decide) 0
    (by decide)
  rw [hfree, Run.liveBlocks, hlive] at hc
  cases hc

/-! ## Sizes -/

theorem alignUp_le (h : n ≤ 2 ^ 64 - 8) : n ≤ alignUp n := by
  unfold alignUp
  omega

/-- Rounding up wraps around. -/
theorem alignUp_wrap (h : 2 ^ 64 - 8 < n) (hlt : n < 2 ^ 64) : alignUp n = 0 := by
  unfold alignUp
  omega

theorem le_cut {c : Block} (h : n ≤ c.size) : n ≤ (cut c n).1.size := by
  unfold cut
  split
  · exact le_refl n
  · exact h

/-- What `kmalloc` returns is a block that was free. -/
theorem Inv.kmalloc_block {free live : List Block} (h : Inv s free live area) {p : Nat}
    (halloc : kmalloc s n = some (p, s')) (hp : p ≠ 0) : s.freeList ≠ 0 ∧
      ∃ b free', b.ptr = p ∧ alignUp n ≤ b.size ∧ Inv s' free' (b :: live) area := by
  by_cases hgo : s.initialized = false ∨ n = 0
  · rw [kmalloc, if_pos hgo] at halloc
    cases halloc
    exact absurd rfl hp
  rw [not_or, Bool.not_eq_false] at hgo
  cases hfit : firstFit (alignUp n) free with
  | none =>
    rw [h.kmalloc_none hgo.1 hgo.2 hfit] at halloc
    cases halloc
    exact absurd rfl hp
  | some t =>
    obtain ⟨pre, c, post⟩ := t
    obtain ⟨s1, halloc', -, hinv⟩ := h.kmalloc_some hgo.1 hgo.2 hfit
    rw [halloc'] at halloc
    cases halloc
    constructor
    · cases free with
      | nil => cases hfit
      | cons d ds => exact h.chain.1 ▸ h.addr_pos (b := d) (by simp)
    · refine ⟨_, _, ?_, le_cut (firstFit_some hfit).2.1, hinv⟩
      rw [ptr, cut_addr]

/-- **When a block is long enough.**  `kmalloc` returns a block of at least `n`
bytes, or `NULL`, exactly if rounding `n` up does not wrap around or there is no
free block at all. -/
theorem kmalloc_long_enough_iff {s : State} {free live : List Block} {area : Set Nat}
    (h : Inv s free live area) (hidle : s.initialized = false → free = []) (n : BitVec 64) :
    (∀ p s', kmalloc s n.toNat = some (p, s') → p ≠ 0 → n.toNat ≤ size s'.mem (p - headerSize)) ↔
      n.toNat ≤ 2 ^ 64 - 8 ∨ s.freeList = 0 := by
  have hlt := n.isLt
  constructor
  · intro hlong
    by_contra hnot
    rw [not_or, Nat.not_le] at hnot
    obtain ⟨hwrap, hlist⟩ := hnot
    cases free with
    | nil => exact hlist h.chain
    | cons c cs =>
      have hready : s.initialized = true := by
        by_contra hf
        rw [Bool.not_eq_true] at hf
        cases hidle hf
      have hfit : firstFit (alignUp n.toNat) (c :: cs) = some ([], c, cs) := by
        rw [alignUp_wrap hwrap hlt, firstFit, if_pos (Nat.zero_le _)]
      obtain ⟨s', halloc, -, hinv⟩ := h.kmalloc_some hready (by omega) hfit
      have hshort := hlong _ _ halloc (by unfold headerSize; omega)
      rw [Nat.add_sub_cancel, ← cut_addr c, (hinv.live_header mem_cons_self).1,
        alignUp_wrap hwrap hlt] at hshort
      unfold cut at hshort
      split at hshort
      · have hzero : n.toNat ≤ 0 := hshort
        omega
      · rename_i hsmall
        simp only [headerSize] at hsmall hshort
        omega
  · intro hcond p s' halloc hp
    obtain ⟨hlist, b, free', rfl, hroom, hinv⟩ := h.kmalloc_block halloc hp
    rw [ptr, Nat.add_sub_cancel, (hinv.live_header mem_cons_self).1]
    exact Nat.le_trans (alignUp_le (hcond.resolve_right hlist)) hroom

theorem twoPages_inv : ∃ s free live area, memoryInit (State.start zeros) 4096 8192 = some s ∧
    Inv s free live area ∧ s.initialized = true ∧ ∀ a ∈ area, a < 0x40000000 := by
  have hstart := Run.Sound.start zeros
  obtain ⟨r', free', area', hstep, hsound, -⟩ := @Run.Sound.init _ _ _ _ hstart 4096#64 8192#64
    (fun _ => ⟨by decide, nofun⟩) fun _ => by decide
  have hready : (memoryInit (State.start zeros) 4096 8192).all (fun s => s.initialized) = true := by
    decide +kernel
  cases hinit : memoryInit (State.start zeros) 4096 8192 with
  | none =>
    have hsome : (memoryInit (State.start zeros) 4096 8192).isSome = true := by decide +kernel
    rw [hinit] at hsome
    cases hsome
  | some s =>
    rw [hinit] at hready
    simp only [Call.step, Run.start] at hstep
    rw [show (4096#64).toNat = 4096 from rfl, show (8192#64).toNat = 8192 from rfl, hinit] at hstep
    cases hstep
    refine ⟨s, free', [], area', rfl, hsound.inv, hready, fun a ha => ?_⟩
    obtain ⟨g, hg, -, hlt⟩ := hsound.area_sub ha
    obtain rfl : g = region 4096#64 8192#64 := by simpa [State.start] using hg
    exact Nat.lt_trans hlt (by decide)

/-- A request of 100 bytes in two pages. -/
theorem kmalloc_long_enough_iff_hundred : ∃ s, memoryInit (State.start zeros) 4096 8192 = some s ∧
    ∀ p s', kmalloc s 100 = some (p, s') → p ≠ 0 → 100 ≤ size s'.mem (p - headerSize) := by
  obtain ⟨s, free, live, area, hinit, hinv, hready, -⟩ := twoPages_inv
  refine ⟨s, hinit, (kmalloc_long_enough_iff hinv (fun hf => ?_) 100#64).mpr (.inl (by decide))⟩
  rw [hready] at hf
  cases hf

/-- A request of `2 ^ 64 - 1` bytes succeeds with an empty block. -/
theorem kmalloc_short_block : ∃ s free live area, Inv s free live area ∧
    ∃ p s', kmalloc s (2 ^ 64 - 1) = some (p, s') ∧ p ≠ 0 ∧
      ¬ 2 ^ 64 - 1 ≤ size s'.mem (p - headerSize) := by
  obtain ⟨s, free, live, area, hinit, hinv, -⟩ := twoPages_inv
  refine ⟨s, free, live, area, hinv, ?_⟩
  have hresult : ((memoryInit (State.start zeros) 4096 8192).bind (kmalloc · (2 ^ 64 - 1))).any
      (fun r => decide (r.1 ≠ 0 ∧ ¬ 2 ^ 64 - 1 ≤ size r.2.mem (r.1 - headerSize))) = true := by
    decide +kernel
  rw [hinit, Option.bind_some] at hresult
  cases halloc : kmalloc s (2 ^ 64 - 1) with
  | none =>
    rw [halloc] at hresult
    cases hresult
  | some r =>
    rw [halloc, Option.any_some, decide_eq_true_eq] at hresult
    exact ⟨r.1, r.2, rfl, hresult⟩

/-! ## Aligned blocks -/

/-- A freed block is covered by the free ones. -/
theorem Inv.covered {free free' live : List Block} (h : Inv s free (b :: live) area)
    (h' : Inv s' free' live area) {a : Nat} (ha : b.span.Has a) : ∃ c ∈ free', c.span.Has a := by
  have harea : a ∈ area := (h.tiles.cover a).mpr ⟨b.span, by simp, ha⟩
  obtain ⟨t, ht, hta⟩ := (h'.tiles.cover a).mp harea
  obtain ⟨c, hc, rfl⟩ := mem_map.mp ht
  refine ⟨c, (mem_append.mp hc).resolve_right fun hlive => ?_, hta⟩
  have hapart : b.span.Apart c.span := by
    have hp := h.tiles.apart
    rw [map_append, map_cons, pairwise_append] at hp
    exact (pairwise_cons.mp hp.2.1).1 _ (mem_map_of_mem hlive)
  simp only [Span.Apart, Span.Has] at *
  omega

/-- The mask clears the upper half of the sum, too; for a sum of 32 bits this is rounding down. -/
theorem toNat_aligned {al : BitVec 32} {j q : Nat} (hj : al.toNat = 2 ^ j)
    (hq : q + (2 ^ j + 8) < 2 ^ 32) :
    ((BitVec.ofNat 64 q + (al.setWidth 64 + 8#64)) &&& (~~~(al - 1#32)).setWidth 64).toNat =
      (q + (2 ^ j + 8)) / 2 ^ j * 2 ^ j := by
  have hpos := Nat.two_pow_pos j
  have hmask : al - 1#32 = BitVec.ofNat 32 (2 ^ j - 1) := by
    apply BitVec.eq_of_toNat_eq
    rw [BitVec.toNat_sub, BitVec.toNat_ofNat, BitVec.toNat_ofNat, hj]
    omega
  have hsum : (BitVec.ofNat 64 q + (al.setWidth 64 + 8#64)).toNat = q + (2 ^ j + 8) := by
    simp only [BitVec.toNat_add, BitVec.toNat_setWidth, BitVec.toNat_ofNat, hj]
    omega
  have hlow := toNat_and_not_low ((BitVec.ofNat 64 q + (al.setWidth 64 + 8#64)).setWidth 32) j
  rw [BitVec.toNat_and, BitVec.toNat_setWidth, hsum, Nat.mod_eq_of_lt hq] at hlow
  rw [hmask, BitVec.toNat_and, BitVec.toNat_setWidth_of_le (by omega), hsum, hlow]

theorem toNat_alignment {alignment : BitVec 32} {k : Nat} (hpow : alignment.toNat = 2 ^ k) :
    ∃ j, (if alignment.toNat < 8 then 8#32 else alignment).toNat = 2 ^ j ∧ k ≤ j ∧
      2 ^ j ≤ 2 ^ k + 8 := by
  split
  · rename_i hsmall
    rw [hpow] at hsmall
    exact ⟨3, rfl, le_of_lt ((Nat.pow_lt_pow_iff_right (by omega)).mp hsmall), by omega⟩
  · exact ⟨k, hpow, le_refl k, by omega⟩

/-- **Aligned blocks.**  What `kmalloc_aligned` returns is aligned and lies with the word in
front of it in the block that `kmalloc` has returned.  As long as nobody changes that word,
`kfree_aligned` frees the block. -/
theorem kmallocAligned_spec {s : State} {free live : List Block} (h : Inv s free live area)
    (hlow : ∀ a ∈ area, a < 0x40000000) (size : BitVec 64) (alignment : BitVec 32) {k : Nat}
    (hpow : alignment.toNat = 2 ^ k) (hsum : size.toNat + alignment.toNat + 8 < 2 ^ 63)
    {p : Nat} {s' : State} (halloc : kmallocAligned s size alignment = some (p, s')) (hp : p ≠ 0) :
    alignment.toNat ∣ p ∧ ∃ n b s₁ free', kmalloc s n = some (b.ptr, s₁) ∧
      Inv s' free' (b :: live) area ∧ b.ptr + 8 ≤ p ∧ p + size.toNat ≤ b.stop ∧
      ∀ t free live' area, Inv t free (b :: live') area → t.initialized = true →
        (∀ i < 8, t.mem (p - 8 + i) = s'.mem (p - 8 + i)) →
        ∃ t', kfreeAligned t p = some t' ∧ kfree t b.ptr = some t' ∧
          Inv t' (settle free b) live' area ∧ ∀ a, b.span.Has a →
            ∃ c ∈ settle free b, c.span.Has a := by
  unfold kmallocAligned at halloc
  obtain ⟨j, hal, hkj, hj⟩ := toNat_alignment hpow
  generalize (if alignment.toNat < 8 then 8#32 else alignment) = al at hal halloc
  obtain ⟨⟨q, s₁⟩, hcall, hrest⟩ := Option.map_eq_some_iff.mp halloc
  dsimp only at hrest
  split at hrest
  · cases hrest
    exact absurd rfl hp
  rename_i hq
  have htotal : (size + (al.setWidth 64 + 8#64)).toNat = size.toNat + (2 ^ j + 8) := by
    simp only [BitVec.toNat_add, BitVec.toNat_setWidth, BitVec.toNat_ofNat, hal]
    omega
  rw [htotal] at hcall
  obtain ⟨-, b, free', rfl, hlong, hinv⟩ := h.kmalloc_block hcall hq
  have hsize : size.toNat + (2 ^ j + 8) ≤ b.size := Nat.le_trans (alignUp_le (by omega)) hlong
  have hstop := hlow _ (hinv.last_mem (b := b) (by simp))
  have hend : b.stop = b.ptr + b.size := rfl
  rw [toNat_aligned hal (by omega)] at hrest
  obtain ⟨hp, rfl⟩ := Prod.mk.inj hrest
  -- rounding down goes back by less than the alignment
  have hlo := Nat.div_mul_le_self (b.ptr + (2 ^ j + 8)) (2 ^ j)
  have hhi := Nat.lt_div_mul_add (a := b.ptr + (2 ^ j + 8)) (Nat.two_pow_pos j)
  have hdvd : alignment.toNat ∣ p := by
    rw [← hp, hpow]
    exact (Nat.pow_dvd_pow 2 hkj).trans (Nat.dvd_mul_left _ _)
  rw [hp] at hlo hhi ⊢
  have hbefore : before p = p - 8 := by
    unfold before
    omega
  rw [hbefore]
  refine ⟨hdvd, _, b, s₁, free', hcall, hinv.write mem_cons_self fun a ha => ?_,
    by omega, by omega, ?_⟩
  · exact store64_outside (by simp only [Block.ptr] at *; omega)
  intro t freeT liveT areaT ht hready hsame
  obtain ⟨t', hfree, -, hinv'⟩ := ht.kfree hready
  refine ⟨t', ?_, hfree, hinv', fun a ha => ht.covered hinv' ha⟩
  rw [kfreeAligned, if_neg (by omega), hbefore, load64_congr hsame, load64_store64,
    Nat.mod_eq_of_lt (by omega)]
  exact hfree

/-- A request of 100 bytes at a multiple of 64, which is freed again. -/
theorem kmallocAligned_hundred : ∃ s p s' t, memoryInit (State.start zeros) 4096 8192 = some s ∧
    kmallocAligned s 100#64 64#32 = some (p, s') ∧ p ≠ 0 ∧ 64 ∣ p ∧ kfreeAligned s' p = some t := by
  obtain ⟨s, free, live, area, hinit, hinv, -, hlow⟩ := twoPages_inv
  have hcall : ((memoryInit (State.start zeros) 4096 8192).bind fun s =>
      kmallocAligned s 100#64 64#32).any (fun r => r.1 != 0 && r.2.initialized) = true := by
    decide +kernel
  rw [hinit, Option.bind_some] at hcall
  cases halloc : kmallocAligned s 100#64 64#32 with
  | none =>
    rw [halloc] at hcall
    cases hcall
  | some r =>
    rw [halloc] at hcall
    obtain ⟨hp, hready⟩ := Bool.and_eq_true_iff.mp hcall
    have hp : r.1 ≠ 0 := bne_iff_ne.mp hp
    obtain ⟨hdvd, _, b, _, free', -, hinv', -, -, hfree⟩ :=
      kmallocAligned_spec hinv hlow 100#64 64#32 (k := 6) rfl (by decide) halloc hp
    obtain ⟨t, ht, -⟩ := hfree r.2 free' live area hinv' hready fun _ _ => rfl
    exact ⟨s, r.1, r.2, t, hinit, halloc, hp, hdvd, ht⟩

end Utms7.Heap
