import Utms7.PagingTree
import Utms7.Runs
import Utms7.UserMemory

/-!
# Growing the heap of a process

`sys_brk` and `sys_mmap` over whole histories of calls.  The pages behind
`heap_end` may be present, from a call that failed half way; as long as `heap_end`
never moves back they come first among the pages that are still to be used, so that
one look at the first of them tells whether a call would map a page twice.
-/

namespace Utms7.Paging

open Radix ByteMemory List BitVec

/-- What the memory is used for beside the tables and the pages of the allocator: the frames of
the kernel's heap, the frames of the blocks that `kmalloc` has handed out, and the addresses
that are the process's own (the kernel's map of all memory is in its tables too). -/
structure Layout (H : Type) where
  area : Set Frame
  lent : H → Set Frame
  own : Set (BitVec 64)

/-- Memory without a kernel heap. -/
def bare : Layout Unit := ⟨∅, fun _ => ∅, ∅⟩

variable {x w virt phys prot : BitVec 64} {root : Frame} {H : Type} {L : Layout H} {n limit : Nat}
  {r : Pages H} {K : KernelHeap H} {heap heap' heap₂ : H}

/-! ## Addresses -/

theorem toNat_and_not_mask (x : BitVec 64) : (x &&& ~~~4095#64).toNat = x.toNat / 4096 * 4096 :=
  toNat_and_not_low x 12

theorem toNat_pageUp (h : x.toNat + 4095 < 2 ^ 64) :
    (pageUp x).toNat = (x.toNat + 4095) / 4096 * 4096 := by
  rw [pageUp, toNat_and_not_mask, toNat_add, show (4095#64).toNat = 4095 from rfl,
    Nat.mod_eq_of_lt h]

theorem toNat_nextPage (h : x.toNat + 4096 < 2 ^ 64) : (x + 4096#64).toNat = x.toNat + 4096 :=
  toNat_add_ofNat h

theorem toNat_pages (h : x.toNat + 4096 * n < 2 ^ 64) :
    (x + BitVec.ofNat 64 n * 4096#64).toNat = x.toNat + 4096 * n := by
  rw [toNat_add, toNat_mul, toNat_ofNat, show (4096#64).toNat = 4096 from rfl,
    Nat.mod_eq_of_lt (show n < 2 ^ 64 by omega), Nat.mul_comm n,
    Nat.mod_eq_of_lt (show 4096 * n < 2 ^ 64 by omega), Nat.mod_eq_of_lt h]

theorem index_val (virt : BitVec 64) (k : Nat) : (index virt k).val = virt.toNat / 2 ^ k % 512 := by
  rw [index, Fin.val_ofNat, toNat_ushiftRight, Nat.shiftRight_eq_div_pow]

/-- Two addresses are in one page if their page numbers agree in 36 bits. -/
theorem path_eq_iff (a b : BitVec 64) :
    path a = path b ↔ a.toNat / 4096 % 2 ^ 36 = b.toNat / 4096 % 2 ^ 36 := by
  simp only [path, List.cons.injEq, Fin.ext_iff, index_val, and_true]
  constructor
  · rintro ⟨h1, h2, h3, h4⟩
    omega
  · intro h
    refine ⟨?_, ?_, ?_, ?_⟩ <;> omega

/-- The translation of an address is the one of its page. -/
theorem translate_congr (m : Memory) (root : Frame) {a b : BitVec 64} (h : path a = path b) :
    translate m root a = translate m root b := by
  have h12 : index a 12 = index b 12 := by
    simp only [path, List.cons.injEq] at h
    exact h.2.2.2.1
  have h21 : index a 21 = index b 21 := by
    simp only [path, List.cons.injEq] at h
    exact h.2.2.1
  unfold translate mapping leafFrame
  rw [h, h12, h21]

/-- The `k` pages from `virt` on. -/
def pagesFrom : BitVec 64 → Nat → List (BitVec 64)
  | _, 0 => []
  | virt, k + 1 => virt :: pagesFrom (virt + 4096#64) k

theorem mem_pagesFrom {k : Nat} (hfit : virt.toNat + 4096 * k < 2 ^ 64) :
    w ∈ pagesFrom virt k ↔ ∃ i < k, w.toNat = virt.toNat + 4096 * i := by
  induction k generalizing virt with
  | zero => simp [pagesFrom]
  | succ k ih =>
    rw [Nat.mul_succ, ← Nat.add_assoc] at hfit
    have hnext := toNat_nextPage (x := virt) (by omega)
    rw [pagesFrom, mem_cons, ih (by omega)]
    constructor
    · rintro (rfl | ⟨i, hi, h⟩)
      · exact ⟨0, by omega, by omega⟩
      · exact ⟨i + 1, by omega, by omega⟩
    · rintro ⟨i, hi, h⟩
      cases i with
      | zero => exact .inl (eq_of_toNat_eq (by omega))
      | succ i => exact .inr ⟨i, by omega, by omega⟩

/-! ## Machines on which pages can be mapped -/

/-- Frame `f` is no table of the tree. -/
def NoTable (s : Machine) (root f : Frame) : Prop := ∀ q, q.length ≤ 3 → walk s.mem root q ≠ some f

/-- The tables are a tree; they and the free pages are apart from the kernel's heap. -/
structure Grounds (root : Frame) (L : Layout H) (s : Machine) : Prop where
  tree : PageTree s root
  tables : ∀ {f}, f ∈ L.area → NoTable s root f
  pages : ∀ {f}, f ∈ L.area → ¬ s.pool.Free f

/-- A frame that is in use: no free page, no table, and no spare part of the kernel's heap. -/
structure Held (root : Frame) (L : Layout H) (s : Machine) (heap : H) (f : Frame) : Prop where
  busy : ¬ s.pool.Free f
  noTable : NoTable s root f
  lent : f ∈ L.area → f ∈ L.lent heap

/-- What the calls do to the machine: the pages in `mapped` are there afterwards, on frames
that are in use, the others are as before, and the frames that were in use are not written. -/
structure Grown (root : Frame) (L : Layout H) (s : Machine) (heap : H) (s' : Machine) (heap' : H)
    (mapped : List (BitVec 64)) : Prop where
  grounds : Grounds root L s'
  same : ∀ virt, (∀ w ∈ mapped, path virt ≠ path w) →
    translate s'.mem root virt = translate s.mem root virt
  here : ∀ w ∈ mapped, ∃ p, translate s'.mem root w = some p ∧ Held root L s' heap' p.frame
  data : ∀ f, Held root L s heap f → s'.mem f = s.mem f ∧ Held root L s' heap' f

section Grown

variable {f : Frame} {s s' s₂ : Machine} {ws ws' : List (BitVec 64)}
  {flags : BitVec 64}

theorem Grown.refl (h : Grounds root L s) : Grown root L s heap s heap [] :=
  ⟨h, fun _ _ => rfl, nofun, fun _ hf => ⟨rfl, hf⟩⟩

theorem Grown.trans (h : Grown root L s heap s' heap' ws)
    (h' : Grown root L s' heap' s₂ heap₂ ws') :
    Grown root L s heap s₂ heap₂ (ws ++ ws') where
  grounds := h'.grounds
  same virt hoff := by
    rw [h'.same virt fun w hw => hoff w (mem_append_right _ hw),
      h.same virt fun w hw => hoff w (mem_append_left _ hw)]
  here w hw := by
    by_cases hlater : ∃ w' ∈ ws', path w = path w'
    · obtain ⟨w', hw', heq⟩ := hlater
      rw [translate_congr _ _ heq]
      exact h'.here w' hw'
    · rcases mem_append.mp hw with hw | hw
      · obtain ⟨p, hp, hheld⟩ := h.here w hw
        rw [h'.same w fun w' hw' heq => hlater ⟨w', hw', heq⟩]
        exact ⟨p, hp, (h'.data _ hheld).2⟩
      · exact h'.here w hw
  data f hf := by
    obtain ⟨hmem, hheld⟩ := h.data f hf
    obtain ⟨hmem', hheld'⟩ := h'.data f hheld
    exact ⟨hmem'.trans hmem, hheld'⟩

/-- The process's own pages stay on frames that are in use. -/
theorem Grown.backed (h : Grown root L s heap s' heap' ws)
    (hback : ∀ virt ∈ L.own, ∀ p, translate s.mem root virt = some p → Held root L s heap p.frame) :
    ∀ virt ∈ L.own, ∀ p, translate s'.mem root virt = some p → Held root L s' heap' p.frame := by
  intro virt hown p hp
  by_cases hnew : ∃ w ∈ ws, path virt = path w
  · obtain ⟨w, hw, heq⟩ := hnew
    obtain ⟨p', hp', hheld⟩ := h.here w hw
    rw [translate_congr _ _ heq, hp'] at hp
    rwa [← Option.some.inj hp]
  · rw [h.same virt fun w hw heq => hnew ⟨w, hw, heq⟩] at hp
    exact (h.data _ (hback virt hown p hp)).2

/-- A frame that is no table can be filled. -/
theorem fill_walk (hf : NoTable s root f) (table : Index → Entry) {p : List Index}
    (hp : p.length ≤ 4) : walk (fill s.mem f table) root p = walk s.mem root p ∧
      trail (fill s.mem f table) root p = trail s.mem root p := by
  refine fill_same fun i => ?_
  rintro ⟨q, hinit, hwalk⟩
  have hlen := hinit.length_le
  rw [length_append, length_singleton] at hlen
  exact hf q (by omega) hwalk

/-- The grounds stay if a frame is filled that is no table, and pages are taken. -/
theorem Grounds.fill (h : Grounds root L s) (hf : NoTable s root f) {table : Index → Entry}
    (hmem : s'.mem = fill s.mem f table) (hfree : ∀ {g}, s'.pool.Free g → s.pool.Free g) :
    Grounds root L s' := by
  have hwalk : ∀ {p}, p.length ≤ 3 → walk s'.mem root p = walk s.mem root p := fun {p} hp => by
    rw [hmem]
    exact (fill_walk hf table (by omega)).1
  refine ⟨⟨?_, ?_, ?_⟩, ?_, fun hg hfree' => h.pages hg (hfree hfree')⟩
  · intro q q' t hlen hlen' hq hq'
    rw [hwalk hlen] at hq
    rw [hwalk hlen'] at hq'
    exact h.tree.once hlen hlen' hq hq'
  · intro q t hlen hq hfree'
    rw [hwalk hlen] at hq
    exact h.tree.busy hlen hq (hfree hfree')
  · intro i j t hi hhere
    rw [hwalk (by simp)] at hi
    have hne : t ≠ f := by
      rintro rfl
      exact hf [i] (by simp) hi
    rw [hmem, fill_of_ne _ _ hne] at hhere ⊢
    exact h.tree.small hi hhere
  · intro g hg q hlen hq
    rw [hwalk hlen] at hq
    exact h.tables hg q hlen hq

theorem translate_fill (hf : NoTable s root f) (table : Index → Entry) (virt : BitVec 64) :
    translate (Radix.fill s.mem f table) root virt = translate s.mem root virt := by
  unfold translate
  rw [(fill_walk hf table (by simp)).2]

theorem Grounds.alloc (h : Grounds root L s) (heap : H) (halloc : pmmAllocPage s = some (f, s')) :
    Grown root L s heap s' heap [] ∧ Held root L s' heap f ∧ s.pool.Free f := by
  have htaken := pmmAllocPage_taken halloc
  have hf : NoTable s root f := fun q hlen hq => h.tree.busy hlen hq htaken.free
  have hno : ∀ {g}, NoTable s root g → NoTable s' root g := by
    intro g hg q hlen hq
    rw [htaken.mem, (fill_walk hf emptyTable (by omega)).1] at hq
    exact hg q hlen hq
  have hfree : ∀ {g}, s'.pool.Free g → s.pool.Free g := fun hg => (pmm.left halloc hg).1
  refine ⟨⟨h.fill hf htaken.mem hfree, fun virt _ => ?_, nofun, ?_⟩, ⟨?_, hno hf, ?_⟩, htaken.free⟩
  · rw [htaken.mem]
    exact translate_fill hf emptyTable virt
  · rintro g ⟨hbusy, htable, hlent⟩
    have hne : g ≠ f := by
      rintro rfl
      exact hbusy htaken.free
    exact ⟨by rw [htaken.mem, fill_of_ne _ _ hne], fun hg => hbusy (hfree hg), hno htable, hlent⟩
  · exact fun hg => hg.2 ((htaken.used f).mpr (.inr rfl))
  · exact fun harea => absurd htaken.free (h.pages harea)

/-- A page is mapped, with the flags that the calls use. -/
theorem Grounds.map (h : Grounds root L s) (phys virt : BitVec 64)
    (hphys : Held root L s heap (frame phys)) (hflags : flags = 7#64 ∨ flags = 5#64) :
    ∃ c s', pagingMapForProcess s root phys virt flags = (c, s') ∧
      Grown root L s heap s' heap (if c = 0 then [virt] else []) ∧
      (c = 0 → (translate s'.mem root virt).map Mapping.frame = some (frame phys)) ∧
      (c ≠ 0 → ∀ virt', translate s'.mem root virt' = translate s.mem root virt') := by
  have hc := h.tree.clean
  have hmapped := pagingMapForProcess_mapped phys flags (hc (path virt))
  have hsmall : huge flags = false ∧ present flags = true ∧ frame flags = 0#40 := by
    rcases hflags with rfl | rfl <;> decide
  generalize pagingMapForProcess s root phys virt flags = r at hmapped ⊢
  obtain ⟨c, s'⟩ := r
  have hno : ∀ {f}, ¬ s.pool.Free f → NoTable s root f → NoTable s' root f := by
    intro f hfree hno q hlen hq
    rcases hmapped.reached (hc _) rfl hlen hq with hold | hold
    · exact hno q hlen hold
    · exact hfree hold
  have hframe : c = 0 → (translate s'.mem root virt).map Mapping.frame = some (frame phys) := by
    rintro rfl
    obtain ⟨es, hlen, htrail⟩ := hmapped.trail_page (hc _) hsmall.1
    have hpresent : present ((phys &&& ~~~0xFFF#64) ||| flags) = true := by
      have := hsmall.2.1
      unfold present at *
      rw [getLsbD_or, this, Bool.or_true]
    have hphys : frame (phys &&& ~~~0xFFF#64) = frame phys := by
      refine eq_of_getLsbD_eq fun i hi => ?_
      rw [frame, frame, getLsbD_extractLsb', getLsbD_and,
        getLsbD_not, show (0xFFF#64 : BitVec 64) = BitVec.ofNat 64 (2 ^ 12 - 1) from rfl,
        getLsbD_mask]
      have h1 : 12 + i < 64 := by omega
      have h2 : ¬ 12 + i < 12 := by omega
      simp [h1, h2]
    unfold translate
    rw [htrail, mapping_append, hpresent, if_pos rfl, hlen]
    simp only [leafFrame, frame_or, hphys, hsmall.2.2, or_zero]
    rfl
  have hheld : ∀ {f}, Held root L s heap f → Held root L s' heap f := fun hf =>
    ⟨fun hfree => hf.busy (hmapped.free hfree), hno hf.busy hf.noTable, hf.lent⟩
  refine ⟨c, s', rfl, ⟨⟨?_, ?_, ?_⟩, ?_, ?_, ?_⟩, hframe, ?_⟩
  · exact .of_clean fun v => hmapped.clean (hc _) (hc v)
  · exact fun hf => hno (h.pages hf) (h.tables hf)
  · exact fun hf hfree => h.pages hf (hmapped.free hfree)
  · intro virt' hoff
    by_cases hzero : c = 0
    · rw [if_pos hzero] at hoff
      refine hmapped.translate_other (hc _) rfl (fun _ => hoff virt (by simp)) fun _ hlarge => ?_
      rw [hsmall.1] at hlarge
      cases hlarge
    · exact hmapped.translate_failed hzero (hc _) rfl virt'
  · intro w hw
    by_cases hzero : c = 0
    · rw [if_pos hzero, mem_singleton] at hw
      obtain ⟨p, hp, hpf⟩ := Option.map_eq_some_iff.mp (hframe hzero)
      rw [hw]
      exact ⟨p, hp, by rw [hpf]; exact hheld hphys⟩
    · rw [if_neg hzero] at hw
      cases hw
  · exact fun f hf => ⟨hmapped.mem_eq (hc _) hf.noTable hf.busy, hheld hf⟩
  · exact fun hfail virt' => hmapped.translate_failed hfail (hc _) rfl virt'

theorem Held.fill {g : Frame} (h : Held root L s heap g) (hno : NoTable s root f)
    (table : Index → Entry) : Held root L { s with mem := Radix.fill s.mem f table } heap g := by
  refine ⟨h.busy, fun q hlen hq => ?_, h.lent⟩
  rw [(fill_walk hno _ (by omega)).1] at hq
  exact h.noTable q hlen hq

/-- A new page is filled. -/
theorem Grown.fill (h : Grown root L s heap s' heap' ws) (hno : NoTable s' root f)
    (hnew : ¬ Held root L s heap f) (table : Index → Entry) :
    Grown root L s heap { s' with mem := Radix.fill s'.mem f table } heap' ws := by
  refine ⟨h.grounds.fill hno rfl id, fun v hoff => ?_, fun w hw => ?_, fun g hg => ?_⟩
  · rw [translate_fill hno]
    exact h.same v hoff
  · obtain ⟨p, hp, hpage⟩ := h.here w hw
    rw [translate_fill hno]
    exact ⟨p, hp, hpage.fill hno table⟩
  · obtain ⟨hmem, hg'⟩ := h.data g hg
    have hne : g ≠ f := by
      rintro rfl
      exact hnew hg
    exact ⟨(fill_of_ne _ _ hne).trans hmem, hg'.fill hno table⟩

/-- A new page is cleared. -/
theorem Grown.memset (h : Grown root L s heap s' heap' ws) (haligned : virt.toNat % 4096 = 0)
    (hlow : virt.toNat < 2 ^ 47)
    (hpage : (translate s'.mem root virt).map Mapping.frame = some f) (hno : NoTable s' root f)
    (hnew : ¬ Held root L s heap f) :
    ∃ s₂, memsetPage s' root virt = some s₂ ∧ Grown root L s heap s₂ heap' ws := by
  obtain ⟨p, hp, rfl⟩ := Option.map_eq_some_iff.mp hpage
  refine ⟨{ s' with mem := Radix.fill s'.mem p.frame (clearBytes (s'.mem p.frame) 0 4096) }, ?_,
    h.fill hno hnew _⟩
  have hcan : canonical virt = true := by
    rw [canonical, decide_eq_true hlow, Bool.true_or]
  simp [memsetPage, clearPart, haligned, hcan, hp]

/-- A page that is not present cannot be cleared. -/
theorem memsetPage_absent (h : translate s.mem root virt = none) :
    memsetPage s root virt = none := by
  simp [memsetPage, clearPart, h]

/-- **One round** of the loops: a frame has been taken that was not in use, and is mapped and
cleared. -/
theorem Grown.round (h : Grown root L s heap s' heap' []) (haligned : virt.toNat % 4096 = 0)
    (hlow : virt.toNat < 2 ^ 47) (habsent : translate s.mem root virt = none)
    (hphys : Held root L s' heap' (frame phys)) (hnew : ¬ Held root L s heap (frame phys))
    (hflags : flags = 7#64 ∨ flags = 5#64) :
    ∃ c s1, pagingMapForProcess s' root phys virt flags = (c, s1) ∧
      ((c = 0 ∧ ∃ s₂, memsetPage s1 root virt = some s₂ ∧ Grown root L s heap s₂ heap' [virt]) ∨
        (c ≠ 0 ∧ memsetPage s1 root virt = none ∧ Grown root L s heap s1 heap' [])) := by
  obtain ⟨c, s1, hmap, hgrown, hframe, hfailed⟩ := h.grounds.map phys virt hphys hflags
  refine ⟨c, s1, hmap, ?_⟩
  by_cases hzero : c = 0
  · refine .inl ⟨hzero, (h.trans ?_).memset haligned hlow (hframe hzero) ?_ hnew⟩
    · rwa [if_pos hzero] at hgrown
    · exact (hgrown.data _ hphys).2.noTable
  · refine .inr ⟨hzero, memsetPage_absent ?_, h.trans ?_⟩
    · rw [hfailed hzero, h.same virt nofun, habsent]
    · rwa [if_neg hzero] at hgrown

end Grown

/-! ## Loops over pages -/

/-- What a loop over the `n` pages from `virt` leaves. -/
structure LoopDone (root : Frame) (L : Layout H) (s : Machine) (heap : H) (virt : BitVec 64)
    (n : Nat) (r : Pages H) : Prop where
  grown : Grown root L s heap r.machine r.heap r.mapped
  inside : ∀ w ∈ r.mapped, w ∈ pagesFrom virt n

/-- A loop that maps the first pages, all of them if it gets to its end. -/
structure LoopRan (root : Frame) (L : Layout H) (s : Machine) (heap : H) (virt : BitVec 64)
    (n : Nat) (r : Pages H) : Prop extends LoopDone root L s heap virt n r where
  first : ∃ k ≤ n, r.mapped = pagesFrom virt k ∧ (r.ending = .done → k = n)

section Loops

variable {s s' : Machine}

/-- The pages after the first one are others. -/
theorem path_ne_of_mem (hfit : virt.toNat + 4096 * (n + 1) ≤ 2 ^ 47)
    (hw : w ∈ pagesFrom (virt + 4096#64) n) : path w ≠ path virt := by
  have hnext := toNat_nextPage (x := virt) (by omega)
  obtain ⟨i, hi, hw⟩ := (mem_pagesFrom (by omega)).mp hw
  rw [Ne, path_eq_iff]
  omega

/-- One page is mapped, and the rounds after it go on. -/
theorem LoopDone.cons (hgrown : Grown root L s heap s' heap' [virt])
    (h : LoopDone root L s' heap' (virt + 4096#64) n r) :
    LoopDone root L s heap virt (n + 1) (.after 0 virt r) where
  grown := hgrown.trans h.grown
  inside w hw := by
    rcases mem_cons.mp hw with rfl | hw
    · exact mem_cons_self
    · exact mem_cons_of_mem _ (h.inside w hw)

theorem LoopRan.cons (hgrown : Grown root L s heap s' heap' [virt])
    (h : LoopRan root L s' heap' (virt + 4096#64) n r) :
    LoopRan root L s heap virt (n + 1) (.after 0 virt r) := by
  obtain ⟨k, hk, hmapped, hend⟩ := h.first
  exact ⟨h.toLoopDone.cons hgrown, k + 1, by omega, congrArg (virt :: ·) hmapped,
    fun h => by rw [hend h]⟩

theorem LoopRan.stop (hmapped : r.mapped = [])
    (hgrown : Grown root L s heap r.machine r.heap []) (hend : r.ending = .done → 0 = n) :
    LoopRan root L s heap virt n r :=
  ⟨⟨hmapped ▸ hgrown, by simp [hmapped]⟩, 0, Nat.zero_le n, hmapped, hend⟩

/-- The pages that are still to be mapped are absent after a round. -/
theorem absent_tail (hfit : virt.toNat + 4096 * (n + 1) ≤ 2 ^ 47)
    (hgrown : Grown root L s heap s' heap' [virt])
    (habsent : ∀ w ∈ pagesFrom virt (n + 1), translate s.mem root w = none) :
    ∀ w ∈ pagesFrom (virt + 4096#64) n, translate s'.mem root w = none := by
  intro w hw
  rw [hgrown.same w fun w' hw' => ?_]
  · exact habsent w (mem_cons_of_mem _ hw)
  · rw [mem_singleton.mp hw']
    exact path_ne_of_mem hfit hw

/-- **The loop of `sys_brk`.** -/
theorem brkLoop_done (h : Grounds root L s) (haligned : virt.toNat % 4096 = 0)
    (hfit : virt.toNat + 4096 * n ≤ 2 ^ 47)
    (habsent : ∀ w ∈ pagesFrom virt n, translate s.mem root w = none) :
    LoopRan root L s heap virt n (brkLoop root heap n virt s) := by
  induction n generalizing virt s with
  | zero => exact .stop rfl (.refl h) fun _ => rfl
  | succ n ih =>
    have hlen := hfit
    unfold brkLoop
    cases halloc : pmmAllocPage s with
    | none => exact .stop rfl (.refl h) nofun
    | some r =>
      obtain ⟨htaken, hheld, hfree⟩ := h.alloc heap halloc
      rw [← frame_addr r.1] at hheld hfree
      obtain ⟨c, s1, hmap, hround⟩ := htaken.round haligned (by omega)
        (habsent virt mem_cons_self) hheld (fun hold => hold.busy hfree) (.inl rfl)
      simp only [userFlags, hmap]
      rcases hround with ⟨rfl, s₂, hset, hgrown⟩ | ⟨hfail, hset, hgrown⟩
      · have hnext := toNat_nextPage (x := virt) (by omega)
        simp only [hset]
        exact .cons hgrown (ih hgrown.grounds (by omega) (by omega)
          (absent_tail hfit hgrown habsent))
      · simp only [hset, Pages.after, if_neg hfail]
        exact .stop rfl hgrown nofun

/-- **What is assumed of `kmalloc`**: a block is in the kernel's heap, and its frame is not the
one of a block that has been handed out before and not been freed. -/
structure Layout.Lends (L : Layout H) (K : KernelHeap H) : Prop where
  fresh : ∀ heap, (K.kmalloc heap).1 ≠ 0#64 → frame (K.kmalloc heap).1 ∈ L.area ∧
    frame (K.kmalloc heap).1 ∉ L.lent heap ∧ frame (K.kmalloc heap).1 ∈ L.lent (K.kmalloc heap).2
  keeps : ∀ heap, L.lent heap ⊆ L.lent (K.kmalloc heap).2
  returns : ∀ heap block, L.lent heap \ {frame block} ⊆ L.lent (K.kfree heap block)

section Lends

variable (hL : L.Lends K)
include hL

theorem Grown.kmalloc (h : Grounds root L s) (heap : H) :
    Grown root L s heap s (K.kmalloc heap).2 [] :=
  ⟨h, fun _ _ => rfl, nofun, fun _ hf =>
    ⟨rfl, hf.busy, hf.noTable, fun harea => hL.keeps heap (hf.lent harea)⟩⟩

/-- The block of a page that could not be mapped is freed. -/
theorem Grown.kfree (h : Grown root L s heap s' heap' [])
    (hnew : ¬ Held root L s heap (frame phys)) :
    Grown root L s heap s' (K.kfree heap' phys) [] := by
  refine ⟨h.grounds, h.same, nofun, fun f hf => ?_⟩
  obtain ⟨hmem, hheld⟩ := h.data f hf
  have hne : f ≠ frame phys := by
    rintro rfl
    exact hnew hf
  exact ⟨hmem, hheld.busy, hheld.noTable, fun harea => hL.returns _ _ ⟨hheld.lent harea, hne⟩⟩

/-- **The loop of `sys_mmap`.** -/
theorem mmapLoop_done (heap : H) (h : Grounds root L s) (haligned : virt.toNat % 4096 = 0)
    (hfit : virt.toNat + 4096 * n ≤ 2 ^ 47)
    (habsent : ∀ w ∈ pagesFrom virt n, translate s.mem root w = none) :
    LoopRan root L s heap virt n (mmapLoop K root prot n virt s heap) := by
  induction n generalizing virt s heap with
  | zero => exact .stop rfl (.refl h) fun _ => rfl
  | succ n ih =>
    have hlen := hfit
    have htaken := Grown.kmalloc hL h heap
    unfold mmapLoop
    simp only
    by_cases hnull : (K.kmalloc heap).1 = 0#64
    · rw [if_pos hnull]
      exact .stop rfl htaken nofun
    rw [if_neg hnull]
    have hflags : mmapFlags prot = 7#64 ∨ mmapFlags prot = 5#64 := by
      unfold mmapFlags
      split
      · exact .inl rfl
      · exact .inr rfl
    obtain ⟨harea, hspare, hlent⟩ := hL.fresh heap hnull
    have hnew : ¬ Held root L s heap (frame (K.kmalloc heap).1) :=
      fun hold => hspare (hold.lent harea)
    obtain ⟨c, s1, hmap, hround⟩ := htaken.round haligned (by omega) (habsent virt mem_cons_self)
      ⟨h.pages harea, h.tables harea, fun _ => hlent⟩ hnew hflags
    simp only [hmap]
    rcases hround with ⟨rfl, s₂, hset, hgrown⟩ | ⟨hfail, -, hgrown⟩
    · have hnext := toNat_nextPage (x := virt) (by omega)
      simp only [hset]
      exact .cons hgrown (ih (K.kmalloc heap).2 hgrown.grounds (by omega) (by omega)
        (absent_tail hfit hgrown habsent))
    · rw [if_pos hfail]
      exact .stop rfl (hgrown.kfree hL hnew) nofun

end Lends

/-- **The loop over the pages of a device**, which always gets to its end. -/
theorem deviceLoop_done (virt : BitVec 64) (h : Grounds root L s)
    (hdevice : ∀ w ∈ pagesFrom phys n, Held root L s heap (frame w)) :
    LoopDone root L s heap virt n (deviceLoop root heap n phys virt s) ∧
      (deviceLoop root heap n phys virt s).ending = .done := by
  induction n generalizing virt phys s with
  | zero => exact ⟨⟨.refl h, nofun⟩, rfl⟩
  | succ n ih =>
    unfold deviceLoop
    obtain ⟨c, s1, hmap, hgrown, -, -⟩ :=
      h.map phys virt (hdevice phys mem_cons_self) (.inl (rfl : userFlags = 7#64))
    obtain ⟨hdone, hend⟩ := ih (virt + 4096#64) hgrown.grounds fun w hw =>
      (hgrown.data _ (hdevice w (mem_cons_of_mem _ hw))).2
    simp only [hmap]
    by_cases hzero : c = 0
    · subst hzero
      exact ⟨hdone.cons hgrown, hend⟩
    refine ⟨⟨?_, ?_⟩, hend⟩
    · have hboth := hgrown.trans hdone.grown
      simpa [Pages.after, hzero] using hboth
    · intro w hw
      simp only [Pages.after, if_neg hzero] at hw
      exact mem_cons_of_mem _ (hdone.inside w hw)

end Loops

/-! ## Calls -/

/-- The calls that grow the heap. -/
inductive HeapCall
  | brk (address : BitVec 64)
  | mmap (size prot : BitVec 64) (device : Option (BitVec 64))

open HeapCall

section Calls

/-- What a call does. -/
def HeapCall.perform (K : KernelHeap H) (s : System H) : HeapCall → Reply H
  | .brk address => sysBrk s address
  | .mmap size prot device => sysMmap K s size prot device

/-- The next call of a history; a machine that has stopped does nothing. -/
def HeapCall.step (K : KernelHeap H) (r : Reply H) (c : HeapCall) : Reply H :=
  if r.running then c.perform K r.system else { r with mapped := [] }

/-- No mapping is replaced: `heap_end` is not in front of `heap_start`, the pages that
were mapped were absent, all others have the frames that they had, and what was in use
keeps its contents: every frame, and every page of the process. -/
structure Harmless (L : Layout H) (s : System H) (r : Reply H) : Prop where
  order : r.system.process.heapStart.toNat ≤ r.system.process.heapEnd.toNat
  fresh : ∀ w ∈ r.mapped, translate s.machine.mem s.process.cr3 w = none
  frames : ∀ virt, (translate s.machine.mem s.process.cr3 virt).isSome = true →
    translate r.system.machine.mem s.process.cr3 virt = translate s.machine.mem s.process.cr3 virt
  data : ∀ f, Held s.process.cr3 L s.machine s.heap f →
    r.system.machine.mem f = s.machine.mem f
  contents : ∀ virt ∈ L.own, ∀ p, translate s.machine.mem s.process.cr3 virt = some p →
    r.system.machine.mem p.frame = s.machine.mem p.frame

/-- The condition on a call.  `heap_end` does not move back and stays below `limit`,
the first page that is to be mapped is not present, and the pages of a device are in use. -/
def HeapCall.Careful (limit : Nat) (L : Layout H) (s : System H) : HeapCall → Prop
  | .brk address => address = 0#64 ∨ s.process.heapEnd.toNat ≤ address.toNat ∧
      address.toNat ≤ limit ∧ ((pageUp s.process.heapEnd).toNat < (pageUp address).toNat →
        translate s.machine.mem s.process.cr3 (pageUp s.process.heapEnd) = none)
  | .mmap size _ device => s.process.heapEnd.toNat + 4096 * pageCount size ≤ limit ∧
      (0 < pageCount size → translate s.machine.mem s.process.cr3 s.process.heapEnd = none) ∧
      ∀ phys, device = some phys → phys ≠ 0#64 → ∀ w ∈ pagesFrom phys (pageCount size),
        Held s.process.cr3 L s.machine s.heap (frame w)

/-- The pages between `heap_end` and `limit` that are present come first, and the page
of `heap_end` is present unless it is yet to be used; the process's own pages are on frames
that are in use. -/
structure Tight (limit : Nat) (L : Layout H) (s : System H) : Prop where
  grounds : Grounds s.process.cr3 L s.machine
  order : s.process.heapStart.toNat ≤ s.process.heapEnd.toNat
  bound : s.process.heapEnd.toNat ≤ limit
  front : ∀ v w : BitVec 64, s.process.heapEnd.toNat ≤ v.toNat → v.toNat ≤ w.toNat →
    w.toNat < limit → v.toNat % 4096 = 0 → w.toNat % 4096 = 0 →
    (translate s.machine.mem s.process.cr3 w).isSome = true →
    (translate s.machine.mem s.process.cr3 v).isSome = true
  edge : s.process.heapEnd.toNat % 4096 ≠ 0 →
    (translate s.machine.mem s.process.cr3 s.process.heapEnd).isSome = true
  backed : ∀ virt ∈ L.own, ∀ p, translate s.machine.mem s.process.cr3 virt = some p →
    Held s.process.cr3 L s.machine s.heap p.frame

/-- A call does no harm, and leaves a heap with which the next one can be made. -/
def Fine (limit : Nat) (L : Layout H) (s : System H) (r : Reply H) : Prop :=
  Harmless L s r ∧ (r.running = true → Tight limit L r.system)

namespace Tight

variable {s : System H} {newEnd value : BitVec 64}

section

variable (h : Tight limit L s)
include h

/-- If the first page is absent, so are those behind it. -/
theorem absent (hvirt : s.process.heapEnd.toNat ≤ virt.toNat) (haligned : virt.toNat % 4096 = 0)
    (hfirst : translate s.machine.mem s.process.cr3 virt = none)
    (hw : virt.toNat ≤ w.toNat) (hlimit : w.toNat < limit) (hw' : w.toNat % 4096 = 0) :
    translate s.machine.mem s.process.cr3 w = none := by
  cases hsome : translate s.machine.mem s.process.cr3 w with
  | none => rfl
  | some p =>
    have hhere := h.front virt w hvirt hw hlimit haligned hw' (by rw [hsome]; rfl)
    rw [hfirst] at hhere
    cases hhere

/-- **The end of a call after its loop.** -/
theorem finish (hlimit : limit ≤ 2 ^ 47)
    (hloop : LoopDone s.process.cr3 L s.machine s.heap virt n r)
    (haligned : virt.toNat % 4096 = 0) (hlow : s.process.heapEnd.toNat ≤ virt.toNat)
    (hnear : virt.toNat < s.process.heapEnd.toNat + 4096) (hfit : virt.toNat + 4096 * n ≤ limit)
    (habsent : ∀ w : BitVec 64, virt.toNat ≤ w.toNat → w.toNat < limit → w.toNat % 4096 = 0 →
      translate s.machine.mem s.process.cr3 w = none)
    (hend : s.process.heapEnd.toNat ≤ newEnd.toNat) (hend' : newEnd.toNat ≤ virt.toNat + 4096 * n)
    (hend'' : virt.toNat + 4096 * n < newEnd.toNat + 4096)
    (hfull : r.ending = .done → newEnd.toNat % 4096 ≠ 0 → ∃ w ∈ r.mapped, path newEnd = path w)
    (hfirst : r.ending = .failed → ∃ k, r.mapped = pagesFrom virt k ∧ k ≤ n) :
    Fine limit L s (s.finish r newEnd value) := by
  have hpages : ∀ w ∈ r.mapped, ∃ i < n, w.toNat = virt.toNat + 4096 * i := fun w hw =>
    (mem_pagesFrom (by omega)).mp (hloop.inside w hw)
  have hfresh : ∀ w ∈ r.mapped, translate s.machine.mem s.process.cr3 w = none := by
    intro w hw
    obtain ⟨i, hi, hwi⟩ := hpages w hw
    exact habsent w (by omega) (by omega) (by omega)
  have hframes : ∀ v, (translate s.machine.mem s.process.cr3 v).isSome = true →
      translate r.machine.mem s.process.cr3 v = translate s.machine.mem s.process.cr3 v := by
    intro v hv
    refine hloop.grown.same v fun w hw heq => ?_
    rw [translate_congr _ _ heq, hfresh w hw] at hv
    cases hv
  have hdata := fun f hf => (hloop.grown.data f hf).1
  have hcontents := fun v hv p hp => hdata _ (h.backed v hv p hp)
  have hbacked := hloop.grown.backed h.backed
  have horder := h.order
  have hbound := h.bound
  -- Pages that were not mapped and lie behind the first one are still absent.
  have hstill : ∀ w : BitVec 64, virt.toNat ≤ w.toNat → w.toNat < limit → w.toNat % 4096 = 0 →
      (∀ w' ∈ r.mapped, w.toNat ≠ w'.toNat) → translate r.machine.mem s.process.cr3 w = none := by
    intro w hlo hhi hal hne
    rw [hloop.grown.same w fun w' hw' heq => ?_]
    · exact habsent w hlo hhi hal
    · obtain ⟨i, hi, hwi⟩ := hpages w' hw'
      rw [path_eq_iff] at heq
      exact hne w' hw' (by omega)
  cases hending : r.ending with
  | done =>
    simp only [System.finish, hending]
    refine ⟨⟨horder.trans hend, hfresh, hframes, hdata, hcontents⟩, fun _ =>
      ⟨hloop.grown.grounds, horder.trans hend, hend'.trans hfit, ?_, ?_, hbacked⟩⟩
    · intro v w hv hvw hw hval hwal hhere
      simp only at hv hhere ⊢
      rw [hstill w (by omega) hw hwal] at hhere
      · cases hhere
      · intro w' hw' heq
        obtain ⟨i, hi, hwi⟩ := hpages w' hw'
        omega
    · intro hun
      obtain ⟨w, hw, heq⟩ := hfull hending hun
      obtain ⟨p, hp, -⟩ := hloop.grown.here w hw
      simp only
      rw [translate_congr _ _ heq, hp]
      rfl
  | failed =>
    obtain ⟨k, hmapped, hk⟩ := hfirst hending
    simp only [System.finish, hending]
    refine ⟨⟨horder, hfresh, hframes, hdata, hcontents⟩, fun _ =>
      ⟨hloop.grown.grounds, horder, hbound, ?_, ?_, hbacked⟩⟩
    · intro v w hv hvw hw hval hwal hhere
      simp only at hv hhere ⊢
      by_cases hin : ∃ w' ∈ r.mapped, w.toNat = w'.toNat
      · obtain ⟨w', hw', heq⟩ := hin
        rw [hmapped, mem_pagesFrom (by omega)] at hw'
        obtain ⟨p, hp, -⟩ := hloop.grown.here v <| by
          rw [hmapped, mem_pagesFrom (by omega)]
          exact ⟨(v.toNat - virt.toNat) / 4096, by omega, by omega⟩
        rw [hp]
        rfl
      · rw [hstill w (by omega) hw hwal fun w' hw' heq => hin ⟨w', hw', heq⟩] at hhere
        cases hhere
    · intro hun
      simp only
      rw [hframes _ (h.edge hun)]
      exact h.edge hun
  | panic =>
    simp only [System.finish, hending]
    exact ⟨⟨horder, hfresh, hframes, hdata, hcontents⟩, nofun⟩

/-- A call that maps no page and leaves `heap_end` where it is. -/
theorem stay {s' : System H} (hs : s' = s) (running : Bool) :
    Fine limit L s ⟨s', value, [], running⟩ := by
  subst hs
  exact ⟨⟨h.order, nofun, fun _ _ => rfl, fun _ _ => rfl, fun _ _ _ _ => rfl⟩, fun _ => h⟩

/-- **`sys_brk`.** -/
theorem brk (hlimit : limit ≤ 2 ^ 47) (hpage : limit % 4096 = 0) {address : BitVec 64}
    (hcare : (brk address).Careful limit L s) : Fine limit L s (sysBrk s address) := by
  unfold sysBrk
  simp only
  rcases hcare with rfl | ⟨hle, hfit, hfirst⟩
  · exact h.stay rfl true
  by_cases hzero : address = 0#64
  · rw [if_pos hzero]
    exact h.stay rfl true
  rw [if_neg hzero]
  by_cases hgrow : address.toNat > s.process.heapEnd.toNat
  · rw [if_pos hgrow]
    have hold := toNat_pageUp (x := s.process.heapEnd) (by omega)
    have hnew := toNat_pageUp (x := address) (by omega)
    have habsent : 0 < ((pageUp address).toNat - (pageUp s.process.heapEnd).toNat) / 4096 →
        ∀ w : BitVec 64, (pageUp s.process.heapEnd).toNat ≤ w.toNat → w.toNat < limit →
          w.toNat % 4096 = 0 → translate s.machine.mem s.process.cr3 w = none := by
      intro hpos w hlo hhi hal
      exact h.absent (by omega) (by omega) (hfirst (by omega)) hlo hhi hal
    generalize hn : ((pageUp address).toNat - (pageUp s.process.heapEnd).toNat) / 4096 =
      n at habsent ⊢
    rcases Nat.eq_zero_or_pos n with rfl | hpos
    · -- The new end is in the page of the old one.
      have hedge : (translate s.machine.mem s.process.cr3 s.process.heapEnd).isSome = true :=
        h.edge (by omega)
      have hpath : address.toNat % 4096 ≠ 0 → path address = path s.process.heapEnd := by
        intro hun
        rw [path_eq_iff]
        omega
      refine ⟨⟨h.order.trans hle, nofun, fun _ _ => rfl, fun _ _ => rfl,
        fun _ _ _ _ => rfl⟩, fun _ =>
        ⟨h.grounds, h.order.trans hle, hfit, fun v w hv => h.front v w (hle.trans hv),
          fun hun => ?_, h.backed⟩⟩
      exact (congrArg Option.isSome (translate_congr _ _ (hpath hun))).trans hedge
    · obtain ⟨hloop, k, hk, hmapped, hend⟩ := brkLoop_done h.grounds
        (show (pageUp s.process.heapEnd).toNat % 4096 = 0 by omega)
        (show (pageUp s.process.heapEnd).toNat + 4096 * n ≤ 2 ^ 47 by omega) fun w hw => by
          obtain ⟨i, hi, hwi⟩ := (mem_pagesFrom (by omega)).mp hw
          exact habsent hpos w (by omega) (by omega) (by omega)
      refine h.finish hlimit hloop (by omega) (by omega) (by omega) (by omega) (habsent hpos)
        (by omega)
        (by omega) (by omega) (fun hdone hun => ?_) fun _ => ⟨k, hmapped, hk⟩
      refine ⟨pageUp s.process.heapEnd + BitVec.ofNat 64 (n - 1) * 4096#64, ?_, ?_⟩
      · rw [hmapped, hend hdone, mem_pagesFrom (by omega)]
        exact ⟨n - 1, by omega, toNat_pages (by omega)⟩
      · rw [path_eq_iff, toNat_pages (by omega)]
        omega
  · rw [if_neg hgrow]
    obtain rfl : address = s.process.heapEnd := eq_of_toNat_eq (by omega)
    exact h.stay rfl true

/-- **`sys_mmap`.** -/
theorem mmap (hlimit : limit ≤ 2 ^ 47) (hL : L.Lends K) {size : BitVec 64}
    {device : Option (BitVec 64)} (hcare : (mmap size prot device).Careful limit L s) :
    Fine limit L s (sysMmap K s size prot device) := by
  obtain ⟨hfit, hfirst, hdevice⟩ := hcare
  unfold sysMmap
  simp only
  generalize pageCount size = n at hfit hfirst hdevice ⊢
  rcases Nat.eq_zero_or_pos n with rfl | hpos
  · have hsame : s.process.heapEnd + BitVec.ofNat 64 0 * 4096#64 = s.process.heapEnd := by simp
    rw [hsame]
    cases device with
    | none => exact h.stay rfl true
    | some phys =>
      simp only
      by_cases hnull : phys = 0#64
      · rw [if_pos hnull]
        exact h.stay rfl true
      · rw [if_neg hnull]
        exact h.stay rfl true
  · have haligned : s.process.heapEnd.toNat % 4096 = 0 := by
      by_contra hun
      have hhere := h.edge hun
      rw [hfirst hpos] at hhere
      cases hhere
    have habsent : ∀ w : BitVec 64, s.process.heapEnd.toNat ≤ w.toNat → w.toNat < limit →
        w.toNat % 4096 = 0 → translate s.machine.mem s.process.cr3 w = none := fun w hlo hhi hal =>
      h.absent (Nat.le_refl _) haligned (hfirst hpos) hlo hhi hal
    have hend := toNat_pages (x := s.process.heapEnd) (n := n) (by omega)
    cases device with
    | none =>
      obtain ⟨hloop, k, hk, hmapped, -⟩ := mmapLoop_done hL s.heap h.grounds
        haligned (show s.process.heapEnd.toNat + 4096 * n ≤ 2 ^ 47 by omega) fun w hw => by
          obtain ⟨i, hi, hwi⟩ := (mem_pagesFrom (by omega)).mp hw
          exact habsent w (by omega) (by omega) (by omega)
      exact h.finish hlimit hloop haligned (Nat.le_refl _) (by omega) hfit habsent (by omega)
        (by omega) (by omega) (fun _ hun => absurd (by omega) hun) fun _ => ⟨k, hmapped, hk⟩
    | some phys =>
      simp only
      by_cases hnull : phys = 0#64
      · rw [if_pos hnull]
        exact h.stay rfl true
      rw [if_neg hnull]
      obtain ⟨hloop, hdone⟩ := deviceLoop_done s.process.heapEnd h.grounds (hdevice phys rfl hnull)
      refine h.finish hlimit hloop haligned (Nat.le_refl _) (by omega) hfit habsent (by omega)
        (by omega) (by omega) (fun _ hun => absurd (by omega) hun) fun hfailed => ?_
      rw [hdone] at hfailed
      cases hfailed

end

end Tight

section Histories

variable {K : KernelHeap H} {s : System H} {c : HeapCall}

section

variable (hL : L.Lends K) (hlimit : limit ≤ 2 ^ 47) (hpage : limit % 4096 = 0)
include hL hlimit hpage

end

/-- A process whose heap is empty. -/
structure Fresh (limit : Nat) (L : Layout H) (s : System H) : Prop where
  grounds : Grounds s.process.cr3 L s.machine
  empty : s.process.heapEnd = s.process.heapStart
  aligned : s.process.heapStart.toNat % 4096 = 0
  bound : s.process.heapStart.toNat ≤ limit
  absent : ∀ w : BitVec 64, s.process.heapStart.toNat ≤ w.toNat → w.toNat < limit →
    translate s.machine.mem s.process.cr3 w = none
  backed : ∀ virt ∈ L.own, ∀ p, translate s.machine.mem s.process.cr3 virt = some p →
    Held s.process.cr3 L s.machine s.heap p.frame

end Histories

end Calls

/-! ## A small system -/

/-- The blocks of a kernel heap with room for eight of them, each behind its header. -/
def block (k : Nat) : BitVec 64 := BitVec.ofNat 64 (0x200020 + 4128 * k)

end Utms7.Paging
