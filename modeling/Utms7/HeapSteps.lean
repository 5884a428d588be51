import Mathlib.Data.List.TakeWhile
import Utms7.HeapInvariant

/-!
# The functions of the heap keep its invariant

For each part of `kmalloc`, `kfree` and `memory_add_region` the free list after
it is a function of the free list before: `joinRuns` for the merging loop,
`cut` for the split, `settle` for `kfree`.
-/

namespace Utms7.Heap

variable {n base : Nat} {s : State} {free live pre post lo hi : List Block} {area : Set Nat}

open LinkedList Spans List Option Nat Block

/-! ## The merging loop -/

/-- The list after the merging loop has come to the block `c`. -/
def joinRuns : Block → List Block → List Block
  | c, [] => [c]
  | c, d :: ds => if c.stop = d.addr then joinRuns (c.join d) ds else c :: joinRuns d ds

/-- The list after the merging loop. -/
def joined : List Block → List Block
  | [] => []
  | c :: cs => joinRuns c cs

namespace Inv

variable {c d : Block}

theorem mergeLoop_cons (h : Inv s (pre ++ c :: post) live area) (hn : post.length < n) :
    ∃ m, mergeLoop n s.mem c.addr = some m ∧
      Inv { s with mem := m } (pre ++ joinRuns c post) live area := by
  induction post generalizing s pre c n with
  | nil =>
    obtain ⟨n, rfl⟩ : ∃ k, n = k + 1 := ⟨n - 1, by simp at hn; omega⟩
    have hend : next s.mem c.addr = 0 := h.chain_split.2
    refine ⟨s.mem, ?_, h⟩
    rw [mergeLoop, if_neg (h.addr_pos (by simp)), if_pos hend]
  | cons d post ih =>
    obtain ⟨n, rfl⟩ : ∃ k, n = k + 1 := ⟨n - 1, by simp at hn; omega⟩
    obtain ⟨-, hnext, -⟩ := h.chain_split
    have hc : c ∈ (pre ++ c :: d :: post) ++ live := by simp
    have hd : d ∈ (pre ++ c :: d :: post) ++ live := by simp
    rw [mergeLoop, if_neg (h.addr_pos hc), hnext, if_neg (h.addr_pos hd), joinRuns]
    simp only [h.blockEnd_eq_iff hc hd]
    by_cases htouch : c.stop = d.addr
    · rw [if_pos htouch, if_pos htouch]
      exact ih (h.absorb htouch) (by simpa using hn)
    · rw [if_neg htouch, if_neg htouch]
      have hshift : pre ++ c :: d :: post = (pre ++ [c]) ++ d :: post := by simp
      rw [hshift] at h
      obtain ⟨m, hm, hinv⟩ := ih h (by simpa using hn)
      exact ⟨m, hm, by simpa using hinv⟩

/-- **The merging loop ends, and joins what touches.** -/
theorem mergeLoop (h : Inv s free live area) :
    ∃ m, mergeLoop rounds s.mem s.freeList = some m ∧
      Inv { s with mem := m } (joined free) live area := by
  cases free with
  | nil =>
    have hnull : s.freeList = 0 := h.chain
    refine ⟨s.mem, ?_, h⟩
    rw [hnull]
    exact if_pos rfl
  | cons c cs =>
    have hhead : s.freeList = c.addr := h.chain.1
    have hlen := h.length_lt
    rw [length_cons] at hlen
    have hsplit : Inv s ([] ++ c :: cs) live area := h
    have hloop := mergeLoop_cons (n := rounds) hsplit (by omega)
    rwa [← hhead] at hloop

end Inv

/-! ## Links -/

/-- The address of the last block of a part of the list, which is what the loops
keep in `prev`. -/
def lastAddr (pre : List Block) : Nat := (pre.map Block.addr).getLastD 0

theorem lastAddr_append (pre : List Block) (c : Block) : lastAddr (pre ++ [c]) = c.addr := by
  simp [lastAddr]

section Links

variable {q x : Nat}

theorem setLink_spec (hpre : Linked s.mem s.freeList pre q)
    (hoff : pre.Pairwise fun b c => Off b.addr c.addr) (hnull : ∀ b ∈ pre, b.addr ≠ 0)
    (hx : x < 2 ^ 64) :
    Linked (setLink s (lastAddr pre) x).mem (setLink s (lastAddr pre) x).freeList pre x ∧
    (∀ a, (∀ b ∈ pre, Off a b.addr) → header (setLink s (lastAddr pre) x).mem a = header s.mem a) ∧
    (setLink s (lastAddr pre) x).usedMemory = s.usedMemory := by
  rcases eq_nil_or_concat pre with rfl | ⟨pre, c, rfl⟩
  · exact ⟨rfl, fun _ _ => rfl, rfl⟩
  rw [concat_eq_append] at *
  have hc : c.addr ≠ 0 := hnull c (by simp)
  have hoffc : ∀ b ∈ pre, Off b.addr c.addr := fun b hb =>
    (pairwise_append.mp hoff).2.2 b hb c (by simp)
  obtain ⟨r, hfirst, hr, u, hhead, -⟩ := linked_append.mp hpre
  rw [lastAddr_append, setLink, if_neg hc]
  refine ⟨linked_append.mpr ⟨r, hfirst.congr fun b hb => header_setNext_off (hoffc b hb), hr, x, ?_,
    rfl⟩, fun a ha => header_setNext_off (ha c (by simp)), rfl⟩
  rw [header_setNext, hhead, mod_eq_of_lt hx]

end Links

namespace Inv

variable {b c : Block}

/-- The headers of different blocks are apart. -/
theorem pairwise_off (h : Inv s free live area) :
    (free ++ live).Pairwise fun b c => Off b.addr c.addr :=
  (pairwise_map.mp h.tiles.apart).imp off_of_apart

theorem pairwise_off_pre (h : Inv s (pre ++ post) live area) :
    pre.Pairwise fun b c => Off b.addr c.addr :=
  (pairwise_append.mp (pairwise_append.mp h.pairwise_off).1).1

end Inv

/-! ## `kmalloc` -/

/-- What becomes of a free block when `n` bytes of it are taken. -/
def cut (c : Block) (n : Nat) : Block × List Block :=
  if c.size - n ≥ headerSize + 16 then
    (⟨c.addr, n⟩, [⟨c.addr + headerSize + n, c.size - n - headerSize⟩])
  else (c, [])

theorem cut_addr (c : Block) (n : Nat) : (cut c n).1.addr = c.addr := by
  unfold cut
  split <;> rfl

namespace Inv

variable {b c : Block}

/-- **A free block is cut in two.** -/
theorem splitBlock (h : Inv s (pre ++ c :: post) live area) (hn : n ≤ c.size) (hdvd : 8 ∣ n) :
    Inv { s with mem := Heap.splitBlock s.mem c.addr n }
      (pre ++ (cut c n).1 :: ((cut c n).2 ++ post)) live area := by
  have hc : c ∈ (pre ++ c :: post) ++ live := by simp
  have hsizec := h.sizes c hc
  have hstop := h.stop_le hc
  unfold Heap.splitBlock cut
  rw [hsizec]
  by_cases hroom : c.size - n ≥ headerSize + 16
  · rw [if_pos hroom, if_pos hroom]
    have hstop' : c.addr + headerSize + c.size ≤ 2 ^ 64 := hstop
    have hnew : (c.addr + headerSize + n) % 2 ^ 64 = c.addr + headerSize + n :=
      mod_eq_of_lt (by unfold headerSize at *; omega)
    simp only [hnew]
    -- the tiling with the block cut in two
    have hsplit := h.focus.split (m := c.addr + headerSize + n)
      (by simp only [Block.span, headerSize]; omega)
      (by simp only [Block.span, Block.stop] at *; omega)
    generalize hb1 : (⟨c.addr, n⟩ : Block) = b1
    generalize hb2 : (⟨c.addr + headerSize + n, c.size - n - headerSize⟩ : Block) = b2
    have haddr1 : b1.addr = c.addr := by rw [← hb1]
    have haddr2 : b2.addr = c.addr + headerSize + n := by rw [← hb2]
    have hspan1 : (⟨c.span.start, c.addr + headerSize + n⟩ : Span) = b1.span := by
      rw [← hb1]
      rfl
    have hspan2 : (⟨c.addr + headerSize + n, c.span.stop⟩ : Span) = b2.span := by
      rw [← hb2]
      simp only [Block.span, Block.stop, Span.mk.injEq, true_and]
      omega
    have htiles : Tiles ((b1 :: b2 :: (pre ++ post ++ live)).map Block.span) area := by
      simp only [map_cons, ← hspan1, ← hspan2]
      exact hsplit
    have hoff21 : Off b2.addr b1.addr := off_head htiles mem_cons_self
    have hoff1 : ∀ b ∈ pre ++ post ++ live, Off b.addr b1.addr := fun b hb =>
      off_head htiles (mem_cons_of_mem _ hb)
    have hoff2 : ∀ b ∈ pre ++ post ++ live, Off b.addr b2.addr := fun b hb => by
      have hrest : Tiles ((b2 :: b1 :: (pre ++ post ++ live)).map Block.span) area :=
        htiles.perm ((List.Perm.swap b2 b1 _).map Block.span)
      exact off_head hrest (mem_cons_of_mem _ hb)
    rw [← haddr2, ← haddr1]
    generalize hm : setNext (setSize (setNext (setFlag (setSize s.mem b2.addr
      (c.size - n - headerSize)) b2.addr 1#8) b2.addr (next (setFlag (setSize s.mem b2.addr
      (c.size - n - headerSize)) b2.addr 1#8) b1.addr)) b1.addr n) b1.addr b2.addr = m
    have hnext : next (setFlag (setSize s.mem b2.addr (c.size - n - headerSize)) b2.addr 1#8)
        b1.addr = next s.mem c.addr := by
      rw [next_eq, header_setFlag_off hoff21.symm, header_setSize_off hoff21.symm, haddr1,
        ← next_eq]
    rw [hnext] at hm
    have hlt1 : n < 2 ^ 64 := by unfold headerSize at *; omega
    have hlt2 : c.size - n - headerSize < 2 ^ 64 := by unfold headerSize at *; omega
    have hlta : b2.addr < 2 ^ 64 := by rw [haddr2]; unfold headerSize at *; omega
    obtain ⟨_, hpre, rfl, r, hheadc, hpost⟩ := linked_append.mp h.linked
    have hself1 : header m b1.addr = ⟨b1.size, b2.addr, 1#8⟩ := by
      rw [← hm, header_setNext, header_setSize, header_setNext_off hoff21.symm,
        header_setFlag_off hoff21.symm, header_setSize_off hoff21.symm, haddr1, hheadc]
      simp only [mod_eq_of_lt hlt1, mod_eq_of_lt hlta, ← hb1]
    have hself2 : header m b2.addr = ⟨b2.size, r, 1#8⟩ := by
      rw [← hm, header_setNext_off hoff21, header_setSize_off hoff21, header_setNext,
        header_setFlag,
        header_setSize]
      simp only [mod_eq_of_lt hlt2, mod_eq_of_lt (next_lt _ _), ← hb2]
      rw [next_eq, hheadc]
    have hother : ∀ b ∈ pre ++ post ++ live, header m b.addr = header s.mem b.addr := by
      intro b hb
      rw [← hm, header_setNext_off (hoff1 b hb), header_setSize_off (hoff1 b hb),
        header_setNext_off (hoff2 b hb), header_setFlag_off (hoff2 b hb),
        header_setSize_off (hoff2 b hb)]
    have hperm : ((pre ++ b1 :: ([b2] ++ post)) ++ live).Perm
        (b1 :: b2 :: (pre ++ post ++ live)) := by
      have h1 := @perm_middle _ b1 pre (b2 :: (post ++ live))
      have h2 := (@perm_middle _ b2 pre (post ++ live)).cons b1
      simpa using h1.trans h2
    refine of_linked (linked_append.mpr ⟨b1.addr, ?_, rfl, b2.addr, hself1, rfl, r, hself2,
      hpost.congr fun b hb => hother b (by simp [hb])⟩)
      (fun b hb => h.live_congr hother hb (by simp [hb]))
      (htiles.perm (hperm.map Block.span).symm) h.bounds ?_ h.used
    · rw [haddr1]
      exact hpre.congr fun b hb => hother b (by simp [hb])
    · intro b hb
      have hb' := hperm.mem_iff.mp hb
      simp only [mem_cons] at hb'
      rcases hb' with rfl | rfl | hb'
      · rw [haddr1]
        exact h.placed c hc
      · have hdvdc := (h.placed c hc).1
        unfold headerSize at *
        exact ⟨by omega, by omega⟩
      · exact h.placed b (by simp only [mem_append] at hb' ⊢; tauto)
  · rw [if_neg hroom, if_neg hroom]
    exact h

/-- **A free block becomes an allocated one.** -/
theorem takeBlock (h : Inv s (pre ++ c :: post) live area) :
    Inv (Heap.takeBlock s (lastAddr pre) c.addr) (pre ++ post) (c :: live) area := by
  obtain ⟨_, hpre, rfl, r, hheadc, hpost⟩ := linked_append.mp h.linked
  have hr : next s.mem c.addr = r := congrArg Header.next hheadc
  obtain ⟨hlinked, hother, hused⟩ := setLink_spec hpre h.pairwise_off_pre
    (fun b hb => h.addr_pos (by simp [hb])) (hr ▸ next_lt s.mem c.addr)
  have hoffpre : ∀ b ∈ post ++ live, ∀ b' ∈ pre, Off b.addr b'.addr := by
    intro b hb b' hb'
    have hpair := pairwise_append.mp (by
      have := h.pairwise_off
      rwa [append_assoc] at this)
    refine (hpair.2.2 b' hb' b ?_).symm
    simp only [cons_append, mem_cons]
    exact .inr hb
  have hoffc : ∀ b ∈ pre, Off c.addr b.addr := fun b hb => (h.off_free (by simp [hb])).symm
  generalize hs1 : setLink s (lastAddr pre) r = s1 at *
  have htake : Heap.takeBlock s (lastAddr pre) c.addr =
      { s1 with
        mem := setNext (setFlag s1.mem c.addr 0#8) c.addr 0
        usedMemory := (s1.usedMemory + (size (setNext (setFlag s1.mem c.addr 0#8) c.addr 0) c.addr +
          headerSize)) % 2 ^ 64 } := by
    unfold Heap.takeBlock
    simp only [hr, hs1]
  have hself : header (setNext (setFlag s1.mem c.addr 0#8) c.addr 0) c.addr = ⟨c.size, 0, 0#8⟩ := by
    rw [header_setNext, header_setFlag, hother c.addr hoffc, hheadc, zero_mod]
  have hrest : ∀ b, b ∈ pre ++ post ++ live →
      header (setNext (setFlag s1.mem c.addr 0#8) c.addr 0) b.addr = header s1.mem b.addr := by
    intro b hb
    rw [header_setNext_off (h.off_free hb), header_setFlag_off (h.off_free hb)]
  have hbehind : ∀ b ∈ post ++ live,
      header (setNext (setFlag s1.mem c.addr 0#8) c.addr 0) b.addr = header s.mem b.addr := by
    intro b hb
    rw [hrest b (by rw [append_assoc]; exact mem_append_right _ hb), hother b.addr (hoffpre b hb)]
  have htiles : Tiles (((pre ++ post) ++ (c :: live)).map span) area := by
    refine h.focus.perm (List.Perm.map _ ?_)
    exact (@perm_middle _ c (pre ++ post) live).symm
  have htotal : total ((c :: live).map span) < 2 ^ 64 := by
    have hle := htiles.total_le h.bounds
    rw [map_append, total_append] at hle
    omega
  rw [htake]
  refine of_linked (linked_append.mpr ⟨r, hlinked.congr fun b hb => hrest b (by simp [hb]),
    hpost.congr fun b hb => hbehind b (by simp [hb])⟩) (fun b hb => ?_) htiles h.bounds
    (fun b hb => h.placed b ?_) ?_
  · rcases mem_cons.mp hb with rfl | hb
    · rw [size_eq, flag_eq, hself]
      exact ⟨rfl, rfl⟩
    · exact h.live_congr hbehind hb (by simp [hb])
  · simp only [mem_append, mem_cons] at hb ⊢
    tauto
  · rw [map_cons, total_cons, length_span] at htotal ⊢
    simp only [size_eq, hself, hused, h.used]
    omega

end Inv

/-- The first block of the list that has room for `n` bytes, and those before and
behind it. -/
def firstFit (n : Nat) : List Block → Option (List Block × Block × List Block)
  | [] => none
  | c :: cs => if n ≤ c.size then some ([], c, cs) else (firstFit n cs).map fun r => (c :: r.1, r.2)

theorem firstFit_some {pre post : List Block} {c : Block}
    (h : firstFit n free = some (pre, c, post)) :
    free = pre ++ c :: post ∧ n ≤ c.size ∧ ∀ b ∈ pre, ¬ n ≤ b.size := by
  induction free generalizing pre with
  | nil => cases h
  | cons d ds ih =>
    rw [firstFit] at h
    split at h
    · cases h
      exact ⟨rfl, ‹_›, nofun⟩
    cases hds : firstFit n ds with
    | none =>
      rw [hds] at h
      cases h
    | some r =>
      obtain ⟨pre', c', post'⟩ := r
      rw [hds] at h
      cases h
      obtain ⟨rfl, hfit, hbefore⟩ := ih hds
      refine ⟨rfl, hfit, fun b hb => ?_⟩
      rcases mem_cons.mp hb with rfl | hb
      · assumption
      · exact hbefore b hb

theorem firstFit_none : firstFit n free = none ↔ ∀ b ∈ free, ¬ n ≤ b.size := by
  induction free with
  | nil => simp [firstFit]
  | cons d ds ih =>
    rw [firstFit]
    split
    · rename_i hfit
      simp [hfit]
    · rename_i hfit
      rw [map_eq_none_iff, ih, forall_mem_cons]
      exact ⟨fun h => ⟨hfit, h⟩, fun h => h.2⟩

theorem alignUp_dvd {n : Nat} : 8 ∣ alignUp n := by
  exact Nat.dvd_mul_left 8 _

namespace Inv

variable {b c d : Block}

/-- A search along the list ends at the first block where it may stop. -/
theorem walk_to {m : ByteMemory.Bytes} (h : Inv s (pre ++ post) live area) {stop : Nat → Bool}
    {r : Nat} (hseg : Seg (next m) s.freeList (pre.map addr) r)
    (hpre : ∀ b ∈ pre, stop b.addr = false) (hend : r = 0 ∨ stop r = true) :
    walk (next m) 0 stop rounds 0 s.freeList = some (lastAddr pre, r) := by
  have hlen := h.length_lt
  rw [length_append] at hlen
  refine walk_eq hseg (fun a ha => h.null_free a ?_) (fun a ha => ?_) hend ?_ 0
  · rw [map_append]
    exact mem_append_left _ ha
  · obtain ⟨b, hb, rfl⟩ := mem_map.mp ha
    exact hpre b hb
  · rw [length_map]
    omega

/-- The search of `kmalloc`. -/
theorem walk_fits (h : Inv s (pre ++ post) live area)
    (hpre : ∀ b ∈ pre, ¬ n ≤ b.size) (hpost : ∀ c ∈ post.head?, n ≤ c.size) :
    walk (next s.mem) 0 (fun curr => decide (flag s.mem curr ≠ 0#8 ∧ size s.mem curr ≥ n)) rounds 0
      s.freeList = some (lastAddr pre, (post.map addr).headD 0) := by
  have hchain := h.chain
  rw [map_append] at hchain
  obtain ⟨r, hseg, hrest⟩ := seg_append.mp hchain
  have hr : r = (post.map addr).headD 0 := by
    cases post with
    | nil => exact hrest
    | cons c cs => exact hrest.1
  subst hr
  refine h.walk_to hseg (fun b hb => ?_) ?_
  · have hsize := (h.free_header (b := b) (by simp [hb])).1
    simp only [hsize, decide_eq_false_iff_not, not_and]
    exact fun _ => hpre b hb
  · cases post with
    | nil => exact .inl rfl
    | cons c cs =>
      obtain ⟨hsize, hflag⟩ := h.free_header (b := c) (by simp)
      refine .inr ?_
      simp only [map_cons, headD_cons, hsize, hflag, decide_eq_true_eq]
      exact ⟨by decide, hpost c rfl⟩

section

variable (h : Inv s free live area) (hready : s.initialized = true) (hn : n ≠ 0)
include h hready hn

/-- `kmalloc` where no block has room. -/
theorem kmalloc_none (hnone : firstFit (alignUp n) free = none) : kmalloc s n = some (0, s) := by
  have hsplit : Inv s (free ++ []) live area := by simpa using h
  have hwalk := walk_fits (n := alignUp n) hsplit (firstFit_none.mp hnone) nofun
  unfold kmalloc
  rw [if_neg (by simp [hready, hn])]
  simp only [hwalk]
  rfl

/-- **`kmalloc` takes the first block that has room**, or its first part. -/
theorem kmalloc_some (hfit : firstFit (alignUp n) free = some (pre, c, post)) :
    ∃ s', kmalloc s n = some (c.addr + headerSize, s') ∧ s'.initialized = true ∧
      Inv s' (pre ++ ((cut c (alignUp n)).2 ++ post)) ((cut c (alignUp n)).1 :: live) area := by
  obtain ⟨rfl, hroom, hbefore⟩ := firstFit_some hfit
  have hc : c ∈ (pre ++ c :: post) ++ live := by simp
  have hpos := h.addr_pos hc
  have hwalk := h.walk_fits hbefore (fun d hd => by simp at hd; exact hd ▸ hroom)
  have htaken := (h.splitBlock hroom (alignUp_dvd)).takeBlock
  rw [cut_addr] at htaken
  refine ⟨_, ?_, ?_, htaken⟩
  · unfold kmalloc
    rw [if_neg (by simp [hready, hn])]
    simp only [hwalk, map_some, map_cons, headD_cons, if_neg hpos]
    rw [mod_eq_of_lt (h.placed c hc).2]
  · unfold Heap.takeBlock setLink
    split <;> exact hready

end

/-! ## `kfree` -/

end Inv

/-- The list after the merge with the next block. -/
def absorbNext (b : Block) : List Block → List Block
  | [] => [b]
  | d :: ds => if b.stop = d.addr then b.join d :: ds else b :: d :: ds

/-- The list after the merge with the block before: `c` is the freed block. -/
def absorbPrev (lo : List Block) (c : Block) (hi : List Block) : List Block :=
  match lo.getLast? with
  | none => c :: hi
  | some p => if p.stop = c.addr then lo.dropLast ++ p.join c :: hi else lo ++ c :: hi

/-- The free list after `kfree` of block `b`. -/
def settle (free : List Block) (b : Block) : List Block :=
  let lo := free.takeWhile fun c => decide (c.addr < b.addr)
  let hi := free.dropWhile fun c => decide (c.addr < b.addr)
  match absorbNext b hi with
  | [] => lo
  | c :: hi => absorbPrev lo c hi

/-- The place of a freed block in the list. -/
theorem settle_split (free : List Block) (b : Block) : ∃ lo hi, free = lo ++ hi ∧
    (∀ c ∈ lo, c.addr < b.addr) ∧ (∀ c ∈ hi.head?, ¬ c.addr < b.addr) ∧
    ∀ {c cs}, absorbNext b hi = c :: cs → settle free b = absorbPrev lo c cs := by
  let p := fun c : Block => decide (c.addr < b.addr)
  refine ⟨free.takeWhile p, free.dropWhile p, takeWhile_append_dropWhile.symm, fun c hc => ?_,
    fun c hc => ?_, fun h => ?_⟩
  · simpa [p] using mem_takeWhile_imp hc
  · have hnot := head?_dropWhile_not p free
    rw [hc] at hnot
    simpa [p] using hnot
  · unfold settle
    simp only [p, h]

namespace Inv

variable {b c d : Block}

/-- An allocated block is off the other blocks. -/
theorem off_live (h : Inv s free (b :: live) area) (hc : c ∈ free ++ live) : Off c.addr b.addr := by
  have hperm : (free ++ b :: live).Perm (b :: (free ++ live)) := perm_middle
  exact off_head (h.tiles.perm (hperm.map Block.span)) hc

/-- **An allocated block becomes a free one.** -/
theorem insertBlock (h : Inv s (lo ++ hi) (b :: live) area) (hlo : ∀ c ∈ lo, c.addr < b.addr)
    (hhi : ∀ c ∈ hi.head?, ¬ c.addr < b.addr) :
    ∃ s', Heap.insertBlock s b.addr = some s' ∧ s'.initialized = s.initialized ∧
      Inv s' (lo ++ b :: hi) live area := by
  have hb : b ∈ (lo ++ hi) ++ b :: live := by simp
  have hoff : ∀ c ∈ lo ++ hi ++ live, Off c.addr b.addr := fun c hc => h.off_live hc
  obtain ⟨r, hlinkedlo, hlinkedhi⟩ := linked_append.mp h.linked
  have hr : r = (hi.map Block.addr).headD 0 := by
    cases hi with
    | nil => exact hlinkedhi
    | cons c cs => exact hlinkedhi.1
  have hrlt : r < 2 ^ 64 := by
    cases hi with
    | nil =>
      rw [hr]
      decide
    | cons c cs =>
      rw [hr]
      exact (h.bounds _ (h.addr_mem (b := c) (by simp))).2
  -- the flag is set first
  have hflag : Linked (setFlag s.mem b.addr 1#8) s.freeList lo r :=
    hlinkedlo.congr fun c hc => header_setFlag_off (hoff c (by simp [hc]))
  have hwalk : walk (next (setFlag s.mem b.addr 1#8)) 0 (fun curr => decide (¬ curr < b.addr))
      rounds 0 s.freeList = some (lastAddr lo, r) := by
    refine h.walk_to (linked_iff.mp hflag).1 (fun c hc => by simpa using hlo c hc) ?_
    cases hi with
    | nil => exact .inl hr
    | cons c cs =>
      rw [hr]
      exact .inr (by simpa using hhi c rfl)
  -- then the links
  generalize hm : setNext (setFlag s.mem b.addr 1#8) b.addr r = m
  have hself : header m b.addr = ⟨b.size, r, 1#8⟩ := by
    rw [← hm, header_setNext, header_setFlag]
    simp only [header, h.sizes b hb, mod_eq_of_lt hrlt]
  have hother : ∀ c ∈ lo ++ hi ++ live, header m c.addr = header s.mem c.addr := by
    intro c hc
    rw [← hm, header_setNext_off (hoff c hc), header_setFlag_off (hoff c hc)]
  have hused : (s.usedMemory + 2 ^ 64 - (size (setFlag s.mem b.addr 1#8) b.addr + headerSize) %
      2 ^ 64) % 2 ^ 64 = total (live.map Block.span) := by
    have htotal := h.tiles.total_le h.bounds
    rw [map_append, total_append, map_cons, total_cons] at htotal
    rw [size_eq, header_setFlag]
    simp only [header, h.sizes b hb, h.used, map_cons, total_cons, Block.length_span]
    omega
  generalize hs1 : ({ s with mem := m, usedMemory := total (live.map Block.span) } : State) = s1
  have hmem1 : s1.mem = m := by rw [← hs1]
  have hlinked1 : Linked s1.mem s1.freeList lo r := by
    rw [← hs1]
    exact hlinkedlo.congr fun c hc => hother c (by simp [hc])
  obtain ⟨hlinked, hrest, husedkeep⟩ := setLink_spec (x := b.addr) hlinked1 h.pairwise_off_pre
    (fun c hc => h.addr_pos (by simp [hc])) (h.bounds _ (h.addr_mem hb)).2
  refine ⟨setLink s1 (lastAddr lo) b.addr, ?_, ?_, ?_⟩
  · unfold Heap.insertBlock
    simp only [hwalk, map_some, hm, hused, hs1]
  · unfold setLink
    split <;> rw [← hs1]
  · have hbehind : ∀ c ∈ hi ++ live,
        header (setLink s1 (lastAddr lo) b.addr).mem c.addr = header s.mem c.addr := by
      intro c hc
      rw [hrest c.addr fun c' hc' => ?_, hmem1, hother c (by
        rw [append_assoc]
        exact mem_append_right _ hc)]
      have hpair := h.pairwise_off
      rw [append_assoc] at hpair
      refine ((pairwise_append.mp hpair).2.2 c' hc' c ?_).symm
      simp only [mem_append] at hc ⊢
      tauto
    have hheadb : header (setLink s1 (lastAddr lo) b.addr).mem b.addr = ⟨b.size, r, 1#8⟩ := by
      rw [hrest b.addr fun c hc => (hoff c (by simp [hc])).symm, hmem1, hself]
    have hperm : ((lo ++ hi) ++ b :: live).Perm ((lo ++ b :: hi) ++ live) := by
      have h1 := @perm_middle _ b (lo ++ hi) live
      have h2 := @perm_middle _ b lo (hi ++ live)
      refine h1.trans ?_
      simpa using h2.symm
    exact of_linked (linked_append.mpr ⟨b.addr, hlinked, rfl, r, hheadb,
      hlinkedhi.congr fun c hc => hbehind c (by simp [hc])⟩)
      (fun c hc => h.live_congr hbehind (mem_cons_of_mem _ hc) (by simp [hc]))
      (h.tiles.perm (hperm.map Block.span)) h.bounds
      (fun c hc => h.placed c (hperm.mem_iff.mpr hc)) (by rw [husedkeep, ← hs1])

theorem mergeNext (h : Inv s (lo ++ b :: hi) live area) :
    Inv { s with mem := Heap.mergeNext s.mem b.addr } (lo ++ absorbNext b hi) live area := by
  unfold Heap.mergeNext
  cases hi with
  | nil =>
    have hend : next s.mem b.addr = 0 := h.chain_split.2
    rw [if_neg (by simp [hend])]
    exact h
  | cons d ds =>
    obtain ⟨-, hnext, -⟩ := h.chain_split
    have hb : b ∈ (lo ++ b :: d :: ds) ++ live := by simp
    have hd : d ∈ (lo ++ b :: d :: ds) ++ live := by simp
    have hend := h.blockEnd_eq_iff hb hd
    rw [hnext, absorbNext]
    by_cases htouch : b.stop = d.addr
    · rw [if_pos ⟨h.addr_pos hd, hend.mpr htouch⟩, if_pos htouch]
      exact h.absorb htouch
    · rw [if_neg (fun hand => htouch (hend.mp hand.2)), if_neg htouch]
      exact h

/-- The merge with the block before. -/
theorem mergePrev (h : Inv s (lo ++ c :: hi) live area) :
    ∃ s', Heap.mergePrev s c.addr = some s' ∧ s'.initialized = s.initialized ∧
      Inv s' (absorbPrev lo c hi) live area := by
  obtain ⟨hseg, -⟩ := h.chain_split
  have hwalk : walk (next s.mem) 0 (fun curr => decide (curr = c.addr)) rounds 0 s.freeList =
      some (lastAddr lo, c.addr) := by
    refine h.walk_to hseg (fun b hb => ?_) (.inr (by simp))
    have hoff : Off b.addr c.addr := h.off_free (by simp [hb])
    simp only [decide_eq_false_iff_not]
    intro heq
    unfold Off headerSize at hoff
    omega
  unfold Heap.mergePrev
  simp only [hwalk, map_some]
  refine ⟨_, rfl, ?_, ?_⟩
  · split <;> rfl
  · rcases eq_nil_or_concat lo with rfl | ⟨lo, p, rfl⟩
    · exact h
    rw [concat_eq_append] at *
    have hp : p ∈ (lo ++ [p]) ++ c :: hi ++ live := by simp
    have hc : c ∈ (lo ++ [p]) ++ c :: hi ++ live := by simp
    have hend := h.blockEnd_eq_iff hp hc
    rw [lastAddr_append]
    simp only [absorbPrev, getLast?_append, getLast?_singleton, some_or, dropLast_concat]
    by_cases htouch : p.stop = c.addr
    · rw [if_pos ⟨h.addr_pos hp, hend.mpr htouch⟩, if_pos htouch]
      have hshift : (lo ++ [p]) ++ c :: hi = lo ++ p :: c :: hi := by simp
      rw [hshift] at h
      exact h.absorb htouch
    · rw [if_neg (fun hand => htouch (hend.mp hand.2)), if_neg htouch]
      exact h

/-- **`kfree` puts the block back and joins it with its neighbours in the list.** -/
theorem kfree (h : Inv s free (b :: live) area) (hready : s.initialized = true) :
    ∃ s', Heap.kfree s (b.addr + headerSize) = some s' ∧ s'.initialized = true ∧
      Inv s' (settle free b) live area := by
  have hb : b ∈ free ++ b :: live := by simp
  have hlt := (h.bounds _ (h.addr_mem hb)).2
  have hblock : (b.addr + headerSize + 2 ^ 64 - headerSize) % 2 ^ 64 = b.addr := by
    omega
  have hflag := h.taken b (by simp)
  obtain ⟨lo, hi, rfl, hlo, hhi, hsettle⟩ := settle_split free b
  unfold Heap.kfree
  rw [if_neg (by simp [hready, headerSize])]
  simp only [hblock, hflag]
  obtain ⟨s1, hins, hready1, hinv1⟩ := h.insertBlock hlo hhi
  have hinv2 := hinv1.mergeNext
  have hshape : ∃ c cs, absorbNext b hi = c :: cs ∧ c.addr = b.addr := by
    unfold absorbNext
    split
    · exact ⟨b, [], rfl, rfl⟩
    · split
      · exact ⟨_, _, rfl, rfl⟩
      · exact ⟨_, _, rfl, rfl⟩
  obtain ⟨c, cs, hcs, haddr⟩ := hshape
  rw [hsettle hcs]
  rw [hcs] at hinv2
  obtain ⟨s2, hprev, hready2, hinv3⟩ := hinv2.mergePrev
  rw [haddr] at hprev
  refine ⟨s2, ?_, by rw [hready2]; exact hready1.trans hready, hinv3⟩
  rw [hins]
  exact hprev

end Inv

/-! ## Regions -/

/-- The block that `add_free_block` makes of a region. -/
def usable (base size : Nat) : Option Block :=
  if size < headerSize + 16 then none
  else if size - (alignUp base - base) < headerSize + 16 then none
  else some ⟨alignUp base, size - (alignUp base - base) - headerSize⟩

/-- The block lies in the region, on an aligned address. -/
theorem usable_spec {size : Nat} {b : Block} (hbound : base + size ≤ 2 ^ 64)
    (h : usable base size = some b) :
    base ≤ b.addr ∧ b.addr < base + 8 ∧ b.stop = base + size ∧ 8 ∣ b.addr ∧
      b.addr + headerSize < 2 ^ 64 := by
  unfold usable at h
  split at h
  · cases h
  split at h
  · cases h
  cases h
  unfold stop alignUp headerSize at *
  simp only at *
  have hmod : (base + 7) % 2 ^ 64 = base + 7 := mod_eq_of_lt (by omega)
  omega

/-- `add_free_block` of a region that does not wrap around. -/
theorem addFreeBlock_eq (s : State) {size : Nat} (hbound : base + size ≤ 2 ^ 64)
    (hsize : size < 2 ^ 64) :
    addFreeBlock s base size = match usable base size with
      | none => s
      | some b => { s with
          mem := setNext (setFlag (setSize s.mem b.addr b.size) b.addr 1#8) b.addr s.freeList
          freeList := b.addr } := by
  unfold addFreeBlock usable
  by_cases hsmall : size < headerSize + 16
  · rw [if_pos hsmall, if_pos hsmall]
  rw [if_neg hsmall]
  have hadjust : (size + 2 ^ 64 - (alignUp base + 2 ^ 64 - base) % 2 ^ 64) % 2 ^ 64 =
      size - (alignUp base - base) := by
    unfold alignUp headerSize at *
    have hmod : (base + 7) % 2 ^ 64 = base + 7 := mod_eq_of_lt (by omega)
    omega
  simp only [hadjust]
  split <;> rfl

namespace Inv

/-- The free list with the block of a new region. -/
def withRegion (free : List Block) (base size : Nat) : List Block :=
  (usable base size).toList ++ free

/-- The addresses that a region adds. -/
def regionArea (base size : Nat) : Set Nat := { a | ∃ b ∈ usable base size, b.span.Has a }

theorem addFreeBlock (h : Inv s free live area) {size : Nat} (hbound : base + size ≤ 2 ^ 64)
    (hsize : size < 2 ^ 64) (hnull : ∀ b ∈ usable base size, base ≠ 0)
    (hfresh : ∀ a, base ≤ a → a < base + size → a ∉ area) :
    Inv (Heap.addFreeBlock s base size) (withRegion free base size) live
      (area ∪ regionArea base size) := by
  rw [addFreeBlock_eq s hbound hsize]
  unfold withRegion regionArea
  cases hb : usable base size with
  | none => simpa using h
  | some b =>
    obtain ⟨hlo, -, hstop, haligned, hroom⟩ := usable_spec hbound hb
    have hbase := hnull b hb
    have hpush := h.push (b := b) (fun a ha => hfresh a (Nat.le_trans hlo ha.1)
      (Nat.lt_of_lt_of_le ha.2 (Nat.le_of_eq hstop))) haligned (by omega) hroom (by omega)
    simpa using hpush

end Inv

end Utms7.Heap
