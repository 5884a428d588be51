import Utms7.Heap
import Utms7.Spans

/-!
# What holds of the kernel heap

The free blocks, in the order of the list, and the allocated ones tile the
memory that the allocator was given.  The list need not be sorted, and nothing
here assumes it.  Every part of the source either moves a block between the two
groups, cuts one in two, or joins two that touch; `Inv` is stated once and kept
by each of these parts.
-/

namespace Utms7.Heap

open ByteMemory LinkedList Spans List Nat

/-! ## Headers -/

/-- The headers at two addresses do not overlap. -/
def Off (a b : Nat) : Prop := a + headerSize ≤ b ∨ b + headerSize ≤ a

theorem Off.symm {a b : Nat} (h : Off a b) : Off b a := Or.symm h

/-- The fields of a block's header. -/
structure Header where
  size : Nat
  next : Nat
  flag : BitVec 8

/-- The header of the block at `b`. -/
def header (m : Bytes) (b : Nat) : Header := ⟨size m b, next m b, flag m b⟩

section Headers

variable {m : Bytes} {a b c x : Nat}

@[simp] theorem header_setSize (m : Bytes) (b x : Nat) :
    header (setSize m b x) b = { header m b with size := x % 2 ^ 64 } := by
  simp only [header, size, setSize, load64_store64, Header.mk.injEq, true_and]
  exact ⟨load64_store64_other (by omega), store64_outside (by omega)⟩

@[simp] theorem header_setNext (m : Bytes) (b x : Nat) :
    header (setNext m b x) b = { header m b with next := x % 2 ^ 64 } := by
  simp only [header, next, setNext, load64_store64, Header.mk.injEq, true_and]
  exact ⟨load64_store64_other (by omega), store64_outside (by omega)⟩

@[simp] theorem header_setFlag (m : Bytes) (b : Nat) (x : BitVec 8) :
    header (setFlag m b x) b = { header m b with flag := x } := by
  simp only [header, flag, setFlag, putByte_same, Header.mk.injEq, and_true]
  exact ⟨load64_putByte_other (by omega), load64_putByte_other (by omega)⟩

/-- Only the bytes of the header matter. -/
theorem header_congr {m' : Bytes} (h : ∀ i, i < headerSize → m' (a + i) = m (a + i)) :
    header m' a = header m a := by
  simp only [header, Header.mk.injEq]
  refine ⟨load64_congr fun k hk => h k (by unfold headerSize; omega), load64_congr fun k hk => ?_,
    h 16 (by decide)⟩
  simpa [add_assoc] using h (8 + k) (by unfold headerSize; omega)

theorem header_setSize_off (h : Off a b) : header (setSize m b x) a = header m a :=
  header_congr fun i hi => store64_outside (by unfold Off headerSize at *; omega)

theorem header_setNext_off (h : Off a b) : header (setNext m b x) a = header m a :=
  header_congr fun i hi => store64_outside (by unfold Off headerSize at *; omega)

theorem header_setFlag_off {x : BitVec 8} (h : Off a b) : header (setFlag m b x) a = header m a :=
  header_congr fun i hi => putByte_other (by unfold Off headerSize at *; omega)

section

variable (m : Bytes) (b : Nat)

theorem size_eq : size m b = (header m b).size := rfl

theorem next_eq : next m b = (header m b).next := rfl

theorem flag_eq : flag m b = (header m b).flag := rfl

theorem next_lt : next m b < 2 ^ 64 := load64_lt m _

end

/-- The header of the block that takes in another one. -/
theorem header_absorb (h : Off c b) : header (absorb m b c) b =
    { header m b with
      size := (size m b + headerSize + size m c) % 2 ^ 64
      next := next m c } := by
  have hc := header_setSize_off (m := m) (x := size m b + headerSize + size m c) h
  simp only [absorb, header_setNext, header_setSize, next_eq _ c, hc, Header.mk.injEq, true_and,
    and_true]
  exact mod_eq_of_lt (next_lt m c)

theorem header_absorb_off (h : Off a b) : header (absorb m b c) a = header m a := by
  simp only [absorb, header_setNext_off h, header_setSize_off h]

end Headers

/-! ## Blocks -/

/-- A block with its address and the size of its payload. -/
structure Block where
  addr : Nat
  size : Nat
deriving DecidableEq

open Block

namespace Block

/-- The end of the payload. -/
def stop (b : Block) : Nat := b.addr + headerSize + b.size

/-- Header and payload. -/
def span (b : Block) : Span := ⟨b.addr, b.stop⟩

/-- The block that has taken in the one behind it. -/
def join (b c : Block) : Block := ⟨b.addr, b.size + headerSize + c.size⟩

theorem join_stop {b c : Block} (h : b.stop = c.addr) : (b.join c).stop = c.stop := by
  simp only [stop, join] at *
  omega

@[simp] theorem join_addr (b c : Block) : (b.join c).addr = b.addr := rfl

theorem addr_lt_stop (b : Block) : b.addr < b.stop := by
  unfold stop headerSize
  omega

theorem length_span (b : Block) : b.span.length = headerSize + b.size := by
  simp only [Span.length, span, stop]
  omega

end Block

/-- Blocks that do not overlap have different headers. -/
theorem off_of_apart {b c : Block} (h : b.span.Apart c.span) : Off b.addr c.addr := by
  simp only [Span.Apart, Block.span, Block.stop] at h
  unfold Off
  omega

/-- The free blocks `bs` are linked from `p` to `q`, each with its header. -/
def Linked (m : Bytes) : Nat → List Block → Nat → Prop
  | p, [], q => p = q
  | p, b :: bs, q => p = b.addr ∧ ∃ r, header m b.addr = ⟨b.size, r, 1#8⟩ ∧ Linked m r bs q

section Linked

variable {m m' : Bytes} {as bs : List Block} {p q : Nat}

/-- A list in two parts. -/
theorem linked_append : Linked m p (as ++ bs) q ↔ ∃ r, Linked m p as r ∧ Linked m r bs q := by
  induction as generalizing p with
  | nil => simp [Linked]
  | cons a as ih =>
    simp only [cons_append, Linked, ih]
    constructor
    · rintro ⟨hp, r, hhead, u, has, hbs⟩
      exact ⟨u, ⟨hp, r, hhead, has⟩, hbs⟩
    · rintro ⟨u, ⟨hp, r, hhead, has⟩, hbs⟩
      exact ⟨hp, r, hhead, u, has, hbs⟩

/-- The links depend on the headers of the blocks only. -/
theorem Linked.congr (h : Linked m p bs q)
    (hsame : ∀ b ∈ bs, header m' b.addr = header m b.addr) : Linked m' p bs q := by
  induction bs generalizing p with
  | nil => exact h
  | cons b bs ih =>
    obtain ⟨hp, r, hhead, hbs⟩ := h
    exact ⟨hp, r, (hsame b mem_cons_self).trans hhead,
      ih hbs fun c hc => hsame c (mem_cons_of_mem _ hc)⟩

theorem linked_iff : Linked m p bs q ↔ Seg (next m) p (bs.map addr) q ∧
    ∀ b ∈ bs, size m b.addr = b.size ∧ flag m b.addr = 1#8 := by
  induction bs generalizing p with
  | nil => simp [Linked, Seg]
  | cons b bs ih =>
    simp only [Linked, map_cons, forall_mem_cons, ih, header, Header.mk.injEq]
    constructor
    · rintro ⟨rfl, r, ⟨hsize, rfl, hflag⟩, hseg, hbs⟩
      exact ⟨⟨rfl, hseg⟩, ⟨hsize, hflag⟩, hbs⟩
    · rintro ⟨⟨rfl, hseg⟩, ⟨hsize, hflag⟩, hbs⟩
      exact ⟨rfl, _, ⟨hsize, rfl, hflag⟩, hseg, hbs⟩

end Linked

/-- The state of the allocator: `free` is the free list, `live` are the
allocated blocks, and together they tile `area`. -/
structure Inv (s : State) (free live : List Block) (area : Set Nat) : Prop where
  chain : Seg (next s.mem) s.freeList (free.map Block.addr) 0
  sizes : ∀ b ∈ free ++ live, size s.mem b.addr = b.size
  freed : ∀ b ∈ free, flag s.mem b.addr = 1#8
  taken : ∀ b ∈ live, flag s.mem b.addr = 0#8
  tiles : Tiles ((free ++ live).map Block.span) area
  bounds : ∀ a ∈ area, 1 ≤ a ∧ a < 2 ^ 64
  -- no payload starts at the end of memory
  placed : ∀ b ∈ free ++ live, 8 ∣ b.addr ∧ b.addr + headerSize < 2 ^ 64
  used : s.usedMemory = total (live.map Block.span)

namespace Inv

variable {s : State} {free live pre post : List Block} {b c d : Block} {area : Set Nat}

section

variable (h : Inv s free live area) (hb : b ∈ free ++ live)
include h hb

theorem addr_mem : b.addr ∈ area :=
  (h.tiles.cover b.addr).mpr ⟨b.span, mem_map_of_mem hb, le_refl _, b.addr_lt_stop⟩

theorem addr_pos : b.addr ≠ 0 := by
  have := (h.bounds _ (h.addr_mem hb)).1
  omega

theorem last_mem : b.stop - 1 ∈ area := by
  have hlt := b.addr_lt_stop
  exact (h.tiles.cover _).mpr ⟨b.span, mem_map_of_mem hb, by simp only [Block.span]; omega, by
    simp only [Block.span]; omega⟩

theorem stop_le : b.stop ≤ 2 ^ 64 := by
  have := (h.bounds _ (h.last_mem hb)).2
  omega

end

/-- The blocks of a tiling that starts with `c` are off the header of `c`. -/
theorem off_head {rest : List Block} (h : Tiles ((c :: rest).map span) area) (hb : b ∈ rest) :
    Off b.addr c.addr := by
  exact (off_of_apart ((pairwise_cons.mp h.apart).1 _ (mem_map_of_mem hb))).symm

/-- The tiling with block `c` of the free list in front. -/
theorem focus (h : Inv s (pre ++ c :: post) live area) :
    Tiles ((c :: (pre ++ post ++ live)).map span) area := by
  refine h.tiles.perm (List.Perm.map _ ?_)
  simp

/-- A free block's header is apart from the others. -/
theorem off_free (h : Inv s (pre ++ c :: post) live area) (hb : b ∈ pre ++ post ++ live) :
    Off b.addr c.addr := off_head h.focus hb

section

variable (h : Inv s free live area)
include h

/-- The free list is shorter than the bound on the rounds of a loop. -/
theorem length_lt : free.length < rounds := by
  have hlen := h.tiles.length_le_total
  have htotal := h.tiles.total_le h.bounds
  rw [length_map, length_append] at hlen
  unfold rounds
  omega

theorem null_free : ∀ a ∈ free.map addr, a ≠ 0 := by
  intro a ha
  obtain ⟨b, hb, rfl⟩ := mem_map.mp ha
  exact h.addr_pos (mem_append_left _ hb)

/-- The end of a block that the program computes is the address of another block
exactly if the two touch. -/
theorem blockEnd_eq_iff (hb : b ∈ free ++ live) (hc : c ∈ free ++ live) :
    blockEnd s.mem b.addr = c.addr ↔ b.stop = c.addr := by
  have hstop := h.stop_le hb
  have hpos := h.addr_pos hc
  have hlt := (h.bounds _ (h.addr_mem hc)).2
  unfold blockEnd
  rw [h.sizes b hb]
  change b.stop % 2 ^ 64 = c.addr ↔ b.stop = c.addr
  rcases lt_or_ge b.stop (2 ^ 64) with hb | hb
  · rw [mod_eq_of_lt hb]
  · have : b.stop = 2 ^ 64 := by omega
    omega

end

theorem chain_split (h : Inv s (pre ++ c :: post) live area) :
    Seg (next s.mem) s.freeList (pre.map addr) c.addr ∧
      Seg (next s.mem) (next s.mem c.addr) (post.map addr) 0 := by
  have hchain := h.chain
  rw [map_append] at hchain
  obtain ⟨r, hpre, rfl, hpost⟩ := seg_append.mp hchain
  exact ⟨hpre, hpost⟩

section

variable (h : Inv s free live area)
include h

theorem free_header (hb : b ∈ free) : size s.mem b.addr = b.size ∧ flag s.mem b.addr = 1#8 :=
  ⟨h.sizes b (mem_append_left _ hb), h.freed b hb⟩

theorem live_header (hb : b ∈ live) : size s.mem b.addr = b.size ∧ flag s.mem b.addr = 0#8 :=
  ⟨h.sizes b (mem_append_right _ hb), h.taken b hb⟩

theorem linked : Linked s.mem s.freeList free 0 :=
  linked_iff.mpr ⟨h.chain, fun _ hb => h.free_header hb⟩

end

/-- The invariant, from the linked list and the headers of the allocated blocks. -/
theorem of_linked (hfree : Linked s.mem s.freeList free 0)
    (hlive : ∀ b ∈ live, size s.mem b.addr = b.size ∧ flag s.mem b.addr = 0#8)
    (htiles : Tiles ((free ++ live).map span) area) (hbounds : ∀ a ∈ area, 1 ≤ a ∧ a < 2 ^ 64)
    (hplaced : ∀ b ∈ free ++ live, 8 ∣ b.addr ∧ b.addr + headerSize < 2 ^ 64)
    (hused : s.usedMemory = total (live.map span)) : Inv s free live area where
  chain := (linked_iff.mp hfree).1
  sizes b hb := (mem_append.mp hb).elim (fun hb => ((linked_iff.mp hfree).2 b hb).1)
    fun hb => (hlive b hb).1
  freed b hb := ((linked_iff.mp hfree).2 b hb).2
  taken b hb := (hlive b hb).2
  tiles := htiles
  bounds := hbounds
  placed := hplaced
  used := hused

/-- The headers of the allocated blocks where memory changes elsewhere. -/
theorem live_congr (h : Inv s free live area) {m : Bytes} {bs : List Block}
    (hsame : ∀ b ∈ bs, header m b.addr = header s.mem b.addr) (hb : b ∈ live) (hbs : b ∈ bs) :
    size m b.addr = b.size ∧ flag m b.addr = 0#8 := by
  rw [size_eq, flag_eq, hsame b hbs]
  exact h.live_header hb

/-- **Two free blocks that touch are joined.** -/
theorem absorb (h : Inv s (pre ++ c :: d :: post) live area) (htouch : c.stop = d.addr) :
    Inv { s with mem := Heap.absorb s.mem c.addr d.addr } (pre ++ c.join d :: post) live area := by
  have hc : c ∈ (pre ++ c :: d :: post) ++ live := by simp
  have hd : d ∈ (pre ++ c :: d :: post) ++ live := by simp
  have hstop := h.stop_le hd
  have hdc : Off d.addr c.addr := h.off_free (by simp)
  have hother : ∀ b ∈ pre ++ post ++ live,
      header (Heap.absorb s.mem c.addr d.addr) b.addr = header s.mem b.addr :=
    fun b hb => header_absorb_off (h.off_free (by
      simp only [mem_append] at hb ⊢
      tauto))
  obtain ⟨_, hpre, rfl, r, hheadc, hdaddr, r', hheadd, hpost⟩ := linked_append.mp h.linked
  have hlt : (c.join d).size < 2 ^ 64 := by
    have hjoin := Block.join_stop htouch
    unfold Block.stop headerSize at hjoin hstop
    omega
  have hself : header (Heap.absorb s.mem c.addr d.addr) (c.join d).addr =
      ⟨(c.join d).size, r', 1#8⟩ := by
    rw [Block.join_addr, header_absorb hdc, size_eq, size_eq, next_eq, hheadc, hheadd]
    simp only [Header.mk.injEq, and_true]
    exact mod_eq_of_lt hlt
  refine of_linked (linked_append.mpr ⟨c.addr, hpre.congr fun b hb => hother b (by simp [hb]), rfl,
    r', hself, hpost.congr fun b hb => hother b (by simp [hb])⟩)
    (fun b hb => h.live_congr hother hb (by simp [hb])) ?_ h.bounds ?_ h.used
  · have hperm : ((pre ++ c :: d :: post) ++ live).Perm (c :: d :: (pre ++ post ++ live)) := by
      have h1 := @perm_middle _ c pre (d :: (post ++ live))
      have h2 := (@perm_middle _ d pre (post ++ live)).cons c
      simpa using h1.trans h2
    have hjoined := (h.tiles.perm (hperm.map Block.span)).join htouch
    have hspan : (⟨c.span.start, d.span.stop⟩ : Span) = (c.join d).span := by
      simp only [Block.span, Block.join_stop htouch, Block.join_addr]
    rw [hspan] at hjoined
    refine hjoined.perm ?_
    have hback := (@perm_middle _ (c.join d) pre (post ++ live)).symm
    simpa using hback.map Block.span
  · intro b hb
    simp only [append_assoc, mem_append, mem_cons] at hb
    by_cases hbc : b = c.join d
    · rw [hbc]
      exact h.placed c hc
    · exact h.placed b (by simp only [mem_append]; tauto)

/-- **A region becomes a free block** at the head of the list. -/
theorem push (h : Inv s free live area) (hfresh : ∀ a, b.span.Has a → a ∉ area)
    (haligned : 8 ∣ b.addr) (hpos : 1 ≤ b.addr) (hroom : b.addr + headerSize < 2 ^ 64)
    (hstop : b.stop ≤ 2 ^ 64) :
    Inv { s with
        mem := setNext (setFlag (setSize s.mem b.addr b.size) b.addr 1#8) b.addr s.freeList
        freeList := b.addr } (b :: free) live (area ∪ { a | b.span.Has a }) := by
  have htiles := h.tiles.cons (s := b.span) b.addr_lt_stop hfresh
  have hoff : ∀ c ∈ free ++ live, Off c.addr b.addr := fun c hc =>
    off_head (by rw [map_cons]; exact htiles) hc
  have hother : ∀ c ∈ free ++ live, header (setNext (setFlag (setSize s.mem b.addr b.size) b.addr
      1#8) b.addr s.freeList) c.addr = header s.mem c.addr := by
    intro c hc
    rw [header_setNext_off (hoff c hc), header_setFlag_off (hoff c hc),
      header_setSize_off (hoff c hc)]
  have hsize : b.size < 2 ^ 64 := by
    unfold stop headerSize at hstop
    omega
  have hhead : s.freeList < 2 ^ 64 := by
    cases free with
    | nil =>
      have : s.freeList = 0 := h.chain
      omega
    | cons c cs =>
      have : s.freeList = c.addr := h.chain.1
      have := (h.bounds _ (h.addr_mem (b := c) (by simp))).2
      omega
  have hself : header (setNext (setFlag (setSize s.mem b.addr b.size) b.addr 1#8) b.addr
      s.freeList) b.addr = ⟨b.size, s.freeList, 1#8⟩ := by
    simp only [header_setNext, header_setFlag, header_setSize, mod_eq_of_lt hhead,
      mod_eq_of_lt hsize]
  refine of_linked ⟨rfl, s.freeList, hself, h.linked.congr
    fun c hc => hother c (mem_append_left _ hc)⟩
    (fun c hc => h.live_congr hother hc (mem_append_right _ hc)) htiles ?_ ?_ h.used
  · rintro a (ha | ha)
    · exact h.bounds a ha
    · exact ⟨le_trans hpos ha.1, lt_of_lt_of_le ha.2 hstop⟩
  · intro c hc
    rcases mem_cons.mp hc with rfl | hc
    · exact ⟨haligned, hroom⟩
    · exact h.placed c hc

end Inv

end Utms7.Heap
