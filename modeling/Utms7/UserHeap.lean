import Mathlib.Data.List.Pairwise
import Utms7.ByteMemory
import Utms7.Runs

/-!
# The heap of a user program

`malloc`, `calloc`, `realloc` and `free` of `lib/libc.c`.  All blocks, used or free, are in
one list; `malloc` takes the first free one that is large enough, or asks the kernel for
memory behind the last one.

A header stands in front of its payload.  Headers are kept apart from the bytes here, in
the order of the list: the blocks cut up the memory, so that neither a client that writes
into its payload nor the library, which clears and copies payloads, meets a header.
-/

namespace Utms7.UserHeap

open ByteMemory List

/-- `block_header_t`, with its address. -/
structure Block where
  addr : Nat
  size : Nat
  free : Bool
deriving DecidableEq

open Block

/-- `sizeof(block_header_t)`. -/
def headerSize : Nat := 24

/-- The pointer that the client has. -/
def Block.ptr (b : Block) : Nat := b.addr + headerSize

/-- The number of bytes behind the header. -/
def Block.payload (b : Block) : Nat := b.size - headerSize

/-- `free_list`, `heap_brk` unless it is `NULL`, and the memory. -/
structure Heap where
  blocks : List Block
  heapBrk : Option Nat
  mem : Bytes

/-- The kernel in one call: whether it tells the break, and whether it moves it from one
address to another. -/
structure Kernel where
  tells : Bool
  moves : Nat → Nat → Bool

/-- `(x + 4095) & ~4095`. -/
def pageUp (x : Nat) : Nat := (x + 4095) % 2 ^ 64 / 4096 * 4096

/-- `sys_brk` asks for memory only if there are pages to be mapped.  It returns the new
break, which is an error for the library if it is -1. -/
def sysBrk (memory : Bool) : Kernel where
  tells := true
  moves old new := new != 2 ^ 64 - 1 && (new ≤ old || pageUp new ≤ pageUp old || memory)

/-- The end of the pages that are mapped after `sys_brk` has moved the break. -/
def mapped (old new : Nat) : Nat := max (pageUp old) (pageUp new)

/-- The size of the block for `n` bytes. -/
def total (n : Nat) : Nat := ((n + 15) % 2 ^ 64 / 16 * 16 + headerSize) % 2 ^ 64

/-- `sbrk`; the break was `start` before the first call. -/
def sbrk (start : Nat) (k : Kernel) (size : Nat) (h : Heap) : Option Nat × Heap :=
  if h.heapBrk = none ∧ !k.tells then (none, h)
  else
    let old := h.heapBrk.getD start
    let new := (old + size) % 2 ^ 64
    if k.moves old new then (some old, { h with heapBrk := some new })
    else (none, { h with heapBrk := some old })

/-- The search of `malloc`: the first part of a block is taken, or the whole block. -/
def takeFirst (total : Nat) : List Block → Option (Nat × List Block)
  | [] => none
  | b :: bs =>
    if b.free ∧ total ≤ b.size then
      if total + headerSize + 16 ≤ b.size then
        some (b.ptr, ⟨b.addr, total, false⟩ :: ⟨b.addr + total, b.size - total, true⟩ :: bs)
      else some (b.ptr, { b with free := false } :: bs)
    else (takeFirst total bs).map fun r => (r.1, b :: r.2)

/-- `malloc`; no pointer is `NULL`. -/
def malloc (start : Nat) (k : Kernel) (n : Nat) (h : Heap) : Option Nat × Heap :=
  if n = 0 then (none, h)
  else
    match takeFirst (total n) h.blocks with
    | some (p, blocks) => (some p, { h with blocks := blocks })
    | none =>
      match sbrk start k (total n) h with
      | (none, h) => (none, h)
      | (some mem, h) =>
        (some (mem + headerSize), { h with blocks := h.blocks ++ [⟨mem, total n, false⟩] })

/-- `calloc`. -/
def calloc (start : Nat) (k : Kernel) (nmemb size : Nat) (h : Heap) : Option Nat × Heap :=
  match malloc start k (nmemb * size % 2 ^ 64) h with
  | (none, h) => (none, h)
  | (some p, h) => (some p, { h with mem := blit h.mem p zeros (nmemb * size % 2 ^ 64) })

/-- The loop of `free`. -/
def mergeLoop : List Block → List Block
  | b :: c :: bs =>
    if b.free ∧ c.free then { b with size := b.size + c.size } :: mergeLoop bs
    else b :: mergeLoop (c :: bs)
  | bs => bs

/-- `free` of a pointer that is not `NULL`. -/
def free (p : Nat) (h : Heap) : Heap :=
  { h with blocks := mergeLoop (h.blocks.map fun b => { b with free := b.free || b.ptr == p }) }

/-- `realloc` of a pointer that is not `NULL`. -/
def realloc (start : Nat) (k : Kernel) (p n : Nat) (h : Heap) : Option Nat × Heap :=
  if n = 0 then (none, free p h)
  else
    match h.blocks.find? (·.ptr == p) with
    | none => (none, h)  -- not for a live pointer
    | some b =>
      if total n ≤ b.size then (some p, h)
      else
        match malloc start k n h with
        | (none, h) => (none, h)
        | (some q, h) =>
          (some q, free p { h with mem := blit h.mem q (fun i => h.mem (p + i)) b.payload })

/-! ## Clients -/

/-- What a client does: it calls the library, or writes a byte behind a pointer. -/
inductive Call
  | malloc (k : Kernel) (n : Nat)
  | calloc (k : Kernel) (nmemb size : Nat)
  | realloc (k : Kernel) (p : Option Nat) (n : Nat)
  | free (p : Option Nat)
  | write (p i : Nat) (x : BitVec 8)

/-- The heap, and the sizes that were asked for with the pointers the client has. -/
structure Run where
  heap : Heap
  live : Nat → Option Nat

def Run.start (mem : Bytes) : Run := ⟨⟨[], none, mem⟩, fun _ => none⟩

/-- The pointer that a call returns, and the heap. -/
def Call.reply (start : Nat) (h : Heap) : Call → Option Nat × Heap
  | malloc k n => UserHeap.malloc start k n h
  | calloc k nmemb size => UserHeap.calloc start k nmemb size h
  | realloc k none n => UserHeap.malloc start k n h
  | realloc k (some p) n => UserHeap.realloc start k p n h
  | free none => (none, h)
  | free (some p) => (none, UserHeap.free p h)
  | write p i x => (none, { h with mem := putByte h.mem (p + i) x })

/-- The bytes that a call asks for. -/
def Call.asks : Call → Nat
  | malloc _ n => n
  | calloc _ nmemb size => nmemb * size
  | realloc _ _ n => n
  | _ => 0

/-- The pointer that the client gives up. -/
def Call.drops (reply : Option Nat) : Call → Option Nat
  | free p => p
  | realloc _ p n => if n = 0 ∨ reply ≠ none then p else none
  | _ => none

def Call.run (start : Nat) (r : Run) (c : Call) : Run :=
  let reply := c.reply start r.heap
  { heap := reply.2
    live := fun p =>
      if reply.1 = some p then some c.asks
      else if c.drops reply.1 = some p then none
      else r.live p }

/-- The kernel moves the break forward, or refuses. -/
def Kernel.Grows (k : Kernel) : Prop := ∀ old new, k.moves old new = true → old ≤ new

/-- The kernel grants growth only, sizes and products are below `2 ^ 62`, pointers are live
or `NULL`, and writes are inside of payloads. -/
def Call.Legal (r : Run) : Call → Prop
  | malloc k n => k.Grows ∧ n < 2 ^ 62
  | calloc k nmemb size => k.Grows ∧ nmemb * size < 2 ^ 62
  | realloc k p n => k.Grows ∧ n < 2 ^ 62 ∧ ∀ q ∈ p, r.live q ≠ none
  | free p => ∀ q ∈ p, r.live q ≠ none
  | write p i _ => ∃ b ∈ r.heap.blocks, b.free = false ∧ b.ptr = p ∧ i < b.payload

/-! ## Blocks -/

/-- The blocks go from `lo` to `hi`, one behind the other. -/
def Tiles : Nat → List Block → Nat → Prop
  | lo, [], hi => lo = hi
  | lo, b :: bs, hi => b.addr = lo ∧ headerSize < b.size ∧ Tiles (lo + b.size) bs hi

section Blocks

variable {bs : List Block} {b c : Block} {lo hi t p : Nat}

section

variable (h : Tiles lo bs hi)
include h

theorem Tiles.le : lo ≤ hi := by
  induction bs generalizing lo with
  | nil => exact Nat.le_of_eq h
  | cons b bs ih => exact Nat.le_of_add_right_le (ih h.2.2)

@[grind →] theorem Tiles.bounds (hb : b ∈ bs) :
    lo ≤ b.addr ∧ headerSize < b.size ∧ b.addr + b.size ≤ hi := by
  induction bs generalizing lo with
  | nil => cases hb
  | cons c bs ih => grind [Tiles, Tiles.le]

/-- The list is in the order of the addresses, and no block reaches into another one. -/
theorem Tiles.pairwise : bs.Pairwise fun b c => b.addr + b.size ≤ c.addr := by
  induction bs generalizing lo with
  | nil => exact .nil
  | cons b bs ih => grind [Tiles, pairwise_cons]

/-- Different blocks have different pointers and do not overlap. -/
theorem Tiles.apart (hb : b ∈ bs) (hc : c ∈ bs) :
    b = c ∨ b.ptr ≠ c.ptr ∧ (b.addr + b.size ≤ c.addr ∨ c.addr + c.size ≤ b.addr) := by
  induction bs generalizing lo with
  | nil => cases hb
  | cons d bs ih => grind [Tiles, ptr]

theorem Tiles.append (ht : headerSize < t) : Tiles lo (bs ++ [⟨hi, t, false⟩]) (hi + t) := by
  induction bs generalizing lo with
  | nil => grind [Tiles]
  | cons b bs ih => exact ⟨h.1, h.2.1, ih h.2.2⟩

theorem Tiles.map (f : Block → Bool) : Tiles lo (bs.map fun b => { b with free := f b }) hi := by
  induction bs generalizing lo with
  | nil => exact h
  | cons b bs ih => exact ⟨h.1, h.2.1, ih h.2.2⟩

theorem Tiles.mergeLoop : Tiles lo (mergeLoop bs) hi := by
  fun_induction UserHeap.mergeLoop bs generalizing lo with
  | case1 => grind [Tiles]
  | case2 b c bs _ ih => exact ⟨h.1, h.2.1, ih h.2.2⟩
  | case3 => exact h

end

/-- Used blocks are not merged. -/
theorem mem_mergeLoop (hb : b ∈ bs) (hused : b.free = false) : b ∈ mergeLoop bs := by
  fun_induction mergeLoop bs with
  | case1 | case2 => grind
  | case3 => exact hb

/-- A pointer was handed out: it has a block of at least `t` bytes, and the blocks that
were in use still are, with other pointers. -/
structure Taken (t : Nat) (bs bs' : List Block) (p : Nat) : Prop where
  block : ∃ b ∈ bs', b.ptr = p ∧ b.free = false ∧ t ≤ b.size
  kept : ∀ c ∈ bs, c.free = false → c ∈ bs' ∧ c.ptr ≠ p

theorem Tiles.takeFirst (h : Tiles lo bs hi) (ht : headerSize < t) {bs' : List Block}
    (hfit : takeFirst t bs = some (p, bs')) : Tiles lo bs' hi ∧ Taken t bs bs' p := by
  induction bs generalizing lo bs' with
  | nil => cases hfit
  | cons b bs ih =>
    obtain ⟨rfl, hsize, hrest⟩ := h
    -- the blocks behind the first one are others
    have hother : ∀ c ∈ bs, c.ptr ≠ b.ptr := by grind [ptr]
    unfold UserHeap.takeFirst at hfit
    split_ifs at hfit with hfree hcut
    · obtain ⟨rfl, rfl⟩ : b.ptr = p ∧ _ = bs' := by simpa using hfit
      have hsum : b.addr + t + (b.size - t) = b.addr + b.size := by omega
      exact ⟨⟨rfl, ht, rfl, by grind, hsum ▸ hrest⟩, ⟨_, mem_cons_self, rfl, rfl, Nat.le_refl t⟩,
        by grind⟩
    · obtain ⟨rfl, rfl⟩ : b.ptr = p ∧ _ = bs' := by simpa using hfit
      exact ⟨⟨rfl, hsize, hrest⟩, ⟨_, mem_cons_self, rfl, rfl, hfree.2⟩, by grind⟩
    · obtain ⟨⟨q, bs1⟩, hfound, heq⟩ := Option.map_eq_some_iff.mp hfit
      obtain ⟨rfl, rfl⟩ : q = p ∧ b :: bs1 = bs' := by simpa using heq
      obtain ⟨htiles, hblock, hkept⟩ := ih hrest hfound
      exact ⟨⟨rfl, hsize, htiles⟩, by grind, by grind [ptr]⟩

end Blocks

/-! ## Calls -/

/-- The blocks go from the first break to the current one. -/
def Heap.Tiled (start : Nat) (h : Heap) : Prop :=
  Tiles start h.blocks (h.heapBrk.getD start)

/-- A break that the kernel moves for a block of `n` bytes does not wrap around. -/
def Heap.Ahead (start : Nat) (h : Heap) (k : Kernel) (n : Nat) : Prop :=
  takeFirst (total n) h.blocks = none →
    k.moves (h.heapBrk.getD start) ((h.heapBrk.getD start + total n) % 2 ^ 64) = true →
    h.heapBrk.getD start + total n < 2 ^ 64

/-- There are `n` bytes behind the pointer, in a block that is in use. -/
def Heap.Has (h : Heap) (p n : Nat) : Prop :=
  ∃ b ∈ h.blocks, b.free = false ∧ b.ptr = p ∧ n ≤ b.payload

/-- A call for `n` bytes that gives up one pointer at most. -/
structure Served (start : Nat) (h : Heap) (n : Nat) (drops : Option Nat)
    (r : Option Nat × Heap) : Prop where
  tiled : r.2.Tiled start
  has : ∀ p ∈ r.1, r.2.Has p n
  kept : ∀ c ∈ h.blocks, c.free = false → drops ≠ some c.ptr → c ∈ r.2.blocks

/-- What `realloc` keeps: the bytes behind the pointer and those of the other blocks. -/
structure Moved (h : Heap) (p old n : Nat) (r : Option Nat × Heap) : Prop where
  bytes : ∀ q ∈ r.1, ∀ i < min old n, r.2.mem (q + i) = h.mem (p + i)
  others : ∀ c ∈ h.blocks, c.free = false → c.ptr ≠ p →
    ∀ i < c.payload, r.2.mem (c.ptr + i) = h.mem (c.ptr + i)

section Calls

variable {start p n : Nat} {k : Kernel} {h : Heap} {b c : Block} {d : Option Nat}

theorem le_total (hn : n + 32 ≤ 2 ^ 64) : headerSize + n ≤ total n := by
  simp only [total, headerSize]
  omega

theorem Kernel.Grows.ahead (hk : k.Grows) : h.Ahead start k n := by
  intro _ hmoves
  have hle := hk _ _ hmoves
  have hlt : total n < 2 ^ 64 := Nat.mod_lt _ (by decide)
  omega

theorem le_payload (hn : n + 32 ≤ 2 ^ 64) (hb : total n ≤ b.size) : n ≤ b.payload := by
  have := le_total hn
  simp only [payload]
  omega

/-- `malloc` does not write to payloads. -/
theorem Heap.Tiled.malloc (h1 : h.Tiled start) (hk : h.Ahead start k n) (hn : n + 32 ≤ 2 ^ 64) :
    let r := malloc start k n h
    r.2.Tiled start ∧ r.2.mem = h.mem ∧ (∀ c ∈ h.blocks, c.free = false → c ∈ r.2.blocks) ∧
      ∀ p ∈ r.1, Taken (total n) h.blocks r.2.blocks p := by
  unfold UserHeap.malloc
  split_ifs with hzero
  · exact ⟨h1, rfl, fun _ hc _ => hc, by simp⟩
  have ht : headerSize < total n := by
    have := le_total hn
    omega
  split
  · rename_i p blocks hfit
    obtain ⟨htiles, htaken⟩ := Tiles.takeFirst h1 ht hfit
    refine ⟨htiles, rfl, fun c hc hused => (htaken.kept c hc hused).1, ?_⟩
    rintro _ ⟨⟩
    exact htaken
  · rename_i hnone
    unfold sbrk
    dsimp only
    split_ifs with hask hgrant
    · exact ⟨h1, rfl, fun _ hc _ => hc, by simp⟩
    · have hnew := Nat.mod_eq_of_lt (hk hnone hgrant)
      refine ⟨by simpa only [Heap.Tiled, Option.getD_some, hnew] using Tiles.append h1 ht, rfl,
        fun c hc _ => mem_append_left _ hc, ?_⟩
      rintro _ ⟨⟩
      refine ⟨⟨_, mem_append_right _ (mem_singleton.mpr rfl), rfl, rfl, Nat.le_refl _⟩, ?_⟩
      grind [Heap.Tiled, ptr]
    · exact ⟨h1, rfl, fun _ hc _ => hc, by simp⟩

theorem Heap.Tiled.malloc_served (h1 : h.Tiled start) (hk : h.Ahead start k n)
    (hn : n + 32 ≤ 2 ^ 64) : Served start h n d (UserHeap.malloc start k n h) := by
  obtain ⟨htiled, -, hkept, htaken⟩ := h1.malloc hk hn
  refine ⟨htiled, fun p hp => ?_, fun c hc hused _ => hkept c hc hused⟩
  obtain ⟨b, hb, hptr, hused, hlarge⟩ := (htaken p hp).block
  exact ⟨b, hb, hused, hptr, le_payload hn hlarge⟩

theorem Heap.Tiled.calloc_served (h1 : h.Tiled start) {s : Nat} (hk : h.Ahead start k (n * s))
    (hn : n * s + 32 ≤ 2 ^ 64) : Served start h (n * s) d (calloc start k n s h) := by
  have hserved := h1.malloc_served (d := d) hk hn
  simp only [calloc, Nat.mod_eq_of_lt (show n * s < 2 ^ 64 by omega)]
  split
  · rename_i heq
    exact heq ▸ hserved
  · rename_i heq
    rw [heq] at hserved
    exact ⟨hserved.tiled, hserved.has, hserved.kept⟩

theorem Heap.Tiled.free (h1 : h.Tiled start) : (free p h).Tiled start :=
  Tiles.mergeLoop (Tiles.map h1 _)

@[simp] theorem free_mem : (free p h).mem = h.mem := rfl

theorem mem_free (hc : c ∈ h.blocks) (hused : c.free = false) (hptr : some p ≠ some c.ptr) :
    c ∈ (free p h).blocks := by
  have hne : (c.ptr == p) = false := beq_false_of_ne fun heq => hptr (heq ▸ rfl)
  refine mem_mergeLoop (mem_map.mpr ⟨c, hc, ?_⟩) hused
  simp only [hne, Bool.or_false]

/-- A write to the payload of a block does not reach the other blocks. -/
theorem Heap.Tiled.blit_other (h1 : h.Tiled start) (hb : b ∈ h.blocks) (hc : c ∈ h.blocks)
    (hne : c.ptr ≠ b.ptr) {len : Nat} (hlen : len ≤ b.payload) {src : Bytes} {i : Nat}
    (hi : i < c.payload) : blit h.mem b.ptr src len (c.ptr + i) = h.mem (c.ptr + i) := by
  refine blit_outside ?_
  grind [→ Tiles.apart, Heap.Tiled, ptr, payload]

theorem Heap.Tiled.realloc (h1 : h.Tiled start) (hk : h.Ahead start k n) (hn : n + 32 ≤ 2 ^ 64)
    {old : Nat} (hlive : h.Has p old) :
    let r := realloc start k p n h
    Served start h n (if n = 0 ∨ r.1 ≠ none then some p else none) r ∧ Moved h p old n r := by
  unfold UserHeap.realloc
  split_ifs with hzero
  · refine ⟨⟨h1.free, by simp, fun c hc hused hp => ?_⟩, by simp, fun _ _ _ _ _ _ => rfl⟩
    exact mem_free hc hused (by simpa [hzero] using hp)
  split
  · exact ⟨⟨h1, by simp, fun _ hc _ _ => hc⟩, by simp, fun _ _ _ _ _ _ => rfl⟩
  rename_i b hfind
  -- the block that is found is the one in use
  obtain ⟨b', hb, hused, rfl, hold⟩ := hlive
  have hptr : b.ptr = b'.ptr := by simpa using find?_some hfind
  obtain rfl : b = b' := (Tiles.apart h1 (mem_of_find?_eq_some hfind) hb).resolve_right
    fun hne => hne.1 hptr
  split_ifs with hfits
  · refine ⟨⟨h1, ?_, fun _ hc _ _ => hc⟩, ?_, fun _ _ _ _ _ _ => rfl⟩
    · rintro _ ⟨⟩
      exact ⟨b, hb, hused, rfl, le_payload hn hfits⟩
    · rintro _ ⟨⟩ i -
      rfl
  obtain ⟨htiled, hmem, hkept, htaken⟩ := h1.malloc hk hn
  split
  · rename_i h' heq
    rw [heq] at htiled hmem hkept
    exact ⟨⟨htiled, by simp, fun c hc hcused _ => hkept c hc hcused⟩, by simp,
      fun _ _ _ _ _ _ => congrFun hmem _⟩
  · rename_i q h' heq
    rw [heq] at htiled hmem hkept htaken
    obtain ⟨⟨d, hd, rfl, hdused, hlarge⟩, hfresh⟩ := htaken q rfl
    refine ⟨⟨Heap.Tiled.free htiled, ?_, fun c hc hcused hp => ?_⟩, ?_,
      fun c hc hcused hp i hi => ?_⟩
    · rintro _ ⟨⟩
      refine ⟨d, mem_free hd hdused ?_, hdused, rfl, le_payload hn hlarge⟩
      exact fun heq => (hfresh b hb hused).2 (Option.some.inj heq)
    · exact mem_free (hkept c hc hcused) hcused (by simpa using hp)
    · rintro _ ⟨⟩ i hi
      have hin : i < b.payload := Nat.lt_of_lt_of_le (Nat.lt_min.mp hi).1 hold
      dsimp only [free_mem]
      rw [blit_inside (Nat.le_add_right _ _) (Nat.add_lt_add_left hin _), Nat.add_sub_cancel_left]
      exact congrFun hmem _
    · have hlen : b.payload ≤ d.payload := Nat.sub_le_sub_right (by omega) _
      dsimp only [free_mem]
      rw [htiled.blit_other hd (hkept c hc hcused) (hfresh c hc hcused).2 hlen hi]
      exact congrFun hmem _

end Calls

/-! ## Runs -/

def Call.Right (start : Nat) (r : Run) (c : Call) : Prop :=
  let s := c.reply start r.heap
  match c with
  | calloc _ nmemb size => ∀ p ∈ s.1, ∀ i < nmemb * size, s.2.mem (p + i) = 0#8
  | realloc _ (some p) n => ∀ old ∈ r.live p, Moved r.heap p old n s
  | _ => True

/-- The blocks are in order, and live pointers have the bytes that were asked for. -/
structure Run.Sound (start : Nat) (r : Run) : Prop where
  tiled : r.heap.Tiled start
  live : ∀ p n, r.live p = some n → r.heap.Has p n

section Runs

variable {start : Nat} {r : Run} {c : Call}

theorem Run.Sound.reply (h : r.Sound start) (hlegal : c.Legal r) :
    Served start r.heap c.asks (c.drops (c.reply start r.heap).1) (c.reply start r.heap) ∧
      c.Right start r := by
  have hsmall {n : Nat} (hn : n < 2 ^ 62) : n + 32 ≤ 2 ^ 64 := by omega
  cases c with
  | malloc k n => exact ⟨h.tiled.malloc_served hlegal.1.ahead (hsmall hlegal.2), trivial⟩
  | calloc k m n =>
    refine ⟨h.tiled.calloc_served hlegal.1.ahead (hsmall hlegal.2), ?_⟩
    have hlt : m * n % 2 ^ 64 = m * n := Nat.mod_eq_of_lt (Nat.lt_trans hlegal.2 (by decide))
    simp only [Call.Right, Call.reply, calloc, hlt]
    split
    · simp
    · rintro _ ⟨⟩ i hi
      exact blit_inside (Nat.le_add_right _ _) (Nat.add_lt_add_left hi _)
  | realloc k p n =>
    cases p with
    | none => exact ⟨h.tiled.malloc_served hlegal.1.ahead (hsmall hlegal.2.1), trivial⟩
    | some p =>
      obtain ⟨old, hold⟩ := Option.ne_none_iff_exists'.mp (hlegal.2.2 p rfl)
      obtain ⟨hserved, hmoved⟩ := h.tiled.realloc hlegal.1.ahead (hsmall hlegal.2.1)
        (h.live p old hold)
      refine ⟨hserved, fun old' hold' => ?_⟩
      exact Option.some.inj (hold.symm.trans hold') ▸ hmoved
  | free p =>
    cases p with
    | none => exact ⟨⟨h.tiled, by simp [Call.reply], fun _ hb _ _ => hb⟩, trivial⟩
    | some p => exact ⟨⟨h.tiled.free, by simp [Call.reply], fun _ => mem_free⟩, trivial⟩
  | write p i x => exact ⟨⟨h.tiled, by simp [Call.reply], fun _ hb _ _ => hb⟩, trivial⟩

theorem Run.Sound.run (h : r.Sound start) (hlegal : c.Legal r) : (c.run start r).Sound start := by
  obtain ⟨⟨htiled, hhas, hkept⟩, -⟩ := h.reply hlegal
  refine ⟨htiled, fun p n hlive => ?_⟩
  simp only [Call.run] at hlive
  split_ifs at hlive with hnew hdrop
  · exact Option.some.inj hlive ▸ hhas p hnew
  · obtain ⟨b, hb, hused, rfl, hlarge⟩ := h.live p n hlive
    exact ⟨b, hkept b hb hused hdrop, hused, rfl, hlarge⟩

/-- **The heap of a client that keeps to its payloads**, in every run: the blocks go from the
first break to the current one, live pointers have the bytes that were asked for in blocks
of their own, `calloc` clears those bytes, and `realloc` keeps what was there before. -/
theorem heap_of_legal (start : Nat) (mem : Bytes) (calls : List Call)
    (hlegal : Runs.Guarded (Call.run start) Call.Legal (Run.start mem) calls) :
    let r := Runs.run (Call.run start) (Run.start mem) calls
    r.Sound start ∧ r.heap.blocks.Pairwise (fun b c => b.addr + b.size ≤ c.addr) ∧
      ∀ c : Call, c.Legal r → c.Right start r := by
  have hsound := hlegal.invariant (I := Run.Sound start) (fun _ _ h hc => h.run hc)
    ⟨rfl, fun _ _ hlive => by cases hlive⟩
  exact ⟨hsound, Tiles.pairwise hsound.tiled, fun _ hc => (hsound.reply hc).2⟩

end Runs

/-- A kernel that grants all growth. -/
def granting : Kernel := ⟨true, fun old new => old ≤ new⟩

/-- A block is used again: 32 bytes, the last one is written, and 17 bytes after `free`. -/
def reuse : List Call :=
  [.malloc granting 32, .write 4120 31 1#8, .free (some 4120), .calloc granting 17 1]

theorem reuse_legal : Runs.Guarded (Call.run 4096) Call.Legal (Run.start zeros) reuse := by
  have hgrows : granting.Grows := fun _ _ h => of_decide_eq_true h
  refine ⟨⟨hgrows, by decide⟩, ⟨⟨4096, 56, false⟩, by decide⟩, ?_, ⟨hgrows, by decide⟩, trivial⟩
  rintro _ ⟨⟩
  decide

theorem heap_of_reuse : (Runs.run (Call.run 4096) (Run.start zeros) reuse).Sound 4096 :=
  (heap_of_legal 4096 zeros reuse reuse_legal).1

/-- `calloc` does not clear the bytes of the payload that were not asked for. -/
theorem calloc_leaves_payload :
    Runs.Guarded (Call.run 4096) Call.Legal (Run.start zeros) reuse ∧
      let r := Runs.run (Call.run 4096) (Run.start zeros) reuse
      r.live 4120 = some 17 ∧ r.heap.blocks = [⟨4096, 56, false⟩] ∧ r.heap.mem (4120 + 31) = 1#8 :=
  ⟨reuse_legal, by decide⟩

/-! ## Large sizes -/

/-- What a call returns has `n` bytes, in pages that are mapped. -/
def Roomy (start : Nat) (h : Heap) (n : Nat) (r : Option Nat × Heap) : Prop :=
  ∀ p ∈ r.1, ∃ b ∈ r.2.blocks, b.free = false ∧ b.ptr = p ∧ n ≤ b.payload ∧
    b.addr + b.size ≤ mapped (h.heapBrk.getD start) (r.2.heapBrk.getD start)

/-- A block for `n` bytes behind the break ends before the last page of the address space. -/
def InSpace (brk n : Nat) : Prop := brk + (n + 15) / 16 * 16 + headerSize + 4096 ≤ 2 ^ 64

section Large

variable {start n : Nat} {h : Heap} {memory : Bool} {r : Option Nat × Heap}

theorem InSpace.total_eq {brk : Nat} (hn : InSpace brk n) :
    total n = (n + 15) / 16 * 16 + headerSize := by
  simp only [InSpace, headerSize] at hn
  simp only [total, headerSize]
  omega

theorem InSpace.ahead (hn : InSpace (h.heapBrk.getD start) n) :
    h.Ahead start (sysBrk memory) n := by
  intro _ _
  rw [hn.total_eq]
  simp only [InSpace] at hn
  omega

/-- Without a free block that is large enough the break moves. -/
theorem malloc_sbrk (hn : n ≠ 0) (hnone : takeFirst (total n) h.blocks = none) :
    malloc start (sysBrk memory) n h =
      let brk := h.heapBrk.getD start
      let new := (brk + total n) % 2 ^ 64
      if (sysBrk memory).moves brk new then
        (some (brk + headerSize), ⟨h.blocks ++ [⟨brk, total n, false⟩], some new, h.mem⟩)
      else (none, { h with heapBrk := some brk }) := by
  have htells : ¬ (h.heapBrk = none ∧ (!(sysBrk memory).tells) = true) := by simp [sysBrk]
  simp only [malloc, sbrk, if_neg hn, hnone, if_neg htells]
  split_ifs <;> rfl

theorem malloc_fits (hn : n ≠ 0) {p : Nat} {bs : List Block}
    (hfit : takeFirst (total n) h.blocks = some (p, bs)) :
    malloc start (sysBrk memory) n h = (some p, { h with blocks := bs }) := by
  simp only [malloc, if_neg hn, hfit]

/-- The break stays before the last page. -/
theorem InSpace.malloc_brk (hn : InSpace (h.heapBrk.getD start) n) (hzero : n ≠ 0) :
    (malloc start (sysBrk memory) n h).2.heapBrk.getD start + 4096 ≤ 2 ^ 64 := by
  have htotal := hn.total_eq
  simp only [InSpace] at hn
  cases hfit : takeFirst (total n) h.blocks with
  | some r =>
    rw [malloc_fits hzero hfit]
    dsimp only
    omega
  | none =>
    rw [malloc_sbrk hzero hfit]
    dsimp only
    split_ifs <;> simp only [Option.getD_some] <;> omega

theorem Roomy.le (hr : Roomy start h n r) (hn : n ≠ 0) {p : Nat} (hp : r.1 = some p) :
    n + headerSize ≤ mapped (h.heapBrk.getD start) (r.2.heapBrk.getD start) := by
  obtain ⟨b, -, -, -, hpayload, hend⟩ := hr p hp
  simp only [payload] at hpayload
  omega

section

variable (hbrk : h.heapBrk.getD start ≤ 2 ^ 47)
include hbrk

theorem inSpace_of_le
    (hle : n + headerSize ≤ mapped (h.heapBrk.getD start) (h.heapBrk.getD start)) :
    InSpace (h.heapBrk.getD start) n := by
  simp only [mapped, pageUp, headerSize, InSpace] at hle ⊢
  omega

/-- With memory `malloc` returns a block for the bytes that are left of `n`.  If that has `n`
bytes, then nothing has wrapped around. -/
theorem inSpace_of_malloc (h8 : h.heapBrk.getD start % 8 = 0) (hn : n % 2 ^ 64 ≠ 0)
    (hle : ∀ p, (malloc start (sysBrk true) (n % 2 ^ 64) h).1 = some p → n + headerSize ≤
      mapped (h.heapBrk.getD start)
        ((malloc start (sysBrk true) (n % 2 ^ 64) h).2.heapBrk.getD start)) :
    InSpace (h.heapBrk.getD start) n := by
  cases hfit : takeFirst (total (n % 2 ^ 64)) h.blocks with
  | some r =>
    rw [malloc_fits hn hfit] at hle
    exact inSpace_of_le hbrk (hle _ rfl)
  | none =>
    rw [malloc_sbrk hn hfit] at hle
    dsimp only at hle
    generalize h.heapBrk.getD start = brk at hbrk h8 hle ⊢
    have hne : (brk + total (n % 2 ^ 64)) % 2 ^ 64 ≠ 2 ^ 64 - 1 := by
      simp only [total, headerSize]
      omega
    rw [if_pos (by simpa [sysBrk] using hne)] at hle
    have hroom := hle _ rfl
    simp only [Option.getD_some, mapped, pageUp, headerSize, total, InSpace] at hroom ⊢
    omega

/-- A call for `n` bytes that returns its argument, or what `malloc` does for the bytes that
are left of `n`. -/
theorem roomy_iff_inSpace (h8 : h.heapBrk.getD start % 8 = 0) (hn : n % 2 ^ 64 ≠ 0)
    {reply : Bool → Option Nat × Heap}
    (hserved : ∀ memory, InSpace (h.heapBrk.getD start) n → ∃ d, Served start h n d (reply memory))
    (hreply : ∀ memory, (∃ p, reply memory = (some p, h)) ∨
      (reply memory).1 = (malloc start (sysBrk memory) (n % 2 ^ 64) h).1 ∧
        (reply memory).2.heapBrk = (malloc start (sysBrk memory) (n % 2 ^ 64) h).2.heapBrk) :
    (∀ memory, Roomy start h n (reply memory)) ↔ InSpace (h.heapBrk.getD start) n := by
  have hpos : n ≠ 0 := fun hzero => hn (by rw [hzero]; rfl)
  constructor
  · intro hr
    rcases hreply true with ⟨p, heq⟩ | ⟨hptr, hend⟩
    · exact inSpace_of_le hbrk (by simpa only [heq] using (hr true).le hpos (congrArg Prod.fst heq))
    · refine inSpace_of_malloc hbrk h8 hn ?_
      rw [← hptr, ← hend]
      exact fun p => (hr true).le hpos
  · intro hspace memory p hp
    obtain ⟨d, htiled, hhas, -⟩ := hserved memory hspace
    obtain ⟨b, hb, hused, hptr, hpayload⟩ := hhas p hp
    have hin := (Tiles.bounds htiled hb).2.2
    have hend : (reply memory).2.heapBrk.getD start + 4096 ≤ 2 ^ 64 := by
      rcases hreply memory with ⟨p, heq⟩ | ⟨-, hend⟩
      · rw [heq]
        exact Nat.le_trans (Nat.add_le_add_right hbrk 4096) (by decide)
      · have hlt : n % 2 ^ 64 = n := by
          simp only [InSpace] at hspace
          omega
        rw [hend, hlt]
        exact hspace.malloc_brk hpos
    refine ⟨b, hb, hused, hptr, hpayload, ?_⟩
    unfold mapped pageUp
    omega

end

theorem realloc_cases {p old : Nat} {k : Kernel} (hn : n ≠ 0) (hlive : h.Has p old) :
    realloc start k p n h = (some p, h) ∨ (realloc start k p n h).1 = (malloc start k n h).1 ∧
      (realloc start k p n h).2.heapBrk = (malloc start k n h).2.heapBrk := by
  obtain ⟨b, hb, -, hptr, -⟩ := hlive
  unfold realloc
  rw [if_neg hn]
  split
  · next hnone => exact absurd (find?_eq_none.mp hnone b hb) (by simp [hptr])
  split_ifs
  · exact .inl rfl
  · rcases malloc start k n h with ⟨_ | q, h'⟩ <;> exact .inr ⟨rfl, rfl⟩

end Large

/-- **Sizes wrap around**, that of the block and then the break: the kernel takes a lower
address for a smaller heap, and maps no page for one in the last page.  In each state of the
heap a call is right, with memory and without, exactly if the block for the bytes that were
asked for ends before the last page, or nothing is left of them in 64 bits: `malloc` of no
bytes is `NULL`. -/
theorem roomy_iff {start : Nat} {h : Heap} (h1 : h.Tiled start)
    (hbrk : h.heapBrk.getD start ≤ 2 ^ 47) (h8 : h.heapBrk.getD start % 8 = 0) (n s : BitVec 64) :
    ((∀ memory, Roomy start h n.toNat (malloc start (sysBrk memory) n.toNat h)) ↔
        n.toNat = 0 ∨ InSpace (h.heapBrk.getD start) n.toNat) ∧
      (∀ p old, h.Has p old →
        ((∀ memory, Roomy start h n.toNat (realloc start (sysBrk memory) p n.toNat h)) ↔
          n.toNat = 0 ∨ InSpace (h.heapBrk.getD start) n.toNat)) ∧
      ((∀ memory, Roomy start h (n.toNat * s.toNat)
          (calloc start (sysBrk memory) n.toNat s.toNat h)) ↔
        n.toNat * s.toNat % 2 ^ 64 = 0 ∨ InSpace (h.heapBrk.getD start) (n.toNat * s.toNat)) := by
  have hsmall : ∀ {m}, InSpace (h.heapBrk.getD start) m → m + 32 ≤ 2 ^ 64 := by
    intro m hm
    simp only [InSpace, headerSize] at hm
    omega
  have hlt : n.toNat % 2 ^ 64 = n.toNat := Nat.mod_eq_of_lt n.isLt
  refine ⟨?_, fun p old hlive => ?_, ?_⟩
  · by_cases hzero : n.toNat = 0
    · exact iff_of_true (fun _ p hp => by rw [malloc, if_pos hzero] at hp; cases hp) (.inl hzero)
    · rw [or_iff_right hzero]
      exact roomy_iff_inSpace hbrk h8 (hlt.symm ▸ hzero)
        (fun _ hn => ⟨none, h1.malloc_served hn.ahead (hsmall hn)⟩)
        fun _ => .inr (by rw [hlt]; exact ⟨rfl, rfl⟩)
  · by_cases hzero : n.toNat = 0
    · exact iff_of_true (fun _ p hp => by rw [realloc, if_pos hzero] at hp; cases hp) (.inl hzero)
    · rw [or_iff_right hzero]
      refine roomy_iff_inSpace hbrk h8 (hlt.symm ▸ hzero)
        (fun _ hn => ⟨_, (h1.realloc hn.ahead (hsmall hn) hlive).1⟩) fun _ => ?_
      rw [hlt]
      exact (realloc_cases hzero hlive).imp_left fun heq => ⟨p, heq⟩
  · by_cases hzero : n.toNat * s.toNat % 2 ^ 64 = 0
    · refine iff_of_true (fun _ p hp => ?_) (.inl hzero)
      rw [calloc, hzero] at hp
      cases hp
    · rw [or_iff_right hzero]
      refine roomy_iff_inSpace hbrk h8 hzero
        (fun _ hn => ⟨none, h1.calloc_served hn.ahead (hsmall hn)⟩) fun memory => .inr ?_
      unfold calloc
      rcases malloc start (sysBrk memory) (n.toNat * s.toNat % 2 ^ 64) h with ⟨_ | q, h'⟩ <;>
        exact ⟨rfl, rfl⟩

/-- A page for a heap with one block, which starts at 4096. -/
theorem roomy_iff_page : Roomy 4096 ⟨[⟨4096, 40, false⟩], some 4136, zeros⟩ 4096
    (realloc 4096 (sysBrk true) 4120 4096 ⟨[⟨4096, 40, false⟩], some 4136, zeros⟩) :=
  ((roomy_iff (h := ⟨[⟨4096, 40, false⟩], some 4136, zeros⟩) ⟨rfl, by decide, rfl⟩
    (by decide) (by decide) 4096#64 0#64).2.1 4120 16
    ⟨_, mem_cons_self, rfl, rfl, by decide⟩).mpr (.inr (by unfold InSpace; decide)) true

/-- The largest size: the block is a header. -/
theorem malloc_largest : ¬ Roomy 4096 ⟨[], none, zeros⟩ (2 ^ 64 - 1)
    (malloc 4096 (sysBrk true) (2 ^ 64 - 1) ⟨[], none, zeros⟩) := fun hroom =>
  absurd (hroom.le (by decide) (p := 4120) (by decide)) (by decide)

end Utms7.UserHeap
