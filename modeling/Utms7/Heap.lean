import Utms7.ByteMemory
import Utms7.LinkedList

/-!
# The kernel heap

The functions of `kernel/core/memory.c` that manage the heap.  Blocks are
headers of 24 bytes in memory, each followed by its payload; the free ones form
a null-terminated list through their headers.  Addresses and sizes are `u64`
values, kept as numbers below `2 ^ 64`.

The loops of the source follow the free list.  They are cut off after `2 ^ 64`
rounds: a loop that runs longer has seen an address twice and never ends.
-/

namespace Utms7.Heap

open ByteMemory

/-- `sizeof(block_header_t)`. -/
def headerSize : Nat := 24

/-- `ALIGN_UP(x, 8)`. -/
def alignUp (x : Nat) : Nat := (x + 7) % 2 ^ 64 / 8 * 8

/-! ## Headers -/

/-- `b->size`. -/
def size (m : Bytes) (b : Nat) : Nat := load64 m b

/-- `b->next`. -/
def next (m : Bytes) (b : Nat) : Nat := load64 m (b + 8)

/-- `b->free`. -/
def flag (m : Bytes) (b : Nat) : BitVec 8 := m (b + 16)

def setSize (m : Bytes) (b x : Nat) : Bytes := store64 m b x

def setNext (m : Bytes) (b x : Nat) : Bytes := store64 m (b + 8) x

def setFlag (m : Bytes) (b : Nat) (x : BitVec 8) : Bytes := putByte m (b + 16) x

/-- `(u8*)b + sizeof(block_header_t) + b->size`. -/
def blockEnd (m : Bytes) (b : Nat) : Nat := (b + headerSize + size m b) % 2 ^ 64

/-- Block `b` takes in the block `c` behind it:
`b->size += sizeof(block_header_t) + c->size; b->next = c->next`. -/
def absorb (m : Bytes) (b c : Nat) : Bytes :=
  let m := setSize m b (size m b + headerSize + size m c)
  setNext m b (next m c)

/-! ## The allocator -/

/-- The static variables of the allocator, and the memory. -/
structure State where
  mem : Bytes
  freeList : Nat
  initialized : Bool
  totalMemory : Nat
  usedMemory : Nat

/-- The state that the kernel starts in. -/
def State.start (mem : Bytes) : State where
  mem := mem
  freeList := 0
  initialized := false
  totalMemory := 0
  usedMemory := 0

/-- The bound on the rounds of a loop. -/
def rounds : Nat := 2 ^ 64

/-- `add_free_block`. -/
def addFreeBlock (s : State) (base size : Nat) : State :=
  if size < headerSize + 16 then s
  else
    let alignedBase := alignUp base
    let adjustedSize := (size + 2 ^ 64 - (alignedBase + 2 ^ 64 - base) % 2 ^ 64) % 2 ^ 64
    if adjustedSize < headerSize + 16 then s
    else
      let m := setSize s.mem alignedBase (adjustedSize - headerSize)
      let m := setFlag m alignedBase 1#8
      let m := setNext m alignedBase s.freeList
      { s with mem := m, freeList := alignedBase }

/-- The loop that joins each block of the list with the next one where the two
touch. -/
def mergeLoop : Nat → Bytes → Nat → Option Bytes
  | 0, _, _ => none
  | n + 1, m, curr =>
    if curr = 0 then some m
    else if next m curr = 0 then some m
    else if blockEnd m curr = next m curr then mergeLoop n (absorb m curr (next m curr)) curr
    else mergeLoop n m (next m curr)

/-- The part of `memory_init` before the loop. -/
def initRegion (s : State) (memStart memSize : Nat) : State :=
  let s := { s with freeList := 0, totalMemory := 0, usedMemory := 0 }
  if memSize > 0 then
    let s := addFreeBlock s memStart memSize
    { s with totalMemory := (s.totalMemory + memSize) % 2 ^ 64 }
  else s

/-- `memory_init`. -/
def memoryInit (s : State) (memStart memSize : Nat) : Option State :=
  if s.initialized then some s
  else
    let s := initRegion s memStart memSize
    (mergeLoop rounds s.mem s.freeList).map fun m => { s with mem := m, initialized := true }

/-- `memory_add_region`. -/
def memoryAddRegion (s : State) (base size : Nat) : Option State :=
  if s.initialized = false ∨ size = 0 then some s
  else
    let s := addFreeBlock s base size
    let s := { s with totalMemory := (s.totalMemory + size) % 2 ^ 64 }
    (mergeLoop rounds s.mem s.freeList).map fun m => { s with mem := m }

/-- `if (prev) prev->next = x; else free_list = x;`. -/
def setLink (s : State) (prev x : Nat) : State :=
  if prev = 0 then { s with freeList := x } else { s with mem := setNext s.mem prev x }

/-- The block `curr` is cut off after `size` bytes if enough is left for another
block, which takes its place in the list. -/
def splitBlock (m : Bytes) (curr n : Nat) : Bytes :=
  let remaining := size m curr - n
  if remaining ≥ headerSize + 16 then
    let newBlock := (curr + headerSize + n) % 2 ^ 64
    let m := setSize m newBlock (remaining - headerSize)
    let m := setFlag m newBlock 1#8
    let m := setNext m newBlock (next m curr)
    let m := setSize m curr n
    setNext m curr newBlock
  else m

/-- The block `curr` behind `prev` leaves the free list. -/
def takeBlock (s : State) (prev curr : Nat) : State :=
  let s := setLink s prev (next s.mem curr)
  let m := setFlag s.mem curr 0#8
  let m := setNext m curr 0
  { s with mem := m, usedMemory := (s.usedMemory + (size m curr + headerSize)) % 2 ^ 64 }

/-- `kmalloc`: the pointer, which is 0 for `NULL`, and the new state. -/
def kmalloc (s : State) (n : Nat) : Option (Nat × State) :=
  if s.initialized = false ∨ n = 0 then some (0, s)
  else
    let n := alignUp n
    let fits := fun curr => decide (flag s.mem curr ≠ 0#8 ∧ size s.mem curr ≥ n)
    (LinkedList.walk (next s.mem) 0 fits rounds 0 s.freeList).map fun (prev, curr) =>
      if curr = 0 then (0, s)
      else
        let s := takeBlock { s with mem := splitBlock s.mem curr n } prev curr
        ((curr + headerSize) % 2 ^ 64, s)

/-- The first part of `kfree`: the block goes into the list, before the first
one with a higher address. -/
def insertBlock (s : State) (block : Nat) : Option State :=
  let m := setFlag s.mem block 1#8
  let used := (s.usedMemory + 2 ^ 64 - (size m block + headerSize) % 2 ^ 64) % 2 ^ 64
  let above := fun curr => decide (¬ curr < block)
  (LinkedList.walk (next m) 0 above rounds 0 s.freeList).map fun (prev, curr) =>
    let m := setNext m block curr
    setLink { s with mem := m, usedMemory := used } prev block

/-- The second part of `kfree`: the block takes in the next one. -/
def mergeNext (m : Bytes) (block : Nat) : Bytes :=
  if next m block ≠ 0 ∧ blockEnd m block = next m block then absorb m block (next m block) else m

/-- The third part of `kfree`: the one before takes in the block. -/
def mergePrev (s : State) (block : Nat) : Option State :=
  let found := fun curr => decide (curr = block)
  (LinkedList.walk (next s.mem) 0 found rounds 0 s.freeList).map fun (prev, _) =>
    if prev ≠ 0 ∧ blockEnd s.mem prev = block then { s with mem := absorb s.mem prev block } else s

/-- `kfree`. -/
def kfree (s : State) (ptr : Nat) : Option State :=
  if s.initialized = false ∨ ptr = 0 then some s
  else
    let block := (ptr + 2 ^ 64 - headerSize) % 2 ^ 64
    if flag s.mem block ≠ 0#8 then some s
    else do
      let s ← insertBlock s block
      mergePrev { s with mem := mergeNext s.mem block } block

/-- The address of `aligned_ptr[-1]`. -/
def before (aligned : Nat) : Nat := (aligned + 2 ^ 64 - 8) % 2 ^ 64

/-- `kmalloc_aligned`; the mask has 32 bits. -/
def kmallocAligned (s : State) (size : BitVec 64) (alignment : BitVec 32) : Option (Nat × State) :=
  let alignment := if alignment.toNat < 8 then 8#32 else alignment
  let room := alignment.setWidth 64 + 8#64
  (kmalloc s (size + room).toNat).map fun (ptr, s) =>
    if ptr = 0 then (0, s)
    else
      let aligned := (BitVec.ofNat 64 ptr + room) &&& (~~~(alignment - 1#32)).setWidth 64
      (aligned.toNat, { s with mem := store64 s.mem (before aligned.toNat) ptr })

/-- `kfree_aligned`. -/
def kfreeAligned (s : State) (ptr : Nat) : Option State :=
  if ptr = 0 then some s else kfree s (load64 s.mem (before ptr))

/-- `memory_used`. -/
def memoryUsed (s : State) : Nat := s.usedMemory

end Utms7.Heap
