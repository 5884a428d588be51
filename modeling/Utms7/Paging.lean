import Mathlib.Algebra.Group.Int.Defs
import Mathlib.Algebra.Group.Nat.Defs
import Utms7.Radix

/-!
# Page tables

`kernel/arch/x86_64/paging.c`: the mappers, and the functions that create, copy and
free address spaces.

Memory is seen as frames of 512 words.  The kernel runs with the first GiB mapped to
itself, so that a pointer to a table is its physical address; a pointer that is taken
from an entry, `(u64*)(e & ~0xFFFULL)`, is the frame number in the entry.  Bits 52 to
63 of an entry that points to a table would make the pointer one that cannot be
used, and are left out.

`translate` is what the processor does with an address: it follows the tables of
four levels to a page of 4 KiB, or to a larger one, and may write or let the user in
if all the entries on the way say so.
-/

namespace Utms7.Paging

open Radix

/-- The number of a page of physical memory. -/
abbrev Frame := BitVec 40

abbrev Entry := BitVec 64

abbrev Index := Fin 512

/-- Physical memory. -/
abbrev Memory := Frame → Index → Entry

/-- `e & PAGE_PRESENT`. -/
def present (e : Entry) : Bool := e.getLsbD 0

/-- `e & PAGE_WRITABLE`. -/
def writable (e : Entry) : Bool := e.getLsbD 1

/-- `e & PAGE_USER`. -/
def user (e : Entry) : Bool := e.getLsbD 2

/-- `e & PAGE_HUGE`. -/
def huge (e : Entry) : Bool := e.getLsbD 7

/-- `PAGE_PRESENT | PAGE_WRITABLE`. -/
def kernelFlags : BitVec 64 := 3#64

/-- `PAGE_PRESENT | PAGE_WRITABLE | PAGE_USER`. -/
def userFlags : BitVec 64 := 7#64

/-- The frame that an entry points to. -/
def frame (e : Entry) : Frame := e.extractLsb' 12 40

/-- The address of a frame. -/
def addr (f : Frame) : BitVec 64 := f.setWidth 64 <<< 12

/-- `(virt >> shift) & 0x1FF`. -/
def index (virt : BitVec 64) (shift : Nat) : Index := Fin.ofNat 512 (virt >>> shift).toNat

/-- The indices of an address in the four tables. -/
def path (virt : BitVec 64) : List Index :=
  [index virt 39, index virt 30, index virt 21, index virt 12]

/-! ## Translation -/

/-- The table that an entry points to.  In the second and the third table
`PAGE_HUGE` marks a page of 1 GiB or of 2 MiB. -/
def child (d : Nat) (e : Entry) : Option Frame :=
  if present e && !(huge e && (d == 1 || d == 2)) then some (frame e) else none

/-- Where a path leads, from the table at `root`. -/
def walk (m : Memory) (root : Frame) (p : List Index) : Option Frame := Radix.walk child m 0 root p

/-- The entries on the way. -/
def trail (m : Memory) (root : Frame) (p : List Index) : List Entry := Radix.trail child m 0 root p

/-- What the processor makes of an address. -/
structure Mapping where
  frame : Frame
  writable : Bool
  user : Bool
deriving DecidableEq

/-- The frame behind the last of `n` entries: a page of 4 KiB, or a part of a page
of 2 MiB or of 1 GiB. -/
def leafFrame (n : Nat) (e : Entry) (virt : BitVec 64) : Frame :=
  if n = 4 then frame e
  else if n = 3 then frame (e &&& ~~~0x1FFFFF#64) + BitVec.ofNat 40 (index virt 12)
  else frame (e &&& ~~~0x3FFFFFFF#64) + BitVec.ofNat 40 (512 * index virt 21 + index virt 12)

/-- What the entries on the way give. -/
def mapping (es : List Entry) (virt : BitVec 64) : Option Mapping :=
  match es.getLast? with
  | none => none
  | some e =>
    if present e then some ⟨leafFrame es.length e virt, es.all writable, es.all user⟩ else none

def translate (m : Memory) (root : Frame) (virt : BitVec 64) : Option Mapping :=
  mapping (trail m root (path virt)) virt

/-- The flags of the page of 4 KiB at `virt`: its entry without the address. -/
def pageFlags (m : Memory) (root : Frame) (virt : BitVec 64) : Option (BitVec 64) :=
  match trail m root (path virt) with
  | [_, _, _, e] => if present e then some (e &&& ~~~0xFFFFFFFFFF000#64) else none
  | _ => none

/-! ## Allocation of frames -/

/-- The page allocator `pmm_alloc_page`, `pmm_free_page`: its pages and the bitmap.
`init_memory_from_multiboot` gives it memory between the kernel, which is loaded at
1 MiB, and the end of the first GiB. -/
structure Pool where
  base : Nat
  total : Nat
  used : Nat → Bool
  cursor : Nat
  low : 2 ^ 8 ≤ base
  high : base + total ≤ 2 ^ 18

/-- The physical memory and the page allocator. -/
structure Machine where
  mem : Memory
  pool : Pool

/-- A page that is cleared. -/
def emptyTable : Index → Entry := fun _ => 0#64

/-- The bit that the search of `pmm_alloc_page` finds. -/
def Pool.search (p : Pool) : Option Nat :=
  ((List.range p.total).find? fun i => !p.used ((p.cursor + i) % p.total)).map fun i =>
    (p.cursor + i) % p.total

/-- The frame of bit `idx`. -/
def Pool.page (p : Pool) (idx : Nat) : Frame := BitVec.ofNat 40 (p.base + idx)

/-- The bit is set, and the next search starts behind it. -/
def Pool.take (p : Pool) (idx : Nat) : Pool :=
  { p with used := Function.update p.used idx true, cursor := (idx + 1) % p.total }

/-- `pmm_alloc_page`. -/
def pmmAllocPage (s : Machine) : Option (Frame × Machine) :=
  match s.pool.search with
  | none => none
  | some idx =>
    some (s.pool.page idx, { s with
      mem := fill s.mem (s.pool.page idx) emptyTable
      pool := s.pool.take idx })

/-- `pmm_free_page`. -/
def Pool.free (p : Pool) (f : Frame) : Pool :=
  if p.base ≤ f.toNat ∧ f.toNat - p.base < p.total then
    { p with used := Function.update p.used (f.toNat - p.base) false }
  else p

def pmmFreePage (s : Machine) (f : Frame) : Machine := { s with pool := s.pool.free f }

/-! ## Mapping a page -/

/-- The table behind entry `i` of table `t`; one is made if there is none. -/
def nextTable (alloc : Machine → Option (Frame × Machine)) (flags : BitVec 64) (s : Machine)
    (t : Frame) (i : Index) : Option (Frame × Machine) :=
  if present (s.mem t i) then some (frame (s.mem t i), s)
  else
    match alloc s with
    | none => none
    | some (g, s) =>
      let s := { s with mem := write s.mem t i (addr g ||| flags) }
      some (frame (s.mem t i), s)

/-- The 512 entries for the parts of a page of 2 MiB. -/
def splitTable (e : Entry) : Index → Entry := fun l =>
  ((e &&& ~~~0x1FFFFF#64) + BitVec.ofNat 64 l * 4096#64) ||| (e &&& 0xFFF#64)

/-- A page of 2 MiB becomes a table of pages of 4 KiB. -/
def splitHuge (s : Machine) (pd : Frame) (k : Index) : Option Machine :=
  let e := s.mem pd k
  if present e && huge e then
    match pmmAllocPage s with
    | none => none
    | some (g, s) =>
      some { s with
        mem := write (fill s.mem g (splitTable e)) pd k (addr g ||| kernelFlags ||| (e &&& 4#64)) }
  else some s

/-- `paging_map_for_process`. -/
def pagingMapForProcess (s : Machine) (root : Frame) (phys virt flags : BitVec 64) :
    Int × Machine :=
  match nextTable pmmAllocPage userFlags s root (index virt 39) with
  | none => (-1, s)
  | some (pdpt, s) =>
    match nextTable pmmAllocPage userFlags s pdpt (index virt 30) with
    | none => (-1, s)
    | some (pd, s) =>
      if huge flags then
        if present (s.mem pd (index virt 21)) && !huge (s.mem pd (index virt 21)) then (-1, s)
        else
          (0, { s with
            mem := write s.mem pd (index virt 21) ((phys &&& ~~~0x1FFFFF#64) ||| flags) })
      else
        match splitHuge s pd (index virt 21) with
        | none => (-1, s)
        | some s =>
          match nextTable pmmAllocPage userFlags s pd (index virt 21) with
          | none => (-1, s)
          | some (pt, s) =>
            (0, { s with
              mem := write s.mem pt (index virt 12) ((phys &&& ~~~0xFFF#64) ||| flags) })

/-- `PML4_ADDR`. -/
def kernelRoot : Frame := 1

end Utms7.Paging
