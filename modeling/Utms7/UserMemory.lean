import Utms7.Paging

/-!
# The heap of a process

`sys_brk` and `sys_mmap` of `kernel/core/syscall.c`.  Both map pages behind
`heap_end`: `sys_brk` takes them from the page allocator, `sys_mmap` from `kmalloc`,
or from a device where the descriptor is the one of the DRM device.

A memory access of the kernel that the tables of the process do not translate ends
in `panic_exception`: the machine stops.  Each call also returns the pages that it
mapped.
-/

namespace Utms7.Paging

open Radix

/-- `kmalloc(4096)` and `kfree`. -/
structure KernelHeap (H : Type) where
  kmalloc : H → BitVec 64 × H
  kfree : H → BitVec 64 → H

/-- The fields of `process_t` that describe its memory. -/
structure Process where
  cr3 : Frame
  heapStart : BitVec 64
  heapEnd : BitVec 64

/-- The machine, the kernel's heap and the process that makes the calls. -/
structure System (H : Type) where
  machine : Machine
  heap : H
  process : Process

/-! ## Access to the pages of a process -/

/-- Bits 47 to 63 of an address are equal. -/
def canonical (virt : BitVec 64) : Bool := virt.toNat < 2 ^ 47 || virt.toNat ≥ 2 ^ 64 - 2 ^ 47

/-- Bytes `lo` to `hi` of a page are cleared. -/
def clearBytes (table : Index → Entry) (lo hi : Nat) : Index → Entry := fun w =>
  (List.range 8).foldl (fun x b =>
    if lo ≤ 8 * w + b ∧ 8 * w + b < hi then x &&& ~~~(0xFF#64 <<< (8 * b)) else x) (table w)

/-- The part of a `memset` that falls in the page at `virt`. -/
def clearPart (s : Machine) (root : Frame) (virt : BitVec 64) (lo hi : Nat) : Option Machine :=
  if canonical virt then
    match translate s.mem root virt with
    | none => none
    | some p => some { s with mem := fill s.mem p.frame (clearBytes (s.mem p.frame) lo hi) }
  else none

/-- `memset((void*)virt, 0, 4096)`; `none` stands for a fault. -/
def memsetPage (s : Machine) (root : Frame) (virt : BitVec 64) : Option Machine :=
  let off := virt.toNat % 4096
  match clearPart s root virt off 4096 with
  | none => none
  | some s => if off = 0 then some s else clearPart s root (virt + 4096#64) 0 off

/-! ## The calls -/

/-- How a loop over pages ends: with the last page, with an error that the call
returns, or with a fault. -/
inductive Ending
  | done
  | failed
  | panic
deriving DecidableEq

/-- What a loop over pages leaves, and the pages that it mapped. -/
structure Pages (H : Type) where
  machine : Machine
  heap : H
  mapped : List (BitVec 64)
  ending : Ending

/-- The page of one round, and the rounds after it. -/
def Pages.after {H : Type} (c : Int) (virt : BitVec 64) (r : Pages H) : Pages H :=
  { r with mapped := if c = 0 then virt :: r.mapped else r.mapped }

variable {H : Type}

/-- The loop of `sys_brk`. -/
def brkLoop (root : Frame) (heap : H) : Nat → BitVec 64 → Machine → Pages H
  | 0, _, s => ⟨s, heap, [], .done⟩
  | n + 1, virt, s =>
    match pmmAllocPage s with
    | none => ⟨s, heap, [], .failed⟩
    | some (phys, s) =>
      -- the result is not looked at
      let r := pagingMapForProcess s root (addr phys) virt userFlags
      match memsetPage r.2 root virt with
      | none => .after r.1 virt ⟨r.2, heap, [], .panic⟩
      | some s => .after r.1 virt (brkLoop root heap n (virt + 4096#64) s)

/-- The flags that `sys_mmap` gives to a page. -/
def mmapFlags (prot : BitVec 64) : BitVec 64 := if prot &&& 2#64 ≠ 0 then 7#64 else 5#64

/-- The loop of `sys_mmap` over pages from `kmalloc`. -/
def mmapLoop (K : KernelHeap H) (root : Frame) (prot : BitVec 64) :
    Nat → BitVec 64 → Machine → H → Pages H
  | 0, _, s, heap => ⟨s, heap, [], .done⟩
  | n + 1, virt, s, heap =>
    let (phys, heap) := K.kmalloc heap
    if phys = 0#64 then ⟨s, heap, [], .failed⟩
    else
      let r := pagingMapForProcess s root phys virt (mmapFlags prot)
      if r.1 ≠ 0 then ⟨r.2, K.kfree heap phys, [], .failed⟩
      else
        match memsetPage r.2 root virt with
        | none => .after r.1 virt ⟨r.2, heap, [], .panic⟩
        | some s => .after r.1 virt (mmapLoop K root prot n (virt + 4096#64) s heap)

/-- The loop of `sys_mmap` over the pages of a device. -/
def deviceLoop (root : Frame) (heap : H) : Nat → BitVec 64 → BitVec 64 → Machine → Pages H
  | 0, _, _, s => ⟨s, heap, [], .done⟩
  | n + 1, phys, virt, s =>
    let r := pagingMapForProcess s root phys virt userFlags
    .after r.1 virt (deviceLoop root heap n (phys + 4096#64) (virt + 4096#64) r.2)

/-- What a call leaves: the system, its value, the pages that it mapped, and whether
the machine still runs. -/
structure Reply (H : Type) where
  system : System H
  value : BitVec 64
  mapped : List (BitVec 64)
  running : Bool

/-- The end of a call after its loop: `heap_end` moves if there was no error. -/
def System.finish (s : System H) (r : Pages H) (heapEnd value : BitVec 64) : Reply H :=
  match r.ending with
  | .done =>
    ⟨⟨r.machine, r.heap, { s.process with heapEnd := heapEnd }⟩, value, r.mapped, true⟩
  | .failed => ⟨⟨r.machine, r.heap, s.process⟩, -1#64, r.mapped, true⟩
  | .panic => ⟨⟨r.machine, r.heap, s.process⟩, 0#64, r.mapped, false⟩

/-- `(x + 4095) & ~4095ULL`. -/
def pageUp (x : BitVec 64) : BitVec 64 := (x + 4095#64) &&& ~~~4095#64

/-- `sys_brk`. -/
def sysBrk (s : System H) (address : BitVec 64) : Reply H :=
  let p := s.process
  if address = 0#64 then ⟨s, p.heapEnd, [], true⟩
  else if address.toNat > p.heapEnd.toNat then
    let oldPage := pageUp p.heapEnd
    let newPage := pageUp address
    let r := brkLoop p.cr3 s.heap ((newPage.toNat - oldPage.toNat) / 4096) oldPage s.machine
    s.finish r address address
  else ⟨{ s with process := { p with heapEnd := address } }, address, [], true⟩

/-- `(size + 4095) / 4096` of signed numbers, as the `u64` that counts the pages. -/
def pageCount (size : BitVec 64) : Nat := ((size + 4095#64).sdiv 4096#64).toNat

/-- `sys_mmap`.  `device` is what `drm_mmap_fb` returns if the descriptor is the one
of the DRM device. -/
def sysMmap (K : KernelHeap H) (s : System H) (size prot : BitVec 64)
    (device : Option (BitVec 64)) : Reply H :=
  let p := s.process
  let pages := pageCount size
  let heapEnd := p.heapEnd + BitVec.ofNat 64 pages * 4096#64
  match device with
  | some phys =>
    if phys = 0#64 then ⟨s, -1#64, [], true⟩
    else s.finish (deviceLoop p.cr3 s.heap pages phys p.heapEnd s.machine) heapEnd p.heapEnd
  | none => s.finish (mmapLoop K p.cr3 prot pages p.heapEnd s.machine s.heap) heapEnd p.heapEnd

end Utms7.Paging
