import Utms7.AddressSpace
import Utms7.CString
import Utms7.Elf

/-!
# A new program

`sys_exec` from the point where the arguments and the file have been read: new tables,
the segments of the file, 64 pages of stack with a page above them, and then, through
the new tables, the strings and the words that a program finds on its stack.  A store
to an address without a page is a fault.
-/

namespace Utms7.Exec

open ByteMemory Paging Radix Elf

/-! ## The pages of the stack -/

def userStackTop : BitVec 64 := 0x4000000000#64

/-- `stack_pages`. -/
def stackPages : Nat := 64

/-- `virt` in round `i`. -/
def stackPage (i : Nat) : BitVec 64 := userStackTop - BitVec.ofNat 64 ((stackPages - i) * 4096)

/-- The loop over the pages, with the rounds that are left. -/
def mapStack (root : Frame) : List Nat → Machine → Bool × Machine
  | [], s => (true, s)
  | i :: is, s =>
    match pmmAllocPage s with
    | none => (false, s)
    | some (f, s) =>
      let r := pagingMapForProcess s root (addr f) (stackPage i) userFlags
      if r.1 ≠ 0 then (false, pmmFreePage r.2 f) else mapStack root is r.2

/-- The page above the stack; nothing is done if there is none. -/
def mapGuard (root : Frame) (s : Machine) : Machine :=
  match pmmAllocPage s with
  | none => s
  | some (f, s) =>
    (pagingMapForProcess { s with mem := fill s.mem f emptyTable } root (addr f)
      userStackTop 5#64).2

/-! ## Stores through the new tables -/

/-- `memcpy` to an address of the process. -/
def memcpy (root : Frame) : BitVec 64 → List (BitVec 8) → Machine → Option Machine
  | _, [], s => some s
  | a, b :: bs, s => (pokeByte s root a b).bind fun s => memcpy root (a + 1#64) bs s

/-- The bytes of a word, from the lowest one on. -/
def wordBytes (w : BitVec 64) : List (BitVec 8) :=
  (List.range 8).map fun i => w.extractLsb' (8 * i) 8

/-- `*(u64*)a = w`. -/
def storeWord (root : Frame) (a w : BitVec 64) (s : Machine) : Option Machine :=
  memcpy root a (wordBytes w) s

/-- `rsp -= size; rsp &= ~0xF; memcpy((void*)rsp, data, size)`, with the new `rsp`. -/
def push (root : Frame) (rsp : BitVec 64) (data : List (BitVec 8)) (s : Machine) :
    Option (BitVec 64 × Machine) :=
  let rsp := (rsp - BitVec.ofNat 64 data.length) &&& ~~~15#64
  (memcpy root rsp data s).map fun s => (rsp, s)

/-- The loop over the arguments: `argv_ptrs`, `rsp` and the memory after it. -/
def pushStrings (root : Frame) : List CStr → BitVec 64 → Machine →
    Option (List (BitVec 64) × BitVec 64 × Machine)
  | [], rsp, s => some ([], rsp, s)
  | arg :: args, rsp, s =>
    (push root rsp (arg.chars ++ [0#8]) s).bind fun r =>
      (pushStrings root args r.1 r.2).map fun r' => (r.1 :: r'.1, r'.2)

/-- `random_bytes`. -/
def randomBytes : List (BitVec 8) :=
  [0x12#8, 0x34#8, 0x56#8, 0x78#8, 0x9A#8, 0xBC#8, 0xDE#8, 0xF0#8,
    0x11#8, 0x22#8, 0x33#8, 0x44#8, 0x55#8, 0x66#8, 0x77#8, 0x88#8]

/-- `auxv`. -/
def auxv (atRandomPtr entry : BitVec 64) : List (BitVec 64) :=
  [6#64, 4096#64, 25#64, atRandomPtr, 9#64, entry, 0#64, 0#64]

/-- The loop that stores `argv_ptrs` from `argv_base` on. -/
def storePointers (root : Frame) (argvBase : BitVec 64) :
    Nat → List (BitVec 64) → Machine → Option Machine
  | _, [], s => some s
  | i, p :: ptrs, s =>
    (storeWord root (argvBase + BitVec.ofNat 64 (i * 8)) p s).bind
      (storePointers root argvBase (i + 1) ptrs)

def argvBase (rsp : BitVec 64) : BitVec 64 := rsp + 8#64

def envpBase (rsp : BitVec 64) (argc : Nat) : BitVec 64 :=
  argvBase rsp + BitVec.ofNat 64 ((argc + 1) * 8)

def auxvBase (rsp : BitVec 64) (argc : Nat) : BitVec 64 := envpBase rsp argc + 8#64

/-- The words from `rsp` on. -/
def storeArea (root : Frame) (rsp : BitVec 64) (argc : Nat) (ptrs aux : List (BitVec 64))
    (s : Machine) : Option Machine :=
  (storeWord root rsp (BitVec.ofNat 64 argc) s).bind fun s =>
  (storePointers root (argvBase rsp) 0 ptrs s).bind fun s =>
  (storeWord root (argvBase rsp + BitVec.ofNat 64 (argc * 8)) 0#64 s).bind fun s =>
  (storeWord root (envpBase rsp argc) 0#64 s).bind fun s =>
  memcpy root (auxvBase rsp argc) (aux.flatMap wordBytes) s

/-- `args_area`. -/
def argsArea (argc : Nat) : BitVec 64 := BitVec.ofNat 64 ((argc + 3) * 8 + 64)

/-- The stack of a program: `rsp` and the memory. -/
def buildStack (root : Frame) (args : List CStr) (entry : BitVec 64) (s : Machine) :
    Option (BitVec 64 × Machine) :=
  (pushStrings root args (userStackTop &&& ~~~15#64) s).bind fun strings =>
  (push root strings.2.1 randomBytes strings.2.2).bind fun random =>
  let rsp := (random.1 - argsArea args.length) &&& ~~~15#64
  (storeArea root rsp args.length strings.1 (auxv random.1 entry) random.2).map fun s => (rsp, s)

/-! ## The call -/

/-- What the process has afterwards: its tables and the registers it starts with. -/
structure Program where
  machine : Machine
  cr3 : Frame
  userRip : BitVec 64
  userRsp : BitVec 64
  heapStart : BitVec 64
  rdi : BitVec 64
  rsi : BitVec 64
  rdx : BitVec 64

inductive Result
  -- the call returns `-1`
  | failed (s : Machine)
  | fault
  | started (p : Program)

/-- `sys_exec`; `oldCr3` is the table of the process before. -/
def sysExec (dev : Devices) (oldCr3 : Frame) (args : List CStr) (file : File) (s : Machine) :
    Result :=
  match createAddressSpace dev s with
  | (none, s) => .failed s
  | (some root, s) =>
    let image := elfLoad s root file
    if image.entry = 0#64 then .failed (freeAddressSpace image.machine root)
    else
      let stack := mapStack root (List.range stackPages) image.machine
      if !stack.1 then .failed (freeAddressSpace stack.2 root)
      else
        match buildStack root args image.entry (mapGuard root stack.2) with
        | none => .fault
        | some (rsp, s) =>
          .started
            { machine := if oldCr3 = root then s else freeAddressSpace s oldCr3
              cr3 := root
              userRip := image.entry
              userRsp := rsp
              heapStart := pageUp (image.outMaxVaddr.getD 0#64)
              rdi := BitVec.ofNat 64 args.length
              rsi := argvBase rsp
              rdx := envpBase rsp args.length }

end Utms7.Exec
