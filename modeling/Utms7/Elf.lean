import Utms7.ByteMemory
import Utms7.UserBytes

/-!
# Loading a program

`elf_load` of `kernel/core/elf.c`.  The file is in memory, and all the offsets that the
loader computes are added to its address in 64 bits; so a file is here what is found
at each such offset, and nothing says where it ends.  `elf_load` is told the size, but
does not look at it.

A result says which bytes were read: as pairs of an offset and a length.
-/

namespace Utms7.Elf

open ByteMemory Paging Radix

/-- The memory from the address of the file on. -/
abbrev File := BitVec 64 → BitVec 8

def File.bytes (file : File) : Bytes := fun i => file (BitVec.ofNat 64 i)

/-- Bytes that are read: where they start, and how many they are. -/
abbrev Read := BitVec 64 × Nat

/-! ## Headers -/

def File.type (file : File) : BitVec 16 := getU16 file.bytes 16

def File.machine (file : File) : BitVec 16 := getU16 file.bytes 18

def File.entry (file : File) : BitVec 64 := getU64 file.bytes 24

def File.phoff (file : File) : BitVec 64 := getU64 file.bytes 32

def File.phentsize (file : File) : BitVec 16 := getU16 file.bytes 54

def File.phnum (file : File) : BitVec 16 := getU16 file.bytes 56

/-- The tests of `elf_check_header`, each with the bytes that it reads. -/
def headerTests (file : File) : List (Read × Bool) :=
  [((0#64, 4), getU32 file.bytes 0 == 0x464C457F#32), ((4#64, 1), file.bytes 4 == 2#8),
    ((5#64, 1), file.bytes 5 == 1#8),
    ((16#64, 2), file.type == 2#16 || file.type == 3#16),
    ((18#64, 2), file.machine == 0x3E#16)]

/-- `elf_check_header`, up to the first test that fails. -/
def runTests : List (Read × Bool) → Bool × List Read
  | [] => (true, [])
  | (read, ok) :: tests =>
    if ok then
      let r := runTests tests
      (r.1, read :: r.2)
    else (false, [read])

def elfCheckHeader (file : File) : Bool × List Read := runTests (headerTests file)

/-- `elf64_phdr_t`, the fields that are used. -/
structure Phdr where
  type : BitVec 32
  offset : BitVec 64
  vaddr : BitVec 64
  filesz : BitVec 64
  memsz : BitVec 64

/-- The offset of a program header; the product of two `int` is sign-extended. -/
def File.phdrOffset (file : File) (i : Nat) : BitVec 64 :=
  file.phoff + (BitVec.ofNat 32 (i * file.phentsize.toNat)).signExtend 64

def File.phdr (file : File) (i : Nat) : Phdr :=
  let o := (file.phdrOffset i).toNat
  { type := getU32 file.bytes o
    offset := getU64 file.bytes (o + 8)
    vaddr := getU64 file.bytes (o + 16)
    filesz := getU64 file.bytes (o + 32)
    memsz := getU64 file.bytes (o + 40) }

/-- `PT_LOAD`. -/
def Phdr.load (ph : Phdr) : Bool := ph.type == 1#32

/-- What finding header `i` and its type takes. -/
def phdrReads (file : File) (i : Nat) : List Read :=
  [(56#64, 2), (32#64, 8), (54#64, 2), (file.phdrOffset i, 4)]

/-! ## The first loop -/

def minStep (file : File) (low : BitVec 64) (i : Nat) : BitVec 64 :=
  if (file.phdr i).load && decide ((file.phdr i).vaddr < low) then (file.phdr i).vaddr else low

/-- `min_vaddr`. -/
def minVaddr (file : File) : BitVec 64 :=
  let low := (List.range file.phnum.toNat).foldl (minStep file) (BitVec.allOnes 64)
  if low = BitVec.allOnes 64 then 0#64 else low

def minReads (file : File) : List Read :=
  (List.range file.phnum.toNat).flatMap fun i =>
    phdrReads file i ++ if (file.phdr i).load then [(file.phdrOffset i + 16#64, 8)] else []

/-- `base`. -/
def base (file : File) : BitVec 64 := 0x40000000#64 - minVaddr file

/-! ## The second loop -/

/-- The part of a page that comes from the file: where it goes in the page, where it
comes from, and its size. -/
structure Copy where
  dest : Nat
  source : BitVec 64
  size : Nat

/-- The bytes of the file for the page at `virt`. -/
def pageCopy (ph : Phdr) (vaddr virt : BitVec 64) : Option Copy :=
  let segEnd := vaddr + ph.filesz
  let pgStart := if virt < vaddr then vaddr else virt
  let pgEnd := if segEnd < virt + 4096#64 then segEnd else virt + 4096#64
  if pgStart < pgEnd then
    some
      { dest := (pgStart - virt).toNat
        source := ph.offset + (pgStart - vaddr)
        size := (pgEnd - pgStart).toNat }
  else none

/-- What the loader puts into the page at `virt`. -/
def pageTable (file : File) (ph : Phdr) (vaddr virt : BitVec 64) : Index → Entry :=
  match pageCopy ph vaddr virt with
  | none => emptyTable
  | some c => copyBytes emptyTable c.dest (fun k => file (c.source + BitVec.ofNat 64 k)) c.size

/-- The reads for a page; `o` is where the program header is. -/
def pageReads (o : BitVec 64) (ph : Phdr) (vaddr virt : BitVec 64) : List Read :=
  match pageCopy ph vaddr virt with
  | none => []
  | some c => [(o + 8#64, 8), (c.source, c.size)]

/-- Where a loop stands: whether it goes on, the machine and the reads. -/
structure Progress where
  ok : Bool
  machine : Machine
  reads : List Read

/-- The loop over the `n` pages from `virt` on. -/
def loadPages (root : Frame) (file : File) (o : BitVec 64) (ph : Phdr) (vaddr : BitVec 64) :
    Nat → BitVec 64 → Machine → Progress
  | 0, _, s => ⟨true, s, []⟩
  | n + 1, virt, s =>
    match pmmAllocPage s with
    | none => ⟨false, s, []⟩
    | some (phys, s) =>
      let r := pagingMapForProcess s root (addr phys) virt userFlags
      if r.1 ≠ 0 then ⟨false, pmmFreePage r.2 phys, []⟩
      else
        let s := { r.2 with mem := fill r.2.mem phys (pageTable file ph vaddr virt) }
        let p := loadPages root file o ph vaddr n (virt + 4096#64) s
        { p with reads := pageReads o ph vaddr virt ++ p.reads }

/-- `num_pages`, for a segment that is loaded at `vaddr`. -/
def numPages (ph : Phdr) (vaddr : BitVec 64) : Nat :=
  (pageUp (vaddr + ph.memsz) - (vaddr &&& ~~~4095#64)).toNat / 4096

/-- The reads for a header of `PT_LOAD` in the second loop. -/
def segmentReads (ph : Phdr) (o : BitVec 64) : List Read :=
  if ph.memsz = 0#64 then [(o + 40#64, 8)]
  else [(o + 40#64, 8), (o + 16#64, 8), (o + 32#64, 8)]

/-- One header in the second loop. -/
def loadSegment (root : Frame) (file : File) (i : Nat) (s : Machine) : Progress :=
  let ph := file.phdr i
  let o := file.phdrOffset i
  if !ph.load then ⟨true, s, phdrReads file i⟩
  else if ph.memsz = 0#64 then ⟨true, s, phdrReads file i ++ segmentReads ph o⟩
  else
    let vaddr := ph.vaddr + base file
    if vaddr < 0x10000#64 then ⟨false, s, phdrReads file i ++ segmentReads ph o⟩
    else
      let p := loadPages root file o ph vaddr (numPages ph vaddr) (vaddr &&& ~~~4095#64) s
      { p with reads := phdrReads file i ++ segmentReads ph o ++ p.reads }

/-- What the second loop does with a header. -/
inductive SegmentStep (root : Frame) (file : File) (i : Nat) (s : Machine) : Progress → Prop
  | skipped (hload : (file.phdr i).load = false) :
      SegmentStep root file i s ⟨true, s, phdrReads file i⟩
  | empty (hload : (file.phdr i).load = true) (hmemsz : (file.phdr i).memsz = 0#64) :
      SegmentStep root file i s
        ⟨true, s, phdrReads file i ++ segmentReads (file.phdr i) (file.phdrOffset i)⟩
  | low (hload : (file.phdr i).load = true) (hmemsz : (file.phdr i).memsz ≠ 0#64)
      (hlow : (file.phdr i).vaddr + base file < 0x10000#64) :
      SegmentStep root file i s
        ⟨false, s, phdrReads file i ++ segmentReads (file.phdr i) (file.phdrOffset i)⟩
  | pages (hload : (file.phdr i).load = true) (hmemsz : (file.phdr i).memsz ≠ 0#64)
      (hlow : ¬(file.phdr i).vaddr + base file < 0x10000#64) (p : Progress)
      (hp : p = loadPages root file (file.phdrOffset i) (file.phdr i)
        ((file.phdr i).vaddr + base file)
        (numPages (file.phdr i) ((file.phdr i).vaddr + base file))
        (((file.phdr i).vaddr + base file) &&& ~~~4095#64) s) :
      SegmentStep root file i s
        ⟨p.ok, p.machine,
          phdrReads file i ++ segmentReads (file.phdr i) (file.phdrOffset i) ++ p.reads⟩

theorem loadSegment_step (root : Frame) (file : File) (i : Nat) (s : Machine) :
    SegmentStep root file i s (loadSegment root file i s) := by
  unfold loadSegment
  dsimp only
  split
  · next hload => exact .skipped (by simpa using hload)
  next hload =>
  have hload : (file.phdr i).load = true := by simpa using hload
  split
  · next hmemsz => exact .empty hload hmemsz
  next hmemsz =>
  split
  · next hlow => exact .low hload hmemsz hlow
  · next hlow => exact .pages hload hmemsz hlow _ rfl

def loadSegments (root : Frame) (file : File) : List Nat → Machine → Progress
  | [], s => ⟨true, s, []⟩
  | i :: is, s =>
    let p := loadSegment root file i s
    if p.ok then
      let q := loadSegments root file is p.machine
      { q with reads := p.reads ++ q.reads }
    else p

/-- `max_vaddr` after all segments were loaded. -/
def maxVaddr (file : File) : BitVec 64 :=
  (List.range file.phnum.toNat).foldl (fun high i =>
    let ph := file.phdr i
    if ph.load && ph.memsz ≠ 0#64 && decide (high < ph.vaddr + base file + ph.memsz) then
      ph.vaddr + base file + ph.memsz
    else high) 0#64

/-- What `elf_load` leaves: the entry, or zero, the value for `out_max_vaddr` if it is
set, the machine and the reads. -/
structure Loaded where
  entry : BitVec 64
  outMaxVaddr : Option (BitVec 64)
  machine : Machine
  reads : List Read

def elfLoad (s : Machine) (root : Frame) (file : File) : Loaded :=
  let check := elfCheckHeader file
  if !check.1 then ⟨0#64, none, s, check.2⟩
  else
    let reads := check.2 ++ minReads file ++ [(56#64, 2)]
    let p := loadSegments root file (List.range file.phnum.toNat) s
    if p.ok then
      ⟨file.entry + base file, some (pageUp (maxVaddr file)), p.machine,
        reads ++ p.reads ++ [(56#64, 2), (24#64, 8)]⟩
    else ⟨0#64, none, p.machine, reads ++ p.reads⟩

end Utms7.Elf
