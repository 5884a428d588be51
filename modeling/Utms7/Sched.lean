import Mathlib.Algebra.Group.Int.Defs
import Mathlib.Algebra.Group.Nat.Defs
import Mathlib.Data.Fintype.Basic
import Utms7.FifoLog

/-!
# The scheduler

The functions of `kernel/core/sched.c` that create, switch and end processes,
after `sched_init`.  `processes` is the table of 64 slots; the ready queue and the
sleep queue are linked through the `next` fields of the slots.

Each function is atomic and ends, where the source calls `sched_do_switch_yield`
or `sched_yield`, with the `sched_do_switch` that this interrupt runs.  A function
that waits in a loop is modelled by one round of the loop.  What the other parts
of the kernel return to the scheduler (a stack from `kmalloc`, a tree from
`create_address_space`) is an argument.

The fields that hold saved registers, names, paths and file descriptors are left
out: no function here decides anything by them.
-/

namespace Utms7.Sched

/-- An index of `processes`. -/
abbrev Slot := Fin 64

/-- The slot of the idle process, `&processes[0]`. -/
def idle : Slot := 0

/-- `PROC_UNUSED` to `PROC_ZOMBIE`. -/
inductive ProcState where
  | unused
  | ready
  | running
  | sleeping
  | blocked
  | zombie
deriving DecidableEq, Repr

/-- `process_t`. -/
structure Process where
  pid : Nat
  ppid : Nat
  state : ProcState
  kstack : Nat
  cr3 : Nat
  ticksLeft : Nat
  sleepUntil : Nat
  exitCode : Int
  waitingFor : Nat
  next : Option Slot
  heapStart : Nat
  heapEnd : Nat
  irqMask : BitVec 32
  irqPending : BitVec 32
deriving DecidableEq

/-- A slot after `memset(p, 0, sizeof(process_t))`. -/
def zeroProcess : Process where
  pid := 0
  ppid := 0
  state := .unused
  kstack := 0
  cr3 := 0
  ticksLeft := 0
  sleepUntil := 0
  exitCode := 0
  waitingFor := 0
  next := none
  heapStart := 0
  heapEnd := 0
  irqMask := 0
  irqPending := 0

/-- The static variables of the scheduler and the register `CR3`.

`log` is a history variable, which no function reads: who entered the ready queue
and who was given the processor, in order. -/
structure State where
  processes : Slot → Process
  current : Slot
  readyQueue : Option Slot
  readyQueueTail : Option Slot
  sleepQueue : Option Slot
  nextPid : Nat
  processCount : Nat
  needResched : Bool
  pitTicks : Nat
  cr3 : Nat
  log : List (FifoLog.Event Slot)

/-- `TIME_SLICE_MS / (1000 / PIT_TARGET_HZ)`. -/
def timeSlice : Nat := 10

/-- The top-level table of the kernel, `PML4_ADDR`. -/
def kernelSpace : Nat := 0x1000

namespace State

/-- The fields of one slot are changed. -/
def modify (s : State) (p : Slot) (f : Process → Process) : State :=
  { s with processes := Function.update s.processes p (f (s.processes p)) }

/-- `p->next = q`. -/
def setNext (s : State) (p : Slot) (q : Option Slot) : State :=
  s.modify p fun x => { x with next := q }

/-- `p->state = x`. -/
def setState (s : State) (p : Slot) (x : ProcState) : State :=
  s.modify p fun y => { y with state := x }

end State

/-! ## Queues and the switch -/

/-- `enqueue_ready`. -/
def enqueueReady (s : State) (p : Slot) : State :=
  if (s.processes p).state ≠ .ready then s
  else
    let s : State := { s.setNext p none with log := s.log ++ [.enter p] }
    match s.readyQueue with
    | none => { s with readyQueue := some p, readyQueueTail := some p }
    | some _ =>
      let s := match s.readyQueueTail with
        | some t => s.setNext t (some p)
        | none => s
      { s with readyQueueTail := some p }

/-- `dequeue_ready`. -/
def dequeueReady (s : State) : Option Slot × State :=
  match s.readyQueue with
  | none => (none, s)
  | some p =>
    let rest := (s.processes p).next
    let s := { s with
      readyQueue := rest
      readyQueueTail := if rest = none then none else s.readyQueueTail }
    (some p, s.setNext p none)

/-- The sleep queue has at most one node for each slot: a walk that takes more
rounds is in a cycle and does not end. -/
def rounds : Nat := 65

/-- The process behind `prev` leaves the sleep queue, and `sp` takes its place. -/
def unlinkSleeper (s : State) (prev sp : Option Slot) : State :=
  match prev with
  | some p => s.setNext p sp
  | none => { s with sleepQueue := sp }

/-- The loop of `sched_do_switch` along the sleep queue, at `sp` behind `prev`:
the processes whose time has come are moved to the ready queue. -/
def wakeSleepers (now : Nat) : Nat → State → Option Slot → Option Slot → State
  | 0, s, _, _ => s
  | _ + 1, s, _, none => s
  | n + 1, s, prev, some waking =>
    let sp := (s.processes waking).next
    if (s.processes waking).sleepUntil ≤ now then
      let s := unlinkSleeper s prev sp
      let s := s.modify waking fun x => { x with next := none, state := .ready, sleepUntil := 0 }
      wakeSleepers now n (enqueueReady s waking) prev sp
    else wakeSleepers now n s (some waking) sp

/-- The part of `sched_do_switch` that puts the current process back into the
queue. -/
def requeueCurrent (s : State) : State :=
  let c := s.processes s.current
  if c.state = .running ∧ c.pid ≠ 0 then enqueueReady (s.setState s.current .ready) s.current
  else s

/-- The part of `sched_do_switch` that gives the processor to the next process. -/
def dispatch (s : State) : State :=
  let d := dequeueReady s
  let next := d.1.getD idle
  let s : State := { d.2 with log := d.2.log ++ [.leave next] }
  if next = s.current then { s.setState next .running with needResched := false }
  else
    let prev := s.current
    let s := s.modify next fun x => { x with state := .running, ticksLeft := timeSlice }
    let cr3 := if (s.processes prev).cr3 ≠ (s.processes next).cr3 then (s.processes next).cr3
      else s.cr3
    { s with cr3 := cr3, needResched := false, current := next }

/-- `sched_do_switch`. -/
def schedDoSwitch (s : State) : State :=
  dispatch (requeueCurrent (wakeSleepers s.pitTicks rounds s none s.sleepQueue))

/-! ## Creation -/

/-- `alloc_pid`. -/
def allocPid (s : State) : Nat × State :=
  let next := s.nextPid + 1
  (s.nextPid, { s with nextPid := if next ≥ 10000 then 1 else next })

/-- The first slot that is not in use. -/
def findUnused (s : State) : Option Slot :=
  (List.finRange 64).find? fun i => (s.processes i).state = .unused

/-- The common start of the functions that make a process: a slot is cleared and
gets a pid, its parent and a time slice. -/
def claimSlot (s : State) (p : Slot) : State :=
  let s := s.modify p fun _ => zeroProcess
  let a := allocPid s
  let s := a.2.modify p fun x => { x with pid := a.1 }
  let ppid := (s.processes s.current).pid
  s.modify p fun x => { x with ppid := ppid, state := .ready, ticksLeft := timeSlice }

/-- Their common end. -/
def enroll (s : State) (p : Slot) : State :=
  let s := enqueueReady s p
  { s with processCount := (s.processCount + 1) % 2 ^ 32 }

/-- What a function of the scheduler returns: its value (`none` while it waits),
the new state, and the tree it hands to `free_address_space`, if any. -/
structure Outcome where
  ret : Option Int
  state : State
  freed : Option Nat

/-- A call that fails without a change. -/
def Outcome.fail (s : State) : Outcome := ⟨some (-1), s, none⟩

/-- `sched_create_kthread`; `kstack` is the stack that `kmalloc` returns. -/
def schedCreateKthread (s : State) (kstack : Nat) : Outcome :=
  match findUnused s with
  | none => .fail s
  | some p =>
    let s := claimSlot s p
    let cr3 := (s.processes s.current).cr3
    let s := s.modify p fun x => { x with cr3 := cr3, kstack := kstack }
    if kstack = 0 then ⟨some (-1), s.setState p .unused, none⟩
    else
      let s := s.modify p fun x => { x with heapStart := 0x40000000, heapEnd := 0x40000000 }
      ⟨some (s.processes p).pid, enroll s p, none⟩

/-- The tree that a forked process gets: that of its parent if this is the
kernel's, and else what `copy_address_space` returns. -/
def childSpace (s : State) (copy : Nat) : Nat :=
  if (s.processes s.current).cr3 = kernelSpace then kernelSpace else copy

/-- The common part of `sched_fork` and `sched_clone`. -/
def forkFrom (s : State) (copy kstack : Nat) : Outcome :=
  match findUnused s with
  | none => .fail s
  | some p =>
    let s := claimSlot s p
    let parent := s.processes s.current
    let space := childSpace s copy
    if space = 0 then ⟨some (-1), s.setState p .unused, none⟩
    else
      let s := s.modify p fun x => { x with
        cr3 := space, heapStart := parent.heapStart, heapEnd := parent.heapEnd, kstack := kstack }
      if kstack = 0 then
        ⟨some (-1), s.setState p .unused, if space = kernelSpace then none else some space⟩
      else ⟨some (s.processes p).pid, enroll s p, none⟩

/-- `sched_fork`. -/
def schedFork (s : State) (copy kstack : Nat) : Outcome := forkFrom s copy kstack

/-- `sched_clone`. -/
def schedClone (s : State) (userRsp copy kstack : Nat) : Outcome :=
  if userRsp % 16 ≠ 0 then .fail s else forkFrom s copy kstack

/-- What happens while a program is loaded: the tree that `create_address_space`
returns, the entry point and the end of the program, and whether its stack could
be mapped. -/
structure Loading where
  space : Nat
  entry : Nat
  maxVaddr : Nat
  stackMapped : Bool

/-- `(max_vaddr + 4095) & ~4095`. -/
def Loading.heapStart (l : Loading) : Nat := (l.maxVaddr + 4095) % 2 ^ 64 / 4096 * 4096

/-- `sched_create_process`. -/
def schedCreateProcess (s : State) (l : Loading) (kstack : Nat) : Outcome :=
  match findUnused s with
  | none => .fail s
  | some p =>
    let s := claimSlot s p
    if l.space = 0 then ⟨some (-1), s.setState p .unused, none⟩
    else
      let s := s.modify p fun x => { x with cr3 := l.space }
      if l.entry = 0 then ⟨some (-1), s.setState p .unused, some l.space⟩
      else
        let s := s.modify p fun x => { x with heapStart := l.heapStart, heapEnd := l.heapStart }
        if l.stackMapped = false ∨ kstack = 0 then
          ⟨some (-1), s.setState p .unused, some l.space⟩
        else
          let s := s.modify p fun x => { x with kstack := kstack }
          ⟨some (s.processes p).pid, enroll s p, none⟩

/-- The current process goes over to the new program. -/
def enterProgram (s : State) (l : Loading) : State :=
  { s.modify s.current fun x => { x with
      cr3 := l.space, heapStart := l.heapStart, heapEnd := l.heapStart } with
    cr3 := l.space }

/-- `sys_exec`, as far as it concerns the scheduler.  The tree it frees is the one
that was loaded. -/
def sysExec (s : State) (l : Loading) : Outcome :=
  if l.space = 0 then .fail s
  else if l.entry = 0 ∨ l.stackMapped = false then ⟨some (-1), s, some l.space⟩
  else
    ⟨some 0, enterProgram s l,
      if s.cr3 ≠ l.space ∧ s.cr3 ≠ 0 ∧ s.cr3 ≠ kernelSpace then some s.cr3 else none⟩

/-! ## Sleeping, blocking, ending -/

/-- The sleep queue is walked while the processes on it wake before `t` or at the
same time; the result is the process behind which the loop stops. -/
def sleepPosition (s : State) (t : Nat) : Nat → Option Slot → Option Slot → Option Slot
  | 0, prev, _ => prev
  | _ + 1, prev, none => prev
  | n + 1, prev, some q =>
    if (s.processes q).sleepUntil ≤ t then sleepPosition s t n (some q) (s.processes q).next
    else prev

/-- `current->next = *pp; *pp = current`, where `pp` is the link of `prev`. -/
def linkSleeper (s : State) (c : Slot) (prev : Option Slot) : State :=
  match prev with
  | none => { s.setNext c s.sleepQueue with sleepQueue := some c }
  | some q => (s.setNext c (s.processes q).next).setNext q (some c)

/-- The tick at which a process that sleeps for `ms` milliseconds is to wake. -/
def wakeTime (s : State) (ms : Nat) : Nat :=
  let ticks := ms * 1000 % 2 ^ 32 / 1000
  (s.pitTicks + if ticks = 0 then 1 else ticks) % 2 ^ 32

/-- `sched_sleep` up to its switch. -/
def goToSleep (s : State) (ms : Nat) : State :=
  let sleepUntil := wakeTime s ms
  let c := s.current
  let s := s.modify c fun x => { x with state := .sleeping, sleepUntil := sleepUntil }
  linkSleeper s c (sleepPosition s sleepUntil rounds none s.sleepQueue)

/-- `sched_sleep`. -/
def schedSleep (s : State) (ms : Nat) : State := schedDoSwitch (goToSleep s ms)

/-- `sched_block_on` up to its switch. -/
def goToBlock (s : State) (channel : Nat) : State :=
  s.modify s.current fun x => { x with state := .blocked, waitingFor := channel }

/-- `sched_block_on`. -/
def schedBlockOn (s : State) (channel : Nat) : State := schedDoSwitch (goToBlock s channel)

/-- One round of the loop of `sched_wakeup`. -/
def wakeBlocked (channel : Nat) (s : State) (p : Slot) : State :=
  if (s.processes p).state = .blocked ∧ (s.processes p).waitingFor = channel then
    let s := s.modify p fun x => { x with state := .ready, waitingFor := 0 }
    { enqueueReady s p with needResched := true }
  else s

/-- `sched_wakeup`. -/
def schedWakeup (s : State) (channel : Nat) : State :=
  (List.finRange 64).foldl (wakeBlocked channel) s

/-- `sched_exit` up to its switch. -/
def goToExit (s : State) (code : Int) : State :=
  let s := s.modify s.current fun x => { x with state := .zombie, exitCode := code }
  { s with processCount := (s.processCount + 2 ^ 32 - 1) % 2 ^ 32 }

/-- `sched_exit`. -/
def schedExit (s : State) (code : Int) : State := schedDoSwitch (goToExit s code)

/-- The process that `sched_kill` finds. -/
def killTarget (s : State) (pid : Nat) : Option Slot :=
  (List.finRange 64).find? fun i =>
    (s.processes i).pid = pid ∧ (s.processes i).state ≠ .unused

/-- `sched_kill`. -/
def schedKill (s : State) (pid : Nat) : Outcome :=
  match killTarget s pid with
  | none => .fail s
  | some p => ⟨some 0, s.modify p fun x => { x with state := .zombie, exitCode := -1 }, none⟩

/-- The process that `sched_waitpid` finds. -/
def waitTarget (s : State) (pid : Nat) : Option Slot :=
  (List.finRange 64).find? fun i =>
    (s.processes i).pid = pid ∧ (s.processes i).state = .zombie

/-- The slot is given back. -/
def reap (s : State) (p : Slot) : State :=
  s.modify p fun x => { x with kstack := 0, cr3 := 0, state := .unused }

/-- One round of `sched_waitpid`: it gives the slot of an ended process back, or
yields. -/
def schedWaitpid (s : State) (pid : Nat) : Outcome :=
  match waitTarget s pid with
  | some p =>
    let cr3 := (s.processes p).cr3
    ⟨some pid, reap s p, if cr3 ≠ 0 ∧ cr3 ≠ kernelSpace then some cr3 else none⟩
  | none => ⟨none, schedDoSwitch { s with needResched := true }, none⟩

/-! ## Interrupts -/

/-- `1 << irq`. -/
def irqBit (irq : Nat) : BitVec 32 := 1#32 <<< irq

/-- Neither ready nor running, and registered for the interrupt. -/
def wokenByIrq (irq : Nat) (p : Process) : Bool :=
  p.state ≠ .ready && p.state ≠ .running && p.irqMask &&& irqBit irq != 0

/-- `sched_wake_irq`. -/
def schedWakeIrq (s : State) (irq : Nat) : State :=
  { s with
    processes := fun i =>
      let p := s.processes i
      if wokenByIrq irq p then { p with irqPending := p.irqPending ||| irqBit irq, state := .ready }
      else p
    needResched := s.needResched || (List.finRange 64).any fun i => wokenByIrq irq (s.processes i) }

/-- A driver's interrupt handler.  It may do anything but change which interrupts
are pending for the processes: only `sys_irq_wait` and `sched_wake_irq` do. -/
structure Handler where
  run : State → State
  pending : ∀ s i, ((run s).processes i).irqPending = (s.processes i).irqPending

/-- `irq_handler_dispatch`. -/
def irqHandlerDispatch (handlers : Nat → Option Handler) (s : State) (irq : Int) : State :=
  if 0 ≤ irq ∧ irq < 16 then
    let s := schedWakeIrq s irq.toNat
    match handlers irq.toNat with
    | some h => h.run s
    | none => s
  else s

/-- `sys_irq_register`. -/
def sysIrqRegister (s : State) (irq : Int) : Int × State :=
  if irq < 0 ∨ irq > 15 then (-1, s)
  else (0, s.modify s.current fun x => { x with irqMask := x.irqMask ||| irqBit irq.toNat })

/-- One round of `sys_irq_wait`: a pending interrupt is taken, or the process
yields. -/
def sysIrqWait (s : State) (irq : Int) : Option Int × State :=
  if irq < 0 ∨ irq > 15 then (some (-1), s)
  else if (s.processes s.current).irqPending &&& irqBit irq.toNat = 0 then
    (none, schedDoSwitch { s with needResched := true })
  else
    (some 0, s.modify s.current fun x =>
      { x with irqPending := x.irqPending &&& ~~~ irqBit irq.toNat })

/-- Some process from `sp` on is due. -/
def anyDue (s : State) (now : Nat) : Nat → Option Slot → Bool
  | 0, _ => false
  | _ + 1, none => false
  | n + 1, some sp =>
    if (s.processes sp).sleepUntil ≤ now then true else anyDue s now n (s.processes sp).next

/-- `sched_tick`. -/
def schedTick (s : State) : State :=
  let s := s.modify s.current fun x => { x with ticksLeft := x.ticksLeft - 1 }
  let c := s.processes s.current
  let s := if c.ticksLeft = 0 ∧ c.state = .running then
    { s.modify s.current fun x => { x with ticksLeft := timeSlice } with needResched := true }
    else s
  if anyDue s s.pitTicks rounds s.sleepQueue then { s with needResched := true } else s

/-- `pit_handler`. -/
def pitHandler (s : State) : State :=
  schedTick { s with pitTicks := (s.pitTicks + 1) % 2 ^ 32 }

/-- The state that `sched_init` leaves behind; `calibrate_tsc` has counted 101 ticks. -/
def schedInit (kstack : Nat) : State where
  processes := Function.update (fun _ => zeroProcess) idle
    { zeroProcess with state := .running, kstack := kstack, cr3 := kernelSpace
                       ticksLeft := timeSlice }
  current := idle
  readyQueue := some idle
  readyQueueTail := some idle
  sleepQueue := none
  nextPid := 1
  processCount := 1
  needResched := false
  pitTicks := 101
  cr3 := kernelSpace
  log := [.enter idle]

end Utms7.Sched
