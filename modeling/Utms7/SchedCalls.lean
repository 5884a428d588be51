import Utms7.Runs
import Utms7.SchedInvariant

/-!
# Runs of the scheduler

`Call` is one of the scheduler's functions, with what the rest of the kernel
returns to it.  Every call under a condition on the state before it keeps the
invariant; the queues are then right after every run in which all calls meet the
condition.
-/

namespace Utms7.Sched

open LinkedList Function State

variable {s : State} {p : Slot} {full : Prop} {pid : Nat}

/-- A call of the scheduler. -/
inductive Call where
  | createKthread (kstack : Nat)
  | createProcess (l : Loading) (kstack : Nat)
  | fork (copy kstack : Nat)
  | clone (userRsp copy kstack : Nat)
  | exec (l : Loading)
  | doSwitch
  | sleep (ms : Nat)
  | blockOn (channel : Nat)
  | wakeup (channel : Nat)
  | exit (code : Int)
  | kill (pid : Nat)
  | waitpid (pid : Nat)
  | wakeIrq (irq : Nat)
  | irqRegister (irq : Int)
  | irqWait (irq : Int)
  | tick

open Call

namespace Call

def outcome (s : State) : Call → Outcome
  | createKthread kstack => schedCreateKthread s kstack
  | createProcess l kstack => schedCreateProcess s l kstack
  | fork copy kstack => schedFork s copy kstack
  | clone userRsp copy kstack => schedClone s userRsp copy kstack
  | exec l => sysExec s l
  | doSwitch => ⟨none, schedDoSwitch s, none⟩
  | sleep ms => ⟨none, schedSleep s ms, none⟩
  | blockOn channel => ⟨none, schedBlockOn s channel, none⟩
  | wakeup channel => ⟨none, schedWakeup s channel, none⟩
  | exit code => ⟨none, schedExit s code, none⟩
  | kill pid => schedKill s pid
  | waitpid pid => schedWaitpid s pid
  | wakeIrq irq => ⟨none, schedWakeIrq s irq, none⟩
  | irqRegister irq => ⟨some (sysIrqRegister s irq).1, (sysIrqRegister s irq).2, none⟩
  | irqWait irq => ⟨(sysIrqWait s irq).1, (sysIrqWait s irq).2, none⟩
  | tick => ⟨none, pitHandler s, none⟩

def run (s : State) (c : Call) : State := (c.outcome s).state

/-- The calls that make a process. -/
def creates : Call → Bool
  | createKthread _ | createProcess _ _ | fork _ _ | clone _ _ _ => true
  | _ => false

/-- The tree that the new process gets. -/
def newSpace (s : State) : Call → Nat
  | createKthread _ => (s.processes s.current).cr3
  | createProcess l _ => l.space
  | fork copy _ => childSpace s copy
  | clone userRsp copy _ => if userRsp % 16 ≠ 0 then 0 else childSpace s copy
  | _ => 0

/-- The tree that is made for the call by `create_address_space` or
`copy_address_space`. -/
def obtains (s : State) : Call → Option Nat
  | createProcess l _ => if findUnused s = none ∨ l.space = 0 then none else some l.space
  | fork copy _ =>
    if findUnused s = none ∨ (s.processes s.current).cr3 = kernelSpace ∨ copy = 0 then none
    else some copy
  | clone userRsp copy _ =>
    if userRsp % 16 ≠ 0 ∨ findUnused s = none ∨ (s.processes s.current).cr3 = kernelSpace ∨
      copy = 0 then none
    else some copy
  | exec l => if l.space = 0 then none else some l.space
  | _ => none

end Call

/-! ## Creation -/

/-- `next_pid` after `alloc_pid`. -/
def pidAfter (n : Nat) : Nat := if n + 1 ≥ 10000 then 1 else n + 1

/-- The state on the way of a creation: one slot is being filled. -/
structure Filling (s : State) (p : Slot) (s' : State) : Prop where
  only : OnlySlot p s s'
  pid : (s'.processes p).pid = s.nextPid
  irqMask : (s'.processes p).irqMask = 0
  nextPid : s'.nextPid = pidAfter s.nextPid
  processCount : s'.processCount = s.processCount
  cr3 : s'.cr3 = s.cr3

theorem Filling.modify {s' : State} (h : Filling s p s') {f : Process → Process}
    (hpid : (f (s'.processes p)).pid = (s'.processes p).pid)
    (hmask : (f (s'.processes p)).irqMask = (s'.processes p).irqMask) :
    Filling s p (s'.modify p f) := by
  have hself : (s'.modify p f).processes p = f (s'.processes p) := update_self _ _ _
  refine ⟨h.only.modify f, ?_, ?_, h.nextPid, h.processCount, h.cr3⟩
  · rw [hself, hpid, h.pid]
  · rw [hself, hmask, h.irqMask]

section

variable (s : State) (p : Slot)

theorem modify_self (f : Process → Process) :
    (s.modify p f).processes p = f (s.processes p) := update_self _ _ _

theorem setState_self {x : ProcState} : ((s.setState p x).processes p).state = x := by
  rw [setState, modify_self]

theorem claimSlot_filling : Filling s p (claimSlot s p) := by
  have ho : OnlySlot p s (claimSlot s p) :=
    ⟨fun i hi => by simp [claimSlot, State.modify, allocPid, hi], rfl, rfl, rfl, rfl, rfl⟩
  refine ⟨ho, ?_, ?_, rfl, rfl, rfl⟩ <;> simp [claimSlot, State.modify, allocPid, zeroProcess]

theorem claimSlot_state : ((claimSlot s p).processes p).state = .ready := by
  simp [claimSlot, State.modify]

end

theorem findUnused_some (h : findUnused s = some p) : (s.processes p).state = .unused := by
  simpa using List.find?_some h

/-- What the functions that make a process do.  `got` is the tree that is made for
the call, and `space` the one that the new process gets. -/
inductive Creation (s : State) (got : Option Nat) (space : Nat) : Outcome → Prop
  | none : Creation s got space (.fail s)
  | undone (p : Slot) (s' : State) (freed : Option Nat) (hp : findUnused s = some p)
      (hf : Filling s p s') (hstate : (s'.processes p).state = .unused)
      (hfreed : freed = .none ∨ freed = some space ∧ got = some space) :
      Creation s got space ⟨some (-1), s', freed⟩
  | made (p : Slot) (s' : State) (hp : findUnused s = some p) (hf : Filling s p s')
      (hstate : (s'.processes p).state = .ready) (hspace : (s'.processes p).cr3 = space)
      (hgot : got = some space ∨ got = .none ∧ space = (s.processes s.current).cr3) :
      Creation s got space ⟨some s.nextPid, enroll s' p, .none⟩

section Creation

theorem findUnused_ne_current (hp : findUnused s = some p)
    (hcur : (s.processes s.current).state ≠ .unused) : s.current ≠ p := by
  rintro rfl
  exact hcur (findUnused_some hp)

section

variable (hcur : (s.processes s.current).state ≠ .unused)
include hcur

theorem schedCreateKthread_creation (kstack : Nat) :
    Creation s none (s.processes s.current).cr3 (schedCreateKthread s kstack) := by
  unfold schedCreateKthread
  cases hp : findUnused s with
  | none => exact .none
  | some p =>
    dsimp only
    have hf := claimSlot_filling s p
    have hstate := claimSlot_state s p
    have hne := findUnused_ne_current hp hcur
    generalize claimSlot s p = t at *
    have hcr3 : (t.processes t.current).cr3 = (s.processes s.current).cr3 := by
      rw [hf.only.current, hf.only.other _ hne]
    rw [hcr3]
    split
    · exact .undone p _ _ hp ((hf.modify rfl rfl).modify rfl rfl) (setState_self _ _) (.inl rfl)
    · rw [modify_self, modify_self, hf.pid]
      refine .made p _ hp ((hf.modify rfl rfl).modify rfl rfl) ?_ ?_ (.inr ⟨rfl, rfl⟩)
      · rw [modify_self, modify_self]
        exact hstate
      · rw [modify_self, modify_self]

theorem forkFrom_creation (copy kstack : Nat) :
    Creation s ((fork copy kstack).obtains s) (childSpace s copy)
      (forkFrom s copy kstack) := by
  unfold forkFrom
  cases hp : findUnused s with
  | none => exact .none
  | some p =>
    dsimp only
    have hf := claimSlot_filling s p
    have hstate := claimSlot_state s p
    have hne := findUnused_ne_current hp hcur
    generalize claimSlot s p = t at *
    have hspace : childSpace t copy = childSpace s copy := by
      rw [childSpace, childSpace, hf.only.current, hf.only.other _ hne]
    rw [hspace]
    split
    · exact .undone p _ _ hp (hf.modify rfl rfl) (setState_self _ _) (.inl rfl)
    rename_i hzero
    -- the tree is the kernel's, or a copy that was made
    have hgot : (s.processes s.current).cr3 = kernelSpace ∧ childSpace s copy = kernelSpace ∨
        (fork copy kstack).obtains s = some (childSpace s copy) := by
      unfold childSpace at hzero ⊢
      by_cases hk : (s.processes s.current).cr3 = kernelSpace
      · exact .inl ⟨hk, if_pos hk⟩
      · rw [if_neg hk] at hzero ⊢
        right
        simp [obtains, hp, hk, hzero]
    split
    · refine .undone p _ _ hp ((hf.modify rfl rfl).modify rfl rfl) (setState_self _ _) ?_
      split
      · exact .inl rfl
      · rename_i hk
        exact .inr ⟨rfl, hgot.resolve_left fun h => hk h.2⟩
    · rw [modify_self, hf.pid]
      refine .made p _ hp (hf.modify rfl rfl) ?_ ?_ ?_
      · rw [modify_self]
        exact hstate
      · rw [modify_self]
      · rcases hgot with ⟨hk, hs⟩ | hgot
        · exact .inr ⟨by simp [obtains, hk], hs.trans hk.symm⟩
        · exact .inl hgot

theorem schedClone_creation (userRsp copy kstack : Nat) :
    Creation s ((clone userRsp copy kstack).obtains s)
      ((clone userRsp copy kstack).newSpace s) (schedClone s userRsp copy kstack) := by
  unfold schedClone
  split
  · exact .none
  rename_i halign
  rw [newSpace, if_neg halign]
  have hfork := forkFrom_creation hcur copy kstack
  have hsame : (clone userRsp copy kstack).obtains s =
      (fork copy kstack).obtains s := by
    simp only [obtains, halign, false_or]
  rwa [hsame]

end

theorem schedCreateProcess_creation (s : State) (l : Loading) (kstack : Nat) :
    Creation s ((createProcess l kstack).obtains s) l.space
      (schedCreateProcess s l kstack) := by
  unfold schedCreateProcess
  cases hp : findUnused s with
  | none => exact .none
  | some p =>
    dsimp only
    have hf := claimSlot_filling s p
    have hstate := claimSlot_state s p
    generalize claimSlot s p = t at *
    split
    · exact .undone p _ _ hp (hf.modify rfl rfl) (setState_self _ _) (.inl rfl)
    rename_i hzero
    have hgot : (createProcess l kstack).obtains s = some l.space := by
      simp [obtains, hp, hzero]
    split
    · exact .undone p _ _ hp ((hf.modify rfl rfl).modify rfl rfl) (setState_self _ _)
        (.inr ⟨rfl, hgot⟩)
    split
    · exact .undone p _ _ hp (((hf.modify rfl rfl).modify rfl rfl).modify rfl rfl)
        (setState_self _ _) (.inr ⟨rfl, hgot⟩)
    · rw [modify_self, modify_self, modify_self, hf.pid]
      refine .made p _ hp (((hf.modify rfl rfl).modify rfl rfl).modify rfl rfl) ?_ ?_ (.inl hgot)
      · rw [modify_self, modify_self, modify_self]
        exact hstate
      · rw [modify_self, modify_self, modify_self]

/-- A creation keeps the queues in order. -/
theorem Creation.inv {rq sq : List Slot} {got : Option Nat} {space : Nat} {o : Outcome}
    (hc : Creation s got space o) (h : Inv full s rq sq) (hset : Settled s) :
    ∃ rq', Inv full o.state rq' sq ∧ Settled o.state := by
  have hcur : (s.processes s.current).state ≠ .unused := by
    rcases hset with hst | hst <;> rw [hst] <;> decide
  have hout : ∀ {p : Slot}, findUnused s = some p → p ∉ rq ++ sq := fun {p} hp => by
    have hst := findUnused_some hp
    exact h.not_mem (by rw [hst]; decide) (by rw [hst]; decide)
      (.inl (findUnused_ne_current hp hcur).symm)
  cases hc with
  | none => exact ⟨rq, h, hset⟩
  | undone p s' freed hp hf hstate hfreed =>
    refine ⟨rq, h.onlySlot hf.only (hout hp) (by rw [hstate]; decide) (by rw [hstate]; decide), ?_⟩
    simp only [Settled, hf.only.current, hf.only.other _ (findUnused_ne_current hp hcur)]
    exact hset
  | made p s' hp hf hstate hspace hgot =>
    have henter := h.enter hf.only (hout hp) hstate
    refine ⟨rq ++ [p], henter.congr rfl (fun _ => rfl) (fun _ => rfl) (fun _ => rfl) rfl rfl rfl
      rfl rfl, ?_⟩
    have hview : (enqueueReady s' p).view s.current = s.view s.current := by
      rw [enqueueReady_view, view, view,
        hf.only.other _ (findUnused_ne_current hp hcur)]
    have hcurrent : (enqueueReady s' p).current = s.current :=
      (enqueueReady_sameRest s' p).current.trans hf.only.current
    simp only [Settled, ← view_state] at hset ⊢
    rw [← hview, ← hcurrent] at hset
    exact hset

end Creation

/-! ## All calls -/

/-- The calls that keep the queues in order: idle does not sleep, no process on a
queue is killed, the current process is not reaped, and no interrupt wakes it. -/
def Call.Tame (s : State) : Call → Prop
  | .sleep _ => s.current ≠ idle
  | .kill pid => ∀ p, killTarget s pid = some p →
      (s.processes p).state ≠ .ready ∧ (s.processes p).state ≠ .sleeping
  | .waitpid pid => waitTarget s pid ≠ some s.current
  | .wakeIrq irq => wokenByIrq irq (s.processes s.current) = false
  | _ => True

/-- An interrupt finds no process to wake. -/
def Call.WakesNone (s : State) : Call → Prop
  | .wakeIrq irq => ∀ i, wokenByIrq irq (s.processes i) = false
  | _ => True

namespace Inv

variable {full : Prop} {s' : State} {rq sq : List Slot}

theorem settled_out (hset : Settled s) : (s.processes s.current).state ≠ .ready ∧
    (s.processes s.current).state ≠ .sleeping ∧ (s.processes s.current).state ≠ .unused := by
  rcases hset with hst | hst <;> rw [hst] <;> decide

section

variable (h : Inv full s rq sq) (hset : Settled s) (f : Process → Process)
include h hset

theorem leave
    (hnext : (f (s.processes s.current)).next = (s.processes s.current).next)
    (hpid : (f (s.processes s.current)).pid = (s.processes s.current).pid)
    (hr : (f (s.processes s.current)).state ≠ .ready)
    (hs : (f (s.processes s.current)).state ≠ .sleeping) : Inv full (s.modify s.current f) rq sq :=
  h.setOut f (settled_out hset).1 (settled_out hset).2.1 hnext hpid hr hs

/-- Fields of the current process that have nothing to do with the queues. -/
theorem modify_current
    (hf : ∀ x, (f x).next = x.next ∧ (f x).state = x.state ∧ (f x).sleepUntil = x.sleepUntil ∧
      (f x).pid = x.pid) :
    Inv full (s.modify s.current f) rq sq ∧ Settled (s.modify s.current f) := by
  have hfields : ∀ i, ((s.modify s.current f).processes i).state = (s.processes i).state ∧
      ((s.modify s.current f).processes i).sleepUntil = (s.processes i).sleepUntil ∧
      ((s.modify s.current f).processes i).pid = (s.processes i).pid := fun i => by
    by_cases hi : i = s.current
    · rw [hi, modify_self]
      exact (hf _).2
    · simp [State.modify, hi]
  refine ⟨h.congr (link_modify_of_next s s.current f (hf _).1) (fun i => (hfields i).1)
    (fun i => (hfields i).2.1) (fun i => (hfields i).2.2) rfl rfl rfl rfl rfl, ?_⟩
  have hcur := (hfields s.current).1
  unfold Settled at hset ⊢
  rwa [show (s.modify s.current f).current = s.current from rfl, hcur]

end

/-- The counters and flags may change. -/
theorem flags (h : Inv full s rq sq) (s' : State) (hp : s'.processes = s.processes)
    (hcurrent : s'.current = s.current) (hrq : s'.readyQueue = s.readyQueue)
    (hsq : s'.sleepQueue = s.sleepQueue) (htail : s'.readyQueueTail = s.readyQueueTail)
    (hlog : s'.log = s.log) : Inv full s' rq sq := by
  refine h.congr ?_ (fun i => ?_) (fun i => ?_) (fun i => ?_) hcurrent hrq hsq htail hlog
  · funext i
    rw [link, link, hp]
  · rw [hp]
  · rw [hp]
  · rw [hp]

end Inv

/-- The timer interrupt counts, and may ask for a switch. -/
theorem pitHandler_eq (s : State) : ∃ t b, pitHandler s =
    { s.modify s.current fun x => { x with ticksLeft := t } with
      pitTicks := (s.pitTicks + 1) % 2 ^ 32, needResched := b } := by
  unfold pitHandler schedTick
  dsimp only
  split
  · split
    · exact ⟨timeSlice, true, by simp [State.modify]⟩
    · exact ⟨timeSlice, true, by simp [State.modify]⟩
  · split
    · exact ⟨(s.processes s.current).ticksLeft - 1, true, by simp [State.modify]⟩
    · exact ⟨(s.processes s.current).ticksLeft - 1, s.needResched, by simp [State.modify]⟩

theorem killTarget_some (h : killTarget s pid = some p) :
    (s.processes p).pid = pid ∧ (s.processes p).state ≠ .unused := by
  simpa using List.find?_some h

theorem waitTarget_some (h : waitTarget s pid = some p) :
    (s.processes p).pid = pid ∧ (s.processes p).state = .zombie := by
  simpa using List.find?_some h

/-- **One call** keeps the queues in order. -/
theorem Inv.run {rq sq : List Slot} (h : Inv full s rq sq)
    (hset : Settled s) {c : Call} (hc : c.Tame s) (hfull : full → c.WakesNone s) :
    ∃ rq' sq', Inv full (c.run s) rq' sq' ∧ Settled (c.run s) := by
  have hout := Inv.settled_out hset
  have hcreate : ∀ {got : Option Nat} {space : Nat} {o : Outcome}, Creation s got space o →
      ∃ rq' sq', Inv full o.state rq' sq' ∧ Settled o.state := fun hcr => by
    obtain ⟨rq', h'⟩ := hcr.inv h hset
    exact ⟨rq', sq, h'⟩
  -- after a switch the chosen process runs
  have hswitch : ∀ {m : State} {rq sq : List Slot}, Inv full m rq sq →
      ∃ rq' sq', Inv full (Sched.schedDoSwitch m) rq' sq' ∧
        Settled (Sched.schedDoSwitch m) := fun hm =>
    ⟨_, _, hm.schedDoSwitch.1, .inl hm.schedDoSwitch.2⟩
  have hyield : Inv full { s with needResched := true } rq sq :=
    h.flags _ rfl rfl rfl rfl rfl rfl
  cases c with
  | createKthread kstack => exact hcreate (schedCreateKthread_creation hout.2.2 kstack)
  | createProcess l kstack => exact hcreate (schedCreateProcess_creation s l kstack)
  | fork copy kstack => exact hcreate (forkFrom_creation hout.2.2 copy kstack)
  | clone userRsp copy kstack => exact hcreate (schedClone_creation hout.2.2 userRsp copy kstack)
  | exec l =>
    simp only [Call.run, Call.outcome, sysExec]
    split
    · exact ⟨rq, sq, h, hset⟩
    split
    · exact ⟨rq, sq, h, hset⟩
    · obtain ⟨h1, hset1⟩ := h.modify_current hset (fun x => { x with
        cr3 := l.space, heapStart := l.heapStart, heapEnd := l.heapStart })
        fun _ => ⟨rfl, rfl, rfl, rfl⟩
      exact ⟨rq, sq, h1.flags (enterProgram s l) rfl rfl rfl rfl rfl rfl, hset1⟩
  | doSwitch => exact hswitch h
  | sleep ms =>
    obtain ⟨sq', h'⟩ := h.goToSleep hset hc ms
    exact hswitch h'
  | blockOn channel =>
    have hm : Inv full (goToBlock s channel) rq sq :=
      h.leave hset (fun x => { x with state := .blocked, waitingFor := channel }) rfl rfl
        (by simp) (by simp)
    exact hswitch hm
  | wakeup channel =>
    obtain ⟨rq', h'⟩ := h.schedWakeup hset channel
    simp only [Call.run, Call.outcome]
    exact ⟨rq', sq, h'⟩
  | exit code =>
    have h1 := h.leave hset (fun x => { x with state := .zombie, exitCode := code }) rfl rfl
      (by simp) (by simp)
    have hm : Inv full (goToExit s code) rq sq :=
      h1.flags _ rfl rfl rfl rfl rfl rfl
    exact hswitch hm
  | kill pid =>
    simp only [Call.run, Call.outcome, schedKill]
    split
    · exact ⟨rq, sq, h, hset⟩
    rename_i p hp
    obtain ⟨hr, hs⟩ := hc p hp
    refine ⟨rq, sq, h.setOut (fun x => { x with state := .zombie, exitCode := -1 }) hr hs rfl rfl
      (by simp) (by simp), ?_⟩
    by_cases hcur : s.current = p
    · right
      subst hcur
      rw [show (s.modify s.current _).current = s.current from rfl, modify_self]
    · unfold Settled at hset ⊢
      simp only [State.modify]
      rwa [update_of_ne hcur]
  | waitpid pid =>
    simp only [Call.run, Call.outcome, schedWaitpid]
    split
    · rename_i p hp
      have hne : s.current ≠ p := fun heq => hc (heq ▸ hp)
      have hst := (waitTarget_some hp).2
      refine ⟨rq, sq, h.setOut (fun x => { x with kstack := 0, cr3 := 0, state := .unused })
        (by rw [hst]; decide) (by rw [hst]; decide) rfl rfl (by simp) (by simp), ?_⟩
      unfold Settled at hset ⊢
      simp only [reap, State.modify]
      rwa [update_of_ne hne]
    · exact hswitch hyield
  | wakeIrq irq => exact ⟨rq, sq, h.schedWakeIrq hset irq hc hfull⟩
  | irqRegister irq =>
    simp only [Call.run, Call.outcome, sysIrqRegister]
    split
    · exact ⟨rq, sq, h, hset⟩
    · refine ⟨rq, sq, ?_⟩
      exact h.modify_current hset (fun x => { x with irqMask := x.irqMask ||| irqBit irq.toNat })
        fun _ => ⟨rfl, rfl, rfl, rfl⟩
  | irqWait irq =>
    simp only [Call.run, Call.outcome, sysIrqWait]
    split
    · exact ⟨rq, sq, h, hset⟩
    · split
      · exact hswitch hyield
      · refine ⟨rq, sq, ?_⟩
        exact h.modify_current hset (fun x => { x with
          irqPending := x.irqPending &&& ~~~ irqBit irq.toNat }) fun _ => ⟨rfl, rfl, rfl, rfl⟩
  | tick =>
    obtain ⟨t, b, heq⟩ := pitHandler_eq s
    obtain ⟨h1, hset1⟩ := h.modify_current hset (fun x => { x with ticksLeft := t })
      fun _ => ⟨rfl, rfl, rfl, rfl⟩
    refine ⟨rq, sq, ?_⟩
    rw [show Call.run s .tick = pitHandler s from rfl, heq]
    exact ⟨h1.flags _ rfl rfl rfl rfl rfl rfl, hset1⟩

/-- `sched_init` leaves the idle process running and at the head of the queue. -/
theorem inv_schedInit (full : Prop) (kstack : Nat) :
    Inv full (schedInit kstack) [idle] [] ∧ Settled (schedInit kstack) := by
  have hother : ∀ i, i ≠ idle → (schedInit kstack).processes i = zeroProcess := fun i hi => by
    simp [schedInit, hi]
  have hidle : ((schedInit kstack).processes idle).state = .running := by
    simp [schedInit]
  refine ⟨⟨⟨⟨rfl, ?_⟩, rfl, by simp, rfl⟩, List.Pairwise.nil, fun i hi => ?_, nofun, rfl,
    fun hf i hi hi' => ?_, fun hf i hi => ?_⟩, .inl hidle⟩
  · exact (by simp [link, schedInit, zeroProcess] : (schedInit kstack).link idle = none)
  · obtain rfl := List.mem_singleton.mp hi
    exact .inr ⟨rfl, rfl, by simp [schedInit, zeroProcess], rfl⟩
  · rw [hother i hi] at hi'
    cases hi'
  · by_cases hi' : i = idle
    · rw [hi'] at hi
      cases hi
    · rw [hother i hi'] at hi
      cases hi

/-- The state after a run of calls since `sched_init`. -/
def after (kstack : Nat) (cs : List Call) : State := Runs.run Call.run (schedInit kstack) cs

/-- All calls of a run since `sched_init` meet a condition. -/
def Throughout (ok : State → Call → Prop) (kstack : Nat) (cs : List Call) : Prop :=
  Runs.Guarded Call.run ok (schedInit kstack) cs

/-- The invariant holds after every tame run. -/
theorem inv_after {kstack : Nat} {cs : List Call}
    (htame : Throughout (fun s c => c.Tame s) kstack cs)
    (hnone : full → Throughout (fun s c => c.WakesNone s) kstack cs) :
    ∃ rq sq, Inv full (after kstack cs) rq sq ∧ Settled (after kstack cs) := by
  have hboth : Runs.Guarded run (fun s c => c.Tame s ∧ (full → c.WakesNone s))
      (schedInit kstack) cs := by
    refine htame.and ?_
    by_cases hf : full
    · exact (hnone hf).imp (I := fun _ => True) (fun _ _ _ _ => trivial) (fun _ _ _ hw _ => hw)
        trivial
    · refine htame.imp (I := fun _ => True) (fun _ _ _ _ => trivial) ?_ trivial
      exact fun _ _ _ _ hf' => absurd hf' hf
  refine hboth.invariant (I := fun s => ∃ rq sq, Inv full s rq sq ∧ Settled s) ?_
    ⟨_, _, inv_schedInit full kstack⟩
  rintro s c ⟨rq, sq, h, hset⟩ ⟨hc, hw⟩
  exact h.run hset hc hw

/-! ## The queues -/

/-- Every process is on the queue it belongs to, once. -/
structure QueuesRight (s : State) (rq sq : List Slot) : Prop where
  -- following the links from the heads ends
  ready : Path s.link s.readyQueue rq none
  sleep : Path s.link s.sleepQueue sq none
  ready_nodup : rq.Nodup
  sleep_nodup : sq.Nodup
  tail : s.readyQueueTail = rq.getLast?
  sorted : sq.Pairwise fun i j => (s.processes i).sleepUntil ≤ (s.processes j).sleepUntil
  ready_mem : ∀ i, i ≠ idle → (s.processes i).state = .ready → i ≠ s.current → i ∈ rq
  sleeping_mem : ∀ i, (s.processes i).state = .sleeping → i ∈ sq
  ready_only : ∀ i ∈ rq, i ≠ idle → (s.processes i).state = .ready
  sleeping_only : ∀ i ∈ sq, i ≠ idle → (s.processes i).state = .sleeping

theorem Inv.queuesRight {rq sq : List Slot} (h : Inv True s rq sq) :
    QueuesRight s rq sq where
  ready := h.linked.ready
  sleep := h.linked.sleep
  ready_nodup := (List.nodup_append.mp h.linked.nodup).1
  sleep_nodup := (List.nodup_append.mp h.linked.nodup).2.1
  tail := h.linked.tail
  sorted := h.sorted
  ready_mem i hi hi' _ := h.ready_mem trivial i hi hi'
  sleeping_mem i hi := h.sleeping_mem trivial i hi
  ready_only i hi hne := (h.inReady i hi).resolve_right fun hb => hne hb.idle
  sleeping_only i hi hne := by
    refine (h.inSleep i hi).2.resolve_right fun hready => ?_
    exact (List.nodup_append.mp h.linked.nodup).2.2 i (h.ready_mem trivial i hne hready) i hi rfl

/-- The calls under which the queues stay right: idle does not sleep, no ready or
sleeping process is killed, the current process is not reaped, and no interrupt
arrives for a process that is neither ready nor running. -/
def Call.Orderly (s : State) (c : Call) : Prop := c.Tame s ∧ c.WakesNone s

/-- **The queues of the scheduler**, after every orderly run since
`sched_init`. -/
theorem queues_right (kstack : Nat) (cs : List Call)
    (hcs : Throughout (fun s c => c.Orderly s) kstack cs) :
    ∃ rq sq, QueuesRight (after kstack cs) rq sq := by
  have htame : Throughout (fun s c => c.Tame s) kstack cs :=
    hcs.imp (I := fun _ => True) (fun _ _ _ _ => trivial) (fun _ _ _ h => h.1) trivial
  have hnone : Throughout (fun s c => c.WakesNone s) kstack cs :=
    hcs.imp (I := fun _ => True) (fun _ _ _ _ => trivial) (fun _ _ _ h => h.2) trivial
  obtain ⟨rq, sq, h, -⟩ := @inv_after True kstack cs htame fun _ => hnone
  exact ⟨rq, sq, h.queuesRight⟩

/-- A kernel thread is created, the idle process yields twice, and the thread goes
to sleep. -/
theorem queues_right_oneSleeper :
    ∃ rq sq, QueuesRight (after 4096 [.createKthread 8192, .doSwitch, .doSwitch, .sleep 5]) rq sq :=
  queues_right 4096 _ ⟨⟨trivial, trivial⟩, ⟨trivial, trivial⟩, ⟨trivial, trivial⟩,
    ⟨(by decide +kernel : (after 4096 [.createKthread 8192, .doSwitch, .doSwitch]).current ≠ idle),
      trivial⟩, trivial⟩

/-- A thread that is killed while it waits to run stays on the ready queue. -/
theorem killed_not_queuesRight :
    ¬ ∃ rq sq, QueuesRight (after 4096 [.createKthread 8192, .kill 1]) rq sq := by
  rintro ⟨rq, sq, h⟩
  generalize hs : after 4096 [.createKthread 8192, .kill 1] = s at h
  have hfirst : s.readyQueue = some 0 := by
    rw [← hs]
    decide +kernel
  have hsecond : s.link 0 = some 1 := by
    rw [← hs]
    decide +kernel
  have hzombie : (s.processes 1).state = .zombie := by
    rw [← hs]
    decide +kernel
  have hpath := h.ready
  rw [hfirst] at hpath
  have hmem : (1 : Slot) ∈ rq := by
    rcases rq with _ | ⟨a, rq⟩
    · cases hpath
    obtain ⟨ha, hpath⟩ := hpath
    obtain rfl := Option.some.inj ha
    rw [hsecond] at hpath
    rcases rq with _ | ⟨b, rq⟩
    · cases hpath
    · obtain rfl := Option.some.inj hpath.1
      simp
  have hready := h.ready_only 1 hmem (by decide)
  rw [hzombie] at hready
  cases hready

end Utms7.Sched
