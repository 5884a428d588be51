import Utms7.SchedLife

/-!
# Who is woken and who runs next

Interrupts and the order of dispatch.  The log of the ready queue says who became
ready and who was given the processor; `Inv.log` ties it to the queue, and from
there nobody overtakes.
-/

namespace Utms7.Sched

open Function List Option Call State FifoLog

/-! ## Interrupts -/

/-- A live process has registered for the interrupt. -/
def Registered (s : State) (irq : Nat) (i : Slot) : Prop :=
  (s.processes i).state.dead = false ∧ (s.processes i).irqMask &&& irqBit irq ≠ 0

/-- The interrupt is pending for the process. -/
def Pending (s : State) (irq : Nat) (i : Slot) : Prop :=
  (s.processes i).irqPending &&& irqBit irq ≠ 0

instance (s : State) (irq : Nat) (i : Slot) : Decidable (Registered s irq i) :=
  inferInstanceAs (Decidable (_ ∧ _))

instance (s : State) (irq : Nat) (i : Slot) : Decidable (Pending s irq i) :=
  inferInstanceAs (Decidable (_ ≠ _))

instance (s : State) (i : Slot) : Decidable (Runnable s i) :=
  inferInstanceAs (Decidable (_ ∨ _))

theorem irqBit_ne_zero {irq : Nat} (h : irq < 16) : irqBit irq ≠ 0 := by
  have hall : ∀ n : Fin 16, irqBit n ≠ 0 := by decide
  exact hall ⟨irq, h⟩

/-- `sched_wake_irq` marks the interrupt for the processes it wakes, and for no
others. -/
theorem schedWakeIrq_pending {s : State} {irq : Nat} (h : irq < 16) {i : Slot} :
    Pending (schedWakeIrq s irq) irq i ↔
      wokenByIrq irq (s.processes i) = true ∨ Pending s irq i := by
  unfold Pending
  by_cases hw : wokenByIrq irq (s.processes i) = true
  · have hset : ((s.processes i).irqPending ||| irqBit irq) &&& irqBit irq = irqBit irq := by
      ext k hk
      simp
      tauto
    simp only [schedWakeIrq, hw, if_true, true_or, iff_true, hset]
    exact irqBit_ne_zero h
  · simp [schedWakeIrq, hw]

/-- **An interrupt is pending** for a registered process after it arrives exactly
if the process was neither ready nor running, or the interrupt was pending
before. -/
theorem irq_pending_iff (handlers : Nat → Option Handler) (s : State) (irq : Nat) (i : Slot)
    (hirq : irq < 16) (hreg : Registered s irq i) :
    Pending (irqHandlerDispatch handlers s irq) irq i ↔ ¬ Runnable s i ∨ Pending s irq i := by
  have hwoken : wokenByIrq irq (s.processes i) = true ↔ ¬ Runnable s i := by
    simpa [wokenByIrq, Runnable] using fun _ _ => hreg.2
  have hrange : 0 ≤ (irq : Int) ∧ (irq : Int) < 16 := by omega
  rw [← hwoken, ← schedWakeIrq_pending hirq]
  simp only [irqHandlerDispatch, hrange, and_self, if_true, Int.toNat_natCast]
  cases handlers irq with
  | none => rfl
  | some h => rw [Pending, Pending, h.pending]

/-- The handler of the timer. -/
def pit : Handler where
  run := pitHandler
  pending s i := by
    obtain ⟨t, b, heq⟩ := pitHandler_eq s
    rw [heq]
    simp only [State.modify, update_apply]
    split
    · next hi => rw [hi]
    · rfl

/-- The handler of a driver that leaves the processes alone. -/
def quiet : Handler := ⟨id, fun _ _ => rfl⟩

/-- Interrupt 0 is the timer's. -/
def twoHandlers : Nat → Option Handler
  | 0 => some pit
  | 5 => some quiet
  | _ => none

/-- A thread waits for two interrupts on a channel when one of them arrives. -/
theorem irq_pending_blocked :
    Pending (irqHandlerDispatch twoHandlers (after 4096 [.createKthread 8192, .doSwitch,
      .doSwitch, .irqRegister 0, .irqRegister 5, .blockOn 7]) 0) 0 1 ∧
    Pending (irqHandlerDispatch twoHandlers (after 4096 [.createKthread 8192, .doSwitch,
      .doSwitch, .irqRegister 0, .irqRegister 5, .blockOn 7]) 5) 5 1 :=
  ⟨(irq_pending_iff _ _ 0 1 (by decide) (by decide +kernel)).mpr (.inl (by decide +kernel)),
    (irq_pending_iff _ _ 5 1 (by decide) (by decide +kernel)).mpr (.inl (by decide +kernel))⟩

/-- A thread registers for an interrupt and is running when it arrives: nothing
is pending for it afterwards. -/
theorem irq_lost :
    Registered (after 4096 [.createKthread 8192, .doSwitch, .doSwitch, .irqRegister 5]) 5 1 ∧
      ¬ Pending (irqHandlerDispatch (fun _ => none) (after 4096 [.createKthread 8192, .doSwitch,
        .doSwitch, .irqRegister 5]) 5) 5 1 := by
  decide +kernel

/-! ## The state in which a call switches -/

/-- The state in which the call enters `sched_do_switch`, if it does. -/
def Call.enters (s : State) : Call → Option State
  | .doSwitch => some s
  | .sleep ms => some (goToSleep s ms)
  | .blockOn channel => some (goToBlock s channel)
  | .exit code => some (goToExit s code)
  | .waitpid pid => if waitTarget s pid = none then some { s with needResched := true } else none
  | .irqWait irq =>
    if ¬ (irq < 0 ∨ irq > 15) ∧ (s.processes s.current).irqPending &&& irqBit irq.toNat = 0 then
      some { s with needResched := true }
    else none
  | _ => none

theorem Call.run_enters {s m : State} {c : Call} (h : c.enters s = some m) :
    c.run s = schedDoSwitch m := by
  cases c with
  | doSwitch | sleep | blockOn | exit =>
    obtain rfl := Option.some.inj h
    rfl
  | waitpid pid =>
    simp only [enters, ite_none_right_eq_some, Option.some.injEq] at h
    obtain ⟨hnone, rfl⟩ := h
    simp only [run, outcome, schedWaitpid, hnone]
  | irqWait irq =>
    simp only [enters, ite_none_right_eq_some, Option.some.injEq] at h
    obtain ⟨⟨hrange, hpend⟩, rfl⟩ := h
    simp only [run, outcome, sysIrqWait, if_neg hrange, if_pos hpend]
  | _ => cases h

/-- The runs in which nobody is killed, no interrupt wakes anybody and the idle
process neither sleeps nor blocks. -/
def Call.Peaceful (s : State) : Call → Prop
  | .kill _ | .wakeIrq _ => False
  | .sleep _ | .blockOn _ => s.current ≠ idle
  | _ => True

/-- What happens to the sleepers and to the ready queue where nobody is
dispatched. -/
structure Quiet (s s' : State) : Prop where
  current : s'.current = s.current
  sleeping : ∀ i, (s.processes i).state = .sleeping → (s'.processes i).state = .sleeping ∧
    (s'.processes i).sleepUntil = (s.processes i).sleepUntil
  blocked : (s'.processes idle).state = .blocked → (s.processes idle).state = .blocked
  pid : (s'.processes idle).pid = 0 → (s.processes idle).pid = 0
  nextPid : 1 ≤ s.nextPid → 1 ≤ s'.nextPid
  -- the idle process does not enter as long as it has pid 0
  log : ∃ es : List Slot, s'.log = s.log ++ es.map .enter ∧
    ((s'.processes idle).pid = 0 → idle ∉ es)

variable {c : Call}

namespace Quiet

variable {s s' s'' : State} {p : Slot}

theorem refl (s : State) : Quiet s s :=
  ⟨rfl, fun _ h => ⟨h, rfl⟩, fun h => h, fun h => h, fun h => h, [], by simp, by simp⟩

theorem trans (h : Quiet s s') (h' : Quiet s' s'') : Quiet s s'' := by
  obtain ⟨es, hes, hidle⟩ := h.log
  obtain ⟨es', hes', hidle'⟩ := h'.log
  refine ⟨h'.current.trans h.current, fun i hi => ?_, fun hb => h.blocked (h'.blocked hb),
    fun hp => h.pid (h'.pid hp), fun hn => h'.nextPid (h.nextPid hn), es ++ es', ?_, fun hp => ?_⟩
  · obtain ⟨hst, ht⟩ := h.sleeping i hi
    obtain ⟨hst', ht'⟩ := h'.sleeping i hst
    exact ⟨hst', ht'.trans ht⟩
  · rw [hes', hes, map_append, append_assoc]
  · rw [mem_append, not_or]
    exact ⟨hidle (h'.pid hp), hidle' hp⟩

/-- No field changes that matters here. -/
theorem of_slots (hcurrent : s'.current = s.current)
    (hslot : ∀ i, (s'.processes i).state = (s.processes i).state ∧
      (s'.processes i).sleepUntil = (s.processes i).sleepUntil ∧
      (s'.processes i).pid = (s.processes i).pid)
    (hnext : s'.nextPid = s.nextPid) (hlog : s'.log = s.log) : Quiet s s' where
  current := hcurrent
  sleeping i hi := ⟨(hslot i).1.trans hi, (hslot i).2.1⟩
  blocked hb := (hslot idle).1.symm.trans hb
  pid hp := (hslot idle).2.2.symm.trans hp
  nextPid hn := hnext ▸ hn
  log := ⟨[], by simpa using hlog, by simp⟩

theorem of_view (hview : s'.view = s.view) (hrest : SameRest s s') (hlog : s'.log = s.log) :
    Quiet s s' := by
  refine of_slots hrest.current (fun i => ⟨?_, ?_, ?_⟩) hrest.nextPid hlog
  · rw [← view_state, hview, view_state]
  · rw [← view_sleepUntil, hview, view_sleepUntil]
  · rw [← view_pid, hview, view_pid]

theorem modify (f : Process → Process) (hs : (s.processes p).state ≠ .sleeping)
    (hb : p = idle → (f (s.processes p)).state = .blocked → (s.processes p).state = .blocked)
    (hpid : (f (s.processes p)).pid = (s.processes p).pid) : Quiet s (s.modify p f) where
  current := rfl
  sleeping i hi := by
    have hip : i ≠ p := by
      rintro rfl
      exact hs hi
    rw [show (s.modify p f).processes i = s.processes i from update_of_ne hip _ _]
    exact ⟨hi, rfl⟩
  blocked := by
    by_cases hip : idle = p
    · subst hip
      exact hb rfl
    · simp only [State.modify, update_of_ne hip]
      exact fun h => h
  pid := by
    by_cases hip : idle = p
    · subst hip
      rw [modify_self, hpid]
      exact fun h => h
    · simp only [State.modify, update_of_ne hip]
      exact fun h => h
  nextPid h := h
  log := ⟨[], by simp [State.modify], by simp⟩

/-- The slots, the queue and the counters are looked at, and nothing else. -/
theorem flags (h : Quiet s s') (s'' : State) (hp : s''.processes = s'.processes)
    (hcurrent : s''.current = s'.current) (hnext : s''.nextPid = s'.nextPid)
    (hlog : s''.log = s'.log) : Quiet s s'' :=
  h.trans (of_slots hcurrent (fun i => by rw [hp]; exact ⟨rfl, rfl, rfl⟩) hnext hlog)

theorem enqueueReady (hr : (s.processes p).state = .ready)
    (hp : p = idle → (s.processes p).pid ≠ 0) : Quiet s (Sched.enqueueReady s p) := by
  have hview := enqueueReady_view s p
  have hrest := enqueueReady_sameRest s p
  have hpid : ((Sched.enqueueReady s p).processes idle).pid = (s.processes idle).pid := by
    rw [← view_pid, hview, view_pid]
  refine ⟨hrest.current, fun i hi => ⟨?_, ?_⟩, fun hb => ?_, fun h0 => hpid ▸ h0,
    fun hn => hrest.nextPid ▸ hn, [p], enqueueReady_log hr, fun h0 hmem => ?_⟩
  · rw [← view_state, hview]
    exact hi
  · rw [← view_sleepUntil, hview, view_sleepUntil]
  · rwa [← view_state, hview] at hb
  · have heq := (mem_singleton.mp hmem).symm
    rw [hpid, ← heq] at h0
    exact hp heq h0

section

variable (hidle : (s.processes idle).state ≠ .blocked) (channel : Nat)
include hidle

theorem wakeBlocked (p : Slot) : Quiet s (Sched.wakeBlocked channel s p) := by
  unfold Sched.wakeBlocked
  split
  · rename_i hb
    have hpi : p ≠ idle := by
      rintro rfl
      exact hidle hb.1
    have hmod : Quiet s (s.modify p fun x => { x with state := .ready, waitingFor := 0 }) :=
      modify _ (by rw [hb.1]; decide) (fun h => absurd h hpi) rfl
    have henter := hmod.trans (enqueueReady (p := p) (by rw [modify_self]) fun h => absurd h hpi)
    exact henter.flags _ rfl rfl rfl rfl
  · exact refl s

theorem schedWakeup : Quiet s (Sched.schedWakeup s channel) := by
  unfold Sched.schedWakeup
  generalize List.finRange 64 = slots
  induction slots generalizing s with
  | nil => exact refl s
  | cons p slots ih =>
    have hstep := wakeBlocked hidle channel p
    exact hstep.trans (ih fun hb => hidle (hstep.blocked hb))

end

/-- A slot is being filled: the new pid is not 0. -/
theorem filling (hf : Filling s p s') (hp : findUnused s = some p)
    (hstate : (s'.processes p).state ≠ .blocked) (hn : 1 ≤ s.nextPid) : Quiet s s' where
  current := hf.only.current
  sleeping i hi := by
    have hip : i ≠ p := by
      rintro rfl
      rw [findUnused_some hp] at hi
      cases hi
    rw [hf.only.other i hip]
    exact ⟨hi, rfl⟩
  blocked hb := by
    have hip : idle ≠ p := by
      rintro rfl
      exact hstate hb
    rwa [hf.only.other _ hip] at hb
  pid h0 := by
    have hip : idle ≠ p := by
      rintro rfl
      rw [hf.pid] at h0
      omega
    rwa [hf.only.other _ hip] at h0
  nextPid _ := by
    rw [hf.nextPid, pidAfter]
    split <;> omega
  log := ⟨[], by simpa using hf.only.log, by simp⟩

theorem creation {got : Option Nat} {space : Nat} {o : Outcome} (hc : Creation s got space o)
    (hn : 1 ≤ s.nextPid) : Quiet s o.state := by
  cases hc with
  | none => exact refl s
  | undone p s' freed hp hf hstate hfreed => exact filling hf hp (by rw [hstate]; decide) hn
  | made p s' hp hf hstate hspace hgot =>
    have hfill := filling hf hp (by rw [hstate]; decide) hn
    have henter : Quiet s' (Sched.enqueueReady s' p) := enqueueReady hstate fun _ => by
      rw [hf.pid]
      omega
    exact (hfill.trans henter).flags _ rfl rfl rfl rfl

/-- **A call that does not switch** leaves the sleepers alone, and the process
that calls goes on living. -/
theorem call (hrun : (s.processes s.current).state = .running)
    (hidle : (s.processes idle).state ≠ .blocked) (hn : 1 ≤ s.nextPid) (hc : c.Peaceful s)
    (hm : c.enters s = none) :
    Quiet s (c.run s) ∧ ((c.run s).processes s.current).state.dead = false := by
  have hlive : (s.processes s.current).state.dead = false := by
    rw [hrun]
    rfl
  have hused : (s.processes s.current).state ≠ .unused := by
    rw [hrun]
    decide
  have hcreate : ∀ {got : Option Nat} {space : Nat} {o : Outcome}, Creation s got space o →
      Quiet s o.state ∧ (o.state.processes s.current).state.dead = false := fun hcr => by
    refine ⟨creation hcr hn, ?_⟩
    rw [← view_state, hcr.view_other fun hp => hused (findUnused_some hp)]
    exact hlive
  -- fields of the calling process that have nothing to do with its state
  have hown : ∀ f : Process → Process, (∀ x, (f x).state = x.state ∧ (f x).pid = x.pid) →
      Quiet s (s.modify s.current f) ∧
        ((s.modify s.current f).processes s.current).state.dead = false := fun f hf => by
    refine ⟨modify f (by rw [hrun]; decide) (fun _ hb => by rwa [(hf _).1] at hb) (hf _).2, ?_⟩
    rw [modify_self, (hf _).1]
    exact hlive
  cases c with
  | createKthread kstack => exact hcreate (schedCreateKthread_creation hused kstack)
  | createProcess l kstack => exact hcreate (schedCreateProcess_creation s l kstack)
  | fork copy kstack => exact hcreate (forkFrom_creation hused copy kstack)
  | clone userRsp copy kstack => exact hcreate (schedClone_creation hused userRsp copy kstack)
  | exec l =>
    simp only [run, outcome, sysExec]
    split
    · exact ⟨refl s, hlive⟩
    · split
      · exact ⟨refl s, hlive⟩
      · obtain ⟨hq, hl⟩ := hown (fun x => { x with
          cr3 := l.space, heapStart := l.heapStart, heapEnd := l.heapStart }) fun _ => ⟨rfl, rfl⟩
        exact ⟨hq.flags (enterProgram s l) rfl rfl rfl rfl, hl⟩
  | wakeup channel =>
    have hq := Quiet.schedWakeup hidle channel
    have hl := (schedWakeup_keeps s channel).alive _ hlive
    simp only [run, outcome]
    exact ⟨hq, hl⟩
  | waitpid pid =>
    simp only [enters, ite_eq_right_iff, reduceCtorEq] at hm
    simp only [run, outcome, schedWaitpid]
    split
    · rename_i p hp
      have hz := (waitTarget_some hp).2
      have hne : s.current ≠ p := by
        rintro rfl
        rw [hz] at hrun
        cases hrun
      refine ⟨modify (fun x => { x with kstack := 0, cr3 := 0, state := .unused })
        (by rw [hz]; decide) (fun _ hb => by cases hb) rfl, ?_⟩
      simp only [reap, State.modify, update_of_ne hne]
      exact hlive
    · exact absurd ‹_› hm
  | irqRegister irq =>
    simp only [run, outcome, sysIrqRegister]
    split
    · exact ⟨refl s, hlive⟩
    · exact hown (fun x => { x with irqMask := x.irqMask ||| irqBit irq.toNat })
        fun _ => ⟨rfl, rfl⟩
  | irqWait irq =>
    simp only [enters, ite_eq_right_iff, reduceCtorEq, imp_false, not_and] at hm
    simp only [run, outcome, sysIrqWait]
    split
    · exact ⟨refl s, hlive⟩
    · rename_i hrange
      rw [if_neg (hm hrange)]
      exact hown (fun x => { x with irqPending := x.irqPending &&& ~~~ irqBit irq.toNat })
        fun _ => ⟨rfl, rfl⟩
  | tick =>
    obtain ⟨t, b, heq⟩ := pitHandler_eq s
    obtain ⟨hq, hl⟩ := hown (fun x => { x with ticksLeft := t }) fun _ => ⟨rfl, rfl⟩
    rw [show run s .tick = pitHandler s from rfl, heq]
    exact ⟨hq.flags _ rfl rfl rfl rfl, hl⟩
  | kill | wakeIrq => exact hc.elim
  | doSwitch | sleep | blockOn | exit => cases hm

/-- The state in which a call switches differs from the one before in the process
that calls. -/
theorem entering {m : State} (hrun : (s.processes s.current).state = .running)
    (hc : c.Peaceful s) (hm : c.enters s = some m) : Quiet s m ∧ m.log = s.log := by
  have hs : (s.processes s.current).state ≠ .sleeping := by
    rw [hrun]
    decide
  have hyield : Quiet s { s with needResched := true } := (refl s).flags _ rfl rfl rfl rfl
  cases c with
  | doSwitch =>
    obtain rfl := Option.some.inj hm
    exact ⟨refl s, rfl⟩
  | sleep ms =>
    obtain rfl := Option.some.inj hm
    have hmod : Quiet s (s.modify s.current fun x =>
        { x with state := .sleeping, sleepUntil := wakeTime s ms }) :=
      modify _ hs (fun h => absurd h hc) rfl
    refine ⟨hmod.trans (of_view (linkSleeper_view _ _ _) (linkSleeper_sameRest _ _ _)
      (linkSleeper_log _ _ _)), linkSleeper_log _ _ _⟩
  | blockOn channel =>
    obtain rfl := Option.some.inj hm
    exact ⟨modify _ hs (fun h => absurd h hc) rfl, rfl⟩
  | exit code =>
    obtain rfl := Option.some.inj hm
    have hmod : Quiet s (s.modify s.current fun x =>
        { x with state := .zombie, exitCode := code }) :=
      modify _ hs (fun _ hb => by cases hb) rfl
    exact ⟨hmod.flags _ rfl rfl rfl rfl, rfl⟩
  | waitpid pid | irqWait irq =>
    simp only [enters, ite_none_right_eq_some, Option.some.injEq] at hm
    obtain ⟨-, rfl⟩ := hm
    exact ⟨hyield, rfl⟩
  | _ => cases hm

end Quiet

/-! ## The order of dispatch -/

/-- The log of the ready queue is right: the processes that are ready are those
that wait, and nobody is dispatched before a process that became ready earlier. -/
structure FairLog (s : State) : Prop where
  waiting : ∃ rq, FifoLog.replay [] s.log = some rq ∧
    ∀ i, i ≠ idle → ((s.processes i).state = .ready ↔ i ∈ rq)
  order : ∀ (x y : Slot) (before mid late rest : List (FifoLog.Event Slot)),
    s.log = before ++ .enter x :: (mid ++ .enter y :: late) ++ rest →
    .leave x ∉ mid ++ .enter y :: late → .leave y ∉ late

/-- What `sched_do_switch` does: the processes whose time has come become ready,
and no other sleepers do; then one process is dispatched.  After the first switch
this is the idle process only if nobody else is ready. -/
structure FairSwitch (m : State) : Prop where
  log : ∃ es : List Slot,
    (schedDoSwitch m).log = m.log ++ es.map .enter ++ [.leave (schedDoSwitch m).current] ∧
    ∀ i, (m.processes i).state = .sleeping → (i ∈ es ↔ (m.processes i).sleepUntil ≤ m.pitTicks)
  awake : ∀ i, (m.processes i).state = .sleeping → (m.processes i).sleepUntil ≤ m.pitTicks →
    Runnable (schedDoSwitch m) i
  asleep : ∀ i, (m.processes i).state = .sleeping → m.pitTicks < (m.processes i).sleepUntil →
    ((schedDoSwitch m).processes i).state = .sleeping ∧
      ((schedDoSwitch m).processes i).sleepUntil = (m.processes i).sleepUntil
  idle : (∃ a, .leave a ∈ m.log) → (m.processes idle).pid = 0 → (schedDoSwitch m).current = idle →
    ∀ i, i ≠ idle → ((schedDoSwitch m).processes i).state ≠ .ready

/-- The sleepers sleep on. -/
def SleepOn (s s' : State) : Prop :=
  ∀ i, (s.processes i).state = .sleeping → (s'.processes i).state = .sleeping ∧
    (s'.processes i).sleepUntil = (s.processes i).sleepUntil

/-- A call dispatches and wakes only by `sched_do_switch`, and this is fair. -/
structure FairCall (s : State) (c : Call) : Prop where
  log : FairLog (c.run s)
  switch : ∀ m, c.enters s = some m →
    SleepOn s m ∧ m.log = s.log ∧ c.run s = schedDoSwitch m ∧ FairSwitch m
  other : c.enters s = none →
    SleepOn s (c.run s) ∧ ∃ es : List Slot, (c.run s).log = s.log ++ es.map .enter

/-- The idle process entered the ready queue once, as long as it has pid 0. -/
def OnceEntered (s : State) : Prop :=
  ∃ es, s.log = .enter idle :: es ∧ ((s.processes idle).pid = 0 → .enter idle ∉ es)

/-- The scheduler in a peaceful run. -/
structure Calm (s : State) : Prop where
  inv : ∃ rq sq, Inv True s rq sq
  running : (s.processes s.current).state = .running
  idle : (s.processes idle).state ≠ .blocked
  nextPid : 1 ≤ s.nextPid
  once : OnceEntered s

theorem Quiet.once {s s' : State} (h : Quiet s s') (ho : OnceEntered s) : OnceEntered s' := by
  obtain ⟨es, hlog, hes⟩ := ho
  obtain ⟨fs, hfs, hidle⟩ := h.log
  refine ⟨es ++ fs.map .enter, by rw [hfs, hlog]; rfl, fun h0 hmem => ?_⟩
  rcases mem_append.mp hmem with hmem | hmem
  · exact hes (h.pid h0) hmem
  · exact hidle h0 (by simpa using hmem)

section Dispatch

variable {s m : State} {rq sq : List Slot}

theorem Inv.fairLog (h : Inv True s rq sq) : FairLog s where
  waiting := by
    refine ⟨rq, h.log, fun i hi => ⟨h.ready_mem trivial i hi, fun hmem => ?_⟩⟩
    exact (h.inReady i hmem).resolve_right fun hb => hi hb.idle
  order x y before mid late rest hlog hx := by
    have hreplay := h.log
    rw [hlog, replay_append] at hreplay
    obtain ⟨q, hq, -⟩ := bind_eq_some_iff.mp hreplay
    exact fair hq rfl hx

/-- A process that sleeps is on the sleep queue, and is not the one that is put
back into the ready queue. -/
theorem Inv.sleeper (h : Inv True m rq sq) {i : Slot} (hi : (m.processes i).state = .sleeping) :
    i ∈ sq ∧ i ∉ m.again ∧ i ≠ idle := by
  have hmem := h.sleeping_mem trivial i hi
  refine ⟨hmem, fun ha => ?_, (h.inSleep i hmem).1⟩
  obtain ⟨rfl, hrun, -⟩ := mem_again.mp ha
  rw [hi] at hrun
  cases hrun

theorem Inv.idle_not_queued (h : Inv True m rq sq) (ho : OnceEntered m)
    (hpid : (m.processes idle).pid = 0) (hleft : ∃ a, .leave a ∈ m.log) : idle ∉ m.queue rq sq := by
  obtain ⟨es, hlog, hes⟩ := ho
  obtain ⟨a, ha⟩ := hleft
  have hreplay : replay [idle] es = some rq := by
    have hr := h.log
    rw [hlog] at hr
    simpa [replay] using hr
  have hrq : idle ∉ rq := by
    rw [hlog] at ha
    exact replay_first hreplay not_mem_nil (hes hpid) (by simpa using ha)
  intro hmem
  rcases mem_append.mp hmem with hmem | hmem
  · rcases mem_append.mp hmem with hmem | hmem
    · exact hrq hmem
    · exact (h.inSleep idle (mem_of_mem_filter hmem)).1 rfl
  · obtain ⟨hcur, -, hne⟩ := mem_again.mp hmem
    exact hne (hcur ▸ hpid)

/-- **The switch is fair.** -/
theorem Inv.fairSwitch (h : Inv True m rq sq) (ho : OnceEntered m) : FairSwitch m := by
  have hsw := h.switched
  have hwakes : ∀ i, (m.processes i).state = .sleeping →
      (i ∈ m.wakes sq ++ m.again ↔ (m.processes i).sleepUntil ≤ m.pitTicks) := fun i hi => by
    obtain ⟨hmem, hagain, -⟩ := h.sleeper hi
    rw [mem_append, or_iff_left hagain, wakes, mem_filter, due,
      decide_eq_true_iff, and_iff_right hmem]
  refine ⟨⟨m.wakes sq ++ m.again, ?_, hwakes⟩, fun i hi hdue => ?_, fun i hi hlate => ?_,
    fun hleft hpid hcur i hne hready => ?_⟩
  · rw [hsw.log, hsw.current]
  · obtain ⟨-, hagain, -⟩ := h.sleeper hi
    have hw : i ∈ m.wakes sq := (mem_append.mp ((hwakes i hi).mpr hdue)).resolve_right hagain
    by_cases hchosen : i = m.chosen rq sq
    · right
      have hrun := h.schedDoSwitch.2
      rwa [hsw.current, ← hchosen] at hrun
    · left
      rw [← view_state, hsw.other i hchosen, lined, if_neg hagain, woken, if_pos hw]
  · obtain ⟨hmem, -, -⟩ := h.sleeper hi
    have hstay : i ∈ m.stays sq :=
      mem_filter.mpr ⟨hmem, by simp [due, Nat.not_le.mpr hlate]⟩
    obtain ⟨hne, hl⟩ := h.stays_lined hstay
    constructor
    · rw [← view_state, hsw.other i hne, hl, view_state, hi]
    · rw [← view_sleepUntil, hsw.other i hne, hl, view_sleepUntil]
  · -- idle is chosen because the queue is empty, so nobody is left waiting
    have hempty : m.queue rq sq = [] := by
      rw [hsw.current, chosen] at hcur
      cases hq : m.queue rq sq with
      | nil => rfl
      | cons a as =>
        rw [hq] at hcur
        refine absurd ?_ (h.idle_not_queued ho hpid hleft)
        rw [hq, ← show a = idle from hcur]
        exact mem_cons_self
    have hmem := h.schedDoSwitch.1.ready_mem trivial i hne hready
    rw [hempty] at hmem
    exact absurd hmem not_mem_nil

/-- The queues are right in the state in which a call switches. -/
theorem Calm.entering (h : Calm s) (hc : c.Peaceful s) (hm : c.enters s = some m) :
    ∃ rq sq, Inv True m rq sq := by
  obtain ⟨rq, sq, hinv⟩ := h.inv
  have hset : Settled s := .inl h.running
  have hyield : Inv True { s with needResched := true } rq sq :=
    hinv.flags _ rfl rfl rfl rfl rfl rfl
  cases c with
  | doSwitch =>
    obtain rfl := Option.some.inj hm
    exact ⟨rq, sq, hinv⟩
  | sleep ms =>
    obtain rfl := Option.some.inj hm
    obtain ⟨sq', hm⟩ := hinv.goToSleep hset hc ms
    exact ⟨rq, sq', hm⟩
  | blockOn channel =>
    obtain rfl := Option.some.inj hm
    exact ⟨rq, sq, hinv.leave hset (fun x => { x with state := .blocked, waitingFor := channel })
      rfl rfl (by simp) (by simp)⟩
  | exit code =>
    obtain rfl := Option.some.inj hm
    have hleave := hinv.leave hset (fun x => { x with state := .zombie, exitCode := code })
      rfl rfl (by simp) (by simp)
    exact ⟨rq, sq, hleave.flags _ rfl rfl rfl rfl rfl rfl⟩
  | waitpid pid | irqWait irq =>
    simp only [enters, ite_none_right_eq_some, Option.some.injEq] at hm
    obtain ⟨-, rfl⟩ := hm
    exact ⟨rq, sq, hyield⟩
  | _ => cases hm

theorem Calm.tame (h : Calm s) (hc : c.Peaceful s) : c.Tame s ∧ c.WakesNone s := by
  cases c with
  | kill | wakeIrq => exact hc.elim
  | sleep ms => exact ⟨hc, trivial⟩
  | waitpid pid =>
    refine ⟨fun hp => ?_, trivial⟩
    have hz := (waitTarget_some hp).2
    rw [h.running] at hz
    cases hz
  | _ => exact ⟨trivial, trivial⟩

/-- A switch keeps the idle process out of the queue. -/
theorem Inv.switch_once (h : Inv True m rq sq) (ho : OnceEntered m) :
    OnceEntered (Sched.schedDoSwitch m) := by
  have hsw := h.switched
  obtain ⟨es, hlog, hes⟩ := ho
  refine ⟨es ++ (m.wakes sq ++ m.again).map .enter ++ [.leave (m.chosen rq sq)], ?_, fun h0 => ?_⟩
  · rw [hsw.log, hlog]
    rfl
  · have hpid : (m.processes idle).pid = 0 := by rwa [hsw.pid] at h0
    have hout : idle ∉ m.wakes sq ++ m.again := fun hmem => by
      rcases mem_append.mp hmem with hmem | hmem
      · exact (h.inSleep idle (mem_of_mem_filter hmem)).1 rfl
      · obtain ⟨hcur, -, hne⟩ := mem_again.mp hmem
        exact hne (hcur ▸ hpid)
    simpa [hes hpid] using hout

theorem Calm.run (h : Calm s) (hc : c.Peaceful s) : Calm (c.run s) := by
  obtain ⟨rq, sq, hinv⟩ := h.inv
  obtain ⟨rq', sq', hinv', hset'⟩ := hinv.run (.inl h.running) (h.tame hc).1 fun _ => (h.tame hc).2
  cases hm : c.enters s with
  | none =>
    obtain ⟨hq, hlive⟩ := Quiet.call h.running h.idle h.nextPid hc hm
    refine ⟨⟨rq', sq', hinv'⟩, ?_, fun hb => h.idle (hq.blocked hb), hq.nextPid h.nextPid,
      hq.once h.once⟩
    refine hset'.resolve_right fun hz => ?_
    rw [← hq.current, hz] at hlive
    cases hlive
  | some m =>
    obtain ⟨hq, -⟩ := Quiet.entering h.running hc hm
    obtain ⟨mq, ms, hminv⟩ := h.entering hc hm
    rw [run_enters hm] at hinv' ⊢
    refine ⟨⟨rq', sq', hinv'⟩, hminv.schedDoSwitch.2, ?_, ?_, hminv.switch_once (hq.once h.once)⟩
    · exact fun hb => h.idle (hq.blocked (hminv.switched.blocked hb))
    · rw [hminv.switched.nextPid]
      exact hq.nextPid h.nextPid

theorem Calm.fairCall (h : Calm s) (hc : c.Peaceful s) : FairCall s c := by
  obtain ⟨rq, sq, hinv⟩ := (h.run hc).inv
  refine ⟨hinv.fairLog, fun m hm => ?_, fun hm => ?_⟩
  · obtain ⟨hq, hlog⟩ := Quiet.entering h.running hc hm
    obtain ⟨mq, ms, hminv⟩ := h.entering hc hm
    exact ⟨hq.sleeping, hlog, run_enters hm, hminv.fairSwitch (hq.once h.once)⟩
  · obtain ⟨hq, -⟩ := Quiet.call h.running h.idle h.nextPid hc hm
    obtain ⟨es, hes, -⟩ := hq.log
    exact ⟨hq.sleeping, es, hes⟩

end Dispatch

theorem calm_schedInit {kstack : Nat} : Calm (schedInit kstack) := by
  refine ⟨⟨_, _, (inv_schedInit True kstack).1⟩, ?_, ?_, Nat.le_refl 1, [], rfl, fun _ => by simp⟩
  · simp [schedInit]
  · simp [schedInit]

/-- **The dispatch is fair**: in every peaceful run since `sched_init`, whatever
is called next. -/
theorem fair_dispatch (kstack : Nat) (cs : List Call) (c : Call)
    (hcs : Throughout (fun s c => c.Peaceful s) kstack (cs ++ [c])) :
    FairCall (after kstack cs) c := by
  obtain ⟨hbefore, hc, -⟩ := Runs.guarded_append.mp hcs
  have hcalm := hbefore.invariant (I := Calm) (fun _ _ h hc => h.run hc) (calm_schedInit)
  exact hcalm.fairCall hc

/-- A thread goes to sleep, the clock ticks, and the idle process yields. -/
theorem fair_dispatch_sleeper : FairCall
    (after 4096 [.createKthread 8192, .doSwitch, .doSwitch, .sleep 1, .tick]) .doSwitch :=
  fair_dispatch 4096 _ _ ⟨trivial, trivial, trivial,
    (by decide +kernel : (after 4096 [.createKthread 8192, .doSwitch, .doSwitch]).current ≠ idle),
    trivial, trivial, trivial⟩

/-! ## Sleeping -/

/-- The loop of `sched_do_switch` along the sleep queue makes the process ready. -/
def Wakes (s : State) (p : Slot) : Prop :=
  (s.processes p).state = .sleeping ∧
    ((wakeSleepers s.pitTicks rounds s none s.sleepQueue).processes p).state = .ready

/-- Whatever the queue looks like, a process whose time has not come is left alone. -/
theorem wakeSleepers_late {s : State} {p : Slot} {now : Nat} (h : now < (s.processes p).sleepUntil)
    (n : Nat) (prev sp : Option Slot) : (wakeSleepers now n s prev sp).view p = s.view p := by
  induction n generalizing s prev sp with
  | zero => rfl
  | succ n ih =>
    cases sp with
    | none => rfl
    | some w =>
      unfold wakeSleepers
      dsimp only
      split
      · rename_i hdue
        have hne : p ≠ w := by
          rintro rfl
          omega
        have hview : (enqueueReady ((unlinkSleeper s prev (s.processes w).next).modify w fun x =>
            { x with next := none, state := .ready, sleepUntil := 0 }) w).view p = s.view p := by
          rw [enqueueReady_view, view_modify, update_of_ne hne, unlinkSleeper_view]
        rw [ih, hview]
        rwa [← view_sleepUntil, hview]
      · exact ih h _ _

/-- The process that called `sched_sleep(ms)` in `s` is not made ready before `ms` ticks were
counted, by a switch in any state in which it still has the time it was given. -/
def SleepsLong (s : State) (ms : Nat) : Prop :=
  ∀ (u : State) (k : Nat), k < ms → u.pitTicks = (s.pitTicks + k) % 2 ^ 32 →
    (u.processes s.current).sleepUntil = ((goToSleep s ms).processes s.current).sleepUntil →
    ¬ Wakes u s.current

/-- Only the process is asleep. -/
def onlySleeper (s : State) (now t : Nat) : State :=
  { s with
    processes := fun _ => { zeroProcess with state := .sleeping, sleepUntil := t }
    sleepQueue := some s.current
    pitTicks := now }

theorem onlySleeper_wakes {s : State} {now t : Nat} (h : t ≤ now) :
    Wakes (onlySleeper s now t) s.current := by
  refine ⟨rfl, ?_⟩
  have hstep : wakeSleepers now rounds (onlySleeper s now t) none (some s.current) =
      enqueueReady (State.modify { onlySleeper s now t with sleepQueue := none } s.current fun x =>
        { x with next := none, state := .ready, sleepUntil := 0 }) s.current := if_pos h
  refine (congrArg (fun r => (State.processes r s.current).state) hstep).trans ?_
  rw [← view_state, enqueueReady_view, view_modify, update_self]

theorem goToSleep_sleepUntil (s : State) (ms : Nat) :
    ((goToSleep s ms).processes s.current).sleepUntil = wakeTime s ms := by
  unfold goToSleep
  rw [← view_sleepUntil, linkSleeper_view, view_modify, update_self]

theorem wakeTime_eq {s : State} {ms : Nat} (h : ms * 1000 < 2 ^ 32) (hms : ms ≠ 0) :
    wakeTime s ms = (s.pitTicks + ms) % 2 ^ 32 := by
  rw [wakeTime, Nat.mod_eq_of_lt h, Nat.mul_div_cancel ms (by decide)]
  exact congrArg (fun n => (s.pitTicks + n) % 2 ^ 32) (if_neg hms)

/-- **Sleep never ends early exactly if no number wraps**: neither the argument times the
1000 ticks of a second, nor the time at which the process is to wake. -/
theorem sleeps_long_iff (s : State) (hnow : s.pitTicks < 2 ^ 32) (ms : Nat) :
    SleepsLong s ms ↔ ms = 0 ∨ ms * 1000 < 2 ^ 32 ∧ s.pitTicks + ms < 2 ^ 32 := by
  unfold SleepsLong
  rw [goToSleep_sleepUntil]
  constructor
  · intro h
    by_contra hwrap
    -- the first tick at which the process is due comes too early
    obtain ⟨k, hk, hdue⟩ : ∃ k < ms, wakeTime s ms ≤ (s.pitTicks + k) % 2 ^ 32 := by
      by_cases hover : ms * 1000 < 2 ^ 32
      · refine ⟨0, by omega, ?_⟩
        rw [wakeTime_eq hover (by omega)]
        omega
      · refine ⟨if ms * 1000 % 2 ^ 32 / 1000 = 0 then 1 else ms * 1000 % 2 ^ 32 / 1000, ?_,
          Nat.le_refl _⟩
        split <;> omega
    exact h (onlySleeper s _ (wakeTime s ms)) k hk rfl rfl (onlySleeper_wakes hdue)
  · rintro hfit u k hk hticks huntil ⟨hsleeping, hready⟩
    have hlate : u.pitTicks < (u.processes s.current).sleepUntil := by
      have hms : ms ≠ 0 := Nat.ne_zero_of_lt hk
      obtain ⟨hover, hsum⟩ := hfit.resolve_left hms
      rw [huntil, wakeTime_eq hover hms]
      omega
    rw [← view_state, wakeSleepers_late hlate, view_state, hsleeping] at hready
    cases hready

theorem sleeps_long_second : SleepsLong (schedInit 4096) 1000 :=
  (sleeps_long_iff _ (by decide) 1000).mpr (.inr (by decide))

/-- A thread that sleeps for 4294968 ms is made ready after one tick. -/
theorem sleep_too_short :
    Wakes (after 4096 [.createKthread 8192, .doSwitch, .doSwitch, .sleep 4294968, .tick]) 1 := by
  unfold Wakes
  decide +kernel

end Utms7.Sched
