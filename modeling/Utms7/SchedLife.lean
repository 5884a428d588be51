import Utms7.SchedCalls

/-!
# The life of a process

A slot is dead if it is unused or holds a zombie.  `Step` says what each call can
do to the slots: most calls neither bring a slot to life nor end one, and keep its
pid and its address space (`Keeps`); the others change one slot.

This needs more care of the callers than the order of the queues does: a process
that has been killed must not go on to sleep or block, and the idle process is
neither killed nor ends.
-/

namespace Utms7.Sched

open Function Call State

variable {s s' : State} {i p : Slot} {c : Call} {cs : List Call}

/-- An unused slot or a zombie. -/
def ProcState.dead : ProcState → Bool
  | unused | zombie => true
  | _ => false

/-- Nobody is born or dies, and everybody keeps pid and address space. -/
structure Keeps (s s' : State) : Prop where
  dead : ∀ i, (s.processes i).state.dead = true →
    (s'.processes i).state = (s.processes i).state
  alive : ∀ i, (s.processes i).state.dead = false → (s'.processes i).state.dead = false
  pid : ∀ i, (s'.processes i).pid = (s.processes i).pid
  cr3 : ∀ i, (s'.processes i).cr3 = (s.processes i).cr3
  nextPid : s'.nextPid = s.nextPid
  processCount : s'.processCount = s.processCount
  -- `CR3` goes on holding the tree of the current process
  loaded : s.cr3 = (s.processes s.current).cr3 → s'.cr3 = (s'.processes s'.current).cr3

theorem Keeps.refl (s : State) : Keeps s s :=
  ⟨fun _ _ => rfl, fun _ h => h, fun _ => rfl, fun _ => rfl, rfl, rfl, fun h => h⟩

theorem Keeps.trans {s'' : State} (h : Keeps s s') (h' : Keeps s' s'') : Keeps s s'' where
  dead i hi := by
    have hstate := h.dead i hi
    rw [h'.dead i (by rw [hstate]; exact hi), hstate]
  alive i hi := h'.alive i (h.alive i hi)
  pid i := (h'.pid i).trans (h.pid i)
  cr3 i := (h'.cr3 i).trans (h.cr3 i)
  nextPid := h'.nextPid.trans h.nextPid
  processCount := h'.processCount.trans h.processCount
  loaded hl := h'.loaded (h.loaded hl)

/-- Keeping is judged slot by slot, where the current process stays the same. -/
theorem Keeps.of_slots (hstate : ∀ i, (s'.processes i).state = (s.processes i).state ∨
      (s.processes i).state.dead = false ∧ (s'.processes i).state.dead = false)
    (hpid : ∀ i, (s'.processes i).pid = (s.processes i).pid)
    (hcr3 : ∀ i, (s'.processes i).cr3 = (s.processes i).cr3) (hrest : SameRest s s') :
    Keeps s s' where
  dead i hi := (hstate i).resolve_right fun h => by
    rw [hi] at h
    cases h.1
  alive i hi := (hstate i).elim (fun h => by rw [h]; exact hi) fun h => h.2
  pid := hpid
  cr3 := hcr3
  nextPid := hrest.nextPid
  processCount := hrest.processCount
  loaded hl := by
    rw [hrest.cr3, hrest.current, hl, hcr3]

section Switch

variable {full : Prop} {rq sq : List Slot}

section

variable (h : Inv full s rq sq) (hidle : (s.processes idle).state.dead = false)
include h hidle

theorem Inv.queue_alive (hi : i ∈ s.queue rq sq) : (s.processes i).state.dead = false := by
  rcases List.mem_append.mp hi with hi | hi
  · rcases List.mem_append.mp hi with hi | hi
    · rcases h.inReady i hi with hst | hb
      · rw [hst]
        rfl
      · rw [hb.idle]
        exact hidle
    · rcases (h.inSleep i (List.mem_of_mem_filter hi)).2 with hst | hst <;> rw [hst] <;> rfl
  · obtain ⟨rfl, hst, -⟩ := mem_again.mp hi
    rw [hst]
    rfl

theorem Inv.chosen_alive : (s.processes (s.chosen rq sq)).state.dead = false := by
  unfold chosen
  cases hq : s.queue rq sq with
  | nil => exact hidle
  | cons a as => exact h.queue_alive hidle (by rw [hq]; exact List.mem_cons_self)

/-- **A switch** chooses a process that lives. -/
theorem Inv.switch_keeps : Keeps s (Sched.schedDoSwitch s) := by
  have hsw := h.switched
  have hlined : ∀ i, i ∉ s.queue rq sq → s.lined sq i = s.view i := fun i hi => by
    have hagain : i ∉ s.again := fun hmem => hi (List.mem_append_right _ hmem)
    have hwakes : i ∉ s.wakes sq := fun hmem =>
      hi (List.mem_append_left _ (List.mem_append_right _ hmem))
    rw [lined, if_neg hagain, woken_not_mem hwakes]
  obtain ⟨t, hnext⟩ := hsw.next
  have hcr3 : ∀ i, ((Sched.schedDoSwitch s).processes i).cr3 = (s.processes i).cr3 := fun i => by
    by_cases hi : i = s.chosen rq sq
    · rw [← view_cr3, hi, hnext]
      exact lined_cr3 s sq _
    · rw [← view_cr3, hsw.other i hi]
      exact lined_cr3 s sq i
  refine ⟨fun i hi => ?_, fun i hi => ?_, hsw.pid, hcr3, hsw.nextPid, hsw.processCount,
    fun hl => ?_⟩
  · have hne : i ≠ s.chosen rq sq := by
      rintro rfl
      rw [h.chosen_alive hidle] at hi
      cases hi
    have hout : i ∉ s.queue rq sq := fun hmem => by
      rw [h.queue_alive hidle hmem] at hi
      cases hi
    rw [← view_state, hsw.other i hne, hlined i hout, view_state]
  · by_cases hne : i = s.chosen rq sq
    · rw [← view_state, hne, hnext]
      rfl
    rw [← view_state, hsw.other i hne, lined, woken]
    split
    · rfl
    · split
      · rfl
      · exact hi
  · rw [hsw.cr3, hcr3, hsw.current]
    by_cases hself : s.chosen rq sq = s.current
    · rw [if_pos hself, hself, hl]
    rw [if_neg hself]
    split
    · rfl
    · rename_i heq
      rw [not_not] at heq
      rw [hl]
      exact heq

end

end Switch

/-! ## What a call can do -/

/-- The calls that end no process in a way from which it comes back. -/
def Call.Careful (s : State) : Call → Prop
  | .sleep _ => s.current ≠ idle ∧ (s.processes s.current).state = .running
  | .blockOn _ => (s.processes s.current).state = .running
  | .exit _ => s.current ≠ idle
  | .kill pid => ∀ p, killTarget s pid = some p → p ≠ idle ∧
      (s.processes p).state ≠ .ready ∧ (s.processes p).state ≠ .sleeping
  | .waitpid pid => waitTarget s pid ≠ some s.current
  | .wakeIrq irq => ∀ i, (s.processes i).state.dead = true →
      (s.processes i).irqMask &&& irqBit irq = 0
  | _ => True

/-- What a careful call can do. -/
inductive Step (s : State) : Call → Outcome → Prop
  | keeps {c : Call} {o : Outcome} (hk : Keeps s o.state) (hfreed : o.freed = none)
      (hgot : c.obtains s = none) : Step s c o
  | created {c : Call} {o : Outcome} (hc : c.creates = true)
      (hcr : Creation s (c.obtains s) (c.newSpace s) o) : Step s c o
  | refused {l : Loading} (hspace : l.space ≠ 0) :
      Step s (.exec l) ⟨some (-1), s, some l.space⟩
  | replaced {l : Loading} (hspace : l.space ≠ 0) : Step s (.exec l)
      ⟨some 0, enterProgram s l,
        if s.cr3 ≠ l.space ∧ s.cr3 ≠ 0 ∧ s.cr3 ≠ kernelSpace then some s.cr3 else none⟩
  | ended {code : Int} {o : Outcome} (hcur : s.current ≠ idle)
      (hk : Keeps (goToExit s code) o.state) (hfreed : o.freed = none) : Step s (.exit code) o
  | killed {pid : Nat} {p : Slot} (hp : killTarget s pid = some p) (hidle : p ≠ idle) :
      Step s (.kill pid)
        ⟨some 0, s.modify p fun x => { x with state := .zombie, exitCode := -1 }, none⟩
  | reaped {pid : Nat} {p : Slot} (hp : waitTarget s pid = some p) (hcur : p ≠ s.current) :
      Step s (.waitpid pid) ⟨some pid, reap s p,
        if (s.processes p).cr3 ≠ 0 ∧ (s.processes p).cr3 ≠ kernelSpace then some (s.processes p).cr3
        else none⟩

/-- The scheduler between two careful calls. -/
structure Sound (s : State) : Prop where
  inv : ∃ rq sq, Inv False s rq sq
  settled : Settled s
  idle_alive : (s.processes idle).state.dead = false

/-- `sched_wakeup` only makes blocked processes ready. -/
theorem schedWakeup_keeps (s : State) (channel : Nat) : Keeps s (schedWakeup s channel) := by
  unfold schedWakeup
  generalize List.finRange 64 = slots
  induction slots generalizing s with
  | nil => exact .refl s
  | cons p slots ih =>
    refine Keeps.trans ?_ (ih _)
    unfold wakeBlocked
    split
    · rename_i hb
      let s1 := s.modify p fun x => { x with state := .ready, waitingFor := 0 }
      have hview : ∀ i, (enqueueReady s1 p).view i =
          if i = p then { s.view p with state := .ready, waitingFor := 0 } else s.view i := by
        intro i
        rw [enqueueReady_view, view_modify]
        by_cases hi : i = p
        · subst hi
          rfl
        · rw [update_of_ne hi, if_neg hi]
      have hrest : SameRest s { enqueueReady s1 p with needResched := true } := by
        have h := (sameRest_modify s p _).trans (enqueueReady_sameRest s1 p)
        exact ⟨h.current, h.nextPid, h.processCount, h.pitTicks, h.cr3⟩
      have hstate : ∀ i, ((enqueueReady s1 p).processes i).state = (s.processes i).state ∨
          (s.processes i).state.dead = false ∧
            ((enqueueReady s1 p).processes i).state.dead = false := fun i => by
        rw [← view_state, hview]
        by_cases hi : i = p
        · rw [hi, if_pos rfl, hb.1]
          exact .inr ⟨rfl, rfl⟩
        · rw [if_neg hi]
          exact .inl rfl
      refine Keeps.of_slots hstate (fun i => ?_) (fun i => ?_) hrest
      · show ((enqueueReady s1 p).processes i).pid = _
        rw [← view_pid, hview]
        split <;> simp [*]
      · show ((enqueueReady s1 p).processes i).cr3 = _
        rw [← view_cr3, hview]
        split <;> simp [*]
    · exact .refl s

theorem schedWakeIrq_keeps {irq : Nat}
    (hdead : ∀ i, (s.processes i).state.dead = true → (s.processes i).irqMask &&& irqBit irq = 0) :
    Keeps s (schedWakeIrq s irq) := by
  refine Keeps.of_slots (fun i => ?_) (fun i => ?_) (fun i => ?_) ⟨rfl, rfl, rfl, rfl, rfl⟩
  · simp only [schedWakeIrq]
    by_cases hw : wokenByIrq irq (s.processes i) = true
    · rw [if_pos hw]
      refine .inr ⟨?_, rfl⟩
      by_contra hd
      rw [Bool.not_eq_false] at hd
      simp [wokenByIrq, hdead i hd] at hw
    · rw [if_neg hw]
      exact .inl rfl
  · simp only [schedWakeIrq]
    split <;> rfl
  · simp only [schedWakeIrq]
    split <;> rfl

section

variable (s : State) (p i : Slot) (f : Process → Process)

theorem modify_state
    (hf : ∀ x, (f x).state = x.state) :
    ((s.modify p f).processes i).state = (s.processes i).state := by
  by_cases hi : i = p
  · rw [hi, modify_self, hf]
  · simp [State.modify, hi]

theorem modify_pid (hf : ∀ x, (f x).pid = x.pid) :
    ((s.modify p f).processes i).pid = (s.processes i).pid := by
  by_cases hi : i = p
  · rw [hi, modify_self, hf]
  · simp [State.modify, hi]

end

theorem enterProgram_state (s : State) (l : Loading) (i : Slot) :
    ((enterProgram s l).processes i).state = (s.processes i).state :=
  modify_state s s.current i (fun x => { x with
    cr3 := l.space, heapStart := l.heapStart, heapEnd := l.heapStart }) fun _ => rfl

theorem goToExit_other (code : Int) (hi : i ≠ s.current) :
    (goToExit s code).processes i = s.processes i :=
  update_of_ne hi _ _

/-- A field of one process changes that has nothing to do with its life. -/
theorem modify_keeps (f : Process → Process)
    (hf : (f (s.processes p)).state = (s.processes p).state ∧
      (f (s.processes p)).pid = (s.processes p).pid ∧
        (f (s.processes p)).cr3 = (s.processes p).cr3) :
    Keeps s (s.modify p f) := by
  have hfields : ∀ i, ((s.modify p f).processes i).state = (s.processes i).state ∧
      ((s.modify p f).processes i).pid = (s.processes i).pid ∧
      ((s.modify p f).processes i).cr3 = (s.processes i).cr3 := fun i => by
    by_cases hi : i = p
    · rw [hi, modify_self]
      exact hf
    · simp [State.modify, hi]
  exact Keeps.of_slots (fun i => .inl (hfields i).1) (fun i => (hfields i).2.1)
    (fun i => (hfields i).2.2) (sameRest_modify s p f)

/-- A process that lives is put in another state in which it lives. -/
theorem modify_state_keeps {f : Process → Process} (hold : (s.processes p).state.dead = false)
    (hnew : (f (s.processes p)).state.dead = false)
    (hf : (f (s.processes p)).pid = (s.processes p).pid ∧
      (f (s.processes p)).cr3 = (s.processes p).cr3) : Keeps s (s.modify p f) := by
  have hother : ∀ i, i ≠ p → (s.modify p f).processes i = s.processes i := fun i hi =>
    update_of_ne hi _ _
  refine Keeps.of_slots (fun i => ?_) (fun i => ?_) (fun i => ?_) (sameRest_modify s p f)
  · by_cases hi : i = p
    · rw [hi, modify_self]
      exact .inr ⟨hold, hnew⟩
    · rw [hother i hi]
      exact .inl rfl
  · by_cases hi : i = p
    · rw [hi, modify_self]
      exact hf.1
    · rw [hother i hi]
  · by_cases hi : i = p
    · rw [hi, modify_self]
      exact hf.2
    · rw [hother i hi]

theorem keeps_of_view (hview : s'.view = s.view) (hrest : SameRest s s') : Keeps s s' := by
  refine Keeps.of_slots (fun i => .inl ?_) (fun i => ?_) (fun i => ?_) hrest
  · rw [← view_state, hview, view_state]
  · rw [← view_pid, hview, view_pid]
  · rw [← view_cr3, hview, view_cr3]

theorem goToSleep_keeps (hcur : (s.processes s.current).state = .running) (ms : Nat) :
    Keeps s (goToSleep s ms) := by
  have hkeep : Keeps s (s.modify s.current fun x =>
      { x with state := .sleeping, sleepUntil := wakeTime s ms }) :=
    modify_state_keeps (by rw [hcur]; rfl) rfl ⟨rfl, rfl⟩
  exact hkeep.trans (keeps_of_view (linkSleeper_view _ _ _) (linkSleeper_sameRest _ _ _))

theorem pitHandler_keeps {s : State} : Keeps s (pitHandler s) := by
  obtain ⟨t, b, heq⟩ := pitHandler_eq s
  have hkeep : Keeps s (s.modify s.current fun x => { x with ticksLeft := t }) :=
    modify_keeps _ ⟨rfl, rfl, rfl⟩
  rw [heq]
  exact ⟨hkeep.dead, hkeep.alive, hkeep.pid, hkeep.cr3, hkeep.nextPid, hkeep.processCount,
    hkeep.loaded⟩

namespace Sound

variable {c : Call}

theorem tame (h : Sound s) (hc : c.Careful s) : c.Tame s := by
  cases c with
  | sleep ms => exact hc.1
  | kill pid => exact fun p hp => (hc p hp).2
  | waitpid pid => exact hc
  | wakeIrq irq =>
    rcases h.settled with hst | hst
    · simp [Call.Tame, wokenByIrq, hst]
    · have hbit := hc s.current (by rw [hst]; rfl)
      simp [Call.Tame, wokenByIrq, hbit]
  | _ => trivial

theorem current_ne_unused (h : Sound s) : (s.processes s.current).state ≠ .unused :=
  (Inv.settled_out h.settled).2.2

/-- **What a careful call does.** -/
theorem step (h : Sound s) (hc : c.Careful s) : Step s c (c.outcome s) := by
  obtain ⟨rq, sq, hinv⟩ := h.inv
  have hcur := h.current_ne_unused
  have hflag : Keeps s { s with needResched := true } :=
    ⟨fun _ _ => rfl, fun _ hi => hi, fun _ => rfl, fun _ => rfl, rfl, rfl, fun hl => hl⟩
  have hyield : Keeps s (schedDoSwitch { s with needResched := true }) := by
    have hm : Inv False { s with needResched := true } rq sq := hinv.flags _ rfl rfl rfl rfl rfl rfl
    exact hflag.trans (hm.switch_keeps h.idle_alive)
  cases c with
  | createKthread kstack => exact .created rfl (schedCreateKthread_creation hcur kstack)
  | createProcess l kstack => exact .created rfl (schedCreateProcess_creation s l kstack)
  | fork copy kstack => exact .created rfl (forkFrom_creation hcur copy kstack)
  | clone userRsp copy kstack => exact .created rfl (schedClone_creation hcur userRsp copy kstack)
  | exec l =>
    simp only [outcome, sysExec]
    split
    · rename_i hspace
      exact .keeps (.refl s) rfl (if_pos hspace)
    · rename_i hspace
      split
      · exact .refused hspace
      · exact .replaced hspace
  | doSwitch => exact .keeps (hinv.switch_keeps h.idle_alive) rfl rfl
  | sleep ms =>
    obtain ⟨sq', hm⟩ := hinv.goToSleep h.settled hc.1 ms
    have hkeep := goToSleep_keeps hc.2 ms
    exact .keeps (hkeep.trans (hm.switch_keeps (hkeep.alive _ h.idle_alive))) rfl rfl
  | blockOn channel =>
    have hm : Inv False (goToBlock s channel) rq sq :=
      hinv.leave h.settled (fun x => { x with state := .blocked, waitingFor := channel }) rfl rfl
        (by simp) (by simp)
    have hrun : (s.processes s.current).state = .running := hc
    have hkeep : Keeps s (goToBlock s channel) :=
      modify_state_keeps (by rw [hrun]; rfl) rfl ⟨rfl, rfl⟩
    exact .keeps (hkeep.trans (hm.switch_keeps (hkeep.alive _ h.idle_alive))) rfl rfl
  | wakeup channel =>
    refine .keeps ?_ rfl rfl
    dsimp only [outcome]
    exact schedWakeup_keeps s channel
  | exit code =>
    have h1 := hinv.leave h.settled (fun x => { x with state := .zombie, exitCode := code }) rfl
      rfl (by simp) (by simp)
    have hm : Inv False (goToExit s code) rq sq := h1.flags _ rfl rfl rfl rfl rfl rfl
    have hidle : ((goToExit s code).processes idle).state.dead = false := by
      rw [goToExit_other _ (Ne.symm hc)]
      exact h.idle_alive
    exact .ended hc (hm.switch_keeps hidle) rfl
  | kill pid =>
    simp only [outcome, schedKill]
    split
    · exact .keeps (.refl s) rfl rfl
    · rename_i p hp
      exact .killed hp (hc p hp).1
  | waitpid pid =>
    simp only [outcome, schedWaitpid]
    split
    · rename_i p hp
      exact .reaped hp fun heq => hc (heq ▸ hp)
    · exact .keeps hyield rfl rfl
  | wakeIrq irq => exact .keeps (schedWakeIrq_keeps hc) rfl rfl
  | irqRegister irq =>
    refine .keeps ?_ rfl rfl
    simp only [outcome, sysIrqRegister]
    split
    · exact .refl s
    · exact modify_keeps (fun x => { x with irqMask := x.irqMask ||| irqBit irq.toNat })
        ⟨rfl, rfl, rfl⟩
  | irqWait irq =>
    refine .keeps ?_ rfl rfl
    simp only [outcome, sysIrqWait]
    split
    · exact .refl s
    · split
      · exact hyield
      · exact modify_keeps (fun x => { x with
          irqPending := x.irqPending &&& ~~~ irqBit irq.toNat }) ⟨rfl, rfl, rfl⟩
  | tick => exact .keeps (pitHandler_keeps) rfl rfl

end Sound

/-- A creation leaves the slots alone that it does not find. -/
theorem Creation.view_other {got : Option Nat} {space : Nat} {o : Outcome}
    (hc : Creation s got space o) (hi : findUnused s ≠ some i) : o.state.view i = s.view i := by
  cases hc with
  | none => rfl
  | undone p s' freed hp hf hstate hfreed =>
    have hne : i ≠ p := fun hip => hi (hip ▸ hp)
    rw [view, view, hf.only.other i hne]
  | made p s' hp hf hstate hspace hgot =>
    have hne : i ≠ p := fun hip => hi (hip ▸ hp)
    have hview : (enroll s' p).view i = (enqueueReady s' p).view i := rfl
    rw [hview, enqueueReady_view, view, view, hf.only.other i hne]

theorem Sound.run (h : Sound s) (hc : c.Careful s) : Sound (c.run s) := by
  obtain ⟨rq, sq, hinv⟩ := h.inv
  obtain ⟨rq', sq', hinv', hset'⟩ := hinv.run h.settled (h.tame hc) (fun hf => hf.elim)
  refine ⟨⟨rq', sq', hinv'⟩, hset', ?_⟩
  have hidle := h.idle_alive
  have hstep := h.step hc
  show ((c.outcome s).state.processes idle).state.dead = false
  have hother : ∀ {p : Slot} {f : Process → Process}, p ≠ idle →
      (s.modify p f).processes idle = s.processes idle := fun hp =>
    update_of_ne (Ne.symm hp) _ _
  generalize c.outcome s = o at hstep ⊢
  cases hstep with
  | keeps hk hfreed hgot => exact hk.alive _ hidle
  | created hcr hcreation =>
    rw [← view_state, hcreation.view_other]
    · exact hidle
    · intro hst
      rw [findUnused_some hst] at hidle
      cases hidle
  | refused hspace => exact hidle
  | replaced hspace =>
    rw [enterProgram_state]
    exact hidle
  | ended hcur hk hfreed =>
    refine hk.alive _ ?_
    rw [goToExit_other _ (Ne.symm hcur)]
    exact hidle
  | killed hp hne =>
    rw [hother hne]
    exact hidle
  | reaped hp hcur =>
    rw [show ((reap s _).processes idle) = s.processes idle from hother ?_]
    · exact hidle
    · rintro rfl
      rw [(waitTarget_some hp).2] at hidle
      cases hidle

/-! ## The dead stay dead -/

/-- The call gives the slot back. -/
def Call.Reaps (i : Slot) (s : State) : Call → Prop
  | .waitpid pid => waitTarget s pid = some i
  | _ => False

/-- The call makes a process in the slot. -/
def Call.Reuses (i : Slot) (s : State) (c : Call) : Prop :=
  c.creates = true ∧ findUnused s = some i

/-- The process is ready or running. -/
def Runnable (s : State) (i : Slot) : Prop :=
  (s.processes i).state = .ready ∨ (s.processes i).state = .running

theorem Runnable.ne_zombie (h : Runnable s i) : (s.processes i).state ≠ .zombie := by
  rcases h with hst | hst <;> rw [hst] <;> decide

theorem Runnable.ne_unused (h : Runnable s i) : (s.processes i).state ≠ .unused := by
  rcases h with hst | hst <;> rw [hst] <;> decide

/-- A dead process stays as it is, unless it is reaped or its slot is used again. -/
theorem Sound.dead_step (h : Sound s) (hc : c.Careful s) (hi : (s.processes i).state.dead = true) :
    ((c.run s).processes i).state = (s.processes i).state ∨ c.Reaps i s ∨ c.Reuses i s := by
  have hstep := h.step hc
  have hzombie : (s.processes i).state ≠ .unused → (s.processes i).state = .zombie := by
    cases hstate : (s.processes i).state <;> simp_all [ProcState.dead]
  show ((c.outcome s).state.processes i).state = _ ∨ _
  generalize c.outcome s = o at hstep ⊢
  cases hstep with
  | keeps hk hfreed hgot => exact .inl (hk.dead i hi)
  | created hcr hcreation =>
    by_cases hfound : findUnused s = some i
    · exact .inr (.inr ⟨hcr, hfound⟩)
    · left
      rw [← view_state, hcreation.view_other hfound]
      rfl
  | refused hspace => exact .inl rfl
  | replaced hspace => exact .inl (enterProgram_state s _ i)
  | @ended code _ hcur hk hfreed =>
    have hgone : ((goToExit s code).processes i).state = (s.processes i).state := by
      by_cases hic : i = s.current
      · subst hic
        rw [hzombie h.current_ne_unused, goToExit]
        simp only [modify_self]
      · rw [goToExit_other code hic]
    exact .inl ((hk.dead i (by rwa [hgone])).trans hgone)
  | @killed pid p hp hne =>
    left
    by_cases hip : i = p
    · subst hip
      rw [hzombie (killTarget_some hp).2, modify_self]
    · simp only [State.modify, update_of_ne hip]
  | @reaped pid p hp hcur =>
    by_cases hip : i = p
    · exact .inr (.inl (hip ▸ hp))
    · left
      simp only [reap, State.modify, update_of_ne hip]

theorem Call.Reaps.zombie (h : c.Reaps i s) : (s.processes i).state = .zombie := by
  cases c with
  | waitpid pid => exact (waitTarget_some h).2
  | _ => exact h.elim

theorem Sound.zombie_step (h : Sound s) (hc : c.Careful s) (hi : (s.processes i).state = .zombie) :
    ((c.run s).processes i).state = .zombie ∨ c.Reaps i s := by
  rcases h.dead_step hc (by rw [hi]; rfl) with hsame | hreaps | hreuses
  · exact .inl (hsame.trans hi)
  · exact .inr hreaps
  · have hunused := findUnused_some hreuses.2
    rw [hi] at hunused
    cases hunused

theorem Sound.unused_step (h : Sound s) (hc : c.Careful s) (hi : (s.processes i).state = .unused) :
    ((c.run s).processes i).state = .unused ∨ c.Reuses i s := by
  rcases h.dead_step hc (by rw [hi]; rfl) with hsame | hreaps | hreuses
  · exact .inl (hsame.trans hi)
  · have hzombie := hreaps.zombie
    rw [hi] at hzombie
    cases hzombie
  · exact .inr hreuses

theorem sound_schedInit (kstack : Nat) : Sound (schedInit kstack) :=
  ⟨⟨_, _, (inv_schedInit False kstack).1⟩, (inv_schedInit False kstack).2, by
    simp [schedInit, ProcState.dead]⟩

theorem sound_after {kstack : Nat}
    (hcs : Throughout (fun s c => c.Careful s) kstack cs) : Sound (after kstack cs) :=
  hcs.invariant (I := Sound) (fun _ _ h hc => h.run hc) (sound_schedInit kstack)

/-- A slot that held a zombie or was unused at some moment of the run is ready or
running at its end only if a call made a process in it since; a zombie has been
reaped before. -/
structure StaysDead (kstack : Nat) (cs : List Call) : Prop where
  zombie : ∀ before since, cs = before ++ since → ∀ i,
    ((after kstack before).processes i).state = .zombie → Runnable (after kstack cs) i →
    ∃ mid c late, since = mid ++ c :: late ∧ c.Reaps i (after kstack (before ++ mid)) ∧
      Runs.Occurs Call.run (fun s c => c.Reuses i s) (after kstack (before ++ (mid ++ [c]))) late
  unused : ∀ before since, cs = before ++ since → ∀ i,
    ((after kstack before).processes i).state = .unused → Runnable (after kstack cs) i →
    Runs.Occurs Call.run (fun s c => c.Reuses i s) (after kstack before) since

theorem after_append (kstack : Nat) (cs ds : List Call) :
    after kstack (cs ++ ds) = Runs.run run (after kstack cs) ds := Runs.run_append _ _ _

theorem Sound.reused (h : Sound s) (hcs : Runs.Guarded Call.run (fun s c => c.Careful s) s cs)
    (hi : (s.processes i).state = .unused) (hrun : Runnable (Runs.run Call.run s cs) i) :
    Runs.Occurs Call.run (fun s c => c.Reuses i s) s cs := by
  refine (hcs.stays_or_occurs (I := Sound) (P := fun s => (s.processes i).state = .unused)
    (fun _ _ h hc => h.run hc) (fun _ _ h hc hp => h.unused_step hc hp) h hi).resolve_left ?_
  exact hrun.ne_unused

/-- **A dead process never runs again**, in every run of careful calls. -/
theorem dead_stay_dead (kstack : Nat) (cs : List Call)
    (hcs : Throughout (fun s c => c.Careful s) kstack cs) : StaysDead kstack cs := by
  constructor
  · rintro before since rfl i hi hrun
    obtain ⟨hbefore, hsince⟩ := Runs.guarded_append.mp hcs
    have hsound : Sound (after kstack before) := sound_after hbefore
    rw [after_append] at hrun
    rcases hsince.stays_or_occurs (I := Sound) (P := fun s => (s.processes i).state = .zombie)
      (fun _ _ h hc => h.run hc) (fun _ _ h hc hp => h.zombie_step hc hp) hsound hi with hz | hocc
    · exact absurd hz hrun.ne_zombie
    · obtain ⟨mid, c, late, rfl, hreap⟩ := hocc
      refine ⟨mid, c, late, rfl, by rwa [after_append], ?_⟩
      have hsplit : mid ++ c :: late = (mid ++ [c]) ++ late := by simp
      rw [hsplit] at hsince hrun
      obtain ⟨hmid, hlate⟩ := Runs.guarded_append.mp hsince
      rw [Runs.run_append] at hrun
      have hmid' : Sound (Runs.run Call.run (after kstack before) (mid ++ [c])) :=
        hmid.invariant (I := Sound) (fun _ _ h hc => h.run hc) hsound
      rw [after_append]
      refine hmid'.reused hlate ?_ hrun
      -- the slot is unused right after it has been reaped
      rw [Runs.run_append]
      cases c with
      | waitpid pid =>
        have htarget : waitTarget (Runs.run Call.run (after kstack before) mid) pid =
          some i := hreap
        simp only [Runs.run_cons, Runs.run_nil, Call.run, Call.outcome, schedWaitpid, htarget]
        simp only [reap, modify_self]
      | _ => exact hreap.elim
  · rintro before since rfl i hi hrun
    obtain ⟨hbefore, hsince⟩ := Runs.guarded_append.mp hcs
    rw [after_append] at hrun
    exact (sound_after hbefore).reused hsince hi hrun

/-- A thread runs, ends and is reaped, and its slot is used again. -/
theorem dead_stay_dead_reused : StaysDead 4096
    [.createKthread 8192, .doSwitch, .doSwitch, .exit 0, .waitpid 1, .createKthread 8192] :=
  dead_stay_dead 4096 _ ⟨trivial, trivial, trivial,
    (by decide +kernel : (after 4096 [.createKthread 8192, .doSwitch, .doSwitch]).current ≠ idle),
    (by decide +kernel : waitTarget
      (after 4096 [.createKthread 8192, .doSwitch, .doSwitch, .exit 0]) 1 ≠ some
        (after 4096 [.createKthread 8192, .doSwitch, .doSwitch, .exit 0]).current),
          trivial, trivial⟩

/-- A thread that is killed while it waits to run is run by the next switches. -/
theorem killed_runs_again :
    ¬ StaysDead 4096 [.createKthread 8192, .kill 1, .doSwitch, .doSwitch] := by
  intro h
  have hzombie : ((after 4096 [.createKthread 8192, .kill 1]).processes 1).state = .zombie := by
    decide +kernel
  have hrun : ((after 4096 [.createKthread 8192, .kill 1, .doSwitch, .doSwitch]).processes
    1).state =
      .running := by
    decide +kernel
  obtain ⟨mid, c, late, hsince, hreap, -⟩ := h.zombie [.createKthread 8192, .kill 1]
    [.doSwitch, .doSwitch] rfl 1 hzombie (.inr hrun)
  -- no call since then reaps anybody
  have hmem : c ∈ [doSwitch, doSwitch] := by
    rw [hsince]
    simp
  obtain rfl : c = .doSwitch := by simpa using hmem
  exact hreap

end Utms7.Sched
