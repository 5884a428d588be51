import Utms7.SchedLife

/-!
# Pids

A process is known by its pid, and `process_count` says how many there are.  Both
are right as long as no live process is killed and no pid comes round while it is
still in use.
-/

namespace Utms7.Sched

open Finset

/-- The slots that are neither unused nor zombies. -/
def living (s : State) : Finset Slot :=
  Finset.univ.filter fun i => (s.processes i).state.dead = false

/-- Every process has its own pid, and the processes are counted. -/
structure IdentityRight (s : State) : Prop where
  pids : ∀ i j, i ≠ j → (s.processes i).state ≠ .unused → (s.processes j).state ≠ .unused →
    (s.processes i).pid ≠ (s.processes j).pid
  zero : ∀ i, i ≠ idle → (s.processes i).state ≠ .unused → (s.processes i).pid ≠ 0
  count : s.processCount = (living s).card

/-- The calls that keep the pids apart and the count right: the careful ones, if
only zombies are killed, a process that ends has not been killed, and a new
process is made only while the next pid is not in use. -/
def Call.Counted (s : State) (c : Call) : Prop :=
  c.Careful s ∧ (c.creates = true → ∀ i, (s.processes i).state ≠ .unused →
      (s.processes i).pid ≠ s.nextPid) ∧
    match c with
    | .kill pid => ∀ p, killTarget s pid = some p → (s.processes p).state = .zombie
    | .exit _ => (s.processes s.current).state = .running
    | _ => True

section Pids

variable {s s' : State} {o : Outcome} {i : Slot} {c : Call}

theorem mem_living : i ∈ living s ↔ (s.processes i).state.dead = false := by
  simp [living]

theorem living_congr (h : ∀ i, (s'.processes i).state.dead = (s.processes i).state.dead) :
    living s' = living s := by
  ext i
  rw [mem_living, mem_living, h]

theorem living_card_le (s : State) : (living s).card ≤ 64 := by
  have h := card_le_univ (living s)
  rwa [Fintype.card_fin] at h

theorem IdentityRight.congr (h : IdentityRight s)
    (hdead : ∀ i, (s'.processes i).state.dead = (s.processes i).state.dead)
    (hused : ∀ i, (s'.processes i).state ≠ .unused → (s.processes i).state ≠ .unused)
    (hpid : ∀ i, (s'.processes i).pid = (s.processes i).pid)
    (hcount : s'.processCount = s.processCount) : IdentityRight s' where
  pids i j hij hi hj := by
    rw [hpid, hpid]
    exact h.pids i j hij (hused i hi) (hused j hj)
  zero i hi hi' := by
    rw [hpid]
    exact h.zero i hi (hused i hi')
  count := by
    rw [hcount, living_congr hdead, h.count]

theorem Keeps.dead_eq (h : Keeps s s') (i : Slot) :
    (s'.processes i).state.dead = (s.processes i).state.dead := by
  cases hd : (s.processes i).state.dead with
  | true => rw [h.dead i hd, hd]
  | false => exact h.alive i hd

theorem Keeps.used (h : Keeps s s') (hi : (s'.processes i).state ≠ .unused) :
    (s.processes i).state ≠ .unused := by
  intro hu
  rw [h.dead i (by rw [hu]; rfl)] at hi
  exact hi hu

theorem IdentityRight.keeps (h : IdentityRight s) (hk : Keeps s s') : IdentityRight s' :=
  h.congr hk.dead_eq (fun _ hi => hk.used hi) hk.pid hk.processCount

theorem IdentityRight.goToExit (h : IdentityRight s)
    (hrun : (s.processes s.current).state = .running) (code : Int) :
    IdentityRight (goToExit s code) := by
  have hself : (Sched.goToExit s code).processes s.current =
      { s.processes s.current with state := .zombie, exitCode := code } := by
    simp only [Sched.goToExit, modify_self]
  have hpid : ∀ i, ((Sched.goToExit s code).processes i).pid = (s.processes i).pid := fun i => by
    by_cases hi : i = s.current
    · rw [hi, hself]
    · rw [goToExit_other code hi]
  have hused : ∀ i, ((Sched.goToExit s code).processes i).state ≠ .unused →
      (s.processes i).state ≠ .unused := fun i hi => by
    by_cases hic : i = s.current
    · rw [hic, hrun]
      decide
    · rwa [goToExit_other code hic] at hi
  have hliving : living (Sched.goToExit s code) = (living s).erase s.current := by
    ext i
    rw [mem_living, mem_erase, mem_living]
    by_cases hi : i = s.current
    · rw [hi, hself]
      simp [ProcState.dead]
    · rw [goToExit_other code hi]
      simp [hi]
  have hmem : s.current ∈ living s := by
    rw [mem_living, hrun]
    rfl
  have hpos : 0 < (living s).card := card_pos.mpr ⟨_, hmem⟩
  have hle := living_card_le s
  refine ⟨fun i j hij hi hj => ?_, fun i hi hi' => ?_, ?_⟩
  · rw [hpid, hpid]
    exact h.pids i j hij (hused i hi) (hused j hj)
  · rw [hpid]
    exact h.zero i hi (hused i hi')
  · have hcount : (Sched.goToExit s code).processCount =
      (s.processCount + 2 ^ 32 - 1) % 2 ^ 32 := rfl
    rw [hcount, hliving, card_erase_of_mem hmem, h.count]
    omega

/-- A new process gets a pid of its own. -/
theorem IdentityRight.creation {got : Option Nat} {space : Nat}
    (h : IdentityRight s) (hnext : 1 ≤ s.nextPid)
    (hfree : ∀ i, (s.processes i).state ≠ .unused → (s.processes i).pid ≠ s.nextPid)
    (hc : Creation s got space o) : IdentityRight o.state := by
  cases hc with
  | none => exact h
  | undone p s' freed hp hf hstate hfreed =>
    have hunused := findUnused_some hp
    have hother := hf.only.other
    have hne : ∀ {i : Slot}, (s'.processes i).state ≠ .unused → i ≠ p := by
      rintro i hi rfl
      exact hi hstate
    refine ⟨fun i j hij hi hj => ?_, fun i hi hi' => ?_, ?_⟩
    · have hi' := hne hi
      have hj' := hne hj
      rw [hother i hi'] at hi ⊢
      rw [hother j hj'] at hj ⊢
      exact h.pids i j hij hi hj
    · have hip := hne hi'
      rw [hother i hip] at hi' ⊢
      exact h.zero i hi hi'
    · show s'.processCount = (living s').card
      rw [hf.processCount, h.count, living_congr]
      intro i
      by_cases hip : i = p
      · rw [hip, hstate, hunused]
      · rw [hother i hip]
  | made p s' hp hf hstate hspace hgot =>
    have hunused := findUnused_some hp
    -- only the link of another slot may differ from the state before
    have hview : ∀ i, i ≠ p → (enroll s' p).view i = s.view i := fun i hi => by
      have henroll : (enroll s' p).view = (enqueueReady s' p).view := rfl
      rw [henroll, enqueueReady_view, State.view, State.view, hf.only.other i hi]
    have hnew : (enroll s' p).view p = s'.view p := by
      have henroll : (enroll s' p).view = (enqueueReady s' p).view := rfl
      rw [henroll, enqueueReady_view]
    have hpid : ∀ i, i ≠ p → ((enroll s' p).processes i).pid = (s.processes i).pid := fun i hi => by
      rw [← view_pid, hview i hi, view_pid]
    have hpidp : ((enroll s' p).processes p).pid = s.nextPid := by
      rw [← view_pid, hnew, view_pid, hf.pid]
    have hst : ∀ i, i ≠ p → ((enroll s' p).processes i).state = (s.processes i).state :=
      fun i hi => by rw [← view_state, hview i hi, view_state]
    have hstp : ((enroll s' p).processes p).state = .ready := by
      rw [← view_state, hnew, view_state, hstate]
    have hliving : living (enroll s' p) = insert p (living s) := by
      ext i
      rw [mem_living, mem_insert, mem_living]
      by_cases hi : i = p
      · rw [hi, hstp]
        simp [ProcState.dead]
      · rw [hst i hi]
        simp [hi]
    have hnot : p ∉ living s := by
      rw [mem_living, hunused]
      decide
    refine ⟨fun i j hij hi hj => ?_, fun i hi hi' => ?_, ?_⟩
    · by_cases hip : i = p
      · subst hip
        rw [hpidp, hpid j hij.symm]
        rw [hst j hij.symm] at hj
        exact (hfree j hj).symm
      · rw [hst i hip] at hi
        rw [hpid i hip]
        by_cases hjp : j = p
        · rw [hjp, hpidp]
          exact hfree i hi
        · rw [hst j hjp] at hj
          rw [hpid j hjp]
          exact h.pids i j hij hi hj
    · by_cases hip : i = p
      · rw [hip, hpidp]
        omega
      · rw [hst i hip] at hi'
        rw [hpid i hip]
        exact h.zero i hi hi'
    · have hcount : (enroll s' p).processCount = (s.processCount + 1) % 2 ^ 32 := by
        have hsame := (enqueueReady_sameRest s' p).processCount
        show ((enqueueReady s' p).processCount + 1) % 2 ^ 32 = _
        rw [hsame, hf.processCount]
      have hle := living_card_le s
      show (enroll s' p).processCount = (living (enroll s' p)).card
      rw [hcount, hliving, card_insert_of_notMem hnot, h.count]
      omega

theorem Step.nextPid_pos (h : Step s c o) (hpos : 1 ≤ s.nextPid) : 1 ≤ o.state.nextPid := by
  have hafter : 1 ≤ pidAfter s.nextPid := by
    unfold pidAfter
    split <;> omega
  cases h with
  | keeps hk hfreed hgot => rwa [hk.nextPid]
  | created hc hcr =>
    cases hcr with
    | none => exact hpos
    | undone p s' freed hp hf hstate hfreed => rwa [hf.nextPid]
    | made p s' hp hf hstate hspace hgot =>
      have hsame := (enqueueReady_sameRest s' p).nextPid
      show 1 ≤ (enqueueReady s' p).nextPid
      rwa [hsame, hf.nextPid]
  | refused hspace | replaced hspace => exact hpos
  | ended hcur hk hfreed => rwa [hk.nextPid]
  | killed hp hidle | reaped hp hcur => exact hpos

/-- **One call** keeps the pids apart and the count right. -/
theorem IdentityRight.run (h : IdentityRight s) (hsound : Sound s)
    (hpos : 1 ≤ s.nextPid) (hc : c.Counted s) : IdentityRight (c.run s) := by
  obtain ⟨hcareful, hfree, hmore⟩ := hc
  have hstep := hsound.step hcareful
  show IdentityRight (c.outcome s).state
  generalize c.outcome s = o at hstep ⊢
  cases hstep with
  | keeps hk hfreed hgot => exact h.keeps hk
  | created hc hcr => exact h.creation hpos (hfree hc) hcr
  | refused hspace => exact h
  | @replaced l hspace =>
    refine h.congr (fun i => ?_) (fun i hi => ?_) (fun i => ?_) rfl
    · rw [enterProgram_state]
    · rwa [enterProgram_state] at hi
    · exact modify_pid s s.current i (fun x => { x with
        cr3 := l.space, heapStart := l.heapStart, heapEnd := l.heapStart }) fun _ => rfl
  | ended hcur hk hfreed => exact (h.goToExit hmore _).keeps hk
  | @killed pid p hp hidle =>
    -- a zombie is killed once more
    have hz : (s.processes p).state = .zombie := hmore p hp
    have hst : ∀ i, ((s.modify p fun x => { x with state := .zombie, exitCode := -1 }).processes
        i).state = (s.processes i).state := fun i => by
      by_cases hi : i = p
      · rw [hi, modify_self, hz]
      · simp [State.modify, hi]
    refine h.congr (fun i => ?_) (fun i hi => ?_) (fun i => ?_) rfl
    · rw [hst]
    · rwa [hst] at hi
    · exact modify_pid s p i (fun x => { x with state := .zombie, exitCode := -1 }) fun _ => rfl
  | @reaped pid p hp hcur =>
    have hz := (waitTarget_some hp).2
    have hself : ((reap s p).processes p).state = .unused := by
      rw [reap, modify_self]
    have hother : ∀ i, i ≠ p → (reap s p).processes i = s.processes i := fun i hi =>
      Function.update_of_ne hi _ _
    refine h.congr (fun i => ?_) (fun i hi => ?_) (fun i => ?_) rfl
    · by_cases hi : i = p
      · rw [hi, hself, hz]
        rfl
      · rw [hother i hi]
    · by_cases hip : i = p
      · rw [hip, hz]
        decide
      · rwa [hother i hip] at hi
    · exact modify_pid s p i (fun x => { x with kstack := 0, cr3 := 0, state := .unused })
        fun _ => rfl

end Pids

theorem identity_schedInit {kstack : Nat} : IdentityRight (schedInit kstack) := by
  have hother : ∀ i, i ≠ idle → (schedInit kstack).processes i = zeroProcess := fun i hi => by
    simp [schedInit, hi]
  have hunused : ∀ i, ((schedInit kstack).processes i).state ≠ .unused → i = idle := fun i hi => by
    by_contra hne
    rw [hother i hne] at hi
    exact hi rfl
  refine ⟨fun i j hij hi hj => ?_, fun i hi hi' => ?_, ?_⟩
  · exact absurd ((hunused i hi).trans (hunused j hj).symm) hij
  · exact absurd (hunused i hi') hi
  · rfl

/-- **Process identity**, after every run of counted calls. -/
theorem identity_right (kstack : Nat) (cs : List Call)
    (hcs : Throughout (fun s c => c.Counted s) kstack cs) : IdentityRight (after kstack cs) := by
  have hall := hcs.invariant (I := fun s => Sound s ∧ 1 ≤ s.nextPid ∧ IdentityRight s)
    (fun s c h hc => ⟨h.1.run hc.1, (h.1.step hc.1).nextPid_pos h.2.1, h.2.2.run h.1 h.2.1 hc⟩)
    ⟨sound_schedInit kstack, Nat.le_refl 1, identity_schedInit⟩
  exact hall.2.2

/-- Two threads are created and the first one ends. -/
theorem identity_right_twoThreads : IdentityRight (after 4096
      [.createKthread 8192, .createKthread 8192, .doSwitch, .doSwitch, .exit 0]) :=
  identity_right 4096 _ ⟨⟨trivial, fun _ => by decide +kernel, trivial⟩,
    ⟨trivial, fun _ => (by decide +kernel : ∀ i,
      ((after 4096 [.createKthread 8192]).processes i).state
      ≠ .unused → ((after 4096 [.createKthread 8192]).processes i).pid ≠
        (after 4096 [.createKthread 8192]).nextPid), trivial⟩,
    ⟨trivial, nofun, trivial⟩, ⟨trivial, nofun, trivial⟩,
    ⟨(by decide +kernel : (after 4096 [.createKthread 8192, .createKthread 8192, .doSwitch,
        .doSwitch]).current ≠ idle), nofun,
      (by decide +kernel : ((after 4096 [.createKthread 8192, .createKthread 8192, .doSwitch,
        .doSwitch]).processes (after 4096 [.createKthread 8192, .createKthread 8192, .doSwitch,
        .doSwitch]).current).state = .running)⟩, trivial⟩

/-- A process that is killed goes on being counted. -/
theorem killed_not_identityRight : ¬ IdentityRight (after 4096 [.createKthread 8192, .kill 1]) := by
  intro h
  have hcount := h.count
  revert hcount
  decide +kernel

end Utms7.Sched
