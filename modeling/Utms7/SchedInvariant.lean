import Mathlib.Data.List.TakeWhile
import Utms7.SchedQueues

/-!
# The queues and the states of the slots

`Inv` ties the two queues to the states of the slots: a process on the ready queue
is ready and one on the sleep queue sleeps or has been made ready by an interrupt.
The one exception is the entry that `sched_init` gives the idle process: it stands
at the head of the ready queue until the first switch.

Where no interrupt makes a process ready, the converse holds too.  `Inv full` has
it for a proposition `full` that is chosen for the run.
-/

namespace Utms7.Sched

open Function List State FifoLog

/-- The entry that `sched_init` gives the idle process. -/
structure BootEntry (s : State) (rq : List Slot) (i : Slot) : Prop where
  idle : i = Sched.idle
  current : s.current = Sched.idle
  pid : (s.processes Sched.idle).pid = 0
  head : rq.head? = some Sched.idle

/-- The queues and the states of the slots. -/
structure Inv (full : Prop) (s : State) (rq sq : List Slot) : Prop where
  linked : Linked s rq sq
  sorted : sq.Pairwise fun i j => (s.processes i).sleepUntil ≤ (s.processes j).sleepUntil
  inReady : ∀ i ∈ rq, (s.processes i).state = .ready ∨ BootEntry s rq i
  inSleep : ∀ i ∈ sq, i ≠ idle ∧
    ((s.processes i).state = .sleeping ∨ (s.processes i).state = .ready)
  log : FifoLog.replay [] s.log = some rq
  ready_mem : full → ∀ i, i ≠ idle → (s.processes i).state = .ready → i ∈ rq
  sleeping_mem : full → ∀ i, (s.processes i).state = .sleeping → i ∈ sq

/-- The current process runs, or has been killed. -/
def Settled (s : State) : Prop :=
  (s.processes s.current).state = .running ∨ (s.processes s.current).state = .zombie

/-- Two states that differ in one slot, the counters and the flags. -/
structure OnlySlot (p : Slot) (s s' : State) : Prop where
  other : ∀ i, i ≠ p → s'.processes i = s.processes i
  current : s'.current = s.current
  readyQueue : s'.readyQueue = s.readyQueue
  readyQueueTail : s'.readyQueueTail = s.readyQueueTail
  sleepQueue : s'.sleepQueue = s.sleepQueue
  log : s'.log = s.log

variable {p : Slot}

namespace OnlySlot

variable {s s' s'' : State}

theorem refl (p : Slot) (s : State) : OnlySlot p s s := ⟨fun _ _ => rfl, rfl, rfl, rfl, rfl, rfl⟩

theorem trans (h : OnlySlot p s s') (h' : OnlySlot p s' s'') : OnlySlot p s s'' :=
  ⟨fun i hi => (h'.other i hi).trans (h.other i hi), h'.current.trans h.current,
    h'.readyQueue.trans h.readyQueue, h'.readyQueueTail.trans h.readyQueueTail,
    h'.sleepQueue.trans h.sleepQueue, h'.log.trans h.log⟩

theorem modify (h : OnlySlot p s s') (f : Process → Process) : OnlySlot p s (s'.modify p f) :=
  h.trans ⟨fun _ hi => update_of_ne hi _ _, rfl, rfl, rfl, rfl, rfl⟩

theorem linked {rq sq : List Slot} (h : OnlySlot p s s') (hl : Linked s rq sq)
    (hp : p ∉ rq ++ sq) : Linked s' rq sq := by
  refine hl.congr (fun i hi => ?_) h.readyQueue h.sleepQueue h.readyQueueTail
  rw [link, link, h.other i (ne_of_mem_of_not_mem hi hp)]

end OnlySlot

namespace Inv

variable {full : Prop} {s s' : State} {rq sq : List Slot} {i : Slot}

section

variable (h : Inv full s rq sq)
include h

/-- Processes that neither wait to run nor sleep are on no queue. -/
theorem not_mem (hr : (s.processes p).state ≠ .ready) (hs : (s.processes p).state ≠ .sleeping)
    (hp : p ≠ s.current ∨ p ≠ idle) : p ∉ rq ++ sq := by
  intro hmem
  rcases mem_append.mp hmem with hmem | hmem
  · rcases h.inReady p hmem with hready | hboot
    · exact hr hready
    · exact hp.elim (fun hc => hc (hboot.idle.trans hboot.current.symm)) fun hi => hi hboot.idle
  · exact (h.inSleep p hmem).2.elim hs hr

/-- Whatever happens to the other fields. -/
theorem congr (hlink : s'.link = s.link)
    (hstate : ∀ i, (s'.processes i).state = (s.processes i).state)
    (hsleep : ∀ i, (s'.processes i).sleepUntil = (s.processes i).sleepUntil)
    (hpid : ∀ i, (s'.processes i).pid = (s.processes i).pid) (hcurrent : s'.current = s.current)
    (hrq : s'.readyQueue = s.readyQueue) (hsq : s'.sleepQueue = s.sleepQueue)
    (htail : s'.readyQueueTail = s.readyQueueTail) (hlog : s'.log = s.log) : Inv full s' rq sq where
  linked := h.linked.congr (fun i _ => congrFun hlink i) hrq hsq htail
  sorted := by
    simp only [hsleep]
    exact h.sorted
  inReady i hi := by
    rw [hstate]
    refine (h.inReady i hi).imp_right fun hb => ⟨hb.idle, hcurrent.trans hb.current, ?_, hb.head⟩
    rw [hpid]
    exact hb.pid
  inSleep i hi := by
    rw [hstate]
    exact h.inSleep i hi
  log := hlog ▸ h.log
  ready_mem hf i hi := by
    rw [hstate]
    exact h.ready_mem hf i hi
  sleeping_mem hf i := by
    rw [hstate]
    exact h.sleeping_mem hf i

/-- A slot is changed that is on no queue, or only in the boot entry. -/
theorem outside (ho : OnlySlot p s s') (hl : Linked s' rq sq) (hsq : p ∉ sq)
    (hrq : p ∈ rq → (s.processes p).state ≠ .ready ∧ (s'.processes p).pid = (s.processes p).pid)
    (hr : (s'.processes p).state ≠ .ready) (hs : (s'.processes p).state ≠ .sleeping) :
    Inv full s' rq sq := by
  have hin : ∀ i ∈ sq, s'.processes i = s.processes i := fun i hi =>
    ho.other i (ne_of_mem_of_not_mem hi hsq)
  refine ⟨hl, ?_, fun i hi => ?_, fun i hi => ?_, ho.log ▸ h.log, fun hf i hi hi' => ?_,
    fun hf i hi => ?_⟩
  · refine h.sorted.imp_of_mem fun {i j} hi hj hle => ?_
    rwa [hin i hi, hin j hj]
  · rcases h.inReady i hi with hready | hb
    · left
      rw [ho.other i]
      · exact hready
      · rintro rfl
        exact (hrq hi).1 hready
    · have hpid : (s'.processes i).pid = (s.processes i).pid := by
        by_cases hip : i = p
        · rw [hip] at hi ⊢
          exact (hrq hi).2
        · rw [ho.other i hip]
      rw [hb.idle] at hpid
      exact .inr ⟨hb.idle, ho.current.trans hb.current, hpid.trans hb.pid, hb.head⟩
  · rw [hin i hi]
    exact h.inSleep i hi
  · have hip : i ≠ p := by
      rintro rfl
      exact hr hi'
    rw [ho.other i hip] at hi'
    exact h.ready_mem hf i hi hi'
  · have hip : i ≠ p := by
      rintro rfl
      exact hs hi
    rw [ho.other i hip] at hi
    exact h.sleeping_mem hf i hi

theorem onlySlot (ho : OnlySlot p s s') (hp : p ∉ rq ++ sq) (hr : (s'.processes p).state ≠ .ready)
    (hs : (s'.processes p).state ≠ .sleeping) : Inv full s' rq sq :=
  h.outside ho (ho.linked h.linked hp) (fun hmem => hp (mem_append_right _ hmem))
    (fun hmem => absurd (mem_append_left _ hmem) hp) hr hs

theorem enter (ho : OnlySlot p s s') (hp : p ∉ rq ++ sq) (hr : (s'.processes p).state = .ready) :
    Inv full (enqueueReady s' p) (rq ++ [p]) sq := by
  have hview : ∀ i, i ≠ p → (enqueueReady s' p).view i = s.view i := fun i hi => by
    rw [enqueueReady_view, view, view, ho.other i hi]
  have hready : ((enqueueReady s' p).processes p).state = .ready := by
    rw [← view_state, enqueueReady_view]
    exact hr
  have hin : ∀ i ∈ rq ++ sq, (enqueueReady s' p).view i = s.view i := fun i hi =>
    hview i (ne_of_mem_of_not_mem hi hp)
  have hnodup : (rq ++ [p]).Nodup :=
    (nodup_append.mp ((ho.linked h.linked hp).enqueueReady hp hr).nodup).1
  refine ⟨(ho.linked h.linked hp).enqueueReady hp hr, ?_, fun i hi => ?_, fun i hi => ?_, ?_,
    fun hf i hi hi' => ?_, fun hf i hi => ?_⟩
  · refine h.sorted.imp_of_mem fun {i j} hi hj hle => ?_
    rw [← view_sleepUntil, ← view_sleepUntil _ j, hin i (mem_append_right _ hi),
      hin j (mem_append_right _ hj)]
    exact hle
  · rcases mem_append.mp hi with hi | hi
    · rw [← view_state, hin i (mem_append_left _ hi)]
      refine (h.inReady i hi).imp_right fun hb => ⟨hb.idle, ?_, ?_, ?_⟩
      · rw [(enqueueReady_sameRest s' p).current, ho.current]
        exact hb.current
      · rw [← view_pid, ← hb.idle, hin i (mem_append_left _ hi), hb.idle]
        exact hb.pid
      · rw [head?_append, hb.head]
        rfl
    · obtain rfl := mem_singleton.mp hi
      exact .inl hready
  · rw [← view_state, hin i (mem_append_right _ hi)]
    exact h.inSleep i hi
  · rw [enqueueReady_log hr, ho.log, replay_append, h.log]
    exact replay_enter hnodup
  · by_cases hip : i = p
    · simp [hip]
    · rw [← view_state, hview i hip] at hi'
      exact mem_append_left _ (h.ready_mem hf i hi hi')
  · have hip : i ≠ p := by
      rintro rfl
      rw [hready] at hi
      cases hi
    rw [← view_state, hview i hip] at hi
    exact h.sleeping_mem hf i hi

/-- A process that neither waits to run nor sleeps changes its state, on no queue
or in the boot entry. -/
theorem setOut (f : Process → Process) (hr : (s.processes p).state ≠ .ready)
    (hs : (s.processes p).state ≠ .sleeping)
    (hnext : (f (s.processes p)).next = (s.processes p).next)
    (hpid : (f (s.processes p)).pid = (s.processes p).pid)
    (hr' : (f (s.processes p)).state ≠ .ready) (hs' : (f (s.processes p)).state ≠ .sleeping) :
    Inv full (s.modify p f) rq sq := by
  have hself : (s.modify p f).processes p = f (s.processes p) := update_self _ _ _
  have hsq : p ∉ sq := fun hmem => (h.inSleep p hmem).2.elim hs hr
  exact h.outside ((OnlySlot.refl p s).modify f) (h.linked.modify hnext) hsq
    (fun _ => ⟨hr, by rw [hself, hpid]⟩) (hself ▸ hr') (hself ▸ hs')

/-! ## The switch -/

theorem not_mem_again (hne : s.again ≠ []) : s.current ∉ rq ++ sq := by
  obtain ⟨c, hc⟩ := exists_mem_of_ne_nil _ hne
  obtain ⟨-, hrun, hpid⟩ := mem_again.mp hc
  intro hmem
  rcases mem_append.mp hmem with hmem | hmem
  · rcases h.inReady _ hmem with hready | hb
    · rw [hrun] at hready
      cases hready
    · rw [hb.current] at hpid
      exact hpid hb.pid
  · rcases (h.inSleep _ hmem).2 with hst | hst
    · rw [hrun] at hst
      cases hst
    · rw [hrun] at hst
      cases hst

theorem switched : Switched s rq sq (schedDoSwitch s) :=
  h.linked.schedDoSwitch h.not_mem_again

theorem queue_nodup : (s.queue rq sq).Nodup := by
  have hn := nodup_append.mp h.linked.nodup
  have hwakes : (rq ++ s.wakes sq).Nodup :=
    nodup_append.mpr ⟨hn.1, hn.2.1.filter _, fun a ha b hb =>
      hn.2.2 a ha b (mem_of_mem_filter hb)⟩
  refine nodup_append.mpr ⟨hwakes, ?_, fun a ha b hb => ?_⟩
  · unfold again
    split <;> simp
  · rintro rfl
    obtain ⟨rfl, -⟩ := mem_again.mp hb
    refine h.not_mem_again (ne_nil_of_mem hb) ?_
    rcases mem_append.mp ha with ha | ha
    · exact mem_append_left _ ha
    · exact mem_append_right _ (mem_of_mem_filter ha)

/-- Where the queue is not empty, the process that is chosen is its first. -/
theorem chosen_ne (hi : i ∈ (s.queue rq sq).tail) : i ≠ s.chosen rq sq := by
  have hn := h.queue_nodup
  unfold chosen
  cases hq : s.queue rq sq with
  | nil =>
    rw [hq] at hi
    exact absurd hi not_mem_nil
  | cons a as =>
    rw [hq] at hi hn
    rintro rfl
    exact (nodup_cons.mp hn).1 hi

end

theorem mem_tail_of_ne_chosen (hi : i ∈ s.queue rq sq) (hne : i ≠ s.chosen rq sq) :
    i ∈ (s.queue rq sq).tail := by
  unfold chosen at hne
  cases hq : s.queue rq sq with
  | nil =>
    rw [hq] at hi
    exact absurd hi not_mem_nil
  | cons a as =>
    rw [hq] at hi hne
    exact (mem_cons.mp hi).resolve_left hne

section

variable (h : Inv full s rq sq)
include h

/-- A process that goes on sleeping is not chosen, and nothing happens to it. -/
theorem stays_lined (hi : i ∈ s.stays sq) : i ≠ s.chosen rq sq ∧ s.lined sq i = s.view i := by
  obtain ⟨hmem, hdue⟩ := mem_filter.mp hi
  have hwake : i ∉ s.wakes sq := by
    intro hw
    rw [(mem_filter.mp hw).2] at hdue
    cases hdue
  have hagain : i ∉ s.again := by
    intro ha
    obtain ⟨rfl, -⟩ := mem_again.mp ha
    exact h.not_mem_again (ne_nil_of_mem ha) (mem_append_right _ hmem)
  constructor
  · intro heq
    cases hq : s.queue rq sq with
    | nil =>
      rw [chosen, hq] at heq
      exact (h.inSleep i hmem).1 heq
    | cons a as =>
      rw [chosen, hq] at heq
      have ha : i ∈ s.queue rq sq := by
        rw [hq, show i = a from heq]
        exact mem_cons_self
      rcases mem_append.mp ha with ha | ha
      · rcases mem_append.mp ha with ha | ha
        · exact (nodup_append.mp h.linked.nodup).2.2 i ha i hmem rfl
        · exact hwake ha
      · exact hagain ha
  · rw [lined, if_neg hagain, woken_not_mem hwake]

theorem queue_lined (hi : i ∈ s.queue rq sq) :
    (s.lined sq i).state = .ready ∨ BootEntry s rq i := by
  unfold lined woken
  split
  · exact .inl rfl
  split
  · exact .inl rfl
  · rename_i hagain hwakes
    refine h.inReady i ?_
    rcases mem_append.mp hi with hi | hi
    · exact (mem_append.mp hi).resolve_right hwakes
    · exact absurd hi hagain

/-- **`sched_do_switch`** keeps the queues in order, and the process it chooses
runs. -/
theorem schedDoSwitch :
    Inv full (schedDoSwitch s) (s.queue rq sq).tail (s.stays sq) ∧
      ((schedDoSwitch s).processes (schedDoSwitch s).current).state = .running := by
  have hsw := h.switched
  have hchosen : ((Sched.schedDoSwitch s).processes (s.chosen rq sq)).state = .running := by
    obtain ⟨t, ht⟩ := hsw.next
    rw [← view_state, ht]
  refine ⟨⟨hsw.linked, ?_, fun i hi => ?_, fun i hi => ?_, ?_, fun hf i hi hi' => ?_,
    fun hf i hi => ?_⟩, by rw [hsw.current]; exact hchosen⟩
  · have hsub : List.Sublist (s.stays sq) sq := filter_sublist
    refine (h.sorted.sublist hsub).imp_of_mem fun {i j} hi hj hle => ?_
    obtain ⟨hi, hi'⟩ := h.stays_lined hi
    obtain ⟨hj, hj'⟩ := h.stays_lined hj
    rw [← view_sleepUntil, ← view_sleepUntil _ j, hsw.other i hi, hsw.other j hj, hi', hj']
    exact hle
  · have hne := h.chosen_ne hi
    left
    rw [← view_state, hsw.other i hne]
    rcases h.queue_lined (mem_of_mem_tail hi) with hready | hb
    · exact hready
    · -- the boot entry is chosen
      refine absurd ?_ hne
      rw [chosen, queue, append_assoc, head?_append, hb.head]
      exact hb.idle
  · obtain ⟨hne, hl⟩ := h.stays_lined hi
    rw [← view_state, hsw.other i hne, hl]
    exact h.inSleep i (mem_of_mem_filter hi)
  · have hn := h.queue_nodup
    have henter : replay [] (s.log ++ (s.wakes sq ++ s.again).map .enter) =
        some (s.queue rq sq) := by
      rw [replay_append, h.log, Option.bind_some, replay_enter]
      · rw [queue, append_assoc]
      · rwa [← append_assoc]
    rw [hsw.log, replay_append, henter, chosen]
    cases s.queue rq sq with
    | nil => rfl
    | cons a as => simp [replay]
  · have hne : i ≠ s.chosen rq sq := by
      rintro rfl
      rw [hchosen] at hi'
      cases hi'
    refine mem_tail_of_ne_chosen ?_ hne
    rw [← view_state, hsw.other i hne] at hi'
    unfold lined woken at hi'
    split at hi'
    · exact mem_append_right _ ‹_›
    · split at hi'
      · exact mem_append_left _ (mem_append_right _ ‹_›)
      · exact mem_append_left _ (mem_append_left _ (h.ready_mem hf i hi hi'))
  · have hne : i ≠ s.chosen rq sq := by
      rintro rfl
      rw [hchosen] at hi
      cases hi
    rw [← view_state, hsw.other i hne] at hi
    unfold lined woken at hi
    split at hi
    · cases hi
    split at hi
    · cases hi
    · rename_i hwakes
      have hmem := h.sleeping_mem hf i hi
      refine mem_filter.mpr ⟨hmem, ?_⟩
      rw [Bool.not_eq_true']
      exact Bool.eq_false_iff.mpr fun hdue => hwakes (mem_filter.mpr ⟨hmem, hdue⟩)

/-! ## Sleeping and waking -/

/-- Of the processes on the sleep queue, those behind the place that
`sched_sleep` finds wake later. -/
theorem sleepers_later {t : Nat} (hi : i ∈ sq.dropWhile (s.due t)) :
    t < (s.processes i).sleepUntil := by
  have hsorted := h.sorted.sublist (dropWhile_sublist (s.due t))
  cases hd : sq.dropWhile (s.due t) with
  | nil =>
    rw [hd] at hi
    exact absurd hi not_mem_nil
  | cons a as =>
    have hne : sq.dropWhile (s.due t) ≠ [] := by
      rw [hd]
      exact cons_ne_nil _ _
    have ha : t < (s.processes a).sleepUntil := by
      have hhead := head_dropWhile_not (s.due t) hne
      simp only [hd] at hhead
      exact Nat.lt_of_not_le (of_decide_eq_false hhead)
    rw [hd] at hi hsorted
    rcases mem_cons.mp hi with rfl | hi
    · exact ha
    · exact Nat.lt_of_lt_of_le ha (rel_of_pairwise_cons hsorted hi)

theorem goToSleep (hset : Settled s) (hidle : s.current ≠ idle) (ms : Nat) :
    ∃ sq', Inv full (goToSleep s ms) rq sq' := by
  have hr : (s.processes s.current).state ≠ .ready := by
    rcases hset with hst | hst <;> rw [hst] <;> decide
  have hs : (s.processes s.current).state ≠ .sleeping := by
    rcases hset with hst | hst <;> rw [hst] <;> decide
  have hc := h.not_mem hr hs (.inr hidle)
  obtain ⟨hlinked, hview, hsame, hlog⟩ := h.linked.goToSleep hc ms
  have hself : (Sched.goToSleep s ms).view s.current =
      { s.view s.current with state := .sleeping, sleepUntil := wakeTime s ms } := by
    rw [hview, update_self]
  have hother : ∀ i, i ≠ s.current → (Sched.goToSleep s ms).view i = s.view i := fun i hi => by
    rw [hview, update_of_ne hi]
  have hin : ∀ i ∈ rq ++ sq, (Sched.goToSleep s ms).view i = s.view i := fun i hi =>
    hother i (ne_of_mem_of_not_mem hi hc)
  have hmem : ∀ i, i ∈ sq.takeWhile (s.due (wakeTime s ms)) ++
      s.current :: sq.dropWhile (s.due (wakeTime s ms)) ↔ i = s.current ∨ i ∈ sq := fun i => by
    have hsplit := congrArg (i ∈ ·) (@takeWhile_append_dropWhile _ (s.due (wakeTime s ms)) sq)
    simp only [mem_append, mem_cons] at hsplit ⊢
    tauto
  have hwake : ∀ i ∈ sq, ((Sched.goToSleep s ms).processes i).sleepUntil =
      (s.processes i).sleepUntil := fun i hi => by
    rw [← view_sleepUntil, hin i (mem_append_right _ hi), view_sleepUntil]
  refine ⟨_, hlinked, ?_, fun i hi => ?_, fun i hi => ?_, hlog ▸ h.log, fun hf i hi hi' => ?_,
    fun hf i hi => ?_⟩
  · have hnew : ((Sched.goToSleep s ms).processes s.current).sleepUntil = wakeTime s ms := by
      rw [← view_sleepUntil, hself]
    have hold : (sq.takeWhile (s.due (wakeTime s ms)) ++
        sq.dropWhile (s.due (wakeTime s ms))).Pairwise fun i j =>
          ((Sched.goToSleep s ms).processes i).sleepUntil ≤
            ((Sched.goToSleep s ms).processes j).sleepUntil := by
      rw [takeWhile_append_dropWhile]
      refine h.sorted.imp_of_mem fun {i j} hi hj hle => ?_
      rwa [hwake i hi, hwake j hj]
    obtain ⟨htake, hdrop, hcross⟩ := pairwise_append.mp hold
    refine pairwise_append.mpr ⟨htake, pairwise_cons.mpr ⟨fun j hj => ?_, hdrop⟩,
      fun i hi j hj => ?_⟩
    · rw [hnew, hwake j ((dropWhile_sublist _).subset hj)]
      exact Nat.le_of_lt (h.sleepers_later hj)
    · rcases mem_cons.mp hj with rfl | hj
      · rw [hnew, hwake i ((takeWhile_sublist _).subset hi)]
        have hdue : s.due (wakeTime s ms) i = true := mem_takeWhile_imp hi
        exact of_decide_eq_true hdue
      · exact hcross i hi j hj
  · rw [← view_state, hin i (mem_append_left _ hi)]
    refine (h.inReady i hi).imp_right fun hb => ?_
    exact absurd hb.current hidle
  · rcases (hmem i).mp hi with rfl | hi
    · refine ⟨hidle, .inl ?_⟩
      rw [← view_state, hself]
    · rw [← view_state, hin i (mem_append_right _ hi)]
      exact h.inSleep i hi
  · have hne : i ≠ s.current := by
      rintro rfl
      rw [← view_state, hself] at hi'
      cases hi'
    rw [← view_state, hother i hne] at hi'
    exact h.ready_mem hf i hi hi'
  · refine (hmem i).mpr ?_
    by_cases hne : i = s.current
    · exact .inl hne
    · rw [← view_state, hother i hne] at hi
      exact .inr (h.sleeping_mem hf i hi)

theorem wakeBlocked (hset : Settled s) (channel : Nat) (p : Slot) :
    ∃ rq', Inv full (wakeBlocked channel s p) rq' sq ∧ Settled (wakeBlocked channel s p) := by
  unfold Sched.wakeBlocked
  split
  · rename_i hb
    have hpc : p ≠ s.current := by
      rintro rfl
      rcases hset with hst | hst <;> rw [hst] at hb <;> exact absurd hb.1 (by decide)
    have hp : p ∉ rq ++ sq := h.not_mem (by rw [hb.1]; decide) (by rw [hb.1]; decide) (.inl hpc)
    let s1 := s.modify p fun x => { x with state := .ready, waitingFor := 0 }
    have ho : OnlySlot p s s1 := (OnlySlot.refl p s).modify _
    have hr : (s1.processes p).state = .ready := by
      simp [s1, State.modify]
    have hinv := h.enter ho hp hr
    refine ⟨_, hinv.congr rfl (fun _ => rfl) (fun _ => rfl) (fun _ => rfl) rfl rfl rfl rfl rfl, ?_⟩
    have hcur : (enqueueReady s1 p).current = s.current := (enqueueReady_sameRest s1 p).current
    have hview : (enqueueReady s1 p).view s.current = s.view s.current := by
      rw [enqueueReady_view, State.view, State.view, ho.other _ hpc.symm]
    simp only [Settled, ← view_state] at hset ⊢
    rw [← hview, ← hcur] at hset
    exact hset
  · exact ⟨rq, h, hset⟩

theorem schedWakeup (hset : Settled s) (channel : Nat) :
    ∃ rq', Inv full (schedWakeup s channel) rq' sq ∧ Settled (schedWakeup s channel) := by
  unfold Sched.schedWakeup
  generalize List.finRange 64 = slots
  induction slots generalizing s rq with
  | nil => exact ⟨rq, h, hset⟩
  | cons p slots ih =>
    obtain ⟨rq', h', hset'⟩ := h.wakeBlocked hset channel p
    exact ih h' hset'

/-- An interrupt does not wake the current process, and in a run where no
interrupt wakes anybody it changes no state. -/
theorem schedWakeIrq (hset : Settled s) (irq : Nat)
    (hcur : wokenByIrq irq (s.processes s.current) = false)
    (hnone : full → ∀ i, wokenByIrq irq (s.processes i) = false) :
    Inv full (schedWakeIrq s irq) rq sq ∧ Settled (schedWakeIrq s irq) := by
  have hkeep : ∀ i, wokenByIrq irq (s.processes i) = false →
      (Sched.schedWakeIrq s irq).processes i = s.processes i := fun i hi => by
    simp [Sched.schedWakeIrq, hi]
  have hwoken : ∀ i, wokenByIrq irq (s.processes i) = true →
      ((Sched.schedWakeIrq s irq).processes i).state = .ready := fun i hi => by
    simp [Sched.schedWakeIrq, hi]
  have hfields : ∀ i, (Sched.schedWakeIrq s irq).link i = s.link i ∧
      ((Sched.schedWakeIrq s irq).processes i).sleepUntil = (s.processes i).sleepUntil ∧
      ((Sched.schedWakeIrq s irq).processes i).pid = (s.processes i).pid := fun i => by
    simp only [link, Sched.schedWakeIrq]
    split <;> exact ⟨rfl, rfl, rfl⟩
  refine ⟨⟨h.linked.congr (fun i _ => (hfields i).1) rfl rfl rfl, ?_, fun i hi => ?_,
    fun i hi => ?_,
    h.log, fun hf i hi hi' => ?_, fun hf i hi => ?_⟩, ?_⟩
  · simp only [(hfields _).2.1]
    exact h.sorted
  · rcases h.inReady i hi with hready | hb
    · left
      rw [hkeep i]
      · exact hready
      · simp [wokenByIrq, hready]
    · exact .inr ⟨hb.idle, hb.current, (hfields _).2.2.trans hb.pid, hb.head⟩
  · obtain ⟨hne, hst⟩ := h.inSleep i hi
    refine ⟨hne, ?_⟩
    by_cases hw : wokenByIrq irq (s.processes i) = true
    · exact .inr (hwoken i hw)
    · rw [hkeep i (Bool.eq_false_iff.mpr hw)]
      exact hst
  · rw [hkeep i (hnone hf i)] at hi'
    exact h.ready_mem hf i hi hi'
  · rw [hkeep i (hnone hf i)] at hi
    exact h.sleeping_mem hf i hi
  · have hst := hkeep s.current hcur
    unfold Settled at hset ⊢
    rwa [show (Sched.schedWakeIrq s irq).current = s.current from rfl, hst]

end

end Inv

end Utms7.Sched
