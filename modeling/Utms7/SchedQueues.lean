import Mathlib.Data.Fintype.Card
import Utms7.LinkedList
import Utms7.Sched

/-!
# The queues of the scheduler as lists

`Linked s rq sq` says that the ready queue of `s` is the list `rq` and its sleep
queue the list `sq`.  Under it, what the functions that relink the slots do is
said of the lists: a process is appended, the first one is taken off, those that
are due are moved over, one is inserted before the later ones.

The links apart, a slot is described by its `view`.
-/

namespace Utms7.Sched

variable {i : Slot}

open LinkedList Function List State

/-- What a slot holds besides its link. -/
def State.view (s : State) (i : Slot) : Process := { s.processes i with next := none }

/-- The link of a slot. -/
def State.link (s : State) (i : Slot) : Option Slot := (s.processes i).next

section Fields

variable (s : State) (p i : Slot) (f : Process → Process) (q : Option Slot)

@[simp] theorem view_state : (s.view i).state = (s.processes i).state := rfl

@[simp] theorem view_sleepUntil : (s.view i).sleepUntil = (s.processes i).sleepUntil := rfl

@[simp] theorem view_pid : (s.view i).pid = (s.processes i).pid := rfl

@[simp] theorem view_cr3 : (s.view i).cr3 = (s.processes i).cr3 := rfl

/-- The view leaves out the links. -/
theorem view_modify :
    (s.modify p f).view = update s.view p { f (s.processes p) with next := none } := by
  funext j
  by_cases hj : j = p
  · subst hj
    simp [State.view, State.modify]
  · simp [State.view, State.modify, hj]

@[simp] theorem view_setNext : (s.setNext p q).view = s.view := by
  rw [setNext, view_modify]
  exact update_eq_self p s.view

@[simp] theorem link_setNext : (s.setNext p q).link = update s.link p q := by
  funext j
  by_cases hj : j = p
  · subst hj
    simp [State.link, State.setNext, State.modify]
  · simp [State.link, State.setNext, State.modify, hj]

theorem link_modify_of_next (h : (f (s.processes p)).next = (s.processes p).next) :
    (s.modify p f).link = s.link := by
  funext j
  by_cases hj : j = p
  · subst hj
    simpa [State.link, State.modify] using h
  · simp [State.link, State.modify, hj]

theorem link_modify_other {j : Slot} (h : j ≠ p) : (s.modify p f).link j = s.link j := by
  simp [State.link, State.modify, h]

@[simp] theorem link_setState {x : ProcState} : (s.setState p x).link = s.link :=
  link_modify_of_next s p _ rfl

theorem view_setState (x : ProcState) :
    (s.setState p x).view = update s.view p { s.view p with state := x } :=
  view_modify s p _

end Fields

/-- The ready queue is `rq` and the sleep queue is `sq`. -/
structure Linked (s : State) (rq sq : List Slot) : Prop where
  ready : Path s.link s.readyQueue rq none
  sleep : Path s.link s.sleepQueue sq none
  nodup : (rq ++ sq).Nodup
  tail : s.readyQueueTail = rq.getLast?

/-- The variables that the queue functions leave alone. -/
structure SameRest (s s' : State) : Prop where
  current : s'.current = s.current
  nextPid : s'.nextPid = s.nextPid
  processCount : s'.processCount = s.processCount
  pitTicks : s'.pitTicks = s.pitTicks
  cr3 : s'.cr3 = s.cr3

theorem SameRest.refl (s : State) : SameRest s s := ⟨rfl, rfl, rfl, rfl, rfl⟩

theorem SameRest.trans {s s' s'' : State} (h : SameRest s s') (h' : SameRest s' s'') :
    SameRest s s'' :=
  ⟨h'.current.trans h.current, h'.nextPid.trans h.nextPid, h'.processCount.trans h.processCount,
    h'.pitTicks.trans h.pitTicks, h'.cr3.trans h.cr3⟩

theorem sameRest_modify (s : State) (p : Slot) (f : Process → Process) :
    SameRest s (s.modify p f) := ⟨rfl, rfl, rfl, rfl, rfl⟩

namespace Linked

variable {s s' : State} {rq sq : List Slot} {p : Slot} {f : Process → Process}

/-- The lists are kept where the links of their members are. -/
theorem congr (h : Linked s rq sq) (hlink : ∀ i ∈ rq ++ sq, s'.link i = s.link i)
    (hr : s'.readyQueue = s.readyQueue) (hs : s'.sleepQueue = s.sleepQueue)
    (ht : s'.readyQueueTail = s.readyQueueTail) : Linked s' rq sq := by
  refine ⟨?_, ?_, h.nodup, ht.trans h.tail⟩
  · rw [hr]
    exact h.ready.congr fun i hi => hlink i (mem_append_left _ hi)
  · rw [hs]
    exact h.sleep.congr fun i hi => hlink i (mem_append_right _ hi)

theorem modify (h : Linked s rq sq)
    (hf : (f (s.processes p)).next = (s.processes p).next) : Linked (s.modify p f) rq sq := by
  refine h.congr (fun i _ => ?_) rfl rfl rfl
  rw [link_modify_of_next s p f hf]

/-- A process that is on no queue may change in any way. -/
theorem modify_outside (h : Linked s rq sq) (hp : p ∉ rq ++ sq) : Linked (s.modify p f) rq sq := by
  refine h.congr (fun i hi => ?_) rfl rfl rfl
  exact link_modify_other s p f (ne_of_mem_of_not_mem hi hp)

end Linked

/-! ## Appending and taking off -/

section Enqueue

variable {s : State} {rq sq : List Slot} {p : Slot}

section

variable (s : State) (p : Slot)

theorem enqueueReady_view : (enqueueReady s p).view = s.view := by
  unfold enqueueReady
  split
  · rfl
  have hset : (s.setNext p none).view = s.view := view_setNext s p none
  dsimp only
  split
  · exact hset
  · split
    · exact (view_setNext _ _ _).trans hset
    · exact hset

theorem enqueueReady_sameRest : SameRest s (enqueueReady s p) := by
  unfold enqueueReady
  split
  · exact .refl s
  · dsimp only
    split
    · exact ⟨rfl, rfl, rfl, rfl, rfl⟩
    · split <;> exact ⟨rfl, rfl, rfl, rfl, rfl⟩

theorem enqueueReady_sleepQueue : (enqueueReady s p).sleepQueue = s.sleepQueue := by
  unfold enqueueReady
  split
  · rfl
  · dsimp only
    split
    · rfl
    · split <;> rfl

end

theorem enqueueReady_log (hstate : (s.processes p).state = .ready) :
    (enqueueReady s p).log = s.log ++ [.enter p] := by
  unfold enqueueReady
  rw [if_neg (not_not.mpr hstate)]
  dsimp only
  split
  · rfl
  · split <;> rfl

/-- A process goes to the end of the ready queue. -/
theorem Linked.enqueueReady (h : Linked s rq sq) (hp : p ∉ rq ++ sq)
    (hstate : (s.processes p).state = .ready) : Linked (enqueueReady s p) (rq ++ [p]) sq := by
  have hpr : p ∉ rq := fun hmem => hp (mem_append_left _ hmem)
  have hps : p ∉ sq := fun hmem => hp (mem_append_right _ hmem)
  have hnodup : (rq ++ [p] ++ sq).Nodup := by
    rw [append_assoc, singleton_append, nodup_middle]
    exact nodup_cons.mpr ⟨hp, h.nodup⟩
  -- the sleep queue is not touched, whatever the links of `p` and of the tail
  have hsleep : ∀ {t : Slot} {x y : Option Slot}, t ∉ sq →
      Path (update (update s.link p x) t y) s.sleepQueue sq none := by
    intro t x y ht
    refine h.sleep.congr fun i hi => ?_
    rw [update_of_ne (ne_of_mem_of_not_mem hi ht), update_of_ne (ne_of_mem_of_not_mem hi hps)]
  rcases rq.eq_nil_or_concat with rfl | ⟨as, t, rfl⟩
  · have hnone : s.readyQueue = none := h.ready
    have heq : enqueueReady s p = { s.setNext p none with
        log := s.log ++ [.enter p], readyQueue := some p, readyQueueTail := some p } := by
      unfold enqueueReady
      rw [if_neg (not_not.mpr hstate)]
      simp only [State.setNext, State.modify, hnone]
    have hlink : (enqueueReady s p).link = update s.link p none := by
      rw [heq]
      exact link_setNext s p none
    refine ⟨?_, ?_, hnodup, by rw [heq]; rfl⟩
    · rw [hlink, heq]
      exact ⟨rfl, update_self ..⟩
    · rw [hlink, enqueueReady_sleepQueue]
      have hsame := @hsleep p none none hps
      rwa [update_idem] at hsame
  · rw [concat_eq_append] at *
    have htail : s.readyQueueTail = some t := by
      rw [h.tail, getLast?_append]
      rfl
    have htp : t ≠ p := by
      rintro rfl
      exact hpr (by simp)
    have hts : t ∉ sq := by
      have hdis := disjoint_of_nodup_append h.nodup
      exact fun hmem => hdis (by simp) hmem
    have htas : t ∉ as := by
      have hn := (nodup_append.mp h.nodup).1
      rw [nodup_append] at hn
      exact fun hmem => hn.2.2 t hmem t (by simp) rfl
    obtain ⟨r, hsome⟩ : ∃ r, s.readyQueue = some r := by
      rw [h.ready.head_eq]
      cases as with
      | nil => exact ⟨t, rfl⟩
      | cons a as => exact ⟨a, rfl⟩
    have heq : enqueueReady s p = { (s.setNext p none).setNext t (some p) with
        log := s.log ++ [.enter p], readyQueueTail := some p } := by
      unfold enqueueReady
      rw [if_neg (not_not.mpr hstate)]
      simp only [State.setNext, State.modify, hsome, htail]
    have hlink : (enqueueReady s p).link =
        update (update s.link p none) t (some p) := by
      rw [heq]
      exact (link_setNext (s.setNext p none) t (some p)).trans (by rw [link_setNext])
    refine ⟨?_, ?_, hnodup, ?_⟩
    · rw [hlink, show (enqueueReady s p).readyQueue = s.readyQueue by rw [heq]; rfl,
        append_assoc]
      refine h.ready.retail (fun a ha => ?_) ?_
      · rw [update_of_ne (ne_of_mem_of_not_mem ha htas),
          update_of_ne (ne_of_mem_of_not_mem (mem_append_left _ ha) hpr)]
      · rw [update_self]
        refine ⟨rfl, ?_⟩
        rw [update_of_ne htp.symm, update_self]
        exact rfl
    · rw [hlink, enqueueReady_sleepQueue]
      exact hsleep hts
    · rw [heq, getLast?_append]
      rfl

/-- The first process is taken off the ready queue. -/
theorem Linked.dequeueReady (h : Linked s (p :: rq) sq) :
    (dequeueReady s).1 = some p ∧ Linked (dequeueReady s).2 rq sq := by
  obtain ⟨hfirst, hrest⟩ := h.ready
  have heq : Sched.dequeueReady s = (some p, { s.setNext p none with
      readyQueue := (s.processes p).next
      readyQueueTail := if (s.processes p).next = none then none else s.readyQueueTail }) := by
    unfold Sched.dequeueReady
    rw [hfirst]
    rfl
  have hnodup : p ∉ rq ++ sq ∧ (rq ++ sq).Nodup := nodup_cons.mp h.nodup
  have hlink : ∀ i ∈ rq ++ sq, update s.link p none i = s.link i := fun i hi =>
    update_of_ne (ne_of_mem_of_not_mem hi hnodup.1) _ _
  rw [heq]
  refine ⟨rfl, ?_, ?_, hnodup.2, ?_⟩
  · refine (link_setNext s p none) ▸ ?_
    exact hrest.congr fun i hi => hlink i (mem_append_left _ hi)
  · refine (link_setNext s p none) ▸ ?_
    exact h.sleep.congr fun i hi => hlink i (mem_append_right _ hi)
  · have hhead : (s.processes p).next = rq.head? := hrest.head_eq
    cases rq with
    | nil =>
      rw [hhead]
      rfl
    | cons a as =>
      simp only [hhead, head?_cons, reduceCtorEq, if_false]
      rw [h.tail, getLast?_cons_cons]

end Enqueue

/-! ## The sleep queue -/

section Sleepers

variable {s : State} {rq sq as bs : List Slot} {w : Slot} {now : Nat}

section

variable (s : State) (prev sp : Option Slot)

theorem unlinkSleeper_view : (unlinkSleeper s prev sp).view = s.view := by
  unfold unlinkSleeper
  split
  · exact view_setNext _ _ _
  · rfl

theorem unlinkSleeper_sameRest : SameRest s (unlinkSleeper s prev sp) := by
  unfold unlinkSleeper
  split <;> exact ⟨rfl, rfl, rfl, rfl, rfl⟩

theorem unlinkSleeper_log : (unlinkSleeper s prev sp).log = s.log := by
  unfold unlinkSleeper
  split <;> rfl

end

theorem nodup_queues_middle :
    (rq ++ (as ++ w :: bs)).Nodup ↔ w ∉ rq ++ (as ++ bs) ∧ (rq ++ (as ++ bs)).Nodup := by
  rw [← append_assoc, nodup_middle, append_assoc, nodup_cons]

/-- A process is taken out of the sleep queue. -/
theorem Linked.unlinkSleeper (h : Linked s rq (as ++ w :: bs)) :
    Linked (unlinkSleeper s as.getLast? (s.link w)) rq (as ++ bs) := by
  have hnodup := (nodup_queues_middle.mp h.nodup).2
  rcases as.eq_nil_or_concat with rfl | ⟨as, t, rfl⟩
  · exact ⟨h.ready, h.sleep.2, hnodup, h.tail⟩
  rw [concat_eq_append] at *
  have hlast : (as ++ [t]).getLast? = some t := by simp
  rw [hlast]
  simp only [append_assoc] at *
  have ht := (nodup_queues_middle.mp hnodup).1
  have hlink : ∀ i ∈ rq ++ (as ++ bs), update s.link t (s.link w) i = s.link i :=
    fun i hi => update_of_ne (ne_of_mem_of_not_mem hi ht) _ _
  simp only [mem_append] at hlink
  refine ⟨?_, ?_, hnodup, h.tail⟩
  · refine (link_setNext s t (s.link w)) ▸ ?_
    exact h.ready.congr fun i hi => hlink i (.inl hi)
  · refine (link_setNext s t (s.link w)) ▸ ?_
    refine h.sleep.retail (fun i hi => hlink i (.inr (.inl hi))) ?_
    rw [update_self]
    exact h.sleep.behind.2.congr fun i hi => hlink i (.inr (.inr hi))

/-- The time of the process has come. -/
def State.due (s : State) (now : Nat) (i : Slot) : Bool := (s.processes i).sleepUntil ≤ now

/-- The slots after the processes of a list have been woken. -/
def State.woken (s : State) (ws : List Slot) (i : Slot) : Process :=
  if i ∈ ws then { s.view i with state := .ready, sleepUntil := 0 } else s.view i

theorem due_congr {s' : State} (h : s'.view i = s.view i) : s'.due now i = s.due now i := by
  rw [due, due, ← view_sleepUntil, h, view_sleepUntil]

theorem woken_not_mem {ws : List Slot} (h : i ∉ ws) : s.woken ws i = s.view i := if_neg h

theorem woken_cons {s' : State} (h : s'.view = s.woken [w]) (ws : List Slot) :
    s'.woken ws = s.woken (w :: ws) := by
  funext i
  simp only [woken, h, mem_cons, not_mem_nil]
  by_cases hw : i = w
  · simp [hw]
  · simp [hw]

/-- **The loop along the sleep queue.**  The processes that are due go to the end
of the ready queue, in the order of the sleep queue, and the others stay. -/
theorem Linked.wakeSleepers (h : Linked s rq (as ++ bs)) {n : Nat} (hn : bs.length < n) {s' : State}
    (hs' : wakeSleepers now n s as.getLast? bs.head? = s') :
    Linked s' (rq ++ bs.filter (s.due now)) (as ++ bs.filter fun i => !s.due now i) ∧
      s'.view = s.woken (bs.filter (s.due now)) ∧ SameRest s s' ∧
      s'.log = s.log ++ (bs.filter (s.due now)).map .enter := by
  induction bs generalizing s rq as n with
  | nil =>
    obtain ⟨n, rfl⟩ : ∃ k, n = k + 1 := ⟨n - 1, by simp at hn; omega⟩
    obtain rfl : s = s' := hs'
    simp only [filter_nil, append_nil, map_nil] at h ⊢
    exact ⟨h, by funext i; simp [State.woken], .refl s, trivial⟩
  | cons w bs ih =>
    obtain ⟨n, rfl⟩ : ∃ k, n = k + 1 := ⟨n - 1, by simp at hn; omega⟩
    have hn : bs.length < n := by simpa using hn
    have hhead : (s.processes w).next = bs.head? := h.sleep.behind.head_eq
    by_cases hdue : (s.processes w).sleepUntil ≤ now
    · have hw := (nodup_queues_middle.mp h.nodup).1
      -- `w` moves to the ready queue
      let s1 := Sched.unlinkSleeper s as.getLast? (s.link w)
      let s2 := s1.modify w fun x => { x with next := none, state := .ready, sleepUntil := 0 }
      have h2 : Linked s2 rq (as ++ bs) := h.unlinkSleeper.modify_outside hw
      have hstate : (s2.processes w).state = .ready := by
        simp [s2, State.modify]
      have hview2 : s2.view = s.woken [w] := by
        funext i
        have hv := unlinkSleeper_view s as.getLast? (s.link w)
        simp only [s2, view_modify, State.woken, mem_singleton]
        by_cases hi : i = w
        · subst hi
          rw [update_self, if_pos rfl, ← hv]
          rfl
        · rw [update_of_ne hi, if_neg hi, hv]
      have hsame2 : SameRest s s2 :=
        (unlinkSleeper_sameRest s as.getLast? (s.link w)).trans (sameRest_modify _ _ _)
      have hlog2 : s2.log = s.log := unlinkSleeper_log s as.getLast? (s.link w)
      have h3 : Linked (Sched.enqueueReady s2 w) (rq ++ [w]) (as ++ bs) :=
        h2.enqueueReady hw hstate
      have hview3 : (Sched.enqueueReady s2 w).view = s.woken [w] :=
        (enqueueReady_view s2 w).trans hview2
      have hrec := ih h3 hn (by
        rw [← hs', ← hhead]
        exact (if_pos hdue).symm)
      have hdues : ∀ i ∈ bs, (Sched.enqueueReady s2 w).due now i = s.due now i := fun i hi => by
        refine due_congr ((congrFun hview3 i).trans (woken_not_mem ?_))
        rw [mem_singleton]
        exact ne_of_mem_of_not_mem (mem_append_right _ (mem_append_right _ hi)) hw
      have hnot : ∀ i ∈ bs, (!(Sched.enqueueReady s2 w).due now i) = !s.due now i :=
        fun i hi => congrArg _ (hdues i hi)
      rw [filter_congr hdues, filter_congr hnot] at hrec
      obtain ⟨hlinked, hview, hsame, hlog⟩ := hrec
      have hw' : s.due now w = true := decide_eq_true hdue
      rw [filter_cons_of_pos hw', filter_cons_of_neg (by simp [hw'])]
      refine ⟨?_, ?_, ?_, ?_⟩
      · rwa [append_assoc] at hlinked
      · rw [hview, woken_cons hview3]
      · exact hsame2.trans ((enqueueReady_sameRest s2 w).trans hsame)
      · rw [hlog, enqueueReady_log hstate, hlog2, append_assoc]
        rfl
    · have hw' : s.due now w = false := decide_eq_false hdue
      have h' : Linked s rq (as ++ [w] ++ bs) := by
        rwa [append_assoc]
      have hrec := ih h' hn (by
        rw [← hs', ← hhead, getLast?_append]
        exact (if_neg hdue).symm)
      rw [filter_cons_of_neg (by simp [hw']), filter_cons_of_pos (by simp [hw'])]
      rwa [append_assoc] at hrec

/-- The search stops behind the processes that wake no later. -/
theorem sleepPosition_eq {t : Nat} {P : Slot → Bool} (hP : ∀ i ∈ bs, s.due t i = P i)
    (h : Path s.link bs.head? bs none) {n : Nat} (hn : bs.length < n) :
    sleepPosition s t n as.getLast? bs.head? = (as ++ bs.takeWhile P).getLast? := by
  induction bs generalizing as n with
  | nil =>
    obtain ⟨n, rfl⟩ : ∃ k, n = k + 1 := ⟨n - 1, by simp at hn; omega⟩
    simp [sleepPosition]
  | cons w bs ih =>
    obtain ⟨n, rfl⟩ : ∃ k, n = k + 1 := ⟨n - 1, by simp at hn; omega⟩
    have hn : bs.length < n := by simpa using hn
    have hhead : (s.processes w).next = bs.head? := h.2.head_eq
    rw [head?_cons, sleepPosition]
    by_cases hdue : (s.processes w).sleepUntil ≤ t
    · have hw : P w = true := (hP w mem_cons_self) ▸ decide_eq_true hdue
      have hrec := @ih (as ++ [w]) (fun i hi => hP i (mem_cons_of_mem _ hi)) (hhead ▸ h.2) n hn
      rw [if_pos hdue, hhead, takeWhile_cons_of_pos hw]
      simpa using hrec
    · have hw : ¬ P w = true := by
        rw [← hP w mem_cons_self]
        simpa [due] using hdue
      rw [if_neg hdue, takeWhile_cons_of_neg hw, append_nil]

section

variable (s : State) (c : Slot) (prev : Option Slot)

theorem linkSleeper_view : (linkSleeper s c prev).view = s.view := by
  unfold linkSleeper
  split
  · exact view_setNext _ _ _
  · rw [view_setNext, view_setNext]

theorem linkSleeper_sameRest : SameRest s (linkSleeper s c prev) := by
  unfold linkSleeper
  split <;> exact ⟨rfl, rfl, rfl, rfl, rfl⟩

theorem linkSleeper_log : (linkSleeper s c prev).log = s.log := by
  unfold linkSleeper
  split <;> rfl

end

/-- A process is inserted behind the processes `as` of the sleep queue. -/
theorem Linked.linkSleeper (h : Linked s rq (as ++ bs)) (hw : w ∉ rq ++ (as ++ bs)) :
    Linked (linkSleeper s w as.getLast?) rq (as ++ w :: bs) := by
  have hnodup := nodup_queues_middle.mpr ⟨hw, h.nodup⟩
  rcases as.eq_nil_or_concat with rfl | ⟨as, t, rfl⟩
  · have hlink : ∀ i ∈ rq ++ ([] ++ bs), update s.link w s.sleepQueue i = s.link i :=
      fun i hi => update_of_ne (ne_of_mem_of_not_mem hi hw) _ _
    refine ⟨?_, ?_, hnodup, h.tail⟩
    · refine (link_setNext s w s.sleepQueue) ▸ ?_
      exact h.ready.congr fun i hi => hlink i (mem_append_left _ hi)
    · refine (link_setNext s w s.sleepQueue) ▸ ⟨rfl, ?_⟩
      rw [update_self]
      exact h.sleep.congr fun i hi => hlink i (mem_append_right _ hi)
  · rw [concat_eq_append] at *
    have hlast : (as ++ [t]).getLast? = some t := by simp
    rw [hlast]
    simp only [append_assoc] at *
    have ht := (nodup_queues_middle.mp h.nodup).1
    have htw : t ≠ w := by
      rintro rfl
      exact hw (by simp)
    have hlink : ∀ i ∈ rq ++ (as ++ bs),
        update (update s.link w (s.link t)) t (some w) i = s.link i := by
      intro i hi
      have hiw : i ≠ w := by
        rintro rfl
        simp only [mem_append] at hw hi
        exact hw (by tauto)
      rw [update_of_ne (ne_of_mem_of_not_mem hi ht), update_of_ne hiw]
    simp only [mem_append] at hlink
    have hlinks : (linkSleeper s w (some t)).link =
        update (update s.link w (s.link t)) t (some w) := by
      rw [linkSleeper, link_setNext, link_setNext]
      rfl
    refine ⟨?_, ?_, hnodup, h.tail⟩
    · rw [hlinks]
      exact h.ready.congr fun i hi => hlink i (.inl hi)
    · rw [hlinks]
      refine h.sleep.retail (fun i hi => hlink i (.inr (.inl hi))) ?_
      rw [update_self]
      refine ⟨rfl, ?_⟩
      rw [update_of_ne htw.symm, update_self]
      exact h.sleep.behind.congr fun i hi => hlink i (.inr (.inr hi))

/-- The fuel of the loops suffices. -/
theorem Linked.length_lt (h : Linked s rq sq) : sq.length < rounds := by
  have hn : sq.Nodup := (nodup_append.mp h.nodup).2.1
  have hle := hn.length_le_card
  rw [Fintype.card_fin] at hle
  unfold rounds
  omega

/-- **`sched_sleep`** before its switch: the current process is inserted behind
those that wake no later. -/
theorem Linked.goToSleep (h : Linked s rq sq) (hc : s.current ∉ rq ++ sq) (ms : Nat) :
    Linked (goToSleep s ms) rq (sq.takeWhile (s.due (wakeTime s ms)) ++
        s.current :: sq.dropWhile (s.due (wakeTime s ms))) ∧
      (goToSleep s ms).view = update s.view s.current
        { s.view s.current with state := .sleeping, sleepUntil := wakeTime s ms } ∧
      SameRest s (goToSleep s ms) ∧ (goToSleep s ms).log = s.log := by
  let s1 := s.modify s.current fun x =>
    { x with state := .sleeping, sleepUntil := wakeTime s ms }
  have h1 : Linked s1 rq sq := h.modify rfl
  have hview1 : s1.view = update s.view s.current
      { s.view s.current with state := .sleeping, sleepUntil := wakeTime s ms } := view_modify _ _ _
  have hdue : ∀ i ∈ sq, s1.due (wakeTime s ms) i = s.due (wakeTime s ms) i := fun i hi => by
    refine due_congr ?_
    rw [hview1, update_of_ne (ne_of_mem_of_not_mem (mem_append_right _ hi) hc)]
  have hpos : sleepPosition s1 (wakeTime s ms) rounds none s1.sleepQueue =
      (sq.takeWhile (s.due (wakeTime s ms))).getLast? := by
    have hpath : Path s1.link sq.head? sq none := h1.sleep.head_eq ▸ h1.sleep
    rw [h1.sleep.head_eq]
    exact @sleepPosition_eq s1 [] sq _ _ hdue hpath _ h1.length_lt
  have hsplit : sq.takeWhile (s.due (wakeTime s ms)) ++ sq.dropWhile (s.due (wakeTime s ms)) = sq :=
    takeWhile_append_dropWhile
  have heq : Sched.goToSleep s ms = Sched.linkSleeper s1 s.current
      (sq.takeWhile (s.due (wakeTime s ms))).getLast? := by
    rw [← hpos]
    rfl
  rw [heq]
  refine ⟨Linked.linkSleeper (hsplit.symm ▸ h1) (hsplit.symm ▸ hc), ?_, ?_, ?_⟩
  · rw [linkSleeper_view, hview1]
  · exact (sameRest_modify _ _ _).trans (linkSleeper_sameRest _ _ _)
  · rw [linkSleeper_log]
    rfl

end Sleepers

/-! ## The switch -/

/-- The processes that a switch wakes. -/
def State.wakes (s : State) (sq : List Slot) : List Slot := sq.filter (s.due s.pitTicks)

/-- The processes that go on sleeping. -/
def State.stays (s : State) (sq : List Slot) : List Slot := sq.filter fun i => !s.due s.pitTicks i

/-- The current process, if a switch puts it back into the ready queue. -/
def State.again (s : State) : List Slot :=
  if (s.processes s.current).state = .running ∧ (s.processes s.current).pid ≠ 0 then [s.current]
  else []

/-- The ready queue from which a switch takes the next process. -/
def State.queue (s : State) (rq sq : List Slot) : List Slot := rq ++ s.wakes sq ++ s.again

/-- The process that a switch chooses. -/
def State.chosen (s : State) (rq sq : List Slot) : Slot := (s.queue rq sq).head?.getD idle

/-- The slots before the choice. -/
def State.lined (s : State) (sq : List Slot) (i : Slot) : Process :=
  if i ∈ s.again then { s.view i with state := .ready } else s.woken (s.wakes sq) i

/-- What `sched_do_switch` does. -/
structure Switched (s : State) (rq sq : List Slot) (s' : State) : Prop where
  linked : Linked s' (s.queue rq sq).tail (s.stays sq)
  current : s'.current = s.chosen rq sq
  log : s'.log = s.log ++ (s.wakes sq ++ s.again).map .enter ++ [.leave (s.chosen rq sq)]
  nextPid : s'.nextPid = s.nextPid
  processCount : s'.processCount = s.processCount
  pitTicks : s'.pitTicks = s.pitTicks
  cr3 : s'.cr3 = if s.chosen rq sq = s.current then s.cr3
    else if (s.view s.current).cr3 ≠ (s.view (s.chosen rq sq)).cr3 then
      (s.view (s.chosen rq sq)).cr3 else s.cr3
  other : ∀ i, i ≠ s.chosen rq sq → s'.view i = s.lined sq i
  next : ∃ t, s'.view (s.chosen rq sq) =
    { s.lined sq (s.chosen rq sq) with state := .running, ticksLeft := t }

section Switch

variable {s : State} {rq sq : List Slot}

theorem mem_again : i ∈ s.again ↔ i = s.current ∧
    (s.processes s.current).state = .running ∧ (s.processes s.current).pid ≠ 0 := by
  unfold again
  split
  · simp [*]
  · simp [*]

/-- Only the state and the waking time of a slot differ before the choice. -/
theorem lined_eq (s : State) (sq : List Slot) (i : Slot) :
    s.lined sq i = { s.view i with
      state := (s.lined sq i).state, sleepUntil := (s.lined sq i).sleepUntil } := by
  unfold lined woken
  split
  · rfl
  · split <;> rfl

theorem lined_cr3 (s : State) (sq : List Slot) (i : Slot) :
    (s.lined sq i).cr3 = (s.view i).cr3 := by
  rw [lined_eq]

theorem requeueCurrent_again (s : State) : requeueCurrent s =
      if s.again = [] then s else enqueueReady (s.setState s.current .ready) s.current := by
  unfold requeueCurrent again
  dsimp only
  split <;> simp

/-- A running process other than idle goes back to the end of the ready queue. -/
theorem Linked.requeueCurrent (h : Linked s rq sq) (hcur : s.again ≠ [] → s.current ∉ rq ++ sq) :
    Linked (requeueCurrent s) (rq ++ s.again) sq ∧
      (requeueCurrent s).view = (fun i =>
        if i ∈ s.again then { s.view i with state := .ready } else s.view i) ∧
      SameRest s (requeueCurrent s) ∧
      (requeueCurrent s).log = s.log ++ s.again.map .enter := by
  rw [requeueCurrent_again]
  by_cases hagain : s.again = []
  · rw [if_pos hagain, hagain]
    simp only [append_nil, not_mem_nil, if_false, map_nil]
    exact ⟨h, trivial, .refl s, trivial⟩
  have hone : s.again = [s.current] := by
    unfold State.again at hagain ⊢
    split
    · rfl
    · rename_i hnot
      rw [if_neg hnot] at hagain
      exact absurd rfl hagain
  have hstate : ((s.setState s.current .ready).processes s.current).state = .ready := by
    simp [State.setState, State.modify]
  have h1 : Linked (s.setState s.current .ready) rq sq := h.modify rfl
  rw [if_neg hagain, hone]
  refine ⟨h1.enqueueReady (hcur hagain) hstate, ?_, ?_, enqueueReady_log hstate⟩
  · rw [enqueueReady_view, view_setState]
    funext i
    by_cases hi : i = s.current
    · subst hi
      simp
    · simp [hi]
  · exact (sameRest_modify _ _ _).trans (enqueueReady_sameRest _ _)

/-- The current process is put back if and only if it was running before the
sleepers were woken. -/
theorem again_of_woken {s' : State} (hcur : s.again ≠ [] → s.current ∉ rq ++ sq)
    (hview : s'.view = s.woken (s.wakes sq)) (hcurrent : s'.current = s.current) :
    s'.again = s.again := by
  have hproc : (s'.view s.current) = s.woken (s.wakes sq) s.current := congrFun hview _
  by_cases hmem : s.current ∈ s.wakes sq
  · -- a process that wakes was not running, and is ready now
    have hnil : s.again = [] := by
      by_contra hne
      exact hcur hne (mem_append_right _ (mem_of_mem_filter hmem))
    rw [woken, if_pos hmem] at hproc
    have hready : (s'.processes s.current).state = .ready := by
      rw [← view_state, hproc]
    rw [hnil, again, hcurrent, hready]
    rfl
  · rw [woken_not_mem hmem] at hproc
    unfold again
    rw [hcurrent, ← view_state, ← view_pid, hproc]
    rfl

theorem dequeueReady_view (s : State) : (dequeueReady s).2.view = s.view := by
  unfold dequeueReady
  split
  · rfl
  · exact view_setNext _ _ _

theorem dequeueReady_sameRest (s : State) : SameRest s (dequeueReady s).2 := by
  unfold dequeueReady
  split <;> exact ⟨rfl, rfl, rfl, rfl, rfl⟩

theorem dequeueReady_log (s : State) : (dequeueReady s).2.log = s.log := by
  unfold dequeueReady
  split <;> rfl

/-- The first process of the ready queue runs next, or idle. -/
theorem Linked.dispatch (h : Linked s rq sq) {next : Slot} (hnext : next = rq.head?.getD idle) :
    Linked (dispatch s) rq.tail sq ∧ (dispatch s).current = next ∧
      (dispatch s).log = s.log ++ [.leave next] ∧
      (dispatch s).nextPid = s.nextPid ∧ (dispatch s).processCount = s.processCount ∧
      (dispatch s).pitTicks = s.pitTicks ∧
      (dispatch s).cr3 = (if next = s.current then s.cr3
        else if (s.view s.current).cr3 ≠ (s.view next).cr3 then (s.view next).cr3 else s.cr3) ∧
      (∀ i, i ≠ next → (dispatch s).view i = s.view i) ∧
      ∃ t, (dispatch s).view next = { s.view next with state := .running, ticksLeft := t } := by
  have hdeq : (Sched.dequeueReady s).1.getD idle = next ∧
      Linked (Sched.dequeueReady s).2 rq.tail sq := by
    cases rq with
    | nil =>
      have hnone : s.readyQueue = none := h.ready
      have heq : Sched.dequeueReady s = (none, s) := by
        rw [Sched.dequeueReady, hnone]
      rw [heq]
      exact ⟨hnext.symm, h⟩
    | cons p rq =>
      obtain ⟨hfirst, hrest⟩ := h.dequeueReady
      rw [hfirst]
      exact ⟨hnext.symm, hrest⟩
  have hview := dequeueReady_view s
  have hsame := dequeueReady_sameRest s
  have hlog := dequeueReady_log s
  unfold Sched.dispatch
  generalize Sched.dequeueReady s = d at *
  obtain ⟨hgetD, hlinked⟩ := hdeq
  obtain ⟨hcurrent, hpid, hcount, hticks, hcr3⟩ := hsame
  simp only [hcurrent, hgetD, ← hview]
  by_cases hself : next = s.current
  · rw [if_pos hself, if_pos hself]
    have hview' := view_setState d.2 next .running
    refine ⟨hlinked.congr (fun i _ => congrFun (link_setState d.2 next) i) rfl rfl rfl,
      hself.symm, congrArg (· ++ _) hlog, hpid, hcount, hticks, hcr3,
      fun i hi => ?_, (d.2.view next).ticksLeft, ?_⟩
    · exact (congrFun hview' i).trans (update_of_ne hi _ _)
    · exact (congrFun hview' next).trans (update_self _ _ _)
  · rw [if_neg hself, if_neg hself]
    have hview' := view_modify d.2 next fun x =>
      { x with state := .running, ticksLeft := timeSlice }
    have hother : ∀ i, i ≠ next → (d.2.modify next fun x =>
        { x with state := .running, ticksLeft := timeSlice }).view i = d.2.view i := fun i hi =>
      (congrFun hview' i).trans (update_of_ne hi _ _)
    have hthis : (d.2.modify next fun x =>
        { x with state := .running, ticksLeft := timeSlice }).view next =
          { d.2.view next with state := .running, ticksLeft := timeSlice } :=
      (congrFun hview' next).trans (update_self _ _ _)
    refine ⟨?_, rfl, congrArg (· ++ _) hlog, hpid, hcount, hticks, ?_, hother, timeSlice, hthis⟩
    · refine hlinked.congr (fun i _ => ?_) rfl rfl rfl
      exact congrFun (link_modify_of_next d.2 next
        (fun x => { x with state := .running, ticksLeft := timeSlice }) rfl) i
    · have hprev := congrArg Process.cr3 (hother s.current (Ne.symm hself))
      have hnew := congrArg Process.cr3 hthis
      have hold : s.cr3 = d.2.cr3 := hcr3.symm
      rw [hold, ← hprev, show (d.2.view next).cr3 = _ from hnew.symm]
      rfl

/-- **`sched_do_switch`**, on the lists. -/
theorem Linked.schedDoSwitch (h : Linked s rq sq) (hcur : s.again ≠ [] → s.current ∉ rq ++ sq) :
    Switched s rq sq (schedDoSwitch s) := by
  let s1 := Sched.wakeSleepers s.pitTicks rounds s none s.sleepQueue
  have hs1 : Sched.wakeSleepers s.pitTicks rounds s (([] : List Slot)).getLast? sq.head? = s1 := by
    rw [← h.sleep.head_eq]
    rfl
  obtain ⟨h1, hview1, hsame1, hlog1⟩ := @Linked.wakeSleepers s rq [] sq _ h _ h.length_lt s1 hs1
  have hagain : s1.again = s.again := again_of_woken hcur hview1 hsame1.current
  have hsub : ∀ i, i ∈ (rq ++ s.wakes sq) ++ s.stays sq → i ∈ rq ++ sq := by
    intro i hi
    simp only [wakes, stays, mem_append, mem_filter] at hi ⊢
    tauto
  obtain ⟨h2, hview2, hsame2, hlog2⟩ := h1.requeueCurrent fun hne => by
    rw [hsame1.current]
    exact fun hmem => hcur (hagain ▸ hne) (hsub _ hmem)
  rw [hagain] at h2 hlog2
  have hlined : (Sched.requeueCurrent s1).view = s.lined sq := by
    funext i
    rw [hview2, hagain, lined, hview1]
    by_cases hi : i ∈ s.again
    · -- the current process was not among the sleepers
      have hnot : i ∉ s.wakes sq := by
        intro hmem
        obtain rfl := (mem_again.mp hi).1
        exact hcur (ne_nil_of_mem hi) (mem_append_right _ (mem_of_mem_filter hmem))
      have hview : s.woken (s.wakes sq) i = s.view i := woken_not_mem hnot
      rw [← hview]
      rfl
    · simp only [hi]
      rfl
  have hrest := hsame1.trans hsame2
  obtain ⟨h3, hcurrent, hlog, hpid, hcount, hticks, hcr3, hother, t, hnext⟩ :=
    @Linked.dispatch (Sched.requeueCurrent s1) (s.queue rq sq) (s.stays sq) h2 _ rfl
  refine ⟨h3, hcurrent, ?_, hpid.trans hrest.nextPid, hcount.trans hrest.processCount,
    hticks.trans hrest.pitTicks, ?_, ?_, t, ?_⟩
  · rw [show (Sched.schedDoSwitch s).log = _ from hlog, hlog2, hlog1, map_append]
    simp only [append_assoc]
    rfl
  · rw [show (Sched.schedDoSwitch s).cr3 = _ from hcr3, hrest.current, hrest.cr3, hlined]
    simp only [lined_cr3]
    rfl
  · intro i hi
    exact (hother i hi).trans (congrFun hlined i)
  · exact hnext.trans (by rw [hlined]; rfl)

theorem Switched.pid {s' : State} (h : Switched s rq sq s') (i : Slot) :
    (s'.processes i).pid = (s.processes i).pid := by
  by_cases hi : i = s.chosen rq sq
  · obtain ⟨t, hnext⟩ := h.next
    rw [← view_pid, hi, hnext, lined_eq]
    rfl
  · rw [← view_pid, h.other i hi, lined_eq]
    rfl

theorem Switched.blocked {s' : State} (h : Switched s rq sq s')
    (hi : (s'.processes i).state = .blocked) : (s.processes i).state = .blocked := by
  by_cases hc : i = s.chosen rq sq
  · obtain ⟨t, hnext⟩ := h.next
    rw [← view_state, hc, hnext] at hi
    cases hi
  rw [← view_state, h.other i hc, lined, woken] at hi
  split at hi
  · cases hi
  · split at hi
    · cases hi
    · exact hi

end Switch

end Utms7.Sched
