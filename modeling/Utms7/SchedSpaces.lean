import Utms7.SchedIdentity

/-!
# Address spaces in use

The address space of a process is known by the page of its top-level table.  A
`History` adds to the scheduler the pages of the address spaces that exist.  No
space is freed while a process is in it, as long as kernel threads are created
from the kernel's own space: elsewhere they share the space of their creator.
-/

namespace Utms7.Sched

open Option Call

/-- The scheduler and the address spaces that were made and not freed since. -/
structure History where
  sched : State
  spaces : List Nat

/-- The spaces that are left after one of them may have been freed. -/
def remaining (freed : Option Nat) (spaces : List Nat) : List Nat :=
  match freed with
  | some t => spaces.filter (· ≠ t)
  | none => spaces

namespace Call

/-- The history after a call. -/
def runIn (h : History) (c : Call) : History where
  sched := c.run h.sched
  spaces := remaining (c.outcome h.sched).freed ((c.obtains h.sched).toList ++ h.spaces)

/-- A new top-level table is in a page of its own. -/
def Fresh (h : History) (c : Call) : Prop :=
  ∀ t, c.obtains h.sched = some t → t ∉ h.spaces ∧ t ≠ kernelSpace

/-- The careful calls, where kernel threads are created from the kernel's space. -/
def Secluded (s : State) (c : Call) : Prop :=
  c.Careful s ∧ ∀ kstack, c = .createKthread kstack → (s.processes s.current).cr3 = kernelSpace

/-- If the call frees a space, no process that is left is in it, and it is not
loaded. -/
def FreesUnused (s : State) (c : Call) : Prop :=
  ∀ t, (c.outcome s).freed = some t →
    (∀ i, ((c.run s).processes i).state ≠ .unused → ((c.run s).processes i).cr3 ≠ t) ∧
      (c.run s).cr3 ≠ t

end Call

/-- Every process has a space of its own or is in the kernel's. -/
structure Owned (s : State) (spaces : List Nat) : Prop where
  loaded : s.cr3 = (s.processes s.current).cr3
  owned : ∀ i, (s.processes i).state ≠ .unused →
    (s.processes i).cr3 = kernelSpace ∨ (s.processes i).cr3 ∈ spaces
  apart : ∀ i j, i ≠ j → (s.processes i).state ≠ .unused → (s.processes j).state ≠ .unused →
    (s.processes i).cr3 = (s.processes j).cr3 → (s.processes i).cr3 = kernelSpace
  zero : 0 ∉ spaces
  kernel : kernelSpace ∉ spaces

namespace Owned

variable {s s' : State} {spaces : List Nat} {p : Slot} {t : Nat}

section

variable (h : Owned s spaces) {i : Slot}
include h

theorem cr3_ne_zero (hi : (s.processes i).state ≠ .unused) : (s.processes i).cr3 ≠ 0 := by
  rcases h.owned i hi with heq | hmem
  · rw [heq]
    decide
  · exact fun hzero => h.zero (hzero ▸ hmem)

theorem cr3_ne_new (ht : t ∉ spaces) (hk : t ≠ kernelSpace)
    (hi : (s.processes i).state ≠ .unused) : (s.processes i).cr3 ≠ t := by
  rintro rfl
  exact (h.owned i hi).elim hk ht

theorem congr (hloaded : s'.cr3 = (s'.processes s'.current).cr3)
    (hused : ∀ i, (s'.processes i).state ≠ .unused → (s.processes i).state ≠ .unused)
    (hcr3 : ∀ i, (s'.processes i).state ≠ .unused → (s'.processes i).cr3 = (s.processes i).cr3) :
    Owned s' spaces where
  loaded := hloaded
  owned i hi := by
    rw [hcr3 i hi]
    exact h.owned i (hused i hi)
  apart i j hij hi hj heq := by
    rw [hcr3 i hi] at heq ⊢
    rw [hcr3 j hj] at heq
    exact h.apart i j hij (hused i hi) (hused j hj) heq
  zero := h.zero
  kernel := h.kernel

theorem more (hzero : t ≠ 0) (hk : t ≠ kernelSpace) : Owned s (t :: spaces) where
  loaded := h.loaded
  owned i hi := (h.owned i hi).imp_right (List.mem_cons_of_mem _)
  apart := h.apart
  zero := by
    simpa [hzero.symm] using h.zero
  kernel := by
    simpa [hk.symm] using h.kernel

theorem fewer (ht : ∀ i, (s.processes i).state ≠ .unused → (s.processes i).cr3 ≠ t) :
    Owned s (spaces.filter (· ≠ t)) where
  loaded := h.loaded
  owned i hi := (h.owned i hi).imp_right fun hmem =>
    List.mem_filter.mpr ⟨hmem, decide_eq_true (ht i hi)⟩
  apart := h.apart
  zero hmem := h.zero (List.mem_of_mem_filter hmem)
  kernel hmem := h.kernel (List.mem_of_mem_filter hmem)

theorem keeps (hk : Keeps s s') : Owned s' spaces :=
  h.congr (hk.loaded h.loaded) (fun _ hi => hk.used hi) fun i _ => hk.cr3 i

theorem enter (hloaded : s'.cr3 = (s'.processes s'.current).cr3)
    (hused : ∀ i, i ≠ p → (s'.processes i).state ≠ .unused → (s.processes i).state ≠ .unused)
    (hcr3 : ∀ i, i ≠ p → (s'.processes i).cr3 = (s.processes i).cr3)
    (hself : (s'.processes p).cr3 = t) (ht : t = kernelSpace ∨ t ∈ spaces ∧
      ∀ i, i ≠ p → (s.processes i).state ≠ .unused → (s.processes i).cr3 ≠ t) :
    Owned s' spaces where
  loaded := hloaded
  owned i hi := by
    by_cases hip : i = p
    · rw [hip, hself]
      exact ht.imp_right fun h => h.1
    · rw [hcr3 i hip]
      exact h.owned i (hused i hip hi)
  apart i j hij hi hj heq := by
    by_cases hip : i = p
    · subst hip
      rw [hself] at heq ⊢
      rw [hcr3 j hij.symm] at heq
      refine ht.resolve_right fun hor => ?_
      exact hor.2 j hij.symm (hused j hij.symm hj) heq.symm
    · rw [hcr3 i hip] at heq ⊢
      by_cases hjp : j = p
      · rw [hjp, hself] at heq
        rw [heq]
        exact ht.resolve_right fun hor => hor.2 i hip (hused i hip hi) heq
      · rw [hcr3 j hjp] at heq
        exact h.apart i j hij (hused i hip hi) (hused j hjp hj) heq
  zero := h.zero
  kernel := h.kernel

theorem goToExit (hcur : (s.processes s.current).state ≠ .unused) (code : Int) :
    Owned (Sched.goToExit s code) spaces := by
  have hslot : ∀ i, ((Sched.goToExit s code).processes i).cr3 = (s.processes i).cr3 := fun i => by
    by_cases hi : i = s.current
    · rw [hi, Sched.goToExit]
      simp only [modify_self]
    · rw [goToExit_other code hi]
  refine h.congr ?_ (fun i hi => ?_) fun i _ => hslot i
  · rw [hslot]
    exact h.loaded
  · by_cases hic : i = s.current
    · rw [hic]
      exact hcur
    · rwa [goToExit_other code hic] at hi

/-- A process is killed, or is reaped by another one. -/
theorem modify_other {f : Process → Process}
    (hf : (f (s.processes p)).state = .unused ∧ p ≠ s.current ∨
      (s.processes p).state ≠ .unused ∧ (f (s.processes p)).cr3 = (s.processes p).cr3) :
    Owned (s.modify p f) spaces := by
  have hother : ∀ i, i ≠ p → (s.modify p f).processes i = s.processes i := fun i hi =>
    Function.update_of_ne hi _ _
  refine h.congr ?_ (fun i hi => ?_) fun i hi => ?_
  · show s.cr3 = ((s.modify p f).processes s.current).cr3
    by_cases hcur : s.current = p
    · rw [hcur, modify_self, (hf.resolve_left fun hl => hl.2 hcur.symm).2, ← hcur]
      exact h.loaded
    · rw [hother _ hcur]
      exact h.loaded
  · by_cases hip : i = p
    · rw [hip, modify_self] at hi
      rw [hip]
      exact (hf.resolve_left fun hl => hi hl.1).1
    · rwa [hother i hip] at hi
  · by_cases hip : i = p
    · rw [hip, modify_self] at hi ⊢
      exact (hf.resolve_left fun hl => hi hl.1).2
    · rw [hother i hip]

end

end Owned

/-! ## The calls -/

/-- What a call leaves behind: it frees `freed`, and the processes keep to the
spaces that are left. -/
structure Released (s' : State) (got freed : Option Nat) (spaces : List Nat) : Prop where
  unused : ∀ t, freed = some t →
    (∀ i, (s'.processes i).state ≠ .unused → (s'.processes i).cr3 ≠ t) ∧ s'.cr3 ≠ t
  owned : Owned s' (got.toList ++ spaces)

theorem Released.spaces {s' : State} {got freed : Option Nat} {spaces : List Nat}
    (h : Released s' got freed spaces) : Owned s' (remaining freed (got.toList ++ spaces)) := by
  cases freed with
  | none => exact h.owned
  | some t => exact h.owned.fewer (h.unused t rfl).1

/-- Nothing is freed. -/
theorem Released.none {s' : State} {got : Option Nat} {spaces : List Nat}
    (h : Owned s' (got.toList ++ spaces)) : Released s' got .none spaces where
  unused _ ht := nomatch ht
  owned := h

section Calls

variable {s : State} {c : Call} {spaces : List Nat}

theorem obtains_ne_zero {t : Nat} (h : c.obtains s = some t) : t ≠ 0 := by
  cases c with
  | createProcess l kstack =>
    simp only [obtains, ite_none_left_eq_some, not_or] at h
    rintro rfl
    exact h.1.2 (by simpa using h.2)
  | fork copy kstack =>
    simp only [obtains, ite_none_left_eq_some, not_or] at h
    rintro rfl
    exact h.1.2.2 (by simpa using h.2)
  | clone userRsp copy kstack =>
    simp only [obtains, ite_none_left_eq_some, not_or] at h
    rintro rfl
    exact h.1.2.2.2 (by simpa using h.2)
  | exec l =>
    simp only [obtains, ite_none_left_eq_some] at h
    rintro rfl
    exact h.1 (by simpa using h.2)
  | _ => cases h

theorem newSpace_kernel (hc : c.creates = true) (hsec : c.Secluded s) (hgot : c.obtains s = none)
    (hp : findUnused s ≠ none) (hspace : c.newSpace s = (s.processes s.current).cr3)
    (hne : (s.processes s.current).cr3 ≠ 0) : c.newSpace s = kernelSpace := by
  cases c with
  | createKthread kstack => exact hsec.2 kstack rfl
  | createProcess l kstack =>
    simp only [obtains, hp, false_or, ite_eq_left_iff, reduceCtorEq, imp_false, not_not] at hgot
    rw [← hspace] at hne
    exact absurd hgot hne
  | fork copy kstack =>
    by_cases hk : (s.processes s.current).cr3 = kernelSpace
    · exact hspace.trans hk
    · simp only [obtains, hp, hk, false_or, ite_eq_left_iff, reduceCtorEq, imp_false,
        not_not] at hgot
      rw [← hspace, newSpace, childSpace, if_neg hk] at hne
      exact absurd hgot hne
  | clone userRsp copy kstack =>
    by_cases hk : (s.processes s.current).cr3 = kernelSpace
    · exact hspace.trans hk
    rw [← hspace, newSpace, childSpace] at hne
    split at hne
    · exact absurd rfl hne
    · rename_i halign
      simp only [obtains, hp, hk, halign, false_or, ite_eq_left_iff, reduceCtorEq,
        imp_false, not_not] at hgot
      exact absurd hgot hne
  | _ => cases hc

theorem Owned.creation {o : Outcome} (h : Owned s spaces) (hsound : Sound s)
    (hc : c.creates = true) (hsec : c.Secluded s)
    (hfresh : ∀ t, c.obtains s = some t → t ∉ spaces ∧ t ≠ kernelSpace)
    (hcr : Creation s (c.obtains s) (c.newSpace s) o) :
    Released o.state (c.obtains s) o.freed spaces := by
  have hcur := hsound.current_ne_unused
  -- the tree made for the call is nobody's so far
  have hmore : Owned s ((c.obtains s).toList ++ spaces) := by
    cases hgot : c.obtains s with
    | none => exact h
    | some t => exact h.more (obtains_ne_zero hgot) (hfresh t hgot).2
  cases hcr with
  | none => exact .none hmore
  | undone p s' freed hp hf hstate hfreed =>
    have hne := findUnused_ne_current hp hcur
    have hslot : ∀ i, (s'.processes i).state ≠ .unused → s'.processes i = s.processes i :=
      fun i hi => hf.only.other i fun hip => hi (hip ▸ hstate)
    have hloaded : s'.cr3 = (s'.processes s'.current).cr3 := by
      rw [hf.cr3, hf.only.current, hf.only.other _ hne]
      exact h.loaded
    refine ⟨fun t ht => ?_, hmore.congr hloaded (fun i hi => hslot i hi ▸ hi)
      fun i hi => by rw [hslot i hi]⟩
    obtain ⟨hfreed, hgot⟩ := hfreed.resolve_left fun hnone => by simp [hnone] at ht
    obtain rfl : c.newSpace s = t := by simpa [hfreed] using ht
    obtain ⟨hnew, hk⟩ := hfresh _ hgot
    refine ⟨fun i hi => ?_, ?_⟩
    · have hsame := hslot i hi
      rw [hsame] at hi ⊢
      exact h.cr3_ne_new hnew hk hi
    · rw [hf.cr3, h.loaded]
      exact h.cr3_ne_new hnew hk hcur
  | made p s' hp hf hstate hspace hgot =>
    have hne := findUnused_ne_current hp hcur
    have hview : ∀ i, (enroll s' p).view i = s'.view i := fun i => by
      show (enqueueReady s' p).view i = s'.view i
      rw [enqueueReady_view]
    have hother : ∀ i, i ≠ p → (enroll s' p).view i = s.view i := fun i hi => by
      rw [hview, State.view, State.view, hf.only.other i hi]
    have hrest := enqueueReady_sameRest s' p
    have hreg : (enroll s' p).cr3 = s.cr3 := hrest.cr3.trans hf.cr3
    have hcurrent : (enroll s' p).current = s.current := hrest.current.trans hf.only.current
    refine .none (hmore.enter (p := p) (t := c.newSpace s) ?_ (fun i hi => ?_) (fun i hi => ?_)
      ?_ ?_)
    · rw [hreg, hcurrent, h.loaded, ← view_cr3, ← view_cr3, hother _ hne]
    · rw [← view_state, hother i hi]
      exact fun h => h
    · rw [← view_cr3, hother i hi, view_cr3]
    · rw [← view_cr3, hview, view_cr3, hspace]
    · rcases hgot with hgot | ⟨hgot, heq⟩
      · obtain ⟨hnew, hk⟩ := hfresh _ hgot
        exact .inr ⟨by simp [hgot], fun i _ hi => h.cr3_ne_new hnew hk hi⟩
      · exact .inl (newSpace_kernel hc hsec hgot (by simp [hp]) heq (h.cr3_ne_zero hcur))

/-- **Every call** leaves the space of every process alone. -/
theorem Owned.step (h : Owned s spaces) (hsound : Sound s) (hsec : c.Secluded s)
    (hfresh : ∀ t, c.obtains s = some t → t ∉ spaces ∧ t ≠ kernelSpace) :
    Released (c.outcome s).state (c.obtains s) (c.outcome s).freed spaces := by
  have hcur := hsound.current_ne_unused
  have hstep := hsound.step hsec.1
  generalize c.outcome s = o at hstep ⊢
  cases hstep with
  | keeps hk hfreed hgot =>
    rw [hgot, hfreed]
    exact .none (h.keeps hk)
  | created hc hcr => exact h.creation hsound hc hsec hfresh hcr
  | @refused l hspace =>
    have hgot : (exec l).obtains s = some l.space := if_neg hspace
    obtain ⟨hnew, hk⟩ := hfresh _ hgot
    rw [hgot]
    refine ⟨fun t ht => ?_, h.more hspace hk⟩
    obtain rfl : l.space = t := by simpa using ht
    refine ⟨fun i hi => h.cr3_ne_new hnew hk hi, ?_⟩
    show s.cr3 ≠ _
    rw [h.loaded]
    exact h.cr3_ne_new hnew hk hcur
  | @replaced l hspace =>
    have hgot : (exec l).obtains s = some l.space := if_neg hspace
    obtain ⟨hnew, hk⟩ := hfresh _ hgot
    have hother : ∀ i, i ≠ s.current → (enterProgram s l).processes i = s.processes i :=
      fun i hi => Function.update_of_ne hi _ _
    have hself : ((enterProgram s l).processes s.current).cr3 = l.space := by
      simp only [enterProgram, modify_self]
    rw [hgot]
    refine ⟨fun t ht => ?_, (h.more hspace hk).enter (p := s.current) (t := l.space) hself.symm
      (fun i hi => ?_) (fun i hi => ?_) hself
      (.inr ⟨List.mem_cons_self, fun i _ hi => h.cr3_ne_new hnew hk hi⟩)⟩
    · simp only [ite_none_right_eq_some, Option.some.injEq] at ht
      obtain ⟨⟨hold, -, hkold⟩, rfl⟩ := ht
      refine ⟨fun i hi => ?_, Ne.symm hold⟩
      show ((enterProgram s l).processes i).cr3 ≠ _
      by_cases hic : i = s.current
      · rw [hic, hself]
        exact Ne.symm hold
      · rw [hother i hic]
        rw [show (enterProgram s l).processes i = s.processes i from hother i hic] at hi
        rw [h.loaded] at hkold ⊢
        exact fun heq => hkold (heq ▸ h.apart i s.current hic hi hcur heq)
    · rw [hother i hi]
      exact fun h => h
    · rw [hother i hi]
  | ended hidle hk hfreed =>
    rw [hfreed]
    exact .none ((h.goToExit hcur _).keeps hk)
  | @killed pid p hp hidle =>
    have howned : Owned (s.modify p fun x => { x with state := .zombie, exitCode := -1 }) spaces :=
      h.modify_other (.inr ⟨(killTarget_some hp).2, rfl⟩)
    exact .none howned
  | @reaped pid p hp hne =>
    have howned : Owned (reap s p) spaces := h.modify_other (.inl ⟨rfl, hne⟩)
    refine ⟨fun t ht => ?_, howned⟩
    simp only [ite_none_right_eq_some, Option.some.injEq] at ht
    obtain ⟨⟨-, hk⟩, rfl⟩ := ht
    have hzombie : (s.processes p).state ≠ .unused := by
      rw [(waitTarget_some hp).2]
      decide
    refine ⟨fun i hi => ?_, ?_⟩
    · have hip : i ≠ p := by
        rintro rfl
        simp [reap, modify_self] at hi
      have hsame : (reap s p).processes i = s.processes i := Function.update_of_ne hip _ _
      rw [hsame] at hi ⊢
      exact fun heq => hk (heq ▸ h.apart i p hip hi hzombie heq)
    · show s.cr3 ≠ _
      rw [h.loaded]
      exact fun heq => hk (heq ▸ h.apart s.current p hne.symm hcur hzombie heq)

end Calls

/-! ## Histories -/

/-- `sched_init` leaves one process, in the kernel's space. -/
def historyInit (kstack : Nat) : History := ⟨schedInit kstack, []⟩

/-- The histories whose calls all meet the condition. -/
def Seclusion (kstack : Nat) (cs : List Call) : Prop :=
  Runs.Guarded Call.runIn (fun h c => c.Fresh h ∧ c.Secluded h.sched) (historyInit kstack) cs

theorem owned_schedInit {kstack : Nat} : Owned (schedInit kstack) [] := by
  have hidle : ∀ i, ((schedInit kstack).processes i).state ≠ .unused → i = idle := by
    intro i hi
    by_contra hne
    simp [schedInit, hne, zeroProcess] at hi
  have hcr3 : ((schedInit kstack).processes idle).cr3 = kernelSpace := by
    simp [schedInit]
  refine ⟨hcr3.symm, fun i hi => .inl ?_, fun i j hij hi hj => ?_, List.not_mem_nil,
    List.not_mem_nil⟩
  · rw [hidle i hi]
    exact hcr3
  · exact absurd ((hidle i hi).trans (hidle j hj).symm) hij

theorem runIn_owned {h : History} {c : Call} (hinv : Sound h.sched ∧ Owned h.sched h.spaces)
    (hc : c.Fresh h ∧ c.Secluded h.sched) :
    Sound (c.runIn h).sched ∧ Owned (c.runIn h).sched (c.runIn h).spaces :=
  ⟨hinv.1.run hc.2.1, (hinv.2.step hinv.1 hc.2 hc.1).spaces⟩

/-- **No address space is freed while it is in use**, by the last call of any
history whose calls all meet the condition. -/
theorem frees_unused (kstack : Nat) (cs : List Call) (c : Call)
    (hcs : Seclusion kstack (cs ++ [c])) :
    c.FreesUnused (Runs.run Call.runIn (historyInit kstack) cs).sched := by
  obtain ⟨hbefore, hc, -⟩ := Runs.guarded_append.mp hcs
  obtain ⟨hsound, howned⟩ := hbefore.invariant
    (I := fun h => Sound h.sched ∧ Owned h.sched h.spaces) (fun _ _ h hc => runIn_owned h hc)
    ⟨sound_schedInit kstack, owned_schedInit⟩
  exact (howned.step hsound hc.2 hc.1).unused

/-- A program that could be loaded. -/
def loaded (space : Nat) : Loading := ⟨space, 0x40000000, 0x40001000, true⟩

/-- A call that makes no space and no kernel thread. -/
theorem fresh_secluded {h : History} {c : Call} (hgot : c.obtains h.sched = none)
    (hthread : ∀ kstack, c ≠ .createKthread kstack) (hc : c.Careful h.sched) :
    c.Fresh h ∧ c.Secluded h.sched :=
  ⟨fun t ht => by simp [hgot] at ht, hc, fun kstack heq => absurd heq (hthread kstack)⟩

/-- A process is loaded, runs, ends and is waited for: its space is freed. -/
theorem frees_unused_waited : (Call.waitpid 1).FreesUnused (Runs.run Call.runIn (historyInit 4096)
    [.createProcess (loaded 0x100000) 8192, .doSwitch, .doSwitch, .exit 0]).sched := by
  refine frees_unused 4096 _ _ ⟨⟨?_, trivial, nofun⟩, fresh_secluded rfl nofun trivial,
    fresh_secluded rfl nofun trivial, fresh_secluded rfl nofun ?_, fresh_secluded rfl nofun ?_,
    trivial⟩
  · intro t ht
    obtain ⟨-, rfl⟩ := ht
    decide
  · exact (by decide +kernel : (after 4096 [.createProcess (loaded 0x100000) 8192, .doSwitch,
      .doSwitch]).current ≠ idle)
  · exact (by decide +kernel : waitTarget (after 4096 [.createProcess (loaded 0x100000) 8192,
      .doSwitch, .doSwitch, .exit 0]) 1 ≠ some (after 4096
        [.createProcess (loaded 0x100000) 8192, .doSwitch, .doSwitch, .exit 0]).current)

/-- A process creates a kernel thread and then replaces its program: the space it
leaves is freed, and the thread is still in it. -/
theorem exec_frees_used : ¬ (Call.exec (loaded 0x200000)).FreesUnused (Runs.run Call.runIn
    (historyInit 4096) [.createProcess (loaded 0x100000) 8192, .doSwitch, .doSwitch,
      .createKthread 12288]).sched := by
  intro h
  obtain ⟨hothers, -⟩ := h 0x100000 (by decide +kernel)
  exact hothers 2 (by decide +kernel) (by decide +kernel)

end Utms7.Sched
