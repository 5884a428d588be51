import Utms7.UnixSteps

/-!
# The table of sockets over whole runs

What a change does to one socket is a sequence of edits, and the slots that an edit
stores are in use.  So in every state that a run reaches the rings are in order, and
descriptors, queues, peers and waiting calls lead to sockets that exist.  A slot that
is in use stays so: `unix_close` does not give it back.
-/

namespace Utms7.Unix

/-! ## Edits of one socket -/

/-- The clients that wait, first one first. -/
def Socket.queue (s : Socket) : List Slot := Ring.contents s.backlog s.backlogHead s.backlogCount

/-- The indices of the queue fit together. -/
def Socket.Lined (s : Socket) : Prop :=
  s.backlogTail % 16 = (s.backlogHead + s.backlogCount) % 16 ∧ s.backlogCount ≤ 16

theorem Socket.queue_dequeue {s : Socket} (h : s.backlogCount ≠ 0) :
    s.queue = s.front :: s.dequeue.queue := by
  obtain ⟨n, hn⟩ := Nat.exists_eq_succ_of_ne_zero h
  simp only [Socket.queue, Socket.dequeue, hn, Ring.contents_mod]
  exact Ring.contents_succ

theorem Socket.Lined.queue_enqueue {s : Socket} (h : s.Lined) (hroom : s.backlogCount < 16)
    (client : Slot) : (s.enqueue client).queue = s.queue ++ [client] := by
  have htail : Fin.ofNat 16 s.backlogTail = Fin.ofNat 16 (s.backlogHead + s.backlogCount) :=
    Fin.ext h.1
  simp only [Socket.enqueue, htail]
  exact Ring.contents_push hroom client

/-- The edits of the socket in slot `y`; the slots that they store are `live`. -/
inductive Edit (live : Slot → Prop) (y : Slot) (s : Socket) : Socket → Prop
  | alloc (i : Nat) (free : s.id = 0) (new : i ≠ 0) : Edit live y s { Socket.zero with id := i }
  | bind (path : List UInt8) : Edit live y s { s with path := path }
  | listen : Edit live y s
      { s with listening := true, backlogCount := 0, backlogHead := 0, backlogTail := 0 }
  | dequeue (queue : s.backlogCount ≠ 0) : Edit live y s s.dequeue
  | enqueue (client : Slot) (room : s.backlogCount < 16) (alive : live client) :
      Edit live y s (s.enqueue client)
  | link (peer : Slot) (alive : live peer) (other : peer ≠ y) :
      Edit live y s { s with connected := true, peer := some peer }
  | unlink : Edit live y s { s with peer := none }
  | close : Edit live y s { s with closed := true }
  | copyIn (rest : List UInt8) : Edit live y s (s.copyIn (rest.take (s.toCopy rest)))
  | copyOut (n : Nat) : Edit live y s (s.copyOut n).2

/-- Edits one after the other. -/
def Edits (live : Slot → Prop) (y : Slot) : Socket → Socket → Prop :=
  Relation.ReflTransGen (Edit live y)

/-- What holds of the socket in slot `y` alone. -/
structure Socket.Good (live : Slot → Prop) (y : Slot) (s : Socket) : Prop where
  sized : s.Sized
  lined : s.Lined
  queue : ∀ client ∈ s.queue, live client
  peer : ∀ z, s.peer = some z → live z ∧ z ≠ y

open Socket Pending

/-- A socket that is in use stays in use, and closed if it is. -/
structure Socket.Lives (s s' : Socket) : Prop where
  id : s.id ≠ 0 → s'.id ≠ 0
  closed : s.id ≠ 0 → s.closed = true → s'.closed = true

section Edits

variable {live live' : Slot → Prop} {y : Slot} {s s' : Socket}

theorem Socket.good_zero {i : Nat} : Socket.Good live y { zero with id := i } where
  sized := ⟨Int.le_refl 0, show (0 : Int) ≤ 4096 by decide⟩
  lined := ⟨rfl, Nat.zero_le 16⟩
  queue _ h := by cases h
  peer _ h := by cases h

theorem Socket.Good.imp (h : s.Good live y) (himp : ∀ z, live z → live' z) : s.Good live' y where
  sized := h.sized
  lined := h.lined
  queue client hc := himp client (h.queue client hc)
  peer z hz := ⟨himp z (h.peer z hz).1, (h.peer z hz).2⟩

/-- An edit keeps a socket in order. -/
theorem Edit.good (h : Edit live y s s') (hs : s.Good live y) : s'.Good live y := by
  obtain ⟨hsized, hlined, hqueue, hpeer⟩ := hs
  cases h with
  | alloc i => exact Socket.good_zero
  | bind path => exact ⟨hsized, hlined, hqueue, hpeer⟩
  | listen => exact ⟨hsized, ⟨rfl, Nat.zero_le 16⟩, nofun, hpeer⟩
  | dequeue hne =>
    refine ⟨hsized, ?_, ?_, hpeer⟩
    · obtain ⟨htail, hcount⟩ := hlined
      simp only [Socket.Lined, Socket.dequeue]
      omega
    · intro client hc
      refine hqueue client ?_
      rw [Socket.queue_dequeue hne]
      exact List.mem_cons_of_mem _ hc
  | enqueue client hroom halive =>
    refine ⟨hsized, ?_, ?_, hpeer⟩
    · obtain ⟨htail, hcount⟩ := hlined
      simp only [Socket.Lined, Socket.enqueue]
      omega
    · intro c hc
      rw [hlined.queue_enqueue hroom, List.mem_append, List.mem_singleton] at hc
      rcases hc with hc | rfl
      · exact hqueue c hc
      · exact halive
  | link peer halive hother =>
    refine ⟨hsized, hlined, hqueue, fun z hz => ?_⟩
    cases hz
    exact ⟨halive, hother⟩
  | unlink => exact ⟨hsized, hlined, hqueue, nofun⟩
  | close => exact ⟨hsized, hlined, hqueue, hpeer⟩
  | copyIn rest => exact ⟨hsized.copyIn rest, hlined, hqueue, hpeer⟩
  | copyOut n =>
    have hsized' := hsized.copyOut n
    obtain ⟨pos, len, heq⟩ := s.copyOut_frame n
    rw [heq] at hsized' ⊢
    exact ⟨hsized', hlined, hqueue, hpeer⟩

/-- An edit frees no socket. -/
theorem Edit.lives (h : Edit live y s s') : s.Lives s' := by
  cases h with
  | alloc i hfree => exact ⟨fun h => absurd hfree h, fun h => absurd hfree h⟩
  | close => exact ⟨id, fun _ _ => rfl⟩
  | copyOut n =>
    obtain ⟨pos, len, heq⟩ := s.copyOut_frame n
    rw [heq]
    exact ⟨id, fun _ => id⟩
  | bind | listen | dequeue | enqueue | link | unlink | copyIn => exact ⟨id, fun _ => id⟩

theorem Edits.good (h : Edits live y s s') (hs : s.Good live y) : s'.Good live y := by
  induction h with
  | refl => exact hs
  | tail _ hedit ih => exact hedit.good ih

theorem Edits.lives (h : Edits live y s s') : s.Lives s' := by
  induction h with
  | refl => exact ⟨id, fun _ => id⟩
  | tail _ hedit ih =>
    exact ⟨fun hid => hedit.lives.id (ih.id hid),
      fun hid hclosed => hedit.lives.closed (ih.id hid) (ih.closed hid hclosed)⟩

end Edits

/-! ## Edits of the table -/

section

variable {P : Type} {t t' t'' : Table P} {live : Slot → Prop} {x y client new : Slot} {p : P}
  {fd : Int}

/-- The slot is in use. -/
def Table.Occupied (t : Table P) (x : Slot) : Prop := (t.sockets x).id ≠ 0

instance (t : Table P) (x : Slot) : Decidable (t.Occupied x) := instDecidableNot

/-- Every socket of the table is edited. -/
def Table.Edited (live : Slot → Prop) (t t' : Table P) : Prop :=
  ∀ y, Edits live y (t.sockets y) (t'.sockets y)

theorem Table.Edited.refl : t.Edited live t := fun _ => .refl

theorem Table.Edited.trans (h : t.Edited live t') (h' : t'.Edited live t'') : t.Edited live t'' :=
  fun y => (h y).trans (h' y)

/-- One socket is edited. -/
theorem Table.Edited.modify (x : Slot) (f : Socket → Socket)
    (h : Edit live x (t.sockets x) (f (t.sockets x))) : t.Edited live (t.modify x f) := by
  intro y
  by_cases hy : y = x
  · subst hy
    rw [modify_self]
    exact .single h
  · rw [modify_of_ne hy]
    exact .refl

theorem Table.Edited.alloc (hfree : (t.sockets x).id = 0) (hnext : t.nextId ≠ 0) :
    t.Edited live (t.alloc x) := by
  intro y
  by_cases hy : y = x
  · subst hy
    rw [alloc_self]
    exact .single (.alloc _ hfree hnext)
  · rw [alloc_of_ne hy]
    exact .refl

theorem Table.Edited.link (hnew : live new) (hclient : live client)
    (hne : new ≠ client) : t.Edited live (t.link new client) := by
  have hfirst : t.Edited live
      (t.modify new fun s => { s with connected := true, peer := some client }) :=
    .modify _ _ (.link client hclient hne.symm)
  refine hfirst.trans (.modify _ _ ?_)
  exact .link new hnew hne

theorem Table.Edited.unlink (peer : Option Slot) : t.Edited live (t.unlink peer) := by
  cases peer with
  | none => exact .refl
  | some y => exact .modify y (fun s => { s with peer := none }) .unlink

/-- A free slot has id 0. -/
theorem Table.freeSlot_free (h : t.freeSlot = some x) : (t.sockets x).id = 0 := by
  have hfound := List.find?_some h
  simpa using hfound

theorem Table.lookup_fds (h : t.lookup p fd = some x) : ∃ i, t.fds p i = some (.unix x) := by
  unfold Table.lookup at h
  split at h
  · split at h
    · cases h
      exact ⟨_, ‹_›⟩
    · cases h
  · cases h

theorem dequeue_id : ((t.modify x dequeue).sockets y).id = (t.sockets y).id := by
  by_cases hy : y = x
  · subst hy
    rw [modify_self]
    rfl
  · rw [modify_of_ne hy]

theorem alloc_link_id : (((t.alloc new).link new client).sockets new).id = t.nextId := by
  by_cases hc : new = client
  · subst hc
    simp [Table.link]
  · simp [Table.link, modify_of_ne hc]

/-! ## The invariant -/

/-- The sockets that a waiting call uses. -/
def Pending.sockets : Pending → List Slot
  | .accepting x => [x]
  | .connecting x => [x]
  | .sending x peer _ _ => [x, peer]
  | .receiving x _ => [x]

/-- The call inside which a process is. -/
def Status.call : Status → Option Pending
  | .user => none
  | .blocked call => some call
  | .ready call => some call

/-- What holds of the system in every state reached. -/
structure Sound (s : System P) : Prop where
  good : ∀ y, (s.table.sockets y).Good s.table.Occupied y
  next : s.table.nextId ≠ 0
  fds : ∀ {p i x}, s.table.fds p i = some (.unix x) → s.table.Occupied x
  calls : ∀ {p call}, (s.status p).call = some call → ∀ x ∈ call.sockets, s.table.Occupied x

theorem Status.call_wake (st : Status) (wakes : List Slot) : (st.wake wakes).call = st.call := by
  cases st with
  | blocked call =>
    simp only [Status.wake]
    split <;> rfl
  | user => rfl
  | ready call => rfl

theorem sound_init : Sound (System.init (P := P)) where
  good _ := good_zero
  next := Nat.one_ne_zero
  fds h := by cases h
  calls h := by cases h

namespace Sound

variable {s : System P} {a : Action P} {new : Slot}

section

variable (h : Sound s)
include h

theorem sized (x : Slot) : (s.table.sockets x).Sized := (h.good x).sized

theorem lookup (hlook : s.table.lookup p fd = some x) : s.table.Occupied x := by
  obtain ⟨i, hi⟩ := Table.lookup_fds hlook
  exact h.fds hi

/-- The listener of a call in progress is in its slot. -/
theorem accepting (henter : s.accepting a = some x) : s.table.Occupied x := by
  unfold System.accepting at henter
  split at henter
  · split at henter
    · split at henter
      · cases henter
      · cases henter
        exact h.lookup ‹_›
    · cases henter
  · split at henter
    · rename_i hstatus
      cases henter
      exact h.calls (by rw [hstatus]; rfl) x (by simp [sockets])
    · cases henter
  · cases henter

theorem receiving {len : Int} (henter : s.receiving a = some (x, len)) : s.table.Occupied x := by
  unfold System.receiving at henter
  split at henter
  · split at henter
    · split at henter
      · cases henter
      · cases henter
        exact h.lookup ‹_›
    · cases henter
  · split at henter
    · rename_i hstatus
      cases henter
      exact h.calls (by rw [hstatus]; rfl) x (by simp [sockets])
    · cases henter
  · cases henter

theorem sending {rest : List UInt8} (henter : s.sending a = some (x, y, rest)) :
    s.table.Occupied x ∧ s.table.Occupied y := by
  unfold System.sending at henter
  split at henter
  · split at henter
    · split at henter
      · split at henter
        · cases henter
        · rename_i hpeer _
          cases henter
          exact ⟨h.lookup ‹_›, ((h.good x).peer y hpeer).1⟩
      · cases henter
    · cases henter
  · split at henter
    · rename_i hstatus
      cases henter
      have hcall := h.calls (by rw [hstatus]; rfl)
      exact ⟨hcall x (by simp [sockets]), hcall y (by simp [sockets])⟩
    · cases henter
  · cases henter

/-- The client at the head of a queue is in use. -/
theorem front (hqueue : (s.table.sockets x).backlogCount ≠ 0) :
    s.table.Occupied (s.table.sockets x).front := by
  refine (h.good x).queue _ ?_
  rw [queue_dequeue hqueue]
  exact List.mem_cons_self

/-- The slot that `unix_accept` takes is not the one of the client. -/
theorem new_ne_client (hqueue : (s.table.sockets x).backlogCount ≠ 0)
    (hslot : s.table.freeSlot = some new) : new ≠ (s.table.sockets x).front := by
  rintro rfl
  exact h.front hqueue (Table.freeSlot_free hslot)

end

/-- A slot that is in use is not the one that `unix_accept` takes. -/
theorem accept_keeps {β : Type} (g : Socket → β) (hdequeue : ∀ s : Socket, g s.dequeue = g s)
    (hlink : ∀ s peer, g { s with connected := true, peer := some peer } = g s)
    (hslot : s.table.freeSlot = some new) (hy : s.table.Occupied y) :
    g ((((s.table.modify x dequeue).alloc new).link new client).sockets y) =
      g (s.table.sockets y) := by
  have hne : y ≠ new := by
    rintro rfl
    exact hy (Table.freeSlot_free hslot)
  rw [link_keeps g hlink, alloc_of_ne hne]
  exact modify_keeps g hdequeue

/-- The edits that `unix_accept` makes. -/
theorem edited_accept (h : Sound s) (hqueue : (s.table.sockets x).backlogCount ≠ 0)
    (hslot : s.table.freeSlot = some new) (hclient : live (s.table.sockets x).front)
    (hnew : live new) : s.table.Edited live (((s.table.modify x dequeue).alloc new).link new
      (s.table.sockets x).front) := by
  have hdequeue : s.table.Edited live (s.table.modify x dequeue) :=
    .modify _ _ (.dequeue hqueue)
  have halloc : (s.table.modify x dequeue).Edited live
      ((s.table.modify x dequeue).alloc new) :=
    .alloc (dequeue_id.trans (Table.freeSlot_free hslot)) h.next
  exact (hdequeue.trans halloc).trans (.link hnew hclient (h.new_ne_client hqueue hslot))

variable [DecidableEq P] {r : Reply P}

section

variable (h : Sound s) (hr : Change s a r)
include h hr

/-- **Every change is made of edits.** -/
theorem edited : s.table.Edited (fun z => s.table.Occupied z ∨ r.table.Occupied z) r.table := by
  cases hr with
  | none | share | other => exact .refl
  | leak _ slot | create _ slot => exact .alloc (Table.freeSlot_free slot) h.next
  | bind =>
    simp only [returns_table]
    refine .modify _ _ ?_
    exact .bind _
  | listen =>
    simp only [returns_table]
    refine .modify _ _ ?_
    exact .listen
  | drop _ queue =>
    refine .modify _ _ ?_
    exact .dequeue queue
  | @lose a x new _ queue slot =>
    have hnew : (((((s.table.modify x dequeue).alloc new).link new
        (s.table.sockets x).front).modify new
          fun s => { s with closed := true }).sockets new).id ≠ 0 := by
      rw [modify_self]
      simp only [alloc_link_id]
      exact h.next
    simp only [returns_table]
    refine (h.edited_accept queue slot (.inl (h.front queue)) (.inr hnew)).trans (.modify _ _ ?_)
    exact .close
  | accept _ queue slot =>
    refine h.edited_accept queue slot (.inl (h.front queue)) (.inr ?_)
    simp only [Table.Occupied, setFd_sockets, alloc_link_id]
    exact h.next
  | connect look _ _ _ room =>
    simp only
    refine .modify _ _ ?_
    exact .enqueue _ room (.inl (h.lookup look))
  | send =>
    simp only
    refine .modify _ _ ?_
    exact .copyIn _
  | recv =>
    simp only
    refine .modify _ _ ?_
    exact .copyOut _
  | @close p fd x =>
    have hclosed : ∀ {live},
        s.table.Edited live (s.table.modify x fun s => { s with closed := true }) :=
      .modify _ _ .close
    exact hclosed.trans (.unlink _)

/-- Nothing that is in use is given back. -/
theorem lives (y : Slot) : (s.table.sockets y).Lives (r.table.sockets y) := (h.edited hr y).lives

theorem next_change : r.table.nextId ≠ 0 := by
  cases hr with
  | leak | create | lose | accept => exact Nat.succ_ne_zero _
  | close => simpa using h.next
  | none | bind | listen | drop | connect | send | recv | share | other => exact h.next

/-- Every descriptor of a socket leads to one that is there. -/
theorem fds_change {i : Fin 32} (hfd : r.table.fds p i = some (.unix x)) : r.table.Occupied x := by
  -- a descriptor was there before, or it is the new one
  have hold : s.table.fds p i = some (.unix x) → r.table.Occupied x := fun hfd =>
    (h.lives hr x).id (h.fds hfd)
  cases hr with
  | none | leak | bind | listen | drop | lose | connect | send | recv => exact hold hfd
  | create =>
    rw [setFd_fds] at hfd
    split at hfd
    · cases hfd
      simpa [Table.Occupied] using h.next
    · exact hold hfd
  | accept =>
    rw [setFd_fds] at hfd
    split at hfd
    · cases hfd
      simpa [Table.Occupied, alloc_link_id] using h.next
    · exact hold hfd
  | close =>
    rw [setFd_fds, unlink_fds] at hfd
    split at hfd
    · cases hfd
    · exact hold hfd
  | share =>
    rw [returns_table, setFd_fds] at hfd
    split at hfd
    · exact h.fds hfd
    · exact hold hfd
  | other hforeign =>
    rw [returns_table, setFd_fds] at hfd
    split at hfd
    · exact absurd hfd (hforeign x)
    · exact hold hfd

/-- A call that waits has sockets that are there. -/
theorem stops {call : Pending} (hstop : r.outcome = .blocked call) :
    ∀ x ∈ call.sockets, s.table.Occupied x := by
  cases hr with
  | none stop =>
    have hin := stop call hstop
    cases call with
    | accepting x => simpa [sockets] using h.accepting hin
    | connecting x =>
      have hcall := h.calls (by rw [hin]; rfl)
      exact hcall
    | sending x peer rest written =>
      obtain ⟨rest', hin⟩ := hin
      simpa [sockets] using h.sending hin
    | receiving x len => simpa [sockets] using h.receiving hin
  | connect look _ _ _ _ stop =>
    rw [stop call hstop]
    simpa [sockets] using h.lookup look
  | send enter _ _ stop =>
    obtain ⟨rest', written, rfl⟩ := stop call hstop
    simpa [sockets] using h.sending enter
  | leak | create | bind | listen | drop | lose | accept | recv | close | share | other =>
    cases hstop

/-- **The invariant is kept.** -/
theorem after : Sound (s.after a.actor r) where
  good y := by
    refine ((h.edited hr y).good ((h.good y).imp fun z => .inl)).imp ?_
    rintro z (hz | hz)
    · exact (h.lives hr z).id hz
    · exact hz
  next := h.next_change hr
  fds hfd := h.fds_change hr hfd
  calls {p call} hcall x hx := by
    refine (h.lives hr x).id ?_
    by_cases hp : p = a.actor
    · subst hp
      simp only [System.after, Function.update_self] at hcall
      cases hout : r.outcome with
      | returned value =>
        rw [hout] at hcall
        cases hcall
      | blocked call' =>
        rw [hout] at hcall
        cases hcall
        exact h.stops hr hout x hx
    · simp only [System.after, Function.update_of_ne hp, Status.call_wake] at hcall
      exact h.calls hcall x hx

end

theorem step (h : Sound s) (a : Action P) : Sound (s.step a) := by
  rcases step_cases h.sized a with ⟨hstep, -⟩ | ⟨r, -, hr, hstep, -⟩
  · rw [hstep]
    exact h
  · rw [hstep]
    exact h.after hr

theorem occupied_step (h : Sound s) (hy : s.table.Occupied y) (a : Action P) :
    (s.step a).table.Occupied y := by
  rcases step_cases h.sized a with ⟨hstep, -⟩ | ⟨r, -, hr, hstep, -⟩
  · rwa [hstep]
  · rw [hstep]
    exact (h.lives hr y).id hy

theorem run (h : Sound s) (as : List (Action P)) : Sound (Runs.run System.step s as) :=
  Runs.invariant (fun _ a h => h.step a) as h

theorem occupied_run (h : Sound s) (hy : s.table.Occupied y) (as : List (Action P)) :
    (Runs.run System.step s as).table.Occupied y := by
  have hboth : Sound (Runs.run System.step s as) ∧ (Runs.run System.step s as).table.Occupied y :=
    Runs.invariant (I := fun s => Sound s ∧ s.table.Occupied y)
      (fun _ a hs => ⟨hs.1.step a, hs.1.occupied_step hs.2 a⟩) as ⟨h, hy⟩
  exact hboth.2

end Sound

/-- **Every reachable state is sound.** -/
theorem sound_reachable [DecidableEq P] (as : List (Action P)) :
    Sound (Runs.run System.step System.init as) := sound_init.run as

/-- **Sockets that are referred to are in use**, in every interleaving, by descriptors, links,
queues and waiting calls, and they stay in use whatever comes. -/
theorem sockets_stay_in_use [DecidableEq P] (as bs : List (Action P)) :
    let s := Runs.run System.step System.init as
    Sound s ∧ ∀ x, s.table.Occupied x → (Runs.run System.step s bs).table.Occupied x :=
  ⟨sound_reachable as, fun _ hx => (sound_reachable as).occupied_run hx bs⟩

end

end Utms7.Unix
