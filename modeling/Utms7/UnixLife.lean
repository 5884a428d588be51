import Mathlib.Data.Fintype.Card
import Utms7.UnixInvariant

/-!
# The life of sockets

Which socket is linked with which, which slots are in use, and who waits in a queue,
over whole runs of calls.

Of the fourteen changes only three touch the links: `unix_accept` makes one,
`unix_close` takes one away, and a new socket has none.  Slots are taken and never
given back.  The queue of a server loses clients that nobody gets where `unix_accept`
takes one out and then finds no slot or no descriptor for it, and where `unix_listen`
is called again.
-/

namespace Utms7.Unix

open List Runs Socket Table

section

variable {P : Type} {s : System P} {a : Action P} {t t' : Table P} {i new client x y : Slot}
  {as : List (Action P)}

/-! ## Links -/

/-- The link of a socket, whether it is connected and whether it is closed. -/
def Socket.ends (s : Socket) : Option Slot × Bool × Bool := (s.peer, s.connected, s.closed)

/-- What a step does to the links. -/
inductive Relink (s : System P) (a : Action P) (t : Table P) : Prop
  | kept (same : ∀ y, (t.sockets y).ends = (s.table.sockets y).ends ∨
      ¬ s.table.Occupied y ∧ (t.sockets y).ends = (none, false, false))
  | linked {x new client : Slot} (shut : Bool) (enter : s.accepting a = some x)
      (queue : (s.table.sockets x).backlogCount ≠ 0) (front : (s.table.sockets x).front = client)
      (slot : s.table.freeSlot = some new)
      (first : (t.sockets new).ends = (some client, true, shut))
      (second : (t.sockets client).ends = (some new, true, (s.table.sockets client).closed))
      (others : ∀ y, y ≠ new → y ≠ client → (t.sockets y).ends = (s.table.sockets y).ends)
  | closed {x : Slot} (enter : s.closing a = some x)
      (this : (t.sockets x).ends = ((s.table.sockets x).peer, (s.table.sockets x).connected, true))
      (peer : ∀ y, (s.table.sockets x).peer = some y →
        (t.sockets y).ends = (none, (s.table.sockets y).connected, (s.table.sockets y).closed))
      (others : ∀ y, y ≠ x → (s.table.sockets x).peer ≠ some y →
        (t.sockets y).ends = (s.table.sockets y).ends)

theorem alloc_ends (hslot : t.freeSlot = some i) (y : Slot) :
    ((t.alloc i).sockets y).ends = (t.sockets y).ends ∨
      ¬ t.Occupied y ∧ ((t.alloc i).sockets y).ends = (none, false, false) := by
  by_cases hy : y = i
  · subst hy
    refine .inr ⟨fun hocc => hocc (freeSlot_free hslot), ?_⟩
    rw [alloc_self]
    rfl
  · rw [alloc_of_ne hy]
    exact .inl rfl

theorem link_ends (hne : new ≠ client) :
    ((t.link new client).sockets new).ends = (some client, true, (t.sockets new).closed) ∧
      ((t.link new client).sockets client).ends = (some new, true, (t.sockets client).closed) ∧
      ∀ y, y ≠ new → y ≠ client → ((t.link new client).sockets y).ends = (t.sockets y).ends := by
  refine ⟨?_, ?_, fun y hnew hclient => ?_⟩
  · rw [link, modify_of_ne hne, modify_self]
    rfl
  · rw [link, modify_self, modify_of_ne hne.symm]
    rfl
  · rw [link, modify_of_ne hclient, modify_of_ne hnew]

/-- The links after `unix_accept` has found a slot. -/
theorem Sound.accept_ends (h : Sound s) (hqueue : (s.table.sockets x).backlogCount ≠ 0)
    (hslot : s.table.freeSlot = some new)
    (ht : t = ((s.table.modify x dequeue).alloc new).link new (s.table.sockets x).front) :
    (t.sockets new).ends = (some (s.table.sockets x).front, true, false) ∧
      (t.sockets (s.table.sockets x).front).ends =
        (some new, true, (s.table.sockets (s.table.sockets x).front).closed) ∧
      ∀ y, y ≠ new → y ≠ (s.table.sockets x).front →
        (t.sockets y).ends = (s.table.sockets y).ends := by
  subst ht
  have hne := h.new_ne_client hqueue hslot
  obtain ⟨hfirst, hsecond, hothers⟩ := link_ends (t := (s.table.modify x dequeue).alloc new) hne
  refine ⟨?_, ?_, fun y hnew hclient => ?_⟩
  · rw [hfirst, alloc_self]
    rfl
  · rw [hsecond, alloc_of_ne hne.symm, modify_keeps closed]
    exact fun _ => rfl
  · rw [hothers y hnew hclient, alloc_of_ne hnew]
    exact modify_keeps ends fun _ => rfl

theorem close_ends (hself : (t.sockets x).peer ≠ some x)
    (ht : t' = (t.modify x fun s => { s with closed := true }).unlink (t.sockets x).peer) :
    (t'.sockets x).ends = ((t.sockets x).peer, (t.sockets x).connected, true) ∧
      (∀ y, (t.sockets x).peer = some y →
        (t'.sockets y).ends = (none, (t.sockets y).connected, (t.sockets y).closed)) ∧
      ∀ y, y ≠ x → (t.sockets x).peer ≠ some y → (t'.sockets y).ends = (t.sockets y).ends := by
  subst ht
  cases hpeer : (t.sockets x).peer with
  | none =>
    refine ⟨?_, nofun, fun y hy _ => ?_⟩
    · rw [unlink, modify_self, ← hpeer]
      rfl
    · rw [unlink, modify_of_ne hy]
  | some z =>
    have hz : z ≠ x := fun heq => hself (by rw [hpeer, heq])
    refine ⟨?_, fun y hy => ?_, fun y hy hne => ?_⟩
    · rw [unlink, modify_of_ne hz.symm, modify_self, ← hpeer]
      rfl
    · cases hy
      rw [unlink, modify_self, modify_of_ne hz]
      rfl
    · have hyz : y ≠ z := fun heq => hne (by rw [heq])
      rw [unlink, modify_of_ne hyz, modify_of_ne hy]

/-! ## Symmetry -/

/-- Links between open sockets go both ways. -/
def Table.Symmetric (t : Table P) : Prop :=
  ∀ x y, (t.sockets x).closed = false → (t.sockets y).closed = false →
    (t.sockets x).peer = some y → (t.sockets y).peer = some x

/-- The condition: the client that is handed out has no other open peer, and the peer
of a socket that is closed is not linked with another one. -/
def System.Unlinked (s : System P) (a : Action P) : Prop :=
  (∀ x ∈ s.accepting a, (s.table.sockets x).backlogCount ≠ 0 →
    (s.table.sockets (s.table.sockets x).front).closed = true ∨
      ∀ z ∈ (s.table.sockets (s.table.sockets x).front).peer, (s.table.sockets z).closed = true) ∧
  ∀ x ∈ s.closing a, ∀ y ∈ (s.table.sockets x).peer, (s.table.sockets y).closed = true ∨
    ∀ z ∈ (s.table.sockets y).peer, z = x

instance (s : System P) (a : Action P) : Decidable (s.Unlinked a) :=
  @instDecidableAnd _ _ (Option.decidableForallMem _) (Option.decidableForallMem _)

theorem Relink.symmetric (h : Sound s) (hr : Relink s a t) (hs : s.table.Symmetric)
    (hok : s.Unlinked a) : t.Symmetric := by
  have hread : ∀ {y p c b}, (t.sockets y).ends = (p, c, b) →
      (t.sockets y).peer = p ∧ (t.sockets y).closed = b := by
    intro y p c b hends
    cases hends
    exact ⟨rfl, rfl⟩
  intro u v hu hv hpeer
  cases hr with
  | kept same =>
    rcases same u with hsame | ⟨-, hnew⟩
    · obtain ⟨hp, hc⟩ := hread hsame
      rw [hp] at hpeer
      rw [hc] at hu
      rcases same v with hsame' | ⟨hfree, -⟩
      · obtain ⟨hp', hc'⟩ := hread hsame'
        rw [hc'] at hv
        rw [hp']
        exact hs u v hu hv hpeer
      · exact absurd ((h.good u).peer v hpeer).1 hfree
    · rw [(hread hnew).1] at hpeer
      cases hpeer
  | @linked x new client shut enter queue front slot first second others =>
    have hfree : ¬ s.table.Occupied new := fun hocc => hocc (freeSlot_free slot)
    obtain ⟨hp1, -⟩ := hread first
    obtain ⟨hp2, hc2⟩ := hread second
    by_cases hun : u = new
    · rw [hun, hp1] at hpeer
      cases hpeer
      rw [hp2, hun]
    by_cases huc : u = client
    · rw [huc, hp2] at hpeer
      cases hpeer
      rw [hp1, huc]
    obtain ⟨hp, hc⟩ := hread (others u hun huc)
    rw [hp] at hpeer
    rw [hc] at hu
    by_cases hvn : v = new
    · exact absurd ((h.good u).peer v hpeer).1 (hvn ▸ hfree)
    by_cases hvc : v = client
    · -- the client was linked with `u`
      rw [hvc, hc2] at hv
      rw [hvc] at hpeer
      have hback := hs u client hu hv hpeer
      subst front
      rcases hok.1 x enter queue with hclosed | hclosed
      · rw [hclosed] at hv
        cases hv
      · rw [hclosed u hback] at hu
        cases hu
    · obtain ⟨hp', hc'⟩ := hread (others v hvn hvc)
      rw [hc'] at hv
      rw [hp']
      exact hs u v hu hv hpeer
  | @closed x enter this peer others =>
    have hux : u ≠ x := by
      rintro rfl
      rw [(hread this).2] at hu
      cases hu
    have hvx : v ≠ x := by
      rintro rfl
      rw [(hread this).2] at hv
      cases hv
    by_cases hup : (s.table.sockets x).peer = some u
    · rw [(hread (peer u hup)).1] at hpeer
      cases hpeer
    obtain ⟨hp, hc⟩ := hread (others u hux hup)
    rw [hp] at hpeer
    rw [hc] at hu
    by_cases hvp : (s.table.sockets x).peer = some v
    · obtain ⟨-, hcv⟩ := hread (peer v hvp)
      rw [hcv] at hv
      have hback := hs u v hu hv hpeer
      rcases hok.2 x enter v hvp with hclosed | honly
      · rw [hclosed] at hv
        cases hv
      · exact absurd (honly u hback) hux
    · obtain ⟨hp', hc'⟩ := hread (others v hvx hvp)
      rw [hc'] at hv
      rw [hp']
      exact hs u v hu hv hpeer

/-! ## The end of a connection -/

/-- Connected sockets that are open have a peer. -/
def Table.Held (t : Table P) : Prop :=
  ∀ x, (t.sockets x).connected = true → (t.sockets x).closed = false → (t.sockets x).peer ≠ none

/-- The condition: a socket is closed after its peer. -/
def System.Unwaited (s : System P) (a : Action P) : Prop :=
  ∀ x ∈ s.closing a, ∀ y ∈ (s.table.sockets x).peer, (s.table.sockets y).closed = true

instance (s : System P) (a : Action P) : Decidable (s.Unwaited a) := Option.decidableForallMem _

theorem Relink.held (hr : Relink s a t) (hs : s.table.Held) (hok : s.Unwaited a) : t.Held := by
  have hread : ∀ {y p c b}, (t.sockets y).ends = (p, c, b) →
      (t.sockets y).peer = p ∧ (t.sockets y).connected = c ∧ (t.sockets y).closed = b := by
    intro y p c b hends
    cases hends
    exact ⟨rfl, rfl, rfl⟩
  have hsame : ∀ {y}, (t.sockets y).ends = (s.table.sockets y).ends →
      (t.sockets y).connected = true → (t.sockets y).closed = false →
        (t.sockets y).peer ≠ none := by
    intro y hends hconn hopen
    obtain ⟨hp, hc, hb⟩ := hread hends
    rw [hp]
    exact hs y (hc ▸ hconn) (hb ▸ hopen)
  intro u hconn hopen
  cases hr with
  | kept same =>
    rcases same u with hends | ⟨-, hnew⟩
    · exact hsame hends hconn hopen
    · rw [(hread hnew).2.1] at hconn
      cases hconn
  | @linked x new client shut enter queue front slot first second others =>
    by_cases hun : u = new
    · rw [hun, (hread first).1]
      simp
    by_cases huc : u = client
    · rw [huc, (hread second).1]
      simp
    exact hsame (others u hun huc) hconn hopen
  | @closed x enter this peer others =>
    by_cases hux : u = x
    · rw [hux, (hread this).2.2] at hopen
      cases hopen
    by_cases hup : (s.table.sockets x).peer = some u
    · rw [(hread (peer u hup)).2.2, hok x enter u hup] at hopen
      cases hopen
    exact hsame (others u hux hup) hconn hopen

/-- The peer of the socket has been closed: either the link is gone, or it leads to a
closed socket. -/
def Table.PeerGone (t : Table P) (x : Slot) : Prop :=
  ∀ y ∈ (t.sockets x).peer, (t.sockets y).closed = true

theorem Table.Held.recvLoop (h : t.Held)
    (hconn : (t.sockets x).connected = true) (hempty : (t.sockets x).writeLen = 0)
    (hgone : t.PeerGone x) (len : Int) : (recvLoop t x len).outcome = .returned 0 := by
  unfold Unix.recvLoop
  rw [if_pos hempty]
  cases hclosed : (t.sockets x).closed with
  | true => rfl
  | false =>
    obtain ⟨y, hy⟩ := Option.ne_none_iff_exists'.mp (h x hconn hclosed)
    rw [if_pos (by simp [peerClosed, hy, hgone y hy])]
    rfl

/-! ## Slots -/

/-- How many entries of the table are in use. -/
def Table.occupied (t : Table P) : Nat := (Finset.univ.filter fun x => t.Occupied x).card

/-- What an event adds to the number of sockets that are open. -/
def Event.weight : Event → Int
  | .created _ => 1
  | .accepted _ _ _ => 1
  | .closed _ => -1
  | _ => 0

/-- The sockets that were handed out and not yet closed. -/
def openSockets : List Event → Int
  | [] => 0
  | e :: es => e.weight + openSockets es

theorem openSockets_append (es fs : List Event) :
    openSockets (es ++ fs) = openSockets es + openSockets fs := by
  induction es with
  | nil => simp [openSockets]
  | cons e es ih =>
    simp only [cons_append, openSockets]
    omega

theorem occupied_congr (h : ∀ y, (t'.sockets y).id = (t.sockets y).id) :
    t'.occupied = t.occupied := by
  simp only [occupied, Table.Occupied, h]

theorem occupied_alloc (hslot : t.freeSlot = some i) (hnext : t.nextId ≠ 0) :
    (t.alloc i).occupied = t.occupied + 1 := by
  have hfree : i ∉ Finset.univ.filter fun x => t.Occupied x := by
    rw [Finset.mem_filter]
    exact fun hocc => hocc.2 (freeSlot_free hslot)
  rw [occupied, occupied, ← Finset.card_insert_of_notMem hfree]
  congr 1
  ext y
  rw [Finset.mem_insert, Finset.mem_filter, Finset.mem_filter]
  by_cases hy : y = i
  · subst hy
    simpa [Table.Occupied] using hnext
  · simp [Table.Occupied, alloc_of_ne hy, hy]

theorem occupied_accept (h : Sound s) (x client : Slot) (hslot : s.table.freeSlot = some new) :
    (((s.table.modify x Socket.dequeue).alloc new).link new client).occupied =
      s.table.occupied + 1 := by
  have hids : ∀ y, ((s.table.modify x Socket.dequeue).sockets y).id = (s.table.sockets y).id :=
    fun _ => dequeue_id
  rw [occupied_congr fun y => link_keeps Socket.id fun _ _ => rfl,
    occupied_alloc ((freeSlot_dequeue x).trans hslot) h.next, occupied_congr hids]

theorem occupied_full (h : t.freeSlot = none) : t.occupied = 64 := by
  have hall : (Finset.univ.filter fun x => t.Occupied x) = Finset.univ := by
    refine Finset.filter_true_of_mem fun x _ => ?_
    have hnot := find?_eq_none.mp h x (mem_finRange x)
    simpa [Table.Occupied] using hnot
  rw [occupied, hall]
  rfl

theorem occupied_init : (System.init (P := P)).table.occupied = 0 := by
  simp [occupied, Table.Occupied, System.init, zero]

variable [DecidableEq P] {r : Reply P}

/-- **The links after a change.** -/
theorem Change.relink (h : Sound s) (hr : Change s a r) : Relink s a r.table := by
  cases hr with
  | none | share | other => exact .kept fun _ => .inl rfl
  | leak _ slot | create _ slot => exact .kept (alloc_ends slot)
  | bind | listen | drop | connect | send =>
    refine .kept fun y => .inl ?_
    simp only [returns_table]
    exact modify_keeps ends fun _ => rfl
  | @recv a x len =>
    refine .kept fun y => .inl ?_
    simp only
    refine modify_keeps ends fun q => ?_
    obtain ⟨pos, len', heq⟩ := q.copyOut_frame len.toNat
    rw [heq]
    rfl
  | @lose a x new enter queue slot =>
    obtain ⟨hfirst, hsecond, hothers⟩ := h.accept_ends queue slot rfl
    have hne := h.new_ne_client queue slot
    refine .linked true enter queue rfl slot ?_ ?_ ?_
    · rw [returns_table, modify_self]
      exact congrArg (fun e : Option Slot × Bool × Bool => (e.1, e.2.1, true)) hfirst
    · rw [returns_table, modify_of_ne hne.symm]
      exact hsecond
    · intro y hnew hclient
      rw [returns_table, modify_of_ne hnew]
      exact hothers y hnew hclient
  | @accept a x new fd enter queue slot =>
    obtain ⟨hfirst, hsecond, hothers⟩ := h.accept_ends queue slot rfl
    exact .linked false enter queue rfl slot hfirst hsecond hothers
  | @close p fd x enter =>
    have hself : (s.table.sockets x).peer ≠ some x := fun hself => ((h.good x).peer x hself).2 rfl
    obtain ⟨hthis, hpeer, hothers⟩ := close_ends hself rfl
    exact .closed enter hthis hpeer hothers

/-- The condition: nobody without a free descriptor makes a socket or is handed a
client, and no open socket is closed. -/
def System.Roomy (s : System P) (a : Action P) : Prop :=
  (∀ p ∈ s.creating a, s.table.freeSlot ≠ none → s.table.freeFd p ≠ none) ∧
  (∀ x ∈ s.accepting a, (s.table.sockets x).backlogCount ≠ 0 → s.table.freeSlot ≠ none →
    s.table.freeFd a.actor ≠ none) ∧
  ∀ x ∈ s.closing a, (s.table.sockets x).closed = true

instance (s : System P) (a : Action P) : Decidable (s.Roomy a) :=
  @instDecidableAnd _ _ (Option.decidableForallMem _)
    (@instDecidableAnd _ _ (Option.decidableForallMem _) (Option.decidableForallMem _))

/-- Under the condition a slot is taken for each socket that is handed out. -/
theorem Change.occupied (h : Sound s) (hr : Change s a r) (hok : s.Roomy a) :
    (r.table.occupied : Int) = s.table.occupied + openSockets r.events := by
  obtain ⟨hcreate, haccept, hclose⟩ := hok
  have hkept : (∀ y, (r.table.sockets y).id = (s.table.sockets y).id) → openSockets r.events = 0 →
      (r.table.occupied : Int) = s.table.occupied + openSockets r.events := by
    intro hids hzero
    rw [occupied_congr hids, hzero, Int.add_zero]
  cases hr with
  | none | share | other => exact hkept (fun _ => rfl) rfl
  | leak enter slot fds => exact absurd fds (hcreate _ enter (by simp [slot]))
  | create enter slot =>
    have hone := occupied_alloc slot h.next
    exact congrArg Int.ofNat hone
  | lose enter queue slot fds => exact absurd fds (haccept _ enter queue (by simp [slot]))
  | @accept a x new fd enter queue slot =>
    have hone := occupied_accept h x (s.table.sockets x).front slot
    exact congrArg Int.ofNat hone
  | bind | listen | drop | connect | send =>
    refine hkept (fun y => ?_) rfl
    simp only [returns_table]
    exact modify_keeps Socket.id fun _ => rfl
  | @recv a x len =>
    refine hkept (fun y => ?_) rfl
    simp only
    refine modify_keeps Socket.id fun q => ?_
    obtain ⟨pos, len', heq⟩ := q.copyOut_frame len.toNat
    rw [heq]
  | close enter =>
    have hclosed := hclose _ enter
    refine hkept (fun y => ?_) (by simp [hclosed, openSockets])
    exact (unlink_keeps Socket.id (fun _ => rfl) _).trans (modify_keeps Socket.id fun _ => rfl)

/-! ## Whole runs -/

/-- A property of tables that every allowed change keeps holds after every allowed
run. -/
theorem guarded_table {I : Table P → Prop} {ok : System P → Action P → Prop}
    (hstep : ∀ {s a r}, Sound s → Change s a r → I s.table → ok s a → I r.table)
    (hguard : Runs.Guarded System.step ok System.init as) (hinit : I (System.init (P := P)).table) :
    I (run System.step System.init as).table := by
  have hboth : Sound (run System.step System.init as) ∧
      I (run System.step System.init as).table := by
    refine Runs.Guarded.invariant (I := fun s => Sound s ∧ I s.table) ?_ hguard ⟨sound_init, hinit⟩
    rintro s a ⟨hs, hI⟩ hok
    refine ⟨hs.step a, ?_⟩
    rcases step_cases hs.sized a with ⟨heq, -⟩ | ⟨r, -, hr, heq, -⟩
    · rw [heq]
      exact hI
    · rw [heq]
      exact hstep hs hr hI hok
  exact hboth.2

theorem run_occupied (h : Sound s) (hok : Runs.Guarded System.step System.Roomy s as) :
    ((run System.step s as).table.occupied : Int) =
      s.table.occupied + openSockets (s.history as) := by
  induction as generalizing s with
  | nil => simp [System.history, openSockets]
  | cons a as ih =>
    obtain ⟨hfirst, hrest⟩ := hok
    have hstep : ((s.step a).table.occupied : Int) =
        s.table.occupied + openSockets (s.events a) := by
      rcases step_cases h.sized a with ⟨heq, hevents⟩ | ⟨r, -, hr, heq, hevents⟩
      · rw [heq, hevents]
        simp [openSockets]
      · rw [heq, hevents]
        exact hr.occupied h hfirst
    rw [run_cons, ih (h.step a) hrest, hstep, System.history, openSockets_append, Int.add_assoc]

/-- **The life of sockets.**  Links are symmetric in runs where a client that is
handed out has no other open peer; the end of a connection is seen in runs where a
socket is closed after its peer; and the entries in use are the open sockets in runs
where none is closed and none lost for want of a descriptor. -/
theorem sockets_lifecycle (as : List (Action P)) :
    (Runs.Guarded System.step System.Unlinked System.init as →
      (Runs.run System.step System.init as).table.Symmetric) ∧
    (Runs.Guarded System.step System.Unwaited System.init as → ∀ a x len,
      (Runs.run System.step System.init as).receiving a = some (x, len) →
      ((Runs.run System.step System.init as).table.sockets x).connected = true →
      ((Runs.run System.step System.init as).table.sockets x).writeLen = 0 →
      (Runs.run System.step System.init as).table.PeerGone x →
      ((Runs.run System.step System.init as).reply a).map Reply.outcome = some (.returned 0)) ∧
    (Runs.Guarded System.step System.Roomy System.init as →
      ((Runs.run System.step System.init as).table.occupied : Int) =
        openSockets (System.init.history as) ∧
      ∀ p, (unixSocketCreate (Runs.run System.step System.init as).table p).outcome =
        .returned (-1) →
        openSockets (System.init.history as) = 64 ∨
          (Runs.run System.step System.init as).table.freeFd p = none) := by
  refine ⟨fun hok => ?_, fun hok a x len hrecv hconn hempty hgone => ?_, fun hok => ?_⟩
  · refine guarded_table (I := Table.Symmetric) ?_ hok ?_
    · exact fun hs hr hI hok => (hr.relink hs).symmetric hs hI hok
    · exact fun _ _ _ _ h => by cases h
  · have hheld : (run System.step System.init as).table.Held := by
      refine guarded_table (I := Table.Held) ?_ hok ?_
      · exact fun hs hr hI hok => (hr.relink hs).held hI hok
      · exact fun _ h => by cases h
    rw [reply_receiving hrecv]
    exact congrArg some (hheld.recvLoop hconn hempty hgone len)
  · have hcount : ((run System.step System.init as).table.occupied : Int) =
        openSockets (System.init.history as) := by
      have hrun := run_occupied sound_init hok
      rw [occupied_init] at hrun
      omega
    refine ⟨hcount, fun p hp => ?_⟩
    unfold unixSocketCreate at hp
    split at hp
    · rename_i hfull
      left
      rw [← hcount, occupied_full hfull]
      rfl
    · simp only [freeFd_alloc] at hp
      split at hp
      · exact .inr ‹_›
      · simp only [Outcome.returned.injEq] at hp
        omega

/-! ## Queues -/

/-- The clients that joined the queue of `y`, in this order. -/
def requests (y : Slot) (history : List Event) : List Slot :=
  history.filterMap fun
    | .requested server client => if server = y then some client else none
    | _ => none

/-- The clients of `y` that were handed out, in this order. -/
def grants (y : Slot) (history : List Event) : List Slot :=
  history.filterMap fun
    | .accepted server client _ => if server = y then some client else none
    | _ => none

/-- The condition: `unix_listen` is not called while clients wait, and where
`unix_accept` takes out a client, it is not closed and there are a slot and a
descriptor for it. -/
def System.Served (y : Slot) (s : System P) (a : Action P) : Prop :=
  (∀ x ∈ s.listening a, x = y → (s.table.sockets y).closed = false → (s.table.sockets y).path ≠ [] →
    (s.table.sockets y).backlogCount = 0) ∧
  ∀ x ∈ s.accepting a, x = y → (s.table.sockets y).backlogCount ≠ 0 →
    (s.table.sockets (s.table.sockets y).front).closed = false ∧ s.table.freeSlot ≠ none ∧
      s.table.freeFd a.actor ≠ none

instance (y : Slot) (s : System P) (a : Action P) : Decidable (s.Served y a) :=
  @instDecidableAnd _ _ (Option.decidableForallMem _) (Option.decidableForallMem _)

section

variable (h : Sound s) (hy : s.table.Occupied y)
include h hy

/-- **Nobody is lost from the queue and nobody overtakes.** -/
theorem Change.queue (hok : s.Served y a)
    (hr : Change s a r) : grants y r.events ++ (r.table.sockets y).queue =
      (s.table.sockets y).queue ++ requests y r.events := by
  obtain ⟨hlisten, haccept⟩ := hok
  have hnew : ∀ {i : Slot}, s.table.freeSlot = some i → y ≠ i := by
    rintro i hslot rfl
    exact hy (freeSlot_free hslot)
  have hquiet : (r.table.sockets y).queue = (s.table.sockets y).queue → r.events = [] →
      grants y r.events ++ (r.table.sockets y).queue =
        (s.table.sockets y).queue ++ requests y r.events := by
    intro hqueue hevents
    rw [hevents, hqueue]
    exact (append_nil _).symm
  cases hr with
  | none | share | other => exact hquiet rfl rfl
  | leak _ slot =>
    refine hquiet ?_ rfl
    rw [returns_table, alloc_of_ne (hnew slot)]
  | create _ slot => simp [grants, requests, alloc_of_ne (hnew slot)]
  | bind =>
    refine hquiet ?_ rfl
    simp only [returns_table]
    exact modify_keeps Socket.queue fun _ => rfl
  | @listen p fd x enter opened bound =>
    refine hquiet ?_ rfl
    rw [returns_table]
    by_cases hx : y = x
    · subst hx
      have hempty := hlisten y enter rfl opened bound
      simp [Socket.queue, hempty]
    · rw [modify_of_ne hx]
  | @drop a x enter queue slots =>
    refine hquiet ?_ rfl
    rw [returns_table]
    by_cases hx : x = y
    · subst hx
      exact absurd slots (haccept x enter rfl queue).2.1
    · rw [modify_of_ne (Ne.symm hx)]
  | @lose a x new enter queue slot fds =>
    refine hquiet ?_ rfl
    rw [returns_table, modify_of_ne (hnew slot)]
    by_cases hx : x = y
    · subst hx
      exact absurd fds (haccept x enter rfl queue).2.2
    · rw [link_keeps Socket.queue fun _ _ => rfl, alloc_of_ne (hnew slot),
        modify_of_ne (Ne.symm hx)]
  | @accept a x new fd enter queue slot =>
    simp only [setFd_sockets]
    rw [link_keeps Socket.queue fun _ _ => rfl, alloc_of_ne (hnew slot)]
    by_cases hx : x = y
    · subst hx
      rw [Socket.queue_dequeue queue]
      simp [grants, requests]
    · rw [modify_of_ne (Ne.symm hx)]
      simp [grants, requests, hx]
  | @connect p fd path x server o look opened found listening room =>
    by_cases hx : server = y
    · subst hx
      rw [modify_self, (h.good server).lined.queue_enqueue room]
      simp [grants, requests]
    · rw [modify_of_ne (Ne.symm hx)]
      simp [grants, requests, hx]
  | send =>
    simp only
    rw [modify_keeps Socket.queue]
    · simp [grants, requests]
    · exact fun _ => rfl
  | @recv a x len =>
    simp only
    rw [modify_keeps Socket.queue]
    · simp [grants, requests]
    · intro q
      obtain ⟨pos, len', heq⟩ := q.copyOut_frame len.toNat
      rw [heq]
      rfl
  | @close p fd x =>
    have hnone : grants y (if (s.table.sockets x).closed then [] else [.closed x]) = [] ∧
        requests y (if (s.table.sockets x).closed then [] else [.closed x]) = [] := by
      split <;> exact ⟨rfl, rfl⟩
    simp only [hnone, append_nil]
    exact (unlink_keeps Socket.queue (fun _ => rfl) _).trans
      (modify_keeps Socket.queue fun _ => rfl)

theorem step_queue (hok : s.Served y a) :
    grants y (s.events a) ++ ((s.step a).table.sockets y).queue =
      (s.table.sockets y).queue ++ requests y (s.events a) := by
  rcases step_cases h.sized a with ⟨hstep, hevents⟩ | ⟨r, -, hr, hstep, hevents⟩
  · rw [hstep, hevents]
    exact (append_nil _).symm
  · rw [hstep, hevents]
    exact hr.queue h hy hok

theorem run_queue
    (hok : Runs.Guarded System.step (System.Served y) s as) :
    grants y (s.history as) ++ ((run System.step s as).table.sockets y).queue =
      (s.table.sockets y).queue ++ requests y (s.history as) := by
  induction as generalizing s with
  | nil => exact (append_nil _).symm
  | cons a as ih =>
    obtain ⟨hfirst, hrest⟩ := hok
    have hstep := step_queue h hy hfirst
    have hrun := ih (h.step a) (h.occupied_step hy a) hrest
    rw [System.history, grants, requests, filterMap_append, filterMap_append]
    rw [append_assoc]
    refine (congrArg _ hrun).trans ?_
    rw [← append_assoc, ← append_assoc]
    exact congrArg (· ++ _) hstep

end

/-- What a call means to the queue of `y`: with clients in it `unix_accept` succeeds
with the first of them, which is not closed, and a call that hands nobody out and
queues nobody leaves the queue alone. -/
structure Survives (y : Slot) (s : System P) (a : Action P) : Prop where
  served : s.accepting a = some y → ∀ client rest, (s.table.sockets y).queue = client :: rest →
    ∃ (new : Slot) (fd : Fin 32), s.events a = [.accepted y client new] ∧
      (s.reply a).map Reply.outcome = some (.returned fd)
  alive : ∀ client new, .accepted y client new ∈ s.events a →
    (s.table.sockets client).closed = false
  kept : s.events a = [] → ((s.step a).table.sockets y).queue = (s.table.sockets y).queue

theorem Socket.queue_cons {q : Socket} {rest : List Slot} (h : q.queue = client :: rest) :
    q.backlogCount ≠ 0 ∧ q.front = client := by
  have hcount : q.backlogCount ≠ 0 := by
    intro hzero
    rw [queue, hzero] at h
    cases h
  rw [queue_dequeue hcount] at h
  exact ⟨hcount, (List.cons.inj h).1⟩

theorem Change.of_accepted (hr : Change s a r) (h : Event.accepted y client new ∈ r.events) :
    s.accepting a = some y ∧ (s.table.sockets y).backlogCount ≠ 0 ∧
      (s.table.sockets y).front = client := by
  cases hr with
  | accept enter queue =>
    obtain ⟨rfl, rfl, -⟩ : y = _ ∧ client = _ ∧ new = _ := by simpa using h
    exact ⟨enter, queue, rfl⟩
  | none | leak | bind | listen | drop | lose | share | other => cases h
  | create | connect | send | recv => simp at h
  | close =>
    simp only at h
    split at h
    · cases h
    · simp at h

/-- **One call.** -/
theorem Sound.survives (h : Sound s) (hy : s.table.Occupied y) (hok : s.Served y a) :
    Survives y s a where
  served henter client rest hqueue := by
    obtain ⟨hcount, rfl⟩ := queue_cons hqueue
    obtain ⟨-, hslot, hfd⟩ := hok.2 y henter rfl hcount
    obtain ⟨new, hnew⟩ := Option.ne_none_iff_exists'.mp hslot
    obtain ⟨fd, hfree⟩ := Option.ne_none_iff_exists'.mp hfd
    have hreply := reply_accepting henter
    have hloop : acceptLoop s.table a.actor y = ⟨(((s.table.modify y dequeue).alloc new).link
        new (s.table.sockets y).front).setFd a.actor fd (some (.unix new)),
        [(s.table.sockets y).front], [.accepted y (s.table.sockets y).front new],
          .returned fd⟩ := by
      unfold acceptLoop acceptClient
      simp only [if_neg hcount, freeSlot_dequeue, hnew, freeFd_link, freeFd_alloc,
        freeFd_modify, hfree]
    refine ⟨new, fd, ?_, ?_⟩
    · simp only [System.events, hreply, hloop]
    · rw [hreply, hloop]
      rfl
  alive client new hmem := by
    rcases step_cases h.sized a with ⟨-, hevents⟩ | ⟨r, -, hr, -, hevents⟩
    · rw [hevents] at hmem
      cases hmem
    · rw [hevents] at hmem
      obtain ⟨henter, hcount, rfl⟩ := hr.of_accepted hmem
      exact (hok.2 y henter rfl hcount).1
  kept hevents := by
    have hlaw := step_queue h hy hok
    rw [hevents] at hlaw
    simpa [grants, requests] using hlaw

/-- **Pending connections.**  In runs that meet the condition the requests that were
queued are those that were handed out and those that still wait, in the order of their
arrival, and the next call serves the queue or leaves it alone. -/
theorem requests_survive (before : List (Action P)) {y : Slot}
    (hy : (Runs.run System.step System.init before).table.Occupied y) (as : List (Action P))
    (hok : Runs.Guarded System.step (System.Served y)
      (Runs.run System.step System.init before) as) :
    grants y ((Runs.run System.step System.init before).history as) ++
        ((Runs.run System.step (Runs.run System.step System.init before) as).table.sockets
          y).queue =
      ((Runs.run System.step System.init before).table.sockets y).queue ++
        requests y ((Runs.run System.step System.init before).history as) ∧
    ∀ a, (Runs.run System.step (Runs.run System.step System.init before) as).Served y a →
      Survives y (Runs.run System.step (Runs.run System.step System.init before) as) a := by
  have hsound := sound_reachable before
  generalize run System.step System.init before = s at hy hok hsound ⊢
  refine ⟨run_queue hsound hy hok, fun a ha => ?_⟩
  have hocc : (run System.step s as).table.Occupied y := hsound.occupied_run hy as
  exact (hsound.run as).survives hocc ha

end

/-! ## Runs of two processes -/

/-- The server listens at a path and the client waits in its queue. -/
def queueing : List (Action Bool) :=
  [.create false, .bind false 0 [65], .listen false 0, .create true, .connect true 0 [65]]

/-- The client's socket is closed through a descriptor of the server while it waits, and
handed out after that. -/
def abandoned : List (Action Bool) :=
  [.create false, .bind false 0 [65], .listen false 0, .create true,
    .share true ⟨0, by decide⟩ false ⟨5, by decide⟩, .connect true 0 [65], .close false 5,
    .accept false 0]

/-- The entries of a server and a client that are linked; a server that reads from a client
that is gone. -/
theorem sockets_lifecycle_pair :
    (Runs.run System.step System.init (queueing ++ [.accept false 0])).table.Symmetric ∧
    ((Runs.run System.step System.init (queueing ++ [.accept false 0])).table.occupied : Int) =
      openSockets (System.init.history (queueing ++ [.accept false 0])) ∧
    openSockets (System.init.history (queueing ++ [.accept false 0])) = 3 ∧
    ((Runs.run System.step System.init abandoned).reply (.recv false 1 5)).map Reply.outcome =
      some (.returned 0) := by
  obtain ⟨hlinks, -, hslots⟩ := sockets_lifecycle (queueing ++ [.accept false 0])
  refine ⟨hlinks (by decide +kernel), (hslots (by decide +kernel)).1, by decide +kernel, ?_⟩
  refine (sockets_lifecycle abandoned).2.1 (by decide +kernel) _ 2 5 (by decide +kernel)
    (by decide +kernel) (by decide +kernel) ?_
  unfold Table.PeerGone
  decide +kernel

/-- The server closes its end. -/
def hangingUp : List (Action Bool) := queueing ++ [.accept false 0, .resume true, .close false 1]

/-- The client is not told, and it waits; the entry of the server's end stays in use. -/
theorem closed_peer_not_seen :
    (Runs.run System.step System.init hangingUp).receiving (.recv true 0 5) = some (1, 5) ∧
    ((Runs.run System.step System.init hangingUp).table.sockets 1).connected = true ∧
    ((Runs.run System.step System.init hangingUp).table.sockets 1).writeLen = 0 ∧
    (Runs.run System.step System.init hangingUp).table.PeerGone 1 ∧
    ((Runs.run System.step System.init hangingUp).reply (.recv true 0 5)).map Reply.outcome =
      some (.blocked (.receiving 1 5)) ∧ Event.closed 2 ∈ System.init.history hangingUp ∧
    (Runs.run System.step System.init hangingUp).table.Occupied 2 := by
  refine ⟨by decide +kernel, by decide +kernel, by decide +kernel, ?_, by decide +kernel,
    by decide +kernel, by decide +kernel⟩
  unfold Table.PeerGone
  decide +kernel

/-- The client in the queue is handed out. -/
theorem requests_survive_accept :
    grants 0 ((Runs.run System.step System.init queueing).history [.accept false 0]) ++
        ((Runs.run System.step (Runs.run System.step System.init queueing)
          [.accept false 0]).table.sockets 0).queue =
      ((Runs.run System.step System.init queueing).table.sockets 0).queue ++
        requests 0 ((Runs.run System.step System.init queueing).history [.accept false 0]) ∧
    Survives 0 (Runs.run System.step System.init queueing) (.accept false 0) :=
  ⟨(requests_survive queueing (by decide +kernel) [.accept false 0] (by decide +kernel)).1,
    (requests_survive queueing (by decide +kernel) [] trivial).2 _ (by decide +kernel)⟩

/-- `unix_listen` once more, and the client is out of the queue. -/
theorem listen_drops_requests :
    ((Runs.run System.step System.init queueing).table.sockets 0).queue = [1] ∧
    (((Runs.run System.step System.init queueing).step (.listen false 0)).table.sockets
      0).queue = [] :=
  ⟨by decide +kernel, by decide +kernel⟩

end Utms7.Unix
