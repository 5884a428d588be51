import Utms7.UnixSockets

/-!
# What a call on a socket can do

Each action makes one of a dozen changes to the table, or none.  `reply_change` says
which, with the conditions under which the call gets there; the invariants are proved
from it change by change.
-/

namespace Utms7.Unix

open Function Unix.Action

/-- `write_len` is in range. -/
def Socket.Sized (s : Socket) : Prop := 0 ≤ s.writeLen ∧ s.writeLen ≤ 4096

/-! ## The copying loops -/

/-- `copyOut` moves the position and the length, and nothing else. -/
theorem Socket.copyOut_frame (n : Nat) (s : Socket) :
    ∃ pos len, (s.copyOut n).2 = { s with writePos := pos, writeLen := len } := by
  induction n generalizing s with
  | zero => exact ⟨s.writePos, s.writeLen, rfl⟩
  | succ n ih =>
    unfold Socket.copyOut
    split
    · exact ih _
    · exact ⟨s.writePos, s.writeLen, rfl⟩

/-- A byte is taken only from a buffer that holds one. -/
theorem Socket.Sized.copyOut {s : Socket} (h : s.Sized) (n : Nat) : (s.copyOut n).2.Sized := by
  induction n generalizing s with
  | zero => exact h
  | succ n ih =>
    unfold Socket.copyOut
    split
    · obtain ⟨hlo, hhi⟩ := h
      refine ih ⟨?_, ?_⟩
      · simp only
        omega
      · simp only
        omega
    · exact h

/-- At most the room that is left is filled. -/
theorem Socket.Sized.copyIn {s : Socket} (h : s.Sized) (rest : List UInt8) :
    (s.copyIn (rest.take (s.toCopy rest))).Sized := by
  obtain ⟨hlo, hhi⟩ := h
  have hlen : (rest.take (s.toCopy rest)).length ≤ (4096 - s.writeLen).toNat := by
    rw [List.length_take, Socket.toCopy]
    omega
  refine ⟨?_, ?_⟩
  · simp only [Socket.copyIn]
    omega
  · simp only [Socket.copyIn]
    omega

section

variable {P : Type} {t : Table P}

section Table

variable {t : Table P} {x y : Slot} {f : Socket → Socket} {β : Type}

@[simp] theorem modify_self : (t.modify x f).sockets x = f (t.sockets x) := update_self ..

theorem modify_of_ne (h : y ≠ x) : (t.modify x f).sockets y = t.sockets y := update_of_ne h ..

/-- What `f` leaves alone is left alone in the whole table. -/
theorem modify_keeps (g : Socket → β) (h : ∀ s, g (f s) = g s) :
    g ((t.modify x f).sockets y) = g (t.sockets y) := by
  by_cases hy : y = x
  · subst hy
    rw [modify_self, h]
  · rw [modify_of_ne hy]

/-- What a connection leaves alone. -/
theorem link_keeps (g : Socket → β)
    (h : ∀ s peer, g { s with connected := true, peer := some peer } = g s) {new client : Slot} :
    g ((t.link new client).sockets y) = g (t.sockets y) :=
  (modify_keeps g fun s => h s new).trans (modify_keeps g fun s => h s client)

/-- What the loss of a peer leaves alone. -/
theorem unlink_keeps (g : Socket → β) (h : ∀ s, g { s with peer := none } = g s)
    (peer : Option Slot) : g ((t.unlink peer).sockets y) = g (t.sockets y) := by
  cases peer with
  | none => rfl
  | some z => exact modify_keeps g h

@[simp] theorem modify_nextId : (t.modify x f).nextId = t.nextId := rfl

@[simp] theorem modify_fds : (t.modify x f).fds = t.fds := rfl

@[simp] theorem alloc_self : (t.alloc x).sockets x = { Socket.zero with id := t.nextId } :=
  update_self ..

theorem alloc_of_ne (h : y ≠ x) : (t.alloc x).sockets y = t.sockets y := update_of_ne h ..

@[simp] theorem alloc_fds : (t.alloc x).fds = t.fds := rfl

@[simp] theorem link_fds : (t.link x y).fds = t.fds := rfl

@[simp] theorem setFd_sockets [DecidableEq P] (p : P) (fd : Fin 32) (e : Option Fd) :
    (t.setFd p fd e).sockets = t.sockets := rfl

@[simp] theorem setFd_nextId [DecidableEq P] (p : P) (fd : Fin 32) (e : Option Fd) :
    (t.setFd p fd e).nextId = t.nextId := rfl

/-- One descriptor of one process changes. -/
theorem setFd_fds [DecidableEq P] {p q : P} {fd i : Fin 32} {e : Option Fd} :
    (t.setFd p fd e).fds q i = if q = p ∧ i = fd then e else t.fds q i := by
  by_cases hq : q = p
  · subst hq
    by_cases hi : i = fd
    · subst hi
      simp [Table.setFd]
    · simp [Table.setFd, hi]
  · simp [Table.setFd, hq]

@[simp] theorem unlink_fds (peer : Option Slot) : (t.unlink peer).fds = t.fds := by
  cases peer <;> rfl

@[simp] theorem unlink_nextId (peer : Option Slot) : (t.unlink peer).nextId = t.nextId := by
  cases peer <;> rfl

end Table

@[simp] theorem freeFd_modify (x : Slot) (f : Socket → Socket) (p : P) :
    (t.modify x f).freeFd p = t.freeFd p := rfl

/-- A request taken off the queue frees no slot. -/
@[simp] theorem freeSlot_dequeue (x : Slot) :
    (t.modify x Socket.dequeue).freeSlot = t.freeSlot := by
  have hid : ∀ i, ((t.modify x Socket.dequeue).sockets i).id = (t.sockets i).id := fun i =>
    modify_keeps Socket.id fun _ => rfl
  simp only [Table.freeSlot, hid]

@[simp] theorem freeFd_alloc (i : Slot) (p : P) : (t.alloc i).freeFd p = t.freeFd p :=
  rfl

@[simp] theorem freeFd_link (new client : Slot) (p : P) :
    (t.link new client).freeFd p = t.freeFd p := rfl

/-- After a round of `unix_send` either nothing is left or the buffer is full. -/
theorem sendLoop_rest {peer : Slot} {rest : List UInt8}
    (hfull : rest = [] ∨ (t.sockets peer).writeLen ≥ 4096) {x : Slot} {written fuel : Nat} :
    ∃ o, sendLoop x peer fuel rest written t = ⟨t, [], [], o⟩ ∧
      ∀ call, o = .blocked call → call = .sending x peer rest written := by
  cases fuel with
  | zero =>
    refine ⟨_, rfl, fun call h => ?_⟩
    cases h
  | succ fuel =>
    unfold sendLoop
    split
    · refine ⟨_, rfl, fun call h => ?_⟩
      cases h
    rename_i hrest
    rw [if_pos (hfull.resolve_left hrest)]
    split
    · refine ⟨_, rfl, fun call h => ?_⟩
      cases h
    · refine ⟨_, rfl, fun call h => ?_⟩
      cases h
      rfl

@[simp] theorem returns_table (t : Table P) (value : Int) : (t.returns value).table = t := rfl

@[simp] theorem returns_events (t : Table P) (value : Int) : (t.returns value).events = [] := rfl

variable [DecidableEq P]

/-! ## Where a step is in its call -/

/-- The two ends and the bytes with which a step enters the loop of `unix_send`. -/
def System.sending (s : System P) : Action P → Option (Slot × Slot × List UInt8)
  | .send p fd data =>
    match s.status p, s.table.lookup p fd with
    | .user, some x =>
      match (s.table.sockets x).peer with
      | some peer =>
        if (s.table.sockets x).closed || !(s.table.sockets x).connected ||
          (s.table.sockets peer).closed then none
        else some (x, peer, data)
      | none => none
    | _, _ => none
  | .resume p =>
    match s.status p with
    | .ready (.sending x peer rest _) => some (x, peer, rest)
    | _ => none
  | _ => none

/-- The socket and the length with which a step enters the loop of `unix_recv`. -/
def System.receiving (s : System P) : Action P → Option (Slot × Int)
  | .recv p fd len =>
    match s.status p, s.table.lookup p fd with
    | .user, some x => if (s.table.sockets x).closed then none else some (x, len)
    | _, _ => none
  | .resume p =>
    match s.status p with
    | .ready (.receiving x len) => some (x, len)
    | _ => none
  | _ => none

/-- The listening socket with which a step enters the loop of `unix_accept`. -/
def System.accepting (s : System P) : Action P → Option Slot
  | .accept p fd =>
    match s.status p, s.table.lookup p fd with
    | .user, some x =>
      if (s.table.sockets x).closed || !(s.table.sockets x).listening then none else some x
    | _, _ => none
  | .resume p =>
    match s.status p with
    | .ready (.accepting x) => some x
    | _ => none
  | _ => none

/-- The process for which a step makes a socket. -/
def System.creating (s : System P) : Action P → Option P
  | .create p => if s.status p = .user then some p else none
  | _ => none

/-- The socket that a step closes. -/
def System.closing (s : System P) : Action P → Option Slot
  | .close p fd => if s.status p = .user then s.table.lookup p fd else none
  | _ => none

/-- The socket on which a step calls `unix_listen`. -/
def System.listening (s : System P) : Action P → Option Slot
  | .listen p fd => if s.status p = .user then s.table.lookup p fd else none
  | _ => none

/-- A step that stops inside a call stops in the call that it makes. -/
def System.StopsIn (s : System P) (a : Action P) : Pending → Prop
  | .accepting x => s.accepting a = some x
  | .connecting x => s.status a.actor = .ready (.connecting x)
  | .sending x peer _ _ => ∃ rest, s.sending a = some (x, peer, rest)
  | .receiving x len => s.receiving a = some (x, len)

/-! ## The changes -/

/-- The replies to an action. -/
inductive Change (s : System P) : Action P → Reply P → Prop
  | none {a : Action P} {o : Outcome} (stop : ∀ call, o = .blocked call → s.StopsIn a call) :
      Change s a ⟨s.table, [], [], o⟩
  | leak {p : P} {i : Slot} (enter : s.creating (.create p) = some p)
      (slot : s.table.freeSlot = some i) (fds : s.table.freeFd p = Option.none) :
      Change s (.create p) ((s.table.alloc i).returns (-1))
  | create {p : P} {i : Slot} {fd : Fin 32} (enter : s.creating (.create p) = some p)
      (slot : s.table.freeSlot = some i) (free : s.table.freeFd p = some fd) :
      Change s (.create p)
        ⟨(s.table.alloc i).setFd p fd (some (.unix i)), [], [.created i], .returned fd⟩
  | bind {p : P} {fd : Int} {path : List UInt8} {x : Slot} (look : s.table.lookup p fd = some x)
      (opened : (s.table.sockets x).closed = false)
      (new : s.table.findSocketByPath path = Option.none) :
      Change s (.bind p fd path)
        ((s.table.modify x fun s => { s with path := path.take 107 }).returns 0)
  | listen {p : P} {fd : Int} {x : Slot} (enter : s.listening (.listen p fd) = some x)
      (opened : (s.table.sockets x).closed = false) (bound : (s.table.sockets x).path ≠ []) :
      Change s (.listen p fd) ((s.table.modify x fun s => { s with
        listening := true, backlogCount := 0, backlogHead := 0, backlogTail := 0 }).returns 0)
  | drop {a : Action P} {x : Slot} (enter : s.accepting a = some x)
      (queue : (s.table.sockets x).backlogCount ≠ 0)
      (slots : s.table.freeSlot = Option.none) :
      Change s a ((s.table.modify x Socket.dequeue).returns (-1))
  | lose {a : Action P} {x new : Slot} (enter : s.accepting a = some x)
      (queue : (s.table.sockets x).backlogCount ≠ 0)
      (slot : s.table.freeSlot = some new)
      (fds : s.table.freeFd a.actor = Option.none) :
      Change s a (((((s.table.modify x Socket.dequeue).alloc new).link new
        (s.table.sockets x).front).modify new fun s => { s with closed := true }).returns (-1))
  | accept {a : Action P} {x new : Slot} {fd : Fin 32} (enter : s.accepting a = some x)
      (queue : (s.table.sockets x).backlogCount ≠ 0)
      (slot : s.table.freeSlot = some new)
      (free : s.table.freeFd a.actor = some fd) :
      Change s a ⟨(((s.table.modify x Socket.dequeue).alloc new).link new
        (s.table.sockets x).front).setFd a.actor fd (some (.unix new)), [(s.table.sockets x).front],
        [.accepted x (s.table.sockets x).front new], .returned fd⟩
  | connect {p : P} {fd : Int} {path : List UInt8} {x server : Slot} {o : Outcome}
      (look : s.table.lookup p fd = some x) (opened : (s.table.sockets x).closed = false)
      (found : s.table.findSocketByPath path = some server)
      (listening : (s.table.sockets server).listening = true)
      (room : (s.table.sockets server).backlogCount < 16)
      (stop : ∀ call, o = .blocked call → call = .connecting x) :
      Change s (.connect p fd path) ⟨s.table.modify server fun s => s.enqueue x, [server],
        [.requested server x], o⟩
  | send {a : Action P} {x peer : Slot} {rest : List UInt8} {o : Outcome}
      (enter : s.sending a = some (x, peer, rest)) (bytes : rest ≠ [])
      (room : (s.table.sockets peer).writeLen < 4096)
      (stop : ∀ call, o = .blocked call → ∃ rest' written, call = .sending x peer rest' written) :
      Change s a ⟨s.table.modify peer fun s => s.copyIn (rest.take (s.toCopy rest)), [peer],
        [.sent x peer (rest.take ((s.table.sockets peer).toCopy rest))], o⟩
  | recv {a : Action P} {x : Slot} {len : Int} (enter : s.receiving a = some (x, len))
      (bytes : (s.table.sockets x).writeLen ≠ 0) :
      Change s a ⟨s.table.modify x fun s => (s.copyOut len.toNat).2,
        if ((s.table.sockets x).copyOut len.toNat).2.writeLen < 4096 then
          (s.table.sockets x).peer.toList else [],
        [.received x ((s.table.sockets x).copyOut len.toNat).1],
        .returned ((s.table.sockets x).copyOut len.toNat).1.length⟩
  | close {p : P} {fd : Int} {x : Slot} (enter : s.closing (.close p fd) = some x) :
      Change s (.close p fd) ⟨((s.table.modify x fun s => { s with closed := true }).unlink
        (s.table.sockets x).peer).setFd p (Fin.ofNat 32 fd.toNat) Option.none,
        x :: (s.table.sockets x).peer.toList,
        if (s.table.sockets x).closed then [] else [.closed x], .returned 0⟩
  | share {p q : P} {fd fd' : Fin 32} :
      Change s (.share p fd q fd') ((s.table.setFd q fd' (s.table.fds p fd)).returns 0)
  | other {p : P} {fd : Fin 32} {busy : Bool} {e : Option Fd} (foreign : ∀ x, e ≠ some (.unix x)) :
      Change s (.other p fd busy) ((s.table.setFd p fd e).returns 0)

variable {s : System P} {a : Action P} {x peer : Slot} {rest : List UInt8} {written : Nat}
  {r : Reply P} {call : Pending} {p : P} {fd len : Int}

/-- A call may return without a change. -/
theorem Change.returns (value : Int) : Change s a (s.table.returns value) :=
  .none fun _ h => by cases h

/-- What comes after a test that a call fails with. -/
theorem Change.unless {c : Prop} [Decidable c] (h : ¬ c → Change s a r) :
    Change s a (if c then s.table.returns (-1) else r) := by
  split
  · exact .returns (-1)
  · exact h ‹_›

/-- What comes after a look-up that a call fails with. -/
theorem Change.found {o : Option Slot} {f : Slot → Reply P} :
    (∀ x, o = some x → Change s a (f x)) →
      Change s a (match o with | Option.none => s.table.returns (-1) | some x => f x) := by
  intro h
  cases o with
  | none => exact .returns (-1)
  | some x => exact h x rfl

/-! ## Each call makes one of them -/

/-- `unix_accept` waits, drops the request, loses the new socket or accepts. -/
theorem acceptLoop_change (h : s.accepting a = some x) :
    Change s a (acceptLoop s.table a.actor x) := by
  unfold acceptLoop
  split
  · split
    · exact .returns (-1)
    · refine .none fun call hcall => ?_
      cases hcall
      exact h
  · rename_i hqueue
    unfold acceptClient
    simp only [freeSlot_dequeue]
    split
    · exact .drop h hqueue ‹_›
    · rename_i new hslot
      split
      · exact .lose h hqueue hslot ‹_›
      · exact .accept h hqueue hslot ‹_›

/-- `unix_recv` waits or takes bytes out of the buffer. -/
theorem recvLoop_change (h : s.receiving a = some (x, len)) :
    Change s a (recvLoop s.table x len) := by
  unfold recvLoop
  split
  · split
    · exact .returns 0
    · refine .none fun call hcall => ?_
      cases hcall
      exact h
  · exact .recv h ‹_›

/-- `unix_send` copies once at most before it waits or returns. -/
theorem sendLoop_change (h : s.sending a = some (x, peer, rest))
    (hsized : (s.table.sockets peer).Sized) :
    Change s a (sendLoop x peer (rest.length + 1) rest written s.table) := by
  by_cases hfull : rest = [] ∨ (s.table.sockets peer).writeLen ≥ 4096
  · obtain ⟨o, heq, hstop⟩ := sendLoop_rest hfull
    rw [heq]
    refine .none fun call hcall => ?_
    rw [hstop call hcall]
    exact ⟨rest, h⟩
  · obtain ⟨hrest, hroom⟩ := not_or.mp hfull
    unfold sendLoop
    rw [if_neg hrest, if_neg hroom]
    simp only
    -- the copy takes all bytes that are left, or fills the buffer
    have hafter : rest.drop ((s.table.sockets peer).toCopy rest) = [] ∨
        ((s.table.modify peer fun q => q.copyIn
          (rest.take ((s.table.sockets peer).toCopy rest))).sockets peer).writeLen ≥ 4096 := by
      obtain ⟨hlo, hhi⟩ := hsized
      rcases Nat.le_total rest.length (4096 - (s.table.sockets peer).writeLen).toNat with hle | hle
      · left
        rw [Socket.toCopy, Nat.min_eq_left hle, List.drop_length]
      · right
        simp only [Table.modify, update_self, Socket.copyIn, List.length_take, Socket.toCopy]
        omega
    obtain ⟨o, heq, hstop⟩ := sendLoop_rest hafter
    rw [heq]
    exact .send h hrest (by omega) fun call hcall => ⟨_, _, hstop call hcall⟩

/-- Without a free descriptor the new socket leaks. -/
theorem unixSocketCreate_change (huser : s.status p = .user) :
    Change s (.create p) (unixSocketCreate s.table p) := by
  have henter : s.creating (.create p) = some p := if_pos huser
  refine .found fun i hslot => ?_
  simp only [freeFd_alloc]
  split
  · exact .leak henter hslot ‹_›
  · exact .create henter hslot ‹_›

/-- `unix_bind` needs an open socket and a new path. -/
theorem unixBind_change {path : List UInt8} :
    Change s (.bind p fd path) (unixBind s.table p fd path) := by
  refine .found fun x hlook => .unless fun hopen => .unless fun hnew => ?_
  exact .bind hlook (by simpa using hopen) (by simpa using hnew)

/-- `unix_listen` needs a bound socket. -/
theorem unixListen_change (huser : s.status p = .user) :
    Change s (.listen p fd) (unixListen s.table p fd) := by
  refine .found fun x hlook => .unless fun hopen => .unless fun hbound => ?_
  have henter : s.listening (.listen p fd) = some x := (if_pos huser).trans hlook
  exact .listen henter (by simpa using hopen) hbound

/-- `unix_accept` needs a listening socket. -/
theorem unixAccept_change (huser : s.status p = .user) :
    Change s (.accept p fd) (unixAccept s.table p fd) := by
  refine .found fun x hlook => .unless fun hopen => acceptLoop_change ?_
  simp only [System.accepting, huser, hlook]
  rw [if_neg hopen]

/-- `unix_connect` can only wait for its own connection. -/
theorem connectOutcome_stop {q : Socket}
    (h : connectOutcome q x = .blocked call) : call = .connecting x := by
  unfold connectOutcome at h
  split at h
  · cases h
    rfl
  · split at h
    · cases h
    · cases h

/-- `unix_connect` needs a listener with room in its queue. -/
theorem unixConnect_change {path : List UInt8} :
    Change s (.connect p fd path) (unixConnect s.table p fd path) := by
  refine .found fun x hlook => .unless fun hopen => .found fun server hfound =>
    .unless fun hlisten => .unless fun hroom => ?_
  exact .connect hlook (by simpa using hopen) hfound (by simpa using hlisten) (by omega)
    fun call hcall => connectOutcome_stop hcall

/-- `unix_send` needs a peer that is open. -/
theorem unixSend_change (hsized : ∀ x, (s.table.sockets x).Sized)
    {data : List UInt8} (huser : s.status p = .user) :
    Change s (.send p fd data) (unixSend s.table p fd data) := by
  refine .found fun x hlook => .unless fun hopen => .found fun peer hpeer =>
    .unless fun hclosed => sendLoop_change ?_ (hsized peer)
  simp only [System.sending, huser, hlook, hpeer]
  rw [if_neg (by simpa using ⟨by simpa using hopen, by simpa using hclosed⟩)]

/-- `unix_recv` needs an open socket; a peer it need not have. -/
theorem unixRecv_change {fd len : Int} (huser : s.status p = .user) :
    Change s (.recv p fd len) (unixRecv s.table p fd len) := by
  refine .found fun x hlook => .unless fun hopen => recvLoop_change ?_
  simp only [System.receiving, huser, hlook]
  rw [if_neg hopen]

/-- `unix_close` needs nothing but the descriptor. -/
theorem unixClose_change (huser : s.status p = .user) :
    Change s (.close p fd) (unixClose s.table p fd) := by
  refine .found fun x hlook => ?_
  exact .close (show s.closing (.close p fd) = some x from (if_pos huser).trans hlook)

/-- Descriptors of other kinds come and go. -/
theorem other_change {fd : Fin 32} {busy : Bool} :
    Change s (.other p fd busy) ((other p fd busy).perform s.table) := by
  simp only [perform]
  split
  · exact .returns (-1)
  · refine .other fun x => ?_
    split
    · simp
    · simp

section

variable (hsized : ∀ x, (s.table.sockets x).Sized)
include hsized

/-- A call that goes on makes a change of its own kind. -/
theorem Pending.go_change (h : s.status p = .ready call) :
    Change s (.resume p) (call.go s.table p) := by
  cases call with
  | accepting x =>
    refine acceptLoop_change ?_
    simp only [System.accepting, h]
  | connecting x =>
    refine .none fun call hcall => ?_
    rw [connectOutcome_stop hcall]
    exact h
  | sending x peer rest written =>
    refine sendLoop_change ?_ (hsized peer)
    simp only [System.sending, h]
  | receiving x len =>
    refine recvLoop_change ?_
    simp only [System.receiving, h]

/-- **The replies.**  Every reply is one of the changes. -/
theorem reply_change (h : s.reply a = some r) : Change s a r := by
  unfold System.reply at h
  split at h
  · rename_i p call hready
    cases h
    exact Pending.go_change hsized hready
  · cases h
  · rename_i b _ _ hnot huser
    cases h
    cases b with
    | create p => exact unixSocketCreate_change huser
    | bind p fd path => exact unixBind_change
    | listen p fd => exact unixListen_change huser
    | accept p fd => exact unixAccept_change huser
    | connect p fd path => exact unixConnect_change
    | send p fd data => exact unixSend_change hsized huser
    | recv p fd len => exact unixRecv_change huser
    | close p fd => exact unixClose_change huser
    | share p fd q fd' => exact .share
    | other p fd busy => exact other_change
    | resume p => exact absurd rfl (hnot p)
  · cases h

/-- A step does nothing, or makes one of the changes. -/
theorem step_cases (a : Action P) : (s.step a = s ∧ s.events a = []) ∨
      ∃ r, s.reply a = some r ∧ Change s a r ∧ s.step a = s.after a.actor r ∧
        s.events a = r.events := by
  unfold System.step System.events
  cases h : s.reply a with
  | none => exact .inl ⟨rfl, rfl⟩
  | some r => exact .inr ⟨r, rfl, reply_change hsized h, rfl, rfl⟩

end

/-- A step that enters the loop of `unix_recv` goes through it. -/
theorem reply_receiving (h : s.receiving a = some (x, len)) :
    s.reply a = some (recvLoop s.table x len) := by
  unfold System.receiving at h
  split at h
  · rename_i p fd len'
    split at h
    · rename_i x' huser hlook
      split at h
      · cases h
      · rename_i hopen
        cases h
        simp only [System.reply, actor, huser, perform, unixRecv, hlook]
        rw [if_neg hopen]
    · cases h
  · split at h
    · rename_i hready
      cases h
      simp only [System.reply, actor, hready, Pending.go]
    · cases h
  · cases h

/-- A step that enters the loop of `unix_accept` goes through it. -/
theorem reply_accepting (h : s.accepting a = some x) :
    s.reply a = some (acceptLoop s.table a.actor x) := by
  unfold System.accepting at h
  split at h
  · split at h
    · rename_i x' huser hlook
      split at h
      · cases h
      · rename_i hopen
        cases h
        simp only [System.reply, actor, huser, perform, unixAccept, hlook]
        rw [if_neg hopen]
    · cases h
  · split at h
    · rename_i hready
      cases h
      simp only [System.reply, actor, hready, Pending.go]
    · cases h
  · cases h

/-- A blocked process makes no step. -/
theorem reply_actor (h : s.reply a = some r) (call : Pending) :
    s.status a.actor ≠ .blocked call := by
  intro hblocked
  unfold System.reply at h
  split at h
  · rename_i p call' hready
    rw [hready] at hblocked
    cases hblocked
  · cases h
  · rename_i huser
    rw [huser] at hblocked
    cases hblocked
  · cases h

end

end Utms7.Unix
