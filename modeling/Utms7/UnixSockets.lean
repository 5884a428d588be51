import Mathlib.Data.Fintype.Basic
import Utms7.Ring
import Utms7.Runs

/-!
# Unix sockets

`kernel/core/unix.c`: a table of 64 sockets, each with a ring of bytes that its peer
writes and it reads, and a ring of clients that wait for `unix_accept`.

A call runs from one blocking point to the next.  What it does to the table does not
depend on who is blocked, so a call is a function on the table that also says which
channels it wakes; `System.step` keeps the books of who waits inside which call.  A
woken process goes on where it was.
-/

namespace Utms7.Unix

open Function

/-- A place in the table, `MAX_UNIX_SOCKETS` of them. -/
abbrev Slot := Fin 64

theorem slots_pos : 0 < 64 := by decide

instance unixBufSize_neZero : NeZero 4096 := ⟨by decide⟩

instance backlogSize_neZero : NeZero 16 := ⟨by decide⟩

/-- `unix_socket_t`.  Paths are written without the NUL behind them. -/
structure Socket where
  id : Nat
  path : List UInt8
  listening : Bool
  connected : Bool
  closed : Bool
  peer : Option Slot
  writeBuf : Fin 4096 → UInt8
  writePos : Nat
  writeLen : Int
  backlog : Fin 16 → Slot
  backlogCount : Nat
  backlogHead : Nat
  backlogTail : Nat

/-- A socket after `memset`. -/
def Socket.zero : Socket where
  id := 0
  path := []
  listening := false
  connected := false
  closed := false
  peer := none
  writeBuf := fun _ => 0
  writePos := 0
  writeLen := 0
  backlog := fun _ => ⟨0, slots_pos⟩
  backlogCount := 0
  backlogHead := 0
  backlogTail := 0

/-- An entry of `fds` that is in use. -/
inductive Fd
  | unix (x : Slot)
  | other
deriving DecidableEq

/-- `sockets`, `next_socket_id` and the descriptors of the processes. -/
structure Table (P : Type) where
  sockets : Slot → Socket
  nextId : Nat
  fds : P → Fin 32 → Option Fd

/-- What the outside sees of a call: a new socket, bytes that went into the buffer of
`peer`, bytes that came out of the buffer of `x`, a client in the queue of a server, a
client that was handed out with its new socket, and the end of a socket. -/
inductive Event
  | created (x : Slot)
  | sent (x peer : Slot) (bytes : List UInt8)
  | received (x : Slot) (bytes : List UInt8)
  | requested (server client : Slot)
  | accepted (server client new : Slot)
  | closed (x : Slot)
deriving DecidableEq

/-- A call that waits, with its local variables. -/
inductive Pending
  | accepting (x : Slot)
  | connecting (x : Slot)
  | sending (x peer : Slot) (rest : List UInt8) (written : Nat)
  | receiving (x : Slot) (len : Int)
deriving DecidableEq

/-- What the call gave to `sched_block_on`. -/
def Pending.channel : Pending → Slot
  | .accepting x => x
  | .connecting x => x
  | .sending _ peer _ _ => peer
  | .receiving x _ => x

inductive Outcome
  | returned (value : Int)
  | blocked (call : Pending)
deriving DecidableEq

/-- What a call leaves at its next blocking point or at its end. -/
structure Reply (P : Type) where
  table : Table P
  wakes : List Slot
  events : List Event
  outcome : Outcome

/-! ## The rings of a socket -/

/-- How many of the bytes the next round of `unix_send` copies. -/
def Socket.toCopy (s : Socket) (rest : List UInt8) : Nat :=
  min rest.length (4096 - s.writeLen).toNat

/-- The copying loop of `unix_send`; the place of a byte depends on `write_len`,
which the loop does not change. -/
def Socket.copyIn (s : Socket) (bytes : List UInt8) : Socket :=
  { s with
    writeBuf := bytes.foldl (fun buf b =>
      update buf (Fin.ofNat 4096 (s.writePos + s.writeLen.toNat)) b) s.writeBuf
    writeLen := s.writeLen + bytes.length }

/-- The copying loop of `unix_recv`. -/
def Socket.copyOut : Nat → Socket → List UInt8 × Socket
  | 0, s => ([], s)
  | n + 1, s =>
    if s.writeLen > 0 then
      let r := Socket.copyOut n
        { s with writePos := (s.writePos + 1) % 4096, writeLen := s.writeLen - 1 }
      (s.writeBuf (Fin.ofNat 4096 s.writePos) :: r.1, r.2)
    else ([], s)

/-- A client joins the queue. -/
def Socket.enqueue (s : Socket) (client : Slot) : Socket :=
  { s with
    backlog := update s.backlog (Fin.ofNat 16 s.backlogTail) client
    backlogTail := (s.backlogTail + 1) % 16
    backlogCount := s.backlogCount + 1 }

/-- The client at the head of the queue. -/
def Socket.front (s : Socket) : Slot := s.backlog (Fin.ofNat 16 s.backlogHead)

def Socket.dequeue (s : Socket) : Socket :=
  { s with backlogHead := (s.backlogHead + 1) % 16, backlogCount := s.backlogCount - 1 }

/-! ## The table -/

section Calls

variable {P : Type} [DecidableEq P]

def Table.modify (t : Table P) (x : Slot) (f : Socket → Socket) : Table P :=
  { t with sockets := update t.sockets x (f (t.sockets x)) }

def Table.setFd (t : Table P) (p : P) (fd : Fin 32) (e : Option Fd) : Table P :=
  { t with fds := update t.fds p (update (t.fds p) fd e) }

/-- `find_socket_by_path`. -/
def Table.findSocketByPath (t : Table P) (path : List UInt8) : Option Slot :=
  (List.finRange 64).find? fun i =>
    (t.sockets i).id ≠ 0 && !(t.sockets i).closed && (t.sockets i).path ≠ [] &&
      (t.sockets i).path = path

/-- The slot that `alloc_socket` takes. -/
def Table.freeSlot (t : Table P) : Option Slot :=
  (List.finRange 64).find? fun i => (t.sockets i).id = 0

/-- The socket in slot `i` after `alloc_socket`. -/
def Table.alloc (t : Table P) (i : Slot) : Table P :=
  { t with
    sockets := update t.sockets i { Socket.zero with id := t.nextId }
    nextId := t.nextId + 1 }

/-- The descriptor that a new socket gets. -/
def Table.freeFd (t : Table P) (p : P) : Option (Fin 32) :=
  (List.finRange 32).find? fun i => t.fds p i = none

/-- The socket of a descriptor, as all calls look it up. -/
def Table.lookup (t : Table P) (p : P) (fd : Int) : Option Slot :=
  if h : 0 ≤ fd ∧ fd < 32 then
    match t.fds p ⟨fd.toNat, by omega⟩ with
    | some (.unix x) => some x
    | _ => none
  else none

/-! ## The calls -/

/-- A call that returns at once. -/
def Table.returns (t : Table P) (value : Int) : Reply P := ⟨t, [], [], .returned value⟩

/-- `unix_socket_create`. -/
def unixSocketCreate (t : Table P) (p : P) : Reply P :=
  match t.freeSlot with
  | none => t.returns (-1)
  | some i =>
    let t := t.alloc i
    match t.freeFd p with
    | none => t.returns (-1)
    | some fd => ⟨t.setFd p fd (some (.unix i)), [], [.created i], .returned fd⟩

/-- `unix_bind`. -/
def unixBind (t : Table P) (p : P) (fd : Int) (path : List UInt8) : Reply P :=
  match t.lookup p fd with
  | none => t.returns (-1)
  | some x =>
    if (t.sockets x).closed then t.returns (-1)
    else if (t.findSocketByPath path).isSome then t.returns (-1)
    else (t.modify x fun s => { s with path := path.take 107 }).returns 0

/-- `unix_listen`. -/
def unixListen (t : Table P) (p : P) (fd : Int) : Reply P :=
  match t.lookup p fd with
  | none => t.returns (-1)
  | some x =>
    if (t.sockets x).closed then t.returns (-1)
    else if (t.sockets x).path = [] then t.returns (-1)
    else
      (t.modify x fun s =>
        { s with
          listening := true, backlogCount := 0, backlogHead := 0, backlogTail := 0 }).returns 0

/-- The two ends of a connection. -/
def Table.link (t : Table P) (new client : Slot) : Table P :=
  (t.modify new fun s => { s with connected := true, peer := some client }).modify client fun s =>
    { s with peer := some new, connected := true }

/-- `unix_accept` with a client in the queue. -/
def acceptClient (t : Table P) (p : P) (x : Slot) : Reply P :=
  let client := (t.sockets x).front
  let t := t.modify x Socket.dequeue
  match t.freeSlot with
  | none => t.returns (-1)
  | some new =>
    let t := (t.alloc new).link new client
    match t.freeFd p with
    | none => (t.modify new fun s => { s with closed := true }).returns (-1)
    | some fd =>
      ⟨t.setFd p fd (some (.unix new)), [client], [.accepted x client new], .returned fd⟩

/-- `unix_accept` from its loop on. -/
def acceptLoop (t : Table P) (p : P) (x : Slot) : Reply P :=
  if (t.sockets x).backlogCount = 0 then
    if (t.sockets x).closed then t.returns (-1) else ⟨t, [], [], .blocked (.accepting x)⟩
  else acceptClient t p x

/-- `unix_accept`. -/
def unixAccept (t : Table P) (p : P) (fd : Int) : Reply P :=
  match t.lookup p fd with
  | none => t.returns (-1)
  | some x =>
    if (t.sockets x).closed || !(t.sockets x).listening then t.returns (-1)
    else acceptLoop t p x

/-- How the loop of `unix_connect` ends. -/
def connectOutcome (s : Socket) (x : Slot) : Outcome :=
  if !s.connected && !s.closed then .blocked (.connecting x)
  else if s.closed then .returned (-1) else .returned 0

/-- `unix_connect`. -/
def unixConnect (t : Table P) (p : P) (fd : Int) (path : List UInt8) : Reply P :=
  match t.lookup p fd with
  | none => t.returns (-1)
  | some x =>
    if (t.sockets x).closed then t.returns (-1)
    else
      match t.findSocketByPath path with
      | none => t.returns (-1)
      | some server =>
        if !(t.sockets server).listening then t.returns (-1)
        else if (t.sockets server).backlogCount ≥ 16 then t.returns (-1)
        else
          let t := t.modify server fun s => s.enqueue x
          ⟨t, [server], [.requested server x], connectOutcome (t.sockets x) x⟩

/-- The rounds of `unix_send`; each but the last one fills the buffer. -/
def sendLoop (x peer : Slot) : Nat → List UInt8 → Nat → Table P → Reply P
  | 0, _, written, t => t.returns written
  | fuel + 1, rest, written, t =>
    if rest = [] then t.returns written
    else if (t.sockets peer).writeLen ≥ 4096 then
      if (t.sockets peer).closed || (t.sockets x).closed then
        t.returns (if written > 0 then written else -1)
      else ⟨t, [], [], .blocked (.sending x peer rest written)⟩
    else
      let n := (t.sockets peer).toCopy rest
      let r := sendLoop x peer fuel (rest.drop n) (written + n)
        (t.modify peer fun s => s.copyIn (rest.take n))
      { r with wakes := peer :: r.wakes, events := .sent x peer (rest.take n) :: r.events }

/-- `unix_send` of the bytes `data`; there are none if `len` is not positive. -/
def unixSend (t : Table P) (p : P) (fd : Int) (data : List UInt8) : Reply P :=
  match t.lookup p fd with
  | none => t.returns (-1)
  | some x =>
    if (t.sockets x).closed || !(t.sockets x).connected then t.returns (-1)
    else
      match (t.sockets x).peer with
      | none => t.returns (-1)
      | some peer =>
        if (t.sockets peer).closed then t.returns (-1)
        else sendLoop x peer (data.length + 1) data 0 t

/-- The peer is there and closed. -/
def Table.peerClosed (t : Table P) (x : Slot) : Bool :=
  match (t.sockets x).peer with
  | none => false
  | some y => (t.sockets y).closed

/-- `unix_recv` from its loop on. -/
def recvLoop (t : Table P) (x : Slot) (len : Int) : Reply P :=
  if (t.sockets x).writeLen = 0 then
    if (t.sockets x).closed || t.peerClosed x then t.returns 0
    else ⟨t, [], [], .blocked (.receiving x len)⟩
  else
    let r := (t.sockets x).copyOut len.toNat
    ⟨t.modify x fun _ => r.2, if r.2.writeLen < 4096 then (t.sockets x).peer.toList else [],
      [.received x r.1], .returned r.1.length⟩

/-- `unix_recv`. -/
def unixRecv (t : Table P) (p : P) (fd len : Int) : Reply P :=
  match t.lookup p fd with
  | none => t.returns (-1)
  | some x => if (t.sockets x).closed then t.returns (-1) else recvLoop t x len

/-- The peer of a closed socket has none any more. -/
def Table.unlink (t : Table P) : Option Slot → Table P
  | none => t
  | some y => t.modify y fun s => { s with peer := none }

/-- `unix_close`. -/
def unixClose (t : Table P) (p : P) (fd : Int) : Reply P :=
  match t.lookup p fd with
  | none => t.returns (-1)
  | some x =>
    let peer := (t.sockets x).peer
    let events := if (t.sockets x).closed then [] else [.closed x]
    let t := (t.modify x fun s => { s with closed := true }).unlink peer
    ⟨t.setFd p (Fin.ofNat 32 fd.toNat) none, x :: peer.toList, events, .returned 0⟩

/-! ## Processes -/

/-- What a process does: run in user mode, wait inside a call, or wait for the
processor inside a call. -/
inductive Status
  | user
  | blocked (call : Pending)
  | ready (call : Pending)
deriving DecidableEq

structure System (P : Type) where
  table : Table P
  status : P → Status

/-- The next thing that happens.  `share` is the copy of a descriptor that `fork`,
`dup` and `dup2` make; `other` takes or returns a descriptor for something else. -/
inductive Action (P : Type)
  | create (p : P)
  | bind (p : P) (fd : Int) (path : List UInt8)
  | listen (p : P) (fd : Int)
  | accept (p : P) (fd : Int)
  | connect (p : P) (fd : Int) (path : List UInt8)
  | send (p : P) (fd : Int) (data : List UInt8)
  | recv (p : P) (fd len : Int)
  | close (p : P) (fd : Int)
  | share (p : P) (fd : Fin 32) (q : P) (fd' : Fin 32)
  | other (p : P) (fd : Fin 32) (busy : Bool)
  | resume (p : P)

/-- Who acts. -/
def Action.actor : Action P → P
  | .create p | .bind p _ _ | .listen p _ | .accept p _ | .connect p _ _ | .send p _ _
  | .recv p _ _ | .close p _ | .share p _ _ _ | .other p _ _ | .resume p => p

/-- A waiting call goes on. -/
def Pending.go (t : Table P) (p : P) : Pending → Reply P
  | .accepting x => acceptLoop t p x
  | .connecting x => ⟨t, [], [], connectOutcome (t.sockets x) x⟩
  | .sending x peer rest written => sendLoop x peer (rest.length + 1) rest written t
  | .receiving x len => recvLoop t x len

/-- What the actor's call does. -/
def Action.perform (t : Table P) : Action P → Reply P
  | .create p => unixSocketCreate t p
  | .bind p fd path => unixBind t p fd path
  | .listen p fd => unixListen t p fd
  | .accept p fd => unixAccept t p fd
  | .connect p fd path => unixConnect t p fd path
  | .send p fd data => unixSend t p fd data
  | .recv p fd len => unixRecv t p fd len
  | .close p fd => unixClose t p fd
  | .share p fd q fd' => (t.setFd q fd' (t.fds p fd)).returns 0
  | .other p fd busy =>
    match t.fds p fd with
    | some (.unix _) => t.returns (-1)
    | _ => (t.setFd p fd (if busy then some .other else none)).returns 0
  | .resume _ => t.returns 0

/-- The reply to an action, unless the actor is in no position to take it. -/
def System.reply (s : System P) (a : Action P) : Option (Reply P) :=
  match a, s.status a.actor with
  | .resume p, .ready call => some (call.go s.table p)
  | .resume _, _ => none
  | a, .user => some (a.perform s.table)
  | _, _ => none

/-- `sched_wakeup` for each of the channels. -/
def Status.wake (wakes : List Slot) : Status → Status
  | .blocked call => if call.channel ∈ wakes then .ready call else .blocked call
  | st => st

def Outcome.status : Outcome → Status
  | .returned _ => .user
  | .blocked call => .blocked call

def System.after (s : System P) (p : P) (r : Reply P) : System P where
  table := r.table
  status := update (fun q => (s.status q).wake r.wakes) p r.outcome.status

def System.step (s : System P) (a : Action P) : System P :=
  match s.reply a with
  | none => s
  | some r => s.after a.actor r

def System.events (s : System P) (a : Action P) : List Event :=
  match s.reply a with
  | none => []
  | some r => r.events

/-- `unix_init`, with no descriptor in use. -/
def System.init : System P := ⟨⟨fun _ => Socket.zero, 1, fun _ _ => none⟩, fun _ => .user⟩

/-- What the outside sees of a run. -/
def System.history (s : System P) : List (Action P) → List Event
  | [] => []
  | a :: as => s.events a ++ (s.step a).history as

end Calls

end Utms7.Unix
