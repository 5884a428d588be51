import Mathlib.Data.Fintype.Basic
import Utms7.Ring
import Utms7.Runs

/-!
# TCP

`net/tcp.c`: a table of 32 sockets, the calls on them, the handler of arriving
packets and the timer.

A call that sleeps is cut at its sleeping points, and each piece is an action of its
own; a run takes the pieces of all calls, the packets and the ticks in any order.
Whether a packet goes out (`kmalloc` and `ip_send_packet` succeed) is decided from
outside, as is whether `kmalloc` has memory for a buffer.
-/

namespace Utms7.Tcp

open Function BitVec

/-- A place in the table, `MAX_SOCKETS` of them. -/
abbrev Slot := Fin 32

instance rcvBufSize_neZero : NeZero 65536 := ⟨by decide⟩

def tcpMss : Nat := 1460

def tcpRetries : Nat := 5

def tcpRetransmitMs : Nat := 500

inductive State
  | closed
  | listen
  | synSent
  | synRcvd
  | established
  | finWait1
  | finWait2
  | closeWait
  | closing
  | lastAck
  | timeWait
deriving DecidableEq, Repr

def flagFin : UInt8 := 0x01

def flagSyn : UInt8 := 0x02

def flagPsh : UInt8 := 0x08

def flagAck : UInt8 := 0x10

/-! ## Segments -/

/-- The fields of `tcp_hdr_t` that the handler reads, and the data behind the header. -/
structure Segment where
  srcPort : BitVec 16
  dstPort : BitVec 16
  seq : BitVec 32
  ack : BitVec 32
  flags : UInt8
  data : List UInt8
deriving DecidableEq, Repr

def hasFlag (flags flag : UInt8) : Bool := flags &&& flag != 0

def Segment.has (seg : Segment) (flag : UInt8) : Bool := hasFlag seg.flags flag

def ntohs (b₀ b₁ : UInt8) : BitVec 16 := b₀.toBitVec ++ b₁.toBitVec

def ntohl (b₀ b₁ b₂ b₃ : UInt8) : BitVec 32 :=
  b₀.toBitVec ++ b₁.toBitVec ++ b₂.toBitVec ++ b₃.toBitVec

/-- The header of a packet.  A packet of fewer than 20 bytes has none; where the data
starts is for the sender to say, also inside of the header or behind the end. -/
def Segment.parse : List UInt8 → Option Segment
  | p₀ :: p₁ :: p₂ :: p₃ :: s₀ :: s₁ :: s₂ :: s₃ :: a₀ :: a₁ :: a₂ :: a₃ :: offset :: flags ::
      w₀ :: w₁ :: c₀ :: c₁ :: u₀ :: u₁ :: rest =>
    let pkt := p₀ :: p₁ :: p₂ :: p₃ :: s₀ :: s₁ :: s₂ :: s₃ :: a₀ :: a₁ :: a₂ :: a₃ :: offset ::
      flags :: w₀ :: w₁ :: c₀ :: c₁ :: u₀ :: u₁ :: rest
    some
      { srcPort := ntohs p₀ p₁
        dstPort := ntohs p₂ p₃
        seq := ntohl s₀ s₁ s₂ s₃
        ack := ntohl a₀ a₁ a₂ a₃
        flags := flags
        data := pkt.drop ((offset >>> 4).toNat * 4) }
  | _ => none

def htons (b : BitVec 16) : List UInt8 := [⟨b.extractLsb' 8 8⟩, ⟨b.extractLsb' 0 8⟩]

def htonl (b : BitVec 32) : List UInt8 :=
  [⟨b.extractLsb' 24 8⟩, ⟨b.extractLsb' 16 8⟩, ⟨b.extractLsb' 8 8⟩, ⟨b.extractLsb' 0 8⟩]

/-- The bytes that `tcp_send_packet` hands to `ip_send_packet`. -/
def Segment.encode (seg : Segment) (window checksum : BitVec 16) : List UInt8 :=
  htons seg.srcPort ++ htons seg.dstPort ++ htonl seg.seq ++ htonl seg.ack ++
    [0x50, seg.flags] ++ htons window ++ htons checksum ++ htons 0#16 ++ seg.data

/-! ## One socket -/

/-- `tcp_socket_t`.  The size of the receive buffer is 65536 in every socket that is
in use. -/
structure Socket where
  used : Bool
  localIp : BitVec 32
  localPort : BitVec 16
  remoteIp : BitVec 32
  remotePort : BitVec 16
  sndNxt : BitVec 32
  sndUna : BitVec 32
  rcvNxt : BitVec 32
  state : State
  timestamp : BitVec 32
  retries : Nat
  rcvBuf : Fin 65536 → UInt8
  rcvBufHead : Nat
  rcvBufTail : Nat
  rcvBufCount : Nat

/-- A socket after `memset`. -/
def Socket.zero : Socket where
  used := false
  localIp := 0#32
  localPort := 0#16
  remoteIp := 0#32
  remotePort := 0#16
  sndNxt := 0#32
  sndUna := 0#32
  rcvNxt := 0#32
  state := .closed
  timestamp := 0#32
  retries := 0
  rcvBuf := fun _ => 0
  rcvBufHead := 0
  rcvBufTail := 0
  rcvBufCount := 0

/-- The place of the socket is free again. -/
def Socket.released (s : Socket) : Socket := { s with used := false }

/-- A socket and the segments that have gone out so far. -/
structure Line where
  socket : Socket
  sent : List Segment

inductive Outcome
  | sleeps
  | returned (value : Int)
deriving DecidableEq, Repr

/-- The segment that `tcp_send_packet` builds. -/
def Socket.packet (s : Socket) (flags : UInt8) (data : List UInt8) : Segment where
  srcPort := s.localPort
  dstPort := s.remotePort
  seq := s.sndNxt
  ack := s.rcvNxt
  flags := flags
  data := data

/-- What `tcp_send_packet` does when `ip_send_packet` has taken the segment. -/
def Socket.afterSend (s : Socket) (ticks : BitVec 32) (flags : UInt8) (data : List UInt8) :
    Socket :=
  { s with
    sndNxt := s.sndNxt + (if hasFlag flags flagSyn then 1#32 else 0#32) +
      (if hasFlag flags flagFin then 1#32 else 0#32) + BitVec.ofNat 32 data.length
    timestamp := ticks
    retries := 0 }

def tcpSendPacket (ok : Bool) (ticks : BitVec 32) (flags : UInt8) (data : List UInt8)
    (l : Line) : Line :=
  if ok then
    { socket := l.socket.afterSend ticks flags data
      sent := l.sent ++ [l.socket.packet flags data] }
  else l

/-! ### Segments that arrive for a socket -/

/-- The update of `snd_una`. -/
def Socket.takeAck (s : Socket) (seg : Segment) : Socket :=
  if seg.has flagAck ∧ s.sndUna < seg.ack ∧ seg.ack ≤ s.sndNxt then { s with sndUna := seg.ack }
  else s

/-- The bytes of the segment that go into the receive buffer. -/
def Socket.accepts (s : Socket) (seg : Segment) : List UInt8 :=
  if seg.seq = s.rcvNxt then seg.data.take (65536 - s.rcvBufCount) else []

/-- The bytes are copied behind the last one, in two pieces if they reach the end of
the buffer. -/
def Socket.store (s : Socket) (bytes : List UInt8) : Socket :=
  if s.rcvBufTail + bytes.length ≤ 65536 then
    { s with
      rcvBuf := Ring.write s.rcvBuf s.rcvBufTail bytes
      rcvBufTail := s.rcvBufTail + bytes.length
      rcvBufCount := s.rcvBufCount + bytes.length
      rcvNxt := s.rcvNxt + BitVec.ofNat 32 bytes.length }
  else
    let first := 65536 - s.rcvBufTail
    { s with
      rcvBuf := Ring.write (Ring.write s.rcvBuf s.rcvBufTail (bytes.take first)) 0
        (bytes.drop first)
      rcvBufTail := bytes.length - first
      rcvBufCount := s.rcvBufCount + bytes.length
      rcvNxt := s.rcvNxt + BitVec.ofNat 32 bytes.length }

/-- A segment with data at `rcv_nxt` is answered also when the buffer is full. -/
def Line.takeData (ok : Bool) (ticks : BitVec 32) (seg : Segment) (l : Line) : Line :=
  if 0 < seg.data.length ∧ seg.seq = l.socket.rcvNxt then
    tcpSendPacket ok ticks flagAck []
      (if 0 < (l.socket.accepts seg).length then
        { l with socket := l.socket.store (l.socket.accepts seg) }
      else l)
  else l

/-- What four of the states do with a FIN. -/
def Line.takeFin (ok : Bool) (ticks : BitVec 32) (seg : Segment) (next : State) (l : Line) :
    Line :=
  if seg.has flagFin then
    tcpSendPacket ok ticks flagAck []
      { l with socket := { l.socket with state := next, rcvNxt := seg.seq + 1#32 } }
  else l

/-- The `switch` of `tcp_handle_packet`. -/
def Line.transition (ok : Bool) (ticks : BitVec 32) (seg : Segment) (l : Line) : Line :=
  match l.socket.state with
  | .synSent =>
    if seg.has flagSyn ∧ seg.has flagAck then
      tcpSendPacket ok ticks flagAck []
        { l with socket := { l.socket with
            state := .established, rcvNxt := seg.seq + 1#32, sndUna := seg.ack } }
    else l
  | .synRcvd =>
    if seg.has flagAck then { l with socket := { l.socket with state := .established } } else l
  | .established => l.takeFin ok ticks seg .closeWait
  | .finWait1 =>
    -- both tests are made, so a FIN leads on from FIN_WAIT_2 at once
    Line.takeFin ok ticks seg .closing
      (if seg.has flagAck ∧ seg.ack = l.socket.sndNxt then
        { l with socket := { l.socket with state := .finWait2 } }
      else l)
  | .finWait2 => l.takeFin ok ticks seg .timeWait
  | .closeWait => l.takeFin ok ticks seg .lastAck
  | .lastAck =>
    if seg.has flagAck ∧ seg.ack = l.socket.sndNxt then
      { l with socket := { l.socket with state := .closed } }
    else l
  | .timeWait =>
    if 2000#32 < ticks - l.socket.timestamp then
      { l with socket := { l.socket with state := .closed } }
    else l
  | .closed | .listen | .closing => l

/-- `tcp_handle_packet` once it has found the socket; the two flags are for its two
answers. -/
def Line.handle (ok₁ ok₂ : Bool) (ticks : BitVec 32) (seg : Segment) (l : Line) : Line :=
  ({ l with socket := l.socket.takeAck seg }.takeData ok₁ ticks seg).transition ok₂ ticks seg

/-! ### The calls on a socket -/

/-- One round of the loop of `tcp_recv`, for at most `n` bytes. -/
def Socket.recvRound (s : Socket) (n : Nat) : List UInt8 × Socket :=
  let copy := min s.rcvBufCount n
  let bytes :=
    if s.rcvBufHead + copy ≤ 65536 then Ring.contents s.rcvBuf s.rcvBufHead copy
    else
      let first := 65536 - s.rcvBufHead
      Ring.contents s.rcvBuf s.rcvBufHead first ++ Ring.contents s.rcvBuf 0 (copy - first)
  (bytes, { s with
      rcvBufHead := (s.rcvBufHead + copy) % 65536
      rcvBufCount := s.rcvBufCount - copy
      rcvNxt := s.rcvNxt + BitVec.ofNat 32 copy })

/-- The loop of `tcp_recv`; every round takes at least one byte. -/
def Socket.recvLoop : Nat → Socket → Nat → List UInt8 × Socket
  | 0, s, _ => ([], s)
  | fuel + 1, s, n =>
    if 0 < s.rcvBufCount ∧ 0 < n then
      let round := s.recvRound n
      let rest := Socket.recvLoop fuel round.2 (n - round.1.length)
      (round.1 ++ rest.1, rest.2)
    else ([], s)

/-- What `tcp_recv` does once it waits no longer: the bytes for the caller, the line
and the result. -/
def Line.recvEnd (ok : Bool) (ticks : BitVec 32) (len : Int) (l : Line) :
    List UInt8 × Line × Int :=
  if l.socket.rcvBufCount = 0 then ([], l, -1)
  else
    let loop := l.socket.recvLoop l.socket.rcvBufCount len.toNat
    (loop.1, if 0 < loop.1.length then tcpSendPacket ok ticks flagAck [] { l with socket := loop.2 }
      else { l with socket := loop.2 },
      loop.1.length)

/-- A round of the wait of `tcp_recv`; `expired` says that there is no further one. -/
def Line.recvWait (expired ok : Bool) (ticks : BitVec 32) (len : Int) (l : Line) :
    List UInt8 × Line × Outcome :=
  if l.socket.rcvBufCount = 0 ∧ l.socket.state = .established ∧ !expired then ([], l, .sleeps)
  else
    let last := l.recvEnd ok ticks len
    (last.1, last.2.1, .returned last.2.2)

/-- `tcp_recv` up to its first sleep. -/
def tcpRecv (ok : Bool) (ticks : BitVec 32) (len : Int) (l : Line) :
    List UInt8 × Line × Outcome :=
  if l.socket.state = .closeWait ∧ l.socket.rcvBufCount = 0 then ([], l, .returned 0)
  else l.recvWait false ok ticks len

/-- A round of the loop of `tcp_send`, up to its sleep. -/
def Line.sendChunk (ok : Bool) (ticks : BitVec 32) (data : List UInt8) (l : Line) : Line :=
  if data = [] then l
  else tcpSendPacket ok ticks (flagPsh ||| flagAck) (data.take tcpMss) l

def tcpSend (ok : Bool) (ticks : BitVec 32) (data : List UInt8) (l : Line) : Line :=
  if l.socket.state = .established then l.sendChunk ok ticks data else l

/-- `tcp_connect`; the first sequence number is the address of the socket. -/
def tcpConnect (ok : Bool) (ticks : BitVec 32) (address : BitVec 32) (ip : BitVec 32)
    (port : BitVec 16) (l : Line) : Line :=
  if l.socket.state = .closed then
    tcpSendPacket ok ticks flagSyn []
      { l with socket := { l.socket with
          remoteIp := ip
          remotePort := port
          state := .synSent
          sndNxt := address
          rcvNxt := 0#32
          retries := 0
          timestamp := ticks } }
  else l

def tcpListen (l : Line) : Line :=
  if l.socket.state = .closed then { l with socket := { l.socket with state := .listen } } else l

/-- `tcp_close` up to the point where it sleeps or ends. -/
def tcpClose (ok : Bool) (ticks : BitVec 32) (l : Line) : Line :=
  if l.socket.state = .established then
    tcpSendPacket ok ticks (flagFin ||| flagAck) []
      { l with socket := { l.socket with state := .finWait1 } }
  else { l with socket := l.socket.released }

/-- The timer has something to do for the socket. -/
def Socket.Expired (s : Socket) (ticks : BitVec 32) : Prop :=
  (s.state = .synSent ∨ s.state = .established) ∧ s.sndUna < s.sndNxt ∧
    BitVec.ofNat 32 tcpRetransmitMs < ticks - s.timestamp

instance (s : Socket) (ticks : BitVec 32) : Decidable (s.Expired ticks) := instDecidableAnd

/-- The socket before the timer sends. -/
def Socket.retry (s : Socket) (ticks : BitVec 32) : Socket :=
  { s with retries := s.retries + 1, timestamp := ticks }

/-- The body of the loop of `tcp_timer`. -/
def Line.onTimer (ok : Bool) (ticks : BitVec 32) (l : Line) : Line :=
  if l.socket.Expired ticks then
    if l.socket.retries < tcpRetries then
      tcpSendPacket ok ticks (if l.socket.state = .synSent then flagSyn else flagAck) []
        { l with socket := l.socket.retry ticks }
    else { l with socket := { l.socket with state := .closed } }
  else l

/-- The pieces into which the calls, the handler and the timer fall, each of them on
one socket.  `recvAgain`, `sendAgain` and `closeEnd` come behind a sleep. -/
inductive Piece
  | bind (port : BitVec 16)
  | connect (address ip : BitVec 32) (port : BitVec 16) (ok : Bool)
  | listen
  | send (data : List UInt8) (ok : Bool)
  | sendAgain (data : List UInt8) (ok : Bool)
  | recv (len : Int) (ok : Bool)
  | recvAgain (len : Int) (expired ok : Bool)
  | close (ok : Bool)
  | closeEnd
  | segment (seg : Segment) (ok₁ ok₂ : Bool)
  | timer (ok : Bool)
deriving DecidableEq

/-- The bytes that the caller gets, and the line afterwards. -/
def Piece.apply (ticks : BitVec 32) : Piece → Line → List UInt8 × Line
  | .bind port, l => ([], { l with socket := { l.socket with localPort := port } })
  | .connect address ip port ok, l => ([], tcpConnect ok ticks address ip port l)
  | .listen, l => ([], tcpListen l)
  | .send data ok, l => ([], tcpSend ok ticks data l)
  | .sendAgain data ok, l => ([], l.sendChunk ok ticks data)
  | .recv len ok, l => ((tcpRecv ok ticks len l).1, (tcpRecv ok ticks len l).2.1)
  | .recvAgain len expired ok, l =>
    ((l.recvWait expired ok ticks len).1, (l.recvWait expired ok ticks len).2.1)
  | .close ok, l => ([], tcpClose ok ticks l)
  | .closeEnd, l => ([], { l with socket := l.socket.released })
  | .segment seg ok₁ ok₂, l => ([], l.handle ok₁ ok₂ ticks seg)
  | .timer ok, l => ([], l.onTimer ok ticks)

/-! ## The table -/

/-- `sockets`, `next_port` and `tcp_ticks`; and what went out. -/
structure Table where
  sockets : Slot → Socket
  nextPort : BitVec 16
  ticks : BitVec 32
  sent : List Segment

/-- After `tcp_init`. -/
def Table.init : Table where
  sockets := fun _ => Socket.zero
  nextPort := 1024#16
  ticks := 0#32
  sent := []

/-- A call works on the socket at `x`. -/
def Table.on (t : Table) (x : Slot) (f : Line → Line) : Table :=
  { t with
    sockets := update t.sockets x (f ⟨t.sockets x, t.sent⟩).socket
    sent := (f ⟨t.sockets x, t.sent⟩).sent }

/-- The first slot with a property. -/
def Table.find (t : Table) (p : Socket → Bool) : Option Slot :=
  (List.finRange 32).find? fun x => p (t.sockets x)

def Table.freeSlot (t : Table) : Option Slot := t.find fun s => !s.used

def tcpFindSocket (t : Table) (fd : Int) : Option Slot :=
  (List.finRange 32).find? fun x => fd == x.val && (t.sockets x).used

def tcpFindConnection (t : Table) (localIp : BitVec 32) (localPort : BitVec 16)
    (remoteIp : BitVec 32) (remotePort : BitVec 16) : Option Slot :=
  t.find fun s => s.used && s.localIp == localIp && s.localPort == localPort &&
    s.remoteIp == remoteIp && s.remotePort == remotePort

def tcpFindListener (t : Table) (port : BitVec 16) : Option Slot :=
  t.find fun s => s.used && s.state == .listen && s.localPort == port

/-- A socket as `tcp_socket` makes it. -/
def Socket.fresh (ip : BitVec 32) (port : BitVec 16) : Socket :=
  { Socket.zero with used := true, localIp := ip, localPort := port }

/-- `tcp_socket`; the port is used up also if there is no memory. -/
def tcpSocket (memory : Bool) (ip : BitVec 32) (t : Table) : Table × Option Slot :=
  match t.freeSlot with
  | none => (t, none)
  | some x =>
    let s := Socket.fresh ip t.nextPort
    ({ t with
        sockets := update t.sockets x (if memory then s else s.released)
        nextPort := t.nextPort + 1#16 },
      if memory then some x else none)

/-- A call that looks its descriptor up first. -/
def Table.call (t : Table) (fd : Int) (f : Line → Line) : Table :=
  match tcpFindSocket t fd with
  | none => t
  | some x => t.on x f

def tcpBind (fd : Int) (port : BitVec 16) (t : Table) : Table :=
  match tcpFindSocket t fd with
  | none => t
  | some x =>
    if (t.sockets x).state = .closed ∧
        ∀ y, y ≠ x → (t.sockets y).used = true → (t.sockets y).localPort ≠ port then
      t.on x fun l => { l with socket := { l.socket with localPort := port } }
    else t

/-- The socket that `tcp_accept` hands out in place of the one that received the SYN. -/
def Socket.adopt (new old : Socket) : Socket :=
  { new with
    localIp := old.localIp
    localPort := old.localPort
    remoteIp := old.remoteIp
    remotePort := old.remotePort
    sndNxt := old.sndNxt
    rcvNxt := old.rcvNxt
    state := .established }

/-- The client that a round of `tcp_accept` on the port finds. -/
def Table.pending (t : Table) (port : BitVec 16) : Option Slot :=
  t.find fun s => s.used && s.state == .synRcvd && s.localPort == port

/-- A round of the loop of `tcp_accept` for the listener at `x`. -/
def Table.acceptRound (t : Table) (x : Slot) (memory : Bool) (ip : BitVec 32) : Table × Outcome :=
  match t.pending (t.sockets x).localPort with
  | none => (t, .sleeps)
  | some i =>
    match tcpSocket memory ip t with
    | (t', none) => (t', .returned (-1))
    | (t', some j) =>
      ({ t' with
          sockets := update
            (update t'.sockets j ((t'.sockets j).adopt (t.sockets i)))
            i (t.sockets i).released },
        .returned j.val)

def tcpAccept (fd : Int) (memory : Bool) (ip : BitVec 32) (t : Table) : Table × Outcome :=
  match tcpFindSocket t fd with
  | none => (t, .returned (-1))
  | some x =>
    if (t.sockets x).state = .listen then t.acceptRound x memory ip else (t, .returned (-1))

/-- The socket that a SYN creates. -/
def Socket.embryo (address : BitVec 32) (src dst : BitVec 32) (seg : Segment) : Socket :=
  { Socket.zero with
    used := true
    localIp := dst
    localPort := seg.dstPort
    remoteIp := src
    remotePort := seg.srcPort
    rcvNxt := seg.seq + 1#32
    sndNxt := address
    state := .synRcvd }

/-- A SYN for which there is no connection. -/
def Table.handleSyn (t : Table) (address : Slot → BitVec 32) (src dst : BitVec 32)
    (seg : Segment) (ok : Bool) : Table :=
  match tcpFindListener t seg.dstPort, t.freeSlot with
  | some _, some x =>
    t.on x fun l => tcpSendPacket ok t.ticks (flagSyn ||| flagAck) []
      { l with socket := Socket.embryo (address x) src dst seg }
  | _, _ => t

/-- `tcp_handle_packet` behind the header. -/
def Table.handle (t : Table) (address : Slot → BitVec 32) (src dst : BitVec 32)
    (seg : Segment) (ok₁ ok₂ : Bool) : Table :=
  match tcpFindConnection t dst seg.dstPort src seg.srcPort with
  | some x => t.on x (Line.handle ok₁ ok₂ t.ticks seg)
  | none => if seg.has flagSyn then t.handleSyn address src dst seg ok₁ else t

def tcpHandlePacket (address : Slot → BitVec 32) (pkt : List UInt8) (src dst : BitVec 32)
    (ok₁ ok₂ : Bool) (t : Table) : Table :=
  match Segment.parse pkt with
  | none => t
  | some seg => t.handle address src dst seg ok₁ ok₂

/-- `tcp_timer`; the sockets are served in the order of the table. -/
def tcpTimer (ok : Slot → Bool) (t : Table) : Table :=
  (List.finRange 32).foldl
    (fun t x => if (t.sockets x).used then t.on x (Line.onTimer (ok x) t.ticks) else t)
    { t with ticks := t.ticks + 1#32 }

/-- The calls, the packets and the ticks.  The actions on a slot are the pieces of
calls behind a sleep: they hold the address of the socket and look nothing up. -/
inductive Action
  | socket (memory : Bool) (ip : BitVec 32)
  | bind (fd : Int) (port : BitVec 16)
  | connect (fd : Int) (ip : BitVec 32) (port : BitVec 16) (ok : Bool)
  | listen (fd : Int)
  | accept (fd : Int) (memory : Bool) (ip : BitVec 32)
  | acceptAgain (x : Slot) (memory : Bool) (ip : BitVec 32)
  | send (fd : Int) (data : List UInt8) (ok : Bool)
  | sendAgain (x : Slot) (data : List UInt8) (ok : Bool)
  | recv (fd : Int) (len : Int) (ok : Bool)
  | recvAgain (x : Slot) (len : Int) (expired ok : Bool)
  | close (fd : Int) (ok : Bool)
  | closeEnd (x : Slot)
  | packet (pkt : List UInt8) (src dst : BitVec 32) (ok₁ ok₂ : Bool)
  | timer (ok : Slot → Bool)

/-- The table after an action; `address` are the addresses of the sockets, cut to 32
bits. -/
def Table.step (address : Slot → BitVec 32) (t : Table) : Action → Table
  | .socket memory ip => (tcpSocket memory ip t).1
  | .bind fd port => tcpBind fd port t
  | .connect fd ip port ok =>
    match tcpFindSocket t fd with
    | none => t
    | some x => t.on x (tcpConnect ok t.ticks (address x) ip port)
  | .listen fd => t.call fd tcpListen
  | .accept fd memory ip => (tcpAccept fd memory ip t).1
  | .acceptAgain x memory ip => (t.acceptRound x memory ip).1
  | .send fd data ok => t.call fd (tcpSend ok t.ticks data)
  | .sendAgain x data ok => t.on x (Line.sendChunk ok t.ticks data)
  | .recv fd len ok => t.call fd fun l => (tcpRecv ok t.ticks len l).2.1
  | .recvAgain x len expired ok => t.on x fun l => (l.recvWait expired ok t.ticks len).2.1
  | .close fd ok => t.call fd (tcpClose ok t.ticks)
  | .closeEnd x => t.on x fun l => { l with socket := l.socket.released }
  | .packet pkt src dst ok₁ ok₂ => tcpHandlePacket address pkt src dst ok₁ ok₂ t
  | .timer ok => tcpTimer ok t

end Utms7.Tcp
