import Utms7.TcpSocket

/-!
# The table of TCP sockets

What an action can do to the table.  `Change` lists it: an action leaves the sockets
alone, runs one piece of the program on one socket, makes a socket in a free place,
hands a socket on from one place to another, or lets the timer look at all of them.
-/

namespace Utms7.Tcp

open Function List Table

variable {t : Table} {x y : Slot} {address : Slot → BitVec 32} {port : BitVec 16}
  {p : Socket → Bool} {a : Action} {fd : Int}

/-! ## Looking up -/

theorem find_some (h : t.find p = some x) : p (t.sockets x) = true := by
  simpa using find?_some h

theorem find_none : t.find p = none ↔ ∀ x, p (t.sockets x) = false := by
  simp [find]

theorem freeSlot_some (h : t.freeSlot = some x) : (t.sockets x).used = false := by
  simpa using find_some h

/-- A descriptor leads to the socket in its slot if that is in use. -/
theorem findSocket_some : tcpFindSocket t fd = some x ↔ fd = x.val ∧ (t.sockets x).used = true := by
  constructor
  · intro h
    simpa using find?_some h
  · rintro ⟨rfl, hused⟩
    cases hfind : tcpFindSocket t x.val with
    | none =>
      have hnone := find?_eq_none.mp hfind x (mem_finRange x)
      simp [hused] at hnone
    | some y =>
      have hy := find?_some hfind
      simp only [Bool.and_eq_true, beq_iff_eq, Int.natCast_inj] at hy
      rw [Fin.ext hy.1]

/-- The two ends of a connection. -/
structure Ends where
  localIp : BitVec 32
  localPort : BitVec 16
  remoteIp : BitVec 32
  remotePort : BitVec 16
deriving DecidableEq

/-- The ends of the connection of a socket. -/
def Socket.ends (s : Socket) : Ends := ⟨s.localIp, s.localPort, s.remoteIp, s.remotePort⟩

/-- The connection to which a segment belongs. -/
def Segment.ends (seg : Segment) (src dst : BitVec 32) : Ends :=
  ⟨dst, seg.dstPort, src, seg.srcPort⟩

/-- A segment without a connection belongs to no socket in use. -/
theorem findConnection_none {seg : Segment} {src dst : BitVec 32}
    (h : tcpFindConnection t dst seg.dstPort src seg.srcPort = none)
    (hused : (t.sockets x).used = true) : (t.sockets x).ends ≠ seg.ends src dst := by
  intro hends
  have hx := find_none.mp h x
  simp only [Socket.ends, Segment.ends, Ends.mk.injEq] at hends
  simp [hused, hends] at hx

/-- The socket waits for `tcp_accept` on the port. -/
def Socket.Embryonic (port : BitVec 16) (s : Socket) : Prop :=
  s.used = true ∧ s.state = .synRcvd ∧ s.localPort = port

instance (port : BitVec 16) (s : Socket) : Decidable (s.Embryonic port) := instDecidableAnd

theorem pending_some (h : t.pending port = some x) : (t.sockets x).Embryonic port := by
  have hx := find_some h
  simp only [Bool.and_eq_true, beq_iff_eq] at hx
  exact ⟨hx.1.1, hx.1.2, hx.2⟩

theorem pending_none (h : t.pending port = none) : ¬ (t.sockets x).Embryonic port := by
  rintro ⟨hused, hstate, hport⟩
  have hx := find_none.mp h x
  simp [hused, hstate, hport] at hx

/-! ## The timer -/

/-- What the timer does to a socket. -/
def Socket.onTimer (s : Socket) (ok : Bool) (ticks : BitVec 32) : Socket :=
  if s.used then ((Line.mk s []).onTimer ok ticks).socket else s

theorem onTimer_socket {ok : Bool} {ticks : BitVec 32} {s : Socket} {sent : List Segment} :
    ((Line.mk s sent).onTimer ok ticks).socket = ((Line.mk s []).onTimer ok ticks).socket := by
  unfold Line.onTimer
  split
  · split
    · cases ok <;> rfl
    · rfl
  · rfl

/-- The timer treats each socket once. -/
theorem timer_fold (ok : Slot → Bool) {xs : List Slot} (hxs : xs.Nodup) (t : Table) (y : Slot) :
    let t' := xs.foldl
      (fun t x => if (t.sockets x).used then t.on x (Line.onTimer (ok x) t.ticks) else t) t
    t'.ticks = t.ticks ∧ t'.sockets y =
      if y ∈ xs then (t.sockets y).onTimer (ok y) t.ticks else t.sockets y := by
  induction xs generalizing t with
  | nil => exact ⟨rfl, rfl⟩
  | cons x xs ih =>
    obtain ⟨hx, hxs⟩ := nodup_cons.mp hxs
    have hone : ∀ y, (if (t.sockets x).used then t.on x (Line.onTimer (ok x) t.ticks)
        else t).sockets y = if y = x then (t.sockets y).onTimer (ok y) t.ticks
          else t.sockets y := by
      intro y
      by_cases hy : y = x
      · subst hy
        rw [if_pos rfl, Socket.onTimer]
        split
        · simp only [Table.on, update_self]
          exact onTimer_socket
        · rfl
      · split
        · exact update_of_ne hy _ _
        · rfl
    have hticks : (if (t.sockets x).used then t.on x (Line.onTimer (ok x) t.ticks)
        else t).ticks = t.ticks := by
      split <;> rfl
    obtain ⟨ihticks, ihsockets⟩ := ih hxs
      (if (t.sockets x).used then t.on x (Line.onTimer (ok x) t.ticks) else t)
    refine ⟨ihticks.trans hticks, ihsockets.trans ?_⟩
    rw [hone, hticks]
    by_cases hy : y = x
    · subst hy
      rw [if_neg hx, if_pos rfl, if_pos mem_cons_self]
    · simp only [hy, mem_cons, false_or, if_false]

theorem timer_sockets {ok : Slot → Bool} {t : Table} (x : Slot) :
    (tcpTimer ok t).sockets x = (t.sockets x).onTimer (ok x) (t.ticks + 1#32) := by
  have hfold := (timer_fold ok (nodup_finRange 32)
    { t with ticks := t.ticks + 1#32 } x).2
  rw [if_pos (mem_finRange x)] at hfold
  exact hfold

/-! ## `tcp_accept` and the packets -/

/-- The socket in place of `i` that `tcp_accept` hands out. -/
def Table.handedOn (t : Table) (i : Slot) (ip : BitVec 32) : Socket :=
  (Socket.fresh ip t.nextPort).adopt (t.sockets i)

/-- The ways in which a round of `tcp_accept` ends. -/
inductive AcceptCase (t : Table) (port : BitVec 16) (memory : Bool) (ip : BitVec 32) :
    Table × Outcome → Prop
  | sleeps (pending : t.pending port = none) : AcceptCase t port memory ip (t, .sleeps)
  | full {i : Slot} (pending : t.pending port = some i) (slot : t.freeSlot = none) :
      AcceptCase t port memory ip (t, .returned (-1))
  | refused {i j : Slot} (pending : t.pending port = some i) (slot : t.freeSlot = some j)
      (no : memory = false) :
      AcceptCase t port memory ip
        ({ t with
            sockets := update t.sockets j (Socket.fresh ip t.nextPort).released
            nextPort := t.nextPort + 1#16 }, .returned (-1))
  | handed {i j : Slot} (pending : t.pending port = some i) (slot : t.freeSlot = some j)
      (yes : memory = true) :
      AcceptCase t port memory ip
        ({ t with
            sockets := update (update t.sockets j (t.handedOn i ip)) i
              (t.sockets i).released
            nextPort := t.nextPort + 1#16 }, .returned j.val)

theorem acceptRound_case (t : Table) (x : Slot) (memory : Bool) (ip : BitVec 32) :
    AcceptCase t (t.sockets x).localPort memory ip (t.acceptRound x memory ip) := by
  unfold acceptRound
  cases hpending : t.pending (t.sockets x).localPort with
  | none => exact .sleeps hpending
  | some i =>
    cases hslot : t.freeSlot with
    | none =>
      simp only [tcpSocket, hslot]
      exact .full hpending hslot
    | some j =>
      cases memory with
      | false =>
        simp only [tcpSocket, hslot]
        exact .refused hpending hslot rfl
      | true =>
        simp only [tcpSocket, hslot, if_true, update_self, update_idem]
        exact .handed hpending hslot rfl

/-- The socket of a SYN, once it is answered. -/
def Table.begun (t : Table) (address : BitVec 32) (src dst : BitVec 32) (seg : Segment)
    (ok : Bool) : Socket :=
  (tcpSendPacket ok t.ticks (flagSyn ||| flagAck) []
    ⟨Socket.embryo address src dst seg, t.sent⟩).socket

/-- The connection that a packet begins. -/
def Table.begins (t : Table) (pkt : List UInt8) (src dst : BitVec 32) : Option Ends :=
  match Segment.parse pkt with
  | none => none
  | some seg =>
    if tcpFindConnection t dst seg.dstPort src seg.srcPort = none ∧ seg.has flagSyn = true ∧
        (tcpFindListener t seg.dstPort).isSome = true ∧ t.freeSlot.isSome = true then
      some (seg.ends src dst)
    else none

/-- What a packet does to the sockets, and the connection that it begins. -/
inductive PacketCase (t : Table) (address : Slot → BitVec 32) (pkt : List UInt8)
    (src dst : BitVec 32) (ok₁ ok₂ : Bool) : (Slot → Socket) → Option Ends → Prop
  | ignored (nowhere : ∀ seg, Segment.parse pkt = some seg →
        tcpFindConnection t dst seg.dstPort src seg.srcPort = none) :
      PacketCase t address pkt src dst ok₁ ok₂ t.sockets none
  | segment {seg : Segment} {x : Slot} (parse : Segment.parse pkt = some seg)
      (found : tcpFindConnection t dst seg.dstPort src seg.srcPort = some x) :
      PacketCase t address pkt src dst ok₁ ok₂ (update t.sockets x
        (Line.handle ok₁ ok₂ t.ticks seg ⟨t.sockets x, t.sent⟩).socket) none
  | begun {seg : Segment} {x y : Slot} (parse : Segment.parse pkt = some seg)
      (none : tcpFindConnection t dst seg.dstPort src seg.srcPort = none)
      (syn : seg.has flagSyn = true) (listener : tcpFindListener t seg.dstPort = some y)
      (slot : t.freeSlot = some x) :
      PacketCase t address pkt src dst ok₁ ok₂ (update t.sockets x
        (t.begun (address x) src dst seg ok₁)) (some (seg.ends src dst))

theorem packet_case (t : Table) (address : Slot → BitVec 32) (pkt : List UInt8)
    (src dst : BitVec 32) (ok1 ok2 : Bool) : PacketCase t address pkt src dst ok1 ok2
      (tcpHandlePacket address pkt src dst ok1 ok2 t).sockets (t.begins pkt src dst) := by
  unfold tcpHandlePacket begins
  cases hparse : Segment.parse pkt with
  | none =>
    refine .ignored fun seg hseg => ?_
    rw [hparse] at hseg
    cases hseg
  | some seg =>
    simp only [handle]
    cases hfound : tcpFindConnection t dst seg.dstPort src seg.srcPort with
    | some x => exact .segment hparse hfound
    | none =>
      have hnowhere : ∀ seg', Segment.parse pkt = some seg' →
          tcpFindConnection t dst seg'.dstPort src seg'.srcPort = none := by
        intro seg' hseg'
        obtain rfl : seg = seg' := Option.some.inj (hparse.symm.trans hseg')
        exact hfound
      cases hsyn : seg.has flagSyn with
      | false => exact .ignored hnowhere
      | true =>
        simp only [handleSyn]
        cases hlistener : tcpFindListener t seg.dstPort with
        | none => exact .ignored hnowhere
        | some y =>
          cases hslot : t.freeSlot with
          | none => exact .ignored hnowhere
          | some x => exact .begun hparse hfound hsyn hlistener hslot

/-! ## All actions -/

/-- The pieces that leave the ends of a connection alone. -/
def Piece.Plain : Piece → Prop
  | .bind _ | .connect _ _ _ _ | .segment _ _ _ | .timer _ => False
  | _ => True

/-- What an action does to the sockets. -/
inductive Change (address : Slot → BitVec 32) (t : Table) : Action → (Slot → Socket) → Prop
  | none {a : Action} : Change address t a t.sockets
  | piece {a : Action} {x : Slot} {p : Piece} (plain : p.Plain) :
      Change address t a
        (update t.sockets x (p.apply t.ticks ⟨t.sockets x, t.sent⟩).2.socket)
  | bind {a : Action} {x : Slot} {port : BitVec 16} (closed : (t.sockets x).state = .closed)
      (free : ∀ y, y ≠ x → (t.sockets y).used = true → (t.sockets y).localPort ≠ port) :
      Change address t a (update t.sockets x { t.sockets x with localPort := port })
  | connect {fd : Int} {ip : BitVec 32} {port : BitVec 16} {ok : Bool} {x : Slot}
      (found : tcpFindSocket t fd = some x) (closed : (t.sockets x).state = .closed) :
      Change address t (.connect fd ip port ok) (update t.sockets x
        (tcpConnect ok t.ticks (address x) ip port ⟨t.sockets x, t.sent⟩).socket)
  | create {a : Action} {x : Slot} {ip : BitVec 32} (slot : t.freeSlot = some x) :
      Change address t a (update t.sockets x (Socket.fresh ip t.nextPort))
  | refuse {a : Action} {x : Slot} {ip : BitVec 32} (slot : t.freeSlot = some x) :
      Change address t a (update t.sockets x (Socket.fresh ip t.nextPort).released)
  | packet {pkt : List UInt8} {src dst : BitVec 32} {ok₁ ok₂ : Bool} {f : Slot → Socket}
      {e : Option Ends} (case : PacketCase t address pkt src dst ok₁ ok₂ f e) :
      Change address t (.packet pkt src dst ok₁ ok₂) f
  | accept {a : Action} {i j : Slot} {port : BitVec 16} {ip : BitVec 32}
      (pending : t.pending port = some i) (slot : t.freeSlot = some j) :
      Change address t a (update (update t.sockets j (t.handedOn i ip)) i (t.sockets i).released)
  | timer {ok : Slot → Bool} :
      Change address t (.timer ok) fun x => (t.sockets x).onTimer (ok x) (t.ticks + 1#32)

theorem call_change {p : Piece} (plain : p.Plain) :
    Change address t a (t.call fd fun l => (p.apply t.ticks l).2).sockets := by
  unfold call
  cases tcpFindSocket t fd with
  | none => exact .none
  | some x => exact .piece plain

theorem accept_change {memory : Bool} {ip : BitVec 32} {r : Table × Outcome}
    (h : AcceptCase t port memory ip r) : Change address t a r.1.sockets := by
  cases h with
  | sleeps | full => exact .none
  | refused _ slot => exact .refuse slot
  | handed pending slot => exact .accept pending slot

/-- **What an action can do.** -/
theorem step_change (address : Slot → BitVec 32) (t : Table) (a : Action) :
    Change address t a (t.step address a).sockets := by
  cases a with
  | socket memory ip =>
    simp only [Table.step, tcpSocket]
    cases hslot : t.freeSlot with
    | none => exact .none
    | some x =>
      cases memory with
      | false => exact .refuse hslot
      | true => exact .create hslot
  | bind fd port =>
    simp only [Table.step, tcpBind]
    cases hfound : tcpFindSocket t fd with
    | none => exact .none
    | some x =>
      simp only
      split
      · rename_i hfree
        exact .bind hfree.1 hfree.2
      · exact .none
  | connect fd ip port ok =>
    simp only [Table.step]
    cases hfound : tcpFindSocket t fd with
    | none => exact .none
    | some x =>
      by_cases hclosed : (t.sockets x).state = .closed
      · exact .connect hfound hclosed
      · have hsame : t.on x (tcpConnect ok t.ticks (address x) ip port) = t := by
          simp [Table.on, tcpConnect, hclosed]
        simp only [hsame]
        exact .none
  | listen fd => exact call_change (p := .listen) trivial
  | accept fd memory ip =>
    simp only [Table.step, tcpAccept]
    cases tcpFindSocket t fd with
    | none => exact .none
    | some x =>
      simp only
      split
      · exact accept_change (acceptRound_case t x memory ip)
      · exact .none
  | acceptAgain x memory ip => exact accept_change (acceptRound_case t x memory ip)
  | send fd data ok => exact call_change (p := .send data ok) trivial
  | sendAgain x data ok => exact .piece (p := .sendAgain data ok) trivial
  | recv fd len ok => exact call_change (p := .recv len ok) trivial
  | recvAgain x len expired ok => exact .piece (p := .recvAgain len expired ok) trivial
  | close fd ok => exact call_change (p := .close ok) trivial
  | closeEnd x => exact .piece (p := .closeEnd) trivial
  | packet pkt src dst ok1 ok2 => exact .packet (packet_case t address pkt src dst ok1 ok2)
  | timer ok =>
    have hall : (t.step address (.timer ok)).sockets =
        fun x => (t.sockets x).onTimer (ok x) (t.ticks + 1#32) := funext (timer_sockets)
    rw [hall]
    exact .timer

end Utms7.Tcp
