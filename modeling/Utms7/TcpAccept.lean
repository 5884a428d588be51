import Utms7.TcpTable

/-!
# Accepting connections

A SYN makes a socket in SYN_RCVD, and `tcp_accept` hands such a socket out, before the
handshake is over.  An acknowledgement that comes first takes the socket to
ESTABLISHED, where no call looks for it; and the bytes that came first are freed with
the socket they came to.  So the connections of a port are the ones handed out and the
ones that wait, as long as nothing but the SYN comes before `tcp_accept`.
-/

namespace Utms7.Tcp

open Function Finset Socket

/-- The places that `tcp_accept` on the port can hand out. -/
def embryos (port : BitVec 16) (f : Slot → Socket) : Finset Slot :=
  Finset.univ.filter fun x => (f x).Embryonic port

/-- The connections that wait. -/
def waitingEnds (port : BitVec 16) (f : Slot → Socket) : Multiset Ends :=
  (embryos port f).val.map fun x => (f x).ends

/-- A connection, if there is one and it is on the port. -/
def onPort (port : BitVec 16) : Option Ends → Multiset Ends
  | none => 0
  | some e => if e.localPort = port then {e} else 0

/-- The connections on the port that a call of `tcp_accept` returns. -/
def handsOut (port : BitVec 16) (r : Table × Outcome) : Multiset Ends :=
  match r.2 with
  | .sleeps => 0
  | .returned fd =>
    (Finset.univ.filter fun x : Slot => fd = x.val ∧ (r.1.sockets x).localPort = port).val.map
      fun x => (r.1.sockets x).ends

/-- The table, the connections that were begun on a port and the ones handed out. -/
structure Backlog where
  table : Table
  begun : Multiset Ends
  handed : Multiset Ends

open Backlog

/-- The packets and the calls of `tcp_accept`. -/
inductive Arrival
  | packet (pkt : List UInt8) (src dst : BitVec 32) (ok₁ ok₂ : Bool)
  | accept (fd : Int) (memory : Bool) (ip : BitVec 32)
  | acceptAgain (x : Slot) (memory : Bool) (ip : BitVec 32)

def Arrival.action : Arrival → Action
  | .packet pkt src dst ok₁ ok₂ => .packet pkt src dst ok₁ ok₂
  | .accept fd memory ip => .accept fd memory ip
  | .acceptAgain x memory ip => .acceptAgain x memory ip

def Backlog.step (address : Slot → BitVec 32) (port : BitVec 16) (s : Backlog) (a : Arrival) :
    Backlog where
  table := s.table.step address a.action
  begun := s.begun +
    match a with
    | .packet pkt src dst _ _ => onPort port (s.table.begins pkt src dst)
    | _ => 0
  handed := s.handed +
    match a with
    | .packet _ _ _ _ _ => 0
    | .accept fd memory ip => handsOut port (tcpAccept fd memory ip s.table)
    | .acceptAgain x memory ip => handsOut port (s.table.acceptRound x memory ip)

def Backlog.start (t : Table) : Backlog where
  table := t
  begun := 0
  handed := 0

/-- Every connection that was begun is handed out or waits, once; and the socket that
`tcp_accept` is going to hand out for it has all its bytes. -/
structure Backlog.Kept (port : BitVec 16) (s : Backlog) : Prop where
  once : s.begun = s.handed + waitingEnds port s.table.sockets
  bytes : ∀ x ip, (s.table.sockets x).Embryonic port →
    (s.table.handedOn x ip).bytes = (s.table.sockets x).bytes

/-- Nothing that counts comes for a connection that waits: no acknowledgement, and no
data at `rcv_nxt`. -/
def Backlog.Patient (port : BitVec 16) (s : Backlog) (a : Arrival) : Prop :=
  ∀ pkt src dst ok₁ ok₂ seg x, a = .packet pkt src dst ok₁ ok₂ →
    Segment.parse pkt = some seg →
    tcpFindConnection s.table dst seg.dstPort src seg.srcPort = some x →
    (s.table.sockets x).Embryonic port →
      seg.has flagAck = false ∧ (seg.data = [] ∨ seg.seq ≠ (s.table.sockets x).rcvNxt)

/-! ## The sockets that wait -/

variable {port : BitVec 16} {f : Slot → Socket} {x i : Slot} {address : Slot → BitVec 32} {fd : Int}
  {ip : BitVec 32}

section

variable {s : Socket}

theorem mem_embryos : x ∈ embryos port f ↔ (f x).Embryonic port := by
  simp [embryos]

theorem waitingEnds_add (hold : ¬ (f x).Embryonic port) (hnew : s.Embryonic port) :
    waitingEnds port (update f x s) = s.ends ::ₘ waitingEnds port f := by
  have hnot : x ∉ embryos port f := mt mem_embryos.mp hold
  have hinsert : embryos port (update f x s) = insert x (embryos port f) := by
    ext y
    rw [mem_insert, mem_embryos, mem_embryos]
    by_cases hy : y = x
    · subst hy
      simp [hnew]
    · simp [hy]
  rw [waitingEnds, hinsert, insert_val_of_notMem hnot, Multiset.map_cons, update_self]
  congr 1
  refine Multiset.map_congr rfl fun y hy => ?_
  have hyx : y ≠ x := by
    rintro rfl
    exact hnot hy
  rw [update_of_ne hyx]

theorem waitingEnds_remove (hold : (f x).Embryonic port) (hnew : ¬ s.Embryonic port) :
    waitingEnds port f = (f x).ends ::ₘ waitingEnds port (update f x s) := by
  have hback : update (update f x s) x (f x) = f := by simp
  conv_lhs => rw [← hback]
  exact waitingEnds_add (by rwa [update_self]) hold

theorem waitingEnds_zero (h : ∀ x, ¬ (f x).Embryonic port) : waitingEnds port f = 0 := by
  have hempty : embryos port f = ∅ := filter_false_of_mem fun x _ => h x
  rw [waitingEnds, hempty]
  rfl

theorem waitingEnds_same (hiff : s.Embryonic port ↔ (f x).Embryonic port)
    (hends : (f x).Embryonic port → s.ends = (f x).ends) :
    waitingEnds port (update f x s) = waitingEnds port f := by
  have hsame : embryos port (update f x s) = embryos port f := by
    ext y
    rw [mem_embryos, mem_embryos]
    by_cases hy : y = x
    · subst hy
      rw [update_self, hiff]
    · rw [update_of_ne hy]
  rw [waitingEnds, hsame]
  refine Multiset.map_congr rfl fun y hy => ?_
  by_cases hyx : y = x
  · subst hyx
    rw [update_self]
    exact hends (mem_embryos.mp hy)
  · rw [update_of_ne hyx]

end

/-! ## The books of a port -/

/-- `Backlog.Kept`, for a table that may still change. -/
structure Books (port : BitVec 16) (begun handed : Multiset Ends) (f : Slot → Socket) : Prop where
  once : begun = handed + waitingEnds port f
  bytes : ∀ x, (f x).Embryonic port → (f x).bytes = []

section

variable {port' : BitVec 16} {begun handed : Multiset Ends}
  {s : Socket} {t : Table} {l : Line} {seg : Segment} {ok₁ ok₂ : Bool} {ticks : BitVec 32}
  {ip addr src dst : BitVec 32} {ok memory : Bool}
  {r : Table × Outcome} {pkt : List UInt8} {e : Option Ends}

theorem handedOn_bytes : (t.handedOn i ip).bytes = [] := rfl

theorem kept_iff_books {s : Backlog} :
    s.Kept port ↔ Books port s.begun s.handed s.table.sockets := by
  constructor
  · exact fun h => ⟨h.once, fun x hx => (h.bytes x 0#32 hx).symm.trans handedOn_bytes⟩
  · exact fun h => ⟨h.once, fun x ip hx => handedOn_bytes.trans (h.bytes x hx).symm⟩

theorem handle_embryonic : (l.handle ok₁ ok₂ ticks seg).socket.Embryonic port ↔
    l.socket.Embryonic port ∧ seg.has flagAck = false := by
  have hused : (l.handle ok₁ ok₂ ticks seg).socket.used = l.socket.used :=
    handle_keeps used (fun _ _ _ _ _ => rfl) fun _ _ _ _ _ _ _ => rfl
  have hport : (l.handle ok₁ ok₂ ticks seg).socket.localPort = l.socket.localPort :=
    handle_keeps localPort (fun _ _ _ _ _ => rfl) fun _ _ _ _ _ _ _ => rfl
  obtain ⟨late, hstate⟩ := handle_state ok₁ ok₂ ticks seg l
  have hnext : (l.handle ok₁ ok₂ ticks seg).socket.state = .synRcvd ↔
      l.socket.state = .synRcvd ∧ seg.has flagAck = false := by
    rw [hstate]
    cases l.socket.state <;> simp only [State.next] <;> grind
  rw [Socket.Embryonic, Socket.Embryonic]
  grind

theorem handle_ends : (l.handle ok₁ ok₂ ticks seg).socket.ends = l.socket.ends :=
  handle_keeps ends (fun _ _ _ _ _ => rfl) fun _ _ _ _ _ _ _ => rfl

theorem begun_embryonic : (t.begun addr src dst seg ok).Embryonic port ↔ seg.dstPort = port := by
  have hkeep : (t.begun addr src dst seg ok).Embryonic port =
      (embryo addr src dst seg).Embryonic port :=
    sendPacket_keeps (Socket.Embryonic port) fun _ _ _ _ => rfl
  rw [hkeep]
  simp [Socket.Embryonic, embryo]

/-- What holds of the sockets that wait, after a change of one place. -/
theorem forall_embryonic_update {Q : Socket → Prop} (h : ∀ y, (f y).Embryonic port → Q (f y))
    (hs : s.Embryonic port → Q s) (y : Slot) (hy : (update f x s y).Embryonic port) :
    Q (update f x s y) := by
  by_cases hyx : y = x
  · rw [hyx, update_self] at hy ⊢
    exact hs hy
  · rw [update_of_ne hyx] at hy ⊢
    exact h y hy

section

variable (h : Books port begun handed f)
include h

/-- A socket that is not looked for, and is not looked for afterwards. -/
theorem Books.update_other (hold : ¬ (f x).Embryonic port) (hnew : ¬ s.Embryonic port) :
    Books port begun handed (update f x s) := by
  refine ⟨?_, forall_embryonic_update (Q := fun s => s.bytes = []) h.bytes fun hx => (hnew hx).elim⟩
  rw [waitingEnds_same (iff_of_false hnew hold) fun hx => (hold hx).elim]
  exact h.once

/-- A socket that waits and goes on waiting. -/
theorem Books.update_waiting (hold : (f x).Embryonic port) (hnew : s.Embryonic port)
    (hends : s.ends = (f x).ends) : Books port begun handed (update f x s) ↔ s.bytes = [] := by
  constructor
  · intro hbooks
    have hx := hbooks.bytes x
    rw [update_self] at hx
    exact hx hnew
  · intro hbytes
    refine ⟨?_, forall_embryonic_update (Q := fun s => s.bytes = []) h.bytes fun _ => hbytes⟩
    rw [waitingEnds_same (iff_of_true hnew hold) fun _ => hends]
    exact h.once

/-- A socket that waits no longer is lost. -/
theorem Books.not_update_gone (hold : (f x).Embryonic port) (hnew : ¬ s.Embryonic port) :
    ¬ Books port begun handed (update f x s) := by
  intro hbooks
  have hcards := congrArg Multiset.card (h.once.symm.trans hbooks.once)
  rw [waitingEnds_remove hold hnew] at hcards
  simp at hcards

theorem Books.update_begun (hold : ¬ (f x).Embryonic port) (hnew : s.Embryonic port)
    (hbytes : s.bytes = []) : Books port (begun + {s.ends}) handed (update f x s) := by
  refine ⟨?_, forall_embryonic_update (Q := fun s => s.bytes = []) h.bytes fun _ => hbytes⟩
  rw [waitingEnds_add hold hnew, h.once, Multiset.add_cons, Multiset.add_comm _ {s.ends},
    Multiset.singleton_add]

theorem Books.update_handed (hold : (f x).Embryonic port) (hnew : ¬ s.Embryonic port) :
    Books port begun (handed + {(f x).ends}) (update f x s) := by
  refine ⟨?_, forall_embryonic_update (Q := fun s => s.bytes = []) h.bytes fun hx => (hnew hx).elim⟩
  rw [h.once, waitingEnds_remove hold hnew, Multiset.add_cons,
    Multiset.add_comm handed {(f x).ends}, Multiset.singleton_add, Multiset.cons_add]

end

/-! ## One step -/

theorem freeSlot_not_embryonic (h : t.freeSlot = some x) : ¬ (t.sockets x).Embryonic port := by
  rintro ⟨hused, -⟩
  rw [freeSlot_some h] at hused
  cases hused

theorem Books.segment_iff (h : Books port begun handed t.sockets)
    (hx : (t.sockets x).Embryonic port) (haligned : (t.sockets x).Aligned) :
    Books port begun handed (update t.sockets x
        (Line.handle ok₁ ok₂ ticks seg ⟨t.sockets x, t.sent⟩).socket) ↔
      seg.has flagAck = false ∧ (seg.data = [] ∨ seg.seq ≠ (t.sockets x).rcvNxt) := by
  cases hack : seg.has flagAck with
  | true =>
    refine iff_of_false (h.not_update_gone hx ?_) (by simp)
    rw [handle_embryonic, hack]
    simp
  | false =>
    rw [h.update_waiting hx (handle_embryonic.mpr ⟨hx, hack⟩) handle_ends,
      Socket.Aligned.bytes_handle haligned, h.bytes x hx]
    have hempty : (t.sockets x).rcvBufCount = 0 := by
      rw [← length_bytes, h.bytes x hx, List.length_nil]
    simp [accepts]
    grind

/-- Connections wait with their buffers in order. -/
def Tidy (port : BitVec 16) (f : Slot → Socket) : Prop :=
  ∀ x, (f x).Embryonic port → (f x).Aligned

theorem begun_aligned : (t.begun addr src dst seg ok).Aligned := by
  have hembryo : (embryo addr src dst seg).Aligned :=
    ⟨rfl, Nat.zero_le _, Nat.zero_le _, Nat.zero_le _⟩
  exact hembryo.of_eq (sendPacket_keeps _ fun _ _ _ _ => rfl)
    (sendPacket_keeps _ fun _ _ _ _ => rfl) (sendPacket_keeps _ fun _ _ _ _ => rfl)

theorem Tidy.packet (h : Tidy port t.sockets)
    (hcase : PacketCase t address pkt src dst ok₁ ok₂ f e) : Tidy port f := by
  cases hcase with
  | ignored => exact h
  | @segment seg x parse found =>
    refine forall_embryonic_update h fun hnew => ?_
    have hold := (handle_embryonic.mp hnew).1
    exact Socket.Aligned.handle (l := ⟨t.sockets x, t.sent⟩) (h x hold)
  | begun => exact forall_embryonic_update h fun _ => begun_aligned

theorem handedOn_not_embryonic : ¬ (t.handedOn i ip).Embryonic port := by
  rintro ⟨-, hstate, -⟩
  cases hstate

theorem Tidy.accept (h : Tidy port t.sockets) (hcase : AcceptCase t port' memory ip r) :
    Tidy port r.1.sockets := by
  cases hcase with
  | sleeps | full => exact h
  | refused => exact forall_embryonic_update h fun hnew => Bool.noConfusion hnew.1
  | handed =>
    refine forall_embryonic_update (forall_embryonic_update h ?_) ?_
    · exact fun hnew => (handedOn_not_embryonic hnew).elim
    · exact fun hnew => Bool.noConfusion hnew.1

theorem Books.packet_iff (h : Books port begun handed t.sockets) (htidy : Tidy port t.sockets)
    (hcase : PacketCase t address pkt src dst ok₁ ok₂ f e) :
    Books port (begun + onPort port e) handed f ↔
      ∀ seg x, Segment.parse pkt = some seg →
        tcpFindConnection t dst seg.dstPort src seg.srcPort = some x →
        (t.sockets x).Embryonic port →
          seg.has flagAck = false ∧ (seg.data = [] ∨ seg.seq ≠ (t.sockets x).rcvNxt) := by
  cases hcase with
  | ignored nowhere =>
    refine iff_of_true (by simpa [onPort] using h) ?_
    intro seg x hparse hfound
    rw [nowhere seg hparse] at hfound
    cases hfound
  | @segment seg x parse found =>
    have hforall : (∀ seg' x', Segment.parse pkt = some seg' →
        tcpFindConnection t dst seg'.dstPort src seg'.srcPort = some x' →
        (t.sockets x').Embryonic port →
          seg'.has flagAck = false ∧ (seg'.data = [] ∨ seg'.seq ≠ (t.sockets x').rcvNxt)) ↔
        ((t.sockets x).Embryonic port →
          seg.has flagAck = false ∧ (seg.data = [] ∨ seg.seq ≠ (t.sockets x).rcvNxt)) := by
      constructor
      · exact fun hall => hall seg x parse found
      · intro hone seg' x' parse' found'
        obtain rfl : seg = seg' := Option.some.inj (parse.symm.trans parse')
        obtain rfl : x = x' := Option.some.inj (found.symm.trans found')
        exact hone
    rw [hforall, onPort, Multiset.add_zero]
    by_cases hx : (t.sockets x).Embryonic port
    · rw [h.segment_iff hx (htidy x hx)]
      exact ⟨fun hok _ => hok, fun hok => hok hx⟩
    · refine iff_of_true (h.update_other hx ?_) fun hx' => (hx hx').elim
      exact fun hnew => hx (handle_embryonic.mp hnew).1
  | @begun seg x y parse none syn listener slot =>
    refine iff_of_true ?_ ?_
    · have hold : ¬ (t.sockets x).Embryonic port := freeSlot_not_embryonic slot
      have hends : (t.begun (address x) src dst seg ok₁).ends = seg.ends src dst :=
        sendPacket_keeps Socket.ends fun _ _ _ _ => rfl
      have hbytes : (t.begun (address x) src dst seg ok₁).bytes = [] :=
        sendPacket_keeps Socket.bytes fun _ _ _ _ => rfl
      by_cases hport : seg.dstPort = port
      · have hon : onPort port (some (seg.ends src dst)) = {seg.ends src dst} := if_pos hport
        rw [hon, ← hends]
        exact h.update_begun hold (begun_embryonic.mpr hport) hbytes
      · have hon : onPort port (some (seg.ends src dst)) = 0 := if_neg hport
        rw [hon, Multiset.add_zero]
        exact h.update_other hold (mt begun_embryonic.mp hport)
    · intro seg' x' parse' found'
      obtain rfl : seg = seg' := Option.some.inj (parse.symm.trans parse')
      rw [none] at found'
      cases found'

theorem handsOut_failed : handsOut port (t, .returned (-1)) = 0 := by
  simp only [handsOut]
  rfl

theorem handsOut_returned (j : Slot) : handsOut port (t, .returned j.val) =
    if (t.sockets j).localPort = port then {(t.sockets j).ends} else 0 := by
  simp only [handsOut]
  split
  · rename_i hport
    have hone : (Finset.univ.filter fun x : Slot => (j.val : Int) = x.val ∧
        (t.sockets x).localPort = port) = {j} := by
      ext x
      simp only [mem_filter, mem_univ, true_and, mem_singleton]
      constructor
      · exact fun hx => Fin.ext (by omega)
      · rintro rfl
        exact ⟨rfl, hport⟩
    rw [hone]
    rfl
  · rename_i hport
    rw [filter_false_of_mem]
    · rfl
    · rintro x - ⟨hx, hx'⟩
      obtain rfl : j = x := Fin.ext (by omega)
      exact hport hx'

/-- **A call of `tcp_accept`** keeps the books. -/
theorem Books.accept (h : Books port begun handed t.sockets)
    (hcase : AcceptCase t port' memory ip r) :
    Books port begun (handed + handsOut port r) r.1.sockets := by
  cases hcase with
  | sleeps => simpa [handsOut] using h
  | full =>
    rw [handsOut_failed, Multiset.add_zero]
    exact h
  | refused pending slot =>
    rw [handsOut_failed, Multiset.add_zero]
    exact h.update_other (freeSlot_not_embryonic slot) fun hnew => Bool.noConfusion hnew.1
  | @handed i j pending slot yes =>
    obtain ⟨hused, hstate, hport⟩ := pending_some pending
    have hij : j ≠ i := by
      rintro rfl
      rw [freeSlot_some slot] at hused
      cases hused
    have hmoved : Books port begun handed (update t.sockets j (t.handedOn i ip)) :=
      h.update_other (freeSlot_not_embryonic slot) handedOn_not_embryonic
    have hgone : ¬ (t.sockets i).released.Embryonic port :=
      fun hnew => Bool.noConfusion hnew.1
    have hi : update t.sockets j (t.handedOn i ip) i = t.sockets i :=
      update_of_ne hij.symm _ _
    have hj : update (update t.sockets j (t.handedOn i ip)) i
        (t.sockets i).released j = t.handedOn i ip := by
      rw [update_of_ne hij, update_self]
    have hends : (t.handedOn i ip).ends = (t.sockets i).ends := rfl
    have hlocal : (t.handedOn i ip).localPort = (t.sockets i).localPort := rfl
    rw [handsOut_returned]
    simp only [hj, hends, hlocal, hport]
    by_cases hsame : port' = port
    · subst hsame
      rw [if_pos rfl, ← hi]
      refine hmoved.update_handed ?_ ?_
      · rw [hi]
        exact ⟨hused, hstate, hport⟩
      · rw [hi]
        exact hgone
    · rw [if_neg hsame, Multiset.add_zero]
      refine hmoved.update_other ?_ hgone
      rw [hi]
      rintro ⟨-, -, hport'⟩
      exact hsame (hport.symm.trans hport')

end

/-! ## Whole runs -/

namespace Backlog

variable {s : Backlog} {a : Arrival}

theorem accept_case (t : Table) (fd : Int) (memory : Bool) (ip : BitVec 32) :
    tcpAccept fd memory ip t = (t, .returned (-1)) ∨
      ∃ port', AcceptCase t port' memory ip (tcpAccept fd memory ip t) := by
  unfold tcpAccept
  cases tcpFindSocket t fd with
  | none => exact .inl rfl
  | some x =>
    simp only
    split
    · exact .inr ⟨_, acceptRound_case t x memory ip⟩
    · exact .inl rfl

theorem tidy_step (h : Tidy port s.table.sockets) :
    Tidy port (s.step address port a).table.sockets := by
  cases a with
  | packet pkt src dst ok₁ ok₂ => exact h.packet (packet_case _ address pkt src dst ok₁ ok₂)
  | accept fd memory ip =>
    rcases accept_case s.table fd memory ip with hfailed | ⟨port', hcase⟩
    · simp only [step, Arrival.action, Table.step, hfailed]
      exact h
    · exact h.accept hcase
  | acceptAgain x memory ip => exact h.accept (acceptRound_case _ x memory ip)

theorem books_accept (h : Books port s.begun s.handed s.table.sockets) {memory : Bool} :
    Books port s.begun
      (s.handed + handsOut port (tcpAccept fd memory ip s.table))
      (tcpAccept fd memory ip s.table).1.sockets := by
  rcases accept_case s.table fd memory ip with hfailed | ⟨port', hcase⟩
  · rw [hfailed, handsOut_failed, Multiset.add_zero]
    exact h
  · exact h.accept hcase

/-- **One step** keeps the connections of the port exactly if nothing comes too early. -/
theorem kept_step_iff (h : s.Kept port) (htidy : Tidy port s.table.sockets) :
    (s.step address port a).Kept port ↔ s.Patient port a := by
  rw [kept_iff_books] at h ⊢
  cases a with
  | packet pkt src dst ok₁ ok₂ =>
    simp only [step, Multiset.add_zero]
    refine (h.packet_iff htidy (packet_case _ address pkt src dst ok₁ ok₂)).trans ?_
    constructor
    · rintro hall _ _ _ _ _ seg x ⟨⟩
      exact hall seg x
    · exact fun hpatient seg x => hpatient pkt src dst ok₁ ok₂ seg x rfl
  | accept fd memory ip =>
    simp only [step, Multiset.add_zero]
    refine iff_of_true (books_accept h) ?_
    rintro _ _ _ _ _ _ _ ⟨⟩
  | acceptAgain x memory ip =>
    simp only [step, Multiset.add_zero]
    refine iff_of_true (h.accept (acceptRound_case _ x memory ip)) ?_
    rintro _ _ _ _ _ _ _ ⟨⟩

/-- `tcp_accept` can be called on the port, and there is a free place. -/
structure Open (port : BitVec 16) (fd : Int) (t : Table) : Prop where
  listens : ∃ x, tcpFindSocket t fd = some x ∧ (t.sockets x).state = .listen ∧
    (t.sockets x).localPort = port
  free : ∃ y, (t.sockets y).used = false

/-- A call of `tcp_accept` on such a port hands one of the waiting connections out. -/
theorem Open.accept {t : Table} (h : Open port fd t) (ip : BitVec 32)
    (hsome : waitingEnds port t.sockets ≠ 0) : Open port fd (tcpAccept fd true ip t).1 ∧
      (waitingEnds port (tcpAccept fd true ip t).1.sockets).card + 1 =
        (waitingEnds port t.sockets).card := by
  obtain ⟨⟨x, hfound, hlisten, hport⟩, y, hfree⟩ := h
  have hround : tcpAccept fd true ip t = t.acceptRound x true ip := by
    simp only [tcpAccept, hfound, if_pos hlisten]
  rw [hround]
  have hcase := acceptRound_case t x true ip
  rw [hport] at hcase
  generalize t.acceptRound x true ip = r at hcase ⊢
  cases hcase with
  | sleeps pending => exact (hsome (waitingEnds_zero fun x => pending_none pending)).elim
  | full _ slot =>
    have hused := find_none.mp slot y
    simp [hfree] at hused
  | refused _ _ no => cases no
  | @handed i j pending slot yes =>
    have hi := pending_some pending
    obtain ⟨hfd, hused⟩ := findSocket_some.mp hfound
    have hxi : x ≠ i := by
      rintro rfl
      rw [hi.2.1] at hlisten
      cases hlisten
    have hxj : x ≠ j := by
      rintro rfl
      rw [freeSlot_some slot] at hused
      cases hused
    have hij : i ≠ j := by
      rintro rfl
      exact freeSlot_not_embryonic slot hi
    have hx : update (update t.sockets j (t.handedOn i ip)) i
        (t.sockets i).released x = t.sockets x := by
      rw [update_of_ne hxi, update_of_ne hxj]
    refine ⟨⟨⟨x, ?_, ?_, ?_⟩, i, ?_⟩, ?_⟩
    · rw [findSocket_some]
      simp only [hx]
      exact ⟨hfd, hused⟩
    · simp only [hx]
      exact hlisten
    · simp only [hx]
      exact hport
    · simp only [update_self]
      rfl
    · have hsame : waitingEnds port (update t.sockets j (t.handedOn i ip)) =
          waitingEnds port t.sockets :=
        waitingEnds_same (iff_of_false handedOn_not_embryonic (freeSlot_not_embryonic slot))
          fun hj => (freeSlot_not_embryonic slot hj).elim
      have hmoved : update t.sockets j (t.handedOn i ip) i = t.sockets i :=
        update_of_ne hij _ _
      have hgone : ¬ (t.sockets i).released.Embryonic port := fun hnew => Bool.noConfusion hnew.1
      have hless := waitingEnds_remove (hmoved.symm ▸ hi) hgone
      rw [← hsame, hless, Multiset.card_cons]

/-- Enough calls hand every connection out. -/
theorem Open.drains {n : Nat} (hopen : Open port fd s.table)
    (h : Books port s.begun s.handed s.table.sockets)
    (hn : (waitingEnds port s.table.sockets).card = n) :
    (Runs.run (step address port) s (List.replicate n (.accept fd true ip))).handed = s.begun := by
  induction n generalizing s with
  | zero =>
    rw [h.once, Multiset.card_eq_zero.mp hn, Multiset.add_zero]
    rfl
  | succ n ih =>
    have hsome : waitingEnds port s.table.sockets ≠ 0 := by
      intro hzero
      rw [hzero] at hn
      cases hn
    obtain ⟨hopen', hcard⟩ := hopen.accept ip hsome
    have hbegun : (s.step address port (.accept fd true ip)).begun = s.begun :=
      Multiset.add_zero _
    rw [← hbegun]
    refine ih hopen' ?_ ?_
    · rw [hbegun]
      exact books_accept h
    · exact Nat.succ.inj (hcard.trans hn)

end Backlog

/-- **The connections of a port.**  In every run of packets and calls of `tcp_accept`,
every connection that was begun on the port is handed out or waits to be, once and
with all its bytes, exactly if no acknowledgement and no data come for a connection
that waits.  Then, whenever there is a free place, enough calls of `tcp_accept` hand
every connection out that was begun. -/
theorem accept_backlog (address : Slot → BitVec 32) (port : BitVec 16) (t : Table)
    (hnone : ∀ x, ¬ (t.sockets x).Embryonic port) (as : List Arrival) :
    (Runs.Always (Backlog.step address port) (Backlog.Kept port) (Backlog.start t) as ↔
      Runs.Guarded (Backlog.step address port) (Backlog.Patient port) (Backlog.start t) as) ∧
    (Runs.Guarded (Backlog.step address port) (Backlog.Patient port) (Backlog.start t) as →
      Runs.Always (Backlog.step address port) (fun s => ∀ fd ip, Backlog.Open port fd s.table →
        ∃ n, (Runs.run (Backlog.step address port) s
          (List.replicate n (.accept fd true ip))).handed = s.begun) (Backlog.start t) as) := by
  have hstart : (start t).Kept port := by
    rw [kept_iff_books]
    exact ⟨(waitingEnds_zero hnone).symm ▸ rfl, fun x hx => (hnone x hx).elim⟩
  have hiff : Runs.Always (step address port) (Backlog.Kept port) (start t) as ↔
      Runs.Guarded (step address port) (Backlog.Patient port) (start t) as :=
    Runs.always_iff_guarded (I := fun s => Tidy port s.table.sockets) (A := fun _ => True)
      (fun _ _ h _ => tidy_step h) (fun _ _ htidy _ h => kept_step_iff h htidy)
      (fun _ _ => trivial) (fun x hx => (hnone x hx).elim) hstart
  refine ⟨hiff, fun hguard bs hbs fd ip hopen => ?_⟩
  have hbooks := kept_iff_books.mp (hiff.mpr hguard bs hbs)
  exact ⟨_, hopen.drains hbooks rfl⟩

/-- A socket that listens on port 80. -/
def listening : Table :=
  Runs.run (Table.step fun _ => 5000#32) Table.init
    [.socket true 2#32, .bind 0 80#16, .listen 0]

/-- A packet of a client with port 1024. -/
def fromClient (seq ack : BitVec 32) (flags : UInt8) (data : List UInt8) : Arrival :=
  .packet (Segment.encode ⟨1024#16, 80#16, seq, ack, flags, data⟩ 65535#16 0#16) 1#32 2#32
    true true

theorem listening_quiet : ∀ x, ¬ (listening.sockets x).Embryonic 80#16 := by decide +kernel

theorem accept_backlog_syn : ∃ n, (Runs.run (Backlog.step (fun _ => 5000#32) 80#16)
        ((Backlog.start listening).step (fun _ => 5000#32)
          80#16 (fromClient 100#32 0#32 flagSyn []))
        (List.replicate n (.accept 0 true 2#32))).handed = {⟨2#32, 80#16, 1#32, 1024#16⟩} := by
  refine (accept_backlog (fun _ => 5000#32) 80#16 listening listening_quiet
    [fromClient 100#32 0#32 flagSyn []]).2 ⟨?_, trivial⟩ _ List.prefix_rfl 0 2#32
    ⟨⟨0, by decide +kernel⟩, 5, by decide +kernel⟩
  rintro _ _ _ _ _ seg x ⟨⟩ hparse
  cases hparse
  have hnew : tcpFindConnection (start listening).table 2#32 80#16 1#32 1024#16 = none := by
    decide +kernel
  intro hfound
  cases hnew.symm.trans hfound

/-- A handshake that is over before `tcp_accept` is called. -/
def overtaken : Backlog :=
  Runs.run (Backlog.step (fun _ => 5000#32) 80#16) (Backlog.start listening)
    [fromClient 100#32 0#32 flagSyn [], fromClient 101#32 5001#32 flagAck []]

/-- The connection is established, and however often `tcp_accept` is called, it is not
handed out. -/
theorem ack_before_accept : (overtaken.table.sockets 1).state = .established ∧
    overtaken.begun = {(overtaken.table.sockets 1).ends} ∧
    ∀ n, (Runs.run (Backlog.step (fun _ => 5000#32) 80#16) overtaken
      (List.replicate n (.accept 0 true 2#32))).handed = 0 := by
  refine ⟨by decide +kernel, by decide +kernel, fun n => ?_⟩
  induction n with
  | zero => decide +kernel
  | succ n ih => rwa [List.replicate_succ, Runs.run_cons]

end Utms7.Tcp
