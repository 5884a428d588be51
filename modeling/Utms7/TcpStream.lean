import Utms7.TcpSocket

/-!
# The bytes of the peer

What `tcp_recv` has returned and what waits in the buffer is what was accepted, in
this order.  But `rcv_nxt` counts every returned byte twice: the handler adds the
bytes it stores, and `tcp_recv` adds the bytes it takes out.  So `rcv_nxt` is right as
long as nothing is returned, and from then on the handler takes pieces of the peer's
stream that lie further on than they should.
-/

namespace Utms7.Tcp

open List Piece

/-- A line with what came in and what went to the callers so far. -/
structure Stream where
  line : Line
  accepted : List UInt8
  returned : List UInt8

/-- The bytes that a piece of the program puts into the buffer. -/
def Piece.stores (s : Socket) : Piece → List UInt8
  | .segment seg _ _ => s.accepts seg
  | _ => []

def Stream.step (s : Stream) (a : BitVec 32 × Piece) : Stream where
  line := (a.2.apply a.1 s.line).2
  accepted := s.accepted ++ a.2.stores s.line.socket
  returned := s.returned ++ (a.2.apply a.1 s.line).1

/-- A socket from which nothing was read yet. -/
def Stream.start (s : Socket) : Stream where
  line := ⟨s, []⟩
  accepted := []
  returned := []

/-- Segments without a FIN, and `tcp_recv`. -/
def Piece.Receives : Piece → Prop
  | .segment seg _ _ => seg.has flagFin = false
  | .recv _ _ | .recvAgain _ _ _ => True
  | _ => False

/-- A segment carries bytes of the stream at their sequence number. -/
def Piece.Carries (irs : BitVec 32) (stream : List UInt8) : Piece → Prop
  | .segment seg _ _ =>
    ∃ off n, seg.seq = irs + 1#32 + BitVec.ofNat 32 off ∧ seg.data = (stream.drop off).take n
  | _ => True

/-! ## One step -/

/-- The books of a socket that receives. -/
structure Stream.Sound (irs : BitVec 32) (s : Stream) : Prop where
  established : s.line.socket.state = .established
  aligned : s.line.socket.Aligned
  kept : s.returned ++ s.line.socket.bytes = s.accepted
  rcvNxt : s.line.socket.rcvNxt =
    irs + 1#32 + BitVec.ofNat 32 (s.accepted.length + s.returned.length)

section

variable {irs : BitVec 32} {s : Stream} {ticks : BitVec 32} {seg : Segment} {ok₁ ok₂ : Bool}
  {p : Piece} {bytes : List UInt8} {len : Int} {l : Line}

/-- The books of the receive buffer: what was returned and what waits is what was
stored, in this order. -/
structure Stream.Ordered (s : Stream) : Prop where
  aligned : s.line.socket.Aligned
  kept : s.returned ++ s.line.socket.bytes = s.accepted

theorem Stream.Ordered.segment (h : s.Ordered) :
    (s.step (ticks, .segment seg ok₁ ok₂)).Ordered := by
  refine ⟨h.aligned.handle, ?_⟩
  simp only [Stream.step, apply, stores, append_nil]
  rw [h.aligned.bytes_handle, ← append_assoc, h.kept]

theorem Stream.Ordered.taken (h : s.Ordered)
    (htaken : Taken s.line len bytes l) : Stream.Ordered ⟨l, s.accepted, s.returned ++ bytes⟩ := by
  refine ⟨htaken.aligned, ?_⟩
  rw [append_assoc, ← htaken.front, h.kept]

/-- Segments with any flags, and `tcp_recv`. -/
def Piece.Moves : Piece → Prop
  | .segment _ _ _ | .recv _ _ | .recvAgain _ _ _ => True
  | _ => False

/-- The length that a call of `tcp_recv` asks for. -/
def Piece.asks : Piece → Option Int
  | .recv len _ | .recvAgain len _ _ => some len
  | _ => none

/-- A call of `tcp_recv` takes the first bytes out of the buffer, as many as it asks for or
there are. -/
theorem Piece.apply_taken (h : l.socket.Aligned) (hp : p.asks = some len) :
    Taken l len (p.apply ticks l).1 (p.apply ticks l).2 := by
  cases p with
  | recv len' ok =>
    obtain rfl : len' = len := Option.some.inj hp
    exact recv_taken ok ticks len' h
  | recvAgain len' expired ok =>
    obtain rfl : len' = len := Option.some.inj hp
    exact recvWait_taken expired ok ticks len' h
  | _ => cases hp

theorem Taken.eq_take {l' : Line} (h : Taken l len bytes l') :
    bytes = l.socket.bytes.take len.toNat := by
  have hlength := h.length
  rw [Socket.takes, ← Socket.length_bytes] at hlength
  refine (prefix_iff_eq_take.mp ⟨_, h.front.symm⟩).trans (take_eq_take_iff.mpr ?_)
  omega

theorem Stream.Ordered.step (h : s.Ordered) (hp : p.Moves) : (s.step (ticks, p)).Ordered := by
  cases p with
  | segment seg ok₁ ok₂ => exact h.segment
  | recv | recvAgain =>
    simp only [Stream.step, stores, append_nil]
    exact h.taken (apply_taken h.aligned rfl)
  | _ => exact hp.elim

theorem Stream.Sound.ordered (h : s.Sound irs) : s.Ordered := ⟨h.aligned, h.kept⟩

theorem Stream.Sound.segment (h : s.Sound irs) (hfin : seg.has flagFin = false) :
    (s.step (ticks, .segment seg ok₁ ok₂)).Sound irs := by
  obtain ⟨late, hstate⟩ := handle_state ok₁ ok₂ ticks seg s.line
  have hnxt := handle_rcvNxt ok₁ ok₂ ticks seg s.line
  obtain ⟨haligned, hkept⟩ : (s.step (ticks, .segment seg ok₁ ok₂)).Ordered := h.ordered.segment
  rw [h.established, hfin] at hstate
  rw [h.established, State.renumbers, hfin, h.rcvNxt] at hnxt
  refine ⟨hstate, haligned, hkept, ?_⟩
  simp only [Stream.step, apply]
  refine hnxt.trans ?_
  simp only [Bool.false_eq_true, length_append, BitVec.ofNat_add]
  ac_rfl

/-- `tcp_recv` moves bytes from the buffer to the caller, and `rcv_nxt` with them. -/
theorem Stream.Sound.taken (h : s.Sound irs) (htaken : Taken s.line len bytes l) :
    Stream.Sound irs ⟨l, s.accepted, s.returned ++ bytes⟩ := by
  obtain ⟨haligned, hkept⟩ := h.ordered.taken htaken
  refine ⟨htaken.state.trans h.established, haligned, hkept, ?_⟩
  refine htaken.rcvNxt.trans ?_
  simp only [h.rcvNxt, length_append, BitVec.ofNat_add]
  ac_rfl

theorem Stream.Sound.step (h : s.Sound irs) (hp : p.Receives) : (s.step (ticks, p)).Sound irs := by
  cases p with
  | segment seg ok₁ ok₂ => exact h.segment hp
  | recv | recvAgain =>
    simp only [Stream.step, stores, append_nil]
    exact h.taken (apply_taken h.aligned rfl)
  | _ => exact hp.elim

/-! ## The two conditions -/

/-- A call of `tcp_recv` finds nothing to take. -/
def Stream.Idle (s : Stream) (a : BitVec 32 × Piece) : Prop :=
  match a.2 with
  | .recv len _ | .recvAgain len _ _ => s.line.socket.rcvBufCount = 0 ∨ len ≤ 0
  | _ => True

/-- A segment that is accepted carries what comes next in the stream, as far as there
is space for it. -/
def Stream.Continues (stream : List UInt8) (s : Stream) (a : BitVec 32 × Piece) : Prop :=
  match a.2 with
  | .segment seg _ _ => seg.seq = s.line.socket.rcvNxt →
      seg.data.take (65536 - s.line.socket.rcvBufCount) <+: stream.drop s.accepted.length
  | _ => True

/-- `rcv_nxt` counts the accepted bytes. -/
def Stream.Numbered (irs : BitVec 32) (s : Stream) : Prop :=
  s.line.socket.rcvNxt = irs + 1#32 + BitVec.ofNat 32 s.accepted.length

theorem Stream.Sound.numbered_iff (h : s.Sound irs) :
    s.Numbered irs ↔ s.returned.length % 2 ^ 32 = 0 := by
  rw [Stream.Numbered, h.rcvNxt, BitVec.ofNat_add, ← BitVec.add_assoc, BitVec.add_right_eq_self,
    ← BitVec.toNat_inj, BitVec.toNat_ofNat, BitVec.toNat_ofNat]

theorem Stream.returned_step {ticks : BitVec 32} (h : s.Sound irs) (hp : p.Receives) :
    ∃ n ≤ 65536, (s.step (ticks, p)).returned.length = s.returned.length + n ∧
      (n = 0 ↔ s.Idle (ticks, p)) := by
  cases p with
  | segment seg ok₁ ok₂ => exact ⟨0, by omega, by simp [Stream.step, apply], by simp [Idle]⟩
  | recv len | recvAgain len =>
    have hle := h.aligned.count_le
    refine ⟨s.line.socket.takes len, ?_, ?_, ?_⟩
    · simp only [Socket.takes]
      omega
    · rw [Stream.step, length_append, (apply_taken h.aligned (rfl : asks _ = some len)).length]
    · simp only [Socket.takes, Idle]
      omega
  | _ => exact hp.elim

theorem Stream.numbered_step (h : s.Sound irs) (hp : p.Receives) (hs : s.Numbered irs) :
    (s.step (ticks, p)).Numbered irs ↔ s.Idle (ticks, p) := by
  obtain ⟨n, hn, hlen, hidle⟩ := Stream.returned_step h hp
  have hmod := h.numbered_iff.mp hs
  rw [(h.step hp).numbered_iff, ← hidle]
  omega

theorem Stream.nothing_step (h : s.Sound irs) (hp : p.Receives) (hs : s.returned = []) :
    (s.step (ticks, p)).returned = [] ↔ s.Idle (ticks, p) := by
  obtain ⟨n, -, hlen, hidle⟩ := Stream.returned_step h hp
  rw [← length_eq_zero_iff, hlen, hs, ← hidle, length_nil, Nat.zero_add]

theorem Stream.continues_step {stream : List UInt8} (hp : p.Receives) (hs : s.accepted <+: stream) :
    (s.step (ticks, p)).accepted <+: stream ↔ s.Continues stream (ticks, p) := by
  obtain ⟨rest, rfl⟩ := hs
  have hdrop : (s.accepted ++ rest).drop s.accepted.length = rest := drop_left
  cases p with
  | segment seg ok₁ ok₂ =>
    simp only [Stream.step, stores, Socket.accepts, Stream.Continues]
    split
    · rename_i hseq
      simp [hseq]
    · rename_i hseq
      simp [hseq]
  | recv | recvAgain => simp [Stream.step, stores, Stream.Continues]
  | _ => exact hp.elim

end

/-! ## Whole runs -/

/-- A socket that is ready to receive: established, with an empty buffer, behind the
initial sequence number of the peer. -/
structure Socket.Ready (s : Socket) (irs : BitVec 32) : Prop where
  established : s.state = .established
  aligned : s.Aligned
  empty : s.rcvBufCount = 0
  rcvNxt : s.rcvNxt = irs + 1#32

theorem Socket.Ready.sound {s : Socket} {irs : BitVec 32} (h : s.Ready irs) :
    (Stream.start s).Sound irs where
  established := h.established
  aligned := h.aligned
  kept := by simp [Stream.start, Socket.bytes, h.empty]
  rcvNxt := by simp [Stream.start, h.rcvNxt]

/-- **The stream of the peer.**  In every run of segments and calls of `tcp_recv`:
the returned bytes are the start of the stream and `rcv_nxt` is right throughout
exactly if no call finds anything to return; the bytes that were returned or wait are
the start of the stream throughout exactly if every segment that is accepted carries
what comes next in the stream, and then the bytes that were returned are. -/
theorem stream_returned {s : Socket} {irs : BitVec 32} (hready : s.Ready irs)
    (stream : List UInt8) (as : List (BitVec 32 × Piece)) (has : ∀ a ∈ as, a.2.Receives) :
    (Runs.Always Stream.step (fun s => s.returned <+: stream ∧ s.Numbered irs) (Stream.start s) as ↔
      Runs.Guarded Stream.step Stream.Idle (Stream.start s) as) ∧
    (Runs.Always Stream.step (fun s => s.returned ++ s.line.socket.bytes <+: stream)
        (Stream.start s) as ↔
      Runs.Guarded Stream.step (Stream.Continues stream) (Stream.start s) as) ∧
    (Runs.Guarded Stream.step (Stream.Continues stream) (Stream.start s) as →
      Runs.Always Stream.step (fun s => s.returned <+: stream) (Stream.start s) as) := by
  have hstep : ∀ (s : Stream) (a : BitVec 32 × Piece), s.Sound irs → a.2.Receives →
      (s.step a).Sound irs := fun s a h ha => h.step ha
  have hstart : Runs.Always Stream.step (fun s => s.returned ++ s.line.socket.bytes <+: stream)
        (Stream.start s) as ↔
      Runs.Guarded Stream.step (Stream.Continues stream) (Stream.start s) as := by
    refine Runs.always_iff_guarded hstep (fun s a h ha hs => ?_) has hready.sound ?_
    · rw [(hstep s a h ha).kept]
      exact Stream.continues_step ha (h.kept ▸ hs)
    · simp [Stream.start, Socket.bytes, hready.empty]
  have hnumbered : Runs.Always Stream.step (Stream.Numbered irs) (Stream.start s) as ↔
      Runs.Guarded Stream.step Stream.Idle (Stream.start s) as := by
    refine Runs.always_iff_guarded hstep (fun s a h ha hs => Stream.numbered_step h ha hs) has
      hready.sound ?_
    simp [Stream.Numbered, Stream.start, hready.rcvNxt]
  have hnothing : Runs.Always Stream.step (fun s => s.returned = []) (Stream.start s) as ↔
      Runs.Guarded Stream.step Stream.Idle (Stream.start s) as :=
    Runs.always_iff_guarded hstep (fun s a h ha hs => Stream.nothing_step h ha hs) has
      hready.sound rfl
  refine ⟨⟨fun h => hnumbered.mp fun bs hbs => (h bs hbs).2, fun h bs hbs => ⟨?_, ?_⟩⟩, hstart,
    fun h bs hbs => ?_⟩
  · rw [hnothing.mpr h bs hbs]
    exact nil_prefix
  · exact hnumbered.mpr h bs hbs
  · exact (prefix_append _ _).trans (hstart.mpr h bs hbs)

/-- A segment of the peer of the socket below. -/
def incoming (seq ack : BitVec 32) (flags : UInt8) (data : List UInt8) : Piece :=
  .segment ⟨80#16, 1024#16, seq, ack, flags, data⟩ true true

/-- A connection whose peer starts at 100. -/
def connected : Socket :=
  (Runs.run Stream.step (Stream.start (Socket.fresh 2#32 1024#16))
    [(0#32, .connect 5000#32 1#32 80#16 true),
     (0#32, incoming 100#32 5001#32 (flagSyn ||| flagAck) [])]).line.socket

theorem connected_ready : connected.Ready 100#32 :=
  ⟨by decide +kernel, ⟨by decide +kernel, by decide +kernel, by decide +kernel, by decide +kernel⟩,
    by decide +kernel, by decide +kernel⟩

theorem stream_returned_byte : (Runs.run Stream.step (Stream.start connected)
      [(0#32, incoming 101#32 5001#32 flagAck [1, 2]), (0#32, .recv 1 true)]).returned <+: [1, 2] :=
  (stream_returned connected_ready [1, 2]
    [(0#32, incoming 101#32 5001#32 flagAck [1, 2]), (0#32, .recv 1 true)]
    (forall_mem_cons.mpr ⟨rfl, forall_mem_singleton.mpr trivial⟩)).2.2
    ⟨fun _ => by decide +kernel, trivial, trivial⟩ _ prefix_rfl

/-- **The receive buffer is a queue**: after every run of segments and calls of `tcp_recv` the
bytes that were returned and the bytes that wait are those that were stored, in order; and
the next call returns the first of those that wait, as many as it asks for or there are. -/
theorem recv_ring_fifo {s : Socket} (h : s.Aligned) (as : List (BitVec 32 × Piece))
    (has : ∀ a ∈ as, a.2.Moves) :
    let r := Runs.run Stream.step ⟨⟨s, []⟩, s.bytes, []⟩ as
    (r.returned ++ r.line.socket.bytes = r.accepted ∧ r.line.socket.bytes.length ≤ 65536) ∧
      ∀ ticks p len, p.asks = some len →
        (r.step (ticks, p)).returned = r.returned ++ r.line.socket.bytes.take len.toNat := by
  have hstart : Stream.Ordered ⟨⟨s, []⟩, s.bytes, []⟩ := ⟨h, nil_append _⟩
  obtain ⟨haligned, hkept⟩ := (Runs.guarded_of_forall has _).invariant (I := Stream.Ordered)
    (fun _ _ hs ha => hs.step ha) hstart
  refine ⟨⟨hkept, Socket.length_bytes.trans_le haligned.count_le⟩, fun ticks p len hp => ?_⟩
  rw [Stream.step, (apply_taken haligned hp).eq_take]

/-- Two bytes arrive, one is read, and then the other one. -/
theorem recv_ring_fifo_byte :
    let r := Runs.run Stream.step ⟨⟨connected, []⟩, connected.bytes, []⟩
      [(0#32, incoming 101#32 5001#32 flagAck [1, 2]), (0#32, .recv 1 true)]
    r.line.socket.bytes = [2] ∧ (r.step (0#32, .recv 7 true)).returned = r.returned ++ [2] :=
  have h := recv_ring_fifo connected_ready.aligned
    [(0#32, incoming 101#32 5001#32 flagAck [1, 2]), (0#32, .recv 1 true)]
    (forall_mem_cons.mpr ⟨trivial, forall_mem_singleton.mpr trivial⟩)
  ⟨by decide +kernel, (h.2 0#32 (.recv 7 true) 7 rfl).trans (by decide +kernel)⟩

/-- The first byte of three, and after it was read the third. -/
def skipping : List (BitVec 32 × Piece) :=
  [(0#32, incoming 101#32 5001#32 flagAck [1]), (0#32, .recv 1 true),
   (0#32, incoming 103#32 5001#32 flagAck [3]), (0#32, .recv 1 true)]

/-- The third byte is taken for the second, which is still to come. -/
theorem byte_skipped : connected.Ready 100#32 ∧ (∀ a ∈ skipping, a.2.Receives) ∧
    (∀ a ∈ skipping, a.2.Carries 100#32 [1, 2, 3]) ∧
    ¬ (Runs.run Stream.step (Stream.start connected) skipping).returned <+: [1, 2, 3] ∧
    ¬ (Runs.run Stream.step (Stream.start connected) skipping).Numbered 100#32 := by
  refine ⟨connected_ready, ?_, ?_, by decide +kernel, ?_⟩
  · simp only [skipping, forall_mem_cons, not_mem_nil, IsEmpty.forall_iff, implies_true, and_true]
    exact ⟨rfl, trivial, rfl, trivial⟩
  · simp only [skipping, forall_mem_cons, not_mem_nil, IsEmpty.forall_iff, implies_true, and_true]
    exact ⟨⟨0, 1, by decide +kernel⟩, trivial, ⟨2, 1, by decide +kernel⟩, trivial⟩
  · rw [Stream.Numbered]
    decide +kernel

end Utms7.Tcp
