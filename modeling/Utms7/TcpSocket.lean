import Utms7.Tcp

/-!
# One TCP socket

What the pieces of the handler and of the calls do to the fields of a socket.  A
segment leaves `snd_nxt` alone, moves `rcv_nxt` by the bytes it adds to the buffer,
and sends the state to `State.next`; the buffer holds what was stored and has not been
taken out.  Acknowledgements are compared as numbers, not in the circle of the numbers.
-/

namespace Utms7.Tcp

open List Line Ring

/-! ## Sending -/

section

variable {β : Type*} {ok ok₁ ok₂ : Bool} {ticks : BitVec 32} {flags : UInt8} {data : List UInt8}
  {seg : Segment} {l : Line} {s : Socket} {len : Int}

theorem sendPacket_false : tcpSendPacket false ticks flags data l = l := rfl

theorem sendPacket_true : tcpSendPacket true ticks flags data l =
    { socket := l.socket.afterSend ticks flags data
      sent := l.sent ++ [l.socket.packet flags data] } := rfl

/-- Sending changes only `snd_nxt` and the fields of the timer. -/
theorem sendPacket_keeps (g : Socket → β)
    (hg : ∀ s n t r, g { s with sndNxt := n, timestamp := t, retries := r } = g s) :
    g (tcpSendPacket ok ticks flags data l).socket = g l.socket := by
  cases ok with
  | false => rfl
  | true => exact hg l.socket _ _ _

@[simp] theorem sendPacket_state : (tcpSendPacket ok ticks flags data l).socket.state =
    l.socket.state := sendPacket_keeps Socket.state fun _ _ _ _ => rfl

@[simp] theorem sendPacket_rcvNxt : (tcpSendPacket ok ticks flags data l).socket.rcvNxt =
    l.socket.rcvNxt := sendPacket_keeps Socket.rcvNxt fun _ _ _ _ => rfl

@[simp] theorem sendPacket_sndUna : (tcpSendPacket ok ticks flags data l).socket.sndUna =
    l.socket.sndUna := sendPacket_keeps Socket.sndUna fun _ _ _ _ => rfl

/-- An empty ACK takes no sequence number. -/
@[simp] theorem sendAck_sndNxt : (tcpSendPacket ok ticks flagAck [] l).socket.sndNxt =
    l.socket.sndNxt := by
  cases ok with
  | false => rfl
  | true =>
    have hsyn : hasFlag flagAck flagSyn = false := rfl
    have hfin : hasFlag flagAck flagFin = false := rfl
    simp [sendPacket_true, Socket.afterSend, hsyn, hfin]

theorem sendSyn_sndNxt : (tcpSendPacket true ticks flagSyn [] l).socket.sndNxt =
    l.socket.sndNxt + 1#32 := by
  have hsyn : hasFlag flagSyn flagSyn = true := rfl
  have hfin : hasFlag flagSyn flagFin = false := rfl
  simp [sendPacket_true, Socket.afterSend, hsyn, hfin]

/-! ## The receive buffer -/

/-- The bytes that wait in the buffer. -/
def Socket.bytes (s : Socket) : List UInt8 :=
  Ring.contents s.rcvBuf s.rcvBufHead s.rcvBufCount

/-- The tail is behind the last byte. -/
structure Socket.Aligned (s : Socket) : Prop where
  tail : s.rcvBufTail % 65536 = (s.rcvBufHead + s.rcvBufCount) % 65536
  tail_le : s.rcvBufTail ≤ 65536
  head_le : s.rcvBufHead ≤ 65536
  count_le : s.rcvBufCount ≤ 65536

/-- Both ways of copying write the bytes in a circle. -/
theorem Socket.store_rcvBuf (h : s.rcvBufTail ≤ 65536) (bytes : List UInt8) :
    (s.store bytes).rcvBuf = write s.rcvBuf s.rcvBufTail bytes := by
  unfold Socket.store
  split
  · rfl
  rename_i hlong
  have hfirst : (bytes.take (65536 - s.rcvBufTail)).length = 65536 - s.rcvBufTail := by
    rw [length_take]
    omega
  have hend : 0 % 65536 = (s.rcvBufTail + (bytes.take (65536 - s.rcvBufTail)).length) % 65536 := by
    omega
  simp only
  rw [write_congr _ hend, ← write_append, take_append_drop]

theorem Socket.store_rcvBufTail (h : s.rcvBufTail ≤ 65536) {bytes : List UInt8}
    (hlen : bytes.length ≤ 65536) : (s.store bytes).rcvBufTail ≤ 65536 ∧
      (s.store bytes).rcvBufTail % 65536 = (s.rcvBufTail + bytes.length) % 65536 := by
  unfold Socket.store
  split
  · exact ⟨by assumption, rfl⟩
  · simp only
    omega

theorem Socket.store_rcvBufCount (bytes : List UInt8) :
    (s.store bytes).rcvBufCount = s.rcvBufCount + bytes.length := by
  unfold Socket.store
  split <;> rfl

theorem Socket.store_rcvNxt {bytes : List UInt8} :
    (s.store bytes).rcvNxt = s.rcvNxt + BitVec.ofNat 32 bytes.length := by
  unfold Socket.store
  split <;> rfl

/-- Storing changes nothing but the buffer and `rcv_nxt`. -/
theorem Socket.store_keeps {g : Socket → β} (hg : ∀ s b t c n,
      g { s with rcvBuf := b, rcvBufTail := t, rcvBufCount := c, rcvNxt := n } = g s)
    {bytes : List UInt8} : g (s.store bytes) = g s := by
  unfold Socket.store
  split
  · exact hg s _ _ _ _
  · exact hg s _ _ _ _

/-- A store that fits leaves the indices in range. -/
theorem Socket.Aligned.store (h : s.Aligned) {bytes : List UInt8}
    (hfit : s.rcvBufCount + bytes.length ≤ 65536) : (s.store bytes).Aligned := by
  obtain ⟨hle, htail⟩ := Socket.store_rcvBufTail h.tail_le (show bytes.length ≤ 65536 by omega)
  have hhead : (s.store bytes).rcvBufHead = s.rcvBufHead :=
    Socket.store_keeps (fun _ _ _ _ _ => rfl)
  have hcount := Socket.store_rcvBufCount (s := s) bytes
  have hold := h.tail
  refine ⟨?_, hle, hhead ▸ h.head_le, by omega⟩
  omega

/-- **Storing** appends. -/
theorem Socket.Aligned.bytes_store (h : s.Aligned) {bytes : List UInt8}
    (hfit : s.rcvBufCount + bytes.length ≤ 65536) : (s.store bytes).bytes = s.bytes ++ bytes := by
  have hhead : (s.store bytes).rcvBufHead = s.rcvBufHead :=
    Socket.store_keeps (fun _ _ _ _ _ => rfl)
  rw [Socket.bytes, hhead, Socket.store_rcvBufCount, Socket.store_rcvBuf h.tail_le,
    write_congr _ h.tail, contents_write bytes hfit, Socket.bytes]

section

variable (h : s.rcvBufHead ≤ 65536) (n : Nat)
include h n

/-- What a round of `tcp_recv` copies was at the front. -/
theorem Socket.recvRound_fst :
    (s.recvRound n).1 = contents s.rcvBuf s.rcvBufHead (min s.rcvBufCount n) := by
  unfold Socket.recvRound
  simp only
  split
  · rfl
  rename_i hlong
  have hsplit : min s.rcvBufCount n =
      (65536 - s.rcvBufHead) + (min s.rcvBufCount n - (65536 - s.rcvBufHead)) := by omega
  have hend : s.rcvBufHead + (65536 - s.rcvBufHead) = 65536 := by omega
  have hround : ∀ k, contents s.rcvBuf 65536 k = contents s.rcvBuf 0 k := by
    intro k
    rw [← contents_mod]
  conv_rhs => rw [hsplit, contents_add, hend, hround]

theorem Socket.length_recvRound : (s.recvRound n).1.length = min s.rcvBufCount n := by
  rw [Socket.recvRound_fst h, length_contents]

theorem Socket.bytes_recvRound : s.bytes = (s.recvRound n).1 ++ (s.recvRound n).2.bytes := by
  have hsplit : s.rcvBufCount = min s.rcvBufCount n + (s.rcvBufCount - min s.rcvBufCount n) := by
    omega
  rw [Socket.recvRound_fst h]
  simp only [Socket.bytes, Socket.recvRound]
  rw [contents_mod, ← contents_add, ← hsplit]

end

theorem Socket.Aligned.recvRound (h : s.Aligned) (n : Nat) : (s.recvRound n).2.Aligned := by
  obtain ⟨htail, htaille, _, hcount⟩ := h
  refine ⟨?_, htaille, ?_, ?_⟩ <;> simp only [Socket.recvRound] <;> omega

/-- The loop of `tcp_recv` copies in one round all that it will copy. -/
theorem Socket.recvLoop_eq (h : s.rcvBufHead ≤ 65536) {fuel : Nat} (hfuel : 0 < fuel) {n : Nat} :
    s.recvLoop fuel n = if 0 < s.rcvBufCount ∧ 0 < n then s.recvRound n else ([], s) := by
  have hdone : ∀ fuel' : Nat,
      Socket.recvLoop fuel' (s.recvRound n).2 (n - (s.recvRound n).1.length) =
        ([], (s.recvRound n).2) := by
    intro fuel'
    cases fuel' with
    | zero => rfl
    | succ fuel' =>
      have hover : ¬(0 < (s.recvRound n).2.rcvBufCount ∧ 0 < n - (s.recvRound n).1.length) := by
        rw [Socket.length_recvRound h]
        simp only [Socket.recvRound]
        omega
      rw [Socket.recvLoop, if_neg hover]
  obtain ⟨fuel, rfl⟩ : ∃ k, fuel = k + 1 := ⟨fuel - 1, by omega⟩
  refine if_congr Iff.rfl ?_ rfl
  simp only [hdone, append_nil]

/-! ## Segments -/

theorem Socket.takeAck_keeps (g : Socket → β)
    (hg : ∀ s n, g { s with sndUna := n } = g s) : g (s.takeAck seg) = g s := by
  unfold Socket.takeAck
  split
  · exact hg s _
  · rfl

theorem Socket.accepts_takeAck (seg' : Segment) : (s.takeAck seg').accepts seg = s.accepts seg :=
  Socket.takeAck_keeps (fun s => s.accepts seg) fun _ _ => rfl

/-- What is accepted has room in the buffer. -/
theorem Socket.accepts_fits (h : s.rcvBufCount ≤ 65536) :
    s.rcvBufCount + (s.accepts seg).length ≤ 65536 := by
  unfold Socket.accepts
  split
  · rw [length_take]
    omega
  · simpa using h

theorem Socket.accepts_nil (h : seg.data = []) : s.accepts seg = [] := by
  simp [Socket.accepts, h]

/-- The socket once the data are in the buffer, but for the answer to them. -/
theorem takeData_keeps (g : Socket → β)
    (hg : ∀ s n t r, g { s with sndNxt := n, timestamp := t, retries := r } = g s) :
    g (l.takeData ok ticks seg).socket =
      if 0 < (l.socket.accepts seg).length then g (l.socket.store (l.socket.accepts seg))
      else g l.socket := by
  unfold takeData
  split
  · rw [sendPacket_keeps g hg]
    split <;> rfl
  rename_i hnone
  have hnil : l.socket.accepts seg = [] := by
    by_cases hseq : seg.seq = l.socket.rcvNxt
    · refine Socket.accepts_nil (eq_nil_of_length_eq_zero ?_)
      have := mt (And.intro · hseq) hnone
      omega
    · exact if_neg hseq
  rw [hnil, length_nil, if_neg (Nat.lt_irrefl 0)]

theorem takeData_rcvNxt : (l.takeData ok ticks seg).socket.rcvNxt =
    l.socket.rcvNxt + BitVec.ofNat 32 (l.socket.accepts seg).length := by
  rw [takeData_keeps Socket.rcvNxt fun _ _ _ _ => rfl]
  split
  · exact Socket.store_rcvNxt
  · rename_i hnone
    have hzero : (l.socket.accepts seg).length = 0 := by omega
    simp [hzero]

theorem takeData_state : (l.takeData ok ticks seg).socket.state = l.socket.state := by
  rw [takeData_keeps Socket.state fun _ _ _ _ => rfl]
  split
  · exact Socket.store_keeps (fun _ _ _ _ _ => rfl)
  · rfl

theorem takeData_sndNxt : (l.takeData ok ticks seg).socket.sndNxt = l.socket.sndNxt := by
  unfold takeData
  split
  · rw [sendAck_sndNxt]
    split
    · exact Socket.store_keeps (fun _ _ _ _ _ => rfl)
    · rfl
  · rfl

theorem Socket.Aligned.takeData (h : l.socket.Aligned) :
    (l.takeData ok ticks seg).socket.Aligned := by
  rw [takeData_keeps Socket.Aligned fun _ _ _ _ =>
    propext ⟨fun h => ⟨h.1, h.2, h.3, h.4⟩, fun h => ⟨h.1, h.2, h.3, h.4⟩⟩]
  split
  · exact h.store (Socket.accepts_fits h.count_le)
  · exact h

theorem Socket.Aligned.bytes_takeData (h : l.socket.Aligned) :
    (l.takeData ok ticks seg).socket.bytes = l.socket.bytes ++ l.socket.accepts seg := by
  rw [takeData_keeps Socket.bytes fun _ _ _ _ => rfl]
  split
  · exact h.bytes_store (Socket.accepts_fits h.count_le)
  · rename_i hnone
    have hnil : l.socket.accepts seg = [] := eq_nil_of_length_eq_zero (by omega)
    rw [hnil, append_nil]

/-- The state behind a segment: its flags, whether it acknowledges all that was sent,
and whether TIME_WAIT is over. -/
def State.next (syn ack fin acksAll late : Bool) : State → State
  | .synSent => if syn ∧ ack then .established else .synSent
  | .synRcvd => if ack then .established else .synRcvd
  | .established => if fin then .closeWait else .established
  | .finWait1 => if fin then .closing else if ack ∧ acksAll then .finWait2 else .finWait1
  | .finWait2 => if fin then .timeWait else .finWait2
  | .closeWait => if fin then .lastAck else .closeWait
  | .lastAck => if ack ∧ acksAll then .closed else .lastAck
  | .timeWait => if late then .closed else .timeWait
  | .closed => .closed
  | .listen => .listen
  | .closing => .closing

/-- The states in which a segment sets `rcv_nxt` behind its own number. -/
def State.renumbers (syn ack fin : Bool) : State → Bool
  | .synSent => syn && ack
  | .established | .finWait1 | .finWait2 | .closeWait => fin
  | _ => false

theorem takeFin_state {next : State} : (l.takeFin ok ticks seg next).socket.state =
    if seg.has flagFin then next else l.socket.state := by
  unfold takeFin
  split
  · exact sendPacket_state
  · rfl

theorem takeFin_rcvNxt {next : State} : (l.takeFin ok ticks seg next).socket.rcvNxt =
    if seg.has flagFin then seg.seq + 1#32 else l.socket.rcvNxt := by
  unfold takeFin
  split
  · exact sendPacket_rcvNxt
  · rfl

/-- The state machine is a function of the flags and the numbers. -/
theorem transition_state : (l.transition ok ticks seg).socket.state =
    l.socket.state.next (seg.has flagSyn) (seg.has flagAck) (seg.has flagFin)
      (seg.ack = l.socket.sndNxt) (2000#32 < ticks - l.socket.timestamp) := by
  unfold transition
  split <;> rename_i hstate <;> simp only [hstate, State.next, takeFin_state, decide_eq_true_eq]
  case h_4 =>
    refine if_congr Iff.rfl rfl ?_
    split
    · rfl
    · exact hstate
  all_goals (split <;> simp_all)

theorem transition_rcvNxt : (l.transition ok ticks seg).socket.rcvNxt =
    if l.socket.state.renumbers (seg.has flagSyn) (seg.has flagAck) (seg.has flagFin) then
      seg.seq + 1#32 else l.socket.rcvNxt := by
  unfold transition
  split <;> rename_i hstate <;> simp only [hstate, State.renumbers, takeFin_rcvNxt]
  case h_4 =>
    refine if_congr Iff.rfl rfl ?_
    split <;> rfl
  all_goals (split <;> simp_all)

/-- The `switch` leaves the addresses and the buffer alone. -/
theorem transition_keeps {g : Socket → β} (hg : ∀ (s : Socket) n t r u q c, g { s with
          sndNxt := n
          timestamp := t
          retries := r
          sndUna := u
          rcvNxt := q
          state := c } = g s) :
    g (l.transition ok ticks seg).socket = g l.socket := by
  have hsend : ∀ s n t r, g { s with sndNxt := n, timestamp := t, retries := r } = g s :=
    fun s n t r => hg s n t r _ _ _
  have hfin : ∀ (l : Line) (next : State), g (l.takeFin ok ticks seg next).socket = g l.socket := by
    intro l next
    unfold takeFin
    split
    · rw [sendPacket_keeps g hsend]
      exact hg _ _ _ _ _ _ _
    · rfl
  unfold transition
  split
  case h_1 =>
    split
    · rw [sendPacket_keeps g hsend]
      exact hg _ _ _ _ _ _ _
    · rfl
  case h_4 =>
    rw [hfin]
    split
    · exact hg _ _ _ _ _ _ _
    · rfl
  all_goals first
    | exact hfin _ _
    | rfl
    | (split
       · exact hg _ _ _ _ _ _ _
       · rfl)

theorem handle_keeps (g : Socket → β) (hstore : ∀ (s : Socket) b t c n,
      g { s with rcvBuf := b, rcvBufTail := t, rcvBufCount := c, rcvNxt := n } = g s)
    (hg : ∀ (s : Socket) n t r u q c, g { s with
          sndNxt := n
          timestamp := t
          retries := r
          sndUna := u
          rcvNxt := q
          state := c } = g s) :
    g (l.handle ok₁ ok₂ ticks seg).socket = g l.socket := by
  refine (transition_keeps hg).trans ?_
  rw [takeData_keeps g fun s n t r => hg s n t r _ _ _]
  split
  · rw [Socket.store_keeps hstore]
    exact Socket.takeAck_keeps g fun s u => hg s _ _ _ u _ _
  · exact Socket.takeAck_keeps g fun s u => hg s _ _ _ u _ _

section

variable (ok₁ ok₂ : Bool) (ticks : BitVec 32) (seg : Segment) (l : Line)

/-- A segment moves the state by one step of the machine. -/
theorem handle_state : ∃ late, (l.handle ok₁ ok₂ ticks seg).socket.state =
    l.socket.state.next (seg.has flagSyn) (seg.has flagAck) (seg.has flagFin)
      (seg.ack = l.socket.sndNxt) late := by
  refine ⟨?_, transition_state.trans ?_⟩
  rotate_left
  rw [takeData_state, takeData_sndNxt, Socket.takeAck_keeps Socket.state fun _ _ => rfl,
    Socket.takeAck_keeps Socket.sndNxt fun _ _ => rfl]

/-- `rcv_nxt` moves by what was stored, or is set anew. -/
theorem handle_rcvNxt :
    (l.handle ok₁ ok₂ ticks seg).socket.rcvNxt =
    if l.socket.state.renumbers (seg.has flagSyn) (seg.has flagAck) (seg.has flagFin) then
      seg.seq + 1#32 else l.socket.rcvNxt + BitVec.ofNat 32 (l.socket.accepts seg).length := by
  refine transition_rcvNxt.trans ?_
  rw [takeData_state, takeData_rcvNxt, Socket.accepts_takeAck,
    Socket.takeAck_keeps Socket.state fun _ _ => rfl,
    Socket.takeAck_keeps Socket.rcvNxt fun _ _ => rfl]

end

theorem Socket.Aligned.of_eq {s' : Socket} (h : s.Aligned) (hhead : s'.rcvBufHead = s.rcvBufHead)
    (htail : s'.rcvBufTail = s.rcvBufTail) (hcount : s'.rcvBufCount = s.rcvBufCount) : s'.Aligned :=
  ⟨by rw [hhead, htail, hcount]; exact h.tail, htail ▸ h.tail_le, hhead ▸ h.head_le,
    hcount ▸ h.count_le⟩

theorem Socket.Aligned.takeAck (h : s.Aligned) : (s.takeAck seg).Aligned :=
  h.of_eq (Socket.takeAck_keeps _ fun _ _ => rfl) (Socket.takeAck_keeps _ fun _ _ => rfl)
    (Socket.takeAck_keeps _ fun _ _ => rfl)

theorem Socket.Aligned.handle (h : l.socket.Aligned) :
    (l.handle ok₁ ok₂ ticks seg).socket.Aligned := by
  have hdata : (Line.takeData ok₁ ticks seg
      { l with socket := l.socket.takeAck seg }).socket.Aligned :=
    Socket.Aligned.takeData h.takeAck
  refine hdata.of_eq ?_ ?_ ?_
  · exact transition_keeps fun _ _ _ _ _ _ _ => rfl
  · exact transition_keeps fun _ _ _ _ _ _ _ => rfl
  · exact transition_keeps fun _ _ _ _ _ _ _ => rfl

/-- **A segment** appends the bytes it is accepted for. -/
theorem Socket.Aligned.bytes_handle (h : l.socket.Aligned) :
    (l.handle ok₁ ok₂ ticks seg).socket.bytes = l.socket.bytes ++ l.socket.accepts seg := by
  refine (transition_keeps fun _ _ _ _ _ _ _ => rfl).trans ?_
  rw [Socket.Aligned.bytes_takeData h.takeAck, Socket.accepts_takeAck,
    Socket.takeAck_keeps Socket.bytes fun _ _ => rfl]

/-! ## The state behind the calls and the timer -/

theorem connect_state {address ip : BitVec 32} {port : BitVec 16} :
    (tcpConnect ok ticks address ip port l).socket.state =
      if l.socket.state = .closed then .synSent else l.socket.state := by
  unfold tcpConnect
  by_cases h : l.socket.state = .closed
  · rw [if_pos h, if_pos h, sendPacket_state]
  · rw [if_neg h, if_neg h]

theorem close_state : (tcpClose ok ticks l).socket.state =
    if l.socket.state = .established then .finWait1 else l.socket.state := by
  unfold tcpClose
  by_cases h : l.socket.state = .established
  · rw [if_pos h, if_pos h, sendPacket_state]
  · rw [if_neg h, if_neg h]
    rfl

/-- The timer closes a connection or leaves its state. -/
theorem onTimer_state : (l.onTimer ok ticks).socket.state = l.socket.state ∨
    (l.onTimer ok ticks).socket.state = .closed := by
  unfold onTimer
  split
  · split
    · exact .inl sendPacket_state
    · exact .inr rfl
  · exact .inl rfl

theorem onTimer_keeps (g : Socket → β)
    (hg : ∀ s n t r c, g { s with sndNxt := n, timestamp := t, retries := r, state := c } = g s) :
    g (l.onTimer ok ticks).socket = g l.socket := by
  unfold onTimer
  split
  · split
    · rw [sendPacket_keeps g fun s n t r => hg s n t r _]
      exact hg _ _ _ _ _
    · exact hg _ _ _ _ _
  · rfl

/-! ## Taking bytes out -/

/-- How many bytes the call copies out. -/
def Socket.takes (s : Socket) (len : Int) : Nat := min s.rcvBufCount len.toNat

theorem Socket.length_bytes : s.bytes.length = s.rcvBufCount := length_contents

theorem Socket.recvLoop_keeps {g : Socket → β}
    (hg : ∀ s h c n, g { s with rcvBufHead := h, rcvBufCount := c, rcvNxt := n } = g s)
    (fuel n : Nat) : g (s.recvLoop fuel n).2 = g s := by
  induction fuel generalizing s n with
  | zero => rfl
  | succ fuel ih =>
    unfold Socket.recvLoop
    split
    · exact (ih _).trans (hg s _ _ _)
    · rfl

section

variable (g : Socket → β)
    (hsend : ∀ s n t r, g { s with sndNxt := n, timestamp := t, retries := r } = g s)
    (hg : ∀ s h c n, g { s with rcvBufHead := h, rcvBufCount := c, rcvNxt := n } = g s)
include g hsend hg

theorem recvWait_keeps {expired : Bool} :
    g (l.recvWait expired ok ticks len).2.1.socket = g l.socket := by
  unfold recvWait
  split
  · rfl
  simp only [recvEnd]
  split
  · rfl
  · simp only
    split
    · rw [sendPacket_keeps g hsend]
      exact Socket.recvLoop_keeps hg _ _
    · exact Socket.recvLoop_keeps hg _ _

theorem recv_keeps : g (tcpRecv ok ticks len l).2.1.socket = g l.socket := by
  unfold tcpRecv
  split
  · rfl
  · exact recvWait_keeps g hsend hg

end

/-- A call took bytes out of the buffer and moved `rcv_nxt` by their number. -/
structure Taken (l : Line) (len : Int) (bytes : List UInt8) (l' : Line) : Prop where
  length : bytes.length = l.socket.takes len
  front : l.socket.bytes = bytes ++ l'.socket.bytes
  rcvNxt : l'.socket.rcvNxt = l.socket.rcvNxt + BitVec.ofNat 32 bytes.length
  state : l'.socket.state = l.socket.state
  aligned : l'.socket.Aligned

theorem Taken.nothing (h : l.socket.Aligned) (hnone : l.socket.takes len = 0) : Taken l len [] l :=
  ⟨hnone.symm, rfl, (BitVec.add_zero _).symm, rfl, h⟩

theorem recvEnd_taken (h : l.socket.Aligned) :
    Taken l len (l.recvEnd ok ticks len).1 (l.recvEnd ok ticks len).2.1 := by
  unfold recvEnd
  split
  · rename_i hzero
    exact .nothing h (by simp [Socket.takes, hzero])
  rename_i hpos
  simp only [Socket.recvLoop_eq h.head_le (Nat.pos_of_ne_zero hpos)]
  by_cases hlen : 0 < l.socket.rcvBufCount ∧ 0 < len.toNat
  · have hcopied := Socket.length_recvRound h.head_le len.toNat
    have hsome : 0 < (l.socket.recvRound len.toNat).1.length := by omega
    simp only [if_pos hlen, if_pos hsome]
    refine ⟨hcopied, ?_, ?_, ?_, ?_⟩
    · rw [sendPacket_keeps Socket.bytes fun _ _ _ _ => rfl]
      exact Socket.bytes_recvRound h.head_le _
    · rw [sendPacket_rcvNxt, hcopied]
      rfl
    · rw [sendPacket_state]
      rfl
    · exact (h.recvRound len.toNat).of_eq (sendPacket_keeps _ fun _ _ _ _ => rfl)
        (sendPacket_keeps _ fun _ _ _ _ => rfl) (sendPacket_keeps _ fun _ _ _ _ => rfl)
  · simp only [if_neg hlen, length_nil, Nat.lt_irrefl]
    refine .nothing h ?_
    rw [Socket.takes]
    omega

/-- A wait that goes on takes nothing, as the buffer is empty. -/
theorem recvWait_taken (expired ok : Bool) (ticks : BitVec 32) (len : Int) (h : l.socket.Aligned) :
    Taken l len (l.recvWait expired ok ticks len).1 (l.recvWait expired ok ticks len).2.1 := by
  unfold recvWait
  split
  · rename_i hempty
    exact .nothing h (by simp [Socket.takes, hempty.1])
  · exact recvEnd_taken h

/-- `tcp_recv` takes bytes off the front of the buffer. -/
theorem recv_taken (ok : Bool) (ticks : BitVec 32) (len : Int) (h : l.socket.Aligned) :
    Taken l len (tcpRecv ok ticks len l).1 (tcpRecv ok ticks len l).2.1 := by
  unfold tcpRecv
  split
  · rename_i hempty
    exact .nothing h (by simp [Socket.takes, hempty.2])
  · exact recvWait_taken false ok ticks len h

/-! ## Acknowledgements -/

/-- `ack` is behind `snd_una` and not behind `snd_nxt`, in the circle of the numbers. -/
def Socket.Awaits (s : Socket) (ack : BitVec 32) : Prop :=
  0 < (ack - s.sndUna).toNat ∧ (ack - s.sndUna).toNat ≤ (s.sndNxt - s.sndUna).toNat

instance (s : Socket) (ack : BitVec 32) : Decidable (s.Awaits ack) := instDecidableAnd

theorem handle_sndUna (h : l.socket.state = .established) :
    (l.handle ok₁ ok₂ ticks seg).socket.sndUna = (l.socket.takeAck seg).sndUna := by
  have hstate : (takeData ok₁ ticks seg ⟨l.socket.takeAck seg, l.sent⟩).socket.state =
      .established := by
    rw [takeData_state, Socket.takeAck_keeps Socket.state fun _ _ => rfl, h]
  have hdata : (takeData ok₁ ticks seg ⟨l.socket.takeAck seg, l.sent⟩).socket.sndUna =
      (l.socket.takeAck seg).sndUna := by
    rw [takeData_keeps Socket.sndUna fun _ _ _ _ => rfl]
    split
    · exact Socket.store_keeps (fun _ _ _ _ _ => rfl)
    · rfl
  unfold handle transition
  rw [hstate]
  dsimp only
  unfold takeFin
  split
  · rw [sendPacket_sndUna, hdata]
  · exact hdata

/-- Without a wrap in the window the order of the numbers is the circular one. -/
theorem Socket.awaits_iff (h : s.sndUna ≤ s.sndNxt) (ack : BitVec 32) :
    s.Awaits ack ↔ s.sndUna < ack ∧ ack ≤ s.sndNxt := by
  have hack := ack.isLt
  have hnxt := s.sndNxt.isLt
  simp only [Socket.Awaits, BitVec.le_def, BitVec.lt_def, BitVec.toNat_sub] at h ⊢
  omega

/-- **Acknowledgements are taken in circular order exactly if the window does not wrap**, and
exactly then the timer sees every outstanding byte. -/
theorem acks_circular_iff (s : Socket) (hstate : s.state = .established) :
    ((∀ (ok₁ ok₂ : Bool) (ticks : BitVec 32) (seg : Segment) (sent : List Segment),
      seg.has flagAck →
        (Line.handle ok₁ ok₂ ticks seg ⟨s, sent⟩).socket.sndUna =
          if s.Awaits seg.ack then seg.ack else s.sndUna) ∧
      ((∃ ticks, s.Expired ticks) ↔ s.sndUna ≠ s.sndNxt)) ↔ s.sndUna ≤ s.sndNxt := by
  constructor
  · rintro ⟨-, htimer⟩
    by_contra hwrap
    obtain ⟨ticks, -, hlt, -⟩ := htimer.mpr fun heq => hwrap (heq ▸ BitVec.le_refl _)
    exact hwrap (BitVec.le_of_lt hlt)
  · refine fun hle => ⟨fun ok₁ ok₂ ticks seg sent hack => ?_, ?_⟩
    · rw [handle_sndUna hstate, Socket.takeAck]
      simp only [hack, true_and, s.awaits_iff hle]
      split <;> rfl
    · constructor
      · rintro ⟨ticks, -, hlt, -⟩ heq
        exact BitVec.lt_irrefl _ (heq ▸ hlt)
      · refine fun hne => ⟨s.timestamp + 501#32, .inr hstate, BitVec.lt_of_le_ne hle hne, ?_⟩
        rw [BitVec.add_comm, BitVec.add_sub_cancel]
        decide

/-- One byte is on its way, and its number is the last one. -/
def lastNumber : Socket :=
  { Socket.zero with state := .established, sndUna := 0xFFFFFFFE#32, sndNxt := 0xFFFFFFFF#32 }

theorem acks_circular_iff_last : ∃ ticks, lastNumber.Expired ticks :=
  ((acks_circular_iff lastNumber rfl).mpr (by decide)).2.mpr (by decide)

/-- Once its number is behind it, the acknowledgement is not taken and the timer does not
see the byte. -/
theorem wrapped_ack_ignored :
    let s := { lastNumber with sndUna := 0xFFFFFFFF#32, sndNxt := 0#32 }
    s.Awaits 0#32 ∧
      (handle true true 0#32 ⟨80#16, 1024#16, 0#32, 0#32, flagAck, []⟩ ⟨s, []⟩).socket.sndUna =
        0xFFFFFFFF#32 ∧ ¬ ∃ ticks, s.Expired ticks := by
  refine ⟨by decide, by decide +kernel, ?_⟩
  rintro ⟨ticks, -, hlt, -⟩
  exact absurd hlt (by decide)

end

end Utms7.Tcp
