import Utms7.TcpSocket

/-!
# The end of a connection

Which segments take a socket to the states of an ending connection.  The handler looks
at the flag of a FIN and not at its number, it lets FIN_WAIT_1 go to CLOSING also when
the same segment acknowledges the FIN of the socket, and it sends a second FIN of the
peer from CLOSE_WAIT to LAST_ACK, where `tcp_close` never sends anything.
-/

namespace Utms7.Tcp

open State

/-- A socket with the history of its connection: the initial number of the peer, the
bytes accepted since `tcp_connect`, and whether the socket has sent a FIN and an
acknowledgement of it has come. -/
structure Life where
  line : Line
  irs : BitVec 32
  accepted : Nat
  finSent : Bool
  finAcked : Bool

namespace Life

def state (s : Life) : State := s.line.socket.state

/-- The number behind the accepted bytes. -/
def edge (s : Life) : BitVec 32 := s.irs + 1#32 + BitVec.ofNat 32 s.accepted

/-- What a segment adds to the history. -/
def takeSegment (s : Life) (seg : Segment) : Life :=
  { s with
    irs := if s.state = .synSent ∧ seg.has flagSyn ∧ seg.has flagAck then seg.seq else s.irs
    accepted := s.accepted + (s.line.socket.accepts seg).length
    finAcked := s.finAcked || (s.finSent && seg.has flagAck && seg.ack == s.line.socket.sndNxt) }

/-- What a piece of the program adds to the history. -/
def record (s : Life) : Piece → Life
  | .connect _ _ _ _ =>
    if s.state = .closed then { s with accepted := 0, finSent := false, finAcked := false }
    else s
  | .close ok => if s.state = .established ∧ ok then { s with finSent := true } else s
  | .segment seg _ _ => s.takeSegment seg
  | _ => s

def step (s : Life) (a : BitVec 32 × Piece) : Life :=
  { s.record a.2 with line := (a.2.apply a.1 s.line).2 }

/-- A socket at the start of its history. -/
def start (s : Socket) (irs : BitVec 32) : Life where
  line := ⟨s, []⟩
  irs := irs
  accepted := 0
  finSent := false
  finAcked := false

end Life

/-- The calls `tcp_connect` and `tcp_close`, the packets, whose length is an `int`, and
the timer. -/
def Piece.Connects : Piece → Prop
  | .connect _ _ _ _ | .close _ | .closeEnd | .timer _ => True
  | .segment seg _ _ => seg.data.length < 2 ^ 31
  | _ => False

/-- `tcp_socket` leaves a socket in CLOSED, a SYN leaves one in SYN_RCVD. -/
def Socket.Starts (s : Socket) (irs : BitVec 32) : Prop :=
  s.state = .closed ∨ s.state = .synRcvd ∧ s.rcvNxt = irs + 1#32

/-! ## What is asked of a step -/

namespace Life

variable {s : Life} {a : BitVec 32 × Piece} {seg : Segment} {irs ticks : BitVec 32}

def Enters (s : Life) (a : BitVec 32 × Piece) (c : State) : Prop :=
  s.state ≠ c ∧ (s.step a).state = c

instance (s : Life) (a : BitVec 32 × Piece) (c : State) : Decidable (s.Enters a c) :=
  instDecidableAnd

/-- The step is the arrival of a FIN that follows the accepted bytes, those of its own
segment among them, and `rcv_nxt` is behind it then. -/
def Ends (s : Life) (a : BitVec 32 × Piece) : Prop :=
  ∃ seg ok₁ ok₂, a.2 = .segment seg ok₁ ok₂ ∧ seg.has flagFin = true ∧
    seg.seq + BitVec.ofNat 32 seg.data.length = (s.step a).edge ∧
    (s.step a).line.socket.rcvNxt = (s.step a).edge + 1#32

/-- The step enters no state of an ending connection without a reason. -/
structure Proper (s : Life) (a : BitVec 32 × Piece) : Prop where
  ends : s.Enters a .closeWait ∨ s.Enters a .closing ∨ s.Enters a .timeWait → s.Ends a
  unacked : s.Enters a .closing → (s.step a).finAcked = false
  sent : s.Enters a .lastAck → s.finSent = true

/-- What a FIN that arrives has to be like. -/
def AllowsFin (s : Life) (seg : Segment) : Prop :=
  match s.state with
  | .established | .finWait2 => seg.data = [] ∧ seg.seq = s.edge
  | .finWait1 => (seg.data = [] ∧ seg.seq = s.edge) ∧
      ¬ (s.finSent = true ∧ seg.has flagAck = true ∧ seg.ack = s.line.socket.sndNxt)
  | .closeWait => False
  | _ => True

def Orderly (s : Life) (a : BitVec 32 × Piece) : Prop :=
  match a.2 with
  | .segment seg _ _ => seg.has flagFin = true → s.AllowsFin seg
  | _ => True

/-! ## What every step keeps -/

/-- No FIN goes out before FIN_WAIT_1, and its acknowledgement leads on from there. -/
structure Sound (s : Life) : Prop where
  unsent : s.state = .synSent ∨ s.state = .synRcvd ∨ s.state = .established ∨
    s.state = .closeWait → s.finSent = false
  unacked : s.finSent = false ∨ s.state = .finWait1 → s.finAcked = false

theorem step_state_segment (s : Life) {seg : Segment} {ok1 ok2 : Bool} :
    ∃ late, (s.step (ticks, .segment seg ok1 ok2)).state =
      s.state.next (seg.has flagSyn) (seg.has flagAck) (seg.has flagFin)
        (seg.ack = s.line.socket.sndNxt) late :=
  handle_state ok1 ok2 ticks seg s.line

section

variable (h : s.Sound)
include h

/-- A step that keeps the state, or closes the socket. -/
theorem Sound.of_eq {s' : Life} (hstate : s'.state = s.state ∨ s'.state = .closed)
    (hsent : s'.finSent = s.finSent) (hacked : s'.finAcked = s.finAcked) : s'.Sound := by
  constructor
  · intro hafter
    rw [hsent]
    refine h.unsent ?_
    grind
  · intro hafter
    rw [hacked]
    refine h.unacked ?_
    grind

theorem Sound.segment (ticks : BitVec 32) (seg : Segment) (ok1 ok2 : Bool) :
    (s.step (ticks, .segment seg ok1 ok2)).Sound := by
  obtain ⟨late, hstate⟩ := s.step_state_segment
  obtain ⟨hunsent, hunacked⟩ := h
  constructor
  · intro hnew
    rw [hstate] at hnew
    refine hunsent ?_
    cases hs : s.state <;> simp only [next] at hnew <;> grind
  · intro hnew
    rw [hstate] at hnew
    simp only [step, record, takeSegment] at hnew ⊢
    cases hs : s.state <;> simp only [next] at hnew <;> grind

theorem Sound.connect (ticks address ip : BitVec 32) (port : BitVec 16) (ok : Bool) :
    (s.step (ticks, .connect address ip port ok)).Sound := by
  have hstate : (s.step (ticks, .connect address ip port ok)).state =
    if s.state = .closed then .synSent else s.state := connect_state
  by_cases hclosed : s.state = .closed
  · constructor <;> intro _ <;> simp [step, record, hclosed]
  · rw [if_neg hclosed] at hstate
    refine h.of_eq (.inl hstate) ?_ ?_ <;> simp [step, record, hclosed]

theorem Sound.close (ticks : BitVec 32) (ok : Bool) : (s.step (ticks, .close ok)).Sound := by
  have hstate : (s.step (ticks, .close ok)).state =
    if s.state = .established then .finWait1 else s.state := close_state
  by_cases hest : s.state = .established
  · rw [if_pos hest] at hstate
    have hunacked : s.finAcked = false := h.unacked (.inl (h.unsent (.inr (.inr (.inl hest)))))
    constructor
    · rw [hstate]
      rintro (h | h | h | h) <;> cases h
    · intro _
      simp only [step, record]
      split <;> exact hunacked
  · rw [if_neg hest] at hstate
    have hrecord : s.record (.close ok) = s := if_neg fun hand => hest hand.1
    refine h.of_eq (.inl hstate) ?_ ?_ <;> simp only [step, hrecord]

theorem Sound.step (ha : a.2.Connects) : (s.step a).Sound := by
  obtain ⟨ticks, p⟩ := a
  cases p with
  | segment seg ok1 ok2 => exact h.segment ticks seg ok1 ok2
  | connect address ip port ok => exact h.connect ticks address ip port ok
  | close ok => exact h.close ticks ok
  | closeEnd => exact h.of_eq (.inl rfl) rfl rfl
  | timer ok => exact h.of_eq onTimer_state rfl rfl
  | _ => exact ha.elim

end

/-! ## One step -/

/-- A step that enters none of the states is proper. -/
theorem proper_of_not_enters (hnot : ∀ c, c = .closeWait ∨ c = .closing ∨ c = .timeWait ∨
    c = .lastAck → ¬ s.Enters a c) : s.Proper a := by
  refine ⟨?_, fun h => (hnot _ (.inr (.inl rfl)) h).elim,
    fun h => (hnot _ (.inr (.inr (.inr rfl))) h).elim⟩
  rintro (h | h | h)
  · exact (hnot _ (.inl rfl) h).elim
  · exact (hnot _ (.inr (.inl rfl)) h).elim
  · exact (hnot _ (.inr (.inr (.inl rfl))) h).elim

theorem not_enters {c : State} (hc : c = .closeWait ∨ c = .closing ∨ c = .timeWait ∨ c = .lastAck)
    (ha : a.2.Connects) (hseg : ∀ seg ok1 ok2, a.2 ≠ .segment seg ok1 ok2) : ¬ s.Enters a c := by
  rintro ⟨hold, hnew⟩
  obtain ⟨ticks, p⟩ := a
  cases p with
  | segment seg ok1 ok2 => exact hseg seg ok1 ok2 rfl
  | connect address ip port ok =>
    have hstate : (s.step (ticks, .connect address ip port ok)).state =
      if s.state = .closed then .synSent else s.state := connect_state
    grind
  | close ok =>
    have hstate : (s.step (ticks, .close ok)).state =
      if s.state = .established then .finWait1 else s.state := close_state
    grind
  | closeEnd => exact hold hnew
  | timer ok =>
    have hstate : (s.step (ticks, .timer ok)).state = s.state ∨
      (s.step (ticks, .timer ok)).state = .closed := onTimer_state
    grind
  | _ => exact ha.elim

/-- A FIN in one of the states that take it is proper exactly if it carries no data
and has the number behind the accepted bytes. -/
theorem ends_iff {ok1 ok2 : Bool} (hlen : seg.data.length < 2 ^ 31) (hfin : seg.has flagFin = true)
    (hs : s.state = .established ∨ s.state = .finWait1 ∨ s.state = .finWait2) :
    s.Ends (ticks, .segment seg ok1 ok2) ↔ seg.data = [] ∧ seg.seq = s.edge := by
  have hnxt : (s.step (ticks, .segment seg ok1 ok2)).line.socket.rcvNxt = seg.seq + 1#32 := by
    refine (handle_rcvNxt ok1 ok2 ticks seg s.line).trans (if_pos ?_)
    have hstate : s.line.socket.state = s.state := rfl
    rw [hstate]
    rcases hs with h | h | h <;> rw [h, renumbers, hfin]
  have hirs : (s.step (ticks, .segment seg ok1 ok2)).irs = s.irs := by
    refine if_neg fun hsyn => ?_
    rcases hs with h | h | h <;> rw [h] at hsyn <;> cases hsyn.1
  have hedge : seg.data = [] → (s.step (ticks, .segment seg ok1 ok2)).edge = s.edge := by
    intro hnil
    rw [edge, hirs]
    simp [step, record, takeSegment, Socket.accepts_nil hnil, edge]
  constructor
  · rintro ⟨_, _, _, ⟨⟩, _, hseq, hafter⟩
    rw [hnxt] at hafter
    have hseq' : seg.seq = (s.step (ticks, .segment seg ok1 ok2)).edge :=
      (BitVec.add_left_inj _).mp hafter
    have hzero : BitVec.ofNat 32 seg.data.length = 0#32 := by
      rw [← hseq'] at hseq
      exact BitVec.add_right_eq_self.mp hseq
    have hnil : seg.data = [] := by
      have hmod := congrArg BitVec.toNat hzero
      rw [BitVec.toNat_ofNat, Nat.mod_eq_of_lt (by omega)] at hmod
      exact List.eq_nil_of_length_eq_zero hmod
    exact ⟨hnil, hseq'.trans (hedge hnil)⟩
  · rintro ⟨hnil, hseq⟩
    refine ⟨seg, ok1, ok2, rfl, hfin, ?_, ?_⟩
    · rw [hedge hnil, hseq, hnil]
      exact BitVec.add_zero _
    · rw [hnxt, hedge hnil, hseq]

theorem proper_iff : s.Proper a ↔
    (s.Enters a .closeWait ∨ s.Enters a .closing ∨ s.Enters a .timeWait → s.Ends a) ∧
    (s.Enters a .closing → (s.step a).finAcked = false) ∧
    (s.Enters a .lastAck → s.finSent = true) :=
  ⟨fun h => ⟨h.ends, h.unacked, h.sent⟩, fun h => ⟨h.1, h.2.1, h.2.2⟩⟩

theorem proper_iff_orderly_segment (h : s.Sound)
    {ok1 ok2 : Bool} (hlen : seg.data.length < 2 ^ 31) :
    s.Proper (ticks, .segment seg ok1 ok2) ↔ s.Orderly (ticks, .segment seg ok1 ok2) := by
  obtain ⟨late, hnew⟩ := s.step_state_segment
  cases hfin : seg.has flagFin with
  | false =>
    -- without a FIN the state does not come nearer to the end
    refine iff_of_true (proper_of_not_enters ?_) (by simp [Orderly, hfin])
    rintro c hc ⟨hne, heq⟩
    rw [hnew] at heq
    cases hs : s.state <;> simp only [next] at heq hne <;> grind
  | true =>
    have henters : ∀ c, s.Enters (ticks, .segment seg ok1 ok2) c ↔ s.state ≠ c ∧
        s.state.next (seg.has flagSyn) (seg.has flagAck) true
          (seg.ack = s.line.socket.sndNxt) late = c := by
      intro c
      rw [Enters, hnew, hfin]
    have hends : _ → (s.Ends (ticks, .segment seg ok1 ok2) ↔ _) :=
      ends_iff hlen hfin
    rw [proper_iff]
    simp only [henters, Orderly, hfin, AllowsFin]
    cases hs : s.state with
    | established =>
      simp [next, hends (.inl hs)]
    | finWait1 =>
      have hacked : (s.step (ticks, .segment seg ok1 ok2)).finAcked =
          (s.finSent && seg.has flagAck && seg.ack == s.line.socket.sndNxt) := by
        simp [step, record, takeSegment, h.unacked (.inr hs)]
      simp [next, hends (.inr (.inl hs)), hacked]
    | finWait2 =>
      simp [next, hends (.inr (.inr hs))]
    | closeWait =>
      have hunsent := h.unsent (.inr (.inr (.inr hs)))
      simp [next, hunsent]
    | closed | listen | closing => simp [next]
    | synSent | synRcvd | lastAck | timeWait =>
      simp only [next]
      split <;> simp

theorem proper_iff_orderly (h : s.Sound) (ha : a.2.Connects) : s.Proper a ↔ s.Orderly a := by
  obtain ⟨ticks, p⟩ := a
  by_cases hseg : ∃ seg ok1 ok2, p = .segment seg ok1 ok2
  · obtain ⟨seg, ok1, ok2, rfl⟩ := hseg
    exact proper_iff_orderly_segment h ha
  have horderly : s.Orderly (ticks, p) := by
    unfold Orderly
    split
    · rename_i seg ok1 ok2 hp
      exact (hseg ⟨seg, ok1, ok2, hp⟩).elim
    · trivial
  exact iff_of_true (proper_of_not_enters fun c hc =>
    not_enters hc ha fun seg ok1 ok2 hp => hseg ⟨seg, ok1, ok2, hp⟩) horderly

/-! ## Whole runs -/

/-- No bytes are accepted before the SYN of the peer. -/
def Early (s : Life) (a : BitVec 32 × Piece) : Prop :=
  match a.2 with
  | .segment seg _ _ => s.state = .synSent ∧ s.line.socket.accepts seg ≠ []
  | _ => False

/-- As long as the peer may send, `rcv_nxt` is the number behind the accepted bytes. -/
structure Tracked (s : Life) : Prop where
  rcvNxt : s.state = .synRcvd ∨ s.state = .established ∨ s.state = .finWait1 ∨
    s.state = .finWait2 → s.line.socket.rcvNxt = s.edge
  accepted : s.state = .synSent → s.accepted = 0

theorem Tracked.segment (h : s.Tracked) (ticks : BitVec 32) (ok1 ok2 : Bool)
    (hearly : ¬ s.Early (ticks, .segment seg ok1 ok2)) :
    (s.step (ticks, .segment seg ok1 ok2)).Tracked := by
  obtain ⟨late, hnew⟩ := s.step_state_segment
  have hnxt : (s.step (ticks, .segment seg ok1 ok2)).line.socket.rcvNxt = _ :=
    handle_rcvNxt ok1 ok2 ticks seg s.line
  have hsocket : s.line.socket.state = s.state := rfl
  have hmoved : s.line.socket.rcvNxt = s.edge → s.state ≠ .synSent →
      s.line.socket.rcvNxt + BitVec.ofNat 32 (s.line.socket.accepts seg).length =
        (s.step (ticks, .segment seg ok1 ok2)).edge := by
    intro hold hne
    rw [hold, edge, edge, BitVec.add_assoc, ← BitVec.ofNat_add]
    simp [step, record, takeSegment, hne]
  have hnone : s.state = .synSent → (s.step (ticks, .segment seg ok1 ok2)).accepted = 0 := by
    intro hs
    have haccepts : s.line.socket.accepts seg = [] := by
      by_contra hsome
      exact hearly ⟨hs, hsome⟩
    simp [step, record, takeSegment, haccepts, h.accepted hs]
  constructor
  · intro hafter
    rw [hnew] at hafter
    rw [hnxt, hsocket]
    cases hs : s.state <;> simp only [hs, next, renumbers] at hafter ⊢
    case synSent =>
      have hsyn : seg.has flagSyn = true ∧ seg.has flagAck = true := by
        by_contra hnot
        simp [hnot] at hafter
      have hirs : (s.step (ticks, .segment seg ok1 ok2)).irs = seg.seq := if_pos ⟨hs, hsyn⟩
      simp [hsyn, edge, hnone hs, hirs]
    case synRcvd => exact hmoved (h.rcvNxt (.inl hs)) (by simp [hs])
    case established =>
      have hfin : seg.has flagFin = false := by grind
      rw [hfin]
      exact hmoved (h.rcvNxt (.inr (.inl hs))) (by simp [hs])
    case finWait1 =>
      have hfin : seg.has flagFin = false := by grind
      rw [hfin]
      exact hmoved (h.rcvNxt (.inr (.inr (.inl hs)))) (by simp [hs])
    case finWait2 =>
      have hfin : seg.has flagFin = false := by grind
      rw [hfin]
      exact hmoved (h.rcvNxt (.inr (.inr (.inr hs)))) (by simp [hs])
    all_goals grind
  · intro hafter
    rw [hnew] at hafter
    refine hnone ?_
    cases hs : s.state <;> simp only [next] at hafter <;> grind

theorem Tracked.of_eq {s' : Life} (h : s.Tracked) (hstate : s'.state = s.state ∨ s'.state = .closed)
    (hnxt : s'.line.socket.rcvNxt = s.line.socket.rcvNxt) (hirs : s'.irs = s.irs)
    (haccepted : s'.accepted = s.accepted) : s'.Tracked := by
  constructor
  · intro hafter
    rw [hnxt, edge, hirs, haccepted]
    refine h.rcvNxt ?_
    grind
  · intro hafter
    rw [haccepted]
    refine h.accepted ?_
    grind

theorem Tracked.step (h : s.Tracked) (ha : a.2.Connects) (hearly : ¬ s.Early a) :
    (s.step a).Tracked := by
  obtain ⟨ticks, p⟩ := a
  cases p with
  | segment seg ok1 ok2 => exact h.segment ticks ok1 ok2 hearly
  | connect address ip port ok =>
    by_cases hclosed : s.state = .closed
    · have hstate : (s.step (ticks, .connect address ip port ok)).state = .synSent :=
        connect_state.trans (if_pos hclosed)
      constructor
      · rw [hstate]
        rintro (h | h | h | h) <;> cases h
      · simp [step, record, hclosed]
    · have hline : tcpConnect ok ticks address ip port s.line = s.line := if_neg hclosed
      have hrecord : s.record (.connect address ip port ok) = s := if_neg hclosed
      refine h.of_eq (.inl ?_) ?_ ?_ ?_ <;> simp [step, Piece.apply, hline, hrecord]
  | close ok =>
    have hnxt : (s.step (ticks, .close ok)).line.socket.rcvNxt = s.line.socket.rcvNxt := by
      simp only [step, Piece.apply, tcpClose]
      split
      · exact sendPacket_rcvNxt
      · rfl
    have hirs : (s.step (ticks, .close ok)).irs = s.irs := by
      simp only [step, record]
      split <;> rfl
    have haccepted : (s.step (ticks, .close ok)).accepted = s.accepted := by
      simp only [step, record]
      split <;> rfl
    by_cases hest : s.state = .established
    · have hstate : (s.step (ticks, .close ok)).state = .finWait1 :=
        close_state.trans (if_pos hest)
      constructor
      · intro _
        rw [hnxt, edge, hirs, haccepted]
        exact h.rcvNxt (.inr (.inl hest))
      · rw [hstate]
        intro h
        cases h
    · exact h.of_eq (.inl (close_state.trans (if_neg hest))) hnxt hirs haccepted
  | closeEnd => exact h.of_eq (.inl rfl) rfl rfl rfl
  | timer ok => exact h.of_eq onTimer_state (onTimer_keeps _ fun _ _ _ _ _ => rfl) rfl rfl
  | _ => exact ha.elim

theorem start_sound {s : Socket} : (start s irs).Sound :=
  ⟨fun _ => rfl, fun _ => rfl⟩

theorem start_tracked {s : Socket} (h : s.Starts irs) : (start s irs).Tracked := by
  constructor
  · intro hnew
    rcases h with hclosed | ⟨-, hnxt⟩
    · simp [state, start, hclosed] at hnew
    · simp [start, edge, hnxt]
  · exact fun _ => rfl

end Life

/-- **The states of an ending connection.**  In every run of `tcp_connect`,
`tcp_close`, the packets and the timer on a socket, every step that enters one of
these states does so properly exactly if every FIN that arrives is of the kind that
`AllowsFin` describes: where it is looked at, it carries no data and has the number
behind the accepted bytes; in FIN_WAIT_1 it does not acknowledge the FIN of the
socket; and none arrives in CLOSE_WAIT.  The number is `rcv_nxt` as long as no bytes
are accepted before the SYN of the peer. -/
theorem closing_proper {s : Socket} {irs : BitVec 32} (hstart : s.Starts irs)
    (as : List (BitVec 32 × Piece)) (has : ∀ a ∈ as, a.2.Connects) :
    (Runs.Guarded Life.step Life.Proper (Life.start s irs) as ↔
      Runs.Guarded Life.step Life.Orderly (Life.start s irs) as) ∧
    (Runs.Guarded Life.step (fun s a => ¬ s.Early a) (Life.start s irs) as →
      Runs.Always Life.step (fun s => s.state = .established ∨ s.state = .finWait1 ∨
        s.state = .finWait2 → s.line.socket.rcvNxt = s.edge) (Life.start s irs) as) := by
  have hstep : ∀ (s : Life) (a : BitVec 32 × Piece), s.Sound → a.2.Connects → (s.step a).Sound :=
    fun s a h ha => h.step ha
  constructor
  · exact Runs.guarded_congr hstep (fun s a h ha => Life.proper_iff_orderly h ha) has
      Life.start_sound
  · rintro hguard bs ⟨cs, rfl⟩ hstate
    have hbs := (Runs.guarded_append.mp hguard).1
    have hall : Runs.Guarded Life.step (fun _ a => a.2.Connects) (Life.start s irs) bs :=
      Runs.guarded_of_forall (fun a ha => has a (List.mem_append_left cs ha)) _
    have htracked := Runs.Guarded.invariant (fun s a h hok => Life.Tracked.step h hok.2 hok.1)
      (hbs.and hall) (Life.start_tracked hstart)
    exact htracked.rcvNxt (.inr hstate)

/-- A connection to a peer that starts at 100. -/
def handshake : List (BitVec 32 × Piece) :=
  [(0#32, .connect 5000#32 1#32 80#16 true),
   (0#32, .segment ⟨80#16, 1024#16, 100#32, 5001#32, flagSyn ||| flagAck, []⟩ true true)]

def finSegment (seq ack : BitVec 32) (flags : UInt8) : BitVec 32 × Piece :=
  (0#32, .segment ⟨80#16, 1024#16, seq, ack, flags, []⟩ true true)

/-- The life of a new socket after the run. -/
def lifeAfter (as : List (BitVec 32 × Piece)) : Life :=
  Runs.run Life.step (Life.start (Socket.fresh 2#32 1024#16) 0#32) as

theorem closing_proper_handshake : (lifeAfter handshake).state = .established ∧
    (lifeAfter handshake).line.socket.rcvNxt = (lifeAfter handshake).edge := by
  have hstate : (lifeAfter handshake).state = .established := by decide +kernel
  refine ⟨hstate, (closing_proper (.inl rfl) handshake ?_).2 ?_ handshake List.prefix_rfl
    (.inl hstate)⟩
  · exact List.forall_mem_cons.mpr ⟨trivial, List.forall_mem_singleton.mpr (Nat.two_pow_pos 31)⟩
  · exact ⟨id, fun h => h.2 (by decide +kernel), trivial⟩

/-- A FIN whose data are still on the way closes the connection; a FIN that
acknowledges the own FIN leads to CLOSING; and a second FIN leads to LAST_ACK. -/
theorem fin_out_of_order :
    ((lifeAfter handshake).Enters (finSegment 105#32 5001#32 flagFin) .closeWait ∧
      ¬ (lifeAfter handshake).Ends (finSegment 105#32 5001#32 flagFin)) ∧
    ((lifeAfter (handshake ++ [(0#32, .close true)])).Enters
        (finSegment 101#32 5002#32 (flagFin ||| flagAck)) .closing ∧
      ((lifeAfter (handshake ++ [(0#32, .close true)])).step
        (finSegment 101#32 5002#32 (flagFin ||| flagAck))).finAcked = true) ∧
    ((lifeAfter (handshake ++ [finSegment 101#32 5001#32 flagFin])).Enters
        (finSegment 102#32 5001#32 flagFin) .lastAck ∧
      (lifeAfter (handshake ++ [finSegment 101#32 5001#32 flagFin])).finSent = false) := by
  refine ⟨⟨by decide +kernel, ?_⟩, ⟨by decide +kernel, by decide +kernel⟩, by decide +kernel,
    by decide +kernel⟩
  rintro ⟨_, _, _, _, _, _, hnxt⟩
  exact absurd hnxt (by decide +kernel)

end Utms7.Tcp
