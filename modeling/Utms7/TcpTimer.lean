import Utms7.TcpSocket

/-!
# Retransmission

A socket whose peer is silent.  What the timer sends starts at `snd_nxt`, not at the
first byte that is not acknowledged, and a SYN moves `snd_nxt`; so every transmission
of the timer that succeeds is wrong.  It also sets `retries` back to zero, and the
socket is given up only if the transmissions fail.
-/

namespace Utms7.Tcp

/-- A socket with `tcp_ticks`, the first number of its connection, and how often the
timer has tried to send since `tcp_connect`. -/
structure Silent where
  line : Line
  ticks : BitVec 32
  iss : BitVec 32
  attempts : Nat

open Silent Runs List

/-- The calls `tcp_connect` and `tcp_send` and the timer: nothing arrives. -/
def Piece.Unanswered : Piece → Prop
  | .connect _ _ _ _ | .send _ _ | .sendAgain _ _ | .timer _ => True
  | _ => False

namespace Silent

variable {s : Silent} {p : Piece} {ok : Bool}

/-- The timer counts before it looks at the sockets. -/
def clock (s : Silent) : Piece → BitVec 32
  | .timer _ => s.ticks + 1#32
  | _ => s.ticks

/-- The timer is going to send. -/
def Due (s : Silent) : Prop :=
  s.line.socket.Expired (s.ticks + 1#32) ∧ s.line.socket.retries < tcpRetries

instance (s : Silent) : Decidable s.Due := instDecidableAnd

def step (s : Silent) (p : Piece) : Silent where
  line := (p.apply (s.clock p) s.line).2
  ticks := s.clock p
  iss :=
    match p with
    | .connect address _ _ _ => if s.line.socket.state = .closed then address else s.iss
    | _ => s.iss
  attempts :=
    match p with
    | .connect _ _ _ _ => if s.line.socket.state = .closed then 0 else s.attempts
    | .timer _ => if s.Due then s.attempts + 1 else s.attempts
    | _ => s.attempts

/-- A socket at some time; the attempts so far are its `retries`. -/
def start (s : Socket) (ticks iss : BitVec 32) : Silent where
  line := ⟨s, []⟩
  ticks := ticks
  iss := iss
  attempts := s.retries

/-- The number of the first byte that is not acknowledged; the SYN is the first one. -/
def unacked (s : Silent) : BitVec 32 :=
  if s.line.socket.state = .synSent then s.iss else s.line.socket.sndUna

/-! ## What the timer sends -/

/-- Each segment from the timer starts at the first byte that is not acknowledged, and
`snd_nxt` stays. -/
def Resends (s : Silent) (p : Piece) : Prop :=
  ∀ ok, p = .timer ok → ∀ seg, (s.step p).line.sent = s.line.sent ++ [seg] →
    seg.seq = s.unacked ∧ (s.step p).line.socket.sndNxt = s.line.socket.sndNxt

/-- What the timer sends does not get out. -/
def Fails (s : Silent) (p : Piece) : Prop := ∀ ok, p = .timer ok → s.Due → ok = false

theorem step_timer_idle (h : ¬ s.line.socket.Expired (s.ticks + 1#32)) :
    (s.step (.timer ok)).line = s.line := if_neg h

theorem step_timer_due (ok : Bool) (h : s.Due) : (s.step (.timer ok)).line =
    tcpSendPacket ok (s.ticks + 1#32)
      (if s.line.socket.state = .synSent then flagSyn else flagAck) []
      { s.line with socket := s.line.socket.retry (s.ticks + 1#32) } :=
  (if_pos h.1).trans (if_pos h.2)

theorem step_timer_last (h : s.line.socket.Expired (s.ticks + 1#32)) (hdue : ¬ s.Due) :
    (s.step (.timer ok)).line =
      { s.line with socket := { s.line.socket with state := .closed } } :=
  (if_pos h).trans (if_neg fun hlt => hdue ⟨h, hlt⟩)

theorem step_idle (h : ¬ s.line.socket.Expired (s.ticks + 1#32)) :
    s.step (.timer ok) = { s with ticks := s.ticks + 1#32 } := by
  have hdue : ¬ s.Due := fun hdue => h hdue.1
  simp only [step, if_neg hdue]
  rw [show (Piece.apply (s.clock (.timer ok)) (.timer ok) s.line).2 = s.line from if_neg h]
  rfl

/-- **A transmission of the timer that succeeds is wrong.** -/
theorem resends_iff_fails : s.Resends p ↔ s.Fails p := by
  constructor
  · rintro h ok rfl hdue
    by_contra hok
    rw [Bool.not_eq_false] at hok
    subst hok
    obtain ⟨hseq, hnxt⟩ := h true rfl (s.line.socket.packet _ []) (by
      rw [step_timer_due _ hdue]
      rfl)
    obtain ⟨hstate, hlt, -⟩ := hdue.1
    rcases hstate with hsyn | hest
    · rw [step_timer_due _ hdue, if_pos hsyn, sendSyn_sndNxt] at hnxt
      exact absurd (BitVec.add_right_eq_self.mp hnxt) (by decide)
    · have hunacked : s.unacked = s.line.socket.sndUna := if_neg (by simp [hest])
      have heq : s.line.socket.sndNxt = s.line.socket.sndUna := hseq.trans hunacked
      exact BitVec.lt_irrefl _ (heq ▸ hlt)
  · rintro h ok rfl seg hsent
    exfalso
    have hsame : (s.step (.timer ok)).line.sent = s.line.sent := by
      by_cases hexp : s.line.socket.Expired (s.ticks + 1#32)
      · by_cases hdue : s.Due
        · rw [step_timer_due _ hdue, h ok rfl hdue, sendPacket_false]
        · rw [step_timer_last hexp hdue]
      · rw [step_timer_idle hexp]
    rw [hsame] at hsent
    exact absurd (congrArg length hsent) (by simp)

/-! ## Giving up -/

/-- `tcp_send` does not set the count of the attempts back. -/
def Fresh (s : Silent) (p : Piece) : Prop :=
  match p with
  | .send data ok => s.line.socket.state = .established → data ≠ [] → ok = true →
      s.line.socket.retries = 0
  | .sendAgain data ok => data ≠ [] → ok = true → s.line.socket.retries = 0
  | _ => True

/-- The attempts are counted, and there are no more than `TCP_RETRIES`. -/
structure Counted (s : Silent) : Prop where
  attempts : s.attempts = s.line.socket.retries
  le : s.line.socket.retries ≤ tcpRetries

theorem sendChunk_retries {data : List UInt8}
    (hfresh : data ≠ [] → ok = true → s.line.socket.retries = 0) :
    (s.line.sendChunk ok s.ticks data).socket.retries = s.line.socket.retries := by
  unfold Line.sendChunk
  split
  · rfl
  · rename_i hdata
    cases ok with
    | false => rfl
    | true => exact (hfresh hdata rfl).symm

theorem Counted.timer (h : s.Counted) (hfails : s.Fails (.timer ok)) :
    (s.step (.timer ok)).Counted := by
  obtain ⟨hattempts, hle⟩ := h
  by_cases hexp : s.line.socket.Expired (s.ticks + 1#32)
  · by_cases hdue : s.Due
    · have hok := hfails ok rfl hdue
      have hretries : (s.step (.timer ok)).line.socket.retries = s.line.socket.retries + 1 := by
        rw [step_timer_due _ hdue, hok]
        rfl
      refine ⟨?_, ?_⟩
      · rw [hretries, ← hattempts]
        exact if_pos hdue
      · rw [hretries]
        exact hdue.2
    · have hretries : (s.step (.timer ok)).line.socket.retries = s.line.socket.retries := by
        rw [step_timer_last hexp hdue]
      exact ⟨(if_neg hdue).trans (hattempts.trans hretries.symm), hretries ▸ hle⟩
  · have hdue : ¬ s.Due := fun hdue => hexp hdue.1
    have hretries : (s.step (.timer ok)).line.socket.retries = s.line.socket.retries := by
      rw [step_timer_idle hexp]
    exact ⟨(if_neg hdue).trans (hattempts.trans hretries.symm), hretries ▸ hle⟩

theorem Counted.step (h : s.Counted) (hp : p.Unanswered) (hfails : s.Fails p)
    (hfresh : s.Fresh p) : (s.step p).Counted := by
  cases p with
  | timer ok => exact h.timer hfails
  | connect address ip port ok =>
    by_cases hclosed : s.line.socket.state = .closed
    · have hretries : (s.step (.connect address ip port ok)).line.socket.retries = 0 := by
        simp only [step, Piece.apply, tcpConnect, if_pos hclosed]
        cases ok <;> rfl
      exact ⟨(if_pos hclosed).trans hretries.symm, hretries ▸ Nat.zero_le _⟩
    · have hline : (s.step (.connect address ip port ok)).line = s.line := if_neg hclosed
      exact ⟨(if_neg hclosed).trans (hline ▸ h.attempts), hline ▸ h.le⟩
  | send data ok =>
    have hretries : (s.step (.send data ok)).line.socket.retries = s.line.socket.retries := by
      simp only [step, Piece.apply, tcpSend]
      split
      · rename_i hest
        exact sendChunk_retries (hfresh hest)
      · rfl
    exact ⟨h.attempts.trans hretries.symm, hretries ▸ h.le⟩
  | sendAgain data ok =>
    have hretries : (s.step (.sendAgain data ok)).line.socket.retries =
      s.line.socket.retries := sendChunk_retries hfresh
    exact ⟨h.attempts.trans hretries.symm, hretries ▸ h.le⟩
  | _ => exact hp.elim

/-- The socket waits for an acknowledgement. -/
def Waits (s : Silent) : Prop :=
  (s.line.socket.state = .synSent ∨ s.line.socket.state = .established) ∧
    s.line.socket.sndUna < s.line.socket.sndNxt

/-- How many ticks pass until the timer has something to do. -/
def rest (s : Silent) : Nat :=
  if (s.ticks - s.line.socket.timestamp).toNat = 2 ^ 32 - 1 then 501
  else 500 - (s.ticks - s.line.socket.timestamp).toNat

/-- How many ticks the socket has left at most. -/
def left (s : Silent) : Nat := (tcpRetries - s.line.socket.retries) * 502 + s.rest

theorem toNat_age : ((s.ticks + 1#32) - s.line.socket.timestamp).toNat =
    ((s.ticks - s.line.socket.timestamp).toNat + 1) % 2 ^ 32 := by
  have hcomm : (s.ticks + 1#32) - s.line.socket.timestamp =
      (s.ticks - s.line.socket.timestamp) + 1#32 := by
    rw [BitVec.sub_eq_add_neg, BitVec.sub_eq_add_neg]
    ac_rfl
  rw [hcomm]
  rfl

theorem Waits.expired_iff (h : s.Waits) : s.line.socket.Expired (s.ticks + 1#32) ↔ s.rest = 0 := by
  have hage := s.toNat_age
  have hexp : s.line.socket.Expired (s.ticks + 1#32) ↔
      500 < ((s.ticks + 1#32) - s.line.socket.timestamp).toNat :=
    ⟨fun he => he.2.2, fun he => ⟨h.1, h.2, he⟩⟩
  rw [hexp, rest]
  split <;> omega

/-- **A tick** on which nothing gets out brings the end nearer. -/
theorem Waits.tick (h : s.Waits) (hle : s.line.socket.retries ≤ tcpRetries) :
    (s.step (.timer false)).line.socket.state = .closed ∨ (s.step (.timer false)).Waits ∧
        (s.step (.timer false)).line.socket.retries ≤ tcpRetries ∧
        (s.step (.timer false)).left < s.left := by
  by_cases hexp : s.line.socket.Expired (s.ticks + 1#32)
  · by_cases hdue : s.Due
    · refine .inr ?_
      have hline : (s.step (.timer false)).line =
          { s.line with socket := s.line.socket.retry (s.ticks + 1#32) } :=
        (step_timer_due _ hdue).trans sendPacket_false
      have hzero := h.expired_iff.mp hexp
      have hlt := hdue.2
      refine ⟨?_, ?_, ?_⟩
      · rw [Waits, hline]
        exact h
      · rw [hline]
        exact hlt
      · have hrest : (s.step (.timer false)).rest = 500 := by
          rw [rest, hline]
          simp [step, clock, Socket.retry]
        rw [left, left, hline]
        simp only [Socket.retry]
        omega
    · exact .inl (by rw [step_timer_last hexp hdue])
  · refine .inr ?_
    have hline : (s.step (.timer false)).line = s.line := step_timer_idle hexp
    have hage := s.toNat_age
    have hlt := (s.ticks - s.line.socket.timestamp).isLt
    have hpos := mt h.expired_iff.mpr hexp
    have hticks : (s.step (.timer false)).ticks = s.ticks + 1#32 := rfl
    have hrest : (s.step (.timer false)).rest < s.rest := by
      simp only [rest, hline, hticks, hage] at hpos ⊢
      generalize (s.ticks - s.line.socket.timestamp).toNat = age at hpos hlt ⊢
      by_cases hmax : age = 2 ^ 32 - 1
      · split <;> omega
      · rw [if_neg hmax] at hpos ⊢
        split <;> omega
    refine ⟨?_, ?_, ?_⟩
    · rw [Waits, hline]
      exact h
    · rw [hline]
      exact hle
    · rw [left, left, hline]
      omega

theorem closed_tick (h : s.line.socket.state = .closed) :
    (s.step (.timer ok)).line.socket.state = .closed := by
  have hstate : (s.step (.timer ok)).line.socket.state = s.line.socket.state ∨
    (s.step (.timer ok)).line.socket.state = .closed := onTimer_state
  rcases hstate with hsame | hclosed
  · rw [hsame, h]
  · exact hclosed

theorem closed_ticks (h : s.line.socket.state = .closed) {n : Nat} :
    (run step s (replicate n (.timer false))).line.socket.state = .closed := by
  induction n generalizing s with
  | zero => exact h
  | succ n ih => exact ih (closed_tick h)

theorem Waits.closed (h : s.Waits) (hle : s.line.socket.retries ≤ tcpRetries) {n : Nat}
    (hn : s.left < n) :
    (run step s (replicate n (.timer false))).line.socket.state = .closed := by
  induction n generalizing s with
  | zero => omega
  | succ n ih =>
    rcases h.tick hle with hclosed | ⟨hwaits, hle', hless⟩
    · exact closed_ticks hclosed
    · exact ih hwaits hle' (by omega)

/-! ## Never giving up -/

/-- The timer has just sent on a connection that waits. -/
structure Fruitless (s : Silent) : Prop where
  waits : s.Waits
  established : s.line.socket.state = .established
  timestamp : s.line.socket.timestamp = s.ticks
  retries : s.line.socket.retries < tcpRetries

section

variable (h : s.Fruitless)
include h

theorem Fruitless.idle {k : Nat} (hk : k ≤ 500) :
    run step s (replicate k (.timer true)) =
      { s with ticks := s.ticks + BitVec.ofNat 32 k } := by
  induction k with
  | zero => simp
  | succ k ih =>
    rw [replicate_succ', run_append, ih (by omega), run_cons, run_nil]
    have hwaits : Waits { s with ticks := s.ticks + BitVec.ofNat 32 k } := h.waits
    have hrest : rest { s with ticks := s.ticks + BitVec.ofNat 32 k } ≠ 0 := by
      have hage : ((s.ticks + BitVec.ofNat 32 k) - s.line.socket.timestamp).toNat = k := by
        rw [h.timestamp, BitVec.add_comm, BitVec.add_sub_cancel, BitVec.toNat_ofNat]
        omega
      simp only [rest]
      split <;> omega
    have hexp := mt hwaits.expired_iff.mp hrest
    rw [step_idle hexp]
    simp only [BitVec.ofNat_add, BitVec.add_assoc]

theorem Fruitless.send {now : BitVec 32} (hnow : (now - s.line.socket.timestamp).toNat = 500) :
    (step { s with ticks := now } (.timer true)).attempts = s.attempts + 1 ∧
      (step { s with ticks := now } (.timer true)).Fruitless := by
  have hwaits : Waits { s with ticks := now } := h.waits
  have hrest : rest { s with ticks := now } = 0 := by simp [rest, hnow]
  have hdue : Due { s with ticks := now } := ⟨hwaits.expired_iff.mpr hrest, h.retries⟩
  have hline := step_timer_due true hdue
  have hack : (if s.line.socket.state = .synSent then flagSyn else flagAck) = flagAck :=
    if_neg (by simp [h.established])
  rw [hack] at hline
  refine ⟨if_pos hdue, ?_, ?_, ?_, ?_⟩
  · rw [Waits, hline, sendAck_sndNxt]
    exact h.waits
  · rw [hline]
    exact h.established
  · rw [hline]
    rfl
  · rw [hline]
    exact Nat.zero_lt_succ 4

theorem Fruitless.round :
    (run step s (replicate 501 (.timer true))).attempts = s.attempts + 1 ∧
      (run step s (replicate 501 (.timer true))).Fruitless := by
  rw [replicate_succ', run_append, h.idle (k := 500) (by omega), run_cons]
  refine h.send ?_
  rw [h.timestamp, BitVec.add_comm, BitVec.add_sub_cancel]
  rfl

theorem Fruitless.rounds (n : Nat) :
    (run step s (replicate (501 * n) (.timer true))).attempts = s.attempts + n ∧
      (run step s (replicate (501 * n) (.timer true))).Fruitless := by
  induction n with
  | zero => exact ⟨rfl, h⟩
  | succ n ih =>
    obtain ⟨hattempts, hround⟩ := ih
    rw [Nat.mul_succ, ← replicate_append_replicate, run_append]
    refine ⟨?_, hround.round.2⟩
    rw [hround.round.1, hattempts, Nat.add_assoc]

end

theorem left_lt {s : Silent} : s.left < 3012 := by
  have hrest : s.rest ≤ 501 := by
    rw [rest]
    split <;> omega
  rw [left, tcpRetries]
  omega

end Silent

/-- **A silent peer.**  In every run of `tcp_connect`, `tcp_send` and the timer on a
socket to which nothing comes, each segment of the timer starts at the first byte that
is not acknowledged and leaves `snd_nxt` alone exactly if the timer never gets a
segment out.  Where it does not, and `tcp_send` gets one out only before the first
attempt, there are never more than `TCP_RETRIES` attempts, and a socket that waits for
an acknowledgement is closed after a time of failing attempts. -/
theorem silent_peer (s : Socket) (hretries : s.retries ≤ tcpRetries) (ticks iss : BitVec 32)
    (ps : List Piece) (hps : ∀ p ∈ ps, p.Unanswered) :
    (Runs.Guarded Silent.step Silent.Resends (Silent.start s ticks iss) ps ↔
      Runs.Guarded Silent.step Silent.Fails (Silent.start s ticks iss) ps) ∧
    (Runs.Guarded Silent.step (fun s p => s.Fails p ∧ s.Fresh p) (Silent.start s ticks iss) ps →
      Runs.Always Silent.step (fun s => s.attempts ≤ tcpRetries ∧ (s.Waits → ∀ n, 3012 ≤ n →
          (Runs.run Silent.step s (List.replicate n (.timer false))).line.socket.state = .closed))
        (Silent.start s ticks iss) ps) := by
  constructor
  · exact guarded_congr (I := fun _ => True) (A := fun _ => True) (fun _ _ _ _ => trivial)
      (fun _ _ _ _ => resends_iff_fails) (fun _ _ => trivial) trivial
  · rintro hguard qs ⟨rs, rfl⟩
    have hqs := (guarded_append.mp hguard).1
    have hall : Runs.Guarded step (fun _ p => p.Unanswered) (start s ticks iss) qs :=
      guarded_of_forall (fun p hp => hps p (mem_append_left rs hp)) _
    have hcounted : (run step (start s ticks iss) qs).Counted :=
      Runs.Guarded.invariant (fun s p h hok => Silent.Counted.step h hok.2 hok.1.1 hok.1.2)
        (hqs.and hall) ⟨rfl, hretries⟩
    refine ⟨hcounted.attempts ▸ hcounted.le, fun hwaits n hn => ?_⟩
    exact hwaits.closed hcounted.le (Nat.lt_of_lt_of_le (left_lt) hn)

/-- A new socket after `tcp_connect`. -/
def dialled : Silent :=
  Runs.run Silent.step (Silent.start (Socket.fresh 2#32 1024#16) 0#32 0#32)
    [.connect 5000#32 1#32 80#16 true]

theorem dialled_waits : dialled.Waits := ⟨.inl (by decide +kernel), by decide +kernel⟩

theorem silent_peer_closed :
    (Runs.run Silent.step dialled (List.replicate 3012 (.timer false))).line.socket.state =
      .closed := by
  have hmain : dialled.attempts ≤ tcpRetries ∧ (dialled.Waits → ∀ n, 3012 ≤ n →
      (run step dialled (replicate n (.timer false))).line.socket.state =
        .closed) := by
    refine (silent_peer (Socket.fresh 2#32 1024#16) (Nat.zero_le _) 0#32 0#32
      [.connect 5000#32 1#32 80#16 true] (forall_mem_singleton.mpr trivial)).2
      ⟨⟨?_, trivial⟩, trivial⟩ _ prefix_rfl
    rintro ok ⟨⟩
  exact hmain.2 dialled_waits 3012 (Nat.le_refl _)

/-- A connection on which one byte was sent. -/
def waiting : Silent :=
  Silent.start (Runs.run (fun l p => (Piece.apply 0#32 p l).2) ⟨Socket.fresh 2#32 1024#16, []⟩
    [.connect 5000#32 1#32 80#16 true,
     .segment ⟨80#16, 1024#16, 100#32, 5001#32, flagSyn ||| flagAck, []⟩ true true,
     .send [7] true]).socket 0#32 5000#32

/-- The timer sends a second SYN under the next number; and on a connection that waits
for an acknowledgement it sends as often as one likes. -/
theorem syn_renumbered :
    ((Runs.run Silent.step dialled (List.replicate 500 (.timer true))).unacked = 5000#32 ∧
      ((Runs.run Silent.step dialled (List.replicate 501 (.timer true))).line.sent.map
        Segment.seq) = [5000#32, 5001#32]) ∧
    ∀ n, (Runs.run Silent.step waiting (List.replicate (501 * n) (.timer true))).attempts = n ∧
      (Runs.run Silent.step waiting (List.replicate (501 * n) (.timer true))).line.socket.state =
        .established := by
  refine ⟨⟨by decide +kernel, by decide +kernel⟩, fun n => ?_⟩
  have hstart : waiting.Fruitless := ⟨⟨.inr (by decide +kernel), by decide +kernel⟩,
    by decide +kernel, by decide +kernel, by decide +kernel⟩
  have hzero : waiting.attempts = 0 := by decide +kernel
  obtain ⟨hattempts, hround⟩ := hstart.rounds n
  exact ⟨by omega, hround.established⟩

end Utms7.Tcp
