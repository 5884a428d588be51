import Utms7.TcpTable

/-!
# Connections and their ends

Two sockets of one connection can come from `tcp_connect` only: a port that
`tcp_socket` counts up to may have been taken by `tcp_bind` before, and `tcp_connect`
does not ask whether the connection exists.  All other actions keep connections apart.
-/

namespace Utms7.Tcp

open Function Table

/-- The socket has a remote end: an address, or a connection in some state. -/
def Socket.Remote (s : Socket) : Prop :=
  (s.remoteIp ≠ 0#32 ∨ s.remotePort ≠ 0#16) ∨ (s.state ≠ .closed ∧ s.state ≠ .listen)

instance (s : Socket) : Decidable s.Remote := instDecidableOr

/-- The socket is in use and has a remote end. -/
def Socket.Live (s : Socket) : Prop := s.used = true ∧ s.Remote

instance (s : Socket) : Decidable s.Live := instDecidableAnd

/-- No two sockets share a connection. -/
def Apart (f : Slot → Socket) : Prop :=
  ∀ x y, (f x).Live → (f y).Live → (f x).ends = (f y).ends → x = y

instance (f : Slot → Socket) : Decidable (Apart f) := Nat.decidableForallFin _

/-- `tcp_connect` does not give a socket the ends of another one. -/
def Table.Unshared (t : Table) (a : Action) : Prop :=
  ∀ fd ip port ok x, a = .connect fd ip port ok → tcpFindSocket t fd = some x →
    (t.sockets x).state = .closed → ∀ y, y ≠ x → (t.sockets y).Live →
      (t.sockets y).ends ≠ ⟨(t.sockets x).localIp, (t.sockets x).localPort, ip, port⟩

/-! ## What a socket keeps -/

/-- The socket is what it was, and is no more alive than before. -/
structure Socket.Calm (s s' : Socket) : Prop where
  live : s'.Live → s.Live
  ends : s'.ends = s.ends

open Socket

variable {s : Socket} {ok ok1 ok2 : Bool} {ticks : BitVec 32}

section

variable {l : Line}

theorem Socket.Calm.refl (s : Socket) : s.Calm s := ⟨id, rfl⟩

theorem Socket.Calm.of_eq {s' : Socket} (hused : s'.used = s.used) (hends : s'.ends = s.ends)
    (hstate : s'.state ≠ .closed → s'.state ≠ .listen → s.state ≠ .closed ∧ s.state ≠ .listen) :
    s.Calm s' := by
  refine ⟨?_, hends⟩
  rintro ⟨hlive, hremote⟩
  refine ⟨hused ▸ hlive, ?_⟩
  simp only [Socket.ends, Ends.mk.injEq] at hends
  rcases hremote with haddress | ⟨hclosed, hlisten⟩
  · rw [hends.2.2.1, hends.2.2.2] at haddress
    exact .inl haddress
  · exact .inr (hstate hclosed hlisten)

theorem Socket.Calm.handle (l : Line) {seg : Segment} :
    l.socket.Calm (l.handle ok1 ok2 ticks seg).socket := by
  obtain ⟨late, hstate⟩ := handle_state ok1 ok2 ticks seg l
  refine .of_eq ?_ ?_ ?_
  · exact handle_keeps Socket.used (fun _ _ _ _ _ => rfl) fun _ _ _ _ _ _ _ => rfl
  · exact handle_keeps Socket.ends (fun _ _ _ _ _ => rfl) fun _ _ _ _ _ _ _ => rfl
  · rw [hstate]
    cases l.socket.state <;> simp [State.next]

theorem Socket.Calm.onTimer : s.Calm (s.onTimer ok ticks) := by
  unfold Socket.onTimer
  split
  · refine .of_eq ?_ ?_ ?_
    · exact onTimer_keeps Socket.used fun _ _ _ _ _ => rfl
    · exact onTimer_keeps Socket.ends fun _ _ _ _ _ => rfl
    · intro hclosed hlisten
      rcases onTimer_state (l := ⟨s, []⟩) with hsame | hgone
      · rw [hsame] at hclosed hlisten
        exact ⟨hclosed, hlisten⟩
      · exact (hclosed hgone).elim
  · exact .refl s

theorem Socket.Calm.sendChunk {data : List UInt8} :
    l.socket.Calm (l.sendChunk ok ticks data).socket := by
  unfold Line.sendChunk
  split
  · exact .refl _
  · refine .of_eq ?_ ?_ ?_
    · exact sendPacket_keeps Socket.used fun _ _ _ _ => rfl
    · exact sendPacket_keeps Socket.ends fun _ _ _ _ => rfl
    · rw [sendPacket_state]
      exact And.intro

theorem Socket.Calm.apply (l : Line) {p : Piece} (hp : p.Plain) :
    l.socket.Calm (p.apply ticks l).2.socket := by
  cases p with
  | listen =>
    simp only [Piece.apply, tcpListen]
    split
    · exact .of_eq rfl rfl fun _ h => (h rfl).elim
    · exact .refl _
  | send data ok =>
    simp only [Piece.apply, tcpSend]
    split
    · exact .sendChunk
    · exact .refl _
  | sendAgain data ok => exact .sendChunk
  | recv len ok =>
    refine .of_eq ?_ ?_ ?_
    · exact recv_keeps Socket.used (fun _ _ _ _ => rfl) fun _ _ _ _ => rfl
    · exact recv_keeps Socket.ends (fun _ _ _ _ => rfl) fun _ _ _ _ => rfl
    · rw [show (Piece.apply ticks (.recv len ok) l).2.socket.state = l.socket.state from
        recv_keeps Socket.state (fun _ _ _ _ => rfl) fun _ _ _ _ => rfl]
      exact And.intro
  | recvAgain len expired ok =>
    refine .of_eq ?_ ?_ ?_
    · exact recvWait_keeps Socket.used (fun _ _ _ _ => rfl) fun _ _ _ _ => rfl
    · exact recvWait_keeps Socket.ends (fun _ _ _ _ => rfl) fun _ _ _ _ => rfl
    · rw [show (Piece.apply ticks (.recvAgain len expired ok) l).2.socket.state =
          l.socket.state from
        recvWait_keeps Socket.state (fun _ _ _ _ => rfl) fun _ _ _ _ => rfl]
      exact And.intro
  | close ok =>
    simp only [Piece.apply, tcpClose]
    split
    · rename_i hest
      refine .of_eq ?_ ?_ ?_
      · exact sendPacket_keeps Socket.used fun _ _ _ _ => rfl
      · exact sendPacket_keeps Socket.ends fun _ _ _ _ => rfl
      · simp [hest]
    · exact ⟨fun h => Bool.noConfusion h.1, rfl⟩
  | closeEnd => exact ⟨fun h => Bool.noConfusion h.1, rfl⟩
  | _ => exact hp.elim

end

/-! ## One action -/

section

variable {t : Table} {a : Action} {x : Slot}
  {f g : Slot → Socket} {address : Slot → BitVec 32} {port : BitVec 16} {ip addr : BitVec 32}
  {l : Line}

theorem Apart.calm (h : Apart f) (hcalm : ∀ x, (f x).Calm (g x)) : Apart g := by
  intro x y hx hy hends
  refine h x y ((hcalm x).live hx) ((hcalm y).live hy) ?_
  rw [← (hcalm x).ends, ← (hcalm y).ends, hends]

theorem Apart.update_calm (h : Apart f) (hcalm : (f x).Calm s) : Apart (update f x s) := by
  refine h.calm fun y => ?_
  by_cases hy : y = x
  · subst hy
    rw [update_self]
    exact hcalm
  · rw [update_of_ne hy]
    exact .refl _

/-- A socket with new ends is apart from the others exactly if none of them has these. -/
theorem Apart.update_iff (h : Apart f) (hlive : s.Live) : Apart (update f x s) ↔
      ∀ y, y ≠ x → (f y).Live → (f y).ends ≠ s.ends := by
  constructor
  · intro happart y hy hliveY hends
    refine hy (happart y x ?_ ?_ ?_)
    · rwa [update_of_ne hy]
    · rwa [update_self]
    · rwa [update_of_ne hy, update_self]
  · intro hnone y z hy hz hends
    by_cases hyx : y = x <;> by_cases hzx : z = x
    · rw [hyx, hzx]
    · subst hyx
      rw [update_of_ne hzx] at hz hends
      rw [update_self] at hends
      exact (hnone z hzx hz hends.symm).elim
    · subst hzx
      rw [update_of_ne hyx] at hy hends
      rw [update_self] at hends
      exact (hnone y hyx hy hends).elim
    · rw [update_of_ne hyx] at hy hends
      rw [update_of_ne hzx] at hz hends
      exact h y z hy hz hends

/-- A socket without a remote end is in nobody's way. -/
theorem Apart.update_dead (h : Apart f) (hdead : ¬ s.Live) : Apart (update f x s) := by
  have hne : ∀ y, (update f x s y).Live → y ≠ x := by
    rintro y hy rfl
    rw [update_self] at hy
    exact hdead hy
  intro y z hy hz hends
  have hyx := hne y hy
  have hzx := hne z hz
  rw [update_of_ne hyx] at hy hends
  rw [update_of_ne hzx] at hz hends
  exact h y z hy hz hends

/-- A socket that goes over to a free place. -/
theorem Apart.accept (h : Apart t.sockets) {i j : Slot} (hpending : t.pending port = some i)
    (hslot : t.freeSlot = some j) : Apart (update (update t.sockets j (t.handedOn i ip)) i
      (t.sockets i).released) := by
  obtain ⟨hused, hstate, -⟩ := pending_some hpending
  have hij : i ≠ j := by
    rintro rfl
    rw [freeSlot_some hslot] at hused
    cases hused
  have hlive : (t.sockets i).Live := ⟨hused, .inr (by simp [hstate])⟩
  rw [update_comm (Ne.symm hij)]
  have hgone : Apart (update t.sockets i (t.sockets i).released) :=
    h.update_dead fun hlive => Bool.noConfusion hlive.1
  refine (hgone.update_iff ?_).mpr ?_
  · exact ⟨rfl, .inr (by simp [handedOn, adopt])⟩
  · intro y hy hliveY hends
    by_cases hyi : y = i
    · rw [hyi, update_self] at hliveY
      exact Bool.noConfusion hliveY.1
    · rw [update_of_ne hyi] at hliveY hends
      exact hyi (h y i hliveY hlive hends)

theorem connect_ends (h : l.socket.state = .closed) :
    (tcpConnect ok ticks addr ip port l).socket.ends =
      ⟨l.socket.localIp, l.socket.localPort, ip, port⟩ := by
  unfold tcpConnect
  rw [if_pos h, sendPacket_keeps ends fun _ _ _ _ => rfl]
  rfl

theorem connect_live (h : l.socket.state = .closed) (hused : l.socket.used = true) :
    (tcpConnect ok ticks addr ip port l).socket.Live := by
  unfold tcpConnect
  rw [if_pos h]
  refine ⟨?_, .inr ?_⟩
  · rw [sendPacket_keeps used fun _ _ _ _ => rfl]
    exact hused
  · simp [sendPacket_state]

section

variable (h : Apart t.sockets)
include h

theorem Apart.packet {pkt : List UInt8} {src dst : BitVec 32} {e : Option Ends}
    (hcase : PacketCase t address pkt src dst ok1 ok2 f e) : Apart f := by
  cases hcase with
  | ignored => exact h
  | segment parse found => exact h.update_calm (.handle ⟨_, _⟩)
  | begun parse none syn listener slot =>
    -- the SYN belongs to no socket that is in use
    refine (h.update_iff ?_).mpr fun y _ hlive hends => findConnection_none none hlive.1 ?_
    · refine ⟨sendPacket_keeps used fun _ _ _ _ => rfl, .inr ?_⟩
      simp [begun, embryo]
    · rw [hends]
      exact sendPacket_keeps ends fun _ _ _ _ => rfl

theorem Apart.step (ha : ∀ fd ip port ok, a ≠ .connect fd ip port ok) :
    Apart (t.step address a).sockets := by
  have hchange := step_change address t a
  generalize (t.step address a).sockets = f at hchange
  cases hchange with
  | none => exact h
  | piece plain => exact h.update_calm (.apply ⟨_, _⟩ plain)
  | @bind _ x port closed free =>
    by_cases hlive : Socket.Live { t.sockets x with localPort := port }
    · refine (h.update_iff hlive).mpr fun y hy hliveY hends => free y hy hliveY.1 ?_
      exact congrArg Ends.localPort hends
    · exact h.update_dead hlive
  | connect => exact (ha _ _ _ _ rfl).elim
  | create slot =>
    refine h.update_dead ?_
    rintro ⟨-, hremote⟩
    simp [Socket.Remote, fresh, zero] at hremote
  | refuse slot => exact h.update_dead fun hlive => Bool.noConfusion hlive.1
  | packet case => exact h.packet case
  | accept pending slot => exact h.accept pending slot
  | timer => exact h.calm fun _ => .onTimer

theorem Apart.connect_iff {fd : Int} : Apart (t.step address (.connect fd ip port ok)).sockets ↔
      t.Unshared (.connect fd ip port ok) := by
  simp only [Table.step]
  cases hfound : tcpFindSocket t fd with
  | none =>
    refine iff_of_true h ?_
    rintro _ _ _ _ x ⟨⟩ hx
    rw [hfound] at hx
    cases hx
  | some x =>
    by_cases hclosed : (t.sockets x).state = .closed
    · have hused := (findSocket_some.mp hfound).2
      refine (h.update_iff (connect_live hclosed hused)).trans ?_
      rw [connect_ends hclosed]
      constructor
      · rintro hnone _ _ _ _ x' ⟨⟩ hx'
        obtain rfl : x = x' := Option.some.inj (hfound.symm.trans hx')
        exact fun _ => hnone
      · exact fun hunshared => hunshared _ _ _ _ x rfl hfound hclosed
    · have hsame : t.on x (tcpConnect ok t.ticks (address x) ip port) = t := by
        simp [Table.on, tcpConnect, hclosed]
      simp only [hsame]
      refine iff_of_true h ?_
      rintro _ _ _ _ x' ⟨⟩ hx' hclosed'
      obtain rfl : x = x' := Option.some.inj (hfound.symm.trans hx')
      exact (hclosed hclosed').elim

/-- **One action** keeps the connections apart exactly if it is not a `tcp_connect` to
the ends of another socket. -/
theorem Apart.step_iff : Apart (t.step address a).sockets ↔ t.Unshared a := by
  by_cases ha : ∃ fd ip port ok, a = .connect fd ip port ok
  · obtain ⟨fd, ip, port, ok, rfl⟩ := ha
    exact h.connect_iff
  · have hne : ∀ fd ip port ok, a ≠ .connect fd ip port ok :=
      fun fd ip port ok heq => ha ⟨fd, ip, port, ok, heq⟩
    exact iff_of_true (h.step hne) fun fd ip port ok _ heq => (hne fd ip port ok heq).elim

theorem Apart.findConnection (hused : (t.sockets x).used = true)
    (hremote : (t.sockets x).remoteIp ≠ 0#32 ∨ (t.sockets x).remotePort ≠ 0#16) :
    tcpFindConnection t (t.sockets x).localIp (t.sockets x).localPort (t.sockets x).remoteIp
      (t.sockets x).remotePort = some x := by
  cases hfind : tcpFindConnection t (t.sockets x).localIp (t.sockets x).localPort
      (t.sockets x).remoteIp (t.sockets x).remotePort with
  | none =>
    have hnone := find_none.mp hfind x
    simp [hused] at hnone
  | some y =>
    have hy := find_some hfind
    simp only [Bool.and_eq_true, beq_iff_eq] at hy
    obtain ⟨⟨⟨⟨husedY, hip⟩, hport⟩, hrip⟩, hrport⟩ := hy
    have hremoteY : (t.sockets y).Remote := .inl (by rwa [hrip, hrport])
    have hends : (t.sockets y).ends = (t.sockets x).ends := by
      simp [ends, hip, hport, hrip, hrport]
    rw [h y x ⟨husedY, hremoteY⟩ ⟨hused, .inl hremote⟩ hends]

end

end

/-! ## Whole runs -/

theorem Apart.init : Apart init.sockets := by
  rintro x y ⟨hused, -⟩
  cases hused

/-- **Connections have one socket.**  In every run from `tcp_init` no two sockets with
a remote end share a connection exactly if no `tcp_connect` of the run is to the ends
of another socket; and then `tcp_find_connection` finds the socket of a connection. -/
theorem connections_apart (address : Slot → BitVec 32) (as : List Action) :
    (Runs.Always (Table.step address) (fun t => Apart t.sockets) Table.init as ↔
      Runs.Guarded (Table.step address) Table.Unshared Table.init as) ∧
    (Runs.Guarded (Table.step address) Table.Unshared Table.init as →
      Runs.Always (Table.step address) (fun t => ∀ x, (t.sockets x).used = true →
        (t.sockets x).remoteIp ≠ 0#32 ∨ (t.sockets x).remotePort ≠ 0#16 →
        tcpFindConnection t (t.sockets x).localIp (t.sockets x).localPort
          (t.sockets x).remoteIp (t.sockets x).remotePort = some x) Table.init as) := by
  have hiff : Runs.Always (step address) (fun t => Apart t.sockets) init as ↔
      Runs.Guarded (step address) Table.Unshared init as :=
    Runs.always_iff_guarded (I := fun _ => True) (A := fun _ => True) (fun _ _ _ _ => trivial)
      (fun _ _ _ _ h => h.step_iff) (fun _ _ => trivial) trivial Apart.init
  exact ⟨hiff, fun h bs hbs x hused hremote => (hiff.mpr h bs hbs).findConnection hused hremote⟩

theorem connections_apart_one : Apart (Runs.run (Table.step fun _ => 5000#32) Table.init
      [.socket true 2#32, .connect 0 1#32 80#16 true]).sockets := by
  have hsocket : Apart (init.step (fun _ => 5000#32) (.socket true 2#32)).sockets := by
    decide +kernel
  have hconnect : Apart ((init.step (fun _ => 5000#32) (.socket true 2#32)).step
      (fun _ => 5000#32) (.connect 0 1#32 80#16 true)).sockets := by
    decide +kernel
  exact (connections_apart (fun _ => 5000#32) [.socket true 2#32, .connect 0 1#32 80#16 true]).1.mpr
    ⟨Apart.init.step_iff.mp hsocket, hsocket.step_iff.mp hconnect, trivial⟩ _ List.prefix_rfl

/-- A socket on the port that is the next one to be given out, and a socket that gets
this port; both connect to the same peer. -/
def twins : List Action :=
  [.socket true 2#32, .bind 0 1025#16, .socket true 2#32,
   .connect 0 1#32 80#16 true, .connect 1 1#32 80#16 true]

/-- `tcp_socket` counts up to a port that `tcp_bind` has given out before. -/
theorem twins_not_apart :
    ¬ Apart (Runs.run (Table.step fun _ => 5000#32) Table.init twins).sockets := by
  decide +kernel

end Utms7.Tcp
