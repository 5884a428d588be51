import Utms7.UnixInvariant

/-!
# Bytes between two sockets

The bytes that are in the buffer of a socket, those that have come out of it and
those that have gone into it are related by one law: what was there and what came in
is what came out and what is there.  The law fails where `unix_send` copies several
bytes in one round, since it stores all of them in one cell.

The second part is about the senders that wait for space.  They wait on the socket
that receives, but `unix_recv` wakes those that wait on its peer.
-/

namespace Utms7.Unix

variable {s : Socket}

open Function List Runs Socket Ring

/-! ## The ring of bytes -/

/-- The bytes that wait in the buffer. -/
def Socket.bytes (s : Socket) : List UInt8 := Ring.contents s.writeBuf s.writePos s.writeLen.toNat

/-- The chunk is in the buffer but for its first byte, and its last byte is the same
as its first. -/
def Socket.Holds (s : Socket) (chunk : List UInt8) : Prop :=
  chunk.head? = chunk.getLast? ∧
    chunk.tail = Ring.contents s.writeBuf (s.writePos + s.writeLen.toNat + 1) (chunk.length - 1)

instance (s : Socket) (chunk : List UInt8) : Decidable (s.Holds chunk) := instDecidableAnd

theorem foldl_update {n : Nat} (i : Fin n) (buf : Fin n → UInt8) (b : UInt8) (chunk : List UInt8) :
    (b :: chunk).foldl (fun buf b => update buf i b) buf =
      update buf i ((b :: chunk).getLast (cons_ne_nil b chunk)) := by
  induction chunk generalizing buf b with
  | nil => rfl
  | cons c chunk ih =>
    rw [foldl_cons, ih, update_idem, getLast_cons (cons_ne_nil c chunk)]

/-- **A round of `unix_send`** appends the chunk exactly if the buffer holds it
already, but for the first byte. -/
theorem Socket.bytes_copyIn (h : s.Sized) {chunk : List UInt8}
    (hfit : s.writeLen + chunk.length ≤ 4096) :
    (s.copyIn chunk).bytes = s.bytes ++ chunk ↔ s.Holds chunk := by
  obtain ⟨hlo, hhi⟩ := h
  cases chunk with
  | nil => simp [Socket.Holds, copyIn]
  | cons b chunk =>
    have hlen : (s.writeLen + (b :: chunk).length).toNat =
        s.writeLen.toNat + (chunk.length + 1) := by
      rw [length_cons]
      omega
    simp only [bytes, copyIn, hlen, foldl_update]
    rw [contents_add, contents_update (by omega) (Nat.le_refl _),
      append_cancel_left_eq, contents_succ, update_self,
      contents_congr s.writeBuf ?_]
    · simp only [Socket.Holds, head?_cons, getLast?_eq_some_getLast (cons_ne_nil b chunk),
        length_cons, List.cons.injEq, Option.some.injEq]
      exact and_congr eq_comm eq_comm
    · intro i hi
      refine update_of_ne ?_ _ _
      have hplace := (ofNat_inj (s.writePos + s.writeLen.toNat)
        (show 1 + i < 4096 by omega) (show 0 < 4096 by omega)).not.mpr (by omega)
      rwa [← Nat.add_assoc] at hplace

/-- What `unix_recv` copies out was at the front. -/
theorem Socket.bytes_copyOut (h : s.Sized) (n : Nat) :
    s.bytes = (s.copyOut n).1 ++ (s.copyOut n).2.bytes := by
  induction n generalizing s with
  | zero => rfl
  | succ n ih =>
    obtain ⟨hlo, hhi⟩ := h
    unfold copyOut
    split
    · rename_i hpos
      have hrest := ih (s := { s with writePos := (s.writePos + 1) % 4096,
                                      writeLen := s.writeLen - 1 })
        ⟨by simp only; omega, by simp only; omega⟩
      have hlen : s.writeLen.toNat = (s.writeLen - 1).toNat + 1 := by omega
      rw [cons_append, ← hrest]
      simp only [bytes]
      rw [hlen, contents_succ, contents_mod]
    · rfl

theorem Socket.Sized.toCopy_fits (h : s.Sized) {rest : List UInt8} :
    s.writeLen + (rest.take (s.toCopy rest)).length ≤ 4096 := by
  obtain ⟨hlo, hhi⟩ := h
  rw [length_take, toCopy]
  omega

/-! ## Histories -/

/-- The bytes that came out of the buffer of `y`. -/
def received (y : Slot) (history : List Event) : List UInt8 :=
  history.flatMap fun
    | .received x bytes => if x = y then bytes else []
    | _ => []

/-- The bytes that went from `x` into the buffer of `y`. -/
def sent (x y : Slot) (history : List Event) : List UInt8 :=
  history.flatMap fun
    | .sent x' y' bytes => if x' = x ∧ y' = y then bytes else []
    | _ => []

@[simp] theorem received_append (y : Slot) (h h' : List Event) :
    received y (h ++ h') = received y h ++ received y h' := flatMap_append

@[simp] theorem sent_append (x y : Slot) (h h' : List Event) :
    sent x y (h ++ h') = sent x y h ++ sent x y h' := flatMap_append

section

variable {P : Type} [DecidableEq P] {s : System P} {a : Action P} {x y : Slot} {r : Reply P}

/-- The condition on a step: what `unix_send` copies into the buffer of `y` comes
from `x`, and the buffer holds it already but for the first byte. -/
def System.Plain (x y : Slot) (s : System P) (a : Action P) : Prop :=
  ∀ e ∈ s.sending a, e.2.1 = y → e.2.2 ≠ [] → (s.table.sockets y).writeLen < 4096 →
    e.1 = x ∧ (s.table.sockets y).Holds (e.2.2.take ((s.table.sockets y).toCopy e.2.2))

instance (x y : Slot) (s : System P) (a : Action P) : Decidable (s.Plain x y a) :=
  Option.decidableForallMem _

section

variable (h : Sound s) (hy : s.table.Occupied y)
include h hy

/-- **Nothing is lost and nothing is made up.** -/
theorem Change.bytes (hplain : s.Plain x y a) (hr : Change s a r) :
    received y r.events ++ (r.table.sockets y).bytes =
      (s.table.sockets y).bytes ++ sent x y r.events := by
  have hnew : ∀ {i : Slot}, s.table.freeSlot = some i → y ≠ i := by
    rintro i hslot rfl
    exact hy (Table.freeSlot_free hslot)
  cases hr with
  | none | share | other => simp [received, sent]
  | leak _ slot | create _ slot => simp [received, sent, alloc_of_ne (hnew slot)]
  | bind | listen | drop =>
    simp only [returns_table, returns_events, received, sent, flatMap_nil, append_nil]
    exact modify_keeps bytes fun _ => rfl
  | lose _ _ slot =>
    simp only [returns_table, returns_events, received, sent, flatMap_nil, append_nil]
    refine Eq.trans (modify_keeps bytes ?_) ?_
    · exact fun _ => rfl
    exact Sound.accept_keeps bytes (fun _ => rfl) (fun _ _ => rfl) slot hy
  | accept _ _ slot =>
    simp only [received, sent, flatMap_singleton, append_nil]
    exact Sound.accept_keeps bytes (fun _ => rfl) (fun _ _ => rfl) slot hy
  | connect =>
    simp only [received, sent, flatMap_singleton, append_nil]
    exact modify_keeps bytes fun _ => rfl
  | @send a z peer rest _ enter bytes room =>
    by_cases hp : y = peer
    · subst hp
      obtain ⟨rfl, hholds⟩ := hplain (z, y, rest) enter rfl bytes room
      have hcopy := (bytes_copyIn (h.sized y) ((h.sized y).toCopy_fits)).mpr hholds
      simpa [received, sent] using hcopy
    · have hne : ¬ (z = x ∧ peer = y) := fun hboth => hp hboth.2.symm
      simp [received, sent, hne, modify_of_ne hp]
  | @recv a z len =>
    by_cases hz : y = z
    · subst hz
      have hcopy := bytes_copyOut (h.sized y) len.toNat
      simpa [received, sent] using hcopy.symm
    · simp [received, sent, Ne.symm hz, modify_of_ne hz]
  | @close p fd z =>
    have hquiet : received y (if (s.table.sockets z).closed then [] else [.closed z]) = [] ∧
        sent x y (if (s.table.sockets z).closed then [] else [.closed z]) = [] := by
      split <;> exact ⟨rfl, rfl⟩
    simp only [hquiet, append_nil]
    refine (unlink_keeps bytes (fun _ => rfl) _).trans ?_
    exact modify_keeps bytes fun _ => rfl

theorem step_bytes (hplain : s.Plain x y a) :
    received y (s.events a) ++ ((s.step a).table.sockets y).bytes =
      (s.table.sockets y).bytes ++ sent x y (s.events a) := by
  rcases step_cases h.sized a with ⟨hstep, hevents⟩ | ⟨r, -, hr, hstep, hevents⟩
  · rw [hstep, hevents]
    simp [received, sent]
  · rw [hstep, hevents]
    exact hr.bytes h hy hplain

/-- The law over a whole run. -/
theorem run_bytes {as : List (Action P)}
    (hplain : Runs.Guarded System.step (System.Plain x y) s as) :
    received y (s.history as) ++ ((run System.step s as).table.sockets y).bytes =
      (s.table.sockets y).bytes ++ sent x y (s.history as) := by
  induction as generalizing s with
  | nil => simp [System.history, received, sent]
  | cons a as ih =>
    obtain ⟨hfirst, hrest⟩ := hplain
    have hstep := step_bytes h hy hfirst
    have hrun := ih (h.step a) (h.occupied_step hy a) hrest
    rw [System.history, received_append, sent_append, run_cons, append_assoc, hrun,
      ← append_assoc, hstep, append_assoc]

end

/-- The two sockets are connected with each other. -/
structure Pair (t : Table P) (x y : Slot) : Prop where
  occupied : t.Occupied x ∧ t.Occupied y
  peers : (t.sockets x).peer = some y ∧ (t.sockets y).peer = some x
  connected : (t.sockets x).connected = true ∧ (t.sockets y).connected = true
  opened : (t.sockets x).closed = false ∧ (t.sockets y).closed = false

/-- **The stream from one end to the other.**  `write_len` stays in range in every
run, and if all rounds of `unix_send` meet the condition, what has come out of `y` is
the beginning of what `x` has sent. -/
theorem stream_received (before : List (Action P))
    (hpair : Pair (Runs.run System.step System.init before).table x y)
    (hempty : ((Runs.run System.step System.init before).table.sockets y).writeLen = 0)
    (as : List (Action P)) :
    (∀ z, 0 ≤ ((Runs.run System.step (Runs.run System.step System.init before) as).table.sockets
      z).writeLen ∧
      ((Runs.run System.step (Runs.run System.step System.init before) as).table.sockets
        z).writeLen ≤ 4096) ∧
    (Runs.Guarded System.step (System.Plain x y) (Runs.run System.step System.init before) as →
      received y ((Runs.run System.step System.init before).history as) <+:
        sent x y ((Runs.run System.step System.init before).history as)) := by
  have hsound := sound_reachable before
  generalize run System.step System.init before = s at hpair hempty hsound ⊢
  refine ⟨fun z => (hsound.run as).sized z, fun hplain => ?_⟩
  have hlaw := run_bytes hsound hpair.occupied.2 hplain
  have hnil : (s.table.sockets y).bytes = [] := by
    rw [bytes, hempty]
    rfl
  rw [hnil] at hlaw
  exact ⟨_, hlaw⟩

/-! ## Senders that wait for space -/

/-- A process is blocked inside `unix_send` for the buffer of `y`. -/
def System.WaitsForSpace (s : System P) (y : Slot) : Prop :=
  ∃ p x rest written, s.status p = .blocked (.sending x y rest written)

theorem Change.of_received (hr : Change s a r) {bytes : List UInt8}
    (hrecv : Event.received y bytes ∈ r.events) :
    (∃ value, r.outcome = .returned value) ∧ ∀ z ∈ r.wakes, (s.table.sockets y).peer = some z := by
  cases hr with
  | recv =>
    obtain ⟨rfl, -⟩ : y = _ ∧ bytes = _ := by simpa using hrecv
    refine ⟨⟨_, rfl⟩, fun z hz => ?_⟩
    simp only at hz
    split at hz
    · simpa using hz
    · cases hz
  | none | leak | bind | listen | drop | lose | share | other => cases hrecv
  | create | accept | connect | send => simp at hrecv
  | close =>
    simp only at hrecv
    split at hrecv
    · cases hrecv
    · simp at hrecv

/-- **`unix_recv` and the senders.**  A step that takes bytes out of a buffer leaves
nobody waiting for space there exactly if nobody was. -/
theorem recv_wakes_senders_iff (as : List (Action P)) {a : Action P} {y : Slot} {bytes : List UInt8}
    (hrecv : Event.received y bytes ∈ (Runs.run System.step System.init as).events a) :
    ¬ ((Runs.run System.step System.init as).step a).WaitsForSpace y ↔
      ¬ (Runs.run System.step System.init as).WaitsForSpace y := by
  have hsound := sound_reachable as
  generalize run System.step System.init as = s at hrecv hsound ⊢
  rcases step_cases hsound.sized a with ⟨-, hevents⟩ | ⟨r, hreply, hr, hstep, hevents⟩
  · rw [hevents] at hrecv
    cases hrecv
  rw [hevents] at hrecv
  obtain ⟨⟨value, hout⟩, hwakes⟩ := hr.of_received hrecv
  have hself : y ∉ r.wakes := fun hmem => ((hsound.good y).peer y (hwakes y hmem)).2 rfl
  rw [hstep, not_iff_not]
  constructor
  · rintro ⟨p, x, rest, written, hp⟩
    refine ⟨p, x, rest, written, ?_⟩
    by_cases hactor : p = a.actor
    · subst hactor
      simp only [System.after, update_self, hout] at hp
      cases hp
    simp only [System.after, update_of_ne hactor] at hp
    cases hst : s.status p with
    | blocked call =>
      rw [hst, Status.wake] at hp
      split at hp
      · cases hp
      · exact hp
    | user | ready =>
      rw [hst] at hp
      cases hp
  · rintro ⟨p, x, rest, written, hp⟩
    refine ⟨p, x, rest, written, ?_⟩
    have hactor : p ≠ a.actor := by
      rintro rfl
      exact reply_actor hreply _ hp
    simp only [System.after, update_of_ne hactor, hp, Status.wake]
    exact if_neg hself

end

/-! ## Two processes -/

/-- The server listens at a path, the client connects to it, and the server accepts:
slots 1 and 2 are connected. -/
def connecting : List (Action Bool) :=
  [.create false, .bind false 0 [65], .listen false 0, .create true, .connect true 0 [65],
    .accept false 0, .resume true]

theorem connecting_pair : Pair (run System.step System.init connecting).table 1 2 :=
  ⟨by decide +kernel, by decide +kernel, by decide +kernel, by decide +kernel⟩

theorem stream_received_byte : Pair (Runs.run System.step System.init connecting).table 1 2 ∧
    received 2 ((Runs.run System.step System.init connecting).history
      [.send true 0 [7], .recv false 1 5]) <+:
      sent 1 2 ((Runs.run System.step System.init connecting).history
        [.send true 0 [7], .recv false 1 5]) :=
  ⟨connecting_pair, (stream_received connecting connecting_pair (by decide +kernel) _).2
    ⟨by decide +kernel, by decide +kernel, trivial⟩⟩

/-- Two bytes in one call: the second one is stored over the first. -/
theorem two_bytes_not_received : Pair (Runs.run System.step System.init connecting).table 1 2 ∧
    ((Runs.run System.step System.init connecting).table.sockets 2).writeLen = 0 ∧
    ¬ (received 2 ((Runs.run System.step System.init connecting).history
        [.send true 0 [1, 2], .recv false 1 2]) <+:
      sent 1 2 ((Runs.run System.step System.init connecting).history
        [.send true 0 [1, 2], .recv false 1 2])) :=
  ⟨connecting_pair, by decide +kernel, by decide +kernel⟩

/-- The bytes of one call more than the buffer has room for. -/
def flood : Action Bool := .send true 0 (List.replicate 4097 7)

/-- The sender has filled the buffer and waits; a byte is taken out, and it still does. -/
theorem sender_not_woken : Event.received 2 [7] ∈
      (Runs.run System.step System.init (connecting ++ [flood])).events (.recv false 1 1) ∧
    ((Runs.run System.step System.init (connecting ++ [flood])).step
      (.recv false 1 1)).WaitsForSpace 2 :=
  ⟨by decide +kernel, true, 1, [7], 4096, by decide +kernel⟩

theorem recv_wakes_senders_iff_idle :
    ¬ ((Runs.run System.step System.init (connecting ++ [.send true 0 [7]])).step
      (.recv false 1 1)).WaitsForSpace 2 := by
  have hrecv : Event.received 2 [7] ∈ (run System.step System.init
      (connecting ++ [.send true 0 [7]])).events (.recv false 1 1) := by decide +kernel
  refine (recv_wakes_senders_iff _ hrecv).mpr ?_
  rintro ⟨p, x, rest, written, hp⟩
  have hidle : ∀ p, (run System.step System.init (connecting ++ [.send true 0 [7]])).status p =
      .user := by decide +kernel
  rw [hidle p] at hp
  cases hp

end Utms7.Unix
