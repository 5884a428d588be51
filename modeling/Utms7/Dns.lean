import Utms7.NetReceive

/-!
# DNS lookups

`net/dns.c` over the sockets of `net/udp.c`.  `dns_lookup` sends its query from port
12345 to port 53 and polls `udp_recv`, which knows no ports.  Which sends succeed and
which datagrams are handled before each poll is decided from outside.
-/

namespace Utms7.Net

open ByteMemory Function List BitVec

/-- The characters of a string, without the NUL behind them. -/
abbrev Text := List (BitVec 8)

/-! ## Addresses in text -/

def isSpace (c : BitVec 8) : Bool := c == 32#8 || (9#8 ≤ c && c ≤ 13#8)

def isDigit (c : BitVec 8) : Bool := 48#8 ≤ c && c ≤ 57#8

/-- The number that digits stand for. -/
def decimal (digits : Text) : BitVec 32 :=
  digits.foldl (fun v d => v * 10#32 + (d - 48#8).setWidth 32) 0#32

/-- `%d` of `sscanf`, and what is left of the text. -/
def scanNumber (text : Text) : Option (BitVec 32 × Text) :=
  match text.dropWhile isSpace with
  | [] => none
  | c :: rest =>
    let body := if c = 45#8 ∨ c = 43#8 then rest else c :: rest
    let digits := body.takeWhile isDigit
    if digits = [] then none
    else some (if c = 45#8 then -decimal digits else decimal digits, body.dropWhile isDigit)

/-- The numbers that `sscanf` stores for `n` times `%d` with dots between them. -/
def scanDotted : Nat → Text → List (BitVec 32)
  | 0, _ => []
  | n + 1, text =>
    match scanNumber text with
    | none => []
    | some (v, 46#8 :: rest) => v :: scanDotted n rest
    | some (v, _) => [v]

/-- `(a << 24) | (b << 16) | (c << 8) | d`. -/
def joinOctets (a b c d : BitVec 32) : BitVec 32 := a <<< 24 ||| b <<< 16 ||| c <<< 8 ||| d

/-- The address of a name that is a dotted literal. -/
def dottedLiteral (hostname : Text) : Option (BitVec 32) :=
  match scanDotted 4 hostname with
  | [a, b, c, d] => some (joinOctets a b c d)
  | _ => none

/-! ## Queries and responses -/

/-- The loop of `dns_build_query` over the labels. -/
def encodeLabels : Nat → Text → Text
  | 0, _ => []
  | _, [] => []
  | fuel + 1, label =>
    let name := label.takeWhile (· ≠ 46#8)
    BitVec.ofNat 8 name.length :: name ++ encodeLabels fuel ((label.drop name.length).drop 1)

/-- `htons`, as bytes in memory. -/
def storeU16 (x : BitVec 16) : Text := [(x >>> 8).setWidth 8, x.setWidth 8]

/-- `dns_build_query` into a buffer of 512 bytes. -/
def dnsBuildQuery (hostname : Text) (id : BitVec 16) : Option Text :=
  if 512 < 12 + hostname.length + 2 + 4 then none
  else
    some (storeU16 id ++ storeU16 0x0100#16 ++ storeU16 1#16 ++ [0#8, 0#8, 0#8, 0#8, 0#8, 0#8] ++
      encodeLabels hostname.length hostname ++ [0#8] ++ storeU16 1#16 ++ storeU16 1#16)

/-- The name of the question, from `p` on. -/
def skipQuestion (buf : Bytes) (stop : Nat) : Nat → Nat → Nat
  | 0, p => p
  | fuel + 1, p =>
    if stop ≤ p then p
    else if buf p &&& 0xC0#8 ≠ 0#8 then p + 2
    else if buf p = 0#8 then p + 1
    else skipQuestion buf stop fuel (p + (buf p).toNat + 1)

/-- The name of an answer that is not compressed. -/
def skipName (buf : Bytes) (stop : Nat) : Nat → Nat → Nat
  | 0, p => p
  | fuel + 1, p =>
    if p < stop ∧ buf p ≠ 0#8 then skipName buf stop fuel (p + (buf p).toNat + 1) else p

/-- The loop over the answers; the result is where the address stands. -/
def findAnswer (buf : Bytes) (stop : Nat) : Nat → Nat → Option Nat
  | 0, _ => none
  | count + 1, p =>
    if stop ≤ p then none
    else
      let p := if buf p &&& 0xC0#8 ≠ 0#8 then p + 2 else skipName buf stop stop p + 1
      if stop < p + 10 then none
      else if ntohs (getU16 buf p) = 1#16 ∧ ntohs (getU16 buf (p + 2)) = 1#16 ∧
          ntohs (getU16 buf (p + 8)) = 4#16 then some (p + 10)
      else findAnswer buf stop count (p + 10 + (ntohs (getU16 buf (p + 8))).toNat)

/-- Where the address stands in a response of `len` bytes. -/
def findAddress (buf : Bytes) (len : Nat) : Option Nat :=
  findAnswer buf len (ntohs (getU16 buf 6)).toNat (skipQuestion buf len len 12 + 4)

def dnsParseResponse (buf : Bytes) (len : Nat) : Option (BitVec 32) :=
  (findAddress buf len).map (getU32 buf)

/-! ## The lookup -/

/-- A call of `udp_handle_packet`. -/
structure Packet where
  bytes : Bytes
  len : Int
  memory : Bool

def deliver (u : UdpTable) (p : Packet) : UdpTable :=
  (udpHandlePacket p.memory p.bytes 0 p.len u).2

/-- `udp_recv`. -/
def udpRecv (len : Nat) (u : UdpTable) : Text × UdpTable :=
  match (List.finRange 16).find? fun i => (u i).used && !(u i).data.isEmpty with
  | none => ([], u)
  | some i => ((u i).data.take len, update u i { u i with data := [] })

/-- A text over the beginning of a buffer. -/
def overlay (text : Text) (buf : Bytes) : Bytes := fun i => text.getD i (buf i)

/-- Where a lookup is: the polls so far, `response` and the sockets. -/
structure Waiting where
  polls : Nat
  response : Bytes
  socks : UdpTable

/-- What happens from outside: the sends that succeed, and the packets that are handled
before each poll. -/
structure World where
  sent : Nat → Bool
  arrivals : Nat → List Packet

/-- The loop over `waited`. -/
def pollLoop (w : World) : Nat → Waiting → Option (BitVec 32) × Waiting
  | 0, s => (none, s)
  | left + 1, s =>
    let r := udpRecv 512 ((w.arrivals s.polls).foldl deliver s.socks)
    let s' : Waiting := ⟨s.polls + 1, overlay r.1 s.response, r.2⟩
    if r.1 = [] then pollLoop w left s'
    else
      match dnsParseResponse s'.response r.1.length with
      | some ip => (some ip, s')
      | none => pollLoop w left s'

/-- The attempts from number `j` on. -/
def attemptLoop (w : World) : Nat → Nat → Waiting → BitVec 32
  | 0, _, _ => 0#32
  | left + 1, j, s =>
    if w.sent j then
      match pollLoop w 2000 s with
      | (some ip, _) => ip
      | (none, s') => attemptLoop w left (j + 1) s'
    else attemptLoop w left (j + 1) s

def dnsServers (server : BitVec 32) : List (BitVec 32) :=
  (if server ≠ 0#32 then [server] else []) ++ [0x08080808#32, 0x01010101#32, 0x09090909#32]

/-- `dns_lookup`, where `dns_id` is `id`; each server is asked twice. -/
def dnsLookup (w : World) (hostname : Text) (server : BitVec 32) (id : BitVec 16) (response : Bytes)
    (socks : UdpTable) : BitVec 32 :=
  match dottedLiteral hostname with
  | some ip => ip
  | none =>
    match dnsBuildQuery hostname id with
    | none => 0#32
    | some _ => attemptLoop w (2 * (dnsServers server).length) 0 ⟨0, response, socks⟩

/-! ## Whose reply it takes -/

/-- `length` of the UDP header. -/
def Packet.length (p : Packet) : Nat := (ntohs (getU16 p.bytes 4)).toNat

/-- `dst_port` of the UDP header. -/
def Packet.target (p : Packet) : BitVec 16 := ntohs (getU16 p.bytes 2)

/-- What stands behind the UDP header. -/
def Packet.payload (p : Packet) : Text := (List.range (p.length - 8)).map fun k => p.bytes (8 + k)

/-- The packet is a well-formed reply from a server to the query with the given id, and
the address is read from it, whatever the buffer held before. -/
structure OwnReply (id : BitVec 16) (p : Packet) (address : BitVec 32) : Prop where
  target : p.target = 12345#16
  source : ntohs (getU16 p.bytes 0) = 53#16
  query : ntohs (getU16 p.bytes 8) = id
  whole : 20 ≤ p.length ∧ p.length ≤ p.len
  answer : ∀ response, dnsParseResponse (overlay p.payload response) p.payload.length = some address

variable {id : BitVec 16} {hostname : Text} {server : BitVec 32} {w : World}
  {response : Bytes} {socks u : UdpTable} {sent : Nat → Bool} {p : Packet} {a : BitVec 32}
  {P : Text → Prop}

/-- The sockets have the ports that they had, and what waits in them is as `P` says. -/
structure Stage (socks : UdpTable) (P : Text → Prop) (u : UdpTable) : Prop where
  ports : ∀ port, udpFind u port = udpFind socks port
  data : ∀ i, (u i).used = true → (u i).data = [] ∨ P ((u i).data.take 512)

theorem udpFind_update {i : Fin 16} {s : UdpSocket} (hused : s.used = (u i).used)
    (hport : s.port = (u i).port) (port : BitVec 16) :
    udpFind (update u i s) port = udpFind u port := by
  unfold udpFind
  congr 1
  funext j
  by_cases hj : j = i
  · rw [hj, update_self, hused, hport]
  · rw [update_of_ne hj]

/-- The data of a socket is replaced. -/
theorem Stage.update (h : Stage socks P u) {i : Fin 16} {data : Text} {cap : Nat}
    (hdata : data = [] ∨ P (data.take 512)) :
    Stage socks P (Function.update u i { u i with data := data, cap := cap }) := by
  refine ⟨fun port => by rw [udpFind_update, h.ports] <;> rfl, fun j hj => ?_⟩
  by_cases hji : j = i
  · rw [hji, update_self]
    exact hdata
  · rw [update_of_ne hji] at hj ⊢
    exact h.data j hj

theorem deliver_eq (u : UdpTable) (p : Packet) : deliver u p = u ∨ ∃ i cap,
    udpFind u p.target = some i ∧
      deliver u p = update u i { u i with data := p.payload, cap := cap } := by
  unfold deliver udpHandlePacket
  dsimp only
  split_ifs
  · exact .inl rfl
  · exact .inl rfl
  split
  · exact .inl rfl
  · next i hfind =>
    split_ifs
    · exact .inl rfl
    · refine .inr ⟨i, max (u i).cap (p.length - 8), hfind, ?_⟩
      simp only [Packet.payload, Packet.length, Nat.zero_add]

theorem Stage.deliver (h : Stage socks P u)
    (hp : (udpFind socks p.target).isSome → P (p.payload.take 512)) :
    Stage socks P (deliver u p) := by
  rcases deliver_eq u p with heq | ⟨i, cap, hfind, heq⟩
  · rwa [heq]
  · rw [heq]
    exact h.update (.inr (hp (by rw [← h.ports, hfind]; rfl)))

theorem Stage.recv (h : Stage socks P u) :
    ((udpRecv 512 u).1 = [] ∨ P (udpRecv 512 u).1) ∧ Stage socks P (udpRecv 512 u).2 := by
  unfold udpRecv
  split
  · exact ⟨.inl rfl, h⟩
  · next i hfind =>
    have hused := find?_some hfind
    simp only [Bool.and_eq_true] at hused
    refine ⟨?_, h.update (.inl rfl)⟩
    rcases h.data i hused.1 with hnil | hdata
    · exact .inl (by rw [hnil, take_nil])
    · exact .inr hdata

section Loops

variable {s : Waiting} {Q : BitVec 32 → Prop}
  (harrive : ∀ k, ∀ p ∈ w.arrivals k, (udpFind socks p.target).isSome → P (p.payload.take 512))
  (hparse : ∀ d, P d → ∀ response a, dnsParseResponse (overlay d response) d.length = some a → Q a)
include harrive hparse

end Loops

/-- Something waits. -/
def Full (u : UdpTable) : Prop := ∃ i, (u i).used = true ∧ (u i).data ≠ []

theorem Full.recv (h : Full u) : (udpRecv 512 u).1 ≠ [] := by
  obtain ⟨j, hused, hdata⟩ := h
  unfold udpRecv
  split
  · next hnone =>
    have := find?_eq_none.mp hnone j (mem_finRange j)
    simp [hused, hdata] at this
  · next i hfind =>
    have hi := find?_some hfind
    simp only [Bool.and_eq_true, Bool.not_eq_true', isEmpty_eq_false_iff] at hi
    simpa using hi.2

/-- A reply to the query that gets through: there is memory for it, and it is not longer
than the buffer of the lookup. -/
def Passes (id : BitVec 16) (p : Packet) : Prop :=
  p.memory = true ∧ p.len < 2 ^ 31 ∧ p.length ≤ 520 ∧ ∃ a, OwnReply id p a

theorem Passes.payload_ne (h : Passes id p) : p.payload ≠ [] := by
  obtain ⟨-, -, -, a, hown⟩ := h
  have hlong := hown.whole.1
  rw [Packet.payload, ne_eq, map_eq_nil_iff, range_eq_nil]
  omega

theorem Passes.full (h : Passes id p) {i : Fin 16} (hfind : udpFind u p.target = some i) :
    Full (deliver u p) := by
  have ⟨hmemory, hlen, _, a, hown⟩ := h
  obtain ⟨hlong, hwhole⟩ := hown.whole
  have hused := find?_some hfind
  have hsize : ¬ belowSize p.len 8 := by
    unfold belowSize
    omega
  have hfits : ¬ (p.length < 8 ∨ p.len < p.length) := by omega
  have heq : deliver u p = update u i
      { u i with data := p.payload, cap := max (u i).cap (p.length - 8) } := by
    rw [Packet.target] at hfind
    rw [Packet.length] at hfits
    rw [deliver, udpHandlePacket, if_neg hsize]
    simp only [Nat.zero_add, if_neg hfits, hfind, hmemory, Bool.true_eq_false, and_false, if_false,
      Packet.payload, Packet.length]
  simp only [Bool.and_eq_true] at hused
  refine ⟨i, ?_⟩
  rw [heq, update_self]
  exact ⟨hused.1, h.payload_ne⟩

theorem Full.deliver (h : Full u) (hp : (udpFind u p.target).isSome → p.payload ≠ []) :
    Full (deliver u p) := by
  rcases deliver_eq u p with heq | ⟨i, cap, hfind, heq⟩
  · rwa [heq]
  obtain ⟨j, hused, hdata⟩ := h
  refine ⟨j, ?_⟩
  by_cases hji : j = i
  · rw [heq, hji, update_self, ← hji]
    exact ⟨hused, hp (by rw [hfind]; rfl)⟩
  · rw [heq, update_of_ne hji]
    exact ⟨hused, hdata⟩

theorem Passes.parse (h : Passes id p) : ∃ a, OwnReply id p a ∧ ∀ response,
    dnsParseResponse (overlay (p.payload.take 512) response)
      (p.payload.take 512).length = some a := by
  obtain ⟨-, -, hfit, a, hown⟩ := h
  have hall : p.payload.take 512 = p.payload := take_of_length_le (by simp [Packet.payload]; omega)
  rw [hall]
  exact ⟨a, hown, hown.answer⟩

/-- A response of 33 bytes to query 7 with one answer, 1.1.1.1, in a UDP packet. -/
def reply : Packet where
  bytes := fun i =>
    (storeU16 53#16 ++ storeU16 12345#16 ++ [0#8, 41#8, 0#8, 0#8, 0#8, 7#8, 0#8, 0#8, 0#8, 0#8, 0#8, 1#8,
      0#8, 0#8, 0#8, 0#8, 0#8, 0#8, 1#8, 0#8, 1#8, 0xC0#8, 12#8, 0#8, 1#8, 0#8, 1#8, 0#8, 0#8, 0#8, 0#8,
      0#8, 4#8, 1#8, 1#8, 1#8, 1#8]).getD i 0#8
  len := 41
  memory := true

end Utms7.Net
