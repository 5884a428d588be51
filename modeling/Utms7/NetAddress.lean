import Mathlib.Tactic.IntervalCases
import Utms7.Dns

/-!
# IP addresses on the wire

Where the host's address comes from (`net/netconfig.c`, `net/dhcp.c`), where that of a
destination does (`net/dns.c`), and what `net/ip.c` and `net/arp.c` put into packets and
compare with what is in them.

An address that was read as numbers has its first octet in the high byte of a word, and
words go to memory with the low byte first.
-/

namespace Utms7.Net

open ByteMemory List

/-! ## Octets -/

/-- `a.b.c.d`. -/
structure Octets where
  a : BitVec 8
  b : BitVec 8
  c : BitVec 8
  d : BitVec 8
deriving DecidableEq

/-- The octets in order. -/
def Octets.bytes (o : Octets) : Text := [o.a, o.b, o.c, o.d]

/-- The number of the address, `a` first. -/
def Octets.word (o : Octets) : BitVec 32 := o.a ++ o.b ++ o.c ++ o.d

/-- The address reads the same from both ends. -/
def Octets.Palindrome (o : Octets) : Prop := o.a = o.d ∧ o.b = o.c
deriving Decidable

/-- A `u32` in memory. -/
def storeU32 (x : BitVec 32) : Text :=
  [x.setWidth 8, (x >>> 8).setWidth 8, (x >>> 16).setWidth 8, (x >>> 24).setWidth 8]

/-- Four bytes of a packet. -/
def fieldAt (pkt : Bytes) (off : Nat) : Text :=
  [pkt off, pkt (off + 1), pkt (off + 2), pkt (off + 3)]

variable {o : Octets} {ip : BitVec 32} {text : Text}

theorem getU32_append (m : Bytes) (off : Nat) :
    getU32 m off = m (off + 3) ++ m (off + 2) ++ m (off + 1) ++ m off := by
  have h0 := (m off).isLt
  have h1 := (m (off + 1)).isLt
  have h2 := (m (off + 2)).isLt
  apply BitVec.eq_of_toNat_eq
  rw [BitVec.toNat_append, BitVec.toNat_append, BitVec.toNat_append,
    ← Nat.shiftLeft_add_eq_or_of_lt h2, ← Nat.shiftLeft_add_eq_or_of_lt h1,
    ← Nat.shiftLeft_add_eq_or_of_lt h0, getU32, BitVec.toNat_ofNat]
  omega

theorem joinOctets_append (a b c d : BitVec 8) :
    joinOctets (a.setWidth 32) (b.setWidth 32) (c.setWidth 32) (d.setWidth 32) =
      a ++ b ++ c ++ d := by
  unfold joinOctets
  apply BitVec.eq_of_getLsbD_eq
  intro i hi
  simp only [BitVec.getLsbD_append, BitVec.getLsbD_or]
  interval_cases i <;> simp

theorem ntohl_append (a b c d : BitVec 8) : ntohl (a ++ b ++ c ++ d) = d ++ c ++ b ++ a := by
  unfold ntohl bswap32
  apply BitVec.eq_of_getLsbD_eq
  intro i hi
  simp only [BitVec.getLsbD_append, BitVec.getLsbD_or, BitVec.getLsbD_and,
    BitVec.getLsbD_ushiftRight, BitVec.getLsbD_shiftLeft]
  interval_cases i <;> simp

theorem storeU32_append (a b c d : BitVec 8) : storeU32 (a ++ b ++ c ++ d) = [d, c, b, a] := by
  unfold storeU32
  congr
  all_goals
    apply BitVec.eq_of_getLsbD_eq
    intro i hi
    simp only [BitVec.getLsbD_setWidth]
    grind

@[simp] theorem storeU32_getU32 (m : Bytes) (off : Nat) :
    storeU32 (getU32 m off) = fieldAt m off := by
  rw [getU32_append, storeU32_append, fieldAt]

/-- The bytes of a number are the octets in order exactly if their order does not matter. -/
theorem storeU32_word (o : Octets) : storeU32 o.word = o.bytes ↔ o.Palindrome := by
  rw [Octets.word, storeU32_append, Octets.bytes, Octets.Palindrome]
  grind

theorem getU32_eq_word (o : Octets) (m : Bytes) (off : Nat) :
    getU32 m off = o.word ↔ fieldAt m off = storeU32 o.word := by
  rw [← storeU32_getU32]
  refine ⟨fun h => by rw [h], fun h => ?_⟩
  rw [storeU32_getU32, Octets.word, storeU32_append, fieldAt] at h
  simp only [List.cons.injEq, and_true] at h
  rw [getU32_append, h.1, h.2.1, h.2.2.1, h.2.2.2, Octets.word]

/-! ## Where addresses come from -/

/-- The numbers of `a`, `b`, `c` and `d`, after `sscanf` has stored those that it found. -/
def scanInto (vars : List (BitVec 32)) (text : Text) : List (BitVec 32) :=
  scanDotted 4 text ++ vars.drop (scanDotted 4 text).length

/-- `(a << 24) | (b << 16) | (c << 8) | d`, of the variables. -/
def joinVars : List (BitVec 32) → BitVec 32
  | a :: b :: c :: d :: _ => joinOctets a b c d
  | _ => 0#32

/-- `net_config_t`. -/
structure NetConfig where
  ip : BitVec 32
  netmask : BitVec 32
  gateway : BitVec 32
  dns : BitVec 32
  useDhcp : Bool

/-- `net_config_set_default`. -/
def netConfigDefault : NetConfig where
  ip := 0x0A00020F#32
  netmask := 0xFFFFFF00#32
  gateway := 0x0A000202#32
  dns := 0x0A000202#32
  useDhcp := true

/-- `ip=`. -/
def keyIp : Text := [105#8, 112#8, 61#8]

/-- `netmask=`. -/
def keyNetmask : Text := [110#8, 101#8, 116#8, 109#8, 97#8, 115#8, 107#8, 61#8]

/-- `gateway=`. -/
def keyGateway : Text := [103#8, 97#8, 116#8, 101#8, 119#8, 97#8, 121#8, 61#8]

/-- `dns=`. -/
def keyDns : Text := [100#8, 110#8, 115#8, 61#8]

/-- `dhcp=`. -/
def keyDhcp : Text := [100#8, 104#8, 99#8, 112#8, 61#8]

/-- The text from a line on is read, which may go on behind the line. -/
def readLine (s : List (BitVec 32) × NetConfig) (line : Text) : List (BitVec 32) × NetConfig :=
  let vars (key : Text) := scanInto s.1 (line.drop key.length)
  if keyIp.isPrefixOf line then (vars keyIp, { s.2 with ip := joinVars (vars keyIp) })
  else if keyNetmask.isPrefixOf line then
    (vars keyNetmask, { s.2 with netmask := joinVars (vars keyNetmask) })
  else if keyGateway.isPrefixOf line then
    (vars keyGateway, { s.2 with gateway := joinVars (vars keyGateway) })
  else if keyDns.isPrefixOf line then (vars keyDns, { s.2 with dns := joinVars (vars keyDns) })
  else if keyDhcp.isPrefixOf line then (s.1, { s.2 with useDhcp := line.getD 5 0#8 == 49#8 })
  else s

/-- The text from each of its lines on. -/
def lineStarts : Bool → Text → List Text
  | _, [] => []
  | start, c :: rest =>
    (if start then [c :: rest] else []) ++ lineStarts (c == 10#8) rest

/-- `net_config_load`; `vars` are the variables before. -/
def netConfigLoad (vars : List (BitVec 32)) (text : Text) : NetConfig :=
  ((lineStarts true text).foldl readLine (vars, netConfigDefault)).2

/-- What the options of a DHCP packet say. -/
structure DhcpOptions where
  msgType : BitVec 8
  subnetMask : BitVec 32
  gateway : BitVec 32
  dns : BitVec 32

/-- One option, at `p`. -/
def DhcpOptions.read (o : DhcpOptions) (buf : Bytes) (p : Nat) : DhcpOptions :=
  let value := joinOctets ((buf (p + 2)).setWidth 32) ((buf (p + 3)).setWidth 32)
    ((buf (p + 4)).setWidth 32) ((buf (p + 5)).setWidth 32)
  if buf p = 53#8 ∧ buf (p + 1) = 1#8 then { o with msgType := buf (p + 2) }
  else if buf (p + 1) ≠ 4#8 then o
  else if buf p = 1#8 then { o with subnetMask := value }
  else if buf p = 3#8 then { o with gateway := value }
  else if buf p = 6#8 then { o with dns := value }
  else o

/-- The loop over the options. -/
def dhcpOptions (buf : Bytes) (stop : Nat) : Nat → Nat → DhcpOptions → DhcpOptions
  | 0, _, o => o
  | fuel + 1, p, o =>
    if stop ≤ p ∨ buf p = 255#8 ∨ stop ≤ p + 1 ∨ stop < p + 2 + (buf (p + 1)).toNat then o
    else dhcpOptions buf stop fuel (p + 2 + (buf (p + 1)).toNat) (o.read buf p)

/-- The packet of `len` bytes is an acknowledgement with an address. -/
def dhcpAck (buf : Bytes) (len : Nat) : Bool :=
  240 ≤ len && ntohl (getU32 buf 236) == 0x63825363#32 &&
    (dhcpOptions buf len len 240 ⟨0#8, 0#32, 0#32, 0#32⟩).msgType == 5#8 && getU32 buf 16 != 0#32

/-- What `dhcp_handle_packet` does to the addresses. -/
def dhcpHandlePacket (buf : Bytes) (len : Nat) (net : NetConfig) : NetConfig :=
  let o := dhcpOptions buf len len 240 ⟨0#8, 0#32, 0#32, 0#32⟩
  if dhcpAck buf len then
    { net with
      ip := ntohl (getU32 buf 16)
      netmask := if o.subnetMask ≠ 0#32 then o.subnetMask else net.netmask
      gateway := if o.gateway ≠ 0#32 then o.gateway else net.gateway
      dns := if o.dns ≠ 0#32 then o.dns else net.dns }
  else net

/-! ## What goes out -/

/-- A packet of `net_eth_send`. -/
inductive Frame
  | arp (packet : Text)
  | ip (mac packet : Text)

/-- The packet of `arp_send_request`. -/
def arpRequest (target : BitVec 32) (mac : Fin 6 → BitVec 8) (ip : BitVec 32) : Text :=
  storeU16 1#16 ++ storeU16 0x0800#16 ++ [6#8, 4#8] ++ storeU16 1#16 ++ List.ofFn mac ++
    storeU32 ip ++ [0#8, 0#8, 0#8, 0#8, 0#8, 0#8] ++ storeU32 target

/-- The packet of `ip_send_packet`, with the checksum of its header. -/
def ipPacket (checksum : BitVec 16) (proto : BitVec 8) (src dst : BitVec 32) (data : Text) : Text :=
  [0x45#8, 0#8] ++ storeU16 (BitVec.ofNat 16 (20 + data.length)) ++ storeU16 0x0100#16 ++
    [0#8, 0#8, 64#8, proto] ++ storeU16 checksum ++ storeU32 src ++ storeU32 dst ++ data

/-- The requests before the address is found, and the hardware address. -/
def resolve (cache : Nat → Option Text) : Nat → Nat → Nat × Option Text
  | 0, _ => (0, none)
  | left + 1, i =>
    match cache i with
    | some mac => (0, some mac)
    | none => ((resolve cache left (i + 1)).1 + 1, (resolve cache left (i + 1)).2)

/-- The destination is in another network, and there is a gateway. -/
def Routed (net : NetConfig) (dst : BitVec 32) : Prop :=
  dst &&& net.netmask ≠ net.ip &&& net.netmask ∧ net.gateway ≠ 0#32

instance (net : NetConfig) (dst : BitVec 32) : Decidable (Routed net dst) := instDecidableAnd

/-- Who is asked for: the destination, or the gateway on the way to another network. -/
def nextHop (net : NetConfig) (dst : BitVec 32) : BitVec 32 :=
  if Routed net dst then net.gateway else dst

/-- `ip_send_packet`; `cache i` is what `arp_cache_lookup` knows at attempt `i`. -/
def ipSendPacket (net : NetConfig) (mac : Fin 6 → BitVec 8) (cache : Nat → BitVec 32 → Option Text)
    (memory : Bool) (checksum : BitVec 16) (dst : BitVec 32) (proto : BitVec 8) (data : Text) :
    List Frame :=
  let r := resolve (fun i => cache i (nextHop net dst)) 3 0
  List.replicate r.1 (.arp (arpRequest (nextHop net dst) mac net.ip)) ++
    match r.2 with
    | some dstMac => if memory then [.ip dstMac (ipPacket checksum proto net.ip dst data)] else []
    | none => []

/-- Whether `arp_handle_packet` takes a request as one for this host. -/
def arpForUs (ip : BitVec 32) (pkt : Bytes) (off : Nat) : Prop := getU32 pkt (off + 24) = ip

/-! ## In which order -/

/-- The digits of an octet. -/
structure Spells (text : Text) (o : BitVec 8) : Prop where
  nonempty : text ≠ []
  digits : ∀ c ∈ text, isDigit c = true
  value : decimal text = o.setWidth 32

/-- The text begins with the dotted form of the address, and no digit follows. -/
def Dotted (text : Text) (o : Octets) : Prop :=
  ∃ w x y z rest, text = w ++ 46#8 :: (x ++ 46#8 :: (y ++ 46#8 :: (z ++ rest))) ∧ Spells w o.a ∧
    Spells x o.b ∧ Spells y o.c ∧ Spells z o.d ∧ ∀ c ∈ rest.head?, isDigit c = false

/-- The host's address, from the last `ip=` of the file or from a DHCP packet. -/
inductive HostAddress (o : Octets) : BitVec 32 → Prop
  | netconfig {vars : List (BitVec 32)} {text number : Text} {before after : List Text}
      (lines : lineStarts true text = before ++ (keyIp ++ number) :: after)
      (dotted : Dotted number o) (last : ∀ line ∈ after, keyIp.isPrefixOf line = false) :
      HostAddress o (netConfigLoad vars text).ip
  | dhcp {buf : Bytes} {len : Nat} {net : NetConfig} (ack : dhcpAck buf len = true)
      (field : fieldAt buf 16 = o.bytes) : HostAddress o (dhcpHandlePacket buf len net).ip

/-- The address of a destination, from a literal or from an A record. -/
inductive DestAddress (o : Octets) : Bool → BitVec 32 → Prop
  | literal {w : World} {hostname : Text} {server : BitVec 32} {id : BitVec 16} {response : Bytes}
      {socks : UdpTable} (dotted : Dotted hostname o) :
      DestAddress o true (dnsLookup w hostname server id response socks)
  | record {buf : Bytes} {len q : Nat} (found : findAddress buf len = some q)
      (field : fieldAt buf q = o.bytes) {ip : BitVec 32}
      (parsed : dnsParseResponse buf len = some ip) :
      DestAddress o false ip

theorem isDigit_plain : ∀ c, isDigit c = true → isSpace c = false ∧ ¬ (c = 45#8 ∨ c = 43#8) := by
  decide

theorem scanNumber_spells {o : BitVec 8} (h : Spells text o) {rest : Text}
    (hrest : ∀ c ∈ rest.head?, isDigit c = false) :
    scanNumber (text ++ rest) = some (o.setWidth 32, rest) := by
  obtain ⟨hne, hdigits, hvalue⟩ := h
  have htake : (text ++ rest).takeWhile isDigit = text := by
    rw [takeWhile_append_of_pos hdigits]
    cases rest with
    | nil => simp
    | cons r rest => simp [hrest r rfl]
  have hdrop : (text ++ rest).dropWhile isDigit = rest := by
    rw [dropWhile_append_of_pos hdigits]
    cases rest with
    | nil => rfl
    | cons r rest => simp [hrest r rfl]
  cases text with
  | nil => exact absurd rfl hne
  | cons c text =>
    have hc := hdigits c mem_cons_self
    obtain ⟨hspace, hsign⟩ := isDigit_plain c hc
    rw [scanNumber, cons_append, dropWhile_cons_of_neg (by simp [hspace])]
    simp only [if_neg hsign, if_neg fun h => hsign (.inl h)]
    rw [← cons_append, htake, hdrop, hvalue, if_neg hne]

theorem dot_ended {text : Text} : ∀ c ∈ (46#8 :: text).head?, isDigit c = false := by
  rintro c ⟨⟩
  decide

theorem scanDotted_dotted (h : Dotted text o) :
    scanDotted 4 text = [o.a.setWidth 32, o.b.setWidth 32, o.c.setWidth 32, o.d.setWidth 32] := by
  obtain ⟨w, x, y, z, rest, rfl, hw, hx, hy, hz, hrest⟩ := h
  have hlast : scanDotted 1 (z ++ rest) = [o.d.setWidth 32] := by
    rw [scanDotted, scanNumber_spells hz hrest]
    split
    · next h => cases h
    · next h => cases h; rfl
    · next h => cases h; rfl
  simp only [scanDotted] at hlast
  simp only [scanDotted, scanNumber_spells hw (dot_ended), scanNumber_spells hx (dot_ended),
    scanNumber_spells hy (dot_ended), hlast]

theorem readLine_ip {s : List (BitVec 32) × NetConfig} {line : Text}
    (h : keyIp.isPrefixOf line = false) : (readLine s line).2.ip = s.2.ip := by
  unfold readLine
  rw [if_neg (by simp [h])]
  split_ifs <;> rfl

/-- However it was obtained, the host's address is a number with `a` in its high byte. -/
theorem HostAddress.eq_word (h : HostAddress o ip) : ip = o.word := by
  cases h with
  | @netconfig vars text number before after lines dotted last =>
    have hkeep : ∀ s, (after.foldl readLine s).2.ip = s.2.ip := by
      clear lines
      induction after with
      | nil => exact fun s => rfl
      | cons line after ih =>
        intro s
        rw [foldl_cons, ih fun l hl => last l (mem_cons_of_mem _ hl),
          readLine_ip (last line mem_cons_self)]
    rw [netConfigLoad, lines, foldl_append, foldl_cons, hkeep, readLine]
    simp only [drop_left, scanInto, scanDotted_dotted dotted]
    exact joinOctets_append ..
  | dhcp ack field =>
    simp only [fieldAt, Octets.bytes, List.cons.injEq, and_true] at field
    rw [dhcpHandlePacket, if_pos ack]
    rw [getU32_append, ntohl_append, field.1, field.2.1, field.2.2.1, field.2.2.2, Octets.word]

/-- A destination keeps its order in memory if it comes from a record, and else if the
order does not matter. -/
theorem DestAddress.stored_iff {literal : Bool} (h : DestAddress o literal ip) :
    storeU32 ip = o.bytes ↔ (literal = true → o.Palindrome) := by
  cases h with
  | @literal w hostname server id response socks dotted =>
    have hip : dottedLiteral hostname = some o.word := by
      rw [dottedLiteral, scanDotted_dotted dotted]
      exact congrArg some (joinOctets_append ..)
    rw [dnsLookup, hip, storeU32_word]
    exact ⟨fun h _ => h, fun h => h rfl⟩
  | record found field parsed =>
    rw [dnsParseResponse, found] at parsed
    cases parsed
    rw [storeU32_getU32, field]
    exact iff_of_true rfl fun h => by cases h

/-- The octets of the host and of the destination are in order, in an ARP request those of
the host and of the one that is asked for. -/
def Frame.InOrder (host dest hop : Octets) : Frame → Prop
  | .arp p => (p.drop 14).take 4 = host.bytes ∧ (p.drop 24).take 4 = hop.bytes
  | .ip _ p => (p.drop 12).take 4 = host.bytes ∧ (p.drop 16).take 4 = dest.bytes

/-- **Addresses are in order on the wire**, in what goes out to a destination and in what
is taken for this host. -/
structure InOrder (net : NetConfig) (host gate dest : Octets) (dst : BitVec 32) : Prop where
  sent : ∀ mac cache memory checksum proto data,
    ∀ f ∈ ipSendPacket net mac cache memory checksum dst proto data,
      f.InOrder host dest (if Routed net dst then gate else dest)
  ip : ∀ pkt off, ipForUs net.ip pkt off ↔
    fieldAt pkt (off + 16) = host.bytes ∨ fieldAt pkt (off + 16) = [255#8, 255#8, 255#8, 255#8]
  arp : ∀ pkt off, arpForUs net.ip pkt off ↔ fieldAt pkt (off + 24) = host.bytes

theorem mem_ipSendPacket {net : NetConfig} {mac : Fin 6 → BitVec 8}
    {cache : Nat → BitVec 32 → Option Text} {memory : Bool} {checksum : BitVec 16} {dst : BitVec 32}
    {proto : BitVec 8} {data : Text} {f : Frame}
    (h : f ∈ ipSendPacket net mac cache memory checksum dst proto data) :
    f = .arp (arpRequest (nextHop net dst) mac net.ip) ∨
      ∃ m, f = .ip m (ipPacket checksum proto net.ip dst data) := by
  rcases mem_append.mp h with h | h
  · exact .inl (eq_of_mem_replicate h)
  · split at h
    · split_ifs at h
      · exact .inr ⟨_, mem_singleton.mp h⟩
      · cases h
    · cases h

/-- The addresses are in order exactly if the host's address, that of a destination that is
a literal, and that of the gateway if the packets go there, read the same from both ends.
The gateway's address has its first octet in the high byte, too, from wherever it comes. -/
theorem addresses_in_order_iff {host gate dest : Octets} {net : NetConfig}
    (hhost : HostAddress host net.ip) (hgate : net.gateway = gate.word) {literal : Bool}
    {dst : BitVec 32} (hdest : DestAddress dest literal dst) :
    InOrder net host gate dest dst ↔ host.Palindrome ∧ (literal = true → dest.Palindrome) ∧
      (Routed net dst → gate.Palindrome) := by
  have hword := hhost.eq_word
  rw [← hdest.stored_iff, ← storeU32_word, ← storeU32_word, ← hword, ← hgate]
  constructor
  · intro h
    -- The cache knows the hardware address, so the packet goes out at once.
    have hip := h.sent (fun _ => 0#8) (fun _ _ => some []) true 0#16 0#8 [] _
      (mem_singleton.mpr rfl)
    refine ⟨hip.1, hip.2, fun hrouted => ?_⟩
    have harp := h.sent (fun _ => 0#8) (fun _ _ => none) true 0#16 0#8 [] _ mem_cons_self
    rw [nextHop, if_pos hrouted, if_pos hrouted] at harp
    exact harp.2
  · rintro ⟨hsrc, hdst, hhop⟩
    refine ⟨fun mac cache memory checksum proto data f hf => ?_, fun pkt off => ?_,
      fun pkt off => ?_⟩
    · rcases mem_ipSendPacket hf with rfl | ⟨m, rfl⟩
      · refine ⟨hsrc, ?_⟩
        unfold nextHop
        split
        · next hrouted => exact hhop hrouted
        · exact hdst
      · exact ⟨hsrc, hdst⟩
    · have hbroadcast : (0xFFFFFFFF#32) = (⟨255#8, 255#8, 255#8, 255#8⟩ : Octets).word := by decide
      rw [ipForUs, hword, getU32_eq_word, ← hword, hsrc, hbroadcast, getU32_eq_word]
      rfl
    · rw [arpForUs, hword, getU32_eq_word, ← hword, hsrc]

/-- `1.1.1.1`. -/
def onesText : Text := [49#8, 46#8, 49#8, 46#8, 49#8, 46#8, 49#8]

theorem onesText_dotted : Dotted onesText ⟨1#8, 1#8, 1#8, 1#8⟩ :=
  have hone : Spells [49#8] 1#8 := ⟨by decide, by decide, by decide⟩
  ⟨_, _, _, _, [], rfl, hone, hone, hone, hone, fun _ h => by cases h⟩

/-- The file `ip=1.1.1.1` with the default gateway, and the same address as a destination. -/
theorem addresses_in_order_ones :
    InOrder (netConfigLoad [] (keyIp ++ onesText)) ⟨1#8, 1#8, 1#8, 1#8⟩ ⟨10#8, 0#8, 2#8, 2#8⟩
      ⟨1#8, 1#8, 1#8, 1#8⟩ (dnsLookup ⟨fun _ => true, fun _ => []⟩ onesText 0#32 0#16 zeros
        fun _ => ⟨false, 0#16, [], 0⟩) :=
  have hhost := @HostAddress.netconfig _ [] (keyIp ++ onesText) _ [] [] rfl onesText_dotted
    fun _ h => by cases h
  (addresses_in_order_iff hhost (by decide) (.literal onesText_dotted)).mpr
    ⟨by decide, fun _ => by decide, fun h => absurd h (by decide)⟩

/-- The file `ip=10.0.2.15`: the octets of the host go out backwards. -/
theorem host_address_reversed :
    ∃ text, HostAddress ⟨10#8, 0#8, 2#8, 15#8⟩ (netConfigLoad [] (keyIp ++ text)).ip ∧
      ¬ InOrder (netConfigLoad [] (keyIp ++ text)) ⟨10#8, 0#8, 2#8, 15#8⟩ ⟨10#8, 0#8, 2#8, 2#8⟩
        ⟨1#8, 1#8, 1#8, 1#8⟩ 0x01010101#32 := by
  have hdotted : Dotted [49#8, 48#8, 46#8, 48#8, 46#8, 50#8, 46#8, 49#8, 53#8]
      ⟨10#8, 0#8, 2#8, 15#8⟩ :=
    ⟨[49#8, 48#8], [48#8], [50#8], [49#8, 53#8], [], rfl, ⟨by decide, by decide, by decide⟩,
      ⟨by decide, by decide, by decide⟩, ⟨by decide, by decide, by decide⟩,
      ⟨by decide, by decide, by decide⟩, fun _ h => by cases h⟩
  have hhost : HostAddress ⟨10#8, 0#8, 2#8, 15#8⟩ (netConfigLoad [] (keyIp ++ _)).ip :=
    @HostAddress.netconfig _ [] _ _ [] [] rfl hdotted fun _ h => by cases h
  refine ⟨_, hhost, fun h => ?_⟩
  have hsent := h.sent (fun _ => 0#8) (fun _ _ => some []) true 0#16 0#8 [] _
    (mem_singleton.mpr rfl)
  have hsrc : storeU32 (netConfigLoad [] (keyIp ++ _)).ip = _ := hsent.1
  exact absurd hsrc (by decide)

end Utms7.Net
