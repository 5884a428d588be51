import Utms7.ByteMemory
import Utms7.Tcp

/-!
# Received frames

`net_handle_packet` of `net/net.c` and the handlers behind it: `arp_handle_packet`,
`ip_handle_packet`, `icmp_handle_packet`, `udp_handle_packet`, `tcp_handle_packet`.

A frame stands at the beginning of a memory that goes on behind it.  A handler is given
the place of its packet in the frame and a length, and the model lists which bytes of
the frame it reads and which lengths it hands on.  Lengths are of type `int`, and a
comparison with `sizeof` is one of `size_t`: a negative length passes it.
-/

namespace Utms7.Net

open ByteMemory List

/-- What a handler does with a frame: it reads `count` bytes from index `start` on, or
hands on or stores a payload of which `room` bytes follow the header. -/
inductive Access
  | read (start count : Int)
  | payload (length room : Int)
deriving DecidableEq

/-- The bytes lie in a frame of `n` bytes, and the payload behind its header. -/
def Access.Within (n : Nat) : Access → Prop
  | .read start count => ∀ i, start ≤ i → i < start + count → 0 ≤ i ∧ i < n
  | .payload length room => 0 ≤ length ∧ length ≤ room

/-- `len < sizeof(..)`. -/
def belowSize (len : Int) (size : Nat) : Prop := len % 18446744073709551616 < size

instance (len : Int) (size : Nat) : Decidable (belowSize len size) :=
  inferInstanceAs (Decidable (_ < _))

def bswap16 (x : BitVec 16) : BitVec 16 := x >>> 8 ||| x <<< 8

def bswap32 (x : BitVec 32) : BitVec 32 :=
  x >>> 24 ||| (x >>> 8 &&& 0xFF00#32) ||| (x <<< 8 &&& 0xFF0000#32) ||| x <<< 24

def ntohs (x : BitVec 16) : BitVec 16 := bswap16 x

def ntohl (x : BitVec 32) : BitVec 32 := bswap32 x

/-- `udp_socket_t`, with the first `len` bytes of `buf`. -/
structure UdpSocket where
  used : Bool
  port : BitVec 16
  data : List (BitVec 8)
  cap : Nat

/-- `socks`. -/
abbrev UdpTable := Fin 16 → UdpSocket

/-- The host's address and its sockets.  From outside: whether `kmalloc` has memory for
a datagram, and whether `ip_send_packet` gets as far as to copy what it sends. -/
structure State where
  ip : BitVec 32
  tcp : Tcp.Table
  udp : UdpTable
  memory : Bool
  sends : Bool

/-! ## The handlers -/

def arpHandlePacket (pkt : Bytes) (off : Nat) (len : Int) : List Access :=
  if belowSize len 28 then []
  else
    .read (off + 6) 2 :: .read (off + 14) 4 ::
      (if ntohs (getU16 pkt (off + 6)) = 1#16 then [.read (off + 24) 4] else []) ++
      [.read (off + 8) 6]

/-- The first socket with a port. -/
def udpFind (u : UdpTable) (port : BitVec 16) : Option (Fin 16) :=
  (List.finRange 16).find? fun i => (u i).used && (u i).port == port

def udpHandlePacket (memory : Bool) (pkt : Bytes) (off : Nat) (len : Int) (u : UdpTable) :
    List Access × UdpTable :=
  if belowSize len 8 then ([], u)
  else
    let header := [.read (off + 2) 2, .read (off + 4) 2]
    let ulen := (ntohs (getU16 pkt (off + 4))).toNat
    if ulen < 8 ∨ len < ulen then (header, u)
    else
      match udpFind u (ntohs (getU16 pkt (off + 2))) with
      | none => (header, u)
      | some i =>
        if (u i).cap < ulen - 8 ∧ memory = false then (header, u)
        else
          (header ++ [.payload (ulen - 8 : Nat) (len - 8), .read (off + 8) (ulen - 8 : Nat)],
            Function.update u i
              { u i with
                data := (List.range (ulen - 8)).map fun k => pkt (off + 8 + k)
                cap := max (u i).cap (ulen - 8) })

/-- An echo request is sent back: `icmp_checksum` reads it, and `ip_send_packet` copies
it, where the length is of type `size_t`. -/
def icmpHandlePacket (sends : Bool) (pkt : Bytes) (off : Nat) (len : Int) : List Access :=
  if belowSize len 8 then []
  else
    .read (off + 4) 2 :: .read off 1 ::
      if pkt off = 8#8 then
        .read off (2 * (len.tdiv 2)) :: (if len % 2 = 1 then [.read (off + len - 1) 1] else []) ++
          if sends then [.read off (len % 18446744073709551616)] else []
      else []

/-- `hlen` of `tcp_handle_packet`. -/
def tcpHlen (pkt : Bytes) (off : Nat) : Nat := (pkt (off + 12) >>> 4).toNat * 4

/-- The connection that a segment from `src` to `dst` belongs to. -/
def connectionOf (t : Tcp.Table) (pkt : Bytes) (off : Nat) (src dst : BitVec 32) :
    Option Tcp.Slot :=
  Tcp.tcpFindConnection t dst (ntohs (getU16 pkt (off + 2))) src (ntohs (getU16 pkt off))

/-- What the segment finds free in the receive buffer of its connection, if it stands at
`rcv_nxt`. -/
def spaceFor (t : Tcp.Table) (pkt : Bytes) (off : Nat) (src dst : BitVec 32) : Option Nat :=
  match connectionOf t pkt off src dst with
  | none => none
  | some x =>
    if ntohl (getU32 pkt (off + 4)) = (t.sockets x).rcvNxt then
      some (65536 - (t.sockets x).rcvBufCount)
    else none

/-- The data is copied in one piece or in two.  A header has 20 bytes, also where `hlen`
says less. -/
def tcpHandlePacket (t : Tcp.Table) (pkt : Bytes) (off : Nat) (len : Int)
    (src dst : BitVec 32) : List Access :=
  if belowSize len 20 then []
  else
    .read off 12 :: .read (off + 12) 2 ::
      match spaceFor t pkt off src dst with
      | none => []
      | some space =>
        let dlen := min (len - tcpHlen pkt off) space
        if 0 < dlen then
          [.payload dlen (len - max (tcpHlen pkt off) 20), .read (off + tcpHlen pkt off) dlen]
        else []

/-- `hlen` of `ip_handle_packet`. -/
def ipHlen (pkt : Bytes) (off : Nat) : Nat := (pkt off &&& 0x0F#8).toNat * 4

/-- `total_len`. -/
def ipTotal (pkt : Bytes) (off : Nat) : Nat := (ntohs (getU16 pkt (off + 2))).toNat

/-- Whether `ip_handle_packet` takes a packet as one for this host. -/
def ipForUs (ip : BitVec 32) (pkt : Bytes) (off : Nat) : Prop :=
  getU32 pkt (off + 16) = ip ∨ getU32 pkt (off + 16) = 0xFFFFFFFF#32

instance (ip : BitVec 32) (pkt : Bytes) (off : Nat) : Decidable (ipForUs ip pkt off) :=
  inferInstanceAs (Decidable (_ ∨ _))

/-- `switch (ip->protocol)`. -/
def ipDispatch (s : State) (pkt : Bytes) (off : Nat) (len dlen : Int) : List Access :=
  let data := off + ipHlen pkt off
  let src := getU32 pkt (off + 12)
  let dst := getU32 pkt (off + 16)
  let handed := [.read (off + 12) 8, .payload dlen (len - ipHlen pkt off)]
  if pkt (off + 9) = 6#8 then handed ++ tcpHandlePacket s.tcp pkt data dlen src dst
  else if pkt (off + 9) = 17#8 then
    handed ++ (udpHandlePacket s.memory pkt data dlen s.udp).1
  else if pkt (off + 9) = 1#8 then handed ++ icmpHandlePacket s.sends pkt data dlen
  else []

def ipHandlePacket (s : State) (pkt : Bytes) (off : Nat) (len : Int) : List Access :=
  if belowSize len 20 then []
  else if pkt off >>> 4 ≠ 4#8 ∨ ipHlen pkt off < 20 ∨ len < ipHlen pkt off then [.read off 1]
  else
    [.read off 1, .read (off + 2) 2, .read (off + 16) 4] ++
      if ipForUs s.ip pkt off then
        .read (off + 9) 1 ::
          ipDispatch s pkt off len (min (ipTotal pkt off : Int) len - ipHlen pkt off)
      else []

def netHandlePacket (s : State) (pkt : Bytes) (n : Nat) : List Access :=
  if belowSize n 14 then []
  else
    let handed := [.read 12 2, .payload (n - 14) (n - 14)]
    if ntohs (getU16 pkt 12) = 0x0806#16 then handed ++ arpHandlePacket pkt 14 (n - 14)
    else if ntohs (getU16 pkt 12) = 0x0800#16 then handed ++ ipHandlePacket s pkt 14 (n - 14)
    else [.read 12 2]

/-! ## Where they read -/

/-- Every access lies within a frame of `n` bytes. -/
def Inside (n : Nat) (l : List Access) : Prop := ∀ a ∈ l, a.Within n

section Lists

variable {n : Nat} {a : Access} {l l' : List Access}

@[simp] theorem inside_nil : Inside n [] := fun _ h => by cases h

@[simp] theorem inside_cons : Inside n (a :: l) ↔ a.Within n ∧ Inside n l := forall_mem_cons

@[simp] theorem inside_append : Inside n (l ++ l') ↔ Inside n l ∧ Inside n l' :=
  forall_mem_append

theorem within_read {start count : Int} (hlo : 0 ≤ start) (hhi : start + count ≤ n) :
    (Access.read start count).Within n := fun i h h' => by omega

theorem belowSize_iff {len : Int} {size : Nat} (hlo : 0 ≤ len) (hhi : len < 2147483648) :
    belowSize len size ↔ len < size := by
  rw [belowSize, Int.emod_eq_of_lt hlo (by omega)]

end Lists

section Handlers

variable {s : State} {pkt : Bytes} {off n : Nat} {len : Int}

theorem payload_within {dlen room : Int} :
    (Access.payload dlen room).Within n ↔ 0 ≤ dlen ∧ dlen ≤ room := Iff.rfl

variable (hlo : 0 ≤ len) (hhi : len < 2147483648) (hin : off + len ≤ n)

include hlo hhi hin

theorem arp_inside : Inside n (arpHandlePacket pkt off len) := by
  unfold arpHandlePacket
  split
  · exact inside_nil
  next hlong =>
  rw [belowSize_iff hlo hhi] at hlong
  simp only [cons_append, inside_cons, inside_append]
  refine ⟨within_read (by omega) (by omega), within_read (by omega) (by omega), ?_,
    within_read (by omega) (by omega), inside_nil⟩
  split
  · exact inside_cons.mpr ⟨within_read (by omega) (by omega), inside_nil⟩
  · exact inside_nil

theorem udp_inside {memory : Bool} {u : UdpTable} :
    Inside n (udpHandlePacket memory pkt off len u).1 := by
  unfold udpHandlePacket
  split
  · exact inside_nil
  next hlong =>
  rw [belowSize_iff hlo hhi] at hlong
  have hheader : Inside n [.read (off + 2) 2, .read (off + 4) 2] := inside_cons.mpr
    ⟨within_read (by omega) (by omega), inside_cons.mpr
      ⟨within_read (by omega) (by omega), inside_nil⟩⟩
  dsimp only
  split_ifs with hlen
  · exact hheader
  · cases udpFind u (ntohs (getU16 pkt (off + 2))) with
    | none => exact hheader
    | some i =>
      dsimp only
      split_ifs
      · exact hheader
      · refine inside_append.mpr ⟨hheader, inside_cons.mpr ⟨⟨by omega, by omega⟩, ?_⟩⟩
        exact inside_cons.mpr ⟨within_read (by omega) (by omega), inside_nil⟩

theorem icmp_inside {sends : Bool} : Inside n (icmpHandlePacket sends pkt off len) := by
  unfold icmpHandlePacket
  split
  · exact inside_nil
  next hlong =>
  rw [belowSize_iff hlo hhi] at hlong
  simp only [inside_cons]
  refine ⟨within_read (by omega) (by omega), within_read (by omega) (by omega), ?_⟩
  split_ifs
  all_goals simp only [cons_append, nil_append, inside_cons, inside_nil, and_true]
  -- The length is not negative here, so the checksum and the copy stop at the end.
  all_goals rw [Int.tdiv_eq_ediv_of_nonneg hlo]
  · exact ⟨within_read (by omega) (by omega), within_read (by omega) (by omega),
      within_read (by omega) (by omega)⟩
  · exact ⟨within_read (by omega) (by omega), within_read (by omega) (by omega)⟩
  · exact ⟨within_read (by omega) (by omega), within_read (by omega) (by omega)⟩
  · exact within_read (by omega) (by omega)

/-- A segment at `rcv_nxt` of a connection has a whole header in front of its data, or
finds too little room for as many bytes as would run into it. -/
def TcpProper (t : Tcp.Table) (pkt : Bytes) (off : Nat) (len : Int) (src dst : BitVec 32) :
    Prop :=
  20 ≤ len → ∀ space, spaceFor t pkt off src dst = some space →
    20 ≤ tcpHlen pkt off ∨ space ≤ len - 20

theorem tcp_inside_iff {t : Tcp.Table} {src dst : BitVec 32} :
    Inside n (tcpHandlePacket t pkt off len src dst) ↔ TcpProper t pkt off len src dst := by
  unfold tcpHandlePacket TcpProper
  split
  · next hshort =>
    rw [belowSize_iff hlo hhi] at hshort
    exact iff_of_true inside_nil fun h => by omega
  next hlong =>
  rw [belowSize_iff hlo hhi] at hlong
  simp only [inside_cons]
  rw [and_iff_right (within_read (by omega) (by omega)),
    and_iff_right (within_read (by omega) (by omega))]
  cases spaceFor t pkt off src dst with
  | none => exact iff_of_true inside_nil fun _ _ h => by cases h
  | some space =>
    dsimp only
    split_ifs with hdata
    · simp only [inside_cons, inside_nil, and_true, Option.some.injEq, forall_eq']
      constructor
      · rintro ⟨⟨-, hroom⟩, -⟩ -
        omega
      · intro h
        exact ⟨⟨by omega, by omega⟩, within_read (by omega) (by omega)⟩
    · refine iff_of_true inside_nil fun _ k hk => ?_
      cases hk
      omega

/-- The packet goes on to one of the three handlers. -/
def Handled (pkt : Bytes) (off : Nat) : Prop :=
  pkt (off + 9) = 6#8 ∨ pkt (off + 9) = 17#8 ∨ pkt (off + 9) = 1#8

/-- The length field covers the header, and the segment in the packet is proper. -/
def PayloadProper (s : State) (pkt : Bytes) (off : Nat) (len : Int) : Prop :=
  ipHlen pkt off ≤ ipTotal pkt off ∧ (pkt (off + 9) = 6#8 →
    TcpProper s.tcp pkt (off + ipHlen pkt off) (min (ipTotal pkt off : Int) len - ipHlen pkt off)
      (getU32 pkt (off + 12)) (getU32 pkt (off + 16)))

theorem dispatch_inside_iff (hlong : 20 ≤ len) (hhlen : ipHlen pkt off ≤ len) :
    Inside n (ipDispatch s pkt off len (min (ipTotal pkt off : Int) len - ipHlen pkt off)) ↔
      (Handled pkt off → PayloadProper s pkt off len) := by
  have hsrc : (Access.read (off + 12) 8).Within n := within_read (by omega) (by omega)
  by_cases htotal : ipHlen pkt off ≤ ipTotal pkt off
  · have hdata : ((off + ipHlen pkt off : Nat) : Int) +
        (min (ipTotal pkt off : Int) len - ipHlen pkt off) ≤ n := by omega
    simp only [ipDispatch, Handled, PayloadProper, htotal, true_and]
    split_ifs with htcp hudp hicmp
    all_goals simp only [cons_append, nil_append, inside_cons, inside_nil]
    · rw [tcp_inside_iff (by omega) (by omega) hdata]
      simp only [hsrc, htcp, true_or, true_and, true_implies]
      exact and_iff_right ⟨by omega, by omega⟩
    · refine iff_of_true ⟨hsrc, ⟨by omega, by omega⟩, udp_inside (by omega) (by omega) hdata⟩ ?_
      exact fun _ h => absurd h htcp
    · refine iff_of_true ⟨hsrc, ⟨by omega, by omega⟩, icmp_inside (by omega) (by omega) hdata⟩ ?_
      exact fun _ h => absurd h htcp
    · exact iff_of_true trivial fun _ h => absurd h htcp
  · -- The length that goes on is negative.
    simp only [ipDispatch, PayloadProper, htotal, false_and]
    have hnot : ∀ l, ¬ Inside n ([.read (off + 12) 8,
        .payload (min (ipTotal pkt off : Int) len - ipHlen pkt off)
          (len - ipHlen pkt off)] ++ l) := by
      intro l h
      simp only [cons_append, inside_cons, payload_within] at h
      omega
    split_ifs with htcp hudp hicmp
    · exact iff_of_false (hnot _) fun h => h (.inl htcp)
    · exact iff_of_false (hnot _) fun h => h (.inr (.inl hudp))
    · exact iff_of_false (hnot _) fun h => h (.inr (.inr hicmp))
    · exact iff_of_true inside_nil fun h => by
        rcases h with h | h | h
        exacts [htcp h, hudp h, hicmp h]

theorem ip_inside_iff : Inside n (ipHandlePacket s pkt off len) ↔
      (20 ≤ len → pkt off >>> 4 = 4#8 → 20 ≤ ipHlen pkt off → ipHlen pkt off ≤ len →
        ipForUs s.ip pkt off → Handled pkt off → PayloadProper s pkt off len) := by
  unfold ipHandlePacket
  simp only [belowSize_iff hlo hhi]
  split_ifs with hshort hbad hus
  · exact iff_of_true inside_nil fun h => by omega
  · refine iff_of_true (inside_cons.mpr ⟨within_read (by omega) (by omega), inside_nil⟩) ?_
    intro _ hver hsize hfit
    rcases hbad with h | h | h
    · exact absurd hver h
    · omega
    · omega
  all_goals
    simp only [not_or, not_not, not_lt] at hbad
    simp only [cons_append, nil_append, inside_cons]
    rw [and_iff_right (within_read (by omega) (by omega)),
      and_iff_right (within_read (by omega) (by omega)),
      and_iff_right (within_read (by omega) (by omega))]
  · rw [and_iff_right (within_read (by omega) (by omega)),
      dispatch_inside_iff hlo hhi hin (by omega) hbad.2.2]
    exact ⟨fun h _ _ _ _ _ => h, fun h => h (by omega) hbad.1 hbad.2.1 hbad.2.2 hus⟩
  · exact iff_of_true inside_nil fun _ _ _ _ h => absurd h hus

end Handlers

/-- The frame holds an IP packet for this host that goes on to a handler. -/
structure Accepted (s : State) (pkt : Bytes) (n : Nat) : Prop where
  long : 34 ≤ n
  type : ntohs (getU16 pkt 12) = 0x0800#16
  version : pkt 14 >>> 4 = 4#8
  header : 20 ≤ ipHlen pkt 14
  fits : 14 + ipHlen pkt 14 ≤ n
  address : ipForUs s.ip pkt 14
  handled : Handled pkt 14

/-- **Received frames are read within bounds** exactly if, in a packet for this host, the
length field covers the IP header, and the data of a TCP segment is behind its header. -/
theorem received_frame_inside_iff (s : State) (pkt : Bytes) (n : Fin 2147483648) :
    Inside n (netHandlePacket s pkt n) ↔
      (Accepted s pkt n → PayloadProper s pkt 14 (n.val - 14)) := by
  have hn := n.isLt
  unfold netHandlePacket
  simp only [belowSize_iff (Int.natCast_nonneg n.val) (Int.ofNat_lt.mpr hn)]
  split_ifs with hshort harp hip
  · exact iff_of_true inside_nil fun h => by have := h.long; omega
  all_goals
    simp only [cons_append, nil_append, inside_cons]
    rw [and_iff_right (within_read (by omega) (by omega))]
  · rw [and_iff_right ⟨by omega, by omega⟩]
    refine iff_of_true (arp_inside (by omega) (by omega) (by omega)) fun h => ?_
    exact absurd (harp.symm.trans h.type) (by decide)
  · rw [and_iff_right ⟨by omega, by omega⟩, ip_inside_iff (by omega) (by omega) (by omega)]
    constructor
    · intro h hacc
      have := hacc.long
      have := hacc.fits
      exact h (by omega) hacc.version hacc.header (by omega) hacc.address hacc.handled
    · intro h hlong hver hsize hfit hus hhand
      exact h ⟨by omega, hip, hver, hsize, by omega, hus, hhand⟩
  · exact iff_of_true inside_nil fun h => absurd h.type hip

/-- A frame of 34 bytes: a UDP packet to the broadcast address with `total_len` 0. -/
def shortFrame : Bytes := fun i =>
  if i = 12 then 0x08#8 else if i = 14 then 0x45#8 else if i = 23 then 17#8
  else if 30 ≤ i ∧ i < 34 then 0xFF#8 else 0#8

/-- A host without sockets. -/
def quietHost : State where
  ip := 0x0A00020F#32
  tcp := Tcp.Table.init
  udp := fun _ => ⟨false, 0#16, [], 0⟩
  memory := true
  sends := true

/-- `udp_handle_packet` reads behind the end of the frame. -/
theorem short_frame_read_behind : ¬ Inside 34 (netHandlePacket quietHost shortFrame 34) := by
  have hread : .read 36 2 ∈ netHandlePacket quietHost shortFrame 34 := by decide +kernel
  intro h
  exact absurd (h _ hread 36 (by decide) (by decide)).2 (by decide)

end Utms7.Net
