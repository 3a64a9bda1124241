/-
Datagrams that come in: `input_ip_packet` of `net/ip.c`, and what
`input_tcp_packet` and `input_udp_packet` do with the headers before they
drop a segment or hand it on.

The header is read from the bytes of the frame here. `input_tcp_packet`
and `input_udp_packet` are modelled by the bytes they touch, one span for
each access, for a datagram that is in one `skbuff`. Several comparisons
are between an `int` and a `sizeof`, and therefore unsigned.

Left out are the raw sockets, which get a copy, and what is done with a
segment that is handed on.
-/
import Cnix.Net.Ip

namespace Cnix.Net

open Lib

-- ======== bytes

/-- `ntohs` of two bytes. -/
def be16 (data : Nat → Byte) (i : Nat) : Nat := (data i).toNat * 256 + (data (i + 1)).toNat

def be32 (data : Nat → Byte) (i : Nat) : Nat := be16 data i * 2 ^ 16 + be16 data (i + 2)

/-- Two bytes as the processor reads them. -/
def le16 (data : Nat → Byte) (i : Nat) : Nat := (data i).toNat + (data (i + 1)).toNat * 256

/-- The bytes of a number, the first one first. -/
def toBe16 (x : Nat) : List Byte := [BitVec.ofNat 8 (x / 2 ^ 8), BitVec.ofNat 8 x]

def toBe32 (x : Nat) : List Byte := toBe16 (x / 2 ^ 16) ++ toBe16 x

/-- `iphdr_t` at `i`. -/
def hdrAt (data : Nat → Byte) (i : Nat) : IpHdr where
  version := (data i).toNat / 16
  ihl := (data i).toNat % 16
  totLen := be16 data (i + 2)
  id := be16 data (i + 4)
  fragOff := be16 data (i + 6)
  ttl := (data (i + 8)).toNat
  protocol := (data (i + 9)).toNat
  saddr := be32 data (i + 12)
  daddr := be32 data (i + 16)

-- ======== checksums

/-- The loop of `ipchecksum`, and of `checksum` for one `skbuff`. -/
def sumLoop (data : Nat → Byte) : Nat → Nat → Nat → Nat
  | 0, _, sum => sum
  | 1, i, sum => sum + (data i).toNat
  | len + 2, i, sum =>
    let sum := sum + le16 data i
    sumLoop data len (i + 2) (if 2 ^ 31 ≤ sum then sum % 2 ^ 16 + sum / 2 ^ 16 else sum)

/-- `while(sum >> 16)`: a sum of 32 bits takes two turns. -/
def foldLoop : Nat → Nat → Nat
  | 0, sum => sum
  | fuel + 1, sum => if sum / 2 ^ 16 = 0 then sum else foldLoop fuel (sum % 2 ^ 16 + sum / 2 ^ 16)

/-- `~sum` as an `unsigned short`. -/
def onesSum (data : Nat → Byte) (i len : Nat) : Nat := 2 ^ 16 - 1 - foldLoop 2 (sumLoop data len i 0)

/-- `ipchecksum`. -/
def ipchecksum (s : Skbuff) (len : Nat) : Nat := onesSum s.data s.dataPtr len

/-- How many bytes `checksum` reads: one, if the length is negative. -/
def checksumLen (s : Skbuff) : Nat :=
  if s.dlen < s.dataPtr then 1 else s.dlen - s.dataPtr

/-- `checksum`. -/
def checksum (s : Skbuff) : Nat := onesSum s.data s.dataPtr (checksumLen s)

-- ======== input_ip_packet

/-- Where a datagram is handed to. -/
inductive Upper
  | icmp
  | tcp
  | udp
  deriving DecidableEq, Repr

/-- `ip->protocol`. -/
def upper : Nat → Option Upper
  | 1 => some .icmp
  | 6 => some .tcp
  | 17 => some .udp
  | _ => none

/-- `is_packet_frag`. -/
def isPacketFrag (ip : IpHdr) : Bool := ip.more || decide (ip.offset ≠ 0)

/-- `x < size`, where `x` is an `int` and `size` a `sizeof`. -/
def ltUnsigned (x : Int) (size : Nat) : Bool := x % 2 ^ 32 < size

/-- `trim_ip_header`. -/
def trimIpHeader (s : Skbuff) (ip : IpHdr) : Skbuff :=
  { s with
    dataPtr := s.dataPtr + ip.hdrLen
    dgramLen := s.dgramLen - ip.hdrLen }

/-- The checks of `input_ip_packet` at an interface with the address
`addr`: the `skbuff` that passes them. -/
def checkHeader (addr : Nat) (s : Skbuff) : Option Skbuff :=
  if ltUnsigned s.dgramLen 20 then none
  else
    let ip := hdrAt s.data s.dataPtr
    if ip.version ≠ 4 then none
    else if s.dgramLen < ip.hdrLen ∨ ipchecksum s ip.hdrLen ≠ 0 then none
    else if s.dgramLen < ip.totLen then none
    else if ip.ttl = 0 then none
    else if ip.daddr ≠ addr then none
    else some { s with
      ip := ip
      dlen := ((s.dlen : Int) - (s.dgramLen - ip.totLen)).toNat
      dgramLen := ip.totLen }

/-- `input_ip_packet`, for a frame in the `skbuff` `p`: the routine that
gets the datagram, its first `skbuff` and `ipbak`. -/
def inputIpPacket {n : Nat} (addr : Nat) (t : FragTable n) (now : Nat) (p : Fin n) (s : Skbuff) :
    Except Fault (FragTable n × Option (Upper × Fin n × IpHdr)) :=
  match checkHeader addr s with
  | none => .ok (t, none)
  | some s => do
    let t := t.receive p s
    let (t, r) ← if isPacketFrag s.ip then t.consIpDgram now p else .ok (t, some p)
    match r with
    | none => return (t, none)
    | some head =>
      let ip ← t.ip head
      match upper ip.protocol with
      | some u => return (t.setSkb head (trimIpHeader (t.skb head) ip), some (u, head, ip))
      | none => return (t.skbFree head, none)

-- ======== the upper routines

/-- The bytes of an access. -/
structure Span where
  start : Int
  len : Nat
  deriving DecidableEq, Repr

/-- What `skb_move_up` touches of an `skbuff` that is alone: `dup_skb`
copies it, before the `DIE`. -/
def skbMoveUp (s : Skbuff) : List Span := [⟨s.dataPtr, (((s.dlen : Int) - s.dataPtr) % 2 ^ 32).toNat⟩]

/-- The pseudo header in front of a segment. -/
def pseudoHeader (ip : IpHdr) (protocol len : Nat) : List Byte :=
  toBe32 ip.saddr ++ toBe32 ip.daddr ++ [0, BitVec.ofNat 8 protocol] ++ toBe16 len

/-- The `skbuff` with the pseudo header. -/
def withPseudo (s : Skbuff) (bytes : List Byte) : Skbuff :=
  { s with
    data := memcpy s.data (s.dataPtr - 12) bytes
    dataPtr := s.dataPtr - 12 }

/-- `input_tcp_packet`: what it touches of the `skbuff` until it drops it or
hands it on. -/
def inputTcpPacket (s : Skbuff) (ip : IpHdr) : List Span :=
  if ltUnsigned s.dgramLen 20 then []
  else if ltUnsigned ((s.dlen : Int) - s.dataPtr) 20 then skbMoveUp s
  -- the pseudo header would begin before the buffer
  else if s.dataPtr < 12 then [⟨s.dataPtr - 12, 12⟩]
  else
    let s' := withPseudo s (pseudoHeader ip 6 (ip.dataLen % 2 ^ 16).toNat)
    ⟨s'.dataPtr, 12⟩ :: ⟨s'.dataPtr, checksumLen s'⟩ ::
      if checksum s' ≠ 0 then []
      else
        let doff := (s'.data (s.dataPtr + 12)).toNat / 16
        ⟨s.dataPtr + 12, 2⟩ ::
          if (s.dlen : Int) - s.dataPtr < doff * 4 then skbMoveUp s
          else [⟨s.dataPtr, 20⟩]

/-- `input_udp_packet`, likewise. -/
def inputUdpPacket (s : Skbuff) (ip : IpHdr) : List Span :=
  if ltUnsigned s.dgramLen 8 then []
  else if ltUnsigned ((s.dlen : Int) - s.dataPtr) 8 then skbMoveUp s
  else if s.dataPtr < 12 then [⟨s.dataPtr - 12, 12⟩]
  else
    let s' := withPseudo s (pseudoHeader ip 17 (be16 s.data (s.dataPtr + 4)))
    ⟨s.dataPtr + 4, 2⟩ :: ⟨s'.dataPtr, 12⟩ :: ⟨s.dataPtr + 6, 2⟩ ::
      -- a datagram without a checksum is not summed
      let sums : List Span := if be16 s.data (s.dataPtr + 6) ≠ 0 then [⟨s'.dataPtr, checksumLen s'⟩] else []
      if be16 s.data (s.dataPtr + 6) ≠ 0 ∧ checksum s' ≠ 0 then sums
      else
        let len : Span := ⟨s.dataPtr + 4, 2⟩
        if ip.dataLen ≠ be16 s.data (s.dataPtr + 4) then sums ++ [len]
        else sums ++ [len, ⟨s.dataPtr + 2, 2⟩]

/-- What the routine touches of a datagram in one `skbuff`. -/
def Upper.touches (u : Upper) (s : Skbuff) (ip : IpHdr) : List Span :=
  match u with
  | .icmp => []
  | .tcp => inputTcpPacket s ip
  | .udp => inputUdpPacket s ip

end Cnix.Net
