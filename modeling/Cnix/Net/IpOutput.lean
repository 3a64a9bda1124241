/-
Datagrams that are too long for an interface: `ip_fragment` and
`split_skb` of `net/ip.c`, and how the senders cut up what they send.

A datagram that is sent lies in a chain of `skbuff`s, the first of which
has the header in front of its data. `ip_fragment` goes through the chain
from its last member. Each one becomes a fragment of its own; from one
that is too long for the interface, fragments are cut off at its end until
the rest fits. The offset of a fragment is the number of bytes before it,
counted in units of 8.

The fragments that were cut later stand first in the list that is made. A
fragment that is sent comes in at the other side as one `skbuff` behind a
link header of 14 bytes (`Fragment.frame`). Checksums are left out.
-/
import Cnix.Net.Ip
import Cnix.Net.TcpSend

namespace Cnix.Net

/-- `ETHER_LNK_HEAD_LEN`. -/
def etherLnkHeadLen : Nat := 14

/-- The flags of an `skbuff` that is sent: the header alone, the header
with data, or data. -/
inductive PkFlag
  | head
  | headData
  | data
  deriving DecidableEq, Repr

/-- An `skbuff` that is sent, with its data behind the header. -/
structure OutSkb where
  flag : PkFlag
  bytes : List Byte

/-- A fragment that is sent. -/
structure Fragment where
  ip : IpHdr
  bytes : List Byte

/-- The fragment as it comes in. -/
def Fragment.frame (f : Fragment) : Skbuff where
  ip := f.ip
  data := fun i => f.bytes.getD (i - (etherLnkHeadLen + f.ip.hdrLen)) 0
  dataPtr := etherLnkHeadLen
  dlen := etherLnkHeadLen + f.ip.totLen
  dgramLen := f.ip.totLen

-- ======== split_skb

/-- The header of a fragment: `flag` is `IP_MORE` or 0. -/
def fragHdr (ip : IpHdr) (offset flag totLen : Nat) : IpHdr :=
  { ip with fragOff := offset / 8 + flag, totLen }

/-- `IP_MORE`, if there is a fragment behind. -/
def moreFlag (frags : List Fragment) : Nat := if frags.isEmpty then 0 else IpHdr.ipMore

/-- How much is cut off at the end of `dlen` bytes. -/
def cutLen (mtu maxlen dlen : Nat) (last : Bool) : Nat :=
  let len := if last then mtu - ipNormHeadLen - 8 + dlen % 8 else mtu - ipNormHeadLen
  if dlen - len < maxlen then dlen - maxlen else len

/-- The loop of `split_skb`, at most `fuel` turns. -/
def splitLoop (ip : IpHdr) (mtu maxlen : Nat) :
    Nat → List Byte → Nat → List Fragment → List Byte × Nat × List Fragment
  | 0, bytes, offset, frags => (bytes, offset, frags)
  | fuel + 1, bytes, offset, frags =>
    if bytes.length ≤ maxlen then (bytes, offset, frags)
    else
      let len := cutLen mtu maxlen bytes.length frags.isEmpty
      let offset := offset - len
      let frag : Fragment :=
        ⟨fragHdr ip offset (moreFlag frags) (len + ipNormHeadLen), bytes.drop (bytes.length - len)⟩
      splitLoop ip mtu maxlen fuel (bytes.take (bytes.length - len)) offset (frag :: frags)

/-- `split_skb`, for an `skbuff` whose data ends at `offset`. -/
def splitSkb (ip : IpHdr) (mtu : Nat) (skb : OutSkb) (offset : Nat) (frags : List Fragment) :
    Except Fault (List Fragment) :=
  match skb.flag with
  | .head =>
    if offset ≠ 0 then .error (.die .splitSkb)
    else .ok (⟨fragHdr ip offset IpHdr.ipMore (ip.hdrLen + skb.bytes.length), skb.bytes⟩ :: frags)
  | .headData =>
    let (bytes, offset, frags) :=
      splitLoop ip mtu (mtu - ip.hdrLen) skb.bytes.length skb.bytes offset frags
    let offset := offset - bytes.length
    if offset ≠ 0 then .error (.die .splitSkb)
    else .ok (⟨fragHdr ip offset (moreFlag frags) (bytes.length + ip.hdrLen), bytes⟩ :: frags)
  | .data =>
    let (bytes, offset, frags) :=
      splitLoop ip mtu (mtu - ipNormHeadLen) skb.bytes.length skb.bytes offset frags
    let offset := offset - bytes.length
    .ok (⟨fragHdr ip offset (moreFlag frags) (bytes.length + ipNormHeadLen), bytes⟩ :: frags)

-- ======== ip_fragment

/-- The bytes of a chain. -/
def chainBytes (chain : List OutSkb) : List Byte := chain.flatMap OutSkb.bytes

/-- The loop of `ip_fragment`, over the chain from its last member. -/
def fragmentLoop (ip : IpHdr) (mtu : Nat) : List OutSkb → Nat → List Fragment → Except Fault (List Fragment)
  | [], _, frags => .ok frags
  | skb :: prev, offset, frags => do
    let frags ← splitSkb ip mtu skb offset frags
    fragmentLoop ip mtu prev (offset - skb.bytes.length) frags

/-- `ip_fragment`. -/
def ipFragment (ip : IpHdr) (mtu : Nat) (chain : List OutSkb) : Except Fault (List Fragment) :=
  fragmentLoop ip mtu chain.reverse (chainBytes chain).length []

-- ======== senders

/-- What a sender that rounds down to a multiple of 8 leaves. -/
def roundDown (align : Bool) (len : Nat) : Nat := if align then len / 8 * 8 else len

/-- The sizes of the `skbuff`s behind the first, at most `fuel` of them. -/
def layoutRest (max : Nat) (align : Bool) : Nat → Nat → List Nat
  | 0, _ => []
  | fuel + 1, left =>
    if left = 0 then []
    else if etherLnkHeadLen + ipNormHeadLen + left < max then [left]
    else
      let len := roundDown align (max - (etherLnkHeadLen + ipNormHeadLen))
      len :: layoutRest max align fuel (left - len)

/-- The sizes of the `skbuff`s of a datagram with a header of `hdr` bytes
above IP. -/
def layout (mtu hdr : Nat) (align : Bool) (count : Nat) : List Nat :=
  let max := min (mtu + etherLnkHeadLen) maxPacketSize
  if etherLnkHeadLen + ipNormHeadLen + hdr + count < max then [hdr + count]
  else
    let len := roundDown align (max - (etherLnkHeadLen + ipNormHeadLen + hdr))
    (hdr + len) :: layoutRest max align count (count - len)

/-- `__udp_write`. -/
def udpLayout (mtu count : Nat) : List Nat := layout mtu 8 true count

/-- `raw_write`. -/
def rawLayout (mtu count : Nat) : List Nat := layout mtu 0 true count

/-- `cs_tcp_packet`, with `optlen` bytes of options. -/
def tcpLayout (mtu optlen count : Nat) : List Nat := layout mtu (20 + optlen) false count

/-- The header that `output_ip_packet` makes. -/
def outputHdr (id protocol saddr daddr totLen : Nat) : IpHdr where
  version := 4
  ihl := 5
  totLen := totLen
  id := id
  fragOff := 0
  ttl := 32
  protocol := protocol
  saddr := saddr
  daddr := daddr

end Cnix.Net
