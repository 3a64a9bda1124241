/-
Reading from a socket: `socket_read` of `net/socket.c` with `tcp_read`,
`udp_read` and `raw_read` behind it, and the predicates `sock_can_read`,
`sock_can_write` and `sock_can_except` that `select` asks.

A read is followed from the call to the first `sleepon`, which is `none`,
or to the return. A socket that was neither bound nor connected has no
`tcpserv_t` or `udpserv_t`; the predicates read through that pointer all
the same. `socket_read` looks for `O_NDELAY` in a variable it has just set
to 0, so that a socket always blocks.

A datagram is a list of pieces, one for each `skbuff` it came in, and
`copy_to_iov` can be given bytes once only: it counts a buffer of the
caller as used up however much was put into it. The number of bytes asked for is
kept in an `int`, and is negative from 2^31 on.
-/
import Cnix.Net.TcpSend

namespace Cnix.Net

/-- A datagram: the data of each of its `skbuff`s, behind the headers. -/
structure Dgram where
  pieces : List (List Byte)

/-- `udp->len` without the header. -/
def Dgram.len (d : Dgram) : Nat := d.pieces.flatten.length

/-- `udpserv_t`. -/
structure UdpServ where
  broken : Bool
  rcvskb : List Dgram

/-- `socket_t`; a raw socket with the datagrams of `raw_icmp_skblist`. -/
inductive Socket
  | stream (tserv : Option TcpServ)
  | dgram (userv : Option UdpServ)
  | raw (skblist : List Dgram)

/-- Why a call neither sleeps nor returns: it reads through a null pointer,
calls `memcpy` with a negative length, or dies. -/
inductive SockFault
  | nullPtr
  | wild
  | die
  deriving DecidableEq, Repr

-- ======== tcp

/-- The place of a state in the `enum`. -/
def TcpState.rank : TcpState → Nat
  | .closed => 0
  | .listen => 1
  | .synSent => 2
  | .syn => 3
  | .closeWait => 4
  | .lastAck => 5
  | .established => 6
  | .finWait1 => 7
  | .finWait2 => 8
  | .closing => 9
  | .timeWait => 10

namespace TcpServ

variable (serv : TcpServ)

/-- `READABLE`. -/
def readable : Bool :=
  0 < serv.rcvring.count ∨ serv.state = .established ∨ serv.state = .finWait1 ∨ serv.state = .finWait2

/-- `tcp_can_do`: 1, 0, or -1 if it has to wait. -/
def tcpCanDo (rflag : Bool) : Int :=
  if serv.state.rank < TcpState.listen.rank then 0
  else if serv.state.rank < TcpState.syn.rank then
    if serv.rcvskblist ≠ [] then 1 else -1
  else if serv.state ≠ .syn then
    if rflag then
      if serv.rcvring.ringIsEmpty = false then 1
      else if serv.readable = false then 0
      else -1
    else
      if serv.writable = false then 0
      else if serv.xmtring.ringIsAvail then 1
      else -1
  else -1

end TcpServ

def enotconn : Int := 107

/-- `wait_response` without a timeout; `none` if it sleeps. -/
def waitResponse (serv : TcpServ) (rflag : Bool) : Option Int :=
  if serv.state.rank < TcpState.listen.rank then some (-enotconn)
  else
    let ret := serv.tcpCanDo rflag
    if 0 ≤ ret then some ret else none

/-- What a read gives back: the bytes, or an error. -/
abbrev Got := Except Int (List Byte)

/-- `copy_from_ring`, from the beginning; `dataLen` is an `int`. -/
def takeRing (r : RingBuffer) (dataLen : Int) : Except SockFault (List Byte) :=
  if r.count = 0 then .ok []
  else if dataLen < 0 then .error .wild
  else
    match r.copyFromRing dataLen.toNat 0 true with
    | .ok (bytes, _) => .ok bytes
    | .error _ => .error .die

/-- `tcp_read`, with no flags, up to the first `sleepon` or the return. -/
def tcpReadFirst (tserv : Option TcpServ) (count : BitVec 32) : Except SockFault (Option Got) :=
  match tserv with
  | none => .ok (some (.error (-enotconn)))
  | some serv =>
    if count = 0 then .ok (some (.ok []))
    else
      match waitResponse serv true with
      | none => .ok none
      | some ret =>
        if ret < 0 then .ok (some (.error ret))
        else if ret = 0 then .ok (some (.ok []))
        else do
          -- without `MSG_WAITALL` there is one turn
          let bytes ← takeRing serv.rcvring count.toInt
          return some (.ok bytes)

-- ======== udp

def ebadf : Int := 9

def eio : Int := 5

/-- `copy_to_iov` with a buffer that has room for the data. `used` tells
that `iovcur` is behind it. -/
def copyToIov (data : List Byte) (used : Bool) : Except SockFault Bool :=
  if data = [] then .ok used else if used then .error .die else .ok true

/-- The loop of `__udp_read` over the data of the `skbuff`s, with `left`
bytes to go. -/
def copyPieces : List (List Byte) → Bool → Nat → Except SockFault (List Byte)
  | _, _, 0 => .ok []
  | [], _, _ + 1 => .error .die
  | piece :: rest, used, left + 1 => do
    let data := piece.take (left + 1)
    let used ← copyToIov data used
    let copied ← copyPieces rest used (left + 1 - data.length)
    return data ++ copied

/-- What `__udp_read` copies of a datagram into one buffer. -/
def copyDgram (d : Dgram) (count : BitVec 32) : Except SockFault Got :=
  if count.toInt < 0 then .ok (.error count.toInt)
  else do
    let copied ← copyPieces d.pieces false (min d.len count.toNat)
    return .ok copied

/-- `udp_read`, with no flags. -/
def udpRead (userv : Option UdpServ) (count : BitVec 32) : Except SockFault (Option Got) :=
  match userv with
  | none => .ok (some (.error (-ebadf)))
  | some serv =>
    if serv.broken then .ok (some (.error (-eio)))
    else
      match serv.rcvskb with
      | [] => .ok none
      | d :: _ => do return some (← copyDgram d count)

-- ======== sockets

/-- `socket_read`. -/
def socketRead (sock : Socket) (count : BitVec 32) : Except SockFault (Option Got) :=
  match sock with
  | .stream tserv => tcpReadFirst tserv count
  | .dgram userv => udpRead userv count
  | .raw _ => .ok (some (.error (-ebadf)))

/-- `udp_can_read`: it returns at once if there is a `udpserv_t`. -/
def udpCanRead (userv : Option UdpServ) : Except SockFault Bool :=
  match userv with
  | some _ => .ok true
  | none => .error .nullPtr

/-- `tcp_can_read` and `tcp_can_write`. -/
def tcpCan (rflag : Bool) (tserv : Option TcpServ) : Except SockFault Bool :=
  match tserv with
  | some serv => .ok (0 ≤ serv.tcpCanDo rflag)
  | none => .error .nullPtr

/-- `sock_can_read`. -/
def sockCanRead (sock : Socket) : Except SockFault Bool :=
  match sock with
  | .dgram userv => udpCanRead userv
  | .stream tserv => tcpCan true tserv
  | .raw skblist => .ok (skblist ≠ [])

/-- `sock_can_write`. -/
def sockCanWrite (sock : Socket) : Except SockFault Bool :=
  match sock with
  | .dgram _ => .ok true
  | .stream tserv => tcpCan false tserv
  | .raw _ => .ok true

/-- `sock_can_except`. -/
def sockCanExcept (sock : Socket) : Bool :=
  match sock with
  | .stream (some serv) => 0 < serv.rcvurgs
  | _ => false

end Cnix.Net
