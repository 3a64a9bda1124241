/-
Which connection a segment is for: `match_socket` and `get_match_tcpserv`
of `net/tcputil.c`.

Of a connection only the state and the two addresses are read. The list
`tcpserv_list` is given by its elements in order; the one that is found
goes to its head.
-/
import Cnix.Net.SockRead

namespace Cnix.Net

/-- `struct sockaddr_in`, in the byte order of the network. -/
structure SockAddr where
  addr : BitVec 32
  port : BitVec 16
  deriving DecidableEq, Repr

/-- `INADDR_ANY`. -/
def inaddrAny : BitVec 32 := 0

/-- The fields of `tcpserv_t` that are read. -/
structure ServAddr where
  state : TcpState
  srcaddr : SockAddr
  dstaddr : SockAddr
  deriving DecidableEq, Repr

/-- The addresses and the ports of a segment. -/
structure SegAddr where
  saddr : BitVec 32
  source : BitVec 16
  daddr : BitVec 32
  dest : BitVec 16
  deriving DecidableEq, Repr

/-- `if(src->sin_addr.s_addr != ip->daddr){ … }` and the two like it: 0 is
returned for a connection, and a field that is not given counts one less.
`none` is `return 0`. -/
def matchField (state : TcpState) (differs unset : Bool) (value : Nat) : Option Nat :=
  if differs then
    if TcpState.listen.rank < state.rank then none
    else if unset then some (value - 1)
    else some value
  else some value

/-- `match_socket`. -/
def matchSocket (serv : ServAddr) (seg : SegAddr) : Nat :=
  if serv.srcaddr.port ≠ seg.dest then 0
  else
    ((matchField serv.state (serv.srcaddr.addr ≠ seg.daddr) (serv.srcaddr.addr = inaddrAny) 4).bind
      fun value =>
        (matchField serv.state (serv.dstaddr.port ≠ seg.source) (serv.dstaddr.port = 0) value).bind
          fun value =>
            matchField serv.state (serv.dstaddr.addr ≠ seg.saddr) (serv.dstaddr.addr = inaddrAny)
              value).getD 0

/-- The loop of `get_match_tcpserv`: what is in `serv` at its end. -/
def matchLoop (seg : SegAddr) : List ServAddr → Option ServAddr → Nat → Option ServAddr
  | [], serv, _ => serv
  | serv1 :: list, serv, value =>
    let ret := matchSocket serv1 seg
    if value < ret then
      if 4 ≤ ret then some serv1 else matchLoop seg list (some serv1) ret
    else matchLoop seg list serv value

/-- `get_match_tcpserv`, with the list it leaves. -/
def getMatchTcpserv (list : List ServAddr) (seg : SegAddr) : Option ServAddr × List ServAddr :=
  match matchLoop seg list none 0 with
  | none => (none, list)
  | some serv => (some serv, if list.head? ≠ some serv then serv :: list.erase serv else list)

end Cnix.Net
