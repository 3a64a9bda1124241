/-
How a connection is set up: `alloc_tcpserv` of `net/tcputil.c`, and
`tcp_connect`, `accept_connect` and what they call of `net/tcp.c`.

A `syn` takes one sequence number and no place in the ring. It is counted
into `xmtseq` when it is sent, so `tcp_connect` and `tcp_confirm_syn`
both add one; in a simultaneous open the two of them are called for one
connection.

`tcp_state_syn_sent` gives up its lock when it has set the state to
`TCP_SYN` and takes it again to set `TCP_ESTABLISHED`; it is cut there.
`tcpStateSynSent` is the run of it without an arrival in between, and so
is what is said of the other functions. The packets of the handshake are
sent outside of the ring and are left out, as are the ports, the
addresses and the times they are sent again.
-/
import Cnix.Net.TcpSend

namespace Cnix.Net

/-- The options that `do_with_tcp_option` knows. -/
def tcpoptNop : Byte := 1

@[inherit_doc tcpoptNop]
def tcpoptMss : Byte := 2

@[inherit_doc tcpoptNop]
def tcpoptWin : Byte := 3

@[inherit_doc tcpoptNop]
def tcpoptTsm : Byte := 8

/-- The loop of `do_with_tcp_option` over the bytes behind the header:
what is left in `rcvmss`. Each round moves on by at least one byte, so as
many rounds as there are bytes are enough. -/
def tcpOptions : Nat → List Byte → Nat → Nat
  | 0, _, rcvmss => rcvmss
  | _ + 1, [], rcvmss => rcvmss
  | rounds + 1, kind :: data, rcvmss =>
    if kind = tcpoptNop then tcpOptions rounds data rcvmss
    else if kind = tcpoptMss then
      let mss := (data.getD 1 0).toNat * 256 + (data.getD 2 0).toNat
      tcpOptions rounds (data.drop 3) (if 0 < mss then mss else rcvmss)
    else if kind = tcpoptWin then tcpOptions rounds (data.drop 2) rcvmss
    else if kind = tcpoptTsm then tcpOptions rounds (data.drop 9) rcvmss
    else rcvmss

/-- `do_with_tcp_option`. -/
def doWithTcpOption (serv : TcpServ) (data : List Byte) : TcpServ :=
  { serv with rcvmss := tcpOptions data.length data serv.rcvmss }

/-- What a new connection gets from outside: its interface, the value of
`tcp_sequence`, the bytes that are in the pages of its rings, and the
option of its socket. -/
structure Origin where
  netif : Netif
  tcpSequence : Seq
  xmtdata : Nat → Byte
  rcvdata : Nat → Byte
  soOobinline : Bool

/-- `alloc_tcpserv` of a connection that needs rings. -/
def allocTcpserv (new : Origin) : TcpServ where
  netif := new.netif
  state := .closed
  xmtfin := 0
  rcvfin := 0
  xmtring := RingBuffer.initRing defaultRingSize new.xmtdata defaultRingSize_pos
  rcvring := RingBuffer.initRing defaultRingSize new.rcvdata defaultRingSize_pos
  rcvskblist := []
  synnum := 0
  backlog := 0
  timertype := .none
  armed := false
  timercount := 0
  rexmttimes := 0
  keepaliveCount := 0
  socket := true
  soOobinline := new.soOobinline
  xmtseq := new.tcpSequence
  xmtack := new.tcpSequence
  rcvseq := 0
  rcvack := 0
  xmtwinUpdate := false
  xmtwin := BitVec.ofNat 16 defaultRingSize
  rcvwin := 0
  rcvmss := rcvMss
  rcvurgs := 0
  rcvurgc := 0
  bxmturg := false
  xmturgseq := 0

/-- `tcp_connect` up to the wait for an answer. -/
def tcpConnect (new : Origin) : TcpServ :=
  let serv := allocTcpserv new
  { serv with xmtseq := serv.xmtseq + 1, state := .synSent }

/-- `tcp_confirm_syn` up to the wait for an answer. -/
def tcpConfirmSyn (serv : TcpServ) : TcpServ := { serv with xmtseq := serv.xmtseq + 1 }

/-- `accept_connect` up to the wait for an answer. -/
def acceptConnect (new : Origin) (rcvack : Seq) (rcvwin : BitVec 16) : TcpServ :=
  tcpConfirmSyn { allocTcpserv new with
    rcvseq := rcvack
    rcvack := rcvack
    rcvwin := rcvwin
    state := .syn }

/-- `tcp_state_syn_sent` up to where it gives up its lock: the header of
the answer. No connection is left if it was refused, which `tcp_connect`
frees then. -/
def takeAnswer (serv : TcpServ) : Except Trap (Option (TcpServ × TcpHdr)) :=
  match serv.rcvskblist with
  | [] => .error (.die .tcpStateSynSent)
  | skb :: list =>
    if !skb.tcp.syn then .ok none
    else if skb.tcp.ack ∧ serv.xmtack + 1 ≠ skb.tcp.ackSeq then .ok none
    else .ok (some ({ serv with
      rcvskblist := list
      xmtack := if skb.tcp.ack then skb.tcp.ackSeq else serv.xmtack
      state := .syn }, skb.tcp))

/-- What it does without the lock: the other side's numbers are taken from
its `syn`. `options` are the bytes behind the header. -/
def takeSyn (serv : TcpServ) (tcp : TcpHdr) (options : List Byte) : TcpServ :=
  let serv := { serv with
    rcvseq := tcp.seq + 1
    rcvack := tcp.seq + 1
    rcvwin := tcp.window }
  if tcpHdrLen < tcp.hdrlen then doWithTcpOption serv options else serv

/-- The end of `tcp_state_syn_sent`. With an acknowledgement the handshake
is over, whatever happened to the connection in the meantime; without one
it is a simultaneous open, and our `syn` is confirmed. -/
def endSynSent (serv : TcpServ) (tcp : TcpHdr) : TcpServ :=
  if tcp.ack then { serv with state := .established } else tcpConfirmSyn serv

/-- `tcp_state_syn_sent`. -/
def tcpStateSynSent (serv : TcpServ) (options : List Byte) : Except Trap (Option TcpServ) := do
  let answer ← takeAnswer serv
  return answer.map fun (serv, tcp) => endSynSent (takeSyn serv tcp options) tcp

end Cnix.Net
