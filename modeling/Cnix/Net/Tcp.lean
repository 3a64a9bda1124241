/-
What the two halves of `net/tcp.c` and `net/tcputil.c` share: the state
of a connection, the packets, and the one timer of a connection.

Sequence numbers and windows have the widths of the source and wrap as
there. A packet is a ring of `skbuff`s linked by `list`, of which the
first starts with the tcp header: here the header fields, the bytes of
the first one behind the header (`head`), and the bytes of the others
(`rest`). `dgram_len` is kept apart from the bytes, as in the source,
and counts the header. The fields of the header that nothing modelled
reads (the ports, the checksum) are left out, and so are the wait queues
and `select`.
-/
import Cnix.Net.Ringbuff

namespace Cnix.Net

/-- A sequence number. -/
abbrev Seq := BitVec 32

/-- The states of a connection, in the order of the `enum`. -/
inductive TcpState
  | closed
  | listen
  | synSent
  | syn
  | closeWait
  | lastAck
  | established
  | finWait1
  | finWait2
  | closing
  | timeWait
  deriving DecidableEq, Repr

/-- `timertype`: which callback the connection's timer is to run. -/
inductive TimerType
  | none
  | delay
  | rexmt
  | persistent
  | keepalive
  | timeWait
  deriving DecidableEq, Repr

/-- The fields of `tcphdr_t` that are read. -/
structure TcpHdr where
  seq : Seq
  ackSeq : Seq
  doff : Nat
  fin : Bool
  syn : Bool
  rst : Bool
  ack : Bool
  urg : Bool
  window : BitVec 16
  urgPtr : Nat
  deriving DecidableEq, Repr

/-- `tcp->doff << 2`. -/
def TcpHdr.hdrlen (tcp : TcpHdr) : Nat := tcp.doff * 4

/-- A packet. -/
structure Skb where
  tcp : TcpHdr
  dgramLen : Nat
  head : List Byte
  rest : List (List Byte)
  deriving DecidableEq, Repr

/-- `DEFAULT_RING_SIZE`. -/
def defaultRingSize : Nat := pageSize * 2

theorem defaultRingSize_pos : 0 < defaultRingSize := by
  decide

/-- `RCV_MSS`. -/
def rcvMss : Nat := 536

/-- `netif_t`, of which the MTU is read. It has room for the headers and
the one option of a packet; a smaller one, which `SIOCSIFMTU` does not
refuse, is not modelled. -/
structure Netif where
  mtu : Nat
  room : 44 ≤ mtu

/-- An Ethernet card. -/
def ethernet : Netif := ⟨1500, by decide⟩

/-- `tcpserv_t`, and the option of its socket that is read. `armed` says
whether `delaytimer` is set. -/
structure TcpServ where
  netif : Netif
  state : TcpState
  xmtfin : Nat
  rcvfin : Nat
  xmtring : RingBuffer
  rcvring : RingBuffer
  rcvskblist : List Skb
  synnum : Nat
  backlog : Nat
  timertype : TimerType
  armed : Bool
  timercount : Nat
  rexmttimes : Nat
  keepaliveCount : Nat
  socket : Bool
  soOobinline : Bool
  xmtseq : Seq
  xmtack : Seq
  rcvseq : Seq
  rcvack : Seq
  xmtwinUpdate : Bool
  xmtwin : BitVec 16
  rcvwin : BitVec 16
  rcvmss : Nat
  rcvurgs : Nat
  rcvurgc : Byte
  bxmturg : Bool
  xmturgseq : Seq

/-- `compare_seq`: -1, 0 or 1, as the first is before, at or after the
second. Both are moved so that the first is at `0x00010000`. The
comparison is between an `int` and an `unsigned long`, so unsigned. -/
def compareSeq (seq seq2 : Seq) : Int :=
  let seq1 : Seq := 0x00010000#32
  let seq2 := seq2 + (seq1 - seq)
  if seq1 < seq2 then -1 else if seq2 < seq1 then 1 else 0

namespace TcpServ

/-- `OOBINLINE`. -/
def oobinline (serv : TcpServ) : Bool := serv.socket && serv.soOobinline

/-- `stop_delay_timer`. -/
def stopDelayTimer (serv : TcpServ) : Except Trap TcpServ :=
  if serv.timertype = .none then .error (.die .stopDelayTimer)
  else .ok { serv with timertype := .none, armed := false }

/-- `restart_delay_timer`: nothing while retransmitting; otherwise
whatever timer runs is replaced by the delay timer. -/
def restartDelayTimer (serv : TcpServ) : TcpServ :=
  if serv.timertype = .rexmt then serv
  else { serv with
    timercount := serv.timercount - 1
    timertype := .delay
    armed := true }

/-- `__start_delay_timer`: refused while another kind of timer runs. -/
def startTimer (serv : TcpServ) (timertype : TimerType) : TcpServ :=
  if serv.timertype ≠ .none ∧ serv.timertype ≠ timertype then serv
  else { serv with timertype := timertype, armed := true }

/-- `start_delay_timer`. -/
def startDelayTimer (serv : TcpServ) : TcpServ := serv.startTimer .delay

end TcpServ

/-- A connection right after the handshake, with rings of zeros: `iss` is
the sequence number of our `syn`, `isn` the one the other side's data
starts at. -/
def establishedServ (iss isn : Seq) : TcpServ where
  netif := ethernet
  state := .established
  xmtfin := 0
  rcvfin := 0
  xmtring := RingBuffer.initRing defaultRingSize (fun _ => 0) defaultRingSize_pos
  rcvring := RingBuffer.initRing defaultRingSize (fun _ => 0) defaultRingSize_pos
  rcvskblist := []
  synnum := 0
  backlog := 0
  timertype := .none
  armed := false
  timercount := 0
  rexmttimes := 0
  keepaliveCount := 0
  socket := true
  soOobinline := false
  xmtseq := iss + 1
  xmtack := iss + 1
  rcvseq := isn
  rcvack := isn
  xmtwinUpdate := false
  xmtwin := BitVec.ofNat 16 defaultRingSize
  rcvwin := BitVec.ofNat 16 defaultRingSize
  rcvmss := rcvMss
  rcvurgs := 0
  rcvurgc := 0
  bxmturg := false
  xmturgseq := 0

end Cnix.Net
