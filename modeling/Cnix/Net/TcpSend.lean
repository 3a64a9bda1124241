/-
The sending half of `net/tcp.c` and `net/tcputil.c`: what `tcp_write`
puts into `xmtring`, what the timer of a connection sends from it, and
what an arriving segment acknowledges.

The first byte of `xmtring` is the first one not acknowledged. A first
transmission starts at offset `xmtseq - xmtack` of the ring and is
labelled `xmtseq`; a retransmission starts at offset 0 and is labelled
`xmtseq - xmtring.count`. A function that sends returns the packets it
handed to `add_reply_list`, in their order. `skb_alloc` fails when no
`skbuff` is free, which the caller of a modelled function says; the
`skbuff`s behind the first one are waited for.

A timer that expires is no longer set while its callback runs. The
wakeups and the messages on the console are left out, and so is the
answer of `input_tcp_packet` to a refused segment, which does not touch
the connection.
-/
import Cnix.Net.TcpRecv

namespace Cnix.Net

variable (serv : TcpServ)

-- ======== packets

/-- `MAX_PACKET_SIZE`. -/
def maxPacketSize : Nat := 2048

/-- `LINK_HEAD_LEN`. -/
def linkHeadLen : Nat := 14

/-- `IP_NORM_HEAD_LEN`. -/
def ipNormHeadLen : Nat := 20

/-- `sizeof(tcphdr_t)`. -/
def tcpHdrLen : Nat := 20

/-- `tcp_param_t`. -/
structure TcpParam where
  seq : Seq
  ackSeq : Seq
  fin : Bool
  syn : Bool
  rst : Bool
  ack : Bool
  window : BitVec 16
  mss : Nat

/-- `copy_from_ring` of bytes that must be there. -/
def mustCopy (ring : RingBuffer) (len off : Nat) : Except Trap (List Byte) :=
  match ring.copyFromRing len off false with
  | .error t => .error t
  | .ok (bytes, _) =>
    if bytes.length < len then .error (.die .csTcpPacket) else .ok bytes

/-- The loop of `cs_tcp_packet`: the bytes that do not fit behind the
header, `len1` at a time. Each round copies at least one byte, so as many
rounds as there are bytes are enough. -/
def copyLeft (ring : RingBuffer) (max off dataLen : Nat) :
    Nat → Nat → Except Trap (List (List Byte))
  | 0, _ => .ok []
  | rounds + 1, left =>
    if left = 0 then .ok []
    else
      let len := linkHeadLen + ipNormHeadLen + left
      let len1 := if len < max then left else max - (linkHeadLen + ipNormHeadLen)
      match mustCopy ring len1 (off + dataLen - left) with
      | .error t => .error t
      | .ok bytes =>
        match copyLeft ring max off dataLen rounds (left - len1) with
        | .error t => .error t
        | .ok skbs => .ok (bytes :: skbs)

/-- The header `cs_tcp_packet` writes. -/
def packetHdr (param : TcpParam) (optlen : Nat) : TcpHdr :=
  let urgent := serv.bxmturg && decide (0 < compareSeq serv.xmturgseq param.seq)
  { seq := param.seq
    ackSeq := if param.ack then param.ackSeq else 0
    doff := (tcpHdrLen + optlen) / 4
    fin := param.fin
    syn := param.syn
    rst := param.rst
    ack := param.ack
    urg := urgent
    window := param.window
    urgPtr := if urgent then (serv.xmturgseq - param.seq).toNat % 2 ^ 16 else 0 }

/-- `cs_tcp_packet` of `dataLen` bytes at offset `off` of `ring`, without
waiting: the packet, or none if `skb_alloc` fails. -/
def csTcpPacket (alloc : Bool) (serv : TcpServ) (param : TcpParam)
    (ring : RingBuffer) (off dataLen : Nat) : Except Trap (Option Skb) :=
  let max := min (serv.netif.mtu + linkHeadLen) maxPacketSize
  let optlen := if 0 < param.mss then 4 else 0
  let hdrs := linkHeadLen + ipNormHeadLen + tcpHdrLen + optlen
  let hdataLen := if hdrs + dataLen < max then dataLen else max - hdrs
  let left := dataLen - hdataLen
  if !alloc then .ok none
  else
    match (if 0 < hdataLen then mustCopy ring hdataLen off else .ok []) with
    | .error t => .error t
    | .ok head =>
      match copyLeft ring max off dataLen left left with
      | .error t => .error t
      | .ok rest =>
        .ok (some
          { tcp := packetHdr serv param optlen
            dgramLen := dataLen + tcpHdrLen + optlen
            head := head
            rest := rest })

/-- `send_tcp_delay_ack`: the packet, or none for `FALSE`. A length is an
`int`; one below 0 has no bytes. -/
def sendTcpDelayAck (alloc : Bool) (serv : TcpServ) (xmtseq : Seq)
    (fromhead : Bool) (len : Int) (xmtfin : Bool) :
    Except Trap (Option Skb × TcpServ) :=
  let finAcked : Bool := serv.xmtfin = 3 ∧ serv.rcvfin ≠ 0
  if finAcked ∧ 0 < len then .error (.die .sendTcpDelayAck)
  else
    let off := if fromhead then 0 else serv.xmtseq - serv.xmtack
    if off.msb then .error (.die .sendTcpDelayAck)
    else
      let param : TcpParam :=
        { seq := if finAcked then xmtseq + 1 else xmtseq
          ackSeq := serv.rcvseq
          fin := xmtfin
          syn := false
          rst := false
          ack := true
          window := serv.xmtwin
          mss := 0 }
      match csTcpPacket alloc serv param serv.xmtring off.toNat len.toNat with
      | .error t => .error t
      | .ok none => .ok (none, serv)
      | .ok (some skb) =>
        .ok (some skb, { serv with rcvack := serv.rcvseq, xmtwinUpdate := false })

-- ======== timers

namespace TcpServ

/-- `start_time_wait_timer`: whatever timer runs is replaced. -/
def startTimeWaitTimer : TcpServ :=
  { serv with timertype := .timeWait, armed := true }

/-- `rcvfin_switch_state`. -/
def rcvfinSwitchState : TcpServ :=
  match serv.state with
  | .established => { serv with state := .closeWait }
  | .finWait1 => { serv with state := .closing }
  | .finWait2 => { serv.startTimeWaitTimer with state := .timeWait }
  | _ => serv

/-- `xmtfin_switch_state`. -/
def xmtfinSwitchState : TcpServ :=
  match serv.state with
  | .established | .syn => { serv with state := .finWait1 }
  | .closeWait => { serv with state := .lastAck }
  | _ => serv

/-- `start_rexmt_timer`. -/
def startRexmtTimer : Except Trap TcpServ :=
  if serv.timertype ≠ .none then .error (.die .startRexmtTimer)
  else .ok (serv.startTimer .rexmt)

/-- `start_keepalive_timer`. -/
def startKeepaliveTimer : Except Trap TcpServ :=
  if serv.timertype ≠ .none then .error (.die .startKeepaliveTimer)
  else .ok (({ serv with keepaliveCount := 0 }).startTimer .keepalive)

end TcpServ

/-- What a callback leaves: the connection, unless it stopped the
machine, and the packets it sent until then. -/
structure Fired where
  serv : Except Trap TcpServ
  sent : List Skb

/-- `rexmit_timer_callback`. -/
def rexmitTimerCallback (alloc : Bool) (serv : TcpServ) : Fired :=
  if serv.timertype ≠ .rexmt then ⟨.error (.die .rexmitTimerCallback), []⟩
  else if 16 < serv.rexmttimes then ⟨.ok { serv with state := .closed }, []⟩
  else
    let count := serv.xmtring.count
    let xmtseq := serv.xmtseq - BitVec.ofNat 32 count
    let len := min count serv.rcvmss
    -- data and fin, don't send together
    let xmtfin : Bool := ¬ serv.rcvmss < count ∧ count = 0 ∧ serv.xmtfin = 2
    let serv := { serv with rexmttimes := serv.rexmttimes + 1 }
    match sendTcpDelayAck alloc serv xmtseq true len xmtfin with
    | .error t => ⟨.error t, []⟩
    | .ok (skb, serv) => ⟨.ok (serv.startTimer .rexmt), skb.toList⟩

/-- `keepalive_timer_callback`. -/
def keepaliveTimerCallback (alloc : Bool) (serv : TcpServ) : Fired :=
  if serv.timertype ≠ .keepalive then ⟨.error (.die .keepaliveTimerCallback), []⟩
  else if 96 + 10 < serv.keepaliveCount then ⟨.ok { serv with state := .closed }, []⟩
  else
    match (if 96 < serv.keepaliveCount
        then sendTcpDelayAck alloc serv serv.xmtseq false 0 false
        else .ok (none, serv)) with
    | .error t => ⟨.error t, []⟩
    | .ok (skb, serv) =>
      let serv := { serv with keepaliveCount := serv.keepaliveCount + 1 }
      ⟨.ok (serv.startTimer .keepalive), skb.toList⟩

/-- `delay_timer_callback` when the window is closed: ask for it. -/
def askWindow (alloc : Bool) (serv : TcpServ) : Fired :=
  match sendTcpDelayAck alloc serv serv.xmtack false 0 false with
  | .error t => ⟨.error t, []⟩
  | .ok (skb, serv) => ⟨.ok (serv.startTimer .persistent), skb.toList⟩

/-- `delay_timer_callback` when there is nothing to send: which timer is
next. After four of these without an acknowledgement it is the
retransmission timer. -/
def nextTimer : Except Trap TcpServ :=
  if serv.xmtseq ≠ serv.xmtack then
    let serv := { serv with timercount := serv.timercount + 1 }
    if 3 < serv.timercount then ({ serv with timercount := 0 }).startRexmtTimer
    else .ok serv.startDelayTimer
  else serv.startKeepaliveTimer

/-- `delay_timer_callback` when there is nothing to send: tell the window
if it has changed, and set the next timer. -/
def sendNothing (alloc : Bool) (serv : TcpServ) : Fired :=
  match (if serv.xmtwinUpdate
      then sendTcpDelayAck alloc serv serv.xmtseq false 0 false
      else .ok (none, serv)) with
  | .error t => ⟨.error t, []⟩
  | .ok (skb, serv) => ⟨nextTimer serv, skb.toList⟩

/-- `delay_timer_callback` after a packet that acknowledges `fin`: the
connection, and whether it is over. -/
def ackRcvfin : TcpServ × Bool :=
  if serv.rcvfin = 1 then
    let serv := serv.rcvfinSwitchState
    if serv.state = .timeWait then (serv, true) else ({ serv with rcvfin := 2 }, false)
  else (serv, false)

/-- `delay_timer_callback` after a packet with `fin`. -/
def sentXmtfin (xmtfin : Bool) : TcpServ :=
  if xmtfin then ({ serv with xmtfin := 2 }).xmtfinSwitchState else serv

/-- `delay_timer_callback` after a packet of `len` bytes: the connection,
and whether it is over. -/
def afterSend (len : Int) (xmtfin : Bool) : TcpServ × Bool :=
  -- check rcvfin first
  match ackRcvfin { serv with xmtseq := serv.xmtseq + BitVec.ofInt 32 len } with
  | (serv, true) => (serv, true)
  | (serv, false) => (sentXmtfin serv xmtfin, false)

/-- Sent and not acknowledged, as an `int`. -/
def TcpServ.unackLen : Int := (serv.xmtseq - serv.xmtack).toInt

/-- `delay_timer_callback` from `try_again` on. Every round that does not
end the callback has sent bytes, so more rounds than there are bytes in
the ring are never made; `alloc` says for each round whether there is an
`skbuff`. -/
def tryAgain (alloc : Nat → Bool) : Nat → TcpServ → Int → Fired
  | 0, serv, _ => ⟨.ok serv, []⟩
  | rounds + 1, serv, len =>
    let win : Int := serv.rcvwin.toNat
    if win ≤ serv.unackLen ∧ 0 < len then askWindow (alloc rounds) serv
    else
      let len := if win ≤ serv.unackLen then len else min len (win - serv.unackLen)
      if len ≤ 0 ∧ serv.xmtfin ≠ 1 ∧ serv.rcvfin ≠ 1 then
        sendNothing (alloc rounds) serv
      else
        -- data and fin, don't send together
        let xmtfin : Bool := len ≤ 0 ∧ serv.xmtfin = 1
        match sendTcpDelayAck (alloc rounds) serv serv.xmtseq false len xmtfin with
        | .error t => ⟨.error t, []⟩
        | .ok (none, serv) => ⟨.ok serv.startDelayTimer, []⟩
        | .ok (some skb, serv) =>
          match afterSend serv len xmtfin with
          | (serv, true) => ⟨.ok serv, [skb]⟩
          | (serv, false) =>
            if (serv.rcvmss : Int) < serv.xmtring.count - serv.unackLen then
              let fired := tryAgain alloc rounds serv serv.rcvmss
              ⟨fired.serv, skb :: fired.sent⟩
            else ⟨.ok serv.startDelayTimer, [skb]⟩

/-- `delay_timer_callback`. -/
def delayTimerCallback (alloc : Nat → Bool) (serv : TcpServ) : Fired :=
  let serv := { serv with timertype := .none }
  tryAgain alloc (serv.xmtring.count + 1) serv
    (min (serv.xmtring.count - serv.unackLen) serv.rcvmss)

/-- The timer expires: its callback, unless it is `time_wait_callback`,
which frees the connection. -/
def timerExpires (alloc : Nat → Bool) (serv : TcpServ) : Option Fired :=
  let serv := { serv with armed := false }
  match serv.timertype with
  | .none => some ⟨.ok serv, []⟩
  | .delay | .persistent => some (delayTimerCallback alloc serv)
  | .rexmt => some (rexmitTimerCallback (alloc 0) serv)
  | .keepalive => some (keepaliveTimerCallback (alloc 0) serv)
  | .timeWait => none

-- ======== arrivals

/-- `if(ANYTIMER(serv)) stop_delay_timer(serv)`. -/
def TcpServ.stopAnyTimer : TcpServ :=
  if serv.timertype = .none then serv
  else { serv with timertype := .none, armed := false }

/-- What `reasm_tcpskb` returns; no connection is left if its resources
were freed. -/
structure Reasm where
  ret : Bool
  serv : Option TcpServ

/-- `reasm_tcpskb` before the handshake has begun to end. -/
def reasmUnsynced (skb : Skb) : Reasm :=
  if !skb.tcp.syn then ⟨false, some serv⟩
  else
    match serv.state with
    | .listen =>
      let serv := { serv with synnum := serv.synnum + 1 }
      if serv.backlog ≤ serv.synnum then ⟨false, some serv⟩
      else ⟨true, some { serv with rcvskblist := serv.rcvskblist ++ [skb] }⟩
    | .synSent =>
      if serv.rcvskblist.isEmpty then
        ⟨true, some { serv with rcvskblist := [skb] }⟩
      else ⟨true, some serv⟩
    | _ => ⟨false, some serv⟩

/-- `reasm_tcpskb` of a segment with `rst`. -/
def reasmRst (tcp : TcpHdr) : Reasm :=
  if 0 < compareSeq tcp.ackSeq serv.xmtack ∧ compareSeq tcp.ackSeq serv.xmtseq ≤ 0 then
    ⟨true, some serv⟩
  else if 0 < serv.xmtfin then ⟨true, none⟩
  else ⟨true, some ({ serv with state := .closed }).stopAnyTimer⟩

/-- What a segment acknowledges: whether anything, and how much. -/
structure Acked where
  ack : Bool
  len : Nat
  serv : TcpServ

/-- The urgent data is acknowledged. -/
def ackUrg (ackSeq : Seq) : TcpServ :=
  if serv.bxmturg ∧ 0 ≤ compareSeq ackSeq serv.xmturgseq then
    { serv with bxmturg := false, xmturgseq := 0 }
  else serv

/-- `reasm_tcpskb` up to the `switch`: `xmtack` is moved up to `ack_seq`.
`fin`, which `xmtseq` does not count, is not counted here either. -/
def takeAck (tcp : TcpHdr) : Option Acked :=
  if !tcp.ack then
    if !tcp.fin then none else some ⟨false, 0, serv⟩
  else if ¬ 0 < compareSeq tcp.ackSeq serv.xmtack then some ⟨false, 0, serv⟩
  else if 0 < serv.xmtfin ∧ tcp.ackSeq = serv.xmtseq + 1 then
    let ackSeq := tcp.ackSeq - 1
    some ⟨true, (ackSeq - serv.xmtack).toNat,
      { serv with
        xmtfin := if serv.xmtfin = 2 then 3 else serv.xmtfin
        xmtack := ackSeq }⟩
  else if 0 < compareSeq tcp.ackSeq serv.xmtseq then none
  else
    some ⟨true, (tcp.ackSeq - serv.xmtack).toNat,
      { ackUrg serv tcp.ackSeq with xmtack := tcp.ackSeq }⟩

/-- `reasm_tcpskb` behind the `switch`: take the acknowledged bytes out
of the ring. -/
def dropAcked (ackedLen : Nat) : Except Trap TcpServ :=
  if serv.xmtring.count < ackedLen then .error (.die .reasmTcpskb)
  else
    let serv := { serv with
      state := if serv.state = .finWait1 then .finWait2 else serv.state
      xmtring := serv.xmtring.dropCount ackedLen }
    if serv.timertype = .rexmt then
      .ok { serv with rexmttimes := 0, timertype := .none, armed := false }
    else .ok serv

/-- `reasm_tcpskb` from `insert_tcp_packet` on. -/
def reasmInsert (skb : Skb) : Except Trap Reasm :=
  match insertTcpPacket serv skb with
  | .error t => .error t
  | .ok ⟨_, fin, serv⟩ =>
    if !fin ∧ !serv.socket ∧ serv.state = .finWait2 then
      .ok ⟨true, some { serv.startTimeWaitTimer with state := .timeWait }⟩
    else
      let serv := if fin then { serv with rcvfin := 1 } else serv
      if serv.timertype = .none ∨ serv.timertype = .delay then
        .ok ⟨true, some serv.restartDelayTimer⟩
      else .ok ⟨true, some serv⟩

/-- `reasm_tcpskb` of the data of a segment, in a state in which there
may be some. -/
def reasmData (acked : Acked) (skb : Skb) : Except Trap Reasm :=
  if acked.ack then
    match dropAcked acked.serv acked.len with
    | .error t => .error t
    | .ok serv => reasmInsert serv skb
  else reasmInsert acked.serv skb

/-- The `switch` of `reasm_tcpskb`. In `TCP_SYN` the first byte that is
acknowledged is our `syn`. -/
def reasmAcked (acked : Acked) (skb : Skb) : Except Trap Reasm :=
  match acked.serv.state with
  | .syn =>
    if !acked.ack then .ok ⟨true, some acked.serv⟩
    else
      reasmData { acked with
        len := acked.len - 1
        serv := { acked.serv with state := .established } } skb
  | .closeWait => .ok ⟨false, some acked.serv⟩
  | .lastAck =>
    if acked.ack then .ok ⟨true, none⟩ else .ok ⟨true, some acked.serv⟩
  | .closing =>
    if acked.ack then
      .ok ⟨true, some { acked.serv.startTimeWaitTimer with state := .timeWait }⟩
    else .ok ⟨true, some acked.serv⟩
  | .timeWait => .ok ⟨false, some acked.serv⟩
  | _ => reasmData acked skb

/-- `reasm_tcpskb`. -/
def reasmTcpskb (skb : Skb) : Except Trap Reasm :=
  let serv := if serv.timertype = .keepalive then serv.stopAnyTimer else serv
  if serv.state = .closed ∨ serv.state = .listen ∨ serv.state = .synSent then
    .ok (reasmUnsynced serv skb)
  else if skb.tcp.syn then .ok ⟨true, some serv⟩
  else if skb.tcp.rst then .ok (reasmRst serv skb.tcp)
  else
    match takeAck serv skb.tcp with
    | none => .ok ⟨false, some serv⟩
    | some acked => reasmAcked acked skb

-- ======== writing

namespace TcpServ

/-- `WRITABLE`. -/
def writable : Bool :=
  serv.state = .established ∨ serv.state = .closeWait ∨ serv.state = .syn

/-- One round of the loop of `tcp_write`, under the lock: the connection
and the number of bytes taken. -/
def tcpWrite (buffer : List Byte) (oob : Bool) : TcpServ × Nat :=
  let (ring, writing) := serv.xmtring.copyToRing buffer
  if writing = 0 then (serv, 0)
  else
    let serv := { serv with xmtring := ring }
    if buffer.length ≤ writing ∧ oob then
      ({ serv with
        bxmturg := true
        xmturgseq := serv.xmtack + BitVec.ofNat 32 ring.count }, writing)
    else (serv, writing)

/-- `tcp_write` at the end of a round: a full ring is to be sent. -/
def tcpWriteFull : TcpServ :=
  if !serv.xmtring.ringIsAvail then serv.restartDelayTimer else serv

/-- `tcp_shutdown` of the sending direction. -/
def tcpShutdown : TcpServ :=
  if serv.writable then ({ serv with xmtfin := 1 }).restartDelayTimer else serv

/-- `tcp_close`; no connection is left if its resources were freed. -/
def tcpClose : Option TcpServ :=
  if serv.state = .closed ∨ serv.state = .listen then none
  else some { serv.tcpShutdown with socket := false }

end TcpServ

end Cnix.Net
