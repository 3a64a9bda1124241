/-
The receiving half of a connection: the reassembly of `net/tcputil.c`
and the reading of `net/tcp.c`.

Segments that arrive ahead of the stream wait on `rcvskblist`, sorted by
sequence number; the first one is copied to the ring as soon as it
reaches down to `rcvseq`. Sequence numbers are compared after moving
them by `delta`, so that `rcvseq` is at `0x00010000`.

A packet that held nothing but `fin` stays on the list when it is
consumed, with its header cut off; the model keeps the header fields and
sets `dgram_len` to 0. The code would take the bytes behind the header for
one when the next segment is inserted. What is proved of the receiving
half leaves such arrivals out: only segments that are turned away meet
this packet.
-/
import Cnix.Net.Tcp

namespace Cnix.Net

-- ======== skbuff helpers

/-- The inner loop of `skb_cut_data`: cut `len` bytes off the `skbuff`s
behind the first one. -/
def cutRest : List (List Byte) → Nat → Except Trap (List (List Byte))
  | [], len => if 0 < len then .error (.die .skbCutData) else .ok []
  | chunk :: rest, len =>
    if len = 0 then .ok (chunk :: rest)
    else if len < chunk.length then .ok (chunk.drop len :: rest)
    else cutRest rest (len - chunk.length)

/-- `skb_cut_data`: cut the tcp header and `count` bytes off a packet. -/
def skbCutData (skb : Skb) (count : Nat) : Except Trap Skb :=
  let hdrlen := skb.tcp.hdrlen
  if skb.dgramLen < hdrlen + count then .error (.die .skbCutData)
  else
    let dgramLen := skb.dgramLen - (hdrlen + count)
    if count ≤ skb.head.length then
      .ok { skb with dgramLen := dgramLen, head := skb.head.drop count }
    else
      match cutRest skb.rest (count - skb.head.length) with
      | .error t => .error t
      | .ok rest => .ok { skb with dgramLen := dgramLen, head := [], rest := rest }

/-- `link_skb`, after adding the lengths: the `skbuff`s of a packet that
was cut go behind those of another. -/
def linkSkb (skb skb1 : Skb) : Skb :=
  { skb with
    dgramLen := skb.dgramLen + skb1.dgramLen
    rest := skb.rest ++ skb1.head :: skb1.rest }

/-- The loop of `skb_copy_data` over the `skbuff`s of a packet whose
header is cut off: the ring, the urgent byte, and how much was taken. -/
def copyChunks (oobinline : Bool) (urgPtr : Nat) :
    List (List Byte) → RingBuffer → Byte → Nat → RingBuffer × Byte × Nat
  | [], ring, urgc, copied => (ring, urgc, copied)
  | data :: rest, ring, urgc, copied =>
    let copying := data.length
    if copying = 0 then copyChunks oobinline urgPtr rest ring urgc copied
    else if !oobinline && 0 < urgPtr && copied ≤ urgPtr - 1
        && urgPtr - 1 < copied + copying then
      let len1 := urgPtr - 1 - copied
      let urgc := data.getD len1 0
      let ring := if 0 < len1 then (ring.copyToRing (data.take len1)).1 else ring
      let (ring, len) :=
        ring.copyToRing ((data.drop len1).take (copying - 1 - len1))
      let len := len + (len1 + 1)
      if len < copying then (ring, urgc, copied)
      else copyChunks oobinline urgPtr rest ring urgc (copied + len)
    else
      let (ring, len) := ring.copyToRing data
      if len < copying then (ring, urgc, copied)
      else copyChunks oobinline urgPtr rest ring urgc (copied + len)

/-- `skb_copy_data`. -/
def skbCopyData (skb : Skb) (serv : TcpServ) (urgPtr : Nat) : TcpServ × Nat :=
  if serv.rcvring.size - serv.rcvring.count < skb.dgramLen then (serv, 0)
  else
    let (ring, urgc, copied) := copyChunks serv.oobinline urgPtr
      (skb.head :: skb.rest) serv.rcvring serv.rcvurgc 0
    ({ serv with rcvring := ring, rcvurgc := urgc }, copied)

-- ======== reassembly

/-- Where a packet starts and ends, moved by `delta`; `fin` takes one
sequence number. -/
def Skb.seqRange (skb : Skb) (delta : Seq) : Seq × Seq :=
  let seq := skb.tcp.seq + delta
  (seq, seq + BitVec.ofNat 32 skb.dgramLen - BitVec.ofNat 32 skb.tcp.hdrlen
    + if skb.tcp.fin then 1#32 else 0#32)

/-- `real_insert_tcp_packet`, as a recursion over the packets still to
look at: whether the packet was inserted, and these packets after it. -/
def realInsertTcpPacket (delta : Seq) :
    List Skb → Skb → Seq → Seq → Except Trap (Bool × List Skb)
  | [], skb, _, _ => .ok (true, [skb])
  | skb1 :: list, skb, seq, seqEnd =>
    let (seq1, seqEnd1) := skb1.seqRange delta
    if seq < seq1 then
      if seqEnd < seq1 then .ok (true, skb :: skb1 :: list)
      else if seqEnd1 ≤ seqEnd then realInsertTcpPacket delta list skb seq seqEnd
      else if skb.tcp.fin then .ok (false, skb1 :: list)
      else
        -- skb1 goes on where skb ends: cut what they share, and link
        match skbCutData skb1 (seqEnd - seq1).toNat with
        | .error t => .error t
        | .ok cut =>
          let skb := { linkSkb skb cut with
            tcp := { skb.tcp with fin := skb1.tcp.fin } }
          realInsertTcpPacket delta list skb seq
            (seqEnd + BitVec.ofNat 32 cut.dgramLen
              + if skb1.tcp.fin then 1#32 else 0#32)
    else if seqEnd ≤ seqEnd1 then .ok (false, skb1 :: list)
    else if seq = seq1 then .ok (true, skb :: list)
    else if seq ≤ seqEnd1 then
      if skb1.tcp.fin then .ok (false, skb1 :: list)
      else
        -- skb goes on where skb1 ends
        match skbCutData skb (seqEnd1 - seq).toNat with
        | .error t => .error t
        | .ok cut =>
          let skb := { linkSkb skb1 cut with
            tcp := { skb1.tcp with fin := skb.tcp.fin } }
          realInsertTcpPacket delta list skb seq1 seqEnd
    else
      match realInsertTcpPacket delta list skb seq seqEnd with
      | .error t => .error t
      | .ok (inserted, list) => .ok (inserted, skb1 :: list)

/-- The end of a persistent timer when the other side opens its window,
and the window itself. -/
def updateRcvwin (serv : TcpServ) (window : BitVec 16) : Except Trap TcpServ :=
  if serv.timertype = .persistent ∧ serv.rcvwin < window then
    match serv.stopDelayTimer with
    | .error t => .error t
    | .ok serv => .ok { serv.restartDelayTimer with rcvwin := window }
  else .ok { serv with rcvwin := window }

/-- What `insert_tcp_packet` returns: whether there is new data to
acknowledge, and whether `fin` was consumed. -/
structure Inserted where
  new : Bool
  fin : Bool
  serv : TcpServ

/-- `serv->rcvseq += 1` for `fin`. -/
def takeFin (serv : TcpServ) (fin : Bool) : TcpServ :=
  if fin then { serv with rcvseq := serv.rcvseq + 1#32 } else serv

/-- Note where urgent data is: the connection, and the offset behind it
within the packet. -/
def takeUrg (skb : Skb) (serv : TcpServ) : TcpServ × Nat :=
  if !serv.oobinline && skb.tcp.urg && 0 < skb.tcp.urgPtr then
    if skb.tcp.urgPtr ≤ skb.dgramLen then
      ({ serv with rcvurgs := 2, xmtwin := serv.xmtwin + 1#16 }, skb.tcp.urgPtr)
    else ({ serv with rcvurgs := 1 }, 0)
  else ({ serv with rcvurgs := 0 }, 0)

/-- Copy a packet whose header is cut off to the ring; `list` are the
packets behind it. -/
def copyFirst (skb : Skb) (list : List Skb) (serv : TcpServ) : Inserted :=
  let serv := { serv with xmtwin := serv.xmtwin - BitVec.ofNat 16 skb.dgramLen }
  let (serv, urgPtr) := takeUrg skb serv
  let (serv, len) := skbCopyData skb serv urgPtr
  ⟨true, skb.tcp.fin,
    { serv with
      rcvseq := serv.rcvseq + BitVec.ofNat 32 len
      rcvskblist := list }⟩

/-- The end of `insert_tcp_packet`: the first packet of the list has come
up to `rcvseq`. -/
def deliverFirst (skb : Skb) (list : List Skb) (serv : TcpServ) :
    Except Trap Inserted :=
  match updateRcvwin serv skb.tcp.window with
  | .error t => .error t
  | .ok serv =>
    let serv := takeFin serv skb.tcp.fin
    let skb := { skb with dgramLen := skb.dgramLen - skb.tcp.hdrlen }
    if skb.dgramLen = 0 then
      if !skb.tcp.fin then .error (.die .insertTcpPacket)
      else .ok ⟨false, true, { serv with rcvskblist := skb :: list }⟩
    else .ok (copyFirst skb list serv)

/-- The second part of `insert_tcp_packet`: look whether the first packet
of the list, which has just grown, has come up to `rcvseq`. -/
def checkFirst (delta : Seq) (list : List Skb) (serv : TcpServ) : Except Trap Inserted :=
  let rcvseq : Seq := 0x00010000#32
  match list with
  | [] => .ok ⟨false, false, { serv with rcvskblist := [] }⟩
  | skb :: rest =>
    let (seq, seqEnd) := skb.seqRange delta
    if seq ≤ rcvseq then
      if seqEnd ≤ rcvseq then .error (.die .insertTcpPacket)
      else deliverFirst skb rest serv
    else .ok ⟨false, false, { serv with rcvskblist := list }⟩

/-- `insert_tcp_packet`. -/
def insertTcpPacket (serv : TcpServ) (skb : Skb) : Except Trap Inserted :=
  let hdrlen := skb.tcp.hdrlen
  if skb.dgramLen < hdrlen then .ok ⟨false, false, serv⟩
  else
    let rcvseq : Seq := 0x00010000#32
    let delta := rcvseq - serv.rcvseq
    let (seq, seqEnd) := skb.seqRange delta
    if seqEnd ≤ rcvseq then
      if seqEnd < rcvseq then .ok ⟨false, false, serv⟩
      else
        match updateRcvwin serv skb.tcp.window with
        | .error t => .error t
        | .ok serv => .ok ⟨false, false, serv⟩
    else if serv.xmtwin.toNat < skb.dgramLen - hdrlen then .ok ⟨false, false, serv⟩
    else
      match realInsertTcpPacket delta serv.rcvskblist skb seq seqEnd with
      | .error t => .error t
      | .ok (false, list) => .ok ⟨false, false, { serv with rcvskblist := list }⟩
      | .ok (true, list) => checkFirst delta list serv

-- ======== reading

/-- The flags that `__tcp_read` looks at; `MSG_WAITALL` only makes it go
on with another round. -/
structure ReadFlags where
  oob : Bool
  peek : Bool
  dontwait : Bool
  deriving DecidableEq, Repr

/-- `__tcp_read` of urgent data. -/
def tcpReadOob (serv : TcpServ) (peek : Bool) : List Byte × TcpServ :=
  if serv.rcvurgs < 2 then ([], serv)
  else ([serv.rcvurgc], if peek then serv else { serv with rcvurgs := 0 })

/-- One round of the loop of `__tcp_read` of `count` bytes at offset
`off`, after the wait: the bytes read. -/
def tcpReadRound (serv : TcpServ) (count off : Nat) (flags : ReadFlags) :
    Except Trap (List Byte × TcpServ) :=
  if flags.oob then .ok (tcpReadOob serv flags.peek)
  else if flags.dontwait then .ok ([], serv)
  else
    match serv.rcvring.copyFromRing count off (!flags.peek) with
    | .error t => .error t
    | .ok (bytes, ring) =>
      .ok (bytes, { serv with
        rcvring := ring
        xmtwin := serv.xmtwin + BitVec.ofNat 16 bytes.length
        xmtwinUpdate := serv.xmtwinUpdate || 0 < bytes.length })

/-- One round of the loop of `tcp_read`. -/
def tcpRead (serv : TcpServ) (count : Nat) : Except Trap (List Byte × TcpServ) :=
  tcpReadRound serv count 0 ⟨false, false, false⟩

end Cnix.Net
