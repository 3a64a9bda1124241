/-
What the timer of a connection sends, in terms of the stream the
application wrote.

# The tie

The application's bytes, in the order `tcp_write` took them, start at
sequence number `iss + 1`. `xmtring` holds this stream from `xmtack` on,
and `xmtseq` lies between `xmtack` and the end of the ring (`Tie`). A
first transmission reads the ring at `xmtseq - xmtack`, and its label is
right whenever the tie holds (`Tie.delayTimerCallback`).

A retransmission reads the ring from its start and takes `xmtseq` for
the end of the ring. Its label is right when all of the ring has been
sent (`Tie.rexmitTimerCallback`).
-/
import Cnix.Net.Proofs.Moves
import Cnix.Net.Proofs.Reassembly

namespace Cnix.Net

open Lib
open TcpState (Next Leads)

variable {iss xmtseq : Seq} {written : List Byte} {serv serv' : TcpServ} {skb : Skb}
  {acked sent : Nat} {alloc fromhead xmtfin : Bool} {res : Option Skb}

/-- The segment carries the bytes that its sequence number says. -/
def Labelled (iss : Seq) (written : List Byte) (skb : Skb) : Prop :=
  ∃ off len, skb.tcp.seq = iss + 1#32 + BitVec.ofNat 32 off
    ∧ skb.dgramLen = skb.tcp.hdrlen + len ∧ off + len ≤ written.length
    ∧ skb.payload = (written.drop off).take len

/-- A segment with data is labelled. -/
def DataLabelled (iss : Seq) (written : List Byte) (skb : Skb) : Prop :=
  skb.tcp.hdrlen < skb.dgramLen → Labelled iss written skb

/-- More bytes written change no label. -/
theorem DataLabelled.append (h : DataLabelled iss written skb) (more : List Byte) :
    DataLabelled iss (written ++ more) skb := by
  intro hdata
  obtain ⟨off, len, hseq, hlen, hle, hbytes⟩ := h hdata
  refine ⟨off, len, hseq, hlen, ?_, ?_⟩
  · rw [List.length_append]
    omega
  · rw [hbytes, List.drop_append_of_le_length (by omega),
      List.take_append_of_le_length (by rw [List.length_drop]; omega)]

-- ======== packets

section Packets

variable {ring : RingBuffer} {param : TcpParam} {off len max : Nat}

theorem mustCopy_spec (h : off + len ≤ ring.count) (hpos : 0 < len) :
    mustCopy ring len off = .ok ((ring.contents.drop off).take len) := by
  unfold mustCopy
  rw [RingBuffer.copyFromRing_contents false h (by omega)]
  have hlen : ((ring.contents.drop off).take len).length = len := by
    simp
    omega
  simp only [hlen, Nat.lt_irrefl, if_false]

/-- The pieces behind the first one hold what is left, in order. -/
theorem copyLeft_spec (h : off + len ≤ ring.count) (hmax : linkHeadLen + ipNormHeadLen < max) :
    ∀ {rounds : Nat} (left : Nat), left ≤ rounds → left ≤ len →
      ∃ skbs, copyLeft ring max off len rounds left = .ok skbs
        ∧ skbs.flatten = (ring.contents.drop (off + len - left)).take left := by
  intro rounds
  induction rounds with
  | zero =>
    intro left hle _
    have hz : left = 0 := by omega
    subst hz
    exact ⟨[], rfl, by simp⟩
  | succ rounds ih =>
    intro left hle hlen
    by_cases hz : left = 0
    · subst hz
      exact ⟨[], by simp [copyLeft], by simp⟩
    · generalize hlen1 : (if linkHeadLen + ipNormHeadLen + left < max then left
        else max - (linkHeadLen + ipNormHeadLen)) = len1
      have hpos : 0 < len1 ∧ len1 ≤ left := by
        rw [← hlen1]
        split <;> omega
      obtain ⟨skbs, hskbs, hflat⟩ := ih (left - len1) (by omega) (by omega)
      refine ⟨(ring.contents.drop (off + len - left)).take len1 :: skbs, ?_, ?_⟩
      · rw [copyLeft, if_neg hz]
        simp only [hlen1]
        rw [mustCopy_spec (by omega) hpos.1, hskbs]
      · have hfrom : off + len - (left - len1) = off + len - left + len1 := by omega
        have hsum : left = len1 + (left - len1) := by omega
        rw [List.flatten_cons, hflat, hfrom, ← List.drop_drop]
        conv => rhs; rw [hsum, List.take_add]
        rw [← hsum]

/-- `cs_tcp_packet` of bytes that are in the ring sends these bytes. -/
theorem csTcpPacket_spec {alloc : Bool} (h : off + len ≤ ring.count)
    (hres : csTcpPacket alloc serv param ring off len = .ok (some skb)) :
    skb.tcp.seq = param.seq ∧ skb.dgramLen = skb.tcp.hdrlen + len
      ∧ skb.payload = (ring.contents.drop off).take len := by
  have hroom := serv.netif.room
  generalize hmax : min (serv.netif.mtu + linkHeadLen) maxPacketSize = max
  have hmax58 : 58 ≤ max := by
    rw [← hmax]
    unfold linkHeadLen maxPacketSize
    omega
  unfold csTcpPacket at hres
  simp only [hmax] at hres
  generalize hopt : (if 0 < param.mss then 4 else 0) = optlen at hres
  have hopt4 : optlen = 0 ∨ optlen = 4 := by
    rw [← hopt]
    split <;> simp
  generalize hhd : (if linkHeadLen + ipNormHeadLen + tcpHdrLen + optlen + len < max
    then len else max - (linkHeadLen + ipNormHeadLen + tcpHdrLen + optlen)) = hd at hres
  have hhdle : hd ≤ len := by
    rw [← hhd]
    split <;> omega
  obtain ⟨skbs, hskbs, hflat⟩ := copyLeft_spec h
    (show linkHeadLen + ipNormHeadLen < max by unfold linkHeadLen ipNormHeadLen; omega)
    (len - hd) (Nat.le_refl _) (by omega)
  have hhead : (if 0 < hd then mustCopy ring hd off else .ok [])
      = .ok ((ring.contents.drop off).take hd) := by
    split
    · next hpos => exact mustCopy_spec (by omega) hpos
    · next hpos =>
      have hz : hd = 0 := by omega
      rw [hz, List.take_zero]
  cases alloc with
  | false => simp at hres
  | true =>
    simp only [Bool.not_true, Bool.false_eq_true, if_false, hhead, hskbs] at hres
    cases hres
    refine ⟨rfl, ?_, ?_⟩
    · show len + tcpHdrLen + optlen = (tcpHdrLen + optlen) / 4 * 4 + len
      unfold tcpHdrLen
      omega
    · show (ring.contents.drop off).take hd ++ skbs.flatten = _
      have hfrom : off + len - (len - hd) = off + hd := by omega
      have hsum : len = hd + (len - hd) := by omega
      rw [hflat, hfrom, ← List.drop_drop]
      conv => rhs; rw [hsum, List.take_add]

end Packets

/-- The step keeps the fields that say what is in the ring and where,
and does not go back to the handshake. -/
structure SameSend (serv serv' : TcpServ) : Prop where
  ring : serv'.xmtring = serv.xmtring
  seq : serv'.xmtseq = serv.xmtseq
  ack : serv'.xmtack = serv.xmtack
  synced : serv.state ≠ .syn → serv'.state ≠ .syn

theorem SameSend.trans {serv'' : TcpServ} (h : SameSend serv serv')
    (h' : SameSend serv' serv'') : SameSend serv serv'' where
  ring := h'.ring.trans h.ring
  seq := h'.seq.trans h.seq
  ack := h'.ack.trans h.ack
  synced := h'.synced ∘ h.synced

theorem Quiet.same (h : Quiet serv serv') : SameSend serv serv' :=
  ⟨h.ring, h.seq, h.ack, fun hne => h.state ▸ hne⟩

theorem QuietOrClosed.same (h : QuietOrClosed serv serv') : SameSend serv serv' := by
  rcases h with hquiet | hclosed
  · exact hquiet.same
  · exact ⟨hclosed.ring, hclosed.seq, hclosed.ack, fun _ => by rw [hclosed.state]; simp⟩

/-- The step also makes only moves that are listed. -/
structure Switched (serv serv' : TcpServ) : Prop extends SameSend serv serv' where
  leads : Leads serv.state serv'.state
  win : serv'.rcvwin = serv.rcvwin
  mss : serv'.rcvmss = serv.rcvmss

theorem Switched.trans {serv'' : TcpServ} (h : Switched serv serv')
    (h' : Switched serv' serv'') : Switched serv serv'' :=
  ⟨h.toSameSend.trans h'.toSameSend, h.leads.trans h'.leads, h'.win.trans h.win, h'.mss.trans h.mss⟩

theorem Switched.refl (serv : TcpServ) : Switched serv serv := ⟨⟨rfl, rfl, rfl, id⟩, .refl, rfl, rfl⟩

theorem switched_state {s : TcpState} (hne : s ≠ .syn) (hnext : Next serv.state s) :
    Switched serv { serv with state := s } :=
  ⟨⟨rfl, rfl, rfl, fun _ => hne⟩, .single hnext, rfl, rfl⟩

/-- `send_tcp_delay_ack` of bytes that are in the ring. -/
theorem sendTcpDelayAck_data {len : Int}
    (h : sendTcpDelayAck alloc serv xmtseq fromhead len xmtfin = .ok (some skb, serv'))
    (hfit : serv.ringOff fromhead + len.toNat ≤ serv.xmtring.count) :
    (0 < len → skb.tcp.seq = xmtseq) ∧ skb.dgramLen = skb.tcp.hdrlen + len.toNat ∧ skb.payload
        = (serv.xmtring.contents.drop (serv.ringOff fromhead)).take len.toNat := by
  obtain ⟨param, -, -, -, -, hparam, hcs⟩ := sendTcpDelayAck_cases h
  obtain ⟨hseq, hlen, hbytes⟩ := csTcpPacket_spec hfit hcs
  exact ⟨fun hpos => hseq.trans (hparam (.inr hpos)), hlen, hbytes⟩

-- ======== the tie

/-- The ring holds the stream from the first byte not acknowledged on,
and `xmtseq` lies in it or at its end. -/
structure Tie (iss : Seq) (written : List Byte) (serv : TcpServ) (acked sent : Nat) :
    Prop where
  data : serv.xmtring.contents = written.drop acked
  low : acked ≤ sent
  high : sent ≤ written.length
  ack : serv.xmtack = iss + 1#32 + BitVec.ofNat 32 acked
  seq : serv.xmtseq = iss + 1#32 + BitVec.ofNat 32 sent
  size : serv.xmtring.size = defaultRingSize
  synced : serv.state ≠ .syn

namespace Tie

variable (h : Tie iss written serv acked sent)

include h

theorem same (hs : SameSend serv serv') :
    Tie iss written serv' acked sent where
  data := by rw [hs.ring, h.data]
  low := h.low
  high := h.high
  ack := by rw [hs.ack, h.ack]
  seq := by rw [hs.seq, h.seq]
  size := by rw [hs.ring, h.size]
  synced := hs.synced h.synced

theorem count :
    serv.xmtring.count = written.length - acked := by
  rw [← RingBuffer.contents_length, h.data, List.length_drop]

/-- No more is unacknowledged than the ring holds. -/
theorem in_flight :
    sent - acked ≤ serv.xmtring.count ∧ serv.xmtring.count ≤ 2 ^ 13 := by
  have hle := serv.xmtring.count_le
  have hsize : serv.xmtring.size = 2 ^ 13 := h.size
  have hcount := h.count
  have hhigh := h.high
  omega

theorem ringOff : serv.ringOff false = sent - acked := by
  have hflight := h.in_flight
  have hlow := h.low
  have heq : serv.xmtseq - serv.xmtack = BitVec.ofNat 32 (sent - acked) := by
    have hsum : sent = acked + (sent - acked) := by omega
    rw [h.seq, h.ack, hsum, BitVec.ofNat_add, Nat.add_sub_cancel_left]
    abel
  show (serv.xmtseq - serv.xmtack).toNat = sent - acked
  rw [heq, BitVec.toNat_ofNat, Nat.mod_eq_of_lt (by omega)]

theorem unackLen :
    serv.unackLen = ((sent - acked : Nat) : Int) := by
  have hoff : (serv.xmtseq - serv.xmtack).toNat = sent - acked := h.ringOff
  have hflight := h.in_flight
  unfold TcpServ.unackLen
  rw [BitVec.toInt_eq_toNat_of_lt (by omega), hoff]

/-- Bytes of the ring, labelled from `xmtack` on. -/
theorem label {len : Nat} (off : Nat)
    (hseq : 0 < len → skb.tcp.seq = iss + 1#32 + BitVec.ofNat 32 (acked + off))
    (hlen : skb.dgramLen = skb.tcp.hdrlen + len) (hfit : off + len ≤ serv.xmtring.count)
    (hbytes : skb.payload = (serv.xmtring.contents.drop off).take len) :
    DataLabelled iss written skb := by
  intro hdata
  have hcount := h.count
  refine ⟨acked + off, len, hseq (by omega), hlen, by omega, ?_⟩
  rw [hbytes, h.data, List.drop_drop]

end Tie

/-- What a callback owes: every segment is labelled, and the tie holds
after it. -/
structure Owed (iss : Seq) (written : List Byte) (acked : Nat) (fired : Fired) : Prop where
  labels : ∀ skb ∈ fired.sent, DataLabelled iss written skb
  tie : ∀ serv', fired.serv = .ok serv' → ∃ sent, Tie iss written serv' acked sent

-- ======== the timers

theorem SameSend.startTimer (h : SameSend serv serv') (timertype : TimerType) :
    SameSend serv (serv'.startTimer timertype) := by
  unfold TcpServ.startTimer
  split
  · exact h
  · exact { h with }

/-- A segment without data, if one is sent, is labelled in any case. -/
theorem Tie.sendEmpty
    {cond : Prop} [Decidable cond] (h : Tie iss written serv acked sent)
    (hres : (if cond then sendTcpDelayAck alloc serv xmtseq false 0 xmtfin
      else .ok (none, serv)) = .ok (res, serv')) :
    SameSend serv serv' ∧ ∀ skb ∈ res.toList, DataLabelled iss written skb := by
  split at hres
  · refine ⟨(sendTcpDelayAck_quiet hres).same, fun skb hskb => ?_⟩
    rw [Option.mem_toList] at hskb
    subst hskb
    have hflight := h.in_flight
    obtain ⟨-, hlen, -⟩ := sendTcpDelayAck_data hres (by rw [h.ringOff]; exact hflight.1)
    intro hdata
    exact absurd hdata (by rw [hlen]; exact Nat.lt_irrefl _)
  · cases hres
    exact ⟨⟨rfl, rfl, rfl, id⟩, by simp⟩

/-- A callback that has stopped the machine before it sent anything. -/
theorem owed_error (t : Trap) : Owed iss written acked ⟨.error t, []⟩ :=
  ⟨by simp, by simp⟩

section Callbacks

variable (h : Tie iss written serv acked sent)

include h

theorem Tie.owed {serv1 : TcpServ} {skbs : List Skb}
    (hsame : SameSend serv serv1) (hskbs : ∀ skb ∈ skbs, DataLabelled iss written skb) :
    Owed iss written acked ⟨.ok serv1, skbs⟩ := by
  refine ⟨hskbs, fun serv' hserv => ?_⟩
  cases hserv
  exact ⟨sent, h.same hsame⟩

theorem Tie.askWindow :
    Owed iss written acked (Net.askWindow alloc serv) := by
  unfold Net.askWindow
  cases hres : sendTcpDelayAck alloc serv serv.xmtack false 0 false with
  | error t => exact owed_error t
  | ok res =>
    obtain ⟨hsame, hskb⟩ := h.sendEmpty (show (if True then
        sendTcpDelayAck alloc serv serv.xmtack false 0 false else .ok (none, serv)) = .ok res
      from (if_pos trivial).trans hres)
    exact h.owed (hsame.startTimer _) hskb

theorem Tie.sendNothing :
    Owed iss written acked (Net.sendNothing alloc serv) := by
  unfold Net.sendNothing
  split
  · exact owed_error _
  · next res serv1 hres =>
    obtain ⟨hsame, hskb⟩ := h.sendEmpty hres
    exact ⟨hskb,
      fun serv' hserv => ⟨sent, h.same (hsame.trans ((nextTimer_quiet hserv).same))⟩⟩

theorem Tie.keepaliveTimerCallback :
    Owed iss written acked (Net.keepaliveTimerCallback alloc serv) := by
  unfold Net.keepaliveTimerCallback
  split
  · exact owed_error _
  · split
    · exact h.owed ⟨rfl, rfl, rfl, fun _ => by simp⟩ (by simp)
    · split
      · exact owed_error _
      · next res serv1 hres =>
        obtain ⟨hsame, hskb⟩ := h.sendEmpty hres
        refine h.owed ?_ hskb
        apply SameSend.startTimer
        exact { hsame with }

/-- A retransmission when all of the ring has been sent. -/
theorem Tie.rexmitTimerCallback
    (hall : serv.xmtring.count = sent - acked) :
    Owed iss written acked (Net.rexmitTimerCallback alloc serv) := by
  unfold Net.rexmitTimerCallback
  split
  · exact owed_error _
  · split
    · exact h.owed ⟨rfl, rfl, rfl, fun _ => by simp⟩ (by simp)
    · dsimp only
      split
      · exact owed_error _
      · next res serv1 hres =>
        have hsame := (sendTcpDelayAck_quiet hres).same
        refine h.owed ?_ fun skb hskb => ?_
        · apply SameSend.startTimer
          exact { hsame with }
        · rw [Option.mem_toList] at hskb
          subst hskb
          have hmin : ((min serv.xmtring.count serv.rcvmss : Nat) : Int).toNat
            ≤ serv.xmtring.count := by omega
          obtain ⟨hseq, hlen, hbytes⟩ := sendTcpDelayAck_data hres
            (by rw [show TcpServ.ringOff _ true = 0 from rfl, Nat.zero_add]; exact hmin)
          refine h.label 0 (fun hpos => ?_) hlen (by omega) hbytes
          have hsum : sent = acked + (sent - acked) := by omega
          -- the end of the ring is `xmtseq`, so its start is `xmtack`
          rw [hseq (by omega), hall, h.seq, hsum, BitVec.ofNat_add,
            Nat.add_sub_cancel_left, Nat.add_zero]
          abel

end Callbacks

theorem rcvfinSwitchState_switched (serv : TcpServ) : Switched serv serv.rcvfinSwitchState := by
  unfold TcpServ.rcvfinSwitchState
  split
  · next hs => exact switched_state (by simp) (hs ▸ .finTaken)
  · next hs => exact switched_state (by simp) (hs ▸ .finTakenBoth)
  · next hs =>
    refine ⟨⟨rfl, rfl, rfl, by simp⟩, ?_, rfl, rfl⟩
    rw [hs]
    exact .single .finTakenLast
  · exact Switched.refl serv

theorem xmtfinSwitchState_switched : Switched serv serv.xmtfinSwitchState := by
  unfold TcpServ.xmtfinSwitchState
  split
  · next hs => exact switched_state (by simp) (hs ▸ .finSent)
  · next hs => exact switched_state (by simp) (hs ▸ .finSentSyn)
  · next hs => exact switched_state (by simp) (hs ▸ .finSentLast)
  · exact Switched.refl serv

theorem ackRcvfin_switched (serv : TcpServ) : Switched serv (ackRcvfin serv).1 := by
  unfold ackRcvfin
  have hswitch := rcvfinSwitchState_switched serv
  split
  · dsimp only
    split
    · exact hswitch
    · exact ⟨{ hswitch with }, hswitch.leads, hswitch.win, hswitch.mss⟩
  · exact Switched.refl serv

theorem sentXmtfin_switched :
    Switched serv (sentXmtfin serv xmtfin) := by
  cases xmtfin with
  | false => exact Switched.refl serv
  | true =>
    have hfin : Switched serv { serv with xmtfin := 2 } := { Switched.refl serv with }
    exact hfin.trans xmtfinSwitchState_switched

/-- After a packet `xmtseq` has moved by its length, whatever becomes of
the connection. -/
theorem afterSend_switched (serv : TcpServ) (len : Int) (xmtfin : Bool) :
    Switched { serv with xmtseq := serv.xmtseq + BitVec.ofInt 32 len }
      (afterSend serv len xmtfin).1 := by
  unfold afterSend
  have hack := ackRcvfin_switched { serv with xmtseq := serv.xmtseq + BitVec.ofInt 32 len }
  split
  · next hover =>
    rw [hover] at hack
    exact hack
  · next hon =>
    rw [hon] at hack
    exact hack.trans sentXmtfin_switched

/-- Sending `len` more bytes of the ring. -/
theorem Tie.advance (h : Tie iss written serv acked sent) (len : Nat)
    (hlen : sent - acked + len ≤ serv.xmtring.count) :
    Tie iss written { serv with xmtseq := serv.xmtseq + BitVec.ofInt 32 len } acked
      (sent + len) where
  data := h.data
  low := Nat.le_add_right_of_le h.low
  high := by
    have hcount := h.count
    have hhigh := h.high
    omega
  ack := h.ack
  seq := by
    rw [h.seq, BitVec.ofInt_natCast, BitVec.ofNat_add, ← BitVec.add_assoc]
  size := h.size
  synced := h.synced

/-- The rounds of `delay_timer_callback`: each sends bytes of the ring
from `xmtseq` on. -/
theorem Tie.tryAgain {alloc : Nat → Bool} {rounds len : Nat} (h : Tie iss written serv acked sent)
    (hfit : sent - acked + len ≤ serv.xmtring.count) :
    Owed iss written acked (Net.tryAgain alloc rounds serv len) := by
  refine tryAgain_rule (q := Owed iss written acked)
    (p := fun serv len => ∃ sent : Nat, ∃ n : Nat, len = n ∧ Tie iss written serv acked sent
      ∧ sent - acked + n ≤ serv.xmtring.count)
    owed_error ?_ ?_ ?_ ?_ ?_ ⟨sent, len, rfl, h, hfit⟩
  · rintro serv len ⟨sent, n, -, h, -⟩
    exact h.owed ⟨rfl, rfl, rfl, id⟩ (by simp)
  · rintro serv len alloc ⟨sent, n, -, h, -⟩
    exact h.askWindow
  · rintro serv len alloc ⟨sent, n, -, h, -⟩
    exact h.sendNothing
  · rintro serv serv1 len cut alloc fin ⟨sent, n, -, h, -⟩ hres
    exact h.owed ((sendTcpDelayAck_quiet hres).same.startTimer _) (by simp)
  · rintro serv serv1 len cut alloc fin skb ⟨sent, n, rfl, h, hfit⟩ hle hcut - hres
    obtain ⟨cut, rfl⟩ : ∃ c : Nat, cut = c := ⟨cut.toNat, by omega⟩
    have hsame := (sendTcpDelayAck_quiet hres).same
    obtain ⟨hseq, hlen, hbytes⟩ := sendTcpDelayAck_data hres
      (by rw [h.ringOff, Int.toNat_natCast]; omega)
    rw [h.ringOff, Int.toNat_natCast] at hbytes
    have hskb : DataLabelled iss written skb := by
      refine h.label _ (fun hpos => ?_) hlen (by omega) hbytes
      rw [hseq (by omega), h.seq, Nat.add_sub_cancel' h.low]
    have hone : ∀ p ∈ [skb], DataLabelled iss written p := by
      intro p hp
      rw [List.mem_singleton.mp hp]
      exact hskb
    have h1 := (h.same hsame).advance cut (by rw [hsame.ring]; omega)
    have hafter := afterSend_switched serv1 cut fin
    generalize afterSend serv1 cut fin = after at hafter
    obtain ⟨serv2, ended⟩ := after
    have h2 : Tie iss written serv2 acked (sent + cut) := h1.same hafter.toSameSend
    cases ended with
    | true => exact h2.owed ⟨rfl, rfl, rfl, id⟩ hone
    | false =>
      dsimp only [RoundOk]
      split
      · next hmore =>
        rw [h2.unackLen] at hmore
        refine ⟨⟨sent + cut, serv2.rcvmss, rfl, h2, by omega⟩, fun fired hrest => ?_⟩
        refine ⟨fun p hp => ?_, hrest.tie⟩
        rcases List.mem_cons.mp hp with rfl | hp
        · exact hskb
        · exact hrest.labels p hp
      · apply h2.owed _ hone
        apply SameSend.startTimer
        exact ⟨rfl, rfl, rfl, id⟩

theorem Tie.delayTimerCallback {alloc : Nat → Bool} (h : Tie iss written serv acked sent) :
    Owed iss written acked (Net.delayTimerCallback alloc serv) := by
  have h1 : Tie iss written { serv with timertype := .none } acked sent :=
    h.same ⟨rfl, rfl, rfl, id⟩
  unfold Net.delayTimerCallback
  dsimp only
  have hunack := h1.unackLen
  have hflight := h1.in_flight
  have hlen : min ((serv.xmtring.count : Int)
        - TcpServ.unackLen { serv with timertype := .none }) serv.rcvmss
      = (min (serv.xmtring.count - (sent - acked)) serv.rcvmss : Nat) := by
    have hle : sent - acked ≤ serv.xmtring.count := hflight.1
    omega
  rw [hlen]
  exact h1.tryAgain (by
    show sent - acked + _ ≤ serv.xmtring.count
    omega)

end Cnix.Net
