/-
What most of a connection's code does not touch: the ring that is sent
from, the numbers that say what of it was sent and acknowledged, the
state, and the two other fields that the state depends on.

`insert_tcp_packet`, the reading side and the timers are quiet. What is
left is where a connection moves: `takeAck`, `dropAcked` and the `switch`
between them, `afterSend`, `tcp_write`, and the ends of a connection.
-/
import Cnix.Net.TcpSend

namespace Cnix.Net

variable {serv serv' serv'' : TcpServ} {skb : Skb} {alloc fromhead xmtfin : Bool} {xmtseq : Seq}
  {len : Int}

/-- The step leaves alone what is sent and what state the connection is
in. -/
structure Quiet (serv serv' : TcpServ) : Prop where
  ring : serv'.xmtring = serv.xmtring
  seq : serv'.xmtseq = serv.xmtseq
  ack : serv'.xmtack = serv.xmtack
  state : serv'.state = serv.state
  xmtfin : serv'.xmtfin = serv.xmtfin
  rcvmss : serv'.rcvmss = serv.rcvmss

namespace Quiet

theorem refl (serv : TcpServ) : Quiet serv serv := ⟨rfl, rfl, rfl, rfl, rfl, rfl⟩

theorem trans (h : Quiet serv serv') (h' : Quiet serv' serv'') : Quiet serv serv'' where
  ring := h'.ring.trans h.ring
  seq := h'.seq.trans h.seq
  ack := h'.ack.trans h.ack
  state := h'.state.trans h.state
  xmtfin := h'.xmtfin.trans h.xmtfin
  rcvmss := h'.rcvmss.trans h.rcvmss

-- ======== the timers

theorem startTimer (h : Quiet serv serv') (timertype : TimerType) :
    Quiet serv (serv'.startTimer timertype) := by
  unfold TcpServ.startTimer
  split
  · exact h
  · exact { h with }

end Quiet

theorem restartDelayTimer_quiet (serv : TcpServ) : Quiet serv serv.restartDelayTimer := by
  unfold TcpServ.restartDelayTimer
  split
  · exact Quiet.refl serv
  · exact ⟨rfl, rfl, rfl, rfl, rfl, rfl⟩

theorem stopAnyTimer_quiet (serv : TcpServ) : Quiet serv serv.stopAnyTimer := by
  unfold TcpServ.stopAnyTimer
  split
  · exact Quiet.refl serv
  · exact ⟨rfl, rfl, rfl, rfl, rfl, rfl⟩

/-- What `reasm_tcpskb` does first. -/
def TcpServ.stopKeepalive (serv : TcpServ) : TcpServ :=
  if serv.timertype = .keepalive then serv.stopAnyTimer else serv

theorem stopKeepalive_quiet (serv : TcpServ) : Quiet serv serv.stopKeepalive := by
  unfold TcpServ.stopKeepalive
  split
  · exact stopAnyTimer_quiet serv
  · exact Quiet.refl serv

theorem nextTimer_quiet (h : nextTimer serv = .ok serv') : Quiet serv serv' := by
  unfold nextTimer TcpServ.startRexmtTimer TcpServ.startKeepaliveTimer at h
  dsimp only at h
  split at h
  · split at h
    · split at h
      · cases h
      cases h
      apply Quiet.startTimer
      exact ⟨rfl, rfl, rfl, rfl, rfl, rfl⟩
    · cases h
      apply Quiet.startTimer
      exact ⟨rfl, rfl, rfl, rfl, rfl, rfl⟩
  · split at h
    · cases h
    cases h
    apply Quiet.startTimer
    exact ⟨rfl, rfl, rfl, rfl, rfl, rfl⟩

/-- What runs when the timer expires, unless it frees the connection. -/
theorem timerExpires_cases {alloc : Nat → Bool} {fired : Fired}
    (h : timerExpires alloc serv = some fired) : ∃ serv1, Quiet serv serv1 ∧
      (fired = ⟨.ok serv1, []⟩ ∨ fired = delayTimerCallback alloc serv1
        ∨ (serv.timertype = .rexmt ∧ fired = rexmitTimerCallback (alloc 0) serv1)
        ∨ fired = keepaliveTimerCallback (alloc 0) serv1) := by
  refine ⟨{ serv with armed := false }, ⟨rfl, rfl, rfl, rfl, rfl, rfl⟩, ?_⟩
  unfold timerExpires at h
  dsimp only at h
  split at h
  · exact .inl (Option.some.inj h).symm
  · exact .inr (.inl (Option.some.inj h).symm)
  · exact .inr (.inl (Option.some.inj h).symm)
  · next htype => exact .inr (.inr (.inl ⟨htype, (Option.some.inj h).symm⟩))
  · exact .inr (.inr (.inr (Option.some.inj h).symm))
  · cases h

theorem tcpWriteFull_quiet (serv : TcpServ) : Quiet serv serv.tcpWriteFull := by
  unfold TcpServ.tcpWriteFull
  split
  · exact restartDelayTimer_quiet serv
  · exact Quiet.refl serv

-- ======== the packets

theorem csTcpPacket_hdr {param : TcpParam} {ring : RingBuffer}
    {off len : Nat} (h : csTcpPacket alloc serv param ring off len = .ok (some skb)) :
    skb.tcp.fin = param.fin ∧ skb.tcp.seq = param.seq := by
  unfold csTcpPacket at h
  dsimp only at h
  split at h
  · cases h
  split at h
  · cases h
  split at h
  · cases h
  · cases h
    exact ⟨rfl, rfl⟩

/-- Where in the ring `send_tcp_delay_ack` starts. -/
def TcpServ.ringOff (serv : TcpServ) (fromhead : Bool) : Nat :=
  if fromhead then 0 else (serv.xmtseq - serv.xmtack).toNat

/-- `send_tcp_delay_ack` hands its bytes to `cs_tcp_packet`, labelled as
it is told, unless `fin` was acknowledged already and there are no bytes. -/
theorem sendTcpDelayAck_cases {res : Option Skb}
    (h : sendTcpDelayAck alloc serv xmtseq fromhead len xmtfin = .ok (res, serv')) :
    ∃ param rcvack update, serv' = { serv with rcvack := rcvack, xmtwinUpdate := update }
      ∧ param.fin = xmtfin ∧ (serv.xmtfin ≠ 3 ∨ 0 < len → param.seq = xmtseq)
      ∧ csTcpPacket alloc serv param serv.xmtring (serv.ringOff fromhead) len.toNat = .ok res := by
  unfold sendTcpDelayAck at h
  dsimp only at h
  generalize hoff : (if fromhead = true then 0 else serv.xmtseq - serv.xmtack) = off at h
  have hring : serv.ringOff fromhead = off.toNat := by
    rw [← hoff]
    unfold TcpServ.ringOff
    split <;> rfl
  rw [hring]
  split at h
  · cases h
  next hdie =>
  have hseq {s : Seq} (hplain : serv.xmtfin ≠ 3 ∨ 0 < len) :
      (if decide (serv.xmtfin = 3 ∧ serv.rcvfin ≠ 0) = true then s + 1 else s) = s := by
    refine if_neg fun hacked => ?_
    exact hplain.elim (fun hne => hne (of_decide_eq_true hacked).1) fun hpos => hdie ⟨hacked, hpos⟩
  split at h
  · cases h
  split at h
  · cases h
  · next hcs =>
    cases h
    exact ⟨_, _, _, rfl, rfl, hseq, hcs⟩
  · next hcs =>
    cases h
    exact ⟨_, _, _, rfl, rfl, hseq, hcs⟩

/-- It is quiet. Its packet has `fin` if it is told so. -/
theorem sendTcpDelayAck_inv
    {res : Option Skb} (h : sendTcpDelayAck alloc serv xmtseq fromhead len xmtfin
      = .ok (res, serv')) : Quiet serv serv' ∧ ∀ skb, res = some skb →
      skb.tcp.fin = xmtfin ∧ (serv.xmtfin ≠ 3 → skb.tcp.seq = xmtseq) := by
  obtain ⟨param, rcvack, update, rfl, hfin, hlabel, hcs⟩ := sendTcpDelayAck_cases h
  refine ⟨⟨rfl, rfl, rfl, rfl, rfl, rfl⟩, fun skb hskb => ?_⟩
  subst hskb
  obtain ⟨hskb, hseq⟩ := csTcpPacket_hdr hcs
  exact ⟨hskb.trans hfin, fun hne => hseq.trans (hlabel (.inl hne))⟩

theorem sendTcpDelayAck_quiet
    {res : Option Skb} (h : sendTcpDelayAck alloc serv xmtseq fromhead len xmtfin
      = .ok (res, serv')) : Quiet serv serv' :=
  (sendTcpDelayAck_inv h).1

theorem tcpRead_quiet {bytes : List Byte} {n : Nat}
    (h : tcpRead serv n = .ok (bytes, serv')) : Quiet serv serv' := by
  rw [tcpRead, tcpReadRound, if_neg Bool.false_ne_true, if_neg Bool.false_ne_true] at h
  split at h
  · cases h
  · cases h
    exact ⟨rfl, rfl, rfl, rfl, rfl, rfl⟩

section Insert

variable {res : Inserted} {list : List Skb} {delta : Seq}

theorem updateRcvwin_quiet {window : BitVec 16}
    (h : updateRcvwin serv window = .ok serv') : Quiet serv serv' := by
  unfold updateRcvwin TcpServ.stopDelayTimer at h
  split at h
  · split at h
    · cases h
    next serv1 hstop =>
    split at hstop
    · cases hstop
    cases hstop
    cases h
    have hrestart :=
      restartDelayTimer_quiet { serv with timertype := .none, armed := false }
    exact { hrestart with }
  · cases h
    exact ⟨rfl, rfl, rfl, rfl, rfl, rfl⟩

theorem takeUrg_quiet (skb : Skb) (serv : TcpServ) : Quiet serv (takeUrg skb serv).1 := by
  unfold takeUrg
  split
  · split
    · exact ⟨rfl, rfl, rfl, rfl, rfl, rfl⟩
    · exact ⟨rfl, rfl, rfl, rfl, rfl, rfl⟩
  · exact ⟨rfl, rfl, rfl, rfl, rfl, rfl⟩

theorem skbCopyData_quiet (skb : Skb) (serv : TcpServ) (urgPtr : Nat) :
    Quiet serv (skbCopyData skb serv urgPtr).1 := by
  unfold skbCopyData
  split
  · exact Quiet.refl serv
  · exact ⟨rfl, rfl, rfl, rfl, rfl, rfl⟩

theorem copyFirst_quiet :
    Quiet serv (copyFirst skb list serv).serv := by
  have hwin : Quiet serv
      { serv with xmtwin := serv.xmtwin - BitVec.ofNat 16 skb.dgramLen } :=
    ⟨rfl, rfl, rfl, rfl, rfl, rfl⟩
  have hurg := hwin.trans (takeUrg_quiet skb _)
  unfold copyFirst
  dsimp only
  generalize takeUrg skb { serv with xmtwin := serv.xmtwin - BitVec.ofNat 16 skb.dgramLen }
    = taken at hurg ⊢
  have hcopy := hurg.trans (skbCopyData_quiet skb taken.1 taken.2)
  exact { hcopy with }

theorem takeFin_quiet (fin : Bool) : Quiet serv (takeFin serv fin) := by
  cases fin with
  | false => exact Quiet.refl serv
  | true => exact ⟨rfl, rfl, rfl, rfl, rfl, rfl⟩

theorem deliverFirst_quiet (h : deliverFirst skb list serv = .ok res) : Quiet serv res.serv := by
  unfold deliverFirst at h
  split at h
  · cases h
  next serv1 hwin =>
  have hfin := (updateRcvwin_quiet hwin).trans (takeFin_quiet skb.tcp.fin)
  dsimp only at h
  split at h
  · split at h
    · cases h
    · cases h
      exact { hfin with }
  · cases h
    exact hfin.trans copyFirst_quiet

theorem checkFirst_quiet (h : checkFirst delta list serv = .ok res) : Quiet serv res.serv := by
  unfold checkFirst at h
  split at h
  · cases h
    exact ⟨rfl, rfl, rfl, rfl, rfl, rfl⟩
  · dsimp only at h
    split at h
    · split at h
      · cases h
      · exact deliverFirst_quiet h
    · cases h
      exact ⟨rfl, rfl, rfl, rfl, rfl, rfl⟩

theorem insertTcpPacket_quiet (h : insertTcpPacket serv skb = .ok res) : Quiet serv res.serv := by
  unfold insertTcpPacket at h
  dsimp only at h
  split at h
  · cases h
    exact Quiet.refl serv
  · split at h
    · split at h
      · cases h
        exact Quiet.refl serv
      · split at h
        · cases h
        next hwin =>
        cases h
        exact updateRcvwin_quiet hwin
    · split at h
      · cases h
        exact Quiet.refl serv
      · split at h
        · cases h
        · cases h
          exact ⟨rfl, rfl, rfl, rfl, rfl, rfl⟩
        · exact checkFirst_quiet h

end Insert

theorem ackUrg_quiet (serv : TcpServ) (ackSeq : Seq) : Quiet serv (ackUrg serv ackSeq) := by
  unfold ackUrg
  split
  · exact ⟨rfl, rfl, rfl, rfl, rfl, rfl⟩
  · exact Quiet.refl serv

theorem reasmUnsynced_quiet (hserv : (reasmUnsynced serv skb).serv = some serv') :
    Quiet serv serv' := by
  unfold reasmUnsynced at hserv
  split at hserv
  · cases hserv
    exact Quiet.refl serv
  · split at hserv
    · dsimp only at hserv
      split at hserv
      · cases hserv
        exact ⟨rfl, rfl, rfl, rfl, rfl, rfl⟩
      · cases hserv
        exact ⟨rfl, rfl, rfl, rfl, rfl, rfl⟩
    · split at hserv
      · cases hserv
        exact ⟨rfl, rfl, rfl, rfl, rfl, rfl⟩
      · cases hserv
        exact Quiet.refl serv
    · cases hserv
      exact Quiet.refl serv

end Cnix.Net
