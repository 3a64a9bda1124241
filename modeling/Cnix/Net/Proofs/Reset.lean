/-
Which segments with `rst` close a connection.

# The two tests

A reset is to be believed if it acknowledges something that was sent and
not yet acknowledged: its `ack_seq` lies in `(xmtack, xmtseq]`
(`InFlight`). `reasm_tcpskb` looks at the same interval, and then does
the opposite: inside of it the segment is dropped, and outside of it the
connection is closed. A segment with `syn` as well is dropped before
that, and before that the keepalive timer is stopped.

`compare_seq` sees 64K ahead, so its interval is not quite the other one
when more than that is in flight. This is the only way for a reset
inside of the interval to close the connection (`rst_heeded_iff`).
-/
import Cnix.Net.Proofs.Labelling

namespace Cnix.Net

variable {serv : TcpServ} {skb : Skb}

/-- `ack_seq` lies in `(xmtack, xmtseq]`, counted from `xmtack`. -/
def InFlight (serv : TcpServ) (ackSeq : Seq) : Prop :=
  0 < (ackSeq - serv.xmtack).toNat
    ∧ (ackSeq - serv.xmtack).toNat ≤ (serv.xmtseq - serv.xmtack).toNat

instance (serv : TcpServ) (ackSeq : Seq) : Decidable (InFlight serv ackSeq) :=
  inferInstanceAs (Decidable (_ ∧ _))

/-- The handshake has begun to end. -/
def TcpState.synchronised : TcpState → Bool
  | .closed | .listen | .synSent => false
  | _ => true

/-- What is left is closed or freed. -/
def Reasm.ended (r : Reasm) : Prop := ∀ serv', r.serv = some serv' → serv'.state = .closed

/-- The segment closes the connection if its `ack_seq` is in flight, and
leaves it as it is if not. -/
def RstHeeded (serv : TcpServ) (skb : Skb) : Prop :=
  ∃ r, reasmTcpskb serv skb = .ok r
    ∧ (InFlight serv skb.tcp.ackSeq → r.ended)
    ∧ (¬ InFlight serv skb.tcp.ackSeq → r.serv = some serv)

/-- `compare_seq` does not see that `ack_seq` is in flight. -/
def FarAhead (serv : TcpServ) (ackSeq : Seq) : Prop :=
  2 ^ 16 < (ackSeq - serv.xmtack).toNat
    ∨ 2 ^ 32 - 2 ^ 16 ≤ (serv.xmtseq - serv.xmtack).toNat - (ackSeq - serv.xmtack).toNat

-- ======== the test

/-- The test of `reasm_tcpskb`. -/
def rstIgnored (serv : TcpServ) (ackSeq : Seq) : Prop :=
  0 < compareSeq ackSeq serv.xmtack ∧ compareSeq ackSeq serv.xmtseq ≤ 0

/-- The test of `reasm_tcpskb` is that `ack_seq` is in flight, as far as
`compare_seq` sees. -/
theorem rstIgnored_iff (serv : TcpServ) (ackSeq : Seq) :
    rstIgnored serv ackSeq ↔ InFlight serv ackSeq ∧ ¬ FarAhead serv ackSeq := by
  have hsplit : ackSeq - serv.xmtseq
      = (ackSeq - serv.xmtack) - (serv.xmtseq - serv.xmtack) := by abel
  unfold rstIgnored InFlight FarAhead
  rw [← not_lt, compareSeq_pos_iff, compareSeq_pos_iff, hsplit]
  generalize ackSeq - serv.xmtack = ahead
  rw [BitVec.toNat_sub]
  omega

-- ======== the segment

theorem stopKeepalive_of_ne (h : serv.timertype ≠ .keepalive) : serv.stopKeepalive = serv :=
  if_neg h

theorem stopKeepalive_timertype (h : serv.timertype = .keepalive) :
    serv.stopKeepalive.timertype = .none := by
  unfold TcpServ.stopKeepalive TcpServ.stopAnyTimer
  rw [if_pos h, if_neg (by rw [h]; simp)]

/-- `reasm_tcpskb` of a reset, after the handshake. -/
theorem reasmTcpskb_rst (hstate : serv.state.synchronised) (hrst : skb.tcp.rst) :
    reasmTcpskb serv skb = .ok (if skb.tcp.syn then ⟨true, some serv.stopKeepalive⟩
      else reasmRst serv.stopKeepalive skb.tcp) := by
  have hsame := (stopKeepalive_quiet serv).state
  have hsync : ¬ (serv.stopKeepalive.state = .closed ∨ serv.stopKeepalive.state = .listen
      ∨ serv.stopKeepalive.state = .synSent) := by
    rw [hsame]
    rintro (hs | hs | hs) <;> rw [hs] at hstate <;> cases hstate
  unfold reasmTcpskb
  rw [← TcpServ.stopKeepalive, if_neg hsync]
  cases skb.tcp.syn with
  | true => rw [if_pos rfl, if_pos rfl]
  | false => rw [if_neg Bool.false_ne_true, if_pos hrst, if_neg Bool.false_ne_true]

/-- A reset that passes the test is dropped. -/
theorem reasmRst_ignored {tcp : TcpHdr} (h : rstIgnored serv tcp.ackSeq) :
    reasmRst serv tcp = ⟨true, some serv⟩ :=
  if_pos h

/-- A reset that fails the test closes the connection. -/
theorem reasmRst_ended {tcp : TcpHdr} (h : ¬ rstIgnored serv tcp.ackSeq) :
    (reasmRst serv tcp).ended := by
  intro serv' hserv
  unfold reasmRst at hserv
  split at hserv
  · next hin => exact absurd hin h
  · split at hserv
    · cases hserv
    · cases hserv
      exact (stopAnyTimer_quiet _).state

/-- Where a reset is heeded: inside of the interval it must be so far
ahead that `compare_seq` takes it for outside, and outside of it a `syn`
has to keep it from being read. -/
theorem rst_heeded_iff (hstate : serv.state.synchronised) (hrst : skb.tcp.rst) :
    RstHeeded serv skb ↔
      (InFlight serv skb.tcp.ackSeq ∧ skb.tcp.syn = false ∧ FarAhead serv skb.tcp.ackSeq)
      ∨ (¬ InFlight serv skb.tcp.ackSeq ∧ skb.tcp.syn = true ∧ serv.timertype ≠ .keepalive) := by
  have hquiet := stopKeepalive_quiet serv
  have hopen : serv.state ≠ .closed := by
    intro hs
    rw [hs] at hstate
    cases hstate
  have hkept : ¬ Reasm.ended ⟨true, some serv.stopKeepalive⟩ :=
    fun hended => hopen (hquiet.state.symm.trans (hended _ rfl))
  have htest : rstIgnored serv.stopKeepalive skb.tcp.ackSeq
      ↔ InFlight serv skb.tcp.ackSeq ∧ ¬ FarAhead serv skb.tcp.ackSeq := by
    rw [← rstIgnored_iff]
    unfold rstIgnored
    rw [hquiet.seq, hquiet.ack]
  have hres : RstHeeded serv skb ↔
      (InFlight serv skb.tcp.ackSeq → Reasm.ended (if skb.tcp.syn then
        ⟨true, some serv.stopKeepalive⟩ else reasmRst serv.stopKeepalive skb.tcp))
      ∧ (¬ InFlight serv skb.tcp.ackSeq → (if skb.tcp.syn then
        ⟨true, some serv.stopKeepalive⟩ else reasmRst serv.stopKeepalive skb.tcp).serv
          = some serv) := by
    unfold RstHeeded
    rw [reasmTcpskb_rst hstate hrst]
    simp only [Except.ok.injEq, exists_eq_left']
  rw [hres]
  by_cases hin : InFlight serv skb.tcp.ackSeq
  · simp only [hin, not_true_eq_false, false_imp_iff, and_true, true_imp_iff, true_and,
      false_and, or_false]
    cases hsyn : skb.tcp.syn with
    | true => simpa using hkept
    | false =>
      by_cases hfar : FarAhead serv skb.tcp.ackSeq
      · simpa [hfar] using reasmRst_ended (fun h => (htest.mp h).2 hfar)
      · rw [if_neg (by simp), reasmRst_ignored (htest.mpr ⟨hin, hfar⟩)]
        simpa [hfar] using hkept
  · simp only [hin, not_false_eq_true, false_imp_iff, true_and, true_imp_iff, false_and,
      false_or]
    cases hsyn : skb.tcp.syn with
    | true =>
      simp only [if_true, Option.some.injEq, true_and]
      constructor
      · intro heq htype
        have hnone := stopKeepalive_timertype htype
        rw [heq, htype] at hnone
        cases hnone
      · exact stopKeepalive_of_ne
    | false =>
      have hended := reasmRst_ended (fun h => hin (htest.mp h).1)
      simp only [Bool.false_eq_true, if_false, false_and, iff_false]
      exact fun heq => hopen (hended serv heq)

/-- A reset without data. -/
def resetSkb (ackSeq : Seq) (syn : Bool) : Skb where
  tcp :=
    { seq := 0, ackSeq := ackSeq, doff := 5, fin := false, syn := syn, rst := true
      ack := true, urg := false, window := 0, urgPtr := 0 }
  dgramLen := 20
  head := []
  rest := []

/-- A reset with `syn` that acknowledges nothing in flight leaves a
connection alone. -/
theorem rst_with_syn_heeded :
    ¬ InFlight (establishedServ 0 0) 99 ∧ RstHeeded (establishedServ 0 0) (resetSkb 99 true) :=
  have hout : ¬ InFlight (establishedServ 0 0) 99 := by decide
  ⟨hout, (rst_heeded_iff rfl rfl).mpr (.inr ⟨hout, rfl, by decide⟩)⟩

/-- Nothing is in flight, and a reset with any `ack_seq` closes the
connection. Ten bytes are in flight, and a reset that acknowledges them
is dropped. -/
theorem rst_misjudged : ¬ RstHeeded (establishedServ 0 0) (resetSkb 99 false)
    ∧ ¬ RstHeeded { establishedServ 0 0 with xmtseq := 11 } (resetSkb 11 false) := by
  refine ⟨?_, ?_⟩
  · rintro ⟨r, hres, -, hout⟩
    have hclosed : reasmTcpskb (establishedServ 0 0) (resetSkb 99 false)
        = .ok ⟨true, some { establishedServ 0 0 with state := .closed }⟩ := rfl
    have hr := Except.ok.inj (hres.symm.trans hclosed)
    have hserv := hout (show ¬ InFlight (establishedServ 0 0) 99 by decide)
    rw [hr] at hserv
    have hstate := congrArg TcpServ.state (Option.some.inj hserv)
    cases hstate
  · rintro ⟨r, hres, hin, -⟩
    have hkept : reasmTcpskb { establishedServ 0 0 with xmtseq := 11 } (resetSkb 11 false)
        = .ok ⟨true, some { establishedServ 0 0 with xmtseq := 11 }⟩ := rfl
    have hr := Except.ok.inj (hres.symm.trans hkept)
    have hended := hin
      (show InFlight { establishedServ 0 0 with xmtseq := 11 } 11 by decide)
    rw [hr] at hended
    have hstate := hended _ rfl
    cases hstate

end Cnix.Net
