/-
When our `fin` is acknowledged.

# The sequence number of `fin`

`fin` is sent by itself, when all of the ring has been sent, and
`xmtseq` does not count it: while it is out, it is the byte at `xmtseq`
(`Out`). It takes an `ack_seq` of `xmtseq + 1` to acknowledge it, and
`reasm_tcpskb` knows that number. But the moves out of `TCP_FIN_WAIT_1`,
`TCP_CLOSING` and `TCP_LAST_ACK` are made for every segment that moves
`xmtack`, and so for one that acknowledges a part of the data before
`fin`.

In the runs in which no such segment arrives (`FinHeard`) the moves are
made for an acknowledgement of `fin` only.
-/
import Cnix.Net.Proofs.Accounting

namespace Cnix.Net

open TcpState (Next Leads)
open BitVec (ofInt)

variable {iss seq : Seq} {serv serv' : TcpServ} {skb : Skb} {log sent : List Skb} {s : TcpState}
  {fired : Fired} {tcp : TcpHdr} {a : Acked} {r : Reasm} {ev : ConnEvent} {alloc : Nat → Bool}

-- ======== the phases

/-- `fin` has been sent, and an acknowledgement is waited for. -/
def TcpState.finOut : TcpState → Bool
  | .finWait1 | .closing | .lastAck => true
  | _ => false

/-- `fin` was acknowledged, or is no longer waited for. -/
def TcpState.finDone : TcpState → Bool
  | .finWait2 | .timeWait | .closed | .listen => true
  | _ => false

theorem finDone_next {s' : TcpState} (h : Next s s') (hs : s.finDone) : s'.finDone := by
  cases h with
  | orphaned | finTakenLast | dropped => rfl
  | accepted | finAcked | closed | finSentSyn | finSent
  | finSentLast | finTaken | finTakenBoth => cases hs

/-- Before `fin` is sent: what was sent and not acknowledged is in the
ring. -/
structure Running (serv : TcpServ) : Prop where
  state : serv.state = .established ∨ serv.state = .closeWait
  flight : serv.flight ≤ serv.xmtring.count
  size : serv.xmtring.size = defaultRingSize
  xmtfin : serv.xmtfin ≤ 1
  rcvmss : 0 < serv.rcvmss

/-- `fin` is out: all of the ring was sent before it. -/
structure Out (serv : TcpServ) : Prop where
  state : serv.state.finOut
  flight : serv.flight = serv.xmtring.count
  size : serv.xmtring.size = defaultRingSize
  xmtfin : serv.xmtfin = 2
  rcvmss : 0 < serv.rcvmss

/-- None of the packets has `fin`. -/
def NoFin (log : List Skb) : Prop := ∀ skb ∈ log, skb.tcp.fin = false

/-- There is a packet with `fin`, and it has this label. -/
structure FinAt (seq : Seq) (log : List Skb) : Prop where
  sent : ∃ skb ∈ log, skb.tcp.fin = true
  label : ∀ skb ∈ log, skb.tcp.fin = true → skb.tcp.seq = seq

/-- How far a connection has come with its `fin`. -/
inductive FinPhase (iss : Seq) : TcpServ → List Skb → Prop
  | opening {serv : TcpServ} {log : List Skb} :
      Opening iss serv → NoFin log → FinPhase iss serv log
  | running {serv : TcpServ} {log : List Skb} :
      Running serv → NoFin log → FinPhase iss serv log
  | out {serv : TcpServ} {log : List Skb} :
      Out serv → FinAt serv.xmtseq log → FinPhase iss serv log
  | done {serv : TcpServ} {log : List Skb} : serv.state.finDone → FinPhase iss serv log

theorem NoFin.append (h : NoFin log) (h' : NoFin sent) : NoFin (log ++ sent) :=
  List.forall_mem_append.mpr ⟨h, h'⟩

theorem NoFin.label (h : NoFin log) : ∀ skb ∈ log, skb.tcp.fin = true → skb.tcp.seq = seq := by
  intro skb hskb hfin
  rw [h skb hskb] at hfin
  cases hfin

theorem NoFin.finAt (h : NoFin log) (h' : FinAt seq sent) : FinAt seq (log ++ sent) where
  sent := by
    obtain ⟨skb, hskb, hfin⟩ := h'.sent
    exact ⟨skb, List.mem_append_right _ hskb, hfin⟩
  label := List.forall_mem_append.mpr ⟨h.label, h'.label⟩

theorem FinAt.append (h : FinAt seq log)
    (h' : ∀ skb ∈ sent, skb.tcp.fin = true → skb.tcp.seq = seq) : FinAt seq (log ++ sent) where
  sent := by
    obtain ⟨skb, hskb, hfin⟩ := h.sent
    exact ⟨skb, List.mem_append_left _ hskb, hfin⟩
  label := List.forall_mem_append.mpr ⟨h.label, h'⟩

theorem noFin_nil : NoFin [] := nofun

theorem Started.running (h : Started iss serv) : Running serv where
  state := .inl h.state
  flight := by
    unfold TcpServ.flight
    rw [h.seq, h.ack, sub_self, h.count]
    rfl
  size := h.size
  xmtfin := by
    rw [h.xmtfin]
    exact Nat.zero_le _
  rcvmss := h.rcvmss

theorem Running.quiet (h : Running serv) (hq : Quiet serv serv') : Running serv' where
  state := by
    rw [hq.state]
    exact h.state
  flight := by
    rw [hq.flight, hq.ring]
    exact h.flight
  size := by rw [hq.ring, h.size]
  xmtfin := by
    rw [hq.xmtfin]
    exact h.xmtfin
  rcvmss := by
    rw [hq.rcvmss]
    exact h.rcvmss

theorem Out.quiet (h : Out serv) (hq : Quiet serv serv') : Out serv' where
  state := by
    rw [hq.state]
    exact h.state
  flight := by rw [hq.flight, hq.ring, h.flight]
  size := by rw [hq.ring, h.size]
  xmtfin := hq.xmtfin.trans h.xmtfin
  rcvmss := by
    rw [hq.rcvmss]
    exact h.rcvmss

theorem flight_le (hsize : serv.xmtring.size = defaultRingSize)
    (h : serv.flight ≤ serv.xmtring.count) : serv.flight ≤ 2 ^ 13 := by
  have hle := serv.xmtring.count_le
  have hring : serv.xmtring.size = 2 ^ 13 := hsize
  omega

theorem unackLen_flight (h : serv.flight < 2 ^ 31) : serv.unackLen = serv.flight := by
  unfold TcpServ.flight at h ⊢
  exact BitVec.toInt_eq_toNat_of_lt (by omega)

theorem unackLen_ring (hsize : serv.xmtring.size = defaultRingSize)
    (h : serv.flight ≤ serv.xmtring.count) : serv.unackLen = serv.flight :=
  unackLen_flight ((flight_le hsize h).trans_lt (by decide))

-- ======== the timers

section Packets

variable {alloc : Bool} {res : Option Skb} {xmtseq : Seq} {fromhead : Bool} {len : Int}

theorem sendTcpDelayAck_noFin
    (h : sendTcpDelayAck alloc serv xmtseq fromhead len false = .ok (res, serv')) :
    NoFin res.toList := by
  intro skb hskb
  rw [Option.mem_toList] at hskb
  exact ((sendTcpDelayAck_inv h).2 skb hskb).1

theorem sendEmpty_noFin {cond : Prop} [Decidable cond]
    (h : (if cond then sendTcpDelayAck alloc serv xmtseq fromhead len false
      else .ok (none, serv)) = .ok (res, serv')) : NoFin res.toList := by
  split at h
  · exact sendTcpDelayAck_noFin h
  · cases h
    exact noFin_nil

theorem askWindow_noFin : NoFin (askWindow alloc serv).sent := by
  unfold askWindow
  split
  · exact noFin_nil
  · next hres => exact sendTcpDelayAck_noFin hres

theorem sendNothing_noFin : NoFin (sendNothing alloc serv).sent := by
  unfold sendNothing
  split
  · exact noFin_nil
  · next hres => exact sendEmpty_noFin hres

theorem keepaliveTimerCallback_noFin : NoFin (keepaliveTimerCallback alloc serv).sent := by
  unfold keepaliveTimerCallback
  split
  · exact noFin_nil
  · split
    · exact noFin_nil
    · split
      · exact noFin_nil
      · next hres => exact sendEmpty_noFin hres

/-- `fin` is retransmitted when there is nothing else, with its label. -/
theorem rexmitTimerCallback_fin :
    ∀ skb ∈ (rexmitTimerCallback alloc serv).sent, skb.tcp.fin = true →
      serv.xmtfin = 2 ∧ skb.tcp.seq = serv.xmtseq := by
  intro skb hskb hfin
  unfold rexmitTimerCallback at hskb
  split at hskb
  · cases hskb
  split at hskb
  · cases hskb
  dsimp only at hskb
  split at hskb
  · cases hskb
  next hres =>
  rw [Option.mem_toList] at hskb
  obtain ⟨hflag, hlabel⟩ := (sendTcpDelayAck_inv hres).2 skb hskb
  rw [hflag, decide_eq_true_eq] at hfin
  obtain ⟨-, hcount, htwo⟩ := hfin
  refine ⟨htwo, (hlabel (by show serv.xmtfin ≠ 3; omega)).trans ?_⟩
  rw [hcount]
  exact sub_zero serv.xmtseq

end Packets

/-- Acknowledging the other side's `fin` moves the state, and nothing
else that matters, among the states `p`. -/
theorem ackRcvfin_among {p : TcpState → Prop} (hstate : p serv.state)
    (hopen : p .established → p .closeWait) (hwait : p .finWait1 → p .closing)
    (htwo : ¬ p .finWait2) (hlast : ¬ p .timeWait) :
    ∃ st serv1, ackRcvfin serv = (serv1, false) ∧ p st ∧ Quiet { serv with state := st } serv1 := by
  unfold ackRcvfin
  split
  · obtain ⟨st, serv1, hst, hswitch, hquiet⟩ : ∃ st serv1, p st
        ∧ serv.rcvfinSwitchState = serv1 ∧ serv1 = { serv with state := st } := by
      unfold TcpServ.rcvfinSwitchState
      split
      · next hs => exact ⟨_, _, hopen (hs ▸ hstate), rfl, rfl⟩
      · next hs => exact ⟨_, _, hwait (hs ▸ hstate), rfl, rfl⟩
      · next hs => exact absurd (hs ▸ hstate) htwo
      · exact ⟨_, _, hstate, rfl, rfl⟩
    rw [hswitch, hquiet]
    rw [if_neg fun (hs : st = .timeWait) => hlast (hs ▸ hst)]
    exact ⟨st, _, rfl, hst, rfl, rfl, rfl, rfl, rfl, rfl⟩
  · exact ⟨serv.state, serv, rfl, hstate, rfl, rfl, rfl, rfl, rfl, rfl⟩

/-- What the delay timer leaves: `fin` not sent, or sent and out. -/
def Fires (serv : TcpServ) (sent : List Skb) : Prop :=
  (Running serv ∧ NoFin sent) ∨ (Out serv ∧ FinAt serv.xmtseq sent)

/-- More bytes are in flight. -/
theorem flight_advance {len : Nat} (h : serv.flight + len < 2 ^ 31) :
    TcpServ.flight { serv with xmtseq := serv.xmtseq + ofInt 32 len }
      = serv.flight + len := by
  have hmove : serv.xmtseq + ofInt 32 len - serv.xmtack
      = serv.xmtseq - serv.xmtack + BitVec.ofNat 32 len := by
    rw [BitVec.ofInt_natCast]
    abel
  unfold TcpServ.flight at h ⊢
  rw [hmove, BitVec.toNat_add, BitVec.toNat_ofNat]
  omega

/-- After a packet of `len` bytes, or with `fin`. -/
theorem Running.afterSend (h : Running serv) (len : Nat) (fin : Bool)
    (hfit : serv.flight + len ≤ serv.xmtring.count)
    (hfin : fin = true → serv.flight = serv.xmtring.count ∧ len = 0) :
    ∃ serv1, Net.afterSend serv len fin = (serv1, false) ∧ (fin = false → Running serv1)
      ∧ (fin = true → Out serv1 ∧ serv1.xmtseq = serv.xmtseq) := by
  have hsmall : serv.flight + len < 2 ^ 31 := by
    have hle := serv.xmtring.count_le
    have hring : serv.xmtring.size = 2 ^ 13 := h.size
    omega
  unfold Net.afterSend
  generalize hserv : ({ serv with xmtseq := serv.xmtseq + ofInt 32 len } : TcpServ) = serv0
  have hflight : serv0.flight = serv.flight + len := hserv ▸ flight_advance hsmall
  have hring : serv0.xmtring = serv.xmtring := hserv ▸ rfl
  have hzero : fin = true → serv0.xmtseq = serv.xmtseq := by
    intro hf
    rw [← hserv, (hfin hf).2]
    exact add_zero serv.xmtseq
  have h1 : Running serv0 := by
    rw [← hserv] at hflight ⊢
    exact { h with flight := hflight.trans_le hfit }
  have hfull : fin = true → serv0.flight = serv.xmtring.count := by
    intro hf
    obtain ⟨hall, hnone⟩ := hfin hf
    rw [hflight, hnone, Nat.add_zero, hall]
  rw [← hring] at hfull
  obtain ⟨st, serv2, hack, hst, hquiet⟩ := ackRcvfin_among
    (p := fun s => s = .established ∨ s = .closeWait) h1.state (fun _ => .inr rfl)
    (by simp) (by simp) (by simp)
  have hmoved : Running { serv0 with state := st } :=
    { h1 with state := hst }
  have h2 : Running serv2 := hmoved.quiet hquiet
  rw [hack]
  refine ⟨_, rfl, fun hf => ?_, fun hf => ?_⟩
  · rw [hf]
    exact h2
  · rw [hf]
    have hflight2 : serv2.flight = serv2.xmtring.count := by
      rw [hquiet.flight, hquiet.ring]
      exact hfull hf
    have hseq2 : serv2.xmtseq = serv.xmtseq := hquiet.seq.trans (hzero hf)
    unfold sentXmtfin TcpServ.xmtfinSwitchState
    rcases h2.state with hs | hs
    · simp only [hs]
      exact ⟨⟨rfl, hflight2, h2.size, rfl, h2.rcvmss⟩, hseq2⟩
    · simp only [hs]
      exact ⟨⟨rfl, hflight2, h2.size, rfl, h2.rcvmss⟩, hseq2⟩

theorem Running.tryAgain {rounds : Nat} {len : Int} (h : Running serv)
    (hlen : ∃ n : Nat, len = n ∧ serv.flight + n ≤ serv.xmtring.count
      ∧ (n = 0 → serv.flight = serv.xmtring.count))
    (hserv : (Net.tryAgain alloc rounds serv len).serv = .ok serv') :
    Fires serv' (Net.tryAgain alloc rounds serv len).sent := by
  obtain ⟨n, hn, hfit⟩ := hlen
  refine tryAgain_rule (q := fun fired => ∀ serv', fired.serv = .ok serv' → Fires serv' fired.sent)
    (p := fun serv len => ∃ n : Nat, len = n ∧ Running serv
      ∧ serv.flight + n ≤ serv.xmtring.count ∧ (n = 0 → serv.flight = serv.xmtring.count))
    ?_ ?_ ?_ ?_ ?_ ?_ ⟨n, hn, h, hfit⟩ serv' hserv
  · intro t serv' hserv
    cases hserv
  · rintro serv len ⟨n, -, h, -⟩ serv' hserv
    cases hserv
    exact .inl ⟨h, noFin_nil⟩
  · rintro serv len alloc ⟨n, -, h, -⟩ serv' hserv
    exact .inl ⟨h.quiet (askWindow_quiet hserv), askWindow_noFin⟩
  · rintro serv len alloc ⟨n, -, h, -⟩ serv' hserv
    exact .inl ⟨h.quiet (sendNothing_quiet hserv), sendNothing_noFin⟩
  · rintro serv serv1 len cut alloc fin ⟨n, -, h, -⟩ hres serv' hserv
    cases hserv
    exact .inl ⟨h.quiet ((sendTcpDelayAck_quiet hres).startTimer .delay), noFin_nil⟩
  · rintro serv serv1 len cut alloc fin skb ⟨n, rfl, h, hfit, hall⟩ hle hcut hfin hres
    obtain ⟨cut, rfl⟩ : ∃ c : Nat, cut = c := ⟨cut.toNat, by omega⟩
    obtain ⟨hquiet, hskb⟩ := sendTcpDelayAck_inv hres
    obtain ⟨hflag, hlabel⟩ := hskb skb rfl
    have hxmtfin := h.xmtfin
    have hseq : skb.tcp.seq = serv.xmtseq := hlabel (by omega)
    obtain ⟨serv2, hafter, hgo, hend⟩ := (h.quiet hquiet).afterSend cut fin
      (by rw [hquiet.flight, hquiet.ring]; omega)
      (by
        intro hset
        rw [hfin, decide_eq_true_eq] at hset
        rw [hquiet.flight, hquiet.ring]
        exact ⟨hall (by omega), by omega⟩)
    rw [hafter]
    dsimp only [RoundOk]
    cases fin with
    | true =>
      -- all is sent: there is no further round
      obtain ⟨hout, hxmtseq⟩ := hend rfl
      have hlabelled : FinAt serv2.xmtseq [skb] :=
        { sent := ⟨skb, List.mem_singleton_self skb, hflag⟩
          label := by
            intro p hp _
            rw [List.mem_singleton.mp hp, hseq, hxmtseq, hquiet.seq] }
      have hunack2 := unackLen_ring hout.size hout.flight.le
      have hflight2 := hout.flight
      rw [if_neg (by rw [hunack2]; omega)]
      intro serv' hserv
      cases hserv
      have hstart := (Quiet.refl serv2).startTimer .delay
      refine .inr ⟨hout.quiet hstart, ?_⟩
      rw [show serv2.startDelayTimer.xmtseq = serv2.xmtseq from hstart.seq]
      exact hlabelled
    | false =>
      have hrun := hgo rfl
      have hone : NoFin [skb] := by
        intro p hp
        rw [List.mem_singleton.mp hp]
        exact hflag
      split
      · next hmore =>
        have hunack2 := unackLen_ring hrun.size hrun.flight
        have hmss := hrun.rcvmss
        refine ⟨⟨serv2.rcvmss, rfl, hrun, by omega, by omega⟩, fun fired hfired serv' hserv => ?_⟩
        rcases hfired serv' hserv with ⟨hr, hnone⟩ | ⟨ho, hat⟩
        · exact .inl ⟨hr, hone.append hnone⟩
        · exact .inr ⟨ho, hone.finAt hat⟩
      · intro serv' hserv
        cases hserv
        exact .inl ⟨hrun.quiet ((Quiet.refl serv2).startTimer .delay), hone⟩

theorem Running.delayTimerCallback (h : Running serv)
    (hserv : (Net.delayTimerCallback alloc serv).serv = .ok serv') :
    Fires serv' (Net.delayTimerCallback alloc serv).sent := by
  have h1 : Running { serv with timertype := .none } :=
    { h with }
  have hunack := unackLen_ring h1.size h1.flight
  have hflight := h.flight
  have hmss := h.rcvmss
  refine h1.tryAgain ⟨min (serv.xmtring.count - serv.flight) serv.rcvmss, ?_⟩ hserv
  rw [hunack]
  simp only [TcpServ.flight] at hflight ⊢
  omega

/-- An empty packet, after `fin`. -/
theorem Out.afterSend (h : Out serv) :
    ∃ serv1, Net.afterSend serv 0 false = (serv1, false) ∧ Out serv1
      ∧ serv1.xmtseq = serv.xmtseq := by
  have hzero : ({ serv with xmtseq := serv.xmtseq + ofInt 32 0 } : TcpServ) = serv := by
    have hseq : serv.xmtseq + ofInt 32 0 = serv.xmtseq := add_zero serv.xmtseq
    rw [hseq]
  unfold Net.afterSend
  rw [hzero]
  obtain ⟨st, serv1, hack, hst, hquiet⟩ := ackRcvfin_among
    (p := fun s => s.finOut = true) h.state (by simp [TcpState.finOut]) (fun _ => rfl)
    (by simp [TcpState.finOut]) (by simp [TcpState.finOut])
  have hmoved : Out { serv with state := st } := { h with state := hst }
  rw [hack]
  exact ⟨serv1, rfl, hmoved.quiet hquiet, hquiet.seq⟩

/-- The delay timer sends neither data nor `fin` again. -/
theorem Out.tryAgain {rounds : Nat} {len : Int} (h : Out serv) (hlen : len = 0)
    (hserv : (Net.tryAgain alloc rounds serv len).serv = .ok serv') :
    Out serv' ∧ serv'.xmtseq = serv.xmtseq ∧ NoFin (Net.tryAgain alloc rounds serv len).sent := by
  refine tryAgain_rule (q := fun fired => ∀ serv', fired.serv = .ok serv' →
      Out serv' ∧ serv'.xmtseq = serv.xmtseq ∧ NoFin fired.sent)
    (p := fun serv1 len => len = 0 ∧ Out serv1 ∧ serv1.xmtseq = serv.xmtseq)
    ?_ ?_ ?_ ?_ ?_ ?_ ⟨hlen, h, rfl⟩ serv' hserv
  · intro t serv' hserv
    cases hserv
  · rintro serv1 len ⟨-, h, hseq⟩ serv' hserv
    cases hserv
    exact ⟨h, hseq, noFin_nil⟩
  · rintro serv1 len alloc ⟨-, h, hseq⟩ serv' hserv
    have hquiet := askWindow_quiet hserv
    exact ⟨h.quiet hquiet, hquiet.seq.trans hseq, askWindow_noFin⟩
  · rintro serv1 len alloc ⟨-, h, hseq⟩ serv' hserv
    have hquiet := sendNothing_quiet hserv
    exact ⟨h.quiet hquiet, hquiet.seq.trans hseq, sendNothing_noFin⟩
  · rintro serv1 serv2 len cut alloc fin ⟨-, h, hseq⟩ hres serv' hserv
    have hstart := (sendTcpDelayAck_quiet hres).startTimer .delay
    cases hserv
    exact ⟨h.quiet hstart, hstart.seq.trans hseq, noFin_nil⟩
  · rintro serv1 serv2 len cut alloc fin skb ⟨rfl, h, hseq⟩ hle hcut hfin hres
    obtain rfl : cut = 0 := hcut hle
    rw [h.xmtfin] at hfin
    subst hfin
    have hnone := sendTcpDelayAck_noFin hres
    have hquiet := sendTcpDelayAck_quiet hres
    obtain ⟨serv3, hafter, hout, hseq3⟩ := (h.quiet hquiet).afterSend
    have hunack := unackLen_ring hout.size hout.flight.le
    have hflight := hout.flight
    have hstart := (Quiet.refl serv3).startTimer .delay
    rw [show decide ((0 : Int) ≤ 0 ∧ 2 = 1) = false from rfl, hafter]
    dsimp only [RoundOk]
    rw [if_neg (by rw [hunack]; omega)]
    intro serv' hserv
    cases hserv
    exact ⟨hout.quiet hstart, hstart.seq.trans (hseq3.trans (hquiet.seq.trans hseq)), hnone⟩

theorem Out.delayTimerCallback (h : Out serv)
    (hserv : (Net.delayTimerCallback alloc serv).serv = .ok serv') :
    Out serv' ∧ serv'.xmtseq = serv.xmtseq ∧ NoFin (Net.delayTimerCallback alloc serv).sent := by
  have h1 : Out { serv with timertype := .none } :=
    { h with }
  have hunack := unackLen_ring h1.size h1.flight.le
  have hflight := h1.flight
  refine h1.tryAgain ?_ hserv
  omega

/-- The timer expires before `fin` is sent. -/
theorem Running.timerExpires (h : Running serv)
    (hfire : Net.timerExpires alloc serv = some fired) (hserv : fired.serv = .ok serv') :
    Fires serv' fired.sent ∨ serv'.state = .closed := by
  obtain ⟨serv1, hquiet, hrun⟩ := timerExpires_cases hfire
  have h1 := h.quiet hquiet
  rcases hrun with rfl | rfl | ⟨-, rfl⟩ | rfl
  · cases hserv
    exact .inl (.inl ⟨h1, noFin_nil⟩)
  · exact .inl (h1.delayTimerCallback hserv)
  · rcases rexmitTimerCallback_quiet hserv with hquiet | hclosed
    · refine .inl (.inl ⟨h1.quiet hquiet, fun skb hskb => ?_⟩)
      have hxmtfin := h1.xmtfin
      by_contra hfin
      rw [Bool.not_eq_false] at hfin
      have htwo := (rexmitTimerCallback_fin skb hskb hfin).1
      omega
    · exact .inr hclosed.state
  · rcases keepaliveTimerCallback_quiet hserv with hquiet | hclosed
    · exact .inl (.inl ⟨h1.quiet hquiet, keepaliveTimerCallback_noFin⟩)
    · exact .inr hclosed.state

/-- The timer expires while `fin` is out: if `fin` is sent again, then
with the same label. -/
theorem Out.timerExpires (h : Out serv)
    (hfire : Net.timerExpires alloc serv = some fired) (hserv : fired.serv = .ok serv') :
    (Out serv' ∧ serv'.xmtseq = serv.xmtseq
      ∧ ∀ skb ∈ fired.sent, skb.tcp.fin = true → skb.tcp.seq = serv.xmtseq)
    ∨ serv'.state = .closed := by
  obtain ⟨serv1, hquiet, hrun⟩ := timerExpires_cases hfire
  have h1 := h.quiet hquiet
  have hseq := hquiet.seq
  rcases hrun with rfl | rfl | ⟨-, rfl⟩ | rfl
  · cases hserv
    exact .inl ⟨h1, hseq, noFin_nil.label⟩
  · obtain ⟨hout, hsame, hnone⟩ := h1.delayTimerCallback hserv
    exact .inl ⟨hout, hsame.trans hseq, hnone.label⟩
  · rcases rexmitTimerCallback_quiet hserv with hquiet | hclosed
    · refine .inl ⟨h1.quiet hquiet, hquiet.seq.trans hseq, fun skb hskb hfin => ?_⟩
      exact (rexmitTimerCallback_fin skb hskb hfin).2.trans hseq
    · exact .inr hclosed.state
  · rcases keepaliveTimerCallback_quiet hserv with hquiet | hclosed
    · exact .inl ⟨h1.quiet hquiet, hquiet.seq.trans hseq,
        keepaliveTimerCallback_noFin.label⟩
    · exact .inr hclosed.state

-- ======== the arrivals

/-- An acknowledgement moves `xmtack`; the bytes stay in the ring for
now. -/
theorem Running.moved (h : Running serv) (hm : Moved serv tcp a) : Running a.serv where
  state := by
    rw [hm.state]
    exact h.state
  flight := by
    have hflight := h.flight
    rw [hm.flight, hm.ring]
    omega
  size := by rw [hm.ring, h.size]
  xmtfin := by
    have hle := h.xmtfin
    rcases hm.xmtfin with hsame | ⟨htwo, -⟩
    · omega
    · omega
  rcvmss := by
    rw [hm.rcvmss]
    exact h.rcvmss

theorem Running.reasmData (h : Running serv)
    (hstate : serv.state = .established) (hm : Moved serv tcp a)
    (hres : Net.reasmData a skb = .ok r) : ∃ serv', r.serv = some serv' ∧ Running serv' := by
  have hsame : a.serv.state = .established := hm.state.trans hstate
  have hrun := h.moved hm
  have hinsert {serv1 : TcpServ} (h1 : Running serv1) (hs : serv1.state = .established)
      (hins : reasmInsert serv1 skb = .ok r) : ∃ serv', r.serv = some serv' ∧ Running serv' := by
    obtain ⟨serv2, hr, hquiet | ⟨hwait, -, -⟩⟩ := reasmInsert_quiet hins
    · exact ⟨serv2, hr, h1.quiet hquiet⟩
    · rw [hs] at hwait
      cases hwait
  unfold Net.reasmData at hres
  split at hres
  · split at hres
    · cases hres
    next serv1 hdrop =>
    obtain ⟨hle, hd⟩ := dropAcked_dropped hdrop
    have hs : serv1.state = .established := by
      rw [hd.state, hsame]
      simp
    refine hinsert ⟨.inl hs, ?_, ?_, ?_, ?_⟩ hs hres
    · have hflight : serv1.flight = a.serv.flight := by
        unfold TcpServ.flight
        rw [hd.seq, hd.ack]
      have hcount := h.flight
      rw [hflight, hm.flight, hd.ring, hm.ring]
      show serv.flight - a.len ≤ serv.xmtring.count - a.len
      omega
    · rw [hd.ring]
      exact hrun.size
    · rw [hd.xmtfin]
      exact hrun.xmtfin
    · rw [hd.rcvmss]
      exact hrun.rcvmss
  · exact hinsert hrun hsame hres

theorem Running.reasmTcpskb (h : Running serv)
    (hres : Net.reasmTcpskb serv skb = .ok r) (hserv : r.serv = some serv') :
    Running serv' ∨ serv'.state = .closed := by
  have hquiet := stopKeepalive_quiet serv
  have h1 := h.quiet hquiet
  rcases reasmTcpskb_quiet hres hserv with (hq | hclosed) | ⟨a, htake, hr⟩
  · exact .inl (h1.quiet hq)
  · exact .inr hclosed.state
  · have hm := takeAck_moved (flight_le h1.size h1.flight) htake
    unfold Net.reasmAcked at hr
    rw [hm.state] at hr
    rcases h1.state with hs | hs
    · rw [hs] at hr
      obtain ⟨serv2, hr2, hrun⟩ := h1.reasmData hs hm hr
      rw [hr2] at hserv
      cases hserv
      exact .inl hrun
    · rw [hs] at hr
      cases hr
      cases hserv
      exact .inl (h1.moved hm)

theorem finOut_cases (h : s.finOut) : s = .finWait1 ∨ s = .closing ∨ s = .lastAck := by
  cases s with
  | finWait1 => exact .inl rfl
  | closing => exact .inr (.inl rfl)
  | lastAck => exact .inr (.inr rfl)
  | closed | listen | synSent | syn | closeWait | established | finWait2 | timeWait => cases h

theorem reasmAcked_finWait1 (h : a.serv.state = .finWait1) :
    reasmAcked a skb = reasmData a skb := by
  unfold reasmAcked
  rw [h]

/-- A segment that moves nothing leaves `fin` out. -/
theorem Out.reasmStill (h : Out serv) (hack : a.ack = false)
    (hsame : a.serv = serv) (hres : reasmAcked a skb = .ok r) :
    ∃ serv', r.serv = some serv' ∧ Quiet serv serv' := by
  rcases finOut_cases h.state with hs | hs
  · rw [reasmAcked_finWait1 (by rw [hsame, hs])] at hres
    unfold reasmData at hres
    rw [if_neg (by rw [hack]; simp), hsame] at hres
    obtain ⟨serv1, hr, hquiet | ⟨hwait, -, -⟩⟩ := reasmInsert_quiet hres
    · exact ⟨serv1, hr, hquiet⟩
    · rw [hs] at hwait
      cases hwait
  · have hnothing : reasmAcked a skb = .ok ⟨true, some serv⟩ := by
      unfold reasmAcked
      rcases hs with hs | hs <;> simp [hsame, hs, hack]
    rw [hnothing] at hres
    cases hres
    exact ⟨serv, rfl, Quiet.refl serv⟩

/-- A segment that moves `xmtack` ends the wait. -/
theorem reasmAcked_finDone (hack : a.ack = true)
    (hout : a.serv.state.finOut) (hres : reasmAcked a skb = .ok r)
    (hserv : r.serv = some serv') : serv'.state.finDone := by
  rcases finOut_cases hout with hs | hs | hs
  · rw [reasmAcked_finWait1 hs] at hres
    unfold reasmData at hres
    rw [if_pos hack] at hres
    split at hres
    · cases hres
    next serv1 hdrop =>
    have hstate : serv1.state = .finWait2 := by
      rw [(dropAcked_dropped hdrop).2.state, if_pos hs]
    refine Leads.keeps (fun _ _ => finDone_next) (reasmInsert_leads hres hserv) ?_
    rw [hstate]
    rfl
  · unfold reasmAcked at hres
    rw [hs] at hres
    simp only [hack, if_true] at hres
    cases hres
    cases hserv
    rfl
  · unfold reasmAcked at hres
    rw [hs] at hres
    simp only [hack, if_true] at hres
    cases hres
    cases hserv

/-- What an arrival does while `fin` is out: nothing, or it is a reset,
or it moves `xmtack`, and `fin` is no longer waited for. -/
theorem Out.reasmTcpskb (h : Out serv) (hres : Net.reasmTcpskb serv skb = .ok r) :
    (∃ serv', r.serv = some serv' ∧ Quiet serv serv') ∨ (skb.tcp.rst = true
      ∧ ∀ serv', r.serv = some serv' → Quiet serv serv' ∨ serv'.state = .closed)
    ∨ (skb.tcp.ack = true ∧ 0 < compareSeq skb.tcp.ackSeq serv.xmtack
      ∧ ∀ serv', r.serv = some serv' → serv'.state.finDone) := by
  have hstop := stopKeepalive_quiet serv
  have h1 := h.quiet hstop
  rcases reasmTcpskb_cases hres with ⟨-, hs⟩ | hr | ⟨hrst, hr⟩ | ⟨a, htake, hr, -⟩
  · have hout := h.state
    rcases hs with hs | hs | hs <;> rw [hs] at hout <;> cases hout
  · exact .inl ⟨_, hr, hstop⟩
  · refine .inr (.inl ⟨hrst, fun serv' hserv => ?_⟩)
    rw [hr] at hserv
    exact (reasmRst_quiet hserv).imp hstop.trans Quiet.state
  · have hm := takeAck_moved (flight_le h1.size h1.flight.le) htake
    cases hack : a.ack with
    | false =>
      refine .inl ?_
      have hsame := (hm.still hack).2
      obtain ⟨serv2, hr2, hq⟩ := h1.reasmStill hack hsame hr
      exact ⟨serv2, hr2, hstop.trans hq⟩
    | true =>
      obtain ⟨hbit, hnew⟩ := hm.new hack
      rw [hstop.ack] at hnew
      have hout : a.serv.state.finOut := by
        rw [hm.state]
        exact h1.state
      exact .inr (.inr ⟨hbit, hnew, fun serv' => reasmAcked_finDone hack hout hr⟩)

-- ======== the runs

/-- Our `syn` and `fin` are kept apart from the data, and while `fin` is
out, an acknowledgement of anything is one of `fin`. -/
def FinHeard (serv : TcpServ) : ConnEvent → Prop
  | .send (.arrive skb) => serv.state.finOut → skb.tcp.ack →
      0 < compareSeq skb.tcp.ackSeq serv.xmtack → skb.tcp.ackSeq = serv.xmtseq + 1
  | ev => Settled serv ev

theorem FinHeard.settled (h : FinHeard serv ev) : Settled serv ev := by
  cases ev with
  | takeSyn _ => exact h
  | send ev =>
    cases ev with
    | arrive skb => trivial
    | write _ _ | writeFull | writeEnd | shutdown | close | read _ | expire _ => exact h

theorem Running.tcpWrite (h : Running serv) (buffer : List Byte) (oob : Bool) :
    Running (serv.tcpWrite buffer oob).1 := by
  unfold TcpServ.tcpWrite
  obtain ⟨hcont, -, hsize, -⟩ := RingBuffer.copyToRing_contents buffer serv.xmtring
  generalize serv.xmtring.copyToRing buffer = copied at hcont hsize
  obtain ⟨ring, n⟩ := copied
  dsimp only at hcont hsize ⊢
  have hcount : serv.xmtring.count ≤ ring.count := by
    rw [← RingBuffer.contents_length ring, hcont, List.length_append,
      RingBuffer.contents_length]
    omega
  have hring : Running { serv with xmtring := ring } :=
    ⟨h.state, h.flight.trans hcount, hsize.trans h.size, h.xmtfin, h.rcvmss⟩
  split
  · exact h
  · split
    · exact { hring with }
    · exact hring

theorem Running.tcpShutdown (h : Running serv) : Running serv.tcpShutdown := by
  unfold TcpServ.tcpShutdown
  split
  · have hfin : Running { serv with xmtfin := 1 } :=
      { h with xmtfin := Nat.le_refl _ }
    exact hfin.quiet (restartDelayTimer_quiet _)
  · exact h

theorem Out.tcpShutdown (h : Out serv) : serv.tcpShutdown = serv := by
  unfold TcpServ.tcpShutdown TcpServ.writable
  rcases finOut_cases h.state with hs | hs | hs <;> rw [hs] <;> rfl

/-- A connection that fires: the phase of what is left. -/
theorem Fires.phase (h : Fires serv sent) (hlog : NoFin log) : FinPhase iss serv (log ++ sent) := by
  rcases h with ⟨hrun, hnone⟩ | ⟨hout, hat⟩
  · exact .running hrun (hlog.append hnone)
  · exact .out hout (hlog.finAt hat)

theorem Running.step {ev : SendEvent} (h : Running serv) (hlog : NoFin log)
    (hconn : (ev.step serv).conn = some serv') :
    FinPhase iss serv' (log ++ (ev.step serv).sent) := by
  have hstill (hsent : (ev.step serv).sent = []) (h' : Running serv') :
      FinPhase iss serv' (log ++ (ev.step serv).sent) := by
    rw [hsent, List.append_nil]
    exact .running h' hlog
  cases ev with
  | write buffer oob =>
    have hserv : (serv.tcpWrite buffer oob).1 = serv' := Option.some.inj hconn
    exact hstill rfl (hserv ▸ h.tcpWrite buffer oob)
  | writeFull =>
    cases hconn
    exact hstill rfl (h.quiet (tcpWriteFull_quiet serv))
  | writeEnd =>
    cases hconn
    exact hstill rfl (h.quiet (restartDelayTimer_quiet serv))
  | shutdown =>
    cases hconn
    exact hstill rfl h.tcpShutdown
  | close =>
    have hshut := h.tcpShutdown
    rw [tcpClose_eq hconn] at hstill ⊢
    exact hstill rfl { hshut with }
  | read count =>
    obtain ⟨bytes, hread⟩ := read_conn hconn
    exact hstill rfl (h.quiet (tcpRead_quiet hread))
  | arrive skb =>
    obtain ⟨r, hres, hserv⟩ := arrive_conn hconn
    rcases h.reasmTcpskb hres hserv with hrun | hclosed
    · exact hstill rfl hrun
    · exact .done (by rw [hclosed]; rfl)
  | expire alloc =>
    obtain ⟨fired, hfire, hserv, hsent⟩ := expire_conn hconn
    rw [hsent]
    rcases h.timerExpires hfire hserv with hfires | hclosed
    · exact hfires.phase hlog
    · exact .done (by rw [hclosed]; rfl)

theorem Out.step {ev : SendEvent} (h : Out serv) (hlog : FinAt serv.xmtseq log)
    (hok : FinHeard serv (.send ev)) (hconn : (ev.step serv).conn = some serv') :
    FinPhase iss serv' (log ++ (ev.step serv).sent) := by
  have hquiet (hsent : (ev.step serv).sent = []) (hq : Quiet serv serv') :
      FinPhase iss serv' (log ++ (ev.step serv).sent) := by
    rw [hsent, List.append_nil]
    exact .out (h.quiet hq) (hq.seq.symm ▸ hlog)
  cases ev with
  | write buffer oob =>
    have hstate : serv.state = .established ∨ serv.state = .closeWait := hok
    have hout := h.state
    rcases hstate with hs | hs <;> rw [hs] at hout <;> cases hout
  | writeFull =>
    cases hconn
    exact hquiet rfl (tcpWriteFull_quiet serv)
  | writeEnd =>
    cases hconn
    exact hquiet rfl (restartDelayTimer_quiet serv)
  | shutdown =>
    cases hconn
    rw [h.tcpShutdown] at hquiet ⊢
    exact hquiet rfl (Quiet.refl serv)
  | close =>
    rw [tcpClose_eq hconn, h.tcpShutdown] at hquiet ⊢
    exact hquiet rfl ⟨rfl, rfl, rfl, rfl, rfl, rfl⟩
  | read count =>
    obtain ⟨bytes, hread⟩ := read_conn hconn
    exact hquiet rfl (tcpRead_quiet hread)
  | arrive skb =>
    obtain ⟨r, hres, hserv⟩ := arrive_conn hconn
    rcases h.reasmTcpskb hres with ⟨serv1, hr, hq⟩ | ⟨-, hrst⟩ | ⟨-, -, hdone⟩
    · rw [hr] at hserv
      cases hserv
      exact hquiet rfl hq
    · rcases hrst serv' hserv with hq | hclosed
      · exact hquiet rfl hq
      · exact .done (by rw [hclosed]; rfl)
    · exact .done (hdone serv' hserv)
  | expire alloc =>
    obtain ⟨fired, hfire, hserv, hsent⟩ := expire_conn hconn
    rw [hsent]
    rcases h.timerExpires hfire hserv with ⟨hout, hseq, hlabel⟩ | hclosed
    · rw [← hseq] at hlog hlabel
      exact .out hout (hlog.append hlabel)
    · exact .done (by rw [hclosed]; rfl)

theorem FinPhase.step (h : FinPhase iss serv log)
    (hposs : ev.possible serv) (hok : FinHeard serv ev) (hconn : (ev.step serv).conn = some serv') :
    FinPhase iss serv' (log ++ (ev.step serv).sent) := by
  have hearly := ConnEvent.sends hposs
  cases h with
  | opening hopen hlog =>
    obtain ⟨hnext, -, hsent⟩ := hopen.next hposs hok.settled hconn
    rw [hsent, List.append_nil]
    rcases hnext with hopening | hclosed | hstarted
    · exact .opening hopening hlog
    · exact .done (by rw [hclosed]; rfl)
    · exact .running hstarted.running hlog
  | running hrun hlog =>
    obtain ⟨e, rfl⟩ := hearly (by rcases hrun.state with hs | hs <;> rw [hs] <;> simp)
    exact hrun.step hlog hconn
  | out hout hlog =>
    obtain ⟨e, rfl⟩ := hearly (by
      intro hs
      have hstate := hout.state
      rw [hs] at hstate
      cases hstate)
    exact hout.step hlog hok hconn
  | done hdone =>
    obtain ⟨e, rfl⟩ := hearly (by
      intro hs
      rw [hs] at hdone
      cases hdone)
    exact .done (Leads.keeps (fun _ _ => finDone_next) (SendEvent.leads hconn) hdone)

theorem ConnRun.finPhase {conn : Option TcpServ} {hist : History}
    (hrun : ConnRun FinHeard iss conn hist) :
    ∀ serv, conn = some serv → FinPhase iss serv hist.log := by
  induction hrun with
  | connect new hnew =>
    intro serv hconn
    cases hconn
    rw [← hnew]
    exact .opening (tcpConnect_opening new) noFin_nil
  | accept new rcvack rcvwin hnew =>
    intro serv hconn
    cases hconn
    rw [← hnew]
    exact .opening (acceptConnect_opening new rcvack rcvwin) noFin_nil
  | step _ hposs hok ih =>
    intro serv' hconn
    exact (ih _ rfl).step hposs hok hconn

/-- A segment takes the connection out of a state in which it waits for
an acknowledgement of its `fin`. -/
def LeavesForAck (serv : TcpServ) (r : Reasm) : Prop :=
  (serv.state = .finWait1 ∧ ∃ serv', r.serv = some serv'
    ∧ (serv'.state = .finWait2 ∨ serv'.state = .timeWait))
  ∨ (serv.state = .closing ∧ ∃ serv', r.serv = some serv' ∧ serv'.state = .timeWait)
  ∨ (serv.state = .lastAck ∧ r.serv = none)

/-- `fin` was sent, and one of the acknowledgements is beyond it. -/
def FinCovered (log : List Skb) (heard : List Seq) : Prop :=
  (∃ skb ∈ log, skb.tcp.fin = true)
  ∧ ∀ skb ∈ log, skb.tcp.fin = true → ∃ ackSeq ∈ heard, 0 < (ackSeq - skb.tcp.seq).toInt

theorem LeavesForAck.finOut (h : LeavesForAck serv r) : serv.state.finOut := by
  rcases h with ⟨hs, -⟩ | ⟨hs, -⟩ | ⟨hs, -⟩ <;> rw [hs] <;> rfl

/-- A quiet step is not one of these moves. -/
theorem LeavesForAck.not_quiet (h : LeavesForAck serv r)
    (hserv : r.serv = some serv') (hq : Quiet serv serv') : False := by
  have hstate := hq.state
  have hmoves {serv1 : TcpServ} (hr : r.serv = some serv1) (hne : serv1.state ≠ serv.state) :
      False := by
    rw [hr] at hserv
    cases hserv
    exact hne hstate
  rcases h with ⟨hs, serv1, hr, hw | hw⟩ | ⟨hs, serv1, hr, hw⟩ | ⟨hs, hr⟩
  · exact hmoves hr (by rw [hs, hw]; decide)
  · exact hmoves hr (by rw [hs, hw]; decide)
  · exact hmoves hr (by rw [hs, hw]; decide)
  · rw [hr] at hserv
    cases hserv

theorem FinPhase.out_of_finOut (h : FinPhase iss serv log) (hout : serv.state.finOut) :
    Out serv ∧ FinAt serv.xmtseq log := by
  cases h with
  | opening hopen _ => rcases hopen.state with hs | hs <;> rw [hs] at hout <;> cases hout
  | running hrun _ => rcases hrun.state with hs | hs <;> rw [hs] at hout <;> cases hout
  | out h hat => exact ⟨h, hat⟩
  | done hdone => rcases finOut_cases hout with hs | hs | hs <;> rw [hs] at hdone <;> cases hdone

/-- In every run in which an acknowledgement of anything, while `fin` is
out, is one of `fin`, an arriving segment makes the moves out of
`TCP_FIN_WAIT_1`, `TCP_CLOSING` and `TCP_LAST_ACK` only when `fin` is
acknowledged. -/
theorem fin_acknowledged {hist : History} {r : Reasm} (hrun : ConnRun FinHeard iss (some serv) hist)
    (hok : FinHeard serv (.send (.arrive skb))) (hrst : skb.tcp.rst = false)
    (hres : Net.reasmTcpskb serv skb = .ok r) (hleaves : LeavesForAck serv r) :
    FinCovered hist.log (hist.heard ++ ConnEvent.hears (.send (.arrive skb))) := by
  have hstate := hleaves.finOut
  obtain ⟨hout, hat⟩ := (hrun.finPhase serv rfl).out_of_finOut hstate
  rcases hout.reasmTcpskb hres with ⟨serv', hserv, hq⟩ | ⟨hreset, -⟩ | ⟨hack, hnew, -⟩
  · exact absurd (hleaves.not_quiet hserv hq) id
  · rw [hrst] at hreset
    cases hreset
  · have hseq : skb.tcp.ackSeq = serv.xmtseq + 1 := hok hstate hack hnew
    refine ⟨hat.sent, fun fin hfin hflag => ⟨skb.tcp.ackSeq, ?_, ?_⟩⟩
    · simp [ConnEvent.hears, hack]
    · rw [hseq, hat.label fin hfin hflag, add_sub_cancel_left]
      decide

instance (serv : TcpServ) (ev : ConnEvent) : Decidable (FinHeard serv ev) := by
  unfold FinHeard
  induction ev using ConnEvent.casesOn with
  | takeSyn _ => infer_instance
  | send ev => induction ev using SendEvent.casesOn <;> infer_instance

/-- Ten bytes and `fin` are sent. -/
def sendAndShutdown : List ConnEvent :=
  connectAndSend ++ [.send .shutdown, .send (.expire plenty)]

/-- All of it is acknowledged. -/
theorem fin_acknowledged_last : ∃ serv hist r, ConnRun FinHeard 0 (some serv) hist
      ∧ reasmTcpskb serv (bareSkb 1 12 true false false) = .ok r ∧ LeavesForAck serv r
      ∧ FinCovered hist.log (hist.heard ++ [12]) := by
  obtain ⟨serv, hist, serv', hplay, hstate, hseq, hres, hstate'⟩ : ∃ serv hist serv',
      playConn FinHeard (tcpConnect ordinary, ⟨[], [], []⟩) sendAndShutdown = some (serv, hist)
        ∧ serv.state = .finWait1 ∧ serv.xmtseq = 11
        ∧ reasmTcpskb serv (bareSkb 1 12 true false false) = .ok ⟨true, some serv'⟩
        ∧ serv'.state = .finWait2 :=
    ⟨_, _, _, rfl, rfl, rfl, rfl, rfl⟩
  have hrun := ConnRun.play FinHeard (.connect ordinary rfl) hplay
  have hleaves : LeavesForAck serv ⟨true, some serv'⟩ :=
    .inl ⟨hstate, serv', rfl, .inl hstate'⟩
  have hok : FinHeard serv (.send (.arrive (bareSkb 1 12 true false false))) := by
    intro _ _ _
    rw [hseq]
    rfl
  exact ⟨serv, hist, _, hrun, hres, hleaves, fin_acknowledged hrun hok rfl hres hleaves⟩

/-- Five of the ten bytes are acknowledged, and the connection no longer
waits for an acknowledgement of its `fin`. -/
theorem fin_not_acknowledged : ∃ serv hist r, ConnRun (fun _ _ => True) 0 (some serv) hist
      ∧ reasmTcpskb serv (bareSkb 1 6 true false false) = .ok r ∧ LeavesForAck serv r
      ∧ ¬ FinCovered hist.log (hist.heard ++ [6]) := by
  obtain ⟨serv, hist, serv', hplay, hstate, hres, hstate', hheard, fin, hfin, hflag, hseq⟩ :
      ∃ serv hist serv',
      playConn (fun _ _ => True) (tcpConnect ordinary, ⟨[], [], []⟩) sendAndShutdown = some (serv, hist)
        ∧ serv.state = .finWait1
        ∧ reasmTcpskb serv (bareSkb 1 6 true false false) = .ok ⟨true, some serv'⟩
        ∧ serv'.state = .finWait2 ∧ hist.heard = [1]
        ∧ ∃ fin, hist.log[1]? = some fin ∧ fin.tcp.fin = true ∧ fin.tcp.seq = 11 :=
    ⟨_, _, _, rfl, rfl, rfl, rfl, rfl, _, rfl, rfl, rfl⟩
  have hrun := ConnRun.play (fun _ _ => True) (.connect ordinary rfl) hplay
  refine ⟨serv, hist, _, hrun, hres, .inl ⟨hstate, serv', rfl, .inl hstate'⟩, ?_⟩
  rintro ⟨-, hall⟩
  obtain ⟨ackSeq, hmem, hpos⟩ := hall fin (List.mem_of_getElem? hfin) hflag
  rw [hheard] at hmem
  rw [hseq] at hpos
  rcases List.mem_cons.mp hmem with rfl | hmem
  · exact absurd hpos (by decide)
  · rw [List.mem_singleton.mp hmem] at hpos
    exact absurd hpos (by decide)

end Cnix.Net
