/-
Where a connection moves: what `takeAck`, `dropAcked`, the arms of
`reasm_tcpskb` and the rounds of the delay timer do, each said once.

# The moves of the state

`TcpState.Next` lists every place behind the handshake at which the code
sets `state`. What a
single function does can be several moves: an arriving segment takes
`TCP_SYN` to `TCP_ESTABLISHED` and on, and an orphan in `TCP_FIN_WAIT_1`
to `TCP_TIME_WAIT`. The theorems about functions are about the closure
(`Leads`), so that a set of states that no move leaves is not left by any
function (`Leads.keeps`).
-/
import Mathlib.Logic.Relation
import Mathlib.Order.Defs.Unbundled
import Mathlib.Tactic.Abel
import Cnix.Net.Proofs.Quiet

namespace Cnix.Net

variable {serv serv' : TcpServ} {skb : Skb} {tcp : TcpHdr} {a : Acked} {len : Nat} {r : Reasm}

-- ======== the state

/-- The state is set. -/
inductive TcpState.Next : TcpState → TcpState → Prop
  /-- `reasm_tcpskb`. -/
  | accepted : Next .syn .established
  | finAcked : Next .finWait1 .finWait2
  | orphaned : Next .finWait2 .timeWait
  | closed : Next .closing .timeWait
  /-- `xmtfin_switch_state`. -/
  | finSentSyn : Next .syn .finWait1
  | finSent : Next .established .finWait1
  | finSentLast : Next .closeWait .lastAck
  /-- `rcvfin_switch_state`. -/
  | finTaken : Next .established .closeWait
  | finTakenBoth : Next .finWait1 .closing
  | finTakenLast : Next .finWait2 .timeWait
  /-- A reset, or nobody answers. -/
  | dropped (s : TcpState) : Next s .closed

/-- Any number of moves. -/
abbrev TcpState.Leads : TcpState → TcpState → Prop := Relation.ReflTransGen TcpState.Next

open TcpState (Next Leads)

/-- A set of states that no move leaves. -/
theorem Leads.keeps {p : TcpState → Prop} (hp : ∀ s s', Next s s' → p s → p s')
    {s s' : TcpState} (h : Leads s s') (hs : p s) : p s' := by
  induction h with
  | refl => exact hs
  | tail _ hnext ih => exact hp _ _ hnext ih

theorem Quiet.leads (h : Quiet serv serv') : Leads serv.state serv'.state := by
  rw [h.state]

/-- A step is quiet, unless the connection is given up. -/
def QuietOrClosed (serv serv' : TcpServ) : Prop :=
  Quiet serv serv' ∨ Quiet { serv with state := .closed } serv'

theorem QuietOrClosed.leads (h : QuietOrClosed serv serv') : Leads serv.state serv'.state := by
  rcases h with hquiet | hclosed
  · exact hquiet.leads
  · rw [hclosed.state]
    exact .single (.dropped _)

-- ======== the timers

section Timers

variable {alloc : Bool} {res : Option Skb}

theorem sendEmpty_quiet {cond : Prop} [Decidable cond] {xmtseq : Seq} {fromhead xmtfin : Bool}
    {len : Int} (h : (if cond then sendTcpDelayAck alloc serv xmtseq fromhead len xmtfin
      else .ok (none, serv)) = .ok (res, serv')) : Quiet serv serv' := by
  split at h
  · exact sendTcpDelayAck_quiet h
  · cases h
    exact Quiet.refl serv

theorem rexmitTimerCallback_quiet (h : (rexmitTimerCallback alloc serv).serv = .ok serv') :
    QuietOrClosed serv serv' := by
  unfold rexmitTimerCallback at h
  split at h
  · cases h
  split at h
  · cases h
    exact .inr (Quiet.refl _)
  · dsimp only at h
    split at h
    · cases h
    next hres =>
    have hquiet := (sendTcpDelayAck_quiet hres).startTimer .rexmt
    cases h
    exact .inl { hquiet with }

theorem keepaliveTimerCallback_quiet (h : (keepaliveTimerCallback alloc serv).serv = .ok serv') :
    QuietOrClosed serv serv' := by
  unfold keepaliveTimerCallback at h
  split at h
  · cases h
  split at h
  · cases h
    exact .inr (Quiet.refl _)
  · split at h
    · cases h
    next serv1 hres =>
    have hquiet := sendEmpty_quiet hres
    have hcount : Quiet serv { serv1 with keepaliveCount := serv1.keepaliveCount + 1 } :=
      { hquiet with }
    cases h
    exact .inl (hcount.startTimer .keepalive)

theorem askWindow_quiet (h : (askWindow alloc serv).serv = .ok serv') : Quiet serv serv' := by
  unfold askWindow at h
  split at h
  · cases h
  next hres =>
  cases h
  exact (sendTcpDelayAck_quiet hres).startTimer .persistent

theorem sendNothing_quiet (h : (sendNothing alloc serv).serv = .ok serv') : Quiet serv serv' := by
  unfold sendNothing at h
  split at h
  · cases h
  next serv1 hres =>
  exact (sendEmpty_quiet hres).trans (nextTimer_quiet h)

end Timers

/-- What a round of the delay timer owes: `p` before the next round, or
`q` of what the callback leaves. -/
def RoundOk (p : TcpServ → Int → Prop) (q : Fired → Prop) (skb : Skb) :
    TcpServ × Bool → Prop
  | (serv, true) => q ⟨.ok serv, [skb]⟩
  | (serv, false) =>
    if (serv.rcvmss : Int) < serv.xmtring.count - serv.unackLen then
      p serv serv.rcvmss ∧ ∀ fired, q fired → q ⟨fired.serv, skb :: fired.sent⟩
    else q ⟨.ok serv.startDelayTimer, [skb]⟩

/-- The rounds of `delay_timer_callback`, by induction on their number.
The window cuts the length down, and not to 0. -/
theorem tryAgain_rule {alloc : Nat → Bool} {p : TcpServ → Int → Prop} {q : Fired → Prop}
    (herror : ∀ t, q ⟨.error t, []⟩)
    (hend : ∀ {serv len}, p serv len → q ⟨.ok serv, []⟩)
    (hask : ∀ {serv len alloc}, p serv len → q (askWindow alloc serv))
    (hnothing : ∀ {serv len alloc}, p serv len → q (sendNothing alloc serv))
    (hnone : ∀ {serv serv1 len cut alloc fin}, p serv len →
      sendTcpDelayAck alloc serv serv.xmtseq false cut fin = .ok (none, serv1) →
      q ⟨.ok serv1.startDelayTimer, []⟩)
    (hsome : ∀ {serv serv1 len cut alloc fin skb}, p serv len → cut ≤ len →
      (cut ≤ 0 → cut = len) → fin = decide (cut ≤ 0 ∧ serv.xmtfin = 1) →
      sendTcpDelayAck alloc serv serv.xmtseq false cut fin = .ok (some skb, serv1) →
      RoundOk p q skb (afterSend serv1 cut fin)) :
    ∀ {rounds : Nat} {serv : TcpServ} {len : Int}, p serv len →
      q (tryAgain alloc rounds serv len) := by
  intro rounds
  induction rounds with
  | zero =>
    intro serv len h
    exact hend h
  | succ rounds ih =>
    intro serv len h
    rw [tryAgain]
    dsimp only
    split
    · exact hask h
    next hwin =>
    generalize hcut : (if (serv.rcvwin.toNat : Int) ≤ serv.unackLen then len
      else min len (serv.rcvwin.toNat - serv.unackLen)) = cut
    have hle : cut ≤ len ∧ (cut ≤ 0 → cut = len) := by
      rw [← hcut]
      split <;> omega
    split
    · exact hnothing h
    split
    · exact herror _
    · next hres => exact hnone h hres
    next hres =>
    have hround := hsome h hle.1 hle.2 rfl hres
    split
    · next hafter =>
      rw [hafter] at hround
      exact hround
    · next hafter =>
      rw [hafter] at hround
      dsimp only [RoundOk] at hround
      split at hround
      · next hmore =>
        rw [if_pos hmore]
        exact hround.2 _ (ih hround.1)
      · next hmore =>
        rw [if_neg hmore]
        exact hround

-- ======== the arrivals

/-- `compare_seq` sees as far ahead as 64K. -/
theorem compareSeq_pos_iff (seq seq2 : Seq) :
    0 < compareSeq seq seq2 ↔ 0 < (seq - seq2).toNat ∧ (seq - seq2).toNat ≤ 2 ^ 16 := by
  have hmove : seq2 + (0x00010000#32 - seq) = 0x00010000#32 - (seq - seq2) := by abel1
  unfold compareSeq
  dsimp only
  rw [hmove]
  generalize seq - seq2 = d
  have hsub : (0x00010000#32 - d).toNat = (2 ^ 32 - d.toNat + 2 ^ 16) % 2 ^ 32 :=
    BitVec.toNat_sub _ _
  have hone : (0x00010000#32).toNat = 2 ^ 16 := rfl
  simp only [BitVec.lt_def, hsub, hone]
  split
  · omega
  · split
    · omega
    · omega

/-- `compare_seq` of two numbers less than 64K apart. -/
theorem compareSeq_add (seq : Seq) {d : Int} (hlow : -65535 ≤ d) (hhigh : d ≤ 65535) :
    compareSeq seq (seq + BitVec.ofInt 32 d) = -d.sign := by
  have hmove : seq + BitVec.ofInt 32 d + (0x00010000#32 - seq)
      = BitVec.ofInt 32 d + 0x00010000#32 := by abel1
  have hnat : (BitVec.ofInt 32 d + 0x00010000#32).toNat = (d + 65536).toNat := by
    simp only [BitVec.toNat_add, BitVec.toNat_ofInt, BitVec.toNat_ofNat]
    omega
  unfold compareSeq
  dsimp only
  rw [hmove]
  simp only [BitVec.lt_def, hnat, BitVec.toNat_ofNat]
  rcases lt_trichotomy d 0 with hd | rfl | hd
  · rw [Int.sign_eq_neg_one_of_neg hd, if_neg (by omega), if_pos (by omega)]
    rfl
  · rfl
  · rw [Int.sign_eq_one_of_pos hd, if_pos (by omega)]

/-- In a window of 64K. -/
theorem compareSeq_le_iff {base a b : Seq} (ha : (a - base).toNat < 65536)
    (hb : (b - base).toNat < 65536) :
    compareSeq a b ≤ 0 ↔ (a - base).toNat ≤ (b - base).toNat := by
  have hsub : a - b = (a - base) - (b - base) := by abel1
  rw [← not_lt, compareSeq_pos_iff, hsub, BitVec.toNat_sub]
  omega

/-- On numbers less than 64K apart `compare_seq` tells how the second was
moved from the first, and on each window of 64K it is a linear order, the
one of the stream. -/
theorem compareSeq_orders :
    (∀ (seq : Seq) (d : Int), -65535 ≤ d → d ≤ 65535 →
      compareSeq seq (seq + BitVec.ofInt 32 d) = -d.sign)
    ∧ ∀ base : Seq, IsLinearOrder {seq : Seq // (seq - base).toNat < 65536}
        (fun a b => compareSeq a b ≤ 0)
      ∧ ∀ a b : Seq, (a - base).toNat < 65536 → (b - base).toNat < 65536 →
        (compareSeq a b ≤ 0 ↔ (a - base).toNat ≤ (b - base).toNat) := by
  refine ⟨fun seq d => compareSeq_add seq, fun base => ⟨?_, fun a b => compareSeq_le_iff⟩⟩
  have hiff (a b : {seq : Seq // (seq - base).toNat < 65536}) := compareSeq_le_iff a.2 b.2
  exact
    { refl := fun a => (hiff a a).2 le_rfl
      trans := fun a b c hab hbc => (hiff a c).2 (((hiff a b).1 hab).trans ((hiff b c).1 hbc))
      antisymm := fun a b hab hba => by
        have heq := le_antisymm ((hiff a b).1 hab) ((hiff b a).1 hba)
        exact Subtype.ext (sub_left_injective (BitVec.eq_of_toNat_eq heq))
      total := fun a b => by
        rw [hiff, hiff]
        exact le_total _ _ }

/-- The arms of `takeAck`: nothing new, all that was sent and `fin`, or a
part of what was sent. -/
theorem takeAck_cases (h : takeAck serv tcp = some a) : a = ⟨false, 0, serv⟩
    ∨ (tcp.ack = true ∧ 0 < compareSeq tcp.ackSeq serv.xmtack)
      ∧ ((tcp.ackSeq - 1 = serv.xmtseq ∧ a = ⟨true, (tcp.ackSeq - 1 - serv.xmtack).toNat,
          { serv with
            xmtfin := if serv.xmtfin = 2 then 3 else serv.xmtfin
            xmtack := tcp.ackSeq - 1 }⟩)
        ∨ (¬ 0 < compareSeq tcp.ackSeq serv.xmtseq ∧ a = ⟨true, (tcp.ackSeq - serv.xmtack).toNat,
          { ackUrg serv tcp.ackSeq with xmtack := tcp.ackSeq }⟩)) := by
  unfold takeAck at h
  split at h
  · split at h
    · cases h
    · cases h
      exact .inl rfl
  next hbit =>
  split at h
  · cases h
    exact .inl rfl
  next hnew =>
  refine .inr ⟨⟨by simpa using hbit, not_not.mp hnew⟩, ?_⟩
  split at h
  · next hfin =>
    cases h
    exact .inl ⟨by rw [hfin.2]; abel1, rfl⟩
  · split at h
    · cases h
    · next hsent =>
      cases h
      exact .inr ⟨hsent, rfl⟩

theorem takeAck_state (h : takeAck serv tcp = some a) : a.serv.state = serv.state := by
  rcases takeAck_cases h with rfl | ⟨-, ⟨-, rfl⟩ | ⟨-, rfl⟩⟩
  · rfl
  · rfl
  · exact (ackUrg_quiet serv tcp.ackSeq).state

/-- Sent and not acknowledged. -/
def TcpServ.flight (serv : TcpServ) : Nat := (serv.xmtseq - serv.xmtack).toNat

theorem Quiet.flight (h : Quiet serv serv') : serv'.flight = serv.flight := by
  unfold TcpServ.flight
  rw [h.seq, h.ack]

/-- What `reasm_tcpskb` has done before it looks at the state: `xmtack`
has moved by `len`, and no further than to `xmtseq`. -/
structure Moved (serv : TcpServ) (tcp : TcpHdr) (a : Acked) : Prop where
  ring : a.serv.xmtring = serv.xmtring
  seq : a.serv.xmtseq = serv.xmtseq
  state : a.serv.state = serv.state
  rcvmss : a.serv.rcvmss = serv.rcvmss
  low : a.len ≤ serv.flight
  flight : a.serv.flight = serv.flight - a.len
  still : a.ack = false → a.len = 0 ∧ a.serv = serv
  new : a.ack = true → tcp.ack = true ∧ 0 < compareSeq tcp.ackSeq serv.xmtack
  pos : a.ack = true → a.len = 0 → serv.flight = 0
  xmtfin : a.serv.xmtfin = serv.xmtfin ∨ serv.xmtfin = 2 ∧ a.serv.xmtfin = 3

theorem takeAck_moved (hw : serv.flight ≤ 2 ^ 13)
    (h : takeAck serv tcp = some a) : Moved serv tcp a := by
  have hsame : Moved serv tcp ⟨false, 0, serv⟩ :=
    { ring := rfl
      seq := rfl
      state := rfl
      rcvmss := rfl
      low := Nat.zero_le _
      flight := rfl
      still := fun _ => ⟨rfl, rfl⟩
      new := fun hack => Bool.noConfusion hack
      pos := fun hack => Bool.noConfusion hack
      xmtfin := .inl rfl }
  rcases takeAck_cases h with rfl | ⟨hboth, ⟨hall, rfl⟩ | ⟨hsent, rfl⟩⟩
  · exact hsame
  · -- all that was sent, and `fin`
    have hlen : (tcp.ackSeq - 1 - serv.xmtack).toNat = serv.flight := by
      rw [hall]
      rfl
    refine ⟨rfl, rfl, rfl, rfl, hlen.le, ?_, fun hack => Bool.noConfusion hack,
      fun _ => hboth, fun _ hz => hlen.symm.trans hz, ?_⟩
    · show (serv.xmtseq - (tcp.ackSeq - 1)).toNat = serv.flight - _
      rw [hlen, hall, sub_self, Nat.sub_self]
      rfl
    · show (if serv.xmtfin = 2 then 3 else serv.xmtfin) = serv.xmtfin
        ∨ serv.xmtfin = 2 ∧ (if serv.xmtfin = 2 then 3 else serv.xmtfin) = 3
      split
      · next htwo => exact .inr ⟨htwo, rfl⟩
      · exact .inl rfl
  · have hquiet := ackUrg_quiet serv tcp.ackSeq
    have hle : (tcp.ackSeq - serv.xmtack).toNat ≤ serv.flight
        ∧ (serv.xmtseq - tcp.ackSeq).toNat = serv.flight - (tcp.ackSeq - serv.xmtack).toNat
        ∧ 0 < (tcp.ackSeq - serv.xmtack).toNat := by
      have hback : serv.xmtseq - tcp.ackSeq
          = (serv.xmtseq - serv.xmtack) - (tcp.ackSeq - serv.xmtack) := by abel1
      have hon : tcp.ackSeq - serv.xmtseq
          = (tcp.ackSeq - serv.xmtack) - (serv.xmtseq - serv.xmtack) := by abel1
      have hnew := hboth.2
      rw [compareSeq_pos_iff] at hnew hsent
      unfold TcpServ.flight at hw ⊢
      rw [hon] at hsent
      rw [hback]
      generalize tcp.ackSeq - serv.xmtack = ahead at hnew hsent ⊢
      generalize serv.xmtseq - serv.xmtack = flight at hw hsent ⊢
      rw [BitVec.toNat_sub] at hsent ⊢
      omega
    refine ⟨hquiet.ring, hquiet.seq, hquiet.state, hquiet.rcvmss, hle.1, ?_,
      fun hack => Bool.noConfusion hack, fun _ => hboth,
      fun _ hz => absurd hz (Nat.ne_of_gt hle.2.2), .inl hquiet.xmtfin⟩
    show ((ackUrg serv tcp.ackSeq).xmtseq - tcp.ackSeq).toNat = _
    rw [hquiet.seq]
    exact hle.2.1

/-- `reasm_tcpskb` takes acknowledged bytes out of the ring, if they are
there. -/
structure Dropped (serv serv' : TcpServ) (len : Nat) : Prop where
  ring : serv'.xmtring = serv.xmtring.dropCount len
  seq : serv'.xmtseq = serv.xmtseq
  ack : serv'.xmtack = serv.xmtack
  xmtfin : serv'.xmtfin = serv.xmtfin
  rcvmss : serv'.rcvmss = serv.rcvmss
  state : serv'.state = if serv.state = .finWait1 then .finWait2 else serv.state

theorem dropAcked_ok (h : len ≤ serv.xmtring.count) :
    ∃ serv', dropAcked serv len = .ok serv' ∧ Dropped serv serv' len := by
  unfold dropAcked
  rw [if_neg (by omega)]
  dsimp only
  split
  · exact ⟨_, rfl, rfl, rfl, rfl, rfl, rfl, rfl⟩
  · exact ⟨_, rfl, rfl, rfl, rfl, rfl, rfl, rfl⟩

theorem dropAcked_dropped (h : dropAcked serv len = .ok serv') :
    len ≤ serv.xmtring.count ∧ Dropped serv serv' len := by
  have hle : len ≤ serv.xmtring.count := by
    unfold dropAcked at h
    split at h
    · cases h
    · omega
  obtain ⟨serv1, hok, hdrop⟩ := dropAcked_ok hle
  rw [h] at hok
  cases hok
  exact ⟨hle, hdrop⟩

/-- The state after `insert_tcp_packet` is as before, unless an orphan
need not wait for the other side any longer. -/
theorem reasmInsert_quiet (h : reasmInsert serv skb = .ok r) :
    ∃ serv1, r.serv = some serv1 ∧ (Quiet serv serv1
      ∨ serv.state = .finWait2 ∧ Quiet serv { serv1 with state := .finWait2 }
        ∧ serv1.state = .timeWait) := by
  unfold reasmInsert at h
  split at h
  · cases h
  next fin serv1 hres =>
  have hins : Quiet serv serv1 := insertTcpPacket_quiet hres
  split at h
  · next horphan =>
    have hstate : serv.state = .finWait2 := hins.state.symm.trans horphan.2.2
    cases h
    exact ⟨_, rfl, .inr ⟨hstate, ⟨hins.ring, hins.seq, hins.ack, hstate.symm,
      hins.xmtfin, hins.rcvmss⟩, rfl⟩⟩
  · have hfin : Quiet serv (if fin = true then { serv1 with rcvfin := 1 } else serv1) := by
      split
      · exact { hins with }
      · exact hins
    dsimp only at h
    generalize (if fin = true then { serv1 with rcvfin := 1 } else serv1) = serv2 at h hfin
    split at h
    · cases h
      exact ⟨_, rfl, .inl (hfin.trans (restartDelayTimer_quiet serv2))⟩
    · cases h
      exact ⟨_, rfl, .inl hfin⟩

theorem reasmRst_cases (h : (reasmRst serv tcp).serv = some serv') :
    serv' = serv ∨ serv' = ({ serv with state := .closed } : TcpServ).stopAnyTimer := by
  unfold reasmRst at h
  split at h
  · cases h
    exact .inl rfl
  · split at h
    · cases h
    · cases h
      exact .inr rfl

theorem reasmRst_quiet (h : (reasmRst serv tcp).serv = some serv') : QuietOrClosed serv serv' := by
  rcases reasmRst_cases h with rfl | rfl
  · exact .inl (Quiet.refl _)
  · exact .inr (stopAnyTimer_quiet _)

/-- The arms of `reasm_tcpskb`. -/
theorem reasmTcpskb_cases (h : reasmTcpskb serv skb = .ok r) :
    (r = reasmUnsynced serv.stopKeepalive skb
      ∧ (serv.state = .closed ∨ serv.state = .listen ∨ serv.state = .synSent))
    ∨ (r.serv = some serv.stopKeepalive)
    ∨ (skb.tcp.rst = true ∧ r = reasmRst serv.stopKeepalive skb.tcp)
    ∨ ∃ a, takeAck serv.stopKeepalive skb.tcp = some a ∧ reasmAcked a skb = .ok r
      ∧ ¬ (serv.state = .closed ∨ serv.state = .listen ∨ serv.state = .synSent) := by
  have hstate := (stopKeepalive_quiet serv).state
  unfold reasmTcpskb at h
  dsimp only at h
  rw [← TcpServ.stopKeepalive] at h
  rw [← hstate]
  split at h
  · next hearly =>
    cases h
    exact .inl ⟨rfl, hearly⟩
  · next hlate =>
    split at h
    · cases h
      exact .inr (.inl rfl)
    · split at h
      · next hrst => exact .inr (.inr (.inl ⟨hrst, (Except.ok.inj h).symm⟩))
      · split at h
        · cases h
          exact .inr (.inl rfl)
        · next a htake => exact .inr (.inr (.inr ⟨a, htake, h, hlate⟩))

/-- `reasm_tcpskb` changes nothing that is sent, unless the segment gets as
far as its acknowledgement. -/
theorem reasmTcpskb_quiet (h : reasmTcpskb serv skb = .ok r) (hserv : r.serv = some serv') :
    QuietOrClosed serv.stopKeepalive serv' ∨
      ∃ a, takeAck serv.stopKeepalive skb.tcp = some a ∧ reasmAcked a skb = .ok r := by
  rcases reasmTcpskb_cases h with ⟨hr, -⟩ | hr | ⟨-, hr⟩ | ⟨a, htake, hr, -⟩
  · rw [hr] at hserv
    exact .inl (.inl (reasmUnsynced_quiet hserv))
  · rw [hr] at hserv
    cases hserv
    exact .inl (.inl (Quiet.refl _))
  · rw [hr] at hserv
    exact .inl (reasmRst_quiet hserv)
  · exact .inr ⟨a, htake, hr⟩

/-- `tcp_close` of a connection that is not freed. -/
theorem tcpClose_eq (h : serv.tcpClose = some serv') :
    serv' = { serv.tcpShutdown with socket := false } := by
  unfold TcpServ.tcpClose at h
  split at h
  · cases h
  · cases h
    rfl

end Cnix.Net
