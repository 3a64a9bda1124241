/-
What is in `xmtring`, from the first `syn` on.

# The count

Once the handshake is over the ring holds what was written and not
acknowledged, and `xmtack` says how much was acknowledged (`Tie`). The
handshake ends with `xmtack` behind our `syn`. In `TCP_ESTABLISHED`,
`TCP_CLOSE_WAIT`, `TCP_FIN_WAIT_1` and `TCP_FIN_WAIT_2` the tie is kept;
the other states take no more bytes out of the ring and are not left for
one of these.

# What breaks it

In `TCP_CLOSE_WAIT` an acknowledgement moves `xmtack` and the bytes stay
in the ring. A simultaneous open counts our `syn` twice, and the
acknowledgement of both takes a byte out of an empty ring. So does the
acknowledgement of a `syn` that arrives after `tcp_close` has had `fin`
sent in `TCP_SYN`, which is how a process that is interrupted in
`tcp_accept` leaves. `Accountable` excludes these.
-/
import Cnix.Net.Proofs.Lifetime

namespace Cnix.Net

open TcpState (Next Leads)

variable {iss : Seq} {written : List Byte} {serv serv' : TcpServ} {skb : Skb} {acked sent : Nat}
  {s s' : TcpState} {ev : ConnEvent}

-- ======== the traps

section Traps

variable {t : Trap} {delta : Seq} {list : List Skb}

/-- The traps of `insert_tcp_packet`. -/
def insertTraps : List Trap :=
  [.die .skbCutData, .die .stopDelayTimer, .die .insertTcpPacket]

theorem cutRest_error : ∀ {rest : List (List Byte)} {len : Nat},
    cutRest rest len = .error t → t ∈ insertTraps := by
  intro rest
  induction rest with
  | nil =>
    intro len h
    rw [cutRest] at h
    split at h
    · cases h
      simp [insertTraps]
    · cases h
  | cons chunk rest ih =>
    intro len h
    rw [cutRest] at h
    split at h
    · cases h
    split at h
    · cases h
    · exact ih h

theorem skbCutData_error {count : Nat} (h : skbCutData skb count = .error t) : t ∈ insertTraps := by
  unfold skbCutData at h
  dsimp only at h
  split at h
  · cases h
    simp [insertTraps]
  · split at h
    · cases h
    split at h
    · next hcut =>
      cases h
      exact cutRest_error hcut
    · cases h

theorem realInsert_error : ∀ {list : List Skb} {skb : Skb} {seq seqEnd : Seq},
    realInsertTcpPacket delta list skb seq seqEnd = .error t → t ∈ insertTraps := by
  intro list
  induction list with
  | nil =>
    intro skb seq seqEnd h
    cases h
  | cons skb1 list ih =>
    intro skb seq seqEnd h
    rw [realInsertTcpPacket] at h
    dsimp only at h
    split at h
    · split at h
      · cases h
      split at h
      · exact ih h
      · split at h
        · cases h
        split at h
        · next hcut =>
          cases h
          exact skbCutData_error hcut
        · exact ih h
    · split at h
      · cases h
      split at h
      · cases h
      split at h
      · split at h
        · cases h
        split at h
        · next hcut =>
          cases h
          exact skbCutData_error hcut
        · exact ih h
      · split at h
        · next hrest =>
          cases h
          exact ih hrest
        · cases h

theorem updateRcvwin_error {window : BitVec 16} (h : updateRcvwin serv window = .error t) :
    t ∈ insertTraps := by
  unfold updateRcvwin TcpServ.stopDelayTimer at h
  split at h
  · split at h
    · next hstop =>
      cases h
      split at hstop
      · cases hstop
        simp [insertTraps]
      · cases hstop
    · cases h
  · cases h

theorem checkFirst_error (h : checkFirst delta list serv = .error t) : t ∈ insertTraps := by
  unfold checkFirst at h
  split at h
  · cases h
  dsimp only at h
  split at h
  · split at h
    · cases h
      simp [insertTraps]
    · unfold deliverFirst at h
      split at h
      · next hwin =>
        cases h
        exact updateRcvwin_error hwin
      · dsimp only at h
        split at h
        · split at h
          · cases h
            simp [insertTraps]
          · cases h
        · cases h
  · cases h

theorem insertTcpPacket_error (h : insertTcpPacket serv skb = .error t) : t ∈ insertTraps := by
  unfold insertTcpPacket at h
  dsimp only at h
  split at h
  · cases h
  split at h
  · split at h
    · cases h
    split at h
    · next hwin =>
      cases h
      exact updateRcvwin_error hwin
    · cases h
  · split at h
    · cases h
    split at h
    · next hins =>
      cases h
      exact realInsert_error hins
    · cases h
    · exact checkFirst_error h

theorem reasmInsert_error (h : reasmInsert serv skb = .error t) : t ∈ insertTraps := by
  unfold reasmInsert at h
  split at h
  · next hins =>
    cases h
    exact insertTcpPacket_error hins
  · next fin serv1 _ =>
    split at h
    · cases h
    dsimp only at h
    generalize (if fin = true then { serv1 with rcvfin := 1 } else serv1) = serv2 at h
    split at h
    · cases h
    · cases h

/-- The count of `xmtring` never gets below 0, if no more is acknowledged
than is there. -/
theorem reasmData_no_die {a : Acked} (h : a.len ≤ a.serv.xmtring.count) :
    reasmData a skb ≠ .error (.die .reasmTcpskb) := by
  have hother : Trap.die .reasmTcpskb ∉ insertTraps := by decide
  intro herr
  unfold reasmData at herr
  split at herr
  · obtain ⟨serv1, hok, -⟩ := dropAcked_ok h
    rw [hok] at herr
    exact hother (reasmInsert_error herr)
  · exact hother (reasmInsert_error herr)

end Traps

-- ======== the handshake

/-- Before our `syn` is acknowledged. -/
structure Opening (iss : Seq) (serv : TcpServ) : Prop where
  state : serv.state = .synSent ∨ serv.state = .syn
  ack : serv.xmtack = iss
  seq : serv.xmtseq = iss + 1#32
  count : serv.xmtring.count = 0
  size : serv.xmtring.size = defaultRingSize
  xmtfin : serv.xmtfin = 0
  rcvmss : 0 < serv.rcvmss
  armed : serv.armed = false

theorem tcpConnect_opening (new : Origin) : Opening new.tcpSequence (tcpConnect new) :=
  ⟨.inl rfl, rfl, rfl, rfl, rfl, rfl, show 0 < rcvMss by decide, rfl⟩

theorem acceptConnect_opening (new : Origin) (rcvack : Seq) (rcvwin : BitVec 16) :
    Opening new.tcpSequence (acceptConnect new rcvack rcvwin) :=
  ⟨.inr rfl, rfl, rfl, rfl, rfl, rfl, show 0 < rcvMss by decide, rfl⟩

/-- Right after the handshake. -/
structure Started (iss : Seq) (serv : TcpServ) : Prop extends Synced iss serv where
  xmtfin : serv.xmtfin = 0
  rcvmss : 0 < serv.rcvmss

theorem Started.quiet (h : Started iss serv) (hq : Quiet serv serv') : Started iss serv' where
  state := hq.state.trans h.state
  count := by rw [hq.ring, h.count]
  size := by rw [hq.ring, h.size]
  ack := hq.ack.trans h.ack
  seq := hq.seq.trans h.seq
  xmtfin := hq.xmtfin.trans h.xmtfin
  rcvmss := by
    rw [hq.rcvmss]
    exact h.rcvmss

namespace Opening

variable (h : Opening iss serv)

include h

theorem quiet (hq : Quiet serv serv') (harmed : serv'.armed = false) : Opening iss serv' where
  state := by
    rw [hq.state]
    exact h.state
  ack := hq.ack.trans h.ack
  seq := hq.seq.trans h.seq
  count := by rw [hq.ring, h.count]
  size := by rw [hq.ring, h.size]
  xmtfin := hq.xmtfin.trans h.xmtfin
  rcvmss := by
    rw [hq.rcvmss]
    exact h.rcvmss
  armed := harmed

theorem flight : serv.flight = 1 := by
  unfold TcpServ.flight
  rw [h.seq, h.ack, add_sub_cancel_left]
  rfl

theorem stopKeepalive : Opening iss serv.stopKeepalive := by
  refine h.quiet (stopKeepalive_quiet serv) ?_
  unfold TcpServ.stopKeepalive TcpServ.stopAnyTimer
  split
  · split
    · exact h.armed
    · rfl
  · exact h.armed

theorem unsynced (hserv : (reasmUnsynced serv skb).serv = some serv') : Opening iss serv' := by
  refine h.quiet (reasmUnsynced_quiet hserv) ?_
  have harmed := h.armed
  unfold reasmUnsynced at hserv
  split at hserv
  · cases hserv
    exact harmed
  · split at hserv
    · dsimp only at hserv
      split at hserv
      · cases hserv
        exact harmed
      · cases hserv
        exact harmed
    · split at hserv
      · cases hserv
        exact harmed
      · cases hserv
        exact harmed
    · cases hserv
      exact harmed

theorem read {bytes : List Byte} {n : Nat}
    (hread : tcpRead serv n = .ok (bytes, serv')) : Opening iss serv' := by
  refine h.quiet (tcpRead_quiet hread) ?_
  have harmed := h.armed
  rw [tcpRead, tcpReadRound, if_neg Bool.false_ne_true, if_neg Bool.false_ne_true] at hread
  split at hread
  · cases hread
  · cases hread
    exact harmed

/-- The process in `tcp_connect` takes an acknowledgement of our
`syn`. -/
theorem connected (hc : Connected serv serv') : Started iss serv' where
  state := hc.state
  count := by rw [hc.ring, h.count]
  size := by rw [hc.ring, h.size]
  ack := by rw [hc.ack, h.ack]; rfl
  seq := hc.seq.trans h.seq
  xmtfin := hc.xmtfin.trans h.xmtfin
  rcvmss := hc.rcvmss h.rcvmss

/-- An acknowledgement of our `syn` arrives. -/
theorem ackArrives {a : Acked} {r : Reasm} (hstate : serv.state = .syn)
    (hmoved : Moved serv skb.tcp a) (hack : a.ack = true)
    (hres : Net.reasmAcked a skb = .ok r) : ∃ serv', r.serv = some serv' ∧ Started iss serv' := by
  have hflight := h.flight
  have hlen : a.len = 1 := by
    have hlow := hmoved.low
    have hpos := hmoved.pos hack
    omega
  have hend : a.serv.xmtseq = a.serv.xmtack := by
    have hzero : a.serv.flight = 0 := by rw [hmoved.flight, hflight, hlen]
    exact sub_eq_zero.mp (BitVec.eq_of_toNat_eq hzero)
  have hseq : a.serv.xmtseq = iss + 1#32 := hmoved.seq.trans h.seq
  have hfin : a.serv.xmtfin = 0 := by
    rcases hmoved.xmtfin with hsame | ⟨htwo, -⟩
    · exact hsame.trans h.xmtfin
    · rw [h.xmtfin] at htwo
      cases htwo
  have hstart : Started iss { a.serv with state := .established } :=
    { state := rfl
      count := by
        show a.serv.xmtring.count = 0
        rw [hmoved.ring, h.count]
      size := by
        show a.serv.xmtring.size = _
        rw [hmoved.ring, h.size]
      ack := hend.symm.trans hseq
      seq := hseq
      xmtfin := hfin
      rcvmss := by
        show 0 < a.serv.rcvmss
        rw [hmoved.rcvmss]
        exact h.rcvmss }
  unfold Net.reasmAcked at hres
  rw [hmoved.state, hstate] at hres
  simp only [hack, Bool.not_true, Bool.false_eq_true, if_false] at hres
  generalize ({ a.serv with state := .established } : TcpServ) = serv1 at hres hstart
  unfold Net.reasmData at hres
  rw [if_pos rfl, hlen] at hres
  obtain ⟨serv2, hdrop, hdropped⟩ := dropAcked_ok (Nat.zero_le serv1.xmtring.count)
  rw [hdrop] at hres
  have hstart2 : Started iss serv2 :=
    { state := by rw [hdropped.state, hstart.state]; simp
      count := by rw [hdropped.ring]; exact hstart.count
      size := by rw [hdropped.ring]; exact hstart.size
      ack := hdropped.ack.trans hstart.ack
      seq := hdropped.seq.trans hstart.seq
      xmtfin := hdropped.xmtfin.trans hstart.xmtfin
      rcvmss := by rw [hdropped.rcvmss]; exact hstart.rcvmss }
  obtain ⟨serv3, hr, hquiet | ⟨hwait, -, -⟩⟩ := reasmInsert_quiet hres
  · exact ⟨serv3, hr, hstart2.quiet hquiet⟩
  · rw [hstart2.state] at hwait
    cases hwait

/-- What an arrival makes of the handshake. -/
theorem reasmTcpskb {r : Reasm}
    (hres : Net.reasmTcpskb serv skb = .ok r) (hserv : r.serv = some serv') :
    Opening iss serv' ∨ serv'.state = .closed ∨ Started iss serv' := by
  have h1 := h.stopKeepalive
  rcases reasmTcpskb_cases hres with ⟨hr, -⟩ | hr | ⟨-, hr⟩ | ⟨a, htake, hr, hlate⟩
  · rw [hr] at hserv
    exact .inl (h1.unsynced hserv)
  · rw [hr] at hserv
    cases hserv
    exact .inl h1
  · rw [hr] at hserv
    rcases reasmRst_cases hserv with rfl | rfl
    · exact .inl h1
    · exact .inr (.inl (stopAnyTimer_quiet _).state)
  · have hmoved := takeAck_moved (by rw [h1.flight]; decide) htake
    have hstate : serv.stopKeepalive.state = .syn := by
      rw [(stopKeepalive_quiet serv).state]
      rcases h.state with hs | hs
      · exact absurd (.inr (.inr hs)) hlate
      · exact hs
    cases hack : a.ack with
    | true =>
      obtain ⟨serv1, hr1, hstart⟩ := h1.ackArrives hstate hmoved hack hr
      rw [hr1] at hserv
      cases hserv
      exact .inr (.inr hstart)
    | false =>
      -- not an acknowledgement of our `syn`: the segment is dropped
      unfold Net.reasmAcked at hr
      rw [hmoved.state, hstate] at hr
      simp only [hack, Bool.not_false, if_true] at hr
      cases hr
      cases hserv
      rw [(hmoved.still hack).2]
      exact .inl h1

end Opening

-- ======== the runs

/-- The states in which acknowledged bytes leave the ring, and
`TCP_CLOSE_WAIT`, in which they should. -/
def TcpState.holdsRing : TcpState → Bool
  | .established | .closeWait | .finWait1 | .finWait2 => true
  | _ => false

/-- The states in which nothing leaves the ring any more. -/
def TcpState.past : TcpState → Bool
  | .closed | .listen | .lastAck | .closing | .timeWait => true
  | _ => false

theorem past_next (h : Next s s') (hs : s.past) : s'.past := by
  cases h with
  | closed | dropped => rfl
  | accepted | finAcked | orphaned | finSentSyn | finSent
  | finSentLast | finTaken | finTakenBoth | finTakenLast => cases hs

theorem holdsRing_next (h : Next s s') (hs : s.holdsRing ∨ s.past) : s'.holdsRing ∨ s'.past := by
  cases h with
  | accepted | finSentSyn => rcases hs with hs | hs <;> cases hs
  | finAcked | finSent | finTaken => exact .inl rfl
  | orphaned | closed | finSentLast | finTakenBoth | finTakenLast | dropped => exact .inr rfl

theorem past_not_holdsRing (hpast : s.past) : s.holdsRing = false := by
  cases s with
  | closed | listen | lastAck | closing | timeWait => rfl
  | synSent | syn | established | closeWait | finWait1 | finWait2 => cases hpast

theorem Opening.not_holdsRing (h : Opening iss serv) : serv.state.holdsRing = false := by
  rcases h.state with hs | hs
  · rw [hs]
    rfl
  · rw [hs]
    rfl

/-- Our `syn` and `fin` are kept apart from the data, and no data is
acknowledged in `TCP_CLOSE_WAIT`. -/
def Accountable (serv : TcpServ) : ConnEvent → Prop
  | .send (.arrive skb) => serv.state = .closeWait → skb.tcp.ack →
      0 < compareSeq skb.tcp.ackSeq serv.xmtack → serv.xmtack = serv.xmtseq
  | ev => Settled serv ev

/-- Where a connection is, and what is in its ring. -/
inductive Account (iss : Seq) : TcpServ → List Byte → Prop
  | opening {serv : TcpServ} : Opening iss serv → Account iss serv []
  | tied {serv : TcpServ} {written : List Byte} {acked sent : Nat} :
      Tie iss written serv acked sent → serv.state.holdsRing → Account iss serv written
  | past {serv : TcpServ} {written : List Byte} : serv.state.past → Account iss serv written

/-- What a tied connection becomes, as long as the tie is kept. -/
theorem Tie.account (h : Tie iss written serv' acked sent)
    (hstate : serv.state.holdsRing) (hleads : Leads serv.state serv'.state) :
    Account iss serv' written := by
  rcases Leads.keeps (fun _ _ => holdsRing_next) hleads (.inl hstate) with hholds | hpast
  · exact .tied h hholds
  · exact .past hpast

theorem Started.account (h : Started iss serv) : Account iss serv [] :=
  .tied (Tie.fresh h.toSynced) (by rw [h.state]; rfl)

/-- Whatever timer expires, the tie is kept. -/
theorem Tie.expires {alloc : Nat → Bool} {fired : Fired}
    (h : Tie iss written serv acked sent) (hfire : Net.timerExpires alloc serv = some fired)
    (hserv : fired.serv = .ok serv') : ∃ sent', Tie iss written serv' acked sent' := by
  obtain ⟨serv1, hquiet, hrun⟩ := timerExpires_cases hfire
  have h1 := h.same hquiet.same
  rcases hrun with rfl | rfl | ⟨-, rfl⟩ | rfl
  · cases hserv
    exact ⟨sent, h1⟩
  · exact h1.delayTimerCallback.tie serv' hserv
  · exact ⟨sent, h1.same (rexmitTimerCallback_quiet hserv).same⟩
  · exact h1.keepaliveTimerCallback.tie serv' hserv

/-- Closing before there is an answer leaves the sending half alone. -/
theorem tcpShutdown_synSent (h : serv.state = .synSent) : serv.tcpShutdown = serv := by
  unfold TcpServ.tcpShutdown TcpServ.writable
  rw [h]
  rfl

/-- What becomes of the handshake. Nothing is written or sent in it. -/
theorem Opening.next (h : Opening iss serv) (hposs : ev.possible serv)
    (hok : Settled serv ev) (hconn : (ev.step serv).conn = some serv') :
    (Opening iss serv' ∨ serv'.state = .closed ∨ Started iss serv')
      ∧ (ev.step serv).taken = [] ∧ (ev.step serv).sent = [] := by
  have hwait : ¬ (serv.state = .established ∨ serv.state = .closeWait) := by
    rintro (hs | hs) <;> rcases h.state with ho | ho <;> rw [ho] at hs <;> cases hs
  have hnowrite : ¬ (serv.state ≠ .synSent ∧ serv.state ≠ .syn) := by
    rintro ⟨hsent, hsyn⟩
    rcases h.state with ho | ho
    · exact hsent ho
    · exact hsyn ho
  have hsynSent : serv.state ≠ .syn → serv.state = .synSent :=
    fun hne => h.state.resolve_right hne
  cases ev with
  | takeSyn options =>
    exact ⟨.inr (.inr (h.connected (tcpStateSynSent_settled hok hconn))), rfl, rfl⟩
  | send ev =>
    cases ev with
    | write buffer oob => exact absurd hok hwait
    | writeFull | writeEnd => exact absurd hok hnowrite
    | shutdown =>
      have hserv : serv.tcpShutdown = serv' := Option.some.inj hconn
      rw [tcpShutdown_synSent (hsynSent hok)] at hserv
      subst hserv
      exact ⟨.inl h, rfl, rfl⟩
    | close =>
      have hsent := hsynSent hok
      have hclose : serv.tcpClose = some serv' := hconn
      unfold TcpServ.tcpClose at hclose
      rw [tcpShutdown_synSent hsent, if_neg (by rw [hsent]; simp)] at hclose
      cases hclose
      exact ⟨.inl { h with },
        rfl, rfl⟩
    | read count =>
      obtain ⟨bytes, hread⟩ := read_conn hconn
      exact ⟨.inl (h.read hread), rfl, rfl⟩
    | arrive skb =>
      obtain ⟨r, hres, hserv⟩ := arrive_conn hconn
      exact ⟨h.reasmTcpskb hres hserv, rfl, rfl⟩
    | expire alloc =>
      have harmed : serv.armed = true := hposs
      rw [h.armed] at harmed
      cases harmed

theorem Accountable.settled (h : Accountable serv ev) : Settled serv ev := by
  cases ev with
  | takeSyn _ => exact h
  | send ev =>
    cases ev with
    | arrive skb => trivial
    | write _ _ | writeFull | writeEnd | shutdown | close | read _ | expire _ => exact h

theorem Opening.step (h : Opening iss serv) (hposs : ev.possible serv)
    (hok : Accountable serv ev) (hconn : (ev.step serv).conn = some serv') :
    Account iss serv' (ev.step serv).taken := by
  obtain ⟨hnext, htaken, -⟩ := h.next hposs hok.settled hconn
  rw [htaken]
  rcases hnext with hopening | hclosed | hstarted
  · exact .opening hopening
  · exact .past (by rw [hclosed]; rfl)
  · exact hstarted.account

/-- An acknowledgement in a state that keeps the ring has to be in
`TCP_CLOSE_WAIT`, as long as the connection is tied. -/
theorem holdsRing_keepsRing (hholds : s.holdsRing) (hkeeps : s.keepsRing) : s = .closeWait := by
  cases s with
  | closeWait => rfl
  | established | finWait1 | finWait2 => cases hkeeps
  | closed | listen | synSent | syn | lastAck | closing | timeWait => cases hholds

/-- After the opening there is no answer to take. -/
theorem ConnEvent.sends (hposs : ev.possible serv) (hne : serv.state ≠ .synSent) :
    ∃ e, ev = .send e := by
  cases ev with
  | takeSyn options =>
    have hsent : serv.state = .synSent ∧ serv.rcvskblist ≠ [] := by
      simpa [ConnEvent.possible] using hposs
    exact absurd hsent.1 hne
  | send e => exact ⟨e, rfl⟩

theorem Tie.accountStep (h : Tie iss written serv acked sent)
    (hstate : serv.state.holdsRing) (hposs : ev.possible serv) (hok : Accountable serv ev)
    (hconn : (ev.step serv).conn = some serv') :
    Account iss serv' (written ++ (ev.step serv).taken) := by
  obtain ⟨ev, rfl⟩ := ConnEvent.sends hposs fun hs => by
    rw [hs] at hstate
    cases hstate
  have hleads : Leads serv.state serv'.state := SendEvent.leads hconn
  have hkept (horderly : Orderly serv ev) :
      Account iss serv' (written ++ (ev.step serv).taken) := by
    obtain ⟨acked', sent', htie⟩ := (h.step horderly).tie serv' hconn
    exact htie.account hstate hleads
  cases ev with
  | write _ _ | writeFull | writeEnd | shutdown | close | read _ => exact hkept trivial
  | arrive skb => exact hkept fun hk => hok (holdsRing_keepsRing hstate hk)
  | expire alloc =>
    obtain ⟨fired, hfire, hserv, -⟩ := expire_conn hconn
    obtain ⟨sent', htie⟩ := h.expires hfire hserv
    have htaken : (ConnEvent.step serv (.send (.expire alloc))).taken = [] := by
      show (SendEvent.step serv (.expire alloc)).taken = []
      simp only [SendEvent.step, hfire]
    rw [htaken, List.append_nil]
    exact htie.account hstate hleads

theorem Account.step (h : Account iss serv written)
    (hposs : ev.possible serv) (hok : Accountable serv ev)
    (hconn : (ev.step serv).conn = some serv') :
    Account iss serv' (written ++ (ev.step serv).taken) := by
  cases h with
  | opening h => exact h.step hposs hok hconn
  | tied h hstate => exact h.accountStep hstate hposs hok hconn
  | past hpast =>
    obtain ⟨ev, rfl⟩ := ConnEvent.sends hposs fun hs => by
      rw [hs] at hpast
      cases hpast
    exact .past (Leads.keeps (fun _ _ => past_next) (SendEvent.leads hconn) hpast)

theorem ConnRun.account {conn : Option TcpServ} {hist : History}
    (hrun : ConnRun Accountable iss conn hist) :
    ∀ serv, conn = some serv → Account iss serv hist.written := by
  induction hrun with
  | connect new hnew =>
    intro serv hconn
    cases hconn
    rw [← hnew]
    exact .opening (tcpConnect_opening new)
  | accept new rcvack rcvwin hnew =>
    intro serv hconn
    cases hconn
    rw [← hnew]
    exact .opening (acceptConnect_opening new rcvack rcvwin)
  | step _ hposs hok ih =>
    intro serv' hconn
    exact (ih _ rfl).step hposs hok hconn

-- ======== the count

theorem Tie.flight (h : Tie iss written serv acked sent) :
    serv.flight ≤ serv.xmtring.count ∧ serv.flight ≤ 2 ^ 13 := by
  have hoff : serv.flight = sent - acked := h.ringOff
  have hflight := h.in_flight
  omega

/-- `reasm_tcpskb` stops the machine only in the `switch` or behind it. -/
theorem reasmTcpskb_error {t : Trap} (h : Net.reasmTcpskb serv skb = .error t) :
    ∃ a, Net.takeAck serv.stopKeepalive skb.tcp = some a ∧ Net.reasmAcked a skb = .error t
      ∧ ¬ (serv.state = .closed ∨ serv.state = .listen ∨ serv.state = .synSent) := by
  have hstate := (stopKeepalive_quiet serv).state
  unfold Net.reasmTcpskb at h
  dsimp only at h
  rw [← TcpServ.stopKeepalive] at h
  rw [← hstate]
  generalize serv.stopKeepalive = serv1 at h
  split at h
  · cases h
  next hlate =>
  split at h
  · cases h
  split at h
  · cases h
  split at h
  · cases h
  · next a htake => exact ⟨a, htake, h, hlate⟩

/-- The `switch` of `reasm_tcpskb` takes out no more than is there. -/
theorem reasmAcked_no_die {a : Acked}
    (hsyn : a.serv.state = .syn → a.len - 1 ≤ a.serv.xmtring.count)
    (hholds : a.serv.state.holdsRing → a.len ≤ a.serv.xmtring.count)
    (hearly : ¬ (a.serv.state = .closed ∨ a.serv.state = .listen ∨ a.serv.state = .synSent)) :
    Net.reasmAcked a skb ≠ .error (.die .reasmTcpskb) := by
  intro herr
  unfold Net.reasmAcked at herr
  split at herr
  · next hs =>
    split at herr
    · cases herr
    · exact reasmData_no_die (hsyn hs) herr
  · cases herr
  · split at herr
    · cases herr
    · cases herr
  · split at herr
    · cases herr
    · cases herr
  · cases herr
  next hne1 hne2 hne3 hne4 hne5 =>
  refine reasmData_no_die (hholds ?_) herr
  cases hs : a.serv.state with
  | established | finWait1 | finWait2 => rfl
  | closed => exact absurd (.inl hs) hearly
  | listen => exact absurd (.inr (.inl hs)) hearly
  | synSent => exact absurd (.inr (.inr hs)) hearly
  | syn => exact absurd hs hne1
  | closeWait => exact absurd hs hne2
  | lastAck => exact absurd hs hne3
  | closing => exact absurd hs hne4
  | timeWait => exact absurd hs hne5

/-- Wherever a connection is, no arrival makes the count negative. -/
theorem Account.no_die (h : Account iss serv written) (skb : Skb) :
    Net.reasmTcpskb serv skb ≠ .error (.die .reasmTcpskb) := by
  intro herr
  obtain ⟨a, htake, hacked, hlate⟩ := reasmTcpskb_error herr
  have hquiet := stopKeepalive_quiet serv
  have hstate : a.serv.state = serv.state := (takeAck_state htake).trans hquiet.state
  rw [← hstate] at hlate
  refine reasmAcked_no_die (fun hsyn => ?_) (fun hholds => ?_) hlate hacked
  · rw [hstate] at hsyn
    cases h with
    | opening h =>
      have hflight : serv.stopKeepalive.flight = 1 := hquiet.flight.trans h.flight
      have hlow := (takeAck_moved (by rw [hflight]; decide) htake).low
      omega
    | tied h => exact absurd hsyn h.synced
    | past hpast =>
      rw [hsyn] at hpast
      cases hpast
  · rw [hstate] at hholds
    cases h with
    | opening h => exact absurd hholds (by rw [h.not_holdsRing]; simp)
    | tied h =>
      obtain ⟨hcount, hsmall⟩ := h.flight
      have hmoved := takeAck_moved (by rw [hquiet.flight]; exact hsmall) htake
      have hlow := hmoved.low
      rw [hquiet.flight] at hlow
      rw [hmoved.ring, hquiet.ring]
      exact hlow.trans hcount
    | past hpast => exact absurd hholds (by rw [past_not_holdsRing hpast]; simp)

/-- The ring holds what was written and not acknowledged, and what was
sent and not acknowledged is in it. -/
def Accounts (iss : Seq) (written : List Byte) (serv : TcpServ) : Prop :=
  ∃ acked ≤ written.length, serv.xmtack = iss + 1#32 + BitVec.ofNat 32 acked
    ∧ serv.xmtring.count = written.length - acked
    ∧ (serv.xmtseq - serv.xmtack).toNat ≤ serv.xmtring.count

/-- From an open on, as long as no data is acknowledged in
`TCP_CLOSE_WAIT` and `syn` and `fin` are kept apart from the data, the
count of the ring is what was written and not acknowledged, in every
state that takes bytes from it or from the application, and the count
never gets negative. -/
theorem tcp_send_accounts {hist : History} (hrun : ConnRun Accountable iss (some serv) hist) :
    (serv.state.holdsRing → Accounts iss hist.written serv)
    ∧ ∀ skb, Net.reasmTcpskb serv skb ≠ .error (.die .reasmTcpskb) := by
  have haccount := hrun.account serv rfl
  refine ⟨fun hholds => ?_, haccount.no_die⟩
  generalize hist.written = written at haccount ⊢
  cases haccount with
  | opening h => exact absurd hholds (by rw [h.not_holdsRing]; simp)
  | tied h => exact ⟨_, h.low.trans h.high, h.ack, h.count, h.flight.1⟩
  | past hpast => exact absurd hholds (by rw [past_not_holdsRing hpast]; simp)

instance (serv : TcpServ) (ev : ConnEvent) : Decidable (Accountable serv ev) := by
  unfold Accountable
  induction ev using ConnEvent.casesOn with
  | takeSyn _ => infer_instance
  | send ev => induction ev using SendEvent.casesOn <;> infer_instance

/-- Four of ten bytes are acknowledged. -/
theorem tcp_accounts_six :
    ∃ serv hist, ConnRun Accountable 0 (some serv) hist ∧ serv.xmtring.count = 6
      ∧ Accounts 0 hist.written serv := by
  obtain ⟨serv, hist, hplay, hcount, hholds⟩ : ∃ serv hist,
      playConn Accountable
          (tcpConnect ordinary, ⟨[], [], []⟩)
          (connectAndSend ++ [.send (.arrive (bareSkb 1 5 true false false))]) = some (serv, hist)
        ∧ serv.xmtring.count = 6 ∧ serv.state.holdsRing :=
    ⟨_, _, rfl, rfl, rfl⟩
  have hrun := ConnRun.play Accountable (.connect ordinary rfl) hplay
  exact ⟨serv, hist, hrun, hcount, (tcp_send_accounts hrun).1 hholds⟩

/-- The other side closes, and acknowledges the ten bytes in
`TCP_CLOSE_WAIT`: they stay in the ring. In a simultaneous open the
acknowledgement of our `syn`, which was counted twice, stops the
machine. -/
theorem tcp_miscounts :
    (∃ serv hist, ConnRun (fun _ _ => True) 0 (some serv) hist ∧ serv.state = .closeWait
      ∧ ¬ Accounts 0 hist.written serv) ∧ ∃ serv hist, ConnRun (fun _ _ => True) 0 (some serv) hist
      ∧ reasmTcpskb serv (bareSkb 1 2 true false false) = .error (.die .reasmTcpskb) := by
  refine ⟨?_, ?_⟩
  · obtain ⟨serv, hist, hplay, hstate, hack, hcount, hlen⟩ : ∃ serv hist,
        playConn (fun _ _ => True) (tcpConnect ordinary, ⟨[], [], []⟩)
            (connectAndSend ++ [.send (.arrive (bareSkb 1 1 true false true)),
              .send (.expire plenty), .send (.arrive (bareSkb 2 11 true false false))])
            = some (serv, hist)
          ∧ serv.state = .closeWait ∧ serv.xmtack = 11 ∧ serv.xmtring.count = 10
          ∧ hist.written.length = 10 :=
      ⟨_, _, rfl, rfl, rfl, rfl, rfl⟩
    have hrun := ConnRun.play (fun _ _ => True) (.connect ordinary rfl) hplay
    refine ⟨serv, hist, hrun, hstate, ?_⟩
    rintro ⟨acked, hle, hacked, hleft, -⟩
    -- a full ring says that nothing was acknowledged, `xmtack` that all was
    have hzero : acked = 0 := by omega
    subst hzero
    rw [hack] at hacked
    exact absurd hacked (by decide)
  · obtain ⟨serv, hist, hplay, hdie⟩ : ∃ serv hist,
        playConn (fun _ _ => True) (tcpConnect ordinary, ⟨[], [], []⟩)
            [.send (.arrive (bareSkb 0 0 false true false)), .takeSyn []] = some (serv, hist)
          ∧ reasmTcpskb serv (bareSkb 1 2 true false false) = .error (.die .reasmTcpskb) :=
      ⟨_, _, rfl, rfl⟩
    exact ⟨serv, hist, ConnRun.play (fun _ _ => True) (.connect ordinary rfl) hplay, hdie⟩

end Cnix.Net
