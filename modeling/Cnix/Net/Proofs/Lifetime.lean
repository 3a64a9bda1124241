/-
The life of a connection: the moves of its state, and its runs from the
first `syn` on.

A run starts with `tcp_connect` or `accept_connect`. A process that waits
in `tcp_write` goes on in whatever state it is woken up in, so bytes may
be written in any state; which are is up to the condition on the events
of a run.
-/
import Cnix.Net.TcpOpen
import Cnix.Net.Proofs.Labelling

namespace Cnix.Net

variable {serv serv' : TcpServ} {skb : Skb} {tcp : TcpHdr} {a : Acked} {len : Nat} {r : Reasm}

-- ======== the moves

open TcpState (Next Leads)

theorem tryAgain_leads {alloc : Nat → Bool} {rounds : Nat} {len : Int}
    (h : (tryAgain alloc rounds serv len).serv = .ok serv') : Leads serv.state serv'.state := by
  refine tryAgain_rule (p := fun serv1 _ => Leads serv.state serv1.state)
    (q := fun fired => ∀ serv', fired.serv = .ok serv' → Leads serv.state serv'.state)
    ?_ ?_ ?_ ?_ ?_ ?_ .refl serv' h
  · intro t serv' hserv
    cases hserv
  · intro serv1 len hleads serv' hserv
    cases hserv
    exact hleads
  · intro serv1 len alloc hleads serv' hserv
    exact hleads.trans (askWindow_quiet hserv).leads
  · intro serv1 len alloc hleads serv' hserv
    exact hleads.trans (sendNothing_quiet hserv).leads
  · intro serv1 serv2 len cut alloc fin hleads hres serv' hserv
    cases hserv
    exact hleads.trans ((sendTcpDelayAck_quiet hres).startTimer .delay).leads
  · intro serv1 serv2 len cut alloc fin skb hleads _ _ _ hres
    have hsend := hleads.trans (sendTcpDelayAck_quiet hres).leads
    have hafter := hsend.trans (afterSend_switched serv2 cut fin).leads
    generalize afterSend serv2 cut fin = after at hafter
    obtain ⟨serv3, ended⟩ := after
    cases ended with
    | true =>
      intro serv' hserv
      cases hserv
      exact hafter
    | false =>
      dsimp only [RoundOk]
      split
      · exact ⟨hafter, fun fired hfired => hfired⟩
      · intro serv' hserv
        cases hserv
        exact hafter.trans ((Quiet.refl serv3).startTimer .delay).leads

theorem delayTimerCallback_leads {alloc : Nat → Bool}
    (h : (delayTimerCallback alloc serv).serv = .ok serv') : Leads serv.state serv'.state := by
  have hstate : ({ serv with timertype := .none } : TcpServ).state = serv.state := rfl
  rw [← hstate]
  exact tryAgain_leads h

theorem timerExpires_leads {alloc : Nat → Bool} {fired : Fired}
    (h : timerExpires alloc serv = some fired) (hserv : fired.serv = .ok serv') :
    Leads serv.state serv'.state := by
  obtain ⟨serv1, hquiet, hrun⟩ := timerExpires_cases h
  rw [← hquiet.state]
  rcases hrun with rfl | rfl | ⟨-, rfl⟩ | rfl
  · cases hserv
    exact .refl
  · exact delayTimerCallback_leads hserv
  · exact (rexmitTimerCallback_quiet hserv).leads
  · exact (keepaliveTimerCallback_quiet hserv).leads

-- ======== the arrivals

theorem reasmInsert_leads (h : reasmInsert serv skb = .ok r)
    (hserv : r.serv = some serv') : Leads serv.state serv'.state := by
  obtain ⟨serv1, hr, hcase⟩ := reasmInsert_quiet h
  rw [hr] at hserv
  cases hserv
  rcases hcase with hquiet | ⟨hwait, -, hstate⟩
  · exact hquiet.leads
  · rw [hwait, hstate]
    exact .single .orphaned

theorem reasmData_leads (h : reasmData a skb = .ok r)
    (hserv : r.serv = some serv') : Leads a.serv.state serv'.state := by
  unfold reasmData at h
  split at h
  · split at h
    · cases h
    next serv1 hdrop =>
    have hstate := (dropAcked_dropped hdrop).2.state
    have hnext : Leads a.serv.state serv1.state := by
      rw [hstate]
      split
      · next hwait =>
        rw [hwait]
        exact .single .finAcked
      · exact .refl
    exact hnext.trans (reasmInsert_leads h hserv)
  · exact reasmInsert_leads h hserv

theorem reasmAcked_leads (h : reasmAcked a skb = .ok r)
    (hserv : r.serv = some serv') : Leads a.serv.state serv'.state := by
  unfold reasmAcked at h
  split at h
  · next hs =>
    split at h
    · cases h
      cases hserv
      exact .refl
    · have hdata := reasmData_leads h hserv
      rw [hs]
      exact (Relation.ReflTransGen.single .accepted).trans hdata
  · cases h
    cases hserv
    exact .refl
  · split at h
    · cases h
      cases hserv
    · cases h
      cases hserv
      exact .refl
  · next hs =>
    split at h
    · cases h
      cases hserv
      rw [hs]
      exact .single .closed
    · cases h
      cases hserv
      exact .refl
  · cases h
    cases hserv
    exact .refl
  · exact reasmData_leads h hserv

theorem reasmTcpskb_leads (h : reasmTcpskb serv skb = .ok r)
    (hserv : r.serv = some serv') : Leads serv.state serv'.state := by
  have hstop := (stopKeepalive_quiet serv).leads
  rcases reasmTcpskb_quiet h hserv with hquiet | ⟨a, htake, hr⟩
  · exact hstop.trans hquiet.leads
  · have hacked := reasmAcked_leads hr hserv
    rw [takeAck_state htake] at hacked
    exact hstop.trans hacked

-- ======== the runs

/-- What happens to a connection from the first `syn` on: the process in
`tcp_connect` takes the answer, or what may happen at any time. -/
inductive ConnEvent
  | takeSyn (options : List Byte)
  | send (ev : SendEvent)

/-- The event happens. -/
def ConnEvent.step (serv : TcpServ) : ConnEvent → Outcome
  | .takeSyn options => ⟨(tcpStateSynSent serv options).toOption.join, [], []⟩
  | .send ev => ev.step serv

/-- There is an answer to take; the timer is set. -/
def ConnEvent.possible (serv : TcpServ) : ConnEvent → Bool
  | .takeSyn _ => serv.state = .synSent ∧ serv.rcvskblist ≠ []
  | .send ev => ev.possible serv

/-- The bytes written, the packets sent and the acknowledgements that
arrived. -/
structure History where
  written : List Byte
  log : List Skb
  heard : List Seq

/-- The acknowledgement that an event brings. -/
def ConnEvent.hears : ConnEvent → List Seq
  | .send (.arrive skb) => if skb.tcp.ack then [skb.tcp.ackSeq] else []
  | _ => []

/-- The history after one more event. -/
def History.add (hist : History) (serv : TcpServ) (ev : ConnEvent) : History where
  written := hist.written ++ (ev.step serv).taken
  log := hist.log ++ (ev.step serv).sent
  heard := hist.heard ++ ev.hears

/-- The states reached from an active or a passive open, and the history
on the way there. `ok` is a condition on each event. -/
inductive ConnRun (ok : TcpServ → ConnEvent → Prop) (iss : Seq) :
    Option TcpServ → History → Prop
  | connect (new : Origin) : new.tcpSequence = iss →
      ConnRun ok iss (some (tcpConnect new)) ⟨[], [], []⟩
  | accept (new : Origin) (rcvack : Seq) (rcvwin : BitVec 16) : new.tcpSequence = iss →
      ConnRun ok iss (some (acceptConnect new rcvack rcvwin)) ⟨[], [], []⟩
  | step {serv : TcpServ} {hist : History} {ev : ConnEvent} :
      ConnRun ok iss (some serv) hist → ev.possible serv → ok serv ev →
      ConnRun ok iss (ev.step serv).conn (hist.add serv ev)

/-- What keeps `syn` and `fin` apart from the data: the other side's
`syn` acknowledges ours, nothing is written or closed before the
handshake is over, and bytes are written only while `tcp_write` would
take them. -/
def Settled (serv : TcpServ) : ConnEvent → Prop
  | .takeSyn _ => serv.rcvskblist.head?.all (fun skb => skb.tcp.ack) = true
  | .send (.write _ _) => serv.state = .established ∨ serv.state = .closeWait
  | .send .writeFull | .send .writeEnd => serv.state ≠ .synSent ∧ serv.state ≠ .syn
  | .send .shutdown | .send .close => serv.state ≠ .syn
  | _ => True

theorem tcpWrite_state (serv : TcpServ) (buffer : List Byte) (oob : Bool) :
    (serv.tcpWrite buffer oob).1.state = serv.state := by
  unfold TcpServ.tcpWrite
  dsimp only
  split
  · rfl
  · split
    · rfl
    · rfl

theorem tcpShutdown_state (serv : TcpServ) : serv.tcpShutdown.state = serv.state := by
  unfold TcpServ.tcpShutdown
  split
  · exact (restartDelayTimer_quiet _).state
  · rfl

/-- What may happen at any time makes moves that are listed. -/
theorem SendEvent.leads {ev : SendEvent} (h : (ev.step serv).conn = some serv') :
    Leads serv.state serv'.state := by
  cases ev with
  | write buffer oob =>
    have hserv : (serv.tcpWrite buffer oob).1 = serv' := Option.some.inj h
    rw [← hserv, tcpWrite_state]
  | writeFull =>
    cases h
    exact (tcpWriteFull_quiet serv).leads
  | writeEnd =>
    cases h
    exact (restartDelayTimer_quiet serv).leads
  | shutdown =>
    cases h
    rw [tcpShutdown_state]
  | close =>
    rw [tcpClose_eq h]
    rw [tcpShutdown_state]
  | read count =>
    obtain ⟨bytes, hread⟩ := read_conn h
    exact (tcpRead_quiet hread).leads
  | arrive skb =>
    obtain ⟨r, hres, hserv⟩ := arrive_conn h
    exact reasmTcpskb_leads hres hserv
  | expire alloc =>
    obtain ⟨fired, hfire, hserv, -⟩ := expire_conn h
    exact timerExpires_leads hfire hserv

instance (serv : TcpServ) (ev : ConnEvent) : Decidable (Settled serv ev) := by
  unfold Settled
  split <;> infer_instance

theorem takeSyn_same (serv : TcpServ) (tcp : TcpHdr) (options : List Byte) :
    (takeSyn serv tcp options).xmtring = serv.xmtring
      ∧ (takeSyn serv tcp options).xmtseq = serv.xmtseq
      ∧ (takeSyn serv tcp options).xmtack = serv.xmtack
      ∧ (takeSyn serv tcp options).xmtfin = serv.xmtfin := by
  unfold takeSyn
  split
  · exact ⟨rfl, rfl, rfl, rfl⟩
  · exact ⟨rfl, rfl, rfl, rfl⟩

theorem tcpOptions_pos : ∀ {rounds : Nat} (data : List Byte) {rcvmss : Nat}, 0 < rcvmss →
    0 < tcpOptions rounds data rcvmss := by
  intro rounds
  induction rounds with
  | zero =>
    intro data rcvmss hpos
    exact hpos
  | succ rounds ih =>
    intro data rcvmss hpos
    cases data with
    | nil => exact hpos
    | cons kind data =>
      rw [tcpOptions]
      split
      · exact ih _ hpos
      · split
        · apply ih
          split
          · assumption
          · exact hpos
        · split
          · exact ih _ hpos
          · split
            · exact ih _ hpos
            · exact hpos

/-- `rcvmss` is never 0. -/
theorem takeSyn_rcvmss (options : List Byte)
    (h : 0 < serv.rcvmss) : 0 < (takeSyn serv tcp options).rcvmss := by
  unfold takeSyn
  split
  · exact tcpOptions_pos _ h
  · exact h

/-- The answer acknowledges our `syn`. -/
structure Connected (serv serv' : TcpServ) : Prop where
  ring : serv'.xmtring = serv.xmtring
  seq : serv'.xmtseq = serv.xmtseq
  ack : serv'.xmtack = serv.xmtack + 1
  xmtfin : serv'.xmtfin = serv.xmtfin
  rcvmss : 0 < serv.rcvmss → 0 < serv'.rcvmss
  state : serv'.state = .established

theorem tcpStateSynSent_settled {options : List Byte} (hok : Settled serv (.takeSyn options))
    (h : (tcpStateSynSent serv options).toOption.join = some serv') : Connected serv serv' := by
  unfold tcpStateSynSent takeAnswer at h
  split at h
  · cases h
  next skb list hlist =>
  have hack : skb.tcp.ack = true := by
    have hall : serv.rcvskblist.head?.all (fun skb => skb.tcp.ack) = true := hok
    rwa [hlist] at hall
  split at h
  · cases h
  split at h
  · cases h
  next hseq =>
  have hsyn : skb.tcp.ackSeq = serv.xmtack + 1 := by
    by_contra hne
    exact hseq ⟨hack, fun heq => hne heq.symm⟩
  generalize hserv1 : ({ serv with
    rcvskblist := list, xmtack := skb.tcp.ackSeq, state := .syn } : TcpServ) = serv1 at h
  obtain ⟨hring, hxmt, hxmtack, hfin⟩ := takeSyn_same serv1 skb.tcp options
  have hmss : 0 < serv1.rcvmss → 0 < (takeSyn serv1 skb.tcp options).rcvmss :=
    takeSyn_rcvmss options
  have hend : endSynSent (takeSyn serv1 skb.tcp options) skb.tcp = serv' := Option.some.inj h
  rw [endSynSent, if_pos hack] at hend
  subst hserv1 hend
  exact ⟨hring, hxmt, hxmtack.trans hsyn, hfin, hmss, rfl⟩

-- ======== short runs

/-- The connection and its history after an event. -/
def ConnEvent.next (s : TcpServ × History) (ev : ConnEvent) : Option (TcpServ × History) :=
  (ev.step s.1).conn.map fun serv => (serv, s.2.add s.1 ev)

section Play

variable (ok : TcpServ → ConnEvent → Prop) [∀ serv ev, Decidable (ok serv ev)]

/-- The events one after another, as long as each is possible and `ok`. -/
abbrev playConn : TcpServ × History → List ConnEvent → Option (TcpServ × History) :=
  Lib.play ConnEvent.next fun s ev => ev.possible s.1 ∧ ok s.1 ev

theorem ConnRun.play {iss : Seq} {evs : List ConnEvent} {hist hist' : History}
    (hrun : ConnRun ok iss (some serv) hist) (hplay : playConn ok (serv, hist) evs = some (serv', hist')) :
    ConnRun ok iss (some serv') hist' := by
  refine Lib.play_inv (P := fun s : TcpServ × History => ConnRun ok iss (some s.1) s.2)
    (fun s ev s' hs hok hnext => ?_) hrun hplay
  obtain ⟨serv, hconn, rfl⟩ := Option.map_eq_some_iff.mp hnext
  have hstep := hs.step hok.1 hok.2
  rwa [hconn] at hstep

end Play

/-- A new connection on an interface with the usual MTU. -/
def ordinary : Origin := ⟨ethernet, 0, fun _ => 0, fun _ => 0, false⟩

/-- A segment without data. -/
def bareSkb (seq ackSeq : Seq) (ack syn fin : Bool) : Skb where
  tcp :=
    { seq := seq, ackSeq := ackSeq, doff := 5, fin := fin, syn := syn, rst := false
      ack := ack, urg := false, window := BitVec.ofNat 16 defaultRingSize, urgPtr := 0 }
  dgramLen := 20
  head := []
  rest := []

/-- The other side accepts; ten bytes are written and sent. -/
def connectAndSend : List ConnEvent :=
  [.send (.arrive (bareSkb 0 1 true true false)), .takeSyn [],
    .send (.write [0, 1, 2, 3, 4, 5, 6, 7, 8, 9] false), .send .writeEnd,
    .send (.expire plenty)]

-- ======== with arrivals in the middle of the handshake

/-- How far a process in `tcp_state_syn_sent` is that does not have the
lock: it has taken an answer with this header, and the numbers in it. -/
inductive Opener
  | idle
  | answered (tcp : TcpHdr)
  | numbered (tcp : TcpHdr)

/-- The process has an answer. -/
def Opener.holds : Opener → Bool
  | .idle => false
  | .answered _ | .numbered _ => true

/-- The process in `tcp_state_syn_sent` runs on, or what may happen at any
time. -/
inductive LifeEvent
  | opener (options : List Byte)
  | send (ev : SendEvent)

/-- The event happens. -/
def LifeEvent.apply : TcpServ × Opener → LifeEvent → Option (TcpServ × Opener)
  | (serv, .idle), .opener _ =>
    if serv.state = .synSent then
      (takeAnswer serv).toOption.join.map fun answer => (answer.1, .answered answer.2)
    else none
  | (serv, .answered tcp), .opener options => some (takeSyn serv tcp options, .numbered tcp)
  | (serv, .numbered tcp), .opener _ => some (endSynSent serv tcp, .idle)
  | (serv, op), .send ev =>
    if ev.possible serv then (ev.step serv).conn.map fun serv => (serv, op) else none

/-- The state is set, also by a process that has an answer. -/
inductive TcpState.Set : TcpState × Bool → TcpState × Bool → Prop
  | next {s s' : TcpState} (holds : Bool) : Next s s' → Set (s, holds) (s', holds)
  /-- The two places in `tcp_state_syn_sent`, and its end without the
  second one. -/
  | answered : Set (.synSent, false) (.syn, true)
  | opened (s : TcpState) : Set (s, true) (.established, false)
  | confirmed (s : TcpState) : Set (s, true) (s, false)

open Relation (ReflTransGen)

theorem takeAnswer_state {tcp : TcpHdr} (h : (takeAnswer serv).toOption.join = some (serv', tcp)) :
    serv'.state = .syn := by
  unfold takeAnswer at h
  split at h
  · cases h
  · split_ifs at h <;> cases h
    · rfl
    · rfl

theorem takeSyn_state (serv : TcpServ) (tcp : TcpHdr) (options : List Byte) :
    (takeSyn serv tcp options).state = serv.state := by
  unfold takeSyn
  split <;> rfl

theorem LifeEvent.set {ev : LifeEvent} {op op' : Opener} (h : ev.apply (serv, op) = some (serv', op')) :
    ReflTransGen TcpState.Set (serv.state, op.holds) (serv'.state, op'.holds) := by
  cases ev with
  | send ev =>
    have hstep : ev.possible serv ∧ (ev.step serv).conn = some serv' ∧ op = op' := by
      cases op <;> simpa [LifeEvent.apply] using h
    obtain ⟨-, hconn, rfl⟩ := hstep
    exact (SendEvent.leads hconn).lift (fun s => (s, op.holds)) fun _ _ => .next _
  | opener options =>
    cases op with
    | idle =>
      rw [LifeEvent.apply] at h
      split_ifs at h with hsent
      obtain ⟨answer, hanswer, heq⟩ := Option.map_eq_some_iff.mp h
      cases heq
      rw [hsent, takeAnswer_state hanswer]
      exact .single .answered
    | answered tcp =>
      cases h
      rw [takeSyn_state]
      exact .refl
    | numbered tcp =>
      cases h
      unfold endSynSent
      split
      · exact .single (.opened _)
      · exact .single (.confirmed _)

/-- What no move leaves. -/
theorem TcpState.Set.keeps {p : TcpState → Prop} {s s' : TcpState} {holds holds' : Bool}
    (hp : ∀ s s', Next s s' → p s → p s') (hsent : ¬ p .synSent)
    (h : ReflTransGen TcpState.Set (s, holds) (s', holds')) (hs : p s) (hfree : holds = false) : p s' := by
  refine (h.head_induction_on (motive := fun x _ => p x.1 → x.2 = false → p s') (fun hx _ => hx) ?_) hs hfree
  intro x y hset _ ih hx hfree
  cases hset with
  | next holds hnext => exact ih (hp _ _ hnext hx) hfree
  | answered => exact absurd hx hsent
  | opened | confirmed => cases hfree

/-- Whatever happens, the state is set at the listed places only. As long
as no process has an answer, what is closed stays closed, and only the
handshake leads to `TCP_ESTABLISHED`. -/
theorem conn_moves {evs : List LifeEvent} {op op' : Opener}
    (h : Lib.play LifeEvent.apply (fun _ _ => True) (serv, op) evs = some (serv', op')) :
    ReflTransGen TcpState.Set (serv.state, op.holds) (serv'.state, op'.holds) ∧
      (op.holds = false → serv.state = .closed → serv'.state = .closed) ∧
      (op.holds = false → serv'.state = .established → serv.state ∈ [.synSent, .syn, .established]) := by
  have hset : ReflTransGen TcpState.Set (serv.state, op.holds) (serv'.state, op'.holds) :=
    Lib.play_inv
      (P := fun s : TcpServ × Opener => ReflTransGen TcpState.Set (serv.state, op.holds) (s.1.state, s.2.holds))
      (fun s ev s' hs _ hstep => hs.trans (LifeEvent.set hstep)) .refl h
  refine ⟨hset, fun hfree hs => ?_, fun hfree hs => ?_⟩
  · refine TcpState.Set.keeps (p := (· = .closed)) ?_ (by simp) hset hs hfree
    rintro _ _ ⟨⟩ <;> simp
  · by_contra hnot
    refine TcpState.Set.keeps (p := (· ∉ [.synSent, .syn, .established])) ?_ (by simp) hset hnot hfree
      (by simp [hs])
    rintro _ _ ⟨⟩ <;> simp

/-- The other side accepts. -/
def synAck : Skb := bareSkb 0 1 true true false

/-- It resets the connection. -/
def reset : Skb := { synAck with tcp := { synAck.tcp with seq := 1, syn := false, rst := true } }

/-- A reset behind the handshake is for ever. -/
theorem conn_moves_reset : ∃ serv, Lib.play LifeEvent.apply (fun _ _ => True) (tcpConnect ordinary, .idle)
      [.send (.arrive synAck), .opener [], .opener [], .opener [], .send (.arrive reset)] = some (serv, .idle) ∧
    ∀ evs serv' op', Lib.play LifeEvent.apply (fun _ _ => True) (serv, .idle) evs = some (serv', op') →
      serv'.state = .closed :=
  ⟨_, rfl, fun _ _ _ h => (conn_moves h).2.1 rfl rfl⟩

/-- One in the middle of it is undone. -/
example : (Lib.play LifeEvent.apply (fun _ _ => True) (tcpConnect ordinary, .idle)
      [.send (.arrive synAck), .opener [], .send (.arrive reset)]).map (·.1.state) = some .closed ∧
    (Lib.play LifeEvent.apply (fun _ _ => True) (tcpConnect ordinary, .idle)
      [.send (.arrive synAck), .opener [], .send (.arrive reset), .opener [], .opener []]).map (·.1.state)
      = some .established := ⟨rfl, rfl⟩

end Cnix.Net
