/-
Which bytes the segments of a connection carry, over whole runs.

# What breaks the tie

`rexmit_timer_callback` takes `xmtseq` for the end of the ring: bytes
written while the retransmission timer runs are in the ring and not
sent, and the label comes out too low.

`reasm_tcpskb` moves `xmtack` before it looks at the state. In
`TCP_CLOSE_WAIT`, `TCP_CLOSING` and `TCP_TIME_WAIT` it then leaves the
ring as it is, and the ring no longer starts at `xmtack`. The first of
these states goes on sending. In the others nothing is left to send,
unless `tcp_write` sets the delay timer again, which it does before it
fails.

`Orderly` excludes both. In the other runs the tie is kept, and every
segment is labelled right.
-/
import Cnix.Lib.Runs
import Cnix.Net.Proofs.Sending

namespace Cnix.Net

variable {iss : Seq} {written : List Byte} {serv serv' : TcpServ} {skb : Skb}
  {acked sent upto : Nat} {a : Acked} {r : Reasm}

-- ======== the arrivals

/-- What `reasm_tcpskb` has acknowledged before it looks at the state. -/
structure AckedTo (iss : Seq) (serv : TcpServ) (acked sent : Nat) (a : Acked)
    (upto : Nat) : Prop where
  low : acked ≤ upto
  high : upto ≤ sent
  len : a.len = upto - acked
  still : a.ack = false → upto = acked
  ring : a.serv.xmtring = serv.xmtring
  seq : a.serv.xmtseq = serv.xmtseq
  ack : a.serv.xmtack = iss + 1#32 + BitVec.ofNat 32 upto
  state : a.serv.state = serv.state

/-- `reasm_tcpskb` moves `xmtack` up to a byte that was sent. -/
theorem Tie.takeAck {tcp : TcpHdr} (h : Tie iss written serv acked sent)
    (hres : Net.takeAck serv tcp = some a) : ∃ upto, AckedTo iss serv acked sent a upto
      ∧ (a.ack = true → tcp.ack = true ∧ 0 < compareSeq tcp.ackSeq serv.xmtack) := by
  have hoff : serv.flight = sent - acked := h.ringOff
  have hflight := h.in_flight
  have hlow := h.low
  have hm := takeAck_moved (by omega) hres
  have hlen := hm.low
  refine ⟨acked + a.len, ⟨Nat.le_add_right _ _, by omega, (Nat.add_sub_cancel_left ..).symm,
    fun hack => by rw [(hm.still hack).1, Nat.add_zero], hm.ring, hm.seq, ?_, hm.state⟩, hm.new⟩
  -- `xmtack` is as far from `xmtseq` as is left in flight
  have hleft : a.serv.xmtseq - a.serv.xmtack = BitVec.ofNat 32 (sent - (acked + a.len)) := by
    apply BitVec.eq_of_toNat_eq
    rw [BitVec.toNat_ofNat, Nat.mod_eq_of_lt (by omega)]
    exact hm.flight.trans (by omega)
  have hsum : sent = acked + a.len + (sent - (acked + a.len)) := by omega
  rw [← sub_sub_self a.serv.xmtseq a.serv.xmtack, hleft, hm.seq, h.seq]
  conv => lhs; rw [hsum, BitVec.ofNat_add]
  rw [← hsum]
  abel

/-- Taking the acknowledged bytes out of the ring ties it again. -/
theorem Tie.dropAcked (h : Tie iss written serv acked sent)
    (hto : AckedTo iss serv acked sent a upto)
    (hres : Net.dropAcked a.serv a.len = .ok serv') : Tie iss written serv' upto sent := by
  have hsync : a.serv.state ≠ .syn := hto.state ▸ h.synced
  have hdrop : Tie iss written { a.serv with
      xmtring := a.serv.xmtring.dropCount a.len } upto sent :=
    { data := by
        have hlow := hto.low
        rw [RingBuffer.dropCount_contents, hto.ring, h.data, List.drop_drop, hto.len]
        congr 1
        omega
      low := hto.high
      high := h.high
      ack := hto.ack
      seq := hto.seq.trans h.seq
      size := by
        show a.serv.xmtring.size = _
        rw [hto.ring, h.size]
      synced := hsync }
  have hdrop' := (dropAcked_dropped hres).2
  refine hdrop.same ⟨hdrop'.ring, hdrop'.seq, hdrop'.ack, fun _ => ?_⟩
  rw [hdrop'.state]
  split
  · simp
  · exact hsync

theorem reasmInsert_same (h : reasmInsert serv skb = .ok r)
    (hserv : r.serv = some serv') : SameSend serv serv' := by
  obtain ⟨serv1, hr, hcase⟩ := reasmInsert_quiet h
  rw [hr] at hserv
  cases hserv
  rcases hcase with hquiet | ⟨-, hquiet, hstate⟩
  · exact hquiet.same
  · exact ⟨hquiet.ring, hquiet.seq, hquiet.ack, fun _ => by rw [hstate]; simp⟩

/-- Nothing is acknowledged, or only `fin`. -/
theorem Tie.nothing_acked (h : Tie iss written serv acked sent)
    (hto : AckedTo iss serv acked sent a acked) : SameSend serv a.serv where
  ring := hto.ring
  seq := hto.seq
  ack := hto.ack.trans h.ack.symm
  synced := fun hne => hto.state ▸ hne

theorem Tie.reasmData
    (h : Tie iss written serv acked sent) (hto : AckedTo iss serv acked sent a upto)
    (hres : Net.reasmData a skb = .ok r) (hserv : r.serv = some serv') :
    Tie iss written serv' upto sent := by
  unfold Net.reasmData at hres
  split at hres
  · split at hres
    · cases hres
    · next serv1 hdrop =>
      exact (h.dropAcked hto hdrop).same (reasmInsert_same hres hserv)
  · next hack =>
    have hupto := hto.still (by simpa using hack)
    subst hupto
    exact (h.same (h.nothing_acked hto)).same (reasmInsert_same hres hserv)

/-- The states in which `reasm_tcpskb` moves `xmtack` and leaves the ring
as it is. -/
def TcpState.keepsRing : TcpState → Bool
  | .closeWait | .closing | .timeWait => true
  | _ => false

theorem Tie.reasmAcked
    (h : Tie iss written serv acked sent) (hto : AckedTo iss serv acked sent a upto)
    (hkeep : serv.state.keepsRing → upto = acked)
    (hres : Net.reasmAcked a skb = .ok r) (hserv : r.serv = some serv') :
    Tie iss written serv' upto sent := by
  have hsync : a.serv.state ≠ .syn := hto.state ▸ h.synced
  have hstill : upto = acked → SameSend a.serv serv' → Tie iss written serv' upto sent := by
    intro hupto hsame
    subst hupto
    exact (h.same (h.nothing_acked hto)).same hsame
  unfold Net.reasmAcked at hres
  rw [← hto.state] at hkeep
  split at hres
  · next hstate => exact absurd hstate hsync
  · next hstate =>
    rw [hstate] at hkeep
    cases hres
    cases hserv
    exact hstill (hkeep rfl) ⟨rfl, rfl, rfl, id⟩
  · split at hres
    · cases hres
      cases hserv
    · next hack =>
      cases hres
      cases hserv
      exact hstill (hto.still (by simpa using hack)) ⟨rfl, rfl, rfl, id⟩
  · next hstate =>
    rw [hstate] at hkeep
    split at hres
    · cases hres
      cases hserv
      exact hstill (hkeep rfl) ⟨rfl, rfl, rfl, fun _ => by simp⟩
    · cases hres
      cases hserv
      exact hstill (hkeep rfl) ⟨rfl, rfl, rfl, id⟩
  · next hstate =>
    rw [hstate] at hkeep
    cases hres
    cases hserv
    exact hstill (hkeep rfl) ⟨rfl, rfl, rfl, id⟩
  · exact h.reasmData hto hres hserv

/-- An arrival keeps the tie, if in the states that keep the ring it
acknowledges no data. -/
theorem Tie.reasmTcpskb (h : Tie iss written serv acked sent)
    (hkeep : serv.state.keepsRing → skb.tcp.ack →
      0 < compareSeq skb.tcp.ackSeq serv.xmtack → serv.xmtack = serv.xmtseq)
    (hres : Net.reasmTcpskb serv skb = .ok r) (hserv : r.serv = some serv') :
    ∃ upto, Tie iss written serv' upto sent := by
  have hstop := stopKeepalive_quiet serv
  have h1 := h.same hstop.same
  rcases reasmTcpskb_quiet hres hserv with hquiet | ⟨a, htake, hr⟩
  · exact ⟨acked, h1.same hquiet.same⟩
  · obtain ⟨upto, hto, hnew⟩ := h1.takeAck htake
    refine ⟨upto, h1.reasmAcked hto (fun hk => ?_) hr hserv⟩
    cases hack : a.ack with
    | false => exact hto.still hack
    | true =>
      -- all that was sent is acknowledged already
      obtain ⟨hbit, hcmp⟩ := hnew hack
      rw [hstop.ack] at hcmp
      have hall := hkeep (hstop.state ▸ hk) hbit hcmp
      have hoff : (serv.xmtseq - serv.xmtack).toNat = sent - acked := h.ringOff
      rw [hall, sub_self] at hoff
      have hz : sent - acked = 0 := hoff.symm
      have hlow := hto.low
      have hhigh := hto.high
      omega

-- ======== the runs

/-- A connection before the first byte. -/
structure Synced (iss : Seq) (serv : TcpServ) : Prop where
  state : serv.state = .established
  count : serv.xmtring.count = 0
  size : serv.xmtring.size = defaultRingSize
  ack : serv.xmtack = iss + 1#32
  seq : serv.xmtseq = iss + 1#32

/-- What happens to a connection. -/
inductive SendEvent
  | write (buffer : List Byte) (oob : Bool)
  | writeFull
  | writeEnd
  | shutdown
  | close
  | read (count : Nat)
  | arrive (skb : Skb)
  | expire (alloc : Nat → Bool)

/-- What an event leaves: the connection, unless it was freed or the
machine was stopped, the bytes taken from the application, and the
packets sent. -/
structure Outcome where
  conn : Option TcpServ
  taken : List Byte
  sent : List Skb

/-- The event happens. -/
def SendEvent.step (serv : TcpServ) : SendEvent → Outcome
  | .write buffer oob =>
    let (serv, writing) := serv.tcpWrite buffer oob
    ⟨some serv, buffer.take writing, []⟩
  | .writeFull => ⟨some serv.tcpWriteFull, [], []⟩
  | .writeEnd => ⟨some serv.restartDelayTimer, [], []⟩
  | .shutdown => ⟨some serv.tcpShutdown, [], []⟩
  | .close => ⟨serv.tcpClose, [], []⟩
  | .read count => ⟨(tcpRead serv count).toOption.map Prod.snd, [], []⟩
  | .arrive skb => ⟨(reasmTcpskb serv skb).toOption.bind Reasm.serv, [], []⟩
  | .expire alloc =>
    match timerExpires alloc serv with
    | none => ⟨none, [], []⟩
    | some fired => ⟨fired.serv.toOption, [], fired.sent⟩

/-- The timer that expires is set. -/
def SendEvent.possible (serv : TcpServ) : SendEvent → Bool
  | .expire _ => serv.armed
  | _ => true

/-- The states reached, the bytes written and the packets sent on the way
there. `ok` is a condition on each event. -/
inductive SendRun (ok : TcpServ → SendEvent → Prop) (iss : Seq) :
    Option TcpServ → List Byte → List Skb → Prop
  | init {serv : TcpServ} : Synced iss serv → SendRun ok iss (some serv) [] []
  | step {serv : TcpServ} {written : List Byte} {log : List Skb} {ev : SendEvent} :
      SendRun ok iss (some serv) written log → ev.possible serv → ok serv ev →
      SendRun ok iss (ev.step serv).conn (written ++ (ev.step serv).taken)
        (log ++ (ev.step serv).sent)

/-- A retransmission finds no unsent bytes in the ring, and an arrival in
a state that keeps the ring acknowledges no data. -/
def Orderly (serv : TcpServ) : SendEvent → Prop
  | .expire _ => serv.timertype = .rexmt →
      serv.xmtring.count = (serv.xmtseq - serv.xmtack).toNat
  | .arrive skb => serv.state.keepsRing → skb.tcp.ack →
      0 < compareSeq skb.tcp.ackSeq serv.xmtack → serv.xmtack = serv.xmtseq
  | _ => True

theorem read_conn {count : Nat} (h : (SendEvent.step serv (.read count)).conn = some serv') :
    ∃ bytes, tcpRead serv count = .ok (bytes, serv') := by
  simp only [SendEvent.step] at h
  cases hres : tcpRead serv count with
  | error t => simp [hres, Except.toOption] at h
  | ok res =>
    rw [hres] at h
    cases h
    exact ⟨res.1, rfl⟩

theorem arrive_conn (h : (SendEvent.step serv (.arrive skb)).conn = some serv') :
    ∃ r, reasmTcpskb serv skb = .ok r ∧ r.serv = some serv' := by
  simp only [SendEvent.step] at h
  cases hres : reasmTcpskb serv skb with
  | error t => simp [hres, Except.toOption] at h
  | ok r =>
    rw [hres] at h
    exact ⟨r, rfl, h⟩

theorem expire_conn {alloc : Nat → Bool}
    (h : (SendEvent.step serv (.expire alloc)).conn = some serv') :
    ∃ fired, timerExpires alloc serv = some fired ∧ fired.serv = .ok serv'
      ∧ (SendEvent.step serv (.expire alloc)).sent = fired.sent := by
  simp only [SendEvent.step] at h ⊢
  cases hres : timerExpires alloc serv with
  | none => simp [hres] at h
  | some fired =>
    simp only [hres] at h ⊢
    refine ⟨fired, rfl, ?_, rfl⟩
    cases hserv : fired.serv with
    | error t => simp [hserv, Except.toOption] at h
    | ok serv1 =>
      rw [hserv] at h
      cases h
      rfl

theorem Tie.fresh (h : Synced iss serv) : Tie iss [] serv 0 0 where
  data := List.eq_nil_of_length_eq_zero (by rw [RingBuffer.contents_length, h.count])
  low := Nat.le_refl _
  high := Nat.le_refl _
  ack := by rw [h.ack]; simp
  seq := by rw [h.seq]; simp
  size := h.size
  synced := by rw [h.state]; simp

/-- `tcp_write` appends to the ring what it takes. -/
theorem Tie.tcpWrite {buffer : List Byte} {oob : Bool} {writing : Nat}
    (h : Tie iss written serv acked sent) (hres : serv.tcpWrite buffer oob = (serv', writing)) :
    Tie iss (written ++ buffer.take writing) serv' acked sent := by
  have hlow := h.low
  have hhigh := h.high
  unfold TcpServ.tcpWrite at hres
  obtain ⟨hcont, hn, hsize, -⟩ := RingBuffer.copyToRing_contents buffer serv.xmtring
  generalize serv.xmtring.copyToRing buffer = copied at hres hcont hn hsize
  obtain ⟨ring, n⟩ := copied
  dsimp only at hres hcont hn hsize
  split at hres
  · cases hres
    rw [List.take_zero, List.append_nil]
    exact h
  · have htie : Tie iss (written ++ buffer.take n) { serv with xmtring := ring } acked sent :=
      { data := by
          have htake : buffer.take n
              = buffer.take (serv.xmtring.size - serv.xmtring.count) := by
            rw [List.take_eq_take_iff]
            omega
          rw [List.drop_append_of_le_length (by omega), ← h.data, htake]
          exact hcont
        low := hlow
        high := by
          rw [List.length_append]
          omega
        ack := h.ack
        seq := h.seq
        size := hsize.trans h.size
        synced := h.synced }
    split at hres
    · cases hres
      exact htie.same ⟨rfl, rfl, rfl, id⟩
    · cases hres
      exact htie

theorem tcpShutdown_same (serv : TcpServ) : SameSend serv serv.tcpShutdown := by
  unfold TcpServ.tcpShutdown
  split
  · have hfin : SameSend serv { serv with xmtfin := 1 } := ⟨rfl, rfl, rfl, id⟩
    exact hfin.trans (restartDelayTimer_quiet _).same
  · exact ⟨rfl, rfl, rfl, id⟩

theorem tcpClose_same (h : serv.tcpClose = some serv') : SameSend serv serv' := by
  have hfin := tcpShutdown_same serv
  rw [tcpClose_eq h]
  exact { hfin with }

/-- The timer expires in an orderly way. -/
theorem Tie.timerExpires {alloc : Nat → Bool} {fired : Fired} (h : Tie iss written serv acked sent)
    (hall : serv.timertype = .rexmt → serv.xmtring.count = sent - acked)
    (hres : Net.timerExpires alloc serv = some fired) : Owed iss written acked fired := by
  obtain ⟨serv1, hquiet, hrun⟩ := timerExpires_cases hres
  have h1 := h.same hquiet.same
  rcases hrun with rfl | rfl | ⟨htype, rfl⟩ | rfl
  · exact h1.owed ⟨rfl, rfl, rfl, id⟩ (by simp)
  · exact h1.delayTimerCallback
  · exact h1.rexmitTimerCallback (hquiet.ring.symm ▸ hall htype)
  · exact h1.keepaliveTimerCallback

/-- One event: what it sends is labelled, and the tie is kept. -/
structure Kept (iss : Seq) (written : List Byte) (out : Outcome) : Prop where
  labels : ∀ skb ∈ out.sent, DataLabelled iss (written ++ out.taken) skb
  tie : ∀ serv', out.conn = some serv' →
    ∃ acked sent, Tie iss (written ++ out.taken) serv' acked sent

/-- An event that writes and sends nothing. -/
theorem Tie.kept {conn : Option TcpServ} (h : Tie iss written serv acked sent)
    (hsame : ∀ serv', conn = some serv' → SameSend serv serv') :
    Kept iss written ⟨conn, [], []⟩ := by
  refine ⟨by simp, fun serv' hconn => ⟨acked, sent, ?_⟩⟩
  rw [List.append_nil]
  exact h.same (hsame serv' hconn)

theorem Tie.step {ev : SendEvent} (h : Tie iss written serv acked sent)
    (hok : Orderly serv ev) : Kept iss written (ev.step serv) := by
  cases ev with
  | write buffer oob =>
    refine ⟨by simp [SendEvent.step], fun serv' hconn => ⟨acked, sent, ?_⟩⟩
    cases hconn
    exact h.tcpWrite rfl
  | writeFull =>
    refine h.kept fun serv' hconn => ?_
    cases hconn
    exact (tcpWriteFull_quiet serv).same
  | writeEnd =>
    refine h.kept fun serv' hconn => ?_
    cases hconn
    exact (restartDelayTimer_quiet serv).same
  | shutdown =>
    refine h.kept fun serv' hconn => ?_
    cases hconn
    exact tcpShutdown_same serv
  | close => exact h.kept fun serv' hconn => tcpClose_same hconn
  | read count =>
    refine h.kept fun serv' hconn => ?_
    obtain ⟨bytes, hread⟩ := read_conn hconn
    exact (tcpRead_quiet hread).same
  | arrive skb =>
    refine ⟨by simp [SendEvent.step], fun serv' hconn => ?_⟩
    obtain ⟨r, hres, hserv⟩ := arrive_conn hconn
    obtain ⟨upto, htie⟩ := h.reasmTcpskb hok hres hserv
    rw [show (SendEvent.step serv (.arrive skb)).taken = [] from rfl, List.append_nil]
    exact ⟨upto, sent, htie⟩
  | expire alloc =>
    have hoff : (serv.xmtseq - serv.xmtack).toNat = sent - acked := h.ringOff
    simp only [SendEvent.step]
    cases hres : Net.timerExpires alloc serv with
    | none => exact ⟨by simp, by simp⟩
    | some fired =>
      have howed := h.timerExpires (fun htype => (hok htype).trans hoff) hres
      refine ⟨fun skb hskb => ?_, fun serv' hconn => ?_⟩
      · rw [List.append_nil]
        exact howed.labels skb hskb
      · rw [List.append_nil]
        cases hserv : fired.serv with
        | error t => simp [hserv, Except.toOption] at hconn
        | ok serv1 =>
          simp only [hserv, Except.toOption, Option.some.injEq] at hconn
          subst hconn
          obtain ⟨sent', htie⟩ := howed.tie _ hserv
          exact ⟨acked, sent', htie⟩

/-- In every orderly run, each segment with data carries the bytes that
the application wrote at its sequence number, first transmission or
not. -/
theorem tcp_segments_labelled {conn : Option TcpServ} {log : List Skb}
    (hrun : SendRun Orderly iss conn written log) : ∀ skb ∈ log, DataLabelled iss written skb := by
  have hinv : (∀ skb ∈ log, DataLabelled iss written skb)
      ∧ ∀ serv, conn = some serv → ∃ acked sent, Tie iss written serv acked sent := by
    induction hrun with
    | init hsync =>
      refine ⟨by simp, fun serv hconn => ⟨0, 0, ?_⟩⟩
      cases hconn
      exact Tie.fresh hsync
    | step _ _ hok ih =>
      obtain ⟨hlabels, htie⟩ := ih
      obtain ⟨acked, sent, h⟩ := htie _ rfl
      have hkept := h.step hok
      refine ⟨fun skb hskb => ?_, hkept.tie⟩
      rcases List.mem_append.mp hskb with hold | hnew
      · exact (hlabels skb hold).append _
      · exact hkept.labels skb hnew
  exact hinv.1

-- ======== two short runs

instance (serv : TcpServ) (ev : SendEvent) : Decidable (Orderly serv ev) := by
  unfold Orderly
  split <;> infer_instance

/-- The connection, the bytes written and the packets sent after an
event. -/
def SendEvent.next (s : TcpServ × List Byte × List Skb) (ev : SendEvent) :
    Option (TcpServ × List Byte × List Skb) :=
  (ev.step s.1).conn.map fun serv => (serv, s.2.1 ++ (ev.step s.1).taken, s.2.2 ++ (ev.step s.1).sent)

section Play

variable (ok : TcpServ → SendEvent → Prop) [∀ serv ev, Decidable (ok serv ev)]

/-- The events one after another, as long as each is possible and `ok`. -/
abbrev playSend : TcpServ × List Byte × List Skb → List SendEvent → Option (TcpServ × List Byte × List Skb) :=
  Lib.play SendEvent.next fun s ev => ev.possible s.1 ∧ ok s.1 ev

theorem SendRun.play {evs : List SendEvent} {written' : List Byte} {log log' : List Skb}
    (hrun : SendRun ok iss (some serv) written log)
    (hplay : playSend ok (serv, written, log) evs = some (serv', written', log')) :
    SendRun ok iss (some serv') written' log' := by
  refine Lib.play_inv (P := fun s : TcpServ × List Byte × List Skb => SendRun ok iss (some s.1) s.2.1 s.2.2)
    (fun s ev s' hs hok hnext => ?_) hrun hplay
  obtain ⟨serv, hconn, rfl⟩ := Option.map_eq_some_iff.mp hnext
  have hstep := hs.step hok.1 hok.2
  rwa [hconn] at hstep

end Play

theorem establishedServ_synced (iss isn : Seq) : Synced iss (establishedServ iss isn) :=
  ⟨rfl, rfl, rfl, rfl, rfl⟩

/-- There is always an `skbuff`. -/
def plenty : Nat → Bool := fun _ => true

/-- Ten bytes are written and sent, and no acknowledgement comes: after
four more rounds of the delay timer the retransmission timer is set. -/
def sendTen : List SendEvent :=
  [.write [0, 1, 2, 3, 4, 5, 6, 7, 8, 9] false, .writeEnd, .expire plenty,
    .expire plenty, .expire plenty, .expire plenty, .expire plenty]

/-- The retransmission timer expires: the ten bytes are sent twice, with
the same label. -/
theorem tcp_retransmits_labelled :
    ∃ conn written first again, SendRun Orderly 0 conn written [first, again]
      ∧ again.tcp.seq = first.tcp.seq ∧ again.payload = first.payload
      ∧ ∀ skb ∈ [first, again], DataLabelled 0 written skb := by
  obtain ⟨serv, written, first, again, hplay, hseq, hbytes⟩ : ∃ serv written first again,
      playSend Orderly (establishedServ 0 0, [], []) (sendTen ++ [.expire plenty])
        = some (serv, written, [first, again])
      ∧ again.tcp.seq = first.tcp.seq ∧ again.payload = first.payload :=
    ⟨_, _, _, _, rfl, rfl, rfl⟩
  have hrun := SendRun.play Orderly (.init (establishedServ_synced 0 0)) hplay
  exact ⟨_, _, _, _, hrun, hseq, hbytes, tcp_segments_labelled hrun⟩

/-- Five more bytes are written before it expires: the retransmission
carries the fifteen bytes from offset 0 on, with the label of offset
-5. -/
theorem tcp_rexmit_mislabelled :
    ∃ conn written log skb, SendRun (fun _ _ => True) 0 conn written log
      ∧ skb ∈ log ∧ ¬ DataLabelled 0 written skb := by
  obtain ⟨serv, written, first, again, hplay, hseq, hlen, hhdr, hwritten⟩ :
      ∃ serv written first again,
      playSend (fun _ _ => True) (establishedServ 0 0, [], [])
          (sendTen ++ [.write [10, 11, 12, 13, 14] false, .writeEnd, .expire plenty])
        = some (serv, written, [first, again])
      ∧ again.tcp.seq = -4 ∧ again.dgramLen = 35 ∧ again.tcp.hdrlen = 20
      ∧ written.length = 15 :=
    ⟨_, _, _, _, rfl, rfl, rfl, rfl, rfl⟩
  have hrun := SendRun.play (fun _ _ => True) (.init (establishedServ_synced 0 0)) hplay
  refine ⟨_, _, _, again, hrun, by simp, fun hdata => ?_⟩
  obtain ⟨off, len, hseq', hlen', hle, -⟩ := hdata (by rw [hhdr, hlen]; decide)
  -- fifteen bytes fit into the stream only at offset 0
  have hoff : off = 0 := by omega
  subst hoff
  rw [hseq] at hseq'
  exact absurd hseq' (by decide)

end Cnix.Net
