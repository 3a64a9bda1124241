/-
The window a connection advertises, and the room in its ring.

# The identity

`xmtwin` is what is free in `rcvring`. Copying a packet to the ring takes
its length from the window, and reading gives back what was read. Two
things are not in step with the ring. A read with `MSG_PEEK` leaves the
bytes where they are and opens the window. And a packet is measured when
it arrives, but copied when it has been joined with others: one that no
longer fits is dropped after the window was closed for it.

# What keeps it

A packet that lies within the window stays within it while it waits:
`rcvseq + xmtwin` only grows. The first packet of the list starts at
`rcvseq` when it is copied, so it is no longer than the window
(`WinInv`). `Windowed` asks for arrivals within the window; those that
are old or too long are turned away, and one that starts before `rcvseq`
does no harm while the list is empty.

A packet with nothing but `fin` stays on the list when it is consumed,
with its header cut off. What is inserted behind it is compared with the
bytes that come after the header, so `Windowed` asks that no such packet
is there (`Whole`); it is known by its length, which is 0.
-/
import Cnix.Net.Proofs.Delivery
import Cnix.Net.Proofs.Lifetime

namespace Cnix.Net

open Lib
open BitVec (ofNat toNat_add toNat_ofNat ofNat_add le_def)

variable {serv serv' : TcpServ} {skb p : Skb} {isn delta seq seqEnd : Seq} {pos n off a e : Nat}
  {bytes : List Byte} {list : List Skb} {res : Inserted} {ivs : List (Nat × Nat)} {r : Reasm}

-- ======== the identity

/-- The window is the room in the ring. -/
structure Conserved (serv : TcpServ) : Prop where
  size : serv.rcvring.size = defaultRingSize
  win : serv.xmtwin.toNat + serv.rcvring.count = defaultRingSize

theorem Conserved.same (h : Conserved serv) (hs : SameRecv serv serv') : Conserved serv' where
  size := by rw [hs.ring, h.size]
  win := by
    rw [hs.win, hs.ring]
    exact h.win

/-- `copy_from_ring` takes out of the ring what it returns, unless it is
told to leave it. -/
theorem copyFromRing_count {ring ring' : RingBuffer} {del : Bool}
    (h : ring.copyFromRing n off del = .ok (bytes, ring')) :
    ring'.size = ring.size ∧ bytes.length ≤ ring.count
      ∧ (del = true → ring'.count = ring.count - bytes.length) := by
  unfold RingBuffer.copyFromRing at h
  split at h
  · next hz =>
    cases h
    exact ⟨rfl, by simp, fun _ => by simp⟩
  · split at h
    · cases h
    generalize hidx : (if ring.head + off < ring.count then ring.head + off + ring.size
      - ring.count else ring.head + off - ring.count) = idx at h
    have hlen : (if min n ring.count ≤ ring.size - idx
        then memread ring.data idx (min n ring.count)
        else memread ring.data idx (ring.size - idx)
          ++ memread ring.data 0 (min n ring.count - (ring.size - idx))).length
        = min n ring.count := by
      unfold memread
      split
      · simp
      · simp
        omega
    cases h
    refine ⟨?_, by rw [hlen]; exact Nat.min_le_right _ _, fun hdel => ?_⟩
    · split
      · rfl
      · rfl
    · rw [if_pos hdel, hlen]
      rfl

/-- A read that takes out what it returns. -/
theorem Conserved.read {count : Nat} {flags : ReadFlags}
    (h : Conserved serv) (hflags : flags.peek = true → flags.oob = true ∨ flags.dontwait = true)
    (hread : tcpReadRound serv count off flags = .ok (bytes, serv')) :
    Conserved serv' ∧ serv'.rcvskblist = serv.rcvskblist ∧ serv'.rcvseq = serv.rcvseq
      ∧ serv.xmtwin.toNat ≤ serv'.xmtwin.toNat := by
  unfold tcpReadRound at hread
  split at hread
  · have hserv : (tcpReadOob serv flags.peek).2 = serv' :=
      congrArg Prod.snd (Except.ok.inj hread)
    unfold tcpReadOob at hserv
    split at hserv
    · subst hserv
      exact ⟨h, rfl, rfl, Nat.le_refl _⟩
    · split at hserv
      · subst hserv
        exact ⟨h, rfl, rfl, Nat.le_refl _⟩
      · subst hserv
        exact ⟨⟨h.size, h.win⟩, rfl, rfl, Nat.le_refl _⟩
  · next hoob =>
    split at hread
    · cases hread
      exact ⟨h, rfl, rfl, Nat.le_refl _⟩
    · next hwait =>
      have hdel : (!flags.peek) = true := by
        cases hp : flags.peek with
        | false => rfl
        | true =>
          rcases hflags hp with ho | hd
          · exact absurd ho hoob
          · exact absurd hd hwait
      split at hread
      · cases hread
      next got ring hcopy =>
      obtain ⟨hsize, hlen, hcount⟩ := copyFromRing_count hcopy
      have hwin := h.win
      have hdefault : defaultRingSize = 8192 := rfl
      have hxmt : (serv.xmtwin + ofNat 16 got.length).toNat
          = serv.xmtwin.toNat + got.length := by
        rw [toNat_add, toNat_ofNat]
        omega
      have hleft := hcount hdel
      cases hread
      refine ⟨⟨hsize.trans h.size, ?_⟩, rfl, rfl, ?_⟩
      · show (serv.xmtwin + ofNat 16 bytes.length).toNat + ring.count = _
        omega
      · show serv.xmtwin.toNat ≤ (serv.xmtwin + ofNat 16 bytes.length).toNat
        omega

-- ======== the copying

/-- The first packet of the list, of `n` bytes, has been copied or, if it
held nothing but `fin`, consumed. -/
structure Taken (serv : TcpServ) (p : Skb) (list : List Skb) (n : Nat) (res : Inserted) :
    Prop where
  size : res.serv.rcvring.size = serv.rcvring.size
  count : res.serv.rcvring.count = serv.rcvring.count + n
  win : res.serv.xmtwin = serv.xmtwin - ofNat 16 n
  seq : res.serv.rcvseq = serv.rcvseq + ofNat 32 (n + p.tcp.fin.toNat)
  behind : 0 < n → res.serv.rcvskblist = list
  rest : n = 0 → p.tcp.fin = true ∧ res.serv.rcvskblist = { p with dgramLen := 0 } :: list

theorem deliverFirst_taken
    (hlen : p.dgramLen = p.tcp.hdrlen + p.payload.length) (hurg : p.tcp.urg = false)
    (hroom : p.payload.length ≤ serv.rcvring.size - serv.rcvring.count)
    (hres : deliverFirst p list serv = .ok res) : Taken serv p list p.payload.length res := by
  obtain ⟨serv1, hwin, hsame⟩ := updateRcvwin_ok serv p.tcp.window
  have hdata : p.dgramLen - p.tcp.hdrlen = p.payload.length := by omega
  have hseq2 := takeFin_rcvseq serv1 p.tcp.fin
  have hring2 := takeFin_rcvring serv1 p.tcp.fin
  have hxmt2 := takeFin_xmtwin serv1 p.tcp.fin
  rw [hsame.seq] at hseq2
  rw [hsame.ring] at hring2
  rw [hsame.win] at hxmt2
  unfold deliverFirst at hres
  rw [hwin] at hres
  dsimp only at hres
  rw [hdata] at hres
  generalize takeFin serv1 p.tcp.fin = serv2 at hres hseq2 hring2 hxmt2
  by_cases hz : p.payload.length = 0
  · rw [if_pos hz] at hres
    cases hfin : p.tcp.fin with
    | false =>
      rw [hfin] at hres
      cases hres
    | true =>
      rw [hfin] at hres hseq2
      cases hres
      refine ⟨?_, ?_, ?_, ?_, fun hpos => absurd hz (Nat.ne_of_gt hpos), fun _ => ⟨hfin, ?_⟩⟩
      · rw [hring2]
      · rw [hring2, hz]
        rfl
      · rw [hxmt2, hz]
        simp
      · rw [hseq2, hz, hfin, Nat.zero_add]
      · rw [hz]
  · rw [if_neg hz] at hres
    cases hres
    obtain ⟨-, h2, h3, h4, h5, h6⟩ := copyFirst_spec
      (p := { p with dgramLen := p.payload.length }) serv2 list hurg rfl (by
        rw [hring2]
        exact hroom)
    have hpay : Skb.payload { p with dgramLen := p.payload.length } = p.payload := rfl
    rw [hpay] at h2 h3 h5
    refine ⟨?_, ?_, ?_, ?_, fun _ => h6, fun hn => absurd hn hz⟩
    · rw [h4, hring2]
    · rw [← RingBuffer.contents_length, h3, List.length_append, RingBuffer.contents_length,
        hring2]
    · rw [h5, hxmt2]
    · rw [h2, hseq2, BitVec.add_assoc, ← ofNat_add, Nat.add_comm]

/-- The window and the ring after the copy. -/
theorem Conserved.taken
    (h : Conserved serv) (hle : n ≤ serv.xmtwin.toNat) (ht : Taken serv p list n res) :
    Conserved res.serv ∧ res.serv.xmtwin.toNat = serv.xmtwin.toNat - n := by
  have hwin := h.win
  have hxmt : res.serv.xmtwin.toNat = serv.xmtwin.toNat - n := by
    rw [ht.win, BitVec.toNat_sub, toNat_ofNat]
    omega
  refine ⟨⟨ht.size.trans h.size, ?_⟩, hxmt⟩
  rw [hxmt, ht.count]
  omega

-- ======== the invariant

theorem spans_shape : Shape isn (Spans isn) where
  spans h := h
  link hp hq hbe hef hlen hpay := hp.link hq hbe hef hlen hpay

/-- What waits on the list lies within the window and behind `rcvseq`. -/
structure Waiting (serv : TcpServ) (isn : Seq) (pos : Nat) (ivs : List (Nat × Nat)) :
    Prop where
  seq : serv.rcvseq = isn + ofNat 32 pos
  queue : QueueOf (Spans isn) (pos + serv.xmtwin.toNat) serv.rcvskblist ivs
  asc : Ascending (pos + 1) ivs

/-- No packet of the list was consumed. -/
def Whole (serv : TcpServ) : Prop := ∀ p ∈ serv.rcvskblist, p.dgramLen ≠ 0

instance (serv : TcpServ) : Decidable (Whole serv) := inferInstanceAs (Decidable (∀ p ∈ _, _))

/-- The window is the room in the ring, and what may still be copied fits
in it. -/
structure WinInv (serv : TcpServ) : Prop where
  cons : Conserved serv
  queue : (∃ isn pos ivs, Waiting serv isn pos ivs) ∨ ¬ Whole serv

theorem Taken.not_whole (ht : Taken serv p list n res) (hn : n = 0) : ¬ Whole res.serv := by
  intro hwhole
  refine hwhole { p with dgramLen := 0 } ?_ rfl
  rw [(ht.rest hn).2]
  exact List.mem_cons_self

/-- A step that leaves the list alone and does not close the window. -/
theorem WinInv.keep (h : WinInv serv) (hcons : Conserved serv')
    (hlist : serv'.rcvskblist = serv.rcvskblist) (hseq : serv'.rcvseq = serv.rcvseq)
    (hwin : serv.xmtwin.toNat ≤ serv'.xmtwin.toNat) : WinInv serv' := by
  refine ⟨hcons, h.queue.imp ?_ ?_⟩
  · rintro ⟨isn, pos, ivs, hw⟩
    refine ⟨isn, pos, ivs, hseq.trans hw.seq, ?_, hw.asc⟩
    rw [hlist]
    exact hw.queue.mono (by omega)
  · unfold Whole
    rw [hlist]
    exact id

theorem WinInv.same (h : WinInv serv) (hs : SameRecv serv serv') : WinInv serv' :=
  h.keep (h.cons.same hs) hs.list hs.seq (by rw [hs.win])

theorem WinInv.room (h : WinInv serv) :
    serv.rcvring.size - serv.rcvring.count = serv.xmtwin.toNat := by
  have hwin := h.cons.win
  have hsize := h.cons.size
  omega

-- ======== the arrivals

/-- A segment as `input_tcp_packet` hands it on, without urgent data. -/
structure Plain (skb : Skb) : Prop where
  len : skb.dgramLen = skb.tcp.hdrlen + skb.payload.length
  urg : skb.tcp.urg = false

/-- `insert_tcp_packet` turns away what is old and what is too long. -/
def TurnedAway (serv : TcpServ) (skb : Skb) : Prop :=
  (skb.seqRange (origin - serv.rcvseq)).2 ≤ origin
    ∨ serv.xmtwin.toNat < skb.dgramLen - skb.tcp.hdrlen

theorem insert_turned (h : TurnedAway serv skb)
    (hres : insertTcpPacket serv skb = .ok res) : SameRecv serv res.serv := by
  unfold insertTcpPacket at hres
  dsimp only at hres
  split at hres
  · cases hres
    exact ⟨rfl, rfl, rfl, rfl⟩
  · split at hres
    · split at hres
      · cases hres
        exact ⟨rfl, rfl, rfl, rfl⟩
      · obtain ⟨serv1, hwin, hsame⟩ := updateRcvwin_ok serv skb.tcp.window
        rw [hwin] at hres
        cases hres
        exact hsame
    · next hnew =>
      rcases h with hold | hlong
      · exact absurd hold hnew
      · rw [if_pos hlong] at hres
        cases hres
        exact ⟨rfl, rfl, rfl, rfl⟩

/-- What is not turned away is inserted. -/
theorem insert_kept (hp : Plain skb) (h : ¬ TurnedAway serv skb)
    (hres : insertTcpPacket serv skb = .ok res) :
    ∃ ins list, realInsertTcpPacket (origin - serv.rcvseq) serv.rcvskblist skb
        (skb.seqRange (origin - serv.rcvseq)).1 (skb.seqRange (origin - serv.rcvseq)).2
        = .ok (ins, list) ∧ (ins = false → res.serv = { serv with rcvskblist := list })
      ∧ (ins = true → checkFirst (origin - serv.rcvseq) list serv = .ok res) := by
  have hlen := hp.len
  unfold TurnedAway at h
  rw [not_or] at h
  unfold insertTcpPacket at hres
  rw [if_neg (by omega)] at hres
  dsimp only at hres
  rw [show (65536#32 : Seq) = origin from rfl, if_neg h.1, if_neg h.2] at hres
  split at hres
  · cases hres
  · next list hins =>
    cases hres
    exact ⟨false, list, hins, fun _ => rfl, fun hn => Bool.noConfusion hn⟩
  · next list hins => exact ⟨true, list, hins, fun hn => Bool.noConfusion hn, fun _ => hres⟩

/-- Packets are compared at their places seen from `rcvseq`. -/
theorem Waiting.range (hw : Waiting serv isn pos ivs) (hp : Spans isn p a e) :
    p.seqRange (origin - serv.rcvseq) = (rebase origin pos a, rebase origin pos (p.last e)) := by
  rw [hw.seq]
  exact hp.seqRange _ _

/-- The head of the queue has come up to `rcvseq`. -/
theorem Waiting.deliver (h : WinInv serv) (hseq : serv.rcvseq = isn + ofNat 32 pos)
    (hp : Spans isn p pos e) (he : e ≤ pos + serv.xmtwin.toNat)
    (hq : QueueOf (Spans isn) (pos + serv.xmtwin.toNat) list ivs)
    (hg : Ascending (p.last e + 1) ivs) (hres : deliverFirst p list serv = .ok res) :
    WinInv res.serv := by
  have hstart := hp.start
  have hpay := hp.payload
  have hfit : p.payload.length ≤ serv.xmtwin.toNat := by omega
  have ht := deliverFirst_taken (by rw [hp.len, hpay]) hp.urg (by rw [h.room]; exact hfit) hres
  obtain ⟨hcons, hxmt⟩ := h.cons.taken hfit ht
  have hlast : p.last e = pos + (p.payload.length + p.tcp.fin.toNat) := by
    unfold Skb.last
    omega
  have hseq' : res.serv.rcvseq = isn + ofNat 32 (p.last e) := by
    rw [ht.seq, hseq, BitVec.add_assoc, ← ofNat_add, hlast]
  refine ⟨hcons, ?_⟩
  by_cases hz : p.payload.length = 0
  · exact .inr (ht.not_whole hz)
  · refine .inl ⟨isn, p.last e, ivs, hseq', ?_, hg⟩
    rw [ht.behind (by omega)]
    exact hq.mono (by omega)

/-- A segment within the window, with packets of the same kind on the
list. -/
theorem Waiting.insert (h : WinInv serv) (hw : Waiting serv isn pos ivs) (hp : Plain skb)
    (hc : Spans isn skb a e) (ha : pos ≤ a) (he : e ≤ pos + serv.xmtwin.toNat)
    (hkept : ¬ TurnedAway serv skb) (hres : insertTcpPacket serv skb = .ok res) :
    WinInv res.serv := by
  have hb := Skb.last_bounds skb e
  have hstart := hc.start
  obtain ⟨ins, list, hins, hno, hyes⟩ := insert_kept hp hkept hres
  have hnew : pos < skb.last e := by
    by_contra hold
    refine hkept (.inl ?_)
    rw [hw.range hc]
    exact (rebase_le_origin (by omega) (by omega)).mpr (by omega)
  rw [hw.range hc, hw.seq] at hins
  obtain ⟨⟨ins', list'⟩, hins', hcase⟩ := realInsert_shape spans_shape
    (r := pos) (show pos + serv.xmtwin.toNat + 1 ≤ pos + 2 ^ 16 by omega)
    serv.rcvskblist hw.queue hw.asc (by omega) hc ha he
  rw [hins] at hins'
  cases hins'
  have hrequeue {ivs' : List (Nat × Nat)}
      (hq : QueueOf (Spans isn) (pos + serv.xmtwin.toNat) list ivs')
      (hg : Ascending (pos + 1) ivs') : WinInv { serv with rcvskblist := list } :=
    ⟨⟨h.cons.size, h.cons.win⟩, .inl ⟨isn, pos, ivs', hw.seq, hq, hg⟩⟩
  rcases hcase with ⟨hq, hfirst⟩ | ⟨-, hrefused, ivs', hq, hg⟩
  · by_cases hpos : pos + 1 ≤ a
    · -- the head of the queue is still ahead
      have hg : Ascending (pos + 1) (insertIv a (skb.last e) ivs) :=
        hw.asc.insert hpos (by omega)
      cases hins' : ins with
      | false =>
        rw [hno hins']
        exact hrequeue hq hg
      | true =>
        have hcheck := hyes hins'
        unfold checkFirst at hcheck
        generalize insertIv a (skb.last e) ivs = ivs' at hq hg
        cases hq with
        | nil =>
          cases hcheck
          exact hrequeue .nil hg
        | @cons p iv l ivs' hs hq =>
          obtain ⟨e', hp', hd, he'⟩ := hs
          have hstart' := hp'.start
          have hlo : pos + 1 ≤ iv.1 := hg.1
          have hup : ¬ rebase origin pos iv.1 ≤ origin := by
            rw [rebase_le_origin (by omega) (by omega)]
            omega
          dsimp only at hcheck
          rw [hw.range hp', show (65536#32 : Seq) = origin from rfl,
            if_neg hup] at hcheck
          cases hcheck
          exact hrequeue (.cons ⟨e', hp', hd, he'⟩ hq) hg
    · -- the new packet comes first and has come up
      have heq : a = pos := by omega
      subst heq
      have hcheck := hyes (hfirst (by omega))
      obtain ⟨d, ivs', heq, hle, hg⟩ := insertIv_first (b := skb.last e) hw.asc (Nat.lt_succ_self a)
      rw [heq] at hq
      cases hq with
      | @cons p _ l _ hs hq =>
        obtain ⟨e', hp', hd, he'⟩ := hs
        dsimp only at hp' hd
        have hd' := Skb.last_bounds p e'
        unfold checkFirst at hcheck
        dsimp only at hcheck
        rw [hw.range hp', show (65536#32 : Seq) = origin from rfl,
          rebase_self, if_pos (BitVec.le_refl _)] at hcheck
        rw [if_neg (by rw [rebase_le_origin (by omega) (by omega)]; omega)] at hcheck
        rw [hd] at hg
        exact Waiting.deliver h hw.seq hp' he' hq hg hcheck
  · rw [hno hrefused]
    exact hrequeue hq hg

/-- With an empty list, a packet that reaches up to `rcvseq` is copied
whole. -/
theorem WinInv.insertFirst (h : WinInv serv) (hnil : serv.rcvskblist = []) (hp : Plain skb)
    (hstart : (skb.seqRange (origin - serv.rcvseq)).1 ≤ origin)
    (hkept : ¬ TurnedAway serv skb) (hres : insertTcpPacket serv skb = .ok res) :
    WinInv res.serv := by
  have hlen := hp.len
  obtain ⟨ins, list, hins, -, hyes⟩ := insert_kept hp hkept hres
  unfold TurnedAway at hkept
  rw [not_or] at hkept
  rw [hnil] at hins
  cases hins
  have hcheck := hyes rfl
  unfold checkFirst at hcheck
  dsimp only at hcheck
  rw [show (65536#32 : Seq) = origin from rfl, if_pos hstart] at hcheck
  rw [if_neg hkept.1] at hcheck
  have hfit : skb.payload.length ≤ serv.xmtwin.toNat := by omega
  have ht := deliverFirst_taken hlen hp.urg (by rw [h.room]; exact hfit) hcheck
  obtain ⟨hcons, -⟩ := h.cons.taken hfit ht
  refine ⟨hcons, ?_⟩
  by_cases hz : skb.payload.length = 0
  · exact .inr (ht.not_whole hz)
  · refine .inl ⟨res.serv.rcvseq, 0, [], by simp, ?_, trivial⟩
    rw [ht.behind (by omega)]
    exact .nil

-- ======== the runs

/-- What the window depends on. -/
inductive WinEvent
  | arrive (skb : Skb)
  | read (count off : Nat) (flags : ReadFlags)

/-- The event happens. -/
def WinEvent.step (serv : TcpServ) : WinEvent → Except Trap TcpServ
  | .arrive skb => (insertTcpPacket serv skb).map Inserted.serv
  | .read count off flags => (tcpReadRound serv count off flags).map Prod.snd

/-- Segments have no urgent data. -/
def WinEvent.plain : WinEvent → Prop
  | .arrive skb => Plain skb
  | .read _ _ _ => True

/-- A connection that has received nothing. -/
structure Idle (serv : TcpServ) : Prop where
  list : serv.rcvskblist = []
  count : serv.rcvring.count = 0
  size : serv.rcvring.size = defaultRingSize
  win : serv.xmtwin = ofNat 16 defaultRingSize

/-- The states reached by arrivals and reads, and by whatever leaves the
receiving half alone. `ok` is a condition on each event. -/
inductive WindowRun (ok : TcpServ → WinEvent → Prop) : TcpServ → Prop
  | init {serv : TcpServ} : Idle serv → WindowRun ok serv
  | step {serv serv' : TcpServ} (ev : WinEvent) : WindowRun ok serv → ev.plain → ok serv ev →
      ev.step serv = .ok serv' → WindowRun ok serv'
  | other {serv serv' : TcpServ} : WindowRun ok serv → SameRecv serv serv' →
      WindowRun ok serv'

/-- A segment is turned away, or lies within the window and finds no
consumed packet, or the list is empty and it reaches up to `rcvseq`. A read that returns bytes of the
stream takes them out of the ring. -/
def Windowed (serv : TcpServ) : WinEvent → Prop
  | .arrive skb => TurnedAway serv skb
      ∨ Whole serv ∧ (skb.tcp.seq - serv.rcvseq).toNat + skb.payload.length ≤ serv.xmtwin.toNat
      ∨ serv.rcvskblist = [] ∧ (skb.seqRange (origin - serv.rcvseq)).1 ≤ origin
  | .read _ _ flags => flags.peek = true → flags.oob = true ∨ flags.dontwait = true

theorem WinInv.arrive (h : WinInv serv) (hp : Plain skb)
    (hok : Windowed serv (.arrive skb)) (hres : insertTcpPacket serv skb = .ok res) :
    WinInv res.serv := by
  by_cases hturned : TurnedAway serv skb
  · exact h.same (insert_turned hturned hres)
  · rcases hok with hturned' | ⟨hwhole, hin⟩ | ⟨hnil, hstart⟩
    · exact absurd hturned' hturned
    · rcases h.queue with ⟨isn, pos, ivs, hw⟩ | hnot
      · have hspans : Spans isn skb (pos + (skb.tcp.seq - serv.rcvseq).toNat)
            (pos + (skb.tcp.seq - serv.rcvseq).toNat + skb.payload.length) :=
          { seq := by
              rw [ofNat_add, ← BitVec.add_assoc, ← hw.seq, BitVec.ofNat_toNat,
                BitVec.setWidth_eq]
              abel
            len := by
              rw [Nat.add_sub_cancel_left]
              exact hp.len
            start := Nat.le_add_right _ _
            payload := (Nat.add_sub_cancel_left ..).symm
            urg := hp.urg }
        exact Waiting.insert h hw hp hspans (Nat.le_add_right _ _) (by omega) hturned hres
      · exact absurd hwhole hnot
    · exact h.insertFirst hnil hp hstart hturned hres

theorem WinInv.step {ev : WinEvent} (h : WinInv serv) (hplain : ev.plain)
    (hok : Windowed serv ev) (hstep : ev.step serv = .ok serv') : WinInv serv' := by
  cases ev with
  | arrive skb =>
    cases hres : insertTcpPacket serv skb with
    | error t =>
      rw [WinEvent.step, hres] at hstep
      cases hstep
    | ok res =>
      rw [WinEvent.step, hres] at hstep
      cases hstep
      exact h.arrive hplain hok hres
  | read count off flags =>
    cases hread : tcpReadRound serv count off flags with
    | error t =>
      rw [WinEvent.step, hread] at hstep
      cases hstep
    | ok res =>
      rw [WinEvent.step, hread] at hstep
      cases hstep
      obtain ⟨hcons, hlist, hseq, hwin⟩ := h.cons.read hok hread
      exact h.keep hcons hlist hseq hwin

theorem Idle.winInv (h : Idle serv) : WinInv serv where
  cons :=
    { size := h.size
      win := by
        rw [h.win, h.count]
        rfl }
  queue := by
    refine .inl ⟨serv.rcvseq, 0, [], by simp, ?_, trivial⟩
    rw [h.list]
    exact .nil

theorem WindowRun.winInv (hrun : WindowRun Windowed serv) : WinInv serv := by
  induction hrun with
  | init hidle => exact hidle.winInv
  | step ev _ hplain hok hstep ih => exact ih.step hplain hok hstep
  | other _ hsame ih => exact ih.same hsame

-- ======== within `reasm_tcpskb`

theorem SameRecv.trans {serv'' : TcpServ} (h : SameRecv serv serv')
    (h' : SameRecv serv' serv'') : SameRecv serv serv'' where
  ring := h'.ring.trans h.ring
  list := h'.list.trans h.list
  seq := h'.seq.trans h.seq
  win := h'.win.trans h.win

theorem stopAnyTimer_recv : SameRecv serv serv.stopAnyTimer := by
  unfold TcpServ.stopAnyTimer
  split
  · exact ⟨rfl, rfl, rfl, rfl⟩
  · exact ⟨rfl, rfl, rfl, rfl⟩

theorem stopKeepalive_recv (serv : TcpServ) : SameRecv serv serv.stopKeepalive := by
  unfold TcpServ.stopKeepalive
  split
  · exact stopAnyTimer_recv
  · exact ⟨rfl, rfl, rfl, rfl⟩

theorem takeAck_recv {tcp : TcpHdr} {a : Acked} (h : takeAck serv tcp = some a) :
    SameRecv serv a.serv := by
  rcases takeAck_cases h with rfl | ⟨-, ⟨-, rfl⟩ | ⟨-, rfl⟩⟩
  · exact ⟨rfl, rfl, rfl, rfl⟩
  · exact ⟨rfl, rfl, rfl, rfl⟩
  · unfold ackUrg
    split
    · exact ⟨rfl, rfl, rfl, rfl⟩
    · exact ⟨rfl, rfl, rfl, rfl⟩

theorem dropAcked_recv {len : Nat} (h : dropAcked serv len = .ok serv') : SameRecv serv serv' := by
  unfold dropAcked at h
  split at h
  · cases h
  dsimp only at h
  split at h
  · cases h
    exact ⟨rfl, rfl, rfl, rfl⟩
  · cases h
    exact ⟨rfl, rfl, rfl, rfl⟩

theorem restartDelayTimer_recv : SameRecv serv serv.restartDelayTimer := by
  unfold TcpServ.restartDelayTimer
  split
  · exact ⟨rfl, rfl, rfl, rfl⟩
  · exact ⟨rfl, rfl, rfl, rfl⟩

theorem reasmInsert_recv (h : reasmInsert serv skb = .ok r) :
    ∃ res serv', insertTcpPacket serv skb = .ok res ∧ r.serv = some serv'
      ∧ SameRecv res.serv serv' := by
  unfold reasmInsert at h
  split at h
  · cases h
  next fin serv1 hres =>
  split at h
  · cases h
    exact ⟨_, _, hres, rfl, rfl, rfl, rfl, rfl⟩
  · have hfin : SameRecv serv1
        (if fin = true then { serv1 with rcvfin := 1 } else serv1) := by
      split
      · exact ⟨rfl, rfl, rfl, rfl⟩
      · exact ⟨rfl, rfl, rfl, rfl⟩
    dsimp only at h
    generalize (if fin = true then { serv1 with rcvfin := 1 } else serv1) = serv2 at h hfin
    split at h
    · cases h
      exact ⟨_, _, hres, rfl, hfin.trans restartDelayTimer_recv⟩
    · cases h
      exact ⟨_, _, hres, rfl, hfin⟩

theorem Windowed.same {ev : WinEvent} (h : Windowed serv ev) (hs : SameRecv serv serv') :
    Windowed serv' ev := by
  cases ev with
  | arrive skb =>
    unfold Windowed TurnedAway Whole at h ⊢
    rw [hs.seq, hs.win, hs.list]
    exact h
  | read count off flags => exact h

/-- What arrives goes through `reasm_tcpskb`. In `TCP_ESTABLISHED` this is
an event of a run, or leaves the receiving half alone. -/
theorem window_run_reasm (hrun : WindowRun Windowed serv)
    (hstate : serv.state = .established) (hp : Plain skb) (hok : Windowed serv (.arrive skb))
    (hres : Net.reasmTcpskb serv skb = .ok r) (hserv : r.serv = some serv') :
    WindowRun Windowed serv' := by
  have hstop := stopKeepalive_recv serv
  have hinsert {serv1 : TcpServ} (hs : SameRecv serv serv1)
      (hins : reasmInsert serv1 skb = .ok r) : WindowRun Windowed serv' := by
    obtain ⟨res, serv2, htake, hr, hsame⟩ := reasmInsert_recv hins
    rw [hr] at hserv
    cases hserv
    have hstep : WinEvent.step serv1 (.arrive skb) = .ok res.serv := by
      rw [WinEvent.step, htake]
      rfl
    exact .other (.step (.arrive skb) (.other hrun hs) hp (hok.same hs) hstep) hsame
  rcases reasmTcpskb_cases hres with ⟨-, hs⟩ | hr | ⟨-, hr⟩ | ⟨a, htake, hr, -⟩
  · rw [hstate] at hs
    rcases hs with hs | hs | hs <;> cases hs
  · rw [hr] at hserv
    cases hserv
    exact .other hrun hstop
  · rw [hr] at hserv
    rcases reasmRst_cases hserv with rfl | rfl
    · exact .other hrun hstop
    · have hclosed : SameRecv serv.stopKeepalive
          { serv.stopKeepalive with state := .closed } := ⟨rfl, rfl, rfl, rfl⟩
      exact .other hrun (hstop.trans (hclosed.trans stopAnyTimer_recv))
  · have hsame := hstop.trans (takeAck_recv htake)
    have hs : a.serv.state = .established := by
      rw [takeAck_state htake, (stopKeepalive_quiet serv).state, hstate]
    unfold reasmAcked at hr
    rw [hs] at hr
    have hdata : reasmData a skb = .ok r := hr
    unfold reasmData at hdata
    split at hdata
    · split at hdata
      · cases hdata
      · next hdrop => exact hinsert (hsame.trans (dropAcked_recv hdrop)) hdata
    · exact hinsert hsame hdata

/-- In every run in which segments lie within the window when they are
taken, and reads take out what they return, the window and the ring add
up to the size of the ring. -/
theorem window_conserved (hrun : WindowRun Windowed serv) :
    serv.xmtwin.toNat + serv.rcvring.count = defaultRingSize :=
  hrun.winInv.cons.win

/-- One byte at `rcvseq`. -/
def byteSkb (seq : Seq) : Skb where
  tcp :=
    { seq := seq, ackSeq := 0, doff := 5, fin := false, syn := false, rst := false
      ack := true, urg := false, window := 0, urgPtr := 0 }
  dgramLen := 21
  head := [7]
  rest := []

theorem byteSkb_plain (seq : Seq) : Plain (byteSkb seq) := ⟨rfl, rfl⟩

theorem established_idle : Idle (establishedServ 0 0) := ⟨rfl, rfl, rfl, rfl⟩

theorem window_run_reasm_byte : ∃ serv, WindowRun Windowed serv ∧ serv.rcvseq = 1 :=
  ⟨_, window_run_reasm (.init established_idle) rfl (byteSkb_plain 0) (.inr (.inl (by decide))) rfl
    rfl, rfl⟩

/-- The second byte arrives before the first one, and one is read. -/
theorem window_conserved_swapped : ∃ serv, WindowRun Windowed serv ∧ serv.rcvseq = 2
    ∧ serv.xmtwin.toNat + serv.rcvring.count = defaultRingSize := by
  obtain ⟨serv1, serv2, serv3, hstep1, hin, hstep2, hstep3, hseq⟩ : ∃ serv1 serv2 serv3,
      WinEvent.step (establishedServ 0 0) (.arrive (byteSkb 1)) = .ok serv1
        ∧ (Whole serv1 ∧ ((byteSkb 0).tcp.seq - serv1.rcvseq).toNat + 1 ≤ serv1.xmtwin.toNat)
        ∧ WinEvent.step serv1 (.arrive (byteSkb 0)) = .ok serv2
        ∧ WinEvent.step serv2 (.read 1 0 ⟨false, false, false⟩) = .ok serv3
        ∧ serv3.rcvseq = 2 :=
    ⟨_, _, _, rfl, by decide, rfl, rfl, rfl⟩
  have hrun1 : WindowRun Windowed serv1 :=
    .step (.arrive (byteSkb 1)) (.init established_idle) (byteSkb_plain 1) (.inr (.inl (by decide))) hstep1
  have hrun2 : WindowRun Windowed serv2 :=
    hrun1.step (.arrive (byteSkb 0)) (byteSkb_plain 0) (.inr (.inl hin)) hstep2
  have hrun3 : WindowRun Windowed serv3 :=
    hrun2.step (.read 1 0 ⟨false, false, false⟩) trivial (by simp [Windowed]) hstep3
  exact ⟨serv3, hrun3, hseq, window_conserved hrun3⟩

/-- A byte arrives and is looked at with `MSG_PEEK`: the window is as
large as the ring, in which there is one byte. -/
theorem peek_opens_window : ∃ serv, WindowRun (fun _ _ => True) serv
    ∧ serv.xmtwin.toNat = defaultRingSize ∧ serv.rcvring.count = 1
    ∧ serv.xmtwin.toNat + serv.rcvring.count ≠ defaultRingSize := by
  obtain ⟨serv1, serv2, hstep1, hstep2, hwin, hcount⟩ : ∃ serv1 serv2,
      WinEvent.step (establishedServ 0 0) (.arrive (byteSkb 0)) = .ok serv1
        ∧ WinEvent.step serv1 (.read 1 0 ⟨false, true, false⟩) = .ok serv2
        ∧ serv2.xmtwin.toNat = defaultRingSize ∧ serv2.rcvring.count = 1 :=
    ⟨_, _, rfl, rfl, rfl, rfl⟩
  have hrun1 : WindowRun (fun _ _ => True) serv1 :=
    .step (.arrive (byteSkb 0)) (.init established_idle) (byteSkb_plain 0) trivial hstep1
  exact ⟨serv2, .step (.read 1 0 ⟨false, true, false⟩) hrun1 trivial trivial hstep2, hwin,
    hcount, by rw [hwin, hcount]; decide⟩

end Cnix.Net
