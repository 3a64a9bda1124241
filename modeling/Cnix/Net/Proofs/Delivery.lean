/-
Runs of the receiving half of a connection: segments of one stream
arrive in any order, cut and repeated in any way, while the user reads.

# The system

`RecvRun` starts with an established connection that has received
nothing. Its steps are `insert_tcp_packet` for a segment of the stream
that lies within the advertised window, and one round of `tcp_read`.
Beside the connection it keeps what was read so far (`got`), how far
`rcvseq` has come (`pos`), whether `fin` was consumed, and which parts
of the stream have arrived.

# What holds

`Delivered` is what the receiver owes: what was ever placed in the ring
is a prefix of the stream, `rcvseq` counts it, and nothing that has
arrived without a gap before it is held back. It does not hold in every
run: a segment that starts before `rcvseq` and ends behind it is copied
whole. `Tame` excludes these, and segments so old that the comparison
from `0x00010000` takes them for new. In runs of tame arrivals `RecvInv`
is kept and `Delivered` follows.
-/
import Cnix.Net.Proofs.Reassembly

namespace Cnix.Net

open Lib
open BitVec (ofNat)

-- ======== the runs

/-- An established connection before the first byte. -/
structure Fresh (S : Stream) (serv : TcpServ) : Prop where
  state : serv.state = .established
  seq : serv.rcvseq = S.isn
  list : serv.rcvskblist = []
  count : serv.rcvring.count = 0
  size : serv.rcvring.size = defaultRingSize
  win : serv.xmtwin = ofNat 16 defaultRingSize

/-- The states reached by arrivals of segments within the window and by
reads. `ok` is a condition on each arrival: how far the connection has
come before it, and where in the stream the segment starts and ends. -/
inductive RecvRun (ok : Nat → Nat → Nat → Prop) (S : Stream) :
    TcpServ → List Byte → Nat → Bool → List (Nat × Nat) → Prop
  | init {serv : TcpServ} : Fresh S serv → RecvRun ok S serv [] 0 false []
  | arrive {serv : TcpServ} {got : List Byte} {pos : Nat} {fin : Bool}
      {arrived : List (Nat × Nat)} {skb : Skb} {a e : Nat} {res : Inserted} :
      RecvRun ok S serv got pos fin arrived → Carries S skb a e →
      e ≤ pos + serv.xmtwin.toNat → ok pos a (skb.last e) →
      insertTcpPacket serv skb = .ok res →
      RecvRun ok S res.serv got (pos + (res.serv.rcvseq - serv.rcvseq).toNat)
        (fin || res.fin) ((a, skb.last e) :: arrived)
  | read {serv serv' : TcpServ} {got bytes : List Byte} {pos n : Nat} {fin : Bool}
      {arrived : List (Nat × Nat)} :
      RecvRun ok S serv got pos fin arrived → tcpRead serv n = .ok (bytes, serv') →
      RecvRun ok S serv' (got ++ bytes) pos fin arrived

/-- What the receiver owes. -/
structure Delivered (S : Stream) (serv : TcpServ) (got : List Byte) (fin : Bool)
    (arrived : List (Nat × Nat)) : Prop where
  pre : got ++ serv.rcvring.contents <+: S.bytes
  seq : serv.rcvseq = S.isn
    + ofNat 32 ((got ++ serv.rcvring.contents).length + fin.toNat)
  complete : (∀ x < S.bytes.length, Cover arrived x) →
    got ++ serv.rcvring.contents = S.bytes
      ∧ (Cover arrived S.bytes.length → fin = true)

/-- An arrival the reassembly can cope with: it ends at `rcvseq` or
before, by no more than the comparison can see, or it starts at `rcvseq`
or behind. -/
def Tame (pos a b : Nat) : Prop :=
  b ≤ pos ∧ pos ≤ b + 2 ^ 16 ∨ pos ≤ a

-- ======== the invariant

/-- What tame runs keep. Until `fin` is consumed the queue stands for
intervals behind `rcvseq`, and all that arrived is placed or queued. -/
structure RecvInv (S : Stream) (serv : TcpServ) (got : List Byte) (pos : Nat)
    (fin : Bool) (arrived : List (Nat × Nat)) : Prop where
  size : serv.rcvring.size = defaultRingSize
  win : serv.xmtwin.toNat = serv.rcvring.size - serv.rcvring.count
  placed : got ++ serv.rcvring.contents = S.slice 0 (pos - fin.toNat)
  fits : pos ≤ S.bytes.length + fin.toNat
  seq : serv.rcvseq = S.isn + ofNat 32 pos
  fin_end : fin = true → pos = S.bytes.length + 1
  queue : fin = false → ∃ ivs, Queue S (pos + serv.xmtwin.toNat) serv.rcvskblist ivs
    ∧ Ascending (pos + 1) ivs ∧ ∀ x, Cover arrived x → x < pos ∨ Cover ivs x

variable {S : Stream} {serv serv' : TcpServ} {got bytes : List Byte} {pos a e : Nat} {fin : Bool}
  {arrived ivs arrived' : List (Nat × Nat)} {skb p : Skb} {l : List Skb}

/-- Nothing placed is out of order, and nothing that could be placed is
held back. -/
theorem RecvInv.delivered (hi : RecvInv S serv got pos fin arrived) :
    Delivered S serv got fin arrived := by
  have hfits := hi.fits
  have hfin : fin.toNat ≤ pos := by
    cases fin with
    | false => exact Nat.zero_le _
    | true =>
      rw [hi.fin_end rfl]
      exact Nat.succ_le_succ (Nat.zero_le _)
  have hlen : (got ++ serv.rcvring.contents).length = pos - fin.toNat := by
    rw [hi.placed, S.slice_length (by omega), Nat.sub_zero]
  refine ⟨?_, ?_, fun hall => ?_⟩
  · rw [hi.placed]
    exact List.take_prefix _ _
  · rw [hlen, Nat.sub_add_cancel hfin]
    exact hi.seq
  · have hwhole : S.slice 0 S.bytes.length = S.bytes := by simp [Stream.slice]
    rw [hi.placed]
    cases fin with
    | true =>
      rw [hi.fin_end rfl]
      exact ⟨hwhole, fun _ => rfl⟩
    | false =>
      obtain ⟨ivs, -, hg, hcov⟩ := hi.queue rfl
      -- the first byte not placed would be queued below the queue
      have hnot : ¬ Cover arrived pos := by
        intro hpos
        rcases hcov pos hpos with h | h
        · omega
        · exact hg.not_cover (by omega) h
      have hend : pos = S.bytes.length := by
        by_contra hne
        exact hnot (hall pos (by simp at hfits; omega))
      subst hend
      exact ⟨hwhole, fun h => absurd h hnot⟩

/-- A connection before the first byte. -/
theorem RecvInv.fresh (h : Fresh S serv) : RecvInv S serv [] 0 false [] where
  size := h.size
  win := by
    rw [h.win, h.size, h.count]
    rfl
  placed := by
    have hnil : serv.rcvring.contents = [] :=
      List.eq_nil_of_length_eq_zero (by rw [RingBuffer.contents_length, h.count])
    rw [hnil]
    simp [Stream.slice]
  fits := Nat.zero_le _
  seq := by
    rw [h.seq]
    simp
  fin_end hf := by cases hf
  queue _ := by
    refine ⟨[], ?_, trivial, ?_⟩
    · rw [h.list]
      exact .nil
    · intro x hx
      obtain ⟨iv, hiv, -⟩ := hx
      exact absurd hiv List.not_mem_nil

/-- Reading moves bytes from the ring to the user and opens the window. -/
theorem RecvInv.read {n : Nat} (hi : RecvInv S serv got pos fin arrived)
    (hread : tcpRead serv n = .ok (bytes, serv')) :
    RecvInv S serv' (got ++ bytes) pos fin arrived := by
  obtain ⟨ring, hcopy, hcont, hsize, hcount⟩ := serv.rcvring.copyFromRing_front n
  have hwin := hi.win
  have hlen := serv.rcvring.contents_length
  rw [tcpRead, tcpReadRound, if_neg Bool.false_ne_true, if_neg Bool.false_ne_true, Bool.not_false, hcopy]
    at hread
  cases hread
  have htake : (serv.rcvring.contents.take n).length = min n serv.rcvring.count := by
    rw [List.length_take, hlen]
  have hxmt : (serv.xmtwin + ofNat 16 (serv.rcvring.contents.take n).length).toNat
      = serv.xmtwin.toNat + min n serv.rcvring.count := by
    have hcount_le := serv.rcvring.count_le
    have hsz : serv.rcvring.size = 8192 := hi.size
    rw [htake, BitVec.toNat_add, BitVec.toNat_ofNat]
    omega
  refine ⟨?_, ?_, ?_, hi.fits, hi.seq, hi.fin_end, fun hf => ?_⟩
  · exact hsize.trans hi.size
  · show (serv.xmtwin + ofNat 16 _).toNat = ring.size - ring.count
    have hcount_le := serv.rcvring.count_le
    omega
  · rw [hcont, List.append_assoc, List.take_append_drop]
    exact hi.placed
  · obtain ⟨ivs, hq, hg, hcov⟩ := hi.queue hf
    refine ⟨ivs, hq.mono ?_, hg, hcov⟩
    show pos + _ ≤ pos + (serv.xmtwin + ofNat 16 _).toNat
    omega

/-- A segment that ends at `rcvseq` or before is dropped. -/
theorem insert_old (hi : RecvInv S serv got pos fin arrived) (hc : Carries S skb a e)
    (hold : skb.last e ≤ pos) (hrecent : pos ≤ skb.last e + 2 ^ 16) :
    ∃ res, insertTcpPacket serv skb = .ok res ∧ res.fin = false ∧ SameRecv serv res.serv := by
  have horigin : origin.toNat = 2 ^ 16 := rfl
  have hreach : Reach origin pos (skb.last e) := ⟨by omega, by omega⟩
  have hself : Reach origin pos pos := ⟨by omega, by omega⟩
  have hle : rebase origin pos (skb.last e) ≤ origin := by
    have h := (rebase_le hreach hself).2 hold
    rw [rebase_self] at h
    exact h
  unfold insertTcpPacket
  rw [if_neg (by rw [hc.len]; omega)]
  dsimp only
  rw [show (65536#32 : Seq) = origin from rfl, hi.seq, hc.seqRange]
  rw [if_pos hle]
  split
  next => exact ⟨_, rfl, rfl, rfl, rfl, rfl, rfl⟩
  next =>
    obtain ⟨serv', hwin, hsame⟩ := updateRcvwin_ok serv skb.tcp.window
    rw [hwin]
    exact ⟨_, rfl, rfl, hsame⟩

/-- A new queue behind `rcvseq` for the old connection. -/
theorem RecvInv.requeue (hi : RecvInv S serv got pos false arrived)
    (hq : Queue S (pos + serv.xmtwin.toNat) l ivs) (hg : Ascending (pos + 1) ivs)
    (hcov : ∀ x, Cover arrived' x → x < pos ∨ Cover ivs x) :
    RecvInv S { serv with rcvskblist := l } got pos false arrived' :=
  ⟨hi.size, hi.win, hi.placed, hi.fits, hi.seq, hi.fin_end, fun _ => ⟨ivs, hq, hg, hcov⟩⟩

/-- The first packet has been copied. -/
theorem RecvInv.copied {res : Inserted} (hi : RecvInv S serv got pos false arrived)
    (hc : Carries S p pos e) (he : e ≤ pos + serv.xmtwin.toNat)
    (hq : Queue S (pos + serv.xmtwin.toNat) l ivs) (hg : Ascending (p.last e + 1) ivs)
    (hcov : ∀ x, Cover arrived' x → x < p.last e ∨ Cover ivs x)
    (hres : Copied S serv p l pos e res) :
    RecvInv S res.serv got (p.last e) p.tcp.fin arrived' := by
  have hstart := hc.start
  have hfits := hc.fits
  have hwin := hi.win
  have hlast : p.last e = e + p.tcp.fin.toNat := rfl
  have hcount : res.serv.rcvring.count = serv.rcvring.count + (e - pos) := by
    rw [← RingBuffer.contents_length, hres.contents, List.length_append,
      RingBuffer.contents_length, S.slice_length hfits]
  have hxmt : res.serv.xmtwin.toNat = serv.xmtwin.toNat - (e - pos) := by
    rw [hres.win, BitVec.toNat_sub, BitVec.toNat_ofNat]
    omega
  refine ⟨hres.size.trans hi.size, ?_, ?_, by omega, ?_, ?_, fun hf => ?_⟩
  · rw [hxmt, hcount, hres.size]
    omega
  · have hplaced := hi.placed
    rw [hres.contents, ← List.append_assoc, hplaced, hlast, Nat.add_sub_cancel]
    exact Stream.slice_append (Nat.zero_le _) hstart
  · rw [hres.seq, hi.seq, BitVec.add_assoc, ← BitVec.ofNat_add]
    congr 2
    omega
  · exact hc.last_of_fin
  · have hlast' := Skb.last_of_not_fin hf e
    refine ⟨ivs, ?_, hg, hcov⟩
    rw [hres.list hf, hlast', hxmt]
    exact hq.mono (by omega)

/-- Packets are compared at their places in the stream seen from
`rcvseq`. -/
theorem RecvInv.seqRange (hi : RecvInv S serv got pos fin arrived) (hp : Carries S p a e) :
    p.seqRange (origin - serv.rcvseq) = (rebase origin pos a, rebase origin pos (p.last e)) := by
  rw [hi.seq]
  exact hp.seqRange _ _

/-- A position in the window is at the origin or below when it is at
`rcvseq` or below. -/
theorem rebase_le_origin {x : Nat} (h1 : pos ≤ x) (h2 : x ≤ pos + 2 ^ 16) :
    rebase origin pos x ≤ origin ↔ x ≤ pos := by
  have hle := rebase_le (reach_window h1 h2) (reach_window (Nat.le_refl pos) (by omega))
  rw [rebase_self] at hle
  exact hle

/-- A queue whose first packet has not come up. -/
theorem checkFirst_wait (hi : RecvInv S serv got pos false arrived)
    (hq : Queue S (pos + serv.xmtwin.toNat) l ivs) (hg : Ascending (pos + 1) ivs)
    (hcov : ∀ x, Cover arrived' x → x < pos ∨ Cover ivs x) :
    ∃ res, checkFirst (origin - serv.rcvseq) l serv = .ok res
      ∧ RecvInv S res.serv got (pos + (res.serv.rcvseq - serv.rcvseq).toNat) res.fin arrived' := by
  have hkeep : RecvInv S { serv with rcvskblist := l } got
      (pos + (serv.rcvseq - serv.rcvseq).toNat) false arrived' := by
    rw [BitVec.sub_self]
    exact hi.requeue hq hg hcov
  unfold checkFirst
  cases hq with
  | nil => exact ⟨_, rfl, hkeep⟩
  | @cons p iv l ivs hs hq =>
    obtain ⟨e', hc, hd, he⟩ := hs
    have hstart := hc.start
    have hlo : pos + 1 ≤ iv.1 := hg.1
    have hup : ¬ rebase origin pos iv.1 ≤ origin := by
      rw [rebase_le_origin (by omega) (by omega)]
      omega
    dsimp only
    rw [hi.seqRange hc, show (65536#32 : Seq) = origin from rfl]
    rw [if_neg hup]
    exact ⟨_, rfl, hkeep⟩

/-- A queue whose first packet has come up to `rcvseq`: it is copied. -/
theorem checkFirst_copy {d : Nat} (hi : RecvInv S serv got pos false arrived)
    (hq : Queue S (pos + serv.xmtwin.toNat) (p :: l) ((pos, d) :: ivs))
    (hg : Ascending (d + 1) ivs) (hnew : pos < d)
    (hcov : ∀ x, Cover arrived' x → x < pos ∨ Cover ((pos, d) :: ivs) x) :
    ∃ res, checkFirst (origin - serv.rcvseq) (p :: l) serv = .ok res
      ∧ RecvInv S res.serv got (pos + (res.serv.rcvseq - serv.rcvseq).toNat) res.fin arrived' := by
  cases hq with
  | cons hs hq =>
  obtain ⟨e', hc, hd, he⟩ := hs
  subst hd
  have hd' := Skb.last_bounds p e'
  have hup : rebase origin pos pos ≤ origin :=
    (rebase_le_origin (by omega) (by omega)).2 (Nat.le_refl _)
  have hdie : ¬ rebase origin pos (p.last e') ≤ origin := by
    rw [rebase_le_origin (by omega) (by omega)]
    omega
  unfold checkFirst
  dsimp only
  rw [hi.seqRange hc, show (65536#32 : Seq) = origin from rfl]
  rw [if_pos hup, if_neg hdie]
  obtain ⟨res, hres, hcopied⟩ := deliverFirst_spec serv l hc hnew (by rw [← hi.win]; omega)
  have hmove : pos + (res.serv.rcvseq - serv.rcvseq).toNat = p.last e' := by
    rw [hcopied.seq, add_sub_cancel_left, BitVec.toNat_ofNat, Nat.mod_eq_of_lt (by omega)]
    omega
  refine ⟨res, hres, ?_⟩
  rw [hmove, hcopied.fin]
  refine hi.copied hc he hq hg (fun x hx => ?_) hcopied
  rcases hcov x hx with h | h
  · exact .inl (by omega)
  · obtain ⟨iv, hiv, h1, h2⟩ := h
    rcases List.mem_cons.1 hiv with rfl | hiv
    · exact .inl h2
    · exact .inr ⟨iv, hiv, h1, h2⟩

/-- A segment with something new is queued, and the first packet copied
if it has come up. -/
theorem insert_new (hi : RecvInv S serv got pos false arrived) (hc : Carries S skb a e)
    (ha : pos ≤ a) (hb : pos < skb.last e) (he : e ≤ pos + serv.xmtwin.toNat) :
    ∃ res, insertTcpPacket serv skb = .ok res
      ∧ RecvInv S res.serv got (pos + (res.serv.rcvseq - serv.rcvseq).toNat) res.fin
        ((a, skb.last e) :: arrived) := by
  have hb' := Skb.last_bounds skb e
  have hstart := hc.start
  have hnew : ¬ rebase origin pos (skb.last e) ≤ origin := by
    rw [rebase_le_origin (by omega) (by omega)]
    omega
  obtain ⟨ivs, hq, hg, hcov⟩ := hi.queue rfl
  obtain ⟨inserted, l, hins, hq', hfirst⟩ := realInsert_spec
    (show pos + serv.xmtwin.toNat + 1 ≤ pos + 2 ^ 16 by omega) serv.rcvskblist hq hg
    (by omega) hc ha he
  rw [← hi.seq] at hins
  have hcov' : ∀ x, Cover ((a, skb.last e) :: arrived) x →
      x < pos ∨ Cover (insertIv a (skb.last e) ivs) x := by
    intro x hx
    rw [cover_insertIv]
    obtain ⟨iv, hiv, h1, h2⟩ := hx
    rcases List.mem_cons.1 hiv with rfl | hiv
    · exact .inr (.inr ⟨h1, h2⟩)
    · rcases hcov x ⟨iv, hiv, h1, h2⟩ with h | h
      · exact .inl h
      · exact .inr (.inl h)
  unfold insertTcpPacket
  rw [if_neg (by rw [hc.len]; omega)]
  dsimp only
  rw [show (65536#32 : Seq) = origin from rfl, hi.seqRange hc]
  rw [if_neg hnew, if_neg (by rw [hc.len]; omega), hins]
  by_cases hapos : a = pos
  · -- the segment starts at rcvseq and becomes the first packet
    subst hapos
    obtain rfl := hfirst (by omega)
    obtain ⟨d, ivs', hivs, hbd, hg'⟩ := insertIv_first (a := a) (b := skb.last e) hg
      (by omega)
    rw [hivs] at hq' hcov'
    cases l with
    | nil => cases hq'
    | cons p l => exact checkFirst_copy hi hq' hg' (by omega) hcov'
  · have hg' := hg.insert (show pos + 1 ≤ a by omega) (show a ≤ skb.last e by omega)
    cases inserted with
    | true => exact checkFirst_wait hi hq' hg' hcov'
    | false =>
      refine ⟨_, rfl, ?_⟩
      rw [BitVec.sub_self]
      exact hi.requeue hq' hg' hcov'

/-- The invariant along a tame arrival, which never fails. -/
theorem RecvInv.arrive (hi : RecvInv S serv got pos fin arrived)
    (hc : Carries S skb a e) (he : e ≤ pos + serv.xmtwin.toNat) (htame : Tame pos a (skb.last e)) :
    ∃ res, insertTcpPacket serv skb = .ok res
      ∧ RecvInv S res.serv got (pos + (res.serv.rcvseq - serv.rcvseq).toNat)
        (fin || res.fin) ((a, skb.last e) :: arrived) := by
  unfold Tame at htame
  have hb := Skb.last_bounds skb e
  have hstart := hc.start
  by_cases hold : skb.last e ≤ pos
  · obtain ⟨res, hres, hfin, hring, hlist, hseq, hwin⟩ :=
      insert_old hi hc hold (by omega)
    refine ⟨res, hres, ?_⟩
    rw [hseq, BitVec.sub_self, hfin, Bool.or_false]
    refine ⟨by rw [hring]; exact hi.size, by rw [hwin, hring]; exact hi.win,
      by rw [hring]; exact hi.placed, hi.fits, by rw [hseq]; exact hi.seq, hi.fin_end,
      fun hf => ?_⟩
    obtain ⟨ivs, hq, hg, hcov⟩ := hi.queue hf
    refine ⟨ivs, by rw [hwin, hlist]; exact hq, hg, fun x hx => ?_⟩
    obtain ⟨iv, hiv, h1, h2⟩ := hx
    rcases List.mem_cons.1 hiv with rfl | hiv
    · exact .inl (by dsimp only at h2; omega)
    · exact hcov x ⟨iv, hiv, h1, h2⟩
  · -- fin was not consumed, or there would be nothing behind rcvseq
    have hlast := hc.last_le
    obtain rfl : fin = false := by
      by_contra hf
      have hend := hi.fin_end (by simpa using hf)
      omega
    exact insert_new hi hc (by omega) (by omega) he

-- ======== the contract

/-- In every tame run what was placed in the ring is a prefix of the
stream, `rcvseq` counts it, whatever has arrived without a gap is there,
and the next tame arrival is handled without a failed check. -/
theorem tcp_delivers_in_order (hrun : RecvRun Tame S serv got pos fin arrived) :
    Delivered S serv got fin arrived ∧ ∀ skb a e, Carries S skb a e → e ≤ pos + serv.xmtwin.toNat →
        Tame pos a (skb.last e) → ∃ res, insertTcpPacket serv skb = .ok res := by
  have hi : RecvInv S serv got pos fin arrived := by
    induction hrun with
    | init hfresh => exact RecvInv.fresh hfresh
    | @arrive serv got pos fin arrived skb a e res _ hc he htame hres ih =>
      obtain ⟨res', hres', hi⟩ := ih.arrive hc he htame
      rw [hres] at hres'
      cases hres'
      exact hi
    | read _ hread ih => exact ih.read hread
  refine ⟨hi.delivered, fun skb a e hc he htame => ?_⟩
  obtain ⟨res, hres, -⟩ := hi.arrive hc he htame
  exact ⟨res, hres⟩

theorem establishedServ_fresh : Fresh S (establishedServ 0 S.isn) :=
  ⟨rfl, rfl, rfl, rfl, rfl, rfl⟩

/-- The bytes from `a` to `e` as one segment without options, and without
`fin`. -/
def Stream.cut (S : Stream) (a e : Nat) : Skb where
  tcp :=
    { seq := S.isn + ofNat 32 a
      ackSeq := 0
      doff := 5
      fin := false
      syn := false
      rst := false
      ack := true
      urg := false
      window := 0
      urgPtr := 0 }
  dgramLen := 20 + (e - a)
  head := S.slice a e
  rest := []

theorem Stream.cut_carries (ha : a ≤ e) (he : e ≤ S.bytes.length) : Carries S (S.cut a e) a e :=
  ⟨rfl, rfl, ha, he, by simp [Skb.payload, Stream.cut], by simp [Stream.cut], rfl⟩

/-- Five bytes and no `fin`. -/
def fiveBytes : Stream := ⟨0, [1, 2, 3, 4, 5], false⟩

/-- The last two bytes arrive first, then the first three: all five are
delivered. -/
theorem tcp_delivers_reordered :
    ∃ serv pos arrived, RecvRun Tame fiveBytes serv [] pos false arrived
      ∧ serv.rcvring.contents = fiveBytes.bytes ∧ Delivered fiveBytes serv [] false arrived := by
  obtain ⟨r1, r2, h1, h2, hpos, hwin, hf1, hf2, hcont⟩ : ∃ r1 r2,
      insertTcpPacket (establishedServ 0 fiveBytes.isn) (fiveBytes.cut 3 5) = .ok r1
      ∧ insertTcpPacket r1.serv (fiveBytes.cut 0 3) = .ok r2
      ∧ (r1.serv.rcvseq - (establishedServ 0 fiveBytes.isn).rcvseq).toNat = 0
      ∧ r1.serv.xmtwin.toNat = 8192
      ∧ r1.fin = false ∧ r2.fin = false
      ∧ r2.serv.rcvring.contents = [1, 2, 3, 4, 5] :=
    ⟨_, _, rfl, rfl, rfl, rfl, rfl, rfl, rfl⟩
  have hrun0 : RecvRun Tame fiveBytes (establishedServ 0 fiveBytes.isn) [] 0 false [] :=
    .init establishedServ_fresh
  have hrun1 := hrun0.arrive (Stream.cut_carries (a := 3) (e := 5) (by decide) (by decide))
    (by decide) (.inr (by decide)) h1
  rw [hpos, hf1] at hrun1
  have hrun2 := hrun1.arrive (Stream.cut_carries (a := 0) (e := 3) (by decide) (by decide))
    (by rw [hwin]; decide) (.inr (by decide)) h2
  rw [hf2] at hrun2
  exact ⟨_, _, _, hrun2, hcont, (tcp_delivers_in_order hrun2).1⟩

/-- The first three bytes arrive, then the second to the fifth: the
segment that straddles `rcvseq` is copied whole. -/
theorem tcp_repeats_bytes : ∃ serv got pos fin arrived,
      RecvRun (fun _ _ _ => True) fiveBytes serv got pos fin arrived
        ∧ ¬ Delivered fiveBytes serv got fin arrived := by
  obtain ⟨r1, r2, h1, h2, hpos, hwin, hcont⟩ : ∃ r1 r2,
      insertTcpPacket (establishedServ 0 fiveBytes.isn) (fiveBytes.cut 0 3) = .ok r1
      ∧ insertTcpPacket r1.serv (fiveBytes.cut 1 5) = .ok r2
      ∧ (r1.serv.rcvseq - (establishedServ 0 fiveBytes.isn).rcvseq).toNat = 3
      ∧ r1.serv.xmtwin.toNat = 8189
      ∧ r2.serv.rcvring.contents = [1, 2, 3, 2, 3, 4, 5] :=
    ⟨_, _, rfl, rfl, rfl, rfl, rfl⟩
  have hrun0 : RecvRun (fun _ _ _ => True) fiveBytes
      (establishedServ 0 fiveBytes.isn) [] 0 false [] :=
    .init establishedServ_fresh
  have hrun1 := hrun0.arrive (Stream.cut_carries (a := 0) (e := 3) (by decide) (by decide))
    (by decide) trivial h1
  rw [hpos] at hrun1
  have hrun2 := hrun1.arrive (Stream.cut_carries (a := 1) (e := 5) (by decide) (by decide))
    (by rw [hwin]; decide) trivial h2
  refine ⟨_, _, _, _, _, hrun2, fun hdel => ?_⟩
  have hpre := hdel.pre.length_le
  rw [hcont] at hpre
  exact absurd hpre (by decide)

end Cnix.Net
