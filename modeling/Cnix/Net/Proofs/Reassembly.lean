/-
What the reassembly list does, in terms of the stream the segments were
cut from.

A packet that carries bytes `a` to `e` of the stream stands for the
interval from `a` to `e`, or to `e + 1` with `fin`. Under this reading
`real_insert_tcp_packet` is the insertion into a list of intervals in
the order of their starts (`Lib.insertIv`): the branches are the same,
and cutting and linking packets builds the packet of the joined
interval (`Carries.link`). The copy of the first packet to the ring then
appends its bytes of the stream.

The insertion looks at places and lengths and not at the bytes, so it is
described for packets of any kind that can be linked (`Shape`). Packets
that are not of one stream may disagree about where `fin` is (`Clash`);
the insertion then refuses the new one.
-/
import Cnix.Lib.Intervals
import Cnix.Lib.Serial
import Cnix.Net.TcpRecv
import Cnix.Net.Proofs.Ringbuff

namespace Cnix.Net

open Lib
open BitVec (ofNat)

-- ======== the stream

/-- What the other side sends: its bytes from sequence number `isn` on,
and whether `fin` follows the last. -/
structure Stream where
  isn : Seq
  bytes : List Byte
  fin : Bool

/-- The bytes from `a` to `e`. -/
def Stream.slice (S : Stream) (a e : Nat) : List Byte :=
  (S.bytes.drop a).take (e - a)

section Slices

variable {S : Stream} {a m e : Nat}

theorem Stream.slice_length (h : e ≤ S.bytes.length) : (S.slice a e).length = e - a := by
  simp [Stream.slice]
  omega

theorem Stream.slice_append (h1 : a ≤ m) (h2 : m ≤ e) :
    S.slice a m ++ S.slice m e = S.slice a e := by
  unfold Stream.slice
  have hsum : e - a = (m - a) + (e - m) := by omega
  rw [hsum, List.take_add, List.drop_drop]
  congr 4
  omega

theorem Stream.slice_drop (h : a ≤ m) : (S.slice a e).drop (m - a) = S.slice m e := by
  have hlen : e - a - (m - a) = e - m := by omega
  have hfrom : a + (m - a) = m := by omega
  unfold Stream.slice
  rw [List.drop_take, List.drop_drop, hlen, hfrom]

end Slices

/-- The bytes of a packet behind its header. -/
def Skb.payload (p : Skb) : List Byte := p.head ++ p.rest.flatten

/-- The packet lies from `a` to `e`, counted from `isn`, has as many bytes
as it says, and no urgent data. -/
structure Spans (isn : Seq) (p : Skb) (a e : Nat) : Prop where
  seq : p.tcp.seq = isn + ofNat 32 a
  len : p.dgramLen = p.tcp.hdrlen + (e - a)
  start : a ≤ e
  payload : p.payload.length = e - a
  urg : p.tcp.urg = false

/-- The packet holds the bytes from `a` to `e` of the stream, with `fin`
only behind the last one, and no urgent data. -/
structure Carries (S : Stream) (p : Skb) (a e : Nat) : Prop where
  seq : p.tcp.seq = S.isn + ofNat 32 a
  len : p.dgramLen = p.tcp.hdrlen + (e - a)
  start : a ≤ e
  fits : e ≤ S.bytes.length
  data : p.payload = S.slice a e
  fin : p.tcp.fin = true → e = S.bytes.length ∧ S.fin = true
  urg : p.tcp.urg = false

variable {S : Stream} {isn : Seq} {p q skb : Skb} {a e b f r edge : Nat}
  {P : Skb → Nat → Nat → Prop}

theorem Carries.spans (h : Carries S p a e) : Spans S.isn p a e where
  seq := h.seq
  len := h.len
  start := h.start
  payload := by rw [h.data, S.slice_length h.fits]
  urg := h.urg

/-- The end of a packet in sequence numbers. -/
def Skb.last (p : Skb) (e : Nat) : Nat := e + p.tcp.fin.toNat

/-- `fin` takes one sequence number. -/
theorem finWord (fin : Bool) :
    (if fin then 1#32 else 0#32) = ofNat 32 fin.toNat := by
  cases fin <;> rfl

/-- Moved by `delta`, the packet lies at its place in the stream seen
from `rcvseq`. -/
theorem Spans.seqRange (h : Spans isn p a e) (o : Seq) (r : Nat) :
    p.seqRange (o - (isn + ofNat 32 r)) = (rebase o r a, rebase o r (p.last e)) := by
  have hstart := h.start
  unfold Skb.seqRange Skb.last
  rw [h.seq, add_delta_eq_rebase, finWord, h.len, BitVec.ofNat_add]
  dsimp only
  have hlen : rebase o r a + (ofNat 32 p.tcp.hdrlen + ofNat 32 (e - a))
      - ofNat 32 p.tcp.hdrlen = rebase o r a + ofNat 32 (e - a) := by
    abel
  rw [hlen, rebase_add, rebase_add]
  congr 3
  omega

theorem Carries.seqRange (h : Carries S p a e) (o : Seq) (r : Nat) :
    p.seqRange (o - (S.isn + ofNat 32 r)) = (rebase o r a, rebase o r (p.last e)) :=
  h.spans.seqRange o r

-- ======== cutting and linking

/-- Cutting off the other `skbuff`s keeps what follows. -/
theorem cutRest_flatten : ∀ (l : List (List Byte)) {n : Nat}, n ≤ l.flatten.length →
    ∃ l', cutRest l n = .ok l' ∧ l'.flatten = l.flatten.drop n := by
  intro l
  induction l with
  | nil =>
    intro n hn
    refine ⟨[], ?_, by simp⟩
    unfold cutRest
    rw [if_neg (by simpa using hn)]
  | cons c l ih =>
    intro n hn
    rw [List.flatten_cons, List.length_append] at hn
    unfold cutRest
    split
    next hz => exact ⟨c :: l, rfl, by simp [hz]⟩
    next =>
      split
      next hlt =>
        refine ⟨c.drop n :: l, rfl, ?_⟩
        rw [List.flatten_cons, List.flatten_cons,
          List.drop_append_of_le_length (Nat.le_of_lt hlt)]
      next hge =>
        obtain ⟨l', hl', hflat⟩ := ih (n := n - c.length) (by omega)
        have hc : c.drop n = [] := List.drop_of_length_le (by omega)
        refine ⟨l', hl', ?_⟩
        rw [hflat, List.flatten_cons, List.drop_append, hc, List.nil_append]

/-- `skb_cut_data` cuts the header and bytes that are there. -/
theorem Spans.cut (h : Spans isn p a e) {n : Nat} (hn : n ≤ e - a) :
    ∃ cut, skbCutData p n = .ok cut ∧ cut.dgramLen = e - a - n
      ∧ cut.payload = p.payload.drop n := by
  have hlen := h.len
  have hpay := h.payload
  unfold skbCutData
  rw [if_neg (by omega)]
  split
  next hle =>
    refine ⟨_, rfl, by dsimp only; omega, ?_⟩
    show p.head.drop n ++ p.rest.flatten = _
    rw [Skb.payload, List.drop_append_of_le_length hle]
  next hgt =>
    rw [Skb.payload, List.length_append] at hpay
    obtain ⟨l', hl', hflat⟩ := cutRest_flatten p.rest (n := n - p.head.length) (by omega)
    have hhead : p.head.drop n = [] := List.drop_of_length_le (by omega)
    rw [hl']
    refine ⟨_, rfl, by dsimp only; omega, ?_⟩
    show [] ++ l'.flatten = _
    rw [hflat, Skb.payload, List.drop_append, hhead]

/-- A packet, and behind it what another has beyond it. -/
def linked (p q cut : Skb) : Skb :=
  { linkSkb p cut with tcp := { p.tcp with fin := q.tcp.fin } }

theorem linked_payload (p q cut : Skb) : (linked p q cut).payload = p.payload ++ cut.payload := by
  show p.head ++ (p.rest ++ cut.head :: cut.rest).flatten = _
  rw [List.flatten_append, List.flatten_cons, ← List.append_assoc]
  rfl

/-- Two packets that meet or touch, linked. -/
theorem Spans.link {cut : Skb} (hp : Spans isn p a e) (hq : Spans isn q b f)
    (hbe : b ≤ e) (hef : e ≤ f) (hlen : cut.dgramLen = f - e)
    (hpay : cut.payload = q.payload.drop (e - b)) : Spans isn (linked p q cut) a f where
  seq := hp.seq
  len := by
    have hstart := hp.start
    show p.dgramLen + cut.dgramLen = p.tcp.hdrlen + (f - a)
    rw [hp.len, hlen]
    omega
  start := hp.start.trans hef
  payload := by
    have hstart := hp.start
    rw [linked_payload, List.length_append, hp.payload, hpay, List.length_drop, hq.payload]
    omega
  urg := hp.urg

/-- Packets that can be cut and linked. -/
structure Shape (isn : Seq) (P : Skb → Nat → Nat → Prop) : Prop where
  spans : ∀ {p a e}, P p a e → Spans isn p a e
  link : ∀ {p q cut a e b f}, P p a e → P q b f → b ≤ e → e ≤ f →
    cut.dgramLen = f - e → cut.payload = q.payload.drop (e - b) → P (linked p q cut) a f

/-- Two packets of the stream that meet or touch, linked: what the second
has beyond the first goes behind it, and its `fin` with it. -/
theorem carries_shape : Shape S.isn (Carries S) where
  spans := Carries.spans
  link := by
    intro p q cut a e b f hp hq hbe hef hlen hpay
    have hs := hp.spans.link hq.spans hbe hef hlen hpay
    refine ⟨hs.seq, hs.len, hs.start, hq.fits, ?_, hq.fin, hs.urg⟩
    rw [linked_payload, hpay, hp.data, hq.data, Stream.slice_drop hbe,
      Stream.slice_append hp.start hef]

/-- Cutting what two packets share and linking the rest. -/
theorem Shape.join (h : Shape isn P) (hp : P p a e) (hq : P q b f) (hbe : b ≤ e) (hef : e ≤ f) :
    ∃ cut, skbCutData q (e - b) = .ok cut ∧ cut.dgramLen = f - e ∧ P (linked p q cut) a f := by
  obtain ⟨cut, hcut, hlen, hpay⟩ := (h.spans hq).cut (show e - b ≤ f - b by omega)
  have hlen' : cut.dgramLen = f - e := by omega
  exact ⟨cut, hcut, hlen', h.link hp hq hbe hef hlen' hpay⟩

-- ======== the queue as a set

/-- The list of packets of a kind stands for the list of intervals, with
their bytes below `edge`. -/
def QueueOf (P : Skb → Nat → Nat → Prop) (edge : Nat) (l : List Skb)
    (ivs : List (Nat × Nat)) : Prop :=
  List.Forall₂ (fun p iv => ∃ e, P p iv.1 e ∧ iv.2 = p.last e ∧ e ≤ edge) l ivs

theorem QueueOf.mono {edge' : Nat} {l : List Skb} {ivs : List (Nat × Nat)} (h : QueueOf P edge l ivs)
    (hle : edge ≤ edge') : QueueOf P edge' l ivs := by
  refine List.Forall₂.imp (fun p iv hs => ?_) h
  obtain ⟨e, hp, hlast, he⟩ := hs
  exact ⟨e, hp, hlast, he.trans hle⟩

/-- The packets of a stream. -/
abbrev Queue (S : Stream) := QueueOf (Carries S)

/-- A packet with `fin` ends before another. -/
def Clash (P : Skb → Nat → Nat → Prop) : Prop :=
  ∃ p q a e b f, P p a e ∧ P q b f ∧ p.tcp.fin = true ∧ p.last e < q.last f

/-- The origin of the comparisons. -/
def origin : Seq := 0x00010000#32

/-- Positions from `r` to a window further on are compared as they
are. -/
theorem reach_window {x : Nat} (h1 : r ≤ x) (h2 : x ≤ r + 2 ^ 16) : Reach origin r x := by
  have horigin : origin.toNat = 2 ^ 16 := rfl
  exact ⟨by omega, by omega⟩

/-- The end of a packet is at most one past the stream. -/
theorem Carries.last_le (h : Carries S p a e) : p.last e ≤ S.bytes.length + 1 := by
  have hfits := h.fits
  unfold Skb.last
  cases p.tcp.fin <;> simp <;> omega

/-- A packet with `fin` ends the stream. -/
theorem Carries.last_of_fin (h : Carries S p a e) (hf : p.tcp.fin = true) :
    p.last e = S.bytes.length + 1 := by
  unfold Skb.last
  rw [(h.fin hf).1, hf]
  rfl

theorem Skb.last_of_not_fin (hf : p.tcp.fin = false) (e : Nat) : p.last e = e := by
  unfold Skb.last
  rw [hf]
  rfl

theorem Skb.last_bounds (p : Skb) (e : Nat) : e ≤ p.last e ∧ p.last e ≤ e + 1 := by
  unfold Skb.last
  cases p.tcp.fin <;> simp

/-- The words of a packet and of a queued one compare as their
positions. -/
structure Compares (r a b c d : Nat) : Prop where
  lt : rebase origin r a < rebase origin r c ↔ a < c
  end_lt : rebase origin r b < rebase origin r c ↔ b < c
  end_ge : rebase origin r d ≤ rebase origin r b ↔ d ≤ b
  end_le : rebase origin r b ≤ rebase origin r d ↔ b ≤ d
  eq : rebase origin r a = rebase origin r c ↔ a = c
  le : rebase origin r a ≤ rebase origin r d ↔ a ≤ d

theorem compares {c d : Nat} (ha : r ≤ a) (hc : r ≤ c) (hab : a ≤ b)
    (hcd : c ≤ d) (hb : b ≤ r + 2 ^ 16) (hd : d ≤ r + 2 ^ 16) : Compares r a b c d := by
  have hra := reach_window ha (show a ≤ r + 2 ^ 16 by omega)
  have hrb := reach_window (show r ≤ b by omega) hb
  have hrc := reach_window hc (show c ≤ r + 2 ^ 16 by omega)
  have hrd := reach_window (show r ≤ d by omega) hd
  exact ⟨rebase_lt hra hrc, rebase_lt hrb hrc, rebase_le hrd hrb, rebase_le hrb hrd,
    rebase_inj hra hrc, rebase_le hra hrd⟩

/-- What an insertion into a list behind `lo` leaves: the intervals `ivs`,
unless packets disagree about `fin`. -/
def Inserts (P : Skb → Nat → Nat → Prop) (edge lo : Nat) (new : Prop) (ivs : List (Nat × Nat)) :
    Bool × List Skb → Prop
  | (inserted, l) => QueueOf P edge l ivs ∧ (new → inserted = true)
      ∨ Clash P ∧ inserted = false ∧ ∃ ivs', QueueOf P edge l ivs' ∧ Ascending lo ivs'

theorem Inserts.mono {new new' : Prop} {lo lo' : Nat} {ivs : List (Nat × Nat)}
    {res : Bool × List Skb} (h : Inserts P edge lo' new' ivs res) (hlo : lo ≤ lo')
    (hnew : new → new') : Inserts P edge lo new ivs res := by
  refine h.imp (fun hq => ⟨hq.1, fun hn => hq.2 (hnew hn)⟩) ?_
  rintro ⟨hclash, hins, ivs', hq, hg⟩
  exact ⟨hclash, hins, ivs', hq, hg.mono hlo⟩

/-- `real_insert_tcp_packet` inserts the interval of the packet. It
refuses what is already there, and what disagrees about `fin`. -/
theorem realInsert_shape (hP : Shape isn P) (hedge : edge + 1 ≤ r + 2 ^ 16) :
    ∀ (l : List Skb) {ivs : List (Nat × Nat)} {lo : Nat} {skb : Skb} {a e : Nat},
      QueueOf P edge l ivs → Ascending lo ivs → r ≤ lo → P skb a e → r ≤ a → e ≤ edge →
      ∃ res, realInsertTcpPacket (origin - (isn + ofNat 32 r)) l skb
            (rebase origin r a) (rebase origin r (skb.last e)) = .ok res
        ∧ Inserts P edge lo (a < lo) (insertIv a (skb.last e) ivs) res := by
  intro l
  induction l with
  | nil =>
    intro ivs lo skb a e hq _ _ hc _ he
    cases hq
    exact ⟨(true, [skb]), rfl, .inl ⟨.cons ⟨e, hc, rfl, he⟩ .nil, fun _ => rfl⟩⟩
  | cons skb1 l ih =>
    intro ivs lo skb a e hq hg hlo hc ha he
    cases hq with
    | @cons _ iv _ ivs hs hq =>
    obtain ⟨c, d⟩ := iv
    obtain ⟨e1, hc1, hd, he1⟩ := hs
    have hall : QueueOf P edge (skb1 :: l) ((c, d) :: ivs) := .cons ⟨e1, hc1, hd, he1⟩ hq
    have hasc := hg
    obtain ⟨hloc, hcd, hgl⟩ := hg
    dsimp only at hc1 hd
    have hb := Skb.last_bounds skb e
    have hd' := Skb.last_bounds skb1 e1
    have hstart := (hP.spans hc).start
    have hcmp : Compares r a (skb.last e) c d :=
      compares (by omega) (by omega) (by omega) hcd (by omega) (by omega)
    unfold realInsertTcpPacket insertIv
    rw [(hP.spans hc1).seqRange, ← hd]
    simp only [hcmp.lt, hcmp.end_lt, hcmp.end_ge, hcmp.end_le, hcmp.eq, hcmp.le]
    by_cases hac : a < c
    · rw [if_pos hac, if_pos hac]
      by_cases hbc : skb.last e < c
      · rw [if_pos hbc, if_pos hbc]
        exact ⟨(true, _), rfl, .inl ⟨.cons ⟨e, hc, rfl, he⟩ hall, fun _ => rfl⟩⟩
      · rw [if_neg hbc, if_neg hbc]
        by_cases hdb : d ≤ skb.last e
        · -- skb1 lies in skb and goes
          rw [if_pos hdb, Nat.max_eq_left hdb]
          obtain ⟨res, h1, hcase⟩ := ih hq hgl (by omega) hc ha he
          exact ⟨res, h1, hcase.mono (by omega) (by omega)⟩
        · rw [if_neg hdb]
          cases hfin : skb.tcp.fin with
          | true =>
            exact ⟨(false, _), rfl, .inr ⟨⟨skb, skb1, a, e, c, e1, hc, hc1, hfin, by omega⟩,
              rfl, _, hall, hasc⟩⟩
          | false =>
            -- skb1 goes on where skb ends
            have hbe := Skb.last_of_not_fin hfin e
            obtain ⟨cut, hcut, hlen, hlink⟩ :=
              hP.join hc hc1 (show c ≤ e by omega) (show e ≤ e1 by omega)
            have hend : rebase origin r e + ofNat 32 cut.dgramLen
                + (if skb1.tcp.fin then 1#32 else 0#32) = rebase origin r d := by
              rw [finWord, rebase_add, rebase_add, hd, hlen]
              congr 1
              unfold Skb.last
              omega
            have hlast : (linked skb skb1 cut).last e1 = d := hd.symm
            rw [if_neg Bool.false_ne_true, Nat.max_eq_right (by omega),
              rebase_sub (by omega) (by omega), hbe, hcut]
            dsimp only
            rw [hend, ← linked]
            obtain ⟨res, h1, hcase⟩ := ih hq hgl (by omega) hlink ha he1
            rw [hlast] at h1 hcase
            exact ⟨res, h1, hcase.mono (by omega) (by omega)⟩
    · rw [if_neg hac, if_neg hac]
      by_cases hbd : skb.last e ≤ d
      · -- skb lies in skb1
        rw [if_pos hbd, if_pos hbd]
        exact ⟨(false, _), rfl, .inl ⟨hall, fun hlt => absurd hlt (by omega)⟩⟩
      · rw [if_neg hbd, if_neg hbd]
        by_cases hac' : a = c
        · -- skb takes the place of skb1
          rw [if_pos hac', if_pos hac']
          exact ⟨(true, _), rfl, .inl ⟨.cons ⟨e, hc, rfl, he⟩ hq, fun _ => rfl⟩⟩
        · rw [if_neg hac', if_neg hac']
          by_cases had : a ≤ d
          · rw [if_pos had, if_pos had]
            cases hfin : skb1.tcp.fin with
            | true =>
              exact ⟨(false, _), rfl, .inr ⟨⟨skb1, skb, c, e1, a, e, hc1, hc, hfin,
                by omega⟩, rfl, _, hall, hasc⟩⟩
            | false =>
              -- skb goes on where skb1 ends
              have hde := Skb.last_of_not_fin hfin e1
              obtain ⟨cut, hcut, hlen, hlink⟩ :=
                hP.join hc1 hc (show a ≤ e1 by omega) (show e1 ≤ e by omega)
              rw [if_neg Bool.false_ne_true, rebase_sub had (by omega),
                show d - a = e1 - a by omega, hcut]
              obtain ⟨res, h1, hcase⟩ := ih hq hgl (by omega) hlink (by omega) he
              exact ⟨res, h1, hcase.mono (by omega) (by omega)⟩
          · -- skb lies behind skb1
            rw [if_neg had, if_neg had]
            obtain ⟨⟨ins, l'⟩, h1, hcase⟩ := ih hq hgl (by omega) hc ha he
            rw [h1]
            refine ⟨(ins, skb1 :: l'), rfl, hcase.imp ?_ ?_⟩
            · exact fun h => ⟨.cons ⟨e1, hc1, hd, he1⟩ h.1,
                fun hlt => absurd hlt (by omega)⟩
            · rintro ⟨hclash, hins, ivs', hq', hg'⟩
              exact ⟨hclash, hins, (c, d) :: ivs', .cons ⟨e1, hc1, hd, he1⟩ hq',
                hloc, hcd, hg'⟩

/-- The packets of one stream agree about `fin`. -/
theorem carries_no_clash : ¬ Clash (Carries S) := by
  rintro ⟨p, q, a, e, b, f, hp, hq, hfin, hlt⟩
  have hlast := hp.last_of_fin hfin
  have hle := hq.last_le
  omega

/-- `real_insert_tcp_packet` of a segment of the stream refuses only what
is already there. -/
theorem realInsert_spec (hedge : edge + 1 ≤ r + 2 ^ 16)
    (l : List Skb) {ivs : List (Nat × Nat)} {lo : Nat}
    (hq : Queue S edge l ivs) (hg : Ascending lo ivs) (hlo : r ≤ lo)
    (hc : Carries S skb a e) (ha : r ≤ a) (he : e ≤ edge) :
    ∃ inserted l', realInsertTcpPacket (origin - (S.isn + ofNat 32 r)) l skb
          (rebase origin r a) (rebase origin r (skb.last e)) = .ok (inserted, l')
      ∧ Queue S edge l' (insertIv a (skb.last e) ivs) ∧ (a < lo → inserted = true) := by
  obtain ⟨⟨ins, l'⟩, h1, h2 | ⟨hclash, -⟩⟩ :=
    realInsert_shape carries_shape hedge l hq hg hlo hc ha he
  · exact ⟨ins, l', h1, h2⟩
  · exact absurd hclash carries_no_clash

-- ======== copying to the ring

/-- A packet without urgent data that fits is copied whole. -/
theorem copyChunks_contents (oob : Bool) :
    ∀ (l : List (List Byte)) (ring : RingBuffer) (urgc : Byte) (copied : Nat),
      l.flatten.length ≤ ring.size - ring.count → ∃ ring', copyChunks oob 0 l ring urgc copied
          = (ring', urgc, copied + l.flatten.length)
        ∧ ring'.contents = ring.contents ++ l.flatten ∧ ring'.size = ring.size := by
  intro l
  induction l with
  | nil =>
    intro ring urgc copied _
    exact ⟨ring, rfl, by simp, rfl⟩
  | cons c l ih =>
    intro ring urgc copied hroom
    rw [List.flatten_cons, List.length_append] at hroom
    obtain ⟨hcont, hlen, hsize, hcount⟩ := ring.copyToRing_contents c
    rw [Nat.min_eq_left (by omega)] at hlen hcount
    obtain ⟨ring', h1, h2, h3⟩ := ih (ring.copyToRing c).1 urgc (copied + c.length)
      (by omega)
    unfold copyChunks
    dsimp only
    split
    next hz =>
      -- an empty skbuff is passed over
      obtain rfl := List.eq_nil_of_length_eq_zero hz
      obtain ⟨ring'', h1', h2', h3'⟩ := ih ring urgc copied (by omega)
      exact ⟨ring'', by rw [h1']; simp, by rw [h2']; simp, h3'⟩
    next =>
      rw [if_neg (by simp), hlen, if_neg (Nat.lt_irrefl _), h1]
      refine ⟨ring', ?_, ?_, by rw [h3, hsize]⟩
      · rw [List.flatten_cons, List.length_append, Nat.add_assoc]
      · rw [h2, hcont, List.take_of_length_le (by omega), List.flatten_cons,
          List.append_assoc]

/-- What the receiving half reads of a connection is the same. -/
structure SameRecv (serv serv' : TcpServ) : Prop where
  ring : serv'.rcvring = serv.rcvring
  list : serv'.rcvskblist = serv.rcvskblist
  seq : serv'.rcvseq = serv.rcvseq
  win : serv'.xmtwin = serv.xmtwin

/-- Noting the window of the other side touches nothing of this. -/
theorem updateRcvwin_ok (serv : TcpServ) (window : BitVec 16) :
    ∃ serv', updateRcvwin serv window = .ok serv' ∧ SameRecv serv serv' := by
  unfold updateRcvwin
  split
  next h =>
    have hstop : serv.stopDelayTimer
        = .ok { serv with timertype := .none, armed := false } := by
      unfold TcpServ.stopDelayTimer
      rw [if_neg (by rw [h.1]; decide)]
    rw [hstop]
    exact ⟨_, rfl, rfl, rfl, rfl, rfl⟩
  next => exact ⟨_, rfl, rfl, rfl, rfl, rfl⟩

/-- What `insert_tcp_packet` leaves when it copies the first packet. -/
structure Copied (S : Stream) (serv : TcpServ) (p : Skb) (list : List Skb) (pos e : Nat)
    (res : Inserted) : Prop where
  fin : res.fin = p.tcp.fin
  seq : res.serv.rcvseq = serv.rcvseq + ofNat 32 (p.last e - pos)
  contents : res.serv.rcvring.contents = serv.rcvring.contents ++ S.slice pos e
  size : res.serv.rcvring.size = serv.rcvring.size
  win : res.serv.xmtwin = serv.xmtwin - ofNat 16 (e - pos)
  list : p.tcp.fin = false → res.serv.rcvskblist = list

theorem takeFin_rcvseq (serv : TcpServ) (fin : Bool) :
    (takeFin serv fin).rcvseq = serv.rcvseq + ofNat 32 fin.toNat := by
  unfold takeFin
  cases fin <;> simp

theorem takeFin_rcvring (serv : TcpServ) (fin : Bool) :
    (takeFin serv fin).rcvring = serv.rcvring := by
  cases fin <;> rfl

theorem takeFin_xmtwin (serv : TcpServ) (fin : Bool) : (takeFin serv fin).xmtwin = serv.xmtwin := by
  cases fin <;> rfl

theorem takeUrg_of_not_urg (hurg : p.tcp.urg = false) (serv : TcpServ) :
    takeUrg p serv = ({ serv with rcvurgs := 0 }, 0) := by
  unfold takeUrg
  rw [if_neg (by simp [hurg])]

/-- `skb_copy_data` of a packet that fits and has no urgent data. -/
theorem skbCopyData_spec (serv : TcpServ) (hlen : p.dgramLen = p.payload.length)
    (hroom : p.dgramLen ≤ serv.rcvring.size - serv.rcvring.count) :
    ∃ ring', skbCopyData p serv 0 = ({ serv with rcvring := ring' }, p.payload.length)
      ∧ ring'.contents = serv.rcvring.contents ++ p.payload ∧ ring'.size = serv.rcvring.size := by
  obtain ⟨ring', hcopy, hcont, hsize⟩ := copyChunks_contents serv.oobinline
    (p.head :: p.rest) serv.rcvring serv.rcvurgc 0 (by
      exact hlen ▸ hroom)
  rw [List.flatten_cons, Nat.zero_add] at hcopy
  refine ⟨ring', ?_, hcont, hsize⟩
  unfold skbCopyData
  rw [if_neg (Nat.not_lt.2 hroom), hcopy]
  rfl

/-- Copying a packet that fits and has no urgent data. -/
theorem copyFirst_spec (serv : TcpServ) (list : List Skb) (hurg : p.tcp.urg = false)
    (hlen : p.dgramLen = p.payload.length)
    (hroom : p.dgramLen ≤ serv.rcvring.size - serv.rcvring.count) :
    (copyFirst p list serv).fin = p.tcp.fin ∧ (copyFirst p list serv).serv.rcvseq
        = serv.rcvseq + ofNat 32 p.payload.length
      ∧ (copyFirst p list serv).serv.rcvring.contents = serv.rcvring.contents ++ p.payload
      ∧ (copyFirst p list serv).serv.rcvring.size = serv.rcvring.size
      ∧ (copyFirst p list serv).serv.xmtwin = serv.xmtwin - ofNat 16 p.payload.length
      ∧ (copyFirst p list serv).serv.rcvskblist = list := by
  obtain ⟨ring', hcopy, hcont, hsize⟩ := skbCopyData_spec (p := p)
    { serv with xmtwin := serv.xmtwin - ofNat 16 p.dgramLen, rcvurgs := 0 }
    hlen hroom
  have heq : copyFirst p list serv = ⟨true, p.tcp.fin,
      { serv with
        xmtwin := serv.xmtwin - ofNat 16 p.dgramLen
        rcvurgs := 0
        rcvring := ring'
        rcvseq := serv.rcvseq + ofNat 32 p.payload.length
        rcvskblist := list }⟩ := by
    unfold copyFirst
    dsimp only
    rw [takeUrg_of_not_urg hurg]
    rw [hcopy]
  rw [heq, ← hlen]
  exact ⟨rfl, rfl, hcont, hsize, rfl, rfl⟩

/-- The first packet of the queue, once it has come up and fits, goes to
the ring. -/
theorem deliverFirst_spec {pos : Nat} (serv : TcpServ) (list : List Skb)
    (hc : Carries S p pos e) (hnew : pos < p.last e)
    (hroom : e - pos ≤ serv.rcvring.size - serv.rcvring.count) :
    ∃ res, deliverFirst p list serv = .ok res ∧ Copied S serv p list pos e res := by
  obtain ⟨serv1, hwin, hring, -, hseq, hxmt⟩ := updateRcvwin_ok serv p.tcp.window
  have hlen : p.dgramLen - p.tcp.hdrlen = e - pos := by
    rw [hc.len]
    omega
  have hpaylen : p.payload.length = e - pos := by
    rw [hc.data, S.slice_length hc.fits]
  have hstart := hc.start
  have hadd : p.last e - pos = p.tcp.fin.toNat + (e - pos) := by
    unfold Skb.last
    omega
  unfold deliverFirst
  rw [hwin]
  dsimp only
  have hseq2 := takeFin_rcvseq serv1 p.tcp.fin
  have hring2 := takeFin_rcvring serv1 p.tcp.fin
  have hxmt2 := takeFin_xmtwin serv1 p.tcp.fin
  rw [hseq] at hseq2
  rw [hring] at hring2
  rw [hxmt] at hxmt2
  generalize takeFin serv1 p.tcp.fin = serv2 at *
  rw [hlen]
  by_cases hz : e - pos = 0
  · -- nothing but fin
    have hfin : p.tcp.fin = true := by
      by_contra hf
      rw [Skb.last_of_not_fin (by simpa using hf)] at hnew
      omega
    have hslice : S.slice pos e = [] := List.eq_nil_of_length_eq_zero (by
      rw [S.slice_length hc.fits, hz])
    rw [if_pos hz, if_neg (by simp [hfin])]
    refine ⟨_, rfl, hfin.symm, ?_, ?_, ?_, ?_, by simp [hfin]⟩
    · rw [hadd, hz, Nat.add_zero, hseq2]
    · rw [hring2, hslice, List.append_nil]
    · rw [hring2]
    · rw [hxmt2, hz]
      simp
  · rw [if_neg hz]
    obtain ⟨h1, h2, h3, h4, h5, h6⟩ := copyFirst_spec
      (p := { p with dgramLen := e - pos }) serv2 list hc.urg hpaylen.symm (by
        rw [hring2]
        exact hroom)
    have hpay : Skb.payload { p with dgramLen := e - pos } = p.payload := rfl
    rw [hpay, hpaylen, hseq2] at h2
    rw [hpay, hc.data, hring2] at h3
    rw [hring2] at h4
    rw [hpay, hpaylen, hxmt2] at h5
    refine ⟨_, rfl, h1, ?_, h3, h4, h5, fun _ => h6⟩
    rw [h2, hadd, BitVec.ofNat_add, BitVec.add_assoc]

end Cnix.Net
