/-
The fragments of a datagram, one after the other.

`IsDatagram` is a list of fragments that make up one datagram. As long as
no offset comes twice, and no fragment comes in before the first of two or
more that wait, `cons_ip_dgram` hands out the datagram when the last of
its fragments has come and not before. A fragment that comes twice makes
it read an `skbuff` it has just freed.
-/
import Mathlib.Data.List.Sort
import Cnix.Lib.Runs
import Cnix.Net.Proofs.FragTable

namespace Cnix.Net

open Lib FragTable
open List (mem_cons_self)

variable {n : Nat} {t : FragTable n} {head p : Fin n} {l : List (Fin n)} {k : IpHdr} {F S : List Skbuff}

-- ======== the fragments

/-- The data of a fragment. -/
def Skbuff.content (s : Skbuff) : List Byte :=
  cells s.data (s.dataPtr + s.ip.hdrLen) (s.ip.totLen - s.ip.hdrLen)

/-- One fragment lies before the other. -/
def Skbuff.Lower (a b : Skbuff) : Prop := a.ip.offset < b.ip.offset

/-- The fragments of one datagram, by offset. -/
structure IsDatagram (k : IpHdr) (F : List Skbuff) : Prop where
  two : 2 ≤ F.length
  same : ∀ s ∈ F, k.Same s.ip
  sorted : F.Pairwise Skbuff.Lower
  whole : whole (F.map Skbuff.ip) = true
  more : ∀ s ∈ F.dropLast, s.ip.more = true

instance : Std.Antisymm Skbuff.Lower := ⟨fun _ _ h h' => absurd h (Nat.lt_asymm h')⟩

theorem lower_nodup (h : S.Pairwise Skbuff.Lower) : S.Nodup :=
  h.imp fun hlt he => by
    subst he
    exact Nat.lt_irrefl _ hlt

theorem lower_sublist (hS : S.Pairwise Skbuff.Lower) (hF : F.Pairwise Skbuff.Lower) (hsub : ∀ s ∈ S, s ∈ F) :
    S.Sublist F :=
  List.sublist_of_subperm_of_pairwise ((lower_nodup hS).subperm hsub) hS hF

/-- Some of the fragments that look like all of them are all of them. -/
theorem contiguous_sublist {idx : Int} (hsub : S.Sublist F) (hF : F.Pairwise Skbuff.Lower)
    (hmore : ∀ s ∈ F.dropLast, s.ip.more = true) (hfull : contiguous idx (F.map Skbuff.ip) = true)
    (hS : contiguous idx (S.map Skbuff.ip) = true) (hfirstF : ∀ s ∈ F.head?, (s.ip.offset : Int) = idx)
    (hfirstS : ∀ s ∈ S.head?, (s.ip.offset : Int) = idx) : S = F := by
  induction F generalizing S idx with
  | nil => exact List.sublist_nil.1 hsub
  | cons f F ih =>
    obtain ⟨hlow, hF'⟩ := List.pairwise_cons.1 hF
    cases S with
    | nil => cases hS
    | cons s S =>
      have hf : (f.ip.offset : Int) = idx := hfirstF f rfl
      have hs : (s.ip.offset : Int) = idx := hfirstS s rfl
      -- the first ones are the same
      obtain rfl : s = f := by
        rcases List.mem_cons.1 (hsub.subset mem_cons_self) with rfl | hmem
        · rfl
        · have : f.ip.offset < s.ip.offset := hlow s hmem
          omega
      have hsub' : S.Sublist F := List.cons_sublist_cons.1 hsub
      cases F with
      | nil => rw [List.sublist_nil.1 hsub']
      | cons f' F =>
        cases S with
        | nil =>
          have hm : s.ip.more = true := hmore s mem_cons_self
          have hnot : (!s.ip.more) = true := hS
          rw [hm] at hnot
          cases hnot
        | cons s' S =>
          have hfull' : (decide (idx + s.ip.dataLen = f'.ip.offset)
            && contiguous (idx + s.ip.dataLen) ((f' :: F).map Skbuff.ip)) = true := hfull
          have hS' : (decide (idx + s.ip.dataLen = s'.ip.offset)
            && contiguous (idx + s.ip.dataLen) ((s' :: S).map Skbuff.ip)) = true := hS
          rw [Bool.and_eq_true, decide_eq_true_iff] at hfull' hS'
          refine congrArg (s :: ·) (ih hsub' hF' (fun x hx => hmore x (List.mem_cons_of_mem _ hx))
            hfull'.2 hS'.2 (fun x hx => ?_) (fun x hx => ?_))
          · cases hx
            exact hfull'.1.symm
          · cases hx
            exact hS'.1.symm

theorem whole_iff {c : List IpHdr} : whole c = true ↔
    (∀ ip ∈ c.head?, ip.offset = 0) ∧ contiguous 0 c = true := by
  cases c with
  | nil => simp [whole, contiguous]
  | cons ip c => simp [whole]

/-- Fragments that are there are all of them when `have_all_packet` says
so. -/
theorem IsDatagram.whole_iff_eq (hF : IsDatagram k F) (hS : S.Pairwise Skbuff.Lower) (hsub : ∀ s ∈ S, s ∈ F) :
    Net.whole (S.map Skbuff.ip) = true ↔ S = F := by
  refine ⟨fun hw => ?_, fun he => he ▸ hF.whole⟩
  obtain ⟨hfirstS, hcS⟩ := whole_iff.1 hw
  obtain ⟨hfirstF, hcF⟩ := whole_iff.1 hF.whole
  refine contiguous_sublist (lower_sublist hS hF.sorted hsub) hF.sorted hF.more hcF hcS (fun s hs => ?_)
    (fun s hs => ?_)
  · have := hfirstF s.ip (by rw [List.head?_map]; exact Option.mem_map_of_mem _ hs)
    omega
  · have := hfirstS s.ip (by rw [List.head?_map]; exact Option.mem_map_of_mem _ hs)
    omega

/-- Each fragment ends before all that come later. -/
theorem contiguous_before {idx : Int} (hF : F.Pairwise Skbuff.Lower) (hfull : contiguous idx (F.map Skbuff.ip) = true)
    (hfirst : ∀ s ∈ F.head?, (s.ip.offset : Int) = idx) :
    F.Pairwise fun a b => (a.ip.offset : Int) + a.ip.dataLen ≤ b.ip.offset := by
  induction F generalizing idx with
  | nil => exact .nil
  | cons f F ih =>
    obtain ⟨-, hF'⟩ := List.pairwise_cons.1 hF
    cases F with
    | nil => exact List.pairwise_singleton _ _
    | cons f' F =>
      have hfull' : (decide (idx + f.ip.dataLen = f'.ip.offset)
        && contiguous (idx + f.ip.dataLen) ((f' :: F).map Skbuff.ip)) = true := hfull
      rw [Bool.and_eq_true, decide_eq_true_iff] at hfull'
      have hf : (f.ip.offset : Int) = idx := hfirst f rfl
      refine List.pairwise_cons.2 ⟨fun b hb => ?_, ih hF' hfull'.2 (fun x hx => ?_)⟩
      · rcases List.mem_cons.1 hb with rfl | hb
        · omega
        · have : f'.ip.offset < b.ip.offset := (List.pairwise_cons.1 hF').1 b hb
          omega
      · cases hx
        exact hfull'.1.symm

theorem IsDatagram.before (hF : IsDatagram k F) {a b : Skbuff} (ha : a ∈ F) (hb : b ∈ F) (hab : a.Lower b) :
    (a.ip.offset : Int) + a.ip.dataLen ≤ b.ip.offset := by
  obtain ⟨hfirst, hc⟩ := whole_iff.1 hF.whole
  have hpair := contiguous_before hF.sorted hc (fun s hs => by
    have := hfirst s.ip (by rw [List.head?_map]; exact Option.mem_map_of_mem _ hs)
    omega)
  obtain ⟨l1, l2, rfl⟩ := List.append_of_mem hb
  rcases List.mem_append.1 ha with ha | ha
  · exact (List.pairwise_append.1 hpair).2.2 a ha b mem_cons_self
  · -- `a` is not behind `b`
    have hsorted := (List.pairwise_append.1 hF.sorted).2.1
    rcases List.mem_cons.1 ha with rfl | ha
    · exact absurd hab (Nat.lt_irrefl _)
    · exact absurd hab (Nat.lt_asymm ((List.pairwise_cons.1 hsorted).1 a ha))

-- ======== the datagram

/-- What a datagram carries: the first `skbuff` still has its header. -/
def FragTable.payload (t : FragTable n) (head : Fin n) (l : List (Fin n)) : List Byte :=
  let s := t.skb head
  cells s.data (s.dataPtr + s.ip.hdrLen) (s.dlen - (s.dataPtr + s.ip.hdrLen)) ++
    l.flatMap fun q => cells (t.skb q).data (t.skb q).dataPtr ((t.skb q).dlen - (t.skb q).dataPtr)

/-- After `trim_packets_header` it is the data of the fragments. -/
theorem payload_trimAll {t' : FragTable n} (hskb : t'.skb = t.trimAll head l) (hhead : head ∉ l) :
    t'.payload head l = ((head :: l).map t.skb).flatMap Skbuff.content := by
  rw [payload, hskb, List.map_cons, List.flatMap_cons, List.flatMap_map]
  have hfirst : t.trimAll head l head = t.joined head l := if_pos rfl
  rw [hfirst]
  refine congrArg₂ (· ++ ·) ?_ (List.flatMap_congr fun q hq => ?_)
  · refine congrArg (cells _ _) ?_
    show (t.skb head).dataPtr + (t.skb head).ip.totLen - ((t.skb head).dataPtr + (t.skb head).ip.hdrLen) = _
    rw [Nat.add_sub_add_left]
  · have hqh : q ≠ head := fun he => hhead (he ▸ hq)
    rw [trimAll, if_neg hqh, if_pos hq]
    refine congrArg (cells _ _) ?_
    show (t.skb q).dataPtr + (t.skb q).ip.totLen - ((t.skb q).dataPtr + (t.skb q).ip.hdrLen) = _
    rw [Nat.add_sub_add_left]

/-- The entries of a datagram in the hash table and in the queue. -/
def FragTable.entries (t : FragTable n) (k : IpHdr) : Nat × Nat :=
  ((t.hash k.hash).countP fun q => k.Same (t.skb q).ip, t.queue.countP fun x => k.Same (t.skb x.skb).ip)

theorem FragTable.Absent.entries_eq (h : t.Absent k) : t.entries k = (0, 0) := by
  refine Prod.ext (List.countP_eq_zero.2 fun q hq => ?_) (List.countP_eq_zero.2 fun x hx => ?_)
  · simpa using (h.hashed _ q hq).2
  · simpa using (h.queued x hx).2

theorem FragTable.Waiting.entries_eq (h : t.Waiting k head l) : t.entries k = (1, 1) := by
  obtain ⟨c1, c2, hc, hcother⟩ := h.entry
  obtain ⟨d1, x, d2, hd, hx, hdother⟩ := h.node
  have hzero {c : List (Fin n)} (hother : ∀ q ∈ c, t.Other k q) :
      (c.countP fun q => k.Same (t.skb q).ip) = 0 :=
    List.countP_eq_zero.2 fun q hq => by simpa using (hother q hq).2
  have hzero' {c : List (FragNode n)} (hother : ∀ x ∈ c, t.Other k x.skb) :
      (c.countP fun x => k.Same (t.skb x.skb).ip) = 0 :=
    List.countP_eq_zero.2 fun x hx => by simpa using (hother x hx).2
  refine Prod.ext ?_ ?_
  · show (t.hash k.hash).countP _ = 1
    rw [hc, List.countP_append, List.countP_cons_of_pos (by simpa using (h.mine head mem_cons_self).2),
      hzero fun q hq => hcother q (List.mem_append_left _ hq),
      hzero fun q hq => hcother q (List.mem_append_right _ hq)]
  · show t.queue.countP _ = 1
    rw [hd, List.countP_append, List.countP_cons_of_pos (by simpa using hx.2),
      hzero' fun q hq => hdother q (List.mem_append_left _ hq),
      hzero' fun q hq => hdother q (List.mem_append_right _ hq)]

-- ======== runs

/-- What `cons_ip_dgram` said last. -/
inductive Fate (n : Nat)
  | waiting
  | datagram (head : Fin n)
  | fault (f : Fault)

/-- The table, the fragments that have come, and the outcome. -/
structure Defrag (n : Nat) where
  table : FragTable n
  got : List Skbuff
  outcome : Fate n

/-- A fragment comes in as the `skbuff` `ptr`. -/
structure FragEvent (n : Nat) where
  skb : Skbuff
  ptr : Fin n
  now : Nat

def FragEvent.apply (d : Defrag n) (e : FragEvent n) : Option (Defrag n) :=
  some (match (d.table.receive e.ptr e.skb).consIpDgram e.now e.ptr with
    | .ok (t, none) => ⟨t, d.got ++ [e.skb], .waiting⟩
    | .ok (t, some head) => ⟨t, d.got ++ [e.skb], .datagram head⟩
    | .error f => ⟨d.table, d.got ++ [e.skb], .fault f⟩)

/-- It is one of the datagram, which is not complete, in an `skbuff` that
was free. -/
def FragEvent.Fair (F : List Skbuff) (d : Defrag n) (e : FragEvent n) : Prop :=
  e.skb ∈ F ∧ d.outcome = .waiting ∧ d.table.live e.ptr = false

/-- Nothing has come. -/
structure Defrag.First (k : IpHdr) (d : Defrag n) : Prop where
  absent : d.table.Absent k
  got : d.got = []
  outcome : d.outcome = .waiting

/-- The runs of `cons_ip_dgram` on the fragments of a datagram. -/
abbrev DefragRun (k : IpHdr) (ok : Defrag n → FragEvent n → Prop) : Defrag n → Prop :=
  Reached (Defrag.First k) FragEvent.apply ok

/-- The datagram is handed out, all of it, when all fragments have come,
and until then it waits, with one entry in the hash table and one in the
queue. -/
structure Defrag.Right (k : IpHdr) (F : List Skbuff) (d : Defrag n) : Prop where
  faultless : ∀ f, d.outcome ≠ .fault f
  waits : (∃ s ∈ F, s ∉ d.got) → d.outcome = .waiting
  complete : (∀ s ∈ F, s ∈ d.got) → ∃ head l, d.outcome = .datagram head ∧ d.table.list.Ring head l ∧
    d.table.payload head l = F.flatMap Skbuff.content
  kept : d.got ≠ [] → (∃ s ∈ F, s ∉ d.got) → d.table.entries k = (1, 1)
  gone : (∀ s ∈ F, s ∈ d.got) → d.table.entries k = (0, 0)
  timer : (∀ s ∈ F, s ∈ d.got) → d.table.queue = [] → d.table.timer = false

/-- No offset has come before, and the fragment does not belong before the
first of two or more. -/
def FragEvent.Clean (F : List Skbuff) (d : Defrag n) (e : FragEvent n) : Prop :=
  e.Fair F d ∧ (∀ g ∈ d.got, g.ip.offset ≠ e.skb.ip.offset) ∧
    (2 ≤ d.got.length → ∃ g ∈ d.got, g.Lower e.skb)

-- ======== the invariant

inductive Defrag.Inv (k : IpHdr) (F : List Skbuff) : Defrag n → Prop
  | fresh (t : FragTable n) : t.Absent k → Defrag.Inv k F ⟨t, [], .waiting⟩
  | waiting (t : FragTable n) (got : List Skbuff) (head : Fin n) (l : List (Fin n)) : t.Waiting k head l →
      ((head :: l).map t.skb).Perm got → (∀ s ∈ got, s ∈ F) → (∃ s ∈ F, s ∉ got) →
      Defrag.Inv k F ⟨t, got, .waiting⟩
  | done (t : FragTable n) (got : List Skbuff) (head : Fin n) (l : List (Fin n)) : t.Absent k →
      t.list.Ring head l → t.payload head l = F.flatMap Skbuff.content → (∀ s ∈ F, s ∈ got) →
      (t.queue = [] → t.timer = false) → Defrag.Inv k F ⟨t, got, .datagram head⟩

theorem Defrag.Inv.right (hF : IsDatagram k F) {d : Defrag n} (h : d.Inv k F) : d.Right k F := by
  have hsome : ∃ s, s ∈ F := List.exists_mem_of_length_pos (Nat.lt_of_lt_of_le (by decide) hF.two)
  cases h with
  | fresh t habsent =>
    obtain ⟨s, hs⟩ := hsome
    have hnot : ¬ ∀ s ∈ F, s ∈ ([] : List Skbuff) := fun hall => absurd (hall s hs) List.not_mem_nil
    exact ⟨fun f hf => (by cases hf), fun _ => rfl, fun hall => absurd hall hnot, fun hgot => absurd rfl hgot,
      fun hall => absurd hall hnot, fun hall => absurd hall hnot⟩
  | waiting t got head l hwait hperm hsub hmiss =>
    obtain ⟨s, hs, hnot⟩ := hmiss
    exact ⟨fun f hf => (by cases hf), fun _ => rfl, fun hall => absurd (hall s hs) hnot,
      fun _ _ => hwait.entries_eq, fun hall => absurd (hall s hs) hnot, fun hall => absurd (hall s hs) hnot⟩
  | done t got head l habsent hring hpay hall htimer =>
    exact ⟨fun f hf => (by cases hf), fun ⟨s, hs, hnot⟩ => absurd (hall s hs) hnot,
      fun _ => ⟨head, l, rfl, hring, hpay⟩, fun _ ⟨s, hs, hnot⟩ => absurd (hall s hs) hnot,
      fun _ => habsent.entries_eq, fun _ => htimer⟩

/-- A datagram has more than one fragment. -/
theorem IsDatagram.exists_other (hF : IsDatagram k F) (s : Skbuff) : ∃ f ∈ F, f ≠ s := by
  match F, hF.two with
  | a :: b :: F, _ =>
    by_cases ha : a = s
    · refine ⟨b, by simp, fun hb => ?_⟩
      have hab : a.Lower b := (List.pairwise_cons.1 hF.sorted).1 b mem_cons_self
      rw [ha, hb] at hab
      exact Nat.lt_irrefl _ hab
    · exact ⟨a, mem_cons_self, ha⟩

/-- A fragment with an offset of its own, that reaches over no other one
and does not come before two or more, goes into the ring. -/
theorem insertPacket_clean (h : t.Chained head l) (hp : t.live p = true) (hpl : p ∉ head :: l)
    (hne : ∀ q ∈ head :: l, t.off q ≠ t.off p) (hfront : t.off p < t.off head → l = [])
    (hbefore : ∀ q ∈ head :: l, (t.off p < t.off q → t.Before p q) ∧ (t.off q < t.off p → t.Before q p)) :
    ∃ lk h1 l1, t.insertPacket head p = .ok ({ t with list := lk }, h1) ∧
      ({ t with list := lk } : FragTable n).Chained h1 l1 ∧ (h1 :: l1).Perm (p :: head :: l) := by
  have hhead := hne head mem_cons_self
  rcases Nat.lt_or_gt_of_ne hhead with hlt | hgt
  · obtain ⟨r1, x, r2, hsplit, hx, hr2, hins⟩ := insertPacket_after h hp hlt hne
    have hxmem : x ∈ head :: l := by
      rw [hsplit]
      simp
    obtain ⟨l', hl', hchain⟩ := h.after hp hpl hsplit hx hr2
    refine ⟨_, head, l', ?_, hchain, ?_⟩
    · rw [hins, if_pos ((hbefore x hxmem).2 hx)]
    · rw [hl', hsplit]
      have hmid : (r1 ++ x :: p :: r2).Perm (p :: (r1 ++ x :: r2)) := by
        have hswap : (r1 ++ x :: p :: r2).Perm (r1 ++ p :: x :: r2) :=
          List.Perm.append_left r1 (List.Perm.swap p x r2)
        exact hswap.trans List.perm_middle
      exact hmid
  · obtain rfl := hfront hgt
    refine ⟨_, p, [head], ?_, h.front hp hgt, List.Perm.refl _⟩
    rw [insertPacket_front h hp hgt, if_pos ((hbefore head mem_cons_self).1 hgt)]

/-- The first fragment. -/
theorem Defrag.Inv.step_first (hF : IsDatagram k F) (h : t.Absent k) {e : FragEvent n} (hmem : e.skb ∈ F)
    (hfree : t.live e.ptr = false) {d' : Defrag n} (hs : e.apply ⟨t, [], .waiting⟩ = some d') : d'.Inv k F := by
  obtain ⟨t', hcons, hwait, hskb, -, -⟩ := cons_first (h.receive hfree) (receive_mine t (hF.same e.skb hmem))
    (receive_self t e.skb) e.now
  simp only [FragEvent.apply, hcons] at hs
  cases hs
  refine .waiting t' _ e.ptr [] hwait ?_ (fun s hs => ?_) ?_
  · rw [List.map_singleton, hskb, receive_new]
    exact List.Perm.refl _
  · obtain rfl := List.mem_singleton.1 hs
    exact hmem
  · obtain ⟨f, hf, hne⟩ := hF.exists_other e.skb
    exact ⟨f, hf, fun hm => hne (List.mem_singleton.1 hm)⟩

/-- Every later fragment. -/
theorem Defrag.Inv.step_next (hF : IsDatagram k F) {got : List Skbuff} (h : t.Waiting k head l)
    (hperm : ((head :: l).map t.skb).Perm got) (hsub : ∀ s ∈ got, s ∈ F) {e : FragEvent n}
    (hclean : e.Clean F ⟨t, got, .waiting⟩) {d' : Defrag n} (hs : e.apply ⟨t, got, .waiting⟩ = some d') :
    d'.Inv k F := by
  obtain ⟨⟨hmem, -, hfree⟩, hnew, hlow⟩ := hclean
  have hfree' : t.live e.ptr = false := hfree
  have hpl : e.ptr ∉ head :: l := h.chain.not_mem hfree'
  have hwait := h.receive (s := e.skb) hfree'
  have hmine := receive_mine (p := e.ptr) t (hF.same e.skb hmem)
  have hskb (q : Fin n) (hq : q ∈ head :: l) := (receive_old e.skb (h.chain.live q hq) hfree').2
  have hself := receive_new t e.ptr e.skb
  have hgot (q : Fin n) (hq : q ∈ head :: l) : t.skb q ∈ got :=
    hperm.subset (List.mem_map_of_mem hq)
  -- it goes into the ring
  obtain ⟨lk, h1, l1, hins, hchain, hperm1⟩ := insertPacket_clean hwait.chain hmine.1 hpl
    (fun q hq => by
      unfold off
      rw [hskb q hq, hself]
      exact hnew _ (hgot q hq))
    (fun hlt => by
      by_contra hl
      unfold off at hlt
      rw [hself, hskb head mem_cons_self] at hlt
      have hlen : 2 ≤ got.length := by
        rw [← hperm.length_eq, List.length_map, List.length_cons]
        have := List.length_pos_iff.2 hl
        omega
      obtain ⟨g, hg, hglow⟩ := hlow hlen
      obtain ⟨q, hq, rfl⟩ := List.mem_map.1 (hperm.symm.subset hg)
      have hglow' : (t.skb q).ip.offset < e.skb.ip.offset := hglow
      rcases List.mem_cons.1 hq with rfl | hq
      · omega
      · have : t.off head < t.off q := (List.pairwise_cons.1 h.chain.sorted).1 q hq
        unfold off at this
        omega)
    (fun q hq => by
      unfold Before off
      rw [hskb q hq, hself]
      exact ⟨fun hlt => hF.before hmem (hsub _ (hgot q hq)) hlt, fun hlt => hF.before (hsub _ (hgot q hq)) hmem hlt⟩)
  have hcons := cons_next hwait hmine e.now hins hchain
  -- the fragments that are there now
  have hS : ((h1 :: l1).map (t.receive e.ptr e.skb).skb).Perm (got ++ [e.skb]) := by
    refine (hperm1.map _).trans ?_
    rw [List.map_cons, hself, List.map_congr_left hskb]
    exact (hperm.cons e.skb).trans (List.perm_append_singleton e.skb got).symm
  have hsorted : ((h1 :: l1).map (t.receive e.ptr e.skb).skb).Pairwise Skbuff.Lower :=
    List.pairwise_map.2 hchain.sorted
  have hsub' : ∀ s ∈ got ++ [e.skb], s ∈ F :=
    List.forall_mem_append.2 ⟨hsub, List.forall_mem_singleton.2 hmem⟩
  have hwhole := hF.whole_iff_eq hsorted (fun s hs => hsub' s (hS.subset hs))
  have hnext : ((({ t.receive e.ptr e.skb with list := lk } : FragTable n).rehash head h1)).Waiting k h1 l1 :=
    hwait.next rfl rfl (fun q hq => hq) (fun x _ hx => hx) hchain (fun q hq => by
      rcases List.mem_cons.1 (hperm1.subset hq) with rfl | hq
      · exact hmine
      · exact hwait.mine q hq)
  obtain ⟨hskb', -⟩ := rehash_fields ({ t.receive e.ptr e.skb with list := lk } : FragTable n) head h1
  have hips : (({ t.receive e.ptr e.skb with list := lk } : FragTable n).rehash head h1).ips (h1 :: l1)
      = ((h1 :: l1).map (t.receive e.ptr e.skb).skb).map Skbuff.ip := by
    rw [List.map_map, ips, hskb']
    rfl
  rw [← hips] at hwhole
  by_cases hall : (h1 :: l1).map (t.receive e.ptr e.skb).skb = F
  · obtain ⟨t', hfinish, habsent, hlist, hskbs, -, htimer⟩ := hnext.finish (hwhole.2 hall)
    rw [hfinish] at hcons
    simp only [FragEvent.apply, hcons] at hs
    cases hs
    refine .done t' _ h1 l1 habsent ?_ ?_ (fun s hs => hS.subset (hall ▸ hs)) (fun hq => ?_)
    · rw [hlist]
      exact hnext.chain.ring
    · rw [payload_trimAll hskbs (List.nodup_cons.1 hchain.ring.nodup).1, hskb', hall]
    · rw [htimer, hq]
      simp
  · rw [standing, if_neg (fun hw => hall (hwhole.1 hw))] at hcons
    simp only [FragEvent.apply, hcons] at hs
    cases hs
    refine .waiting _ _ h1 l1 hnext ?_ hsub' ?_
    · rw [hskb']
      exact hS
    · -- else they would be all of them
      by_contra hnone
      have hFS : ∀ s ∈ F, s ∈ (h1 :: l1).map (t.receive e.ptr e.skb).skb := by
        intro s hs
        by_contra hnot
        exact hnone ⟨s, hs, fun hm => hnot (hS.symm.subset hm)⟩
      exact hall ((lower_sublist hsorted hF.sorted (fun s hs => hsub' s (hS.subset hs))).antisymm
        (lower_sublist hF.sorted hsorted hFS))

theorem Defrag.Inv.step (hF : IsDatagram k F) {d d' : Defrag n} (h : d.Inv k F) {e : FragEvent n}
    (hclean : e.Clean F d) (hs : e.apply d = some d') : d'.Inv k F := by
  cases h with
  | fresh t habsent => exact step_first hF habsent hclean.1.1 hclean.1.2.2 hs
  | waiting t got head l hwait hperm hsub _ => exact step_next hF hwait hperm hsub hclean hs
  | done t got head l _ _ _ _ _ => cases hclean.1.2.1

/-- In every run of fragments that all come once, and none of them before
the first of two or more. -/
theorem defrag_right (hF : IsDatagram k F) {d : Defrag n} (h : DefragRun k (FragEvent.Clean F) d) :
    d.Right k F := by
  refine Defrag.Inv.right hF (Reached.inv (fun d hd => ?_) (fun d e d' hinv hclean hs => ?_) h)
  · obtain ⟨t, got, outcome⟩ := d
    obtain ⟨habsent, rfl, rfl⟩ := hd
    exact .fresh t habsent
  · exact hinv.step hF hclean hs

-- ======== examples

/-- A fragment of 8 bytes. -/
def piece (fragOff : Nat) : Skbuff :=
  ⟨⟨4, 5, 28, 1, fragOff, 32, 17, 1, 2⟩, fun _ => 0, 14, 42, 28⟩

/-- The first and the last one. -/
def pair : List Skbuff := [piece 8192, piece 1]

theorem pair_isDatagram : IsDatagram (piece 1).ip pair where
  two := by decide
  same := fun s hs => by
    simp only [pair, List.mem_cons, List.not_mem_nil, or_false] at hs
    rcases hs with rfl | rfl <;> exact ⟨rfl, rfl, rfl⟩
  sorted := List.pairwise_cons.2 ⟨fun s hs => by
    obtain rfl := List.mem_singleton.1 hs
    exact (by decide : (piece 8192).ip.offset < (piece 1).ip.offset), List.pairwise_singleton _ _⟩
  whole := by decide
  more := fun s hs => by
    obtain rfl := List.mem_singleton.1 (show s ∈ [piece 8192] from hs)
    decide

theorem empty_first (k : IpHdr) : Defrag.First k (⟨FragTable.empty n, [], .waiting⟩ : Defrag n) :=
  ⟨⟨nofun, nofun⟩, rfl, rfl⟩

/-- The last fragment comes first. -/
theorem defrag_right_pair : ∃ d : Defrag 2, DefragRun (piece 1).ip (FragEvent.Clean pair) d ∧
    d.got = [piece 1, piece 8192] ∧ d.Right (piece 1).ip pair := by
  have hfirst : DefragRun (piece 1).ip (FragEvent.Clean pair)
      (⟨FragTable.empty 2, [], .waiting⟩ : Defrag 2) := .first (empty_first _)
  have hone := hfirst.step (⟨piece 1, 0, 0⟩ : FragEvent 2)
    ⟨⟨by simp [pair], rfl, rfl⟩, nofun, fun h => absurd h (by decide)⟩ rfl
  have htwo := hone.step (⟨piece 8192, 1, 0⟩ : FragEvent 2)
    ⟨⟨by simp [pair], rfl, rfl⟩, fun g hg => by
      obtain rfl := List.mem_singleton.1 (show g ∈ [piece 1] from hg)
      decide, fun h => absurd h (by decide)⟩ rfl
  exact ⟨_, htwo, rfl, defrag_right pair_isDatagram htwo⟩

/-- The first fragment comes twice. -/
theorem fragment_twice : IsDatagram (piece 1).ip pair ∧
    ∃ d : Defrag 2, DefragRun (piece 1).ip (FragEvent.Fair pair) d ∧ ¬ d.Right (piece 1).ip pair := by
  refine ⟨pair_isDatagram, ?_⟩
  have hfirst : DefragRun (piece 1).ip (FragEvent.Fair pair)
      (⟨FragTable.empty 2, [], .waiting⟩ : Defrag 2) := .first (empty_first _)
  have hone := hfirst.step (⟨piece 8192, 0, 0⟩ : FragEvent 2) ⟨by simp [pair], rfl, rfl⟩ rfl
  have htwo := hone.step (⟨piece 8192, 1, 0⟩ : FragEvent 2) ⟨by simp [pair], rfl, rfl⟩ rfl
  exact ⟨_, htwo, fun hright => hright.faultless .freed rfl⟩

-- ======== the length

/-- The header and the data of all fragments of a ring. -/
def FragTable.length (t : FragTable n) (head : Fin n) (l : List (Fin n)) : Int :=
  (t.skb head).ip.hdrLen + ((t.ips (head :: l)).map IpHdr.dataLen).sum

/-- `trim_packets_header` stores the length, and no datagram is handed on
that is longer than its header can say. -/
def FragTable.Measured (t : FragTable n) (head : Fin n) (l : List (Fin n)) : Prop :=
  ∃ t', t.trimPacketsHeader head = .ok t' ∧ ((t'.skb head).ip.totLen : Int) = t.length head l ∧
    t.length head l ≤ 65535

/-- The header has 16 bits for it, which `have_all_packet` does not look
at. -/
theorem measured_iff (h : t.Chained head l) :
    t.Measured head l ↔ 0 ≤ t.length head l ∧ t.length head l ≤ 65535 := by
  have htotal : t.total head l = t.length head l := by
    simp only [total, FragTable.length, ips, List.map_cons, List.sum_cons, IpHdr.dataLen]
    omega
  have hstored : (t.trimAll head l head).ip.totLen = (t.length head l % 2 ^ 16).toNat := by
    simp [trimAll, joined, htotal]
  unfold FragTable.Measured
  rw [trimPacketsHeader_eq h]
  constructor
  · rintro ⟨t', ht, hlen, hmax⟩
    cases ht
    rw [hstored] at hlen
    omega
  · intro hbounds
    refine ⟨_, rfl, ?_, hbounds.2⟩
    rw [hstored]
    omega

/-- The fragment `i` of a datagram that fills frames of 1500 bytes. -/
def framePiece (last i : Nat) : Skbuff :=
  ⟨⟨4, 5, 1500, 1, 185 * i + (if i = last then 0 else IpHdr.ipMore), 32, 17, 1, 2⟩, fun _ => 0,
    14, 1514, 1500⟩

/-- All its fragments, up to the one with the number `last`. -/
def frames (last : Nat) : FragTable (last + 1) :=
  { FragTable.empty (last + 1) with
    skb := fun p => framePiece last p
    live := fun _ => true
    list := ⟨fun p => p + 1, fun p => p - 1⟩ }

theorem frames_chained {last : Nat} {l : List (Fin (last + 1))}
    (hseg : (frames last).list.Seg 0 l 0)
    (hsorted : (0 :: l).Pairwise ((frames last).off · < (frames last).off ·)) :
    (frames last).Chained 0 l :=
  ⟨⟨hseg, hsorted.imp fun h => ne_of_apply_ne _ h.ne⟩, fun _ _ => rfl, hsorted⟩

/-- A datagram in three frames. -/
theorem measured_three : (frames 2).haveAllPacket 0 = .ok true ∧ (frames 2).Measured 0 [1, 2] := by
  have h : (frames 2).Chained 0 [1, 2] := frames_chained (by decide) (by decide)
  exact ⟨by rw [haveAllPacket_eq h]; decide, (measured_iff h).mpr (by decide)⟩

/-- In 45 frames come 66600 bytes of data, and the header says 1084. -/
theorem datagram_too_long : ∃ l : List (Fin 45), (frames 44).Chained 0 l ∧
    (frames 44).haveAllPacket 0 = .ok true ∧ (frames 44).length 0 l = 66620 ∧
    ((frames 44).trimAll 0 l 0).ip.totLen = 1084 ∧ ¬ (frames 44).Measured 0 l := by
  have h : (frames 44).Chained 0 (List.finRange 45).tail :=
    frames_chained (by decide +kernel) (by decide +kernel)
  refine ⟨_, h, by rw [haveAllPacket_eq h]; decide +kernel, by decide +kernel, by decide +kernel, ?_⟩
  rintro ⟨t', -, -, hmax⟩
  exact absurd hmax (by decide +kernel)

end Cnix.Net
