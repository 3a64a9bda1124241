/-
The hash table and the queue around the ring of one datagram.

`Absent` and `Waiting` say that a datagram has no entry in either, or one
in each, while everything else in them is of other datagrams. A fragment
that comes in takes a datagram from the one to the other (`cons_first`),
and every later one leaves it waiting with a longer ring or, when
`have_all_packet` holds of the ring, absent (`cons_next`).
-/
import Cnix.Lib.Fifo
import Cnix.Net.Proofs.FragChain

namespace Cnix.Net

open Lib FragTable
open Function (update_apply update_self update update_of_ne)

variable {n : Nat} {t t1 u : FragTable n} {head p q h1 : Fin n} {l l1 : List (Fin n)} {k a b : IpHdr}
  {s : Skbuff}

theorem IpHdr.Same.symm (h : a.Same b) : b.Same a :=
  ⟨h.1.symm, h.2.1.symm, h.2.2.symm⟩

theorem IpHdr.Same.trans {c : IpHdr} (h : a.Same b) (h' : b.Same c) : a.Same c :=
  ⟨h.1.trans h'.1, h.2.1.trans h'.2.1, h.2.2.trans h'.2.2⟩

theorem IpHdr.Same.hash_eq (h : a.Same b) : a.hash = b.hash := by
  obtain ⟨hd, hs, hi⟩ := h
  simp only [IpHdr.hash, hd, hs, hi]

namespace FragTable

/-- A fragment in use that is of another datagram. -/
def Other (t : FragTable n) (k : IpHdr) (q : Fin n) : Prop := t.live q = true ∧ ¬ k.Same (t.skb q).ip

/-- A fragment in use that is of this datagram. -/
def Mine (t : FragTable n) (k : IpHdr) (q : Fin n) : Prop := t.live q = true ∧ k.Same (t.skb q).ip

/-- The datagram has no entry. -/
structure Absent (t : FragTable n) (k : IpHdr) : Prop where
  hashed : ∀ b, ∀ q ∈ t.hash b, t.Other k q
  queued : ∀ x ∈ t.queue, t.Other k x.skb

/-- The datagram has one entry in the hash table, its first fragment, and
one in the queue. -/
structure Waiting (t : FragTable n) (k : IpHdr) (head : Fin n) (l : List (Fin n)) : Prop where
  chain : t.Chained head l
  mine : ∀ q ∈ head :: l, t.Mine k q
  entry : ∃ c1 c2, t.hash k.hash = c1 ++ head :: c2 ∧ ∀ q ∈ c1 ++ c2, t.Other k q
  hashed : ∀ b, b ≠ k.hash → ∀ q ∈ t.hash b, t.Other k q
  node : ∃ c1 x c2, t.queue = c1 ++ x :: c2 ∧ t.Mine k x.skb ∧ ∀ y ∈ c1 ++ c2, t.Other k y.skb

theorem Other.ne_mine (hp : t.Mine k p) (hq : t.Other k q) : q ≠ p := by
  rintro rfl
  exact hq.2 hp.2

-- ======== a frame

theorem receive_skb (t : FragTable n) (p : Fin n) (s : Skbuff) (q : Fin n) :
    (t.receive p s).skb q = if q = p then s else t.skb q := update_apply ..

theorem receive_live (t : FragTable n) (p : Fin n) (s : Skbuff) (q : Fin n) :
    (t.receive p s).live q = if q = p then true else t.live q := update_apply ..

theorem receive_new (t : FragTable n) (p : Fin n) (s : Skbuff) : (t.receive p s).skb p = s := update_self ..

/-- The frame is where the table can see it. -/
theorem receive_mine (t : FragTable n) (hs : k.Same s.ip) : (t.receive p s).Mine k p := by
  refine ⟨update_self .., ?_⟩
  rw [receive_new]
  exact hs

/-- What the table has already stays as it is. -/
theorem receive_old (s : Skbuff) (hq : t.live q = true) (hp : t.live p = false) :
    (t.receive p s).live q = true ∧ (t.receive p s).skb q = t.skb q := by
  have hqp : q ≠ p := by
    rintro rfl
    rw [hq] at hp
    cases hp
  rw [receive_live, receive_skb, if_neg hqp, if_neg hqp]
  exact ⟨hq, rfl⟩

theorem receive_self (t : FragTable n) (s : Skbuff) : (t.receive p s).list.Ring p [] :=
  ⟨⟨update_self .., update_self ..⟩, List.nodup_singleton p⟩

theorem Other.receive (h : t.Other k q) (hp : t.live p = false) : (t.receive p s).Other k q := by
  obtain ⟨hlive, hskb⟩ := receive_old s h.1 hp
  refine ⟨hlive, ?_⟩
  rw [hskb]
  exact h.2

theorem Mine.receive (h : t.Mine k q) (hp : t.live p = false) : (t.receive p s).Mine k q := by
  obtain ⟨hlive, hskb⟩ := receive_old s h.1 hp
  refine ⟨hlive, ?_⟩
  rw [hskb]
  exact h.2

theorem Absent.receive (h : t.Absent k) (hp : t.live p = false) : (t.receive p s).Absent k :=
  ⟨fun b q hq => (h.hashed b q hq).receive hp, fun x hx => (h.queued x hx).receive hp⟩

theorem Chained.not_mem (h : t.Chained head l) (hp : t.live p = false) : p ∉ head :: l := by
  intro hmem
  rw [h.live p hmem] at hp
  cases hp

theorem Chained.receive (h : t.Chained head l) (hp : t.live p = false) : (t.receive p s).Chained head l := by
  have hold (q : Fin n) (hq : q ∈ head :: l) := receive_old s (h.live q hq) hp
  refine ⟨(h.skbFree (h.not_mem hp)).ring, fun q hq => (hold q hq).1, ?_⟩
  refine h.sorted.imp_of_mem fun ha hb hab => ?_
  unfold off at hab ⊢
  rwa [(hold _ ha).2, (hold _ hb).2]

theorem Waiting.receive (h : t.Waiting k head l) (hp : t.live p = false) :
    (t.receive p s).Waiting k head l := by
  obtain ⟨c1, c2, hc, hother⟩ := h.entry
  obtain ⟨d1, x, d2, hd, hx, hdother⟩ := h.node
  exact ⟨h.chain.receive hp, fun q hq => (h.mine q hq).receive hp,
    ⟨c1, c2, hc, fun q hq => (hother q hq).receive hp⟩, fun b hb q hq => (h.hashed b hb q hq).receive hp,
    ⟨d1, x, d2, hd, hx.receive hp, fun y hy => (hdother y hy).receive hp⟩⟩

-- ======== the first fragment

/-- A fragment of a datagram that has no entry is queued. -/
theorem cons_first (h : t.Absent k) (hp : t.Mine k p) (hself : t.list.Ring p []) (now : Nat) :
    ∃ t', t.consIpDgram now p = .ok (t', none) ∧ t'.Waiting k p [] ∧ t'.skb = t.skb ∧ t'.live = t.live ∧
      t'.timer = true := by
  have hhash : (t.skb p).ip.hash = k.hash := hp.2.symm.hash_eq
  have hnot (q : Fin n) (hq : t.Other k q) : ¬ (t.skb p).ip.Same (t.skb q).ip :=
    fun hs => hq.2 (hp.2.trans hs)
  have hfind : t.getIpHashEntry (t.skb p).ip = .ok none :=
    hashFind_none (fun q hq => (h.hashed _ q hq).1) (fun q hq => hnot q (h.hashed _ q hq))
  obtain ⟨c1, c2, hsplit, hqueue⟩ := addToFragQueue_perm ⟨p, now⟩ t.queue
  refine ⟨({ t with queue := addToFragQueue ⟨p, now⟩ t.queue, timer := true } : FragTable n).addIpHashEntry
    (t.skb p).ip p, ?_, ?_, rfl, rfl, rfl⟩
  · rw [consIpDgram, ip_live hp.1]
    simp only [bind, Except.bind, hfind]
    rfl
  · refine ⟨⟨hself, fun q hq => ?_, List.pairwise_singleton _ _⟩, fun q hq => ?_, ⟨[], t.hash k.hash, ?_, ?_⟩, ?_,
      ⟨c1, ⟨p, now⟩, c2, hqueue, hp, fun y hy => ?_⟩⟩
    · exact List.mem_singleton.1 hq ▸ hp.1
    · exact List.mem_singleton.1 hq ▸ hp
    · show update t.hash (t.skb p).ip.hash (p :: t.hash (t.skb p).ip.hash) k.hash = _
      rw [hhash, update_self]
      rfl
    · exact fun q hq => h.hashed k.hash q hq
    · intro b hb q hq
      have hq' : q ∈ update t.hash (t.skb p).ip.hash (p :: t.hash (t.skb p).ip.hash) b := hq
      rw [hhash, update_of_ne hb] at hq'
      exact h.hashed b q hq'
    · refine h.queued y ?_
      rw [hsplit]
      exact hy

-- ======== the other ones

/-- `update the hash table`. -/
def rehash (t : FragTable n) (head h : Fin n) : FragTable n :=
  if h ≠ head then (t.delHash head).addIpHashEntry (t.skb h).ip h else t

/-- What is left of `cons_ip_dgram` when the ring stands. -/
def standing (t : FragTable n) (head : Fin n) (l : List (Fin n)) : Except Fault (FragTable n × Option (Fin n)) :=
  if whole (t.ips (head :: l)) then do
    let t ← t.delFromFragQueue head
    let t ← (t.delHash head).trimPacketsHeader head
    return (t, some head)
  else .ok (t, none)

theorem rehash_fields (t : FragTable n) (head h : Fin n) :
    (t.rehash head h).skb = t.skb ∧ (t.rehash head h).live = t.live ∧ (t.rehash head h).list = t.list ∧
      (t.rehash head h).queue = t.queue := by
  unfold rehash
  split <;> exact ⟨rfl, rfl, rfl, rfl⟩

/-- The ring that `insert_packet` leaves: it has no other members than
there were and the fragment. -/
structure Seated (t : FragTable n) (p : Fin n) (s : Skbuff) (head : Fin n) (l : List (Fin n))
    (u : FragTable n) (h1 : Fin n) (l1 : List (Fin n)) : Prop where
  ins : (t.receive p s).insertPacket head p = .ok (u, h1)
  chain : u.Chained h1 l1
  skb : u.skb = (t.receive p s).skb
  hash : u.hash = t.hash
  queue : u.queue = t.queue
  live : ∀ q, q ≠ p → u.live q = t.live q
  mem : ∀ q ∈ h1 :: l1, q = p ∨ q ∈ head :: l

/-- Whatever a fragment is, it does not survive, or there is a ring. -/
theorem insertPacket_any (h : t.Chained head l) (hfree : t.live p = false) :
    (t.receive p s).insertPacket head p = .error .freed ∨ ∃ u h1 l1, t.Seated p s head l u h1 l1 := by
  have hpl := h.not_mem hfree
  have hr : (t.receive p s).Chained head l := h.receive hfree
  have hp : (t.receive p s).live p = true := update_self ..
  have hlive (q : Fin n) (hq : q ≠ p) : (t.receive p s).live q = t.live q := by
    rw [receive_live, if_neg hq]
  have hthrown : ((t.receive p s).skbFree p).Chained head l := hr.skbFree hpl
  have hthrown' (q : Fin n) (hq : q ≠ p) : ((t.receive p s).skbFree p).live q = t.live q := by
    show update (t.receive p s).live p false q = _
    rw [update_of_ne hq, hlive q hq]
  by_cases hdup : ∃ q ∈ head :: l, (t.receive p s).off q = (t.receive p s).off p
  · exact .inl (insertPacket_dup hr hp hdup)
  · have hne : ∀ q ∈ head :: l, (t.receive p s).off q ≠ (t.receive p s).off p :=
      fun q hq he => hdup ⟨q, hq, he⟩
    right
    rcases Nat.lt_or_gt_of_ne (hne head List.mem_cons_self) with hlt | hgt
    · obtain ⟨r1, x, r2, hsplit, hx, hr2, hins⟩ := insertPacket_after hr hp hlt hne
      by_cases hb : (t.receive p s).Before x p
      · obtain ⟨l', hl', hchain⟩ := hr.after hp hpl hsplit hx hr2
        refine ⟨_, head, l', by rw [hins, if_pos hb], hchain, rfl, rfl, rfl, hlive, fun q hq => ?_⟩
        rw [hl'] at hq
        rw [hsplit]
        simp only [List.mem_append, List.mem_cons] at hq ⊢
        tauto
      · exact ⟨_, head, l, by rw [hins, if_neg hb], hthrown, rfl, rfl, rfl, hthrown', fun q hq => .inr hq⟩
    · by_cases hb : (t.receive p s).Before p head
      · refine ⟨_, p, [head], by rw [insertPacket_front hr hp hgt, if_pos hb], hr.front hp hgt, rfl, rfl, rfl, hlive,
          fun q hq => ?_⟩
        rcases List.mem_cons.1 hq with hq | hq
        · exact .inl hq
        · exact .inr (List.mem_cons.2 (.inl (List.mem_singleton.1 hq)))
      · exact ⟨_, head, l, by rw [insertPacket_front hr hp hgt, if_neg hb], hthrown, rfl, rfl, rfl, hthrown',
          fun q hq => .inr hq⟩

section Waits

variable (h : t.Waiting k head l)

include h

/-- `get_ip_hash_entry` finds the first fragment. -/
theorem Waiting.find (hp : t.Mine k p) : t.getIpHashEntry (t.skb p).ip = .ok (some head) := by
  have hhash : (t.skb p).ip.hash = k.hash := hp.2.symm.hash_eq
  obtain ⟨c1, c2, hc, hother⟩ := h.entry
  have hhead := h.mine head List.mem_cons_self
  rw [getIpHashEntry, hhash, hc]
  exact hashFind_eq (fun q hq => (hother q (List.mem_append_left _ hq)).1)
    (fun q hq hs => (hother q (List.mem_append_left _ hq)).2 (hp.2.trans hs)) hhead.1 (hp.2.symm.trans hhead.2)

/-- A fault of `insert_packet` is one of `cons_ip_dgram`. -/
theorem cons_fault (hp : t.Mine k p) (now : Nat) {f : Fault}
    (hins : t.insertPacket head p = .error f) : t.consIpDgram now p = .error f := by
  rw [consIpDgram, ip_live hp.1]
  simp only [bind, Except.bind, h.find hp, hins]

theorem cons_next (hp : t.Mine k p) (now : Nat) (hins : t.insertPacket head p = .ok (t1, h1))
    (hchain : t1.Chained h1 l1) : t.consIpDgram now p = (t1.rehash head h1).standing h1 l1 := by
  have hchain' : (t1.rehash head h1).Chained h1 l1 := by
    unfold rehash
    split
    · exact ⟨hchain.ring, hchain.live, hchain.sorted⟩
    · exact hchain
  have hhave := haveAllPacket_eq hchain'
  have hlive := hchain.live h1 List.mem_cons_self
  rw [consIpDgram, ip_live hp.1]
  simp only [bind, Except.bind, h.find hp, hins, ip_live hlive]
  rw [show (if h1 ≠ head then (t1.delHash head).addIpHashEntry (t1.skb h1).ip h1 else t1)
    = t1.rehash head h1 from rfl, hhave, standing]
  cases whole ((t1.rehash head h1).ips (h1 :: l1)) with
  | true | false => rfl

/-- The hash table has the new first fragment for the old one. -/
theorem Waiting.next (hhash : t1.hash = t.hash) (hqueue : t1.queue = t.queue)
    (hother : ∀ q, t.Other k q → t1.Other k q) (hnode : ∀ x ∈ t.queue, t.Mine k x.skb → t1.Mine k x.skb)
    (hchain : t1.Chained h1 l1) (hmine : ∀ q ∈ h1 :: l1, t1.Mine k q) :
    (t1.rehash head h1).Waiting k h1 l1 := by
  obtain ⟨hskb', hlive', hlist', hqueue'⟩ := rehash_fields t1 head h1
  have hother' (q : Fin n) (hq : t.Other k q) : (t1.rehash head h1).Other k q := by
    unfold Other
    rw [hskb', hlive']
    exact hother q hq
  have hmine' (q : Fin n) (hq : t1.Mine k q) : (t1.rehash head h1).Mine k q := by
    unfold Mine
    rw [hskb', hlive']
    exact hq
  obtain ⟨c1, c2, hc, hcother⟩ := h.entry
  obtain ⟨d1, x, d2, hd, hx, hdother⟩ := h.node
  have hhead := h.mine head List.mem_cons_self
  refine ⟨?_, fun q hq => hmine' q (hmine q hq), ?_, fun b hb q hq => ?_, ⟨d1, x, d2, ?_, ?_, ?_⟩⟩
  · refine ⟨?_, ?_, ?_⟩
    · rw [hlist']
      exact hchain.ring
    · rw [hlive']
      exact hchain.live
    · unfold off
      rw [hskb']
      exact hchain.sorted
  · by_cases heq : h1 = head
    · refine ⟨c1, c2, ?_, fun q hq => hother' q (hcother q hq)⟩
      rw [rehash, if_neg (not_not_intro heq), hhash, hc, heq]
    · refine ⟨[], c1 ++ c2, ?_, fun q hq => hother' q (hcother q hq)⟩
      have hk : (t1.skb h1).ip.hash = k.hash := (hmine h1 List.mem_cons_self).2.symm.hash_eq
      have herase : (t1.hash k.hash).erase head = c1 ++ c2 := by
        rw [hhash, hc, List.erase_append_right _ (fun hm => ?_), List.erase_cons_head]
        exact (hcother head (List.mem_append_left _ hm)).ne_mine hhead rfl
      rw [rehash, if_pos heq]
      show update (fun b => (t1.hash b).erase head) (t1.skb h1).ip.hash
        (h1 :: (t1.hash (t1.skb h1).ip.hash).erase head) k.hash = _
      rw [hk, update_self, herase]
      rfl
  · refine hother' q (h.hashed b hb q ?_)
    unfold rehash at hq
    split at hq
    · have hk : (t1.skb h1).ip.hash = k.hash := (hmine h1 List.mem_cons_self).2.symm.hash_eq
      have hq' : q ∈ update (fun b => (t1.hash b).erase head) (t1.skb h1).ip.hash
        (h1 :: (t1.hash (t1.skb h1).ip.hash).erase head) b := hq
      rw [hk, update_of_ne hb, hhash] at hq'
      exact List.mem_of_mem_erase hq'
    · rwa [hhash] at hq
  · rw [hqueue', hqueue, hd]
  · exact hmine' _ (hnode x (by rw [hd]; simp) hx)
  · exact fun y hy => hother' _ (hdother y hy)

/-- A fragment that `insert_packet` has looked at. -/
theorem Waiting.insert (hs : k.Same s.ip) (hfree : t.live p = false) (now : Nat)
    (hseated : t.Seated p s head l u h1 l1) :
    ∃ u' : FragTable n, u'.Waiting k h1 l1 ∧ u'.skb = (t.receive p s).skb ∧ u'.live = u.live ∧
      (t.receive p s).consIpDgram now p = u'.standing h1 l1 := by
  obtain ⟨hins, hchain, hskb, hhash, hqueue, hlive, hmem⟩ := hseated
  have hw : (t.receive p s).Waiting k head l := h.receive hfree
  have hp : (t.receive p s).Mine k p := receive_mine t hs
  obtain ⟨hskb', hlive', -, -⟩ := rehash_fields u head h1
  have hnode (x : FragNode n) (hx : x ∈ t.queue) : t.live x.skb = true := by
    obtain ⟨d1, y, d2, hd, hy, hdother⟩ := h.node
    have hx' : x ∈ d1 ++ y :: d2 := hd ▸ hx
    rcases List.mem_append.1 hx' with hx' | hx'
    · exact (hdother x (List.mem_append_left _ hx')).1
    · rcases List.mem_cons.1 hx' with rfl | hx'
      · exact hy.1
      · exact (hdother x (List.mem_append_right _ hx')).1
  refine ⟨u.rehash head h1, ?_, hskb'.trans hskb, hlive', cons_next hw hp now hins hchain⟩
  · refine hw.next hhash hqueue (fun q hq => ?_) (fun x hx hxm => ?_) hchain (fun q hq => ?_)
    · have hqp : q ≠ p := fun he => hq.2 (he ▸ hp.2)
      have hql := hq.1
      rw [receive_live, if_neg hqp] at hql
      refine ⟨?_, ?_⟩
      · rw [hlive q hqp]
        exact hql
      · rw [hskb]
        exact hq.2
    · have hxl := hnode x hx
      have hxp : x.skb ≠ p := fun he => by
        rw [he, hfree] at hxl
        cases hxl
      refine ⟨?_, ?_⟩
      · rw [hlive x.skb hxp]
        exact hxl
      · rw [hskb]
        exact hxm.2
    · refine ⟨hchain.live q hq, ?_⟩
      rw [hskb]
      rcases hmem q hq with rfl | hq
      · exact hp.2
      · exact (hw.mine q hq).2

/-- A fragment of a datagram that waits. -/
theorem Waiting.arrive (hs : k.Same s.ip) (hfree : t.live p = false) (now : Nat) :
    (∃ f, (t.receive p s).consIpDgram now p = .error f) ∨
    ∃ (u : FragTable n) (h1 : Fin n) (l1 : List (Fin n)), u.Waiting k h1 l1 ∧
      u.skb = (t.receive p s).skb ∧ (∀ q, q ≠ p → u.live q = t.live q) ∧
      (∀ q ∈ h1 :: l1, q = p ∨ q ∈ head :: l) ∧ (t.receive p s).consIpDgram now p = u.standing h1 l1 := by
  rcases insertPacket_any h.chain hfree with hfault | ⟨u, h1, l1, hseated⟩
  · exact .inl ⟨_, cons_fault (h.receive hfree) (receive_mine t hs) now hfault⟩
  · obtain ⟨u', hw, hskb', hlive', hcons⟩ := h.insert hs hfree now hseated
    exact .inr ⟨u', h1, l1, hw, hskb', fun q hq => (congrFun hlive' q).trans (hseated.live q hq), hseated.mem, hcons⟩

/-- A datagram that is complete leaves the queue and the hash table. -/
theorem Waiting.finish (hwhole : whole (t.ips (head :: l)) = true) :
    ∃ t', t.standing head l = .ok (t', some head) ∧ t'.Absent k ∧ t'.list = t.list ∧ t'.skb = t.trimAll head l ∧ t'.live = t.live ∧
      t'.timer = (t.timer && !t'.queue.isEmpty) := by
  obtain ⟨c1, c2, hc, hcother⟩ := h.entry
  obtain ⟨d1, x, d2, hd, hx, hdother⟩ := h.node
  have hhead := h.mine head List.mem_cons_self
  have hdel : t.delFromFragQueue head
      = .ok { t with queue := d1 ++ d2, timer := t.timer && !(d1 ++ d2).isEmpty } := by
    have hq : t.queueDel (t.skb head).ip (d1 ++ x :: d2) = .ok (d1 ++ d2) := queueDel_eq
      (fun y hy => (hdother y (List.mem_append_left _ hy)).1)
      (fun y hy hs => (hdother y (List.mem_append_left _ hy)).2 (hhead.2.trans hs.symm)) hx.1
      (hx.2.symm.trans hhead.2)
    rw [delFromFragQueue, ip_live hhead.1]
    simp only [bind, Except.bind]
    rw [hd, hq]
    rfl
  let u : FragTable n :=
    ({ t with queue := d1 ++ d2, timer := t.timer && !(d1 ++ d2).isEmpty } : FragTable n).delHash head
  have hu : u.Chained head l := ⟨h.chain.ring, h.chain.live, h.chain.sorted⟩
  have hother (q : Fin n) (hq : t.Other k q) :
      ({ u with skb := u.trimAll head l } : FragTable n).Other k q := by
    have hql : q ∉ head :: l := fun hm => hq.ne_mine (h.mine q hm) rfl
    refine ⟨hq.1, ?_⟩
    show ¬ k.Same (u.trimAll head l q).ip
    rw [List.mem_cons, not_or] at hql
    rw [trimAll, if_neg hql.1, if_neg hql.2]
    exact hq.2
  refine ⟨{ u with skb := u.trimAll head l }, ?_, ⟨fun b q hq => ?_, fun y hy => ?_⟩, rfl, rfl, rfl, rfl⟩
  · rw [standing, if_pos hwhole, hdel]
    simp only [bind, Except.bind]
    rw [show ({ t with queue := d1 ++ d2, timer := t.timer && !(d1 ++ d2).isEmpty } : FragTable n).delHash head
      = u from rfl, trimPacketsHeader_eq hu]
    rfl
  · have hq' : q ∈ (t.hash b).erase head := hq
    refine hother q ?_
    by_cases hb : b = k.hash
    · subst hb
      rw [hc, List.erase_append_right _ (fun hm => ?_), List.erase_cons_head] at hq'
      · exact hcother q hq'
      · exact (hcother head (List.mem_append_left _ hm)).ne_mine hhead rfl
    · exact h.hashed b hb q (List.mem_of_mem_erase hq')
  · exact hother y.skb (hdother y hy)

end Waits

end FragTable

end Cnix.Net
