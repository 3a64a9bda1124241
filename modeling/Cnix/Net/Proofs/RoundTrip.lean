/-
Fragments that come back.

A datagram that `ip_fragment` cuts up comes back from `cons_ip_dgram`, in
whatever order its fragments arrive, exactly if there are two of them and
the second begins at a multiple of 8. With three or more there is an order
that fails: if two of them have one offset, these two first; else the one
before the last, the last and then the first, which pushes the last out of
the ring. Without the last one no datagram is ever complete
(`delivered_more`).
-/
import Cnix.Net.Proofs.Fragment

namespace Cnix.Net

open Lib FragTable
open List (mem_cons_self mem_cons_of_mem mem_map_of_mem append_of_mem)
open Fragment (frame)

variable {n o : Nat} {t : FragTable n} {head p : Fin n} {l : List (Fin n)} {k ip : IpHdr}
  {mtu : Nat} {F F' : List Skbuff} {c : List IpHdr} {es : List (FragEvent n)} {pre : List Fragment}
  {e : FragEvent n} {a b s : Skbuff}

-- ======== feeding

/-- The datagrams that `cons_ip_dgram` hands out, each with the table as it
is then. -/
def FragTable.delivered (t : FragTable n) :
    List (FragEvent n) → Except Fault (List (FragTable n × Fin n))
  | [] => .ok []
  | e :: es => do
    let (t, r) ← (t.receive e.ptr e.skb).consIpDgram e.now e.ptr
    let rest ← t.delivered es
    return match r with
      | some head => (t, head) :: rest
      | none => rest

/-- The frames come in, each once and in an `skbuff` of its own that was
free, to a table without their datagram. -/
structure Feeds (k : IpHdr) (F : List Skbuff) (t : FragTable n) (es : List (FragEvent n)) : Prop where
  absent : t.Absent k
  frames : (es.map FragEvent.skb).Perm F
  ptrs : (es.map FragEvent.ptr).Nodup
  free : ∀ e ∈ es, t.live e.ptr = false

/-- In whatever order they come, the frames give one datagram, with this
payload. -/
def Returns (k : IpHdr) (F : List Skbuff) (payload : List Byte) : Prop :=
  ∀ (n : Nat) (t : FragTable n) (es : List (FragEvent n)), Feeds k F t es →
    ∃ t' head l, t.delivered es = .ok [(t', head)] ∧ t'.list.Ring head l ∧ t'.payload head l = payload

/-- The offset in each header is the number of bytes before. -/
def Exact (frags : List Fragment) : Prop :=
  ∀ pre f post, frags = pre ++ f :: post → f.ip.offset = (fragBytes pre).length

/-- If the datagram is longer than the MTU, `ip_fragment` makes fragments
that fit, at multiples of 8, and they come back. -/
def RoundTrip (ip : IpHdr) (mtu : Nat) (chain : List OutSkb) : Prop :=
  mtu < ip.totLen → ∃ frags, ipFragment ip mtu chain = .ok frags ∧ (∀ f ∈ frags, f.ip.totLen ≤ mtu) ∧
    Exact frags ∧ Returns ip (frags.map frame) (chainBytes chain)

/-- A datagram longer than the MTU makes two fragments, the first of which
is a multiple of 8 long: it is in one `skbuff` that is cut once, or in two
that need not be cut. -/
def Pairs (mtu : Nat) (first : OutSkb) : List OutSkb → Prop
  | [] => 8 ∣ mtu - ipNormHeadLen ∧
      first.bytes.length ≤ 2 * (mtu - ipNormHeadLen) - 8 + first.bytes.length % 8
  | [second] => first.bytes.length ≤ mtu - ipNormHeadLen ∧ second.bytes.length ≤ mtu - ipNormHeadLen ∧
      8 ∣ first.bytes.length
  | _ => False

instance (mtu : Nat) (first : OutSkb) (rest : List OutSkb) : Decidable (Pairs mtu first rest) := by
  unfold Pairs
  split <;> infer_instance

/-- Frames that come in this order, from an empty table. -/
def inOrder (F : List Skbuff) : List (FragEvent F.length) :=
  (List.finRange F.length).map fun i => ⟨F.get i, i, 0⟩

theorem inOrder_skb (F : List Skbuff) : (inOrder F).map FragEvent.skb = F := by
  rw [inOrder, List.map_map]
  exact List.map_get_finRange F

theorem inOrder_feeds (hperm : F'.Perm F) : Feeds k F (FragTable.empty F'.length) (inOrder F') := by
  refine ⟨(empty_first k).absent, ?_, ?_, fun _ _ => rfl⟩
  · rw [inOrder_skb]
    exact hperm
  · rw [inOrder, List.map_map]
    show ((List.finRange F'.length).map id).Nodup
    rw [List.map_id]
    exact List.nodup_finRange _

-- ======== what never is complete

theorem contiguous_more {idx : Int} (h : ∀ ip ∈ c, ip.more = true) : contiguous idx c = false := by
  induction c generalizing idx with
  | nil => rfl
  | cons ip c ih =>
    cases c with
    | nil =>
      show (!ip.more) = false
      rw [h ip mem_cons_self]
      rfl
    | cons ip1 c =>
      show (decide _ && contiguous _ (ip1 :: c)) = false
      rw [ih (fun x hx => h x (mem_cons_of_mem _ hx)), Bool.and_false]

/-- Fragments none of which is the last are not all. -/
theorem whole_more (h : ∀ ip ∈ c, ip.more = true) : whole c = false := by
  cases c with
  | nil => rfl
  | cons ip c =>
    show (decide _ && contiguous 0 (ip :: c)) = false
    rw [contiguous_more h, Bool.and_false]

/-- Without the last fragment nothing is handed out. -/
theorem delivered_more (h : t.Waiting k head l) (hmore : ∀ q ∈ head :: l, (t.skb q).ip.more = true)
    (hsame : ∀ e ∈ es, k.Same e.skb.ip) (hes : ∀ e ∈ es, e.skb.ip.more = true)
    (hptrs : (es.map FragEvent.ptr).Nodup) (hfree : ∀ e ∈ es, t.live e.ptr = false) :
    (∃ f, t.delivered es = .error f) ∨ t.delivered es = .ok [] := by
  induction es generalizing t head l with
  | nil => exact .inr rfl
  | cons e es ih =>
    obtain ⟨hptr, hptrs'⟩ := List.nodup_cons.1 hptrs
    have hfe := hfree e mem_cons_self
    rcases h.arrive (hsame e mem_cons_self) hfe e.now with ⟨f, hfault⟩ |
      ⟨u, h1, l1, hw, hskb, hlive, hmem, hcons⟩
    · refine .inl ⟨f, ?_⟩
      rw [delivered, hfault]
      rfl
    · have hmore' : ∀ q ∈ h1 :: l1, (u.skb q).ip.more = true := by
        intro q hq
        rw [hskb, receive_skb]
        split
        · exact hes e mem_cons_self
        · next hqp =>
          rcases hmem q hq with rfl | hq
          · exact absurd rfl hqp
          · exact hmore q hq
      have hnot : whole (u.ips (h1 :: l1)) = false := by
        refine whole_more fun ip hip => ?_
        obtain ⟨q, hq, rfl⟩ := List.mem_map.1 hip
        exact hmore' q hq
      rw [standing, hnot, if_neg Bool.false_ne_true] at hcons
      have hrest := ih hw hmore' (fun x hx => hsame x (mem_cons_of_mem _ hx))
        (fun x hx => hes x (mem_cons_of_mem _ hx)) hptrs' (fun x hx => by
          rw [hlive x.ptr (fun he => hptr (he ▸ mem_map_of_mem hx))]
          exact hfree x (mem_cons_of_mem _ hx))
      rw [delivered, hcons]
      rcases hrest with ⟨f, hf⟩ | hok
      · refine .inl ⟨f, ?_⟩
        simp only [bind, Except.bind, hf]
      · refine .inr ?_
        simp only [bind, Except.bind, hok]
        rfl

-- ======== the fragments' headers

theorem ipMore_eq : IpHdr.ipMore = 8192 := rfl

theorem fragHdr_offset {flag : Nat} (ho : o < 65536) (hflag : flag = 0 ∨ flag = IpHdr.ipMore) (len : Nat) :
    (fragHdr ip o flag len).offset = o / 8 * 8 := by
  show (o / 8 + flag) % IpHdr.ipMore * 8 = _
  have hlt : o / 8 < 8192 := by omega
  have hmod : (o / 8 + flag) % 8192 = o / 8 := by
    rcases hflag with rfl | rfl
    · exact Nat.mod_eq_of_lt hlt
    · rw [ipMore_eq, Nat.add_mod_right, Nat.mod_eq_of_lt hlt]
  rw [ipMore_eq, hmod]

theorem moreFlag_cases (frags : List Fragment) : moreFlag frags = 0 ∨ moreFlag frags = IpHdr.ipMore := by
  unfold moreFlag
  split
  · exact .inl rfl
  · exact .inr rfl

theorem fragHdr_more (ho : o < 65536) (frags : List Fragment) (len : Nat) :
    (fragHdr ip o (moreFlag frags) len).more = !frags.isEmpty := by
  show decide ((o / 8 + moreFlag frags) / IpHdr.ipMore % 2 = 1) = _
  have hlt : o / 8 < 8192 := by omega
  rw [ipMore_eq]
  cases frags with
  | nil =>
    have hdiv : (o / 8 + moreFlag []) / 8192 = 0 := Nat.div_eq_of_lt hlt
    rw [hdiv]
    rfl
  | cons f fs =>
    have hdiv : (o / 8 + moreFlag (f :: fs)) / 8192 = 1 := by
      show (o / 8 + 8192) / 8192 = 1
      omega
    rw [hdiv]
    rfl

theorem laid_append {frags : List Fragment} (h : Laid ip mtu o (pre ++ frags)) :
    Laid ip mtu (o + (fragBytes pre).length) frags := by
  induction pre generalizing o with
  | nil => exact h
  | cons f pre ih =>
    have := ih h.2.2
    rwa [Nat.add_assoc, ← List.length_append] at this

/-- What a fragment looks like that has `pre` before it and `post` behind
it. -/
structure Placed (ip : IpHdr) (mtu : Nat) (pre : List Fragment) (f : Fragment) (post : List Fragment) : Prop where
  same : ip.Same f.ip
  hdrLen : f.ip.hdrLen = 20
  totLen : f.ip.totLen = f.bytes.length + 20
  fits : f.ip.totLen ≤ mtu
  offset : f.ip.offset = (fragBytes pre).length / 8 * 8
  more : f.ip.more = !post.isEmpty

/-- The fragments of one datagram. -/
structure Cut (ip : IpHdr) (mtu : Nat) (L : List Fragment) : Prop where
  ihl : ip.hdrLen = 20
  least : 68 ≤ mtu
  laid : Laid ip mtu 0 L
  size : (fragBytes L).length < 65536

theorem Cut.placed {post : List Fragment} {f : Fragment} (h : Cut ip mtu (pre ++ f :: post)) :
    Placed ip mtu pre f post := by
  obtain ⟨hf, hlen, -⟩ := laid_append h.laid
  rw [Nat.zero_add] at hf
  have hmtu := h.least
  have hlt : (fragBytes pre).length < 65536 := by
    have hsize := h.size
    unfold fragBytes at hsize ⊢
    rw [List.flatMap_append, List.length_append] at hsize
    omega
  refine ⟨?_, ?_, ?_, ?_, ?_, ?_⟩
  · rw [hf]
    exact ⟨rfl, rfl, rfl⟩
  · rw [hf]
    exact h.ihl
  · rw [hf]
    rfl
  · rw [hf]
    show f.bytes.length + 20 ≤ mtu
    unfold ipNormHeadLen at hlen
    omega
  · rw [hf, fragHdr_offset hlt (moreFlag_cases post)]
  · rw [hf, fragHdr_more hlt]

/-- A frame carries its fragment's bytes. -/
theorem frame_content {f : Fragment} (hlen : f.ip.hdrLen = 20) (htot : f.ip.totLen = f.bytes.length + 20) :
    f.frame.content = f.bytes := by
  show cells f.frame.data (etherLnkHeadLen + f.ip.hdrLen) (f.ip.totLen - f.ip.hdrLen) = f.bytes
  have hcount : f.ip.totLen - f.ip.hdrLen = f.bytes.length := by omega
  rw [hcount]
  refine List.ext_getElem (cells_length ..) fun i hi hi' => ?_
  rw [cells_getElem]
  show f.bytes.getD (etherLnkHeadLen + f.ip.hdrLen + i - (etherLnkHeadLen + f.ip.hdrLen)) 0 = _
  rw [Nat.add_sub_cancel_left]
  exact (List.getElem_eq_getD 0).symm

-- ======== orders that are bad

/-- After a frame that leaves the datagram incomplete. -/
theorem delivered_next {u : FragTable n}
    (hcons : (t.receive e.ptr e.skb).consIpDgram e.now e.ptr = .ok (u, none)) :
    t.delivered (e :: es) = u.delivered es := by
  rw [delivered, hcons]
  simp only [bind, Except.bind]
  cases u.delivered es with
  | error f | ok r => rfl

/-- After the first frame. -/
theorem delivered_first (hf : Feeds k F t (e :: es)) (hs : k.Same e.skb.ip) :
    ∃ t' : FragTable n, t.delivered (e :: es) = t'.delivered es ∧ t'.Waiting k e.ptr [] ∧ t'.skb e.ptr = e.skb ∧
      (∀ x ∈ es, t'.live x.ptr = false) ∧ (es.map FragEvent.ptr).Nodup := by
  have hfree := hf.free e mem_cons_self
  obtain ⟨hnot, hnodup⟩ := List.nodup_cons.1 hf.ptrs
  obtain ⟨t', hcons, hwait, hskb, hlive, -⟩ :=
    cons_first (hf.absent.receive hfree) (receive_mine t hs) (receive_self t e.skb) e.now
  refine ⟨t', ?_, hwait, ?_, fun x hx => ?_, hnodup⟩
  · exact delivered_next hcons
  · rw [hskb, receive_new]
  · rw [hlive, receive_live, if_neg (fun he : x.ptr = e.ptr => hnot (he ▸ mem_map_of_mem hx))]
    exact hf.free x (mem_cons_of_mem _ hx)

theorem exists_feeds (k : IpHdr) (hperm : F'.Perm F) :
    ∃ (n : Nat) (t : FragTable n) (es : List (FragEvent n)), Feeds k F t es ∧ es.map FragEvent.skb = F' :=
  ⟨F'.length, FragTable.empty _, inOrder F', inOrder_feeds hperm, inOrder_skb F'⟩

/-- Two frames with one offset come first. -/
theorem dup_fails {rest : List Skbuff} (hperm : (a :: b :: rest).Perm F) (ha : k.Same a.ip)
    (hb : k.Same b.ip) (hoff : a.ip.offset = b.ip.offset) (bytes : List Byte) : ¬ Returns k F bytes := by
  intro hret
  obtain ⟨n, t, es, hfeeds, hskb⟩ := exists_feeds k hperm
  obtain ⟨e1, es1, rfl, rfl, hskb1⟩ := List.map_eq_cons_iff.1 hskb
  obtain ⟨e2, es2, rfl, rfl, -⟩ := List.map_eq_cons_iff.1 hskb1
  obtain ⟨t', head, l, hdel, -⟩ := hret n t _ hfeeds
  obtain ⟨u, hfirst, hwait, hself, hfree, -⟩ := delivered_first hfeeds ha
  have hfree2 := hfree e2 mem_cons_self
  have hne : e1.ptr ≠ e2.ptr := fun he => hwait.chain.not_mem hfree2 (he ▸ mem_cons_self)
  have hins : (u.receive e2.ptr e2.skb).insertPacket e1.ptr e2.ptr = .error .freed := by
    refine insertPacket_dup (hwait.chain.receive hfree2) (receive_mine u hb).1 ⟨e1.ptr, mem_cons_self, ?_⟩
    unfold off
    rw [receive_skb, receive_skb, if_neg hne, if_pos rfl, hself]
    exact hoff
  rw [hfirst, delivered, cons_fault (hwait.receive hfree2) (receive_mine u hb) e2.now hins] at hdel
  cases hdel

/-- A frame goes behind the only one. -/
theorem insert_behind (h : t.Waiting k head []) (hs : k.Same s.ip) (hfree : t.live p = false)
    (now : Nat) (hlt : (t.skb head).ip.offset < s.ip.offset)
    (hbefore : ((t.skb head).ip.offset : Int) + (t.skb head).ip.dataLen ≤ s.ip.offset)
    (hnot : (t.skb head).ip.offset ≠ 0) :
    ∃ u, u.Waiting k head [p] ∧ u.skb = (t.receive p s).skb ∧ u.live = (t.receive p s).live ∧
      (t.receive p s).consIpDgram now p = .ok (u, none) := by
  have hskb := (receive_old s (h.chain.live head mem_cons_self) hfree).2
  have hself := receive_new t p s
  have hchain : (t.receive p s).Chained head [] := h.chain.receive hfree
  have hlive : (t.receive p s).live p = true := (receive_mine t hs).1
  have hlt' : (t.receive p s).off head < (t.receive p s).off p := by
    unfold off
    rw [hskb, hself]
    exact hlt
  obtain ⟨r1, x, r2, hsplit, hx, hr2, hins⟩ := insertPacket_after hchain hlive hlt' (fun q hq => by
    rw [List.mem_singleton.1 hq]
    exact Nat.ne_of_lt hlt')
  obtain ⟨l', hl', hchain'⟩ := hchain.after hlive (h.chain.not_mem hfree) hsplit hx hr2
  -- there is only one place
  obtain ⟨rfl, rfl, rfl⟩ : r1 = [] ∧ x = head ∧ r2 = [] := by
    cases r1 with
    | nil =>
      cases hsplit
      exact ⟨rfl, rfl, rfl⟩
    | cons y r1 => simp at hsplit
  cases hl'
  rw [if_pos (by
    unfold Before off
    rw [hskb, hself]
    exact hbefore)] at hins
  obtain ⟨u, hw, hskb', hlive', hcons⟩ := h.insert hs hfree now ⟨hins, hchain', rfl, rfl, rfl,
    fun q hq => by rw [receive_live, if_neg hq], fun q hq => by simpa [or_comm] using hq⟩
  refine ⟨u, hw, hskb', hlive', ?_⟩
  have hwhole : whole (u.ips [x, p]) = false := by
    show (decide ((u.skb x).ip.offset = 0) && _) = false
    rw [hskb', hskb, decide_eq_false hnot, Bool.false_and]
  rw [hcons, standing, hwhole, if_neg Bool.false_ne_true]

/-- A frame that goes before the first leaves only the two. -/
theorem insert_front (h : t.Waiting k head l) (hs : k.Same s.ip) (hfree : t.live p = false)
    (now : Nat) (hlt : s.ip.offset < (t.skb head).ip.offset)
    (hbefore : (s.ip.offset : Int) + s.ip.dataLen ≤ (t.skb head).ip.offset)
    (hmore : s.ip.more = true) (hmore' : (t.skb head).ip.more = true) :
    ∃ u, u.Waiting k p [head] ∧ u.skb = (t.receive p s).skb ∧ u.live = (t.receive p s).live ∧
      (t.receive p s).consIpDgram now p = .ok (u, none) := by
  have hskb := (receive_old s (h.chain.live head mem_cons_self) hfree).2
  have hself := receive_new t p s
  have hchain : (t.receive p s).Chained head l := h.chain.receive hfree
  have hlive : (t.receive p s).live p = true := (receive_mine t hs).1
  have hlt' : (t.receive p s).off p < (t.receive p s).off head := by
    unfold off
    rw [hskb, hself]
    exact hlt
  have hins := insertPacket_front hchain hlive hlt'
  rw [if_pos (by
    unfold Before off
    rw [hskb, hself]
    exact hbefore)] at hins
  obtain ⟨u, hw, hskb', hlive', hcons⟩ := h.insert hs hfree now ⟨hins, hchain.front hlive hlt', rfl, rfl,
    rfl, fun q hq => by rw [receive_live, if_neg hq], fun q hq => by
      rcases List.mem_cons.1 hq with hq | hq
      · exact .inl hq
      · exact .inr (List.mem_cons.2 (.inl (List.mem_singleton.1 hq)))⟩
  refine ⟨u, hw, hskb', hlive', ?_⟩
  have hwhole : whole (u.ips [p, head]) = false := by
    refine whole_more fun ip hip => ?_
    obtain ⟨q, hq, rfl⟩ := List.mem_map.1 hip
    rw [hskb']
    rcases List.mem_cons.1 hq with rfl | hq
    · rw [hself]
      exact hmore
    · rw [List.mem_singleton.1 hq, hskb]
      exact hmore'
  rw [hcons, standing, hwhole, if_neg Bool.false_ne_true]

/-- The one before the last, the last and then the first. -/
theorem front_fails {mid : List Skbuff} {z : Skbuff} (hperm : (a :: z :: b :: mid).Perm F)
    (hsame : ∀ s ∈ F, k.Same s.ip) (hb : b.ip.offset = 0) (hba : b.ip.dataLen ≤ a.ip.offset)
    (ha : 0 < a.ip.offset) (haz : a.ip.offset < z.ip.offset) (haz' : (a.ip.offset : Int) + a.ip.dataLen ≤ z.ip.offset)
    (hmore : ∀ s ∈ a :: b :: mid, s.ip.more = true) (bytes : List Byte) : ¬ Returns k F bytes := by
  intro hret
  have hmem (s : Skbuff) (hs : s ∈ a :: z :: b :: mid) : k.Same s.ip := hsame s (hperm.subset hs)
  obtain ⟨n, t, es, hfeeds, hskb⟩ := exists_feeds k hperm
  obtain ⟨e1, es1, rfl, rfl, hskb1⟩ := List.map_eq_cons_iff.1 hskb
  obtain ⟨e2, es2, rfl, rfl, hskb2⟩ := List.map_eq_cons_iff.1 hskb1
  obtain ⟨e3, es3, rfl, rfl, rfl⟩ := List.map_eq_cons_iff.1 hskb2
  obtain ⟨t', head, l, hdel, -⟩ := hret n t _ hfeeds
  obtain ⟨u, hfirst, hwait, hself, hfree, hptrs⟩ := delivered_first hfeeds (hmem _ (by simp))
  obtain ⟨hptr2, hptrs⟩ := List.nodup_cons.1 hptrs
  obtain ⟨hptr3, hptrs⟩ := List.nodup_cons.1 hptrs
  -- the last goes behind the one before it
  have hfree2 := hfree e2 mem_cons_self
  obtain ⟨v, hwait2, hskbv, hlivev, hcons2⟩ := insert_behind hwait (hmem e2.skb (by simp)) hfree2 e2.now
    (by rw [hself]; exact haz) (by rw [hself]; exact haz') (by rw [hself]; exact Nat.ne_of_gt ha)
  have hne12 : e1.ptr ≠ e2.ptr := fun he => hwait.chain.not_mem hfree2 (he ▸ mem_cons_self)
  have hself2 : v.skb e1.ptr = e1.skb := by rw [hskbv, receive_skb, if_neg hne12, hself]
  have hfreev : ∀ x ∈ e3 :: es3, v.live x.ptr = false := fun x hx => by
    rw [hlivev, receive_live, if_neg (fun he : x.ptr = e2.ptr => hptr2 (he ▸ mem_map_of_mem hx))]
    exact hfree x (mem_cons_of_mem _ hx)
  -- and the first pushes it out
  have hfree3 := hfreev e3 mem_cons_self
  obtain ⟨w, hwait3, hskbw, hlivew, hcons3⟩ := insert_front hwait2 (hmem e3.skb (by simp)) hfree3 e3.now
    (by rw [hself2, hb]; exact ha) (by rw [hself2, hb]; simpa using hba) (hmore e3.skb (by simp))
    (by rw [hself2]; exact hmore e1.skb (by simp))
  have hfreew : ∀ x ∈ es3, w.live x.ptr = false := fun x hx => by
    rw [hlivew, receive_live, if_neg (fun he : x.ptr = e3.ptr => hptr3 (he ▸ mem_map_of_mem hx))]
    exact hfreev x (mem_cons_of_mem _ hx)
  have hmorew : ∀ q ∈ e3.ptr :: [e1.ptr], (w.skb q).ip.more = true := fun q hq => by
    rw [hskbw, receive_skb]
    split
    · exact hmore e3.skb (by simp)
    · next hq3 =>
      rcases List.mem_cons.1 hq with hq | hq
      · exact absurd hq hq3
      · rw [List.mem_singleton.1 hq, hself2]
        exact hmore e1.skb (by simp)
  rw [hfirst, delivered_next hcons2, delivered_next hcons3] at hdel
  rcases delivered_more hwait3 hmorew (fun x hx => hmem x.skb (by simp [mem_map_of_mem hx]))
    (fun x hx => hmore x.skb (by simp [mem_map_of_mem hx])) hptrs hfreew with ⟨f, hf⟩ | hok
  · rw [hf] at hdel
    cases hdel
  · rw [hok] at hdel
    cases hdel

-- ======== three fragments or more

section Frames

variable {L post : List Fragment} {f : Fragment}

theorem Cut.same (h : Cut ip mtu L) : ∀ s ∈ L.map frame, ip.Same s.ip := by
  intro s hs
  obtain ⟨f, hf, rfl⟩ := List.mem_map.1 hs
  obtain ⟨pre, post, rfl⟩ := append_of_mem hf
  exact h.placed.same

/-- All but the last say that there are more. -/
theorem Cut.more {z : Fragment} (h : Cut ip mtu (L ++ [z])) (hf : f ∈ L) : f.frame.ip.more = true := by
  obtain ⟨pre, post, rfl⟩ := append_of_mem hf
  rw [List.append_assoc, List.cons_append] at h
  have hmore := h.placed.more
  rw [show (post ++ [z]).isEmpty = false by cases post <;> rfl] at hmore
  exact hmore

theorem Placed.dataLen {pre : List Fragment} (h : Placed ip mtu pre f post) :
    f.frame.ip.dataLen = f.bytes.length := by
  show (f.ip.totLen : Int) - f.ip.hdrLen = _
  rw [h.totLen, h.hdrLen]
  omega

/-- A fragment without data has the offset of the next one. -/
theorem empty_fails {pre : List Fragment} {x y : Fragment} (h : Cut ip mtu (pre ++ x :: y :: post))
    (hexact : Exact (pre ++ x :: y :: post)) (hempty : x.bytes = []) (bytes : List Byte) :
    ¬ Returns ip ((pre ++ x :: y :: post).map frame) bytes := by
  have hsame := h.same
  have hx : x.ip.offset = (fragBytes pre).length := hexact pre x (y :: post) rfl
  have hy : y.ip.offset = (fragBytes (pre ++ [x])).length := hexact (pre ++ [x]) y post (by simp)
  have hlen : (fragBytes (pre ++ [x])).length = (fragBytes pre).length := by
    simp [fragBytes, hempty]
  have hperm : (x :: y :: (pre ++ post)).Perm (pre ++ x :: y :: post) := by
    have hx : (pre ++ x :: y :: post).Perm (x :: (pre ++ y :: post)) := List.perm_middle
    have hy : (pre ++ y :: post).Perm (y :: (pre ++ post)) := List.perm_middle
    exact (hx.trans (hy.cons x)).symm
  refine dup_fails (hperm.map frame) (hsame x.frame ?_) (hsame y.frame ?_) ?_ bytes
  · exact mem_map_of_mem (by simp)
  · exact mem_map_of_mem (by simp)
  · show x.ip.offset = y.ip.offset
    rw [hx, hy, hlen]

/-- Three fragments or more do not come back in every order. -/
theorem three_fails (h : Cut ip mtu L) (hexact : Exact L) (hthree : 3 ≤ L.length) (bytes : List Byte) :
    ¬ Returns ip (L.map frame) bytes := by
  by_cases hzero : ∃ pre x y post, L = pre ++ x :: y :: post ∧ x.bytes = []
  · obtain ⟨pre, x, y, post, rfl, hempty⟩ := hzero
    exact empty_fails h hexact hempty bytes
  · have hpos (pre : List Fragment) (x y : Fragment) (post : List Fragment) (hL : L = pre ++ x :: y :: post) :
        0 < x.bytes.length :=
      List.length_pos_iff.2 fun he => hzero ⟨pre, x, y, post, hL, he⟩
    -- the first and the last two
    obtain ⟨b, mid, a, z, rfl⟩ : ∃ b mid a z, L = b :: (mid ++ [a]) ++ [z] := by
      obtain ⟨b, L, rfl⟩ := List.exists_cons_of_length_pos (show 0 < L.length by omega)
      rcases List.eq_nil_or_concat' L with rfl | ⟨L, z, rfl⟩
      · simp at hthree
      · rcases List.eq_nil_or_concat' L with rfl | ⟨L, a, rfl⟩
        · simp at hthree
        · exact ⟨b, L, a, z, rfl⟩
    have hmore (f : Fragment) (hf : f ∈ b :: (mid ++ [a])) : f.frame.ip.more = true :=
      h.more hf
    have hshape : b :: (mid ++ [a]) ++ [z] = (b :: mid) ++ a :: [z] := by simp
    have hb : b.ip.offset = 0 := hexact [] b _ rfl
    have ha : a.ip.offset = (fragBytes (b :: mid)).length := hexact (b :: mid) a [z] hshape
    have hz : z.ip.offset = (fragBytes (b :: (mid ++ [a]))).length := hexact _ z [] rfl
    have hzlen : (fragBytes (b :: (mid ++ [a]))).length = (fragBytes (b :: mid)).length + a.bytes.length := by
      simp [fragBytes]
      omega
    have hblen : b.bytes.length ≤ (fragBytes (b :: mid)).length := by simp [fragBytes]
    have hapos : 0 < a.bytes.length := hpos (b :: mid) a z [] hshape
    have hbpos : 0 < b.bytes.length := by
      cases mid with
      | nil => exact hpos [] b a [z] rfl
      | cons m mid => exact hpos [] b m (mid ++ [a] ++ [z]) rfl
    have hdb : b.frame.ip.dataLen = b.bytes.length := by
      have h' : Cut ip mtu ([] ++ b :: (mid ++ [a] ++ [z])) := h
      exact h'.placed.dataLen
    have hda : a.frame.ip.dataLen = a.bytes.length := by
      rw [hshape] at h
      exact h.placed.dataLen
    have hperm : (a :: z :: b :: mid).Perm (b :: (mid ++ [a]) ++ [z]) := by
      rw [hshape]
      exact @List.perm_append_comm _ [a, z] (b :: mid)
    refine front_fails (hperm.map frame) h.same hb ?_ ?_ ?_ ?_ ?_ bytes
    · show b.frame.ip.dataLen ≤ (a.ip.offset : Int)
      rw [hdb, ha]
      exact_mod_cast hblen
    · show 0 < a.ip.offset
      omega
    · show a.ip.offset < z.ip.offset
      omega
    · show (a.ip.offset : Int) + a.frame.ip.dataLen ≤ z.ip.offset
      omega
    · intro s hs
      have hs' : s ∈ (a :: b :: mid).map frame := hs
      obtain ⟨f, hf, rfl⟩ := List.mem_map.1 hs'
      refine hmore f ?_
      simp only [List.mem_cons, List.mem_append, List.not_mem_nil, or_false] at hf ⊢
      tauto

-- ======== two fragments

/-- A datagram in two frames comes back. -/
theorem IsDatagram.returns {a b : Skbuff} (hF : IsDatagram k [a, b]) :
    Returns k [a, b] (a.content ++ b.content) := by
  intro n t es hfeeds
  -- there are two events, for two frames with different offsets
  obtain ⟨e1, e2, rfl⟩ : ∃ e1 e2, es = [e1, e2] := by
    have hlen := hfeeds.frames.length_eq
    rw [List.length_map] at hlen
    exact List.length_eq_two.1 hlen
  have hmem (e : FragEvent n) (he : e ∈ [e1, e2]) : e.skb ∈ [a, b] :=
    hfeeds.frames.subset (mem_map_of_mem he)
  have hlow : a.ip.offset < b.ip.offset := (List.pairwise_cons.1 hF.sorted).1 b mem_cons_self
  have hnew : e1.skb.ip.offset ≠ e2.skb.ip.offset := by
    have hpair : (([e1.skb, e2.skb].map fun s => s.ip.offset)).Nodup := by
      refine ((hfeeds.frames.map _).nodup_iff).2 ?_
      simpa using Nat.ne_of_lt hlow
    simpa using hpair
  obtain ⟨u, hfirst, hwait, hself, hfree, -⟩ :=
    delivered_first hfeeds (hF.same e1.skb (hmem e1 (by simp)))
  have hclean : e2.Clean [a, b] ⟨u, [e1.skb], .waiting⟩ := by
    refine ⟨⟨hmem e2 (by simp), rfl, hfree e2 mem_cons_self⟩, fun g hg => ?_, fun h => ?_⟩
    · rw [List.mem_singleton.1 hg]
      exact hnew
    · exact absurd (show 2 ≤ 1 from h) (by decide)
  have hstep {d' : Defrag n} (hs : e2.apply ⟨u, [e1.skb], .waiting⟩ = some d') : d'.Inv k [a, b] := by
    refine Defrag.Inv.step_next hF hwait ?_ (fun s hs => ?_) hclean hs
    · rw [List.map_singleton, hself]
    · rw [List.mem_singleton.1 hs]
      exact hmem e1 (by simp)
  have hall : ∀ s ∈ [a, b], s ∈ [e1.skb] ++ [e2.skb] := fun s hs => hfeeds.frames.symm.subset hs
  rw [hfirst, delivered]
  unfold FragEvent.apply at hstep
  split at hstep
  · next t' hcons =>
    cases hstep rfl with
    | waiting _ _ _ _ _ _ _ hmiss =>
      obtain ⟨s, hs, hnot⟩ := hmiss
      exact absurd (hall s hs) hnot
  · next t' head hcons =>
    cases hstep rfl with
    | done _ _ _ l _ hring hpay _ _ =>
      refine ⟨t', head, l, ?_, hring, ?_⟩
      · rw [hcons]
        rfl
      · rw [hpay]
        simp
  · next f hcons => cases hstep rfl

/-- Two fragments come back if the second begins at a multiple of 8. -/
theorem two_returns {g : Fragment} (h : Cut ip mtu [f, g]) (hpos : 0 < f.bytes.length)
    (hdvd : 8 ∣ f.bytes.length) :
    Exact [f, g] ∧ Returns ip ([f, g].map frame) (fragBytes [f, g]) := by
  have hf : Placed ip mtu [] f [g] := h.placed
  have hg : Placed ip mtu [f] g [] := h.placed
  have hfo : f.ip.offset = 0 := hf.offset
  have hgo : g.ip.offset = f.bytes.length := by
    rw [hg.offset]
    simp only [fragBytes, List.flatMap_cons, List.flatMap_nil, List.append_nil]
    omega
  refine ⟨fun pre x post hsplit => ?_, ?_⟩
  · rcases pre with _ | ⟨y, _ | ⟨z, pre⟩⟩
    · cases hsplit
      exact hfo
    · cases hsplit
      simpa [fragBytes] using hgo
    · simp at hsplit
  · have hF : IsDatagram ip [f.frame, g.frame] := by
      refine ⟨Nat.le_refl 2, h.same, ?_, ?_, fun s hs => ?_⟩
      · refine List.pairwise_pair.2 ?_
        show f.ip.offset < g.ip.offset
        omega
      · have hdata := hf.dataLen
        show (decide (f.ip.offset = 0) && (decide (0 + f.frame.ip.dataLen = (g.ip.offset : Int)) && !g.ip.more)) = true
        rw [hfo, hdata, hgo, hg.more]
        simp
      · rw [List.mem_singleton.1 (show s ∈ [f.frame] from hs)]
        exact hf.more
    have hret := hF.returns
    rw [frame_content hf.hdrLen hf.totLen, frame_content hg.hdrLen hg.totLen] at hret
    simpa [fragBytes] using hret

-- ======== round trips

/-- What has to be so of the fragments. -/
theorem frags_iff {fs : List Fragment} (h : Cut ip mtu (f :: fs)) (hfs : fs ≠ []) :
    Exact (f :: fs) ∧ Returns ip ((f :: fs).map frame) (fragBytes (f :: fs)) ↔
      fs.length = 1 ∧ 0 < f.bytes.length ∧ 8 ∣ f.bytes.length := by
  constructor
  · rintro ⟨hexact, hret⟩
    have hone : fs.length = 1 := by
      have hlen := List.length_pos_iff.2 hfs
      by_contra hne
      exact three_fails h hexact (by rw [List.length_cons]; omega) _ hret
    obtain ⟨g, rfl⟩ := List.length_eq_one_iff.1 hone
    refine ⟨rfl, List.length_pos_iff.2 fun hempty => ?_, ?_⟩
    · have h' : Cut ip mtu ([] ++ f :: g :: []) := h
      exact empty_fails h' hexact hempty _ hret
    · have hround := Cut.placed (show Cut ip mtu ([f] ++ g :: []) from h) |>.offset
      have hgo : g.ip.offset = (fragBytes [f]).length := hexact [f] g [] rfl
      have hlen : (fragBytes [f]).length = f.bytes.length := by simp [fragBytes]
      exact ⟨f.bytes.length / 8, by omega⟩
  · rintro ⟨hone, hpos, hdvd⟩
    obtain ⟨g, rfl⟩ := List.length_eq_one_iff.1 hone
    exact two_returns h hpos hdvd

end Frames

/-- How many fragments there are, in terms of the chain. -/
theorem pairs_iff (hihl : ip.hdrLen = 20) (hmtu : 68 ≤ mtu) {first : OutSkb} {rest : List OutSkb}
    (hsent : Sent first rest) (hlong : mtu - 20 < (chainBytes (first :: rest)).length) {f : Fragment}
    {fs : List Fragment} (hfrags : ipFragment ip mtu (first :: rest) = .ok (f :: fs))
    (hflen : f.bytes.length = min first.bytes.length (mtu - 20)) (hle : rest.length ≤ fs.length)
    (hcount : (∀ x ∈ first :: rest, x.bytes.length ≤ mtu - 20) ↔ fs.length = rest.length) :
    (fs.length = 1 ∧ 0 < f.bytes.length ∧ 8 ∣ f.bytes.length) ↔ Pairs mtu first rest := by
  rw [hflen]
  rcases rest with _ | ⟨second, _ | ⟨third, rest⟩⟩
  · have hlen : mtu - 20 < first.bytes.length := by simpa [chainBytes] using hlong
    rw [Nat.min_eq_right (Nat.le_of_lt hlen), ipFragment_once hihl hmtu hsent hlen hfrags]
    constructor
    · rintro ⟨honce, -, hdvd⟩
      exact ⟨hdvd, honce⟩
    · rintro ⟨hdvd, honce⟩
      exact ⟨honce, by omega, hdvd⟩
  · have hlen : mtu - 20 < first.bytes.length + second.bytes.length := by simpa [chainBytes] using hlong
    have hcount' : (first.bytes.length ≤ mtu - 20 ∧ second.bytes.length ≤ mtu - 20) ↔ fs.length = 1 := by
      simpa using hcount
    rw [← hcount']
    constructor
    · rintro ⟨⟨h1, h2⟩, -, hdvd⟩
      rw [Nat.min_eq_left h1] at hdvd
      exact ⟨h1, h2, hdvd⟩
    · rintro ⟨(h1 : first.bytes.length ≤ mtu - 20), (h2 : second.bytes.length ≤ mtu - 20), hdvd⟩
      rw [Nat.min_eq_left h1]
      -- without the first, the second would be too long
      exact ⟨⟨h1, h2⟩, by omega, hdvd⟩
  · refine ⟨fun h => ?_, fun h => h.elim⟩
    rw [h.1, List.length_cons, List.length_cons] at hle
    omega

/-- Whatever is sent makes the round trip exactly if it makes two fragments
and the first is a multiple of 8 long. -/
theorem fragment_round_trip (id protocol saddr daddr : Nat) {first : OutSkb} {rest : List OutSkb}
    (hmtu : 68 ≤ mtu) (hsent : Sent first rest)
    (hsize : (chainBytes (first :: rest)).length + ipNormHeadLen ≤ 65535) :
    RoundTrip (outputHdr id protocol saddr daddr ((chainBytes (first :: rest)).length + ipNormHeadLen)) mtu
        (first :: rest) ↔
      (mtu < (chainBytes (first :: rest)).length + ipNormHeadLen → Pairs mtu first rest) := by
  refine forall_congr' fun hlong => ?_
  generalize hip : outputHdr id protocol saddr daddr ((chainBytes (first :: rest)).length + ipNormHeadLen) = ip
  have hihl : ip.hdrLen = 20 := by
    rw [← hip]
    rfl
  have hlong' : mtu - 20 < (chainBytes (first :: rest)).length := by
    have : mtu < (chainBytes (first :: rest)).length + 20 := hlong
    omega
  obtain ⟨f, fs, hfrags, hlaid, hbytes, hflen, hle, hcount⟩ := ipFragment_laid hihl hmtu hsent
  have hcut : Cut ip mtu (f :: fs) := by
    refine ⟨hihl, hmtu, hlaid, ?_⟩
    rw [hbytes]
    omega
  have hfs : fs ≠ [] := by
    rintro rfl
    have hrest : rest = [] := List.length_eq_zero_iff.1 (Nat.le_zero.1 hle)
    subst hrest
    have hfirst := hcount.2 rfl first mem_cons_self
    simp [chainBytes] at hlong'
    omega
  have hfit : ∀ x ∈ f :: fs, x.ip.totLen ≤ mtu := by
    intro x hx
    obtain ⟨pre, post, hsplit⟩ := append_of_mem hx
    rw [hsplit] at hcut
    exact hcut.placed.fits
  have hiff := (frags_iff hcut hfs).trans
    (pairs_iff hihl hmtu hsent hlong' hfrags hflen hle hcount)
  rw [← hiff, ← hbytes]
  constructor
  · rintro ⟨frags, hfrags', -, hexact, hret⟩
    rw [hfrags] at hfrags'
    cases hfrags'
    exact ⟨hexact, hret⟩
  · rintro ⟨hexact, hret⟩
    exact ⟨f :: fs, hfrags, hfit, hexact, hret⟩

/-- The chain of a datagram whose `skbuff`s have these sizes. -/
def chainOf : List Nat → List OutSkb
  | [] => []
  | size :: sizes => ⟨.headData, List.replicate size 0⟩ :: sizes.map fun size => ⟨.data, List.replicate size 0⟩

/-- 60 bytes through a raw socket and an MTU of 68 make two fragments. -/
theorem fragment_round_trip_raw :
    Sent ⟨.headData, List.replicate 48 0⟩ [⟨.data, List.replicate 12 0⟩] ∧ rawLayout 68 60 = [48, 12] ∧
      RoundTrip (outputHdr 1 17 1 2 80) 68 (chainOf (rawLayout 68 60)) := by
  have hsent : Sent ⟨.headData, List.replicate 48 0⟩ [⟨.data, List.replicate 12 0⟩] :=
    ⟨rfl, fun x hx => by rw [List.mem_singleton.1 hx]⟩
  refine ⟨hsent, by decide, ?_⟩
  exact (fragment_round_trip 1 17 1 2 (by decide) hsent (by decide)).2 fun _ => by decide

/-- 100 bytes through a UDP socket and an MTU of 68 make three. -/
theorem udp_write_lost :
    udpLayout 68 100 = [48, 48, 12] ∧ ¬ RoundTrip (outputHdr 1 17 1 2 128) 68 (chainOf (udpLayout 68 100)) := by
  refine ⟨by decide, fun hround => ?_⟩
  obtain ⟨frags, hfrags, -, hexact, hret⟩ := hround (by decide)
  have hihl : (outputHdr 1 17 1 2 128).hdrLen = 20 := rfl
  have hsent : Sent ⟨.headData, List.replicate 48 0⟩
      [⟨.data, List.replicate 48 0⟩, ⟨.data, List.replicate 12 0⟩] := by
    refine ⟨rfl, fun x hx => ?_⟩
    simp only [List.mem_cons, List.not_mem_nil, or_false] at hx
    rcases hx with rfl | rfl <;> rfl
  obtain ⟨f, fs, hok, hlaid, hbytes, -, hle, -⟩ := ipFragment_laid hihl (show 68 ≤ 68 by decide) hsent
  obtain rfl : frags = f :: fs := Except.ok.inj (hfrags.symm.trans hok)
  refine three_fails ⟨hihl, Nat.le_refl 68, hlaid, ?_⟩ hexact (Nat.succ_le_succ hle) _ hret
  rw [hbytes]
  decide

end Cnix.Net
