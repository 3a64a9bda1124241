/-
What the functions on the ring of fragments do to the list that it is.

`Chained` reads the ring as a list that is sorted by offset. Over it
`insert_packet` has three outcomes: a fragment whose offset is there
already makes it read a freed `skbuff`; one that comes before all others
leaves only the old first fragment behind it; any other one goes where it
belongs, if it does not reach back over the one before it.
`have_all_packet` is a walk along the list (`whole`).
-/
import Mathlib.Data.Fintype.Card
import Cnix.Lib.Rings
import Cnix.Net.Ip

namespace Cnix.Net

open Lib FragTable
open List (mem_cons_self mem_cons_of_mem)

variable {n : Nat} {t : FragTable n} {head p q tmp : Fin n} {l rest : List (Fin n)}

namespace FragTable

/-- The offset of a fragment, as it stands in its header. -/
def off (t : FragTable n) (p : Fin n) : Nat := (t.skb p).ip.offset

/-- The data of the one end before the other. -/
def Before (t : FragTable n) (p q : Fin n) : Prop :=
  (t.off p : Int) + (t.skb p).ip.dataLen ≤ t.off q

instance (t : FragTable n) (p q : Fin n) : Decidable (t.Before p q) := inferInstanceAs (Decidable (_ ≤ _))

/-- The ring that starts with `head` goes on with `l`, by offset. -/
structure Chained (t : FragTable n) (head : Fin n) (l : List (Fin n)) : Prop where
  ring : t.list.Ring head l
  live : ∀ q ∈ head :: l, t.live q = true
  sorted : (head :: l).Pairwise (t.off · < t.off ·)

theorem ip_live (h : t.live p = true) : t.ip p = .ok (t.skb p).ip := if_pos h

theorem checkContinous_live (hp : t.live p = true) (hq : t.live q = true) :
    t.checkContinous p q = .ok (decide (t.Before p q)) := by
  rw [checkContinous, ip_live hp, ip_live hq]
  rfl

/-- A freed `skbuff` that is read. -/
theorem checkContinous_freed (hp : t.live p = false) : t.checkContinous p q = .error .freed := by
  rw [checkContinous, ip, hp]
  rfl

-- ======== the loops

/-- A loop stands at `tmp`, with `rest` to come and a turn for each. -/
structure Walk (t : FragTable n) (head : Fin n) (fuel : Nat) (tmp : Fin n) (rest : List (Fin n)) : Prop where
  fuel : rest.length < fuel
  seg : t.list.Seg tmp rest head
  head : head ∉ rest
  live : ∀ q ∈ tmp :: rest, t.live q = true

theorem Walk.turn {fuel : Nat} (h : t.Walk head fuel tmp rest) :
    t.ip tmp = .ok (t.skb tmp).ip ∧ ∃ k, fuel = k + 1 :=
  ⟨ip_live (h.live tmp mem_cons_self), fuel - 1, by have := h.fuel; omega⟩

theorem Walk.next {k : Nat} {y : Fin n} (h : t.Walk head (k + 1) tmp (y :: rest)) :
    t.list.next tmp = y ∧ y ≠ head ∧ t.Walk head k y rest :=
  ⟨h.seg.1, fun he => h.head (he ▸ mem_cons_self), Nat.lt_of_succ_lt_succ h.fuel, h.seg.2.2,
    fun hm => h.head (mem_cons_of_mem _ hm), fun q hq => h.live q (mem_cons_of_mem _ hq)⟩

/-- The loop stops at the last fragment that comes before the offset. -/
theorem insertLoop_after {offset fuel : Nat} (h : t.Walk head fuel tmp rest)
    (hsorted : (tmp :: rest).Pairwise (t.off · < t.off ·)) (hlow : t.off tmp < offset)
    (hne : ∀ q ∈ rest, t.off q ≠ offset) :
    ∃ r1 x r2, tmp :: rest = r1 ++ x :: r2 ∧ t.off x < offset ∧ (∀ q ∈ r2, offset < t.off q) ∧
      insertLoop head p offset fuel tmp t = .ok (t, .after x) := by
  induction rest generalizing tmp fuel with
  | nil =>
    obtain ⟨hip, fuel, rfl⟩ := h.turn
    refine ⟨[], tmp, [], rfl, hlow, nofun, ?_⟩
    have hlow' : (t.skb tmp).ip.offset < offset := hlow
    rw [insertLoop, hip]
    simp only [bind, Except.bind]
    rw [if_neg (Nat.ne_of_gt hlow'), if_neg (fun h => Nat.lt_asymm hlow' h.2), if_neg (not_not_intro h.seg.1)]
    rfl
  | cons y rest ih =>
    obtain ⟨hip, fuel, rfl⟩ := h.turn
    obtain ⟨hnext, hyh, hw⟩ := h.next
    have hlow' : (t.skb tmp).ip.offset < offset := hlow
    have hunfold : insertLoop head p offset (fuel + 1) tmp t
        = if t.off tmp < offset ∧ offset < t.off y then .ok (t, .after tmp)
          else insertLoop head p offset fuel y t := by
      rw [insertLoop, hip]
      simp only [bind, Except.bind]
      rw [if_neg (Nat.ne_of_gt hlow'), if_neg (fun h => Nat.lt_asymm hlow' h.2), hnext, if_pos hyh, hw.turn.1]
      rfl
    obtain ⟨htmp, hsorted'⟩ := List.pairwise_cons.1 hsorted
    obtain ⟨hy, -⟩ := List.pairwise_cons.1 hsorted'
    by_cases hoff : offset < t.off y
    · refine ⟨[], tmp, y :: rest, rfl, hlow, fun q hq => ?_, ?_⟩
      · rcases List.mem_cons.1 hq with rfl | hq
        · exact hoff
        · exact Nat.lt_trans hoff (hy q hq)
      · rw [hunfold, if_pos ⟨hlow, hoff⟩]
    · have hylow : t.off y < offset :=
        Nat.lt_of_le_of_ne (Nat.le_of_not_lt hoff) (hne y mem_cons_self)
      obtain ⟨r1, x, r2, hsplit, hx, hr2, hloop⟩ := ih hw hsorted' hylow
        (fun q hq => hne q (mem_cons_of_mem _ hq))
      refine ⟨tmp :: r1, x, r2, by rw [hsplit]; rfl, hx, hr2, ?_⟩
      rw [hunfold, if_neg (fun h => hoff h.2)]
      exact hloop

/-- The loop frees the fragment that has the offset. -/
theorem insertLoop_dup {offset fuel : Nat} (h : t.Walk head fuel tmp rest)
    (hsorted : (tmp :: rest).Pairwise (t.off · < t.off ·)) (hdup : ∃ q ∈ tmp :: rest, t.off q = offset) :
    ∃ x, insertLoop head p offset fuel tmp t = .ok ((t.delList x).skbFree x, .after x) := by
  induction rest generalizing tmp fuel with
  | nil =>
    obtain ⟨hip, fuel, rfl⟩ := h.turn
    obtain ⟨q, hq, hoff⟩ := hdup
    obtain rfl := List.mem_singleton.1 hq
    refine ⟨q, ?_⟩
    rw [insertLoop, hip]
    simp only [bind, Except.bind]
    rw [if_pos (show offset = (t.skb q).ip.offset from hoff.symm)]
    rfl
  | cons y rest ih =>
    obtain ⟨hip, fuel, rfl⟩ := h.turn
    obtain ⟨hnext, hyh, hw⟩ := h.next
    obtain ⟨htmp, hsorted'⟩ := List.pairwise_cons.1 hsorted
    obtain ⟨q, hq, hoff⟩ := hdup
    by_cases hself : t.off tmp = offset
    · refine ⟨tmp, ?_⟩
      rw [insertLoop, hip]
      simp only [bind, Except.bind]
      rw [if_pos (show offset = (t.skb tmp).ip.offset from hself.symm)]
      rfl
    · have hq' : q ∈ y :: rest := by
        rcases List.mem_cons.1 hq with rfl | hq
        · exact absurd hoff hself
        · exact hq
      have hlow : (t.skb tmp).ip.offset < offset := hoff ▸ htmp q hq'
      have hyq : ¬ offset < t.off y := by
        rcases List.mem_cons.1 hq' with rfl | hq
        · omega
        · have := (List.pairwise_cons.1 hsorted').1 q hq
          omega
      obtain ⟨x, hloop⟩ := ih hw hsorted' ⟨q, hq', hoff⟩
      refine ⟨x, ?_⟩
      rw [insertLoop, hip]
      simp only [bind, Except.bind]
      rw [if_neg (Nat.ne_of_gt hlow), if_neg (fun h => Nat.lt_asymm hlow h.2), hnext, if_pos hyh, hw.turn.1]
      simp only []
      rw [if_neg (fun h => hyq h.2)]
      exact hloop

-- ======== insert_packet

section Chained

variable (h : t.Chained head l)

include h

theorem Chained.length_le : l.length < n := by
  have hlen := h.ring.nodup.length_le_card
  rw [Fintype.card_fin, List.length_cons] at hlen
  exact hlen

theorem Chained.walk : t.Walk head n head l :=
  ⟨h.length_le, h.ring.seg, (List.nodup_cons.1 h.ring.nodup).1, h.live⟩

/-- The offset of the fragment is there already. -/
theorem insertPacket_dup (hp : t.live p = true)
    (hdup : ∃ q ∈ head :: l, t.off q = t.off p) : t.insertPacket head p = .error .freed := by
  obtain ⟨x, hloop⟩ := insertLoop_dup (p := p) h.walk h.sorted hdup
  have hloop' : insertLoop head p (t.skb p).ip.offset n head t = _ := hloop
  have hfreed : ((t.delList x).skbFree x).live x = false := Function.update_self ..
  rw [insertPacket, ip_live hp]
  simp only [bind, Except.bind, hloop']
  rw [checkContinous_freed hfreed]

/-- The fragment comes before all others. -/
theorem insertPacket_front (hp : t.live p = true) (hlt : t.off p < t.off head) :
    t.insertPacket head p =
      if t.Before p head then .ok ({ t with list := (t.initList p).list.insertTail p head }, p)
      else .ok (t.skbFree p, head) := by
  have hhead := h.live head mem_cons_self
  obtain ⟨k, rfl⟩ : ∃ k, n = k + 1 := ⟨n - 1, by have := h.length_le; omega⟩
  have hlt' : (t.skb p).ip.offset < (t.skb head).ip.offset := hlt
  rw [insertPacket, ip_live hp]
  simp only [bind, Except.bind]
  rw [insertLoop, ip_live hhead]
  simp only [bind, Except.bind]
  rw [if_neg (Nat.ne_of_lt hlt'), if_pos ⟨trivial, hlt'⟩, checkContinous_live hp hhead]
  by_cases hb : t.Before p head
  · simp only [hb, decide_true, if_true]
    rfl
  · simp only [hb, decide_false, if_false]
    rfl

/-- The fragment belongs behind another one. -/
theorem insertPacket_after (hp : t.live p = true) (hlt : t.off head < t.off p)
    (hne : ∀ q ∈ head :: l, t.off q ≠ t.off p) :
    ∃ r1 x r2, head :: l = r1 ++ x :: r2 ∧ t.off x < t.off p ∧ (∀ q ∈ r2, t.off p < t.off q) ∧
      t.insertPacket head p =
        if t.Before x p then .ok ({ t with list := t.list.insertHead x p }, head)
        else .ok (t.skbFree p, head) := by
  obtain ⟨r1, x, r2, hsplit, hx, hr2, hloop⟩ := insertLoop_after (p := p) h.walk h.sorted hlt
    (fun q hq => hne q (mem_cons_of_mem _ hq))
  refine ⟨r1, x, r2, hsplit, hx, hr2, ?_⟩
  have hlx : t.live x = true := h.live x (by rw [hsplit]; simp)
  have hloop' : insertLoop head p (t.skb p).ip.offset n head t = _ := hloop
  rw [insertPacket, ip_live hp]
  simp only [bind, Except.bind, hloop']
  rw [checkContinous_live hlx hp]
  by_cases hb : t.Before x p
  · simp only [hb, decide_true, if_true]
    rfl
  · simp only [hb, decide_false, if_false]
    rfl

/-- Only the old first fragment is behind the new one. -/
theorem Chained.front (hp : t.live p = true) (hlt : t.off p < t.off head) :
    ({ t with list := (t.initList p).list.insertTail p head } : FragTable n).Chained p [head] := by
  have hne : head ≠ p := fun he => by
    rw [he] at hlt
    exact Nat.lt_irrefl _ hlt
  refine ⟨?_, fun q hq => ?_, ?_⟩
  · have hself : (t.initList p).list.Ring p [] :=
      ⟨⟨Function.update_self .., Function.update_self ..⟩, List.nodup_singleton p⟩
    exact hself.insertTail (by simpa using hne)
  · rcases List.mem_cons.1 hq with rfl | hq
    · exact hp
    · exact h.live q (List.mem_cons.2 (.inl (List.mem_singleton.1 hq)))
  · exact List.pairwise_cons.2 ⟨fun q hq => List.mem_singleton.1 hq ▸ hlt, List.pairwise_singleton _ _⟩

/-- The new fragment is where it belongs. -/
theorem Chained.after (hp : t.live p = true) (hpl : p ∉ head :: l)
    {r1 r2 : List (Fin n)} {x : Fin n} (hsplit : head :: l = r1 ++ x :: r2) (hx : t.off x < t.off p)
    (hr2 : ∀ q ∈ r2, t.off p < t.off q) : ∃ l', head :: l' = r1 ++ x :: p :: r2 ∧
      ({ t with list := t.list.insertHead x p } : FragTable n).Chained head l' := by
  have hsorted : (r1 ++ x :: p :: r2).Pairwise (t.off · < t.off ·) := by
    have hs := h.sorted
    rw [hsplit, List.pairwise_append, List.pairwise_cons] at hs
    obtain ⟨h1, ⟨hx2, h2⟩, h12⟩ := hs
    refine List.pairwise_append.2 ⟨h1, List.pairwise_cons.2 ⟨fun q hq => ?_, List.pairwise_cons.2 ⟨hr2, h2⟩⟩,
      fun a ha q hq => ?_⟩
    · rcases List.mem_cons.1 hq with rfl | hq
      · exact hx
      · exact hx2 q hq
    · rcases List.mem_cons.1 hq with rfl | hq
      · exact h12 a ha q mem_cons_self
      · rcases List.mem_cons.1 hq with rfl | hq
        · exact Nat.lt_trans (h12 a ha x mem_cons_self) hx
        · exact h12 a ha q (mem_cons_of_mem _ hq)
  have hlive : ∀ q ∈ r1 ++ x :: p :: r2, t.live q = true := by
    intro q hq
    by_cases hqp : q = p
    · exact hqp ▸ hp
    · refine h.live q ?_
      rw [hsplit]
      simp only [List.mem_append, List.mem_cons] at hq ⊢
      tauto
  cases r1 with
  | nil =>
    obtain ⟨rfl, rfl⟩ := List.cons.inj hsplit
    exact ⟨p :: l, rfl, h.ring.insertHead hpl, hlive, hsorted⟩
  | cons a r1 =>
    obtain ⟨rfl, hl⟩ : head = a ∧ l = r1 ++ x :: r2 := List.cons.inj hsplit
    subst hl
    refine ⟨r1 ++ x :: p :: r2, rfl, ?_, hlive, hsorted⟩
    -- seen from `x` the new one is the next
    have hrot := h.ring.rotate
    have hpx : p ∉ x :: (r2 ++ head :: r1) := by
      simp only [List.mem_cons, List.mem_append, not_or] at hpl ⊢
      tauto
    have hins : (t.list.insertHead x p).Ring x ((p :: r2) ++ head :: r1) := hrot.insertHead hpx
    exact hins.rotate

/-- A fragment that is thrown away is none of the ring. -/
theorem Chained.skbFree (hpl : p ∉ head :: l) : (t.skbFree p).Chained head l := by
  have hne (q : Fin n) (hq : q ∈ head :: l) : q ≠ p := fun he => hpl (he ▸ hq)
  refine ⟨⟨h.ring.seg.congr (fun y hy => ?_) (fun y hy => ?_), h.ring.nodup⟩, fun q hq => ?_, h.sorted⟩
  · show ((t.list.setNext p p).setPrev p p).next y = _
    rw [Links.setPrev_next, Links.setNext_next, if_neg (hne y hy)]
  · have hy' : y ∈ head :: l := by
      simp only [List.mem_append, List.mem_cons, List.not_mem_nil, or_false] at hy ⊢
      tauto
    show ((t.list.setNext p p).setPrev p p).prev y = _
    rw [Links.setPrev_prev, if_neg (hne y hy'), Links.setNext_prev]
  · show Function.update t.live p false q = true
    rw [Function.update_of_ne (hne q hq)]
    exact h.live q hq

end Chained

-- ======== have_all_packet

end FragTable

/-- Each fragment ends where the next one begins, and the last one is the
last one. -/
def contiguous : Int → List IpHdr → Bool
  | _, [] => false
  | _, [ip] => !ip.more
  | index, ip :: ip1 :: rest =>
    decide (index + ip.dataLen = ip1.offset) && contiguous (index + ip.dataLen) (ip1 :: rest)

/-- The fragments are all of a datagram. -/
def whole : List IpHdr → Bool
  | [] => false
  | ip :: rest => decide (ip.offset = 0) && contiguous 0 (ip :: rest)

namespace FragTable

/-- The headers of a ring. -/
def ips (t : FragTable n) (c : List (Fin n)) : List IpHdr := c.map fun q => (t.skb q).ip

theorem haveLoop_eq {fuel : Nat} {index : Int} (h : t.Walk head fuel tmp rest) :
    t.haveLoop head fuel tmp index = .ok (contiguous index (t.ips (tmp :: rest))) := by
  induction rest generalizing tmp fuel index with
  | nil =>
    obtain ⟨hip, fuel, rfl⟩ := h.turn
    rw [haveLoop, hip]
    simp only [bind, Except.bind]
    rw [if_neg (not_not_intro h.seg.1)]
    rfl
  | cons y rest ih =>
    obtain ⟨hip, fuel, rfl⟩ := h.turn
    obtain ⟨hnext, hyh, hw⟩ := h.next
    have hrest : t.haveLoop head fuel y (index + (t.skb tmp).ip.dataLen)
        = .ok (contiguous (index + (t.skb tmp).ip.dataLen) (t.ips (y :: rest))) :=
      ih hw
    rw [haveLoop, hip]
    simp only [bind, Except.bind]
    rw [hnext, if_pos hyh, hw.turn.1, hrest]
    show (if index + (t.skb tmp).ip.dataLen ≠ ↑(t.skb y).ip.offset then Except.ok false else _) =
      Except.ok (decide (index + (t.skb tmp).ip.dataLen = ↑(t.skb y).ip.offset) && _)
    by_cases hidx : index + (t.skb tmp).ip.dataLen = ↑(t.skb y).ip.offset
    · rw [if_neg (not_not_intro hidx), decide_eq_true hidx, Bool.true_and]
      rfl
    · rw [if_pos hidx, decide_eq_false hidx, Bool.false_and]

theorem haveAllPacket_eq (h : t.Chained head l) :
    t.haveAllPacket head = .ok (whole (t.ips (head :: l))) := by
  have hloop : t.haveLoop head n head 0 = .ok (contiguous 0 (t.ips (head :: l))) :=
    haveLoop_eq h.walk
  rw [haveAllPacket, ip_live (h.live head mem_cons_self)]
  rw [hloop]
  show (if (t.skb head).ip.offset ≠ 0 then Except.ok false else _) =
    Except.ok (decide ((t.skb head).ip.offset = 0) && _)
  by_cases hoff : (t.skb head).ip.offset = 0
  · rw [if_neg (not_not_intro hoff), decide_eq_true hoff, Bool.true_and]
    rfl
  · rw [if_pos hoff, decide_eq_false hoff, Bool.false_and]

-- ======== trim_packets_header

theorem trimLoop_eq {fuel : Nat} (h : t.Walk head fuel tmp rest) (hnodup : rest.Nodup) (size : Int) :
    trimLoop head fuel (t.list.next tmp) size t
      = .ok ({ t with skb := fun q => if q ∈ rest then trimmed (t.skb q) else t.skb q },
          size + ((t.ips rest).map IpHdr.dataLen).sum) := by
  induction rest generalizing tmp fuel size t with
  | nil =>
    obtain ⟨hip, fuel, rfl⟩ := h.turn
    rw [trimLoop, if_pos h.seg.1]
    simp [ips]
  | cons y rest ih =>
    obtain ⟨hip, fuel, rfl⟩ := h.turn
    obtain ⟨hnext, hyh, hw⟩ := h.next
    obtain ⟨hy, hnodup⟩ := List.nodup_cons.1 hnodup
    have hother (q : Fin n) (hq : q ∈ rest) : (t.setSkb y (trimmed (t.skb y))).skb q = t.skb q :=
      Function.update_of_ne (fun he : q = y => hy (he ▸ hq)) ..
    have hw' : (t.setSkb y (trimmed (t.skb y))).Walk head fuel y rest := ⟨hw.fuel, hw.seg, hw.head, hw.live⟩
    have hrest (size : Int) := ih hw' hnodup size
    have hips : (t.setSkb y (trimmed (t.skb y))).ips rest = t.ips rest :=
      List.map_congr_left fun q hq => by rw [hother q hq]
    rw [trimLoop, hnext, if_neg hyh, hw.turn.1]
    refine (hrest _).trans ?_
    rw [hips]
    refine congrArg Except.ok (Prod.ext ?_ ?_)
    · simp only [setSkb]
      congr 1
      funext q
      rw [Function.update_apply]
      by_cases hqy : q = y
      · subst hqy
        rw [if_neg hy, if_pos rfl, if_pos mem_cons_self]
      · by_cases hq : q ∈ rest
        · rw [if_pos hq, if_neg hqy, if_pos (mem_cons_of_mem _ hq)]
        · rw [if_neg hq, if_neg hqy, if_neg (by simp [hqy, hq])]
    · simp only [ips, List.map_cons, List.sum_cons]
      omega

/-- All the bytes of a datagram, with the header of the first fragment. -/
def total (t : FragTable n) (head : Fin n) (l : List (Fin n)) : Int :=
  ((t.ips l).map IpHdr.dataLen).sum + (t.skb head).ip.totLen

/-- The first fragment after `trim_packets_header`. -/
def joined (t : FragTable n) (head : Fin n) (l : List (Fin n)) : Skbuff :=
  { t.skb head with
    dlen := (t.skb head).dataPtr + (t.skb head).ip.totLen
    dgramLen := t.total head l
    ip := { (t.skb head).ip with totLen := (t.total head l % 2 ^ 16).toNat } }

/-- The `skbuff`s after `trim_packets_header`. -/
def trimAll (t : FragTable n) (head : Fin n) (l : List (Fin n)) (q : Fin n) : Skbuff :=
  if q = head then t.joined head l else if q ∈ l then trimmed (t.skb q) else t.skb q

theorem trimPacketsHeader_eq (h : t.Chained head l) :
    t.trimPacketsHeader head = .ok { t with skb := t.trimAll head l } := by
  obtain ⟨hhead, hnodup⟩ := List.nodup_cons.1 h.ring.nodup
  have hloop := trimLoop_eq h.walk hnodup 0
  have hlive := h.live head mem_cons_self
  rw [trimPacketsHeader, hloop]
  simp only [bind, Except.bind]
  rw [ip_live (by exact hlive)]
  simp only [if_neg hhead, Int.zero_add]
  refine congrArg Except.ok ?_
  simp only [setSkb]
  congr 1
  funext q
  rw [Function.update_apply]
  rfl

-- ======== the hash, the queue

/-- `get_ip_hash_entry` goes past the entries of other datagrams. -/
theorem hashFind_append {ip : IpHdr} {c1 c2 : List (Fin n)} (hlive : ∀ q ∈ c1, t.live q = true)
    (hother : ∀ q ∈ c1, ¬ ip.Same (t.skb q).ip) : t.hashFind ip (c1 ++ c2) = t.hashFind ip c2 := by
  induction c1 with
  | nil => rfl
  | cons q c1 ih =>
    rw [List.cons_append, hashFind, ip_live (hlive q mem_cons_self)]
    simp only [bind, Except.bind]
    rw [if_neg (hother q mem_cons_self)]
    exact ih (fun q hq => hlive q (mem_cons_of_mem _ hq)) (fun q hq => hother q (mem_cons_of_mem _ hq))

/-- It finds the one entry of the datagram. -/
theorem hashFind_eq {ip : IpHdr} {c1 c2 : List (Fin n)} (hlive : ∀ q ∈ c1, t.live q = true)
    (hother : ∀ q ∈ c1, ¬ ip.Same (t.skb q).ip) (hp : t.live p = true) (hsame : ip.Same (t.skb p).ip) :
    t.hashFind ip (c1 ++ p :: c2) = .ok (some p) := by
  rw [hashFind_append hlive hother, hashFind, ip_live hp]
  simp only [bind, Except.bind]
  rw [if_pos hsame]
  rfl

/-- It finds nothing. -/
theorem hashFind_none {ip : IpHdr} {c : List (Fin n)} (hlive : ∀ q ∈ c, t.live q = true)
    (hother : ∀ q ∈ c, ¬ ip.Same (t.skb q).ip) : t.hashFind ip c = .ok none := by
  rw [← List.append_nil c, hashFind_append hlive hother]
  rfl

/-- The node of the datagram is taken out of the queue. -/
theorem queueDel_eq {ip : IpHdr} {c1 c2 : List (FragNode n)} {node : FragNode n}
    (hlive : ∀ x ∈ c1, t.live x.skb = true) (hother : ∀ x ∈ c1, ¬ (t.skb x.skb).ip.Same ip)
    (hnode : t.live node.skb = true) (hsame : (t.skb node.skb).ip.Same ip) :
    t.queueDel ip (c1 ++ node :: c2) = .ok (c1 ++ c2) := by
  induction c1 with
  | nil =>
    rw [List.nil_append, queueDel, ip_live hnode]
    simp only [bind, Except.bind]
    rw [if_pos hsame]
    rfl
  | cons x c1 ih =>
    rw [List.cons_append, queueDel, ip_live (hlive x mem_cons_self)]
    simp only [bind, Except.bind]
    rw [if_neg (hother x mem_cons_self),
      ih (fun x hx => hlive x (mem_cons_of_mem _ hx)) (fun x hx => hother x (mem_cons_of_mem _ hx))]
    rfl

/-- A node goes somewhere into the queue. -/
theorem queueAfter_perm (node : FragNode n) (t1 : FragNode n) (c : List (FragNode n)) :
    ∃ c1 c2, t1 :: c = c1 ++ c2 ∧ queueAfter node t1 c = c1 ++ node :: c2 := by
  induction c generalizing t1 with
  | nil => exact ⟨[t1], [], rfl, rfl⟩
  | cons t2 c ih =>
    rw [queueAfter]
    split
    · exact ⟨[t1], t2 :: c, rfl, rfl⟩
    · obtain ⟨c1, c2, hc, hq⟩ := ih t2
      exact ⟨t1 :: c1, c2, by rw [hc]; rfl, by rw [hq]; rfl⟩

theorem addToFragQueue_perm (node : FragNode n) (c : List (FragNode n)) :
    ∃ c1 c2, c = c1 ++ c2 ∧ addToFragQueue node c = c1 ++ node :: c2 := by
  cases c with
  | nil => exact ⟨[], [], rfl, rfl⟩
  | cons t1 c =>
    rw [addToFragQueue]
    split
    · exact ⟨[], t1 :: c, rfl, rfl⟩
    · exact queueAfter_perm node t1 c

end FragTable

end Cnix.Net
