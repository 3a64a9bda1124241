/-
What the checks of `input_ip_packet` let through.

Neither `ihl` nor `tot_len` is compared with the length of a header. A
datagram in one `skbuff` is what the routines above take it for exactly if
its header has the two lengths in order (`header_checked`): a fragment
either waits or reaches them with others behind it. If they are not in
order, `dgram_len` is negative, and passes as a large unsigned number.
-/
import Cnix.Net.IpInput
import Cnix.Net.Proofs.FragTable

namespace Cnix.Net

open Lib FragTable
open List (forall_mem_cons forall_mem_singleton forall_mem_append)

variable {n now : Nat} {t t' : FragTable n} {p head : Fin n} {l : List (Fin n)} {addr : Nat}
  {s : Skbuff} {ip : IpHdr} {u : Upper}

-- ======== frames

/-- A frame in one `skbuff`. -/
structure Skbuff.Framed (s : Skbuff) : Prop where
  room : s.dataPtr ≤ s.dlen
  len : s.dgramLen = (s.dlen : Int) - s.dataPtr
  small : s.dlen < 2 ^ 31

/-- The header that `input_ip_packet` reads. -/
def Skbuff.hdr (s : Skbuff) : IpHdr := hdrAt s.data s.dataPtr

/-- The frame passes the checks. -/
structure Accepted (addr : Nat) (s : Skbuff) : Prop where
  long : 20 ≤ s.dgramLen
  version : s.hdr.version = 4
  header : (s.hdr.hdrLen : Int) ≤ s.dgramLen
  sum : ipchecksum s s.hdr.hdrLen = 0
  total : (s.hdr.totLen : Int) ≤ s.dgramLen
  ttl : s.hdr.ttl ≠ 0
  mine : s.hdr.daddr = addr

/-- Without what is behind the datagram. -/
def Skbuff.cut (s : Skbuff) : Skbuff :=
  { s with
    ip := s.hdr
    dlen := s.dataPtr + s.hdr.totLen
    dgramLen := s.hdr.totLen }

theorem ltUnsigned_iff {x : Int} {size : Nat} (hx : 0 ≤ x) (hlt : x < 2 ^ 32) : ltUnsigned x size = true ↔ x < size := by
  unfold ltUnsigned
  rw [Int.emod_eq_of_lt hx hlt, decide_eq_true_iff]

theorem checkHeader_iff (hs : s.Framed) {s' : Skbuff} :
    checkHeader addr s = some s' ↔ Accepted addr s ∧ s' = s.cut := by
  have hroom := hs.room
  have hlen := hs.len
  have hsmall := hs.small
  have hshort : ltUnsigned s.dgramLen 20 = true ↔ s.dgramLen < (20 : Nat) := ltUnsigned_iff (by omega) (by omega)
  have hcut : ((s.dlen : Int) - (s.dgramLen - s.hdr.totLen)).toNat = s.dataPtr + s.hdr.totLen := by omega
  unfold checkHeader
  simp only [Option.ite_none_left_eq_some, Option.some.injEq]
  rw [hshort]
  constructor
  · rintro ⟨hlong, hversion, hheader, htotal, httl, hmine, rfl⟩
    obtain ⟨hheader, hsum⟩ := not_or.1 hheader
    refine ⟨⟨by omega, not_not.1 hversion, not_lt.1 hheader, not_not.1 hsum, not_lt.1 htotal, httl,
      not_not.1 hmine⟩, ?_⟩
    unfold Skbuff.cut
    rw [← hcut]
    rfl
  · rintro ⟨hacc, rfl⟩
    have hlong := hacc.long
    refine ⟨by omega, not_not.2 hacc.version, not_or.2 ⟨not_lt.2 hacc.header, not_not.2 hacc.sum⟩,
      not_lt.2 hacc.total, hacc.ttl, not_not.2 hacc.mine, ?_⟩
    unfold Skbuff.cut
    rw [← hcut]
    rfl

-- ======== what gets up

/-- A datagram in one `skbuff` is as the routine above takes it to be: the
lengths are right, and it touches only bytes that were received. -/
structure Sane (s : Skbuff) (u : Upper) (s' : Skbuff) (ip : IpHdr) : Prop where
  header : 20 ≤ ip.hdrLen ∧ ip.hdrLen ≤ ip.totLen
  nonneg : 0 ≤ s'.dgramLen
  len : s'.dgramLen = (s'.dlen : Int) - s'.dataPtr
  within : ∀ a ∈ u.touches s' ip, (s.dataPtr : Int) ≤ a.start ∧ a.start + a.len ≤ s.dataPtr + s.dgramLen

/-- The datagram has no fragments in the table, or one ring of them. -/
def FragTable.Held (t : FragTable n) (k : IpHdr) : Prop :=
  t.Absent k ∨ ∃ head l, t.Waiting k head l ∧ ∀ q ∈ head :: l, isPacketFrag (t.skb q).ip = true

section Lengths

variable {s' : Skbuff} {lo : Nat}

/-- A segment of `hi - s'.dataPtr` bytes, behind a header of at least 20. -/
structure Fitted (lo : Nat) (s' : Skbuff) : Prop where
  front : lo + 20 ≤ s'.dataPtr
  room : s'.dataPtr ≤ s'.dlen
  len : s'.dgramLen = (s'.dlen : Int) - s'.dataPtr
  small : s'.dlen < 2 ^ 31

/-- The span lies behind `lo` in the `skbuff`. -/
def Span.Inside (lo : Nat) (s' : Skbuff) (a : Span) : Prop :=
  (lo : Int) ≤ a.start ∧ a.start + a.len ≤ s'.dlen

variable (h : Fitted lo s')

include h

theorem Fitted.moveUp : ∀ a ∈ skbMoveUp s', a.Inside lo s' := by
  obtain ⟨hfront, hroom, -, hsmall⟩ := h
  refine forall_mem_singleton.2 ?_
  show (lo : Int) ≤ s'.dataPtr ∧ (s'.dataPtr : Int) + ((((s'.dlen : Int) - s'.dataPtr) % 2 ^ 32).toNat : Nat) ≤ s'.dlen
  omega

/-- The length of the sum, with the pseudo header. -/
theorem Fitted.checksumLen_eq (bytes : List Byte) :
    checksumLen (withPseudo s' bytes) = s'.dlen - s'.dataPtr + 12 := by
  obtain ⟨hfront, hroom, -, -⟩ := h
  show (if s'.dlen < s'.dataPtr - 12 then 1 else s'.dlen - (s'.dataPtr - 12)) = _
  rw [if_neg (by omega)]
  omega

/-- From the pseudo header on. -/
theorem Fitted.pseudo (bytes : List Byte) {len : Nat} (hlen : len ≤ s'.dlen - s'.dataPtr + 12) :
    Span.Inside lo s' ⟨(withPseudo s' bytes).dataPtr, len⟩ := by
  obtain ⟨hfront, hroom, -, -⟩ := h
  show (lo : Int) ≤ (s'.dataPtr - 12 : Nat) ∧ ((s'.dataPtr - 12 : Nat) : Int) + len ≤ s'.dlen
  omega

/-- A field of a header of `size` bytes. -/
theorem Fitted.field {size : Nat} (hsize : size ≤ s'.dgramLen) {start : Int} {len : Nat}
    (hlow : s'.dataPtr ≤ start) (hhigh : start + len ≤ s'.dataPtr + size) : Span.Inside lo s' ⟨start, len⟩ := by
  obtain ⟨hfront, hroom, hlen, -⟩ := h
  exact ⟨show (lo : Int) ≤ start by omega, show start + len ≤ s'.dlen by omega⟩

/-- Every access of `input_tcp_packet`. -/
theorem Fitted.tcp : ∀ a ∈ inputTcpPacket s' ip, a.Inside lo s' := by
  have hsum (bytes : List Byte) := h.pseudo bytes (h.checksumLen_eq bytes).le
  have ⟨hfront, hroom, hlen, hsmall⟩ := h
  unfold inputTcpPacket
  split
  · nofun
  next hlong =>
  rw [ltUnsigned_iff (by omega) (by omega), not_lt] at hlong
  split
  · exact h.moveUp
  rw [if_neg (by omega)]
  refine forall_mem_cons.2 ⟨h.pseudo _ (by omega), forall_mem_cons.2 ⟨hsum _, ?_⟩⟩
  split
  · nofun
  refine forall_mem_cons.2 ⟨h.field hlong (by omega) (by omega), ?_⟩
  split
  · exact h.moveUp
  · exact forall_mem_singleton.2 (h.field hlong (by omega) (by omega))

/-- Every access of `input_udp_packet`. -/
theorem Fitted.udp : ∀ a ∈ inputUdpPacket s' ip, a.Inside lo s' := by
  have hsum (bytes : List Byte) := h.pseudo bytes (h.checksumLen_eq bytes).le
  have ⟨hfront, hroom, hlen, hsmall⟩ := h
  unfold inputUdpPacket
  split
  · nofun
  next hlong =>
  rw [ltUnsigned_iff (by omega) (by omega), not_lt] at hlong
  split
  · exact h.moveUp
  rw [if_neg (by omega)]
  refine forall_mem_cons.2 ⟨h.field hlong (by omega) (by omega), forall_mem_cons.2 ⟨h.pseudo _ (by omega),
    forall_mem_cons.2 ⟨h.field hlong (by omega) (by omega), ?_⟩⟩⟩
  have hsums {c : Prop} [Decidable c] {bytes : List Byte} : ∀ a ∈ if c then
      [(⟨(withPseudo s' bytes).dataPtr, checksumLen (withPseudo s' bytes)⟩ : Span)] else [], a.Inside lo s' := by
    split
    · exact forall_mem_singleton.2 (hsum _)
    · nofun
  dsimp only
  split
  · exact hsums
  split
  · exact forall_mem_append.2 ⟨hsums, forall_mem_singleton.2 (h.field hlong (by omega) (by omega))⟩
  · exact forall_mem_append.2 ⟨hsums, forall_mem_cons.2 ⟨h.field hlong (by omega) (by omega),
      forall_mem_singleton.2 (h.field hlong (by omega) (by omega))⟩⟩

end Lengths

/-- With the two lengths in order everything is. -/
theorem sane_cut (hs : s.Framed) (hacc : Accepted addr s) (u : Upper) (hmin : 20 ≤ s.hdr.hdrLen)
    (hmax : s.hdr.hdrLen ≤ s.hdr.totLen) : Sane s u (trimIpHeader s.cut s.hdr) s.hdr := by
  have htotal := hacc.total
  have hlen := hs.len
  have hsmall := hs.small
  have hfit : Fitted s.dataPtr (trimIpHeader s.cut s.hdr) := by
    refine ⟨?_, ?_, ?_, ?_⟩
    · show s.dataPtr + 20 ≤ s.dataPtr + s.hdr.hdrLen
      omega
    · show s.dataPtr + s.hdr.hdrLen ≤ s.dataPtr + s.hdr.totLen
      omega
    · show (s.hdr.totLen : Int) - s.hdr.hdrLen
        = ((s.dataPtr + s.hdr.totLen : Nat) : Int) - (s.dataPtr + s.hdr.hdrLen : Nat)
      omega
    · show s.dataPtr + s.hdr.totLen < 2 ^ 31
      omega
  have hend : ((trimIpHeader s.cut s.hdr).dlen : Int) ≤ s.dataPtr + s.dgramLen := by
    show ((s.dataPtr + s.hdr.totLen : Nat) : Int) ≤ _
    omega
  have hroom := hfit.room
  refine ⟨⟨hmin, hmax⟩, ?_, hfit.len, fun a ha => ?_⟩
  · rw [hfit.len]
    omega
  · cases u with
    | icmp => cases ha
    | tcp =>
      obtain ⟨hlo, hhi⟩ := hfit.tcp a ha
      exact ⟨hlo, hhi.trans hend⟩
    | udp =>
      obtain ⟨hlo, hhi⟩ := hfit.udp a ha
      exact ⟨hlo, hhi.trans hend⟩

-- ======== input_ip_packet

theorem setSkb_self (t : FragTable n) (p : Fin n) (s : Skbuff) : (t.setSkb p s).skb p = s :=
  Function.update_self ..

theorem receive_ip : (t.receive p s).ip p = .ok s.ip := by
  rw [ip_live (Function.update_self ..), receive_new]

/-- A datagram that is not a fragment is handed up as it is. -/
theorem input_whole (hs : s.Framed) (hacc : Accepted addr s) (hfrag : isPacketFrag s.hdr = false)
    (hu : upper s.hdr.protocol = some u) (now : Nat) : inputIpPacket addr t now p s =
      .ok ((t.receive p s.cut).setSkb p (trimIpHeader s.cut s.hdr), some (u, p, s.hdr)) := by
  have hself := receive_new t p s.cut
  have hip : (t.receive p s.cut).ip p = .ok s.hdr := receive_ip
  rw [inputIpPacket, (checkHeader_iff hs).2 ⟨hacc, rfl⟩]
  have hcut : isPacketFrag s.cut.ip = false := hfrag
  simp only [hcut, Bool.false_eq_true, if_false, bind, Except.bind, hip, hu, hself]
  rfl

/-- A fragment does not get up alone. -/
theorem cons_not_alone (h : t.Held s.ip) (hfree : t.live p = false) (hfrag : isPacketFrag s.ip = true)
    (hcons : (t.receive p s).consIpDgram now p = .ok (t', some head)) : ¬ t'.list.Ring head [] := by
  intro hring
  have hself : s.ip.Same s.ip := ⟨rfl, rfl, rfl⟩
  rcases h with habsent | ⟨h0, l0, hwait, hfrags⟩
  · obtain ⟨u, hfirst, -⟩ := cons_first (habsent.receive hfree) (receive_mine t hself) (receive_self t s) now
    rw [hfirst] at hcons
    cases hcons
  · rcases hwait.arrive hself hfree now with ⟨f, hfault⟩ | ⟨u, h1, l1, hw, hskb, -, hmem, hnext⟩
    · rw [hfault] at hcons
      cases hcons
    · by_cases hwhole : whole (u.ips (h1 :: l1)) = true
      · obtain ⟨u', hfinish, -, hlist, -, -, -⟩ := hw.finish hwhole
        rw [hnext, hfinish] at hcons
        cases hcons
        rw [hlist] at hring
        -- the ring has one member, and that is a fragment
        have hl : l1 = [] := hw.chain.ring.unique hring
        subst hl
        have hone : (decide ((u.skb head).ip.offset = 0) && !(u.skb head).ip.more) = true := hwhole
        have hmember : isPacketFrag (u.skb head).ip = true := by
          rw [hskb, receive_skb]
          split
          · exact hfrag
          · next hne =>
            rcases hmem head List.mem_cons_self with he | hm
            · exact absurd he hne
            · exact hfrags head hm
        unfold isPacketFrag at hmember
        grind
      · rw [hnext, standing, if_neg hwhole] at hcons
        cases hcons

/-- Whatever gets up in one `skbuff` is the frame itself. -/
theorem input_alone (hs : s.Framed) (ht : t.Held s.hdr) (hfree : t.live p = false)
    (hin : inputIpPacket addr t now p s = .ok (t', some (u, head, ip))) (hring : t'.list.Ring head []) :
    Accepted addr s ∧ isPacketFrag s.hdr = false ∧ upper s.hdr.protocol = some u ∧ ip = s.hdr ∧
      t'.skb head = trimIpHeader s.cut s.hdr := by
  have hin' := hin
  rw [inputIpPacket] at hin
  split at hin
  · cases hin
  next s' hcheck =>
  obtain ⟨hacc, rfl⟩ := (checkHeader_iff hs).1 hcheck
  have hself := receive_new t p s.cut
  have hip : (t.receive p s.cut).ip p = .ok s.hdr := receive_ip
  cases hfrag : isPacketFrag s.hdr with
  | false =>
    have hcut : isPacketFrag s.cut.ip = false := hfrag
    cases hu : upper s.hdr.protocol with
    | none =>
      simp only [hcut, Bool.false_eq_true, if_false, bind, Except.bind, hip, hu] at hin
      cases hin
    | some u' =>
      rw [input_whole hs hacc hfrag hu] at hin'
      cases hin'
      exact ⟨hacc, rfl, rfl, rfl, setSkb_self ..⟩
  | true =>
    have hcut : isPacketFrag s.cut.ip = true := hfrag
    simp only [hcut, if_true, bind, Except.bind] at hin
    split at hin
    · cases hin
    next r hcons =>
    obtain ⟨t1, r⟩ := r
    cases r with
    | none => cases hin
    | some h1 =>
      dsimp only at hin
      split at hin
      · cases hin
      next ip1 hip1 =>
      split at hin
      · cases hin
        have hring1 : t1.list.Ring head [] := hring
        exact absurd hring1 (cons_not_alone ht hfree hcut hcons)
      · cases hin

/-- What reaches a routine above in one `skbuff` is sane exactly if an
accepted header is at least 20 bytes long and the datagram at least as long
as the header. -/
theorem header_checked (hs : s.Framed) (ht : t.Held s.hdr) (hfree : t.live p = false) (now : Nat) :
    (∀ t' u head ip, inputIpPacket addr t now p s = .ok (t', some (u, head, ip)) → t'.list.Ring head [] →
        Sane s u (t'.skb head) ip) ↔
      (Accepted addr s → isPacketFrag s.hdr = false → (upper s.hdr.protocol).isSome = true →
        20 ≤ s.hdr.hdrLen ∧ s.hdr.hdrLen ≤ s.hdr.totLen) := by
  constructor
  · intro hsane hacc hfrag hup
    obtain ⟨u, hu⟩ := Option.isSome_iff_exists.1 hup
    exact (hsane _ u p s.hdr (input_whole hs hacc hfrag hu now) (receive_self t s.cut)).header
  · intro hcond t' u head ip hin hring
    obtain ⟨hacc, hfrag, hup, rfl, hskb⟩ := input_alone hs ht hfree hin hring
    obtain ⟨hmin, hmax⟩ := hcond hacc hfrag (by rw [hup]; rfl)
    rw [hskb]
    exact sane_cut hs hacc u hmin hmax

-- ======== examples

/-- A frame with these bytes, behind a link header. -/
def frameOf (bytes : List Byte) : Skbuff :=
  ⟨⟨0, 0, 0, 0, 0, 0, 0, 0, 0⟩, fun i => bytes.getD (i - 14) 0, 14, 14 + bytes.length, bytes.length⟩

theorem frameOf_framed (bytes : List Byte) (hlen : bytes.length < 2048) : (frameOf bytes).Framed := by
  refine ⟨Nat.le_add_right .., ?_, ?_⟩
  · show (bytes.length : Int) = ((14 + bytes.length : Nat) : Int) - (14 : Nat)
    omega
  · show 14 + bytes.length < 2 ^ 31
    omega

theorem empty_held (k : IpHdr) : (FragTable.empty n).Held k :=
  .inl ⟨nofun, nofun⟩

/-- A TCP datagram of 10.0.0.1 to 10.0.0.2 with these two lengths, 20 bytes
and this checksum. -/
def tcpFrame (ihl totLen check : Nat) : Skbuff :=
  frameOf ([BitVec.ofNat 8 (64 + ihl), 0] ++ toBe16 totLen ++ [0, 1, 0, 0, 32, 6] ++ toBe16 check ++
    [10, 0, 0, 1, 10, 0, 0, 2])

theorem tcpFrame_framed (ihl totLen check : Nat) : (tcpFrame ihl totLen check).Framed :=
  frameOf_framed _ (by simp [toBe16])

/-- The address 10.0.0.2. -/
def hostAddr : Nat := 0x0a000002

/-- A header with four bytes of options, two bytes of data and two that
the link layer has added. -/
def paddedFrame : Skbuff :=
  frameOf [70, 0, 0, 26, 0, 1, 0, 0, 32, 6, 131, 217, 10, 0, 0, 1, 10, 0, 0, 2, 1, 1, 1, 1, 7, 8, 0, 0]

theorem header_checked_padded : Accepted hostAddr paddedFrame ∧ paddedFrame.hdr.hdrLen = 24 ∧
      ∀ t' u head ip, inputIpPacket hostAddr (FragTable.empty 1) 0 0 paddedFrame
          = .ok (t', some (u, head, ip)) → t'.list.Ring head [] →
        Sane paddedFrame u (t'.skb head) ip := by
  have hacc : Accepted hostAddr paddedFrame := by
    constructor <;> decide
  exact ⟨hacc, by decide,
    (header_checked (frameOf_framed _ (by decide)) (empty_held _) rfl 0).2 fun _ _ _ => by decide⟩

/-- The header says that the datagram has no bytes at all. -/
theorem total_zero_passes :
    ∃ t' : FragTable 1, inputIpPacket hostAddr (FragTable.empty 1) 0 0 (tcpFrame 5 0 34549)
        = .ok (t', some (.tcp, 0, (tcpFrame 5 0 34549).hdr)) ∧ t'.list.Ring 0 [] ∧
      (t'.skb 0).dgramLen = -20 ∧ ¬ Sane (tcpFrame 5 0 34549) .tcp (t'.skb 0) (tcpFrame 5 0 34549).hdr := by
  have hacc : Accepted hostAddr (tcpFrame 5 0 34549) := by
    constructor <;> decide
  refine ⟨_, input_whole (tcpFrame_framed 5 0 34549) hacc (by decide) (by decide) 0, receive_self _ _, ?_,
    fun hsane => ?_⟩
  · decide
  · exact absurd hsane.header.2 (by decide)

end Cnix.Net
