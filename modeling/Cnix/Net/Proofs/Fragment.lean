/-
What `ip_fragment` makes of a chain.

`Laid` says that a list of fragments is one behind the other from an
offset on, each with its header. `split_skb` puts more of them in front
(`splitSkb_laid`), and so does `ip_fragment` until nothing is left
(`ipFragment_laid`). How many fragments there are is counted on the way:
two, if they are to come back in any order.
-/
import Cnix.Net.IpOutput
import Cnix.Net.Proofs.Defrag

namespace Cnix.Net

open Lib FragTable

variable {ip : IpHdr} {mtu offset fuel : Nat} {frags : List Fragment} {chain rest : List OutSkb}
  {bytes : List Byte} {skb first : OutSkb}

-- ======== the list

/-- The data of a list of fragments. -/
def fragBytes (frags : List Fragment) : List Byte := frags.flatMap Fragment.bytes

/-- The fragments follow each other from `offset` on. -/
def Laid (ip : IpHdr) (mtu : Nat) : Nat → List Fragment → Prop
  | _, [] => True
  | offset, f :: fs =>
    f.ip = fragHdr ip offset (moreFlag fs) (f.bytes.length + ipNormHeadLen) ∧
      f.bytes.length ≤ mtu - ipNormHeadLen ∧ Laid ip mtu (offset + f.bytes.length) fs

/-- A piece is cut off, and not more than fits. -/
theorem cutLen_spec {dlen : Nat} (last : Bool) (hmtu : 68 ≤ mtu) (hlong : mtu - 20 < dlen) :
    0 < cutLen mtu (mtu - 20) dlen last ∧ cutLen mtu (mtu - 20) dlen last ≤ mtu - 20 ∧
      mtu - 20 ≤ dlen - cutLen mtu (mtu - 20) dlen last := by
  unfold cutLen ipNormHeadLen
  cases last with
  | true =>
    simp only [if_true]
    split <;> omega
  | false =>
    simp only [Bool.false_eq_true, if_false]
    split <;> omega

/-- The loop cuts pieces off until just as much is left as fits. -/
theorem splitLoop_laid (hmtu : 68 ≤ mtu) (hfuel : bytes.length ≤ fuel)
    (hoff : bytes.length ≤ offset) (hlaid : Laid ip mtu offset frags) :
    ∃ bytes' offset' frags', splitLoop ip mtu (mtu - 20) fuel bytes offset frags = (bytes', offset', frags') ∧
      Laid ip mtu offset' frags' ∧ bytes'.length ≤ mtu - 20 ∧
      bytes' ++ fragBytes frags' = bytes ++ fragBytes frags ∧
      offset' + bytes.length = offset + bytes'.length ∧
      (bytes.length ≤ mtu - 20 → bytes' = bytes ∧ frags' = frags) ∧
      (mtu - 20 < bytes.length → bytes'.length = mtu - 20 ∧ frags.length < frags'.length) := by
  induction fuel generalizing bytes offset frags with
  | zero =>
    exact ⟨bytes, offset, frags, rfl, hlaid, by omega, rfl, rfl, fun _ => ⟨rfl, rfl⟩, fun h => by omega⟩
  | succ fuel ih =>
    by_cases hshort : bytes.length ≤ mtu - 20
    · exact ⟨bytes, offset, frags, if_pos hshort, hlaid, hshort, rfl, rfl, fun _ => ⟨rfl, rfl⟩,
        fun h => absurd h (Nat.not_lt.2 hshort)⟩
    · have hlong : mtu - 20 < bytes.length := Nat.lt_of_not_le hshort
      obtain ⟨hpos, hle, hleft⟩ := cutLen_spec frags.isEmpty hmtu hlong
      rw [splitLoop, if_neg hshort]
      generalize hlen : cutLen mtu (mtu - 20) bytes.length frags.isEmpty = len at hpos hle hleft ⊢
      dsimp only
      generalize hf : (⟨fragHdr ip (offset - len) (moreFlag frags) (len + ipNormHeadLen),
        bytes.drop (bytes.length - len)⟩ : Fragment) = f
      have hflen : f.bytes.length = len := by
        rw [← hf, List.length_drop]
        omega
      have htake : (bytes.take (bytes.length - len)).length = bytes.length - len := by
        rw [List.length_take]
        omega
      have hlaid' : Laid ip mtu (offset - len) (f :: frags) := by
        refine ⟨?_, ?_, ?_⟩
        · rw [hflen, ← hf]
        · rw [hflen]
          exact hle
        · rw [hflen, show offset - len + len = offset by omega]
          exact hlaid
      obtain ⟨bytes', offset', frags', hloop, hlaid'', hle', hbytes, hoffset, hsame, hmore⟩ :=
        ih (show (bytes.take (bytes.length - len)).length ≤ fuel by rw [htake]; omega) (by rw [htake]; omega) hlaid'
      refine ⟨bytes', offset', frags', hloop, hlaid'', hle', ?_, by rw [htake] at hoffset; omega,
        fun h => absurd h hshort, fun _ => ?_⟩
      · have hjoin : bytes.take (bytes.length - len) ++ f.bytes = bytes := by
          rw [← hf]
          exact List.take_append_drop ..
        rw [hbytes, fragBytes, List.flatMap_cons, ← List.append_assoc, hjoin]
        rfl
      · by_cases hdone : (bytes.take (bytes.length - len)).length ≤ mtu - 20
        · obtain ⟨rfl, rfl⟩ := hsame hdone
          refine ⟨?_, Nat.lt_succ_self _⟩
          omega
        · obtain ⟨hfull, hcount⟩ := hmore (Nat.lt_of_not_le hdone)
          exact ⟨hfull, Nat.lt_of_succ_lt hcount⟩

/-- A whole datagram in one `skbuff` is cut once exactly if what is cut off
at most leaves not too much. -/
theorem splitLoop_once (hmtu : 68 ≤ mtu) (hfuel : bytes.length ≤ fuel)
    (hoff : bytes.length ≤ offset) (hlong : mtu - 20 < bytes.length) :
    (splitLoop ip mtu (mtu - 20) fuel bytes offset []).2.2.length = 1 ↔
      bytes.length ≤ 2 * (mtu - 20) - 8 + bytes.length % 8 := by
  obtain ⟨fuel, rfl⟩ : ∃ k, fuel = k + 1 := ⟨fuel - 1, by omega⟩
  rw [splitLoop, if_neg (Nat.not_le.2 hlong)]
  have hcut : bytes.length - cutLen mtu (mtu - 20) bytes.length true ≤ mtu - 20 ↔
      bytes.length ≤ 2 * (mtu - 20) - 8 + bytes.length % 8 := by
    unfold cutLen ipNormHeadLen
    simp only [if_true]
    split <;> omega
  obtain ⟨hpos, hle, hleft⟩ := cutLen_spec true hmtu hlong
  rw [← hcut]
  rw [show ([] : List Fragment).isEmpty = true from rfl]
  generalize cutLen mtu (mtu - 20) bytes.length true = len at hpos hle hleft ⊢
  dsimp only
  generalize hf : (⟨fragHdr ip (offset - len) (moreFlag []) (len + ipNormHeadLen),
    bytes.drop (bytes.length - len)⟩ : Fragment) = f
  have htake : (bytes.take (bytes.length - len)).length = bytes.length - len := by
    rw [List.length_take]
    omega
  have hflen : f.bytes.length = len := by
    rw [← hf, List.length_drop]
    omega
  have hlaid : Laid ip mtu (offset - len) [f] := by
    refine ⟨?_, ?_, trivial⟩
    · rw [hflen, ← hf]
    · rw [hflen]
      exact hle
  obtain ⟨bytes', offset', frags', hloop, -, -, -, -, hsame, hmore⟩ := splitLoop_laid hmtu
    (show (bytes.take (bytes.length - len)).length ≤ fuel by rw [htake]; omega) (by rw [htake]; omega) hlaid
  rw [hloop]
  by_cases hdone : bytes.length - len ≤ mtu - 20
  · obtain ⟨-, rfl⟩ := hsame (by rw [htake]; exact hdone)
    exact iff_of_true rfl hdone
  · have hcount : 1 < frags'.length := (hmore (by rw [htake]; omega)).2
    exact iff_of_false (fun h : frags'.length = 1 => by omega) hdone

-- ======== split_skb

/-- The `skbuff` has data, and if it has the header as well its data is
the first. -/
def OutSkb.At (skb : OutSkb) (offset : Nat) : Prop :=
  skb.flag = .data ∨ skb.flag = .headData ∧ offset = skb.bytes.length

/-- `split_skb` for both kinds of `skbuff` with data. -/
theorem splitSkb_eq (hihl : ip.hdrLen = 20) (hat : skb.At offset) (hmtu : 68 ≤ mtu)
    (hlaid : Laid ip mtu offset frags) (hoff : skb.bytes.length ≤ offset) :
    splitSkb ip mtu skb offset frags =
      let r := splitLoop ip mtu (mtu - 20) skb.bytes.length skb.bytes offset frags
      .ok (⟨fragHdr ip (r.2.1 - r.1.length) (moreFlag r.2.2) (r.1.length + ipNormHeadLen), r.1⟩ :: r.2.2) := by
  rcases hat with hflag | ⟨hflag, hfirst⟩
  · rw [splitSkb, hflag]
    rfl
  · obtain ⟨bytes', offset', frags', hloop, -, -, -, hoffset, -, -⟩ :=
      splitLoop_laid hmtu (Nat.le_refl _) hoff hlaid
    rw [splitSkb, hflag]
    simp only [hihl, hloop]
    rw [if_neg (by omega)]
    rfl

theorem splitSkb_laid (hihl : ip.hdrLen = 20) (hat : skb.At offset) (hmtu : 68 ≤ mtu)
    (hlaid : Laid ip mtu offset frags) (hoff : skb.bytes.length ≤ offset) :
    ∃ f fs, splitSkb ip mtu skb offset frags = .ok (f :: fs) ∧
      Laid ip mtu (offset - skb.bytes.length) (f :: fs) ∧
      fragBytes (f :: fs) = skb.bytes ++ fragBytes frags ∧
      f.bytes.length = min skb.bytes.length (mtu - 20) ∧ frags.length ≤ fs.length ∧
      (skb.bytes.length ≤ mtu - 20 ↔ fs.length = frags.length) := by
  obtain ⟨bytes', offset', frags', hloop, hlaid', hle, hbytes, hoffset, hsame, hmore⟩ :=
    splitLoop_laid hmtu (Nat.le_refl _) hoff hlaid
  refine ⟨_, _, splitSkb_eq hihl hat hmtu hlaid hoff, ?_, ?_, ?_, ?_, ?_⟩
  · rw [hloop]
    refine ⟨?_, hle, ?_⟩
    · rw [show offset - skb.bytes.length = offset' - bytes'.length by omega]
    · rw [show offset - skb.bytes.length + bytes'.length = offset' by omega]
      exact hlaid'
  · rw [hloop, fragBytes, List.flatMap_cons]
    exact hbytes
  · rw [hloop]
    by_cases hshort : skb.bytes.length ≤ mtu - 20
    · rw [(hsame hshort).1, Nat.min_eq_left hshort]
    · rw [(hmore (Nat.lt_of_not_le hshort)).1, Nat.min_eq_right (Nat.le_of_not_le hshort)]
  · rw [hloop]
    by_cases hshort : skb.bytes.length ≤ mtu - 20
    · rw [(hsame hshort).2]
    · exact Nat.le_of_lt (hmore (Nat.lt_of_not_le hshort)).2
  · rw [hloop]
    show _ ↔ frags'.length = frags.length
    by_cases hshort : skb.bytes.length ≤ mtu - 20
    · rw [(hsame hshort).2]
      exact iff_of_true hshort rfl
    · exact iff_of_false hshort (by omega)

-- ======== ip_fragment

/-- The chain of a sender: the header is in front of the data of the
first. -/
structure Sent (first : OutSkb) (rest : List OutSkb) : Prop where
  first : first.flag = .headData
  rest : ∀ x ∈ rest, x.flag = .data

/-- The loop leaves fragments from the beginning on, at least one for each
member. -/
theorem fragmentLoop_laid (hihl : ip.hdrLen = 20) (hmtu : 68 ≤ mtu)
    (hfirst : first.flag = .headData) (hrest : ∀ x ∈ rest, x.flag = .data)
    (hoff : offset = (chainBytes (first :: rest.reverse)).length) (hlaid : Laid ip mtu offset frags) :
    ∃ f fs, fragmentLoop ip mtu (rest ++ [first]) offset frags = .ok (f :: fs) ∧ Laid ip mtu 0 (f :: fs) ∧
      fragBytes (f :: fs) = chainBytes (first :: rest.reverse) ++ fragBytes frags ∧
      f.bytes.length = min first.bytes.length (mtu - 20) ∧ frags.length + rest.length ≤ fs.length ∧
      ((∀ x ∈ first :: rest, x.bytes.length ≤ mtu - 20) ↔ fs.length = frags.length + rest.length) := by
  induction rest generalizing offset frags with
  | nil =>
    have hlen : offset = first.bytes.length := by simpa [chainBytes] using hoff
    obtain ⟨f, fs, hsplit, hlaid', hbytes, hflen, hle, hcount⟩ := splitSkb_laid hihl
      (.inr ⟨hfirst, hlen⟩) hmtu hlaid (Nat.le_of_eq hlen.symm)
    refine ⟨f, fs, ?_, ?_, ?_, hflen, hle, ?_⟩
    · rw [List.nil_append, fragmentLoop, hsplit]
      rfl
    · rwa [hlen, Nat.sub_self] at hlaid'
    · rw [hbytes]
      simp [chainBytes]
    · simpa using hcount
  | cons y rest ih =>
    have hoff' : offset = (chainBytes (first :: rest.reverse)).length + y.bytes.length := by
      rw [hoff]
      simp only [chainBytes, List.reverse_cons, List.flatMap_cons, List.flatMap_append, List.length_append,
        List.flatMap_nil, List.length_nil]
      omega
    obtain ⟨g, gs, hsplit, hlaid1, hbytes1, -, hle1, hcount1⟩ := splitSkb_laid hihl
      (.inl (hrest y List.mem_cons_self)) hmtu hlaid (show y.bytes.length ≤ offset by omega)
    obtain ⟨f, fs, hloop, hlaid', hbytes, hflen, hle, hcount⟩ := ih
      (fun x hx => hrest x (List.mem_cons_of_mem _ hx)) (by omega) hlaid1
    rw [List.length_cons] at hle hcount
    refine ⟨f, fs, ?_, hlaid', ?_, hflen, ?_, ?_⟩
    · rw [List.cons_append, fragmentLoop, hsplit]
      exact hloop
    · rw [hbytes, hbytes1]
      simp [chainBytes]
    · rw [List.length_cons]
      omega
    · rw [List.length_cons]
      constructor
      · intro hall
        have h1 := hcount1.1 (hall y (by simp))
        have h2 := hcount.1 (fun x hx => hall x (by
          rcases List.mem_cons.1 hx with rfl | hx
          · exact List.mem_cons_self
          · simp [hx]))
        omega
      · intro heq
        have h1 := hcount1.2 (by omega)
        have h2 := hcount.2 (by omega)
        intro x hx
        rcases List.mem_cons.1 hx with rfl | hx
        · exact h2 x List.mem_cons_self
        · rcases List.mem_cons.1 hx with rfl | hx
          · exact h1
          · exact h2 x (List.mem_cons_of_mem _ hx)

/-- `ip_fragment` leaves the bytes of the chain. -/
theorem ipFragment_laid (hihl : ip.hdrLen = 20) (hmtu : 68 ≤ mtu) (hsent : Sent first rest) :
    ∃ f fs, ipFragment ip mtu (first :: rest) = .ok (f :: fs) ∧ Laid ip mtu 0 (f :: fs) ∧
      fragBytes (f :: fs) = chainBytes (first :: rest) ∧
      f.bytes.length = min first.bytes.length (mtu - 20) ∧ rest.length ≤ fs.length ∧
      ((∀ x ∈ first :: rest, x.bytes.length ≤ mtu - 20) ↔ fs.length = rest.length) := by
  obtain ⟨f, fs, hloop, hlaid, hbytes, hflen, hle, hcount⟩ := fragmentLoop_laid hihl hmtu
    hsent.first (fun x (hx : x ∈ rest.reverse) => hsent.rest x (List.mem_reverse.1 hx)) rfl
    (show Laid ip mtu _ [] from trivial)
  rw [List.length_reverse, List.length_nil, Nat.zero_add] at hle hcount
  refine ⟨f, fs, ?_, hlaid, ?_, hflen, hle, ?_⟩
  · rw [ipFragment, List.reverse_cons, ← hloop, List.reverse_reverse]
  · rw [hbytes]
    simp [fragBytes]
  · simpa using hcount

/-- A datagram in one `skbuff` becomes two fragments exactly if what is cut
off at most leaves not too much. -/
theorem ipFragment_once (hihl : ip.hdrLen = 20) (hmtu : 68 ≤ mtu) (hsent : Sent first [])
    (hlong : mtu - 20 < first.bytes.length) {f : Fragment} {fs : List Fragment}
    (hfrags : ipFragment ip mtu [first] = .ok (f :: fs)) :
    fs.length = 1 ↔ first.bytes.length ≤ 2 * (mtu - 20) - 8 + first.bytes.length % 8 := by
  have hlen : (chainBytes [first]).length = first.bytes.length := by simp [chainBytes]
  have hsplit := splitSkb_eq hihl (.inr ⟨hsent.first, rfl⟩) hmtu
    (show Laid ip mtu first.bytes.length [] from trivial) (Nat.le_refl _)
  rw [ipFragment, hlen] at hfrags
  simp only [List.reverse_singleton, fragmentLoop, hsplit, bind, Except.bind] at hfrags
  cases hfrags
  exact splitLoop_once hmtu (Nat.le_refl _) (Nat.le_refl _) hlong

end Cnix.Net
