/-
Which connection `get_match_tcpserv` finds.

The loop takes the first of the connections with the greatest value
(`matchLoop_max`, `matchLoop_head`). The value is 4 for a connection with
the addresses and ports of the segment and 0 for any other; a connection
that listens or is closed has a value as soon as it has the port. It is 4
less the number of fields that are unset and differ from the segment's
(`matchSocket_low`), so an address that is set and differs costs nothing.
The connection that the segment is for is found, whatever the order of the
list, if and only if each other one of this kind has more such fields
(`demux_iff`).
-/
import Mathlib.Data.List.Nodup
import Mathlib.Data.List.Perm.Basic
import Cnix.Net.TcpMatch

namespace Cnix.Net

variable {list : List ServAddr} {seg : SegAddr} {serv p t : ServAddr} {value : Nat}
  {differs unset : Bool}

-- ======== the value

namespace ServAddr

/-- The four addresses and ports. -/
def quad (serv : ServAddr) : SockAddr × SockAddr := (serv.srcaddr, serv.dstaddr)

/-- Closed or listening. -/
def Low (serv : ServAddr) : Prop := serv.state.rank ≤ TcpState.listen.rank

/-- The fields that are unset and differ from the segment's. -/
def wild (serv : ServAddr) (seg : SegAddr) : Nat :=
  (if serv.srcaddr.addr ≠ seg.daddr ∧ serv.srcaddr.addr = inaddrAny then 1 else 0)
    + (if serv.dstaddr.port ≠ seg.source ∧ serv.dstaddr.port = 0 then 1 else 0)
    + (if serv.dstaddr.addr ≠ seg.saddr ∧ serv.dstaddr.addr = inaddrAny then 1 else 0)

theorem wild_le : serv.wild seg ≤ 3 := by
  unfold wild
  split <;> split <;> split <;> omega

end ServAddr

/-- The two ends that the segment has, as seen from here. -/
def SegAddr.quad (seg : SegAddr) : SockAddr × SockAddr :=
  (⟨seg.daddr, seg.dest⟩, ⟨seg.saddr, seg.source⟩)

theorem quad_eq_iff : serv.quad = seg.quad ↔ serv.srcaddr.port = seg.dest
    ∧ serv.srcaddr.addr = seg.daddr ∧ serv.dstaddr.port = seg.source
    ∧ serv.dstaddr.addr = seg.saddr := by
  obtain ⟨state, ⟨saddr, sport⟩, ⟨daddr, dport⟩⟩ := serv
  simp only [ServAddr.quad, SegAddr.quad, Prod.mk.injEq, SockAddr.mk.injEq]
  constructor
  · rintro ⟨⟨h1, h2⟩, h3, h4⟩
    exact ⟨h2, h1, h4, h3⟩
  · rintro ⟨h2, h1, h4, h3⟩
    exact ⟨⟨h1, h2⟩, h3, h4⟩

theorem wild_of_quad (h : serv.quad = seg.quad) : serv.wild seg = 0 := by
  obtain ⟨-, haddr, hport, hpeer⟩ := quad_eq_iff.mp h
  simp [ServAddr.wild, haddr, hport, hpeer]

theorem matchSocket_port (h : serv.srcaddr.port ≠ seg.dest) : matchSocket serv seg = 0 := if_pos h

/-- One field of a connection that is closed or listens. -/
theorem matchField_low (h : serv.Low) :
    matchField serv.state differs unset value
      = some (value - if differs = true ∧ unset = true then 1 else 0) := by
  unfold matchField
  cases differs with
  | false => rfl
  | true =>
    rw [if_pos rfl, if_neg (Nat.not_lt.mpr h)]
    cases unset <;> rfl

theorem matchSocket_low (h : serv.Low) (hport : serv.srcaddr.port = seg.dest) :
    matchSocket serv seg = 4 - serv.wild seg := by
  unfold matchSocket ServAddr.wild
  rw [if_neg (not_not.mpr hport), matchField_low h, Option.bind_some, matchField_low h,
    Option.bind_some, matchField_low h, Option.getD_some]
  simp only [decide_eq_true_eq]
  omega

/-- One field of any other connection. -/
theorem matchField_high (h : ¬ serv.Low) :
    matchField serv.state differs unset value = if differs then none else some value := by
  unfold matchField
  rw [if_pos (Nat.not_le.mp h)]

theorem matchSocket_high (h : ¬ serv.Low) :
    matchSocket serv seg = if serv.quad = seg.quad then 4 else 0 := by
  unfold matchSocket
  simp only [quad_eq_iff, matchField_high h, decide_eq_true_eq]
  by_cases hport : serv.srcaddr.port = seg.dest
  · by_cases haddr : serv.srcaddr.addr = seg.daddr
    · by_cases hsource : serv.dstaddr.port = seg.source
      · by_cases hpeer : serv.dstaddr.addr = seg.saddr
        · simp [hport, haddr, hsource, hpeer]
        · simp [hport, haddr, hsource, hpeer]
      · simp [hport, haddr, hsource]
    · simp [hport, haddr]
  · rw [if_pos hport, if_neg (fun h => hport h.1)]

theorem matchSocket_le : matchSocket serv seg ≤ 4 := by
  by_cases hport : serv.srcaddr.port = seg.dest
  · by_cases hlow : serv.Low
    · rw [matchSocket_low hlow hport]
      omega
    · rw [matchSocket_high hlow]
      split <;> omega
  · rw [matchSocket_port hport]
    omega

-- ======== the loop

/-- No value in the list is greater. -/
theorem matchLoop_low {start : Option ServAddr} (h : ∀ p ∈ list, matchSocket p seg ≤ value) :
    matchLoop seg list start value = start := by
  induction list with
  | nil => rfl
  | cons serv1 list ih =>
    rw [List.forall_mem_cons] at h
    unfold matchLoop
    rw [if_neg (Nat.not_lt.mpr h.1)]
    exact ih h.2

/-- The first of the greatest value is found. -/
theorem matchLoop_head (hpos : 0 < matchSocket t seg)
    (h : ∀ p ∈ list, matchSocket p seg ≤ matchSocket t seg) :
    matchLoop seg (t :: list) none 0 = some t := by
  unfold matchLoop
  rw [if_pos hpos]
  split
  · rfl
  · exact matchLoop_low h

/-- The value of what has been found so far. -/
def grade (seg : SegAddr) (serv : Option ServAddr) : Nat :=
  match serv with
  | none => 0
  | some serv => matchSocket serv seg

/-- What is found has the greatest value. -/
theorem matchLoop_max : ∀ {list : List ServAddr} {start : Option ServAddr},
    grade seg start ≤ grade seg (matchLoop seg list start (grade seg start))
      ∧ ∀ p ∈ list, matchSocket p seg ≤ grade seg (matchLoop seg list start (grade seg start)) := by
  intro list
  induction list with
  | nil =>
    exact ⟨Nat.le_refl _, nofun⟩
  | cons serv1 list ih =>
    intro start
    rw [List.forall_mem_cons]
    unfold matchLoop
    dsimp only
    split
    · next hgt =>
      split
      · next htop =>
        -- nothing is above 4
        exact ⟨Nat.le_of_lt hgt, Nat.le_refl _, fun p _ => Nat.le_trans matchSocket_le htop⟩
      · obtain ⟨hstart, hrest⟩ := @ih (some serv1)
        exact ⟨Nat.le_trans (Nat.le_of_lt hgt) hstart, hstart, hrest⟩
    · next hle =>
      obtain ⟨hstart, hrest⟩ := @ih start
      exact ⟨hstart, Nat.le_trans (Nat.le_of_not_lt hle) hstart, hrest⟩

theorem matchLoop_mem : ∀ {list : List ServAddr} {start : Option ServAddr} {value : Nat},
    matchLoop seg list start value = some t → t ∈ list ∨ start = some t := by
  intro list
  induction list with
  | nil =>
    intro start value h
    exact .inr h
  | cons serv1 list ih =>
    intro start value h
    unfold matchLoop at h
    dsimp only at h
    split at h
    · split at h
      · cases h
        exact .inl (List.mem_cons_self ..)
      · rcases ih h with hmem | hstart
        · exact .inl (List.mem_cons_of_mem _ hmem)
        · cases hstart
          exact .inl (List.mem_cons_self ..)
    · rcases ih h with hmem | hstart
      · exact .inl (List.mem_cons_of_mem _ hmem)
      · exact .inr hstart

/-- A connection with a greater value than all others is found. -/
theorem matchLoop_only (hmem : t ∈ list) (hpos : 0 < matchSocket t seg)
    (h : ∀ p ∈ list, p ≠ t → matchSocket p seg < matchSocket t seg) :
    matchLoop seg list none 0 = some t := by
  have hmax := (@matchLoop_max seg list none).2 t hmem
  change matchSocket t seg ≤ grade seg (matchLoop seg list none 0) at hmax
  cases hloop : matchLoop seg list none 0 with
  | none =>
    rw [hloop] at hmax
    have h0 : matchSocket t seg ≤ 0 := hmax
    omega
  | some s =>
    rw [hloop] at hmax
    rcases matchLoop_mem hloop with hs | hs
    · by_contra hne
      have hlt := h s hs fun he => hne (by rw [he])
      have hge : matchSocket t seg ≤ matchSocket s seg := hmax
      omega
    · cases hs

/-- The list keeps its elements. -/
theorem getMatchTcpserv_perm : (getMatchTcpserv list seg).2.Perm list := by
  unfold getMatchTcpserv
  split
  · exact List.Perm.refl _
  · next serv hloop =>
    split
    · rcases matchLoop_mem hloop with hmem | hmem
      · exact (List.perm_cons_erase hmem).symm
      · cases hmem
    · exact List.Perm.refl _

theorem getMatchTcpserv_fst : (getMatchTcpserv list seg).1 = matchLoop seg list none 0 := by
  unfold getMatchTcpserv
  split
  · next h => exact h.symm
  · next h => exact h.symm

-- ======== the answer

/-- A connection with the addresses and ports of the segment. -/
def ServAddr.Connects (serv : ServAddr) (seg : SegAddr) : Prop :=
  serv.state ≠ .listen ∧ serv.quad = seg.quad

/-- A listening socket for the segment. -/
def ServAddr.Listens (serv : ServAddr) (seg : SegAddr) : Prop :=
  serv.state = .listen ∧ serv.srcaddr.port = seg.dest
    ∧ (serv.srcaddr.addr = seg.daddr ∨ serv.srcaddr.addr = inaddrAny)

/-- Who the segment is for: its connection, or else a listening socket,
one with the very address first, or else nobody. -/
def Addressee (list : List ServAddr) (seg : SegAddr) : Option ServAddr → Prop
  | none => ∀ p ∈ list, ¬ p.Connects seg ∧ ¬ p.Listens seg
  | some t => t ∈ list ∧ (t.Connects seg
      ∨ (∀ p ∈ list, ¬ p.Connects seg) ∧ t.Listens seg
        ∧ (t.srcaddr.addr = seg.daddr ∨ ∀ p ∈ list, p.Listens seg → p.srcaddr.addr ≠ seg.daddr))

/-- Each other connection that has the port and is closed or listens has
more fields that are unset and differ. -/
def Unrivalled (list : List ServAddr) (seg : SegAddr) : Option ServAddr → Prop
  | none => ∀ p ∈ list, p.srcaddr.port = seg.dest → ¬ p.Low
  | some t => ∀ p ∈ list, p ≠ t → p.srcaddr.port = seg.dest → p.Low → t.wild seg < p.wild seg

theorem listen_low (h : serv.state = .listen) : serv.Low := by
  exact Nat.le_of_eq (by rw [h])

/-- The value of the one the segment is for. -/
theorem Addressee.matches (h : Addressee list seg (some t)) :
    matchSocket t seg = 4 - t.wild seg ∧ t.srcaddr.port = seg.dest := by
  obtain ⟨-, ⟨-, hquad⟩ | ⟨-, ⟨hstate, hport, -⟩, -⟩⟩ := h
  · have hport := (quad_eq_iff.mp hquad).1
    refine ⟨?_, hport⟩
    by_cases hlow : t.Low
    · exact matchSocket_low hlow hport
    · rw [matchSocket_high hlow, if_pos hquad, wild_of_quad hquad]
  · exact ⟨matchSocket_low (listen_low hstate) hport, hport⟩

/-- A connection that is neither closed nor listens has a value only for
its own segments. -/
theorem matchSocket_stranger (hhigh : ¬ p.Low) (h : ¬ p.Connects seg) : matchSocket p seg = 0 := by
  rw [matchSocket_high hhigh]
  refine if_neg fun hquad => h ⟨fun hstate => hhigh (listen_low hstate), hquad⟩

theorem Unrivalled.lt (hquads : (list.map ServAddr.quad).Nodup)
    (hto : Addressee list seg (some t)) (h : Unrivalled list seg (some t)) (hp : p ∈ list)
    (hne : p ≠ t) : matchSocket p seg < matchSocket t seg := by
  have hvalue := hto.matches.1
  have hwild := @ServAddr.wild_le seg t
  by_cases hport : p.srcaddr.port = seg.dest
  · by_cases hlow : p.Low
    · have hlt := h p hp hne hport hlow
      rw [matchSocket_low hlow hport]
      omega
    · have hother : ¬ p.Connects seg := by
        intro hconn
        obtain ⟨ht, htconn | ⟨hnone, -⟩⟩ := hto
        · exact hne (List.inj_on_of_nodup_map hquads hp ht (hconn.2.trans htconn.2.symm))
        · exact hnone p hp hconn
      rw [matchSocket_stranger hlow hother]
      omega
  · rw [matchSocket_port hport]
    omega

theorem Unrivalled.le_zero (hto : Addressee list seg none) (h : Unrivalled list seg none)
    (hp : p ∈ list) : matchSocket p seg ≤ 0 := by
  by_cases hport : p.srcaddr.port = seg.dest
  · exact Nat.le_of_eq (matchSocket_stranger (h p hp hport) (hto p hp).1)
  · exact Nat.le_of_eq (matchSocket_port hport)

/-- The one that the segment is for is found in every order of the list,
if and only if it has no rival. -/
theorem demux_iff (list : List ServAddr) (seg : SegAddr) (hquads : (list.map ServAddr.quad).Nodup) :
    (∃ r, Addressee list seg r ∧ ∀ list' : List ServAddr, list'.Perm list →
        (getMatchTcpserv list' seg).1 = r ∧ (getMatchTcpserv list' seg).2.Perm list)
      ↔ ∃ r, Addressee list seg r ∧ Unrivalled list seg r := by
  constructor
  · rintro ⟨r, hto, hfound⟩
    refine ⟨r, hto, ?_⟩
    have hself := (hfound list (List.Perm.refl _)).1
    rw [getMatchTcpserv_fst] at hself
    have hmax := (@matchLoop_max seg list none).2
    change ∀ p ∈ list, _ ≤ grade seg (matchLoop seg list none 0) at hmax
    rw [hself] at hmax
    cases r with
    | none =>
      intro p hp hport hlow
      have hle : matchSocket p seg ≤ 0 := hmax p hp
      have hwild := @ServAddr.wild_le seg p
      rw [matchSocket_low hlow hport] at hle
      omega
    | some t =>
      intro p hp hne hport hlow
      by_contra hrival
      have hle : matchSocket p seg ≤ matchSocket t seg := hmax p hp
      have heq : matchSocket p seg = matchSocket t seg := by
        rw [matchSocket_low hlow hport, hto.matches.1] at hle ⊢
        omega
      -- the rival is found when it comes first
      have hfirst := (hfound (p :: list.erase p) (List.perm_cons_erase hp).symm).1
      have hwild := @ServAddr.wild_le seg t
      have hvalue := hto.matches.1
      rw [getMatchTcpserv_fst, matchLoop_head (by omega) fun q hq => by
        rw [heq]
        exact hmax q (List.mem_of_mem_erase hq)] at hfirst
      exact hne (Option.some.inj hfirst)
  · rintro ⟨r, hto, hclear⟩
    refine ⟨r, hto, fun list' hperm => ⟨?_, getMatchTcpserv_perm.trans hperm⟩⟩
    rw [getMatchTcpserv_fst]
    cases r with
    | none => exact matchLoop_low fun p hp => hclear.le_zero hto (hperm.mem_iff.mp hp)
    | some t =>
      have hwild := @ServAddr.wild_le seg t
      have hvalue := hto.matches.1
      exact matchLoop_only (hperm.mem_iff.mpr hto.1) (by omega) fun p hp hne =>
        hclear.lt hquads hto (hperm.mem_iff.mp hp) hne

/-- A socket that listens on port 80 of an address. -/
def listener (addr : BitVec 32) : ServAddr := ⟨.listen, ⟨addr, 80⟩, ⟨inaddrAny, 0⟩⟩

/-- A segment to port 80 of an address. -/
def segmentTo (daddr : BitVec 32) : SegAddr := ⟨0x0a000063, 4000, daddr, 80⟩

instance : Decidable (serv.Connects seg) := inferInstanceAs (Decidable (_ ∧ _))

instance : Decidable (serv.Listens seg) := inferInstanceAs (Decidable (_ ∧ _))

instance : Decidable serv.Low := inferInstanceAs (Decidable (_ ≤ _))

instance : (r : Option ServAddr) → Decidable (Addressee list seg r ∧ Unrivalled list seg r)
  | none => inferInstanceAs (Decidable ((∀ p ∈ list, _) ∧ ∀ p ∈ list, _))
  | some _ => inferInstanceAs (Decidable ((_ ∈ list ∧ _) ∧ ∀ p ∈ list, _))

/-- Two connections of one server, and who else listens on its port. -/
def serverTable : List ServAddr :=
  [⟨.established, ⟨0x0a000001, 80⟩, ⟨0x0a000063, 4000⟩⟩, listener 0,
    ⟨.finWait1, ⟨0x0a000001, 80⟩, ⟨0x0a000064, 4000⟩⟩, listener 0x0a000001]

/-- A segment of a connection, one of a new client and one to a port where
nobody listens. -/
def serverTraffic : List (SegAddr × Option ServAddr) :=
  [(segmentTo 0x0a000001, serverTable[0]?),
    ({ segmentTo 0x0a000001 with source := 4001 }, some (listener 0x0a000001)),
    ({ segmentTo 0x0a000001 with dest := 81 }, none)]

/-- In whatever order the four are, each segment gets where it belongs. -/
theorem demux_server : (serverTable.map ServAddr.quad).Nodup ∧
    ∀ x ∈ serverTraffic, Addressee serverTable x.1 x.2 ∧
      ∀ list' : List ServAddr, list'.Perm serverTable → (getMatchTcpserv list' x.1).1 = x.2 := by
  refine ⟨by decide, fun x hx => ?_⟩
  have hclear : ∀ x ∈ serverTraffic, Addressee serverTable x.1 x.2 ∧ Unrivalled serverTable x.1 x.2 := by
    decide
  have hself : ∀ x ∈ serverTraffic, (getMatchTcpserv serverTable x.1).1 = x.2 := by decide
  obtain ⟨r, -, hfound⟩ := (demux_iff serverTable x.1 (by decide)).mpr ⟨x.2, hclear x hx⟩
  refine ⟨(hclear x hx).1, fun list' hperm => ?_⟩
  rw [(hfound list' hperm).1, ← (hfound serverTable (List.Perm.refl _)).1, hself x hx]

/-- Two sockets listen on two addresses. The one that comes first gets the
segments to the other. -/
theorem demux_wrong_address : ∃ (list : List ServAddr) (seg : SegAddr),
    (list.map ServAddr.quad).Nodup ∧ ¬ Addressee list seg (getMatchTcpserv list seg).1 := by
  refine ⟨[listener 0x0a000002, listener 0x0a000001], segmentTo 0x0a000001, by decide, ?_⟩
  rintro ⟨-, ⟨hstate, -⟩ | ⟨-, ⟨-, -, haddr⟩, -⟩⟩
  · exact hstate rfl
  · exact absurd haddr (by decide)

end Cnix.Net
