/-
How many zones a file of a given length takes.

A file that is written from its beginning on has, for every block up to
its end, the zone of the block and the indirect zones on the way to it, and
no other (`Covers`). `zonesFor` are the slots of these zones. Beyond the
reach of the single indirect zone `calc_block_nr` leaves out the 256 data
zones under this zone and the double indirect zone.
-/
import Mathlib.Data.Set.Card
import Cnix.Lib.Runs
import Cnix.Fs.Proofs.Conservation

namespace Cnix.Fs

open Lib

variable {fs fs' : Files} {a pos len n : Nat} {s t : Slot} {src : List Byte}

/-- The zones of a file. -/
def Files.zones (fs : Files) (a : Nat) : Set Nat := {z | z ≠ 0 ∧ ∃ s, fs.ref (a, s) = z}

/-- An empty file is written from its beginning on: `len` bytes so far. -/
inductive Appended (a : Nat) : Nat → Files → Prop
  | empty {fs : Files} : Sound fs [] → fs.live a = true → (∀ s, fs.ref (a, s) = 0) →
      Appended a 0 fs
  | write {len : Nat} {fs : Files} {lost : Block} {src : List Byte} {w : Written} :
      Appended a len fs → doWrite lost fs.vol (fs.inode a) len src = .ok w →
      w.ret = .ok src.length → Appended a (len + src.length) (fs.set a w.vol w.ino)

/-- The file has what its first `len` bytes take, and no more. -/
def Covers (fs : Files) (a len : Nat) : Prop :=
  ∀ s, fs.ref (a, s) ≠ 0 ↔ ∃ x < len, s ∈ (slotOf (x / blocksiz)).path

-- ======== the writes

/-- The indirect zones on the way to a zone are there. -/
theorem ref_path (ha : fs.live a = true) (ht : fs.ref (a, t) ≠ 0) (hs : s ∈ t.path) :
    fs.ref (a, s) ≠ 0 := by
  have hup {u : Slot} {i : Nat} (hu : u.isNode = true) (hne : fs.ref (a, u.child i) ≠ 0) :
      fs.ref (a, u) ≠ 0 := by
    intro hzero
    rw [ref_live ha] at hzero hne
    rw [zoneOf_child hu, hzero] at hne
    exact hne (if_pos (.inl rfl))
  cases t with
  | ind i =>
    rcases List.mem_cons.mp hs with rfl | hs
    · exact hup (u := .single) rfl ht
    · rw [List.mem_singleton.mp hs]
      exact ht
  | leaf i j =>
    have hmid := hup (u := .mid i) rfl ht
    rcases List.mem_cons.mp hs with rfl | hs
    · exact hup (u := .double) rfl hmid
    · rcases List.mem_cons.mp hs with rfl | hs
      · exact hmid
      · rw [List.mem_singleton.mp hs]
        exact ht
  | direct i | single | double | mid i => rw [List.mem_singleton.mp hs]; exact ht

/-- One round of a write at the end of what is covered. -/
theorem BlockWritten.covers (h : BlockWritten a pos src fs true fs') (ha : fs'.live a = true)
    (hsrc : src ≠ []) (hfit : pos % blocksiz + src.length ≤ blocksiz) (hc : Covers fs a pos) :
    Covers fs' a (pos + src.length) := by
  have hlen := List.length_pos_iff.mpr hsrc
  have hnew := (h.filled rfl).1
  intro s
  constructor
  · intro hne
    by_cases hsame : fs'.ref (a, s) = fs.ref (a, s)
    · obtain ⟨x, hx, hs⟩ := (hc s).mp (hsame ▸ hne)
      exact ⟨x, by omega, hs⟩
    · exact ⟨pos, by omega, h.grown.path s hsame⟩
  · rintro ⟨x, hx, hs⟩
    by_cases hold : x < pos
    · have hne := (hc s).mpr ⟨x, hold, hs⟩
      rw [h.grown.kept s hne]
      exact hne
    · have hblock : x / blocksiz = pos / blocksiz := by
        have hbs : blocksiz = 1024 := rfl
        rw [hbs] at hfit ⊢
        omega
      rw [hblock] at hs
      exact ref_path ha hnew hs

/-- All rounds of a write that succeeds. -/
theorem writeRule_covers {lost : Block} {fpos : Nat} :
    WriteRule a fpos lost fun pos src fs w fs' => fs'.live a = true → w.ret = .ok n →
      Covers fs a pos → Covers fs' a (pos + src.length) where
  nil := fun _ _ _ hc => hc
  efbig := nofun
  eio := nofun
  step := fun {pos src _ _ _ _ _} _ ha hsrc _ _ hnow hrest hlive hret hc => by
    have hall := hrest hlive hret (hnow.covers ha (chunk_ne_nil pos hsrc) (chunk_fits pos src) hc)
    rwa [Nat.add_assoc, ← List.length_append, List.take_append_drop] at hall

theorem Appended.covers (h : Appended a len fs) :
    Sound fs [] ∧ fs.live a = true ∧ Covers fs a len := by
  induction h with
  | empty hsound ha hempty =>
    refine ⟨hsound, ha, fun s => ⟨fun hne => absurd (hempty s) hne, ?_⟩⟩
    rintro ⟨x, hx, -⟩
    cases hx
  | write _ hw hret ih =>
    obtain ⟨hsound, ha, hc⟩ := ih
    obtain ⟨w', hw', htrans⟩ := hsound.doWrite ha _
    rw [hw] at hw'
    cases hw'
    obtain ⟨w', hw', hcovers⟩ := writeRule_covers.writeLoop _ hsound ha (Nat.le_refl _)
    rw [show writeLoop _ _ _ _ _ _ _ = _ from hw] at hw'
    cases hw'
    exact ⟨htrans.sound, ha, hcovers ha hret hc⟩

-- ======== the count

/-- The slots that the first `n` blocks take. -/
def zonesFor (n : Nat) : Finset Slot :=
  (Finset.range n).biUnion fun b => (slotOf b).path.toFinset

theorem mem_zonesFor : s ∈ zonesFor n ↔ ∃ b < n, s ∈ (slotOf b).path := by
  simp [zonesFor]

/-- The three kinds of blocks, with the indirect zones they need. -/
theorem block_cases (n : Nat) : n < 7 ∧ (slotOf n).path = [slotOf n]
    ∨ 7 ≤ n ∧ n < 263 ∧ (slotOf n).path = [.single, slotOf n]
    ∨ 263 ≤ n ∧ (slotOf n).path = [.double, .mid ((n - 263) / 256), slotOf n] := by
  have hslot : slotOf n = if n < 7 then .direct n else if n - 7 < 256 then .ind (n - 7)
      else .leaf ((n - 7 - 256) / 256) ((n - 7 - 256) % 256) := rfl
  by_cases h : n < 7
  · rw [if_pos h] at hslot
    exact .inl ⟨h, by rw [hslot]; rfl⟩
  · rw [if_neg h] at hslot
    by_cases h' : n < 263
    · rw [if_pos (by omega)] at hslot
      exact .inr (.inl ⟨by omega, h', by rw [hslot]; rfl⟩)
    · rw [if_neg (by omega), Nat.sub_sub] at hslot
      exact .inr (.inr ⟨by omega, by rw [hslot]; rfl⟩)

/-- An indirect zone comes with the first block that needs it. -/
theorem node_mem_zonesFor (hs : s.isNode = true) : s ∈ zonesFor n
    ↔ s = .single ∧ 7 < n ∨ s = .double ∧ 263 < n ∨ ∃ i, s = .mid i ∧ 263 + 256 * i < n := by
  have hne (b : Nat) : s ≠ slotOf b := by
    rintro rfl
    rw [slotOf_data] at hs
    cases hs
  rw [mem_zonesFor]
  constructor
  · rintro ⟨b, hb, hmem⟩
    rcases block_cases b with ⟨hlow, hp⟩ | ⟨hlow, hhigh, hp⟩ | ⟨hlow, hp⟩
    · rw [hp, List.mem_singleton] at hmem
      exact absurd hmem (hne b)
    · rw [hp] at hmem
      simp only [List.mem_cons, hne b, List.not_mem_nil, or_false] at hmem
      exact .inl ⟨hmem, by omega⟩
    · rw [hp] at hmem
      simp only [List.mem_cons, hne b, List.not_mem_nil, or_false] at hmem
      rcases hmem with rfl | rfl
      · exact .inr (.inl ⟨rfl, by omega⟩)
      · exact .inr (.inr ⟨_, rfl, by omega⟩)
  · have hfirst (b : Nat) (hb : b < n) (hmem : s ∈ (slotOf b).path) : ∃ b < n, s ∈ (slotOf b).path :=
      ⟨b, hb, hmem⟩
    rintro (⟨rfl, hn⟩ | ⟨rfl, hn⟩ | ⟨i, rfl, hn⟩)
    · refine hfirst 7 hn ?_
      exact List.mem_cons_self
    · refine hfirst 263 hn ?_
      exact List.mem_cons_self
    · refine hfirst _ hn ?_
      rcases block_cases (263 + 256 * i) with ⟨hlow, -⟩ | ⟨-, hhigh, -⟩ | ⟨-, hp⟩
      · omega
      · omega
      · rw [hp, show (263 + 256 * i - 263) / 256 = i by omega]
        exact List.mem_cons_of_mem _ List.mem_cons_self

/-- The indirect zones among them. -/
def nodesFor (n : Nat) : Finset Slot :=
  (if 7 < n then {.single} else ∅)
    ∪ ((if 263 < n then {.double} else ∅) ∪ (Finset.range ((n - 8) / 256)).image .mid)

theorem mem_nodesFor : s ∈ nodesFor n
    ↔ s = .single ∧ 7 < n ∨ s = .double ∧ 263 < n ∨ ∃ i, s = .mid i ∧ 263 + 256 * i < n := by
  have hmid (i : Nat) : i < (n - 8) / 256 ↔ 263 + 256 * i < n := by omega
  unfold nodesFor
  rw [Finset.mem_union, Finset.mem_union, Finset.mem_image]
  refine or_congr ?_ (or_congr ?_ ?_)
  · split <;> simp [*]
  · split <;> simp [*]
  · simp only [Finset.mem_range, hmid]
    exact exists_congr fun i => ⟨fun ⟨hi, he⟩ => ⟨he.symm, hi⟩, fun ⟨he, hi⟩ => ⟨hi, he.symm⟩⟩

theorem card_nodesFor (n : Nat) : (nodesFor n).card
    = (if 7 < n then 1 else 0) + ((if 263 < n then 1 else 0) + (n - 8) / 256) := by
  unfold nodesFor
  rw [Finset.card_union_of_disjoint, Finset.card_union_of_disjoint,
    Finset.card_image_of_injective _ fun i j h => Slot.mid.inj h, Finset.card_range]
  · congr 1
    · split <;> rfl
    · split <;> rfl
  · rw [Finset.disjoint_left]
    intro s hs hmid
    obtain ⟨i, -, rfl⟩ := Finset.mem_image.mp hmid
    split at hs <;> simp at hs
  · rw [Finset.disjoint_left]
    intro s hs hrest
    split at hs
    · rw [Finset.mem_singleton.mp hs, Finset.mem_union] at hrest
      split at hrest <;> simp at hrest
    · simp at hs

/-- The number of zones of the first `n` blocks. -/
theorem card_zonesFor (n : Nat) : (zonesFor n).card = n + (nodesFor n).card := by
  have hsplit : zonesFor n = (Finset.range n).image slotOf ∪ nodesFor n := by
    ext s
    rw [Finset.mem_union, Finset.mem_image]
    by_cases hs : s.isNode = true
    · rw [node_mem_zonesFor hs, ← mem_nodesFor, or_iff_right]
      rintro ⟨b, -, rfl⟩
      rw [slotOf_data] at hs
      cases hs
    · have hdata : s ∉ nodesFor n := by
        rw [mem_nodesFor]
        rintro (⟨rfl, -⟩ | ⟨rfl, -⟩ | ⟨i, rfl, -⟩) <;> exact hs rfl
      rw [mem_zonesFor, or_iff_left hdata]
      constructor
      · rintro ⟨b, hb, hmem⟩
        exact ⟨b, Finset.mem_range.mpr hb, (Slot.eq_of_mem_path hmem (by simpa using hs)).symm⟩
      · rintro ⟨b, hb, rfl⟩
        refine ⟨b, Finset.mem_range.mp hb, ?_⟩
        rcases block_cases b with ⟨-, hp⟩ | ⟨-, -, hp⟩ | ⟨-, hp⟩ <;> rw [hp] <;> simp
  rw [hsplit, Finset.card_union_of_disjoint,
    Finset.card_image_of_injective _ fun b b' h => slotOf_inj h, Finset.card_range]
  rw [Finset.disjoint_left]
  intro s hs hnode
  obtain ⟨b, -, rfl⟩ := Finset.mem_image.mp hs
  have hdata := slotOf_data b
  rw [mem_nodesFor] at hnode
  rcases hnode with ⟨he, -⟩ | ⟨he, -⟩ | ⟨i, he, -⟩ <;> rw [he] at hdata <;> cases hdata

-- ======== calc_block_nr

theorem Appended.ncard_zones (h : Appended a len fs) :
    (fs.zones a).ncard = (zonesFor ((len + blocksiz - 1) / blocksiz)).card := by
  obtain ⟨hsound, -, hc⟩ := h.covers
  have hslots (s : Slot) : s ∈ zonesFor ((len + blocksiz - 1) / blocksiz)
      ↔ fs.ref (a, s) ≠ 0 := by
    rw [hc s, mem_zonesFor, show blocksiz = 1024 from rfl]
    constructor
    · rintro ⟨b, hb, hmem⟩
      refine ⟨b * 1024, by omega, ?_⟩
      rw [Nat.mul_div_cancel _ (by decide)]
      exact hmem
    · rintro ⟨x, hx, hmem⟩
      exact ⟨x / 1024, by omega, hmem⟩
  have himage : fs.zones a = (fun s => fs.ref (a, s))
      '' (zonesFor ((len + blocksiz - 1) / blocksiz) : Set Slot) := by
    ext z
    constructor
    · rintro ⟨hz, s, rfl⟩
      exact ⟨s, (hslots s).mpr hz, rfl⟩
    · rintro ⟨s, hs, rfl⟩
      exact ⟨(hslots s).mp hs, s, rfl⟩
  have hinj : Set.InjOn (fun s => fs.ref (a, s))
      (zonesFor ((len + blocksiz - 1) / blocksiz) : Set Slot) := fun s hs t _ heq =>
    congrArg Prod.snd (hsound.ledger.inj heq ((hslots s).mp hs))
  rw [himage, hinj.ncard_image, Set.ncard_coe_finset]

/-- `calc_block_nr` counts the zones of a file, and no file takes fewer
than a shorter one, exactly up to the end of the single indirect zone. -/
theorem calcBlockNr_exact_iff (h : Appended a len fs) (hlen : len ≤ filesizeMax) :
    calcBlockNr len = 2 * (fs.zones a).ncard ∧ (∀ n ≤ len, calcBlockNr n ≤ calcBlockNr len)
      ↔ len ≤ indirnsize := by
  have hmax : filesizeMax = 67378176 := by decide
  have hind : indirnsize = 269312 := by decide
  rw [h.ncard_zones, card_zonesFor, card_nodesFor]
  simp only [calcBlockNr, hmax, hind, show dirnsize = 7168 from rfl, show blocksiz = 1024 from rfl,
    show nrIndirects = 256 from rfl, show nrDzones = 7 from rfl]
  constructor
  · rintro ⟨hexact, -⟩
    by_contra hlong
    rw [if_neg (by omega), if_neg (by omega), if_neg (by omega), if_neg (by omega),
      if_pos (by omega), if_pos (by omega)] at hexact
    omega
  · intro hshort
    refine ⟨?_, fun n hn => ?_⟩
    · split_ifs <;> omega
    · split_ifs <;> omega

/-- Eight blocks, the last of which takes an indirect zone, too. -/
theorem calcBlockNr_exact_byte : ∃ fs : Files, calcBlockNr 7169 = 18 ∧ (fs.zones 0).ncard = 9 := by
  have hempty : Appended 0 0 (fresh 9 (by decide) (by decide)) :=
    .empty fresh_sound rfl fun s => fresh_ref (0, s)
  obtain ⟨w, hw, hfull⟩ : ∃ w, doWrite zeroBlock (fresh 9 (by decide) (by decide)).vol ⟨0, fun _ => 0⟩ 0
      (List.replicate 7169 7) = .ok w ∧ w.ret = .ok 7169 := by decide +kernel
  have hwrite := hempty.write hw (by rw [List.length_replicate]; exact hfull)
  rw [List.length_replicate, Nat.zero_add] at hwrite
  have hexact := ((calcBlockNr_exact_iff hwrite (by decide)).mpr (by decide)).1
  exact ⟨_, rfl, Nat.eq_of_mul_eq_mul_left Nat.two_pos hexact.symm⟩

/-- One byte beyond the single indirect zone: 528 units become 20. -/
theorem calcBlockNr_drops : 269313 ≤ filesizeMax ∧ ¬ calcBlockNr 269312 ≤ calcBlockNr 269313 := by
  decide

end Cnix.Fs
