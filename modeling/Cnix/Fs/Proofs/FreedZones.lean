/-
What `truncate` gives back.

The zones that `truncate` passes to `bitfree`, in the order of the calls,
are a list (`truncateCalls`). The walk reads zone numbers in blocks while
it clears and frees others; it meets each zone of the slots it clears once
(`Exactly`). It stops early for short files: what it leaves out is empty
if the file has no data behind its size and no indirect zone without
entries (`Trim`).
-/
import Cnix.Fs.Proofs.Calls

namespace Cnix.Fs

-- ======== the file

/-- The first byte that a data slot is for. -/
def Slot.start : Slot → Nat
  | .direct i => i * blocksiz
  | .ind i => (nrDzones + i) * blocksiz
  | .leaf i j => (nrDzones + nrIndirects + nrIndirects * i + j) * blocksiz
  | _ => 0

/-- The file has no zone twice, its data lies below its size, and no
indirect zone is without entries or lies in the bitmaps. -/
structure Trim (vol : Volume) (ino : Inode) : Prop extends Proper vol ino where
  below : ∀ s, s.isNode = false → zoneOf vol ino s ≠ 0 → s.start < ino.size
  filled : ∀ s, s.isNode = true → zoneOf vol ino s ≠ 0 → ∃ i, zoneOf vol ino (s.child i) ≠ 0

variable {vol : Volume} {ino : Inode} {s t : Slot} {P Q : Slot → Prop} {calls calls' : List Nat}

/-- `truncate` gets to every zone of the file. -/
theorem Trim.floor_lt (ht : Trim vol ino) (hz : zoneOf vol ino s ≠ 0) : s.floor < ino.size := by
  have hdata {t : Slot} (hd : t.isNode = false) (hne : zoneOf vol ino t ≠ 0) (hle : t.floor ≤ t.start) :
      t.floor < ino.size := Nat.lt_of_le_of_lt hle (ht.below t hd hne)
  have hleaf {i j : Nat} (hne : zoneOf vol ino (.leaf i j) ≠ 0) : Slot.double.floor < ino.size :=
    hdata (t := .leaf i j) rfl hne (Nat.mul_le_mul_right _ (by omega))
  have hmid {i : Nat} (hne : zoneOf vol ino (.mid i) ≠ 0) : Slot.double.floor < ino.size := by
    obtain ⟨j, hj⟩ := ht.filled (.mid i) rfl hne
    exact hleaf hj
  have hind {i : Nat} (hne : zoneOf vol ino (.ind i) ≠ 0) : Slot.single.floor < ino.size :=
    hdata (t := .ind i) rfl hne (Nat.mul_le_mul_right _ (by omega))
  cases s with
  | direct i => exact hdata rfl hz (Nat.zero_le _)
  | ind i => exact hind hz
  | leaf i j => exact hleaf hz
  | mid i => exact hmid hz
  | single =>
    obtain ⟨j, hj⟩ := ht.filled .single rfl hz
    exact hind hj
  | double =>
    obtain ⟨j, hj⟩ := ht.filled .double rfl hz
    exact hmid hj

theorem Trim.short (ht : Trim vol ino) (hle : ino.size ≤ s.floor) : zoneOf vol ino s = 0 := by
  by_contra hne
  have := ht.floor_lt hne
  omega

-- ======== the calls

/-- `bitfree` is called once for each zone in the slots `P`. -/
structure Exactly (vol : Volume) (ino : Inode) (P : Slot → Prop) (calls : List Nat) : Prop where
  nodup : calls.Nodup
  mem : ∀ z, z ∈ calls ↔ z ≠ 0 ∧ ∃ s, P s ∧ zoneOf vol ino s = z

namespace Exactly

theorem nil (h : ∀ s, P s → zoneOf vol ino s = 0) : Exactly vol ino P [] where
  nodup := List.nodup_nil
  mem := fun z => by
    refine ⟨nofun, ?_⟩
    rintro ⟨hz, s, hs, rfl⟩
    exact absurd (h s hs) hz

theorem one (hne : zoneOf vol ino s ≠ 0) : Exactly vol ino (· = s) [zoneOf vol ino s] := by
  refine ⟨List.nodup_singleton _, fun z => ?_⟩
  rw [List.mem_singleton]
  exact ⟨fun he => ⟨he ▸ hne, s, rfl, he.symm⟩, fun ⟨_, t, ht, he⟩ => ht ▸ he.symm⟩

theorem append (hp : Proper vol ino) (h : Exactly vol ino P calls) (h' : Exactly vol ino Q calls')
    (hdis : ∀ s, P s → ¬ Q s) : Exactly vol ino (fun s => P s ∨ Q s) (calls ++ calls') where
  nodup := by
    refine List.nodup_append'.mpr ⟨h.nodup, h'.nodup, fun z hz hz' => ?_⟩
    obtain ⟨hne, s, hs, rfl⟩ := (h.mem z).mp hz
    obtain ⟨-, t, ht, he⟩ := (h'.mem _).mp hz'
    rw [hp.distinct s t hne he.symm] at hs
    exact hdis t hs ht
  mem := fun z => by
    rw [List.mem_append, h.mem, h'.mem]
    constructor
    · rintro (⟨hne, s, hs, he⟩ | ⟨hne, s, hs, he⟩)
      · exact ⟨hne, s, .inl hs, he⟩
      · exact ⟨hne, s, .inr hs, he⟩
    · rintro ⟨hne, s, hs | hs, he⟩
      · exact .inl ⟨hne, s, hs, he⟩
      · exact .inr ⟨hne, s, hs, he⟩

theorem congr (h : Exactly vol ino P calls) (hPQ : ∀ s, zoneOf vol ino s ≠ 0 → (P s ↔ Q s)) :
    Exactly vol ino Q calls where
  nodup := h.nodup
  mem := fun z => by
    rw [h.mem]
    refine and_congr_right fun hz => exists_congr fun s => and_congr_left ?_
    rintro rfl
    exact hPQ s hz

end Exactly

/-- The walk calls `bitfree` for what it clears, once. -/
theorem Proper.exactly (hp : Proper vol ino) :
    Walker vol ino fun P _ _ calls => Exactly vol ino P calls where
  proper := hp
  wider := fun hc hw hsub hzero => hw.congr fun s hne => by
    refine ⟨hsub s, fun hs => ?_⟩
    by_contra hp
    exact hne ((hc.kept s hp).symm.trans (hzero s hs))
  unset := fun {P s _ _ _ _ _} hc hw _ _ hz => hw.congr fun t hne => by
    refine ⟨.inl, fun ht => ht.elim id ?_⟩
    rintro rfl
    by_contra hp
    exact hne ((hc.kept t hp).symm.trans hz)
  free := fun {P s _ _ _ _ _} hc hw _ _ hz _ => by
    have hnew : ∀ t, P t → ¬ t = s := by
      rintro t ht rfl
      exact hz (hc.gone t ht)
    have hold := hc.eq_of_ne hz
    rw [hold] at hz ⊢
    exact hw.append hp (.one hz) hnew

-- ======== the bitmap

variable {vol1 vol2 : Volume} {ino1 ino2 : Inode} {x zone : Nat}

theorem bitfree_bit (hsp : vol1.sp = vol2.sp) (h : vol1.mapBit .zmap x = vol2.mapBit .zmap x) :
    (bitfree vol1 zone .zmap).mapBit .zmap x = (bitfree vol2 zone .zmap).mapBit .zmap x := by
  unfold bitfree
  rw [hsp]
  dsimp only
  split_ifs
  · exact h
  · exact h
  · rw [mapBit_clearMapBit, mapBit_clearMapBit, h]

theorem freed_sp : (vol.freed calls).sp = vol.sp :=
  List.foldlRecOn (motive := fun vol' : Volume => vol'.sp = vol.sp) calls _ rfl
    fun _ h _ _ => bitfree_sp.trans h

/-- Slots are not in the bitmap. -/
theorem Unset.bit (hu : Unset vol1 ino1 s vol2 ino2) (hp : Proper vol1 ino1)
    (hx : x ≤ vol1.sp.maxBit .zmap) : vol2.mapBit .zmap x = vol1.mapBit .zmap x := by
  cases hu with
  | root => rfl
  | entry hnode hne => exact mapBit_put_data (hp.data _ hnode hne) hx

/-- The walk changes the bitmap by its calls alone. -/
theorem Proper.freed (hp : Proper vol ino)
    (hdata : ∀ s, zoneOf vol ino s ≠ 0 → vol.sp.fdzone ≤ zoneOf vol ino s) :
    Walker vol ino fun _ vol1 _ calls => ∀ x ≤ vol.sp.maxBit .zmap,
      vol1.mapBit .zmap x = (vol.freed calls).mapBit .zmap x where
  proper := hp
  wider := fun _ hw _ _ => hw
  unset := fun hc hw hu _ _ x hx => (hu.bit (hc.proper hp) (hc.sp ▸ hx)).trans (hw x hx)
  free := fun {P s vol1 ino1 vol2 ino2 calls} hc hw hu _ hz data x hx => by
    have hsp : vol2.sp = vol.sp := hu.sp.trans hc.sp
    have hlow := hdata s (hc.eq_of_ne hz ▸ hz)
    rw [Volume.freed, List.foldl_append]
    refine bitfree_bit (hsp.trans freed_sp.symm) ?_
    rw [mapBit_put_data (hsp ▸ hc.eq_of_ne hz ▸ hlow) (hsp ▸ hx), hu.bit (hc.proper hp) (hc.sp ▸ hx)]
    exact hw x hx

/-- `truncate` calls `bitfree` once for each zone of the file and for no
other, and leaves an inode without zones, and the zone bitmap as these
calls leave it. -/
theorem truncate_frees_exactly (ht : Trim vol ino) (disk : Nat → Block) :
    (truncateCalls disk vol ino).Nodup
      ∧ (∀ z, z ∈ truncateCalls disk vol ino ↔ z ≠ 0 ∧ ∃ s, zoneOf vol ino s = z)
      ∧ (∀ i ≤ nrDzones + 1, (truncate disk vol ino).2.zone i = nozone)
      ∧ (truncate disk vol ino).2.size = 0
      ∧ ((∀ s, zoneOf vol ino s ≠ 0 → vol.sp.fdzone ≤ zoneOf vol ino s) → ∀ x ≤ vol.sp.maxBit .zmap,
        (truncate disk vol ino).1.mapBit .zmap x
          = (vol.freed (truncateCalls disk vol ino)).mapBit .zmap x) := by
  obtain ⟨vol', ino', he, hc, hw⟩ := ht.exactly.truncate disk (.nil fun _ => False.elim)
  have hall : Exactly vol ino (fun _ => True) (truncateCalls disk vol ino) :=
    hw.congr fun s hne => iff_true_intro (ht.floor_lt hne)
  have hzero (s : Slot) : zoneOf vol' ino' s = 0 := by
    by_cases hs : s.floor < ino.size
    · exact hc.gone s hs
    · rw [hc.kept s hs, ht.short (by omega)]
  refine ⟨hall.nodup, fun z => by simpa using hall.mem z, fun i hi => ?_, ?_, fun hdata x hx => ?_⟩
  · rw [he]
    have hroot : i < nrDzones ∨ i = nrDzones ∨ i = nrDzones + 1 := by omega
    rcases hroot with hlt | rfl | rfl
    · exact (if_pos hlt).symm.trans (hzero (.direct i))
    · exact hzero .single
    · exact hzero .double
  · rw [he]
  · obtain ⟨vol2, ino2, he2, -, hbit⟩ := (ht.freed hdata).truncate disk fun _ _ => rfl
    rw [he2]
    exact hbit x hx

/-- A file that has an indirect zone, 5, with one entry, 6. -/
def indirectVolume : Volume := (fresh 10 (by decide) (by decide)).vol.setZone 5 0 6

def indirectFile : Inode := (⟨7169, fun _ => 0⟩ : Inode).setZone nrDzones 5

theorem indirectFile_zone (s : Slot) : zoneOf indirectVolume indirectFile s
    = if s = .ind 0 then 6 else if s = .single then 5 else 0 := by
  have hempty : (fresh 10 (by decide) (by decide)).vol.Empty 5 :=
    @empty_put_zeroBlock (fresh 10 (by decide) (by decide)).vol 5
  have hroot (t : Slot) : zoneOf (fresh 10 (by decide) (by decide)).vol indirectFile t
      = if t = .single then 5 else 0 := by
    refine (zoneOf_setRoot (.inl ⟨rfl, rfl⟩) (fun _ => empty_zero) fun _ => hempty).trans ?_
    congr 1
    exact @fresh_ref 10 _ _ (fun _ => true) (0, t)
  rw [← hroot s]
  refine zoneOf_setEntry (s := .single) rfl rfl (by decide) (fun t _ ht => ?_) (by decide) (by decide)
    (by decide) nofun nofun
  rw [hroot] at ht
  by_contra hne
  rw [if_neg hne] at ht
  cases ht

/-- Both are given back. -/
theorem truncate_frees_exactly_indirect :
    (truncateCalls (fun _ => zeroBlock) indirectVolume indirectFile).Perm [6, 5]
      ∧ (∀ i ≤ nrDzones + 1, (truncate (fun _ => zeroBlock) indirectVolume indirectFile).2.zone i = nozone)
      ∧ ∀ x ≤ 10, (truncate (fun _ => zeroBlock) indirectVolume indirectFile).1.mapBit .zmap x
        = (indirectVolume.freed (truncateCalls (fun _ => zeroBlock) indirectVolume indirectFile)).mapBit
          .zmap x := by
  have honly {s : Slot} (hne : zoneOf indirectVolume indirectFile s ≠ 0) : s = .ind 0 ∨ s = .single := by
    by_contra hs
    rw [indirectFile_zone, if_neg (fun h => hs (.inl h)), if_neg (fun h => hs (.inr h))] at hne
    exact hne rfl
  have htrim : Trim indirectVolume indirectFile := by
    refine ⟨⟨fun s t hs he => ?_, fun s _ hs => ?_⟩, fun s hnode hs => ?_, fun s hnode hs => ?_⟩
    · rcases honly hs with rfl | rfl <;> rcases honly (s := t) (he ▸ hs) with rfl | rfl
      · rfl
      · simp [indirectFile_zone] at he
      · simp [indirectFile_zone] at he
      · rfl
    · rcases honly hs with rfl | rfl <;> rw [indirectFile_zone] <;> decide
    · rcases honly hs with rfl | rfl
      · decide
      · cases hnode
    · rcases honly hs with rfl | rfl
      · cases hnode
      · exact ⟨0, by rw [indirectFile_zone]; decide⟩
  obtain ⟨hnodup, hmem, hzero, -, hbits⟩ := truncate_frees_exactly htrim fun _ => zeroBlock
  refine ⟨(List.perm_ext_iff_of_nodup hnodup (by decide)).mpr fun z => ?_, hzero,
    hbits fun s hs => ?_⟩
  · rw [hmem, List.mem_pair]
    constructor
    · rintro ⟨hz, s, rfl⟩
      exact (honly hz).imp (fun h => by rw [h, indirectFile_zone]; rfl)
        fun h => by rw [h, indirectFile_zone]; rfl
    · rintro (rfl | rfl)
      · exact ⟨by decide, .ind 0, indirectFile_zone _⟩
      · exact ⟨by decide, .single, indirectFile_zone _⟩
  · rcases honly hs with rfl | rfl <;> rw [indirectFile_zone] <;> decide

end Cnix.Fs
