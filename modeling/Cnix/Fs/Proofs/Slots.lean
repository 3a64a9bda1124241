/-
The slots of a file: the places that can hold a zone number.

Seven are in the inode for data, two for the indirect zones. The others
are the entries of the indirect zones: those of the single one, those of
the double one, and those of the zones that it holds. `zoneOf` reads a
slot, and `bmap` reads the slot of a position (`bmap_eq`). A slot that
holds an indirect zone is a node.

Storing a zone number into a slot changes what this slot reads, and no
other one (`zoneOf_setRoot`, `zoneOf_setEntry`), as long as no two nodes
are the same zone and a node is linked or unlinked while it is empty.
-/
import Cnix.Fs.Zones

namespace Cnix.Fs

open Lib

/-- A place for a zone number. -/
inductive Slot
  | direct (i : Nat)
  | single
  | double
  | ind (i : Nat)
  | mid (i : Nat)
  | leaf (i j : Nat)
  deriving DecidableEq

/-- The slot is for an indirect zone. -/
def Slot.isNode : Slot → Bool
  | .single | .double | .mid _ => true
  | _ => false

/-- Entry `i` of the zone numbers in a zone. -/
def Volume.entry (vol : Volume) (zone i : Nat) : Nat :=
  if zone = 0 ∨ nrIndirects ≤ i then 0 else vol.getZone zone i

/-- The zone in a slot, or 0. -/
def zoneOf (vol : Volume) (ino : Inode) : Slot → Nat
  | .direct i => if i < nrDzones then ino.zone i else 0
  | .single => ino.zone nrDzones
  | .double => ino.zone (nrDzones + 1)
  | .ind i => vol.entry (ino.zone nrDzones) i
  | .mid i => vol.entry (ino.zone (nrDzones + 1)) i
  | .leaf i j => vol.entry (vol.entry (ino.zone (nrDzones + 1)) i) j

/-- The slot of a block of the file. -/
def slotOf (block : Nat) : Slot :=
  if block < nrDzones then .direct block
  else if block - nrDzones < nrIndirects then .ind (block - nrDzones)
  else .leaf ((block - nrDzones - nrIndirects) / nrIndirects)
    ((block - nrDzones - nrIndirects) % nrIndirects)

/-- Entry `i` of a node. -/
def Slot.child : Slot → Nat → Slot
  | .single, i => .ind i
  | .double, i => .mid i
  | .mid k, i => .leaf k i
  | s, _ => s

/-- The number of blocks of the largest file. -/
def maxBlocks : Nat := nrDzones + nrIndirects + nrIndirects * nrIndirects

variable {vol vol' : Volume} {ino : Inode} {s t : Slot} {zone i j m pos b : Nat}

theorem div_lt_maxBlocks (h : pos < filesizeMax) : pos / blocksiz < maxBlocks :=
  Nat.div_lt_of_lt_mul (show pos < blocksiz * maxBlocks from h)

theorem slotOf_data (block : Nat) : (slotOf block).isNode = false := by
  unfold slotOf
  split
  · rfl
  · split
    · rfl
    · rfl

theorem slotOf_inj {b' : Nat} (h : slotOf b = slotOf b') : b = b' := by
  have hdiv := Nat.div_add_mod (b - nrDzones - nrIndirects) nrIndirects
  have hdiv' := Nat.div_add_mod (b' - nrDzones - nrIndirects) nrIndirects
  unfold slotOf at h
  split at h
  · split at h
    · exact Slot.direct.inj h
    · split at h
      · exact Slot.noConfusion h
      · exact Slot.noConfusion h
  · split at h
    · split at h
      · exact Slot.noConfusion h
      · split at h
        · have hi := Slot.ind.inj h
          omega
        · exact Slot.noConfusion h
    · split at h
      · exact Slot.noConfusion h
      · split at h
        · exact Slot.noConfusion h
        · obtain ⟨hq, hr⟩ := Slot.leaf.inj h
          rw [hq, hr] at hdiv
          omega

theorem zoneOf_child (hs : s.isNode = true) (i : Nat) :
    zoneOf vol ino (s.child i) = vol.entry (zoneOf vol ino s) i := by
  cases s with
  | single | double | mid k => rfl
  | direct k | ind k | leaf k l => cases hs

theorem entry_eq_getZone (hz : zone ≠ 0) (hi : i < nrIndirects) :
    vol.entry zone i = vol.getZone zone i := by
  unfold Volume.entry
  rw [if_neg (by omega)]

/-- `bmap` reads the slot of the position. -/
theorem bmap_eq (h : pos < filesizeMax) :
    bmap vol ino pos = zoneOf vol ino (slotOf (pos / blocksiz)) := by
  have hmax := div_lt_maxBlocks h
  generalize hb : pos / blocksiz = block at hmax
  unfold bmap slotOf
  rw [hb]
  dsimp only
  split
  · next hd => exact (if_pos hd).symm
  · next hd =>
    split
    · next hi =>
      split
      · next hz => exact (if_pos (.inl hz)).symm
      · next hz => exact (entry_eq_getZone hz hi).symm
    · next hi =>
      have hidx : (block - nrDzones - nrIndirects) / nrIndirects < nrIndirects := by
        apply Nat.div_lt_of_lt_mul
        unfold maxBlocks at hmax
        omega
      show _ = vol.entry (vol.entry (ino.zone (nrDzones + 1))
        ((block - nrDzones - nrIndirects) / nrIndirects)) _
      split
      · next hz =>
        have hentry : vol.entry (ino.zone (nrDzones + 1))
            ((block - nrDzones - nrIndirects) / nrIndirects) = 0 := if_pos (.inl hz)
        rw [hentry]
        exact (if_pos (.inl rfl)).symm
      · next hz =>
        rw [entry_eq_getZone hz hidx]
        split
        · next hz1 => exact (if_pos (.inl hz1)).symm
        · next hz1 =>
          exact (entry_eq_getZone hz1 (Nat.mod_lt _ (by decide))).symm

-- ======== changes

theorem entry_congr (h : zone ≠ 0 → vol'.blk zone = vol.blk zone) :
    vol'.entry zone i = vol.entry zone i := by
  unfold Volume.entry Volume.getZone
  by_cases hz : zone = 0
  · rw [if_pos (.inl hz), if_pos (.inl hz)]
  · rw [h hz]

/-- The slots read the same as long as the nodes hold the same bytes. -/
theorem zoneOf_congr (h : ∀ s, s.isNode = true → zoneOf vol ino s ≠ 0 →
    vol'.blk (zoneOf vol ino s) = vol.blk (zoneOf vol ino s)) :
    zoneOf vol' ino t = zoneOf vol ino t := by
  cases t with
  | direct i | single | double => rfl
  | ind i => exact entry_congr (h .single rfl)
  | mid i => exact entry_congr (h .double rfl)
  | leaf i j =>
    have hmid : vol'.entry (ino.zone (nrDzones + 1)) i
        = vol.entry (ino.zone (nrDzones + 1)) i := entry_congr (h .double rfl)
    show vol'.entry (vol'.entry (ino.zone (nrDzones + 1)) i) j = _
    rw [hmid]
    exact entry_congr (h (.mid i) rfl)

/-- No entry of the zone is in use. -/
def Volume.Empty (vol : Volume) (zone : Nat) : Prop := ∀ i, vol.entry zone i = 0

theorem empty_zero : vol.Empty 0 := fun _ => if_pos (.inl rfl)

theorem empty_put_zeroBlock : (vol.put zone zeroBlock).Empty zone := by
  intro i
  unfold Volume.entry
  split
  · rfl
  · unfold Volume.getZone zeroBlock
    rw [Volume.put_blk, if_pos rfl, word_zero]
    rfl

theorem setZone_blk (hb : b ≠ m) : (vol.setZone m i zone).blk b = vol.blk b := by
  unfold Volume.setZone
  rw [Volume.put_blk, if_neg hb]

theorem entry_setZone_of_ne {x : Nat} (hx : x ≠ m) :
    (vol.setZone m i zone).entry x j = vol.entry x j :=
  entry_congr fun _ => setZone_blk hx

theorem entry_setZone (hm : m ≠ 0) (hi : i < nrIndirects) (hz : zone < 2 ^ 32) :
    (vol.setZone m i zone).entry m j = if j = i then zone else vol.entry m j := by
  unfold Volume.entry
  by_cases hj : nrIndirects ≤ j
  · rw [if_pos (Or.inr hj), if_pos (Or.inr hj), if_neg (by omega)]
  · have hin : ¬ (m = 0 ∨ nrIndirects ≤ j) := by omega
    rw [if_neg hin, if_neg hin]
    unfold Volume.getZone Volume.setZone
    rw [Volume.put_blk, if_pos rfl, word_setWord]
    split
    · rw [BitVec.toNat_ofNat, Nat.mod_eq_of_lt hz]
    · rfl

/-- A zone number is stored into the inode. -/
theorem zoneOf_setRoot (hs : s = .single ∧ i = nrDzones ∨ s = .double ∧ i = nrDzones + 1
      ∨ s = .direct i ∧ i < nrDzones)
    (hold : s.isNode = true → vol.Empty (zoneOf vol ino s))
    (hnew : s.isNode = true → vol.Empty zone) :
    zoneOf vol (ino.setZone i zone) t = if t = s then zone else zoneOf vol ino t := by
  have hzone (k : Nat) : (ino.setZone i zone).zone k = if k = i then zone else ino.zone k :=
    Function.update_apply ..
  rcases hs with ⟨rfl, rfl⟩ | ⟨rfl, rfl⟩ | ⟨rfl, hi⟩
  · have hold' : ∀ k, vol.entry (ino.zone nrDzones) k = 0 := hold rfl
    have hnew' : ∀ k, vol.entry zone k = 0 := hnew rfl
    cases t with
    | direct k =>
      simp only [zoneOf, hzone, reduceCtorEq, if_false]
      split
      · rw [if_neg (by omega)]
      · rfl
    | single | double => simp [zoneOf, hzone]
    | ind k => simp [zoneOf, hzone, hold', hnew']
    | mid k | leaf k l => simp [zoneOf, hzone]
  · have hold' : ∀ k, vol.entry (ino.zone (nrDzones + 1)) k = 0 := hold rfl
    have hnew' : ∀ k, vol.entry zone k = 0 := hnew rfl
    have hzero : ∀ k, vol.entry 0 k = 0 := empty_zero
    cases t with
    | direct k =>
      simp only [zoneOf, hzone, reduceCtorEq, if_false]
      split
      · rw [if_neg (by omega)]
      · rfl
    | single | double | ind k => simp [zoneOf, hzone]
    | mid k => simp [zoneOf, hzone, hold', hnew']
    | leaf k l => simp [zoneOf, hzone, hold', hnew', hzero]
  · cases t with
    | direct k =>
      simp only [zoneOf, hzone, Slot.direct.injEq]
      by_cases hk : k = i
      · rw [if_pos hk, if_pos hk, if_pos (by omega)]
      · rw [if_neg hk, if_neg hk]
    | single => simp [zoneOf, hzone, show nrDzones ≠ i by omega]
    | double => simp [zoneOf, hzone, show nrDzones + 1 ≠ i by omega]
    | ind k => simp [zoneOf, hzone, show nrDzones ≠ i by omega]
    | mid k | leaf k l => simp [zoneOf, hzone, show nrDzones + 1 ≠ i by omega]

/-- A zone number is stored into entry `i` of the node in slot `s`. -/
theorem zoneOf_setEntry (hs : s.isNode = true) (hm : zoneOf vol ino s = m) (hm0 : m ≠ 0)
    (huniq : ∀ t, t.isNode = true → zoneOf vol ino t = m → t = s)
    (hi : i < nrIndirects) (hz : zone < 2 ^ 32) (hzm : zone ≠ m)
    (hold : (s.child i).isNode = true → vol.Empty (zoneOf vol ino (s.child i)))
    (hnew : (s.child i).isNode = true → vol.Empty zone) :
    zoneOf (vol.setZone m i zone) ino t
      = if t = s.child i then zone else zoneOf vol ino t := by
  have hne (u : Slot) (hu : u.isNode = true) (hus : u ≠ s) : zoneOf vol ino u ≠ m :=
    fun he => hus (huniq u hu he)
  cases s with
  | direct k | ind k | leaf k l => cases hs
  | single =>
    have hd : ino.zone (nrDzones + 1) ≠ m := hne .double rfl (by simp)
    have hs7 : ino.zone nrDzones = m := hm
    cases t with
    | direct k | single | double => simp [zoneOf, Slot.child]
    | ind k =>
      simp only [zoneOf, Slot.child, Slot.ind.injEq]
      rw [hs7, entry_setZone hm0 hi hz]
    | mid k =>
      exact entry_setZone_of_ne hd
    | leaf k l =>
      have hk : vol.entry (ino.zone (nrDzones + 1)) k ≠ m := hne (.mid k) rfl (by simp)
      simp only [zoneOf, Slot.child, reduceCtorEq, if_false]
      rw [entry_setZone_of_ne hd, entry_setZone_of_ne hk]
  | double =>
    have hs7 : ino.zone nrDzones ≠ m := hne .single rfl (by simp)
    have hd : ino.zone (nrDzones + 1) = m := hm
    have hold' : vol.Empty (vol.entry (ino.zone (nrDzones + 1)) i) := hold rfl
    cases t with
    | direct k | single | double => simp [zoneOf, Slot.child]
    | ind k =>
      exact entry_setZone_of_ne hs7
    | mid k =>
      simp only [zoneOf, Slot.child, Slot.mid.injEq]
      rw [hd, entry_setZone hm0 hi hz]
    | leaf k l =>
      have hk : vol.entry (ino.zone (nrDzones + 1)) k ≠ m := hne (.mid k) rfl (by simp)
      simp only [zoneOf, Slot.child, reduceCtorEq, if_false]
      rw [hd, entry_setZone hm0 hi hz]
      split
      · next hki =>
        -- an empty node replaces an empty node
        rw [entry_setZone_of_ne hzm, hnew rfl l, hki, ← hd, hold' l]
      · rw [hd] at hk
        rw [entry_setZone_of_ne hk]
  | mid n =>
    have hs7 : ino.zone nrDzones ≠ m := hne .single rfl (by simp)
    have hd : ino.zone (nrDzones + 1) ≠ m := hne .double rfl (by simp)
    have hn : vol.entry (ino.zone (nrDzones + 1)) n = m := hm
    cases t with
    | direct k | single | double => simp [zoneOf, Slot.child]
    | ind k =>
      exact entry_setZone_of_ne hs7
    | mid k =>
      exact entry_setZone_of_ne hd
    | leaf k l =>
      simp only [zoneOf, Slot.child, Slot.leaf.injEq]
      rw [entry_setZone_of_ne hd]
      by_cases hkn : k = n
      · rw [hkn, hn, entry_setZone hm0 hi hz]
        simp
      · have hk : vol.entry (ino.zone (nrDzones + 1)) k ≠ m :=
          hne (.mid k) rfl (by simp [hkn])
        rw [entry_setZone_of_ne hk, if_neg (by simp [hkn])]

end Cnix.Fs
