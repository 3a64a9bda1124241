/-
What `bitalloc` and `bitfree` do to the zone bitmap.

A zone is in use when its bit is set. `bitalloc` gives a zone that is
not in use and sets its bit, `bitfree` clears the bit of a zone, and
both leave the data zones alone, since the bitmap lies before them
(`Marked`). The one exception is the last zone: the bound of `bitfree`
is one less than the bound of `bitalloc`, so its bit is never cleared
(`bitfree_last`).
-/
import Cnix.Fs.BitSearch

namespace Cnix.Fs

open Lib
open Volume (put_blk put_sp)

/-- A bit of a bitmap. -/
def Volume.mapBit (vol : Volume) (which : Which) (bit : Nat) : Bool :=
  bitAt (vol.blk (vol.sp.fromBlock which + bit / bitsPerBlock)) (bit % bitsPerBlock)

/-- A zone for data. -/
def SuperBlock.DataZone (sp : SuperBlock) (zone : Nat) : Prop :=
  sp.fdzone ≤ zone ∧ zone < sp.zones

/-- The zone is in use. -/
def Volume.Used (vol : Volume) (zone : Nat) : Prop :=
  vol.sp.DataZone zone ∧ vol.mapBit .zmap (zone + 1 - vol.sp.fdzone) = true

/-- Bit 0, which stands for no zone, is never given out. -/
def Volume.Reserved (vol : Volume) : Prop := vol.mapBit .zmap 0 = true

/-- The bits that change are those of the zones in `zones`, to `v`; the
data zones and what comes before the bitmap keep their bytes. -/
structure Marked (vol vol' : Volume) (zone : Nat) (v : Bool) : Prop where
  sp : vol'.sp = vol.sp
  data : ∀ b, vol.sp.fdzone ≤ b → vol'.blk b = vol.blk b
  low : ∀ b, b < vol.sp.fromBlock .zmap → vol'.blk b = vol.blk b
  used : ∀ x, vol'.Used x ↔ (x = zone ∧ vol.sp.DataZone x ∧ v = true)
    ∨ (x ≠ zone ∧ vol.Used x)
  reserved : vol.Reserved → vol'.Reserved

variable {vol vol' : Volume} {which : Which} {zone bit : Nat} {x : Nat}

-- ======== one bit changes

theorem div_lt_zmblocks (sp : SuperBlock) (hx : x ≤ sp.zones - sp.fdzone) :
    x / bitsPerBlock < sp.zmblocks := by
  have hcovers := sp.zmap_covers
  exact Nat.div_lt_of_lt_mul (by rw [Nat.mul_comm]; omega)

theorem zmap_block (sp : SuperBlock) (hx : x ≤ sp.zones - sp.fdzone) :
    sp.fromBlock .zmap + x / bitsPerBlock < sp.fdzone := by
  have hlayout := sp.layout
  have hdiv := div_lt_zmblocks sp hx
  show superBlock + 1 + sp.imblocks + x / bitsPerBlock < sp.fdzone
  omega

/-- Setting a bit of a bitmap. -/
theorem mapBit_setBit : (vol.put (vol.sp.fromBlock which + bit / bitsPerBlock)
        (setBit (vol.blk (vol.sp.fromBlock which + bit / bitsPerBlock))
          (bit % bitsPerBlock))).mapBit which x = (decide (x = bit) || vol.mapBit which x) :=
  mapBitAt_set

theorem mapBit_clearBitAt {x : Nat} : (vol.put (vol.sp.fromBlock which + bit / bitsPerBlock)
        (clearBitAt (vol.blk (vol.sp.fromBlock which + bit / bitsPerBlock))
          (bit % bitsPerBlock))).mapBit which x = (!decide (x = bit) && vol.mapBit which x) :=
  mapBitAt_clear

/-- A volume whose zone bitmap differs in the bit of one zone. -/
theorem Marked.of_bits {v : Bool} (hsp : vol'.sp = vol.sp)
    (hdata : ∀ b, vol.sp.fdzone ≤ b → vol'.blk b = vol.blk b)
    (hbelow : ∀ b, b < vol.sp.fromBlock .zmap → vol'.blk b = vol.blk b)
    (hzone : vol.sp.DataZone zone)
    (hbits : ∀ x, vol'.mapBit .zmap x
      = if x = zone + 1 - vol.sp.fdzone then v else vol.mapBit .zmap x) :
    Marked vol vol' zone v := by
  obtain ⟨hlow, hhigh⟩ := hzone
  refine ⟨hsp, hdata, hbelow, fun x => ?_, fun hres => ?_⟩
  · unfold Volume.Used
    rw [hsp, hbits]
    by_cases hx : x = zone
    · subst hx
      simp
    · simp only [hx, false_and, ne_eq, not_false_eq_true, true_and, false_or]
      constructor
      · intro ⟨hdz, hb⟩
        rw [if_neg (by omega)] at hb
        exact ⟨hdz, hb⟩
      · intro ⟨hdz, hb⟩
        rw [if_neg (by omega)]
        exact ⟨hdz, hb⟩
  · unfold Volume.Reserved at hres ⊢
    rw [hbits, if_neg (by omega), hres]

/-- Bytes of a data zone are no bits of the bitmap. -/
theorem mapBit_put_data {data : Block} (hlow : vol.sp.fdzone ≤ zone)
    (hx : x ≤ vol.sp.zones - vol.sp.fdzone) :
    (vol.put zone data).mapBit .zmap x = vol.mapBit .zmap x := by
  have hblock := zmap_block vol.sp hx
  unfold Volume.mapBit
  rw [put_sp, put_blk, if_neg (by omega)]

theorem used_put {data : Block} (hzone : vol.sp.DataZone zone) :
    (vol.put zone data).Used x ↔ vol.Used x := by
  unfold Volume.Used
  rw [put_sp]
  constructor
  · intro ⟨hdz, hbit⟩
    have hhigh := hdz.2
    rw [mapBit_put_data hzone.1 (by omega)] at hbit
    exact ⟨hdz, hbit⟩
  · intro ⟨hdz, hbit⟩
    have hhigh := hdz.2
    rw [mapBit_put_data hzone.1 (by omega)]
    exact ⟨hdz, hbit⟩

theorem reserved_put {data : Block} (hzone : vol.sp.DataZone zone) (h : vol.Reserved) :
    (vol.put zone data).Reserved := by
  unfold Volume.Reserved
  rw [mapBit_put_data hzone.1 (Nat.zero_le _)]
  exact h

-- ======== the search

@[simp] theorem setSearch_sp : (vol.setSearch which bit).sp = vol.sp := by
  cases which <;> rfl

@[simp] theorem setSearch_blk : (vol.setSearch which bit).blk = vol.blk := by
  cases which <;> rfl

theorem mapBit_setSearch {which' : Which} :
    (vol.setSearch which bit).mapBit which' x = vol.mapBit which' x := by
  unfold Volume.mapBit
  rw [setSearch_sp, setSearch_blk]

/-- `bitalloc` fails and changes nothing, or marks a zone that was not in
use. -/
theorem bitalloc_spec (hres : vol.Reserved) (h : bitalloc vol .zmap = (zone, vol')) :
    (zone = 0 → vol' = vol) ∧
      (zone ≠ 0 → vol.sp.DataZone zone ∧ ¬ vol.Used zone ∧ Marked vol vol' zone true) := by
  have hlayout := vol.sp.layout
  unfold bitalloc at h
  split at h
  · cases h
    exact ⟨fun _ => rfl, fun hz => absurd rfl hz⟩
  · dsimp only at h
    split at h
    · cases h
      exact ⟨fun _ => rfl, fun hz => absurd rfl hz⟩
    · next bit hsearch =>
      obtain ⟨hle, hclear, -⟩ : _ ∧ vol.mapBit .zmap bit = false ∧ _ := searchMap_spec hsearch
      have hmax : bit ≤ vol.sp.zones - vol.sp.fdzone := hle
      have hpos : bit ≠ 0 := by
        intro he
        rw [he] at hclear
        rw [Volume.Reserved, hclear] at hres
        cases hres
      simp only [setSearch_sp, put_sp] at h
      cases h
      have hzone : vol.sp.DataZone (bit + vol.sp.fdzone - 1) := by
        constructor
        · omega
        · omega
      have hbit : bit + vol.sp.fdzone - 1 + 1 - vol.sp.fdzone = bit := by omega
      refine ⟨fun h0 => absurd h0 (by omega), fun _ => ⟨hzone, fun hused => ?_, ?_⟩⟩
      · have hset := hused.2
        rw [hbit, hclear] at hset
        cases hset
      · refine Marked.of_bits (setSearch_sp) (fun b hb => ?_) (fun b hb => ?_) hzone
          fun x => ?_
        · have hblock := zmap_block vol.sp hmax
          rw [setSearch_blk, put_blk, if_neg (by omega)]
        · rw [setSearch_blk, put_blk, if_neg (Nat.ne_of_lt (Nat.lt_add_right _ hb))]
        · rw [mapBit_setSearch, mapBit_setBit, hbit]
          by_cases hx : x = bit
          · simp [hx]
          · simp [hx]

-- ======== freeing

theorem clearMapBit_sp : (clearMapBit vol which bit).sp = vol.sp := by
  unfold clearMapBit
  dsimp only
  split
  · rw [setSearch_sp]
    rfl
  · rfl

theorem clearMapBit_blk : (clearMapBit vol which bit).blk
    = (vol.put (vol.sp.fromBlock which + bit / bitsPerBlock)
        (clearBitAt (vol.blk (vol.sp.fromBlock which + bit / bitsPerBlock))
          (bit % bitsPerBlock))).blk := by
  unfold clearMapBit
  dsimp only
  split
  · rw [setSearch_blk]
  · rfl

theorem mapBit_clearMapBit : (clearMapBit vol which bit).mapBit which x
    = (!decide (x = bit) && vol.mapBit which x) := by
  rw [← mapBit_clearBitAt]
  unfold Volume.mapBit
  rw [clearMapBit_sp, clearMapBit_blk]
  rfl

/-- `bitfree` of a zone other than the last. -/
theorem bitfree_spec (hrw : vol.sp.roflag = false) (hzone : vol.sp.DataZone zone)
    (hlast : zone + 1 < vol.sp.zones) : Marked vol (bitfree vol zone .zmap) zone false := by
  obtain ⟨hlow, hhigh⟩ := hzone
  have heq : bitfree vol zone .zmap = clearMapBit vol .zmap (zone + 1 - vol.sp.fdzone) := by
    unfold bitfree
    rw [hrw, if_neg (by simp)]
    exact if_neg (by omega)
  rw [heq]
  refine Marked.of_bits clearMapBit_sp (fun b hb => ?_) (fun b hb => ?_) ⟨hlow, hhigh⟩ fun x => ?_
  · have hblock := zmap_block (x := zone + 1 - vol.sp.fdzone) vol.sp (by omega)
    rw [clearMapBit_blk, put_blk, if_neg (by omega)]
  · rw [clearMapBit_blk, put_blk, if_neg (Nat.ne_of_lt (Nat.lt_add_right _ hb))]
  · rw [mapBit_clearMapBit]
    by_cases hx : x = zone + 1 - vol.sp.fdzone
    · simp [hx]
    · simp [hx]

/-- `bitfree` of the last zone does nothing. -/
theorem bitfree_last (hzone : vol.sp.DataZone zone) (hlast : zone + 1 = vol.sp.zones) :
    bitfree vol zone .zmap = vol := by
  obtain ⟨hlow, hhigh⟩ := hzone
  unfold bitfree
  split
  · rfl
  · exact if_pos (.inr (by omega))

-- ======== the inode bitmap

/-- The bit of one inode may be another. -/
structure Renumbered (vol vol' : Volume) (num : Nat) : Prop where
  sp : vol'.sp = vol.sp
  high : ∀ b, vol.sp.fromBlock .zmap ≤ b → vol'.blk b = vol.blk b
  bits : ∀ x, x ≠ num → vol'.mapBit .imap x = vol.mapBit .imap x
  zsearch : vol'.zsearch = vol.zsearch

namespace Renumbered

variable {num : Nat}

theorem refl : Renumbered vol vol num := ⟨rfl, fun _ _ => rfl, fun _ _ => rfl, rfl⟩

theorem data (h : Renumbered vol vol' num) {b : Nat} (hb : vol.sp.fdzone ≤ b) :
    vol'.blk b = vol.blk b := by
  have hlayout := vol.sp.layout
  apply h.high
  show superBlock + 1 + vol.sp.imblocks ≤ b
  omega

theorem zmap (h : Renumbered vol vol' num) (x : Nat) :
    vol'.mapBit .zmap x = vol.mapBit .zmap x := by
  unfold Volume.mapBit
  rw [h.sp, h.high _ (Nat.le_add_right ..)]

theorem used (h : Renumbered vol vol' num) : vol'.Used = vol.Used := by
  funext x
  unfold Volume.Used
  rw [h.sp, h.zmap]

end Renumbered

theorem imap_block (hx : x / bitsPerBlock < vol.sp.imblocks) :
    vol.sp.fromBlock .imap + x / bitsPerBlock < vol.sp.fromBlock .zmap := by
  show superBlock + 1 + x / bitsPerBlock < superBlock + 1 + vol.sp.imblocks
  omega

/-- `bitfree` in the inode bitmap does not touch the zones. -/
theorem bitfree_imap (vol : Volume) (inum : Nat) :
    Renumbered vol (bitfree vol inum .imap) inum := by
  unfold bitfree
  split
  · exact Renumbered.refl
  · dsimp only
    split
    · exact Renumbered.refl
    · next hle =>
      have hcovers := vol.sp.imap_covers
      have hsome := vol.sp.some_inode
      have hdiv : inum / bitsPerBlock < vol.sp.imblocks :=
        Nat.div_lt_of_lt_mul (by rw [Nat.mul_comm]; omega)
      refine ⟨clearMapBit_sp, fun b hb => ?_, fun x hx => ?_, ?_⟩
      · rw [clearMapBit_blk, put_blk, if_neg]
        exact Nat.ne_of_gt (Nat.lt_of_lt_of_le (imap_block hdiv) hb)
      · rw [mapBit_clearMapBit, decide_eq_false hx]
        rfl
      · unfold clearMapBit
        dsimp only
        split <;> rfl

end Cnix.Fs
