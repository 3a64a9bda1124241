/-
When `bitalloc` finds a zone.

The search starts at the block of `s_zsearch` and does not go back, so
it can miss a clear bit in an earlier block. It takes the lowest clear
bit that it can see. As long as no clear bit lies before its start
(`Hinted`), it finds one if there is one, and the start stays right
(`bitalloc_ample`). The start is right in particular after the last zone
has been given out, since the next search begins anew (`bitalloc_last`).

How many zones `bitalloc` gives one after the other (`Yields`) does not
depend on the bytes of data zones (`takes_put`).
-/
import Mathlib.Data.Finset.Card
import Cnix.Fs.Proofs.Bitmap

namespace Cnix.Fs

open Lib

variable {vol vol' vol'' : Volume} {which : Which} {zone bit k m n : Nat}

-- ======== where it starts

/-- The bit that the search for a zone starts at. -/
def Volume.fromBit (vol : Volume) : Nat :=
  if vol.sp.maxBit .zmap < vol.zsearch then 1 else vol.zsearch

/-- No clear bit lies in a block before the start. -/
def Volume.Hinted (vol : Volume) : Prop :=
  ∀ b, b ≤ vol.sp.maxBit .zmap → vol.mapBit .zmap b = false →
    vol.fromBit / bitsPerBlock ≤ b / bitsPerBlock

/-- The zones that are not in use. -/
def Volume.freeZones (vol : Volume) : Finset Nat :=
  (Finset.range vol.sp.zones).filter fun z =>
    vol.sp.fdzone ≤ z ∧ vol.mapBit .zmap (z + 1 - vol.sp.fdzone) = false

/-- The search finds `n` zones in a row. -/
def Volume.Ample (vol : Volume) (n : Nat) : Prop :=
  vol.Hinted ∧ n ≤ vol.freeZones.card

theorem mem_freeZones : zone ∈ vol.freeZones ↔ vol.sp.DataZone zone ∧ ¬ vol.Used zone := by
  unfold Volume.freeZones Volume.Used SuperBlock.DataZone
  rw [Finset.mem_filter, Finset.mem_range]
  constructor
  · intro ⟨hhigh, hlow, hclear⟩
    exact ⟨⟨hlow, hhigh⟩, fun hused => by rw [hclear] at hused; cases hused.2⟩
  · intro ⟨⟨hlow, hhigh⟩, hfree⟩
    refine ⟨hhigh, hlow, ?_⟩
    by_contra hset
    exact hfree ⟨⟨hlow, hhigh⟩, Bool.eq_true_of_not_eq_false hset⟩

/-- At most one zone fewer is free. -/
theorem Marked.card_freeZones (h : Marked vol vol' zone true) :
    vol.freeZones.card ≤ vol'.freeZones.card + 1 := by
  have hsub : vol.freeZones ⊆ insert zone vol'.freeZones := by
    intro z hz
    rw [mem_freeZones] at hz
    rw [Finset.mem_insert, mem_freeZones, h.sp, h.used]
    by_cases he : z = zone
    · exact .inl he
    · refine .inr ⟨hz.1, ?_⟩
      rintro (⟨he', -⟩ | ⟨-, hused⟩)
      · exact he he'
      · exact hz.2 hused
  exact (Finset.card_le_card hsub).trans (Finset.card_insert_le ..)

/-- The search of `bitalloc` for a zone. -/
def Volume.zoneSearch (vol : Volume) : Option Nat :=
  searchMap vol.blk (vol.sp.fromBlock .zmap) (vol.sp.maxBit .zmap)
    (vol.sp.bitBlocks .zmap - vol.fromBit / bitsPerBlock) (vol.fromBit / bitsPerBlock)

/-- A clear bit that does not lie before the start is found, or one below
it. -/
theorem zoneSearch_least {b : Nat} (hmax : b ≤ vol.sp.maxBit .zmap)
    (hfrom : vol.fromBit / bitsPerBlock ≤ b / bitsPerBlock)
    (hclear : vol.mapBit .zmap b = false) : ∃ bit, vol.zoneSearch = some bit ∧ bit ≤ b := by
  by_contra hno
  have hrange : b / bitsPerBlock < vol.fromBit / bitsPerBlock
      + (vol.sp.bitBlocks .zmap - vol.fromBit / bitsPerBlock) := by
    have hdiv := div_lt_zmblocks vol.sp hmax
    show _ < _ + (vol.sp.zmblocks - _)
    omega
  have hset : vol.mapBit .zmap b = true := searchMap_least hmax hfrom hrange fun bit hbit => by
    by_contra hle
    exact hno ⟨bit, hbit, by omega⟩
  rw [hset] at hclear
  cases hclear

/-- What `bitalloc` does to the bits and to the start. -/
theorem bitalloc_found (h : bitalloc vol .zmap = (zone, vol')) (hzone : zone ≠ 0) :
    ∃ bit, vol.zoneSearch = some bit ∧ zone + 1 = bit + vol.sp.fdzone
      ∧ vol'.zsearch = bit + 1 ∧ vol'.sp = vol.sp
      ∧ ∀ x, vol'.mapBit .zmap x = (decide (x = bit) || vol.mapBit .zmap x) := by
  unfold bitalloc at h
  split at h
  · cases h
    exact absurd rfl hzone
  · dsimp only at h
    split at h
    · cases h
      exact absurd rfl hzone
    · next bit hsearch =>
      simp only [setSearch_sp, Volume.put_sp] at h
      cases h
      refine ⟨bit, hsearch, ?_, rfl, setSearch_sp, fun x => ?_⟩
      · omega
      · rw [mapBit_setSearch, mapBit_setBit]

/-- The last zone was given out: the next search begins anew. -/
theorem bitalloc_last (h : bitalloc vol .zmap = (zone, vol'))
    (hlast : zone + 1 = vol.sp.zones) : vol'.Hinted := by
  have hsome := vol.sp.some_zone
  have hlayout := vol.sp.layout
  obtain ⟨bit, -, hbit, hsearch, hsp, -⟩ := bitalloc_found h (by omega)
  intro b _ _
  have hfrom : vol'.fromBit = 1 := by
    unfold Volume.fromBit
    rw [hsp, hsearch]
    exact if_pos (show vol.sp.zones - vol.sp.fdzone < bit + 1 by omega)
  rw [hfrom]
  exact Nat.zero_le _

/-- The start stays right. -/
theorem bitalloc_hinted (h : bitalloc vol .zmap = (zone, vol')) (hzone : zone ≠ 0)
    (hhint : vol.Hinted) : vol'.Hinted := by
  obtain ⟨bit, hfound, -, hsearch, hsp, hbits⟩ := bitalloc_found h hzone
  intro b hmax hclear
  rw [hsp] at hmax
  rw [hbits, Bool.or_eq_false_iff, decide_eq_false_iff_not] at hclear
  obtain ⟨bit', hfound', hle⟩ := zoneSearch_least hmax (hhint b hmax hclear.2) hclear.2
  rw [hfound] at hfound'
  cases hfound'
  have hfrom : vol'.fromBit ≤ b := by
    unfold Volume.fromBit
    split
    · omega
    · omega
  exact Nat.div_le_div_right hfrom

/-- With free zones and the right start, `bitalloc` does not fail. -/
theorem bitalloc_ample (hres : vol.Reserved) (hrw : vol.sp.roflag = false)
    (hample : vol.Ample (n + 1)) (h : bitalloc vol .zmap = (zone, vol')) :
    zone ≠ 0 ∧ vol'.Ample n := by
  obtain ⟨hhint, hcard⟩ := hample
  have hne : zone ≠ 0 := by
    obtain ⟨z, hz⟩ := Finset.card_pos.mp (Nat.lt_of_lt_of_le (Nat.succ_pos n) hcard)
    unfold Volume.freeZones at hz
    rw [Finset.mem_filter, Finset.mem_range] at hz
    obtain ⟨hhigh, hlow, hclear⟩ := hz
    have hmax : z + 1 - vol.sp.fdzone ≤ vol.sp.maxBit .zmap := by
      show _ ≤ vol.sp.zones - vol.sp.fdzone
      omega
    obtain ⟨bit, hfound, -⟩ := zoneSearch_least hmax (hhint _ hmax hclear) hclear
    have hlayout := vol.sp.layout
    unfold superBlock at hlayout
    unfold bitalloc at h
    rw [hrw, if_neg (by simp)] at h
    dsimp only at h
    split at h
    · next hnone =>
      rw [show vol.zoneSearch = none from hnone] at hfound
      cases hfound
    · simp only [setSearch_sp, Volume.put_sp] at h
      cases h
      omega
  refine ⟨hne, bitalloc_hinted h hne hhint, ?_⟩
  have hone := ((bitalloc_spec hres h).2 hne).2.2.card_freeZones
  omega

-- ======== the supply

/-- `bitalloc` gives a zone `n` times in a row. -/
def Yields : Nat → Volume → Prop
  | 0, _ => True
  | n + 1, vol => (bitalloc vol .zmap).1 ≠ 0 ∧ Yields n (bitalloc vol .zmap).2

/-- From `vol` to `vol'` so many zones have been given. -/
def Takes (k : Nat) (vol vol' : Volume) : Prop := ∀ m, Yields m vol' ↔ Yields (m + k) vol

/-- The same in the eyes of `bitalloc`. -/
structure SameMap (vol vol' : Volume) : Prop where
  sp : vol'.sp = vol.sp
  zsearch : vol'.zsearch = vol.zsearch
  blk : ∀ b < vol.sp.fdzone, vol'.blk b = vol.blk b

theorem Takes.trans (h : Takes k vol vol') (h' : Takes m vol' vol'') : Takes (m + k) vol vol'' :=
  fun n => (h' n).trans ((h (n + m)).trans (by rw [Nat.add_assoc]))

/-- A step that takes nothing. -/
theorem Takes.free (h : Takes k vol vol') (h' : Takes 0 vol' vol'') : Takes k vol vol'' :=
  fun n => (h' n).trans (h n)

theorem Yields.of_add : ∀ {k : Nat} {vol : Volume}, Yields (m + k) vol → Yields k vol
  | 0, _, _ => trivial
  | _ + 1, _, h => ⟨h.1, of_add h.2⟩

theorem Yields.mono (h : Yields n vol) (hle : k ≤ n) : Yields k vol := by
  rw [← Nat.sub_add_cancel hle] at h
  exact h.of_add

theorem Takes.yields (h : Takes k vol vol') : Yields k vol := by
  have hzero := (h 0).mp trivial
  rwa [Nat.zero_add] at hzero

theorem searchMap_same (h : SameMap vol vol') {maxBit : Nat} : ∀ {rounds block : Nat},
    rounds + block ≤ vol.sp.zmblocks → searchMap vol'.blk (vol.sp.fromBlock .zmap) maxBit rounds block
      = searchMap vol.blk (vol.sp.fromBlock .zmap) maxBit rounds block := by
  intro rounds
  induction rounds with
  | zero => exact fun _ => rfl
  | succ rounds ih =>
    intro block hle
    have hlayout := vol.sp.layout
    have hblk : vol'.blk (vol.sp.fromBlock .zmap + block) = vol.blk (vol.sp.fromBlock .zmap + block) :=
      h.blk _ (show superBlock + 1 + vol.sp.imblocks + block < _ by omega)
    rw [searchMap, searchMap, hblk, ih (by omega)]

theorem bitalloc_same (h : SameMap vol vol') : (bitalloc vol' .zmap).1 = (bitalloc vol .zmap).1
      ∧ SameMap (bitalloc vol .zmap).2 (bitalloc vol' .zmap).2 := by
  have hstart : vol'.search .zmap = vol.search .zmap := h.zsearch
  unfold bitalloc
  rw [h.sp, hstart]
  split
  · exact ⟨rfl, h⟩
  · dsimp only
    generalize (if vol.sp.maxBit .zmap < vol.search .zmap then 1 else vol.search .zmap)
      / bitsPerBlock = block
    have hsearch : searchMap vol'.blk (vol.sp.fromBlock .zmap) (vol.sp.maxBit .zmap)
          (vol.sp.bitBlocks .zmap - block) block
        = searchMap vol.blk (vol.sp.fromBlock .zmap) (vol.sp.maxBit .zmap)
          (vol.sp.bitBlocks .zmap - block) block := by
      by_cases hle : block ≤ vol.sp.zmblocks
      · exact searchMap_same h (show vol.sp.zmblocks - block + block ≤ _ by omega)
      · rw [show vol.sp.bitBlocks .zmap - block = 0 from Nat.sub_eq_zero_of_le (by
          show vol.sp.zmblocks ≤ block
          omega)]
        rfl
    rw [hsearch]
    split
    · exact ⟨rfl, h⟩
    · next bit hbit =>
      refine ⟨by simp only [setSearch_sp, Volume.put_sp, h.sp], ?_, rfl, fun b hb => ?_⟩
      · simp only [setSearch_sp, Volume.put_sp, h.sp]
      · simp only [setSearch_blk, Volume.put_blk]
        split
        · next he => rw [h.blk _ (he ▸ hb)]
        · exact h.blk b hb

theorem yields_same (h : SameMap vol vol') : Yields n vol' ↔ Yields n vol := by
  induction n generalizing vol vol' with
  | zero => exact Iff.rfl
  | succ n ih =>
    obtain ⟨hzone, hsame⟩ := bitalloc_same h
    unfold Yields
    rw [hzone, ih hsame]

/-- The bytes of a data zone do not matter. -/
theorem takes_put {data : Block} (hzone : vol.sp.DataZone zone) : Takes 0 vol (vol.put zone data) := by
  refine fun m => yields_same ⟨rfl, rfl, fun b hb => ?_⟩
  rw [Volume.put_blk, if_neg]
  have hlow := hzone.1
  omega

theorem takes_bitalloc (h : bitalloc vol .zmap = (zone, vol')) (hne : zone ≠ 0) : Takes 1 vol vol' := by
  intro m
  rw [Yields, h]
  exact ⟨fun hm => ⟨hne, hm⟩, And.right⟩

theorem not_yields (h : bitalloc vol .zmap = (0, vol')) : ¬ Yields 1 vol := by
  rw [Yields, h]
  exact fun hy => hy.1 rfl

theorem Volume.Ample.yields : ∀ {n : Nat} {vol : Volume}, vol.Reserved → vol.sp.roflag = false →
    vol.Ample n → Yields n vol
  | 0, _, _, _, _ => trivial
  | n + 1, vol, hres, hrw, hample => by
    unfold Yields
    cases halloc : bitalloc vol .zmap with
    | mk zone vol' =>
      obtain ⟨hne, hample'⟩ := bitalloc_ample hres hrw hample halloc
      obtain ⟨-, -, hmark⟩ := (bitalloc_spec hres halloc).2 hne
      exact ⟨hne, hample'.yields (hmark.reserved hres) (by rw [hmark.sp, hrw])⟩

end Cnix.Fs
