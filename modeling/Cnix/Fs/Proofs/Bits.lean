/-
`bitalloc` and `bitfree` on any volume that `sread` accepts.

`bitalloc` takes a clear bit of the map, the lowest from its start on
(`findBit_spec`, `findBit_least`). The start is right as long as no clear
bit lies below it (`Hinted`). It starts at 0, goes behind a bit that has
been taken, where no clear bit was left below, and falls to the place of
a freed bit within its block, which is never above the bit. So in a run
that frees no bit 0 each call finds a bit if there is one
(`bitalloc_sound_complete`).

The limit of `bitfree` is one less than the limit of `bitalloc`. So
`bitfree` undoes `bitalloc` for every number but the highest
(`bitfree_undoes_iff`).
-/
import Cnix.Lib.Runs
import Cnix.Fs.Bits
import Cnix.Fs.Proofs.Bitmap

namespace Cnix.Fs

open Lib
open BitVec (ofNat toNat_ofNat)
open Mounted (dropBit takeBit findBit)

variable {m m' : Mounted} {which w : Which} {v : Bit} {bit b : Nat} {inUse : Which → Prop}

-- ======== numbers

namespace Geometry

variable (sp : Geometry)

/-- What `sread` has checked. -/
theorem checked : 1 ≤ sp.imblocks ∧ 1 ≤ sp.zmblocks ∧ 1 ≤ sp.ninodes ∧ 1 ≤ sp.zones := by
  have h := sp.accepted
  unfold DiskSuper.good at h
  simp at h
  omega

theorem bitBlocks_pos (which : Which) : 1 ≤ sp.bitBlocks which := by
  obtain ⟨himap, hzmap, -⟩ := sp.checked
  cases which with
  | imap =>
    show 1 ≤ sp.imblocks.toNat
    omega
  | zmap =>
    show 1 ≤ sp.zmblocks.toNat
    omega

theorem bitBlocks_lt (which : Which) : sp.bitBlocks which < 2 ^ 15 := by
  have himap := sp.imblocks_lt
  have hzmap := sp.zmblocks_lt
  cases which with
  | imap =>
    show sp.imblocks.toNat < 2 ^ 15
    omega
  | zmap =>
    show sp.zmblocks.toNat < 2 ^ 15
    omega

/-- A bit of a map is far from the end of a `bit_t`. -/
theorem bit_lt (h : bit / bitsPerBlock < sp.bitBlocks which) : bit < 2 ^ 28 := by
  have hlt := sp.bitBlocks_lt which
  rw [bitsPerBlock_eq] at h
  omega

theorem toNat_bit (h : bit / bitsPerBlock < sp.bitBlocks which) :
    (ofNat 32 bit).toNat = bit := by
  have hlt := sp.bit_lt h
  rw [toNat_ofNat]
  omega

@[simp] theorem bitOf_number (x : Bit) : sp.bitOf which (sp.number which x) = x := by
  cases which with
  | imap => rfl
  | zmap => exact BitVec.add_sub_cancel _ _

theorem maxFree_eq : sp.maxFree which = sp.maxBit which - 1 := by
  cases which <;> rfl

/-- The limits differ by one, and the lower one wraps at 0. -/
theorem maxFree_lt {x : Bit} (h : x ≤ sp.maxBit which) :
    sp.maxFree which < x ↔ x = sp.maxBit which ∧ sp.maxBit which ≠ 0 := by
  rw [maxFree_eq, BitVec.lt_def, ← BitVec.toNat_inj, ← BitVec.toNat_ne_iff_ne, BitVec.toNat_sub]
  rw [BitVec.le_def] at h
  have hone : (1 : Bit).toNat = 1 := rfl
  have hzero : (0 : Bit).toNat = 0 := rfl
  omega

end Geometry

-- ======== bits

/-- A bit of a map. -/
def Mounted.mapBit (m : Mounted) (which : Which) (b : Nat) : Bool :=
  mapBitAt m.blk (m.sp.fromBlock which) b

@[simp] theorem Mounted.setSearch_sp : (m.setSearch which bit).sp = m.sp := by
  cases which <;> rfl

@[simp] theorem Mounted.setSearch_blk : (m.setSearch which bit).blk = m.blk := by
  cases which <;> rfl

@[simp] theorem Mounted.setSearch_roflag : (m.setSearch which bit).roflag = m.roflag := by
  cases which <;> rfl

@[simp] theorem Mounted.setSearch_search :
    (m.setSearch which bit).search w = if w = which then bit else m.search w := by
  cases which <;> cases w <;> rfl

theorem Mounted.mapBit_setSearch : (m.setSearch which bit).mapBit w b = m.mapBit w b := by
  unfold Mounted.mapBit
  rw [setSearch_sp, setSearch_blk]

@[simp] theorem Mounted.takeBit_sp : (m.takeBit which bit).sp = m.sp := setSearch_sp

@[simp] theorem Mounted.takeBit_roflag : (m.takeBit which bit).roflag = m.roflag :=
  setSearch_roflag

theorem Mounted.takeBit_search :
    (m.takeBit which bit).search w = if w = which then bit + 1 else m.search w :=
  setSearch_search

theorem Mounted.mapBit_takeBit :
    (m.takeBit which bit).mapBit which b = (decide (b = bit) || m.mapBit which b) := by
  unfold takeBit
  rw [mapBit_setSearch]
  exact mapBitAt_set

@[simp] theorem Mounted.dropBit_sp : (m.dropBit which bit).sp = m.sp := by
  unfold dropBit
  split
  · exact setSearch_sp
  · rfl

@[simp] theorem Mounted.dropBit_roflag : (m.dropBit which bit).roflag = m.roflag := by
  unfold dropBit
  split
  · exact setSearch_roflag
  · rfl

theorem Mounted.dropBit_search : (m.dropBit which bit).search w
    = if w = which then min (m.search w) (bit % bitsPerBlock) else m.search w := by
  unfold dropBit
  split
  · next hlt =>
    rw [setSearch_search]
    split
    · next hw =>
      subst hw
      omega
    · rfl
  · next hle =>
    split
    · next hw =>
      subst hw
      exact (Nat.min_eq_left (Nat.le_of_not_lt hle)).symm
    · rfl

/-- The blocks after a bit has been freed. -/
theorem Mounted.dropBit_blk : (m.dropBit which bit).blk
    = Function.update m.blk (m.mapBlock which bit)
        (clearBitAt (m.blk (m.mapBlock which bit)) (bit % bitsPerBlock)) := by
  unfold dropBit
  split
  · exact setSearch_blk
  · rfl

theorem Mounted.mapBit_dropBit :
    (m.dropBit which bit).mapBit which b = (!decide (b = bit) && m.mapBit which b) := by
  unfold Mounted.mapBit
  rw [dropBit_sp, dropBit_blk]
  exact mapBitAt_clear

-- ======== the search

theorem Mounted.findBit_spec (h : m.findBit which = some bit) :
    bit ≤ (m.sp.maxBit which).toNat ∧ m.mapBit which bit = false
      ∧ bit / bitsPerBlock < m.sp.bitBlocks which := by
  unfold findBit at h
  dsimp only at h
  obtain ⟨hmax, hclear, hlow, hblock⟩ := searchMap_spec h
  exact ⟨hmax, hclear, by omega⟩

/-- A clear bit below `limit` lies in the blocks that the search goes
through. -/
def Mounted.ClearBelow (m : Mounted) (which : Which) (limit : Nat) : Prop :=
  ∃ b, b < limit ∧ m.fromBit which / bitsPerBlock ≤ b / bitsPerBlock ∧ m.mapBit which b = false

/-- The bit that is found is below `limit` if such a bit is clear. -/
theorem Mounted.findBit_lt_iff {limit : Nat} (h : m.findBit which = some bit)
    (hlimit : limit ≤ (m.sp.maxBit which).toNat) : bit < limit ↔ m.ClearBelow which limit := by
  obtain ⟨-, hclear, hmap⟩ := findBit_spec h
  unfold findBit at h
  constructor
  · intro hlt
    exact ⟨bit, hlt, (searchMap_spec h).2.2.1, hclear⟩
  · rintro ⟨b, hb, hblock, hclear'⟩
    by_contra hge
    have hrange : b / bitsPerBlock < m.fromBit which / bitsPerBlock
        + (m.sp.bitBlocks which - m.fromBit which / bitsPerBlock) := by
      have hle : b / bitsPerBlock ≤ bit / bitsPerBlock := Nat.div_le_div_right (by omega)
      omega
    have hmax : b ≤ (m.sp.maxBit which).toNat := by omega
    have hset := searchMap_least hmax hblock hrange fun bit' hbit' => by
      rw [h] at hbit'
      cases hbit'
      omega
    rw [show m.mapBit which b = true from hset] at hclear'
    cases hclear'

/-- No clear bit of the map lies below the start. -/
def Mounted.Hinted (m : Mounted) (which : Which) : Prop :=
  ∀ b, b ≤ (m.sp.maxBit which).toNat → b / bitsPerBlock < m.sp.bitBlocks which →
    m.mapBit which b = false → m.search which ≤ b

/-- With the right start a clear bit is found, or one below it. -/
theorem Mounted.findBit_least (hhint : m.Hinted which) (hmax : b ≤ (m.sp.maxBit which).toNat)
    (hmap : b / bitsPerBlock < m.sp.bitBlocks which) (hclear : m.mapBit which b = false) :
    ∃ bit, m.findBit which = some bit ∧ bit ≤ b := by
  have hfrom : m.fromBit which ≤ b := by
    have hsearch := hhint b hmax hmap hclear
    unfold Mounted.fromBit
    rw [if_neg (by omega)]
    exact hsearch
  by_contra hno
  have hblock : m.fromBit which / bitsPerBlock ≤ b / bitsPerBlock := Nat.div_le_div_right hfrom
  have hrange : b / bitsPerBlock < m.fromBit which / bitsPerBlock
      + (m.sp.bitBlocks which - m.fromBit which / bitsPerBlock) := by omega
  have hset := searchMap_least hmax hblock hrange fun bit hbit => by
    by_contra hle
    exact hno ⟨bit, hbit, by omega⟩
  rw [show m.mapBit which b = true from hset] at hclear
  cases hclear

/-- What a call of `bitalloc` comes to. -/
theorem Mounted.bitalloc_cases (hrw : m.roflag = false) :
    m.findBit which = none ∧ m.bitalloc which = (0, m) ∨ ∃ bit, m.findBit which = some bit
        ∧ m.bitalloc which = (m.sp.number which (ofNat 32 bit), m.takeBit which bit) := by
  unfold Mounted.bitalloc
  rw [hrw, if_neg (by simp)]
  cases hfind : m.findBit which with
  | none => exact .inl ⟨rfl, rfl⟩
  | some bit => exact .inr ⟨bit, rfl, rfl⟩

-- ======== undo

/-- Freeing a bit that was just taken. -/
theorem Mounted.mapBit_drop_take (hclear : m.mapBit which bit = false) :
    ((m.takeBit which bit).dropBit which bit).mapBit which = m.mapBit which := by
  funext x
  rw [mapBit_dropBit, mapBit_takeBit]
  by_cases hx : x = bit
  · subst hx
    rw [hclear, decide_eq_true rfl]
    rfl
  · rw [decide_eq_false hx, Bool.not_false, Bool.true_and, Bool.false_or]

/-- `bitfree` gives the bitmap back as it was before `bitalloc`, if and
only if a bit below the highest is clear for the search, so that `bitalloc`
does not take the highest. If the highest bit is 0, the limit of `bitfree`
is the largest `bit_t`. -/
theorem Mounted.bitfree_undoes_iff (m m' : Mounted) (which : Which) (v : Bit)
    (hrw : m.roflag = false) (h : m.bitalloc which = (v, m')) (hv : v ≠ ofNat 32 nobit) :
    (m'.bitfree v which).mapBit which = m.mapBit which
      ↔ m.ClearBelow which (m.sp.maxBit which).toNat ∨ m.sp.maxBit which = 0 := by
  rcases bitalloc_cases hrw with ⟨-, heq⟩ | ⟨bit, hfind, heq⟩
  · rw [heq] at h
    cases h
    exact absurd rfl hv
  · rw [heq] at h
    cases h
    obtain ⟨hmax, hclear, hmap⟩ := findBit_spec hfind
    have hbit := m.sp.toNat_bit hmap
    have hle : ofNat 32 bit ≤ m.sp.maxBit which := by
      rw [BitVec.le_def, hbit]
      exact hmax
    have htop : ofNat 32 bit = m.sp.maxBit which ↔ bit = (m.sp.maxBit which).toNat := by
      rw [← BitVec.toNat_inj, hbit]
    rw [← findBit_lt_iff hfind (Nat.le_refl _)]
    unfold Mounted.bitfree
    rw [takeBit_roflag, hrw, if_neg (by simp), takeBit_sp, m.sp.bitOf_number, hbit]
    split
    · next hlt =>
      -- the call is refused, and the bit stays set
      obtain ⟨heqmax, hne⟩ := (m.sp.maxFree_lt hle).mp hlt
      have hset : (m.takeBit which bit).mapBit which bit = true := by
        rw [mapBit_takeBit, decide_eq_true rfl, Bool.true_or]
      constructor
      · intro hsame
        rw [hsame, hclear] at hset
        cases hset
      · rintro (hbelow | hzero)
        · exact absurd (htop.mp heqmax) (Nat.ne_of_lt hbelow)
        · exact absurd hzero hne
    · next hge =>
      rw [m.sp.maxFree_lt hle, not_and_or, not_not, htop] at hge
      refine iff_of_true (mapBit_drop_take hclear) ?_
      rcases hge with hne | hzero
      · exact .inl (Nat.lt_of_le_of_ne hmax hne)
      · exact .inr hzero

/-- A volume with two inodes and one zone, all of them free. -/
def smallVolume : Mounted where
  sp :=
    { magic := lmMagic, imblocks := 1, zmblocks := 1, ninodes := 2, zones := 5, lzsize := 0,
      fdzone := 4, accepted := by decide, ninodes_lt := by decide, imblocks_lt := by decide,
      zmblocks_lt := by decide, fdzone_lt := by decide, zones_lt := by decide }
  roflag := false
  isearch := 0
  zsearch := 0
  -- bit 0 of each block is set
  blk := fun _ k => if k = 0 then 1 else 0

/-- The first inode. -/
theorem Mounted.bitfree_undoes_inode :
    ((smallVolume.bitalloc .imap).2.bitfree (smallVolume.bitalloc .imap).1 .imap).mapBit .imap
      = smallVolume.mapBit .imap :=
  (bitfree_undoes_iff smallVolume _ .imap _ rfl rfl (by decide)).mpr
    (.inl ⟨1, by decide, by decide, by decide⟩)

/-- The only zone is the highest: its bit stays set. -/
theorem Mounted.highest_zone_stays : ∃ (m m' : Mounted) (v : Bit), m.roflag = false
    ∧ m.bitalloc .zmap = (v, m') ∧ v ≠ ofNat 32 nobit
    ∧ m.mapBit .zmap 1 = false ∧ (m'.bitfree v .zmap).mapBit .zmap 1 = true :=
  ⟨smallVolume, (smallVolume.bitalloc .zmap).2, (smallVolume.bitalloc .zmap).1, rfl, rfl,
    by decide, by decide, by decide⟩

-- ======== runs

/-- A call on a volume. -/
inductive MapCall
  | bitalloc (which : Which)
  | bitfree (v : Bit) (which : Which)

/-- The volume after a call. -/
def Mounted.call (m : Mounted) : MapCall → Option Mounted
  | .bitalloc which => some (m.bitalloc which).2
  | .bitfree v which => some (m.bitfree v which)

/-- The maps in use have their bit 0 set and a block for every bit, and
the search starts at 0. -/
structure Mounted.Fresh (inUse : Which → Prop) (m : Mounted) : Prop where
  rw : m.roflag = false
  zero : ∀ which, inUse which → m.mapBit which 0 = true
  covers : ∀ which, inUse which →
    (m.sp.maxBit which).toNat < m.sp.bitBlocks which * bitsPerBlock
  hint : ∀ which, inUse which → m.search which = 0

/-- The calls are on maps in use. -/
def MapCall.On (inUse : Which → Prop) : MapCall → Prop
  | .bitalloc which => inUse which
  | .bitfree _ which => inUse which

/-- No call frees bit 0. -/
def MapCall.SparesZero (m : Mounted) : MapCall → Prop
  | .bitalloc _ => True
  | .bitfree v which => m.sp.bitOf which v ≠ 0

/-- What holds of the maps in use all the time. -/
structure Mounted.Kept (inUse : Which → Prop) (m : Mounted) : Prop where
  rw : m.roflag = false
  zero : ∀ which, inUse which → m.mapBit which 0 = true
  covers : ∀ which, inUse which →
    (m.sp.maxBit which).toNat < m.sp.bitBlocks which * bitsPerBlock
  hinted : ∀ which, inUse which → m.Hinted which

/-- The two maps lie in different blocks. -/
theorem Mounted.other_block (hw : w ≠ which) (hb : b / bitsPerBlock < m.sp.bitBlocks w)
    (hbit : which = .imap → bit / bitsPerBlock < m.sp.bitBlocks .imap) :
    m.mapBlock w b ≠ m.mapBlock which bit := by
  unfold Mounted.mapBlock
  generalize b / bitsPerBlock = x at hb
  generalize bit / bitsPerBlock = y at hbit
  cases which with
  | imap =>
    have hlt : y < m.sp.imblocks.toNat := hbit rfl
    cases w with
    | imap => exact absurd rfl hw
    | zmap =>
      show superBlock + 1 + m.sp.imblocks.toNat + _ ≠ superBlock + 1 + _
      omega
  | zmap =>
    cases w with
    | imap =>
      have hlt : x < m.sp.imblocks.toNat := hb
      show superBlock + 1 + _ ≠ superBlock + 1 + m.sp.imblocks.toNat + _
      omega
    | zmap => exact absurd rfl hw

theorem Mounted.mapBit_takeBit_other (hw : w ≠ which) (hb : b / bitsPerBlock < m.sp.bitBlocks w)
    (hbit : which = .imap → bit / bitsPerBlock < m.sp.bitBlocks .imap) :
    (m.takeBit which bit).mapBit w b = m.mapBit w b := by
  unfold takeBit
  rw [mapBit_setSearch]
  show bitAt (Function.update m.blk _ _ (m.mapBlock w b)) _ = bitAt (m.blk (m.mapBlock w b)) _
  rw [Function.update_of_ne (other_block hw hb hbit)]

theorem Mounted.mapBit_dropBit_other (hw : w ≠ which) (hb : b / bitsPerBlock < m.sp.bitBlocks w)
    (hbit : which = .imap → bit / bitsPerBlock < m.sp.bitBlocks .imap) :
    (m.dropBit which bit).mapBit w b = m.mapBit w b := by
  unfold Mounted.mapBit
  rw [dropBit_sp, dropBit_blk]
  show bitAt (Function.update m.blk _ _ (m.mapBlock w b)) _ = bitAt (m.blk (m.mapBlock w b)) _
  rw [Function.update_of_ne (other_block hw hb hbit)]

/-- Every bit of a map in use has its block. -/
theorem Mounted.Kept.block (h : m.Kept inUse) (huse : inUse which)
    (hmax : b ≤ (m.sp.maxBit which).toNat) : b / bitsPerBlock < m.sp.bitBlocks which := by
  have hcovers := h.covers which huse
  exact Nat.div_lt_of_lt_mul (by rw [Nat.mul_comm]; omega)

/-- A bit is taken: no clear bit was below it. -/
theorem Mounted.Hinted.takeBit (h : m.Hinted which) (hfind : m.findBit which = some bit) :
    (m.takeBit which bit).Hinted which := by
  intro b hmax hmap hclear
  rw [takeBit_sp] at hmax hmap
  rw [mapBit_takeBit, Bool.or_eq_false_iff, decide_eq_false_iff_not] at hclear
  obtain ⟨bit', hfind', hle⟩ := findBit_least h hmax hmap hclear.2
  rw [hfind] at hfind'
  cases hfind'
  rw [takeBit_search, if_pos rfl]
  omega

/-- A bit is freed: the start is not above its place within its block. -/
theorem Mounted.Hinted.dropBit (h : m.Hinted which) : (m.dropBit which bit).Hinted which := by
  intro b hmax hmap hclear
  rw [dropBit_sp] at hmax hmap
  rw [mapBit_dropBit] at hclear
  rw [dropBit_search, if_pos rfl]
  by_cases hb : b = bit
  · subst hb
    exact (Nat.min_le_right ..).trans (Nat.mod_le ..)
  · rw [decide_eq_false hb, Bool.not_false, Bool.true_and] at hclear
    exact (Nat.min_le_left ..).trans (h b hmax hmap hclear)

theorem Mounted.Kept.bitalloc (h : m.Kept inUse) (huse : inUse which) :
    (m.bitalloc which).2.Kept inUse := by
  rcases bitalloc_cases h.rw with ⟨-, heq⟩ | ⟨bit, hfind, heq⟩
  · rw [heq]
    exact h
  · rw [heq]
    obtain ⟨-, -, hmap⟩ := findBit_spec hfind
    have himap : which = .imap → bit / bitsPerBlock < m.sp.bitBlocks .imap := by
      intro hw
      rw [← hw]
      exact hmap
    refine ⟨takeBit_roflag.trans h.rw, fun w hw => ?_, fun w hw => ?_, fun w hw => ?_⟩
    · by_cases he : w = which
      · subst he
        rw [mapBit_takeBit, h.zero _ hw, Bool.or_true]
      · rw [mapBit_takeBit_other he (h.block hw (Nat.zero_le _)) himap]
        exact h.zero w hw
    · rw [takeBit_sp]
      exact h.covers w hw
    · by_cases he : w = which
      · subst he
        exact (h.hinted _ hw).takeBit hfind
      · intro b hmax hb hclear
        rw [takeBit_sp] at hmax hb
        rw [mapBit_takeBit_other he hb himap] at hclear
        rw [takeBit_search, if_neg he]
        exact h.hinted w hw b hmax hb hclear

theorem Mounted.Kept.bitfree (h : m.Kept inUse) (huse : inUse which)
    (hzero : m.sp.bitOf which v ≠ 0) : (m.bitfree v which).Kept inUse := by
  unfold Mounted.bitfree
  rw [h.rw, if_neg (by simp)]
  split
  · exact h
  · next hle =>
    generalize hbit : (m.sp.bitOf which v).toNat = bit
    have hpos : bit ≠ 0 := by
      intro h0
      exact hzero (BitVec.eq_of_toNat_eq (hbit.trans h0))
    have himap : which = .imap → bit / bitsPerBlock < m.sp.bitBlocks .imap := by
      intro hw
      subst hw
      refine h.block huse ?_
      obtain ⟨-, -, hinodes, -⟩ := m.sp.checked
      have hlt := m.sp.ninodes_lt
      rw [m.sp.maxFree_eq, BitVec.not_lt, BitVec.le_def, BitVec.toNat_sub, hbit] at hle
      have hone : (1 : Bit).toNat = 1 := rfl
      have hmax : (m.sp.maxBit .imap).toNat = m.sp.ninodes % 2 ^ 32 := toNat_ofNat ..
      omega
    refine ⟨dropBit_roflag.trans h.rw, fun w hw => ?_, fun w hw => ?_, fun w hw => ?_⟩
    · by_cases he : w = which
      · subst he
        rw [mapBit_dropBit, h.zero _ hw, decide_eq_false (Ne.symm hpos)]
        rfl
      · rw [mapBit_dropBit_other he (h.block hw (Nat.zero_le _)) himap]
        exact h.zero w hw
    · rw [dropBit_sp]
      exact h.covers w hw
    · by_cases he : w = which
      · subst he
        exact (h.hinted _ hw).dropBit
      · intro b hmax hb hclear
        rw [dropBit_sp] at hmax hb
        rw [mapBit_dropBit_other he hb himap] at hclear
        rw [dropBit_search, if_neg he]
        exact h.hinted w hw b hmax hb hclear

theorem Mounted.Kept.call {c : MapCall} (h : m.Kept inUse)
    (hon : c.On inUse) (hspare : c.SparesZero m) (hcall : m.call c = some m') : m'.Kept inUse := by
  cases c with
  | bitalloc which =>
    cases hcall
    exact h.bitalloc hon
  | bitfree v which =>
    cases hcall
    exact h.bitfree hon hspare

theorem Mounted.Fresh.kept (h : m.Fresh inUse) : m.Kept inUse :=
  ⟨h.rw, h.zero, h.covers, fun which huse b _ _ _ => by rw [h.hint which huse]; exact Nat.zero_le b⟩

/-- The numbers of the bits are not `NOBIT`, but for bit 1 if the data
zones start at 0. -/
theorem Geometry.number_ne (sp : Geometry) (hmap : bit / bitsPerBlock < sp.bitBlocks which)
    (hpos : bit ≠ 0) (hfdzone : which = .zmap → bit + sp.fdzone ≠ 1) :
    sp.number which (ofNat 32 bit) ≠ 0 := by
  have hbit := sp.bit_lt hmap
  have hlt := sp.fdzone_lt
  intro h
  have hnat := congrArg BitVec.toNat h
  cases which with
  | imap =>
    have h0 : bit % 2 ^ 32 = 0 := hnat
    omega
  | zmap =>
    have hne := hfdzone rfl
    have hone : (1 : Bit).toNat = 1 := rfl
    have hzero : (0 : Bit).toNat = 0 := rfl
    have hsum : (ofNat 32 bit + (ofNat 32 sp.fdzone - 1)).toNat = (0 : Bit).toNat :=
      hnat
    rw [BitVec.toNat_add, BitVec.toNat_sub, toNat_ofNat, toNat_ofNat] at hsum
    omega

/-- `bitalloc` takes a clear bit from 1 to the highest, this bit alone, and
returns its number; and it fails only if no such bit is clear. This is so
in every run from a search that starts at 0, as long as bit 0 is never
freed and the data zones do not start at 0. -/
theorem Mounted.bitalloc_sound_complete (inUse : Which → Prop) (m : Mounted)
    (hreach : Reached (Mounted.Fresh inUse) Mounted.call (fun m c => c.On inUse ∧ c.SparesZero m) m)
    (which : Which) (huse : inUse which) (hfdzone : which = .zmap → m.sp.fdzone ≠ 0) :
    ((m.bitalloc which).1 ≠ ofNat 32 nobit →
      ∃ bit, 1 ≤ bit ∧ bit ≤ (m.sp.maxBit which).toNat ∧ m.mapBit which bit = false
        ∧ (m.bitalloc which).1 = m.sp.number which (ofNat 32 bit)
        ∧ (∀ b, (m.bitalloc which).2.mapBit which b = (decide (b = bit) || m.mapBit which b))
        ∧ ∀ w b, w ≠ which → b / bitsPerBlock < m.sp.bitBlocks w →
            (m.bitalloc which).2.mapBit w b = m.mapBit w b)
      ∧ ((m.bitalloc which).1 = ofNat 32 nobit →
        ∀ bit, 1 ≤ bit → bit ≤ (m.sp.maxBit which).toNat → m.mapBit which bit = true) := by
  have hkept : m.Kept inUse :=
    hreach.inv (fun _ hfresh => hfresh.kept) fun _ _ _ h hok hcall => h.call hok.1 hok.2 hcall
  rcases bitalloc_cases hkept.rw with ⟨hfind, heq⟩ | ⟨bit, hfind, heq⟩
  · rw [heq]
    refine ⟨fun hne => absurd rfl hne, fun _ bit _ hmax => ?_⟩
    by_contra hset
    obtain ⟨bit', hfind', -⟩ := findBit_least (hkept.hinted which huse) hmax
      (hkept.block huse hmax) (Bool.eq_false_of_not_eq_true hset)
    rw [hfind] at hfind'
    cases hfind'
  · rw [heq]
    obtain ⟨hmax, hclear, hmap⟩ := findBit_spec hfind
    have hpos : bit ≠ 0 := by
      intro h0
      subst h0
      rw [hkept.zero which huse] at hclear
      cases hclear
    refine ⟨fun _ => ⟨bit, by omega, hmax, hclear, rfl, fun _ => mapBit_takeBit,
      fun w b hw hb => mapBit_takeBit_other hw hb fun he => ?_⟩, fun hno => ?_⟩
    · rw [← he]
      exact hmap
    · refine absurd hno (m.sp.number_ne hmap hpos fun hw => ?_)
      have hne := hfdzone hw
      omega

theorem smallVolume_fresh : smallVolume.Fresh fun _ => True := by
  refine ⟨rfl, fun which _ => ?_, fun which _ => ?_, fun which _ => ?_⟩
  · cases which <;> decide
  · cases which <;> decide
  · cases which <;> rfl

/-- The first inode is given out. -/
theorem Mounted.bitalloc_sound_complete_inode :
    ∃ bit, 1 ≤ bit ∧ bit ≤ 2 ∧ smallVolume.mapBit .imap bit = false
      ∧ (smallVolume.bitalloc .imap).1 = ofNat 32 bit := by
  obtain ⟨hsound, -⟩ := bitalloc_sound_complete (fun _ => True) smallVolume
    (.first smallVolume_fresh) .imap trivial nofun
  obtain ⟨bit, hpos, hmax, hclear, hnum, -⟩ := hsound (by decide)
  exact ⟨bit, hpos, hmax, hclear, hnum⟩

/-- Inode 0 is freed. The next call takes bit 0, which is `NOBIT`, although
two inodes are free. -/
theorem Mounted.bitalloc_takes_zero : ∃ m, Reached (Mounted.Fresh fun _ => True) Mounted.call
      (fun _ c => c.On fun _ => True) m ∧ (m.bitalloc .imap).1 = ofNat 32 nobit
    ∧ (m.sp.maxBit .imap).toNat = 2 ∧ m.mapBit .imap 1 = false ∧ m.mapBit .imap 2 = false :=
  ⟨smallVolume.bitfree 0 .imap,
    .step (.bitfree 0 .imap) (.first smallVolume_fresh) trivial rfl,
    by decide, by decide, by decide, by decide⟩

end Cnix.Fs
