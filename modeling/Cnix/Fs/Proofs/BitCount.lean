/-
`get_free_bits_nr` against `bitalloc`.

The count is the number of clear bits of the map up to the limit, which
is an `int` (`getFreeBitsNr_small`, `getFreeBitsNr_large`). With the right
start, `bitalloc` takes one of these bits after the other
(`Draws.of_not_lost`). The two numbers agree if the limit is no more than
an `int` can hold and no clear bit is lost to `NOBIT`
(`getFreeBitsNr_draws_iff`).
-/
import Mathlib.Data.Finset.Card
import Cnix.Fs.Proofs.Bits

namespace Cnix.Fs

open Lib

variable {m : Mounted} {which : Which} {data : Block} {blk : Nat → Block}
  {base limit bit count : Nat}

-- ======== the words

theorem count_congr {p q : Nat → Prop} [DecidablePred p] [DecidablePred q] {n : Nat}
    (h : ∀ k, k < n → (p k ↔ q k)) : Nat.count p n = Nat.count q n :=
  le_antisymm (Nat.count_mono_left fun k hk => (h k hk).mp)
    (Nat.count_mono_left fun k hk => (h k hk).mpr)

/-- The clear bits among the first ones of a word. -/
theorem getZeroBits_eq {i n : Nat} (hn : n ≤ 32) :
    getZeroBits (word data i) n = Nat.count (fun k => bitAt data (i * 32 + k) = false) n := by
  unfold getZeroBits
  rw [if_neg (by omega)]
  refine count_congr fun k hk => ?_
  unfold bitAt
  rw [show (i * 32 + k) / 32 = i by omega, show (i * 32 + k) % 32 = k by omega]

/-- The words from `i` on, up to the limit. -/
theorem countWords_eq : ∀ {left i bit count : Nat}, countWords data (limit : Int) left i bit count
      = (bit + min (left * 32) (limit + 1 - bit),
        count + Nat.count (fun k => bitAt data (i * 32 + k) = false)
          (min (left * 32) (limit + 1 - bit))) := by
  intro left
  induction left with
  | zero =>
    simp [countWords]
  | succ left ih =>
    intro i bit count
    rw [countWords]
    split
    · next hover =>
      have hnone : min ((left + 1) * 32) (limit + 1 - bit) = 0 := by omega
      rw [hnone, Nat.count_zero]
      rfl
    · next hin =>
      generalize hnum : (if (limit : Int) < bit + 32 then ((limit : Int) - bit + 1).toNat
        else 32) = num
      have hnum' : num = min 32 (limit + 1 - bit) := by
        split at hnum <;> omega
      -- the word takes `num` bits of the total, the rest the others
      have hsum : min ((left + 1) * 32) (limit + 1 - bit)
          = num + min (left * 32) (limit + 1 - (bit + num)) := by omega
      rw [ih, hsum, Nat.count_add, getZeroBits_eq (by omega)]
      refine Prod.ext (Nat.add_assoc ..) ?_
      show _ + _ + _ = _
      rw [Nat.add_assoc]
      congr 2
      refine count_congr fun k hk => ?_
      rw [show (i + 1) * 32 + k = i * 32 + (num + k) by omega]

-- ======== the blocks

/-- The clear bits of the map from `bit` on, up to the limit. -/
theorem countBlocks_eq : ∀ {rounds block count : Nat},
    countBlocks blk base (limit : Int) rounds block (block * bitsPerBlock) count
      = count + Nat.count (fun k => mapBitAt blk base (block * bitsPerBlock + k) = false)
          (min (rounds * bitsPerBlock) (limit + 1 - block * bitsPerBlock)) := by
  intro rounds
  induction rounds with
  | zero =>
    simp [countBlocks]
  | succ rounds ih =>
    intro block count
    rw [countBlocks, countWords_eq]
    dsimp only
    have hwords : blocksiz / 4 * 32 = bitsPerBlock := rfl
    rw [hwords]
    have hblock : Nat.count (fun k => bitAt (blk (base + block)) (0 * 32 + k) = false)
          (min bitsPerBlock (limit + 1 - block * bitsPerBlock))
        = Nat.count (fun k => mapBitAt blk base (block * bitsPerBlock + k) = false)
          (min bitsPerBlock (limit + 1 - block * bitsPerBlock)) := by
      refine count_congr fun k hk => ?_
      have hk' : k < bitsPerBlock := by omega
      unfold mapBitAt
      rw [Nat.zero_mul, Nat.zero_add, Nat.mul_comm, Nat.mul_add_div (by decide),
        Nat.mul_add_mod, Nat.div_eq_of_lt hk', Nat.mod_eq_of_lt hk', Nat.add_zero]
    have hrounds : (rounds + 1) * bitsPerBlock = bitsPerBlock + rounds * bitsPerBlock := by
      rw [Nat.add_mul, Nat.one_mul, Nat.add_comm]
    have hnext : (block + 1) * bitsPerBlock = block * bitsPerBlock + bitsPerBlock := by
      rw [Nat.add_mul, Nat.one_mul]
    rw [hblock, hrounds]
    split
    · next hover =>
      rw [show min (bitsPerBlock + rounds * bitsPerBlock) (limit + 1 - block * bitsPerBlock)
        = min bitsPerBlock (limit + 1 - block * bitsPerBlock) by omega]
    · next hin =>
      rw [show min bitsPerBlock (limit + 1 - block * bitsPerBlock) = bitsPerBlock by omega,
        ← hnext, ih,
        show min (bitsPerBlock + rounds * bitsPerBlock) (limit + 1 - block * bitsPerBlock)
          = bitsPerBlock + min (rounds * bitsPerBlock) (limit + 1 - (block + 1) * bitsPerBlock)
          by omega,
        Nat.count_add]
      simp only [hnext, Nat.add_assoc]

-- ======== the count

/-- The clear bits of a map up to the limit of `bitalloc`. -/
def Mounted.clearBits (m : Mounted) (which : Which) : Nat :=
  Nat.count (fun b => m.mapBit which b = false)
    (min (m.sp.bitBlocks which * bitsPerBlock) ((m.sp.maxBit which).toNat + 1))

namespace Mounted

/-- The limit is no more than an `int` can hold. -/
theorem getFreeBitsNr_small (h : (m.sp.maxBit which).toNat < 2 ^ 31) :
    m.getFreeBitsNr which = m.clearBits which := by
  have hint : (m.sp.maxBit which).toInt = ((m.sp.maxBit which).toNat : Int) :=
    BitVec.toInt_eq_toNat_of_lt (by omega)
  have hblocks := @countBlocks_eq m.blk (m.sp.fromBlock which) (m.sp.maxBit which).toNat
    (m.sp.bitBlocks which) 0 0
  simp only [Nat.zero_mul, Nat.zero_add, Nat.sub_zero] at hblocks
  unfold getFreeBitsNr
  rw [hint]
  exact hblocks

/-- A limit that is negative as an `int`. -/
theorem getFreeBitsNr_large (h : 2 ^ 31 ≤ (m.sp.maxBit which).toNat) :
    m.getFreeBitsNr which = 0 := by
  have hneg : (m.sp.maxBit which).toInt < 0 := by
    rw [BitVec.toInt_neg_iff]
    omega
  unfold getFreeBitsNr
  cases m.sp.bitBlocks which with
  | zero => rfl
  | succ rounds =>
    have hwords : countWords (m.blk (m.sp.fromBlock which + 0)) (m.sp.maxBit which).toInt
        (blocksiz / 4) 0 0 0 = (0, 0) := if_pos hneg
    rw [countBlocks, hwords]
    exact if_pos hneg

theorem clearBits_eq_zero : m.clearBits which = 0 ↔ ∀ b, b ≤ (m.sp.maxBit which).toNat →
    b / bitsPerBlock < m.sp.bitBlocks which → m.mapBit which b = true := by
  unfold clearBits
  rw [Nat.count_iff_forall_not]
  constructor
  · intro h b hmax hmap
    have hlt : b < m.sp.bitBlocks which * bitsPerBlock :=
      (Nat.div_lt_iff_lt_mul (by decide)).mp hmap
    exact Bool.eq_true_of_not_eq_false (h b (by omega))
  · intro h b hb hclear
    have hmap : b / bitsPerBlock < m.sp.bitBlocks which :=
      (Nat.div_lt_iff_lt_mul (by decide)).mpr (by omega)
    rw [h b (by omega) hmap] at hclear
    cases hclear

/-- A bit that is taken is one clear bit less. -/
theorem clearBits_takeBit (hfind : m.findBit which = some bit) :
    m.clearBits which = (m.takeBit which bit).clearBits which + 1 := by
  obtain ⟨hmax, hclear, hmap⟩ := findBit_spec hfind
  have hlt : bit < m.sp.bitBlocks which * bitsPerBlock :=
    (Nat.div_lt_iff_lt_mul (by decide)).mp hmap
  unfold clearBits
  rw [takeBit_sp]
  generalize hn : min (m.sp.bitBlocks which * bitsPerBlock) ((m.sp.maxBit which).toNat + 1) = n
  rw [Nat.count_eq_card_filter_range, Nat.count_eq_card_filter_range]
  have hmem : bit ∈ (Finset.range n).filter fun b => m.mapBit which b = false :=
    Finset.mem_filter.mpr ⟨Finset.mem_range.mpr (by omega), hclear⟩
  have herase : ((Finset.range n).filter fun b => (m.takeBit which bit).mapBit which b = false)
      = ((Finset.range n).filter fun b => m.mapBit which b = false).erase bit := by
    ext b
    rw [Finset.mem_erase, Finset.mem_filter, Finset.mem_filter, mapBit_takeBit,
      Bool.or_eq_false_iff, decide_eq_false_iff_not]
    exact and_left_comm
  rw [herase, Finset.card_erase_add_one hmem]

-- ======== the calls

/-- The number of calls of `bitalloc` that succeed before one returns
`NOBIT`. -/
inductive Draws (which : Which) : Mounted → Nat → Prop
  | stop {m : Mounted} (h : (m.bitalloc which).1 = BitVec.ofNat 32 nobit) : Draws which m 0
  | take {m : Mounted} {n : Nat} (h : (m.bitalloc which).1 ≠ BitVec.ofNat 32 nobit)
      (rest : Draws which (m.bitalloc which).2 n) : Draws which m (n + 1)

theorem Draws.unique {n k : Nat} (hn : Draws which m n) (hk : Draws which m k) : n = k := by
  induction hn generalizing k with
  | stop hstop =>
    cases hk with
    | stop => rfl
    | take hne => exact absurd hstop hne
  | take hne _ ih =>
    cases hk with
    | stop hstop => exact absurd hstop hne
    | take _ hrest => rw [ih hrest]

theorem Draws.iff {n k : Nat} (hn : Draws which m n) : Draws which m k ↔ k = n :=
  ⟨fun hk => hk.unique hn, fun h => h ▸ hn⟩

/-- The first call returns `NOBIT` whatever bits are clear: the volume is
read-only, or the first clear bit stands for zone 0. -/
def Lost (m : Mounted) (which : Which) : Prop :=
  m.roflag = true ∨ which = .zmap ∧ m.sp.fdzone = 0 ∧ m.mapBit .zmap 1 = false

theorem Draws.of_lost (hhint : m.Hinted which) (hzero : m.mapBit which 0 = true)
    (hlost : m.Lost which) : Draws which m 0 := by
  apply Draws.stop
  rcases hlost with hro | ⟨hw, hfd, hone⟩
  · unfold bitalloc
    rw [if_pos hro]
  · subst hw
    by_cases hro : m.roflag = true
    · unfold bitalloc
      rw [if_pos hro]
    · obtain ⟨-, -, -, hzones⟩ := m.sp.checked
      have hlt := m.sp.zones_lt
      have hmax : (m.sp.maxBit .zmap).toNat = m.sp.zones := by
        show (BitVec.ofNat 32 m.sp.zones - BitVec.ofNat 32 m.sp.fdzone).toNat = _
        rw [hfd, BitVec.sub_zero, BitVec.toNat_ofNat]
        omega
      have hblocks := m.sp.bitBlocks_pos .zmap
      obtain ⟨bit, hfind, hle⟩ := findBit_least hhint (by omega)
        (show 1 / bitsPerBlock < _ from hblocks) hone
      have hbit : bit = 1 := by
        obtain ⟨-, hclear, -⟩ := findBit_spec hfind
        have hne : bit ≠ 0 := by
          intro h0
          subst h0
          rw [hzero] at hclear
          cases hclear
        omega
      subst hbit
      unfold bitalloc
      rw [if_neg hro, hfind]
      show BitVec.ofNat 32 1 + (BitVec.ofNat 32 m.sp.fdzone - 1) = BitVec.ofNat 32 nobit
      rw [hfd]
      decide

theorem Lost.takeBit (h : ¬ m.Lost which) : ¬ (m.takeBit which bit).Lost which := by
  intro hlost
  rcases hlost with hro | ⟨hw, hfd, hone⟩
  · exact h (.inl (takeBit_roflag.symm.trans hro))
  · subst hw
    rw [mapBit_takeBit, Bool.or_eq_false_iff] at hone
    exact h (.inr ⟨rfl, hfd, hone.2⟩)

/-- Otherwise all clear bits are taken. -/
theorem Draws.of_not_lost : ∀ {n : Nat} {m : Mounted}, m.clearBits which = n → m.Hinted which →
    m.mapBit which 0 = true → ¬ m.Lost which → Draws which m n := by
  intro n
  induction n with
  | zero =>
    intro m hn hhint hzero hlost
    have hrw : m.roflag = false := Bool.eq_false_of_not_eq_true fun h => hlost (.inl h)
    apply Draws.stop
    rcases @bitalloc_cases m which hrw with ⟨-, heq⟩ | ⟨bit, hfind, -⟩
    · rw [heq]
      rfl
    · rw [clearBits_takeBit hfind] at hn
      cases hn
  | succ n ih =>
    intro m hn hhint hzero hlost
    have hrw : m.roflag = false := Bool.eq_false_of_not_eq_true fun h => hlost (.inl h)
    rcases @bitalloc_cases m which hrw with ⟨hfind, -⟩ | ⟨bit, hfind, heq⟩
    · -- a clear bit would have been found
      have hnone : m.clearBits which = 0 := by
        rw [clearBits_eq_zero]
        intro b hmax hmap
        by_contra hset
        obtain ⟨bit, hfind', -⟩ :=
          findBit_least hhint hmax hmap (Bool.eq_false_of_not_eq_true hset)
        rw [hfind] at hfind'
        cases hfind'
      omega
    · obtain ⟨-, hclear, hmap⟩ := findBit_spec hfind
      have hpos : bit ≠ 0 := by
        intro h0
        subst h0
        rw [hzero] at hclear
        cases hclear
      refine Draws.take ?_ ?_
      · rw [heq]
        refine m.sp.number_ne hmap hpos fun hw hone => hlost (.inr ?_)
        subst hw
        obtain rfl : bit = 1 := by omega
        exact ⟨rfl, by omega, hclear⟩
      · rw [heq]
        have hcount := clearBits_takeBit hfind
        refine ih (Nat.succ.inj (hcount.symm.trans hn)) (hhint.takeBit hfind) ?_ (Lost.takeBit hlost)
        rw [mapBit_takeBit, hzero, Bool.or_true]

/-- The count is the number of calls of `bitalloc` that succeed from the
start 0 if and only if no bit is clear, or the limit fits an `int` and the
first call is not lost, or neither is the case. -/
theorem getFreeBitsNr_draws_iff (m : Mounted) (which : Which) (hhint : m.search which = 0)
    (hzero : m.mapBit which 0 = true) : Draws which m (m.getFreeBitsNr which)
      ↔ (∀ b, b ≤ (m.sp.maxBit which).toNat → b / bitsPerBlock < m.sp.bitBlocks which →
          m.mapBit which b = true) ∨ ((m.sp.maxBit which).toNat < 2 ^ 31 ↔ ¬ m.Lost which) := by
  have hhinted : m.Hinted which := fun b _ _ _ => by
    rw [hhint]
    exact Nat.zero_le b
  rw [← clearBits_eq_zero]
  by_cases hlost : m.Lost which
  · rw [(Draws.of_lost hhinted hzero hlost).iff]
    by_cases hsmall : (m.sp.maxBit which).toNat < 2 ^ 31
    · rw [getFreeBitsNr_small hsmall]
      exact (or_iff_left fun h => h.mp hsmall hlost).symm
    · rw [getFreeBitsNr_large (Nat.le_of_not_lt hsmall)]
      exact iff_of_true rfl (.inr (iff_of_false hsmall (not_not.mpr hlost)))
  · rw [(Draws.of_not_lost rfl hhinted hzero hlost).iff]
    by_cases hsmall : (m.sp.maxBit which).toNat < 2 ^ 31
    · rw [getFreeBitsNr_small hsmall]
      exact iff_of_true rfl (.inr (iff_of_true hsmall hlost))
    · rw [getFreeBitsNr_large (Nat.le_of_not_lt hsmall), eq_comm]
      exact (or_iff_left fun h => hsmall (h.mpr hlost)).symm

/-- The inodes of a volume. -/
theorem getFreeBitsNr_draws_inodes : Draws .imap smallVolume (smallVolume.getFreeBitsNr .imap) :=
  (getFreeBitsNr_draws_iff smallVolume .imap rfl (by decide)).mpr
    (.inr (iff_of_true (by decide) (fun h => by
      rcases h with h | ⟨h, -⟩
      · cases h
      · cases h)))

/-- A volume with fewer zones than zones before the data. -/
def wrappedVolume : Mounted :=
  { smallVolume with
    sp := { smallVolume.sp with zones := 3, accepted := by decide, zones_lt := by decide } }

/-- `bitalloc` gives zones out there, but the count is 0. -/
theorem getFreeBitsNr_wraps : ∃ m : Mounted, m.roflag = false ∧ m.search .zmap = 0
    ∧ m.mapBit .zmap 0 = true ∧ ¬ Draws .zmap m (m.getFreeBitsNr .zmap) := by
  refine ⟨wrappedVolume, rfl, rfl, by decide, fun h => ?_⟩
  cases h with
  | stop hstop => exact absurd hstop (by decide)

end Mounted

end Cnix.Fs
