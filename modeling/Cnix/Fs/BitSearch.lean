/-
The bits of a bitmap that lies in consecutive blocks, and the search of
`bitalloc` through these blocks.

A bitmap is given by the blocks of the disk and the block it starts at,
so that nothing here depends on what a super block says. The search takes
the lowest clear bit of the blocks it goes through, unless this bit is
beyond the limit (`searchMap_spec`, `searchMap_least`).
-/
import Cnix.Fs.Super

namespace Cnix.Fs

open Lib

/-- Bit `b` of the bitmap that starts at block `base`. -/
def mapBitAt (blk : Nat → Block) (base b : Nat) : Bool :=
  bitAt (blk (base + b / bitsPerBlock)) (b % bitsPerBlock)

variable {blk : Nat → Block} {base maxBit rounds block bit b i j : Nat} {data : Block}
  {w : BitVec 32}

-- ======== writes

theorem bitsPerBlock_eq : bitsPerBlock = 8192 := rfl

/-- The bits after one block of the bitmap has been written. -/
theorem mapBitAt_update :
    mapBitAt (Function.update blk (base + bit / bitsPerBlock) data) base b
      = if b / bitsPerBlock = bit / bitsPerBlock then bitAt data (b % bitsPerBlock)
        else mapBitAt blk base b := by
  unfold mapBitAt
  rw [Function.update_apply]
  by_cases h : b / bitsPerBlock = bit / bitsPerBlock
  · rw [if_pos h, if_pos (by rw [h])]
  · rw [if_neg h, if_neg (by omega)]

theorem same_bit (hdiv : b / bitsPerBlock = bit / bitsPerBlock) :
    decide (b % bitsPerBlock = bit % bitsPerBlock) = decide (b = bit) := by
  congr 1
  rw [eq_iff_iff]
  constructor
  · intro hmod
    rw [← Nat.div_add_mod b bitsPerBlock, ← Nat.div_add_mod bit bitsPerBlock, hdiv, hmod]
  · intro h
    rw [h]

theorem mapBitAt_set : mapBitAt (Function.update blk (base + bit / bitsPerBlock)
        (setBit (blk (base + bit / bitsPerBlock)) (bit % bitsPerBlock))) base b
      = (decide (b = bit) || mapBitAt blk base b) := by
  rw [mapBitAt_update]
  split
  · next h =>
    rw [bitAt_setBit, same_bit h]
    unfold mapBitAt
    rw [h]
  · next h =>
    have hne : b ≠ bit := fun he => h (by rw [he])
    rw [decide_eq_false hne, Bool.false_or]

theorem mapBitAt_clear : mapBitAt (Function.update blk (base + bit / bitsPerBlock)
        (clearBitAt (blk (base + bit / bitsPerBlock)) (bit % bitsPerBlock))) base b
      = (!decide (b = bit) && mapBitAt blk base b) := by
  rw [mapBitAt_update]
  split
  · next h =>
    rw [bitAt_clearBitAt, same_bit h]
    unfold mapBitAt
    rw [h]
  · next h =>
    have hne : b ≠ bit := fun he => h (by rw [he])
    rw [decide_eq_false hne, Bool.not_false, Bool.true_and]

-- ======== the search

theorem firstZero_spec (h : w < 0xffffffff#32) :
    firstZero w < 32 ∧ w.getLsbD (firstZero w) = false := by
  unfold firstZero
  cases hfind : (List.range 32).find? fun j => !w.getLsbD j with
  | none =>
    -- all bits are set
    rw [List.find?_eq_none] at hfind
    have hones : w = 0xffffffff#32 := by
      apply BitVec.eq_of_getLsbD_eq
      intro j hj
      have hbit := hfind j (List.mem_range.mpr hj)
      have hall : (0xffffffff#32).getLsbD j = true := by
        rw [show 0xffffffff#32 = BitVec.allOnes 32 from rfl, BitVec.getLsbD_allOnes]
        exact decide_eq_true hj
      rw [hall]
      simpa using hbit
    rw [hones] at h
    exact absurd h (by decide)
  | some j =>
    have hmem := List.mem_of_find?_eq_some hfind
    have hbit := List.find?_some hfind
    exact ⟨List.mem_range.mp hmem, by simpa using hbit⟩

theorem firstWord_spec (h : firstWord data = some i) :
    i < blocksiz / 4 ∧ word data i < 0xffffffff#32 := by
  unfold firstWord at h
  exact ⟨List.mem_range.mp (List.mem_of_find?_eq_some h), by simpa using List.find?_some h⟩

theorem word_full (h : ¬ w < 0xffffffff#32) (hj : j < 32) : w.getLsbD j = true := by
  have hones : w = BitVec.allOnes 32 := by
    have hlt := w.isLt
    have hle : 0xffffffff ≤ w.toNat := BitVec.not_lt.mp h
    apply BitVec.eq_of_toNat_eq
    rw [BitVec.toNat_allOnes]
    omega
  rw [hones, BitVec.getLsbD_allOnes]
  exact decide_eq_true hj

/-- The bits of a word below the first that is clear. -/
theorem below_firstZero (hj : j < firstZero w) : w.getLsbD j = true := by
  unfold firstZero at hj
  cases hfind : (List.range 32).find? fun j => !w.getLsbD j with
  | none =>
    rw [hfind] at hj
    rw [List.find?_range_eq_none] at hfind
    simpa using hfind j hj
  | some k =>
    rw [hfind] at hj
    rw [List.find?_range_eq_some] at hfind
    simpa using hfind.2.2 j hj

/-- The words before the first that is not full. -/
theorem before_firstWord (hi : i < blocksiz / 4)
    (h : ∀ k, firstWord data = some k → i < k) : ¬ word data i < 0xffffffff#32 := by
  unfold firstWord at h
  cases hfind : (List.range (blocksiz / 4)).find? fun i => word data i < 0xffffffff#32 with
  | none =>
    rw [List.find?_range_eq_none] at hfind
    simpa using hfind i hi
  | some k =>
    have hlt := h k hfind
    rw [List.find?_range_eq_some] at hfind
    simpa using hfind.2.2 i hlt

/-- A search that succeeds finds a bit that is clear, in a block that it goes
through. -/
theorem searchMap_spec : ∀ {rounds block : Nat}, searchMap blk base maxBit rounds block = some bit →
      bit ≤ maxBit ∧ mapBitAt blk base bit = false ∧ block ≤ bit / bitsPerBlock
        ∧ bit / bitsPerBlock < block + rounds := by
  intro rounds
  induction rounds with
  | zero =>
    intro block h
    cases h
  | succ rounds ih =>
    intro block h
    rw [searchMap] at h
    dsimp only at h
    split at h
    · obtain ⟨hle, hclear, hlow, hlt⟩ := ih h
      exact ⟨hle, hclear, by omega, by omega⟩
    · next i hi =>
      obtain ⟨hilt, hword⟩ := firstWord_spec hi
      obtain ⟨hjlt, hzero⟩ := firstZero_spec hword
      generalize hj : firstZero (word (blk (base + block)) i) = j
        at h hjlt hzero
      have hi256 : i < 256 := hilt
      split at h
      · cases h
      next hle =>
      cases h
      have hdiv : (block * bitsPerBlock + i * 32 + j) / bitsPerBlock = block := by
        unfold bitsPerBlock blocksiz
        omega
      have hmod : (block * bitsPerBlock + i * 32 + j) % bitsPerBlock = i * 32 + j := by
        unfold bitsPerBlock blocksiz
        omega
      refine ⟨by omega, ?_, by omega, by omega⟩
      unfold mapBitAt bitAt
      rw [hdiv, hmod, show (i * 32 + j) / 32 = i by omega,
        show (i * 32 + j) % 32 = j by omega]
      exact hzero

/-- A search takes the lowest clear bit of the blocks it goes through. -/
theorem searchMap_least : ∀ {rounds block b : Nat},
    b ≤ maxBit → block ≤ b / bitsPerBlock → b / bitsPerBlock < block + rounds →
      (∀ bit, searchMap blk base maxBit rounds block = some bit → b < bit) →
        mapBitAt blk base b = true := by
  intro rounds
  induction rounds with
  | zero =>
    intro block b _ hlow hhigh
    omega
  | succ rounds ih =>
    intro block b hmax hlow hhigh h
    have hmod : b % bitsPerBlock < bitsPerBlock := Nat.mod_lt _ (by decide)
    have hword : b % bitsPerBlock / 32 < blocksiz / 4 := by
      have h8192 : bitsPerBlock = 8192 := rfl
      have h256 : blocksiz / 4 = 256 := rfl
      omega
    have hbpos : b = b / bitsPerBlock * bitsPerBlock + b % bitsPerBlock := by
      rw [Nat.mul_comm]
      exact (Nat.div_add_mod b bitsPerBlock).symm
    rw [searchMap] at h
    dsimp only at h
    split at h
    · next hnone =>
      by_cases hblock : b / bitsPerBlock = block
      · unfold mapBitAt bitAt
        rw [hblock]
        refine word_full (before_firstWord hword fun k hk => ?_)
          (Nat.mod_lt _ (by decide))
        rw [hnone] at hk
        cases hk
      · exact ih hmax (by omega) (by omega) h
    · next i hi =>
      obtain ⟨hilt, hnotfull⟩ := firstWord_spec hi
      obtain ⟨hjlt, -⟩ := firstZero_spec hnotfull
      have hbelow : b < block * bitsPerBlock + i * 32
          + firstZero (word (blk (base + block)) i) := by
        split at h
        · omega
        · exact h _ rfl
      have hblock : b / bitsPerBlock = block := by
        have h8192 : bitsPerBlock = 8192 := rfl
        have h256 : blocksiz / 4 = 256 := rfl
        rw [h8192] at hbelow hlow hbpos hmod ⊢
        omega
      rw [hblock] at hbpos
      unfold mapBitAt bitAt
      rw [hblock]
      by_cases hsame : b % bitsPerBlock / 32 = i
      · rw [hsame]
        apply below_firstZero
        omega
      · refine word_full (before_firstWord hword fun k hk => ?_) (Nat.mod_lt _ (by decide))
        rw [hi] at hk
        cases hk
        omega

end Cnix.Fs
