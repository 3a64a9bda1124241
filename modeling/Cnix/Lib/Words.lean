/-
32-bit words in a block of bytes, least significant byte first, and the
bits of these words.

`word d i` is the `i`-th word of the bytes `d`. Storing a word changes
this word only (`word_setWord`), and a block of zero bytes holds zero
words. `bitAt d k` is bit `k` of the block, counted through its words.
-/
import Mathlib.Data.BitVec

namespace Cnix.Lib

/-- The bytes of a block. -/
abbrev Bytes := Nat → BitVec 8

/-- The `i`-th word. -/
def word (d : Bytes) (i : Nat) : BitVec 32 :=
  d (4 * i + 3) ++ d (4 * i + 2) ++ d (4 * i + 1) ++ d (4 * i)

/-- Store the `i`-th word. -/
def setWord (d : Bytes) (i : Nat) (w : BitVec 32) : Bytes :=
  fun k => if k / 4 = i then w.extractLsb' (8 * (k % 4)) 8 else d k

variable {d : Bytes} {i j k : Nat} {w : BitVec 32}

theorem setWord_of_ne (h : k / 4 ≠ i) : setWord d i w k = d k := if_neg h

theorem setWord_byte {b : Nat} (hb : b < 4) :
    setWord d i w (4 * i + b) = w.extractLsb' (8 * b) 8 := by
  have hdiv : (4 * i + b) / 4 = i := by omega
  have hmod : (4 * i + b) % 4 = b := by omega
  unfold setWord
  rw [if_pos hdiv, hmod]

theorem word_setWord_self : word (setWord d i w) i = w := by
  have h0 : setWord d i w (4 * i) = w.extractLsb' (8 * 0) 8 :=
    setWord_byte (b := 0) (by decide)
  unfold word
  rw [setWord_byte (b := 3) (by decide), setWord_byte (b := 2) (by decide),
    setWord_byte (b := 1) (by decide), h0]
  apply BitVec.eq_of_getLsbD_eq
  intro n hn
  simp only [BitVec.getLsbD_append, BitVec.getLsbD_extractLsb']
  -- which of the four bytes the bit is in
  split
  · next h => simp [h]
  · split
    · next h8 h =>
      rw [decide_eq_true h, Bool.true_and]
      congr 1
      omega
    · split
      · next h16 h =>
        rw [decide_eq_true h, Bool.true_and]
        congr 1
        omega
      · next h8 h16 h24 =>
        rw [decide_eq_true (by omega), Bool.true_and]
        congr 1
        omega

theorem word_setWord_of_ne (h : j ≠ i) : word (setWord d i w) j = word d j := by
  unfold word
  rw [setWord_of_ne (by omega), setWord_of_ne (by omega), setWord_of_ne (by omega),
    setWord_of_ne (by omega)]

theorem word_setWord : word (setWord d i w) j = if j = i then w else word d j := by
  split
  · next h =>
    subst h
    exact word_setWord_self
  · next h => exact word_setWord_of_ne h

@[simp] theorem word_zero (i : Nat) : word (fun _ => 0) i = 0 := by
  show (0#8 ++ 0#8 ++ 0#8 ++ 0#8 : BitVec 32) = 0#32
  decide

-- ======== bits

/-- Bit `k`. -/
def bitAt (d : Bytes) (k : Nat) : Bool := (word d (k / 32)).getLsbD (k % 32)

/-- Bit `k` set: `*tmp |= 1 << j`. -/
def setBit (d : Bytes) (k : Nat) : Bytes :=
  setWord d (k / 32) (word d (k / 32) ||| (1#32 <<< (k % 32)))

/-- Bit `k` cleared: `*tmp &= ~(1 << j)`. -/
def clearBitAt (d : Bytes) (k : Nat) : Bytes :=
  setWord d (k / 32) (word d (k / 32) &&& ~~~(1#32 <<< (k % 32)))

theorem getLsbD_one_shiftLeft {n m : Nat} (hn : n < 32) (hm : m < 32) :
    (1#32 <<< n).getLsbD m = decide (m = n) := by
  by_cases h : m = n
  · subst h
    simp [hm]
  · simp only [h, decide_false]
    by_cases hlt : m < n
    · simp [hlt]
    · have hne : m - n ≠ 0 := by omega
      simp [hne]

theorem bitAt_setBit : bitAt (setBit d k) j = (decide (j = k) || bitAt d j) := by
  unfold bitAt setBit
  rw [word_setWord]
  split
  · next h =>
    rw [BitVec.getLsbD_or, getLsbD_one_shiftLeft (Nat.mod_lt _ (by decide))
      (Nat.mod_lt _ (by decide)), h, Bool.or_comm]
    congr 2
    rw [eq_iff_iff]
    omega
  · next h =>
    have hne : j ≠ k := fun he => h (by rw [he])
    simp [hne]

theorem bitAt_clearBitAt : bitAt (clearBitAt d k) j = (!decide (j = k) && bitAt d j) := by
  unfold bitAt clearBitAt
  rw [word_setWord]
  split
  · next h =>
    have hj : j % 32 < 32 := Nat.mod_lt _ (by decide)
    rw [BitVec.getLsbD_and, BitVec.getLsbD_not, getLsbD_one_shiftLeft
      (Nat.mod_lt _ (by decide)) hj, h, Bool.and_comm]
    simp only [hj, decide_true, Bool.true_and]
    congr 3
    rw [eq_iff_iff]
    omega
  · next h =>
    have hne : j ≠ k := fun he => h (by rw [he])
    simp [hne]

end Cnix.Lib
