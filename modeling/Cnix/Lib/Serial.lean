/-
Serial numbers: positions in an unbounded stream, known only modulo the
width of a word.

`rebase o r x` is the word for position `x` after moving position `r` to
the word `o`. As long as positions stay within reach of `r`, words that
were moved this way compare and subtract as the positions do: this is
how code compares wrapping sequence numbers with plain unsigned
comparisons.
-/
import Mathlib.Data.BitVec
import Mathlib.Tactic.Abel

namespace Cnix.Lib

variable {w r x y : Nat} {o : BitVec w}

/-- Position `x`, moved so that position `r` is at `o`. -/
def rebase (o : BitVec w) (r x : Nat) : BitVec w :=
  o + BitVec.ofNat w x - BitVec.ofNat w r

/-- Moving a word that counts from `i` by the distance from `i + r` to
`o`. -/
theorem add_delta_eq_rebase (i o : BitVec w) (r x : Nat) :
    i + BitVec.ofNat w x + (o - (i + BitVec.ofNat w r)) = rebase o r x := by
  unfold rebase
  abel

theorem rebase_self (o : BitVec w) (r : Nat) : rebase o r r = o := by
  unfold rebase
  abel

/-- Positions further on are at words further on. -/
theorem rebase_add (o : BitVec w) (r x y : Nat) :
    rebase o r x + BitVec.ofNat w y = rebase o r (x + y) := by
  unfold rebase
  rw [BitVec.ofNat_add]
  abel

/-- The position is close enough to `r` for its word to tell. -/
structure Reach (o : BitVec w) (r x : Nat) : Prop where
  low : r ≤ o.toNat + x
  high : o.toNat + x - r < 2 ^ w

theorem toNat_rebase (h : Reach o r x) : (rebase o r x).toNat = o.toNat + x - r := by
  have heq : rebase o r x = BitVec.ofNat w (o.toNat + x - r) := by
    unfold rebase
    rw [sub_eq_iff_eq_add, ← BitVec.ofNat_add, Nat.sub_add_cancel h.low,
      BitVec.ofNat_add, BitVec.ofNat_toNat, BitVec.setWidth_eq]
  rw [heq, BitVec.toNat_ofNat, Nat.mod_eq_of_lt h.high]

theorem rebase_lt (hx : Reach o r x) (hy : Reach o r y) : rebase o r x < rebase o r y ↔ x < y := by
  have h1 := hx.low
  rw [BitVec.lt_def, toNat_rebase hx, toNat_rebase hy]
  omega

theorem rebase_le (hx : Reach o r x) (hy : Reach o r y) : rebase o r x ≤ rebase o r y ↔ x ≤ y := by
  have h2 := hy.low
  rw [BitVec.le_def, toNat_rebase hx, toNat_rebase hy]
  omega

theorem rebase_inj (hx : Reach o r x) (hy : Reach o r y) : rebase o r x = rebase o r y ↔ x = y := by
  have h1 := hx.low
  have h2 := hy.low
  rw [← BitVec.toNat_inj, toNat_rebase hx, toNat_rebase hy]
  omega

/-- The distance between two positions. -/
theorem rebase_sub (hyx : y ≤ x)
    (hlt : x - y < 2 ^ w) : (rebase o r x - rebase o r y).toNat = x - y := by
  have heq : rebase o r x - rebase o r y = BitVec.ofNat w (x - y) := by
    rw [sub_eq_iff_eq_add, add_comm, rebase_add]
    congr 1
    omega
  rw [heq, BitVec.toNat_ofNat, Nat.mod_eq_of_lt hlt]

end Cnix.Lib
