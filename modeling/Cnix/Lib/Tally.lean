/-
How many slots of a table hold a value, and how that number moves when a
slot or a whole row of slots is written.
-/
import Mathlib.Algebra.BigOperators.Group.Finset.Basic
import Mathlib.Algebra.BigOperators.Group.Finset.Piecewise
import Mathlib.Algebra.Order.BigOperators.Group.Finset
import Mathlib.Data.Finset.Prod

namespace Cnix.Lib

variable {ι κ α β : Type*} [DecidableEq ι] [DecidableEq α] {s : Finset ι} {i : ι} {a : α}
  {slot : ι → Option α}

/-- Writing one place of `f` moves the sum of the weights by the weight that
comes minus the one that goes. -/
theorem sum_weight_update (hi : i ∈ s) (f : ι → β) (v : β) (w : β → ℕ) :
    (∑ j ∈ s, w (Function.update f i v j)) + w (f i) = (∑ j ∈ s, w (f j)) + w v := by
  have hrest : ∑ j ∈ s.erase i, w (Function.update f i v j) = ∑ j ∈ s.erase i, w (f j) := by
    apply Finset.sum_congr rfl
    intro j hj
    rw [Function.update_of_ne (Finset.ne_of_mem_erase hj)]
  rw [← Finset.sum_erase_add s _ hi, ← Finset.sum_erase_add s (fun j => w (f j)) hi, hrest,
    Function.update_self]
  omega

/-- 1 for a slot that holds `a`. -/
def holds (a : α) (o : Option α) : ℕ := if o = some a then 1 else 0

omit [DecidableEq ι] in
@[simp] theorem holds_none (a : α) : holds a none = 0 := by simp [holds]

omit [DecidableEq ι] in
theorem holds_some (a b : α) : holds a (some b) = if a = b then 1 else 0 := by simp [holds, eq_comm]

omit [DecidableEq ι] in
theorem holds_self (a : α) : holds a (some a) = 1 := if_pos rfl

omit [DecidableEq ι] in
theorem holds_of_ne {b : α} (h : a ≠ b) : holds a (some b) = 0 :=
  if_neg fun he => h (Option.some.inj he).symm

/-- How many of the slots `s` hold `a`. -/
def tally (s : Finset ι) (slot : ι → Option α) (a : α) : ℕ := ∑ i ∈ s, holds a (slot i)

theorem tally_update (hi : i ∈ s) (slot : ι → Option α) (v : Option α) (a : α) :
    tally s (Function.update slot i v) a + holds a (slot i) = tally s slot a + holds a v :=
  sum_weight_update hi slot v (holds a)

omit [DecidableEq ι] in
/-- A slot that holds `a` counts. -/
theorem tally_pos (hi : i ∈ s) (h : slot i = some a) : 0 < tally s slot a := by
  have hle : holds a (slot i) ≤ tally s slot a :=
    Finset.single_le_sum (f := fun i => holds a (slot i)) (fun _ _ => Nat.zero_le _) hi
  have hone : holds a (slot i) = 1 := by simp [holds, h]
  omega

omit [DecidableEq ι] in
/-- Empty slots hold nothing. -/
theorem tally_none (h : ∀ i ∈ s, slot i = none) (a : α) : tally s slot a = 0 := by
  apply Finset.sum_eq_zero
  intro i hi
  rw [h i hi, holds_none]

omit [DecidableEq ι] in
/-- The rows of a table together hold `a` as often as there are places with
`a` in it. -/
theorem card_places (s : Finset ι) (t : Finset κ) (slot : ι → κ → Option α) (a : α) :
    ((s ×ˢ t).filter fun x => slot x.1 x.2 = some a).card = ∑ i ∈ s, tally t (slot i) a := by
  rw [Finset.card_filter, Finset.sum_product]
  rfl

end Cnix.Lib
