/-
A sparse array: a size, and a cell for every position.

Positions beyond the size can be written, which moves the size. Cells
that were never written hold the default. An array is written and read
piece by piece: writing a list is writing its parts one after the other
(`write_append`), and so is reading (`read_split`).
-/
import Mathlib.Data.List.GetD

namespace Cnix.Lib

variable {α : Type*}

/-- A size and the cells. -/
structure Sparse (α : Type*) where
  size : Nat
  cell : Nat → α

/-- Nothing written. -/
def Sparse.empty [Inhabited α] : Sparse α := ⟨0, fun _ => default⟩

/-- Write `src` from position `p` on. Writing nothing changes nothing. -/
def Sparse.write [Inhabited α] (f : Sparse α) (p : Nat) (src : List α) : Sparse α :=
  if src = [] then f
  else ⟨max f.size (p + src.length),
    fun x => if p ≤ x ∧ x < p + src.length then src.getD (x - p) default else f.cell x⟩

/-- Read at most `count` cells from position `p` on. -/
def Sparse.read (f : Sparse α) (p count : Nat) : List α :=
  (List.range' p (min (p + count) f.size - p)).map f.cell

namespace Sparse

variable {f : Sparse α} {p count k : Nat}

@[simp] theorem length_read : (f.read p count).length = min (p + count) f.size - p := by
  simp [read]

/-- Reading `k` cells and then the others. -/
theorem read_split (hk : p + k ≤ min (p + count) f.size) :
    f.read p count = (List.range' p k).map f.cell ++ f.read (p + k) (count - k) := by
  unfold read
  rw [← List.map_append, List.range'_append_1]
  congr 2
  omega

theorem read_nil (h : min (p + count) f.size ≤ p) : f.read p count = [] := by
  unfold read
  rw [Nat.sub_eq_zero_of_le h]
  rfl

variable [Inhabited α] {l l' : List α}

/-- Writing a list and then one behind it. -/
theorem write_append : f.write p (l ++ l') = (f.write p l).write (p + l.length) l' := by
  unfold write
  by_cases hl : l = []
  · simp [hl]
  by_cases hl' : l' = []
  · simp [hl']
  rw [if_neg (by simp [hl]), if_neg hl', if_neg hl, List.length_append]
  congr 1
  · dsimp only
    omega
  · funext x
    dsimp only
    by_cases hx : p + l.length ≤ x
    · rw [List.getD_append_right l l' _ _ (by omega),
        if_neg (by omega : ¬ (p ≤ x ∧ x < p + l.length))]
      by_cases hx' : x < p + l.length + l'.length
      · rw [if_pos (by omega), if_pos (by omega), Nat.sub_add_eq]
      · rw [if_neg (by omega), if_neg (by omega)]
    · rw [if_neg (by omega : ¬ (p + l.length ≤ x ∧ _))]
      by_cases hx' : p ≤ x
      · rw [if_pos (by omega), if_pos (by omega), List.getD_append _ _ _ _ (by omega)]
      · rw [if_neg (by omega), if_neg (by omega)]

/-- Nothing is there beyond the size. -/
def Blank (f : Sparse α) : Prop := ∀ x, f.size ≤ x → f.cell x = default

theorem blank_empty : Blank (empty : Sparse α) := fun _ _ => rfl

theorem Blank.write (h : Blank f) (p : Nat) (l : List α) : Blank (f.write p l) := by
  unfold Sparse.write
  split
  · exact h
  · intro x hx
    dsimp only at hx ⊢
    rw [if_neg (by omega)]
    exact h x (by omega)

end Sparse

end Cnix.Lib
