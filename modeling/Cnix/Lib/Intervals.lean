/-
Sets of numbers as lists of half-open intervals in the order of their
starts, and an insertion that goes through the list once, swallowing
what the new interval meets or touches.

Intervals may overlap: the insertion lets an interval take the place of
one that starts with it without looking further. What counts is that
starts ascend (`Ascending.insert`), that the numbers covered are exactly
the old and the new ones (`cover_insertIv`), and that an interval
inserted before all others ends up first, with a gap behind it
(`insertIv_first`).
-/
import Mathlib.Order.Basic

namespace Cnix.Lib

/-- The starts ascend from `lo` on. Empty intervals may occur. -/
def Ascending : Nat → List (Nat × Nat) → Prop
  | _, [] => True
  | lo, (c, d) :: l => lo ≤ c ∧ c ≤ d ∧ Ascending (c + 1) l

/-- A number in one of the intervals. -/
def Cover (l : List (Nat × Nat)) (x : Nat) : Prop :=
  ∃ iv ∈ l, iv.1 ≤ x ∧ x < iv.2

/-- Insert the interval from `a` to `b`. -/
def insertIv (a b : Nat) : List (Nat × Nat) → List (Nat × Nat)
  | [] => [(a, b)]
  | (c, d) :: l =>
    if a < c then
      if b < c then (a, b) :: (c, d) :: l else insertIv a (max b d) l
    else if b ≤ d then (c, d) :: l
    else if a = c then (a, b) :: l
    else if a ≤ d then insertIv c b l
    else (c, d) :: insertIv a b l

variable {lo hi a b x : Nat} {l : List (Nat × Nat)}

theorem Ascending.mono (h : Ascending hi l) (hlo : lo ≤ hi) : Ascending lo l := by
  cases l with
  | nil => trivial
  | cons iv l => exact ⟨Nat.le_trans hlo h.1, h.2⟩

/-- Nothing below the lower bound is covered. -/
theorem Ascending.not_cover (h : Ascending lo l) (hx : x < lo) : ¬ Cover l x := by
  induction l generalizing lo with
  | nil => simp [Cover]
  | cons iv l ih =>
    obtain ⟨hc, hcd, hl⟩ := h
    intro hcov
    obtain ⟨jv, hjv, h1, h2⟩ := hcov
    rcases List.mem_cons.1 hjv with rfl | hjv
    · omega
    · exact ih hl (by omega) ⟨jv, hjv, h1, h2⟩

theorem Ascending.insert (h : Ascending lo l) (ha : lo ≤ a) (hab : a ≤ b) :
    Ascending lo (insertIv a b l) := by
  induction l generalizing lo a b with
  | nil => exact ⟨ha, hab, trivial⟩
  | cons iv l ih =>
    obtain ⟨hc, hcd, hl⟩ := h
    unfold insertIv
    split
    next hac =>
      split
      next => exact ⟨ha, hab, hac, hcd, hl⟩
      next => exact ih (hl.mono (by omega)) ha (by omega)
    next hac =>
      split
      next => exact ⟨hc, hcd, hl⟩
      next =>
        split
        next he =>
          subst he
          exact ⟨ha, hab, hl⟩
        next =>
          split
          next => exact ih (hl.mono (by omega)) hc (by omega)
          next => exact ⟨hc, hcd, ih hl (by omega) hab⟩

/-- An interval that starts before all others comes first, possibly
longer, and the others lie behind a gap. -/
theorem insertIv_first (h : Ascending lo l) (ha : a < lo) :
    ∃ d l', insertIv a b l = (a, d) :: l' ∧ b ≤ d ∧ Ascending (d + 1) l' := by
  induction l generalizing lo b with
  | nil => exact ⟨b, [], rfl, Nat.le_refl _, trivial⟩
  | cons iv l ih =>
    obtain ⟨c, d⟩ := iv
    obtain ⟨hc, hcd, hl⟩ := h
    unfold insertIv
    rw [if_pos (by omega)]
    split
    next hbc => exact ⟨b, (c, d) :: l, rfl, Nat.le_refl _, hbc, hcd, hl⟩
    next =>
      obtain ⟨d', l', h1, h2, h3⟩ := ih (b := max b d) hl (by omega)
      exact ⟨d', l', h1, by omega, h3⟩

theorem cover_cons {c d : Nat} : Cover ((c, d) :: l) x ↔ c ≤ x ∧ x < d ∨ Cover l x := by
  simp [Cover]

/-- Insertion adds exactly the new numbers. -/
theorem cover_insertIv (a b : Nat) (l : List (Nat × Nat)) :
    Cover (insertIv a b l) x ↔ Cover l x ∨ a ≤ x ∧ x < b := by
  induction l generalizing a b with
  | nil => simp [insertIv, Cover]
  | cons iv l ih =>
    obtain ⟨c, d⟩ := iv
    unfold insertIv
    split
    next =>
      split
      next =>
        rw [cover_cons, cover_cons]
        exact or_comm
      next =>
        -- the intervals meet or touch, so their hull is their union
        have hhull : (a ≤ x ∧ x < max b d) ↔ (c ≤ x ∧ x < d) ∨ (a ≤ x ∧ x < b) := by
          omega
        rw [cover_cons, ih, hhull, ← or_assoc, or_comm (a := Cover l x)]
    next =>
      split
      next =>
        have hsub : a ≤ x ∧ x < b → c ≤ x ∧ x < d := by omega
        rw [cover_cons]
        exact (or_iff_left_of_imp fun h => .inl (hsub h)).symm
      next =>
        split
        next =>
          have hsub : c ≤ x ∧ x < d → a ≤ x ∧ x < b := by omega
          rw [cover_cons, cover_cons, or_comm, or_assoc, or_comm (a := Cover l x)]
          exact (or_iff_right_of_imp fun h => .inl (hsub h)).symm
        next =>
          split
          next =>
            have hhull : (c ≤ x ∧ x < b) ↔ (c ≤ x ∧ x < d) ∨ (a ≤ x ∧ x < b) := by
              omega
            rw [cover_cons, ih, hhull, ← or_assoc, or_comm (a := Cover l x)]
          next =>
            rw [cover_cons, cover_cons, ih]
            exact or_assoc.symm

end Cnix.Lib
