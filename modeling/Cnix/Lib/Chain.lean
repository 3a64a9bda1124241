/-
Null-ended chains through a `next` field.

`Chain next null a l` reads the chain that starts at `a` as the list
`l`. The lemmas are the ways a chain is changed (push a node, take one
out, change fields elsewhere), and that a search finds the node in front
of another one.
-/
import Mathlib.Logic.Function.Basic

namespace Cnix.Lib

variable {ν : Type} {next next' : ν → ν} {null a b c : ν} {l l1 l2 : List ν}

/-- The nodes from `a` on are `l`, and the last one ends in `null`. -/
def Chain (next : ν → ν) (null : ν) : ν → List ν → Prop
  | a, [] => a = null
  | a, b :: l => a = b ∧ b ≠ null ∧ Chain next null (next b) l

/-- A chain depends only on the fields of its own nodes. -/
theorem Chain.congr (h : Chain next null a l)
    (heq : ∀ b ∈ l, next' b = next b) : Chain next' null a l := by
  induction l generalizing a with
  | nil => exact h
  | cons b l ih =>
    obtain ⟨hab, hb, hl⟩ := h
    refine ⟨hab, hb, ?_⟩
    rw [heq b (by simp)]
    exact ih hl fun c hc => heq c (by simp [hc])

/-- Writing a node outside the chain to point to its start puts the node
in front. -/
theorem Chain.push (h : Chain next null a l) (hb : b ≠ null)
    (hbl : b ∉ l) (hnext : next' b = a) (heq : ∀ c, c ≠ b → next' c = next c) :
    Chain next' null b (b :: l) := by
  refine ⟨rfl, hb, ?_⟩
  rw [hnext]
  exact h.congr fun c hc => heq c fun hcb => hbl (hcb ▸ hc)

/-- Writing the successor of a node into the node before takes it out. -/
theorem Chain.unlink (h : Chain next null a (l1 ++ c :: b :: l2))
    (hnodup : (l1 ++ c :: b :: l2).Nodup) (hnext : next' c = next b)
    (heq : ∀ d, d ≠ c → next' d = next d) : Chain next' null a (l1 ++ c :: l2) := by
  induction l1 generalizing a with
  | nil =>
    obtain ⟨hac, hc, -, -, hl⟩ := h
    refine ⟨hac, hc, ?_⟩
    rw [hnext]
    refine hl.congr fun d hd => heq d fun hdc => ?_
    have hmem : c ∉ b :: l2 := (List.nodup_cons.1 hnodup).1
    exact hmem (List.mem_cons_of_mem b (hdc ▸ hd))
  | cons d l1 ih =>
    obtain ⟨had, hd, hl⟩ := h
    obtain ⟨hdl, hnodup⟩ := List.nodup_cons.1 hnodup
    refine ⟨had, hd, ?_⟩
    rw [heq d fun hdc => hdl (by simp [hdc])]
    exact ih hl hnodup

variable [DecidableEq ν]

/-- The first node from `a` on, within `fuel` of them, that points to `b`. -/
def before (next : ν → ν) (null b : ν) : Nat → ν → Option ν
  | 0, _ => none
  | fuel + 1, a =>
    if a = null then none else if next a = b then some a else before next null b fuel (next a)

/-- The node in front of another one is found. -/
theorem Chain.before {fuel : Nat}
    (h : Chain next null a (l1 ++ c :: b :: l2)) (hnodup : (l1 ++ c :: b :: l2).Nodup)
    (hfuel : l1.length < fuel) : Lib.before next null b fuel a = some c := by
  obtain ⟨fuel, rfl⟩ : ∃ k, fuel = k + 1 := ⟨fuel - 1, by omega⟩
  induction l1 generalizing a fuel with
  | nil =>
    obtain ⟨rfl, hc, hb, -⟩ := h
    rw [Lib.before, if_neg hc, if_pos hb]
  | cons d l1 ih =>
    obtain ⟨rfl, hd, hl⟩ := h
    obtain ⟨hdl, hnodup⟩ := List.nodup_cons.1 hnodup
    have hne : next a ≠ b := by
      -- the next node is `c` or stands before it
      intro hab
      cases l1 with
      | nil =>
        have hcb : c = b := hl.1.symm.trans hab
        exact (List.nodup_cons.1 hnodup).1 (by simp [hcb])
      | cons e l1 =>
        have heb : e = b := hl.1.symm.trans hab
        exact (List.nodup_cons.1 hnodup).1 (by simp [heb])
    rw [Lib.before, if_neg hd, if_neg hne]
    obtain ⟨fuel, rfl⟩ : ∃ k, fuel = k + 1 := ⟨fuel - 1, by simp at hfuel; omega⟩
    exact ih hl hnodup fuel (by simpa using hfuel)

end Cnix.Lib
