/-
Runs of a state machine.

A machine is a set of first states and a partial step function: an event
that cannot happen in a state gives `none` there. `Reached` is what is
reached from a first state by events that all meet a condition `ok`. One
rule proves an invariant of it (`Reached.inv`), one weakens the condition,
and one follows a list of events (`Reached.play`). Whether a run or a call
comes to what is looked for can be computed. Of several parties that each
claim something, one moves (`apart_update`).
-/
import Mathlib.Data.Option.Basic
import Mathlib.Logic.Function.Basic

namespace Cnix.Lib

variable {σ ε : Type*} {first : σ → Prop} {step : σ → ε → Option σ} {ok ok' : σ → ε → Prop} {s s' : σ}

/-- The states that runs reach. -/
inductive Reached (first : σ → Prop) (step : σ → ε → Option σ) (ok : σ → ε → Prop) : σ → Prop
  | first {s : σ} : first s → Reached first step ok s
  | step {s s' : σ} (e : ε) : Reached first step ok s → ok s e → step s e = some s' →
      Reached first step ok s'

/-- What holds at first and is kept by every step holds in every run. -/
theorem Reached.inv {P : σ → Prop} (hfirst : ∀ s, first s → P s)
    (hstep : ∀ s e s', P s → ok s e → step s e = some s' → P s') (h : Reached first step ok s) : P s := by
  induction h with
  | first hs => exact hfirst _ hs
  | step e _ hok hs ih => exact hstep _ e _ ih hok hs

theorem Reached.mono (hok : ∀ s e, ok s e → ok' s e) (h : Reached first step ok s) :
    Reached first step ok' s := by
  induction h with
  | first hs => exact .first hs
  | step e _ he hs ih => exact .step e ih (hok _ e he) hs

/-- The events of a list one after the other, as long as they meet `ok`. -/
def play (step : σ → ε → Option σ) (ok : σ → ε → Prop) [∀ s e, Decidable (ok s e)] :
    σ → List ε → Option σ
  | s, [] => some s
  | s, e :: es => if ok s e then (step s e).bind fun s' => play step ok s' es else none

/-- What every step keeps is kept along a list. -/
theorem play_inv [∀ s e, Decidable (ok s e)] {P : σ → Prop} {es : List ε}
    (hstep : ∀ s e s', P s → ok s e → step s e = some s' → P s') (h : P s)
    (hplay : play step ok s es = some s') : P s' := by
  induction es generalizing s with
  | nil =>
    cases hplay
    exact h
  | cons e es ih =>
    unfold play at hplay
    split at hplay
    · next hok =>
      obtain ⟨t, ht, hrest⟩ := Option.bind_eq_some_iff.mp hplay
      exact ih (hstep s e t h hok ht) hrest
    · cases hplay

theorem Reached.play [∀ s e, Decidable (ok s e)] {es : List ε} (h : Reached first step ok s)
    (hplay : Lib.play step ok s es = some s') : Reached first step ok s' :=
  play_inv (fun _ e _ hrun hok hs => hrun.step e hok hs) h hplay

section Returns

variable {α β : Type*} {p : α → Prop} {q : β → Prop}

/-- Whether there is a result, with what is looked for. -/
instance decidableSome [DecidablePred p] (r : Option α) : Decidable (∃ a, r = some a ∧ p a) :=
  match r with
  | some a => decidable_of_iff (p a) (by simp)
  | none => isFalse (by simp)

instance decidableOk [DecidablePred p] (r : Except ε α) : Decidable (∃ a, r = .ok a ∧ p a) :=
  match r with
  | .ok a => decidable_of_iff (p a) (by simp)
  | .error _ => isFalse (by simp)

instance decidableOkWith [DecidableEq α] [DecidablePred q] (r : Except ε (α × β)) (a : α) :
    Decidable (∃ b, r = .ok (a, b) ∧ q b) :=
  decidable_of_iff (∃ x, r = .ok x ∧ x.1 = a ∧ q x.2) (by aesop)

instance decidableOkOnly [DecidableEq α] (r : Except ε (α × β)) (a : α) :
    Decidable (∃ b, r = .ok (a, b)) :=
  decidable_of_iff (∃ b, r = .ok (a, b) ∧ True) (by simp)

end Returns

section Claims

open Function (update)

variable {ι α β : Type*} [DecidableEq ι] {point : ι → β} {claim : β → Option α} {pid q r : ι} {pt : β}
  {a : α}

theorem claim_update : claim (update point pid pt q) = some a ↔
    q = pid ∧ claim pt = some a ∨ q ≠ pid ∧ claim (point q) = some a := by
  by_cases hq : q = pid
  · subst hq
    simp
  · simp [hq]

/-- Nothing is claimed twice, if nobody else claims what the one that moves
claims now. -/
theorem apart_update (hold : ∀ q r a, q ≠ pid → r ≠ pid → claim (point q) = some a →
      claim (point r) = some a → q = r)
    (hnew : ∀ a, claim pt = some a → ∀ q, q ≠ pid → claim (point q) ≠ some a)
    (hq : claim (update point pid pt q) = some a) (hr : claim (update point pid pt r) = some a) :
    q = r := by
  rcases claim_update.mp hq with ⟨hq, ha⟩ | ⟨hne, ha⟩ <;>
    rcases claim_update.mp hr with ⟨hr, ha'⟩ | ⟨hne', ha'⟩
  · exact hq.trans hr.symm
  · exact absurd ha' (hnew a ha r hne')
  · exact absurd ha (hnew a ha' q hne)
  · exact hold q r a hne hne' ha ha'

end Claims

end Cnix.Lib
