/-
What is taken from a pool with reference counts, and that it can all be
given back.

A pool has free items and counts. From some moment on, an owner takes
free items, which sets their count to one, and adds references to items
of others, which raises the count; where each reference is kept is a
slot. `Custody` says how the pool of now differs from the pool of then:
by the references in the slots, and by nothing else. Emptying a slot
drops a reference, and an item whose count reaches zero becomes free.
When every slot is empty, the free items are those of then, and so are
the counts of all others (`Custody.restored`).

The count of a free item means nothing. It is what it was until the item
is taken, and zero after the item was given back.
-/
import Cnix.Lib.Tally
import Mathlib.Data.Fintype.Basic

namespace Cnix.Lib

open Function (update update_self update_of_ne)

variable {ι α : Type*} [Fintype ι] [DecidableEq ι] [DecidableEq α]

/-- The slots account for all that has changed since the free items were
`free0` and the counts `count0`. -/
structure Custody (free0 : α → Prop) (count0 : α → ℤ) (slot : ι → Option α)
    (free : α → Prop) (count : α → ℤ) : Prop where
  free_iff : ∀ a, free a ↔ free0 a ∧ ∀ o, slot o ≠ some a
  one : ∀ {a : α} {o o' : ι}, free0 a → slot o = some a → slot o' = some a → o = o'
  taken : ∀ {a : α} {o : ι}, free0 a → slot o = some a → count a = 1
  shared : ∀ a, ¬ free0 a → count a = count0 a + tally Finset.univ slot a
  lender : ∀ {a : α} {o : ι}, ¬ free0 a → slot o = some a → 0 < count0 a
  back : ∀ a, free0 a → (∀ o, slot o ≠ some a) → count a = count0 a ∨ count a = 0

namespace Custody

variable {free0 free : α → Prop} {count0 count : α → ℤ} {slot : ι → Option α} {a x : α} {o : ι}

omit [DecidableEq ι] in
/-- Nothing has been taken yet. -/
theorem start (free0 : α → Prop) (count0 : α → ℤ) :
    Custody free0 count0 (fun _ : ι => none) free0 count0 where
  free_iff := by simp
  one := by simp
  taken := by simp
  shared := by
    intro a _
    rw [tally_none fun _ _ => rfl]
    simp
  lender := by simp
  back := fun a _ _ => .inl rfl

omit [DecidableEq ι] in
/-- With every slot empty, the free items are those of the start, and the
counts too but for items that were free. -/
theorem restored (h : Custody free0 count0 slot free count) (hnone : ∀ o, slot o = none) :
    (∀ a, free a ↔ free0 a) ∧ ∀ a, count a = count0 a ∨ free0 a ∧ count a = 0 := by
  have hempty : ∀ a o, slot o ≠ some a := by simp [hnone]
  constructor
  · intro a
    rw [h.free_iff]
    exact and_iff_left (hempty a)
  · intro a
    by_cases ha : free0 a
    · rcases h.back a ha (hempty a) with he | he
      · exact .inl he
      · exact .inr ⟨ha, he⟩
    · rw [h.shared a ha, tally_none fun o _ => hnone o]
      simp

omit [Fintype ι] [DecidableEq α] in
theorem slot_update {v : Option α} {p : ι} :
    update slot o v p = some x ↔ p = o ∧ v = some x ∨ p ≠ o ∧ slot p = some x := by
  by_cases hp : p = o
  · subst hp
    simp
  · simp [hp]

omit [Fintype ι] [DecidableEq α] in
/-- What an empty slot is filled with is the only item that appears. -/
theorem missing_fill (ho : slot o = none) :
    (∀ p, update slot o (some a) p ≠ some x) ↔ x ≠ a ∧ ∀ p, slot p ≠ some x := by
  constructor
  · intro h
    refine ⟨fun he => h o (by rw [he, update_self]), fun p hp => h p ?_⟩
    refine slot_update.mpr (.inr ⟨?_, hp⟩)
    rintro rfl
    rw [ho] at hp
    cases hp
  · rintro ⟨hne, h⟩ p hp
    rcases slot_update.mp hp with ⟨-, he⟩ | ⟨-, hp⟩
    · exact hne (Option.some.inj he).symm
    · exact h p hp

omit [Fintype ι] [DecidableEq α] in
/-- Emptying a slot makes its item disappear, if no other slot has it. -/
theorem missing_empty : (∀ p, update slot o none p ≠ some x)
      ↔ (∀ p, slot p = some x → p = o) := by
  constructor
  · intro h p hp
    by_contra hne
    exact h p (slot_update.mpr (.inr ⟨hne, hp⟩))
  · intro h p hp
    rcases slot_update.mp hp with ⟨-, he⟩ | ⟨hne, hp⟩
    · cases he
    · exact hne (h p hp)

variable (h : Custody free0 count0 slot free count)

include h

/-- A free item goes into an empty slot, with count one. -/
theorem take (ha : free a) (ho : slot o = none) :
    Custody free0 count0 (update slot o (some a)) (fun x => free x ∧ x ≠ a)
      (update count a 1) := by
  obtain ⟨ha0, hnot⟩ := (h.free_iff a).mp ha
  refine ⟨fun x => ?_, fun {x p q} hx hp hq => ?_, fun {x p} hx hp => ?_, fun x hx => ?_,
    fun {x p} hx hp => ?_, fun x hx hnx => ?_⟩
  · rw [missing_fill ho, h.free_iff]
    tauto
  · rcases slot_update.mp hp with ⟨hpo, he⟩ | ⟨-, hp⟩
    · rcases slot_update.mp hq with ⟨hqo, -⟩ | ⟨-, hq⟩
      · rw [hpo, hqo]
      · exact absurd (Option.some.inj he ▸ hq) (hnot q)
    · rcases slot_update.mp hq with ⟨-, he⟩ | ⟨-, hq⟩
      · exact absurd (Option.some.inj he ▸ hp) (hnot p)
      · exact h.one hx hp hq
  · rcases slot_update.mp hp with ⟨-, he⟩ | ⟨-, hp⟩
    · rw [← Option.some.inj he, update_self]
    · have hxa : x ≠ a := fun he => hnot p (he ▸ hp)
      rw [update_of_ne hxa]
      exact h.taken hx hp
  · have hxa : x ≠ a := fun he => hx (he ▸ ha0)
    have htally := tally_update (Finset.mem_univ o) slot (some a) x
    rw [ho, holds_none, holds_of_ne hxa] at htally
    rw [update_of_ne hxa, h.shared x hx]
    omega
  · rcases slot_update.mp hp with ⟨-, he⟩ | ⟨-, hp⟩
    · exact absurd (Option.some.inj he ▸ ha0) hx
    · exact h.lender hx hp
  · obtain ⟨hxa, hnx⟩ := (missing_fill ho).mp hnx
    rw [update_of_ne hxa]
    exact h.back x hx hnx

/-- A slot gets or loses a reference to an item of another owner. -/
theorem lend (ha : ¬ free0 a) {v : Option α}
    (ho : ∀ x ∈ slot o, x = a) (hv : ∀ x ∈ v, x = a ∧ 0 < count0 a) :
    Custody free0 count0 (update slot o v) free
      (update count a (count a + holds a v - holds a (slot o))) := by
  have hne {x : α} (hx : free0 x) : x ≠ a := fun he => ha (he ▸ hx)
  -- the items that were free are where they were
  have hold {x : α} (hx : free0 x) (p : ι) : update slot o v p = some x ↔ slot p = some x := by
    by_cases hp : p = o
    · subst hp
      rw [update_self]
      exact iff_of_false (fun he => hne hx (hv x he).1) fun he => hne hx (ho x he)
    · rw [update_of_ne hp]
  refine ⟨fun x => ?_, fun hx hp hq => h.one hx ((hold hx _).mp hp) ((hold hx _).mp hq),
    fun {x p} hx hp => ?_, fun x hx => ?_, fun {x p} hx hp => ?_, fun x hx hnx => ?_⟩
  · rw [h.free_iff]
    exact and_congr_right fun hx => forall_congr' fun p => not_congr (hold hx p).symm
  · rw [update_of_ne (hne hx)]
    exact h.taken hx ((hold hx p).mp hp)
  · have htally := tally_update (Finset.mem_univ o) slot v x
    by_cases hxa : x = a
    · subst hxa
      rw [update_self, h.shared x hx]
      omega
    · have hnew : holds x v = 0 := if_neg fun he => hxa (hv x he).1
      have hgone : holds x (slot o) = 0 := if_neg fun he => hxa (ho x he)
      rw [update_of_ne hxa, h.shared x hx]
      omega
  · rcases slot_update.mp hp with ⟨-, he⟩ | ⟨-, hp⟩
    · obtain ⟨rfl, hlend⟩ := hv x he
      exact hlend
    · exact h.lender hx hp
  · rw [update_of_ne (hne hx)]
    exact h.back x hx fun p hp => hnx p ((hold hx p).mpr hp)

/-- One more reference to an item of another owner. -/
theorem share (ha : ¬ free0 a)
    (hlend : 0 < count0 a) (ho : slot o = none) :
    Custody free0 count0 (update slot o (some a)) free
      (update count a (count a + 1)) := by
  have hc := h.lend ha (o := o) (v := some a) (by simp [ho]) (by simp [hlend])
  simpa [ho, holds_self] using hc

/-- An item that was free has one reference, in one slot; dropping it
frees the item. -/
theorem giveBack (ha : free0 a) (ho : slot o = some a) :
    Custody free0 count0 (update slot o none) (fun x => free x ∨ x = a)
      (update count a 0) := by
  have hold {x : α} {p : ι} (hp : update slot o none p = some x) :
      slot p = some x ∧ x ≠ a := by
    rcases slot_update.mp hp with ⟨-, he⟩ | ⟨hne, hp⟩
    · cases he
    · exact ⟨hp, fun he => hne (h.one ha (he ▸ hp) ho)⟩
  refine ⟨fun x => ?_, fun hx hp hq => h.one hx (hold hp).1 (hold hq).1,
    fun {x p} hx hp => ?_, fun x hx => ?_, fun hx hp => h.lender hx (hold hp).1,
    fun x hx hnx => ?_⟩
  · rw [missing_empty, h.free_iff]
    constructor
    · rintro (⟨hx, hnx⟩ | rfl)
      · exact ⟨hx, fun p hp => absurd hp (hnx p)⟩
      · exact ⟨ha, fun p hp => h.one ha hp ho⟩
    · rintro ⟨hx, hnx⟩
      by_cases hxa : x = a
      · exact .inr hxa
      · refine .inl ⟨hx, fun p hp => hxa ?_⟩
        rw [hnx p hp, ho] at hp
        exact (Option.some.inj hp).symm
  · rw [update_of_ne (hold hp).2]
    exact h.taken hx (hold hp).1
  · have hxa : x ≠ a := fun he => hx (he ▸ ha)
    have htally := tally_update (Finset.mem_univ o) slot none x
    rw [ho, holds_of_ne hxa, holds_none] at htally
    rw [update_of_ne hxa, h.shared x hx]
    omega
  · by_cases hxa : x = a
    · rw [hxa, update_self]
      exact .inr rfl
    · rw [update_of_ne hxa]
      refine h.back x hx fun p hp => hxa ?_
      rw [missing_empty.mp hnx p hp, ho] at hp
      exact (Option.some.inj hp).symm

/-- A reference to an item of another owner is dropped: the count stays
above zero. -/
theorem unshare (ha : ¬ free0 a) (ho : slot o = some a) :
    1 < count a ∧ Custody free0 count0 (update slot o none) free
      (update count a (count a - 1)) := by
  have hc := h.lend ha (o := o) (v := none) (by simp [ho, eq_comm]) (by simp)
  refine ⟨?_, by simpa [ho, holds_self] using hc⟩
  have hpos := tally_pos (Finset.mem_univ o) ho
  have hlend := h.lender ha ho
  have hcount := h.shared a ha
  omega

end Custody

end Cnix.Lib
