/-
Who refers to what: a ledger of resources that are handed out one by one
and referred to from slots.

`ref o` is the resource slot `o` refers to, or `nil`. A resource is in
use from the moment it is taken until it is dropped. In between it is
pending, while no slot refers to it, or linked to exactly one slot. A
resource goes through the steps take, link, unlink and drop; each has
one lemma for `Ledger`, which says that no resource is referred to twice
or while it is not in use, and one for `Exact`, which says that none is
lost.
-/
import Mathlib.Data.List.Nodup

namespace Cnix.Lib

variable {O Z : Type*}

/-- No resource is referred to twice, and none that is pending or not in
use. -/
structure Ledger (nil : Z) (ref : O → Z) (used : Z → Prop) (pend : List Z) : Prop where
  inj : ∀ {o o' : O}, ref o = ref o' → ref o ≠ nil → o = o'
  held : ∀ {o : O}, ref o ≠ nil → used (ref o)
  pend_used : ∀ {z : Z}, z ∈ pend → used z
  pend_free : ∀ {z : Z}, z ∈ pend → ∀ o, ref o ≠ z
  pend_nil : nil ∉ pend
  nodup : pend.Nodup

/-- Every resource in use is pending or referred to. -/
def Exact (ref : O → Z) (used : Z → Prop) (pend : List Z) : Prop :=
  ∀ z, used z → z ∈ pend ∨ ∃ o, ref o = z

variable {nil z : Z} {ref ref' : O → Z} {used used' : Z → Prop} {pend : List Z} {o : O}

/-- Some slots do not refer to anything any more. -/
theorem Ledger.restrict (h : Ledger nil ref used pend)
    (href : ∀ o, ref' o ≠ nil → ref' o = ref o) : Ledger nil ref' used pend where
  inj := fun {o o'} he ho => by
    have ho' : ref' o' ≠ nil := he ▸ ho
    rw [href o ho, href o' ho'] at he
    exact h.inj he (href o ho ▸ ho)
  held := fun {o} ho => by
    rw [href o ho]
    exact h.held (href o ho ▸ ho)
  pend_used := h.pend_used
  pend_free := fun {z} hz o ho => by
    have hne : ref' o ≠ nil := fun he => h.pend_nil (he ▸ ho ▸ hz)
    exact h.pend_free hz o (href o hne ▸ ho)
  pend_nil := h.pend_nil
  nodup := h.nodup

/-- A resource that is not in use is taken. -/
theorem Ledger.take (h : Ledger nil ref used pend) (hz : ¬ used z) (hnil : z ≠ nil)
    (hused : ∀ x, used' x ↔ x = z ∨ used x) : Ledger nil ref used' (z :: pend) where
  inj := h.inj
  held := fun ho => (hused _).mpr (.inr (h.held ho))
  pend_used := by
    intro x hx
    rcases List.mem_cons.mp hx with rfl | hx
    · exact (hused _).mpr (.inl rfl)
    · exact (hused _).mpr (.inr (h.pend_used hx))
  pend_free := by
    intro x hx o ho
    rcases List.mem_cons.mp hx with rfl | hx
    · exact hz (ho ▸ h.held (ho ▸ hnil))
    · exact h.pend_free hx o ho
  pend_nil := by
    intro hmem
    rcases List.mem_cons.mp hmem with he | hmem
    · exact hnil he.symm
    · exact h.pend_nil hmem
  nodup := List.nodup_cons.mpr ⟨fun hmem => hz (h.pend_used hmem), h.nodup⟩

theorem Exact.take (h : Exact ref used pend) (hused : ∀ x, used' x ↔ x = z ∨ used x) :
    Exact ref used' (z :: pend) := by
  intro x hx
  rcases (hused x).mp hx with rfl | hx
  · exact .inl (List.mem_cons_self ..)
  · rcases h x hx with hp | hr
    · exact .inl (List.mem_cons_of_mem _ hp)
    · exact .inr hr

/-- A pending resource is dropped. -/
theorem Ledger.drop (h : Ledger nil ref used (z :: pend))
    (hused : ∀ x, used' x ↔ x ≠ z ∧ used x) : Ledger nil ref used' pend where
  inj := h.inj
  held := fun {o} ho =>
    (hused _).mpr ⟨h.pend_free (List.mem_cons_self ..) o, h.held ho⟩
  pend_used := fun {x} hx => (hused x).mpr
    ⟨fun he => (List.nodup_cons.mp h.nodup).1 (he ▸ hx),
      h.pend_used (List.mem_cons_of_mem _ hx)⟩
  pend_free := fun hx => h.pend_free (List.mem_cons_of_mem _ hx)
  pend_nil := fun hmem => h.pend_nil (List.mem_cons_of_mem _ hmem)
  nodup := (List.nodup_cons.mp h.nodup).2

theorem Exact.drop (h : Exact ref used (z :: pend))
    (hused : ∀ x, used' x ↔ x ≠ z ∧ used x) : Exact ref used' pend := by
  intro x hx
  obtain ⟨hne, hx⟩ := (hused x).mp hx
  rcases h x hx with hp | hr
  · rcases List.mem_cons.mp hp with he | hp
    · exact absurd he hne
    · exact .inl hp
  · exact .inr hr

/-- A pending resource that is not dropped is forgotten: it stays in use,
with no slot that refers to it. -/
theorem Ledger.forget (h : Ledger nil ref used (z :: pend)) : Ledger nil ref used pend where
  inj := h.inj
  held := h.held
  pend_used := fun hx => h.pend_used (List.mem_cons_of_mem _ hx)
  pend_free := fun hx => h.pend_free (List.mem_cons_of_mem _ hx)
  pend_nil := fun hmem => h.pend_nil (List.mem_cons_of_mem _ hmem)
  nodup := (List.nodup_cons.mp h.nodup).2

section Slots

variable [DecidableEq O]

/-- A pending resource is linked to an empty slot. -/
theorem Ledger.link (h : Ledger nil ref used (z :: pend))
    (href : ∀ o', ref' o' = if o' = o then z else ref o') :
    Ledger nil ref' used pend := by
  have hself : ref' o = z := by rw [href, if_pos rfl]
  have hother {o' : O} (ho : o' ≠ o) : ref' o' = ref o' := by rw [href, if_neg ho]
  have hz : z ∈ z :: pend := List.mem_cons_self ..
  refine ⟨fun {a b} hab hne => ?_, fun {a} ha => ?_, fun hx => ?_, fun {x} hx a => ?_, ?_, ?_⟩
  · by_cases hao : a = o
    · by_cases hbo : b = o
      · rw [hao, hbo]
      · rw [hao, hself, hother hbo] at hab
        exact absurd hab.symm (h.pend_free hz b)
    · by_cases hbo : b = o
      · rw [hbo, hself, hother hao] at hab
        exact absurd hab (h.pend_free hz a)
      · rw [hother hao, hother hbo] at hab
        rw [hother hao] at hne
        exact h.inj hab hne
  · by_cases hao : a = o
    · rw [hao, hself]
      exact h.pend_used hz
    · rw [hother hao] at ha ⊢
      exact h.held ha
  · exact h.pend_used (List.mem_cons_of_mem _ hx)
  · by_cases hao : a = o
    · rw [hao, hself]
      exact fun he => (List.nodup_cons.mp h.nodup).1 (he ▸ hx)
    · rw [hother hao]
      exact h.pend_free (List.mem_cons_of_mem _ hx) a
  · exact fun hmem => h.pend_nil (List.mem_cons_of_mem _ hmem)
  · exact (List.nodup_cons.mp h.nodup).2

theorem Exact.link (h : Exact ref used (z :: pend)) (ho : ref o = nil) (hnil : ¬ used nil)
    (href : ∀ o', ref' o' = if o' = o then z else ref o') : Exact ref' used pend := by
  intro x hx
  rcases h x hx with hp | ⟨a, ha⟩
  · rcases List.mem_cons.mp hp with rfl | hp
    · exact .inr ⟨o, by rw [href, if_pos rfl]⟩
    · exact .inl hp
  · refine .inr ⟨a, ?_⟩
    have hao : a ≠ o := by
      intro he
      rw [he, ho] at ha
      exact hnil (ha ▸ hx)
    rw [href, if_neg hao, ha]

/-- A slot gives up its resource. -/
theorem Ledger.unlink (h : Ledger nil ref used pend) (ho : ref o = z) (hz : z ≠ nil)
    (href : ∀ o', ref' o' = if o' = o then nil else ref o') :
    Ledger nil ref' used (z :: pend) := by
  have hkeep {a : O} (ha : ref' a ≠ nil) : a ≠ o ∧ ref' a = ref a := by
    by_cases hao : a = o
    · rw [href, if_pos hao] at ha
      exact absurd rfl ha
    · exact ⟨hao, by rw [href, if_neg hao]⟩
  have hused : used z := ho ▸ h.held (ho ▸ hz)
  refine ⟨fun {a b} hab hne => ?_, fun {a} ha => ?_, fun {x} hx => ?_, fun {x} hx a ha => ?_,
    ?_, ?_⟩
  · have hb : ref' b ≠ nil := hab ▸ hne
    rw [(hkeep hne).2, (hkeep hb).2] at hab
    rw [(hkeep hne).2] at hne
    exact h.inj hab hne
  · have hra := (hkeep ha).2
    rw [hra] at ha ⊢
    exact h.held ha
  · rcases List.mem_cons.mp hx with rfl | hx
    · exact hused
    · exact h.pend_used hx
  · rcases List.mem_cons.mp hx with rfl | hx
    · have hne : ref' a ≠ nil := ha ▸ hz
      obtain ⟨hao, hra⟩ := hkeep hne
      rw [hra] at ha hne
      exact hao (h.inj (ha.trans ho.symm) hne)
    · by_cases hnil : ref' a = nil
      · exact h.pend_nil (hnil ▸ ha ▸ hx)
      · rw [(hkeep hnil).2] at ha
        exact h.pend_free hx a ha
  · intro hmem
    rcases List.mem_cons.mp hmem with he | hmem
    · exact hz he.symm
    · exact h.pend_nil hmem
  · exact List.nodup_cons.mpr ⟨fun hmem => h.pend_free hmem o ho, h.nodup⟩

theorem Exact.unlink (h : Exact ref used pend) (ho : ref o = z)
    (href : ∀ o', ref' o' = if o' = o then nil else ref o') :
    Exact ref' used (z :: pend) := by
  intro x hx
  rcases h x hx with hp | ⟨a, ha⟩
  · exact .inl (List.mem_cons_of_mem _ hp)
  · by_cases hao : a = o
    · rw [hao, ho] at ha
      exact .inl (ha ▸ List.mem_cons_self ..)
    · exact .inr ⟨a, by rw [href, if_neg hao, ha]⟩

end Slots

end Cnix.Lib
