/-
Circular lists without a head, as the classes of a key.

Every live node has a key, and is on one ring with exactly the live nodes
of its key (`Classes`). A node joins the ring of another one, leaves its
ring, leaves it to be alone, or is forgotten when it is alone; each operation has one lemma that says
for which nodes and keys the rings are the classes afterwards. New keys
may be given out as long as they tell the same nodes apart.
-/
import Cnix.Lib.Links

namespace Cnix.Lib.Links

open Function (update update_self update_of_ne)

variable {ν κ : Type*} {lk : Links ν} {live : ν → Prop} {key key' : ν → κ} {a n p q : ν} {k : κ}
  {l l' : List ν}

/-- The rings are the classes of live nodes with one key. -/
def Classes (lk : Links ν) (live : ν → Prop) (key : ν → κ) : Prop :=
  ∀ p, live p → ∃ l, lk.Ring p l ∧ ∀ q, q ∈ p :: l ↔ live q ∧ key q = key p

/-- A node of a ring has the ring for itself. -/
theorem Ring.turn (hr : lk.Ring p l) (hq : q ∈ p :: l) :
    ∃ l', lk.Ring q l' ∧ ∀ x, x ∈ q :: l' ↔ x ∈ p :: l := by
  rcases List.mem_cons.1 hq with rfl | hq
  · exact ⟨l, hr, fun _ => Iff.rfl⟩
  · obtain ⟨l1, l2, rfl⟩ := List.append_of_mem hq
    refine ⟨l2 ++ p :: l1, hr.rotate, fun x => ?_⟩
    simp only [List.mem_cons, List.mem_append]
    tauto

/-- A class is as good as the classes of all its members. -/
theorem classes_of_ring {c : κ} (hr : lk.Ring p l) (hmem : ∀ q, q ∈ p :: l ↔ live q ∧ key q = c)
    (hq : live q) (hk : key q = c) : ∃ l, lk.Ring q l ∧ ∀ x, x ∈ q :: l ↔ live x ∧ key x = key q := by
  obtain ⟨l', hr', hmem'⟩ := hr.turn ((hmem q).mpr ⟨hq, hk⟩)
  exact ⟨l', hr', fun x => by rw [hmem', hmem, hk]⟩

/-- Only what the keys tell apart matters. -/
theorem Classes.rekey (h : Classes lk live key)
    (hkey : ∀ p q, live p → live q → (key' q = key' p ↔ key q = key p)) : Classes lk live key' := by
  intro p hp
  obtain ⟨l, hr, hmem⟩ := h p hp
  refine ⟨l, hr, fun q => ?_⟩
  rw [hmem]
  exact ⟨fun hq => ⟨hq.1, (hkey p q hp hq.1).mpr hq.2⟩, fun hq => ⟨hq.1, (hkey p q hp hq.1).mp hq.2⟩⟩

theorem Classes.congr {live' : ν → Prop} (h : Classes lk live key) (hlive : ∀ p, live' p ↔ live p)
    (hkey : ∀ p, live p → key' p = key p) : Classes lk live' key' := by
  obtain rfl : live' = live := funext fun p => propext (hlive p)
  exact h.rekey fun p q hp hq => by rw [hkey p hp, hkey q hq]

/-- Rings of different keys do not meet. -/
theorem disjoint_of_key (hmem : ∀ x, x ∈ p :: l ↔ live x ∧ key x = key p)
    (hmem' : ∀ x, x ∈ q :: l' ↔ live x ∧ key x = key q) (hne : key p ≠ key q) :
    (p :: l).Disjoint (q :: l') :=
  fun x hx hx' => hne (((hmem x).mp hx).2.symm.trans ((hmem' x).mp hx').2)

/-- A node that is alone is forgotten. -/
theorem Classes.forget (h : Classes lk live key) (hn : live n) (hr : lk.Ring n []) :
    Classes lk (fun q => q ≠ n ∧ live q) key := by
  intro p ⟨hpn, hp⟩
  obtain ⟨l, hr', hmem⟩ := h p hp
  obtain ⟨l1, hr1, hmem1⟩ := h n hn
  obtain rfl : [] = l1 := hr.unique hr1
  refine ⟨l, hr', fun q => ?_⟩
  rw [hmem]
  refine ⟨fun hq => ⟨⟨fun hqn => hpn ?_, hq.1⟩, hq.2⟩, fun hq => ⟨hq.1.2, hq.2⟩⟩
  have hmem := (hmem1 p).mpr ⟨hp, by rw [← hqn, hq.2]⟩
  simpa using hmem

variable [DecidableEq ν]

-- ======== join

/-- A node joins the ring of `a`. -/
theorem Classes.insertHead (h : Classes lk live key) (ha : live a) (hn : ¬ live n) :
    Classes (lk.insertHead a n) (fun q => q = n ∨ live q) (update key n (key a)) := by
  obtain ⟨l, hr, hmem⟩ := h a ha
  have hnl : n ∉ a :: l := fun hnl => hn ((hmem n).mp hnl).1
  have hkey {q : ν} (hq : live q) : update key n (key a) q = key q := by
    have hqn : q ≠ n := fun hqn => hn (hqn ▸ hq)
    exact update_of_ne hqn ..
  -- the ring that grows
  have hgrown : ∀ q, q ∈ a :: n :: l ↔
      (q = n ∨ live q) ∧ update key n (key a) q = key a := by
    intro q
    by_cases hqn : q = n
    · subst hqn
      simp
    · have hq := hmem q
      simp only [List.mem_cons] at hq ⊢
      rw [update_of_ne hqn]
      tauto
  intro p hp
  by_cases hpk : update key n (key a) p = key a
  · exact classes_of_ring (hr.insertHead hnl) hgrown hp hpk
  · -- the others do not change
    have hp' : live p := hp.resolve_left fun hpn => hpk (by rw [hpn, update_self])
    have hpk' : key a ≠ key p := fun he => hpk (by rw [hkey hp', he])
    obtain ⟨l', hr', hmem'⟩ := h p hp'
    have hnl' : n ∉ p :: l' := fun hnl' => hn ((hmem' n).mp hnl').1
    refine ⟨l', hr.insertHead_of_disjoint hr' hnl hnl' (disjoint_of_key hmem hmem' hpk'), fun q => ?_⟩
    rw [hmem', hkey hp']
    by_cases hqn : q = n
    · subst hqn
      rw [update_self]
      exact iff_of_false (fun hq => hn hq.1) fun hq => hpk' hq.2
    · rw [update_of_ne hqn]
      exact ⟨fun hq => ⟨.inr hq.1, hq.2⟩, fun hq => ⟨hq.1.resolve_left hqn, hq.2⟩⟩

-- ======== leave

/-- A ring that does not have the node is left alone. -/
theorem Ring.unlink_other (hr : lk.Ring n l) (hr' : lk.Ring p l')
    (hd : (n :: l).Disjoint (p :: l')) : (lk.unlink n).Ring p l' := by
  have hnext := hr.next_mem
  have hprev : lk.prev n ∈ n :: l := by
    rw [hr.seg.prev_eq]
    exact List.getLast_mem (by simp)
  refine ⟨hr'.seg.congr (fun z hz => ?_) (fun z hz => ?_), hr'.nodup⟩
  · have hne : z ≠ lk.prev n := fun he => hd hprev (he ▸ hz)
    rw [unlink_next, if_neg hne]
  · have hz' : z ∈ p :: l' := by
      simp only [List.mem_append, List.mem_singleton] at hz
      simp only [List.mem_cons]
      tauto
    have hne : z ≠ lk.next n := fun he => hd hnext (he ▸ hz')
    rw [unlink_prev, if_neg hne]

/-- A node leaves its ring. -/
theorem Classes.unlink (h : Classes lk live key) (hn : live n) :
    Classes (lk.unlink n) (fun q => q ≠ n ∧ live q) key := by
  intro p ⟨hpn, hp⟩
  obtain ⟨l, hr, hmem⟩ := h p hp
  by_cases hk : key n = key p
  · have hnl : n ∈ l := by
      rcases List.mem_cons.1 ((hmem n).mpr ⟨hn, hk⟩) with hnp | hnl
      · exact absurd hnp.symm hpn
      · exact hnl
    obtain ⟨l1, l2, rfl⟩ := List.append_of_mem hnl
    refine ⟨l1 ++ l2, hr.unlink, fun q => ?_⟩
    have hnot : n ∉ p :: (l1 ++ l2) := by
      have hperm : (p :: (l1 ++ n :: l2)).Perm (n :: p :: (l1 ++ l2)) :=
        (List.perm_middle.cons p).trans (List.Perm.swap ..)
      exact (List.nodup_cons.1 (hperm.nodup_iff.mp hr.nodup)).1
    by_cases hqn : q = n
    · subst hqn
      exact iff_of_false hnot fun hq => hq.1.1 rfl
    · have hq := hmem q
      simp only [List.mem_cons, List.mem_append] at hq ⊢
      tauto
  · obtain ⟨l', hr', hmem'⟩ := h n hn
    refine ⟨l, hr'.unlink_other hr (disjoint_of_key hmem' hmem hk), fun q => ?_⟩
    rw [hmem]
    refine ⟨fun hq => ⟨⟨fun hqn => hk ?_, hq.1⟩, hq.2⟩, fun hq => ⟨hq.1.2, hq.2⟩⟩
    rw [← hqn, hq.2]

/-- Take `n` out of its list and make it a list of its own: the writes of
`list_del1`. -/
def isolate (lk : Links ν) (n : ν) : Links ν := ((lk.unlink n).setNext n n).setPrev n n

/-- A node leaves its ring to be alone, with a key that no other one has. -/
theorem Classes.isolate (h : Classes lk live key) (hn : live n)
    (hk : ∀ q, live q → q ≠ n → key q ≠ k) :
    Classes (lk.isolate n) live (update key n k) := by
  intro p hp
  by_cases hpn : p = n
  · subst hpn
    refine ⟨[], ⟨⟨?_, ?_⟩, List.nodup_singleton p⟩, fun q => ?_⟩
    · exact update_self ..
    · exact update_self ..
    · rw [update_self]
      by_cases hqp : q = p
      · subst hqp
        simp [hn]
      · rw [update_of_ne hqp]
        exact iff_of_false (by simpa using hqp) fun hq => hk q hq.1 hqp hq.2
  · obtain ⟨l, hr, hmem⟩ := h.unlink hn p ⟨hpn, hp⟩
    have hnl {z : ν} (hz : z ∈ p :: l) : z ≠ n := ((hmem z).mp hz).1.1
    refine ⟨l, ⟨hr.seg.congr (fun z hz => ?_) (fun z hz => ?_), hr.nodup⟩, fun q => ?_⟩
    · exact update_of_ne (hnl hz) ..
    · refine update_of_ne (hnl ?_) ..
      simp only [List.mem_append, List.mem_singleton] at hz
      simp only [List.mem_cons]
      tauto
    · rw [hmem, update_of_ne hpn]
      by_cases hqn : q = n
      · subst hqn
        rw [update_self]
        exact iff_of_false (fun hq => hq.1.1 rfl) fun hq => hk p hp hpn hq.2.symm
      · rw [update_of_ne hqn]
        exact ⟨fun hq => ⟨hq.1.2, hq.2⟩, fun hq => ⟨⟨hqn, hq.1⟩, hq.2⟩⟩

end Cnix.Lib.Links
