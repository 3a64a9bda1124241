/-
Circular doubly linked lists, at the level of the two pointer fields.

A node type `ν` and two functions `next` and `prev` are the whole heap
of links: a list is not a value but a set of pointer facts, and one
pointer write may touch any number of lists at once. `Seg` reads a
stretch of such facts as a Lean list, `Ring` closes a stretch on its
head node. The operations are the pointer writes of the usual C
macros, and each has one lemma that says what it does to the ring it is
aimed at (`Ring.insertHead`, `Ring.unlink`) and one frame lemma for a ring it
does not meet (`Ring.insertHead_of_disjoint`,
`Ring.unlink_of_disjoint`).
-/
import Mathlib.Logic.Function.Basic
import Mathlib.Data.List.Nodup

namespace Cnix.Lib

open List (mem_append mem_singleton mem_cons)

-- ======== the links

/-- The link fields of a heap of nodes. -/
structure Links (ν : Type*) where
  next : ν → ν
  prev : ν → ν

namespace Links

variable {ν : Type*} {h' : ν} {l' : List ν} {fuel : Nat}

section Reading

variable {lk lk' : Links ν} {a b h x : ν} {l l1 l2 : List ν}

-- ======== reading lists

/-- From `a`, following `next`, one meets exactly the nodes of `l` and
then `b`, and every `prev` on the way points back. -/
def Seg (lk : Links ν) : ν → List ν → ν → Prop
  | a, [], b => lk.next a = b ∧ lk.prev b = a
  | a, x :: l, b => lk.next a = x ∧ lk.prev x = a ∧ Seg lk x l b

instance Seg.decidable [DecidableEq ν] (lk : Links ν) (b : ν) : ∀ l a, Decidable (lk.Seg a l b)
  | [], _ => inferInstanceAs (Decidable (_ ∧ _))
  | x :: l, _ =>
    have := Seg.decidable lk b l x
    inferInstanceAs (Decidable (_ ∧ _ ∧ _))

/-- The list headed by `h` holds exactly `l`, in order. -/
structure Ring (lk : Links ν) (h : ν) (l : List ν) : Prop where
  seg : lk.Seg h l h
  nodup : (h :: l).Nodup

/-- A segment only reads the `next` fields of its start and its nodes
and the `prev` fields of its nodes and its end. -/
theorem Seg.congr (hs : lk.Seg a l b) (hn : ∀ y ∈ a :: l, lk'.next y = lk.next y)
    (hp : ∀ y ∈ l ++ [b], lk'.prev y = lk.prev y) : lk'.Seg a l b := by
  induction l generalizing a with
  | nil =>
    refine ⟨?_, ?_⟩
    · rw [hn a (by simp)]
      exact hs.1
    · rw [hp b (by simp)]
      exact hs.2
  | cons y l ih =>
    refine ⟨?_, ?_, ih hs.2.2 ?_ ?_⟩
    · rw [hn a (by simp)]
      exact hs.1
    · rw [hp y (by simp)]
      exact hs.2.1
    · intro z hz
      exact hn z (by simp at hz ⊢; tauto)
    · intro z hz
      exact hp z (by simp at hz ⊢; tauto)

/-- Segments split at any of their nodes. -/
theorem seg_append : lk.Seg a (l1 ++ x :: l2) b ↔ lk.Seg a l1 x ∧ lk.Seg x l2 b := by
  induction l1 generalizing a with
  | nil => simp [Seg, and_assoc]
  | cons y l ih => simp [Seg, ih, and_assoc]

/-- The first node of a segment, or its end. -/
theorem Seg.next_eq (hs : lk.Seg a l b) : lk.next a = (l ++ [b]).head (by simp) := by
  cases l with
  | nil | cons y l => exact hs.1

/-- The last node of a segment, or its start. -/
theorem Seg.prev_eq (hs : lk.Seg a l b) : lk.prev b = (a :: l).getLast (by simp) := by
  induction l generalizing a with
  | nil => exact hs.2
  | cons y l ih =>
    rw [ih hs.2.2]
    simp

/-- A ring is empty exactly when its head points to itself. -/
theorem Ring.next_self_iff (hr : lk.Ring h l) : lk.next h = h ↔ l = [] := by
  cases l with
  | nil => simpa using hr.seg.1
  | cons y l =>
    have hne : h ≠ y := fun he => by
      have := hr.nodup
      simp [he] at this
    have hy : lk.next h = y := hr.seg.1
    rw [hy]
    simpa using hne.symm

theorem Ring.next_cons (hr : lk.Ring h (x :: l)) : lk.next h = x :=
  hr.seg.1

/-- Two readings of one head agree: a ring determines its list. -/
theorem Seg.unique (hs : lk.Seg a l1 b) (hs' : lk.Seg a l2 b)
    (h1 : b ∉ l1) (h2 : b ∉ l2) : l1 = l2 := by
  induction l1 generalizing a l2 with
  | nil =>
    cases l2 with
    | nil => rfl
    | cons y l =>
      have : y = b := hs'.1.symm.trans hs.1
      simp [this] at h2
  | cons x l ih =>
    cases l2 with
    | nil =>
      have : x = b := hs.1.symm.trans hs'.1
      simp [this] at h1
    | cons y l' =>
      have hxy : x = y := hs.1.symm.trans hs'.1
      subst hxy
      rw [ih hs.2.2 hs'.2.2 (by simp_all) (by simp_all)]

theorem Ring.unique (hr : lk.Ring h l1) (hr' : lk.Ring h l2) : l1 = l2 :=
  hr.seg.unique hr'.seg (List.nodup_cons.1 hr.nodup).1
    (List.nodup_cons.1 hr'.nodup).1

end Reading

-- ======== pointer writes

variable [DecidableEq ν]

section Writes

variable (lk : Links ν)

/-- Write one `next` field. -/
def setNext (n v : ν) : Links ν :=
  { lk with next := Function.update lk.next n v }

/-- Write one `prev` field. -/
def setPrev (n v : ν) : Links ν :=
  { lk with prev := Function.update lk.prev n v }

@[simp] theorem setNext_prev (n v : ν) : (lk.setNext n v).prev = lk.prev := rfl

@[simp] theorem setPrev_next (n v : ν) : (lk.setPrev n v).next = lk.next := rfl

theorem setNext_next (n v x : ν) :
    (lk.setNext n v).next x = if x = n then v else lk.next x := by
  simp [setNext, Function.update_apply]

theorem setPrev_prev (n v x : ν) :
    (lk.setPrev n v).prev x = if x = n then v else lk.prev x := by
  simp [setPrev, Function.update_apply]

/-- Put `n` right after `h`: the four writes of `list_add_head`. -/
def insertHead (h n : ν) : Links ν :=
  let lk1 := lk.setNext n (lk.next h)
  let lk2 := lk1.setPrev (lk1.next h) n
  let lk3 := lk2.setNext h n
  lk3.setPrev n h

/-- Take `n` out of whatever list it is on: the two writes of
`list_del`. -/
def unlink (n : ν) : Links ν :=
  let lk1 := lk.setNext (lk.prev n) (lk.next n)
  lk1.setPrev (lk1.next n) (lk1.prev n)

end Writes

-- ======== insertion

variable {lk : Links ν} {h n x : ν} {l l1 l2 : List ν}

/-- The `next` fields after an insertion behind `h`. -/
theorem insertHead_next :
    (lk.insertHead h n).next x
      = if x = h then n else if x = n then lk.next h else lk.next x := by
  simp only [insertHead, setPrev_next, setNext_next]

/-- The `prev` fields after an insertion behind `h`. -/
theorem insertHead_prev (hn : n ≠ h) :
    (lk.insertHead h n).prev x
      = if x = n then h else if x = lk.next h then n else lk.prev x := by
  simp only [insertHead, setPrev_prev, setNext_prev, setNext_next]
  rw [if_neg (Ne.symm hn)]

/-- Inserting a foreign node behind the head pushes it on the list. -/
theorem Ring.insertHead (hr : lk.Ring h l) (hn : n ∉ h :: l) :
    (lk.insertHead h n).Ring h (n :: l) := by
  have hnh : n ≠ h := fun he => hn (by simp [he])
  have hnl : n ∉ l := fun he => hn (by simp [he])
  have hhl : h ∉ l := (List.nodup_cons.1 hr.nodup).1
  refine ⟨⟨?_, ?_, ?_⟩, ?_⟩
  · rw [insertHead_next, if_pos rfl]
  · rw [insertHead_prev hnh, if_pos rfl]
  · -- the old list, entered from `n` instead of `h`
    have hseg := hr.seg
    cases l with
    | nil =>
      have hself : lk.next h = h := hseg.1
      refine ⟨?_, ?_⟩
      · rw [insertHead_next, if_neg hnh, if_pos rfl, hself]
      · rw [insertHead_prev hnh, if_neg (Ne.symm hnh), hself, if_pos rfl]
    | cons y l =>
      have hy : lk.next h = y := hseg.1
      have hny : n ≠ y := fun he => hnl (by simp [he])
      have hnd := (List.nodup_cons.1 hr.nodup).2
      refine ⟨?_, ?_, hseg.2.2.congr ?_ ?_⟩
      · rw [insertHead_next, if_neg hnh, if_pos rfl, hy]
      · rw [insertHead_prev hnh, if_neg (Ne.symm hny), hy, if_pos rfl]
      · intro z hz
        have hzh : z ≠ h := fun he => hhl (he ▸ hz)
        have hzn : z ≠ n := fun he => hnl (he ▸ hz)
        rw [insertHead_next, if_neg hzh, if_neg hzn]
      · intro z hz
        have hzn : z ≠ n := fun he => hn (by
          simp only [mem_append, mem_singleton] at hz
          simp only [mem_cons, ← he]
          tauto)
        have hzy : z ≠ y := fun he => by
          simp only [mem_append, mem_singleton] at hz
          rcases hz with hz | hz
          · exact (List.nodup_cons.1 hnd).1 (he ▸ hz)
          · exact hhl (by simp [← hz, he])
        rw [insertHead_prev hnh, if_neg hzn, hy, if_neg hzy]
  · refine List.nodup_cons.2 ⟨?_, List.nodup_cons.2 ⟨hnl, ?_⟩⟩
    · simp [Ne.symm hnh, hhl]
    · exact (List.nodup_cons.1 hr.nodup).2

omit [DecidableEq ν] in
theorem Ring.next_mem (hr : lk.Ring h l) : lk.next h ∈ h :: l := by
  rw [hr.seg.next_eq]
  have := List.head_mem (l := l ++ [h]) (by simp)
  simp only [mem_append, mem_singleton] at this
  simp only [mem_cons]
  tauto

/-- Inserting into one ring leaves a disjoint one alone. -/
theorem Ring.insertHead_of_disjoint (hr : lk.Ring h l) (hr' : lk.Ring h' l') (hn : n ∉ h :: l)
    (hn' : n ∉ h' :: l') (hd : (h :: l).Disjoint (h' :: l')) : (lk.insertHead h n).Ring h' l' := by
  have hnh : n ≠ h := fun he => hn (by simp [he])
  -- the node behind `h` lies on the ring of `h`, so the other ring never
  -- reads a field that is written
  have hnext := hr.next_mem
  refine ⟨hr'.seg.congr ?_ ?_, hr'.nodup⟩
  · intro z hz
    have hzh : z ≠ h := fun he => hd (by simp) (he ▸ hz)
    have hzn : z ≠ n := fun he => hn' (he ▸ hz)
    rw [insertHead_next, if_neg hzh, if_neg hzn]
  · intro z hz
    have hz' : z ∈ h' :: l' := by
      simp only [mem_append, mem_singleton] at hz
      simp only [mem_cons]
      tauto
    have hzn : z ≠ n := fun he => hn' (he ▸ hz')
    have hzx : z ≠ lk.next h := fun he => hd hnext (he ▸ hz')
    rw [insertHead_prev hnh, if_neg hzn, if_neg hzx]

-- ======== removal

/-- The `next` fields after a removal. -/
theorem unlink_next :
    (lk.unlink n).next x = if x = lk.prev n then lk.next n else lk.next x := by
  simp only [unlink, setPrev_next, setNext_next]

/-- The `prev` fields after a removal. The second write reads `next n`
after the first, which changes it only for a node alone on its list,
and then to the same value. -/
theorem unlink_prev :
    (lk.unlink n).prev x = if x = lk.next n then lk.prev n else lk.prev x := by
  simp only [unlink, setPrev_prev, setNext_prev, setNext_next]
  by_cases hself : n = lk.prev n
  · rw [if_pos hself]
  · rw [if_neg hself]

/-- Two stretches meeting at `n` are one stretch once `n` is out. -/
theorem Seg.unlink {a b : ν} (h1 : lk.Seg a l1 n) (h2 : lk.Seg n l2 b)
    (hnd : (a :: (l1 ++ l2)).Nodup) (hb : b ∉ l1 ++ l2) : (lk.unlink n).Seg a (l1 ++ l2) b := by
  have hnext := h2.next_eq
  induction l1 generalizing a with
  | nil =>
    -- `n` stands right behind `a`
    have hpn : lk.prev n = a := h1.2
    cases l2 with
    | nil =>
      have hnb : lk.next n = b := h2.1
      refine ⟨?_, ?_⟩
      · rw [unlink_next, hpn, if_pos rfl, hnb]
      · rw [unlink_prev, hnb, if_pos rfl, hpn]
    | cons y l =>
      have hny : lk.next n = y := h2.1
      have hyb : y ≠ b := fun he => hb (by simp [he])
      obtain ⟨ha, hnd⟩ := List.nodup_cons.1 hnd
      refine ⟨?_, ?_, h2.2.2.congr ?_ ?_⟩
      · rw [unlink_next, hpn, if_pos rfl, hny]
      · rw [unlink_prev, hny, if_pos rfl, hpn]
      · intro z hz
        have hza : z ≠ a := fun he => ha (he ▸ hz)
        rw [unlink_next, hpn, if_neg hza]
      · intro z hz
        have hzy : z ≠ y := by
          rintro rfl
          simp only [mem_append, mem_singleton] at hz
          rcases hz with hz | hz
          · exact (List.nodup_cons.1 hnd).1 hz
          · exact hyb hz
        rw [unlink_prev, hny, if_neg hzy]
  | cons x l ih =>
    obtain ⟨ha, hnd⟩ := List.nodup_cons.1 hnd
    have hprev := h1.2.2.prev_eq
    refine ⟨?_, ?_, ih h1.2.2 hnd (fun hb' => hb (by simp_all))⟩
    · have hne : a ≠ lk.prev n := by
        intro he
        rw [hprev] at he
        have hmem := List.getLast_mem (l := x :: l) (by simp)
        rw [← he] at hmem
        exact ha (List.mem_append_left l2 hmem)
      rw [unlink_next, if_neg hne]
      exact h1.1
    · have hne : x ≠ lk.next n := by
        intro he
        have hmem := List.head_mem (l := l2 ++ [b]) (by simp)
        rw [← hnext, ← he] at hmem
        simp only [mem_append, mem_singleton] at hmem
        rcases hmem with hmem | rfl
        · exact (List.nodup_cons.1 hnd).1 (by simp [hmem])
        · exact hb (by simp)
      rw [unlink_prev, if_neg hne]
      exact h1.2.1

/-- Unlinking a node of a ring erases it from the list. -/
theorem Ring.unlink (hr : lk.Ring h (l1 ++ n :: l2)) : (lk.unlink n).Ring h (l1 ++ l2) := by
  obtain ⟨hs1, hs2⟩ := seg_append.1 hr.seg
  have hnd : (h :: (l1 ++ l2)).Nodup := by
    refine hr.nodup.sublist (List.Sublist.cons_cons h ?_)
    exact (List.Sublist.refl l1).append (List.sublist_cons_self n l2)
  exact ⟨hs1.unlink hs2 hnd (List.nodup_cons.1 hnd).1, hnd⟩

/-- Unlinking a node of one ring leaves a disjoint ring alone. -/
theorem Ring.unlink_of_disjoint (hr : lk.Ring h (l1 ++ n :: l2)) (hr' : lk.Ring h' l')
    (hd : (h :: (l1 ++ n :: l2)).Disjoint (h' :: l')) : (lk.unlink n).Ring h' l' := by
  obtain ⟨hs1, hs2⟩ := seg_append.1 hr.seg
  have hprev : lk.prev n ∈ h :: (l1 ++ n :: l2) := by
    rw [hs1.prev_eq]
    have := List.getLast_mem (l := h :: l1) (by simp)
    simp only [mem_cons, mem_append] at this ⊢
    tauto
  have hnext : lk.next n ∈ h :: (l1 ++ n :: l2) := by
    rw [hs2.next_eq]
    have := List.head_mem (l := l2 ++ [h]) (by simp)
    simp only [mem_cons, mem_append, List.not_mem_nil, or_false] at this ⊢
    tauto
  refine ⟨hr'.seg.congr ?_ ?_, hr'.nodup⟩
  · intro z hz
    have hne : z ≠ lk.prev n := fun he => hd hprev (he ▸ hz)
    rw [unlink_next, if_neg hne]
  · intro z hz
    have hz' : z ∈ h' :: l' := by
      simp only [mem_append, mem_cons, List.not_mem_nil, or_false] at hz ⊢
      tauto
    have hne : z ≠ lk.next n := fun he => hd hnext (he ▸ hz')
    rw [unlink_prev, if_neg hne]

-- ======== both ways

/-- The links read backwards. -/
def flip (lk : Links ν) : Links ν := ⟨lk.prev, lk.next⟩

omit [DecidableEq ν] in
theorem Seg.flip {a b : ν} (hs : lk.Seg a l b) : lk.flip.Seg b l.reverse a := by
  induction l generalizing a with
  | nil => exact ⟨hs.2, hs.1⟩
  | cons y l ih =>
    rw [List.reverse_cons]
    refine seg_append.2 ⟨ih hs.2.2, ?_⟩
    exact ⟨hs.2.1, hs.1⟩

omit [DecidableEq ν] in
theorem Ring.flip (hr : lk.Ring h l) : lk.flip.Ring h l.reverse := by
  refine ⟨hr.seg.flip, ?_⟩
  obtain ⟨hh, hl⟩ := List.nodup_cons.1 hr.nodup
  exact List.nodup_cons.2 ⟨by simpa using hh, List.nodup_reverse.2 hl⟩

/-- Put `n` right before `h`: the four writes of `list_add_tail`. -/
def insertTail (lk : Links ν) (h n : ν) : Links ν :=
  let lk1 := lk.setPrev n (lk.prev h)
  let lk2 := lk1.setNext (lk1.prev h) n
  let lk3 := lk2.setNext n h
  lk3.setPrev h n

/-- Inserting a foreign node before the head appends it to the list. -/
theorem Ring.insertTail (hr : lk.Ring h l) (hn : n ∉ h :: l) :
    (lk.insertTail h n).Ring h (l ++ [n]) := by
  have hn' : n ∉ h :: l.reverse := by simpa using hn
  have hring := (hr.flip.insertHead hn').flip
  rw [List.reverse_cons, List.reverse_reverse] at hring
  exact hring

omit [DecidableEq ν] in
/-- Every node of a ring can be taken for its head. -/
theorem Ring.rotate (hr : lk.Ring h (l1 ++ x :: l2)) : lk.Ring x (l2 ++ h :: l1) := by
  obtain ⟨hs1, hs2⟩ := seg_append.1 hr.seg
  refine ⟨seg_append.2 ⟨hs2, hs1⟩, ?_⟩
  refine hr.nodup.perm ?_
  have hperm : (h :: (l1 ++ x :: l2)).Perm ((x :: l2) ++ (h :: l1)) :=
    @List.perm_append_comm _ (h :: l1) (x :: l2)
  exact hperm

omit [DecidableEq ν] in
theorem Ring.prev_self_iff (hr : lk.Ring h l) : lk.prev h = h ↔ l = [] := by
  have hflip := hr.flip.next_self_iff
  rw [List.reverse_eq_nil_iff] at hflip
  exact hflip

-- ======== loops

/-- The nodes that a loop over the list of `h` meets from `a` on. It never
ends if `h` is not met; `fuel` turns are followed. -/
def visit (lk : Links ν) (h : ν) : Nat → ν → Option (List ν)
  | 0, a => if a = h then some [] else none
  | fuel + 1, a => if a = h then some [] else (lk.visit h fuel (lk.next a)).map (a :: ·)

theorem Seg.visit {a : ν} (hs : lk.Seg a l h) (hl : h ∉ l) (hfuel : l.length ≤ fuel) :
    lk.visit h fuel (lk.next a) = some l := by
  induction l generalizing a fuel with
  | nil =>
    rw [hs.1]
    cases fuel <;> simp [Links.visit]
  | cons y l ih =>
    obtain ⟨hy, hl'⟩ := List.ne_and_not_mem_of_not_mem_cons hl
    obtain ⟨fuel, rfl⟩ : ∃ k, fuel = k + 1 := ⟨fuel - 1, by simp at hfuel; omega⟩
    rw [hs.1, Links.visit, if_neg (Ne.symm hy), ih hs.2.2 hl' (by simpa using hfuel)]
    rfl

/-- The loop over a ring meets its nodes. -/
theorem Ring.visit (hr : lk.Ring h l) (hfuel : l.length ≤ fuel) :
    lk.visit h fuel (lk.next h) = some l :=
  hr.seg.visit (List.nodup_cons.1 hr.nodup).1 hfuel

end Links

end Cnix.Lib
