/-
A task is on the run queue if it runs, and its wait entry is where it
sleeps.

`Sched.Orderly` says so of one state. The wait entries go by where a task
is in `__sleepon`, not by its state: a task that was woken up is still in
its wait queue until it runs. That is why a second `wakeup`, which finds
its entry, must look at the state, and why the entry is still there when
the task takes it out.
-/
import Mathlib.Data.Fintype.Card
import Cnix.Kernel.Sched

namespace Cnix.Kernel

open Lib
open Function (update update_self update_apply update_of_ne)

variable {n : Nat} {s s' : Sched n} {t u : Fin n} {q : Nat} {l : List (Fin n)} {st : TaskState}
  {pick : Option (Fin n)}

-- ======== the property

/-- The task has called `sleepon` for the queue and has not come back. -/
def Place.On (q : Nat) : Place → Prop
  | .out => False
  | .entered p | .waiting p => p = q

instance (q : Nat) (p : Place) : Decidable (p.On q) := by
  unfold Place.On
  split <;> infer_instance

/-- `TASK_INTERRUPTIBLE` or `TASK_UNINTERRUPTIBLE`. -/
def TaskState.sleeps : TaskState → Bool
  | .interruptible | .uninterruptible => true
  | .running | .zombie => false

/-- The run queue has the running tasks, each of them once. -/
def Sched.RunOrder (s : Sched n) : Prop :=
  ∃ l : List (Fin n), s.run.Ring none (l.map some) ∧ ∀ t, t ∈ l ↔ s.state t = .running

/-- The wait queue has the entries of the tasks that are in `sleepon` for
it, each of them once. -/
def Sched.WaitOrder (s : Sched n) (q : Nat) : Prop :=
  ∃ l : List (Fin n), Chain s.next none (s.head q) (l.map some) ∧ l.Nodup ∧
    ∀ t, t ∈ l ↔ (s.place t).On q

/-- The queues are as they should be, and a task that sleeps does so on one
of them. -/
structure Sched.Orderly (s : Sched n) : Prop where
  run : s.RunOrder
  wait : ∀ q, s.WaitOrder q
  asleep : ∀ t, (s.state t).sleeps = true → ∃ q, (s.place t).On q

-- ======== the run queue

theorem nodup_length_le (h : l.Nodup) : l.length ≤ n := by
  simpa using h.length_le_card

theorem Sched.RunOrder.delRun (h : s.RunOrder) (ht : s.state t = .running)
    (hst : st ≠ .running) : ((s.delRun t).setState t st).RunOrder := by
  obtain ⟨l, hring, hmem⟩ := h
  obtain ⟨l1, l2, rfl⟩ := List.append_of_mem ((hmem t).mpr ht)
  have hnodup := (List.nodup_cons.1 hring.nodup).2
  rw [List.nodup_map_iff (Option.some_injective _)] at hnodup
  rw [List.map_append, List.map_cons] at hring
  refine ⟨l1 ++ l2, ?_, fun u => ?_⟩
  · rw [List.map_append]
    exact hring.unlink
  · by_cases hut : u = t
    · subst hut
      have hnot : u ∉ l1 ++ l2 := by
        have hperm : (l1 ++ u :: l2).Perm (u :: (l1 ++ l2)) := List.perm_middle
        exact (List.nodup_cons.1 (hperm.nodup_iff.mp hnodup)).1
      refine iff_of_false hnot ?_
      show ¬ update s.state u st u = .running
      rw [update_self]
      exact hst
    · have hstate : ((s.delRun t).setState t st).state u = s.state u := update_of_ne hut ..
      rw [hstate, ← hmem u]
      simp [hut]

theorem Sched.RunOrder.addRun (h : s.RunOrder) (ht : s.state t ≠ .running) :
    ((s.setState t .running).addRun t).RunOrder := by
  obtain ⟨l, hring, hmem⟩ := h
  have htl : t ∉ l := fun htl => ht ((hmem t).mp htl)
  have hnew : some t ∉ none :: l.map some := by simpa using htl
  refine ⟨l ++ [t], ?_, fun u => ?_⟩
  · rw [List.map_append]
    unfold Sched.addRun
    split
    · next hempty =>
      -- `list_add_head`, into an empty queue
      have hprev : s.run.prev none = none := of_decide_eq_true hempty
      have hnil : l.map some = [] := hring.prev_self_iff.mp hprev
      rw [hnil] at hring hnew ⊢
      exact hring.insertHead hnew
    · exact hring.insertTail hnew
  · by_cases hut : u = t
    · subst hut
      refine iff_of_true (by simp) ?_
      exact update_self ..
    · have hstate : ((s.setState t .running).addRun t).state u = s.state u :=
        update_of_ne hut ..
      rw [hstate, ← hmem u]
      simp [hut]

-- ======== wakeup

theorem wake_frame (s : Sched n) (t : Fin n) : (s.wake t).next = s.next ∧ (s.wake t).head = s.head ∧
    (s.wake t).place = s.place ∧ (s.wake t).current = s.current := by
  unfold Sched.wake
  split <;> exact ⟨rfl, rfl, rfl, rfl⟩

/-- One entry: a task that sleeps runs then. -/
theorem wake_state (s : Sched n) (t u : Fin n) :
    (s.wake t).state u = if u = t ∧ (s.state t).sleeps then .running else s.state u := by
  unfold Sched.wake
  cases hst : s.state t <;>
    simp [TaskState.sleeps, Sched.setState, Sched.addRun, update_apply]

theorem Sched.RunOrder.wake (h : s.RunOrder) (t : Fin n) : (s.wake t).RunOrder := by
  unfold Sched.wake
  split
  · next hst => exact h.addRun (by rw [hst]; decide)
  · next hst => exact h.addRun (by rw [hst]; decide)
  · exact h

/-- The loop goes through the entries of the queue. -/
theorem wakeLoop_eq {fuel : Nat} {a : Option (Fin n)}
    (h : Chain s.next none a (l.map some)) (hfuel : l.length ≤ fuel) :
    Sched.wakeLoop fuel a s = some (l.foldl Sched.wake s) := by
  induction l generalizing a s fuel with
  | nil =>
    have ha : a = none := h
    subst ha
    cases fuel <;> rfl
  | cons t l ih =>
    obtain ⟨rfl, -, hl⟩ := h
    obtain ⟨fuel, rfl⟩ : ∃ k, fuel = k + 1 := ⟨fuel - 1, by simp at hfuel; omega⟩
    refine ih ?_ (by simpa using hfuel)
    rw [(wake_frame s t).1]
    exact hl

/-- What the whole loop keeps, and what it does to the states. -/
theorem foldl_wake (s : Sched n) (l : List (Fin n)) (h : s.RunOrder) :
    (l.foldl Sched.wake s).RunOrder ∧ (l.foldl Sched.wake s).next = s.next ∧
      (l.foldl Sched.wake s).head = s.head ∧ (l.foldl Sched.wake s).place = s.place ∧
      (l.foldl Sched.wake s).current = s.current ∧
      ∀ u, (l.foldl Sched.wake s).state u
        = if u ∈ l ∧ (s.state u).sleeps then .running else s.state u := by
  induction l generalizing s with
  | nil => simp [h]
  | cons t l ih =>
    obtain ⟨hrun, hnext, hhead, hplace, hcurrent, hstate⟩ := ih (s.wake t) (h.wake t)
    obtain ⟨hn, hh, hp, hc⟩ := wake_frame s t
    refine ⟨hrun, hnext.trans hn, hhead.trans hh, hplace.trans hp, hcurrent.trans hc, fun u => ?_⟩
    rw [List.foldl_cons, hstate, wake_state]
    by_cases hut : u = t
    · subst hut
      by_cases hs : (s.state u).sleeps = true
      · simp [hs, show TaskState.running.sleeps = false from rfl]
      · simp [hs]
    · simp [hut]

/-- `wakeup` ends. The tasks that sleep on the queue run then, and nothing
else changes. -/
theorem Sched.Orderly.wakeup (h : s.Orderly) (q : Nat) :
    ∃ s', s.wakeup q = some s' ∧ s'.Orderly ∧ s'.place = s.place ∧ s'.current = s.current ∧
      ∀ t, s'.state t
        = if (s.place t).On q ∧ (s.state t).sleeps = true then .running else s.state t := by
  obtain ⟨l, hchain, hnodup, hmem⟩ := h.wait q
  obtain ⟨hrun, hnext, hhead, hplace, hcurrent, hstate⟩ := foldl_wake s l h.run
  refine ⟨l.foldl Sched.wake s, wakeLoop_eq hchain (nodup_length_le hnodup), ⟨hrun, fun p => ?_,
    fun t ht => ?_⟩, hplace, hcurrent, fun t => ?_⟩
  · unfold Sched.WaitOrder
    rw [hnext, hhead, hplace]
    exact h.wait p
  · rw [hplace]
    rw [hstate] at ht
    split at ht
    · cases ht
    · exact h.asleep t ht
  · rw [hstate]
    simp only [hmem]

-- ======== sleep, resume

/-- An entry is put in front. -/
theorem Sched.WaitOrder.push (h : s.WaitOrder q) (ht : s.place t = .out) :
    ((s.addWaitQueue q t).setPlace t (.entered q)).WaitOrder q := by
  obtain ⟨l, hchain, hnodup, hmem⟩ := h
  have htl : t ∉ l := by
    rw [hmem, ht]
    exact fun hon => hon
  refine ⟨t :: l, ?_, List.nodup_cons.2 ⟨htl, hnodup⟩, fun u => ?_⟩
  · have hpush : Chain (update s.next (some t) (s.head q)) none (some t) (some t :: l.map some) :=
      hchain.push (Option.some_ne_none t) (by simpa using htl) (update_self ..)
      (fun c hc => update_of_ne hc ..)
    show Chain _ none (update s.head q (some t) q) _
    rw [update_self]
    exact hpush
  · by_cases hut : u = t
    · subst hut
      refine iff_of_true (by simp) ?_
      show (update s.place u (.entered q) u).On q
      rw [update_self]
      rfl
    · have hplace : ((s.addWaitQueue q t).setPlace t (.entered q)).place u = s.place u :=
        update_of_ne hut ..
      rw [hplace, ← hmem u]
      simp [hut]

/-- A queue keeps its entries when those of the others change. -/
theorem Sched.WaitOrder.frame {p : Nat} (h : s.WaitOrder p) (hhead : s'.head p = s.head p)
    (hnext : ∀ u, (s.place u).On p → s'.next (some u) = s.next (some u))
    (hplace : ∀ u, (s'.place u).On p ↔ (s.place u).On p) : s'.WaitOrder p := by
  obtain ⟨l, hchain, hnodup, hmem⟩ := h
  refine ⟨l, ?_, hnodup, fun u => by rw [hmem, hplace]⟩
  rw [hhead]
  refine hchain.congr fun c hc => ?_
  obtain ⟨u, hu, rfl⟩ := List.mem_map.mp hc
  exact hnext u ((hmem u).mp hu)

/-- `__sleepon` up to `schedule`. -/
theorem Sched.Orderly.sleepon (h : s.Orderly) (hcur : s.current = some t) (hout : s.place t = .out)
    (hrun : s.state t = .running) (hst : st.sleeps = true) :
    ∃ s', s.sleepon q st = .ok s' ∧ s'.Orderly := by
  have hne : st ≠ .running := fun hr => by rw [hr] at hst; cases hst
  have hself : ((((s.delRun t).setState t st).addWaitQueue q t).setPlace t (.entered q)).place t
      = .entered q := update_self ..
  have hother (u : Fin n) (hut : u ≠ t) :
      ((((s.delRun t).setState t st).addWaitQueue q t).setPlace t (.entered q)).place u = s.place u :=
    update_of_ne hut ..
  refine ⟨(((s.delRun t).setState t st).addWaitQueue q t).setPlace t (.entered q), ?_,
    h.run.delRun hrun hne, fun p => ?_, fun u hu => ?_⟩
  · rw [Sched.sleepon, hcur]
  · by_cases hpq : p = q
    · subst hpq
      exact Sched.WaitOrder.push (s := (s.delRun t).setState t st) (h.wait p) hout
    · have hnot : ¬ (s.place t).On p := by
        rw [hout]
        exact fun hon => hon
      refine (h.wait p).frame (update_of_ne hpq ..) (fun u hu => ?_) (fun u => ?_)
      · refine update_of_ne (fun hut => hnot ?_) ..
        rwa [← Option.some.inj hut]
      · by_cases hut : u = t
        · subst hut
          rw [hself]
          exact iff_of_false (fun hqp => hpq hqp.symm) hnot
        · rw [hother u hut]
  · by_cases hut : u = t
    · subst hut
      rw [hself]
      exact ⟨q, rfl⟩
    · rw [hother u hut]
      have hstate : ((((s.delRun t).setState t st).addWaitQueue q t).setPlace t
          (.entered q)).state u = s.state u := update_of_ne hut ..
      rw [hstate] at hu
      exact h.asleep u hu

/-- The entry of a task in `sleepon` is found and taken out. -/
theorem Sched.WaitOrder.remove (h : s.WaitOrder q) (ht : (s.place t).On q) :
    ∃ s', s.removeWaitQueue q t = .ok s' ∧ (s'.setPlace t .out).WaitOrder q ∧
      s'.run = s.run ∧ s'.state = s.state ∧ s'.place = s.place ∧ s'.current = s.current ∧
      (∀ p, p ≠ q → s'.head p = s.head p) ∧
      ∀ u, ¬ (s.place u).On q → s'.next (some u) = s.next (some u) := by
  obtain ⟨l, hchain, hnodup, hmem⟩ := h
  have htl : t ∈ l := (hmem t).mpr ht
  -- who is left
  have hleft {l' : List (Fin n)} (hperm : l.Perm (t :: l')) {s' : Sched n} (hplace : s'.place = s.place)
      (u : Fin n) : u ∈ l' ↔ ((s'.setPlace t .out).place u).On q := by
    have hnodup' := List.nodup_cons.1 (hperm.nodup_iff.mp hnodup)
    show _ ↔ (update s'.place t .out u).On q
    by_cases hut : u = t
    · subst hut
      rw [update_self]
      exact iff_of_false hnodup'.1 fun hon => hon
    · rw [update_of_ne hut, hplace, ← hmem u, hperm.mem_iff]
      simp [hut]
  unfold Sched.removeWaitQueue
  split
  · next hhead =>
    -- the entry is in front
    obtain ⟨l', rfl⟩ : ∃ l', l = t :: l' := by
      cases l with
      | nil => simp at htl
      | cons u l' =>
        refine ⟨l', ?_⟩
        have hu : s.head q = some u := hchain.1
        rw [hhead] at hu
        rw [Option.some.inj hu]
    refine ⟨_, rfl, ⟨l', ?_, (List.nodup_cons.1 hnodup).2, hleft (List.Perm.refl _) rfl⟩, rfl, rfl, rfl,
      rfl, fun p hp => update_of_ne hp .., fun u hu => ?_⟩
    · show Chain (update s.next (some t) none) none
        (update s.head q (s.next (some t)) q) _
      rw [update_self]
      refine hchain.2.2.congr fun c hc => ?_
      obtain ⟨u, hu, rfl⟩ := List.mem_map.mp hc
      refine update_of_ne (fun hut => (List.nodup_cons.1 hnodup).1 ?_) ..
      rwa [← Option.some.inj hut]
    · refine update_of_ne (fun hut => hu ?_) ..
      rwa [Option.some.inj hut]
  · next hhead =>
    -- some entry stands before it
    obtain ⟨l1, c, l2, rfl⟩ : ∃ l1 c l2, l = l1 ++ c :: t :: l2 := by
      obtain ⟨a, b, rfl⟩ := List.append_of_mem htl
      rcases List.eq_nil_or_concat a with rfl | ⟨l1, c, rfl⟩
      · exact absurd hchain.1 hhead
      · exact ⟨l1, c, b, by simp⟩
    have hchain' : Chain s.next none (s.head q) (l1.map some ++ some c :: some t :: l2.map some) := by
      simpa using hchain
    have hnodup' : (l1.map some ++ some c :: some t :: l2.map some).Nodup := by
      have := (List.nodup_map_iff (Option.some_injective _)).mpr hnodup
      simpa using this
    have hfuel : (l1.map some).length < n := by
      have := nodup_length_le hnodup
      simp only [List.length_append, List.length_cons] at this
      simp only [List.length_map]
      omega
    have hperm : (l1 ++ c :: t :: l2).Perm (t :: (l1 ++ c :: l2)) := by
      have h1 : (l1 ++ c :: t :: l2).Perm (l1 ++ t :: c :: l2) :=
        List.Perm.append_left l1 (List.Perm.swap t c l2)
      exact h1.trans List.perm_middle
    rw [hchain'.before hnodup' hfuel]
    refine ⟨_, rfl, ⟨l1 ++ c :: l2, ?_, ?_, hleft hperm rfl⟩, rfl, rfl, rfl, rfl, fun _ _ => rfl,
      fun u hu => ?_⟩
    · have hun : Chain (update s.next (some c) (s.next (some t))) none (s.head q)
          (l1.map some ++ some c :: l2.map some) := hchain'.unlink hnodup'
        (update_self ..) (fun d hd => update_of_ne hd ..)
      rw [List.map_append, List.map_cons]
      refine hun.congr fun d hd => update_of_ne (fun hdt => ?_) ..
      have hnot := (List.nodup_cons.1 (hperm.nodup_iff.mp hnodup)).1
      rw [hdt] at hd
      refine hnot ?_
      simpa using hd
    · exact (List.nodup_cons.1 (hperm.nodup_iff.mp hnodup)).2
    · have hut : some u ≠ some t := fun hut => hu (by rwa [Option.some.inj hut])
      have huc : some u ≠ some c := by
        intro huc
        refine hu ((hmem u).mp ?_)
        rw [Option.some.inj huc]
        simp
      show update (update s.next (some c) _) (some t) none (some u) = _
      rw [update_of_ne hut, update_of_ne huc]

/-- `__sleepon` after `schedule`, in a task that runs again. -/
theorem Sched.Orderly.resume (h : s.Orderly) (ht : (s.place t).On q) (hrun : s.state t = .running) :
    ∃ s', s.removeWaitQueue q t = .ok s' ∧ (s'.setPlace t .out).Orderly ∧ s'.current = s.current ∧
      s'.state = s.state ∧ s'.place = s.place := by
  obtain ⟨s', hok, hwait, hrun', hstate, hplace, hcurrent, hhead, hnext⟩ := (h.wait q).remove ht
  have hself : (s'.setPlace t .out).place t = .out := update_self ..
  have hother (u : Fin n) (hut : u ≠ t) : (s'.setPlace t .out).place u = s.place u := by
    show update s'.place t .out u = _
    rw [update_of_ne hut, hplace]
  refine ⟨s', hok, ⟨?_, fun p => ?_, fun u hu => ?_⟩, hcurrent, hstate, hplace⟩
  · unfold Sched.RunOrder
    rw [show (s'.setPlace t .out).run = s.run from hrun',
      show (s'.setPlace t .out).state = s.state from hstate]
    exact h.run
  · by_cases hpq : p = q
    · exact hpq ▸ hwait
    · have honly (u : Fin n) (hu : (s.place u).On p) : ¬ (s.place u).On q := by
        cases hpl : s.place u with
        | out =>
          rw [hpl] at hu
          exact fun _ => hu
        | entered r | waiting r =>
          rw [hpl] at hu
          exact fun hr => hpq ((Eq.symm hu).trans hr)
      refine (h.wait p).frame (hhead p hpq) (fun u hu => hnext u (honly u hu)) (fun u => ?_)
      by_cases hut : u = t
      · subst hut
        rw [hself]
        exact iff_of_false (fun hon => hon) fun hon => honly u hon ht
      · rw [hother u hut]
  · rw [show (s'.setPlace t .out).state = s.state from hstate] at hu
    have hut : u ≠ t := by
      rintro rfl
      rw [hrun] at hu
      cases hu
    rw [hother u hut]
    exact h.asleep u hu

-- ======== runs

/-- The queues are as they should be, and a task that is back from
`schedule` runs. -/
structure Sched.Sound (s : Sched n) : Prop where
  orderly : s.Orderly
  chosen : ∀ t q, s.current = some t → s.place t = .waiting q → s.state t = .running

/-- A task outside `sleepon` that is no zombie runs. -/
theorem Sched.Orderly.running (h : s.Orderly) (ht : s.place t = .out) (hz : s.state t ≠ .zombie) :
    s.state t = .running := by
  cases hst : s.state t with
  | running => rfl
  | zombie => exact absurd hst hz
  | interruptible | uninterruptible =>
    obtain ⟨q, hon⟩ := h.asleep t (by rw [hst]; rfl)
    rw [ht] at hon
    exact hon.elim

theorem Sched.First.sound (h : s.First) : s.Sound := by
  refine ⟨⟨?_, fun q => ⟨[], h.head q, List.nodup_nil, fun t => ?_⟩, fun t ht => ?_⟩,
    fun t _ _ _ => h.state t⟩
  · obtain ⟨l, hring, hmem⟩ := h.run
    exact ⟨l, hring, fun t => iff_of_true (hmem t) (h.state t)⟩
  · rw [h.place]
    exact iff_of_false List.not_mem_nil fun hon => hon
  · rw [h.state] at ht
    cases ht

/-- A task that calls `schedule` in `sleepon` is still on its queue. -/
theorem settle_on : (s.settle.place t).On q ↔ (s.place t).On q := by
  unfold Sched.settle
  split
  · rfl
  · next u hcur =>
    split
    · next p hp =>
      show (update s.place u (.waiting p) t).On q ↔ _
      by_cases htu : t = u
      · subst htu
        rw [update_self, hp]
        rfl
      · rw [update_of_ne htu]
    · rfl

theorem settle_out (ht : s.place t = .out) : s.settle.place t = .out := by
  unfold Sched.settle
  split
  · exact ht
  · next u hcur =>
    split
    · next p hp =>
      have htu : t ≠ u := by
        rintro rfl
        rw [hp] at ht
        cases ht
      show update s.place u (.waiting p) t = .out
      rw [update_of_ne htu, ht]
    · exact ht

theorem settle_fields : s.settle.state = s.state ∧ s.settle.run = s.run ∧
    s.settle.next = s.next ∧ s.settle.head = s.head := by
  unfold Sched.settle
  split
  · exact ⟨rfl, rfl, rfl, rfl⟩
  · split <;> exact ⟨rfl, rfl, rfl, rfl⟩

theorem Sched.Orderly.settle (h : s.Orderly) : s.settle.Orderly := by
  obtain ⟨hstate, hrun, hnext, hhead⟩ := settle_fields
  refine ⟨?_, fun q => (h.wait q).frame (by rw [hhead]) (fun u _ => by rw [hnext])
    fun u => settle_on, fun t ht => ?_⟩
  · unfold Sched.RunOrder
    rw [hstate, hrun]
    exact h.run
  · rw [hstate] at ht
    obtain ⟨q, hon⟩ := h.asleep t ht
    exact ⟨q, settle_on.mpr hon⟩

/-- `schedule` takes a task that runs, or the idle task. -/
theorem Sched.Orderly.schedule (h : s.Orderly)
    (hs : s.schedule pick = some s') : s'.Orderly ∧ s'.state = s.state ∧ s'.place = s.place ∧
      ∀ t, s'.current = some t → s.state t = .running := by
  unfold Sched.schedule at hs
  split at hs
  · cases hs
    exact ⟨⟨h.run, h.wait, h.asleep⟩, rfl, rfl, nofun⟩
  · split at hs
    · next hany =>
      cases hs
      refine ⟨⟨h.run, h.wait, h.asleep⟩, rfl, rfl, fun t hcur => ?_⟩
      have hpick : pick = some t := hcur
      subst hpick
      obtain ⟨l, hring, hmem⟩ := h.run
      have hlen : (l.map some).length ≤ n := by
        rw [List.length_map]
        refine nodup_length_le ?_
        exact (List.nodup_map_iff (Option.some_injective _)).mp (List.nodup_cons.1 hring.nodup).2
      rw [Sched.runnable, hring.visit hlen] at hany
      have hin : t ∈ l := by simpa using hany
      exact (hmem t).mp hin
    · cases hs

theorem Place.of_isWaiting {p : Place} (h : p.isWaiting = true) : ∃ q, p = .waiting q := by
  cases p with
  | waiting q => exact ⟨q, rfl⟩
  | out | entered _ => cases h

theorem Sched.Sound.sleepon (h : s.Sound) (hcur : s.current = some t) (hout : s.place t = .out)
    (hrun : s.state t = .running) (hst : st.sleeps = true)
    (hs : (s.sleepon q st).toOption = some s') :
    s'.Sound ∧ s'.current = some t ∧ s'.state = update s.state t st ∧
      s'.place = update s.place t (.entered q) := by
  obtain ⟨s1, hok, horderly⟩ := h.orderly.sleepon (q := q) hcur hout hrun hst
  rw [hok] at hs
  cases hs
  rw [Sched.sleepon, hcur] at hok
  cases hok
  refine ⟨⟨horderly, fun u p hcur' hwait => ?_⟩, hcur, rfl, rfl⟩
  have hut : u = t := (Option.some.inj (hcur.symm.trans hcur')).symm
  subst hut
  have hplace : update s.place u (.entered q) u = .waiting p := hwait
  rw [update_self] at hplace
  cases hplace

theorem Sched.Sound.wakeup (h : s.Sound) (hs : s.wakeup q = some s') :
    s'.Sound ∧ s'.place = s.place ∧ s'.current = s.current ∧ ∀ t, s'.state t
      = if (s.place t).On q ∧ (s.state t).sleeps = true then .running else s.state t := by
  obtain ⟨s1, hok, horderly, hplace, hcurrent, hstate⟩ := h.orderly.wakeup q
  rw [hok] at hs
  cases hs
  refine ⟨⟨horderly, fun t p hcur hwait => ?_⟩, hplace, hcurrent, hstate⟩
  rw [hcurrent] at hcur
  rw [hplace] at hwait
  rw [hstate, h.chosen t p hcur hwait]
  simp

theorem Sched.Sound.schedule (h : s.Sound) (hs : s.settle.schedule pick = some s') :
    s'.Sound ∧ s'.state = s.state ∧ (∀ t, s.place t = .out → s'.place t = .out) ∧
      ∀ t, s'.current = some t → s.state t = .running := by
  obtain ⟨horderly, hstate, hplace, hcur⟩ := h.orderly.settle.schedule hs
  rw [settle_fields.1] at hstate hcur
  refine ⟨⟨horderly, fun t q hcur' _ => ?_⟩, hstate, fun t ht => ?_, hcur⟩
  · rw [hstate]
    exact hcur t hcur'
  · rw [hplace]
    exact settle_out ht

theorem Sched.Sound.resume (h : s.Sound) (hfair : SchedEvent.resume.Fair s)
    (hs : SchedEvent.resume.apply s = some s') :
    s'.Sound ∧ s'.current = s.current ∧ s'.state = s.state ∧
      ∀ t, s.place t = .out → s'.place t = .out := by
  obtain ⟨t, hcur, hwaiting⟩ := hfair
  obtain ⟨q, hwait⟩ := Place.of_isWaiting hwaiting
  obtain ⟨s1, hok, horderly, hcurrent, hstate, hplace⟩ := h.orderly.resume
    (show (s.place t).On q by rw [hwait]; rfl) (h.chosen t q hcur hwait)
  simp only [SchedEvent.apply, hcur, hwait, hok] at hs
  cases hs
  refine ⟨⟨horderly, fun u p hcur' hwait' => ?_⟩, hcurrent, hstate, fun u hu => ?_⟩
  · have hcur'' : s1.current = some u := hcur'
    rw [hcurrent, hcur] at hcur''
    obtain rfl : t = u := Option.some.inj hcur''
    have hself : update s1.place t .out t = .waiting p := hwait'
    rw [update_self] at hself
    cases hself
  · show update s1.place t .out u = .out
    rw [update_apply, hplace, hu, ite_self]

/-- Nobody exits. -/
structure Sched.Inv (s : Sched n) : Prop where
  sound : s.Sound
  living : ∀ t, s.state t ≠ .zombie

theorem Sched.First.inv (h : s.First) : s.Inv := by
  refine ⟨h.sound, fun t ht => ?_⟩
  rw [h.state] at ht
  cases ht

/-- One step keeps the queues in order. -/
theorem Sched.Inv.step (h : s.Inv) {e : SchedEvent n} (hfair : e.Fair s) (hs : e.apply s = some s') :
    s'.Inv := by
  cases e with
  | sleep q interruptible =>
    obtain ⟨t, hcur, hout⟩ := hfair
    have hsleeps : (if interruptible then TaskState.interruptible
        else .uninterruptible).sleeps = true := by
      cases interruptible <;> rfl
    have hrun := h.sound.orderly.running hout (h.living t)
    obtain ⟨hsound, -, hstate, -⟩ := h.sound.sleepon hcur hout hrun hsleeps hs
    refine ⟨hsound, fun u => ?_⟩
    rw [hstate, update_apply]
    split
    · cases interruptible <;> exact TaskState.noConfusion
    · exact h.living u
  | wakeup q =>
    obtain ⟨hsound, -, -, hstate⟩ := h.sound.wakeup hs
    refine ⟨hsound, fun t => ?_⟩
    rw [hstate]
    split
    · exact TaskState.noConfusion
    · exact h.living t
  | schedule pick =>
    obtain ⟨hsound, hstate, -, -⟩ := h.sound.schedule hs
    refine ⟨hsound, fun t => ?_⟩
    rw [hstate]
    exact h.living t
  | resume =>
    obtain ⟨hsound, -, hstate, -⟩ := h.sound.resume hfair hs
    refine ⟨hsound, fun t => ?_⟩
    rw [hstate]
    exact h.living t

theorem SchedRun.inv (h : SchedRun s) : s.Inv :=
  Reached.inv (fun _ hs => hs.inv) (fun _ _ _ hinv hfair hs => hinv.step hfair hs) h

/-- In every run: the run queue has each running task once and no other;
the wait queues have one entry for each task in `sleepon`, in the queue it
sleeps on; `wakeup` ends and makes all tasks on its queue run; and a task
that comes back finds its entry. -/
theorem queues_orderly (h : SchedRun s) : s.Orderly ∧
    (∀ q, ∃ s', s.wakeup q = some s' ∧ s'.Orderly ∧ ∀ t, (s.place t).On q → s'.state t = .running) ∧
    ∀ t q, s.current = some t → s.place t = .waiting q → ∃ s', s.removeWaitQueue q t = .ok s' := by
  obtain ⟨hsound, hliving⟩ := h.inv
  refine ⟨hsound.orderly, fun q => ?_, fun t q _ hwait => ?_⟩
  · obtain ⟨s', hok, horderly, -, -, hstate⟩ := hsound.orderly.wakeup q
    refine ⟨s', hok, horderly, fun t ht => ?_⟩
    rw [hstate]
    split
    · rfl
    · next hnot =>
      cases hst : s.state t with
      | running => rfl
      | zombie => exact absurd hst (hliving t)
      | interruptible | uninterruptible => exact absurd ⟨ht, by rw [hst]; rfl⟩ hnot
  · obtain ⟨s', hok, -⟩ := (hsound.orderly.wait q).remove (show (s.place t).On q by rw [hwait]; rfl)
    exact ⟨s', hok⟩

-- ======== an example

theorem boot_first : (Sched.boot 2).First :=
  ⟨⟨[0, 1], ⟨by decide, by decide⟩, by decide⟩, by decide, fun _ => rfl, fun _ => rfl⟩

/-- Both tasks sleep on one queue and are woken up; one of them runs and
goes to sleep again before the other has taken its entry out. -/
def twice : List (SchedEvent 2) :=
  [.schedule (some 0), .sleep 7 false, .schedule (some 1), .sleep 7 true, .schedule none, .wakeup 7,
    .schedule (some 0), .resume, .sleep 7 false]

theorem queues_orderly_twice : ∃ s : Sched 2, SchedRun s ∧
    (s.state 0 = .uninterruptible ∧ s.state 1 = .running ∧ s.head 7 = some 0) ∧ s.Orderly := by
  obtain ⟨s, hplay, hs⟩ : ∃ s, play SchedEvent.apply SchedEvent.Fair (Sched.boot 2) twice = some s ∧
      s.state 0 = .uninterruptible ∧ s.state 1 = .running ∧ s.head 7 = some 0 := by decide +kernel
  have hrun : SchedRun s := .play (.first boot_first) hplay
  exact ⟨s, hrun, hs, (queues_orderly hrun).1⟩

end Cnix.Kernel
