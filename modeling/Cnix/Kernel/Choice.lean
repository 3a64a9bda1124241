/-
The choice of `schedule` in `kernel/sched.c`.

The run queue is the list of its tasks here; `Kernel/Sched.lean` has its
links. The task with most ticks left runs next. When none has any left,
every task of the queue gets its priority and the loop starts again. With
no positive priority that would go on for ever, so the loop has a bound,
`rounds`.

`schedule_choice` says what is chosen and what is left alone. The caller
may have left the queue, and its `need_sched` is cleared all the same. The
switch to the other task is left out.
-/
import Mathlib.Data.Int.ConditionallyCompleteOrder
import Mathlib.Data.List.MinMax
import Mathlib.Order.ConditionallyCompleteLattice.Basic
import Cnix.Basic

namespace Cnix.Kernel

/-- The run queue, and the fields of the tasks that `schedule` uses. -/
structure Ticks (α : Type*) where
  queue : List α
  idle : α
  current : α
  counter : α → Int
  priority : α → Int
  needSched : α → Bool

namespace Ticks

variable {α : Type*} [DecidableEq α]

/-- One round of the first loop: `counter` and `sel`. -/
def take (f : α → Int) (best : Int × Option α) (p : α) : Int × Option α :=
  if best.1 < f p then (f p, some p) else best

/-- The second loop. -/
def recharge (s : Ticks α) : Ticks α :=
  { s with
    counter := s.queue.foldl (fun counter p => Function.update counter p (s.priority p)) s.counter }

/-- `schedule` from `repeat` on. -/
def again : Nat → Ticks α → Option (Ticks α)
  | 0, _ => none
  | rounds + 1, s =>
    let (counter, sel) := s.queue.foldl (take s.counter) (0, none)
    if counter = 0 then again rounds s.recharge
    else sel.map fun next => { s with current := next }

def schedule (rounds : Nat) (s : Ticks α) : Option (Ticks α) :=
  let s := { s with needSched := Function.update s.needSched s.current false }
  if s.queue = [] then some { s with current := s.idle } else again rounds s

-- ======== the law

/-- What `schedule` makes of a state; `argmax` is the first task with the
greatest value. -/
structure Chosen (s s' : Ticks α) : Prop where
  empty : s.queue = [] → s'.current = s.idle
  ready : (∃ p ∈ s.queue, 0 < s.counter p) → s'.current ∈ s.queue.argmax s.counter
  spent : s.queue ≠ [] → (∀ p ∈ s.queue, s.counter p = 0) → s'.current ∈ s.queue.argmax s.priority
  counter : ∀ p, s'.counter p = if p ∈ s.queue ∧ ∀ q ∈ s.queue, s.counter q = 0
    then s.priority p else s.counter p
  kept : s'.queue = s.queue ∧ s'.idle = s.idle ∧ s'.priority = s.priority
  flag : s'.needSched = Function.update s.needSched s.current false
  queued : s.queue ≠ [] → s'.current ∈ s.queue

omit [DecidableEq α] in
/-- The first loop finds the first task with most ticks, if that has any. -/
theorem foldl_take (f : α → Int) (l : List α) : l.foldl (take f) (0, none)
    = (l.argmax f).elim (0, none) fun x => if 0 < f x then (f x, some x) else (0, none) := by
  induction l using List.reverseRecOn with
  | nil => rfl
  | append_singleton l p ih =>
    rw [List.foldl_append, ih, List.argmax_concat]
    cases l.argmax f with
    | none => simp [take]
    | some x => grind [take]

omit [DecidableEq α] in
theorem argmax_congr {f g : α → Int} (l : List α) (h : ∀ p ∈ l, f p = g p) :
    l.argmax f = l.argmax g := by
  induction l using List.reverseRecOn with
  | nil => rfl
  | append_singleton l p ih =>
    rw [List.argmax_concat, List.argmax_concat, ← ih fun q hq => h q (by simp [hq])]
    cases hx : l.argmax f with
    | none => rfl
    | some x => simp [h x (by simp [List.argmax_mem hx]), h p (by simp)]

theorem recharge_counter (s : Ticks α) (p : α) :
    s.recharge.counter p = if p ∈ s.queue then s.priority p else s.counter p := by
  unfold recharge
  dsimp only
  induction s.queue using List.reverseRecOn with
  | nil => rfl
  | append_singleton l q ih => simp [List.foldl_append, Function.update_apply, ih]; grind

/-- When a task has ticks left, the first one with most of them is next. -/
theorem again_ready {s : Ticks α} (h : ∃ p ∈ s.queue, 0 < s.counter p) (rounds : Nat) :
    ∃ x ∈ s.queue.argmax s.counter, again (rounds + 1) s = some { s with current := x } := by
  obtain ⟨p, hp, hpos⟩ := h
  cases hx : s.queue.argmax s.counter with
  | none => simp [List.argmax_eq_none.mp hx] at hp
  | some x =>
    have hle : 0 < s.counter x := hpos.trans_le (List.le_of_mem_argmax hp hx)
    exact ⟨x, rfl, by simp [again, foldl_take, hx, hle, hle.ne']⟩

theorem again_spent {s : Ticks α} (h : ∀ p ∈ s.queue, s.counter p = 0) (rounds : Nat) :
    again (rounds + 1) s = again rounds s.recharge := by
  cases hx : s.queue.argmax s.counter with
  | none => simp [again, foldl_take, hx]
  | some x => simp [again, foldl_take, hx, h x (List.argmax_mem hx)]

/-- Two rounds are enough for `schedule`. -/
theorem schedule_choice (s : Ticks α) (hcounter : ∀ p ∈ s.queue, 0 ≤ s.counter p)
    (hpriority : ∀ p ∈ s.queue, 0 < s.priority p) (rounds : Nat) :
    ∃ s', s.schedule (rounds + 2) = some s' ∧ s.Chosen s' := by
  unfold schedule
  extract_lets t
  split
  · next hnil =>
    have hnil : s.queue = [] := hnil
    exact ⟨_, rfl, by constructor <;> simp [t, hnil]⟩
  next hne =>
  by_cases hready : ∃ p ∈ t.queue, 0 < t.counter p
  · obtain ⟨x, hx, hagain⟩ := again_ready hready (rounds + 1)
    have hnot : ¬ ∀ q ∈ s.queue, s.counter q = 0 := fun h =>
      let ⟨p, hp, hpos⟩ := hready
      hpos.ne' (h p hp)
    exact ⟨_, hagain, fun h => absurd h hne, fun _ => hx, fun _ h => absurd h hnot,
      fun p => by simp [t, hnot], ⟨rfl, rfl, rfl⟩, rfl, fun _ => List.argmax_mem hx⟩
  · have hspent : ∀ p ∈ t.queue, t.counter p = 0 := fun p hp =>
      le_antisymm (Int.not_lt.mp fun hpos => hready ⟨p, hp, hpos⟩) (hcounter p hp)
    have hcharged : ∀ p ∈ s.queue, t.recharge.counter p = s.priority p := fun p hp => by
      rw [recharge_counter, if_pos hp]
    obtain ⟨p, hp⟩ := List.exists_mem_of_ne_nil _ hne
    obtain ⟨x, hx, hagain⟩ := again_ready (s := t.recharge)
      ⟨p, hp, by rw [hcharged p hp]; exact hpriority p hp⟩ rounds
    rw [again_spent hspent, hagain]
    exact ⟨_, rfl, fun h => absurd h hne, fun h => absurd h hready,
      fun _ _ => argmax_congr s.queue hcharged ▸ hx,
      fun p => (recharge_counter t p).trans (if_congr (and_iff_left hspent).symm rfl rfl),
      ⟨rfl, rfl, rfl⟩, rfl, fun _ => List.argmax_mem hx⟩

/-- Task 1 has no ticks left and runs, task 2 has three. -/
def twoTasks : Ticks (Fin 3) := ⟨[1, 2], 0, 1, fun p => if p = 2 then 3 else 0, fun _ => 5, fun _ => true⟩

theorem schedule_choice_two : ∃ s', twoTasks.schedule 2 = some s' ∧ twoTasks.Chosen s' :=
  schedule_choice twoTasks (by decide) (by decide) 0

/-- Task 1 calls `schedule` after it has left the queue. -/
theorem caller_off_queue_written : ∃ s s' : Ticks (Fin 3), (∀ p ∈ s.queue, 0 ≤ s.counter p) ∧
    (∀ p ∈ s.queue, 0 < s.priority p) ∧ s.schedule 2 = some s' ∧
    ∃ p ∉ s.queue, s'.needSched p ≠ s.needSched p :=
  ⟨{ twoTasks with queue := [2] }, { twoTasks with
    queue := [2], current := 2, needSched := Function.update twoTasks.needSched 1 false },
    by decide, by decide, rfl, 1, by decide, by decide⟩

end Ticks

end Cnix.Kernel
