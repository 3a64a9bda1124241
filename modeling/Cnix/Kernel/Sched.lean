/-
The run queue and the wait queues of `kernel/sched.c`.

The run queue is a circular list headed by the node of the idle task. A
task that goes to sleep leaves it, and puts an entry, which lies on its
own kernel stack, in front of the wait queue. `wakeup` puts the tasks of a
wait queue back on the run queue, but leaves their entries; each takes its
entry out when it runs again. Between the two more tasks may go to sleep
on the queue, and it may be woken up again.

Interrupts are locked out where the source locks them out, and one
process is not preempted by another in the kernel, so that what happens
between two such places is one step: the first half of `__sleepon`, a
`wakeup` (of the running task or of an interrupt), a `schedule`, and the
second half of `__sleepon`.

The tasks but the idle one are `Fin n`; a node of the run queue is a task
or, as `none`, the idle task. A pointer to a wait entry is the task on
whose stack it lies, or `NULL`. `schedule` looks for the task with most
ticks left; here it takes any task of the run queue.
-/
import Mathlib.Data.Fintype.Basic
import Mathlib.Data.List.FinRange
import Cnix.Basic
import Cnix.Lib.Chain
import Cnix.Lib.Links
import Cnix.Lib.Runs

namespace Cnix.Kernel

open Lib

/-- `TASK_RUNNING` and so on. `TASK_STOPPED` is never set. -/
inductive TaskState
  | running
  | interruptible
  | uninterruptible
  | zombie
  deriving DecidableEq, Repr

/-- Where a task is in `__sleepon`: outside, about to call `schedule`, or
in there. -/
inductive Place
  | out
  | entered (q : Nat)
  | waiting (q : Nat)
  deriving DecidableEq, Repr

/-- The task has called `schedule` in `__sleepon`. -/
def Place.isWaiting : Place → Bool
  | .waiting _ => true
  | _ => false

structure Sched (n : Nat) where
  state : Fin n → TaskState
  run : Links (Option (Fin n))
  -- `next` of the wait entries, and the wait queues
  next : Option (Fin n) → Option (Fin n)
  head : Nat → Option (Fin n)
  current : Option (Fin n)
  place : Fin n → Place

namespace Sched

variable {n : Nat} (s : Sched n)

def setState (t : Fin n) (st : TaskState) : Sched n :=
  { s with state := Function.update s.state t st }

def setPlace (t : Fin n) (p : Place) : Sched n := { s with place := Function.update s.place t p }

-- ======== the run queue

/-- `list_empty(run_queue)`. -/
def runEmpty : Bool := s.run.prev none = none

/-- `add_run`. -/
def addRun (t : Fin n) : Sched n :=
  { s with run := if s.runEmpty then s.run.insertHead none (some t) else s.run.insertTail none (some t) }

/-- `del_run`. -/
def delRun (t : Fin n) : Sched n := { s with run := s.run.unlink (some t) }

/-- The loop of `schedule` over the run queue. -/
def runnable : Option (List (Option (Fin n))) := s.run.visit none n (s.run.next none)

/-- `schedule`, when it chooses `pick`. -/
def schedule (pick : Option (Fin n)) : Option (Sched n) :=
  if s.runEmpty then some { s with current := none }
  else if s.runnable.any (fun l => pick.isSome && l.contains pick) then some { s with current := pick }
  else none

-- ======== the wait queues

/-- `add_wait_queue`. -/
def addWaitQueue (q : Nat) (t : Fin n) : Sched n :=
  { s with
    next := Function.update s.next (some t) (s.head q)
    head := Function.update s.head q (some t) }

/-- `remove_wait_queue`. -/
def removeWaitQueue (q : Nat) (t : Fin n) : Except Trap (Sched n) :=
  if s.head q = some t then
    .ok { s with
      head := Function.update s.head q (s.next (some t))
      next := Function.update s.next (some t) none }
  else
    match before s.next none (some t) n (s.head q) with
    | none => .error (.die .removeWaitQueue)
    | some tmp =>
      let next := Function.update s.next tmp (s.next (some t))
      .ok { s with next := Function.update next (some t) none }

/-- What `wakeup` does for one entry. -/
def wake (t : Fin n) : Sched n :=
  match s.state t with
  | .interruptible | .uninterruptible => (s.setState t .running).addRun t
  | _ => s

/-- The loop of `wakeup`. It never ends if the chain does not; `fuel` turns
are followed. -/
def wakeLoop : Nat → Option (Fin n) → Sched n → Option (Sched n)
  | _, none, s => some s
  | 0, some _, _ => none
  | fuel + 1, some t, s => wakeLoop fuel (s.next (some t)) (s.wake t)

/-- `wakeup`. -/
def wakeup (q : Nat) : Option (Sched n) := wakeLoop n (s.head q) s

-- ======== __sleepon

/-- `__sleepon` up to its call of `schedule`. -/
def sleepon (q : Nat) (st : TaskState) : Except Trap (Sched n) :=
  match s.current with
  | none => .error (.die .sleepon)
  | some t => .ok ((((s.delRun t).setState t st).addWaitQueue q t).setPlace t (.entered q))

/-- The task that calls `schedule` in `__sleepon` waits there. -/
def settle : Sched n :=
  match s.current with
  | none => s
  | some t =>
    match s.place t with
    | .entered q => s.setPlace t (.waiting q)
    | _ => s

end Sched

-- ======== runs

/-- What happens: the running task goes to sleep, a queue is woken up, the
running task calls `schedule`, and it comes back to `__sleepon`. -/
inductive SchedEvent (n : Nat)
  | sleep (q : Nat) (interruptible : Bool)
  | wakeup (q : Nat)
  | schedule (pick : Option (Fin n))
  | resume
  deriving DecidableEq

/-- The running task is in the state to make the event happen. Only a
task that is not idle goes to sleep. -/
def SchedEvent.Fair {n : Nat} (s : Sched n) : SchedEvent n → Prop
  | .sleep _ _ => ∃ t, s.current = some t ∧ s.place t = .out
  | .wakeup _ => True
  | .schedule _ => ∀ t, s.current = some t → (s.place t).isWaiting = false
  | .resume => ∃ t, s.current = some t ∧ (s.place t).isWaiting = true

instance SchedEvent.decidableFair {n : Nat} (s : Sched n) (e : SchedEvent n) : Decidable (e.Fair s) := by
  unfold SchedEvent.Fair
  cases e <;> infer_instance

/-- What it does. -/
def SchedEvent.apply {n : Nat} (s : Sched n) : SchedEvent n → Option (Sched n)
  | .sleep q interruptible =>
    (s.sleepon q (if interruptible then .interruptible else .uninterruptible)).toOption
  | .wakeup q => s.wakeup q
  | .schedule pick => s.settle.schedule pick
  | .resume =>
    match s.current with
    | none => none
    | some t =>
      match s.place t with
      | .waiting q => ((s.removeWaitQueue q t).map fun s => s.setPlace t .out).toOption
      | _ => none

/-- A task is created. -/
def Sched.fork {n : Nat} (s : Sched n) (t : Fin n) : Sched n := (s.setState t .running).addRun t

/-- Before any task is created. -/
def Sched.idle (n : Nat) : Sched n where
  state := fun _ => .zombie
  run := ⟨fun a => a, fun a => a⟩
  next := fun _ => none
  head := fun _ => none
  current := none
  place := fun _ => .out

/-- All tasks have been created. -/
def Sched.boot (n : Nat) : Sched n := (List.finRange n).foldl Sched.fork (Sched.idle n)

/-- All tasks are on the run queue, and nobody sleeps. -/
structure Sched.First {n : Nat} (s : Sched n) : Prop where
  run : ∃ l : List (Fin n), s.run.Ring none (l.map some) ∧ ∀ t, t ∈ l
  state : ∀ t, s.state t = .running
  head : ∀ q, s.head q = none
  place : ∀ t, s.place t = .out

/-- The runs of tasks that sleep and are woken up. -/
abbrev SchedRun {n : Nat} : Sched n → Prop := Reached Sched.First SchedEvent.apply SchedEvent.Fair

end Cnix.Kernel
