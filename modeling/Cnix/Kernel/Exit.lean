/-
The end of a process: `do_exit` from where it marks the task a zombie, with
`mmap_free_all` and `iput`, and `do_wait` of its father, over the queues of
the scheduler.

`do_exit` takes the task off the run queue, makes it a zombie, and only
then puts the inodes of its mappings. `iput` goes to sleep on an inode that
another process has locked, and may go to sleep on a buffer where it cuts
the file off (`truncate`, `ifree`) or writes the inode back (`iwrite`). A
sleep takes the task off the run queue once more and gives it another
state, and whoever wakes it up puts it back on the run queue.

`Life` says how far a task has come. The pieces of `iput` between two
places where it may sleep are one step each; the inode is found at each of
them as the others left it (`ExitEvent.inode`). Only a regular file or a
character device can be mapped, so that each inode has a device. The queue
numbered as the inode is its `i_wait`; the calls of `wakeup` in `iput` and
in `do_exit` are steps of their own. Who the father of a task is has been
left out: any task may wait for any other.
-/
import Cnix.Kernel.Sched

namespace Cnix.Kernel

open Lib

/-- What `iput` looks at. -/
structure MapInode where
  locked : Bool
  count : Nat
  nlinks : Nat
  dirty : Bool
  deriving DecidableEq, Repr

/-- Where a task is in `iput`: at `ilock`, in `truncate` or `ifree`, or in
`iwrite`. -/
inductive PutPoint
  | lock
  | cut
  | write
  deriving DecidableEq, Repr

/-- How far a task has come: before it is marked a zombie, in
`mmap_free_all` with these inodes left, and after its last `schedule`. -/
inductive Life
  | alive
  | dying (maps : List Nat) (point : PutPoint)
  | gone
  deriving DecidableEq, Repr

namespace Life

def isAlive : Life → Bool
  | .alive => true
  | _ => false

/-- It has an inode to put. -/
def puts : Life → Bool
  | .dying (_ :: _) _ => true
  | _ => false

/-- It is where blocks are read. -/
def blocks : Life → Bool
  | .dying (_ :: _) .cut | .dying (_ :: _) .write => true
  | _ => false

/-- It has put all of them. -/
def ends : Life → Bool
  | .dying [] _ => true
  | _ => false

end Life

structure Exits (n : Nat) where
  sched : Sched n
  inode : Nat → MapInode
  -- the inodes of the mappings, the last mapping first
  mmap : Fin n → List Nat
  life : Fin n → Life
  -- the page with the task and its kernel stack has not been freed
  page : Fin n → Bool

namespace Exits

variable {n : Nat} (s : Exits n)

def setSched (sched : Sched n) : Exits n := { s with sched }

def setInode (i : Nat) (x : MapInode) : Exits n := { s with inode := Function.update s.inode i x }

def setLife (t : Fin n) (l : Life) : Exits n := { s with life := Function.update s.life t l }

/-- `do_exit` up to `mmap_free_all`. -/
def exit (t : Fin n) : Exits n :=
  (s.setSched ((s.sched.delRun t).setState t .zombie)).setLife t (.dying (s.mmap t) .lock)

/-- The end of `iput`, and on to the next mapping. -/
def unlock (t : Fin n) (i : Nat) (rest : List Nat) : Exits n :=
  (s.setInode i { s.inode i with locked := false }).setLife t (.dying rest .lock)

/-- `if(inoptr->i_dirty && ..) iwrite(inoptr);` and on. -/
def writeBack (t : Fin n) (i : Nat) (rest : List Nat) : Exits n :=
  if (s.inode i).dirty then s.setLife t (.dying (i :: rest) .write) else s.unlock t i rest

/-- `iput` from `ilock` on. -/
def iput (t : Fin n) (i : Nat) (rest : List Nat) : Option (Exits n) :=
  if (s.inode i).locked then (s.sched.sleepon i .uninterruptible).toOption.map s.setSched
  else
    let x := s.inode i
    let s := s.setInode i { x with locked := true, count := x.count - 1 }
    if x.count - 1 = 0 ∧ x.nlinks = 0 then some (s.setLife t (.dying (i :: rest) .cut))
    else some (s.writeBack t i rest)

/-- The next piece of `mmap_free_all`. -/
def put (t : Fin n) : Option (Exits n) :=
  match s.life t with
  | .dying (i :: rest) .lock => s.iput t i rest
  | .dying (i :: rest) .cut => some (s.writeBack t i rest)
  | .dying (i :: rest) .write =>
    some ((s.setInode i { s.inode i with dirty := false }).unlock t i rest)
  | _ => none

/-- The last `schedule` of `do_exit`. -/
def leave (t : Fin n) (pick : Option (Fin n)) : Option (Exits n) :=
  (s.sched.schedule pick).map (s.setLife t .gone).setSched

/-- `do_wait`, when it finds the child `c`. -/
def wait (c : Fin n) : Option (Exits n) :=
  if s.sched.state c = .zombie ∧ s.page c then some { s with page := Function.update s.page c false }
  else none

/-- The running task is outside `sleepon`, at such a place. -/
def Acts (p : Life → Bool) : Prop :=
  ∃ t, s.sched.current = some t ∧ s.sched.place t = .out ∧ p (s.life t) = true

instance (p : Life → Bool) : Decidable (s.Acts p) := inferInstanceAs (Decidable (∃ _, _))

end Exits

-- ======== runs

/-- What happens: the scheduler's events, a task is marked a zombie, goes
on in `iput`, sleeps on a buffer there, calls `schedule` for the last time,
is waited for, and an inode or the mappings of a task change. -/
inductive ExitEvent (n : Nat)
  | sched (e : SchedEvent n)
  | exit
  | put
  | block (q : Nat)
  | leave (pick : Option (Fin n))
  | wait (c : Fin n)
  | inode (i : Nat) (x : MapInode)
  | mmap (maps : List Nat)

/-- A task that exits calls `schedule` only at its end and in `sleepon`. -/
def SchedEvent.Lives {n : Nat} (s : Exits n) : SchedEvent n → Prop
  | .sleep _ _ => s.Acts Life.isAlive
  | .wakeup _ | .resume => True
  | .schedule _ => ∀ t, s.sched.current = some t → s.life t = .alive ∨ s.sched.place t ≠ .out

instance {n : Nat} (s : Exits n) (e : SchedEvent n) : Decidable (e.Lives s) := by
  unfold SchedEvent.Lives
  induction e using SchedEvent.casesOn <;> infer_instance

/-- The running task is in the state to make the event happen. -/
def ExitEvent.Fair {n : Nat} (s : Exits n) : ExitEvent n → Prop
  | .sched e => e.Fair s.sched ∧ e.Lives s
  | .exit | .wait _ | .inode _ _ | .mmap _ => s.Acts Life.isAlive
  | .put => s.Acts Life.puts
  | .block _ => s.Acts Life.blocks
  | .leave _ => s.Acts Life.ends

instance ExitEvent.decidableFair {n : Nat} (s : Exits n) (e : ExitEvent n) : Decidable (e.Fair s) := by
  unfold ExitEvent.Fair
  cases e <;> infer_instance

/-- What it does. -/
def ExitEvent.apply {n : Nat} (s : Exits n) : ExitEvent n → Option (Exits n)
  | .sched e => (e.apply s.sched).map s.setSched
  | .exit => s.sched.current.map s.exit
  | .put => s.sched.current.bind s.put
  | .block q => (s.sched.sleepon q .uninterruptible).toOption.map s.setSched
  | .leave pick => s.sched.current.bind fun t => s.leave t pick
  | .wait c => s.wait c
  | .inode i x => some (s.setInode i x)
  | .mmap maps => s.sched.current.map fun t => { s with mmap := Function.update s.mmap t maps }

/-- Nobody has exited. -/
structure Exits.First {n : Nat} (s : Exits n) : Prop where
  sched : s.sched.First
  life : ∀ t, s.life t = .alive
  page : ∀ t, s.page t = true

/-- The runs of tasks that exit and are waited for. -/
abbrev ExitRun {n : Nat} (ok : Exits n → ExitEvent n → Prop) : Exits n → Prop :=
  Reached Exits.First ExitEvent.apply ok

/-- All tasks have been created, and each has mapped the file `i`. -/
def Exits.boot (n i : Nat) (x : MapInode) : Exits n where
  sched := Sched.boot n
  inode := fun _ => x
  mmap := fun _ => [i]
  life := fun _ => .alive
  page := fun _ => true

end Cnix.Kernel
