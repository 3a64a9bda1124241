/-
The table of processes: `fork`, `exit`, `wait`, and the process groups.

# The state

`task` is the table of `kernel/sched.c`. A process that has exited stays
there, as a zombie, until its father has waited for it. The children of a
process are a list, and the processes of a group are a ring without a
head, through `pglist`; a zombie is on no ring, but `list_del` leaves its
own two pointers as they were. The nodes are named by the pids: the page
of a process is freed together with its place in the table.

# Steps

The kernel does not preempt a process, and none of these calls sleeps but
`wait`, so a call is one step, and so is what a process does after it was
woken up in `wait`. `exit` is the part of `do_exit` after the files are
closed; what it does to the memory of the process is left out, as are the
signals it sends.

Three fields are there for the proofs only: every process has a number of
its own (`serial`), `code` is what a process gave to `exit`, and `reaped`
lists who was waited for.
-/
import Mathlib.Data.Finset.Basic
import Mathlib.Data.Int.Notation
import Cnix.Lib.Rings
import Cnix.Lib.Runs

namespace Cnix.Kernel

open Lib
open Function (update)

/-- `NR_TASKS`, `IDLEPID`, `INITPID` and `NOTTY`. -/
def nrTasks : Nat := 64
def idlepid : Nat := 0
def initpid : Nat := 1
def notty : Nat := 11

/-- `WNOHANG` and `WUNTRACED`. -/
def wnohang : Nat := 1
def wuntraced : Nat := 2

/-- The fields of `struct task_struct` for the family and the group. -/
structure Task where
  ppid : Nat
  pgid : Nat
  session : Nat
  tty : Nat
  uid : Nat
  euid : Nat
  zombie : Bool
  exitCode : Int
  serial : Nat
  deriving DecidableEq

/-- What a process waits for. -/
inductive WaitReq
  | wait (option : Nat)
  | waitpid (pid : Int) (option : Nat)
  deriving DecidableEq

/-- What `do_wait` and `do_waitpid` return, with what they store for the
caller. -/
inductive WaitResult
  | echild
  | einval
  | eintr
  | zero
  | child (pid : Nat) (status : Int)
  deriving DecidableEq

structure Tasks where
  task : Nat → Option Task
  clist : Nat → List Nat
  pglist : Links Nat
  -- `t_owner` of the terminals
  owner : Nat → Nat
  nextPid : Nat
  -- who sleeps in `wait`
  waits : Nat → Option WaitReq
  born : Nat
  code : Nat → Option Int
  reaped : List Nat

namespace Tasks

variable (t : Tasks) (cur : Nat)

/-- The process has not exited. -/
def Live (p : Nat) : Prop := ∃ tp, t.task p = some tp ∧ tp.zombie = false

instance (p : Nat) : Decidable (t.Live p) :=
  decidable_of_iff ((t.task p).any fun tp => !tp.zombie) <| by
    unfold Live
    cases t.task p <;> simp

/-- `task[p]->pgid`. -/
def pgid (p : Nat) : Nat := (t.task p).elim 0 Task.pgid

/-- Change the entries of some processes. -/
def change (who : List Nat) (f : Task → Task) : Tasks :=
  { t with task := fun q => if q ∈ who then (t.task q).map f else t.task q }

-- ======== fork

/-- The loop of `find_empty_process`. -/
def findLoop : Nat → Nat → Option Nat
  | 0, _ => none
  | left + 1, i =>
    if (t.task i).isNone then some i
    else findLoop left (if i = nrTasks - 1 then 2 else i + 1)

/-- `find_empty_process`. -/
def findEmptyProcess : Option Nat := t.findLoop nrTasks t.nextPid

/-- `copy_process`, when there is memory. -/
def copyProcess (nr : Nat) (p : Task) : Tasks :=
  { t with
    task := update t.task nr (some { p with ppid := cur, serial := t.born })
    clist := update (update t.clist nr []) cur (nr :: t.clist cur)
    pglist := t.pglist.insertHead cur nr
    born := t.born + 1 }

/-- `sys_fork` and `kernel_thread`. `mem` says if there is memory. -/
def fork (mem : Bool) : Option Tasks :=
  match t.findEmptyProcess, t.task cur with
  | none, _ => some t
  | some nr, some p =>
    let t := { t with nextPid := nr % (nrTasks - 1) + 1 }
    if mem then some (t.copyProcess cur nr p) else some t
  | _, none => none

-- ======== groups

/-- `list_empty(&task[p]->pglist)`. -/
def alone (p : Nat) : Bool := t.pglist.prev p = p

/-- The loop `list_foreach` over the ring of a process meets the others. -/
def others (p : Nat) : Option (List Nat) := t.pglist.visit p nrTasks (t.pglist.next p)

/-- The loop `foreach` meets the process first. -/
def members (p : Nat) : Option (List Nat) := (t.others p).map (p :: ·)

/-- The terminal of a process. -/
def terminal (p : Task) : Nat := if p.tty = notty then notty else p.tty - 1

/-- The process owns its terminal. -/
def owns (p : Nat) (tp : Task) : Bool := terminal tp ≠ notty ∧ t.owner (terminal tp) = p

def setOwner (tty p : Nat) : Tasks := { t with owner := update t.owner tty p }

/-- A process that exits leaves its group. -/
def leaveGroup (p : Task) : Option Tasks :=
  if t.alone cur then some (if t.owns cur p then t.setOwner (terminal p) 0 else t)
  else
    (t.others cur).map fun others =>
      let first := t.pglist.next cur
      let t :=
        if t.owns cur p then (t.setOwner (terminal p) 0).change others ({ · with tty := notty }) else t
      let t := if cur = p.pgid then t.change others ({ · with pgid := first }) else t
      { t with pglist := t.pglist.unlink cur }

inductive GroupErrno
  | einval
  | esrch
  | eperm
  deriving DecidableEq

/-- The checks of `sys_setpgid`: which process moves, if any. -/
def checkPgid (pid pgid : Int) : Except GroupErrno (Option Nat) :=
  if pid < 0 ∨ pid > nrTasks - 1 then .error .einval
  else if pgid < 0 ∨ pgid > nrTasks - 1 then .error .einval
  else
    match t.task pid.toNat, t.task pgid.toNat with
    | some a, some b =>
      if a.session ≠ b.session then .error .eperm
      else
        let pid := if pid = 0 then cur else pid.toNat
        match t.task pid with
        | none => .error .esrch
        | some p =>
          if p.pgid = pgid.toNat then .ok none
          else if pid = pgid.toNat then
            if cur ≠ pid ∧ cur ≠ p.ppid then .error .eperm else .ok (some pid)
          else if pgid.toNat ≠ b.pgid then .error .einval
          else if cur ≠ pid ∧ cur ≠ p.ppid then .error .eperm
          else .ok (some pid)
    | _, _ => .error .esrch

/-- The rest of `sys_setpgid`. -/
def moveGroup (pid pgid : Nat) (p : Task) : Option Tasks :=
  let left :=
    if t.alone pid then some (if t.owns pid p then t.setOwner (terminal p) 0 else t)
    else
      (t.others pid).map fun others =>
        let first := t.pglist.next pid
        let t := if t.owns pid p then t.setOwner (terminal p) first else t
        let t := if pid = p.pgid then t.change others ({ · with pgid := first }) else t
        { t with pglist := t.pglist.isolate pid }
  left.map fun t =>
    let tty := (t.task pgid).elim 0 Task.tty
    t.change [pid] fun p => { p with pgid := pgid, tty := if pid = pgid then p.tty else tty }

/-- `sys_setpgid`. -/
def setpgid (pid pgid : Int) : Option (Except GroupErrno Tasks) :=
  match t.checkPgid cur pid pgid with
  | .error e => some (.error e)
  | .ok none => some (.ok t)
  | .ok (some pid) => ((t.task pid).bind fun p => t.moveGroup pid pgid.toNat p).map .ok

/-- `sys_setsid`. -/
def setsid : Option (Except GroupErrno Tasks) :=
  (t.setpgid cur cur cur).map fun res =>
    res.map fun t => t.change [cur] ({ · with tty := notty, session := cur })

/-- `tty_open` of terminal `dev`, when it can be opened. -/
def ttyOpen (cur dev : Nat) (noctty : Bool) : Option Tasks :=
  (t.task cur).map fun p =>
    if t.owner (dev - 1) = 0 ∧ noctty = false ∧ p.tty = notty then
      (t.setOwner (dev - 1) cur).change [cur] ({ · with tty := dev })
    else t

/-- `sys_kill` of a group: to whom it sends the signal. -/
def killGroup (cur g : Nat) : Option (Except GroupErrno (List Nat)) :=
  if g ≤ 1 then some (.error .einval)
  else
    match t.task cur, t.task g with
    | some c, some p =>
      if p.pgid ≠ g then some (.error .esrch)
      else if c.euid ≠ 0 ∧ c.euid ≠ p.euid ∧ c.uid ≠ p.uid then some (.error .eperm)
      else (t.members g).map .ok
    | _, _ => some (.error .esrch)

/-- `kbd_sig`: to whom it sends the signal. -/
def kbdSig (tty : Nat) : Option (List Nat) :=
  if t.owner tty = 0 then some [] else t.members (t.owner tty)

-- ======== exit

/-- The children of the process get `init` for a father. Moving the
children of `init` to the end of their own list never ends if there are
two. -/
def adopt : Option Tasks :=
  if cur = initpid then if 2 ≤ (t.clist cur).length then none else some t
  else
    let children := t.clist cur
    let t := t.change children ({ · with ppid := initpid })
    some { t with
      clist := update (update t.clist initpid (t.clist initpid ++ children)) cur [] }

/-- The process is marked. -/
def bury (code : Int) : Tasks :=
  { t.change [cur] ({ · with zombie := true, exitCode := code }) with
    code := (t.task cur).elim t.code fun p => update t.code p.serial (some code) }

/-- `do_exit`. -/
def exit (code : Int) : Option Tasks :=
  (t.adopt cur).bind fun t =>
    (t.task cur).bind fun p => (t.leaveGroup cur p).map fun t => t.bury cur code

-- ======== wait

def zombie (p : Nat) : Bool := (t.task p).any Task.zombie

/-- The zombie is taken off the list and freed. -/
def reap (cur child : Nat) (p : Task) : Tasks :=
  { t with
    task := update t.task child none
    clist := update t.clist cur ((t.clist cur).erase child)
    waits := update t.waits cur none
    reaped := p.serial :: t.reaped }

/-- The call returns without a child. -/
def back : Tasks := { t with waits := update t.waits cur none }

/-- The process sleeps in `wait`. -/
def park (req : WaitReq) : Tasks :=
  { t with waits := update t.waits cur (some req) }

/-- The child that `do_waitpid` comes to. -/
def chosen (pid : Int) : Option Nat :=
  if 0 < pid then (t.clist cur).find? fun c => (c : Int) = pid
  else
    let grp := if pid = 0 then (t.pgid cur : Int) else -pid
    let group := (t.clist cur).filter fun c => (t.pgid c : Int) = grp
    match group.find? t.zombie with
    | some c => some c
    | none => group.getLast?

/-- What is done about the child: it is reaped, or the process returns or
sleeps. -/
def attend (req : WaitReq) (option : Nat) (child : Nat) : Option (Tasks × Option WaitResult) :=
  (t.task child).map fun p =>
    if p.zombie then (t.reap cur child p, some (.child child p.exitCode))
    else if option = wnohang then (t.back cur, some .zero)
    else (t.park cur req, none)

/-- The label `check_again` of `do_wait`: the first zombie, or the last
child. -/
def checkAgain (cur option : Nat) : Option (Tasks × Option WaitResult) :=
  match (t.clist cur).find? t.zombie with
  | some c => t.attend cur (.wait option) option c
  | none => (t.clist cur).getLast?.bind fun c => t.attend cur (.wait option) option c

/-- The label `do_again` of `do_waitpid`. -/
def doAgain (pid : Int) (option : Nat) : Option (Tasks × Option WaitResult) :=
  match t.chosen cur pid with
  | none => some (t.back cur, some .echild)
  | some c => t.attend cur (.waitpid pid option) option c

/-- `do_wait`. -/
def doWait (cur option : Nat) : Option (Tasks × Option WaitResult) :=
  if t.clist cur = [] then some (t.back cur, some .echild) else t.checkAgain cur option

/-- `do_waitpid`. -/
def doWaitpid (pid : Int) (option : Nat) : Option (Tasks × Option WaitResult) :=
  if t.clist cur = [] then some (t.back cur, some .echild)
  else if option ≠ 0 ∧ option ≠ wnohang ∧ option ≠ wuntraced then some (t.back cur, some .einval)
  else if pid = -1 then t.doWait cur option
  else t.doAgain cur pid option

/-- The process was woken up in `wait`, by a signal if `intr` is set. -/
def wake (intr : Bool) : Option (Tasks × Option WaitResult) :=
  (t.waits cur).bind fun req =>
    if intr then some (t.back cur, some .eintr)
    else
      match req with
      | .wait option => t.checkAgain cur option
      | .waitpid pid option => t.doAgain cur pid option

end Tasks

-- ======== runs

/-- What a process does. -/
inductive TaskEvent
  | fork (cur : Nat) (mem : Bool)
  | exit (cur : Nat) (code : Int)
  | wait (cur option : Nat)
  | waitpid (cur : Nat) (pid : Int) (option : Nat)
  | wake (cur : Nat) (intr : Bool)
  | setpgid (cur : Nat) (pid pgid : Int)
  | setsid (cur : Nat)
  | ttyOpen (cur dev : Nat) (noctty : Bool)
  deriving DecidableEq

namespace TaskEvent

/-- The result of a `wait` that does not sleep. -/
def outcome (t : Tasks) : TaskEvent → Option (Tasks × Option WaitResult)
  | .wait cur option => t.doWait cur option
  | .waitpid cur pid option => t.doWaitpid cur pid option
  | .wake cur intr => t.wake cur intr
  | _ => none

/-- A call that fails changes nothing. -/
def settled (t : Tasks) : Option (Except Tasks.GroupErrno Tasks) → Option Tasks
  | none => none
  | some (.error _) => some t
  | some (.ok t) => some t

def apply (t : Tasks) : TaskEvent → Option Tasks
  | .fork cur mem => t.fork cur mem
  | .exit cur code => t.exit cur code
  | .setpgid cur pid pgid => settled t (t.setpgid cur pid pgid)
  | .setsid cur => settled t (t.setsid cur)
  | .ttyOpen cur dev noctty => t.ttyOpen cur dev noctty
  | e => (e.outcome t).map Prod.fst

/-- Who does it. -/
def caller : TaskEvent → Nat
  | .fork cur _ | .exit cur _ | .wait cur _ | .waitpid cur _ _ | .wake cur _ | .setpgid cur _ _
  | .setsid cur | .ttyOpen cur _ _ => cur

/-- The process lives, and it is in no other call. The idle process does
not exit. -/
def Fair (t : Tasks) (e : TaskEvent) : Prop :=
  t.Live e.caller ∧ match e with
    | .wake cur _ => t.waits cur ≠ none
    | .exit cur _ => t.waits cur = none ∧ cur ≠ idlepid
    | .ttyOpen cur dev _ => t.waits cur = none ∧ 0 < dev ∧ dev < notty
    | e => t.waits e.caller = none

instance decidableFair (t : Tasks) (e : TaskEvent) : Decidable (e.Fair t) := by
  unfold Fair
  cases e <;> infer_instance

end TaskEvent

/-- The idle process of `sched_init`. -/
def idleTask : Task := ⟨idlepid, idlepid, idlepid, notty, 0, 0, false, 0, 0⟩

def schedInit : Tasks where
  task := fun p => if p = idlepid then some idleTask else none
  clist := fun _ => []
  pglist := ⟨fun p => p, fun p => p⟩
  owner := fun _ => 0
  nextPid := 1
  waits := fun _ => none
  born := 1
  code := fun _ => none
  reaped := []

/-- The idle process has made `init`. -/
def tasksInit : Tasks := { schedInit with nextPid := 2 }.copyProcess idlepid initpid idleTask

/-- The runs of processes whose steps all meet `ok`. -/
abbrev TaskRun (ok : Tasks → TaskEvent → Prop) : Tasks → Prop :=
  Reached (· = tasksInit) TaskEvent.apply ok

end Cnix.Kernel
