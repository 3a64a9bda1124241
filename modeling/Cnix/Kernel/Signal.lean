/-
Signals: `kernel/signal.c` and the calls of `kernel/syscall.c` that set
handlers and masks.

# The state

A task has a set of pending signals, a set of blocked ones, one place to
save the latter, and a handler and a mask for each signal. Bit `i` of a
set stands for signal number `i + 1`. Interrupts are locked out where
the source locks them out, so every function is one step.

# Pointers of the user

A pointer argument is an address and what it points to, or `NULL`.
`cklimit` lets addresses below `PAGE_SIZE` pass, so that `SIG_DFL` and
`SIG_IGN` pass. The frame that `do_with_signal` pushes on the stack of
the user is left out, apart from the code segment in it, which
`do_sigreturn` looks at.
-/
import Cnix.Basic

namespace Cnix.Kernel

/-- `SIGNR`. -/
def signr : Nat := 32

/-- `SIGKILL - 1` and `SIGSTOP - 1`. -/
def sigkill : Nat := 8
def sigstop : Nat := 18

/-- `sigset_t`. -/
abbrev Sigset := BitVec 32

/-- `1 << signum`. -/
def sigbit (signum : Nat) : Sigset := 1#32 <<< signum

/-- `CANNOTBLOCKSIG`. -/
def cannotblocksig : Sigset := sigbit sigkill ||| sigbit sigstop

/-- `sighandler_t`, an address. -/
abbrev Handler := BitVec 32

/-- `SIG_DFL` and `SIG_IGN`. -/
def sigDfl : Handler := 0#32
def sigIgn : Handler := 1#32

/-- `struct sigaction`. -/
structure Sigaction where
  handler : Handler
  mask : Sigset
  flags : BitVec 32
  deriving DecidableEq, Repr

/-- The fields of `struct task_struct` that signals use. -/
structure SigTask where
  pid : Nat
  check : Bool
  signal : Sigset
  blocked : Sigset
  blockedSaved : Sigset
  sigaction : Nat → Sigaction

/-- What is done about a signal that has no handler. -/
inductive Default
  | ign
  | kill
  deriving DecidableEq, Repr

/-- `def_action`. -/
def defAction (signum : Nat) : Default :=
  if 16 ≤ signum ∧ signum ≤ 21 then .ign else .kill

/-- `EINTR`, `EFAULT` and `EINVAL`. -/
inductive SigErrno
  | eintr
  | efault
  | einval
  deriving DecidableEq, Repr

/-- A pointer of the user: the address, and what is there. -/
structure UserPtr (α : Type) where
  addr : BitVec 32
  val : α
  deriving DecidableEq, Repr

/-- `cklimit`. -/
def cklimit (t : SigTask) (param : BitVec 32) : Bool :=
  t.check && decide (pageSize ≤ param.toNat) && decide (param.toNat < userAddr)

/-- `ckoverflow`. -/
def ckoverflow (t : SigTask) (param size : BitVec 32) : Bool :=
  t.check && param != 0 && decide (param + size < param)

/-- The sizes of `sigset_t` and of `struct sigaction`. -/
def sigsetSize : BitVec 32 := 4#32
def sigactionSize : BitVec 32 := 12#32

namespace SigTask

variable (t : SigTask)

/-- A signal is pending and not blocked. -/
def ready (signum : Nat) : Bool :=
  t.signal.getLsbD signum && !t.blocked.getLsbD signum

/-- `current->signal &= ~(1 << signum)`. -/
def clear (signum : Nat) : SigTask := { t with signal := t.signal &&& ~~~sigbit signum }

/-- The signal is ignored, by the process or by default. -/
def ignores (signum : Nat) : Bool :=
  (t.sigaction signum).handler == sigIgn
    || (t.sigaction signum).handler == sigDfl && defAction signum == .ign

end SigTask

-- ======== do_with_signal

/-- How `do_with_signal` ends: it returns, the handler of a signal is
entered, or the process exits. -/
inductive Outcome
  | back (t : SigTask)
  | handler (signum : Nat) (t : SigTask)
  | exit (code : Nat)

/-- The handler of a signal is entered: its mask takes the place of the
mask, which is saved. -/
def enterHandler (t : SigTask) (signum : Nat) : SigTask :=
  { t with blockedSaved := t.blocked, blocked := (t.sigaction signum).mask }

/-- `do_with_signal` from signal `signum` on, `left` signals being left. -/
def checkAgain : Nat → Nat → SigTask → Outcome
  | 0, _, t => .back t
  | left + 1, signum, t =>
    if !t.ready signum then checkAgain left (signum + 1) t
    else
      let t := t.clear signum
      if t.pid ≤ 1 then .back t
      else if t.ignores signum then
        if t.signal ≠ 0 then checkAgain left (signum + 1) t else .back t
      else if (t.sigaction signum).handler = sigDfl then .exit (signum + 1)
      else .handler signum (enterHandler t signum)

/-- `do_with_signal`, which is called when a signal is pending. -/
def doWithSignal (t : SigTask) : Outcome := checkAgain signr 0 t

/-- `anysig` from signal `signum` on, `left` signals being left. -/
def anysigFrom : Nat → Nat → SigTask → Bool
  | 0, _, _ => false
  | left + 1, signum, t =>
    if !t.ready signum then anysigFrom left (signum + 1) t
    else if t.ignores signum then
      if t.signal ≠ 0 then anysigFrom left (signum + 1) t else false
    else true

/-- `anysig`, which looks at the running process, whatever its argument. -/
def anysig (t : SigTask) : Bool := if t.signal = 0 then false else anysigFrom signr 0 t

/-- The code segment of the user. -/
def userCs : Nat := 0x1b

/-- `do_sigreturn`, `cs` being what the frame holds. -/
def doSigreturn (cs : Nat) (t : SigTask) : SigTask :=
  if cs = userCs then
    if t.blockedSaved ≠ 0 then { t with blocked := t.blockedSaved, blockedSaved := 0 } else t
  else t

/-- `sendsig` of signal number `signum + 1`. -/
def sendsig (signum : Nat) (t : SigTask) : SigTask :=
  if t.ignores signum then t else { t with signal := t.signal ||| sigbit signum }

-- ======== calls

/-- `sys_signal`: the old handler, or `SIG_ERR`. -/
def sysSignal (signum : Int) (handler : Handler) (t : SigTask) : Option Handler × SigTask :=
  if signum < 1 ∨ signr < signum then (none, t)
  else if cklimit t handler then (none, t)
  else
    let i := signum.toNat - 1
    let old := t.sigaction i
    (some old.handler,
      { t with sigaction := Function.update t.sigaction i { old with handler := handler } })

/-- `sys_sigaction`: what is returned, and what is stored at `oact`. -/
def sysSigaction (signum : Int) (act : Option (UserPtr Sigaction)) (oact : Option (BitVec 32))
    (t : SigTask) : Except SigErrno Unit × Option Sigaction × SigTask :=
  if signum < 1 ∨ signr < signum then (.error .einval, none, t)
  else
    let i := signum.toNat - 1
    let stored := oact.map fun _ => t.sigaction i
    if oact.any fun p => cklimit t p || ckoverflow t p sigactionSize then
      (.error .efault, none, t)
    else
      match act with
      | none => (.ok (), stored, t)
      | some p =>
        if cklimit t p.addr then (.error .efault, stored, t)
        else if cklimit t p.val.handler then (.error .efault, stored, t)
        else
          let new := { p.val with mask := p.val.mask &&& ~~~cannotblocksig }
          (.ok (), stored, { t with sigaction := Function.update t.sigaction i new })

/-- The values of `how`. -/
inductive How
  | block
  | unblock
  | setmask
  | other
  deriving DecidableEq, Repr

/-- The mask that `how` makes of the old one. -/
def How.mask (blocked set : Sigset) : How → Option Sigset
  | .block => some (blocked ||| set)
  | .unblock => some (blocked &&& ~~~set)
  | .setmask => some set
  | .other => none

/-- `sys_sigprocmask`: what is returned, and what is stored at `oset`. -/
def sysSigprocmask (how : How) (set : Option (UserPtr Sigset)) (oset : Option (BitVec 32))
    (t : SigTask) : Except SigErrno Unit × Option Sigset × SigTask :=
  if oset.any fun p => cklimit t p || ckoverflow t p sigsetSize then (.error .efault, none, t)
  else
    let stored := oset.map fun _ => t.blocked
    match set with
    | none => (.ok (), stored, t)
    | some p =>
      if cklimit t p.addr || ckoverflow t p.addr sigsetSize then (.error .efault, stored, t)
      else
        match how.mask t.blocked p.val with
        | none => (.error .einval, stored, t)
        | some mask => (.ok (), stored, { t with blocked := mask &&& ~~~cannotblocksig })

/-- `sys_sigsuspend`, up to the point where it sleeps. It returns `EINTR`
when a signal has come. -/
def sysSigsuspend (sigmask : Option (UserPtr Sigset)) (t : SigTask) : SigErrno × SigTask :=
  match sigmask with
  | none => (.efault, t)
  | some p =>
    if cklimit t p.addr || ckoverflow t p.addr sigsetSize then (.efault, t)
    else
      (.eintr, { t with
        blockedSaved := t.blocked
        blocked := p.val &&& ~~~cannotblocksig })

/-- A task as `init_task` sets it up and as `execve` leaves the handlers. -/
def freshTask (pid : Nat) : SigTask where
  pid := pid
  check := true
  signal := 0
  blocked := 0
  blockedSaved := 0
  sigaction := fun _ => ⟨sigDfl, 0, 0⟩

end Cnix.Kernel
