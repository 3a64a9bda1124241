/-
The table of open files and the descriptors of all processes:
`fs/file.c`, `fs/dup.c`, `fs/close.c` and `sys_fcntl`, and what
`copy_process`, `__do_execve` and `do_exit` do with descriptors.

# What is left out

The inode that a call opens is found elsewhere; here it is an argument. A
call that does not find one does not come to this table. `execve` opens
and closes the file it executes like every other call does, so only its
last loop is here.

# History

`opened` lists the entries that were taken, with their inodes, and `put`
those whose inode was given to `iput`.
-/
import Cnix.Fs.Open

namespace Cnix.Fs

/-- `NR_TASKS`. -/
def nrTasks : Nat := 64

/-- The descriptors of a process, with `O_CLOEXEC` of `fflags`. -/
structure Fds where
  file : Nat → Option Nat
  cloexec : Nat → Bool

/-- The open files of all live processes. -/
structure FileTable where
  filps : Nat → Filp
  fromFilp : Nat
  fds : Nat → Option Fds
  opened : List (Nat × Handle)
  put : List (Nat × Handle)

namespace FileTable

variable (tb : FileTable) (pid fd : Nat)

/-- `current->file[fd]`. -/
def file : Option Nat := (tb.fds pid).bind fun f => f.file fd

/-- `current->fflags[fd] & O_CLOEXEC`. -/
def cloexec : Bool := ((tb.fds pid).map fun f => f.cloexec fd).getD false

/-- `current->file[fd] = fp`. -/
def setFile (fp : Option Nat) : FileTable :=
  let fds := (tb.fds pid).map fun f => { f with file := Function.update f.file fd fp }
  { tb with fds := Function.update tb.fds pid fds }

/-- `current->fflags[fd] = flag`. -/
def setCloexec (flag : Bool) : FileTable :=
  let fds := (tb.fds pid).map fun f => { f with cloexec := Function.update f.cloexec fd flag }
  { tb with fds := Function.update tb.fds pid fds }

def setFilp (i : Nat) (fp : Filp) : FileTable :=
  { tb with filps := Function.update tb.filps i fp }

-- ======== file.c

/-- `get_filp`: the first entry from `from_filp` on whose count is 0. -/
def getFilp : Option Nat :=
  ((List.range nrFilp).map fun i => (tb.fromFilp + i) % nrFilp).find? fun i =>
    (tb.filps i).count == 0

/-- `fuse`. -/
def fuse (i : Nat) : FileTable :=
  tb.setFilp i { tb.filps i with count := (tb.filps i).count + 1 }

/-- `ffree`. -/
def ffree (i : Nat) : FileTable :=
  let fp := tb.filps i
  let tb := tb.setFilp i { fp with count := fp.count - 1 }
  if fp.count - 1 = 0 then { tb with put := (i, fp.ino) :: tb.put } else tb

/-- `fdget` from descriptor 0 on, and the descriptor. -/
def fdget (pid mode : Nat) (inoptr : Handle) : Except Errno Nat × FileTable :=
  match (List.range openMax).find? fun fd => (tb.file pid fd).isNone with
  | none => (.error .enfile, tb)
  | some fd =>
    match tb.getFilp with
    | none => (.error .enomem, tb)
    | some i =>
      let tb := { tb with fromFilp := (i + 1) % nrFilp, opened := (i, inoptr) :: tb.opened }
      let tb := tb.setFilp i ⟨1, mode, inoptr, 0⟩
      (.ok fd, (tb.setFile pid fd (some i)).setCloexec pid fd true)

-- ======== calls

/-- `do_close`, which is never called for a descriptor that is not open. -/
def doClose : FileTable :=
  match tb.file pid fd with
  | none => tb
  | some i => (tb.ffree i).setFile pid fd none

/-- `sys_close`. -/
def sysClose : Except Errno Unit × FileTable :=
  if openMax ≤ fd then (.error .einval, tb)
  else if (tb.file pid fd).isNone then (.error .ebadf, tb)
  else (.ok (), tb.doClose pid fd)

/-- `do_dup0`, which `do_dup` calls with 0 and `F_DUPFD` with its
argument. -/
def doDup0 (pid startfd fd : Nat) : Except Errno Nat × FileTable :=
  if openMax ≤ startfd ∨ openMax ≤ fd then (.error .einval, tb)
  else
    match tb.file pid fd with
    | none => (.error .ebadf, tb)
    | some i =>
      let fds := (List.range openMax).map fun k => (startfd + k) % openMax
      match fds.find? fun j => (tb.file pid j).isNone with
      | none => (.error .emfile, tb)
      | some j =>
        (.ok j, ((tb.setFile pid j (some i)).fuse i).setCloexec pid j (tb.cloexec pid fd))

/-- The requests of `sys_fcntl`. -/
inductive Fcntl
  | dupfd
  | getfd
  | setfd
  -- `F_GETFL`, `F_SETFL`, `F_GETOWN` and `F_SETOWN`
  | ignored
  | unknown

/-- `sys_fcntl`. `F_SETFD` sets the flag and never clears it. -/
def sysFcntl (request : Fcntl) (data : Nat) : Except Errno Nat × FileTable :=
  -- `cklimit` takes the number for an address
  if pageSize ≤ data ∧ data < userAddr then (.error .efault, tb)
  else if openMax ≤ fd then (.error .einval, tb)
  else if (tb.file pid fd).isNone then (.error .ebadf, tb)
  else
    match request with
    | .dupfd =>
      match tb.doDup0 pid data fd with
      | (.error e, tb) => (.error e, tb)
      | (.ok j, tb) => (.ok j, tb.setCloexec pid j false)
    | .getfd => (.ok (tb.cloexec pid fd).toNat, tb)
    | .setfd => (.ok 0, tb.setCloexec pid fd (tb.cloexec pid fd || data ≠ 0))
    | .ignored => (.ok 0, tb)
    | .unknown => (.error .enotsup, tb)

/-- `do_dup2`. -/
def doDup2 (pid oldfd newfd : Nat) : Except Errno Nat × FileTable :=
  if openMax ≤ oldfd ∨ openMax ≤ newfd then (.error .einval, tb)
  else if oldfd = newfd then (.ok newfd, tb)
  else
    match tb.file pid oldfd with
    | none => (.error .ebadf, tb)
    | some i =>
      let tb := tb.doClose pid newfd
      (.ok newfd,
        ((tb.setCloexec pid newfd (tb.cloexec pid oldfd)).setFile pid newfd (some i)).fuse i)

/-- The descriptors of `do_pipe`. If there is only one, it is given back. -/
def doPipe (inoptr : Handle) : Except Errno (Nat × Nat) × FileTable :=
  match tb.fdget pid 0 inoptr with
  | (.error e, tb) => (.error e, tb)
  | (.ok fd0, tb) =>
    match tb.fdget pid 1 inoptr with
    | (.error e, tb) => (.error e, tb.doClose pid fd0)
    | (.ok fd1, tb) => (.ok (fd0, fd1), tb)

/-- A round of the loop of `copy_process`. -/
def fuseFile : FileTable :=
  match tb.file pid fd with
  | none => tb
  | some i => tb.fuse i

/-- The loop of `copy_process`. -/
def fuseAll (fds : List Nat) : FileTable :=
  fds.foldl (fun tb fd => tb.fuseFile pid fd) tb

/-- `copy_process`: `nr` gets the descriptors of `pid`. -/
def fork (pid nr : Nat) : FileTable :=
  let tb := tb.fuseAll pid (List.range openMax)
  { tb with fds := Function.update tb.fds nr (tb.fds pid) }

/-- A loop that closes those descriptors that are open and that `which`
tells. -/
def closeAll (which : FileTable → Nat → Bool) (fds : List Nat) : FileTable :=
  fds.foldl (fun tb fd =>
    if (tb.file pid fd).isSome && which tb fd then tb.doClose pid fd else tb) tb

/-- The loop of `__do_execve`. -/
def execve : FileTable :=
  tb.closeAll pid (fun tb fd => tb.cloexec pid fd) (List.range' 3 (openMax - 3))

/-- `do_exit`: the process is not live any more. -/
def exit : FileTable :=
  let tb := tb.closeAll pid (fun _ _ => true) (List.range openMax)
  { tb with fds := Function.update tb.fds pid none }

end FileTable

/-- After `init_filp` and `sched_init`: only the idle process, which has no
open files. -/
def initFilp (ino : Handle) : FileTable where
  filps := fun _ => ⟨0, 0, ino, 0⟩
  fromFilp := 0
  fds := Function.update (fun _ => none) 0 (some ⟨fun _ => none, fun _ => true⟩)
  opened := []
  put := []

end Cnix.Fs
