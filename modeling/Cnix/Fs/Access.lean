/-
The attributes of a file: `fs/access.c`, and `sys_fchmod` and `sys_fchown`
of `fs/syscall.c`.

`chmod` adds bits to the mode and takes none away. `chown` and `fchown`
ask whether the caller is the owner or the owner is to stay as it is, and
then only for the group.
-/
import Cnix.Fs.Open

namespace Cnix.Fs

/-- What the calls end with when they are refused. -/
def refuse (pid : Nat) (inoptr : Handle) : M Ret := do
  iput pid inoptr
  return .error .eacces

/-- `fget`, and the inode of the file, locked and counted. -/
def fgetInode (pid fd : Nat) : M (Except Errno Handle) := do
  if openMax ≤ fd then return .error .einval
  let s ← get
  match (s.task pid).file fd with
  | none => return .error .ebadf
  | some i =>
    let inoptr := (s.filps i).ino
    ilock pid inoptr
    hold inoptr
    return .ok inoptr

-- ======== chmod

/-- What `do_chmod` and `sys_fchmod` do to the inode. -/
def chmodInode (pid : Nat) (mode : BitVec 16) (inoptr : Handle) : M Ret := do
  let s ← get
  let task := s.task pid
  let d := s.node inoptr
  if task.euid ≠ 0 ∧ task.euid ≠ d.uid then refuse pid inoptr
  else
    set (s.setNode inoptr { d with mode := d.mode ||| mode &&& iUgrwx })
    iput pid inoptr
    return .ok 0

/-- `do_chmod`. -/
def doChmod (pid : Nat) (path : Name) (mode : BitVec 16) : M Ret := do
  match ← namei pid path false with
  | .error e => return errno e
  | .ok inoptr => chmodInode pid mode inoptr

/-- `sys_fchmod`. -/
def sysFchmod (pid fd : Nat) (mode : BitVec 16) : M Ret := do
  match ← fgetInode pid fd with
  | .error e => return .error e
  | .ok inoptr => chmodInode pid mode inoptr

-- ======== chown

/-- What `do_chown` and `sys_fchown` do to the inode. `group` is written if
`regroup`. -/
def chownInode (pid : Nat) (owner group : Int) (regroup : Bool) (inoptr : Handle) : M Ret := do
  let s ← get
  let task := s.task pid
  let d := s.node inoptr
  if task.euid ≠ 0 ∧ task.euid ≠ d.uid ∧ d.uid ≠ owner then refuse pid inoptr
  else if task.euid ≠ 0 ∧ task.egid ≠ group then refuse pid inoptr
  else
    let uid := if task.euid = 0 then owner else d.uid
    let gid := if regroup then group else d.gid
    set (s.setNode inoptr { d with uid := uid, gid := gid })
    iput pid inoptr
    return .ok 0

/-- `do_chown`. -/
def doChown (pid : Nat) (path : Name) (owner group : Int) : M Ret := do
  match ← namei pid path false with
  | .error e => return errno e
  | .ok inoptr => chownInode pid owner group (0 < group) inoptr

/-- `sys_fchown`. -/
def sysFchown (pid fd : Nat) (owner group : Int) : M Ret := do
  match ← fgetInode pid fd with
  | .error e => return .error e
  | .ok inoptr => chownInode pid owner group true inoptr

-- ======== utime

/-- `can_write`. -/
def canWrite (task : Task) (d : Dinode) : Bool :=
  task.uid == d.uid && (iWb <<< 6) &&& d.mode != 0
    || task.gid == d.gid && (iWb <<< 3) &&& d.mode != 0
    || iWb &&& d.mode != 0

/-- `do_utime`. `buf` has the times of access and of modification. -/
def doUtime (pid : Nat) (path : Name) (buf : Option (Nat × Nat)) : M Ret := do
  match ← namei pid path false with
  | .error e => return errno e
  | .ok inoptr =>
    let s ← get
    let task := s.task pid
    let d := s.node inoptr
    if task.euid ≠ 0 ∧ task.euid ≠ d.uid ∧ (buf.isSome ∨ !canWrite task d) then
      refuse pid inoptr
    else
      -- without a buffer the clock sets the times
      if let some (actime, modtime) := buf then
        set (s.setNode inoptr { d with atime := actime, mtime := modtime })
      iput pid inoptr
      return .ok 0

end Cnix.Fs
