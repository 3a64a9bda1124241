/-
Open files: `fs/file.c`, `fs/close.c`, and `do_open` and `do_inode_open`
of `fs/open.c`.

What the devices do when they are opened and closed is left out, apart
from the error that keeps one from being opened.
-/
import Cnix.Fs.Namei

namespace Cnix.Fs

/-- What a call returns. -/
abbrev Ret := Except Errno Nat

/-- `return error`, which is a success if the error is 0. -/
def errno : Option Errno → Ret
  | none => .ok 0
  | some e => .error e

-- ======== open files

/-- `OPEN_MAX`. -/
def openMax : Nat := 32

/-- `NR_FILP`. -/
def nrFilp : Nat := 2048

/-- `get_filp`: a free entry of the table, looked for from `from_filp` on. -/
def getFilp (s : Sys) : Option Nat :=
  ((List.range nrFilp).map fun i => (s.fromFilp + i) % nrFilp).find? fun i =>
    (s.filps i).count == 0

/-- `fdget` from descriptor 0 on. -/
def fdget (pid mode : Nat) (inoptr : Handle) : M (Except Errno Nat) := do
  let s ← get
  let task := s.task pid
  match (List.range openMax).find? fun i => (task.file i).isNone with
  | none => return .error .enfile
  | some fd =>
    match getFilp s with
    | none => return .error .enomem
    | some i =>
      set ((({ s with fromFilp := (i + 1) % nrFilp }).setFilp i ⟨1, mode, inoptr, 0⟩).setTask
        pid { task with file := Function.update task.file fd (some i) })
      return .ok fd

/-- `ffree`. -/
def ffree (pid i : Nat) : M Unit := do
  let fp := (← get).filps i
  modify (·.setFilp i { fp with count := fp.count - 1 })
  if fp.count = 1 then iput pid fp.ino

/-- `current->file[fd] = NULL`. -/
def clearFile (pid fd : Nat) (s : Sys) : Sys :=
  s.setTask pid { s.task pid with file := Function.update (s.task pid).file fd none }

/-- `do_close`. -/
def doClose (pid fd : Nat) : M Ret := do
  match ((← get).task pid).file fd with
  | none => die .doClose
  | some i =>
    ffree pid i
    modify (clearFile pid fd)
    return .ok 0

-- ======== do_open

/-- `flags & O_ACCMODE`. -/
inductive Access
  | rdonly
  | wronly
  | rdwr
  deriving DecidableEq, Repr

/-- `tobits`. -/
def Access.bits : Access → BitVec 16
  | .rdonly => iRb
  | .wronly => iWb
  | .rdwr => iRb ||| iWb

/-- The number that stands for the access in `f_mode`. -/
def Access.mode : Access → Nat
  | .rdonly => 0
  | .wronly => 1
  | .rdwr => 2

/-- The flags of `do_open`. -/
structure OpenFlags where
  access : Access
  creat : Bool
  excl : Bool
  trunc : Bool
  append : Bool
  deriving DecidableEq, Repr

/-- `(mode & I_UGRWX) & ~current->umask`. -/
def masked (task : Task) (mode : BitVec 16) : BitVec 16 := mode &&& iUgrwx &&& ~~~task.umask

/-- `do_open`, when the file is not there and `O_CREAT` is set. -/
def openCreate (pid : Nat) (filename : Name) (mode : BitVec 16) : M (Except (Option Errno) Handle) := do
  match ← namei pid filename true with
  | .error e => return .error e
  | .ok fino =>
    let s ← get
    let d := s.node fino
    if !isDir d.mode then
      iput pid fino
      return .error (some .enotdir)
    match getTail filename with
    | none =>
      iput pid fino
      return .error (some .enametoolong)
    | some part =>
      if !admitted (s.task pid) d iWb then
        iput pid fino
        return .error (some .eacces)
      let mode := masked (s.task pid) mode ||| iReg
      let inserted ← iinsert pid fino part mode 0
      iput pid fino
      match inserted with
      | .error e => return .error (some e)
      | .ok none => die .iinsert
      | .ok (some inoptr) => return .ok inoptr

/-- `do_open`, when the inode is there: a descriptor for it. -/
def openInode (pid : Nat) (inoptr : Handle) (flags : OpenFlags) : M Ret := do
  let s ← get
  let d := s.node inoptr
  let fail (e : Errno) : M Ret := do
    iput pid inoptr
    return .error e
  if !admitted (s.task pid) d flags.access.bits then fail .eacces
  else if isFifo d.mode then fail .enotsup
  else if isDir d.mode ∧ flags.access ≠ .rdonly then fail .eisdir
  else
    if flags.trunc ∧ flags.access ≠ .rdonly ∧ isReg d.mode then modify (itruncate inoptr)
    if let some e := (if isBlk d.mode ∨ isChr d.mode then s.openDev (d.ino.zone 0) else none) then
      fail e
    else
      match ← fdget pid flags.access.mode inoptr with
      | .error e => fail e
      | .ok fd =>
        let s ← get
        if let some i := (s.task pid).file fd then
          let pos := if flags.append then (s.node inoptr).ino.size else 0
          set (s.setFilp i { s.filps i with pos := pos })
        hold inoptr
        iput pid inoptr
        return .ok fd

/-- `do_open`. -/
def doOpen (pid : Nat) (filename : Name) (flags : OpenFlags) (mode : BitVec 16) : M Ret := do
  match ← namei pid filename false with
  | .ok inoptr =>
    let excluded := flags.creat ∧ flags.excl ∧ !isChr ((← get).node inoptr).mode
    if excluded then
      iput pid inoptr
      return .error .eexist
    openInode pid inoptr flags
  | .error _ =>
    if !flags.creat then return .error .enoent
    match ← openCreate pid filename mode with
    | .error e => return errno e
    | .ok inoptr => openInode pid inoptr flags

/-- `do_inode_open`. -/
def doInodeOpen (pid : Nat) (inoptr : Handle) (access : Access) : M Ret := do
  match ← fdget pid access.mode inoptr with
  | .error e => return .error e
  | .ok fd =>
    hold inoptr
    return .ok fd

end Cnix.Fs
