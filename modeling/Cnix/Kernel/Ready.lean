/-
What `select` asks of an object, and what a read of it does: `check_fd_read`,
`check_fd_write` and `check_fd_except` of `kernel/select.c`, and `do_read`.

An object is one that `get_type` knows: a terminal, a socket or a pipe.
-/
import Cnix.Driver.Tty
import Cnix.Fs.Pipe
import Cnix.Net.SockRead

namespace Cnix.Kernel

open Cnix.Driver Cnix.Fs Cnix.Net

/-- `TYPE_TTY`, `TYPE_SOCK` and `TYPE_PIPE`. -/
inductive Obj
  | tty (ttyp : Tty)
  | sock (sock : Socket)
  | pipe (inoptr : Pipe)

/-- `check_fd_read`. -/
def checkFdRead : Obj → Except SockFault Bool
  | .tty ttyp => .ok ttyp.canRead
  | .sock sock => sockCanRead sock
  | .pipe inoptr => .ok (0 < inoptr.size ∨ inoptr.buddy = false)

/-- `check_fd_write`. -/
def checkFdWrite : Obj → Except SockFault Bool
  | .tty ttyp => .ok ttyp.canWrite
  | .sock sock => sockCanWrite sock
  | .pipe inoptr => .ok (inoptr.size < pipeSize ∨ inoptr.buddy = false)

/-- `check_fd_except`. -/
def checkFdExcept : Obj → Bool
  | .tty _ => false
  | .sock sock => sockCanExcept sock
  | .pipe _ => false

/-- Who reads: whether the terminal is the caller's own, whether the
descriptor has `O_NDELAY`, the number of the process and its buffer. -/
structure Reader where
  own : Bool
  ndelay : Bool
  id : Nat
  buffer : Nat → Byte

/-- What comes first in a call. -/
inductive First
  | returns
  | sleeps
  | fails
  deriving DecidableEq, Repr

/-- `do_read`, up to the first `sleepon` or the return. -/
def readFirst (o : Obj) (r : Reader) (count : BitVec 32) : First :=
  if count = 0 then .returns
  else
    match o with
    | .tty ttyp =>
      match ttyp.read r.own r.ndelay count.toNat with
      | .returned _ _ => .returns
      | .slept => .sleeps
      | .endless => .fails
    | .sock sock =>
      match socketRead sock count with
      | .ok (some _) => .returns
      | .ok none => .sleeps
      | .error _ => .fails
    | .pipe inoptr =>
      match inoptr.doRead r.id r.buffer count r.ndelay with
      | none => .fails
      | some s =>
        match s.caller r.id with
        | .reader _ (some _) => .returns
        | .reader _ none => .sleeps
        | _ => .fails

end Cnix.Kernel
