/-
Reading from a terminal: `tty_can_read`, `tty_can_write` and `tty_read` of
`driver/tty.c`.

`tty_read` is followed from the call to the first `sleepon` or to the
return. The queue of characters is a list here, the oldest first; the
echo, the screen and the wakeups of writers are left out, and so is the
timer that `VTIME` starts, which can only end a sleep.
-/
import Cnix.Basic

namespace Cnix.Driver

/-- `TTYVGA`, `PTYMAS`, `PTYSLA`. -/
inductive TtyType
  | vga
  | ptyMas
  | ptySla
  deriving DecidableEq, Repr

/-- `struct tty_struct`, with the three special characters that end a line
and, of the other end of a pseudo terminal, how often it is open and how
many characters it holds. -/
structure Tty where
  type : TtyType
  pktmode : Bool
  tq : List Byte
  allowRead : Bool
  canon : Bool
  vmin : Nat
  vtime : Nat
  veol : Byte
  veol2 : Byte
  veof : Byte
  buddyCount : Nat
  buddyQueue : Nat

/-- How far a call of `tty_read` gets. -/
inductive TtyEnd
  | returned (bytes : List Byte) (error : Int)
  | slept
  | endless
  deriving DecidableEq, Repr

namespace Tty

variable (tty : Tty)

/-- `ISPTY`. -/
def isPty : Bool := tty.type = .ptyMas ∨ tty.type = .ptySla

/-- `MASTER`. -/
def master : Bool := tty.type = .ptyMas

/-- `MAX_INPUT`. -/
def maxInput : Nat := 255

/-- `tty_can_read`. -/
def canRead : Bool :=
  if tty.tq ≠ [] then true
  else tty.isPty && tty.buddyCount == 0

/-- `tty_can_write`. -/
def canWrite : Bool :=
  if tty.isPty ∧ 0 < tty.buddyCount then tty.buddyQueue < maxInput else true

/-- `endline`. -/
def endline (ch : Byte) : Bool := ch = 10 ∨ ch = tty.veol ∨ ch = tty.veol2 ∨ ch = tty.veof

/-- How the inner loop of `tty_read` is left: because there are no more
characters or enough of them, with `stop` set, or at the end of a line. -/
inductive Leave
  | over
  | stop
  | line
  deriving DecidableEq, Repr

/-- The inner loop, over the characters of the queue. -/
def takeChars (count : Nat) : List Byte → List Byte → List Byte × List Byte × Leave
  | [], buffer => ([], buffer, .over)
  | ch :: tq, buffer =>
    if count ≤ buffer.length then (ch :: tq, buffer, .over)
    else
      let buffer := buffer ++ [ch]
      if tty.canon = false ∧ tty.vmin ≠ 0 then
        if tty.vtime = 0 ∧ tty.vmin ≤ buffer.length then (tq, buffer, .stop)
        else takeChars count tq buffer
      else if tty.vtime ≠ 0 then (tq, buffer, .stop)
      else if tty.master = false ∧ tty.canon = true ∧ tty.endline ch then (tq, buffer, .line)
      else takeChars count tq buffer

/-- The outer loop, at most `turns` times. -/
def readLoop (ndelay : Bool) (count : Nat) : Nat → List Byte → List Byte → TtyEnd
  | 0, _, _ => .endless
  | turns + 1, tq, buffer =>
    if count ≤ buffer.length then .returned buffer 0
    else if tq = [] then
      if ndelay then .returned buffer 0
      else if tty.isPty ∧ tty.buddyCount = 0 then .returned buffer 0
      else .slept
    else
      match tty.takeChars count tq buffer with
      | (_, buffer, .line) => .returned buffer 0
      | (_, buffer, .stop) => .returned buffer 0
      | (tq, buffer, .over) => if tty.master then .returned buffer 0 else readLoop ndelay count turns tq buffer

def einval : Int := 22

/-- `TIOCPKT_DATA`. -/
def tiocpktData : Byte := 0

/-- `tty_read`; `own` says whether it is the terminal of the caller. -/
def read (own ndelay : Bool) (count : Nat) : TtyEnd :=
  if own = false ∧ tty.type = .vga then .returned [] (-einval)
  else if tty.allowRead = false then .slept
  else tty.readLoop ndelay count 2 tty.tq (if tty.master ∧ tty.pktmode then [tiocpktData] else [])

end Tty

end Cnix.Driver
