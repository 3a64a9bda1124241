/-
The input side of a terminal: `put_queue` of `driver/keyboard.c`, with
`canon_char` and `real_put_queue` behind it, and `tty_read` of
`driver/tty.c` with its sleeps, for a console or the slave side of a
pseudo terminal.

The queue is the circular buffer of the source. A key either puts
characters into it, takes the newest one out again (the erase character),
or does neither; `put_queue` gives the list of what it does. Readers go
one at a time: `t_allow_read` is clear as long as one of them is inside,
asleep or not, and the others wait at the door.

The echo and the screen are left out, and so are the signals that keys
send; a process may get a signal at any time. A read that is broken off by
a signal returns an error and nothing else, because `do_read` drops the
number of bytes then. In canonical mode no timer is started.

`lines` is there for the proofs only: what has been typed, as lines. The
erase character takes the last character of the unfinished line there.
-/
import Cnix.Driver.Tty
import Cnix.Fs.Pipe
import Mathlib.Data.BitVec

namespace Cnix.Driver

open Cnix.Lib
open Tty (maxInput)

-- ======== the queue

/-- `tty_queue_t`, without the attributes. -/
structure TtyQueue where
  buf : Nat → Byte
  head : Nat
  tail : Nat
  count : Nat
  tail_lt : tail < maxInput
  count_le : count ≤ maxInput
  head_eq : head = (tail + count) % maxInput

namespace TtyQueue

variable (tq : TtyQueue)

/-- The characters of the queue, the oldest first. -/
def chars : List Byte := cells (unroll tq.buf maxInput) tq.tail tq.count

/-- `real_put_queue` when there is room. -/
def put (ch : Byte) (hroom : tq.count < maxInput) : TtyQueue where
  buf := Function.update tq.buf tq.head ch
  head := if tq.head + 1 = maxInput then 0 else tq.head + 1
  tail := tq.tail
  count := tq.count + 1
  tail_lt := tq.tail_lt
  count_le := hroom
  head_eq := by
    have h := tq.head_eq
    split <;> (simp only [maxInput] at *; omega)

/-- The erase character in `canon_char`. -/
def unput (hsome : 0 < tq.count) : TtyQueue where
  buf := tq.buf
  head := if tq.head = 0 then maxInput - 1 else tq.head - 1
  tail := tq.tail
  count := tq.count - 1
  tail_lt := tq.tail_lt
  count_le := Nat.le_trans (Nat.sub_le ..) tq.count_le
  head_eq := by
    have h := tq.head_eq
    have hle := tq.count_le
    split <;> (simp only [maxInput] at *; omega)

/-- The oldest character. -/
def front : Byte := tq.buf tq.tail

/-- `tty_read` takes the oldest character out. -/
def take (hsome : 0 < tq.count) : TtyQueue where
  buf := tq.buf
  head := tq.head
  tail := if tq.tail + 1 = maxInput then 0 else tq.tail + 1
  count := tq.count - 1
  tail_lt := by
    have h := tq.tail_lt
    split <;> omega
  count_le := Nat.le_trans (Nat.sub_le ..) tq.count_le
  head_eq := by
    have h := tq.head_eq
    have hlt := tq.tail_lt
    split <;> (simp only [maxInput] at *; omega)

/-- `tty_field_init`. -/
def init (buf : Nat → Byte) : TtyQueue := ⟨buf, 0, 0, 0, by decide, by decide, rfl⟩

end TtyQueue

-- ======== settings

/-- `termios_t`, with the flags that the input side looks at. -/
structure Termios where
  istrip : Bool
  inlcr : Bool
  igncr : Bool
  icrnl : Bool
  iuclc : Bool
  ixon : Bool
  ixoff : Bool
  isig : Bool
  icanon : Bool
  iexten : Bool
  echoe : Bool
  echok : Bool
  cc : Nat → Byte

/-- The places of the special characters in `c_cc`. -/
def vintr : Nat := 0
def vquit : Nat := 1
def verase : Nat := 2
def vkill : Nat := 3
def veof : Nat := 4
def vtime : Nat := 5
def vmin : Nat := 6
def vstart : Nat := 8
def vstop : Nat := 9
def vsusp : Nat := 10
def veol : Nat := 11
def vreprint : Nat := 12
def vdiscard : Nat := 13
def vlnext : Nat := 15
def veol2 : Nat := 16

/-- `CR` and `NL`. -/
def cr : BitVec 16 := 13
def nl : BitVec 16 := 10

/-- A terminal: a console or the slave of a pseudo terminal. -/
structure Terminal where
  console : Bool
  termios : Termios
  ccmap : Nat → BitVec 32
  escape : Bool
  tq : TtyQueue
  buddyCount : Nat

/-- `def_termios`. -/
def defTermios : Termios where
  istrip := false
  inlcr := false
  igncr := false
  icrnl := true
  iuclc := false
  ixon := true
  ixoff := false
  isig := true
  icanon := true
  iexten := true
  echoe := true
  echok := false
  cc i := [3, 28, 8, 21, 4, 0, 0, 20, 17, 19, 25, 255, 18, 15, 23, 22, 255].getD i 0

/-- A console after `tty_field_init`. -/
def initConsole : Terminal where
  console := true
  termios := defTermios
  ccmap i := if i = 0 then 0x16fea518 else 0
  escape := false
  tq := .init fun _ => 0
  buddyCount := 0

/-- What a key does to the queue and to the reader that waits for it. -/
inductive Act
  | put (ch : Byte)
  | erase
  | wake
  deriving DecidableEq, Repr

/-- Put a character, of which the queue keeps the low byte. -/
def putChar (ch : BitVec 16) : Act := .put (ch.setWidth 8)

namespace Termios

variable (t : Termios)

/-- `ECHAR`. -/
def echar (ch : BitVec 16) (idx : Nat) : Bool := ch = (t.cc idx).setWidth 16

/-- `sig_char`; `none` if it is not one. -/
def sigChar (ch : BitVec 16) : Option (List Act) :=
  if t.echar ch vintr ∨ t.echar ch vquit ∨ t.echar ch vsusp then some [] else none

/-- `canon_char`. -/
def canonChar (ch : BitVec 16) : Option (List Act) :=
  if ch = cr then
    if t.igncr then some []
    else if t.icrnl then some [.wake, putChar nl]
    else some [putChar cr]
  else if ch = nl then
    if !t.inlcr then some [.wake, putChar nl] else some [putChar cr]
  else if t.echar ch veof then some [.wake, putChar ch]
  else if t.echar ch veol then some [.wake, putChar ch]
  else if t.echar ch veol2 then some [.wake]
  else if t.echoe ∧ t.echar ch verase then some [.erase]
  else if t.echok ∧ t.echar ch vkill then some []
  else if t.echar ch vreprint ∧ t.iexten then some []
  else none

/-- `on_char`. -/
def onChar (ch : BitVec 16) : Option (List Act) :=
  if t.echar ch vstart then if t.ixon then some [] else none
  else if t.echar ch vstop then if t.ixon then some [] else none
  else none

/-- `endline` of `tty_read`. -/
def endline (ch : Byte) : Bool :=
  ch = 10 ∨ ch = t.cc veol ∨ ch = t.cc veol2 ∨ ch = t.cc veof

end Termios

/-- The keys `HOME` to `INSERT` and `F1` to `F12`. -/
def home : BitVec 16 := 0x101
def insert : BitVec 16 := 0x10c
def f1 : BitVec 16 := 0x110
def f12 : BitVec 16 := 0x11b

/-- The letters that stand for the keys from `HOME` on. -/
def hi : List Byte := [72, 89, 65, 66, 68, 67, 86, 85, 71, 83, 84, 64]

/-- `put_queue_for_vt` of a key that is not a character. -/
def putQueueForVt (ch : BitVec 16) : List Act :=
  if home ≤ ch ∧ ch ≤ insert then
    [.put 27, .put 91, .put (hi.getD (ch - home).toNat 0)]
  else if f1 ≤ ch ∧ ch ≤ f12 then
    [.put 27, .put 91, .put 91, putChar (65 + ch - f1)]
  else []

namespace Terminal

variable (tty : Terminal)

/-- `is_special`. -/
def isSpecial (ch : BitVec 16) : Bool :=
  ch &&& 0xff80 = 0 ∧ (tty.ccmap (ch.toNat / 32)).getLsbD (ch.toNat % 32)

/-- A special character that is not escaped: what is done, and whether the
next character is escaped. -/
def special (ch : BitVec 16) : Bool × List Act :=
  let t := tty.termios
  match (if t.isig then t.sigChar ch else none) with
  | some acts => (false, acts)
  | none =>
    match (if t.icanon then t.canonChar ch else none) with
    | some acts => (false, acts)
    | none =>
      match (if t.ixon ∨ t.ixoff then t.onChar ch else none) with
      | some acts => (false, acts)
      | none =>
        -- `exten_char`
        if t.iexten ∧ t.echar ch vdiscard then (false, [])
        else if t.iexten ∧ t.echar ch vlnext then (true, [])
        else (false, [putChar ch])

/-- `put_queue`: `t_escape` afterwards, and what is done. -/
def putQueue (ch : BitVec 16) : Bool × List Act :=
  if tty.console ∧ 0xff < ch then (tty.escape, putQueueForVt ch)
  else
    let ch := if tty.termios.istrip then ch &&& 0x7f else ch
    if tty.isSpecial ch ∧ !tty.escape then tty.special ch
    else
      let ch := if !tty.isSpecial ch ∧ tty.termios.iuclc ∧ 65 ≤ ch ∧ ch ≤ 90 then ch + 32 else ch
      (false, putChar ch :: if tty.console ∧ ch = 27 then [.put 91, .put 27] else [])

end Terminal

-- ======== readers

/-- A process inside `tty_read`: `t_allow_read` is clear. -/
structure Reader where
  pid : Nat
  count : Nat
  ndelay : Bool
  buffer : List Byte
  woken : Bool

/-- A process that waits for `t_allow_read`. -/
structure Door where
  count : Nat
  ndelay : Bool
  woken : Bool

/-- What has been typed: the finished lines, and the unfinished one. -/
structure Lines where
  done : List Byte
  current : List Byte

/-- A character is typed, which may end the line. -/
def Lines.put (l : Lines) (ends : Byte → Bool) (ch : Byte) : Lines :=
  if ends ch then ⟨l.done ++ l.current ++ [ch], []⟩ else ⟨l.done, l.current ++ [ch]⟩

/-- The last character of the unfinished line is erased. -/
def Lines.erase (l : Lines) : Lines := ⟨l.done, l.current.dropLast⟩

/-- A terminal, those who read from it, and what they have got so far. -/
structure Input where
  tty : Terminal
  reader : Option Reader
  door : Nat → Option Door
  out : List Byte
  lines : Lines

namespace Input

variable (s : Input)

-- ======== keys

/-- `wakeup(&tty->t_readq_wait)`. -/
def wakeReader : Input := { s with reader := s.reader.map fun r => { r with woken := true } }

/-- One thing a key does. A character that finds the queue full is lost. -/
def act (a : Act) : Input :=
  match a with
  | .wake => s.wakeReader
  | .put ch =>
    let s := { s with lines := s.lines.put s.tty.termios.endline ch }
    if hroom : s.tty.tq.count < maxInput then
      let tq := s.tty.tq.put ch hroom
      let s := { s with tty := { s.tty with tq := tq } }
      if !s.tty.termios.icanon ∨ tq.count = maxInput then s.wakeReader else s
    else s
  | .erase =>
    let s := { s with lines := s.lines.erase }
    if hsome : 0 < s.tty.tq.count then
      { s with tty := { s.tty with tq := s.tty.tq.unput hsome } }
    else s

/-- `put_queue`. -/
def key (ch : BitVec 16) : Input :=
  let r := s.tty.putQueue ch
  r.2.foldl act { s with tty := { s.tty with escape := r.1 } }

-- ======== tty_read

/-- The inner loop of `tty_read`; `left` are the characters of the queue. -/
def takeFrom (t : Termios) (count : Nat) :
    Nat → TtyQueue → List Byte → TtyQueue × List Byte × Tty.Leave
  | 0, tq, buffer => (tq, buffer, .over)
  | left + 1, tq, buffer =>
    if hsome : 0 < tq.count ∧ buffer.length < count then
      let ch := tq.front
      let tq := tq.take hsome.1
      let buffer := buffer ++ [ch]
      if t.icanon = false ∧ t.cc vmin ≠ 0 then
        if t.cc vtime = 0 ∧ (t.cc vmin).toNat ≤ buffer.length then (tq, buffer, .stop)
        else takeFrom t count left tq buffer
      else if t.cc vtime ≠ 0 then (tq, buffer, .stop)
      else if t.icanon ∧ t.endline ch then (tq, buffer, .line)
      else takeFrom t count left tq buffer
    else (tq, buffer, .over)

/-- The label `out`, with the bytes that the caller gets: those who wait at
the door are woken. -/
def leave (bytes : List Byte) : Input :=
  { s with
    reader := none
    door := fun pid => (s.door pid).map fun d => { d with woken := true }
    out := s.out ++ bytes }

/-- The other side of a pseudo terminal is closed. -/
def hungUp : Bool := !s.tty.console && s.tty.buddyCount == 0

/-- The head of the outer loop when nothing more is in the queue. -/
def await (r : Reader) : Input :=
  if r.count ≤ r.buffer.length then s.leave r.buffer
  else if r.ndelay ∨ s.hungUp then s.leave r.buffer
  else { s with reader := some { r with woken := false } }

/-- The inner loop and what follows it. -/
def takeIn (r : Reader) : Input :=
  let (tq, buffer, how) := takeFrom s.tty.termios r.count s.tty.tq.count s.tty.tq r.buffer
  let s := { s with tty := { s.tty with tq := tq } }
  match how with
  | .over => s.await { r with buffer := buffer }
  | _ => s.leave buffer

/-- `tty_read` behind the door. -/
def enter (pid count : Nat) (ndelay : Bool) : Input :=
  let s := { s with door := Function.update s.door pid none }
  let r : Reader := ⟨pid, count, ndelay, [], false⟩
  if s.tty.tq.count = 0 then s.await r else s.takeIn r

/-- `tty_read` at `try_again`. -/
def tryAgain (pid count : Nat) (ndelay : Bool) : Input :=
  if s.reader.isSome then
    { s with door := Function.update s.door pid (some ⟨count, ndelay, false⟩) }
  else s.enter pid count ndelay

end Input

-- ======== the run

/-- What happens at a terminal: a key is pressed, a process calls
`tty_read`, or a process that sleeps in it goes on, with a signal or
without. -/
inductive InputEvent
  | key (ch : BitVec 16)
  | read (pid count : Nat) (own ndelay : Bool)
  | wake (pid : Nat) (sig : Bool)

namespace Input

variable (s : Input)

/-- A process that slept inside goes on. -/
def resume (r : Reader) (sig : Bool) : Option Input :=
  if sig then some (s.leave [])
  else if r.woken then some (s.takeIn r)
  else none

/-- A process that slept at the door goes on. -/
def retry (pid : Nat) (d : Door) (sig : Bool) : Option Input :=
  if sig then some { s with door := Function.update s.door pid none }
  else if d.woken then some (s.tryAgain pid d.count d.ndelay)
  else none

/-- One event; a process makes one call at a time. -/
def step : InputEvent → Option Input
  | .key ch => some (s.key ch)
  | .read pid count own ndelay =>
    if (s.door pid).isSome ∨ (s.reader.map Reader.pid) = some pid then none
    else if !own ∧ s.tty.console then some s
    else some (s.tryAgain pid count ndelay)
  | .wake pid sig =>
    match s.reader with
    | some r =>
      if r.pid = pid then s.resume r sig
      else (s.door pid).bind fun d => s.retry pid d sig
    | none => (s.door pid).bind fun d => s.retry pid d sig

end Input

end Cnix.Driver
