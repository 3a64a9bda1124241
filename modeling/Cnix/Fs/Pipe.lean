/-
Pipes: the parts of `do_read`, `do_write` and `do_pipe` that serve them.

The bytes of a pipe lie in one page, used in a circle. A reader takes what
is there, at most as much as it still wants, in one or two pieces, and
goes back to look again until it has got everything it asked for; when the
pipe is empty it sleeps, or returns what it has got if the other end was
closed or the descriptor does not block. A writer does the same with the
free part of the page. Both keep what they have done so far in their own
variables while they sleep.

Processes only change in `sleepon`, so that a step goes from there, or from
the call, to the next `sleepon` or to the return. Who is woken up when is
left out: a sleeper may come back at any time. The number of bytes asked
for is an `unsigned int`, and is kept in an `int` as well (`count1`), so
that of 2^31 bytes or more only one round is done.

A pipe here also records which pieces were ever copied into it from whom
(`inlog`), and which went out to whom (`log`). A buffer of a caller is
memory it may use; a bad one ends the process in the page fault.
-/
import Cnix.Fs.File
import Cnix.Lib.Fifo
import Cnix.Lib.Runs

namespace Cnix.Fs

open Lib

/-- Bytes in the page of a pipe. -/
def pipeSize : Nat := 4096

def eintr : Int := 4

def epipe : Int := 32

/-- A call of `do_read`: the caller's buffer and the variables. -/
structure ReadCall where
  buffer : Nat → Byte
  readed : Nat
  count : Nat
  count1 : Int
  ndelay : Bool
  -- how long the log was when the call began
  since : Nat

/-- A call of `do_write`. -/
structure WriteCall where
  buffer : Nat → Byte
  writed : Nat
  count : Nat
  count1 : Int
  -- how long the log was when the call began
  since : Nat

/-- What a process last did with the pipe, with the value it returned
if it is back. -/
inductive Caller
  | idle
  | reader (c : ReadCall) (ret : Option Int)
  | writer (c : WriteCall) (ret : Option Int)

/-- The inode of a pipe, and its callers. -/
structure Pipe where
  buffer : Nat → Byte
  size : Nat
  readp : Nat
  writep : Nat
  buddy : Bool
  caller : Nat → Caller
  inlog : List (Nat × List Byte)
  log : List (Nat × List Byte)

namespace Pipe

variable (s : Pipe) (id : Nat)

/-- Everything that was copied in, in order. -/
def ins : List Byte := s.inlog.flatMap Prod.snd

/-- Everything that was copied out, in order. -/
def outs : List Byte := s.log.flatMap Prod.snd

def setCaller (c : Caller) : Pipe := { s with caller := Function.update s.caller id c }

/-- `readp += reading; if(readp >= 4096) readp = 0;` -/
def advance (p k : Nat) : Nat := if pipeSize ≤ p + k then 0 else p + k

-- ======== do_read

/-- One turn of the loop that copies out. -/
def readTurn (c : ReadCall) (count : Nat) : Pipe × ReadCall × Nat :=
  let reading := if count < pipeSize - s.readp then count else pipeSize - s.readp
  let bytes := memread s.buffer s.readp reading
  let c := { c with buffer := memcpy c.buffer c.readed bytes, readed := c.readed + reading }
  let s := { s with
    readp := advance s.readp reading
    size := s.size - reading
    log := s.log ++ [(id, bytes)] }
  (s, c, count - reading)

/-- `while(count > 0)`, at most `turns` times. -/
def readLoop (id : Nat) : Nat → Pipe → ReadCall → Nat → Pipe × ReadCall
  | 0, s, c, _ => (s, c)
  | turns + 1, s, c, count =>
    if count = 0 then (s, c)
    else
      let (s, c, count) := s.readTurn id c count
      readLoop id turns s c count

/-- `do_read` from `check_again`, at most `rounds` times. -/
def readFrom (id : Nat) : Nat → Pipe → ReadCall → Option Pipe
  | 0, _, _ => none
  | rounds + 1, s, c =>
    if s.size = 0 then
      if c.ndelay then some (s.setCaller id (.reader c (some c.readed)))
      else if s.buddy then some (s.setCaller id (.reader c none))
      else some (s.setCaller id (.reader c (some c.readed)))
    else
      let count := if s.size < c.count then s.size else c.count
      let (s, c) := readLoop id count s c count
      if c.readed < c.count1 then
        readFrom id rounds s { c with count := (c.count1 - c.readed).toNat }
      else some (s.setCaller id (.reader c (some c.readed)))

/-- `do_read`. -/
def doRead (buffer : Nat → Byte) (count : BitVec 32) (ndelay : Bool) : Option Pipe :=
  if count = 0 then some s
  else
    let c : ReadCall := ⟨buffer, 0, count.toNat, count.toInt, ndelay, s.log.length⟩
    readFrom id 2 s c

-- ======== do_write

/-- One turn of the loop that copies in. -/
def writeTurn (c : WriteCall) (count : Nat) : Pipe × WriteCall × Nat :=
  let writing := if count < pipeSize - s.writep then count else pipeSize - s.writep
  let bytes := memread c.buffer c.writed writing
  let c := { c with writed := c.writed + writing }
  let s := { s with
    buffer := memcpy s.buffer s.writep bytes
    writep := advance s.writep writing
    size := s.size + writing
    inlog := s.inlog ++ [(id, bytes)] }
  (s, c, count - writing)

/-- `while(count > 0)`, at most `turns` times. -/
def writeLoop (id : Nat) : Nat → Pipe → WriteCall → Nat → Pipe × WriteCall
  | 0, s, c, _ => (s, c)
  | turns + 1, s, c, count =>
    if count = 0 then (s, c)
    else
      let (s, c, count) := s.writeTurn id c count
      writeLoop id turns s c count

/-- `do_write` from `check_again`, at most `rounds` times. -/
def writeFrom (id : Nat) : Nat → Pipe → WriteCall → Option Pipe
  | 0, _, _ => none
  | rounds + 1, s, c =>
    if !s.buddy then some (s.setCaller id (.writer c (some (-epipe))))
    else if pipeSize ≤ s.size then some (s.setCaller id (.writer c none))
    else
      let count := if pipeSize - s.size < c.count then pipeSize - s.size else c.count
      let (s, c) := writeLoop id count s c count
      if c.writed < c.count1 then
        writeFrom id rounds s { c with count := (c.count1 - c.writed).toNat }
      else some (s.setCaller id (.writer c (some c.writed)))

/-- `do_write`. -/
def doWrite (buffer : Nat → Byte) (count : BitVec 32) : Option Pipe :=
  if count = 0 then some s
  else
    let c : WriteCall := ⟨buffer, 0, count.toNat, count.toInt, s.inlog.length⟩
    writeFrom id 2 s c

-- ======== sleepon

/-- A sleeper comes back, with a signal or without. -/
def wake (sig : Bool) : Option Pipe :=
  match s.caller id with
  | .reader c none =>
    if sig then some (s.setCaller id (.reader c (some (-eintr)))) else readFrom id 2 s c
  | .writer c none =>
    if sig then some (s.setCaller id (.writer c (some (-eintr)))) else writeFrom id 2 s c
  | _ => none

end Pipe

/-- The process is asleep in the pipe. -/
def Caller.asleep : Caller → Bool
  | .reader _ none | .writer _ none => true
  | _ => false

-- ======== runs

/-- What happens: a process calls `do_read` or `do_write`, a sleeper comes
back, and the other end is closed. -/
inductive PipeEvent
  | read (id : Nat) (buffer : Nat → Byte) (count : BitVec 32) (ndelay : Bool)
  | write (id : Nat) (buffer : Nat → Byte) (count : BitVec 32)
  | wake (id : Nat) (sig : Bool)
  | close

/-- A process does one thing at a time. -/
def PipeEvent.Fair (s : Pipe) : PipeEvent → Prop
  | .read id _ _ _ | .write id _ _ => (s.caller id).asleep = false
  | .wake id _ => (s.caller id).asleep = true
  | .close => True

instance PipeEvent.decidableFair (s : Pipe) (e : PipeEvent) : Decidable (e.Fair s) := by
  unfold PipeEvent.Fair
  split <;> infer_instance

def PipeEvent.apply (s : Pipe) : PipeEvent → Option Pipe
  | .read id buffer count ndelay => s.doRead id buffer count ndelay
  | .write id buffer count => s.doWrite id buffer count
  | .wake id sig => s.wake id sig
  | .close => some { s with buddy := false }

/-- The pipe that `do_pipe` makes with a page. -/
def Pipe.fresh (page : Nat → Byte) : Pipe where
  buffer := page
  size := 0
  readp := 0
  writep := 0
  buddy := true
  caller := fun _ => .idle
  inlog := []
  log := []

/-- The runs of the readers and writers of one pipe. -/
abbrev PipeRun : Pipe → Prop :=
  Reached (fun s => ∃ page, s = Pipe.fresh page) PipeEvent.apply PipeEvent.Fair

end Cnix.Fs
