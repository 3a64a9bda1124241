/-
The buffer cache of `fs/buffer.c` and the request queue of `driver/ide.c`,
cut where a process can sleep.

In `getblk` a process sleeps for a busy buffer, for a free one, and in
`bwrite` for a free request when it writes a buffer back; in `bread` and
`bwrite` for a free request, and for the end of the transfer. What it does
in between is one step, and so is an interrupt that ends a transfer
(`ide_bottom`). A process may be woken up at any time.

The hash table is one list, the newest first. The queue has the request
that is being served at its head. The contents of a disk are those of its
blocks: the partitions do not overlap. A transfer is one step, at its end.
The controller may refuse commands, as many as `refuse` says; a reset of
it works.

Two things are there for the proofs only: who has got a buffer from
`getblk` or `bread`, for which block (`held`), and what was last released
for a block (`last`).
-/
import Cnix.Lib.Runs
import Cnix.Fs.Core

namespace Cnix.Fs

/-- `NR_BUF`, `REQQ_SIZE` and `MAX_ERRS`. -/
def nrBuf : Nat := 16384
def reqqSize : Nat := 1024
def maxErrs : Nat := 3

/-- `struct buf_head`, with its flags `B_BUSY`, `B_DONE`, `B_DIRTY`, `B_ASY`,
`B_READ` and `B_ERROR`. -/
structure BufHead where
  dev : Dev
  blocknr : Nat
  busy : Bool
  done : Bool
  dirty : Bool
  asy : Bool
  read : Bool
  error : Bool
  data : Block

/-- `struct request`, and the process that made it. -/
structure Request (n : Nat) where
  dev : Dev
  block : Nat
  write : Bool
  buf : Fin n
  pid : Nat
  deriving DecidableEq

/-- Where a process is. `want` is set when `bread` called `getblk`. -/
inductive BufPoint (n : Nat)
  | idle
  -- in `getblk`: for a buffer, and for a request to write `b` back
  | getblk (want : Bool) (dev : Dev) (block : Nat)
  | evict (want : Bool) (dev : Dev) (block : Nat) (b : Fin n)
  -- in `bread`: for a request, and for the end of the transfer
  | ask (dev : Dev) (block : Nat) (b : Fin n)
  | iowait (dev : Dev) (block : Nat) (b : Fin n)
  -- in `bwrite`, the same
  | write (b : Fin n)
  | written (b : Fin n)
  -- in `bsync`: for a busy buffer
  | bsync (b : Fin n)
  deriving DecidableEq

/-- Who has a buffer, for which block, and whether `bread` returned it. -/
structure Hold where
  pid : Nat
  dev : Dev
  block : Nat
  filled : Bool

structure BufCache (n : Nat) where
  buf : Fin n → BufHead
  hash : List (Fin n)
  bfreelist : List (Fin n)
  queue : List (Request n)
  errs : Nat
  refuse : Nat
  startSec : Dev → Nat
  disk : Dev × Nat → Block
  point : Nat → BufPoint n
  held : Fin n → Option Hold
  last : Dev × Nat → Block

/-- `ide_rw_block` puts a request in front of the first one that it does not
come after, if it comes after the one before. -/
def elevator {n : Nat} (sec : Request n → Nat) (req : Request n) : List (Request n) → List (Request n)
  | [] => [req]
  | [prev] => [prev, req]
  | prev :: next :: rest =>
    if sec prev < sec req ∧ sec req ≤ sec next then prev :: req :: next :: rest
    else prev :: elevator sec req (next :: rest)

namespace BufCache

variable {n : Nat} (t : BufCache n) (pid : Nat)

def setBuf (b : Fin n) (bh : BufHead) : BufCache n := { t with buf := Function.update t.buf b bh }

def goto (pt : BufPoint n) : BufCache n :=
  { t with point := Function.update t.point pid pt }

def setHeld (b : Fin n) (hold : Option Hold) : BufCache n :=
  { t with held := Function.update t.held b hold }

-- ======== requests

/-- The first sector of a request. -/
def sec (req : Request n) : Nat := t.startSec req.dev + req.block * 2

/-- `get_req` would sleep. `ide_init` does not free the last request. -/
def full : Bool := reqqSize - 1 ≤ t.queue.length

/-- The loop of `finish_cmd`, when the controller goes on to refuse a number
of commands: `errs`, and how many it has not refused yet. -/
def retry : Nat → Nat → Nat × Nat
  | errs, 0 => (errs, 0)
  | errs, refuse + 1 =>
    if errs < maxErrs then retry (errs + 1) refuse else (errs, refuse + 1)

/-- `finish_cmd` would give up. -/
def givesUp : Bool := t.refuse ≠ 0 ∧ (retry (t.errs + 1) (t.refuse - 1)).1 = maxErrs

/-- `finish_cmd`. It does not set `errs` back when it gives up. -/
def finishCmd : Bool × BufCache n :=
  match t.queue with
  | [] => (true, t)
  | req :: _ =>
    let (errs, refuse) := retry (t.errs + 1) (t.refuse - 1)
    if t.givesUp then
      (false, { t.setBuf req.buf { t.buf req.buf with error := true } with errs, refuse })
    else if t.refuse = 0 then (true, t)
    else (true, { t with errs := 0, refuse })

/-- The request is put into the queue. -/
def enqueue (write : Bool) (b : Fin n) (pid : Nat) : BufCache n :=
  let bh := t.buf b
  { t with queue := elevator t.sec ⟨bh.dev, bh.blocknr, write, b, pid⟩ t.queue }

/-- `ide_rw_block`, when there is a free request. -/
def ideRwBlock (write : Bool) (b : Fin n) (pid : Nat) : Bool × BufCache n :=
  if t.queue = [] then (t.enqueue write b pid).finishCmd else (true, t.enqueue write b pid)

-- ======== getblk

/-- `getblk_from_hash`. -/
def getblkFromHash (dev : Dev) (block : Nat) : Option (Fin n) :=
  t.hash.find? fun b => (t.buf b).dev == dev && (t.buf b).blocknr == block

/-- `notavail`. -/
def notavail (b : Fin n) (flag : Bool) : BufCache n :=
  let bh := t.buf b
  { t.setBuf b { bh with busy := true } with
    hash := if flag ∧ bh.dev ≠ nodev then t.hash.erase b else t.hash
    bfreelist := t.bfreelist.erase b }

/-- The process has the buffer. -/
def hold (dev : Dev) (block : Nat) (filled : Bool) (b : Fin n) : BufCache n :=
  (t.setHeld b (some ⟨pid, dev, block, filled⟩)).goto pid .idle

/-- `brelse`. -/
def brelse (b : Fin n) : BufCache n :=
  if (t.buf b).busy then
    { t.setBuf b { t.buf b with busy := false, asy := false } with
      bfreelist := t.bfreelist ++ [b] }
  else t

/-- `bread` looks for an error. -/
def breadEnd (dev : Dev) (block : Nat) (b : Fin n) : BufCache n :=
  if (t.buf b).error then (t.brelse b).goto pid .idle else t.hold pid dev block true b

/-- `bread` asks for the block, and waits for it. -/
def breadBlock (dev : Dev) (block : Nat) (b : Fin n) : BufCache n :=
  if t.full then t.goto pid (.ask dev block b)
  else
    let (ok, t) := t.ideRwBlock false b pid
    if ok then t.goto pid (.iowait dev block b) else t.breadEnd pid dev block b

/-- `getblk` returns the buffer. -/
def granted (want : Bool) (dev : Dev) (block : Nat) (b : Fin n) : BufCache n :=
  if want then
    if (t.buf b).done then t.hold pid dev block true b else t.breadBlock pid dev block b
  else t.hold pid dev block false b

/-- A free buffer becomes that of the block. -/
def assign (dev : Dev) (block : Nat) (b : Fin n) : BufCache n :=
  { t.setBuf b ⟨dev, block, true, false, false, false, true, false, (t.buf b).data⟩ with
    hash := b :: t.hash }

/-- A dirty buffer is going to be written back. -/
def evicted (b : Fin n) : BufCache n :=
  t.setBuf b { t.buf b with asy := true, dirty := false, read := false, error := false }

/-- The label `loop` of `getblk`. -/
def getblkLoop (want : Bool) (dev : Dev) (block : Nat) : Nat → BufCache n → BufCache n
  | 0, t => t.goto pid (.getblk want dev block)
  | turns + 1, t =>
    match t.getblkFromHash dev block with
    | some b =>
      if (t.buf b).busy then t.goto pid (.getblk want dev block)
      else (t.notavail b false).granted pid want dev block b
    | none =>
      match t.bfreelist with
      | [] => t.goto pid (.getblk want dev block)
      | b :: _ =>
        let dirty := (t.buf b).dirty
        let t := t.notavail b true
        if dirty then
          let t := t.evicted b
          if t.full then t.goto pid (.evict want dev block b)
          else getblkLoop want dev block turns (t.ideRwBlock true b pid).2
        else (t.assign dev block b).granted pid want dev block b

/-- Turns enough for all free buffers. -/
def turns : Nat := t.bfreelist.length + 2

def getblk (want : Bool) (dev : Dev) (block : Nat) : BufCache n :=
  getblkLoop pid want dev block t.turns t

-- ======== bwrite

/-- The new contents, and `B_DIRTY | B_DONE`. -/
def modify (b : Fin n) : Option Block → BufCache n
  | none => t
  | some data =>
    let bh := t.buf b
    { t.setBuf b { bh with data := data, dirty := true, done := true } with
      last := Function.update t.last (bh.dev, bh.blocknr) data }

/-- `bwrite`, when there is a free request. -/
def bwriteBlock (b : Fin n) : BufCache n :=
  let t := (t.ideRwBlock true b pid).2
  if (t.buf b).asy then t.goto pid .idle
  else if (t.buf b).done then (t.brelse b).goto pid .idle
  else t.goto pid (.written b)

/-- `bwrite`. -/
def bwrite (b : Fin n) : BufCache n :=
  let t := t.setBuf b { t.buf b with read := false, error := false, dirty := false }
  if t.full then t.goto pid (.write b) else t.bwriteBlock pid b

/-- `bsync`, at a buffer of the hash table. -/
def bsync (b : Fin n) : BufCache n :=
  if (t.buf b).dirty then
    if (t.buf b).busy then t.goto pid (.bsync b) else (t.notavail b false).bwrite pid b
  else t.goto pid .idle

-- ======== iodone

/-- The transfer of the request. -/
def transfer (req : Request n) : BufCache n :=
  if req.write then
    { t with disk := Function.update t.disk (req.dev, req.block) (t.buf req.buf).data }
  else t.setBuf req.buf { t.buf req.buf with data := t.disk (req.dev, req.block) }

/-- `iodone`. -/
def iodone (b : Fin n) : BufCache n :=
  let t := t.setBuf b { t.buf b with done := true }
  if (t.buf b).asy then t.brelse b
  else if (t.buf b).read then t.setBuf b { t.buf b with read := false }
  else t

/-- `ide_bottom`, at the end of a transfer. `none` is a `DIE`. -/
def ideBottom : Option (BufCache n) :=
  match t.queue with
  | [] => none
  | req :: rest => some { ((t.transfer req).iodone req.buf) with queue := rest }.finishCmd.2

-- ======== running

/-- A process runs on. -/
def wake : Option (BufCache n) :=
  match t.point pid with
  | .idle => none
  | .getblk want dev block => some (t.getblk pid want dev block)
  | .evict want dev block b =>
    if t.full then some t else some ((t.ideRwBlock true b pid).2.getblk pid want dev block)
  | .ask dev block b => some (t.breadBlock pid dev block b)
  | .iowait dev block b =>
    if (t.buf b).done then some (t.breadEnd pid dev block b) else some t
  | .write b => if t.full then some t else some (t.bwriteBlock pid b)
  | .written b => if (t.buf b).done then some ((t.brelse b).goto pid .idle) else some t
  | .bsync b => some (t.bsync pid b)

end BufCache

/-- `buf_init`. -/
def bufInit (n : Nat) (startSec : Dev → Nat) (disk : Dev × Nat → Block) : BufCache n where
  buf := fun _ => ⟨nodev, 0, false, false, false, false, false, false, zeroBlock⟩
  hash := []
  bfreelist := (List.finRange n).reverse
  queue := []
  errs := 0
  refuse := 0
  startSec := startSec
  disk := disk
  point := fun _ => .idle
  held := fun _ => none
  last := disk

/-- What happens to the cache: a call, a process that runs on, the end of a
transfer, and that the controller is going to refuse commands. -/
inductive BufEvent (n : Nat)
  | getblk (pid : Nat) (dev : Dev) (block : Nat)
  | bread (pid : Nat) (dev : Dev) (block : Nat)
  | brelse (pid : Nat) (b : Fin n) (data : Option Block)
  | bwrite (pid : Nat) (b : Fin n) (asy : Bool)
  | bsync (pid : Nat) (b : Fin n)
  | wake (pid : Nat)
  | done
  | refuse (commands : Nat)

/-- The cache after it. -/
def BufEvent.apply {n : Nat} (t : BufCache n) : BufEvent n → Option (BufCache n)
  | .getblk pid dev block => some (t.getblk pid false dev block)
  | .bread pid dev block => some (t.getblk pid true dev block)
  | .brelse _ b data => some (((t.modify b data).setHeld b none).brelse b)
  | .bwrite pid b asy =>
    let t := t.setBuf b { t.buf b with asy := (t.buf b).asy || asy }
    some ((t.setHeld b none).bwrite pid b)
  | .bsync pid b => some (t.bsync pid b)
  | .wake pid => t.wake pid
  | .done => t.ideBottom
  | .refuse commands => some { t with refuse := commands }

/-- A process calls when it is in no other call. It asks for a block of a
device, and gives back what it has got. `bsync` comes to the buffers of the
hash table. -/
def BufEvent.Fair {n : Nat} (t : BufCache n) : BufEvent n → Prop
  | .getblk pid dev _ | .bread pid dev _ => t.point pid = .idle ∧ dev ≠ nodev
  | .brelse pid b _ | .bwrite pid b _ => t.point pid = .idle ∧ (t.held b).map Hold.pid = some pid
  | .bsync pid b => t.point pid = .idle ∧ b ∈ t.hash
  | .wake _ | .done | .refuse _ => True

/-- What is reached from the start by events that meet `ok`. -/
abbrev BufRun {n : Nat} (ok : BufCache n → BufEvent n → Prop) : BufCache n → Prop :=
  Lib.Reached (fun t => ∃ startSec disk, t = bufInit n startSec disk) BufEvent.apply ok

end Cnix.Fs
