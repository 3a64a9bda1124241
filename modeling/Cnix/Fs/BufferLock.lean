/-
`fs/buffer.c` and the request side of `driver/ide.c` with the mask of the
bottom halves, as the code takes it and gives it back.

This is the cache at the level of its pointers: the two list fields of a
`buf_head`, its flags as a word and its count. `inval_dev` needs that
level: it walks the free list, whose links are `b_rel_free`, but goes back
from a link to its buffer as if it were `b_rel`. What it takes for a
`buf_head` begins eight bytes behind the real one, so that its `b_dev` is
the word of `b_flags`, its `b_blocknr` is `b_count`, its `b_flags` is half
of `b_wait`, and its `b_rel` is `b_rel_free`.

What a buffer holds is left out; the mask does not depend on it. The
controller takes a command, refuses it `MAX_ERRS` times, or cannot be
reset.
-/
import Cnix.Fs.Buffer
import Cnix.Kernel.Bottom
import Cnix.Lib.Links

namespace Cnix.Fs.Lock

open Cnix.Lib Cnix.Kernel

/-- `NR_HASH`. -/
def nrHash : Nat := nrBuf / 8

/-- The flags of a buffer. -/
def bRead : BitVec 16 := 0x01
def bBusy : BitVec 16 := 0x02
def bDirty : BitVec 16 := 0x04
def bDone : BitVec 16 := 0x08
def bWanted : BitVec 16 := 0x10
def bError : BitVec 16 := 0x20
def bAsy : BitVec 16 := 0x40

/-- `struct buf_head` without its data and its links; `pad` are the two
bytes behind `b_flags`. -/
structure BufHead where
  dev : Dev
  blocknr : Nat
  flags : BitVec 16
  pad : BitVec 16
  count : Int
  wait : BitVec 32

/-- A place in a list: a head of the hash table, `bfreelist`, or a field
of a buffer. -/
inductive Node (n : Nat)
  | hash (i : Nat)
  | free
  | buf (b : Fin n)
  deriving DecidableEq

/-- `struct dev_info`. -/
structure DevInfo where
  startSec : Nat
  numSec : Nat

/-- What the controller does with a command. -/
inductive Answer
  | taken
  | refused
  | dead
  deriving DecidableEq

/-- The cache and the queue of requests, `cur_req` first. -/
structure Cache (n : Nat) where
  buf : Fin n → BufHead
  rel : Links (Node n)
  relFree : Links (Node n)
  reqFreelist : Nat
  queue : List (Request n)
  devInfo : Nat → Option DevInfo
  answer : Answer

-- ======== lists

section Lists

variable {ν : Type} [DecidableEq ν]

/-- `list_empty`. -/
def listEmpty (lk : Links ν) (l : ν) : Bool := lk.prev l = l

/-- `list_del1`. -/
def listDel1 (lk : Links ν) (e : ν) : Links ν := ((lk.unlink e).setNext e e).setPrev e e

end Lists

namespace Cache

variable {n : Nat} (c : Cache n)

def setBuf (b : Fin n) (bh : BufHead) : Cache n := { c with buf := Function.update c.buf b bh }

/-- One of the flags is set. -/
def has (b : Fin n) (flag : BitVec 16) : Bool := (c.buf b).flags &&& flag ≠ 0

/-- `bh->b_flags |= flag`. -/
def mark (b : Fin n) (flag : BitVec 16) : Cache n :=
  c.setBuf b { c.buf b with flags := (c.buf b).flags ||| flag }

/-- `bh->b_flags &= ~flag`. -/
def clear (b : Fin n) (flag : BitVec 16) : Cache n :=
  c.setBuf b { c.buf b with flags := (c.buf b).flags &&& ~~~flag }

/-- Change `b_count`. -/
def addCount (b : Fin n) (d : Int) : Cache n :=
  c.setBuf b { c.buf b with count := (c.buf b).count + d }

/-- `hashfn`. -/
def hashfn (dev : Dev) (block : Nat) : Node n := .hash ((block ^^^ dev) % nrHash)

/-- The loop of `getblk_from_hash`. -/
def findInHash (dev : Dev) (block : Nat) : Nat → Node n → Except Halt (Option (Fin n))
  | 0, _ => .error .running
  | turns + 1, tmp =>
    if tmp = hashfn dev block then .ok none
    else
      match tmp with
      | .buf b =>
        if (c.buf b).dev = dev ∧ (c.buf b).blocknr = block then .ok (some b)
        else findInHash dev block turns (c.rel.next tmp)
      | _ => .error .wild

/-- `putblk_to_hash`. -/
def putblkToHash (b : Fin n) : Cache n :=
  { c with rel := c.rel.insertHead (hashfn (c.buf b).dev (c.buf b).blocknr) (.buf b) }

/-- `notavail`. -/
def notavail (b : Fin n) (flag : Bool) : Cache n :=
  let c := c.mark b bBusy
  { c with
    rel := if flag ∧ (c.buf b).dev ≠ nodev then listDel1 c.rel (.buf b) else c.rel
    relFree := listDel1 c.relFree (.buf b) }

/-- What `inval_dev` does to a buffer whose flags look like the device. -/
def invalShifted (b : Fin n) : Cache n :=
  let bh := c.buf b
  { c.setBuf b { bh with
      flags := 0x7fff, pad := 0, count := 0, wait := bh.wait &&& 0xffff0000 } with
    relFree := listDel1 c.relFree (.buf b) }

end Cache

variable {n : Nat} (turns : Nat)

/-- Go on with the result of a search. -/
def found (r : Except Halt (Option (Fin n))) : KM (Cache n) (Option (Fin n)) :=
  match r with
  | .ok b => return b
  | .error halt => throw halt

/-- `getblk_from_hash`. -/
def getblkFromHash (dev : Dev) (block : Nat) : KM (Cache n) (Option (Fin n)) := do
  let c ← world
  found (c.findInHash dev block turns (c.rel.next (Cache.hashfn dev block)))

/-- Sleep for a buffer. -/
def want (b : Fin n) : KM (Cache n) Unit := do
  modifyWorld fun c => (c.mark b bWanted).addCount b 1
  sleepon
  modifyWorld fun c => c.addCount b (-1)

-- ======== requests

/-- The label `try_again` of `get_req`. -/
def getReqLoop (flags : BitVec 32) : Nat → KM (Cache n) Unit
  | 0 => throw .running
  | turns + 1 => do
    let c ← world
    if c.reqFreelist ≠ 0 then
      setWorld { c with reqFreelist := c.reqFreelist - 1 }
      unlockBottom flags
    else
      sleepon
      getReqLoop flags turns

/-- `get_req`. -/
def getReq : KM (Cache n) Unit := do
  let flags ← lockbIde
  getReqLoop flags turns

/-- `finish_cmd`. -/
def finishCmd : KM (Cache n) Bool := do
  let c ← world
  match c.answer, c.queue with
  | .taken, _ :: _ => return true
  | .refused, req :: _ => do
    setWorld (c.mark req.buf bError)
    return false
  | _, _ => throw .die

/-- The first sector of a request. -/
def Cache.sec (c : Cache n) (req : Request n) : Nat :=
  match c.devInfo (req.dev % 256) with
  | none => 0
  | some info => info.startSec + req.block * 2

/-- `ide_rw_block` puts its request into the queue. -/
def enqueue (req : Request n) : KM (Cache n) Bool := do
  let flags ← lockbIde
  let c ← world
  setWorld { c with queue := elevator c.sec req c.queue }
  unlockBottom flags
  if c.queue ≠ [] then return true else finishCmd

/-- `ide_rw_block`. -/
def ideRwBlock (write : Bool) (b : Fin n) : KM (Cache n) Bool := do
  let c ← world
  let bh := c.buf b
  let dev := bh.dev % 256
  match c.devInfo dev with
  | none => throw .die
  | some info =>
    -- `num_sec` is unsigned, and so is the comparison
    if dev > 4 ∨ (info.numSec / 2 + 2 ^ 32 - 1) % 2 ^ 32 < bh.blocknr then throw .die
    else
      getReq turns
      enqueue ⟨bh.dev, bh.blocknr, write, b, 0⟩

/-- The `while` of `iowait`. -/
def iowaitLoop (b : Fin n) : Nat → KM (Cache n) Unit
  | 0 => throw .running
  | turns + 1 => do
    let c ← world
    if c.has b bDone then return ()
    else
      sleepon
      iowaitLoop b turns

/-- `iowait`. -/
def iowait (b : Fin n) : KM (Cache n) Unit := do
  let flags ← lockbIde
  iowaitLoop b turns
  unlockBottom flags

-- ======== read and write

/-- `brelse`. -/
def brelse (bh : Option (Fin n)) : KM (Cache n) Unit :=
  match bh with
  | none => return ()
  | some b => do
    let c ← world
    if !c.has b bBusy then return ()
    else
      if c.has b bWanted then wakeup
      -- `buf_wait`; nothing happens if nobody waits
      wakeup
      let flags ← lockbIde
      modifyWorld fun c =>
        let c := c.clear b (bWanted ||| bBusy ||| bAsy)
        { c with relFree := c.relFree.insertTail .free (.buf b) }
      unlockBottom flags

/-- `bwrite`. -/
def bwrite (b : Fin n) : KM (Cache n) Unit := do
  let c ← world
  setWorld (c.clear b (bRead ||| bError ||| bDirty))
  let _ ← ideRwBlock turns true b
  if !c.has b bAsy then
    iowait turns b
    brelse (some b)

/-- The label `loop` of `getblk`. The mask is given back while a dirty
buffer is written, and taken again. -/
def getblkLoop (dev : Dev) (block : Nat) : Nat → BitVec 32 → KM (Cache n) (Fin n)
  | 0, _ => throw .running
  | turns + 1, flags => do
    match ← getblkFromHash turns dev block with
    | some b => do
      let c ← world
      if c.has b bBusy then
        want b
        getblkLoop dev block turns flags
      else
        setWorld (c.notavail b false)
        unlockBottom flags
        return b
    | none => do
      let c ← world
      if listEmpty c.relFree .free then
        sleepon
        getblkLoop dev block turns flags
      else
        match c.relFree.next .free with
        | .buf b => do
          let c := c.notavail b true
          setWorld c
          if c.has b bDirty then
            if (c.buf b).dev = nodev then throw .die
            else
              setWorld (((c.mark b bAsy).clear b bDirty).notavail b false)
              unlockBottom flags
              bwrite turns b
              let flags ← lockbIde
              getblkLoop dev block turns flags
          else
            let c := c.setBuf b { c.buf b with
              dev := dev, blocknr := block, flags := bBusy ||| bRead }
            setWorld (c.putblkToHash b)
            unlockBottom flags
            return b
        | _ => throw .wild

/-- `getblk`. -/
def getblk (dev : Dev) (block : Nat) : KM (Cache n) (Fin n) := do
  let flags ← lockbIde
  getblkLoop dev block turns flags

/-- `bread`. -/
def bread (dev : Dev) (block : Nat) : KM (Cache n) (Option (Fin n)) := do
  let b ← getblk turns dev block
  let c ← world
  if c.has b bDone then return some b
  else
    if ← ideRwBlock turns false b then iowait turns b
    let c ← world
    if c.has b bError then
      brelse (some b)
      return none
    else return some b

-- ======== sync and invalidation

/-- The label `loop` of `bsync`: whether the buffer was written. -/
def bsyncLoop (b : Fin n) (flags : BitVec 32) : Nat → KM (Cache n) Bool
  | 0 => throw .running
  | turns + 1 => do
    let c ← world
    if c.has b bDirty then
      if c.has b bBusy then
        want b
        bsyncLoop b flags turns
      else
        setWorld (c.notavail b false)
        unlockBottom flags
        bwrite turns b
        return true
    else
      unlockBottom flags
      return false

/-- The `list_foreach` of `bsync` in one list of the hash table. -/
def bsyncList (i : Nat) : Nat → Node n → Node n → Bool → KM (Cache n) Bool
  | 0, _, _, _ => throw .running
  | turns + 1, tmp, pos, again =>
    if tmp = .hash i then return again
    else
      match tmp with
      | .buf b => do
        let flags ← lockbIde
        let wrote ← bsyncLoop b flags turns
        let c ← world
        bsyncList i turns pos (c.rel.next pos) (again || wrote)
      | _ => throw .wild

/-- The `for` of `bsync`, from a list of the hash table on. -/
def bsyncFrom : List Nat → Bool → KM (Cache n) Bool
  | [], again => return again
  | i :: rest, again => do
    let c ← world
    let tmp := c.rel.next (.hash i)
    let again ← bsyncList i turns tmp (c.rel.next tmp) again
    bsyncFrom rest again

/-- The label `check_again` of `bsync`. -/
def bsyncAgain : Nat → KM (Cache n) Unit
  | 0 => throw .running
  | turns + 1 => do
    if ← bsyncFrom turns (List.range nrHash) false then bsyncAgain turns

/-- `bsync`. -/
def bsync : KM (Cache n) Unit := bsyncAgain turns

/-- The `list_foreach` of `inval_dev`. -/
def invalDevLoop (dev : Dev) : Nat → Node n → Node n → KM (Cache n) Unit
  | 0, _, _ => throw .running
  | turns + 1, tmp, pos =>
    if tmp = .free then return ()
    else
      match tmp with
      | .buf b => do
        let c ← world
        if ((c.buf b).pad ++ (c.buf b).flags).toNat = dev then setWorld (c.invalShifted b)
        let c ← world
        invalDevLoop dev turns pos (c.relFree.next pos)
      | _ => throw .wild

/-- `inval_dev`. -/
def invalDev (dev : Dev) : KM (Cache n) Unit := do
  let flags ← lockbIde
  let c ← world
  let tmp := c.relFree.next .free
  invalDevLoop dev turns tmp (c.relFree.next tmp)
  unlockBottom flags

/-- The label `loop` of `inval_block`. There is nothing behind the `if`: a
block that is not in the cache ends the call, with the mask as it is. -/
def invalBlockLoop (dev : Dev) (block : Nat) (flags : BitVec 32) : Nat → KM (Cache n) Unit
  | 0 => throw .running
  | turns + 1 => do
    match ← getblkFromHash turns dev block with
    | none => return ()
    | some b => do
      let c ← world
      if c.has b bBusy ∨ 0 < (c.buf b).count then
        want b
        invalBlockLoop dev block flags turns
      else
        let c := c.setBuf b { c.buf b with dev := nodev, blocknr := 0, flags := 0 }
        if (c.buf b).wait ≠ 0 then throw .die
        else
          let c := { c with rel := listDel1 c.rel (.buf b) }
          setWorld (if listEmpty c.relFree (.buf b)
            then { c with relFree := c.relFree.insertHead .free (.buf b) } else c)
          unlockBottom flags

/-- `inval_block`. -/
def invalBlock (dev : Dev) (block : Nat) : KM (Cache n) Unit := do
  let flags ← lockbIde
  invalBlockLoop dev block flags turns

end Cnix.Fs.Lock
