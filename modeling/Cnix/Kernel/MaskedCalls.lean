/-
`kmalloc`, `kfree`, `tcp_write` and `tcp_sendmsg` with the mask of the
bottom halves, and the calls that are to leave it as it was.

`tcp_write` has two variables whose names end in `flags`: the `MSG` flags
it was called with, and `bflags`, where it saves the mask. It gives back
the mask from the first one in two places, one of which is its end.

A buffer of `tcp_write` is shorter than 2^31 bytes.
-/
import Cnix.Fs.BufferLock
import Cnix.Fs.Pipe
import Cnix.Mm.Kmalloc
import Cnix.Net.TcpListen

namespace Cnix.Mm.Lock

open Cnix.Kernel

/-- The label `try_again` of `get_free_pages`. -/
def getFreePagesLoop (attr order : Nat) (flags : BitVec 32) : Nat → KM Heap Nat
  | 0 => throw .running
  | turns + 1 => do
    let h ← world
    match PageAlloc.getFreePages attr order h.pa with
    | .error .sleep => do
      sleepon
      getFreePagesLoop attr order flags turns
    | .error (.die _) => throw .die
    | .ok (addr, pa) => do
      setWorld { h with pa := pa }
      unlockAllBottom flags
      return addr

/-- `get_free_pages`. -/
def getFreePages (turns attr order : Nat) : KM Heap Nat :=
  if nrFreeList ≤ order then throw .die
  else do
    let flags ← lockAllBottom
    getFreePagesLoop attr order flags turns

/-- `kmalloc` with the page block to take from. -/
def takeBlock (order pg : Nat) (flags : BitVec 32) : KM Heap Nat := do
  let h ← world
  match h.takeBlock order pg with
  | .error _ => throw .die
  | .ok (p, h) => do
    setWorld h
    unlockAllBottom flags
    return p

/-- `kmalloc`. -/
def kmalloc (turns : Nat) (size : Int) (attr : Nat) : KM Heap Nat :=
  let order := Heap.bucketOf size.toNat
  if blocksize order = 0 then return 0
  else do
    let flags ← lockAllBottom
    let h ← world
    match h.firstWithFree order with
    | some pg => takeBlock order pg flags
    | none => do
      let addr ← getFreePages turns attr (h.sizes order).gfporder
      if addr = 0 then
        unlockAllBottom flags
        return 0
      else
        modifyWorld fun h => h.newPage order addr
        takeBlock order addr flags

/-- `kfree`; `__free_pages` takes the mask once more. -/
def kfree (p : Nat) : KM Heap Unit := do
  let pg := pageMask p
  let flags ← lockAllBottom
  modifyWorld fun h => h.putBlock pg p
  let h ← world
  let order := (h.pd pg).order
  if (h.pd pg).nfrees = (h.sizes order).nblocks then
    let flags ← lockAllBottom
    modifyWorld fun h => h.releasePages order pg
    unlockAllBottom flags
  else if (h.sizes order).list.head? ≠ some pg then
    setWorld (h.moveFront order pg)
  unlockAllBottom flags

end Cnix.Mm.Lock

namespace Cnix.Net.Lock

open Cnix.Kernel

/-- The connection of a socket, and whether the process has a signal. -/
structure Conn where
  tserv : Option TcpServ
  anysig : Bool

/-- `MSG_OOB` and `MSG_DONTWAIT`. -/
def msgOob : BitVec 32 := 0x01
def msgDontwait : BitVec 32 := 0x40

def efault : Int := 14

/-- `*serv`. -/
def theServ : KM Conn TcpServ := do
  let w ← world
  match w.tserv with
  | none => throw .wild
  | some serv => return serv

def setServ (serv : TcpServ) : KM Conn Unit := modifyWorld fun w => { w with tserv := some serv }

/-- `wait_response` without a timeout. -/
def waitResponse (rflag : Bool) : KM Conn Int := do
  let flags ← lockAllBottom
  let serv ← theServ
  match Net.waitResponse serv rflag with
  | some ret => do
    unlockAllBottom flags
    return ret
  | none => do
    sleepon
    let w ← world
    unlockAllBottom flags
    return if w.anysig then -Fs.eintr else 1

/-- `tcp_write` starts the timer if its round has filled the ring. -/
def startIfFull : KM Conn Unit := do
  let bflags ← lockAllBottom
  let serv ← theServ
  setServ serv.tcpWriteFull
  unlockAllBottom bflags

/-- A round of `tcp_write`: the number of bytes that went into the ring. -/
def writeRound (flags : BitVec 32) (buffer : List Byte) : KM Conn Nat := do
  let bflags ← lockAllBottom
  let serv ← theServ
  let (serv, writing) := serv.tcpWrite buffer (flags &&& msgOob ≠ 0)
  if writing = 0 then
    -- the `MSG` flags
    unlockAllBottom flags
    return 0
  else
    setServ serv
    unlockAllBottom bflags
    startIfFull
    return writing

/-- The `while` of `tcp_write`: an error that is returned at once, or the
number of bytes written. -/
def tcpWriteLoop (flags : BitVec 32) : Nat → List Byte → Nat → KM Conn (Except Int Nat)
  | 0, _, _ => throw .running
  | turns + 1, buffer, writed =>
    if buffer = [] then return .ok writed
    else do
      let ret ← waitResponse false
      if ret < 0 then return .error ret
      else if ret = 0 ∨ flags &&& msgDontwait ≠ 0 then return .ok writed
      else
        let writing ← writeRound flags buffer
        if writing = 0 then return .ok writed
        else tcpWriteLoop flags turns (buffer.drop writing) (writed + writing)

/-- `tcp_write` behind its loop. -/
def tcpWriteEnd (flags : BitVec 32) : KM Conn Unit := do
  let _bflags ← lockAllBottom
  let serv ← theServ
  setServ serv.restartDelayTimer
  -- the `MSG` flags again
  unlockAllBottom flags

/-- `tcp_write`. -/
def tcpWrite (turns : Nat) (buffer : List Byte) (flags : BitVec 32) : KM Conn Int := do
  let w ← world
  match w.tserv with
  | none => return -enotconn
  | some _ => do
    match ← tcpWriteLoop flags turns buffer 0 with
    | .error ret => return ret
    | .ok writed => do
      tcpWriteEnd flags
      return writed

/-- `struct msghdr`: its array of buffers, `none` if there is none; each
buffer, `none` if the process may not read it; the length of the array,
and whether the process may read it. -/
structure Msghdr where
  iov : Option (Nat → Option (List Byte))
  iovlen : Int
  readable : Bool

/-- Only the last buffer has out-of-band data. -/
def sendFlags (flags : BitVec 32) (left : Nat) : BitVec 32 :=
  if flags &&& msgOob ≠ 0 ∧ left ≠ 0 then flags &&& ~~~msgOob else flags

/-- The `for` of `tcp_sendmsg`: `left` more buffers follow. -/
def sendmsgLoop (turns : Nat) (iov : Nat → Option (List Byte)) (flags : BitVec 32) :
    Nat → Nat → Nat → KM Conn Int
  | 0, _, total => return total
  | left + 1, i, total =>
    match iov i with
    | none => return -efault
    | some buffer => do
      let ret ← tcpWrite turns buffer (sendFlags flags left)
      if ret < 0 then return ret
      else if ret = 0 then return total
      else sendmsgLoop turns iov flags left (i + 1) (total + buffer.length)

/-- `tcp_sendmsg`. -/
def tcpSendmsg (turns : Nat) (message : Msghdr) (flags : BitVec 32) : KM Conn Int :=
  match message.iov with
  | none => return -einval
  | some iov =>
    if message.iovlen < 0 then return -einval
    else if !message.readable then return -efault
    else sendmsgLoop turns iov flags message.iovlen.toNat 0 0

end Cnix.Net.Lock

namespace Cnix.Kernel

open Cnix.Fs (Dev)
open Cnix.Fs.Lock (Cache)
open Cnix.Net.Lock (Conn Msghdr)

-- ======== the calls

/-- What a call starts from and what the others do meanwhile; `turns`
bounds its loops. -/
structure Start (W : Type) where
  world : W
  naps : List (BitVec 32 × W)
  halves : List (Option W)
  turns : Nat

/-- The kernel as the call finds it. -/
def Start.kern {W : Type} (st : Start W) (mask : BitVec 32) : Kern W :=
  ⟨mask, st.world, st.naps, st.halves⟩

/-- The calls on the buffer cache. -/
inductive CacheCall (n : Nat)
  | getblk (dev : Dev) (block : Nat)
  | bread (dev : Dev) (block : Nat)
  | bwrite (b : Fin n)
  | brelse (bh : Option (Fin n))
  | bsync
  | invalBlock (dev : Dev) (block : Nat)
  | invalDev (dev : Dev)

/-- The calls on the heap. -/
inductive HeapCall
  | kmalloc (size : Int) (attr : Nat)
  | kfree (p : Nat)

/-- The calls on a connection. -/
inductive ConnCall
  | tcpWrite (buffer : List Byte) (flags : BitVec 32)
  | tcpSendmsg (message : Msghdr) (flags : BitVec 32)

/-- A call, from any state of what it works on. -/
inductive MaskedCall (n : Nat)
  | cache (call : CacheCall n) (st : Start (Cache n))
  | heap (call : HeapCall) (st : Start Mm.Heap)
  | conn (call : ConnCall) (st : Start Conn)

def CacheCall.run {n : Nat} (turns : Nat) : CacheCall n → KM (Cache n) Unit
  | .getblk dev block => do
    let _ ← Fs.Lock.getblk turns dev block
    return ()
  | .bread dev block => do
    let _ ← Fs.Lock.bread turns dev block
    return ()
  | .bwrite b => Fs.Lock.bwrite turns b
  | .brelse bh => Fs.Lock.brelse bh
  | .bsync => Fs.Lock.bsync turns
  | .invalBlock dev block => Fs.Lock.invalBlock turns dev block
  | .invalDev dev => Fs.Lock.invalDev turns dev

def HeapCall.run (turns : Nat) : HeapCall → KM Mm.Heap Unit
  | .kmalloc size attr => do
    let _ ← Mm.Lock.kmalloc turns size attr
    return ()
  | .kfree p => Mm.Lock.kfree p

def ConnCall.run (turns : Nat) : ConnCall → KM Conn Unit
  | .tcpWrite buffer flags => do
    let _ ← Net.Lock.tcpWrite turns buffer flags
    return ()
  | .tcpSendmsg message flags => do
    let _ ← Net.Lock.tcpSendmsg turns message flags
    return ()

/-- The mask when code returns. -/
def maskAfter {W : Type} (x : KM W Unit) (k : Kern W) : Option (BitVec 32) :=
  match x k with
  | .ok (_, k') => some k'.bMask
  | .error _ => none

/-- The mask when a call returns; `none` if it does not. -/
def MaskedCall.after {n : Nat} (mask : BitVec 32) : MaskedCall n → Option (BitVec 32)
  | .cache call st => maskAfter (call.run st.turns) (st.kern mask)
  | .heap call st => maskAfter (call.run st.turns) (st.kern mask)
  | .conn call st => maskAfter (call.run st.turns) (st.kern mask)

end Cnix.Kernel
