/-
The mask of the bottom halves: `kernel/bottom.c`, and what `__sleepon` and
`wakeup` of `kernel/sched.c` do to it.

A bottom half that is raised runs at the end of an interrupt unless its
bit of `b_mask` is set. A function that must not be interrupted by one
saves the mask in a variable of its own, sets a bit of it or all of it,
and writes the variable back at the end. Nothing ties the two ends
together: what is written back is whatever the code passes.

A program is run with what the others do. `halves` is what the bottom
halves leave at the places where a mask is taken or given back, which is
where they may get in; `naps` is what the other processes leave, mask
included, each time the process sleeps. A process that is still asleep, a
loop that has not come to its end in the turns it was given, a `DIE` and a
pointer to nowhere all end the run.
-/
import Cnix.Basic

namespace Cnix.Kernel

/-- `enum bottom_t`. -/
inductive BottomT
  | timerB
  | ideB
  | keyboardB
  | floppyB
  | pcnet32B
  deriving DecidableEq, Repr

/-- The number of a bottom half. -/
def BottomT.idx : BottomT → Nat
  | .timerB => 0
  | .ideB => 1
  | .keyboardB => 2
  | .floppyB => 3
  | .pcnet32B => 4

/-- The bit of a bottom half in `b_mask`. -/
def BottomT.bit (b : BottomT) : BitVec 32 := 1#32 <<< b.idx

/-- Why a call has not returned. -/
inductive Halt
  | asleep
  | running
  | die
  | wild
  deriving DecidableEq, Repr

/-- The mask, the data a subsystem works on, and what the others are going
to do. -/
structure Kern (W : Type) where
  bMask : BitVec 32
  world : W
  naps : List (BitVec 32 × W)
  halves : List (Option W)

/-- Code of the kernel. -/
abbrev KM (W α : Type) := StateT (Kern W) (Except Halt) α

variable {W : Type}

-- ======== data

/-- The data as it is now. -/
def world : KM W W := do
  let k ← get
  return k.world

def setWorld (w : W) : KM W Unit := modify fun k => { k with world := w }

def modifyWorld (f : W → W) : KM W Unit := modify fun k => { k with world := f k.world }

/-- The bottom halves get in, unless all of them are masked. -/
def bottomHalves : KM W Unit := modify fun k =>
  if k.bMask = BitVec.allOnes 32 then k
  else
    match k.halves with
    | [] => k
    | none :: rest => { k with halves := rest }
    | some w :: rest => { k with world := w, halves := rest }

-- ======== the mask

def setMask (mask : BitVec 32) : KM W Unit := modify fun k => { k with bMask := mask }

/-- `save_bottom_mask`. -/
def saveBottomMask : KM W (BitVec 32) := do
  let k ← get
  return k.bMask

/-- `restore_bottom_mask`. -/
def restoreBottomMask (flags : BitVec 32) : KM W Unit := do
  setMask flags
  bottomHalves

/-- `lock_bottom`; it returns what it writes to `*flags`. -/
def lockBottom (b : BottomT) : KM W (BitVec 32) := do
  bottomHalves
  let flags ← saveBottomMask
  setMask (flags ||| b.bit)
  return flags

/-- `unlock_bottom`, which does not look at the number of the half. -/
def unlockBottom (flags : BitVec 32) : KM W Unit := restoreBottomMask flags

/-- `lock_all_bottom`. -/
def lockAllBottom : KM W (BitVec 32) := do
  bottomHalves
  let flags ← saveBottomMask
  setMask (BitVec.allOnes 32)
  return flags

/-- `unlock_all_bottom`. -/
def unlockAllBottom (flags : BitVec 32) : KM W Unit := restoreBottomMask flags

/-- `lockb_ide`. -/
def lockbIde : KM W (BitVec 32) := lockBottom .ideB

-- ======== sleep and wakeup

/-- `schedule`, until the process is chosen again. -/
def schedule : KM W Unit := do
  let k ← get
  match k.naps with
  | [] => throw .asleep
  | (mask, w) :: naps => set { k with bMask := mask, world := w, naps := naps }

/-- `__sleepon`. -/
def sleepon : KM W Unit := do
  let bflags ← lockAllBottom
  unlockAllBottom bflags
  let bflags ← saveBottomMask
  unlockAllBottom 0
  schedule
  restoreBottomMask bflags

/-- `wakeup`; whom it wakes is in what the others do. -/
def wakeup : KM W Unit := do
  let flags ← lockAllBottom
  unlockAllBottom flags

end Cnix.Kernel
