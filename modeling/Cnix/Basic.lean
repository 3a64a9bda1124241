/-
What every part of the kernel model shares: the word sizes of the
machine, `memcpy`, and the two ways in which a kernel function can fail to
return.

The kernel is not preemptive: a function runs to its end unless it calls
`sleepon` or hits one of the `DIE` checks. A modelled function that can
do either returns in `Except Trap`; a function that can do neither is a
plain total function.
-/
import Mathlib.Algebra.Order.Ring.Int
import Mathlib.Data.BitVec
import Mathlib.Logic.Function.Basic
import Cnix.Lib.Fifo

namespace Cnix

/-- The functions whose `DIE` checks are modelled. -/
inductive Site
  | getFreePages
  | freeOnePage
  | kmalloc
  | copyFromRing
  | skbCutData
  | insertTcpPacket
  | csTcpPacket
  | sendTcpDelayAck
  | rexmitTimerCallback
  | keepaliveTimerCallback
  | delayTimerCallback
  | startRexmtTimer
  | startKeepaliveTimer
  | stopDelayTimer
  | reasmTcpskb
  | tcpStateSynSent
  | minode
  | ilock
  | iput
  | iputNull
  | ifind
  | iinsert
  | idelete
  | iempty
  | doUnlink
  | doRmdir
  | doClose
  | doMount
  | sleepon
  | removeWaitQueue
  | getType
  | selectAdd
  | doSelect
  | splitSkb
  | delFromFragQueue
  | copyMmapPts
  | freePageTables
  | copyProcess
  deriving DecidableEq, Repr

/-- Why a call does not return: a failed `DIE` check stops the machine,
a sleep hands the processor to another process. -/
inductive Trap
  | die (site : Site)
  | sleep
  deriving DecidableEq, Repr

/-- A byte. -/
abbrev Byte := BitVec 8

/-- Whether an entry of a table is on a list, in all modules by one name. -/
instance decidableMemTable {n : Nat} (i : Fin n) (l : List (Fin n)) : Decidable (i ∈ l) :=
  inferInstance

/-- `memcpy(&data[pos], src, len)`. -/
def memcpy (data : Nat → Byte) (pos : Nat) (src : List Byte) : Nat → Byte :=
  fun i => if pos ≤ i ∧ i < pos + src.length then src.getD (i - pos) 0 else data i

/-- `memcpy(dest, &data[pos], len)`. -/
def memread (data : Nat → Byte) (pos len : Nat) : List Byte := (List.range' pos len).map data

theorem memread_eq_cells (data : Nat → Byte) (pos len : Nat) :
    memread data pos len = Lib.cells data pos len := by
  unfold memread Lib.cells
  rw [List.range'_eq_map_range, List.map_map]
  rfl

theorem cells_memcpy (data : Nat → Byte) (pos : Nat) (src : List Byte) :
    Lib.cells (memcpy data pos src) pos src.length = src := by
  refine List.ext_getElem (Lib.cells_length ..) fun k hk hk' => ?_
  rw [Lib.cells_getElem, memcpy, if_pos ⟨Nat.le_add_right .., Nat.add_lt_add_left hk' _⟩,
    Nat.add_sub_cancel_left, List.getD_eq_getElem?_getD, List.getElem?_eq_getElem hk', Option.getD_some]

/-- `PAGE_SHIFT`. -/
def pageShift : Nat := 12

/-- `PAGE_SIZE`. -/
def pageSize : Nat := 2 ^ pageShift

/-- `USER_ADDR`. -/
def userAddr : Nat := 0x40000000

/-- `MAP_NR`: the frame an address lies in. -/
def mapNr (addr : Nat) : Nat := addr / pageSize

/-- `addr & PAGE_MASK`. -/
def pageMask (addr : Nat) : Nat := addr / pageSize * pageSize

/-- `PAGE_ALIGN`. -/
def pageAlign (addr : Nat) : Nat := pageMask (addr + pageSize - 1)

/-- `x & ~(1 << bit)` on a 32-bit word. -/
def clearBit (x bit : Nat) : Nat := x &&& (2 ^ 32 - 1 - 2 ^ bit)

theorem testBit_clearBit {bit : Nat} (x : Nat) (hb : bit < 32) :
    (clearBit x bit).testBit bit = false := by
  unfold clearBit
  have hlt : 2 ^ bit < 2 ^ 32 := Nat.pow_lt_pow_right (by decide) hb
  have hmask : 2 ^ 32 - 1 - 2 ^ bit = 2 ^ 32 - (2 ^ bit + 1) := by omega
  rw [Nat.testBit_and, hmask, Nat.testBit_two_pow_sub_succ hlt]
  simp

end Cnix
