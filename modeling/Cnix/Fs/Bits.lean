/-
`bitalloc`, `bitfree` and `get_free_bits_nr` of `fs/super.c` on any volume
that `sread` accepts.

`sread` checks neither where the first data zone is nor how many bits the
bitmaps have, so the numbers of a volume can be odd: fewer zones than
zones before the data, a first data zone 0, bitmaps that are too short.
What the functions compute from them wraps as it does in the source, where
a number is a `bit_t` and the limit of `get_free_bits_nr` an `int`. The
volumes of `Cnix.Fs.Super` are those with sensible numbers.
-/
import Mathlib.Data.Nat.Count
import Cnix.Fs.BitSearch
import Cnix.Fs.Mount

namespace Cnix.Fs

open Lib

/-- `bit_t`. -/
abbrev Bit := BitVec 32

/-- The fields of a super block that `sread` has accepted. -/
structure Geometry extends DiskSuper where
  fdzone : Nat
  accepted : toDiskSuper.good = true
  ninodes_lt : ninodes < 2 ^ 16
  imblocks_lt : imblocks < 2 ^ 15
  zmblocks_lt : zmblocks < 2 ^ 15
  fdzone_lt : fdzone < 2 ^ 16
  zones_lt : zones < 2 ^ 32

namespace Geometry

variable (sp : Geometry)

/-- `bit_blocks`. -/
def bitBlocks : Which → Nat
  | .imap => sp.imblocks.toNat
  | .zmap => sp.zmblocks.toNat

/-- `from_block`. -/
def fromBlock : Which → Nat
  | .imap => superBlock + 1
  | .zmap => superBlock + 1 + sp.imblocks.toNat

/-- `max_bit` of `bitalloc`. -/
def maxBit : Which → Bit
  | .imap => BitVec.ofNat 32 sp.ninodes
  | .zmap => BitVec.ofNat 32 sp.zones - BitVec.ofNat 32 sp.fdzone

/-- What `bitalloc` returns for a bit. -/
def number (which : Which) (bit : Bit) : Bit :=
  match which with
  | .imap => bit
  | .zmap => bit + (BitVec.ofNat 32 sp.fdzone - 1)

/-- The bit that `bitfree` clears for a number. -/
def bitOf (which : Which) (v : Bit) : Bit :=
  match which with
  | .imap => v
  | .zmap => v - (BitVec.ofNat 32 sp.fdzone - 1)

/-- `max_bit` of `bitfree`. -/
def maxFree : Which → Bit
  | .imap => BitVec.ofNat 32 sp.ninodes - 1
  | .zmap => BitVec.ofNat 32 sp.zones - BitVec.ofNat 32 sp.fdzone - 1

end Geometry

/-- A super block in memory, and the blocks of its device. -/
structure Mounted where
  sp : Geometry
  roflag : Bool
  isearch : Nat
  zsearch : Nat
  blk : Nat → Block

namespace Mounted

variable (m : Mounted)

/-- Where the search starts. -/
def search : Which → Nat
  | .imap => m.isearch
  | .zmap => m.zsearch

/-- Set where the next search starts. -/
def setSearch (which : Which) (bit : Nat) : Mounted :=
  match which with
  | .imap => { m with isearch := bit }
  | .zmap => { m with zsearch := bit }

/-- A block is written. -/
def put (block : Nat) (data : Block) : Mounted :=
  { m with blk := Function.update m.blk block data }

/-- The block of a bit. -/
def mapBlock (which : Which) (bit : Nat) : Nat := m.sp.fromBlock which + bit / bitsPerBlock

/-- `from_bit`: where `bitalloc` starts, after its "run round". -/
def fromBit (which : Which) : Nat :=
  if (m.sp.maxBit which).toNat < m.search which then 1 else m.search which

/-- The search of `bitalloc`. -/
def findBit (which : Which) : Option Nat :=
  let block := m.fromBit which / bitsPerBlock
  searchMap m.blk (m.sp.fromBlock which) (m.sp.maxBit which).toNat
    (m.sp.bitBlocks which - block) block

/-- `*tmp |= 1 << j`, and the next search starts behind the bit. -/
def takeBit (which : Which) (bit : Nat) : Mounted :=
  (m.put (m.mapBlock which bit) (setBit (m.blk (m.mapBlock which bit))
    (bit % bitsPerBlock))).setSearch which (bit + 1)

/-- `bitalloc`. -/
def bitalloc (which : Which) : Bit × Mounted :=
  if m.roflag then (BitVec.ofNat 32 nobit, m)
  else
    match m.findBit which with
    | none => (BitVec.ofNat 32 nobit, m)
    | some bit => (m.sp.number which (BitVec.ofNat 32 bit), m.takeBit which bit)

/-- `*tmp &= ~(1 << j)`. The next search starts at the bit's place within
its block if that is lower. -/
def dropBit (which : Which) (bit : Nat) : Mounted :=
  let m' := m.put (m.mapBlock which bit)
    (clearBitAt (m.blk (m.mapBlock which bit)) (bit % bitsPerBlock))
  if bit % bitsPerBlock < m.search which then m'.setSearch which (bit % bitsPerBlock) else m'

/-- `bitfree`. -/
def bitfree (v : Bit) (which : Which) : Mounted :=
  if m.roflag then m
  else if m.sp.maxFree which < m.sp.bitOf which v then m
  else m.dropBit which (m.sp.bitOf which v).toNat

end Mounted

-- ======== the count

/-- `get_zero_bits`. -/
def getZeroBits (val : BitVec 32) (bits : Nat) : Nat :=
  Nat.count (fun i => val.getLsbD i = false) (if 32 < bits then 32 else bits)

/-- The loop of `get_free_bits_nr` over the words of a block, from word
`i` on: the new values of `bit` and `count`. -/
def countWords (data : Block) (maxBitIndex : Int) : Nat → Nat → Nat → Nat → Nat × Nat
  | 0, _, bit, count => (bit, count)
  | left + 1, i, bit, count =>
    if maxBitIndex < bit then (bit, count)
    else
      let bitNum := if maxBitIndex < bit + 32 then (maxBitIndex - bit + 1).toNat else 32
      countWords data maxBitIndex left (i + 1) (bit + bitNum)
        (count + getZeroBits (word data i) bitNum)

/-- The loop over the blocks. -/
def countBlocks (blk : Nat → Block) (base : Nat) (maxBitIndex : Int) :
    Nat → Nat → Nat → Nat → Nat
  | 0, _, _, count => count
  | rounds + 1, block, bit, count =>
    let (bit, count) := countWords (blk (base + block)) maxBitIndex (blocksiz / 4) 0 bit count
    if maxBitIndex < bit then count
    else countBlocks blk base maxBitIndex rounds (block + 1) bit count

/-- `get_free_bits_nr`: the count, if no read fails. -/
def Mounted.getFreeBitsNr (m : Mounted) (which : Which) : Nat :=
  countBlocks m.blk (m.sp.fromBlock which) (m.sp.maxBit which).toInt (m.sp.bitBlocks which) 0 0 0

end Cnix.Fs
