/-
A mounted volume and the bitmaps of `fs/super.c`.

The disk is seen through a coherent block store: `bread` gives the bytes
last put into a block, and no read or write fails. What a function does
to `b_data` between `getblk` and `brelse` is a change of the store. The
locks of the super block are left out, since the modelled calls do not
overlap on one volume.

`sread` refuses a volume whose zones are not single blocks, so a zone
number is a block number and `s_lzsize` does not appear.
-/
import Cnix.Basic
import Cnix.Lib.Words

namespace Cnix.Fs

open Lib

/-- `BLOCKSIZ`. -/
def blocksiz : Nat := 0x400

/-- `b_data`. -/
abbrev Block := Lib.Bytes

/-- `BITS_PER_BLOCK`. -/
def bitsPerBlock : Nat := blocksiz * 8

/-- `SUPER_BLOCK`. -/
def superBlock : Nat := 1

/-- The fields of `struct super_block` that come from the disk, of a
volume whose bitmaps lie before the first data zone and have a bit for
every inode and every zone. -/
structure SuperBlock where
  ninodes : Nat
  imblocks : Nat
  zmblocks : Nat
  zones : Nat
  fdzone : Nat
  roflag : Bool
  layout : superBlock + 1 + imblocks + zmblocks ≤ fdzone
  some_inode : 0 < ninodes
  some_zone : fdzone < zones
  imap_covers : ninodes ≤ imblocks * bitsPerBlock
  zmap_covers : zones - fdzone < zmblocks * bitsPerBlock
  zones_lt : zones < 2 ^ 32

/-- A mounted volume: the super block, where the next searches of the
bitmaps start, and the blocks. -/
structure Volume where
  sp : SuperBlock
  isearch : Nat
  zsearch : Nat
  blk : Nat → Block

/-- A block is written. -/
def Volume.put (vol : Volume) (block : Nat) (data : Block) : Volume :=
  { vol with blk := Function.update vol.blk block data }

@[simp] theorem Volume.put_sp (vol : Volume) (block : Nat) (data : Block) :
    (vol.put block data).sp = vol.sp := rfl

theorem Volume.put_blk (vol : Volume) (block : Nat) (data : Block) (b : Nat) :
    (vol.put block data).blk b = if b = block then data else vol.blk b :=
  Function.update_apply ..

/-- `IMAP` or `ZMAP`. -/
inductive Which
  | imap
  | zmap
  deriving DecidableEq, Repr

/-- `from_block`: where the bitmap starts. -/
def SuperBlock.fromBlock (sp : SuperBlock) : Which → Nat
  | .imap => superBlock + 1
  | .zmap => superBlock + 1 + sp.imblocks

/-- `bit_blocks`. -/
def SuperBlock.bitBlocks (sp : SuperBlock) : Which → Nat
  | .imap => sp.imblocks
  | .zmap => sp.zmblocks

/-- `max_bit` of `bitalloc`. -/
def SuperBlock.maxBit (sp : SuperBlock) : Which → Nat
  | .imap => sp.ninodes
  | .zmap => sp.zones - sp.fdzone

/-- Where the search starts. -/
def Volume.search (vol : Volume) : Which → Nat
  | .imap => vol.isearch
  | .zmap => vol.zsearch

/-- Set where the next search starts. -/
def Volume.setSearch (vol : Volume) (which : Which) (bit : Nat) : Volume :=
  match which with
  | .imap => { vol with isearch := bit }
  | .zmap => { vol with zsearch := bit }

/-- The first word that is not full. -/
def firstWord (data : Block) : Option Nat :=
  (List.range (blocksiz / 4)).find? fun i => word data i < 0xffffffff#32

/-- The lowest bit of a word that is 0. -/
def firstZero (w : BitVec 32) : Nat :=
  ((List.range 32).find? fun j => !w.getLsbD j).getD 32

/-- The loop of `bitalloc` over the blocks of the bitmap that starts at block
`base`. A first bit that is 0 but beyond `max_bit` ends the search, too. -/
def searchMap (blk : Nat → Block) (base maxBit : Nat) : Nat → Nat → Option Nat
  | 0, _ => none
  | rounds + 1, block =>
    let data := blk (base + block)
    match firstWord data with
    | none => searchMap blk base maxBit rounds (block + 1)
    | some i =>
      let bit := block * bitsPerBlock + i * 32 + firstZero (word data i)
      if maxBit < bit then none else some bit

/-- `NOBIT`. -/
def nobit : Nat := 0

/-- `bitalloc`: the bit, or the zone it stands for, or `NOBIT`. -/
def bitalloc (vol : Volume) (which : Which) : Nat × Volume :=
  if vol.sp.roflag then (nobit, vol)
  else
    let start := vol.search which
    let fromBit := if vol.sp.maxBit which < start then 1 else start
    let block := fromBit / bitsPerBlock
    match searchMap vol.blk (vol.sp.fromBlock which) (vol.sp.maxBit which)
      (vol.sp.bitBlocks which - block) block with
    | none => (nobit, vol)
    | some bit =>
      let mapBlock := vol.sp.fromBlock which + bit / bitsPerBlock
      let vol := (vol.put mapBlock (setBit (vol.blk mapBlock) (bit % bitsPerBlock))).setSearch
        which (bit + 1)
      match which with
      | .imap => (bit, vol)
      | .zmap => (bit + vol.sp.fdzone - 1, vol)

/-- `bitfree` of a bit within the bounds. The next search starts at the
bit's place within its block if that is lower. -/
def clearMapBit (vol : Volume) (which : Which) (bit : Nat) : Volume :=
  let mapBlock := vol.sp.fromBlock which + bit / bitsPerBlock
  let vol := vol.put mapBlock (clearBitAt (vol.blk mapBlock) (bit % bitsPerBlock))
  if bit % bitsPerBlock < vol.search which then
    vol.setSearch which (bit % bitsPerBlock)
  else vol

/-- `bitfree`. The bound is one less than the one of `bitalloc`. A zone
before the data zones wraps to a bit far beyond it. -/
def bitfree (vol : Volume) (bit : Nat) (which : Which) : Volume :=
  if vol.sp.roflag then vol
  else
    match which with
    | .imap =>
      if vol.sp.ninodes - 1 < bit then vol else clearMapBit vol .imap bit
    | .zmap =>
      if bit + 1 < vol.sp.fdzone
          ∨ vol.sp.zones - vol.sp.fdzone - 1 < bit + 1 - vol.sp.fdzone then vol
      else clearMapBit vol .zmap (bit + 1 - vol.sp.fdzone)

end Cnix.Fs
