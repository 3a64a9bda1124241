/-
The zones of a file: `bmap`, `minode` and `calc_block_nr` of
`fs/util.c`, `truncate` of `fs/link.c`.

An inode has seven direct zones, a zone of 256 zone numbers, and a zone
of 256 zones of 256 zone numbers. Zone 0 stands for no zone. `i_dirty`
and `i_update`, which say when the inode goes to the disk, are left out:
nothing that is modelled reads an inode from the disk.
-/
import Cnix.Fs.Super

namespace Cnix.Fs

open Lib

/-- `NR_DZONES`. -/
def nrDzones : Nat := 7

/-- `NR_INDIRECTS`. -/
def nrIndirects : Nat := blocksiz / 4

/-- `FILESIZE_MAX`. -/
def filesizeMax : Nat :=
  nrDzones * blocksiz + nrIndirects * blocksiz + nrIndirects * nrIndirects * blocksiz

/-- `NOZONE` and `NOBLOCK`. -/
def nozone : Nat := 0

/-- `struct inode`. -/
structure Inode where
  size : Nat
  zone : Nat → Nat

/-- `inoptr->i_zone[i] = zone`. -/
def Inode.setZone (ino : Inode) (i zone : Nat) : Inode :=
  { ino with zone := Function.update ino.zone i zone }

/-- `get_zone(bh->b_data, i)` of a block that was read. -/
def Volume.getZone (vol : Volume) (block i : Nat) : Nat := (word (vol.blk block) i).toNat

/-- `get_zone(bh->b_data, i) = zone`. -/
def Volume.setZone (vol : Volume) (block i zone : Nat) : Volume :=
  vol.put block (setWord (vol.blk block) i (BitVec.ofNat 32 zone))

/-- `memset(bh->b_data, 0, BLOCKSIZ)`. -/
def zeroBlock : Block := fun _ => 0

/-- `bmap`. -/
def bmap (vol : Volume) (ino : Inode) (pos : Nat) : Nat :=
  let zonePos := pos / blocksiz
  if zonePos < nrDzones then ino.zone zonePos
  else
    let excess := zonePos - nrDzones
    if excess < nrIndirects then
      if ino.zone nrDzones = nozone then nozone
      else vol.getZone (ino.zone nrDzones) excess
    else
      let excess := excess - nrIndirects
      if ino.zone (nrDzones + 1) = nozone then nozone
      else
        let zone := vol.getZone (ino.zone (nrDzones + 1)) (excess / nrIndirects)
        if zone = nozone then nozone
        else vol.getZone zone (excess % nrIndirects)

/-- An indirect zone of `minode`: the zone that is there, or a new one
with a cleared block, or `NOZONE` if the volume is full. -/
def openIndirect (vol : Volume) (zone : Nat) : Nat × Volume :=
  if zone ≠ nozone then (zone, vol)
  else
    match bitalloc vol .zmap with
    | (0, vol) => (nozone, vol)
    | (tmpzone, vol) => (tmpzone, vol.put tmpzone zeroBlock)

/-- The end of `minode` under the double indirect zone `zone`. -/
def minodeDouble (vol : Volume) (ino : Inode) (zone excess data : Nat) :
    Except Trap (Bool × Volume × Inode) :=
  let index := excess / nrIndirects
  let old := vol.getZone zone index
  match openIndirect vol old with
  | (0, vol) => .ok (false, vol, ino)
  | (tmpzone, vol) =>
    let vol := if old = nozone then vol.setZone zone index tmpzone else vol
    if vol.getZone tmpzone (excess % nrIndirects) ≠ nozone then .error (.die .minode)
    else .ok (true, vol.setZone tmpzone (excess % nrIndirects) data, ino)

/-- `minode`: enter zone `data` at position `pos`. -/
def minode (vol : Volume) (ino : Inode) (pos data : Nat) :
    Except Trap (Bool × Volume × Inode) :=
  let zonePos := pos / blocksiz
  if zonePos < nrDzones then .ok (true, vol, ino.setZone zonePos data)
  else
    let excess := zonePos - nrDzones
    if excess < nrIndirects then
      match openIndirect vol (ino.zone nrDzones) with
      | (0, vol) => .ok (false, vol, ino)
      | (tmpzone, vol) =>
        .ok (true, vol.setZone tmpzone excess data, ino.setZone nrDzones tmpzone)
    else
      match openIndirect vol (ino.zone (nrDzones + 1)) with
      | (0, vol) => .ok (false, vol, ino)
      | (tmpzone, vol) =>
        minodeDouble vol (ino.setZone (nrDzones + 1) tmpzone) tmpzone
          (excess - nrIndirects) data

-- ======== block count

/-- `DIRNSIZE`. -/
def dirnsize : Nat := nrDzones * blocksiz

/-- `INDIRNSIZE`. -/
def indirnsize : Nat := nrDzones * blocksiz + nrIndirects * blocksiz

/-- `calc_block_nr`, in units of 512 bytes. -/
def calcBlockNr (length : Nat) : Nat :=
  let blocks := blocksiz / 512
  if length = 0 then 0
  else if length ≤ dirnsize then (length + blocksiz - 1) / blocksiz * blocks
  else if length ≤ indirnsize then
    (nrDzones + 1 + (length - dirnsize + blocksiz - 1) / blocksiz) * blocks
  else if filesizeMax < length then filesizeMax / blocksiz * blocks
  else
    let tmp := length - indirnsize
    (nrDzones + 1 + (tmp + nrIndirects * blocksiz - 1) / (nrIndirects * blocksiz)
      + (tmp + blocksiz - 1) / blocksiz) * blocks

-- ======== truncation

/-- One round of `freezones`, on the zone numbers in block `block`.
`inval_block` throws the cached bytes of the freed zone away; `disk` says
what its block holds then. -/
def freeEntry (disk : Nat → Block) (vol : Volume) (block i : Nat) : Volume :=
  let zone := vol.getZone block i
  let vol := if zone ≠ nozone then bitfree (vol.put zone (disk zone)) zone .zmap else vol
  vol.setZone block i nozone

/-- `freezones` of the first `howmuch` zone numbers. -/
def freezones (disk : Nat → Block) (vol : Volume) (block : Nat) : Nat → Volume
  | 0 => vol
  | i + 1 => freeEntry disk (freezones disk vol block i) block i

/-- `truncate`, the direct zones. -/
def freeDirect (vol : Volume) (ino : Inode) : Nat → Volume × Inode
  | 0 => (vol, ino)
  | i + 1 =>
    let (vol, ino) := freeDirect vol ino i
    let vol := if ino.zone i ≠ nozone then bitfree vol (ino.zone i) .zmap else vol
    (vol, ino.setZone i nozone)

/-- `truncate`, the single indirect zone. -/
def freeSingle (disk : Nat → Block) (vol : Volume) (ino : Inode) : Volume × Inode :=
  let zone := ino.zone nrDzones
  if zone ≠ nozone then
    (bitfree (freezones disk vol zone nrIndirects) zone .zmap, ino.setZone nrDzones nozone)
  else (vol, ino)

/-- One round of the loop over the double indirect zone `zone`. -/
def freeMid (disk : Nat → Block) (vol : Volume) (zone i : Nat) : Volume :=
  let zone1 := vol.getZone zone i
  if zone1 ≠ nozone then
    bitfree ((freezones disk vol zone1 nrIndirects).setZone zone i nozone) zone1 .zmap
  else vol

/-- The first `howmuch` rounds of this loop. -/
def freeMids (disk : Nat → Block) (vol : Volume) (zone : Nat) : Nat → Volume
  | 0 => vol
  | i + 1 => freeMid disk (freeMids disk vol zone i) zone i

/-- `truncate`, the double indirect zone. -/
def freeDouble (disk : Nat → Block) (vol : Volume) (ino : Inode) : Volume × Inode :=
  let zone := ino.zone (nrDzones + 1)
  if zone ≠ nozone then
    (bitfree (freeMids disk vol zone nrIndirects) zone .zmap,
      ino.setZone (nrDzones + 1) nozone)
  else (vol, ino)

/-- `truncate`. How far it goes depends on the size of the file. -/
def truncate (disk : Nat → Block) (vol : Volume) (ino : Inode) : Volume × Inode :=
  if ino.size = 0 then (vol, ino)
  else
    let r := freeDirect vol ino nrDzones
    let r := if ino.size ≤ nrDzones * blocksiz then r else freeSingle disk r.1 r.2
    let r := if ino.size ≤ (nrDzones + nrIndirects) * blocksiz then r
      else freeDouble disk r.1 r.2
    (r.1, { r.2 with size := 0 })

end Cnix.Fs
