/-
The entries of a directory: `iinsert` of `fs/util.c`, and the search of
`ifind`.

A directory is a file of `struct direct`, 32 to a block. An entry with
the inode number 0 is free. The functions go through the blocks one by
one and stop at a block that is not there.

`strncpy` of the kernel writes a zero behind the bytes it has copied. A
name of 29 or 30 bytes makes it the first byte of the next entry, which
is the low byte of an inode number. In the last entry of a block it falls
behind the block and is not modelled.
-/
import Cnix.Fs.Core

namespace Cnix.Fs

/-- A character of a C string. -/
abbrev Letter := { b : Byte // b ≠ 0 }

/-- A C string. -/
abbrev Name := List Letter

/-- The string in front of the first zero. -/
def cstring : List Byte → Name
  | [] => []
  | b :: rest => if h : b ≠ 0 then ⟨b, h⟩ :: cstring rest else []

def bytes (name : Name) : List Byte := name.map (·.val)

def slash : Letter := ⟨0x2f#8, by decide⟩

/-- The names `.` and `..`. -/
def dot : Name := [⟨0x2e#8, by decide⟩]
def dotdot : Name := [⟨0x2e#8, by decide⟩, ⟨0x2e#8, by decide⟩]

/-- The names of the examples. -/
def nameB : Name := [⟨0x62#8, by decide⟩]
def nameF : Name := [⟨0x66#8, by decide⟩]
def nameL : Name := [⟨0x6c#8, by decide⟩]

/-- `NAME_MAX`. -/
def nameMax : Nat := 30

/-- `DIRECT_SIZE`. -/
def directSize : Nat := 32

/-- `BLOCKSIZ / DIRECT_SIZE`. -/
def directs : Nat := blocksiz / directSize

/-- `struct direct`. -/
structure Direct where
  ino : Nat
  name : Name
  deriving DecidableEq

/-- Entry `i` of a block. -/
def direct (data : Block) (i : Nat) : Direct where
  ino := (data (directSize * i)).toNat + 256 * (data (directSize * i + 1)).toNat
  name := cstring (memread data (directSize * i + 2) nameMax)

/-- What `strncpy(d_name, name, NAME_MAX)` writes. -/
def strncpy (name : Name) : List Byte := (bytes name ++ [0]).take nameMax ++ [0]

/-- `d_ino = ino`. -/
def putIno (data : Block) (i ino : Nat) : Block :=
  memcpy data (directSize * i) [BitVec.ofNat 8 ino, BitVec.ofNat 8 (ino / 256)]

/-- The name and the number are set, in this order. -/
def putDirect (data : Block) (i : Nat) (e : Direct) : Block :=
  putIno (memcpy data (directSize * i + 2) (strncpy e.name)) i e.ino

-- ======== through the blocks

/-- How a loop over the blocks of a directory ends: at a block that is not
there, at an entry, or behind the last block. -/
inductive Scan
  | hole
  | hit (pos block i : Nat)
  | done

/-- The first of the entries before `count` that `look` is after. -/
def firstDirect (look : Direct → Bool) (data : Block) (count : Nat) : Option Nat :=
  (List.range count).find? fun i => look (direct data i)

/-- `rounds` rounds of a loop from `pos` on, `count` telling how many
entries of a block it looks at. -/
def scanBlocks (vol : Volume) (ino : Inode) (look : Direct → Bool) (count : Nat → Nat) :
    Nat → Nat → Scan
  | 0, _ => .done
  | rounds + 1, pos =>
    match bmap vol ino pos with
    | 0 => .hole
    | block =>
      match firstDirect look (vol.blk block) (count pos) with
      | some i => .hit pos block i
      | none => scanBlocks vol ino look count rounds (pos + blocksiz)

/-- The blocks that start before `i_size`. -/
def Inode.blocks (ino : Inode) : Nat := (ino.size + blocksiz - 1) / blocksiz

/-- A loop that looks at all entries of its blocks. -/
def scanAll (vol : Volume) (ino : Inode) (look : Direct → Bool) : Scan :=
  scanBlocks vol ino look (fun _ => directs) ino.blocks 0

/-- `strncmp(name, dirptr->d_name, NAME_MAX) == 0`. -/
def Direct.named (name : Name) (e : Direct) : Bool := name.take nameMax == e.name

/-- The test of `ifind`. -/
def Direct.matches (name : Name) (e : Direct) : Bool := e.ino != 0 && e.named name

/-- The loop of `ifind`: the number of the first entry with the name. It
leaves out what is behind `i_size`. -/
def dirSearch (vol : Volume) (ino : Inode) (name : Name) : Option Nat :=
  let count (pos : Nat) : Nat :=
    if ino.size - pos < blocksiz then (ino.size - pos) / directSize else directs
  match scanBlocks vol ino (Direct.matches name) count ino.blocks 0 with
  | .hit _ block i => some (direct (vol.blk block) i).ino
  | _ => none

-- ======== insertion

/-- The end of `iinsert`, at the label `nowdoit`: entry `i` of the block
at `pos` is set. -/
def enter (fino : Handle) (pos block i : Nat) (e : Direct) (s : Sys) : Sys :=
  let vol := s.vol fino.dev
  let d := s.node fino
  let size := if d.ino.size < pos + (i + 1) * directSize then d.ino.size + directSize
    else d.ino.size
  (s.setVol fino.dev (vol.put block (putDirect (vol.blk block) i e))).setNode fino
    { d with ino := { d.ino with size := size } }

/-- The inode for the new entry: that with the number `ino`, or a new one
if `ino` is 0. -/
def insertee (pid : Nat) (dev : Dev) (mode : BitVec 16) (ino : Nat) :
    M (Except Errno (Nat × Option Handle)) := do
  if ino ≠ 0 then return .ok (ino, none)
  match ← ialloc pid dev mode with
  | .error e => return .error e
  | .ok tmp => return .ok (tmp.num, some tmp)

/-- The block is released as it is and its zone is given back. -/
def ungrow (dev : Dev) (block : Nat) (s : Sys) : Sys :=
  s.setVol dev ((bitfree (s.vol dev) block .zmap).put block (s.under dev block))

/-- `iinsert`, when no entry is free: the directory gets a new block. -/
def insertGrow (pid : Nat) (fino : Handle) (name : Name) (mode : BitVec 16) (ino : Nat) :
    M (Except Errno (Option Handle)) := do
  let dev := fino.dev
  let s ← get
  let pos := (s.node fino).ino.blocks * blocksiz
  if filesizeMax ≤ (s.node fino).ino.size then return .error .efbig
  let (block, vol) := bitalloc (s.vol dev) .zmap
  if block = nozone then return .error .enospc
  set (s.setVol dev (vol.put block zeroBlock))
  match ← insertee pid dev mode ino with
  | .error _ =>
    modify (ungrow dev block)
    return .error .enospc
  | .ok (num, tmp) =>
    let s ← get
    let d := s.node fino
    match minode (s.vol dev) d.ino pos block with
    | .error t => throw t
    | .ok (ok, vol, inode) =>
      set ((s.setVol dev vol).setNode fino { d with ino := inode })
      if ok then
        modify (enter fino pos block 0 ⟨num, name⟩)
        return .ok tmp
      modify (ungrow dev block)
      if let some h := tmp then iput pid h
      return .error .enospc

/-- `iinsert`: the new inode, if `ino` is 0. -/
def iinsert (pid : Nat) (fino : Handle) (name : Name) (mode : BitVec 16) (ino : Nat) :
    M (Except Errno (Option Handle)) := do
  let s ← get
  let d := s.node fino
  if !isDir d.mode then die .iinsert
  if (s.vol fino.dev).sp.roflag then return .error .erofs
  if nameMax < name.length then return .error .enametoolong
  match scanAll (s.vol fino.dev) d.ino (·.ino == 0) with
  | .hole => return .error .eio
  | .done => insertGrow pid fino name mode ino
  | .hit pos block i =>
    if d.ino.size < pos + (i + 1) * directSize ∧ pos + i * directSize ≠ d.ino.size then
      return .error .eio
    match ← insertee pid fino.dev mode ino with
    | .error _ => return .error .enospc
    | .ok (num, tmp) =>
      modify (enter fino pos block i ⟨num, name⟩)
      return .ok tmp

end Cnix.Fs
