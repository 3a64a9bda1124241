/-
`do_write`, `do_read` and `do_lseek` of a regular file, and the end of a
file without links in `iput`.

`do_write` goes through the blocks of the file one at a time. A block
that is not there yet gets a new zone; if there is none, or none for the
indirect zones on the way, the write ends with `-EIO` where it is, and
`f_pos` and `i_size` count what was written. A write that runs into
`FILESIZE_MAX` returns without setting `f_pos`.

The checks of `f_mode`, and the devices, sockets, pipes and directories
that the functions also serve, are left out.
-/
import Cnix.Fs.Zones

namespace Cnix.Fs

/-- The errors of the calls on files. -/
inductive Errno
  | eperm
  | enoent
  | eio
  | enomem
  | eacces
  | ebusy
  | eexist
  | enodev
  | enotdir
  | eisdir
  | einval
  | enfile
  | efbig
  | enospc
  | erofs
  | emlink
  | enametoolong
  | enotempty
  | enotsup
  | efault
  | ebadf
  | emfile
  deriving DecidableEq, Repr

/-- What a function that changes a file leaves. -/
structure Changed where
  ok : Bool
  vol : Volume
  ino : Inode

/-- `do_write`, the bytes `src` at position `pos`, all in one block.
`lost` is what the block of a zone holds that is given back unused: its
buffer is released as it is. -/
def writeBlock (lost : Block) (vol : Volume) (ino : Inode) (pos : Nat) (src : List Byte) :
    Except Trap Changed :=
  let inblock := pos % blocksiz
  let grown (ino : Inode) : Inode := { ino with size := max ino.size (pos + src.length) }
  match bmap vol ino pos with
  | 0 =>
    match bitalloc vol .zmap with
    | (0, vol) => .ok ⟨false, vol, ino⟩
    | (block, vol) =>
      match minode vol ino pos block with
      | .error t => .error t
      | .ok (false, vol, ino) =>
        .ok ⟨false, (bitfree vol block .zmap).put block lost, ino⟩
      | .ok (true, vol, ino) =>
        .ok ⟨true, vol.put block (memcpy zeroBlock inblock src), grown ino⟩
  | block => .ok ⟨true, vol.put block (memcpy (vol.blk block) inblock src), grown ino⟩

/-- What `do_write` leaves: the number of bytes or the error, `f_pos`,
the volume and the inode. -/
structure Written where
  ret : Except Errno Nat
  pos : Nat
  vol : Volume
  ino : Inode

/-- The bytes of a block from `pos` on. -/
def chunkLen (pos : Nat) : Nat := blocksiz - pos % blocksiz

/-- The rounds of `do_write`, of which the first starts inside a block and
the others at a block. Each writes at least one byte, so as many rounds
as there are bytes are enough. `fpos` is the old `f_pos`. -/
def writeLoop (lost : Block) (fpos : Nat) :
    Nat → Volume → Inode → Nat → List Byte → Except Trap Written
  | 0, vol, ino, pos, _ => .ok ⟨.ok (pos - fpos), pos, vol, ino⟩
  | rounds + 1, vol, ino, pos, src =>
    if src = [] then .ok ⟨.ok (pos - fpos), pos, vol, ino⟩
    else if filesizeMax ≤ pos then .ok ⟨.error .efbig, fpos, vol, ino⟩
    else
      let now := src.take (chunkLen pos)
      match writeBlock lost vol ino pos now with
      | .error t => .error t
      | .ok ⟨false, vol, ino⟩ =>
        .ok ⟨.error .eio, pos, vol, { ino with size := max ino.size pos }⟩
      | .ok ⟨true, vol, ino⟩ =>
        writeLoop lost fpos rounds vol ino (pos + now.length) (src.drop (chunkLen pos))

/-- `do_write`. -/
def doWrite (lost : Block) (vol : Volume) (ino : Inode) (fpos : Nat) (src : List Byte) :
    Except Trap Written :=
  writeLoop lost fpos src.length vol ino fpos src

/-- `do_read`, `len` bytes in one block. -/
def readBlock (vol : Volume) (ino : Inode) (pos len : Nat) : List Byte :=
  match bmap vol ino pos with
  | 0 => List.replicate len 0
  | block => memread (vol.blk block) (pos % blocksiz) len

/-- The rounds of `do_read`. -/
def readLoop (vol : Volume) (ino : Inode) : Nat → Nat → Nat → List Byte
  | 0, _, _ => []
  | rounds + 1, pos, count =>
    let reading := min (min (chunkLen pos) count) (ino.size - pos)
    if reading = 0 then []
    else
      readBlock vol ino pos reading
        ++ readLoop vol ino rounds (pos + reading) (count - reading)

/-- `do_read`: the bytes read and the new `f_pos`. -/
def doRead (vol : Volume) (ino : Inode) (fpos count : Nat) : List Byte × Nat :=
  let bytes := readLoop vol ino count fpos count
  (bytes, fpos + bytes.length)

/-- Where `do_lseek` counts from, for `SEEK_SET`, `SEEK_CUR` and
`SEEK_END`. -/
def seekBase (fpos size whence : BitVec 32) : Option (BitVec 32) :=
  if whence = 0 then some 0
  else if whence = 1 then some fpos
  else if whence = 2 then some size
  else none

/-- `do_lseek`: the new `f_pos`. The two tests are true of sums only that
overflow, which C leaves undefined: `kept` says whether they are still
there in the compiled code. -/
def doLseek (kept : Bool) (fpos size offset whence : BitVec 32) : Except Errno (BitVec 32) :=
  match seekBase fpos size whence with
  | none => .error .einval
  | some pos =>
    if kept ∧ offset.slt 0 ∧ pos.slt (pos + offset) then .error .einval
    else if kept ∧ BitVec.slt 0 offset ∧ (pos + offset).slt pos then .error .einval
    else .ok (pos + offset)

/-- `iput` of a file that has no link and no user left: its zones and its
number are given back. -/
def lastPut (disk : Nat → Block) (vol : Volume) (ino : Inode) (inum : Nat) : Volume × Inode :=
  let (vol, ino) := truncate disk vol ino
  (bitfree vol inum .imap, ino)

end Cnix.Fs
