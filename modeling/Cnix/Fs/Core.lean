/-
Inodes in memory: `ilock`, `iget`, `iput` and `ialloc` of `fs/inode.c`,
and the tables of open files and processes that refer to inodes.

# Handles

A `struct inode *` is a handle: the device and the number of the inode,
and which of the structures that have held it this is. `iget` finds the
structure in the hash table, so it always gives the newest. A new one
comes into being when `ialloc` hands out a number that is still held in
memory, and for every pipe, which has no number. The table of `NR_INODE`
structures is left out, and so is the wait for a free one.

An inode that was changed goes back to the disk with the next `iput`, so
the copies in memory and on the disk are one here, and `i_dirty` is left
out. So are `i_update` and the clock: the times are those that `utime`
sets.

# One process at a time

A call runs to its end before the next one starts. To wait for a lock is
then to wait forever: it is a `sleep`.
-/
import Cnix.Fs.File

namespace Cnix.Fs

/-- `dev_t`. -/
abbrev Dev := Nat

/-- `NODEV`. -/
def nodev : Dev := 0x7fff

/-- `ROOT_INODE`. -/
def rootInode : Nat := 1

-- ======== i_mode

/-- `I_TYPE`. -/
def iType : BitVec 16 := 0xf000#16

def iLnk : BitVec 16 := 0xa000#16
def iReg : BitVec 16 := 0x8000#16
def iBlk : BitVec 16 := 0x6000#16
def iDir : BitVec 16 := 0x4000#16
def iChr : BitVec 16 := 0x2000#16
def iFifo : BitVec 16 := 0x1000#16

/-- `I_UGRWX`. -/
def iUgrwx : BitVec 16 := 0xdff#16

/-- `I_RB`, `I_WB` and `I_XB`. -/
def iRb : BitVec 16 := 4#16
def iWb : BitVec 16 := 2#16
def iXb : BitVec 16 := 1#16

/-- `S_ISDIR`, `S_ISLNK` and so on. -/
def isType (kind mode : BitVec 16) : Bool := mode &&& iType == kind

abbrev isDir := isType iDir
abbrev isLnk := isType iLnk
abbrev isReg := isType iReg
abbrev isBlk := isType iBlk
abbrev isChr := isType iChr
abbrev isFifo := isType iFifo

-- ======== the state

/-- What `icopy` copies. `nlink_t` is a signed character, as `gid_t` is,
and `uid_t` a signed short. -/
structure Dinode where
  mode : BitVec 16
  nlinks : BitVec 8
  uid : Int
  gid : Int
  ino : Inode
  atime : Nat
  mtime : Nat

/-- A `struct inode *`. -/
structure Handle where
  dev : Dev
  num : Nat
  gen : Nat
  deriving DecidableEq, Repr

/-- The fields of a `struct inode` that are only in memory. A lock has
the process that set it, a mount point the device mounted on it. -/
structure Ref where
  count : Int
  lock : Option Nat
  mounts : Option Dev
  pipe : Bool
  deriving DecidableEq, Repr

/-- `struct filp`. -/
structure Filp where
  count : Nat
  mode : Nat
  ino : Handle
  pos : Nat
  deriving Repr

/-- The fields of `struct task_struct` that the file system uses. -/
structure Task where
  pwd : Handle
  root : Handle
  uid : Int
  gid : Int
  euid : Int
  egid : Int
  umask : BitVec 16
  file : Nat → Option Nat

/-- The file system. `under` is what the disk holds below the cache, and
`rooti` and `mounti` are the fields of the super blocks. `isVolume` tells
the devices on which `sread` finds a super block, and `openDev` what a
device answers when it is opened. -/
structure Sys where
  node : Handle → Dinode
  ref : Handle → Ref
  gen : Dev → Nat → Nat
  vol : Dev → Volume
  under : Dev → Nat → Block
  rooti : Dev → Option Handle
  mounti : Dev → Option Handle
  isVolume : Dev → Bool
  openDev : Nat → Option Errno
  filps : Nat → Filp
  fromFilp : Nat
  task : Nat → Task

/-- A call of the kernel. -/
abbrev M := StateT Sys (Except Trap)

/-- `DIE`. -/
def die {α : Type} (site : Site) : M α := fun _ => .error (.die site)

namespace Sys

variable (s : Sys)

/-- The structure that the hash table has for an inode. -/
def cur (dev : Dev) (num : Nat) : Handle := ⟨dev, num, s.gen dev num⟩

def setNode (h : Handle) (d : Dinode) : Sys :=
  { s with node := Function.update s.node h d }

def setRef (h : Handle) (r : Ref) : Sys :=
  { s with ref := Function.update s.ref h r }

def setVol (dev : Dev) (vol : Volume) : Sys :=
  { s with vol := Function.update s.vol dev vol }

def setTask (pid : Nat) (t : Task) : Sys :=
  { s with task := Function.update s.task pid t }

def setFilp (i : Nat) (fp : Filp) : Sys :=
  { s with filps := Function.update s.filps i fp }

/-- A structure for the inode that nobody refers to. -/
def unshared (dev : Dev) (num : Nat) : Handle × Sys :=
  if (s.ref (s.cur dev num)).count = 0 then (s.cur dev num, s)
  else
    let gen := s.gen dev num + 1
    (⟨dev, num, gen⟩,
      { s with gen := Function.update s.gen dev (Function.update (s.gen dev) num gen) })

/-- A system without locks, counts and mounted volumes. Every device has
the volume. -/
def quiet (vol : Volume) (node : Handle → Dinode) (filps : Nat → Filp) (task : Nat → Task) : Sys where
  node := node
  ref := fun _ => ⟨0, none, none, false⟩
  gen := fun _ _ => 0
  vol := fun _ => vol
  under := fun _ => vol.blk
  rooti := fun _ => none
  mounti := fun _ => none
  isVolume := fun _ => true
  openDev := fun _ => none
  filps := filps
  fromFilp := 0
  task := task

end Sys

-- ======== lock and count

/-- `ilock` by process `pid`. -/
def ilock (pid : Nat) (h : Handle) : M Unit := fun s =>
  match (s.ref h).lock with
  | some owner => .error (if owner = pid then .die .ilock else .sleep)
  | none => .ok ((), s.setRef h { s.ref h with lock := some pid })

/-- `inoptr->i_count++`. -/
def hold (h : Handle) : M Unit := fun s =>
  .ok ((), s.setRef h { s.ref h with count := (s.ref h).count + 1 })

/-- The number of the root of the volume mounted on the inode. -/
def mountedRoot (s : Sys) (h : Handle) : Option Nat :=
  match (s.ref h).mounts with
  | none => none
  | some dev => (s.rooti dev).map (·.num)

/-- The loop of `iget`. A mount point leads to the inode that has the
number of the mounted root on the device of the mount point. All roots
have one number, so the loop ends in the second turn. -/
def igetLoop (pid : Nat) (dev : Dev) : Nat → Nat → M Handle
  | 0, _ => fun _ => .error .sleep
  | turns + 1, num => fun s =>
    let h := s.cur dev num
    match (s.ref h).lock with
    | some _ => .error .sleep
    | none =>
      let found : Except Trap (Handle × Sys) :=
        .ok (h, s.setRef h
          { s.ref h with count := (s.ref h).count + 1, lock := some pid })
      match mountedRoot s h with
      | none => found
      | some root => if root = num then found else igetLoop pid dev turns root s

/-- `iget` of an inode with a device. -/
def iget (pid : Nat) (dev : Dev) (num : Nat) : M Handle := igetLoop pid dev 2 num

/-- `iget(NODEV, num)`: a structure that is not in the hash table, locked. -/
def inew (pid : Nat) (dev : Dev) (num : Nat) : M Handle := fun s =>
  let (h, s) := s.unshared dev num
  .ok (h, s.setRef h ⟨1, some pid, none, false⟩)

/-- `truncate` of an inode in memory. -/
def itruncate (h : Handle) (s : Sys) : Sys :=
  let (vol, ino) := truncate (s.under h.dev) (s.vol h.dev) (s.node h).ino
  (s.setVol h.dev vol).setNode h { s.node h with ino := ino }

/-- The end of an inode without links: its zones and its number are given
back, and `i_mode` is cleared. -/
def ifree (h : Handle) (s : Sys) : Sys :=
  let s := itruncate h s
  let s := s.setVol h.dev (bitfree (s.vol h.dev) h.num .imap)
  s.setNode h { s.node h with mode := 0 }

/-- `iput`, when the lock is held. -/
def iputLocked (h : Handle) : M Unit := fun s =>
  let count := (s.ref h).count - 1
  if count < 0 then .error (.die .iput)
  else
    let s := if count = 0 ∧ h.dev ≠ nodev ∧ (s.node h).nlinks = 0 then ifree h s else s
    .ok ((), s.setRef h { s.ref h with count := count, lock := none })

/-- `iput`. -/
def iput (pid : Nat) (h : Handle) : M Unit := do
  if ((← get).ref h).lock ≠ some pid then ilock pid h
  iputLocked h

/-- `ialloc`. -/
def ialloc (pid : Nat) (dev : Dev) (mode : BitVec 16) : M (Except Errno Handle) := do
  if ((← get).vol dev).sp.roflag then return .error .erofs
  let (num, vol) := bitalloc ((← get).vol dev) .imap
  modify (·.setVol dev vol)
  if num = nobit then return .error .enospc
  let h ← inew pid dev num
  let task := (← get).task pid
  modify fun s => s.setNode h
    { s.node h with
      mode := mode, nlinks := 1, uid := task.euid, gid := task.egid, ino := ⟨0, fun _ => 0⟩ }
  return .ok h

/-- `admit`. -/
def admitted (task : Task) (d : Dinode) (expect : BitVec 16) : Bool :=
  if task.euid = 0 then
    !(expect &&& 1 != 0 && d.mode &&& 0x49 == 0)
  else
    task.euid == d.uid && (expect <<< 6) &&& d.mode != 0
      || task.egid == d.gid && (expect <<< 3) &&& d.mode != 0
      || expect &&& d.mode != 0

end Cnix.Fs
