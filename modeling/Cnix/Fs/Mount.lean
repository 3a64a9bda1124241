/-
The table of super blocks: `sread` and `sfree` of `fs/super.c`, and what
`do_mount` and `do_umount` of `fs/mount.c` do to it.

The calls have found the device and the directory already, and
`get_iiucount` is an argument of `doUmount`. If `sread` fails, the calls
go on with a null pointer. What they write through it is left out.
-/
import Cnix.Fs.Core

namespace Cnix.Fs

/-- `NR_SB`. -/
def nrSb : Nat := 10

/-- `LM_MAGIC`. -/
def lmMagic : Nat := 0x2478

/-- What `sread` checks of the super block on a disk. -/
structure DiskSuper where
  magic : Nat
  imblocks : Int
  zmblocks : Int
  ninodes : Nat
  zones : Nat
  lzsize : Int
  deriving DecidableEq, Repr

/-- The checks of `sread`. -/
def DiskSuper.good (d : DiskSuper) : Bool :=
  d.magic == lmMagic &&
    !(d.imblocks < 1 || d.zmblocks < 1 || d.ninodes < 1 || d.zones < 1 || d.lzsize != 0)

/-- The fields of `struct super_block` that are only in memory. -/
structure Sb where
  dev : Dev
  count : Int
  rooti : Option Handle
  mounti : Option Handle
  deriving DecidableEq, Repr

/-- The super blocks, and `i_mounts` of the inodes with `MOUNT_I`. -/
structure SbTable where
  sb : Fin nrSb → Sb
  mounts : Handle → Option (Fin nrSb)

/-- The super blocks on the disks, `none` where `bread` fails. -/
abbrev Disks := Dev → Option DiskSuper

/-- `sread` finds a super block on the device. -/
def Disks.good (disks : Disks) (dev : Dev) : Bool := (disks dev).any DiskSuper.good

namespace SbTable

variable (t : SbTable)

def set (i : Fin nrSb) (sp : Sb) : SbTable := { t with sb := Function.update t.sb i sp }

def setMounts (dirino : Handle) (tmp : Option (Fin nrSb)) : SbTable :=
  { t with mounts := Function.update t.mounts dirino tmp }

/-- `sread`. -/
def sread (disks : Disks) (dev : Dev) : Option (Fin nrSb) × SbTable :=
  match (List.finRange nrSb).find? fun i => (t.sb i).dev == dev with
  | some i => (some i, t)
  | none =>
    match (List.finRange nrSb).find? fun i => (t.sb i).count == 0 with
    | none => (none, t)
    | some i =>
      if disks.good dev then (some i, t.set i ⟨dev, 1, none, none⟩)
      else (none, t.set i ⟨nodev, 1, none, none⟩)

/-- `sfree`. -/
def sfree (i : Fin nrSb) : SbTable := t.set i { t.sb i with count := (t.sb i).count - 1 }

end SbTable

/-- How a call ends. -/
inductive MountRet
  | ok
  | ebusy
  | null
  deriving DecidableEq, Repr

namespace SbTable

variable (t : SbTable)

/-- `do_mount`. `rooti` is what `iget(dev, ROOT_INODE)` gives. -/
def doMount (disks : Disks) (dev : Dev) (dirino rooti : Handle) : MountRet × SbTable :=
  if (t.mounts dirino).isSome then (.ebusy, t)
  else
    match t.sread disks dev with
    | (none, t) => (.null, t)
    | (some i, t) =>
      let t := t.set i { t.sb i with rooti := some rooti, mounti := some dirino }
      (.ok, t.setMounts dirino (some i))

/-- `do_umount`. -/
def doUmount (disks : Disks) (dev : Dev) (iiucount : Nat) : MountRet × SbTable :=
  if 1 < iiucount then (.ebusy, t)
  else
    match t.sread disks dev with
    | (none, t) => (.null, t)
    | (some i, t) =>
      match (t.sb i).rooti, (t.sb i).mounti with
      | some _, some dirino => (.ok, (t.setMounts dirino none).sfree i)
      | _, _ => (.null, t)

end SbTable

/-- `init_super`. -/
def initSuper : SbTable where
  sb := fun _ => ⟨nodev, 0, none, none⟩
  mounts := fun _ => none

end Cnix.Fs
