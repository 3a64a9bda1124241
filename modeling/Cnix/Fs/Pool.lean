/-
The table of inodes in memory: the hash table and the free list of
`fs/inode.c`, and what `iget`, `iput` and `ialloc` do to them.

A pointer to an inode is its place in the table of `NR_INODE`. The chains
of the hash table are one list here, the newest first. What an inode
holds is left out, apart from what these functions read: whether it has
links, whether it has to be written, and whether a volume is mounted on
it. The number of a mounted root is always `ROOT_INODE`.

Calls run one after the other. A call that waits for a free inode waits
forever then. Locks are left out: to wait for one changes nothing in the
table.
-/
import Cnix.Fs.Core

namespace Cnix.Fs

/-- `NR_INODE`. -/
def nrInode : Nat := 2048

/-- `struct inode`. -/
structure Incore where
  dev : Dev
  num : Nat
  count : Int
  dirty : Bool
  unlinked : Bool
  mount : Bool
  deriving DecidableEq, Repr

/-- The table, the hash table, `ifreelist` and `inode_free_num`. -/
structure Pool (n : Nat) where
  inode : Fin n → Incore
  hash : List (Fin n)
  ifreelist : List (Fin n)
  inodeFreeNum : Int

namespace Pool

variable {n : Nat} (p : Pool n)

def set (i : Fin n) (ino : Incore) : Pool n := { p with inode := Function.update p.inode i ino }

/-- `get_ihash`. -/
def getIhash (dev : Dev) (num : Nat) : Option (Fin n) :=
  p.hash.find? fun i => (p.inode i).dev == dev && (p.inode i).num == num

/-- `iget` of an inode that was found. -/
def grab (i : Fin n) : Pool n :=
  let ino := p.inode i
  let p := p.set i { ino with count := ino.count + 1 }
  if ino.count = 0 then
    { p with ifreelist := p.ifreelist.erase i, inodeFreeNum := p.inodeFreeNum - 1 }
  else p

/-- The first inode of the free list, without what it was before. -/
def unhook (i : Fin n) : Pool n :=
  let hash := if (p.inode i).dev = nodev then p.hash else p.hash.erase i
  { p with hash := hash, ifreelist := p.ifreelist.erase i }

/-- `iwrite`, of an inode that has a device. -/
def iwrite (i : Fin n) : Pool n :=
  if (p.inode i).dirty ∧ (p.inode i).dev ≠ nodev then p.set i { p.inode i with dirty := false }
  else p

/-- `iget` of a free inode, for the inode `num` of the device. -/
def fill (dev : Dev) (num : Nat) (i : Fin n) : Pool n :=
  let ino := p.inode i
  let num := if dev = nodev then ino.num else num
  let unlinked := if dev = nodev then ino.unlinked else false
  let p := p.set i ⟨dev, num, 1, false, unlinked, false⟩
  { p with
    hash := if dev = nodev then p.hash else i :: p.hash
    inodeFreeNum := p.inodeFreeNum - 1 }

/-- The label `loop` of `iget`. `tmp` is what the variable of this name has
from the turn before: for `NODEV` it is not looked up again. -/
def igetLoop (dev : Dev) : Nat → Nat → Option (Fin n) → Pool n → Option (Fin n × Pool n)
  | 0, _, _, _ => none
  | turns + 1, num, tmp, p =>
    match if dev = nodev then tmp else p.getIhash dev num with
    | some i =>
      if (p.inode i).mount ∧ rootInode ≠ num then igetLoop dev turns rootInode (some i) p
      else some (i, p.grab i)
    | none =>
      match p.ifreelist with
      | [] => none
      | i :: _ =>
        if (p.inode i).dirty then igetLoop dev turns num (some i) ((p.unhook i).iwrite i)
        else some (i, (p.unhook i).fill dev num i)

/-- `iget`. Every turn but two takes an inode from the free list. -/
def iget (dev : Dev) (num : Nat) : Option (Fin n × Pool n) :=
  igetLoop dev (p.ifreelist.length + 2) num none p

/-- `iput`. `none` is a `DIE`. -/
def iput (i : Fin n) : Option (Pool n) :=
  let ino := p.inode i
  let count := ino.count - 1
  if count < 0 then none
  else if count = 0 then
    if ino.dev ≠ nodev ∧ i ∉ p.hash then none
    else
      let hash := if ino.dev ≠ nodev ∧ ino.unlinked then p.hash.erase i else p.hash
      let p := p.set i { ino with count := count }
      let p := { p with
        hash := hash
        ifreelist := p.ifreelist ++ [i]
        inodeFreeNum := p.inodeFreeNum + 1 }
      some (p.iwrite i)
  else some ((p.set i { ino with count := count }).iwrite i)

/-- `ialloc`, when `bitalloc` gave the number. -/
def ialloc (dev : Dev) (num : Nat) : Option (Fin n × Pool n) :=
  match p.iget nodev num with
  | none => none
  | some (i, p) =>
    let ino := p.inode i
    let p := p.set i { ino with dev := dev, num := num, dirty := true, unlinked := false }
    some (i, { p with hash := i :: p.hash })

end Pool

/-- `init_inode`. -/
def initInode (n : Nat) : Pool n where
  inode := fun _ => ⟨nodev, 0, 0, false, true, false⟩
  hash := []
  ifreelist := (List.finRange n).reverse
  inodeFreeNum := n

end Cnix.Fs
