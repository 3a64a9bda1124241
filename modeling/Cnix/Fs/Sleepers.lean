/-
The table of inodes with processes that sleep: `iget`, `iput` and `ialloc`
of `fs/inode.c`, cut where they can sleep.

The kernel does not take the processor from a process that runs in it, so
that what a process does between two places where it can sleep is one
step. In `iget` it sleeps for the lock of the inode, for a free inode, and
for the disk in `iread` and `iwrite`; in `iput` for the lock, for the disk
in `truncate` and `ifree`, and in `iwrite`. A process that need not wait
is one that runs on at once.

What the inodes are is in the table of `Pool`. Here the locks are added,
and for every process where it is. To close a socket is one step: its
inode has no device.
-/
import Cnix.Lib.Runs
import Cnix.Fs.Pool

namespace Cnix.Fs

/-- Where a process is. `asked` is what `ialloc` wants the inode for, if it
was `ialloc` that called `iget`. -/
inductive Point (n : Nat)
  | idle
  -- in `iget`: for a locked inode, for a free inode, for the disk
  | loop (asked : Option (Dev × Nat)) (dev : Dev) (num : Nat) (tmp : Option (Fin n))
  | loop1 (asked : Option (Dev × Nat)) (dev : Dev) (num : Nat)
  | iread (asked : Option (Dev × Nat)) (dev : Dev) (num : Nat) (i : Fin n)
  | iwrite (asked : Option (Dev × Nat)) (dev : Dev) (num : Nat) (i : Fin n)
  -- in `iput`: for the lock, for the disk in `truncate` and `ifree`, in `iwrite`
  | ilock (i : Fin n)
  | truncate (i : Fin n)
  | flush (i : Fin n)
  deriving DecidableEq

/-- The table, who has locked an inode, and where the processes are. -/
structure Scene (n : Nat) where
  pool : Pool n
  lock : Fin n → Option Nat
  point : Nat → Point n

namespace Scene

variable {n : Nat} (t : Scene n) (pid : Nat)

/-- The process goes to sleep, or returns. -/
def goto (pt : Point n) : Scene n := { t with point := Function.update t.point pid pt }

def setLock (i : Fin n) (owner : Option Nat) : Scene n :=
  { t with lock := Function.update t.lock i owner }

def setInode (i : Fin n) (ino : Incore) : Scene n := { t with pool := t.pool.set i ino }

-- ======== iget

/-- `iget` returns the inode. `ialloc` gives it its number then. -/
def handOut (asked : Option (Dev × Nat)) (i : Fin n) : Scene n :=
  let t := (t.setLock i (some pid)).goto pid .idle
  match asked with
  | none => t
  | some (dev, num) =>
    let t := t.setInode i
      { t.pool.inode i with dev := dev, num := num, dirty := true, unlinked := false }
    { t with pool := { t.pool with hash := i :: t.pool.hash } }

/-- The label `loop1`; `again` is the way back to `loop`. -/
def igetFree (asked : Option (Dev × Nat)) (dev : Dev) (num : Nat)
    (again : Option (Fin n) → Scene n → Scene n) : Scene n :=
  match t.pool.ifreelist with
  | [] => t.goto pid (.loop1 asked dev num)
  | i :: _ =>
    let ino := t.pool.inode i
    let t := { t with pool := t.pool.unhook i }
    if ino.dirty then
      if ino.dev = nodev then again (some i) t else t.goto pid (.iwrite asked dev num i)
    else if dev = nodev then
      handOut { t with pool := t.pool.fill nodev num i } pid asked i
    else (t.setInode i { ino with dev := dev, num := num }).goto pid (.iread asked dev num i)

/-- The label `loop`. -/
def igetLoop (asked : Option (Dev × Nat)) (dev : Dev) :
    Nat → Nat → Option (Fin n) → Scene n → Scene n
  | 0, num, tmp, t => t.goto pid (.loop asked dev num tmp)
  | turns + 1, num, tmp, t =>
    match if dev = nodev then tmp else t.pool.getIhash dev num with
    | some i =>
      if (t.lock i).isSome then t.goto pid (.loop asked dev num (some i))
      else if (t.pool.inode i).mount ∧ rootInode ≠ num then
        igetLoop asked dev turns rootInode (some i) t
      else handOut { t with pool := t.pool.grab i } pid asked i
    | none => t.igetFree pid asked dev num (igetLoop asked dev turns num)

/-- Turns enough for all free inodes. -/
def turns : Nat := t.pool.ifreelist.length + 3

/-- The rest of `iget` after `iread`. -/
def filled (asked : Option (Dev × Nat)) (unlinked : Bool) (i : Fin n) : Scene n :=
  let ino := t.pool.inode i
  let p := t.pool.set i { ino with count := 1, dirty := false, unlinked := unlinked, mount := false }
  handOut { t with pool := { p with
    hash := i :: p.hash
    inodeFreeNum := p.inodeFreeNum - 1 } } pid asked i

-- ======== iput

/-- The end of `iput`. -/
def unlock (i : Fin n) : Scene n := (t.setLock i none).goto pid .idle

/-- The inode is written if it has to be. -/
def written (i : Fin n) : Scene n :=
  if (t.pool.inode i).dirty ∧ (t.pool.inode i).dev ≠ nodev then t.goto pid (.flush i)
  else t.unlock pid i

/-- The inode is put at the end of the free list. -/
def released (i : Fin n) : Scene n :=
  { t with pool := { t.pool with
    ifreelist := t.pool.ifreelist ++ [i]
    inodeFreeNum := t.pool.inodeFreeNum + 1 } }

/-- `iput` by the process that has the lock. `none` is a `DIE`. -/
def iputLocked (i : Fin n) : Option (Scene n) :=
  let ino := t.pool.inode i
  let t := t.setInode i { ino with count := ino.count - 1 }
  if ino.count - 1 < 0 then none
  else if ino.count - 1 = 0 then
    if ino.dev ≠ nodev ∧ i ∉ t.pool.hash then none
    else if ino.dev ≠ nodev ∧ ino.unlinked then some (t.goto pid (.truncate i))
    else some ((t.released i).written pid i)
  else some (t.written pid i)

/-- `ilock` in `iput`, and what follows it. -/
def iput (i : Fin n) : Option (Scene n) :=
  if t.lock i = some pid ∨ t.lock i = none then (t.setLock i (some pid)).iputLocked pid i
  else some (t.goto pid (.ilock i))

/-- `iput` after `truncate` and `ifree`. -/
def truncated (dirty : Bool) (i : Fin n) : Scene n :=
  let t := t.setInode i { t.pool.inode i with dirty := (t.pool.inode i).dirty || dirty }
  let t := { t with pool := { t.pool with hash := t.pool.hash.erase i } }
  (t.released i).written pid i

-- ======== running

/-- A process runs on. What the disk says is `fact`: after `iread` whether
the inode has no links, after `truncate` whether it had a size. -/
def wake (fact : Bool) : Option (Scene n) :=
  match t.point pid with
  | .idle => none
  | .loop asked dev num tmp => some (igetLoop pid asked dev t.turns num tmp t)
  | .loop1 asked dev num =>
    some (t.igetFree pid asked dev num (igetLoop pid asked dev t.turns num))
  | .iread asked _ _ i => some (t.filled pid asked fact i)
  | .iwrite asked dev num i =>
    let t := t.setInode i { t.pool.inode i with dirty := false }
    some (igetLoop pid asked dev t.turns num (some i) t)
  | .ilock i =>
    if t.lock i = none then (t.setLock i (some pid)).iputLocked pid i else some t
  | .truncate i => some (t.truncated pid fact i)
  | .flush i => some ((t.setInode i { t.pool.inode i with dirty := false }).unlock pid i)

end Scene

/-- `init_inode`. -/
def Scene.start (n : Nat) : Scene n := ⟨initInode n, fun _ => none, fun _ => .idle⟩

/-- What happens to the table: a call, a process that runs on, and what is
done with an inode that is in use. -/
inductive Happening (n : Nat)
  | iget (pid : Nat) (dev : Dev) (num : Nat)
  | ialloc (pid : Nat) (dev : Dev) (num : Nat)
  | iput (pid : Nat) (i : Fin n)
  | wake (pid : Nat) (fact : Bool)
  | ilock (pid : Nat) (i : Fin n)
  | iunlock (pid : Nat) (i : Fin n)
  | hold (i : Fin n)
  | touch (i : Fin n)
  | link (i : Fin n) (unlinked : Bool)
  | mount (i : Fin n) (mounted : Bool)

/-- The scene after it. -/
def Happening.apply {n : Nat} (t : Scene n) : Happening n → Option (Scene n)
  | .iget pid dev num => some (Scene.igetLoop pid none dev t.turns num none t)
  | .ialloc pid dev num => some (Scene.igetLoop pid (some (dev, num)) nodev t.turns num none t)
  | .iput pid i => t.iput pid i
  | .wake pid fact => t.wake pid fact
  | .ilock pid i => some (t.setLock i (some pid))
  | .iunlock _ i => some (t.setLock i none)
  | .hold i => some (t.setInode i { t.pool.inode i with count := (t.pool.inode i).count + 1 })
  | .touch i => some (t.setInode i { t.pool.inode i with dirty := true })
  | .link i unlinked => some (t.setInode i { t.pool.inode i with unlinked := unlinked })
  | .mount i mounted => some (t.setInode i { t.pool.inode i with mount := mounted })

/-- A process calls when it is in no other call, for an inode that is in
use. It unlocks what it has locked, and a file is made on a device. -/
def Happening.Fair {n : Nat} (t : Scene n) : Happening n → Prop
  | .iget pid _ _ => t.point pid = .idle
  | .ialloc pid dev _ => t.point pid = .idle ∧ dev ≠ nodev
  | .iput pid i => t.point pid = .idle ∧ (t.pool.inode i).count ≠ 0
  | .wake _ _ => True
  | .ilock pid i => t.point pid = .idle ∧ (t.pool.inode i).count ≠ 0 ∧ t.lock i = none
  | .iunlock pid i => t.point pid = .idle ∧ t.lock i = some pid
  | .hold i | .touch i | .link i _ | .mount i _ => (t.pool.inode i).count ≠ 0

/-- What is reached from the start by happenings that meet `ok`. -/
abbrev SceneRun {n : Nat} (ok : Scene n → Happening n → Prop) : Scene n → Prop :=
  Lib.Reached (· = Scene.start n) Happening.apply ok

end Cnix.Fs
