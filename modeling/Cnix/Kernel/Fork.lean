/-
`copy_process` of `kernel/fork.c`, with the memory it needs.

`Kernel.Tasks` has what a fork does to the family and the group; here is
the whole call, with its ways to fail. The parent is `current`: of its
structure, the fields the call reads. The counts of inodes and open files
are functions of what they are the counts of.

Left out: the fields of the child that are only set to a constant, and
its registers, of which only the checks are kept.
-/
import Cnix.Kernel.Tasks
import Cnix.Mm.PageTables

namespace Cnix.Kernel

open Mm

def eagain : Int := 11
def enomem : Int := 12

/-- The fields of `current` that `copy_process` reads. -/
structure Parent where
  pid : Nat
  task : Task
  pgDir : Nat
  -- `mm.mmap[0 .. mmap_num)`
  mmaps : List MmapStruct
  pwd : Option Nat
  root : Option Nat
  -- the open files, without the empty descriptors
  files : List Nat

/-- How the child starts: in a function of the kernel, or with the
registers of the system call (`regs->esp`, or a null pointer). -/
inductive ChildStart
  | thread
  | user (esp : Option Nat)

/-- What `copy_process` changes. -/
structure Procs where
  pages : PageAlloc
  kpDir : Nat
  -- `i_count` and `f_count`
  iCount : Nat → Int
  fCount : Nat → Int
  tasks : Tasks
  -- `task[nr]->pg_dir`
  pgDir : Nat → Nat
  runQueue : List Nat

/-- `count++` for every element of a list. -/
def raise (count : Nat → Int) (refs : List Nat) : Nat → Int :=
  refs.foldl (fun count x => Function.update count x (count x + 1)) count

/-- The inodes a child refers to: those of its mappings, its working
directory and its root. -/
def Parent.inodes (cur : Parent) : List Nat :=
  cur.mmaps.filterMap MmapStruct.ino ++ cur.pwd.toList ++ cur.root.toList

/-- The check of the registers. -/
def ChildStart.bad : ChildStart → Bool
  | .thread => false
  | .user none => true
  | .user (some esp) => decide (esp < userAddr)

namespace Procs

/-- `copy_process` once the tables are copied: nothing can fail. -/
def startChild (cur : Parent) (nr dirPg : Nat) (start : ChildStart) (m : Procs) :
    Except Trap (Int × Procs) :=
  if start.bad then .error (.die .copyProcess)
  else
    .ok (0, { m with
      iCount := raise m.iCount cur.inodes
      fCount := raise m.fCount cur.files
      tasks := m.tasks.copyProcess cur.pid nr cur.task
      pgDir := Function.update m.pgDir nr dirPg
      -- `add_run`: an empty queue has one end
      runQueue := m.runQueue ++ [nr] })

/-- `copy_process`. `rounds` bounds the loops over the mappings. -/
def copyProcess (rounds : Nat) (cur : Parent) (nr : Nat) (start : ChildStart) (m : Procs) :
    Except Trap (Int × Procs) := do
  let (p, pages) ← m.pages.getOnePage
  if p = 0 then .ok (-eagain, { m with pages := pages })
  else do
    let (dirPg, pages) ← pages.getOnePage
    if dirPg = 0 then do
      let pages ← pages.freeOnePage p
      .ok (-eagain, { m with pages := pages })
    else do
      let pages := pages.copyKernelPts cur.pgDir dirPg
      let (more, pages) ← pages.copyMmaps rounds cur.pgDir dirPg cur.mmaps
      if more then startChild cur nr dirPg start { m with pages := pages }
      else do
        let pages ← pages.freePageTables m.kpDir dirPg kpDirEntnum userDirEntnum
        let pages ← pages.freeOnePage dirPg
        let pages ← pages.freeOnePage p
        .ok (-enomem, { m with pages := pages })

end Procs

end Cnix.Kernel
