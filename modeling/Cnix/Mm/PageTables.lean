/-
The page tables of `mm/memory.c`: how `fork` copies those of the parent
and how a half-made copy is thrown away.

A directory and a table are pages of 1024 words. Their words are the
words of the frames in `PageAlloc.mem`, so a table that is freed, or
handed out as something else, shows. The kernel maps the physical memory
to itself, so an address of a page is its physical address.

# The loop over a mapping

`copy_mmap_pts` goes through a mapping one directory entry at a time.
The next address is `(i + 1) << 22` in 32 bits, which is 0 after the last
entry: a mapping that reaches into the last four megabytes makes the loop
start again at the kernel's entries. The loop therefore has a bound here,
`rounds`. A call that needs more rounds does not return, as a call that
hits a `DIE` does not.

The messages are left out, and so are the parts that are compiled out
(`#if 0`).
-/
import Cnix.Mm.PageAlloc

namespace Cnix.Mm

-- ======== constants

/-- `PAGE_DIR_ENTNUM`, and `FRAME_PER_PAGE` words in a table. -/
def pageDirEntnum : Nat := 1024

/-- `PAGE_DIR_ENTSIZ`. -/
def pageDirEntsiz : Nat := pageSize * 1024

/-- `KP_DIR_ENTNUM`. -/
def kpDirEntnum : Nat := userAddr / pageDirEntsiz

/-- `USER_DIR_ENTNUM`. -/
def userDirEntnum : Nat := pageDirEntnum - kpDirEntnum

/-- `page_dir_idx`. -/
def pageDirIdx (addr : Nat) : Nat := addr / pageDirEntsiz

/-- `to_pt_offset`. -/
def toPtOffset (x : Nat) : Nat := x % pageDirEntsiz / pageSize

/-- `MAP_SHARED`. -/
def mapShared : Nat := 1

/-- The fields of `struct mmap_struct` that `fork` reads; `stop` is the
field `end`. -/
structure MmapStruct where
  start : BitVec 32
  stop : BitVec 32
  flags : Nat
  ino : Option Nat
  deriving DecidableEq, Repr

-- ======== words

/-- `w & 1`, as a condition. -/
def present (w : BitVec 32) : Bool := w &&& 1#32 != 0#32

/-- `MAP_NR(w)`. -/
def frame (w : BitVec 32) : Nat := mapNr w.toNat

namespace PageAlloc

/-- The word with an index in the page at an address. -/
def word (s : PageAlloc) (page i : Nat) : BitVec 32 := s.mem (mapNr page) i

/-- Store a word of the page at an address. -/
def setWord (s : PageAlloc) (page i : Nat) (w : BitVec 32) : PageAlloc :=
  { s with
    mem := Function.update s.mem (mapNr page)
      (Function.update (s.mem (mapNr page)) i w) }

/-- `memcpy` of a page. -/
def copyPage (s : PageAlloc) (dst src : Nat) : PageAlloc :=
  { s with mem := Function.update s.mem (mapNr dst) (s.mem (mapNr src)) }

-- ======== copying

/-- `copy_kernel_pts`. -/
def copyKernelPts (fromDir toDir : Nat) (s : PageAlloc) : PageAlloc :=
  (List.range kpDirEntnum).foldl (fun s i => s.setWord toDir i (s.word fromDir i)) s

/-- One round of the inner loop of `copy_mmap_pts`. Returns `false` when
there is no page. -/
def copyEntry (flags fromPgTable toPgTable j : Nat) (s : PageAlloc) :
    Except Trap (Bool × PageAlloc) :=
  let thisPg := s.word fromPgTable j
  if !present thisPg then .ok (true, s)
  else if s.word toPgTable j ≠ 0#32 then .error (.die .copyMmapPts)
  else if flags &&& mapShared ≠ 0 then
    let s := s.setWord toPgTable j thisPg
    .ok (true, { s with
      count := Function.update s.count (frame thisPg) (s.count (frame thisPg) + 1) })
  else do
    let (thatPg, s) ← s.getOnePage
    if thatPg = 0 then .ok (false, s)
    else
      let s := s.copyPage thatPg (pageMask thisPg.toNat)
      .ok (true, s.setWord toPgTable j (BitVec.ofNat 32 thatPg ||| (thisPg &&& 7#32)))

/-- The inner loop of `copy_mmap_pts`, over the entries in a list. -/
def copyEntries (flags fromPgTable toPgTable : Nat) :
    List Nat → PageAlloc → Except Trap (Bool × PageAlloc)
  | [], s => .ok (true, s)
  | j :: js, s => do
    let (more, s) ← copyEntry flags fromPgTable toPgTable j s
    if more then copyEntries flags fromPgTable toPgTable js s else .ok (false, s)

/-- `to_pg_table`: the table of directory entry `i`, a new one if there is
none yet. `none` when there is no page. -/
def pgTableOf (toDir i : Nat) (s : PageAlloc) : Except Trap (Option Nat × PageAlloc) :=
  if s.word toDir i = 0#32 then do
    let (page, s) ← s.getOnePage
    if page = 0 then .ok (none, s)
    else .ok (some page, s.setWord toDir i (BitVec.ofNat 32 page ||| 7#32))
  else .ok (some (pageMask (s.word toDir i).toNat), s)

/-- `(i + 1) << 22`, as an unsigned word. -/
def nextEntry (i : Nat) : Nat := (i + 1) * pageDirEntsiz % 2 ^ 32

/-- `n`: where the inner loop stops. -/
def tableEnd (stop i : Nat) : Nat :=
  if nextEntry i ≤ stop then 1024
  else if stop % pageSize ≠ 0 then toPtOffset stop + 1
  else toPtOffset stop

/-- The outer loop of `copy_mmap_pts`. -/
def copyLoop (flags stop fromDir toDir : Nat) :
    Nat → Nat → PageAlloc → Except Trap (Bool × PageAlloc)
  | 0, _, _ => .error (.die .copyMmapPts)
  | rounds + 1, addr, s =>
    if stop ≤ addr then .ok (true, s)
    else do
      let i := pageDirIdx addr
      let fromPgTable := pageMask (s.word fromDir i).toNat
      let (toPgTable, s) ← pgTableOf toDir i s
      match toPgTable with
      | none => .ok (false, s)
      | some toPgTable =>
        let m := toPtOffset addr
        let (more, s) ← copyEntries flags fromPgTable toPgTable
          (List.range' m (tableEnd stop i - m)) s
        if more then copyLoop flags stop fromDir toDir rounds (nextEntry i) s
        else .ok (false, s)

/-- `copy_mmap_pts`. -/
def copyMmapPts (rounds : Nat) (mmap : MmapStruct) (fromDir toDir : Nat)
    (s : PageAlloc) : Except Trap (Bool × PageAlloc) :=
  if mmap.start.toNat < userAddr then .ok (true, s)
  else copyLoop mmap.flags mmap.stop.toNat fromDir toDir rounds mmap.start.toNat s

/-- The loop of `copy_process` over the mappings. -/
def copyMmaps (rounds fromDir toDir : Nat) :
    List MmapStruct → PageAlloc → Except Trap (Bool × PageAlloc)
  | [], s => .ok (true, s)
  | mmap :: mmaps, s => do
    let (more, s) ← copyMmapPts rounds mmap fromDir toDir s
    if more then copyMmaps rounds fromDir toDir mmaps s else .ok (false, s)

-- ======== freeing

/-- The page of an entry, if there is one, is freed. -/
def freeEntry (table j : Nat) (s : PageAlloc) : Except Trap PageAlloc :=
  if present (s.word table j) then s.freeOnePage (pageMask (s.word table j).toNat)
  else .ok s

/-- The inner loop of `free_page_tables`, over the entries in a list. -/
def freeEntries (table : Nat) : List Nat → PageAlloc → Except Trap PageAlloc
  | [], s => .ok s
  | j :: js, s => do
    let s ← freeEntry table j s
    freeEntries table js (s.setWord table j 0#32)

/-- One round of `free_page_tables`. -/
def freePageTable (dir i : Nat) (s : PageAlloc) : Except Trap PageAlloc :=
  if !present (s.word dir i) then .ok s
  else if i < kpDirEntnum then .ok (s.setWord dir i 0#32)
  else do
    let s ← freeEntries (pageMask (s.word dir i).toNat) (List.range 1024) s
    let s ← s.freeOnePage (pageMask (s.word dir i).toNat)
    .ok (s.setWord dir i 0#32)

/-- The loop of `free_page_tables`, over the directory entries in a list. -/
def freeTables (dir : Nat) : List Nat → PageAlloc → Except Trap PageAlloc
  | [], s => .ok s
  | i :: is, s => do
    let s ← freePageTable dir i s
    freeTables dir is s

/-- `free_page_tables`. -/
def freePageTables (kpDir dir first size : Nat) (s : PageAlloc) :
    Except Trap PageAlloc :=
  if dir % pageSize ≠ 0 then .error (.die .freePageTables)
  else if dir = kpDir then .error (.die .freePageTables)
  else freeTables dir (List.range' first size) s

end PageAlloc

end Cnix.Mm
