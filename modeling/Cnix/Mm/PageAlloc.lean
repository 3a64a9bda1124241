/-
The page allocator of `mm/page_alloc.c` and its set-up in `mm/init.c`.

# The data

`mem_map` has one `struct page` a frame and `free_area_list` one
`struct free_area` an order. Both start with the fields `prev` and
`next`, and the code links them into one list by casting an area to a
`struct page *`: a link therefore points to a page or to an area
(`Ptr`), and the lists are kept here as they are in the source, as
pointer fields (`Lib.Links`). Each area has its own bitmap of 32-bit
words, one bit for each pair of buddies. The bitmaps are separate
functions of the word index, so they neither overlap nor end.

`mem` is the memory the allocator clears: 1024 words a frame. Page
numbers are `Nat`; with 32-bit addresses they stay below `2^20`, so no
shift below wraps.

# What is left out

The bottom-half mask around each call (`lockb_all`), the messages, and
the wait queue itself: a call that would sleep in `get_free_pages`
returns `Trap.sleep` and has changed nothing, and the `wakeup` at the
end of `__free_pages` only lets such a caller try again. The counters of
code, data and reserved pages that `mem_init` only prints are left out.
-/
import Cnix.Basic
import Cnix.Lib.Links

namespace Cnix.Mm

open Lib

-- ======== constants

/-- `NR_FREE_LIST`: the orders are `0 .. 9`. -/
def nrFreeList : Nat := 10

/-- `PageReserved`, as a bit number. -/
def pageReserved : Nat := 1

/-- `PageDMA`, as a bit number. -/
def pageDMA : Nat := 2

/-- `PageWait`, a mask. -/
def pageWait : Nat := 4

/-- `RESERVED_MEM`. -/
def reservedMem : Nat := 4 * pageSize

/-- `LOW_MEM`. -/
def lowMem : Nat := 160 * pageSize

/-- `DMA_HIGH_MEM`. -/
def dmaHighMem : Nat := 0x1000000

-- ======== state

/-- What a link field points to: `&mem_map[n]`, or the `struct
free_area` of an order cast to a page. -/
inductive Ptr
  | page (n : Nat)
  | area (order : Nat)
  deriving DecidableEq, Repr

/-- `p - mem_map`. The links the code subtracts always point to pages. -/
def Ptr.nr : Ptr → Nat
  | .page n => n
  | .area _ => 0

/-- The allocator's globals: the link fields of pages and areas, the
bitmaps, the area counts, the page flags and counts, the free page
count, and the contents of the frames. -/
structure PageAlloc where
  links : Links Ptr
  map : Nat → Nat → BitVec 32
  areaCount : Nat → Int
  flags : Nat → Nat
  count : Nat → Int
  nfreepages : Int
  mem : Nat → Nat → BitVec 32

namespace PageAlloc

/-- `area->map[index / 32] ^= 1 << (index % 32)`. -/
def toggleMap (s : PageAlloc) (order index : Nat) : PageAlloc :=
  { s with
    map := Function.update s.map order
      (Function.update (s.map order) (index / 32)
        (s.map order (index / 32) ^^^ (1#32 <<< (index % 32)))) }

/-- `area->map[index / 32] & (1 << (index % 32))`, as a condition. -/
def testMap (s : PageAlloc) (order index : Nat) : Bool :=
  (s.map order (index / 32) &&& (1#32 <<< (index % 32))) != 0#32

/-- Link page `n` in front of the list of an area and count it. -/
def addArea (s : PageAlloc) (order n : Nat) : PageAlloc :=
  { s with
    links := s.links.insertHead (.area order) (.page n)
    areaCount := Function.update s.areaCount order (s.areaCount order + 1) }

-- ======== allocation

/-- The `do ... while` of `get_free_pages`: the first order from
`newOrder` on whose list is not empty, or `NR_FREE_LIST`. The first
argument is the number of areas left to look at. -/
def searchArea (lk : Links Ptr) : Nat → Nat → Nat
  | 0, newOrder => newOrder
  | left + 1, newOrder =>
    if lk.next (.area newOrder) ≠ .area newOrder then newOrder
    else searchArea lk left (newOrder + 1)

/-- `area->next = ret->next; ret->next->prev = area`. -/
def popArea (s : PageAlloc) (order : Nat) (ret : Ptr) : PageAlloc :=
  let lk := s.links.setNext (.area order) (s.links.next ret)
  { s with links := lk.setPrev (lk.next ret) (.area order) }

/-- The splitting loop of `get_free_pages`, from order `order + d` down
to `order`: the front half goes back on a list, the back half is split
on. Returns the page the block that is left starts at. -/
def splitBlock (order : Nat) : Nat → PageAlloc → Nat → PageAlloc × Nat
  | 0, s, n => (s, n)
  | d + 1, s, n =>
    let newOrder := order + d
    let s := s.addArea newOrder n
    let s := s.toggleMap newOrder (n / 2 ^ (newOrder + 1))
    splitBlock order d s (n + 2 ^ newOrder)

/-- `memset` of a run of frames to zero. -/
def clearFrames (mem : Nat → Nat → BitVec 32) (n len : Nat) :
    Nat → Nat → BitVec 32 :=
  fun f i => if n ≤ f ∧ f < n + len then 0#32 else mem f i

/-- `get_free_pages`: the address of a zeroed block of `2^order` frames,
or 0. -/
def getFreePages (attr order : Nat) (s : PageAlloc) :
    Except Trap (Nat × PageAlloc) :=
  if nrFreeList ≤ order then .error (.die .getFreePages)
  else
    let newOrder := searchArea s.links (nrFreeList - order) order
    if newOrder = nrFreeList then
      if attr &&& pageWait ≠ 0 then .error .sleep else .ok (0, s)
    else
      let ret := s.links.next (.area newOrder)
      let s := s.popArea newOrder ret
      let s := s.toggleMap newOrder (ret.nr / 2 ^ (newOrder + 1))
      let (s, n) := splitBlock order (newOrder - order) s ret.nr
      .ok (n * pageSize,
        { s with
          count := Function.update s.count n 1
          nfreepages := s.nfreepages - 2 ^ order
          mem := clearFrames s.mem n (2 ^ order) })

/-- `get_one_page`. -/
def getOnePage (s : PageAlloc) : Except Trap (Nat × PageAlloc) :=
  getFreePages 0 0 s

-- ======== release

/-- The merging loop of `__free_pages`: `left` is the number of orders
below the top one, at which the loop condition `mask + (1 << 9)`
becomes zero. `n ^ -mask` is the buddy, `n & (mask << 1)` the parent. -/
def coalesce : Nat → Nat → Nat → Nat → PageAlloc → PageAlloc × Nat × Nat
  | 0, order, _, n, s => (s, order, n)
  | left + 1, order, index, n, s =>
    let s := s.toggleMap order index
    if s.testMap order index then (s, order, n)
    else
      let s := { s with
        links := s.links.unlink (.page (n ^^^ 2 ^ order))
        areaCount :=
          Function.update s.areaCount order (s.areaCount order - 1) }
      coalesce left (order + 1) (index / 2)
        (n / 2 ^ (order + 1) * 2 ^ (order + 1)) s

/-- `__free_pages`. -/
def freePages (addr order : Nat) (s : PageAlloc) : PageAlloc :=
  let n := mapNr addr / 2 ^ order * 2 ^ order
  let (s, order', n') :=
    coalesce (nrFreeList - 1 - order) order (n / 2 ^ (order + 1)) n s
  let s := s.addArea order' n'
  { s with nfreepages := s.nfreepages + 2 ^ order }

/-- `free_one_page`. -/
def freeOnePage (addr : Nat) (s : PageAlloc) : Except Trap PageAlloc :=
  let n := mapNr addr
  if s.count n ≤ 0 then .error (.die .freeOnePage)
  else if (s.flags n).testBit pageReserved then .ok s
  else
    let s := { s with count := Function.update s.count n (s.count n - 1) }
    if s.count n = 0 then .ok (freePages addr 0 s) else .ok s

-- ======== set-up

/-- `free_area_init`: every page reserved and usable for DMA, every list
empty, every bitmap clear. -/
def freeAreaInit (mem : Nat → Nat → BitVec 32) : PageAlloc where
  links := ⟨id, id⟩
  map _ _ := 0#32
  areaCount _ := 0
  flags _ := 2 ^ pageReserved + 2 ^ pageDMA
  count _ := 0
  nfreepages := 0
  mem := mem

/-- One round of the two releasing loops of `mem_init`. -/
def releasePage (s : PageAlloc) (n : Nat) : Except Trap PageAlloc := do
  let fl := if dmaHighMem < n * pageSize
    then clearBit (s.flags n) pageDMA else s.flags n
  let s := { s with
    flags := Function.update s.flags n (clearBit fl pageReserved)
    count := Function.update s.count n 1 }
  let s ← freeOnePage (n * pageSize) s
  return { s with nfreepages := s.nfreepages + 1 }

/-- The frames `mem_init` releases: those of the low memory from
`RESERVED_MEM` to `LOW_MEM`, then those from the end of the kernel to
the end of memory. -/
def releasedFrames (startMem endMem : Nat) : List Nat :=
  List.range' (mapNr reservedMem) (mapNr lowMem - mapNr reservedMem)
    ++ List.range' (mapNr (pageAlign startMem))
        (mapNr endMem - mapNr (pageAlign startMem))

/-- `mem_init`, after `free_area_init`. -/
def memInit (startMem endMem : Nat) (s : PageAlloc) : Except Trap PageAlloc :=
  (releasedFrames startMem endMem).foldlM releasePage { s with nfreepages := 0 }

end PageAlloc

end Cnix.Mm
