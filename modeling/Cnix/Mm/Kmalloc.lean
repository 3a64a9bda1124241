/-
The kernel heap of `mm/kmalloc.c`.

A bucket keeps a list of page blocks, all of the order `sd_gfporder`,
each cut into blocks of the bucket's size behind a page descriptor. The
free blocks of one page block are a chain through headers that lie in
the blocks themselves.

The descriptors and headers are kept in two maps from addresses,
`pd` and `bh`, and not in the bytes of the frames: this is the memory
the code sees as long as descriptors and headers do not overlap, which
`block_bounds` and `blocks_apart` prove of a page. The bucket's list
holds the addresses of its page descriptors in order (`list` is the
first field of a descriptor). `NULL` is address 0. Messages and the
bottom-half mask are left out; `sd_dmafree` is never used. So are the
bytes that the holders of blocks write: a block that ends past its page
block lets its holder write into the next descriptor, which no operation
here does.
-/
import Cnix.Mm.PageAlloc

namespace Cnix.Mm

open PageAlloc

-- ======== the tables

/-- `PAGE_DESC_SIZE`: two pointers, a pointer and two ints. -/
def pageDescSize : Nat := 20

/-- `sizeof(struct block_header)`. -/
def blockHeaderSize : Nat := 8

/-- `MFREE`. -/
def mfree : Nat := 0xAA55AA55

/-- `blocksize[]`, with its closing 0. -/
def blocksizes : List Nat :=
  [32, 64, 128, 255, 510, 1020, 2040, 4096 - pageDescSize, 8192 - pageDescSize,
    16384 - pageDescSize, 32768 - pageDescSize, 65536 - pageDescSize,
    131072 - pageDescSize, 0]

/-- `BLOCKSIZE(order)`. -/
def blocksize (order : Nat) : Nat := blocksizes.getD order 0

/-- The `sd_gfporder` column of `sizes[]`. -/
def gfporders : List Nat := [0, 0, 0, 0, 0, 0, 0, 0, 1, 2, 3, 4, 5, 0]

/-- `sizes[order].sd_gfporder`. -/
def gfporder (order : Nat) : Nat := gfporders.getD order 0

/-- `SIZES_NUM`. -/
def sizesNum : Nat := 14

-- ======== the heap

/-- `struct page_descriptor`, less its list node. -/
structure PageDescriptor where
  firstfree : Nat
  order : Nat
  nfrees : Nat
  deriving DecidableEq, Repr

/-- `struct block_header`. -/
structure BlockHeader where
  flags : Nat
  next : Nat
  deriving DecidableEq, Repr

/-- `struct sizes_descriptor`, with its list of page descriptors. -/
structure SizesDescriptor where
  list : List Nat
  nblocks : Nat
  npages : Int
  nfrees : Int
  gfporder : Nat
  deriving DecidableEq, Repr

/-- The heap's globals over the page allocator's. -/
structure Heap where
  pa : PageAlloc
  sizes : Nat → SizesDescriptor
  pd : Nat → PageDescriptor
  bh : Nat → BlockHeader

namespace Heap

/-- Write one bucket. -/
def setBucket (h : Heap) (order : Nat) (b : SizesDescriptor) : Heap :=
  { h with sizes := Function.update h.sizes order b }

/-- Write one page descriptor. -/
def setPd (h : Heap) (pg : Nat) (d : PageDescriptor) : Heap :=
  { h with pd := Function.update h.pd pg d }

/-- The `for(;;)` of `kmalloc`: the first bucket that fits the size or
ends the table. -/
def findOrder (size : Nat) : List Nat → Nat → Nat
  | [], order => order
  | b :: rest, order =>
    if size ≤ b ∨ b = 0 then order else findOrder size rest (order + 1)

/-- The bucket `kmalloc` takes for a size. -/
def bucketOf (size : Nat) : Nat := findOrder size blocksizes 0

/-- The loop that chains the blocks of a new page block: `left` more
blocks follow the one at `addr`. -/
def initChain (bs : Nat) : Nat → Nat → (Nat → BlockHeader) → Nat → BlockHeader
  | 0, addr, bh => Function.update bh addr ⟨mfree, 0⟩
  | left + 1, addr, bh =>
    initChain bs left (addr + bs) (Function.update bh addr ⟨mfree, addr + bs⟩)

/-- Put a page block fresh from `get_free_pages` in front of its bucket
and chain its blocks. -/
def newPage (order addr : Nat) (h : Heap) : Heap :=
  let bucket := h.sizes order
  let h := h.setBucket order { bucket with
    list := addr :: bucket.list
    npages := bucket.npages + 1
    nfrees := bucket.nfrees + bucket.nblocks }
  let h := h.setPd addr ⟨addr + pageDescSize, order, bucket.nblocks⟩
  { h with
    bh := initChain (blocksize order) (bucket.nblocks - 1) (addr + pageDescSize)
      h.bh }

/-- Unchain the first free block of a page block. -/
def takeBlock (order pg : Nat) (h : Heap) : Except Trap (Nat × Heap) :=
  let d := h.pd pg
  let b := d.firstfree
  if (h.bh b).flags ≠ mfree then .error (.die .kmalloc)
  else
    let h := h.setPd pg { d with
      firstfree := (h.bh b).next, nfrees := d.nfrees - 1 }
    let bucket := h.sizes order
    .ok (b, h.setBucket order { bucket with nfrees := bucket.nfrees - 1 })

/-- `sd_firstfree`, when it has a free block. -/
def firstWithFree (h : Heap) (order : Nat) : Option Nat :=
  match (h.sizes order).list with
  | [] => none
  | pg :: _ => if (h.pd pg).nfrees = 0 then none else some pg

/-- The part of `kmalloc` that has to get a new page block, and may
sleep in `get_free_pages`; the block is the first of the new ones. -/
def growBucket (order attr : Nat) (h : Heap) : Except Trap (Nat × Heap) :=
  match getFreePages attr (h.sizes order).gfporder h.pa with
  | .error t => .error t
  | .ok (addr, pa) =>
    if addr = 0 then .ok (0, { h with pa := pa })
    else takeBlock order addr (newPage order addr { h with pa := pa })

/-- `kmalloc`: the address of a block, or 0. -/
def kmalloc (size attr : Nat) (h : Heap) : Except Trap (Nat × Heap) :=
  let order := bucketOf size
  if blocksize order = 0 then .ok (0, h)
  else
    match h.firstWithFree order with
    | some pg => h.takeBlock order pg
    | none => h.growBucket order attr

/-- Chain a block in front of the free blocks of its page block. -/
def putBlock (pg p : Nat) (h : Heap) : Heap :=
  let d := h.pd pg
  let h := { h with bh := Function.update h.bh p ⟨mfree, d.firstfree⟩ }
  let h := h.setPd pg { d with firstfree := p, nfrees := d.nfrees + 1 }
  let bucket := h.sizes d.order
  h.setBucket d.order { bucket with nfrees := bucket.nfrees + 1 }

/-- Take a page block out of its bucket and free its frames. -/
def releasePages (order pg : Nat) (h : Heap) : Heap :=
  let bucket := h.sizes order
  let h := h.setBucket order { bucket with
    list := bucket.list.erase pg
    npages := bucket.npages - 1
    nfrees := bucket.nfrees - bucket.nblocks }
  { h with pa := freePages pg bucket.gfporder h.pa }

/-- Move a page block to the front of its bucket. -/
def moveFront (order pg : Nat) (h : Heap) : Heap :=
  let bucket := h.sizes order
  h.setBucket order { bucket with list := pg :: bucket.list.erase pg }

/-- `kfree`. -/
def kfree (p : Nat) (h : Heap) : Heap :=
  let pg := pageMask p
  let h := h.putBlock pg p
  let order := (h.pd pg).order
  if (h.pd pg).nfrees = (h.sizes order).nblocks then h.releasePages order pg
  else if (h.sizes order).list.head? ≠ some pg then h.moveFront order pg
  else h

/-- `kmalloc_init`. -/
def kmallocInit (pa : PageAlloc) : Heap where
  pa := pa
  sizes i :=
    { list := []
      nblocks := if i < sizesNum - 1
        then pageSize * 2 ^ Mm.gfporder i / blocksize i else 0
      npages := 0
      nfrees := 0
      gfporder := Mm.gfporder i }
  pd _ := ⟨0, 0, 0⟩
  bh _ := ⟨0, 0⟩

end Heap

end Cnix.Mm
