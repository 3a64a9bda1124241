/-
The heap's invariant and what its operations do to it.

# The shape of the argument

A page block of bucket `k` is cut into the blocks `blocksOf k pg`; the
table only matters through `Row`, which holds for every bucket. The
invariant `HeapInv` says, for every page block on a bucket's list, that
it is a live block of the page allocator and that its blocks split into
those on its free chain and those that are out (`PageInv`). The
operations are taken apart as the source does them: chain a new page
block (`newPage`), unchain a block (`takeBlock`), chain one
(`putBlock`), give a page block back (`releasePages`) and move one to
the front (`moveFront`), with one lemma for each.

The invariant says nothing about how far a block reaches: nothing in
the code keeps the last block of a page block inside it.
-/
import Cnix.Lib.Chain
import Cnix.Mm.Kmalloc
import Cnix.Mm.Proofs.BuddyRuns

namespace Cnix.Mm

open Lib
open PageAlloc
open Function (update update_self update_of_ne)

-- ======== the size table

/-- The bytes of a page block of bucket `k`. -/
def pageBytes (k : Nat) : Nat := pageSize * 2 ^ gfporder k

/-- `sd_nblocks`, as `kmalloc_init` computes it. -/
def nblocksOf (k : Nat) : Nat := pageBytes k / blocksize k

/-- What the code relies on in one row of the table: the last block
starts in the first page of its page block and its header fits. -/
@[mk_iff]
structure Row (k : Nat) : Prop where
  size : blockHeaderSize ≤ blocksize k
  order : gfporder k < nrFreeList
  nblocks : 0 < nblocksOf k
  start : pageDescSize + (nblocksOf k - 1) * blocksize k < pageSize
  header : pageDescSize + (nblocksOf k - 1) * blocksize k + blockHeaderSize
    ≤ pageBytes k
  first : pageDescSize + blocksize k ≤ pageBytes k

/-- Every bucket of the table has such a row. -/
theorem row {k : Nat} (hk : k < sizesNum - 1) : Row k := by
  have htable : ∀ k < sizesNum - 1, Row k := by
    simp only [row_iff]
    decide
  exact htable k hk

/-- A bucket with a size is in the table. -/
theorem lt_of_blocksize_ne_zero {k : Nat} (h : blocksize k ≠ 0) : k < sizesNum - 1 := by
  by_contra hk
  apply h
  rcases Nat.lt_or_ge 13 k with h13 | h13
  · exact List.getD_eq_default _ _ h13
  · obtain rfl : k = 13 := by
      have : sizesNum - 1 = 13 := rfl
      omega
    rfl

namespace Heap

/-- The search of the table stops at a size that fits, or at the 0 that
ends it. -/
theorem findOrder_fits (size : Nat) : ∀ (l : List Nat) (order : Nat), order ≤ findOrder size l order
      ∧ (l.getD (findOrder size l order - order) 0 ≠ 0 →
        size ≤ l.getD (findOrder size l order - order) 0) := by
  intro l
  induction l with
  | nil =>
    simp [findOrder]
  | cons b l ih =>
    intro order
    unfold findOrder
    split
    next hb =>
      simp only [Nat.sub_self, List.getD_cons_zero]
      exact ⟨Nat.le_refl _, fun h0 => hb.resolve_right h0⟩
    next =>
      obtain ⟨hle, hfit⟩ := ih (order + 1)
      have hsub : findOrder size l (order + 1) - order
          = findOrder size l (order + 1) - (order + 1) + 1 := by omega
      rw [hsub, List.getD_cons_succ]
      exact ⟨by omega, hfit⟩

/-- The bucket taken for a size is large enough. -/
theorem size_le_blocksize {size : Nat} (h : blocksize (bucketOf size) ≠ 0) :
    size ≤ blocksize (bucketOf size) := by
  have hfit := (findOrder_fits size blocksizes 0).2
  exact hfit h

end Heap

-- ======== block layout

/-- The blocks of a page block of bucket `k`. -/
def blocksOf (k pg : Nat) : List Nat :=
  List.range' (pg + pageDescSize) (nblocksOf k) (blocksize k)

section Layout

variable {k pg a b : Nat}

/-- Every block starts behind the descriptor and in the first page, and
its header lies in the page block. -/
theorem block_bounds (hk : k < sizesNum - 1) (ha : a ∈ blocksOf k pg) :
    pg + pageDescSize ≤ a ∧ a < pg + pageSize ∧ a + blockHeaderSize ≤ pg + pageBytes k := by
  obtain ⟨i, hi, rfl⟩ := List.mem_range'.1 ha
  have hr := row hk
  have hmul : blocksize k * i ≤ (nblocksOf k - 1) * blocksize k := by
    rw [Nat.mul_comm]
    exact Nat.mul_le_mul_right _ (by omega)
  have h1 := hr.start
  have h2 := hr.header
  omega

/-- So `PAGE_DESC` finds the descriptor from any block. -/
theorem pageMask_block (hk : k < sizesNum - 1) (hpg : pg = mapNr pg * pageSize)
    (ha : a ∈ blocksOf k pg) : pageMask a = pg := by
  obtain ⟨h1, h2, -⟩ := block_bounds hk ha
  have hsize : pageSize = 4096 := rfl
  have hdiv : a / pageSize = mapNr pg := by
    rw [hsize] at hpg h2 ⊢
    omega
  unfold pageMask
  rw [hdiv, ← hpg]

/-- Two blocks of a page block are a block apart. -/
theorem blocks_apart (ha : a ∈ blocksOf k pg) (hb : b ∈ blocksOf k pg)
    (hne : a ≠ b) : a + blocksize k ≤ b ∨ b + blocksize k ≤ a := by
  obtain ⟨i, -, rfl⟩ := List.mem_range'.1 ha
  obtain ⟨j, -, rfl⟩ := List.mem_range'.1 hb
  rcases Nat.lt_trichotomy i j with hij | rfl | hij
  · have hmul := Nat.mul_le_mul_left (blocksize k) (show i + 1 ≤ j from hij)
    rw [Nat.mul_add] at hmul
    omega
  · exact absurd rfl hne
  · have hmul := Nat.mul_le_mul_left (blocksize k) (show j + 1 ≤ i from hij)
    rw [Nat.mul_add] at hmul
    omega

theorem blocksOf_nodup (hk : k < sizesNum - 1) (pg : Nat) : (blocksOf k pg).Nodup := by
  have hsize := (row hk).size
  unfold blockHeaderSize at hsize
  exact List.nodup_range' _ (by omega)

/-- The first block lies right behind the descriptor. -/
theorem blocksOf_cons (hk : k < sizesNum - 1) (pg : Nat) :
    ∃ c, blocksOf k pg = (pg + pageDescSize) :: c := by
  unfold blocksOf
  rw [← Nat.sub_add_cancel (row hk).nblocks, List.range'_succ]
  exact ⟨_, rfl⟩

/-- Block addresses are never `NULL`. -/
theorem block_ne_zero (hk : k < sizesNum - 1) (hb : b ∈ blocksOf k pg) : b ≠ 0 := by
  have h1 := (block_bounds hk hb).1
  unfold pageDescSize at h1
  omega

end Layout

/-- The bytes of two live page blocks do not meet. -/
theorem LiveOk.apart {startMem endMem : Nat} {live : List (Nat × Nat)}
    {b c : Nat × Nat} (hl : LiveOk startMem endMem live) (hb : b ∈ live)
    (hc : c ∈ live) (hne : b ≠ c) :
    b.1 + pageSize * 2 ^ b.2 ≤ c.1 ∨ c.1 + pageSize * 2 ^ c.2 ≤ b.1 := by
  obtain ⟨-, -, hb1⟩ := hl.shape b hb
  obtain ⟨-, -, hc1⟩ := hl.shape c hc
  have hdis := hl.disjoint b hb c hc hne
  -- the later of the two first frames would be in both
  have hor : mapNr b.1 + 2 ^ b.2 ≤ mapNr c.1 ∨ mapNr c.1 + 2 ^ c.2 ≤ mapNr b.1 := by
    by_contra hno
    have h1 := Nat.two_pow_pos b.2
    have h2 := Nat.two_pow_pos c.2
    refine hdis (max (mapNr b.1) (mapNr c.1)) ?_ ?_ <;>
      · unfold InLive InBlock
        omega
  have hsize : pageSize = 4096 := rfl
  rw [hsize] at hb1 hc1 ⊢
  omega

/-- A live page block is known by its address. -/
theorem LiveOk.eq_of_addr {startMem endMem : Nat} {live : List (Nat × Nat)}
    {b c : Nat × Nat} (hl : LiveOk startMem endMem live) (hb : b ∈ live)
    (hc : c ∈ live) (h : b.1 = c.1) : b = c := by
  by_contra hne
  have hb2 : 0 < pageSize * 2 ^ b.2 := Nat.mul_pos (by decide) (Nat.two_pow_pos _)
  have hc2 : 0 < pageSize * 2 ^ c.2 := Nat.mul_pos (by decide) (Nat.two_pow_pos _)
  rcases hl.apart hb hc hne with h' | h'
  · omega
  · omega

-- ======== the invariant

/-- One page block: its descriptor is right, and its blocks are those on
its chain `c` and those that are out. -/
structure PageInv (h : Heap) (live : List (Nat × Nat)) (k pg : Nat)
    (c : List Nat) : Prop where
  order : (h.pd pg).order = k
  chain : Chain (fun b => (h.bh b).next) 0 (h.pd pg).firstfree c
  flags : ∀ b ∈ c, (h.bh b).flags = mfree
  nodup : c.Nodup
  nfrees : (h.pd pg).nfrees = c.length
  blocks : ∀ b ∈ c, b ∈ blocksOf k pg
  split : ∀ b ∈ blocksOf k pg, b ∈ c ↔ b ∉ live.map Prod.fst

/-- The heap's invariant. `owned` are the blocks that are out of the
page allocator, `pages` those of them other parts of the kernel hold,
`live` the allocations with their sizes, and `ch` the free chain of each
page block. -/
structure HeapInv (startMem endMem : Nat) (h : Heap)
    (owned pages live : List (Nat × Nat)) (ch : Nat → List Nat) : Prop where
  run : RunInv startMem endMem h.pa owned
  gfporder : ∀ k, (h.sizes k).gfporder = Mm.gfporder k
  nblocks : ∀ k < sizesNum - 1, (h.sizes k).nblocks = nblocksOf k
  lists : ∀ k < sizesNum - 1, (h.sizes k).list.Nodup
  listed : ∀ k < sizesNum - 1, ∀ pg ∈ (h.sizes k).list,
    (pg, Mm.gfporder k) ∈ owned
  page : ∀ k < sizesNum - 1, ∀ pg ∈ (h.sizes k).list,
    PageInv h live k pg (ch pg)
  others : ∀ b ∈ pages, b ∈ owned
    ∧ ∀ k < sizesNum - 1, b.1 ∉ (h.sizes k).list
  others_nodup : pages.Nodup
  live_nodup : (live.map Prod.fst).Nodup
  placed : ∀ a ∈ live, blocksize (Heap.bucketOf a.2) ≠ 0
    ∧ ∃ pg ∈ (h.sizes (Heap.bucketOf a.2)).list,
      a.1 ∈ blocksOf (Heap.bucketOf a.2) pg

variable {startMem endMem : Nat} {h h' : Heap}
  {owned pages live live' : List (Nat × Nat)} {ch : Nat → List Nat}
  {k pg : Nat}

/-- A page block is untouched by changes outside it. -/
theorem PageInv.congr {c : List Nat} (hp : PageInv h live k pg c) (hpd : h'.pd pg = h.pd pg)
    (hbh : ∀ b ∈ blocksOf k pg, h'.bh b = h.bh b) (hlive : ∀ b ∈ blocksOf k pg,
      b ∈ live'.map Prod.fst ↔ b ∈ live.map Prod.fst) : PageInv h' live' k pg c where
  order := by rw [hpd]; exact hp.order
  chain := by
    rw [hpd]
    refine hp.chain.congr fun b hb => ?_
    rw [hbh b (hp.blocks b hb)]
  flags b hb := by rw [hbh b (hp.blocks b hb)]; exact hp.flags b hb
  nodup := hp.nodup
  nfrees := by rw [hpd]; exact hp.nfrees
  blocks := hp.blocks
  split b hb := by rw [hlive b hb]; exact hp.split b hb

/-- Page blocks lie on page boundaries. -/
theorem HeapInv.aligned (hi : HeapInv startMem endMem h owned pages live ch)
    (hk : k < sizesNum - 1) (hpg : pg ∈ (h.sizes k).list) : pg = mapNr pg * pageSize :=
  (hi.run.live_ok.shape _ (hi.listed k hk pg hpg)).2.2

/-- A block lies in one page block only. -/
theorem HeapInv.same_page (hi : HeapInv startMem endMem h owned pages live ch)
    {k' pg' b : Nat} (hk : k < sizesNum - 1) (hk' : k' < sizesNum - 1)
    (hpg : pg ∈ (h.sizes k).list) (hpg' : pg' ∈ (h.sizes k').list)
    (hb : b ∈ blocksOf k pg) (hb' : b ∈ blocksOf k' pg') : k' = k ∧ pg' = pg := by
  have h1 := pageMask_block hk (hi.aligned hk hpg) hb
  have h2 := pageMask_block hk' (hi.aligned hk' hpg') hb'
  obtain rfl : pg' = pg := h2.symm.trans h1
  refine ⟨?_, rfl⟩
  rw [← (hi.page k' hk' pg' hpg').order, (hi.page k hk pg' hpg).order]

-- ======== changing one page

/-- The lists after the list of one bucket has been written. -/
theorem Heap.update_list {order : Nat} {b : SizesDescriptor}
    (hs : h'.sizes = update h.sizes order b) (j : Nat) :
    (h'.sizes j).list = if j = order then b.list else (h.sizes j).list := by
  rw [hs]
  by_cases hj : j = order
  · subst hj
    simp
  · simp [hj]

/-- ... and the columns, if they were kept. -/
theorem Heap.update_columns {order : Nat} {b : SizesDescriptor}
    (hs : h'.sizes = update h.sizes order b) (hn : b.nblocks = (h.sizes order).nblocks)
    (hg : b.gfporder = (h.sizes order).gfporder) (j : Nat) :
    (h'.sizes j).nblocks = (h.sizes j).nblocks ∧ (h'.sizes j).gfporder = (h.sizes j).gfporder := by
  rw [hs]
  by_cases hj : j = order
  · subst hj
    simp [hn, hg]
  · simp [hj]

/-- The buckets agree in what the invariant reads of them. -/
structure SameBuckets (h h' : Heap) : Prop where
  list : ∀ k, (h'.sizes k).list = (h.sizes k).list
  nblocks : ∀ k, (h'.sizes k).nblocks = (h.sizes k).nblocks
  gfporder : ∀ k, (h'.sizes k).gfporder = (h.sizes k).gfporder

/-- A write to the counters of one bucket. -/
theorem SameBuckets.update {order : Nat} {b : SizesDescriptor}
    (hs : h'.sizes = update h.sizes order b)
    (hl : b.list = (h.sizes order).list) (hn : b.nblocks = (h.sizes order).nblocks)
    (hg : b.gfporder = (h.sizes order).gfporder) : SameBuckets h h' := by
  have hcol := Heap.update_columns hs hn hg
  refine ⟨fun k => ?_, fun k => (hcol k).1, fun k => (hcol k).2⟩
  rw [Heap.update_list hs]
  split
  next hk => rw [hk, hl]
  next => rfl

/-- The loop of `kmalloc` chains the blocks in the order of their
addresses and writes nothing else. -/
theorem Heap.initChain_spec {bs : Nat} (hbs : 0 < bs) :
    ∀ (left addr : Nat) (bh : Nat → BlockHeader), 0 < addr →
      Chain (fun b => (initChain bs left addr bh b).next) 0 addr (List.range' addr (left + 1) bs)
        ∧ (∀ b ∈ List.range' addr (left + 1) bs, (initChain bs left addr bh b).flags = mfree)
        ∧ ∀ b, b ∉ List.range' addr (left + 1) bs → initChain bs left addr bh b = bh b := by
  intro left
  induction left with
  | zero =>
    intro addr bh haddr
    refine ⟨⟨rfl, by omega, ?_⟩, ?_, ?_⟩
    · simp [initChain, Chain]
    · simp [initChain]
    · intro b hb
      exact update_of_ne (by simpa using hb) _ _
  | succ left ih =>
    intro addr bh haddr
    obtain ⟨hchain, hflags, hframe⟩ := ih (addr + bs)
      (update bh addr ⟨mfree, addr + bs⟩) (by omega)
    rw [List.range'_succ]
    -- the rest of the loop does not come back to this block
    have hout : addr ∉ List.range' (addr + bs) (left + 1) bs := by
      intro hin
      have := List.left_le_of_mem_range' hin
      omega
    have haddr' : initChain bs (left + 1) addr bh addr = ⟨mfree, addr + bs⟩ := by
      show initChain bs left (addr + bs) _ addr = _
      rw [hframe addr hout, update_self]
    refine ⟨⟨rfl, by omega, ?_⟩, ?_, ?_⟩
    · show Chain _ 0 (initChain bs (left + 1) addr bh addr).next _
      rw [haddr']
      exact hchain
    · intro b hb
      rcases List.mem_cons.1 hb with rfl | hb
      · rw [haddr']
      · exact hflags b hb
    · intro b hb
      rw [List.mem_cons, not_or] at hb
      show initChain bs left (addr + bs) _ b = _
      rw [hframe b hb.2, update_of_ne hb.1]

section Changes

variable (hi : HeapInv startMem endMem h owned pages live ch)

include hi

/-- A change that stays within one page block keeps the invariant if
that page block is still right. -/
theorem HeapInv.onPage {c : List Nat}
    (hk : k < sizesNum - 1) (hpg : pg ∈ (h.sizes k).list)
    (hpa : h'.pa = h.pa) (hsb : SameBuckets h h') (hpd : ∀ q, q ≠ pg → h'.pd q = h.pd q)
    (hbh : ∀ b, b ∉ blocksOf k pg → h'.bh b = h.bh b) (hmem : ∀ b, b ∉ blocksOf k pg →
      (b ∈ live'.map Prod.fst ↔ b ∈ live.map Prod.fst)) (hnd : (live'.map Prod.fst).Nodup)
    (hnew : ∀ a ∈ live', a ∈ live ∨ Heap.bucketOf a.2 = k ∧ a.1 ∈ blocksOf k pg)
    (hp : PageInv h' live' k pg c) :
    HeapInv startMem endMem h' owned pages live' (update ch pg c) where
  run := by rw [hpa]; exact hi.run
  gfporder j := by rw [hsb.gfporder]; exact hi.gfporder j
  nblocks j hj := by rw [hsb.nblocks]; exact hi.nblocks j hj
  lists j hj := by rw [hsb.list]; exact hi.lists j hj
  listed j hj q hq := by
    rw [hsb.list] at hq
    exact hi.listed j hj q hq
  page j hj q hq := by
    rw [hsb.list] at hq
    by_cases hqp : q = pg
    · subst hqp
      obtain rfl : j = k := by
        rw [← (hi.page j hj q hq).order, (hi.page k hk q hpg).order]
      rw [update_self]
      exact hp
    · rw [update_of_ne hqp]
      have hout : ∀ b ∈ blocksOf j q, b ∉ blocksOf k pg := fun b hb hb' =>
        hqp (hi.same_page hk hj hpg hq hb' hb).2
      exact (hi.page j hj q hq).congr (hpd q hqp)
        (fun b hb => hbh b (hout b hb)) (fun b hb => hmem b (hout b hb))
  others b hb := by
    refine ⟨(hi.others b hb).1, fun j hj => ?_⟩
    rw [hsb.list]
    exact (hi.others b hb).2 j hj
  others_nodup := hi.others_nodup
  live_nodup := hnd
  placed a ha := by
    rcases hnew a ha with ha | ⟨rfl, ha⟩
    · obtain ⟨h0, q, hq, haq⟩ := hi.placed a ha
      refine ⟨h0, q, ?_, haq⟩
      rw [hsb.list]
      exact hq
    · refine ⟨fun h0 => ?_, pg, ?_, ha⟩
      · have hsize := (row hk).size
        rw [h0] at hsize
        exact absurd hsize (by decide)
      · rw [hsb.list]
        exact hpg

/-- Unchaining the first free block of a page block allocates it. -/
theorem HeapInv.takeBlock {b : Nat} {c : List Nat}
    (hk : k < sizesNum - 1) (hpg : pg ∈ (h.sizes k).list)
    (hch : ch pg = b :: c) (size : Nat) (hsize : Heap.bucketOf size = k) :
    ∃ h', h.takeBlock k pg = .ok (b, h') ∧ SameBuckets h h'
      ∧ HeapInv startMem endMem h' owned pages ((b, size) :: live) (update ch pg c) := by
  have hp := hi.page k hk pg hpg
  rw [hch] at hp
  obtain ⟨hfirst, -, hrest⟩ := hp.chain
  have hb : b ∈ blocksOf k pg := hp.blocks b (by simp)
  have hbout : b ∉ live.map Prod.fst := (hp.split b hb).1 (by simp)
  obtain ⟨hbc, hcnd⟩ := List.nodup_cons.1 hp.nodup
  have hflag : (h.bh (h.pd pg).firstfree).flags = mfree := by
    rw [hfirst]
    exact hp.flags b (by simp)
  refine ⟨(h.setPd pg ⟨(h.bh b).next, (h.pd pg).order,
    (h.pd pg).nfrees - 1⟩).setBucket k { h.sizes k with
      nfrees := (h.sizes k).nfrees - 1 }, ?_,
    SameBuckets.update rfl rfl rfl rfl, hi.onPage hk hpg rfl
    (SameBuckets.update rfl rfl rfl rfl) ?_ (fun _ _ => rfl) ?_ ?_ ?_ ?_⟩
  · unfold Heap.takeBlock
    rw [if_neg (not_not.2 hflag), hfirst]
    rfl
  · intro q hq
    exact update_of_ne hq _ _
  · intro x hx
    have hxb : x ≠ b := fun he => hx (he ▸ hb)
    simp [hxb]
  · exact List.nodup_cons.2 ⟨hbout, hi.live_nodup⟩
  · intro a ha
    rcases List.mem_cons.1 ha with rfl | ha
    · exact .inr ⟨hsize, hb⟩
    · exact .inl ha
  · refine ⟨?_, ?_, ?_, hcnd, ?_, ?_, ?_⟩
    · simp [Heap.setPd, Heap.setBucket, hp.order]
    · simp only [Heap.setPd, Heap.setBucket, update_self]
      exact hrest
    · intro x hx
      exact hp.flags x (by simp [hx])
    · simp [Heap.setPd, Heap.setBucket, hp.nfrees]
    · intro x hx
      exact hp.blocks x (by simp [hx])
    · intro x hx
      have hsplit := hp.split x hx
      rw [List.mem_cons] at hsplit
      rw [List.map_cons, List.mem_cons, not_or, ← hsplit]
      constructor
      · intro hxc
        exact ⟨fun he : x = b => hbc (he ▸ hxc), .inr hxc⟩
      · intro hxc
        exact hxc.2.resolve_left hxc.1

/-- Chaining a live block frees it. -/
theorem HeapInv.putBlock {a : Nat × Nat}
    (hk : k < sizesNum - 1) (hpg : pg ∈ (h.sizes k).list) (ha : a ∈ live)
    (hb : a.1 ∈ blocksOf k pg) :
    HeapInv startMem endMem (h.putBlock pg a.1) owned pages (live.erase a)
      (update ch pg (a.1 :: ch pg)) := by
  have hp := hi.page k hk pg hpg
  have hmem : a.1 ∈ live.map Prod.fst := List.mem_map_of_mem ha
  have hout : a.1 ∉ ch pg := fun hin => (hp.split a.1 hb).1 hin hmem
  -- what is left are the addresses other than the one given back
  have herase : ∀ x, x ∈ (live.erase a).map Prod.fst
      ↔ x ≠ a.1 ∧ x ∈ live.map Prod.fst := by
    intro x
    have hnd := hi.live_nodup
    have hperm := (List.perm_cons_erase ha).map Prod.fst
    rw [List.map_cons] at hperm
    have hnd' := hperm.nodup_iff.1 hnd
    rw [hperm.mem_iff, List.mem_cons]
    constructor
    · intro hx
      exact ⟨fun he => (List.nodup_cons.1 hnd').1 (he ▸ hx), .inr hx⟩
    · intro hx
      exact hx.2.resolve_left hx.1
  refine hi.onPage hk hpg rfl (SameBuckets.update rfl rfl rfl rfl) ?_ ?_ ?_ ?_ ?_ ?_
  · intro q hq
    exact update_of_ne hq _ _
  · intro x hx
    exact update_of_ne (fun he : x = a.1 => hx (he ▸ hb)) _ _
  · intro x hx
    rw [herase]
    exact and_iff_right fun he => hx (he ▸ hb)
  · exact hi.live_nodup.sublist (List.erase_sublist.map Prod.fst)
  · intro c hc
    exact .inl (List.mem_of_mem_erase hc)
  · refine ⟨?_, ?_, ?_, List.nodup_cons.2 ⟨hout, hp.nodup⟩, ?_, ?_, ?_⟩
    · simp [Heap.putBlock, Heap.setPd, Heap.setBucket, hp.order]
    · simp only [Heap.putBlock, Heap.setPd, Heap.setBucket, update_self]
      refine hp.chain.push (block_ne_zero hk hb) hout ?_ fun c hc => ?_
      · simp
      · simp [hc]
    · intro x hx
      by_cases hxa : x = a.1
      · simp [Heap.putBlock, Heap.setPd, Heap.setBucket, hxa]
      · have hxc : x ∈ ch pg := (List.mem_cons.1 hx).resolve_left hxa
        simp [Heap.putBlock, Heap.setPd, Heap.setBucket, hxa, hp.flags x hxc]
    · simp [Heap.putBlock, Heap.setPd, Heap.setBucket, hp.nfrees]
    · intro x hx
      rcases List.mem_cons.1 hx with rfl | hx
      · exact hb
      · exact hp.blocks x hx
    · intro x hx
      rw [List.mem_cons, herase, not_and_or, not_not, hp.split x hx]

-- ======== page blocks coming and going

/-- Chaining a new page block of the bucket. -/
theorem HeapInv.newPage (hk : k < sizesNum - 1) (hown : (pg, Mm.gfporder k) ∈ owned)
    (hfresh : ∀ j < sizesNum - 1, pg ∉ (h.sizes j).list) (hothers : ∀ b ∈ pages, b.1 ≠ pg) :
    HeapInv startMem endMem (h.newPage k pg) owned pages live
      (update ch pg (blocksOf k pg)) := by
  have hr := row hk
  have hbs : 0 < blocksize k := Nat.lt_of_lt_of_le (by decide) hr.size
  have hpgal : pg = mapNr pg * pageSize := (hi.run.live_ok.shape _ hown).2.2
  obtain ⟨hchain, hflags, hframe⟩ := Heap.initChain_spec hbs
    (nblocksOf k - 1) (pg + pageDescSize) h.bh (by unfold pageDescSize; omega)
  rw [Nat.sub_add_cancel hr.nblocks] at hchain hflags hframe
  -- the new page block's blocks are in no other page block
  have hout : ∀ j < sizesNum - 1, ∀ q ∈ (h.sizes j).list,
      ∀ b ∈ blocksOf j q, b ∉ blocksOf k pg := by
    intro j hj q hq b hb hb'
    have h1 := pageMask_block hj (hi.aligned hj hq) hb
    have h2 := pageMask_block hk hpgal hb'
    exact hfresh j hj (by rw [← h2, h1]; exact hq)
  have hlist := @Heap.update_list h (h.newPage k pg) k _ rfl
  have hcol := @Heap.update_columns h (h.newPage k pg) k _ rfl rfl rfl
  have hmem : ∀ {j q}, q ∈ ((h.newPage k pg).sizes j).list →
      q = pg ∧ j = k ∨ q ∈ (h.sizes j).list := by
    intro j q hq
    rw [hlist] at hq
    split at hq
    next hj =>
      subst hj
      rcases List.mem_cons.1 hq with rfl | hq
      · exact .inl ⟨rfl, rfl⟩
      · exact .inr hq
    next => exact .inr hq
  have hbh : (h.newPage k pg).bh = Heap.initChain (blocksize k) (nblocksOf k - 1)
      (pg + pageDescSize) h.bh := by
    simp [Heap.newPage, Heap.setBucket, Heap.setPd, hi.nblocks k hk]
  refine ⟨hi.run, ?_, ?_, ?_, ?_, ?_, ?_, hi.others_nodup, hi.live_nodup, ?_⟩
  · intro j
    rw [(hcol j).2, hi.gfporder]
  · intro j hj
    rw [(hcol j).1, hi.nblocks j hj]
  · intro j hj
    rw [hlist]
    split
    next => exact List.nodup_cons.2 ⟨hfresh k hk, hi.lists k hk⟩
    next => exact hi.lists j hj
  · intro j hj q hq
    rcases hmem hq with ⟨rfl, rfl⟩ | hq
    · exact hown
    · exact hi.listed j hj q hq
  · intro j hj q hq
    rcases hmem hq with ⟨rfl, rfl⟩ | hq
    · rw [update_self]
      have hpd : (h.newPage j q).pd q
          = ⟨q + pageDescSize, j, nblocksOf j⟩ := by
        simp [Heap.newPage, Heap.setBucket, Heap.setPd, hi.nblocks j hj]
      refine ⟨?_, ?_, ?_, blocksOf_nodup hj q, ?_, fun b hb => hb, ?_⟩
      · rw [hpd]
      · rw [hpd, hbh]
        exact hchain
      · rw [hbh]
        exact hflags
      · rw [hpd, blocksOf, List.length_range']
      · -- nothing of the new page block is out
        intro b hb
        refine ⟨fun _ hlive => ?_, fun _ => hb⟩
        obtain ⟨a, ha, rfl⟩ := List.mem_map.1 hlive
        obtain ⟨h0, r, hr, har⟩ := hi.placed a ha
        exact hout _ (lt_of_blocksize_ne_zero h0) r hr _ har hb
    · have hqp : q ≠ pg := fun he => hfresh j hj (he ▸ hq)
      rw [update_of_ne hqp]
      refine (hi.page j hj q hq).congr ?_ ?_ fun _ _ => Iff.rfl
      · simp [Heap.newPage, Heap.setBucket, Heap.setPd, hqp]
      · intro b hb
        rw [hbh]
        exact hframe b (hout j hj q hq b hb)
  · intro b hb
    refine ⟨(hi.others b hb).1, fun j hj hin => ?_⟩
    rcases hmem hin with ⟨he, -⟩ | hin
    · exact hothers b hb he
    · exact (hi.others b hb).2 j hj hin
  · intro a ha
    obtain ⟨h0, q, hq, haq⟩ := hi.placed a ha
    refine ⟨h0, q, ?_, haq⟩
    rw [hlist]
    split
    next hj =>
      rw [hj] at hq
      exact List.mem_cons_of_mem _ hq
    next => exact hq

/-- A change of the lists alone: page blocks may go, as long as none with
a block out does. -/
theorem HeapInv.relist {owned' : List (Nat × Nat)}
    (hrun : RunInv startMem endMem h'.pa owned') (hpd : h'.pd = h.pd) (hbh : h'.bh = h.bh)
    (hcol : ∀ j, (h'.sizes j).nblocks = (h.sizes j).nblocks
      ∧ (h'.sizes j).gfporder = (h.sizes j).gfporder)
    (hnd : ∀ j < sizesNum - 1, (h'.sizes j).list.Nodup)
    (hsub : ∀ j < sizesNum - 1, ∀ q ∈ (h'.sizes j).list,
      q ∈ (h.sizes j).list ∧ (q, Mm.gfporder j) ∈ owned') (hothers : ∀ b ∈ pages, b ∈ owned')
    (hplaced : ∀ j < sizesNum - 1, ∀ q ∈ (h.sizes j).list, ∀ a ∈ live,
      a.1 ∈ blocksOf j q → q ∈ (h'.sizes j).list) :
    HeapInv startMem endMem h' owned' pages live ch where
  run := hrun
  gfporder j := by rw [(hcol j).2, hi.gfporder]
  nblocks j hj := by rw [(hcol j).1, hi.nblocks j hj]
  lists := hnd
  listed j hj q hq := (hsub j hj q hq).2
  page j hj q hq := (hi.page j hj q (hsub j hj q hq).1).congr (by rw [hpd])
    (fun _ _ => by rw [hbh]) fun _ _ => Iff.rfl
  others b hb := ⟨hothers b hb, fun j hj hin =>
    (hi.others b hb).2 j hj (hsub j hj _ hin).1⟩
  others_nodup := hi.others_nodup
  live_nodup := hi.live_nodup
  placed a ha := by
    obtain ⟨h0, q, hq, haq⟩ := hi.placed a ha
    exact ⟨h0, q, hplaced _ (lt_of_blocksize_ne_zero h0) q hq a ha haq, haq⟩

/-- Moving a page block to the front keeps the invariant. -/
theorem HeapInv.moveFront (hpg : pg ∈ (h.sizes k).list) :
    HeapInv startMem endMem (h.moveFront k pg) owned pages live ch := by
  have hlist := @Heap.update_list h (h.moveFront k pg) k _ rfl
  have hmem : ∀ j q, q ∈ ((h.moveFront k pg).sizes j).list
      ↔ q ∈ (h.sizes j).list := by
    intro j q
    rw [hlist]
    split
    next hj =>
      subst hj
      exact (List.perm_cons_erase hpg).symm.mem_iff
    next => exact Iff.rfl
  refine hi.relist hi.run rfl rfl
    (Heap.update_columns rfl rfl rfl) ?_ ?_
    (fun b hb => (hi.others b hb).1) ?_
  · intro j hj
    rw [hlist]
    split
    next he =>
      subst he
      exact (List.perm_cons_erase hpg).nodup_iff.1 (hi.lists j hj)
    next => exact hi.lists j hj
  · intro j hj q hq
    rw [hmem] at hq
    exact ⟨hq, hi.listed j hj q hq⟩
  · intro j _ q hq _ _ _
    rw [hmem]
    exact hq

/-- A page block none of whose blocks is out can be given back. -/
theorem HeapInv.releasePages (hk : k < sizesNum - 1) (hpg : pg ∈ (h.sizes k).list)
    (hfree : ∀ a ∈ live, a.1 ∉ blocksOf k pg) : HeapInv startMem endMem (h.releasePages k pg)
      (owned.erase (pg, Mm.gfporder k)) pages live ch := by
  have hlist := @Heap.update_list h (h.releasePages k pg) k _ rfl
  have hown := hi.listed k hk pg hpg
  have hrun := hi.run.free hown
  have hne : ∀ j < sizesNum - 1, ∀ q ∈ ((h.releasePages k pg).sizes j).list,
      q ∈ (h.sizes j).list ∧ q ≠ pg := by
    intro j hj q hq
    rw [hlist] at hq
    split at hq
    next he =>
      subst he
      exact ((hi.lists j hj).mem_erase_iff.1 hq).symm
    next he =>
      refine ⟨hq, fun hqp => he ?_⟩
      subst hqp
      rw [← (hi.page j hj q hq).order, (hi.page k hk q hpg).order]
  refine hi.relist ?_ rfl rfl
    (Heap.update_columns rfl rfl rfl) ?_ ?_ ?_ ?_
  · show RunInv _ _ (freePages pg (h.sizes k).gfporder h.pa) _
    rw [hi.gfporder]
    exact hrun
  · intro j hj
    rw [hlist]
    split
    next he =>
      subst he
      exact (hi.lists j hj).erase pg
    next => exact hi.lists j hj
  · intro j hj q hq
    obtain ⟨hq, hqp⟩ := hne j hj q hq
    refine ⟨hq, (List.mem_erase_of_ne fun he => hqp ?_).2 (hi.listed j hj q hq)⟩
    exact (Prod.mk.injEq _ _ _ _ ▸ he).1
  · intro b hb
    refine (List.mem_erase_of_ne fun he => ?_).2 (hi.others b hb).1
    exact (hi.others b hb).2 k hk (by rw [he]; exact hpg)
  · intro j _ q hq a ha haq
    rw [hlist]
    split
    next he =>
      subst he
      refine (List.mem_erase_of_ne fun hqp => ?_).2 hq
      exact hfree a ha (hqp ▸ haq)
    next => exact hq

end Changes

end Cnix.Mm
