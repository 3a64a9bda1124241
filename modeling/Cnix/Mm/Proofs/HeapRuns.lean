/-
Runs of the heap, from boot through any history of `kmalloc` and
`kfree`, with the other users of the page allocator in between.

Live allocations should stay apart from each other and from the heap's
own data, and inside the pages of their bucket (`HeapSafe`). The
structure holds in every run (`HeapRun.inv`), so `HeapSafe` comes down to
one arithmetic question for each allocation, whether it ends within its
page block (`heapSafe_iff`). `sd_nblocks` is computed without the
descriptor, so the last block of a page block may reach past its end:
`Fits` is the condition under which the block `kmalloc` is about to hand
out does not. What the holders write into their blocks is no part of a
run.
-/
import Mathlib.Data.List.Perm.Subperm
import Cnix.Mm.Proofs.Heap

namespace Cnix.Mm

open Lib
open PageAlloc
open Heap

-- ======== the runs

/-- The live allocations after `kmalloc` returned `p`. -/
def allocated (p size : Nat) (live : List (Nat × Nat)) : List (Nat × Nat) :=
  if p = 0 then live else (p, size) :: live

/-- The states reached from boot: `pages` are the page blocks other
parts of the kernel hold, `live` the allocations with their sizes. `ok`
is a condition on the state before each `kmalloc`. A `kmalloc` that
slept in `get_free_pages` goes on from there (`resume`), in the state it
wakes up in. -/
inductive HeapRun (ok : Heap → Nat → Prop) (startMem endMem : Nat)
    (mem : Nat → Nat → BitVec 32) :
    Heap → List (Nat × Nat) → List (Nat × Nat) → Prop
  | init {pa : PageAlloc} :
      memInit startMem endMem (freeAreaInit mem) = .ok pa →
      HeapRun ok startMem endMem mem (kmallocInit pa) [] []
  | kmalloc {h h' : Heap} {pages live : List (Nat × Nat)} {size attr p : Nat} :
      HeapRun ok startMem endMem mem h pages live → 1 ≤ size → ok h size →
      kmalloc size attr h = .ok (p, h') →
      HeapRun ok startMem endMem mem h' pages (allocated p size live)
  | resume {h h' : Heap} {pages live : List (Nat × Nat)} {size attr p : Nat} :
      HeapRun ok startMem endMem mem h pages live → 1 ≤ size →
      blocksize (bucketOf size) ≠ 0 →
      growBucket (bucketOf size) attr h = .ok (p, h') →
      HeapRun ok startMem endMem mem h' pages (allocated p size live)
  | kfree {h : Heap} {pages live : List (Nat × Nat)} {a : Nat × Nat} :
      HeapRun ok startMem endMem mem h pages live → a ∈ live →
      HeapRun ok startMem endMem mem (kfree a.1 h) pages (live.erase a)
  | getPages {h : Heap} {pa : PageAlloc} {pages live : List (Nat × Nat)}
      {attr k addr : Nat} :
      HeapRun ok startMem endMem mem h pages live → k < nrFreeList →
      getFreePages attr k h.pa = .ok (addr, pa) →
      HeapRun ok startMem endMem mem { h with pa := pa }
        (if addr = 0 then pages else (addr, k) :: pages) live
  | freePages {h : Heap} {pages live : List (Nat × Nat)} {b : Nat × Nat} :
      HeapRun ok startMem endMem mem h pages live → b ∈ pages →
      HeapRun ok startMem endMem mem { h with pa := freePages b.1 b.2 h.pa }
        (pages.erase b) live

-- ======== kmalloc and kfree

section Steps

variable {startMem endMem size k : Nat} {h h' : Heap} {pa : PageAlloc}
  {owned pages live : List (Nat × Nat)} {ch : Nat → List Nat} {a b : Nat × Nat}

/-- The bucket has a new page block in front, whose first block `p` is
out and whose others are chained. -/
def Grown (h : Heap) (ch : Nat → List Nat) (k p : Nat) : Prop :=
  ∃ pg, p = pg + pageDescSize ∧ pg = mapNr pg * pageSize
    ∧ (h.sizes k).list.head? = some pg ∧ ch pg = (blocksOf k pg).tail

/-- The block `kmalloc` is about to take out of a page block it already
has ends, with the size asked for, inside that page block. -/
def Fits (h : Heap) (size : Nat) : Prop :=
  match h.firstWithFree (bucketOf size) with
  | none => True
  | some pg => (h.pd pg).firstfree + size
      ≤ pg + pageSize * 2 ^ (h.sizes (bucketOf size)).gfporder

/-- The allocation ends within its page block. -/
def InPage (a : Nat × Nat) : Prop :=
  a.1 % pageSize + a.2 ≤ pageBytes (bucketOf a.2)

/-- The first block of a new page block ends in it. -/
theorem inPage_of_grown {p : Nat} (h0 : blocksize (bucketOf size) ≠ 0)
    (hg : Grown h ch (bucketOf size) p) : InPage (p, size) := by
  obtain ⟨pg, rfl, hpg, -⟩ := hg
  have hfirst := (row (lt_of_blocksize_ne_zero h0)).first
  have hsize := size_le_blocksize h0
  have hmod : (pg + pageDescSize) % pageSize = pageDescSize := by
    rw [hpg, Nat.add_comm, Nat.add_mul_mod_self_right]
    rfl
  unfold InPage
  dsimp only
  omega

variable (hi : HeapInv startMem endMem h owned pages live ch)

include hi

/-- The page allocator may be used by others. -/
theorem HeapInv.setPa {owned' : List (Nat × Nat)}
    (hrun : RunInv startMem endMem pa owned') (hsub : ∀ b ∈ owned, b ∈ owned') :
    HeapInv startMem endMem { h with pa := pa } owned' pages live ch :=
  hi.relist hrun rfl rfl (fun _ => ⟨rfl, rfl⟩) hi.lists
    (fun j hj q hq => ⟨hq, hsub _ (hi.listed j hj q hq)⟩)
    (fun b hb => hsub b (hi.others b hb).1) (fun _ _ _ hq _ _ _ => hq)

/-- A block that comes from the page allocator is neither on a bucket's
list nor held by others. -/
theorem HeapInv.fresh {addr k : Nat}
    (hl : LiveOk startMem endMem ((addr, k) :: owned)) :
    (∀ j < sizesNum - 1, addr ∉ (h.sizes j).list) ∧ ∀ b ∈ pages, b.1 ≠ addr := by
  have hnew : ∀ b ∈ owned, b.1 ≠ addr := by
    intro b hb he
    have hbe : b = (addr, k) := hl.eq_of_addr (by simp [hb]) (by simp) he
    exact (List.nodup_cons.1 hl.nodup).1 (hbe ▸ hb)
  exact ⟨fun j hj hin => hnew _ (hi.listed j hj addr hin) rfl,
    fun b hb => hnew b (hi.others b hb).1⟩

/-- `kmalloc` with a new page block sleeps, or keeps the invariant; it
returns `NULL` only when no page block is left. -/
theorem HeapInv.growBucket (hlow : lowMem ≤ startMem)
    (h0 : blocksize (bucketOf size) ≠ 0) (attr : Nat) :
    attr &&& pageWait ≠ 0 ∧ Heap.growBucket (bucketOf size) attr h = .error .sleep
      ∨ ∃ p h' owned' ch', Heap.growBucket (bucketOf size) attr h = .ok (p, h')
        ∧ HeapInv startMem endMem h' owned' pages (allocated p size live) ch'
        ∧ (p ≠ 0 → Grown h' ch' (bucketOf size) p)
        ∧ (p = 0 → NoRun (FreeFrame startMem endMem owned) (Mm.gfporder (bucketOf size))) := by
  have hk := lt_of_blocksize_ne_zero h0
  have hr := row hk
  obtain ⟨fl, hbuddy⟩ := hi.run.inv
  have hspec := getFreePages_spec attr hbuddy (not_freeFrame_zero hlow) hr.order
  unfold Heap.growBucket
  rw [hi.gfporder]
  cases hget : getFreePages attr (Mm.gfporder (bucketOf size)) h.pa with
  | error t =>
    refine .inl ?_
    rcases hspec with ⟨n, s', h1, -⟩ | ⟨-, h1⟩
    · rw [hget] at h1
      cases h1
    · rw [hget] at h1
      split at h1
      next hwait =>
        cases h1
        exact ⟨hwait, rfl⟩
      next => cases h1
  | ok r =>
    obtain ⟨addr, pa⟩ := r
    refine .inr ?_
    have hrun := hi.run.get hlow hr.order attr hget
    by_cases haddr : addr = 0
    · subst haddr
      refine ⟨0, { h with pa := pa }, owned, ch, by simp,
        hi.setPa hrun fun _ hb => hb, fun hne => absurd rfl hne, fun _ => ?_⟩
      rcases hspec with ⟨n, s', h1, hn, -⟩ | ⟨hno, -⟩
      · rw [hget] at h1
        have hzero : 0 = n * pageSize := congrArg Prod.fst (Except.ok.inj h1)
        exact absurd hzero.symm (Nat.mul_ne_zero hn.nonzero (by decide))
      · exact hno
    · rw [if_neg haddr] at hrun
      obtain ⟨hlists, hothers⟩ := hi.fresh hrun.live_ok
      have hi1 := hi.setPa hrun fun b hb => List.mem_cons_of_mem _ hb
      have hi2 := hi1.newPage hk (by simp) hlists hothers
      have hlist := @update_list { h with pa := pa } (Heap.newPage (bucketOf size) addr { h with pa := pa }) _ _ rfl (bucketOf size)
      rw [if_pos rfl] at hlist
      obtain ⟨c, hc⟩ := blocksOf_cons hk addr
      have hin : addr ∈ ((Heap.newPage (bucketOf size) addr { h with pa := pa }).sizes
          (bucketOf size)).list := by
        rw [hlist]
        simp
      obtain ⟨h', htake, hsb, hi3⟩ := hi2.takeBlock hk hin
        (by rw [Function.update_self, hc]) size rfl
      refine ⟨addr + pageDescSize, h', _, _, ?_, hi3,
        fun _ => ⟨addr, rfl, ?_, ?_, ?_⟩, fun hz => absurd hz (by omega)⟩
      · rw [← htake]
        simp [haddr]
      · exact (hrun.live_ok.shape _ List.mem_cons_self).2.2
      · rw [hsb.list, hlist]
        rfl
      · rw [Function.update_self, hc]
        rfl

/-- The first page block of a bucket, when it has a free block, and that
block. -/
theorem HeapInv.firstWithFree {k pg : Nat}
    (hk : k < sizesNum - 1) (hf : h.firstWithFree k = some pg) :
    pg ∈ (h.sizes k).list ∧ ∃ c, ch pg = (h.pd pg).firstfree :: c := by
  unfold Heap.firstWithFree at hf
  split at hf
  · cases hf
  rename_i q rest hlist
  split at hf
  · cases hf
  rename_i hne
  cases hf
  have hpg : pg ∈ (h.sizes k).list := by rw [hlist]; simp
  have hp := hi.page k hk pg hpg
  refine ⟨hpg, ?_⟩
  cases hc : ch pg with
  | nil =>
    rw [hp.nfrees, hc] at hne
    exact absurd rfl hne
  | cons b c =>
    have hchain := hp.chain
    rw [hc] at hchain
    exact ⟨c, by rw [hchain.1]⟩

/-- A `kmalloc` that returns keeps the invariant; what it hands out stays
inside its page block exactly when it was to fit. -/
theorem HeapInv.kmalloc (hlow : lowMem ≤ startMem) {attr p : Nat}
    (hcall : Heap.kmalloc size attr h = .ok (p, h')) :
    ∃ owned' ch', HeapInv startMem endMem h' owned' pages (allocated p size live) ch'
      ∧ (p ≠ 0 → (InPage (p, size) ↔ Fits h size)) := by
  unfold Heap.kmalloc at hcall
  unfold Fits
  dsimp only at hcall
  split at hcall
  · cases hcall
    exact ⟨owned, ch, hi, fun hne => absurd rfl hne⟩
  · next h0 =>
    have hk := lt_of_blocksize_ne_zero h0
    cases hf : h.firstWithFree (bucketOf size) with
    | none =>
      rw [hf] at hcall
      dsimp only at hcall
      rcases hi.growBucket hlow h0 attr with ⟨-, hs⟩ | ⟨q, t, owned', ch', hg, hi', hp, -⟩
      · rw [hs] at hcall
        cases hcall
      · rw [hg] at hcall
        cases hcall
        exact ⟨owned', ch', hi', fun hne => iff_true_intro (inPage_of_grown h0 (hp hne))⟩
    | some pg =>
      rw [hf] at hcall
      dsimp only at hcall
      obtain ⟨hpg, c, hc⟩ := hi.firstWithFree hk hf
      obtain ⟨t, htake, -, hi'⟩ := hi.takeBlock hk hpg hc size rfl
      rw [htake] at hcall
      cases hcall
      have hb : (h.pd pg).firstfree ∈ blocksOf (bucketOf size) pg :=
        (hi.page _ hk pg hpg).blocks _ (by rw [hc]; simp)
      have hmask := pageMask_block hk (hi.aligned hk hpg) hb
      have halloc : allocated (h.pd pg).firstfree size live
          = ((h.pd pg).firstfree, size) :: live := if_neg (block_ne_zero hk hb)
      rw [← halloc] at hi'
      refine ⟨owned, _, hi', fun _ => ?_⟩
      show (h.pd pg).firstfree % pageSize + size ≤ pageBytes (bucketOf size)
        ↔ (h.pd pg).firstfree + size ≤ pg + pageSize * 2 ^ _
      rw [hi.gfporder]
      have hdiv := Nat.div_add_mod' (h.pd pg).firstfree pageSize
      unfold pageMask at hmask
      unfold pageBytes
      omega

/-- A call returns a block if the first page block has one. -/
theorem HeapInv.kmalloc_of_free {pg : Nat} (h0 : blocksize (bucketOf size) ≠ 0)
    (hf : h.firstWithFree (bucketOf size) = some pg) (attr : Nat) :
    ∃ p h', Heap.kmalloc size attr h = .ok (p, h') ∧ p ≠ 0 := by
  have hk := lt_of_blocksize_ne_zero h0
  obtain ⟨hpg, c, hc⟩ := hi.firstWithFree hk hf
  obtain ⟨h', htake, -, -⟩ := hi.takeBlock hk hpg hc size rfl
  unfold Heap.kmalloc
  simp only [if_neg h0, hf]
  exact ⟨_, h', htake, block_ne_zero hk ((hi.page _ hk pg hpg).blocks _ (by rw [hc]; simp))⟩

/-- `kfree` of a live allocation keeps the invariant. -/
theorem HeapInv.kfree {a : Nat × Nat}
    (ha : a ∈ live) :
    ∃ owned' ch', HeapInv startMem endMem (Heap.kfree a.1 h) owned' pages (live.erase a) ch' := by
  obtain ⟨h0, pg, hpg, hb⟩ := hi.placed a ha
  have hk := lt_of_blocksize_ne_zero h0
  generalize bucketOf a.2 = k at *
  have hmask := pageMask_block hk (hi.aligned hk hpg) hb
  have hi1 := hi.putBlock hk hpg ha hb
  have hsb := @SameBuckets.update h (h.putBlock pg a.1) _ _ rfl rfl rfl rfl
  have hpg1 : pg ∈ ((h.putBlock pg a.1).sizes k).list := by
    rw [hsb.list]
    exact hpg
  have hp := hi1.page k hk pg hpg1
  unfold Heap.kfree
  simp only [hmask, hp.order]
  split
  next hfull =>
    -- as many free blocks as there are blocks: none is out
    rw [hp.nfrees, hi1.nblocks k hk] at hfull
    have hsubperm := List.subperm_of_subset hp.nodup hp.blocks
    have hperm := hsubperm.perm_of_length_le
      (by rw [hfull, blocksOf, List.length_range'])
    refine ⟨_, _, hi1.releasePages hk hpg1 fun c hc hcb => ?_⟩
    exact (hp.split c.1 hcb).1 (hperm.mem_iff.2 hcb) (List.mem_map_of_mem hc)
  next =>
    split
    next => exact ⟨_, _, hi1.moveFront hpg1⟩
    next => exact ⟨_, _, hi1⟩

/-- The others give a page block back. -/
theorem HeapInv.freeOther (hb : b ∈ pages) :
    HeapInv startMem endMem { h with pa := freePages b.1 b.2 h.pa }
      (owned.erase b) (pages.erase b) live ch := by
  obtain ⟨hown, hout⟩ := hi.others b hb
  -- the heap's own page blocks are not this one
  have hne : ∀ j < sizesNum - 1, ∀ q ∈ (h.sizes j).list, (q, Mm.gfporder j) ≠ b :=
    fun j hj q hq he => hout j hj (by rw [← he]; exact hq)
  have hi' : HeapInv startMem endMem h owned (pages.erase b) live ch :=
    { hi with
      others := fun c hc => hi.others c (List.mem_of_mem_erase hc)
      others_nodup := hi.others_nodup.erase b }
  refine hi'.relist (hi.run.free hown) rfl rfl (fun _ => ⟨rfl, rfl⟩) hi.lists ?_ ?_
    fun _ _ _ hq _ _ _ => hq
  · intro j hj q hq
    exact ⟨hq, (List.mem_erase_of_ne (hne j hj q hq)).2 (hi.listed j hj q hq)⟩
  · intro c hc
    obtain ⟨hcb, hc⟩ := hi.others_nodup.mem_erase_iff.1 hc
    exact (List.mem_erase_of_ne hcb).2 (hi.others c hc).1

/-- The others take a page block. -/
theorem HeapInv.getOther {pa : PageAlloc} {attr addr : Nat}
    (hlow : lowMem ≤ startMem)
    (hk : k < nrFreeList)
    (hget : getFreePages attr k h.pa = .ok (addr, pa)) :
    ∃ owned', HeapInv startMem endMem { h with pa := pa } owned'
      (if addr = 0 then pages else (addr, k) :: pages) live ch := by
  have hrun := hi.run.get hlow hk attr hget
  by_cases haddr : addr = 0
  · rw [if_pos haddr] at hrun ⊢
    exact ⟨owned, hi.setPa hrun fun _ hb => hb⟩
  · rw [if_neg haddr] at hrun ⊢
    obtain ⟨hlists, hothers⟩ := hi.fresh hrun.live_ok
    have hi' := hi.setPa hrun fun b hb => List.mem_cons_of_mem _ hb
    refine ⟨(addr, k) :: owned, { hi' with others := ?_, others_nodup := ?_ }⟩
    · intro b hb
      rcases List.mem_cons.1 hb with rfl | hb
      · exact ⟨by simp, hlists⟩
      · exact hi'.others b hb
    · exact List.nodup_cons.2 ⟨fun hin => hothers _ hin rfl, hi.others_nodup⟩

end Steps

-- ======== the run invariant

variable {ok : Heap → Nat → Prop} {startMem endMem k : Nat} {mem : Nat → Nat → BitVec 32}
  {h h' : Heap} {owned pages live : List (Nat × Nat)} {ch : Nat → List Nat} {b a : Nat × Nat}

/-- `kmalloc_init` leaves empty buckets. -/
theorem heapInv_init {pa : PageAlloc} (hrun : RunInv startMem endMem pa []) :
    HeapInv startMem endMem (kmallocInit pa) [] [] [] fun _ => [] where
  run := hrun
  gfporder _ := rfl
  nblocks k hk := by
    show (if k < sizesNum - 1 then _ else 0) = _
    rw [if_pos hk]
    rfl
  lists _ _ := List.nodup_nil
  listed _ _ _ hq := absurd hq List.not_mem_nil
  page _ _ _ hq := absurd hq List.not_mem_nil
  others _ hb := absurd hb List.not_mem_nil
  others_nodup := List.nodup_nil
  live_nodup := List.nodup_nil
  placed _ ha := absurd ha List.not_mem_nil

/-- The invariant holds in every state of every run, whatever the
condition on the calls. -/
theorem HeapRun.inv (hlow : lowMem ≤ startMem)
    (hrun : HeapRun ok startMem endMem mem h pages live) :
    ∃ owned ch, HeapInv startMem endMem h owned pages live ch := by
  induction hrun with
  | init hinit => exact ⟨_, _, heapInv_init (RunInv.boot hlow hinit)⟩
  | @kmalloc h h' pages live size attr p _ _ _ hcall ih =>
    obtain ⟨owned, ch, hi⟩ := ih
    obtain ⟨owned', ch', hi', -⟩ := hi.kmalloc hlow hcall
    exact ⟨owned', ch', hi'⟩
  | @resume h h' pages live size attr p _ _ h0 hcall ih =>
    obtain ⟨owned, ch, hi⟩ := ih
    rcases hi.growBucket hlow h0 attr with ⟨-, he⟩ | ⟨q, t, owned', ch', hq, hi', -⟩
    · rw [hcall] at he
      cases he
    · rw [hcall] at hq
      cases hq
      exact ⟨owned', ch', hi'⟩
  | kfree _ ha ih =>
    obtain ⟨owned, ch, hi⟩ := ih
    exact hi.kfree ha
  | getPages _ hk hget ih =>
    obtain ⟨owned, ch, hi⟩ := ih
    obtain ⟨owned', hi'⟩ := hi.getOther hlow hk hget
    exact ⟨owned', ch, hi'⟩
  | freePages _ hb ih =>
    obtain ⟨owned, ch, hi⟩ := ih
    exact ⟨_, ch, hi.freeOther hb⟩

-- ======== safety

/-- Two byte ranges, given by start and length, do not meet. -/
def Apart (a b : Nat × Nat) : Prop := a.1 + a.2 ≤ b.1 ∨ b.1 + b.2 ≤ a.1

/-- What the heap owes its users. -/
structure HeapSafe (h : Heap) (live : List (Nat × Nat)) : Prop where
  disjoint : live.Pairwise Apart
  descriptors : ∀ a ∈ live, ∀ k < sizesNum - 1, ∀ pg ∈ (h.sizes k).list,
    Apart a (pg, pageDescSize)
  headers : ∀ a ∈ live, ∀ k < sizesNum - 1, ∀ pg ∈ (h.sizes k).list,
    ∃ c, Chain (fun b => (h.bh b).next) 0 (h.pd pg).firstfree c ∧
      ∀ b ∈ c, Apart a (b, blockHeaderSize)
  inside : ∀ a ∈ live, ∃ pg ∈ (h.sizes (bucketOf a.2)).list,
    pg ≤ a.1 ∧ a.1 + a.2
      ≤ pg + pageSize * 2 ^ (h.sizes (bucketOf a.2)).gfporder

/-- A byte range lies in a page block of bucket `k`. -/
def Within (k pg : Nat) (a : Nat × Nat) : Prop :=
  pg ≤ a.1 ∧ a.1 + a.2 ≤ pg + pageBytes k

/-- Ranges in different page blocks are apart. -/
theorem HeapInv.apart_of_ne (hi : HeapInv startMem endMem h owned pages live ch)
    {j p q : Nat} (hj : j < sizesNum - 1) (hk : k < sizesNum - 1) (hp : p ∈ (h.sizes j).list)
    (hq : q ∈ (h.sizes k).list) (hne : p ≠ q) (ha : Within j p a)
    (hb : Within k q b) : Apart a b := by
  obtain ⟨ha1, ha2⟩ := ha
  obtain ⟨hb1, hb2⟩ := hb
  have hpq : (p, Mm.gfporder j) ≠ (q, Mm.gfporder k) := by
    intro he
    exact hne (congrArg Prod.fst he)
  unfold pageBytes at ha2 hb2
  rcases hi.run.live_ok.apart (hi.listed j hj p hp) (hi.listed k hk q hq) hpq with
    hor | hor
  · exact .inl (by dsimp only at hor; omega)
  · exact .inr (by dsimp only at hor; omega)

/-- An allocation that ends in its page block, with the page block. -/
theorem HeapInv.locate (hi : HeapInv startMem endMem h owned pages live ch)
    (ha : a ∈ live) (hin : InPage a) :
    ∃ k pg, k = bucketOf a.2 ∧ k < sizesNum - 1 ∧ pg ∈ (h.sizes k).list
      ∧ a.1 ∈ blocksOf k pg ∧ a.2 ≤ blocksize k ∧ Within k pg a := by
  obtain ⟨h0, pg, hpg, hb⟩ := hi.placed a ha
  have hk := lt_of_blocksize_ne_zero h0
  have hmask := pageMask_block hk (hi.aligned hk hpg) hb
  refine ⟨_, pg, rfl, hk, hpg, hb, size_le_blocksize h0, ?_⟩
  have hdiv := Nat.div_add_mod' a.1 pageSize
  unfold pageMask at hmask
  unfold InPage at hin
  unfold Within
  omega

/-- In every state that satisfies the invariant the heap is safe exactly
when every allocation ends in its page block. -/
theorem heapSafe_iff (hi : HeapInv startMem endMem h owned pages live ch) :
    HeapSafe h live ↔ ∀ a ∈ live, InPage a := by
  constructor
  · intro hsafe a ha
    obtain ⟨pg, hpg, hle, hend⟩ := hsafe.inside a ha
    obtain ⟨h0, q, hq, hb⟩ := hi.placed a ha
    have hk := lt_of_blocksize_ne_zero h0
    have hbounds := block_bounds hk hb
    have hmask := pageMask_block hk (hi.aligned hk hq) hb
    have hbytes : pageSize ≤ pageBytes (bucketOf a.2) :=
      Nat.le_mul_of_pos_right _ (Nat.two_pow_pos _)
    have hdesc : 0 < pageDescSize := by decide
    rw [hi.gfporder] at hend
    -- the page block the range lies in is the one its block is in
    obtain rfl : pg = q := by
      by_contra hne
      rcases hi.apart_of_ne hk hk hpg hq hne ⟨hle, hend⟩
        (⟨Nat.le_refl _, Nat.le_refl _⟩ : Within _ q (q, pageBytes _)) with hor | hor
      · omega
      · omega
    have hdiv := Nat.div_add_mod' a.1 pageSize
    unfold pageMask at hmask
    unfold InPage pageBytes
    omega
  · intro hin
    refine ⟨?_, ?_, ?_, ?_⟩
    · refine (hi.live_nodup.of_map Prod.fst).pairwise_of_forall_ne fun a ha b hb hab => ?_
      have hfst : a.1 ≠ b.1 := fun he =>
        hab (List.inj_on_of_nodup_map hi.live_nodup ha hb he)
      obtain ⟨j, p, -, hj, hp, hba, hsa, hwa⟩ := hi.locate ha (hin a ha)
      obtain ⟨k, q, -, hk, hq, hbb, hsb, hwb⟩ := hi.locate hb (hin b hb)
      by_cases hpq : p = q
      · -- two blocks of one page block
        subst hpq
        obtain rfl : j = k := by
          rw [← (hi.page j hj p hp).order, (hi.page k hk p hq).order]
        rcases blocks_apart hba hbb hfst with hor | hor
        · exact .inl (by omega)
        · exact .inr (by omega)
      · exact hi.apart_of_ne hj hk hp hq hpq hwa hwb
    · intro a ha k hk q hq
      obtain ⟨j, p, -, hj, hp, hb, -, hw⟩ := hi.locate ha (hin a ha)
      have hfirst := (row hk).first
      by_cases hpq : p = q
      · subst hpq
        exact .inr (block_bounds hj hb).1
      · exact hi.apart_of_ne hj hk hp hq hpq hw ⟨Nat.le_refl _, by dsimp only; omega⟩
    · intro a ha k hk q hq
      obtain ⟨j, p, -, hj, hp, hba, hsa, hw⟩ := hi.locate ha (hin a ha)
      have hpage := hi.page k hk q hq
      refine ⟨ch q, hpage.chain, fun b hbq => ?_⟩
      have hbb := hpage.blocks b hbq
      by_cases hpq : p = q
      · -- a block on the chain is not out
        subst hpq
        obtain rfl : j = k := by
          rw [← (hi.page j hj p hp).order, hpage.order]
        have hne : a.1 ≠ b := by
          intro he
          exact (hpage.split b hbb).1 hbq (he ▸ List.mem_map_of_mem ha)
        have hsize := (row hk).size
        rcases blocks_apart hba hbb hne with hor | hor
        · exact .inl (by dsimp only; omega)
        · exact .inr (by dsimp only; omega)
      · have hbounds := block_bounds hk hbb
        exact hi.apart_of_ne hj hk hp hq hpq hw
          ⟨by dsimp only; omega, by dsimp only; omega⟩
    · intro a ha
      obtain ⟨k, pg, rfl, -, hpg, -, -, hle, hend⟩ := hi.locate ha (hin a ha)
      refine ⟨pg, hpg, hle, ?_⟩
      rw [hi.gfporder]
      exact hend

-- ======== the contract

/-- In a run whose calls all fit, every allocation ends in its page
block. -/
theorem HeapRun.inPage (hlow : lowMem ≤ startMem)
    (hrun : HeapRun Fits startMem endMem mem h pages live) : ∀ a ∈ live, InPage a := by
  -- an allocation of such a call is the only one that can be new
  have hstep : ∀ {p size : Nat} {live : List (Nat × Nat)},
      (∀ a ∈ live, InPage a) → (p ≠ 0 → InPage (p, size)) →
      ∀ a ∈ allocated p size live, InPage a := by
    intro p size live hold hnew a ha
    unfold allocated at ha
    split at ha
    · exact hold a ha
    · rename_i hne
      rcases List.mem_cons.1 ha with rfl | ha
      · exact hnew hne
      · exact hold a ha
  induction hrun with
  | init => simp
  | @kmalloc h h' pages live size attr p hrun _ hfit hcall ih =>
    obtain ⟨owned, ch, hi⟩ := hrun.inv hlow
    apply hstep ih
    obtain ⟨-, -, -, hpage⟩ := hi.kmalloc hlow hcall
    exact fun hne => (hpage hne).2 hfit
  | @resume h h' pages live size attr p hrun _ h0 hcall ih =>
    obtain ⟨owned, ch, hi⟩ := hrun.inv hlow
    apply hstep ih
    rcases hi.growBucket hlow h0 attr with
      ⟨-, he⟩ | ⟨q, t, owned', ch', hq, -, hgrown, -⟩
    · rw [hcall] at he
      cases he
    · rw [hcall] at hq
      cases hq
      exact fun hne => inPage_of_grown h0 (hgrown hne)
  | kfree _ _ ih => exact fun a ha => ih a (List.mem_of_mem_erase ha)
  | getPages _ _ _ ih | freePages _ _ ih => exact ih

/-- In every run whose `kmalloc` calls all fit the heap is safe, and
from there the next call keeps it safe exactly when it fits. -/
theorem kmalloc_safe_iff_fits (hlow : lowMem ≤ startMem)
    (hrun : HeapRun Fits startMem endMem mem h pages live) : HeapSafe h live
      ∧ ∀ size attr p h', 1 ≤ size → kmalloc size attr h = .ok (p, h') → p ≠ 0 →
        (HeapSafe h' ((p, size) :: live) ↔ Fits h size) := by
  obtain ⟨owned, ch, hi⟩ := hrun.inv hlow
  have hin := hrun.inPage hlow
  refine ⟨(heapSafe_iff hi).2 hin, fun size attr p h' _ hcall hne => ?_⟩
  obtain ⟨owned', ch', hi', hpage⟩ := hi.kmalloc hlow hcall
  have halloc : allocated p size live = (p, size) :: live := if_neg hne
  rw [halloc] at hi'
  rw [heapSafe_iff hi', ← hpage hne, List.forall_mem_cons]
  exact and_iff_left hin

/-- With an empty bucket and a free page a call fits and returns the first
block of a new page. The next call takes the second block, and fits if
that ends in the page. -/
theorem first_of_page (size n : Nat) (hlow : lowMem ≤ startMem)
    (hi : HeapInv startMem endMem h owned pages live ch) (h0 : blocksize (bucketOf size) ≠ 0)
    (horder : gfporder (bucketOf size) = 0) (htwo : nblocksOf (bucketOf size) = n + 2)
    (hempty : (h.sizes (bucketOf size)).list = []) {f : Nat} (hf : FreeFrame startMem endMem owned f) :
    Fits h size ∧ ∃ p h' pg, kmalloc size 0 h = .ok (p, h') ∧ p ≠ 0 ∧
      h'.firstWithFree (bucketOf size) = some pg ∧
      (Fits h' size ↔ pageDescSize + blocksize (bucketOf size) + size ≤ pageSize) := by
  have hnone : h.firstWithFree (bucketOf size) = none := by
    unfold firstWithFree
    rw [hempty]
  have hcall : kmalloc size 0 h = growBucket (bucketOf size) 0 h := by
    unfold kmalloc
    rw [if_neg h0, hnone]
  refine ⟨by unfold Fits; rw [hnone]; trivial, ?_⟩
  rw [hcall]
  rcases hi.growBucket hlow h0 0 with ⟨hwait, -⟩ | ⟨p, h', owned', ch', hg, hi', hp, hz⟩
  · exact absurd rfl hwait
  · have hne : p ≠ 0 := by
      intro hzero
      -- a single free frame is a page block of order 0
      obtain ⟨f', hf', hnot⟩ := hz hzero f (horder ▸ Nat.one_dvd f)
      obtain rfl : f' = f := by
        unfold InBlock at hf'
        rw [horder] at hf'
        omega
      exact hnot hf
    obtain ⟨pg, -, hpg, hhead, hch⟩ := hp hne
    have hmem : pg ∈ (h'.sizes (bucketOf size)).list := List.mem_of_mem_head? hhead
    have hpage := hi'.page _ (lt_of_blocksize_ne_zero h0) pg hmem
    rw [hch, blocksOf, htwo, List.range'_succ, List.tail_cons, List.range'_succ] at hpage
    have hfirst : h'.firstWithFree (bucketOf size) = some pg := by
      unfold firstWithFree
      cases hl : (h'.sizes (bucketOf size)).list with
      | nil =>
        rw [hl] at hmem
        exact absurd hmem List.not_mem_nil
      | cons q rest =>
        rw [hl] at hhead
        cases hhead
        simp [hpage.nfrees]
    refine ⟨p, h', pg, hg, hne, hfirst, ?_⟩
    unfold Fits
    rw [hfirst]
    show (h'.pd pg).firstfree + size ≤ pg + pageSize * 2 ^ _ ↔ _
    rw [hpage.chain.1, hi'.gfporder, horder]
    omega

/-- Boot leaves an empty heap, and frame 256 free. -/
theorem heap_boot (ok : Heap → Nat → Prop) :
    ∃ pa, HeapRun ok 0x100000 0x140000 (fun _ _ => 0#32) (kmallocInit pa) [] []
      ∧ HeapInv 0x100000 0x140000 (kmallocInit pa) [] [] [] (fun _ => [])
      ∧ FreeFrame 0x100000 0x140000 [] 256 := by
  obtain ⟨pa, -, hinit, -⟩ := @memInit_spec 0x100000 0x140000
    (fun _ _ => 0#32) (by decide)
  refine ⟨pa, .init hinit, heapInv_init (RunInv.boot (by decide) hinit), ?_, by simp⟩
  exact List.mem_append_right _ (List.mem_range'_1.2 (by decide))

/-- Two calls for 1000 bytes after boot, which both fit. -/
theorem kmalloc_safe_pair : ∃ h p h' q, HeapRun Fits 0x100000 0x140000 (fun _ _ => 0#32) h [] [(p, 1000)]
      ∧ kmalloc 1000 0 h = .ok (q, h') ∧ p ≠ 0 ∧ q ≠ 0 ∧ HeapSafe h' [(q, 1000), (p, 1000)] := by
  obtain ⟨pa, hrun, hi, hf⟩ := heap_boot Fits
  obtain ⟨hfit, p, h1, pg, hcall, hne, hfirst, hnext⟩ :=
    first_of_page 1000 2 (by decide) hi (by decide) rfl rfl rfl hf
  have hrun1 := hrun.kmalloc (by decide) hfit hcall
  rw [allocated, if_neg hne] at hrun1
  obtain ⟨owned, ch, hi1⟩ := hrun1.inv (by decide)
  obtain ⟨q, h2, hcall2, hne2⟩ := hi1.kmalloc_of_free (by decide) hfirst 0
  exact ⟨h1, p, h2, q, hrun1, hcall2, hne, hne2, ((kmalloc_safe_iff_fits (by decide) hrun1).2
    1000 0 q h2 (by decide) hcall2 hne2).2 (hnext.2 (by decide))⟩

/-- Two calls for 2040 bytes after boot. The second block ends four bytes
past the page that both were cut from. -/
theorem heap_full_page : ∃ h p q,
    HeapRun (fun _ _ => True) 0x100000 0x140000 (fun _ _ => 0#32) h [] [(q, 2040), (p, 2040)]
      ∧ ¬ InPage (q, 2040) := by
  obtain ⟨pa, hrun, hi, hf⟩ := heap_boot fun _ _ => True
  obtain ⟨-, p, h1, pg, hcall, hne, hfirst, hnext⟩ :=
    first_of_page 2040 0 (by decide) hi (by decide) rfl rfl rfl hf
  have hrun1 := hrun.kmalloc (by decide) trivial hcall
  obtain ⟨owned, ch, hi1⟩ := hrun1.inv (by decide)
  obtain ⟨q, h2, hcall2, hne2⟩ := hi1.kmalloc_of_free (by decide) hfirst 0
  have hrun2 := hrun1.kmalloc (by decide) trivial hcall2
  rw [allocated, allocated, if_neg hne, if_neg hne2] at hrun2
  refine ⟨h2, p, q, hrun2, fun hin => ?_⟩
  obtain ⟨-, -, -, hpage⟩ := hi1.kmalloc (by decide) hcall2
  exact absurd (hnext.1 ((hpage hne2).1 hin)) (by decide)

theorem kmalloc_overruns_page :
    ∃ h live, HeapRun (fun _ _ => True) 0x100000 0x140000 (fun _ _ => 0#32) h [] live
      ∧ ¬ HeapSafe h live := by
  obtain ⟨h, p, q, hrun, hnot⟩ := heap_full_page
  obtain ⟨owned, ch, hi⟩ := hrun.inv (by decide)
  exact ⟨h, _, hrun, fun hsafe => hnot ((heapSafe_iff hi).1 hsafe _ List.mem_cons_self)⟩

/-- In every run, whatever sizes are asked for: a block that is allocated
is a block of a page of its bucket, and no other allocation has it. The
blocks of a page are free or allocated, and it counts the free ones. -/
theorem heap_pages_split (hlow : lowMem ≤ startMem)
    (hrun : HeapRun ok startMem endMem mem h pages live) :
    (live.map Prod.fst).Nodup ∧
    (∀ a ∈ live, ∃ pg ∈ (h.sizes (bucketOf a.2)).list, a.1 ∈ blocksOf (bucketOf a.2) pg) ∧
    ∀ k < sizesNum - 1, ∀ pg ∈ (h.sizes k).list,
      ∃ c, Chain (fun b => (h.bh b).next) 0 (h.pd pg).firstfree c ∧ c.Nodup ∧
        (h.pd pg).nfrees = c.length ∧
        (∀ b ∈ c, b ∈ blocksOf k pg ∧ (h.bh b).flags = mfree) ∧
        ∀ b ∈ blocksOf k pg, b ∈ c ↔ b ∉ live.map Prod.fst := by
  obtain ⟨owned, ch, hi⟩ := hrun.inv hlow
  refine ⟨hi.live_nodup, fun a ha => (hi.placed a ha).2, fun k hk pg hpg => ?_⟩
  have hpage := hi.page k hk pg hpg
  exact ⟨ch pg, hpage.chain, hpage.nodup, hpage.nfrees,
    fun b hb => ⟨hpage.blocks b hb, hpage.flags b hb⟩, hpage.split⟩

/-- Two calls for 2040 bytes, and the first block is freed: the second one
is on no chain. -/
theorem heap_pages_split_freed : ∃ h q pg c,
    HeapRun (fun _ _ => True) 0x100000 0x140000 (fun _ _ => 0#32) h [] [(q, 2040)] ∧
    pg ∈ (h.sizes 6).list ∧ Chain (fun b => (h.bh b).next) 0 (h.pd pg).firstfree c ∧
    (h.pd pg).nfrees = c.length ∧ q ∈ blocksOf 6 pg ∧ q ∉ c := by
  obtain ⟨h, p, q, hrun, -⟩ := heap_full_page
  have hnodup := (heap_pages_split (by decide) hrun).1
  have hfreed := hrun.kfree (a := (p, 2040)) (by simp)
  have hleft : [(q, 2040), (p, 2040)].erase (p, 2040) = [(q, 2040)] := by
    have hne : q ≠ p := by simpa using hnodup
    simp [hne]
  rw [hleft] at hfreed
  obtain ⟨-, hplaced, hpages⟩ := heap_pages_split (by decide) hfreed
  obtain ⟨pg, hpg, hq⟩ := hplaced (q, 2040) List.mem_cons_self
  obtain ⟨c, hchain, -, hcount, -, hsplit⟩ := hpages 6 (by decide) pg hpg
  exact ⟨_, q, pg, c, hfreed, hpg, hchain, hcount, hq, fun hc => (hsplit q hq).1 hc (by simp)⟩

end Cnix.Mm
