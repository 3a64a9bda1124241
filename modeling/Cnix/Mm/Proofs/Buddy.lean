/-
The buddy invariant of the page allocator and its preservation by every
operation.

# The invariant

`BuddyInv s fl F` ties three readings of one state together:

- the pointer fields are, for each order, a ring that holds the list
  `fl k` (`rings`);
- the blocks of those lists are a coalesced tiling of the free frames
  `F` (`tiling`, `Lib.Tiling` at top order 9);
- the bitmap bit of a pair says whether exactly one of the two buddies
  is on the list of its order (`bits`, `Lib.PairBits`).

The bit is what the code branches on. After the toggle in `__free_pages`
a set bit means that the buddy is not free (the new block is now the
only one of its pair) and a clear bit that it is: the two cases are
`PairBits.add` and `PairBits.del` of the same family.

# The operations

Each pointer operation has one lemma about the rings alone
(`rings_push`, `rings_drop`), each loop one lemma about the whole
invariant (`splitBlock_spec`, `coalesce_spec`), and each function one
specification (`getFreePages_spec`, `freePages_spec`) that later modules
use without unfolding the code.

# The counters

`Books s fl extra off` is what `nfreepages` and the counts of the areas
have to do with the lists: by how much they are off. Every operation on a
list says what it does to these differences, next to what it does to the
invariant.
-/
import Cnix.Mm.PageAlloc
import Cnix.Lib.Dyadic
import Cnix.Lib.Tally

namespace Cnix.Mm

open Lib
open PageAlloc
open Function (update update_self update_of_ne update_eq_self)

variable {s s' : PageAlloc} {fl fl' : Nat → List Nat} {F : Nat → Prop}
  {k n : Nat}

-- ======== the invariant

/-- The block of order `k` at page `n` is on its free list. -/
def FreeBlock (fl : Nat → List Nat) (k n : Nat) : Prop :=
  k < nrFreeList ∧ n ∈ fl k

/-- Every area's pointer fields are a ring that holds its list. -/
def RingsAre (s : PageAlloc) (fl : Nat → List Nat) : Prop :=
  ∀ k, k < nrFreeList → s.links.Ring (.area k) ((fl k).map .page)

/-- The free lists, the bitmaps and the free frames agree. -/
structure BuddyInv (s : PageAlloc) (fl : Nat → List Nat) (F : Nat → Prop) :
    Prop where
  rings : RingsAre s fl
  tiling : Tiling (nrFreeList - 1) (FreeBlock fl) F
  bits : PairBits (nrFreeList - 1) s.testMap (FreeBlock fl)

/-- The lists with page `n` pushed on that of order `k`. -/
def pushFree (fl : Nat → List Nat) (k n : Nat) : Nat → List Nat :=
  update fl k (n :: fl k)

/-- The lists with page `n` erased from that of order `k`. -/
def dropFree (fl : Nat → List Nat) (k n : Nat) : Nat → List Nat :=
  update fl k ((fl k).erase n)

theorem freeBlock_pushFree (hk : k < nrFreeList) :
    FreeBlock (pushFree fl k n) = addBlock (FreeBlock fl) k n := by
  funext j m
  by_cases hj : j = k
  · subst hj
    simp [FreeBlock, pushFree, addBlock, hk, or_comm]
  · simp [FreeBlock, pushFree, addBlock, hj]

theorem freeBlock_dropFree (hnd : (fl k).Nodup) :
    FreeBlock (dropFree fl k n) = delBlock (FreeBlock fl) k n := by
  funext j m
  by_cases hj : j = k
  · subst hj
    simp only [FreeBlock, dropFree, delBlock, update_self, hnd.mem_erase_iff,
      true_and, eq_iff_iff]
    tauto
  · simp [FreeBlock, dropFree, delBlock, hj]

/-- A free block stands on one list only: lists of different orders
share no page. -/
theorem Tiling.order_unique {top : Nat} {j m : Nat}
    (ht : Tiling top (FreeBlock fl) F) (hj : FreeBlock fl j m) (hk : FreeBlock fl k m) : j = k :=
  (ht.disjoint hj hk (InBlock.self j m) (InBlock.self k m)).1

theorem RingsAre.nodup (hr : RingsAre s fl) (hk : k < nrFreeList) : (fl k).Nodup :=
  List.Nodup.of_map Ptr.page (List.nodup_cons.1 (hr k hk).nodup).2

-- ======== the books

/-- The frames on the lists. -/
def freeSum (fl : Nat → List Nat) : Nat :=
  ∑ k ∈ Finset.range nrFreeList, 2 ^ k * (fl k).length

theorem freeSum_update (hk : k < nrFreeList) (l : List Nat) :
    freeSum (update fl k l) + 2 ^ k * (fl k).length = freeSum fl + 2 ^ k * l.length := by
  have hsum := sum_weight_update (Finset.mem_range.mpr hk) (fun j => 2 ^ j * (fl j).length)
    (2 ^ k * l.length) id
  have hfun : (fun j => 2 ^ j * (update fl k l j).length)
      = update (fun j => 2 ^ j * (fl j).length) k (2 ^ k * l.length) := by
    funext j
    by_cases hj : j = k
    · subst hj
      rw [update_self, update_self]
    · rw [update_of_ne hj, update_of_ne hj]
  unfold freeSum
  rw [hfun]
  exact hsum

/-- `nfreepages` is `extra` more than the frames on the lists, and the
count of an area `off` more than the length of its list. -/
structure Books (s : PageAlloc) (fl : Nat → List Nat) (extra : Int) (off : Nat → Int) : Prop where
  pages : s.nfreepages = freeSum fl + extra
  counts : ∀ j, j < nrFreeList → s.areaCount j = (fl j).length + off j

namespace Books

variable {extra : Int} {off : Nat → Int}

/-- A block is linked in. -/
theorem push (h : Books s fl extra off) (hk : k < nrFreeList)
    (hpages : s'.nfreepages = s.nfreepages)
    (hcount : s'.areaCount = update s.areaCount k (s.areaCount k + 1)) :
    Books s' (pushFree fl k n) (extra - 2 ^ k) off := by
  have hsum := @freeSum_update fl k hk (n :: fl k)
  rw [List.length_cons, Nat.mul_add, Nat.mul_one] at hsum
  refine ⟨?_, fun j hj => ?_⟩
  · rw [hpages, h.pages, pushFree]
    have hcast : (freeSum (update fl k (n :: fl k)) : Int) = freeSum fl + 2 ^ k := by
      have hnat : freeSum (update fl k (n :: fl k)) = freeSum fl + 2 ^ k := by omega
      rw [hnat]
      rfl
    omega
  · have hold := h.counts j hj
    rw [hcount, pushFree]
    by_cases hjk : j = k
    · subst hjk
      rw [update_self, update_self, List.length_cons]
      omega
    · rw [update_of_ne hjk, update_of_ne hjk]
      exact hold

/-- A block is linked out, and `less` is taken off the count of its area. -/
theorem drop {less : Int} (h : Books s fl extra off) (hn : FreeBlock fl k n)
    (hpages : s'.nfreepages = s.nfreepages)
    (hcount : s'.areaCount = update s.areaCount k (s.areaCount k - less)) :
    Books s' (dropFree fl k n) (extra + 2 ^ k) (update off k (off k + 1 - less)) := by
  have hlen : ((fl k).erase n).length + 1 = (fl k).length :=
    List.length_erase_add_one hn.2
  have hsum := @freeSum_update fl k hn.1 ((fl k).erase n)
  rw [← hlen, Nat.mul_add, Nat.mul_one] at hsum
  refine ⟨?_, fun j hj => ?_⟩
  · rw [hpages, h.pages, dropFree]
    have hcast : (freeSum fl : Int) = freeSum (update fl k ((fl k).erase n)) + 2 ^ k := by
      have hnat : freeSum fl = freeSum (update fl k ((fl k).erase n)) + 2 ^ k := by omega
      rw [hnat]
      rfl
    omega
  · have hold := h.counts j hj
    rw [hcount, dropFree]
    by_cases hjk : j = k
    · subst hjk
      rw [update_self, update_self, update_self]
      omega
    · rw [update_of_ne hjk, update_of_ne hjk, update_of_ne hjk]
      exact hold

end Books

-- ======== the bitmaps

/-- The masked test reads one bit of one word. -/
theorem testMap_eq (s : PageAlloc) (order index : Nat) : s.testMap order index
      = (s.map order (index / 32)).getLsbD (index % 32) := by
  have hr : index % 32 < 32 := Nat.mod_lt index (by decide)
  unfold testMap
  rw [← BitVec.twoPow_eq, BitVec.and_twoPow]
  cases hb : (s.map order (index / 32)).getLsbD (index % 32) with
  | false => simp
  | true =>
    simp only [if_true, bne_iff_ne, ne_eq]
    intro h0
    have := congrArg (fun v => v.getLsbD (index % 32)) h0
    simp [hr] at this

/-- Toggling flips one bit of one bitmap and nothing else. -/
theorem testMap_toggleMap (s : PageAlloc) (order index : Nat) :
    (s.toggleMap order index).testMap = flipBit s.testMap order index := by
  funext j x
  have hi : index % 32 < 32 := Nat.mod_lt index (by decide)
  unfold flipBit
  rw [testMap_eq, testMap_eq]
  unfold toggleMap
  by_cases hj : j = order
  · subst hj
    simp only [update_self, true_and]
    by_cases hw : x / 32 = index / 32
    · rw [hw, update_self, BitVec.getLsbD_xor, ← BitVec.twoPow_eq,
        BitVec.getLsbD_twoPow]
      by_cases hr : index % 32 = x % 32
      · have hxi : x = index := by omega
        simp [hxi, hi]
      · have hxi : x ≠ index := fun he => hr (by rw [he])
        simp [hxi, hr]
    · have hxi : x ≠ index := fun he => hw (by rw [he])
      rw [update_of_ne hw, if_neg hxi]
  · simp [hj]

-- ======== the rings

/-- Pages and areas are different nodes, and pages are equal only if
their numbers are. -/
private theorem page_not_mem {l : List Nat} {j : Nat} (hn : n ∉ l) :
    Ptr.page n ∉ Ptr.area j :: l.map .page := by
  simp [hn]

private theorem rings_disjoint (fl : Nat → List Nat) {j k : Nat} (hjk : j ≠ k)
    (hd : ∀ m, m ∈ fl j → m ∉ fl k) :
    (Ptr.area j :: (fl j).map .page).Disjoint (Ptr.area k :: (fl k).map .page) := by
  intro p hp hp'
  simp only [List.mem_cons, List.mem_map] at hp hp'
  rcases hp with rfl | ⟨a, ha, rfl⟩ <;> rcases hp' with hp' | ⟨b, hb, hp'⟩
  · exact hjk (by simpa using hp')
  · cases hp'
  · cases hp'
  · cases hp'
    exact hd _ ha hb

/-- Linking in a page that is on no list pushes it on one of them. -/
theorem rings_push (hr : RingsAre s fl) (hk : k < nrFreeList) (hn : ∀ j, j < nrFreeList → n ∉ fl j)
    (hd : ∀ i j m, FreeBlock fl i m → FreeBlock fl j m → i = j) :
    RingsAre (s.addArea k n) (pushFree fl k n) := by
  intro j hj
  by_cases hjk : j = k
  · subst hjk
    have := (hr j hj).insertHead (page_not_mem (hn j hj))
    simpa [pushFree, addArea] using this
  · have hdis := rings_disjoint fl (Ne.symm hjk)
      fun m hm hm' => hjk (hd j k m ⟨hj, hm'⟩ ⟨hk, hm⟩)
    have := (hr k hk).insertHead_of_disjoint (hr j hj)
      (page_not_mem (hn k hk)) (page_not_mem (hn j hj)) hdis
    simpa [pushFree, addArea, hjk] using this

/-- Unlinking a page of a list erases it there. -/
theorem rings_drop {lk : Links Ptr} (hr : RingsAre s fl)
    (hlk : lk = s.links.unlink (.page n)) (hn : FreeBlock fl k n)
    (hd : ∀ i j m, FreeBlock fl i m → FreeBlock fl j m → i = j) :
    RingsAre { s with links := lk } (dropFree fl k n) := by
  subst hlk
  obtain ⟨hk, hmem⟩ := hn
  obtain ⟨l1, l2, hsplit⟩ := List.append_of_mem hmem
  have hmap : (fl k).map Ptr.page = l1.map .page ++ .page n :: l2.map .page := by
    rw [hsplit]
    simp
  have hnd := hr.nodup hk
  have herase : (fl k).erase n = l1 ++ l2 := by
    have hn1 : n ∉ l1 := by
      rw [hsplit] at hnd
      intro hin
      exact (List.nodup_append.1 hnd).2.2 n hin n (by simp) rfl
    rw [hsplit, List.erase_append_right _ hn1, List.erase_cons_head]
  have hring := hr k hk
  rw [hmap] at hring
  intro j hj
  by_cases hjk : j = k
  · subst hjk
    have := hring.unlink
    simpa [dropFree, herase] using this
  · have hdis := rings_disjoint fl (Ne.symm hjk)
      fun m hm hm' => hjk (hd j k m ⟨hj, hm'⟩ ⟨hk, hm⟩)
    rw [hmap] at hdis
    have := hring.unlink_of_disjoint (hr j hj) hdis
    simpa [dropFree, hjk] using this

-- ======== one-block moves

namespace BuddyInv

/-- The free frames matter only as a set. -/
theorem congr {G : Nat → Prop} (hi : BuddyInv s fl F) (hFG : ∀ f, F f ↔ G f) : BuddyInv s fl G := by
  have : F = G := funext fun f => propext (hFG f)
  exact this ▸ hi

/-- No page stands on two lists. -/
theorem order_unique (hi : BuddyInv s fl F) (i j m : Nat)
    (h1 : FreeBlock fl i m) (h2 : FreeBlock fl j m) : i = j :=
  Tiling.order_unique hi.tiling h1 h2

/-- A page outside the free frames is on no list. -/
theorem not_mem_of_not_free (hi : BuddyInv s fl F) (hn : ¬ F n) {j : Nat}
    (hj : j < nrFreeList) : n ∉ fl j := fun hmem =>
  hn (hi.tiling.mem_of_block ⟨hj, hmem⟩ (InBlock.self j n))

/-- Linking in a block of used frames whose buddy is not free, with its
pair's bit toggled, makes the block free. -/
theorem push (hi : BuddyInv s fl F) (hk : k < nrFreeList) (hn : 2 ^ k ∣ n)
    (hout : ∀ f, InBlock k n f → ¬ F f) (hbud : k < nrFreeList - 1 → ¬ FreeBlock fl k (buddy k n)) :
    BuddyInv ((s.addArea k n).toggleMap k (n / 2 ^ (k + 1)))
      (pushFree fl k n) fun f => F f ∨ InBlock k n f := by
  have hnF := hout n (InBlock.self k n)
  have hfresh : ∀ j, j < nrFreeList → n ∉ fl j := fun j hj =>
    hi.not_mem_of_not_free hnF hj
  refine ⟨?_, ?_, ?_⟩
  · exact rings_push hi.rings hk hfresh hi.order_unique
  · rw [freeBlock_pushFree hk]
    exact hi.tiling.add (Nat.le_sub_one_of_lt hk) hn hout hbud
  · rw [freeBlock_pushFree hk, testMap_toggleMap]
    exact hi.bits.add hn fun h => hfresh k hk h.2

/-- Unlinking a free block and toggling its pair's bit takes its frames
out of the free ones. -/
theorem drop {lk : Links Ptr} (hi : BuddyInv s fl F)
    (hlk : lk = s.links.unlink (.page n)) (hn : FreeBlock fl k n) :
    BuddyInv ({ s with links := lk }.toggleMap k (n / 2 ^ (k + 1)))
      (dropFree fl k n) fun f => F f ∧ ¬ InBlock k n f := by
  have hdiv := hi.tiling.aligned hn
  refine ⟨?_, ?_, ?_⟩
  · exact rings_drop hi.rings hlk hn hi.order_unique
  · rw [freeBlock_dropFree (hi.rings.nodup hn.1)]
    exact hi.tiling.del hn
  · rw [freeBlock_dropFree (hi.rings.nodup hn.1), testMap_toggleMap]
    exact hi.bits.del hdiv hn

end BuddyInv

-- ======== allocation

/-- The fields the allocator leaves alone while it moves blocks. -/
def SameRest (s s' : PageAlloc) : Prop :=
  s'.flags = s.flags ∧ s'.count = s.count ∧ s'.mem = s.mem

/-- The search stops at the first order with a free block. -/
theorem searchArea_spec (hr : RingsAre s fl) :
    ∀ (left order : Nat), order + left = nrFreeList →
      let j := searchArea s.links left order
      order ≤ j ∧ (∀ i, order ≤ i → i < j → fl i = [])
        ∧ (j = nrFreeList ∨ (j < nrFreeList ∧ fl j ≠ [])) := by
  intro left
  induction left with
  | zero =>
    intro order hsum
    simp only [searchArea]
    refine ⟨Nat.le_refl _, fun i h1 h2 => ?_, .inl (by omega)⟩
    omega
  | succ left ih =>
    intro order hsum
    have hlt : order < nrFreeList := by omega
    have hempty := (hr order hlt).next_self_iff
    simp only [List.map_eq_nil_iff] at hempty
    simp only [searchArea]
    by_cases hnil : fl order = []
    · rw [if_neg (by simpa using hempty.2 hnil)]
      obtain ⟨h1, h2, h3⟩ := ih (order + 1) (by omega)
      refine ⟨by omega, fun i hi hij => ?_, h3⟩
      by_cases hio : i = order
      · rw [hio]
        exact hnil
      · exact h2 i (by omega) hij
    · rw [if_pos fun h => hnil (hempty.1 h)]
      refine ⟨Nat.le_refl _, fun i h1 h2 => ?_, .inr ⟨hlt, hnil⟩⟩
      omega

/-- Taking the first page of an area is unlinking it. -/
theorem popArea_links {l : List Nat} (hr : RingsAre s fl)
    (hk : k < nrFreeList) (hl : fl k = n :: l) : s.links.next (.area k) = .page n
      ∧ s.popArea k (.page n) = { s with links := s.links.unlink (.page n) } := by
  have hring := hr k hk
  rw [hl, List.map_cons] at hring
  have hprev : s.links.prev (.page n) = .area k := hring.seg.2.1
  refine ⟨hring.next_cons, ?_⟩
  unfold popArea Links.unlink
  simp only [hprev, Links.setNext_prev]

/-- The splitting loop: of a used block of order `order + d` it frees
all but the last `2^order` frames. -/
theorem splitBlock_spec (order : Nat) :
    ∀ (d : Nat) {s : PageAlloc} {fl : Nat → List Nat} {F : Nat → Prop}
      {n : Nat}, BuddyInv s fl F → order + d < nrFreeList → 2 ^ (order + d) ∣ n →
      (∀ f, InBlock (order + d) n f → ¬ F f) →
      let r := splitBlock order d s n
      2 ^ order ∣ r.2 ∧ n ≤ r.2 ∧ r.2 + 2 ^ order = n + 2 ^ (order + d)
        ∧ SameRest s r.1
        ∧ ∃ fl', (BuddyInv r.1 fl' fun f =>
            F f ∨ (InBlock (order + d) n f ∧ ¬ InBlock order r.2 f))
          ∧ ∀ extra off, Books s fl extra off →
              Books r.1 fl' (extra - 2 ^ (order + d) + 2 ^ order) off := by
  intro d
  induction d with
  | zero =>
    intro s fl F n hi hlt hn hout
    refine ⟨hn, Nat.le_refl _, rfl, ⟨rfl, rfl, rfl⟩, fl, hi.congr fun f => ?_, fun extra off h => ?_⟩
    · simp only [splitBlock, Nat.add_zero, and_not_self, or_false]
    · rw [Nat.add_zero, sub_add_cancel]
      exact h
  | succ d ih =>
    intro s fl F n hi hlt hn hout
    have hpow : 2 ^ (order + (d + 1)) = 2 ^ (order + d) + 2 ^ (order + d) := by
      rw [← Nat.add_assoc, Nat.pow_succ]
      omega
    have hn' : 2 ^ (order + d) ∣ n :=
      (Nat.pow_dvd_pow 2 (by omega)).trans hn
    -- the back half follows the front half, so it is the buddy
    have hbud : buddy (order + d) n = n + 2 ^ (order + d) := by
      have hpar : parent (order + d) n = n := Nat.div_mul_cancel hn
      rcases buddy_cases hn' with ⟨-, h⟩ | ⟨h, -⟩
      · exact h
      · omega
    have hfront : ∀ f, InBlock (order + d) n f → ¬ F f := fun f hf =>
      hout f (by unfold InBlock at hf ⊢; omega)
    have hback : ∀ f, InBlock (order + d) (n + 2 ^ (order + d)) f →
        ¬ (F f ∨ InBlock (order + d) n f) := by
      rintro f hf (hF | hin)
      · exact hout f (by unfold InBlock at hf ⊢; omega) hF
      · unfold InBlock at hf hin
        omega
    have hstep := hi.push (by omega) hn' hfront fun _ hb => by
      exact hout _ (by unfold InBlock; omega)
        (hi.tiling.mem_of_block hb (InBlock.self _ _))
    obtain ⟨h1, h2, h3, h4, fl', h5, h6⟩ := ih hstep (by omega)
      (Nat.dvd_add hn' (Nat.dvd_refl _)) hback
    simp only [splitBlock]
    refine ⟨h1, by omega, by omega, h4, fl', h5.congr fun f => ?_, fun extra off h => ?_⟩
    · rw [or_assoc]
      refine or_congr_right ?_
      unfold InBlock
      omega
    · have hpowZ : (2 : Int) ^ (order + (d + 1)) = 2 ^ (order + d) + 2 ^ (order + d) := by
        exact_mod_cast hpow
      have hbooks := h6 _ _ (h.push (by omega) rfl rfl)
      rw [hpowZ]
      rwa [show extra - 2 ^ (order + d) - 2 ^ (order + d) + 2 ^ order
        = extra - (2 ^ (order + d) + 2 ^ (order + d)) + 2 ^ order by omega] at hbooks

/-- What a successful allocation of `2^k` frames at page `n` leaves. -/
structure Allocated (s : PageAlloc) (F : Nat → Prop) (k n : Nat)
    (s' : PageAlloc) : Prop where
  nonzero : n ≠ 0
  aligned : 2 ^ k ∣ n
  free : ∀ f, InBlock k n f → F f
  inv : ∃ fl', BuddyInv s' fl' fun f => F f ∧ ¬ InBlock k n f
  flags : s'.flags = s.flags
  count : s'.count = update s.count n 1
  mem : s'.mem = clearFrames s.mem n (2 ^ k)

/-- No aligned run of `2^k` frames is free. -/
def NoRun (F : Nat → Prop) (k : Nat) : Prop :=
  ∀ m, 2 ^ k ∣ m → ∃ f, InBlock k m f ∧ ¬ F f

/-- `get_free_pages` hands out an aligned free block, and gives up (or
sleeps) exactly when there is none. The block that was split for it
stays counted in its area. -/
theorem getFreePages_spec (attr : Nat) (hi : BuddyInv s fl F) (h0 : ¬ F 0)
    (hk : k < nrFreeList) :
    (∃ n s', getFreePages attr k s = .ok (n * pageSize, s')
        ∧ Allocated s F k n s'
        ∧ ∃ fl', (BuddyInv s' fl' fun f => F f ∧ ¬ InBlock k n f)
          ∧ ∀ extra off, Books s fl extra off → Books s' fl' extra
              (update off (searchArea s.links (nrFreeList - k) k)
                (off (searchArea s.links (nrFreeList - k) k) + 1)))
      ∨ (NoRun F k ∧ getFreePages attr k s
          = if attr &&& pageWait ≠ 0 then .error .sleep else .ok (0, s)) := by
  obtain ⟨hle, hbelow, hcase⟩ :=
    searchArea_spec hi.rings (nrFreeList - k) k (by omega)
  unfold getFreePages
  rw [if_neg (Nat.not_le.2 hk)]
  rcases hcase with hnone | ⟨hlt, hsome⟩
  · -- no list from order `k` on holds a block
    right
    simp only [hnone, if_true, and_true]
    intro m hm
    by_contra hall
    push Not at hall
    obtain ⟨j, n, ⟨hj, hmem⟩, hkj, -⟩ :=
      hi.tiling.complete (Nat.le_sub_one_of_lt hk) hm hall
    rw [hbelow j hkj (by omega)] at hmem
    cases hmem
  · left
    generalize hj : searchArea s.links (nrFreeList - k) k = j at *
    obtain ⟨m, l, hl⟩ := List.exists_cons_of_ne_nil hsome
    obtain ⟨hnext, hpop⟩ := popArea_links hi.rings hlt hl
    have hfree : FreeBlock fl j m := ⟨hlt, by rw [hl]; simp⟩
    -- take the whole block, then give back what is not needed
    have hdrop := hi.drop rfl hfree
    have hsum : k + (j - k) = j := by omega
    obtain ⟨h1, h2, h3, ⟨h4, h5, h6⟩, fl', h7, h8⟩ :=
      splitBlock_spec k (j - k) (n := m) hdrop (by omega)
        (by rw [hsum]; exact hi.tiling.aligned hfree)
        (fun f hf h => h.2 (by rw [hsum] at hf; exact hf))
    rw [hsum] at h3 h7 h8
    rw [if_neg (by omega)]
    simp only [hnext, Ptr.nr, hpop]
    generalize splitBlock k (j - k)
      (toggleMap { s with links := s.links.unlink (Ptr.page m) } j
        (m / 2 ^ (j + 1))) m = r at *
    obtain ⟨s1, n⟩ := r
    have hin : ∀ f, InBlock k n f → InBlock j m f := by
      intro f hf
      unfold InBlock at hf ⊢
      omega
    have hfreeF : ∀ f, InBlock k n f → F f := fun f hf =>
      hi.tiling.mem_of_block hfree (hin f hf)
    have htiling : Tiling (nrFreeList - 1) (FreeBlock fl') fun f => F f ∧ ¬ InBlock k n f := by
      refine (h7.congr fun f => ?_).tiling
      have hF : InBlock j m f → F f := hi.tiling.mem_of_block hfree
      tauto
    refine ⟨n, _, rfl, ⟨?_, h1, hfreeF, ⟨fl', h7.rings, htiling, h7.bits⟩, h4, ?_, ?_⟩, fl',
      ⟨h7.rings, htiling, h7.bits⟩, fun extra off h => ?_⟩
    · rintro rfl
      exact h0 (hfreeF 0 (InBlock.self k 0))
    · rw [h5]
      rfl
    · rw [h6]
      rfl
    · -- the block leaves its list and its area's count does not change
      have hbooks := h8 (extra + 2 ^ j) (update off j (off j + 1)) (by
        have hkeep : s.areaCount = update s.areaCount j (s.areaCount j - 0) := by
          rw [sub_zero, update_eq_self]
        have hdropped : Books (({ s with links := s.links.unlink (Ptr.page m) }).toggleMap j
            (m / 2 ^ (j + 1))) (dropFree fl j m) _ _ := h.drop hfree rfl hkeep
        rwa [sub_zero] at hdropped)
      rw [add_sub_cancel_right] at hbooks
      refine ⟨?_, hbooks.counts⟩
      have hpages : s1.nfreepages = freeSum fl' + (extra + 2 ^ k) := hbooks.pages
      show s1.nfreepages - 2 ^ k = freeSum fl' + extra
      omega

-- ======== release

/-- What the merging loop leaves when it starts at the used block
`(order, n)` and ends at `r`: the free buddies it met are off the lists,
and the bits are set as if the merged block were on its list, where the
caller puts it. -/
structure Merged (s : PageAlloc) (F : Nat → Prop) (order n : Nat)
    (r : PageAlloc × Nat × Nat) (fl' : Nat → List Nat) (F' : Nat → Prop) :
    Prop where
  order_lt : r.2.1 < nrFreeList
  aligned : 2 ^ r.2.1 ∣ r.2.2
  rest : SameRest s r.1
  rings : RingsAre r.1 fl'
  tiling : Tiling (nrFreeList - 1) (FreeBlock fl') F'
  bits : PairBits (nrFreeList - 1) r.1.testMap
    (addBlock (FreeBlock fl') r.2.1 r.2.2)
  buddy_used : r.2.1 < nrFreeList - 1 →
    ¬ FreeBlock fl' r.2.1 (buddy r.2.1 r.2.2)
  used : ∀ f, InBlock r.2.1 r.2.2 f → ¬ F' f
  frames : ∀ f, (F' f ∨ InBlock r.2.1 r.2.2 f) ↔ (F f ∨ InBlock order n f)

/-- The bits of the top order are not consulted. -/
private theorem pairBits_top {top : Nat} {bit : Nat → Nat → Bool}
    {B : Nat → Nat → Prop} (hp : PairBits top bit B) (m : Nat) :
    PairBits top bit (addBlock B top m) := by
  intro j x hj hx
  have hne : ∀ y, addBlock B top m j y ↔ B j y := by
    intro y
    constructor
    · rintro (h | ⟨rfl, -⟩)
      · exact h
      · omega
    · exact .inl
  rw [hne, hne]
  exact hp j x hj hx

/-- The merging loop does what `Merged` says. -/
theorem coalesce_spec : ∀ (left order index : Nat) {s : PageAlloc} {fl : Nat → List Nat}
      {F : Nat → Prop} {n : Nat}, order + left = nrFreeList - 1 →
      index = n / 2 ^ (order + 1) → BuddyInv s fl F → 2 ^ order ∣ n →
      (∀ f, InBlock order n f → ¬ F f) →
      ∃ fl' F', Merged s F order n (coalesce left order index n s) fl' F'
        ∧ ∀ extra off, Books s fl extra off → Books (coalesce left order index n s).1 fl'
            (extra + 2 ^ (coalesce left order index n s).2.1 - 2 ^ order) off := by
  have hten : nrFreeList = 10 := rfl
  intro left
  induction left with
  | zero =>
    intro order index s fl F n hsum hidx hi hn hout
    obtain rfl : order = nrFreeList - 1 := by omega
    refine ⟨fl, F, ⟨by simp only [coalesce]; omega, hn, ⟨rfl, rfl, rfl⟩, hi.rings,
      hi.tiling, pairBits_top hi.bits n, fun h => absurd h (Nat.lt_irrefl _),
      hout, fun f => Iff.rfl⟩, fun extra off h => ?_⟩
    rw [coalesce, add_sub_cancel_right]
    exact h
  | succ left ih =>
    intro order index s fl F n hsum hidx hi hn hout
    subst hidx
    have hlt : order < nrFreeList := by omega
    have hnF := hout n (InBlock.self order n)
    have hself : ¬ FreeBlock fl order n := fun h =>
      hi.not_mem_of_not_free hnF hlt h.2
    have hbit := hi.bits order n (by omega) hn
    have htest := testMap_toggleMap s order (n / 2 ^ (order + 1))
    simp only [coalesce]
    by_cases hbud : FreeBlock fl order (buddy order n)
    · -- the bit was set, so the toggle clears it: merge and go on
      have hset : s.testMap order (n / 2 ^ (order + 1)) = true :=
        hbit.2 (by tauto)
      have hclear : (s.toggleMap order (n / 2 ^ (order + 1))).testMap order
          (n / 2 ^ (order + 1)) = false := by
        rw [htest]
        simp [flipBit, hset]
      rw [if_neg (by rw [hclear]; simp)]
      have hdrop := hi.drop rfl hbud
      rw [pairIdx_buddy hn] at hdrop
      have hout' : ∀ f, InBlock (order + 1) (parent order n) f →
          ¬ (F f ∧ ¬ InBlock order (buddy order n) f) := by
        rintro f hf ⟨hF, hnb⟩
        rcases (inBlock_parent hn).1 hf with h | h
        · exact hout f h hF
        · exact hnb h
      have hidx : n / 2 ^ (order + 1) / 2 = parent order n / 2 ^ (order + 1 + 1) := by
        unfold parent
        rw [Nat.pow_succ 2 (order + 1), ← Nat.div_div_eq_div_mul,
          Nat.mul_div_cancel _ (Nat.two_pow_pos _)]
      obtain ⟨fl', F', hm, hbooks⟩ := ih (order + 1) (n / 2 ^ (order + 1) / 2)
        (s := { (s.toggleMap order (n / 2 ^ (order + 1))) with
          links := s.links.unlink (.page (n ^^^ 2 ^ order))
          areaCount := update s.areaCount order
            (s.areaCount order - 1) })
        (by omega) hidx ⟨hdrop.rings, hdrop.tiling, hdrop.bits⟩
        (parent_dvd order n) hout'
      refine ⟨fl', F', ⟨hm.order_lt, hm.aligned, hm.rest, hm.rings, hm.tiling,
        hm.bits, hm.buddy_used, hm.used, fun f => (hm.frames f).trans ?_⟩,
        fun extra off h => ?_⟩
      · rw [inBlock_parent hn]
        have hF : InBlock order (buddy order n) f → F f :=
          hi.tiling.mem_of_block hbud
        tauto
      · have hdropped := hbooks (extra + 2 ^ order) off (by
          have hsame : Books { (s.toggleMap order (n / 2 ^ (order + 1))) with
              links := s.links.unlink (.page (n ^^^ 2 ^ order))
              areaCount := update s.areaCount order (s.areaCount order - 1) }
            (dropFree fl order (buddy order n)) _ _ := h.drop hbud rfl rfl
          rwa [add_sub_cancel_right, update_eq_self] at hsame)
        have hpow : (2 : Int) ^ (order + 1) = 2 ^ order + 2 ^ order := by
          omega
        rw [hpow, add_assoc, add_comm (2 ^ order) (2 ^ _), ← add_assoc,
          add_sub_add_right_eq_sub] at hdropped
        exact hdropped
    · -- the bit was clear, so the toggle sets it: the block stays alone
      have hclear : s.testMap order (n / 2 ^ (order + 1)) = false := by
        rw [← Bool.not_eq_true, hbit]
        tauto
      have hset : (s.toggleMap order (n / 2 ^ (order + 1))).testMap order
          (n / 2 ^ (order + 1)) = true := by
        rw [htest]
        simp [flipBit, hclear]
      rw [if_pos hset]
      refine ⟨fl, F, ⟨hlt, hn, ⟨rfl, rfl, rfl⟩, hi.rings, hi.tiling, ?_,
        fun _ => hbud, hout, fun f => Iff.rfl⟩, fun extra off h => ?_⟩
      · rw [htest]
        exact hi.bits.add hn hself
      · rw [add_sub_cancel_right]
        exact ⟨h.pages, h.counts⟩

/-- `__free_pages` of an aligned block of used frames makes exactly
these frames free. -/
theorem freePages_spec (hi : BuddyInv s fl F) (hk : k < nrFreeList)
    (hn : 2 ^ k ∣ n) (hout : ∀ f, InBlock k n f → ¬ F f) : SameRest s (freePages (n * pageSize) k s)
      ∧ ∃ fl', (BuddyInv (freePages (n * pageSize) k s) fl' fun f => F f ∨ InBlock k n f)
        ∧ ∀ extra off, Books s fl extra off →
            Books (freePages (n * pageSize) k s) fl' extra off := by
  have hnr : mapNr (n * pageSize) / 2 ^ k * 2 ^ k = n := by
    have hpos : 0 < pageSize := by decide
    rw [mapNr, Nat.mul_div_cancel _ hpos, Nat.div_mul_cancel hn]
  obtain ⟨fl', F', hm, hbooks⟩ :=
    coalesce_spec (nrFreeList - 1 - k) k _ (by omega) rfl hi hn hout
  unfold freePages
  simp only [hnr]
  generalize coalesce (nrFreeList - 1 - k) k (n / 2 ^ (k + 1)) n s = r at *
  obtain ⟨s1, order, m⟩ := r
  have hlt : order < nrFreeList := hm.order_lt
  refine ⟨hm.rest, pushFree fl' order m, ⟨?_, ?_, ?_⟩, fun extra off h => ?_⟩
  · refine rings_push hm.rings hlt (fun j hj hmem => ?_) fun i j x =>
      Tiling.order_unique hm.tiling
    exact hm.used m (InBlock.self order m)
      (hm.tiling.mem_of_block ⟨hj, hmem⟩ (InBlock.self j m))
  · rw [freeBlock_pushFree hlt]
    have hadd := hm.tiling.add (Nat.le_sub_one_of_lt hlt) hm.aligned hm.used
      hm.buddy_used
    have hF : (fun f => F' f ∨ InBlock order m f)
        = fun f => F f ∨ InBlock k n f := funext fun f => propext (hm.frames f)
    exact hF ▸ hadd
  · rw [freeBlock_pushFree hlt]
    exact hm.bits
  · have hpushed : Books (s1.addArea order m) (pushFree fl' order m) _ _ :=
      (hbooks extra off h).push hlt rfl rfl
    have hpages : (s1.addArea order m).nfreepages
        = freeSum (pushFree fl' order m) + (extra + 2 ^ order - 2 ^ k - 2 ^ order) := hpushed.pages
    refine ⟨?_, hpushed.counts⟩
    show (s1.addArea order m).nfreepages + 2 ^ k = freeSum (pushFree fl' order m) + extra
    omega

end Cnix.Mm
