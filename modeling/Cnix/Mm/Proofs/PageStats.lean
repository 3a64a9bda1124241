/-
The counters of the page allocator over its runs.

`nfreepages` follows the lists: `get_free_pages` and `__free_pages` take
off and add what they take from the lists and put back. But `mem_init`
counts each frame that it releases once more than `__free_pages` has done,
so the difference between the two is the number of these frames, for ever.

The count of an area is raised for every block that is linked in and
lowered for a buddy that is merged, but not for the block that
`get_free_pages` takes. So it is more than the length of the list by the
number of blocks that have been taken from there.
-/
import Cnix.Mm.Proofs.BuddyRuns

namespace Cnix.Mm

open Lib
open PageAlloc

variable {s s' : PageAlloc} {startMem endMem : Nat}
  {mem : Nat → Nat → BitVec 32} {live : List (Nat × Nat)} {taken : Nat → Nat}

/-- The order of the list that `get_free_pages` takes a block from. -/
def PageAlloc.takenFrom (s : PageAlloc) (order : Nat) : Nat :=
  searchArea s.links (nrFreeList - order) order

/-- The states reached from boot by `get_free_pages` and by `__free_pages`
of live blocks, and how many blocks have been taken from each list. -/
inductive StatRun (startMem endMem : Nat) (mem : Nat → Nat → BitVec 32) :
    PageAlloc → List (Nat × Nat) → (Nat → Nat) → Prop
  | init {s : PageAlloc} :
      memInit startMem endMem (freeAreaInit mem) = .ok s →
      StatRun startMem endMem mem s [] fun _ => 0
  | fail {s s' : PageAlloc} {live : List (Nat × Nat)} {taken : Nat → Nat} {attr k : Nat} :
      StatRun startMem endMem mem s live taken → k < nrFreeList →
      getFreePages attr k s = .ok (0, s') →
      StatRun startMem endMem mem s' live taken
  | get {s s' : PageAlloc} {live : List (Nat × Nat)} {taken : Nat → Nat} {attr k addr : Nat} :
      StatRun startMem endMem mem s live taken → k < nrFreeList →
      getFreePages attr k s = .ok (addr, s') → addr ≠ 0 →
      StatRun startMem endMem mem s' ((addr, k) :: live)
        (Function.update taken (s.takenFrom k) (taken (s.takenFrom k) + 1))
  | free {s : PageAlloc} {live : List (Nat × Nat)} {taken : Nat → Nat} {b : Nat × Nat} :
      StatRun startMem endMem mem s live taken → b ∈ live →
      StatRun startMem endMem mem (freePages b.1 b.2 s) (live.erase b) taken

/-- The run invariant and the books, for the same lists. -/
structure StatInv (startMem endMem : Nat) (s : PageAlloc) (live : List (Nat × Nat))
    (taken : Nat → Nat) : Prop where
  live_ok : LiveOk startMem endMem live
  inv : ∃ fl, BuddyInv s fl (FreeFrame startMem endMem live)
    ∧ Books s fl (releasedFrames startMem endMem).length fun k => taken k

namespace StatInv

theorem run (h : StatInv startMem endMem s live taken) : RunInv startMem endMem s live := by
  obtain ⟨fl, hi, -⟩ := h.inv
  exact ⟨h.live_ok, fl, hi⟩

theorem boot (hlow : lowMem ≤ startMem) (h : memInit startMem endMem (freeAreaInit mem) = .ok s) :
    StatInv startMem endMem s [] fun _ => 0 := by
  obtain ⟨s', fl, h', hi, hbooks⟩ := memInit_spec hlow
  rw [h] at h'
  cases h'
  refine ⟨(RunInv.boot hlow h).live_ok, fl, hi.congr fun f => ?_, hbooks⟩
  simp [FreeFrame]

/-- A call that finds nothing changes nothing. -/
theorem fail {attr k : Nat} (hlow : lowMem ≤ startMem)
    (h : StatInv startMem endMem s live taken) (hk : k < nrFreeList)
    (hget : getFreePages attr k s = .ok (0, s')) : StatInv startMem endMem s' live taken := by
  obtain ⟨fl, hi, hbooks⟩ := h.inv
  rcases getFreePages_spec attr hi (not_freeFrame_zero hlow) hk with ⟨n, t, ht, ha, -⟩ | ⟨-, ht⟩
  · rw [hget, Except.ok.injEq, Prod.mk.injEq] at ht
    exact absurd ht.1.symm (Nat.mul_ne_zero ha.nonzero (by decide))
  · rw [hget] at ht
    split at ht
    · cases ht
    · cases ht
      exact h

theorem get {attr k addr : Nat} (hlow : lowMem ≤ startMem)
    (h : StatInv startMem endMem s live taken) (hk : k < nrFreeList)
    (hget : getFreePages attr k s = .ok (addr, s')) (haddr : addr ≠ 0) :
    StatInv startMem endMem s' ((addr, k) :: live)
      (Function.update taken (s.takenFrom k) (taken (s.takenFrom k) + 1)) := by
  obtain ⟨fl, hi, hbooks⟩ := h.inv
  have hlive := (h.run.get hlow hk attr hget).live_ok
  rw [if_neg haddr] at hlive
  refine ⟨hlive, ?_⟩
  rcases getFreePages_spec attr hi (not_freeFrame_zero hlow) hk with
    ⟨n, t, ht, -, fl', hi', hb'⟩ | ⟨-, ht⟩
  · rw [hget] at ht
    cases ht
    refine ⟨fl', hi'.congr fun f => (freeFrame_cons f).symm, ?_⟩
    have hnew := hb' _ _ hbooks
    refine ⟨hnew.pages, fun j hj => (hnew.counts j hj).trans ?_⟩
    unfold PageAlloc.takenFrom
    by_cases hjk : j = searchArea s.links (nrFreeList - k) k
    · rw [← hjk, Function.update_self, Function.update_self]
      rfl
    · rw [Function.update_of_ne hjk, Function.update_of_ne hjk]
  · rw [hget] at ht
    split at ht
    · cases ht
    · cases ht
      exact absurd rfl haddr

theorem free {b : Nat × Nat} (h : StatInv startMem endMem s live taken) (hb : b ∈ live) :
    StatInv startMem endMem (freePages b.1 b.2 s) (live.erase b) taken := by
  obtain ⟨fl, hi, hbooks⟩ := h.inv
  obtain ⟨hk, hn, haddr⟩ := h.live_ok.shape b hb
  obtain ⟨-, fl', hi', hb'⟩ := freePages_spec hi hk hn (fun f hf hfree => hfree.2 b hb hf)
  rw [← haddr] at hi' hb'
  exact ⟨h.live_ok.erase b, fl', hi'.congr fun f => (freeFrame_erase h.live_ok hb f).symm,
    hb' _ _ hbooks⟩

end StatInv

theorem StatRun.inv (hlow : lowMem ≤ startMem) (hrun : StatRun startMem endMem mem s live taken) :
    StatInv startMem endMem s live taken := by
  induction hrun with
  | init h => exact StatInv.boot hlow h
  | fail _ hk hget ih => exact ih.fail hlow hk hget
  | get _ hk hget haddr ih => exact ih.get hlow hk hget haddr
  | free _ hb ih => exact ih.free hb

/-- What the counters say in every state of every run from boot, for the
lists `fl` that the links make up. -/
theorem StatRun.books (hlow : lowMem ≤ startMem) (hrun : StatRun startMem endMem mem s live taken) :
    ∃ fl, RingsAre s fl ∧ Books s fl (releasedFrames startMem endMem).length fun k => taken k := by
  obtain ⟨fl, hi, hbooks⟩ := (hrun.inv hlow).inv
  exact ⟨fl, hi.rings, hbooks⟩

/-- The links determine the lists. -/
theorem RingsAre.freeSum_eq {fl fl' : Nat → List Nat} (h : RingsAre s fl) (h' : RingsAre s fl') :
    freeSum fl = freeSum fl' := by
  refine Finset.sum_congr rfl fun k hk => ?_
  have hk := Finset.mem_range.mp hk
  have hpages := (h k hk).unique (h' k hk)
  have hlen := congrArg List.length hpages
  rw [List.length_map, List.length_map] at hlen
  rw [hlen]

/-- `mem_init` releases at least the frames of the low memory. -/
theorem releasedFrames_pos : 0 < (releasedFrames startMem endMem).length := by
  unfold releasedFrames
  rw [List.length_append, List.length_range', List.length_range']
  have hlow : mapNr lowMem - mapNr reservedMem = 156 := by decide
  omega

/-- The statistics are right: `nfreepages` is the number of frames on the
lists, and the count of an area the length of its list. -/
def StatsRight (s : PageAlloc) : Prop :=
  ∃ fl, RingsAre s fl
    ∧ s.nfreepages = (∑ k ∈ Finset.range nrFreeList, 2 ^ k * (fl k).length : Nat)
    ∧ ∀ k, k < nrFreeList → s.areaCount k = (fl k).length

theorem Books.not_right {fl : Nat → List Nat} {extra : Int} {off : Nat → Int}
    (h : Books s fl extra off) (hrings : RingsAre s fl) (hextra : extra ≠ 0) : ¬ StatsRight s := by
  rintro ⟨fl', hrings', hpages, -⟩
  have hsum : s.nfreepages = freeSum fl' := hpages
  have hbooks := h.pages
  rw [hsum, hrings'.freeSum_eq hrings] at hbooks
  omega

/-- They are right in no state of any run from boot. -/
theorem statistics_never (startMem endMem : Nat) (mem : Nat → Nat → BitVec 32) (s : PageAlloc)
    (live : List (Nat × Nat)) (taken : Nat → Nat) (hlow : lowMem ≤ startMem)
    (hrun : StatRun startMem endMem mem s live taken) : ¬ StatsRight s := by
  obtain ⟨fl, hrings, hbooks⟩ := hrun.books hlow
  have hpos := @releasedFrames_pos startMem endMem
  exact hbooks.not_right hrings (by omega)

/-- Right after boot. -/
theorem statistics_never_boot : ∃ s, StatRun 0x100000 0x140000 (fun _ _ => 0#32) s [] (fun _ => 0)
    ∧ ¬ StatsRight s := by
  obtain ⟨s, fl, h, -⟩ := @memInit_spec 0x100000 0x140000 (fun _ _ => 0#32) (by decide)
  have hrun := StatRun.init h
  exact ⟨s, hrun, statistics_never _ _ _ s [] _ (by decide) hrun⟩

/-- After `mem_init` with 220 free frames `nfreepages` is 220 more than
the frames on the lists. -/
theorem pages_counted_twice : ∃ s, memInit 0x100000 0x140000 (freeAreaInit fun _ _ => 0#32) = .ok s
    ∧ ¬ StatsRight s ∧ ∃ fl, RingsAre s fl
      ∧ s.nfreepages = (∑ k ∈ Finset.range nrFreeList, 2 ^ k * (fl k).length : Nat) + 220 := by
  obtain ⟨s, fl, h, hi, hbooks⟩ := @memInit_spec 0x100000 0x140000 (fun _ _ => 0#32) (by decide)
  have hlen : (releasedFrames 0x100000 0x140000).length = 220 := by
    unfold releasedFrames
    rw [List.length_append, List.length_range', List.length_range']
    decide
  exact ⟨s, h, hbooks.not_right hi.rings (by omega), fl, hi.rings, hbooks.pages⟩

end Cnix.Mm
