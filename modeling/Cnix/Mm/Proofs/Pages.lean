/-
Taking single pages from the allocator and giving them back.

`FreeFrames s F` says that the allocator hands out the frames `F` and no
others. From a state `s0` in which it does, `Held s0 F slot s` says that
`s` differs from `s0` by the references in the slots: they account for
the frames that are not free any more and for the counts that have grown
(`Lib.Custody`), and the words of all other frames are as they were.
Taking a page fills a slot, freeing one empties it (`Held.get`,
`Held.free`), and with all slots empty the pages are back
(`Held.restored`). Every state the allocator reaches from boot is such an
`s0` (`BuddyRun.freeFrames`).
-/
import Cnix.Lib.Custody
import Cnix.Lib.Hoare
import Cnix.Mm.Proofs.BuddyRuns

namespace Cnix.Mm

open Lib
open Function (update update_of_ne)
open PageAlloc

/-- The free lists hold the frames `F`: frames of the 32-bit address space
that are not reserved. -/
structure FreeFrames (s : PageAlloc) (F : Nat → Prop) : Prop where
  lists : ∃ fl, BuddyInv s fl F
  nonzero : ¬ F 0
  bound : ∀ {f : Nat}, F f → f < 2 ^ 20
  usable : ∀ {f : Nat}, F f → (s.flags f).testBit pageReserved = false

/-- `s` has more references than `s0`, those in the slots. -/
structure Held {ι : Type*} [Fintype ι] (s0 : PageAlloc) (F : Nat → Prop)
    (slot : ι → Option Nat) (s : PageAlloc) : Prop where
  lists : ∃ fl free, BuddyInv s fl free ∧ Custody F s0.count slot free s.count
  flags : s.flags = s0.flags
  kept : ∀ f, ¬ F f → s.mem f = s0.mem f
  usable : ∀ {o : ι} {f : Nat}, slot o = some f → (s0.flags f).testBit pageReserved = false

/-- `s'` comes from `s` by taking the frame `n`, which is cleared. -/
structure Got {ι : Type*} [Fintype ι] [DecidableEq ι] (s0 : PageAlloc) (F : Nat → Prop)
    (slot : ι → Option Nat) (s : PageAlloc) (n : Nat) (s' : PageAlloc) : Prop where
  free : F n
  fresh : ∀ o, slot o ≠ some n
  clear : ∀ i, s'.mem n i = 0#32
  rest : ∀ f, f ≠ n → s'.mem f = s.mem f
  held : ∀ o, slot o = none → Held s0 F (update slot o (some n)) s'

theorem mapNr_mul (n : Nat) : mapNr (n * pageSize) = n :=
  Nat.mul_div_cancel _ (by decide)

theorem mapNr_pageMask (addr : Nat) : mapNr (pageMask addr) = mapNr addr :=
  mapNr_mul _

/-- `__free_pages` reads nothing of the address but the frame. -/
theorem freePages_frame (addr k : Nat) (s : PageAlloc) :
    freePages addr k s = freePages (mapNr addr * pageSize) k s := by
  unfold freePages
  rw [mapNr_mul]

namespace Held

variable {ι : Type*} [Fintype ι] {s0 s s' : PageAlloc} {F : Nat → Prop}
  {slot : ι → Option Nat} {o : ι} {f addr : Nat}

theorem start (hf : FreeFrames s0 F) : Held s0 F (fun _ : ι => none) s0 where
  lists := by
    obtain ⟨fl, hi⟩ := hf.lists
    exact ⟨fl, F, hi, Custody.start F s0.count⟩
  flags := rfl
  kept := fun _ _ => rfl
  usable := by simp

/-- With no reference left, the free frames are those of the start. -/
theorem restored (hf : FreeFrames s0 F) (h : Held s0 F slot s) (hnone : ∀ o, slot o = none) :
    FreeFrames s F ∧ ∀ f, s.count f = s0.count f ∨ F f ∧ s.count f = 0 := by
  obtain ⟨fl, free, hi, hc⟩ := h.lists
  obtain ⟨hfree, hcount⟩ := hc.restored hnone
  refine ⟨⟨⟨fl, hi.congr hfree⟩, hf.nonzero, hf.bound, fun hF => ?_⟩, hcount⟩
  rw [h.flags]
  exact hf.usable hF

/-- Words of frames that were free may be written. -/
theorem write (h : Held s0 F slot s) (hF : F f) (words : Nat → BitVec 32) :
    Held s0 F slot { s with mem := update s.mem f words } where
  lists := by
    obtain ⟨fl, free, hi, hc⟩ := h.lists
    exact ⟨fl, free, ⟨hi.rings, hi.tiling, hi.bits⟩, hc⟩
  flags := h.flags
  kept := by
    intro g hg
    have hne : g ≠ f := fun he => hg (he ▸ hF)
    exact (update_of_ne hne _ _).trans (h.kept g hg)
  usable := h.usable

variable [DecidableEq ι]

/-- `get_one_page` takes a free frame and clears it, or finds none. -/
theorem get (hf : FreeFrames s0 F) (h : Held s0 F slot s) (hget : getOnePage s = .ok (addr, s')) :
    addr = 0 ∧ s' = s ∨ ∃ n, addr = n * pageSize ∧ addr ≠ 0 ∧ Got s0 F slot s n s' := by
  obtain ⟨fl, free, hi, hc⟩ := h.lists
  have h0 : ¬ free 0 := fun hfree => hf.nonzero ((hc.free_iff 0).mp hfree).1
  rcases getFreePages_spec 0 hi h0 (by decide : 0 < nrFreeList) with
    ⟨n, t, hok, ha, fl', hi', -⟩ | ⟨-, hfail⟩
  · right
    obtain ⟨rfl, rfl⟩ : n * pageSize = addr ∧ t = s' := by
      rw [getOnePage, hok] at hget
      simpa using hget
    have hfree : free n := ha.free n (InBlock.self 0 n)
    obtain ⟨hF, hfresh⟩ := (hc.free_iff n).mp hfree
    have hmem (f i : Nat) : t.mem f i = if f = n then 0#32 else s.mem f i := by
      rw [ha.mem, clearFrames]
      exact if_congr (by omega) rfl rfl
    have hrest (f : Nat) (hne : f ≠ n) : t.mem f = s.mem f := by
      funext i
      rw [hmem, if_neg hne]
    refine ⟨n, rfl, Nat.mul_ne_zero ha.nonzero (by decide), hF, hfresh,
      fun i => by rw [hmem, if_pos rfl], hrest, fun o ho => ?_⟩
    refine ⟨⟨fl', fun f => free f ∧ f ≠ n, hi'.congr fun f => and_congr_right fun _ => not_congr ?_,
      ha.count ▸ hc.take hfree ho⟩, ha.flags.trans h.flags, fun f hf => ?_, fun {p g} hp => ?_⟩
    · unfold InBlock
      omega
    · have hne : f ≠ n := fun he => hf (he ▸ hF)
      rw [hrest f hne, h.kept f hf]
    · rcases Custody.slot_update.mp hp with ⟨-, he⟩ | ⟨-, hp⟩
      · exact hf.usable (Option.some.inj he ▸ hF)
      · exact h.usable hp
  · left
    rw [getOnePage, hfail, if_neg (by decide)] at hget
    obtain ⟨rfl, rfl⟩ : 0 = addr ∧ s = s' := by simpa using hget
    exact ⟨rfl, rfl⟩

/-- `mem_map[f].count++`, for a frame that is in use. -/
theorem share (h : Held s0 F slot s) (hF : ¬ F f) (hlend : 0 < s0.count f)
    (husable : (s0.flags f).testBit pageReserved = false) (ho : slot o = none) :
    Held s0 F (update slot o (some f))
      { s with count := update s.count f (s.count f + 1) } where
  lists := by
    obtain ⟨fl, free, hi, hc⟩ := h.lists
    exact ⟨fl, free, ⟨hi.rings, hi.tiling, hi.bits⟩, hc.share hF hlend ho⟩
  flags := h.flags
  kept := h.kept
  usable := by
    intro p g hp
    rcases Custody.slot_update.mp hp with ⟨-, he⟩ | ⟨-, hp⟩
    · exact Option.some.inj he ▸ husable
    · exact h.usable hp

/-- `free_one_page` drops the reference in a slot. -/
theorem free (h : Held s0 F slot s) (ho : slot o = some (mapNr addr)) :
    ∃ s', freeOnePage addr s = .ok s' ∧ s'.mem = s.mem
      ∧ Held s0 F (update slot o none) s' := by
  obtain ⟨fl, free, hi, hc⟩ := h.lists
  generalize hn : mapNr addr = n at ho
  have hres : ((s.flags n).testBit pageReserved) = false := by
    rw [h.flags]
    exact h.usable ho
  have husable {p : ι} {g : Nat} (hp : update slot o none p = some g) :
      (s0.flags g).testBit pageReserved = false := by
    rcases Custody.slot_update.mp hp with ⟨-, he⟩ | ⟨-, hp⟩
    · cases he
    · exact h.usable hp
  by_cases hF : F n
  · -- the only reference: the page goes back on the lists
    have hone : s.count n = 1 := hc.taken hF ho
    have hout (f : Nat) (hf : InBlock 0 n f) : ¬ free f := by
      obtain rfl : f = n := by
        unfold InBlock at hf
        omega
      exact fun hfree => ((hc.free_iff f).mp hfree).2 o ho
    obtain ⟨⟨hflags, hcount, hmem⟩, fl', hi', -⟩ := freePages_spec
      (s := { s with count := update s.count n 0 })
      ⟨hi.rings, hi.tiling, hi.bits⟩ (by decide : 0 < nrFreeList) (Nat.one_dvd n) hout
    refine ⟨_, ?_, hmem,
      ⟨fl', fun f => free f ∨ f = n, hi'.congr fun f => or_congr_right ?_, ?_⟩,
      hflags.trans h.flags, fun f hf => ?_, husable⟩
    · unfold freeOnePage
      simp only [hn, hone, hres]
      rw [freePages_frame, hn]
      simp
    · unfold InBlock
      omega
    · rw [hcount]
      exact hc.giveBack hF ho
    · rw [hmem]
      exact h.kept f hf
  · -- another owner has the page: only the count goes down
    obtain ⟨hcount, hc'⟩ := hc.unshare hF ho
    refine ⟨{ s with count := update s.count n (s.count n - 1) }, ?_, rfl,
      ⟨fl, free, ⟨hi.rings, hi.tiling, hi.bits⟩, hc'⟩, h.flags, h.kept, husable⟩
    unfold freeOnePage
    have hpos : ¬ s.count n ≤ 0 := by omega
    have hleft : ¬ s.count n - 1 = 0 := by omega
    simp [hn, hpos, hres, hleft]

end Held

-- ======== boot

section Boot

variable {s s' : PageAlloc} {startMem endMem n f addr k : Nat} {mem : Nat → Nat → BitVec 32}
  {live : List (Nat × Nat)}

theorem coalesce_flags : ∀ (left order index n : Nat) (s : PageAlloc),
    (coalesce left order index n s).1.flags = s.flags := by
  intro left
  induction left with
  | zero => exact fun _ _ _ _ => rfl
  | succ left ih =>
    intro order index n s
    unfold coalesce
    dsimp only
    split
    · rfl
    · rw [ih]
      rfl

theorem freePages_flags (addr k : Nat) (s : PageAlloc) : (freePages addr k s).flags = s.flags :=
  coalesce_flags (nrFreeList - 1 - k) k _ _ s

theorem freeOnePage_flags (h : freeOnePage addr s = .ok s') : s'.flags = s.flags := by
  unfold freeOnePage at h
  dsimp only at h
  split at h
  · cases h
  split at h
  · cases h
    rfl
  · split at h
    · cases h
      exact freePages_flags ..
    · cases h
      rfl

/-- `mem_init` takes the mark of a reserved page off what it releases, and
never puts one on. -/
theorem releasePage_usable (h : releasePage s n = .ok s')
    (hf : f = n ∨ (s.flags f).testBit pageReserved = false) :
    (s'.flags f).testBit pageReserved = false := by
  obtain ⟨s1, hfree, hret⟩ := bind_returns h
  cases hret
  rw [freeOnePage_flags hfree]
  by_cases hfn : f = n
  · subst hfn
    simp [testBit_clearBit _ (show pageReserved < 32 by decide)]
  · simpa [update_of_ne hfn] using hf.resolve_left hfn

theorem releaseAll_usable : ∀ (frames : List Nat) {s : PageAlloc},
    frames.foldlM releasePage s = .ok s' → (f ∈ frames ∨ (s.flags f).testBit pageReserved = false) →
    (s'.flags f).testBit pageReserved = false := by
  intro frames
  induction frames with
  | nil =>
    intro s h hf
    cases h
    simpa using hf
  | cons n frames ih =>
    intro s h hf
    obtain ⟨s1, hone, hrest⟩ := bind_returns h
    refine ih hrest ?_
    rcases hf with hf | hf
    · rcases List.mem_cons.mp hf with rfl | hf
      · exact .inr (releasePage_usable hone (.inl rfl))
      · exact .inl hf
    · exact .inr (releasePage_usable hone (.inr hf))

theorem BuddyRun.usable (hlow : lowMem ≤ startMem)
    (hrun : BuddyRun startMem endMem mem s live) (hf : f ∈ releasedFrames startMem endMem) :
    (s.flags f).testBit pageReserved = false := by
  induction hrun with
  | init h => exact releaseAll_usable _ h (.inl hf)
  | @get s s' live k addr hrun hk hget ih =>
    obtain ⟨fl, hi⟩ := (hrun.inv hlow).inv
    rcases getFreePages_spec 0 hi (not_freeFrame_zero hlow) hk with
      ⟨n, t, hok, ha, -⟩ | ⟨-, hfail⟩
    · rw [hget] at hok
      cases hok
      rw [ha.flags]
      exact ih
    · rw [hget, if_neg (by decide)] at hfail
      cases hfail
      exact ih
  | free _ _ ih =>
    rw [freePages_flags]
    exact ih

end Boot

end Cnix.Mm
