/-
Runs of the page allocator, from the release of the page frames at boot
through any history of allocations and releases.

`BuddyRun` is the transition system: its states pair the allocator's
globals with the blocks that are out (`live`), and its steps are the two
functions of the source, each with the promise its callers make (an
order below `NR_FREE_LIST`; a block is given back once, with the order
it was handed out with). The run invariant `RunInv` is the buddy
invariant for the frames that are released and not in a live block;
`BuddyRun.inv` carries it along every run, and `buddy_correct` reads off
what the allocator promises.
-/
import Cnix.Mm.Proofs.Buddy

namespace Cnix.Mm

open Lib
open Function (update)
open PageAlloc

variable {s s' : PageAlloc} {startMem endMem n k : Nat} {mem : Nat → Nat → BitVec 32}
  {live : List (Nat × Nat)} {b : Nat × Nat}

-- ======== the runs

/-- A block that is out: its address and its order. -/
def InLive (b : Nat × Nat) (f : Nat) : Prop := InBlock b.2 (mapNr b.1) f

/-- The frames that are free in a run: released at boot and in no live
block. -/
def FreeFrame (startMem endMem : Nat) (live : List (Nat × Nat)) (f : Nat) :
    Prop :=
  f ∈ releasedFrames startMem endMem ∧ ∀ b ∈ live, ¬ InLive b f

/-- The states reached from boot by `get_free_pages(0, k)` and by
`__free_pages` of live blocks. -/
inductive BuddyRun (startMem endMem : Nat) (mem : Nat → Nat → BitVec 32) :
    PageAlloc → List (Nat × Nat) → Prop
  | init {s : PageAlloc} :
      memInit startMem endMem (freeAreaInit mem) = .ok s →
      BuddyRun startMem endMem mem s []
  | get {s s' : PageAlloc} {live : List (Nat × Nat)} {k addr : Nat} :
      BuddyRun startMem endMem mem s live → k < nrFreeList →
      getFreePages 0 k s = .ok (addr, s') →
      BuddyRun startMem endMem mem s'
        (if addr = 0 then live else (addr, k) :: live)
  | free {s : PageAlloc} {live : List (Nat × Nat)} {b : Nat × Nat} :
      BuddyRun startMem endMem mem s live → b ∈ live →
      BuddyRun startMem endMem mem (freePages b.1 b.2 s) (live.erase b)

-- ======== boot releases

/-- Dropping the last reference to a page that is not reserved releases
it. -/
theorem freeOnePage_last (hcount : s.count n = 1)
    (hres : (s.flags n).testBit pageReserved = false) : freeOnePage (n * pageSize) s
      = .ok (freePages (n * pageSize) 0 { s with count := update s.count n 0 }) := by
  have hnr : mapNr (n * pageSize) = n := Nat.mul_div_cancel _ (by decide)
  unfold freeOnePage
  simp [hnr, hcount, hres]

/-- Releasing a used frame at boot frees it. It is counted twice, in
`__free_pages` and in the loop. -/
theorem releasePage_spec {fl : Nat → List Nat} {F : Nat → Prop}
    (hi : BuddyInv s fl F) (hn : ¬ F n) : ∃ s' fl', releasePage s n = .ok s'
      ∧ (BuddyInv s' fl' fun f => F f ∨ f = n)
      ∧ ∀ extra off, Books s fl extra off → Books s' fl' (extra + 1) off := by
  have hout : ∀ f, InBlock 0 n f → ¬ F f := by
    intro f hf hF
    obtain rfl : f = n := by
      unfold InBlock at hf
      omega
    exact hn hF
  let fl0 := if dmaHighMem < n * pageSize
    then clearBit (s.flags n) pageDMA else s.flags n
  let t : PageAlloc := { s with
    flags := update s.flags n (clearBit fl0 pageReserved)
    count := update s.count n 1 }
  -- the page has one reference and is no longer reserved
  have hlast : freeOnePage (n * pageSize) t = .ok (freePages (n * pageSize) 0
      { t with count := update t.count n 0 }) := by
    refine freeOnePage_last ?_ ?_
    · simp [t]
    · simp [t, testBit_clearBit fl0 (show pageReserved < 32 by decide)]
  obtain ⟨-, fl', h, hbooks⟩ := freePages_spec
    (s := { t with count := update t.count n 0 })
    ⟨hi.rings, hi.tiling, hi.bits⟩ (by decide) (Nat.one_dvd n) hout
  generalize freePages (n * pageSize) 0
    { t with count := update t.count n 0 } = r at *
  refine ⟨{ r with nfreepages := r.nfreepages + 1 }, fl', ?_, ?_, fun extra off hs => ?_⟩
  · show (freeOnePage (n * pageSize) t >>= fun s => _) = _
    rw [hlast]
    rfl
  · refine BuddyInv.congr ⟨h.rings, h.tiling, h.bits⟩ fun f => or_congr_right ?_
    unfold InBlock
    omega
  · have hr := hbooks extra off ⟨hs.pages, hs.counts⟩
    have hpages := hr.pages
    refine ⟨?_, hr.counts⟩
    show r.nfreepages + 1 = freeSum fl' + (extra + 1)
    omega

/-- Releasing any list of distinct frames makes exactly them free. -/
theorem releaseAll_spec : ∀ (frames : List Nat) {s : PageAlloc} {fl : Nat → List Nat}
      {F : Nat → Prop}, BuddyInv s fl F → frames.Nodup → (∀ n ∈ frames, ¬ F n) →
      ∃ s' fl', frames.foldlM releasePage s = .ok s' ∧ (BuddyInv s' fl' fun f => F f ∨ f ∈ frames)
        ∧ ∀ extra off, Books s fl extra off → Books s' fl' (extra + frames.length) off := by
  intro frames
  induction frames with
  | nil =>
    intro s fl F hi _ _
    exact ⟨s, fl, rfl, hi.congr fun f => by simp, fun extra off h => by simpa using h⟩
  | cons n frames ih =>
    intro s fl F hi hnd hout
    obtain ⟨hn, hnd⟩ := List.nodup_cons.1 hnd
    obtain ⟨s1, fl1, h1, hi1, hb1⟩ := releasePage_spec hi (hout n (by simp))
    obtain ⟨s2, fl2, h2, hi2, hb2⟩ := ih hi1 hnd (by
      rintro m hm (hF | rfl)
      · exact hout m (by simp [hm]) hF
      · exact hn hm)
    refine ⟨s2, fl2, ?_, hi2.congr fun f => ?_, fun extra off h => ?_⟩
    · rw [List.foldlM_cons, h1]
      exact h2
    · simp only [List.mem_cons]
      tauto
    · have hbooks := hb2 _ off (hb1 extra off h)
      rw [add_assoc, add_comm 1] at hbooks
      exact hbooks

/-- The two loops of `mem_init` release no frame twice, as long as the
kernel ends above the low memory, and never frame 0. -/
theorem releasedFrames_nodup (hlow : lowMem ≤ startMem) :
    (releasedFrames startMem endMem).Nodup := by
  refine List.nodup_append.2 ⟨List.nodup_range', List.nodup_range', ?_⟩
  intro a ha b hb hab
  rw [List.mem_range'_1] at ha hb
  have halign : mapNr lowMem ≤ mapNr (pageAlign startMem) := by
    unfold mapNr pageAlign pageMask lowMem pageSize pageShift at *
    omega
  omega

theorem zero_not_released (hlow : lowMem ≤ startMem) : 0 ∉ releasedFrames startMem endMem := by
  unfold releasedFrames
  intro h0
  rw [List.mem_append, List.mem_range'_1, List.mem_range'_1] at h0
  have halign : 0 < mapNr (pageAlign startMem) := by
    unfold mapNr pageAlign pageMask lowMem pageSize pageShift at *
    omega
  have hpos : 0 < mapNr reservedMem := by decide
  omega

/-- `free_area_init` leaves empty lists, clear bitmaps and no free
frame. -/
theorem freeAreaInit_inv (mem : Nat → Nat → BitVec 32) :
    BuddyInv (freeAreaInit mem) (fun _ => []) fun _ => False where
  rings k _ := ⟨⟨rfl, rfl⟩, List.nodup_singleton _⟩
  tiling := by
    have hF : FreeBlock (fun _ => []) = fun _ _ => False := by
      funext k n
      simp [FreeBlock]
    rw [hF]
    exact Tiling.empty
  bits := by
    intro k m _ _
    simp [FreeBlock, testMap, freeAreaInit]

/-- `mem_init` succeeds and frees exactly the frames it goes through. It
counts each of them twice. -/
theorem memInit_spec (hlow : lowMem ≤ startMem) :
    ∃ s fl, memInit startMem endMem (freeAreaInit mem) = .ok s
      ∧ (BuddyInv s fl fun f => f ∈ releasedFrames startMem endMem)
      ∧ Books s fl (releasedFrames startMem endMem).length fun _ => 0 := by
  obtain ⟨s, fl, h, hi, hbooks⟩ := releaseAll_spec (releasedFrames startMem endMem)
    (freeAreaInit_inv mem) (releasedFrames_nodup hlow) fun _ _ h => h
  refine ⟨s, fl, h, hi.congr fun f => by simp, ?_⟩
  have hnone : freeSum (fun _ => []) = 0 := rfl
  have hfirst := hbooks 0 (fun _ => 0) ⟨by rw [hnone]; rfl, fun _ _ => rfl⟩
  rwa [zero_add] at hfirst

-- ======== the run invariant

/-- The live blocks are aligned blocks of released frames, pairwise
disjoint. -/
structure LiveOk (startMem endMem : Nat) (live : List (Nat × Nat)) : Prop where
  nodup : live.Nodup
  shape : ∀ b ∈ live, b.2 < nrFreeList ∧ 2 ^ b.2 ∣ mapNr b.1
    ∧ b.1 = mapNr b.1 * pageSize
  released : ∀ b ∈ live, ∀ f, InLive b f → f ∈ releasedFrames startMem endMem
  disjoint : ∀ b ∈ live, ∀ c ∈ live, b ≠ c → ∀ f, InLive b f → ¬ InLive c f

/-- The buddy invariant for the frames outside the live blocks. -/
structure RunInv (startMem endMem : Nat) (s : PageAlloc)
    (live : List (Nat × Nat)) : Prop where
  live_ok : LiveOk startMem endMem live
  inv : ∃ fl, BuddyInv s fl (FreeFrame startMem endMem live)

/-- A block of free frames can be handed out. -/
theorem LiveOk.cons (hl : LiveOk startMem endMem live) (hk : k < nrFreeList) (hn : 2 ^ k ∣ n)
    (hfree : ∀ f, InBlock k n f → FreeFrame startMem endMem live f) :
    LiveOk startMem endMem ((n * pageSize, k) :: live) := by
  have hnr : mapNr (n * pageSize) = n := Nat.mul_div_cancel _ (by decide)
  have hnew : ∀ f, InLive (n * pageSize, k) f → FreeFrame startMem endMem live f := by
    intro f hf
    unfold InLive at hf
    rw [hnr] at hf
    exact hfree f hf
  refine ⟨List.nodup_cons.2 ⟨fun hmem => ?_, hl.nodup⟩, ?_, ?_, ?_⟩
  · have hself : InLive (n * pageSize, k) n := by
      unfold InLive
      rw [hnr]
      exact InBlock.self k n
    exact (hnew n hself).2 _ hmem hself
  · intro b hb
    rcases List.mem_cons.1 hb with rfl | hb
    · exact ⟨hk, by rw [hnr]; exact hn, by rw [hnr]⟩
    · exact hl.shape b hb
  · intro b hb f hf
    rcases List.mem_cons.1 hb with rfl | hb
    · exact (hnew f hf).1
    · exact hl.released b hb f hf
  · intro b hb c hc hne f hf hf'
    rcases List.mem_cons.1 hb with rfl | hb <;> rcases List.mem_cons.1 hc with rfl | hc
    · exact hne rfl
    · exact (hnew f hf).2 c hc hf'
    · exact (hnew f hf').2 b hb hf
    · exact hl.disjoint b hb c hc hne f hf hf'

/-- Giving a live block back keeps the others as they are. -/
theorem LiveOk.erase (hl : LiveOk startMem endMem live) (b : Nat × Nat) :
    LiveOk startMem endMem (live.erase b) := by
  have hsub : ∀ c ∈ live.erase b, c ∈ live := fun c hc => List.mem_of_mem_erase hc
  exact ⟨hl.nodup.erase b, fun c hc => hl.shape c (hsub c hc),
    fun c hc => hl.released c (hsub c hc),
    fun c hc d hd => hl.disjoint c (hsub c hc) d (hsub d hd)⟩

/-- A frame of a live block is free exactly once that block is gone. -/
theorem freeFrame_erase (hl : LiveOk startMem endMem live) (hb : b ∈ live) (f : Nat) :
    FreeFrame startMem endMem (live.erase b) f ↔ FreeFrame startMem endMem live f ∨ InLive b f := by
  constructor
  · rintro ⟨hrel, hout⟩
    by_cases hf : InLive b f
    · exact .inr hf
    · refine .inl ⟨hrel, fun c hc hcf => ?_⟩
      have hcb : c ≠ b := fun he => hf (he ▸ hcf)
      exact hout c ((List.mem_erase_of_ne hcb).2 hc) hcf
  · rintro (⟨hrel, hout⟩ | hf)
    · exact ⟨hrel, fun c hc => hout c (List.mem_of_mem_erase hc)⟩
    · refine ⟨hl.released b hb f hf, fun c hc hcf => ?_⟩
      obtain ⟨hcb, hc⟩ := (hl.nodup.mem_erase_iff).1 hc
      exact hl.disjoint b hb c hc (Ne.symm hcb) f hf hcf

/-- A frame is free after an allocation if it was and is not in the new
block. -/
theorem freeFrame_cons (f : Nat) : FreeFrame startMem endMem ((n * pageSize, k) :: live) f
      ↔ FreeFrame startMem endMem live f ∧ ¬ InBlock k n f := by
  have hnr : mapNr (n * pageSize) = n := Nat.mul_div_cancel _ (by decide)
  unfold FreeFrame InLive
  simp only [List.mem_cons, forall_eq_or_imp, hnr]
  tauto

/-- Frame 0 is never free. -/
theorem not_freeFrame_zero (hlow : lowMem ≤ startMem) : ¬ FreeFrame startMem endMem live 0 :=
  fun h => zero_not_released hlow h.1

/-- A call of `get_free_pages` that returns keeps the run invariant. -/
theorem RunInv.get {addr : Nat} (hlow : lowMem ≤ startMem)
    (hinv : RunInv startMem endMem s live) (hk : k < nrFreeList) (attr : Nat)
    (hget : getFreePages attr k s = .ok (addr, s')) :
    RunInv startMem endMem s' (if addr = 0 then live else (addr, k) :: live) := by
  obtain ⟨fl, hi⟩ := hinv.inv
  rcases getFreePages_spec attr hi (not_freeFrame_zero hlow) hk with
    ⟨n, t, h, ha, -⟩ | ⟨-, h⟩
  · rw [hget] at h
    cases h
    have hne : n * pageSize ≠ 0 := Nat.mul_ne_zero ha.nonzero (by decide)
    rw [if_neg hne]
    obtain ⟨fl', hi'⟩ := ha.inv
    exact ⟨hinv.live_ok.cons hk ha.aligned ha.free, fl',
      hi'.congr fun f => (freeFrame_cons f).symm⟩
  · rw [hget] at h
    split at h
    · cases h
    · cases h
      exact hinv

/-- Freeing a live block keeps the run invariant. -/
theorem RunInv.free (hinv : RunInv startMem endMem s live) (hb : b ∈ live) :
    RunInv startMem endMem (freePages b.1 b.2 s) (live.erase b) := by
  obtain ⟨fl, hi⟩ := hinv.inv
  obtain ⟨hk, hn, haddr⟩ := hinv.live_ok.shape b hb
  obtain ⟨-, fl', hi', -⟩ := freePages_spec hi hk hn
    (fun f hf hfree => hfree.2 b hb hf)
  rw [← haddr] at hi'
  exact ⟨hinv.live_ok.erase b, fl', hi'.congr fun f =>
    (freeFrame_erase hinv.live_ok hb f).symm⟩

/-- The state after boot, with every released frame free. -/
theorem RunInv.boot (hlow : lowMem ≤ startMem)
    (h : memInit startMem endMem (freeAreaInit mem) = .ok s) : RunInv startMem endMem s [] := by
  obtain ⟨s', fl, h', hi, -⟩ := memInit_spec hlow
  rw [h] at h'
  cases h'
  refine ⟨⟨List.nodup_nil, ?_, ?_, ?_⟩, fl, hi.congr fun f => ?_⟩
  · simp
  · simp
  · simp
  · simp [FreeFrame]

/-- The run invariant holds in every state of every run. -/
theorem BuddyRun.inv (hlow : lowMem ≤ startMem) (hrun : BuddyRun startMem endMem mem s live) :
    RunInv startMem endMem s live := by
  induction hrun with
  | init h => exact RunInv.boot hlow h
  | get _ hk hget ih => exact ih.get hlow hk 0 hget
  | free _ hb ih => exact ih.free hb

-- ======== the contract

/-- What the page allocator promises in every state of every run from
boot: its lists hold aligned, disjoint, fully merged blocks that make up
exactly the free frames, and `get_free_pages(0, k)` returns an aligned
block of free frames, disjoint from all live ones, or 0 exactly when no
aligned run of `2^k` frames is free. -/
theorem buddy_correct (hlow : lowMem ≤ startMem) (hrun : BuddyRun startMem endMem mem s live) :
    (∃ fl : Nat → List Nat, RingsAre s fl ∧ (∀ k n, FreeBlock fl k n → 2 ^ k ∣ n)
      ∧ (∀ j k a b f, FreeBlock fl j a → FreeBlock fl k b →
          InBlock j a f → InBlock k b f → j = k ∧ a = b) ∧ (∀ f, FreeFrame startMem endMem live f
          ↔ ∃ k n, FreeBlock fl k n ∧ InBlock k n f)
      ∧ (∀ k n, k < 9 → FreeBlock fl k n → ¬ FreeBlock fl k (buddy k n)))
    ∧ ∀ k, k ≤ 9 → ∃ addr s', getFreePages 0 k s = .ok (addr, s') ∧ (addr = 0 ↔ ¬ ∃ m, 2 ^ k ∣ m
          ∧ ∀ f, InBlock k m f → FreeFrame startMem endMem live f)
      ∧ (addr ≠ 0 → ∃ n, addr = n * pageSize ∧ 2 ^ k ∣ n
          ∧ (∀ f, InBlock k n f → FreeFrame startMem endMem live f)
          ∧ ∀ b ∈ live, ∀ f, InBlock k n f → ¬ InLive b f) := by
  obtain ⟨-, fl, hi⟩ := hrun.inv hlow
  refine ⟨⟨fl, hi.rings, fun k n => hi.tiling.aligned, fun j k a b f =>
    hi.tiling.disjoint, hi.tiling.covers, fun k n hk => hi.tiling.coalesced hk⟩, ?_⟩
  intro k hk
  rcases getFreePages_spec 0 hi (not_freeFrame_zero hlow)
    (show k < nrFreeList from Nat.lt_succ_of_le hk) with ⟨n, s', h, ha, -⟩ | ⟨hno, h⟩
  · have hne : n * pageSize ≠ 0 := Nat.mul_ne_zero ha.nonzero (by decide)
    refine ⟨_, s', h, ⟨fun h0 => absurd h0 hne, fun hnone => ?_⟩, fun _ =>
      ⟨n, rfl, ha.aligned, ha.free, fun b hb f hf => (ha.free f hf).2 b hb⟩⟩
    exact absurd ⟨n, ha.aligned, ha.free⟩ hnone
  · refine ⟨0, s, h, ⟨fun _ => ?_, fun _ => rfl⟩, fun h0 => absurd rfl h0⟩
    rintro ⟨m, hm, hall⟩
    obtain ⟨f, hf, hnf⟩ := hno m hm
    exact hnf (hall f hf)

/-- A machine with 64 frames above the kernel: the contract holds right
after boot, and a block of 32 frames can be had. -/
theorem buddy_correct_boot : ∃ s, BuddyRun 0x100000 0x140000 (fun _ _ => 0#32) s []
      ∧ ∃ addr s', getFreePages 0 5 s = .ok (addr, s') ∧ addr ≠ 0 := by
  obtain ⟨s, fl, h, -⟩ := @memInit_spec 0x100000 0x140000
    (fun _ _ => 0#32) (by decide)
  have hrun := BuddyRun.init h
  refine ⟨s, hrun, ?_⟩
  obtain ⟨addr, s', hget, hzero, -⟩ :=
    (buddy_correct (by decide) hrun).2 5 (by decide)
  refine ⟨addr, s', hget, fun h0 => hzero.1 h0 ⟨256, by decide, fun f hf => ?_⟩⟩
  refine ⟨?_, by simp⟩
  refine List.mem_append_right _ (List.mem_range'_1.2 ?_)
  have h1 : mapNr (pageAlign 0x100000) = 256 := by decide
  have h2 : mapNr 0x140000 = 320 := by decide
  unfold InBlock at hf
  omega

end Cnix.Mm
