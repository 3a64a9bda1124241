/-
A fork that fails leaves nothing behind.

The pages the call takes are the slots of a child (`Mm.Child`). On each
way out with an error the code frees the tables, the directory and the
structure, which empties the slots one after the other, and with no slot
left the allocator is where it was (`Held.restored`).

The counts of the pages that were free are the exception. `free_one_page`
leaves zero there, while `kfree` gives pages back with `__free_pages` and
leaves the count at one; `get_free_pages` does not look at what it finds.
-/
import Cnix.Kernel.Fork
import Cnix.Mm.Proofs.CopyTables

namespace Cnix.Kernel

open Lib Mm PageAlloc
open Function (update update_idem update_self update_of_ne)

variable {m m' : Procs} {F : Nat → Prop} {cur : Parent} {rounds nr fromDir p d : Nat}
  {start : ChildStart} {r : Int} {s s1 s2 : PageAlloc}

/-- Nothing that is in use has changed, and the free pages are the same. -/
structure Clean (F : Nat → Prop) (cur : Parent) (m m' : Procs) : Prop where
  free : FreeFrames m'.pages F
  count : ∀ f, ¬ F f → m'.pages.count f = m.pages.count f
  freeCount : ∀ f, F f → m'.pages.count f = m.pages.count f ∨ m'.pages.count f = 0
  dir : ∀ i, m'.pages.word cur.pgDir i = m.pages.word cur.pgDir i
  tables : ∀ i t j, TableAt (mapNr cur.pgDir) m.pages.mem i t → m'.pages.mem t j = m.pages.mem t j
  kept : ∀ f, ¬ F f → m'.pages.mem f = m.pages.mem f
  inodes : m'.iCount = m.iCount
  files : m'.fCount = m.fCount
  tasks : m'.tasks = m.tasks
  dirs : m'.pgDir = m.pgDir
  running : m'.runQueue = m.runQueue

/-- A call that changed nothing but the pages, and has given them all
back. -/
theorem clean_of_held {slot : Slot → Option Nat}
    (hf : FreeFrames m.pages F) (hp : Consistent m.pages F cur.pgDir cur.mmaps)
    (hheld : Held m.pages F slot s) (hnone : ∀ o, slot o = none) :
    Clean F cur m { m with pages := s } := by
  obtain ⟨hfree, hcount⟩ := hheld.restored hf hnone
  refine ⟨hfree, fun f hF => ?_, fun f _ => ?_, fun i => ?_, fun i t j ht => ?_, hheld.kept,
    rfl, rfl, rfl, rfl, rfl⟩
  · rcases hcount f with he | ⟨hF', -⟩
    · exact he
    · exact absurd hF' hF
  · rcases hcount f with he | ⟨-, he⟩
    · exact .inl he
    · exact .inr he
  · exact congrFun (hheld.kept _ hp.dir_used) i
  · exact congrFun (hheld.kept t (hp.tables i t ht)) j

/-- `copy_kernel_pts` stores the first words of the directory. -/
theorem copyKernelPts_eq (fromDir toDir : Nat) (s : PageAlloc) :
    copyKernelPts fromDir toDir s = { s with
      mem := update s.mem (mapNr toDir) fun i =>
        if i < kpDirEntnum then s.mem (mapNr fromDir) i else s.mem (mapNr toDir) i } := by
  unfold copyKernelPts
  generalize kpDirEntnum = n
  induction n with
  | zero => simp
  | succ n ih =>
    rw [List.range_succ, List.foldl_append, ih]
    simp only [List.foldl_cons, List.foldl_nil, PageAlloc.setWord, PageAlloc.word, update_self,
      update_idem]
    congr 2
    funext i
    by_cases hi : i = n
    · by_cases he : mapNr fromDir = mapNr toDir <;> simp [hi, he]
    · have hlt : i < n + 1 ↔ i < n := by omega
      simp only [update_of_ne hi, hlt]

/-- The child when its directory has the kernel's entries and no others. -/
theorem child_started (hdir : ¬ F (mapNr fromDir)) (hp : Got s F (fun _ : Slot => none) s p s1)
    (hd : Got s F (update (fun _ => none) Slot.task (some p)) s1 d s2) :
    Child s F fromDir p d (s2.copyKernelPts fromDir (d * pageSize)) := by
  have hne : mapNr fromDir ≠ mapNr (d * pageSize) := by
    rw [mapNr_mul]
    exact fun he => hdir (he ▸ hd.free)
  have hnep : mapNr fromDir ≠ p := fun he => hdir (he ▸ hp.free)
  have hmem (i : Nat) : (s2.copyKernelPts fromDir (d * pageSize)).mem d i
      = if i < kpDirEntnum then s.mem (mapNr fromDir) i else 0#32 := by
    rw [copyKernelPts_eq, mapNr_mul]
    simp only [update_self]
    rw [hd.clear, hd.rest _ (mapNr_mul d ▸ hne), hp.rest _ hnep]
  have hbare (i t : Nat) : ¬ TableAt d (s2.copyKernelPts fromDir (d * pageSize)).mem i t := by
    rintro ⟨hi, -, hpte⟩
    rw [hmem, if_neg (Nat.not_lt.mpr hi), pte_zero] at hpte
    cases hpte
  refine ⟨?_, hd.free, fun i hi _ => .inl ?_, fun i hi => ?_⟩
  · rw [child_bare hbare, copyKernelPts_eq]
    refine (hd.held .dir (by simp)).write ?_ _
    rw [mapNr_mul]
    exact hd.free
  · rw [hmem, if_neg (Nat.not_lt.mpr hi)]
  · rw [hmem, if_pos hi]

/-- With the tables gone, freeing the directory and the structure is all
that is left to do. -/
theorem child_freed {s3 : PageAlloc}
    (hc : Child s F fromDir p d s1) (hbare : ∀ i t, ¬ TableAt d s1.mem i t)
    (hdir : s1.freeOnePage (d * pageSize) = .ok s2)
    (htask : s2.freeOnePage (p * pageSize) = .ok s3) :
    Held s F (update (update (child p d s1.mem) .dir none) .task none) s3
      ∧ ∀ o, update (update (child p d s1.mem) .dir none) .task none o
          = none := by
  have hslotd : child p d s1.mem .dir = some (mapNr (d * pageSize)) := by
    rw [mapNr_mul]
    rfl
  obtain ⟨t2, hfree2, -, hheld2⟩ := hc.held.free hslotd
  obtain rfl : t2 = s2 := by
    rw [hfree2] at hdir
    exact Except.ok.inj hdir
  have hslotp : update (child p d s1.mem) .dir none .task
      = some (mapNr (p * pageSize)) := by
    rw [mapNr_mul]
    rfl
  obtain ⟨t3, hfree3, -, hheld3⟩ := hheld2.free hslotp
  obtain rfl : t3 = s3 := by
    rw [hfree3] at htask
    exact Except.ok.inj htask
  refine ⟨hheld3, fun o => ?_⟩
  rw [child_bare hbare]
  cases o <;> rfl

/-- A fork that returns an error leaves the free pages, the counts of all
pages that are in use, the parent's tables, the counts of inodes and open
files and the lists of processes as they were. The count of a page that was
free is as it was or zero. -/
theorem copyProcess_clean (hf : FreeFrames m.pages F)
    (hp : Consistent m.pages F cur.pgDir cur.mmaps)
    (h : m.copyProcess rounds cur nr start = .ok (r, m')) (hr : r < 0) : Clean F cur m m' := by
  obtain ⟨⟨page, s1⟩, hget, h1⟩ := bind_returns h
  have hheld0 : Held m.pages F (fun _ : Slot => none) m.pages := Held.start hf
  rcases hheld0.get hf hget with ⟨rfl, rfl⟩ | ⟨p, rfl, hp0, hgot⟩
  · -- no page for the structure
    cases h1
    exact clean_of_held hf hp hheld0 fun _ => rfl
  · simp only [if_neg hp0] at h1
    obtain ⟨⟨page, s2⟩, hgetd, h2⟩ := bind_returns h1
    have hheld1 := hgot.held .task rfl
    rcases hheld1.get hf hgetd with ⟨rfl, rfl⟩ | ⟨d, rfl, hd0, hgotd⟩
    · -- no page for the directory
      have hslot : update (fun _ => none) Slot.task (some p) .task
          = some (mapNr (p * pageSize)) := by
        rw [mapNr_mul, update_self]
      obtain ⟨s3, hfree, -, hheld3⟩ := hheld1.free hslot
      simp only [if_true, hfree] at h2
      cases h2
      refine clean_of_held hf hp hheld3 fun o => ?_
      rw [update_idem]
      exact congrFun (update_none rfl) o
    · simp only [if_neg hd0] at h2
      have hc := child_started hp.dir_used hgot hgotd
      obtain ⟨⟨more, s3⟩, hcopy, h3⟩ := bind_returns h2
      have hc3 := copyMmaps_child hf hp (mapNr_mul d) _ (fun _ hv => hv) hc hcopy
      cases more with
      | true =>
        -- from here on the call cannot fail
        simp only [if_true, Procs.startChild] at h3
        split at h3
        · cases h3
        · cases h3
          exact absurd hr (by decide)
      | false =>
        obtain ⟨s4, htables, h4⟩ := bind_returns h3
        obtain ⟨s5, hdir, h5⟩ := bind_returns h4
        obtain ⟨s6, htask, h6⟩ := bind_returns h5
        cases h6
        obtain ⟨hc4, hbare⟩ := freePageTables_child hc3 (mapNr_mul d) htables
        obtain ⟨hheld, hnone⟩ := child_freed hc4 hbare hdir htask
        exact clean_of_held hf hp hheld hnone

-- ======== a run

/-- The heap has the last page, page 5, with the count `get_free_pages` gave
it. Pages 7 to 10 are a directory, the kernel's table, a table for the
user and the one page it maps. -/
def heapPage : PageAlloc :=
  { freeAreaInit fun f i =>
      if f = 7 then if i = 0 then 0x8003#32 else if i = 256 then 0x9007#32 else 0#32
      else if f = 8 then 0x3#32
      else if f = 9 then if i = 0 then 0xa007#32 else 0#32
      else 0#32 with
    flags := fun _ => 0
    count := fun f => if f = 5 ∨ f = 10 then 1 else 0 }

/-- `kfree` has given the page back. -/
def afterKfree : Procs where
  pages := freePages (5 * pageSize) 0 heapPage
  kpDir := 6 * pageSize
  iCount _ := 0
  fCount _ := 0
  tasks :=
    { task := fun _ => none, clist := fun _ => [], pglist := ⟨id, id⟩, owner := fun _ => 0,
      nextPid := 2, waits := fun _ => none, born := 0, code := fun _ => none, reaped := [] }
  pgDir _ := 7 * pageSize
  runQueue := []

/-- A process with one private page. -/
def onePage : Parent where
  pid := 1
  task := { ppid := 0, pgid := 1, session := 1, tty := notty, uid := 0, euid := 0, zombie := false,
            exitCode := 0, serial := 0 }
  pgDir := 7 * pageSize
  mmaps := [{ start := 0x40000000#32, stop := 0x40001000#32, flags := 2, ino := none }]
  pwd := none
  root := none
  files := []

/-- `__free_pages` has put the page on a list, and that is all. -/
theorem afterKfree_spec : SameRest heapPage afterKfree.pages
    ∧ ∃ fl, BuddyInv afterKfree.pages fl (· = 5) := by
  have hinv := freeAreaInit_inv (fun _ _ => 0#32)
  obtain ⟨hrest, fl, hi, -⟩ := freePages_spec (s := heapPage) (n := 5)
    ⟨hinv.rings, hinv.tiling, hinv.bits⟩ (by decide : 0 < nrFreeList) (Nat.one_dvd 5)
    (fun _ _ h => h)
  refine ⟨hrest, fl, hi.congr fun f => ?_⟩
  rw [false_or]
  unfold InBlock
  omega

theorem afterKfree_free : FreeFrames afterKfree.pages (· = 5) := by
  obtain ⟨⟨hflags, -, -⟩, hlists⟩ := afterKfree_spec
  refine ⟨hlists, by decide, by omega, fun {f} _ => ?_⟩
  exact Nat.zero_testBit pageReserved

theorem onePage_consistent : Consistent afterKfree.pages (· = 5) onePage.pgDir onePage.mmaps := by
  obtain ⟨⟨hflags, hcount, hmem⟩, -⟩ := afterKfree_spec
  have h7 : mapNr onePage.pgDir = 7 := by decide
  -- the only user table
  have htable (i t : Nat) (ht : TableAt (mapNr onePage.pgDir) afterKfree.pages.mem i t) :
      i = 256 ∧ t = 9 := by
    obtain ⟨hi, -, hpte⟩ := ht
    have hi0 : i ≠ 0 := fun h0 => absurd (h0 ▸ hi) (by decide)
    rw [hmem, h7] at hpte
    by_cases h256 : i = 256
    · rw [h256] at hpte
      have h9 : pte (heapPage.mem 7 256) = some 9 := by decide
      exact ⟨h256, Option.some.inj (hpte.symm.trans h9)⟩
    · simp [heapPage, freeAreaInit, hi0, h256, pte_zero] at hpte
  refine ⟨by decide, ⟨8, ?_, by decide, 0, by decide, ?_⟩, fun i t ht => ?_,
    fun i t j ht _ hpres => ?_, fun v hv _ addr hle hlt => ?_⟩
  · decide
  · decide
  · rw [(htable i t ht).2]
    decide
  · rw [(htable i t ht).2, hmem] at hpres ⊢
    have hj : j = 0 := by
      by_contra hj
      simp [heapPage, freeAreaInit, hj, present] at hpres
    rw [hj, InUse, hcount, hflags]
    decide
  · obtain rfl : v = { start := 0x40000000#32, stop := 0x40001000#32, flags := 2, ino := none } :=
      List.mem_singleton.mp hv
    have hidx : pageDirIdx addr = 256 := by
      simp only [BitVec.toNat_ofNat] at hle hlt
      unfold pageDirIdx pageDirEntsiz pageSize pageShift
      omega
    rw [hidx, PageAlloc.word, hmem]
    decide

/-- The page goes to the structure of the child, there is none for the
directory, and the page comes back with count zero. -/
theorem afterKfree_fork :
    ∃ m', afterKfree.copyProcess 1 onePage 2 (.user (some 0xefffff00)) = .ok (-11, m')
      ∧ m'.pages.count 5 = 0 ∧ afterKfree.pages.count 5 = 1 := by
  decide +kernel

/-- A fork of a process with a mapping, which runs out of pages. -/
theorem copyProcess_clean_onePage :
    ∃ m', afterKfree.copyProcess 1 onePage 2 (.user (some 0xefffff00)) = .ok (-11, m')
      ∧ Clean (· = 5) onePage afterKfree m' := by
  obtain ⟨m', hrun, -⟩ := afterKfree_fork
  exact ⟨m', hrun, copyProcess_clean afterKfree_free onePage_consistent hrun (by decide)⟩

/-- Not all counts are as before: a page that `kfree` gave back had count
one, and has count zero after the fork. -/
theorem fork_clears_count :
    ¬ ∀ (m m' : Procs) (F : Nat → Prop) (cur : Parent) (rounds nr : Nat) (start : ChildStart) (r : Int),
      FreeFrames m.pages F → Consistent m.pages F cur.pgDir cur.mmaps →
      m.copyProcess rounds cur nr start = .ok (r, m') → r < 0 → m'.pages.count = m.pages.count := by
  intro hall
  obtain ⟨m', hrun, h0, h1⟩ := afterKfree_fork
  have hsame := hall _ m' _ _ _ _ _ _ afterKfree_free onePage_consistent hrun (by decide)
  rw [hsame, h1] at h0
  cases h0

end Cnix.Kernel
