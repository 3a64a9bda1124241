/-
Copying all mappings of a parent, and freeing what was copied.

`Consistent` is what a parent's address space looks like. Copying it
keeps `Child`, however far it gets (`copyMmaps_child`). The loop never
gets past the end of the address space: from a mapping in the last four
megabytes it comes back to the kernel's first table, which the child
shares, and hits the check for an entry that exists. `free_page_tables`
empties every slot of the tables (`freePageTables_child`).
-/
import Cnix.Mm.Proofs.PageTables

namespace Cnix.Mm

open Lib
open Function (update update_of_ne update_self)
open PageAlloc

/-- The address space of a process with this directory and these mappings.
Its directory and its tables are pages in use, and so are the pages they
map, none of them reserved; every address of a mapping has a table; and
the kernel is mapped. -/
structure Consistent (s : PageAlloc) (F : Nat → Prop) (dir : Nat) (mmaps : List MmapStruct) :
    Prop where
  dir_used : ¬ F (mapNr dir)
  kernel : ∃ t, pte (s.word dir 0) = some t ∧ ¬ F t ∧ ∃ j < 1024, present (s.mem t j) = true
  tables : ∀ i t, TableAt (mapNr dir) s.mem i t → ¬ F t
  pages : ∀ i t j, TableAt (mapNr dir) s.mem i t → j < 1024 → present (s.mem t j) = true →
    InUse s F (frame (s.mem t j))
  mapped : ∀ v ∈ mmaps, userAddr ≤ v.start.toNat →
    ∀ addr, v.start.toNat ≤ addr → addr < v.stop.toNat →
      present (s.word dir (pageDirIdx addr)) = true

theorem pageDirEntsiz_eq : pageDirEntsiz = 4194304 := rfl

theorem tableEnd_le (stop i : Nat) : tableEnd stop i ≤ 1024 := by
  have hoff : toPtOffset stop < 1024 := by
    exact Nat.div_lt_of_lt_mul (Nat.mod_lt _ (by decide))
  unfold tableEnd
  split
  · exact le_rfl
  · split <;> omega

/-- Below the last directory entry the next address does not wrap. -/
theorem nextEntry_eq {i : Nat} (hi : i < 1023) : nextEntry i = (i + 1) * pageDirEntsiz := by
  refine Nat.mod_eq_of_lt ?_
  rw [pageDirEntsiz_eq]
  omega

theorem lt_next_entry (addr : Nat) : addr < (pageDirIdx addr + 1) * pageDirEntsiz :=
  (Nat.div_lt_iff_lt_mul (by decide)).mp (Nat.lt_succ_self _)

variable {s0 s s' : PageAlloc} {F : Nat → Prop} {fromDir toDir flags stop p d rounds table : Nat}
  {mmaps : List MmapStruct} {more : Bool}

-- ======== copying

/-- One round of the outer loop of `copy_mmap_pts`. -/
theorem copyLoop_succ {addr : Nat}
    (h : copyLoop flags stop fromDir toDir (rounds + 1) addr s = .ok (more, s')) :
    (stop ≤ addr ∧ s' = s) ∨ addr < stop ∧ ∃ r s1, pgTableOf toDir (pageDirIdx addr) s = .ok (r, s1)
        ∧ ((r = none ∧ s' = s1) ∨ ∃ t s2 more1, r = some t
          ∧ copyEntries flags (pageMask (s.word fromDir (pageDirIdx addr)).toNat) t
              (List.range' (toPtOffset addr)
                (tableEnd stop (pageDirIdx addr) - toPtOffset addr)) s1 = .ok (more1, s2)
          ∧ (more1 = false ∧ s' = s2 ∨ more1 = true
            ∧ copyLoop flags stop fromDir toDir rounds (nextEntry (pageDirIdx addr)) s2
                = .ok (more, s'))) := by
  unfold copyLoop at h
  split at h
  case isTrue hle =>
    cases h
    exact .inl ⟨hle, rfl⟩
  case isFalse hlt =>
    refine .inr ⟨Nat.lt_of_not_le hlt, ?_⟩
    obtain ⟨⟨r, s1⟩, htable, hnext⟩ := bind_returns h
    refine ⟨r, s1, htable, ?_⟩
    cases r with
    | none =>
      cases hnext
      exact .inl ⟨rfl, rfl⟩
    | some t =>
      obtain ⟨⟨more1, s2⟩, hentries, hlast⟩ := bind_returns hnext
      refine .inr ⟨t, s2, more1, rfl, hentries, ?_⟩
      cases more1 with
      | false =>
        cases hlast
        exact .inl ⟨rfl, rfl⟩
      | true => exact .inr ⟨rfl, hlast⟩

/-- After the last directory entry the loop comes to the kernel's first
table, and stops there. -/
theorem copyLoop_wrapped (hp : Consistent s0 F fromDir mmaps)
    (hc : Child s0 F fromDir p d s) (hdir : mapNr toDir = d) (hstop : pageDirEntsiz ≤ stop) :
    copyLoop flags stop fromDir toDir rounds 0 s ≠ .ok (more, s') := by
  intro h
  cases rounds with
  | zero => cases h
  | succ rounds =>
    obtain ⟨t, hpte, hused, j, hj, hpres⟩ := hp.kernel
    have hsrc : s.word fromDir 0 = s0.word fromDir 0 :=
      congrFun (hc.held.kept _ hp.dir_used) 0
    have hdst : s.word toDir 0 = s0.word fromDir 0 := by
      rw [PageAlloc.word, hdir]
      exact hc.kernel 0 (by decide)
    have hne : s.word toDir 0 ≠ 0#32 := by
      intro h0
      rw [← hdst, h0, pte_zero] at hpte
      cases hpte
    have hidx : pageDirIdx 0 = 0 := rfl
    have htable : pgTableOf toDir 0 s = .ok (some (pageMask (s.word toDir 0).toNat), s) :=
      if_neg hne
    rcases copyLoop_succ h with ⟨hle, -⟩ | ⟨-, r, s1, hof, hcase⟩
    · rw [pageDirEntsiz_eq] at hstop
      omega
    · rw [hidx, htable] at hof
      cases hof
      rcases hcase with ⟨hnone, -⟩ | ⟨t', s2, more1, ht', hentries, -⟩
      · cases hnone
      cases ht'
      rw [hidx, hsrc, hdst] at hentries
      refine copyEntries_self rfl _ ⟨j, ?_, ?_⟩ hentries
      · have hend : tableEnd stop 0 = 1024 := if_pos hstop
        have hoff : toPtOffset 0 = 0 := rfl
        rw [hend, hoff, List.mem_range'_1]
        omega
      · have hframe : mapNr (pageMask (s0.word fromDir 0).toNat) = t := by
          rw [mapNr_pageMask]
          exact (pte_eq_some.mp hpte).2
        rw [PageAlloc.word, hframe, hc.held.kept t hused]
        exact hpres

theorem copyLoop_child (hf : FreeFrames s0 F) (hp : Consistent s0 F fromDir mmaps)
    (hdir : mapNr toDir = d) {v : MmapStruct} (hv : v ∈ mmaps) (huser : userAddr ≤ v.start.toNat) :
    ∀ (rounds addr : Nat) {s : PageAlloc}, Child s0 F fromDir p d s → v.start.toNat ≤ addr →
      copyLoop flags v.stop.toNat fromDir toDir rounds addr s = .ok (more, s') →
      Child s0 F fromDir p d s' := by
  intro rounds
  induction rounds with
  | zero =>
    intro addr s _ _ h
    cases h
  | succ rounds ih =>
    intro addr s hc hstart h
    rcases copyLoop_succ h with ⟨-, rfl⟩ | ⟨hlt, r, s1, htable, hcase⟩
    · exact hc
    · have hdiv : pageDirIdx addr * pageDirEntsiz ≤ addr := Nat.div_mul_le_self _ _
      have hi : kpDirEntnum ≤ pageDirIdx addr := by
        exact Nat.div_le_div_right (huser.trans hstart)
      have hi' : pageDirIdx addr < 1024 := by
        rw [pageDirEntsiz_eq] at hdiv
        omega
      -- the parent has a table here
      have hsrc : s.word fromDir (pageDirIdx addr) = s0.word fromDir (pageDirIdx addr) :=
        congrFun (hc.held.kept _ hp.dir_used) _
      have hat : TableAt (mapNr fromDir) s0.mem (pageDirIdx addr)
          (mapNr (pageMask (s0.word fromDir (pageDirIdx addr)).toNat)) := by
        rw [mapNr_pageMask]
        exact ⟨hi, hi', if_pos (hp.mapped v hv huser addr hstart hlt)⟩
      obtain ⟨hc1, ht1⟩ := pgTableOf_child hf hc hdir hi hi' htable
      rcases hcase with ⟨-, rfl⟩ | ⟨t, s2, more1, ht, hentries, hcase⟩
      · exact hc1
      · rw [hsrc] at hentries
        have hc2 : Child s0 F fromDir p d s2 := by
          refine copyEntries_child hf (hp.tables _ _ hat) _ hc1 (ht1 t ht) ?_ hentries
          intro j hj
          have hj' : j < 1024 := by
            have hmem := List.mem_range'_1.mp hj
            have hend := tableEnd_le v.stop.toNat (pageDirIdx addr)
            omega
          exact ⟨hj', hp.pages _ _ j hat hj'⟩
        rcases hcase with ⟨-, rfl⟩ | ⟨-, hnext⟩
        · exact hc2
        · by_cases hlast : pageDirIdx addr = 1023
          · have hwrap : nextEntry (pageDirIdx addr) = 0 := by
              rw [hlast]
              rfl
            rw [hwrap] at hnext
            refine absurd hnext (copyLoop_wrapped hp hc2 hdir ?_)
            rw [pageDirEntsiz_eq] at hdiv ⊢
            omega
          · refine ih _ hc2 ?_ hnext
            have hnextEntry := nextEntry_eq (show pageDirIdx addr < 1023 by omega)
            have hup := lt_next_entry addr
            omega

/-- Copying the mappings, up to the end or to the page that is missing. -/
theorem copyMmaps_child (hf : FreeFrames s0 F)
    (hp : Consistent s0 F fromDir mmaps) (hdir : mapNr toDir = d) :
    ∀ (vs : List MmapStruct) {s : PageAlloc}, (∀ v ∈ vs, v ∈ mmaps) → Child s0 F fromDir p d s →
      copyMmaps rounds fromDir toDir vs s = .ok (more, s') → Child s0 F fromDir p d s' := by
  intro vs
  induction vs with
  | nil =>
    intro s _ hc h
    cases h
    exact hc
  | cons v vs ih =>
    intro s hvs hc h
    obtain ⟨⟨more1, s1⟩, hone, hnext⟩ := bind_returns h
    have hc1 : Child s0 F fromDir p d s1 := by
      unfold copyMmapPts at hone
      split at hone
      case isTrue =>
        cases hone
        exact hc
      case isFalse huser =>
        exact copyLoop_child hf hp hdir (hvs v List.mem_cons_self) (Nat.le_of_not_lt huser)
          rounds _ hc le_rfl hone
    cases more1 with
    | false =>
      cases hnext
      exact hc1
    | true => exact ih (fun v hv => hvs v (List.mem_cons_of_mem _ hv)) hc1 hnext

-- ======== freeing

/-- Dropping the reference in a slot that is empty does nothing. -/
theorem update_none {ι : Type*} [DecidableEq ι] {slot : ι → Option Nat} {o : ι}
    (ho : slot o = none) : update slot o none = slot :=
  Function.update_eq_self_iff.mpr ho.symm

/-- The page of an entry is freed, if there is one. -/
theorem freeEntry_held {i j : Nat} (hc : Child s0 F fromDir p d s)
    (ht : TableAt d s.mem i (mapNr table)) (hj : j < 1024) :
    ∃ s', freeEntry table j s = .ok s' ∧ s'.mem = s.mem
      ∧ Held s0 F (update (child p d s.mem) (.entry ⟨i, ht.2.1⟩ ⟨j, hj⟩) none) s' := by
  have hslot := child_entry (p := p) ht hj
  unfold freeEntry
  split
  case isTrue hpres =>
    refine hc.held.free ?_
    rw [hslot, mapNr_pageMask]
    exact if_pos hpres
  case isFalse hpres =>
    refine ⟨s, rfl, rfl, ?_⟩
    rw [update_none (hslot.trans (if_neg hpres))]
    exact hc.held

/-- The entries of a table are freed and cleared. -/
theorem freeEntries_child {i : Nat} :
    ∀ (js : List Nat) {s : PageAlloc}, (∀ j ∈ js, j < 1024) → Child s0 F fromDir p d s →
      TableAt d s.mem i (mapNr table) →
      ∃ s', freeEntries table js s = .ok s' ∧ Child s0 F fromDir p d s' ∧ s'.mem d = s.mem d
        ∧ ∀ j, (j ∈ js ∨ pte (s.mem (mapNr table) j) = none) →
            pte (s'.mem (mapNr table) j) = none := by
  intro js
  induction js with
  | nil =>
    intro s _ hc _
    exact ⟨s, rfl, hc, rfl, fun j hj => by simpa using hj⟩
  | cons j js ih =>
    intro s hjs hc ht
    have hj := hjs j List.mem_cons_self
    have hFt : F (mapNr table) := hc.table_free ht
    obtain ⟨s1, hfree, hmem, hheld⟩ := freeEntry_held hc ht hj
    -- and the entry is cleared
    obtain ⟨hset, hd⟩ := hc.set_entry ht hj 0#32
    have hmem2 : (s1.setWord table j 0#32).mem = (s.setWord table j 0#32).mem := by
      rw [PageAlloc.setWord, PageAlloc.setWord, hmem]
    have hc2 : Child s0 F fromDir p d (s1.setWord table j 0#32) := by
      refine hc.of_dir_eq ?_ (by rw [hmem2, hd])
      rw [hmem2, hset, pte_zero]
      exact hheld.write hFt _
    have ht2 : TableAt d (s1.setWord table j 0#32).mem i (mapNr table) := by
      rw [TableAt, hmem2, hd]
      exact ht
    obtain ⟨s', hrest, hc', hd', hclear⟩ :=
      ih (fun j hj => hjs j (List.mem_cons_of_mem _ hj)) hc2 ht2
    refine ⟨s', ?_, hc', by rw [hd', hmem2, hd], fun j' hj' => hclear j' ?_⟩
    · rw [freeEntries, hfree]
      exact hrest
    · rw [hmem2]
      by_cases he : j' = j
      · simp [PageAlloc.setWord, he, pte_zero]
      · rcases hj' with hj' | hnone
        · exact .inl ((List.mem_cons.mp hj').resolve_left he)
        · right
          simpa [PageAlloc.setWord, update_of_ne he] using hnone

/-- One user entry of the directory: its table is freed with all it maps. -/
theorem freePageTable_child {i : Nat} (hc : Child s0 F fromDir p d s) (hdir : mapNr toDir = d)
    (hi : kpDirEntnum ≤ i) (hlt : i < 1024) :
    ∃ s', freePageTable toDir i s = .ok s' ∧ Child s0 F fromDir p d s'
      ∧ ∀ i', (i' = i ∨ pte (s.mem d i') = none) → pte (s'.mem d i') = none := by
  have hword (s : PageAlloc) : s.word toDir i = s.mem d i := by rw [PageAlloc.word, hdir]
  unfold freePageTable
  by_cases hpres : present (s.word toDir i) = true
  · have hle : ¬ i < kpDirEntnum := Nat.not_lt.mpr hi
    simp only [hpres, Bool.not_true, Bool.false_eq_true, if_false, hle]
    have hframe : mapNr (pageMask (s.word toDir i).toNat) = frame (s.mem d i) := by
      rw [mapNr_pageMask, hword, frame]
    have ht : TableAt d s.mem i (mapNr (pageMask (s.word toDir i).toNat)) := by
      rw [hframe]
      refine ⟨hi, hlt, if_pos ?_⟩
      rw [← hword]
      exact hpres
    obtain ⟨s1, hentries, hc1, hd1, hclear⟩ :=
      freeEntries_child (List.range 1024) (by simp) hc ht
    have ht1 : TableAt d s1.mem i (mapNr (pageMask (s.word toDir i).toNat)) := by
      rw [TableAt, hd1]
      exact ht
    have hsame : s1.word toDir i = s.word toDir i := by rw [hword, hword, hd1]
    obtain ⟨s2, hfree, hmem2, hheld⟩ := hc1.held.free (child_table ht1)
    have hmem : (s2.setWord toDir i 0#32).mem
        = update s1.mem d (update (s1.mem d) i 0#32) := by
      rw [PageAlloc.setWord, hdir, hmem2]
    have hself : (s2.setWord toDir i 0#32).mem d i = 0#32 := by
      rw [hmem, update_self, update_self]
    have hother {i' : Nat} (hne : i' ≠ i) :
        (s2.setWord toDir i 0#32).mem d i' = s.mem d i' := by
      rw [hmem, update_self, update_of_ne hne, hd1]
    rw [hentries]
    refine ⟨s2.setWord toDir i 0#32, ?_, ⟨?_, hc.dir, ?_, ?_⟩, ?_⟩
    · show (s1.freeOnePage (pageMask (s1.word toDir i).toNat) >>= fun s => _) = _
      rw [hsame, hfree]
      rfl
    · -- the table maps nothing any more
      have hslot := child_set_dir p d s1.mem 0#32 hi hlt
        (fun i t ht => hc1.table_ne_dir ht)
        (fun j hj => by
          rw [ht1.2.2, Option.bind_some]
          exact hclear j (.inl (List.mem_range.mpr hj)))
        (fun j _ => by rw [pte_zero, Option.bind_none]) (by simp [pte_zero])
      rw [hmem, hslot, pte_zero]
      have hFd : F (mapNr toDir) := hdir ▸ hc.dir
      exact hheld.write hFd _
    · intro i' hi' hlt'
      by_cases he : i' = i
      · exact .inl (he ▸ hself)
      · rw [hother he]
        exact hc.tables i' hi' hlt'
    · intro i' hi'
      rw [hother (by omega)]
      exact hc.kernel i' hi'
    · intro i' hi'
      by_cases he : i' = i
      · rw [he, hself, pte_zero]
      · rw [hother he]
        exact hi'.resolve_left he
  · simp only [hpres, Bool.not_false, if_true]
    refine ⟨s, rfl, hc, fun i' hi' => ?_⟩
    rcases hi' with rfl | hnone
    · rw [hword] at hpres
      exact if_neg (by simp [hpres])
    · exact hnone

theorem freeTables_child (hdir : mapNr toDir = d) :
    ∀ (is : List Nat) {s : PageAlloc}, (∀ i ∈ is, kpDirEntnum ≤ i ∧ i < 1024) →
      Child s0 F fromDir p d s → ∃ s', freeTables toDir is s = .ok s' ∧ Child s0 F fromDir p d s'
        ∧ ∀ i, (i ∈ is ∨ pte (s.mem d i) = none) → pte (s'.mem d i) = none := by
  intro is
  induction is with
  | nil =>
    intro s _ hc
    exact ⟨s, rfl, hc, fun i hi => by simpa using hi⟩
  | cons i is ih =>
    intro s his hc
    obtain ⟨hi, hlt⟩ := his i List.mem_cons_self
    obtain ⟨s1, hone, hc1, hclear1⟩ := freePageTable_child hc hdir hi hlt
    obtain ⟨s', hrest, hc', hclear⟩ := ih (fun i hi => his i (List.mem_cons_of_mem _ hi)) hc1
    refine ⟨s', ?_, hc', fun i' hi' => hclear i' ?_⟩
    · rw [freeTables, hone]
      exact hrest
    · rcases hi' with hi' | hnone
      · rcases List.mem_cons.mp hi' with rfl | hi'
        · exact .inr (hclear1 i' (.inl rfl))
        · exact .inl hi'
      · exact .inr (hclear1 i' (.inr hnone))

/-- `free_page_tables`, if it returns, leaves a child without tables. -/
theorem freePageTables_child {kpDir : Nat} (hc : Child s0 F fromDir p d s) (hdir : mapNr toDir = d)
    (h : freePageTables kpDir toDir kpDirEntnum userDirEntnum s = .ok s') :
    Child s0 F fromDir p d s' ∧ ∀ i t, ¬ TableAt d s'.mem i t := by
  have hrange (i : Nat) : i ∈ List.range' kpDirEntnum userDirEntnum
      ↔ kpDirEntnum ≤ i ∧ i < 1024 := by
    rw [List.mem_range'_1]
    have hsum : kpDirEntnum + userDirEntnum = 1024 := by decide
    rw [hsum]
  obtain ⟨s1, hfree, hc1, hclear⟩ :=
    freeTables_child hdir (List.range' kpDirEntnum userDirEntnum)
      (fun i hi => (hrange i).mp hi) hc
  unfold freePageTables at h
  split at h
  · cases h
  split at h
  · cases h
  rw [hfree] at h
  cases h
  refine ⟨hc1, fun i t ht => ?_⟩
  have hnone := hclear i (.inl ((hrange i).mpr ⟨ht.1, ht.2.1⟩))
  rw [ht.2.2] at hnone
  cases hnone

end Cnix.Mm
