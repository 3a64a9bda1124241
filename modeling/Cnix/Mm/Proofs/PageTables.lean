/-
A child's page tables while `fork` builds them.

The pages of the child are its process structure, its directory, the
tables the directory points to and the pages these map. `child p d mem`
reads them from the memory, one slot for each place that refers to a
page. `Child` says that these are all the references there are beyond
those of the state the call started in. Every store into the directory
or a table then changes one slot (`child_set_dir`, `child_set_entry`), and
every loop keeps `Child`.
-/
import Cnix.Mm.PageTables
import Cnix.Mm.Proofs.Pages
import Mathlib.Data.Fintype.Sigma
import Mathlib.Data.Fintype.Sum
import Mathlib.Tactic.DeriveFintype

namespace Cnix.Mm

open Lib
open BitVec (ofNat)
open PageAlloc
open Function (update update_self update_of_ne)

-- ======== words

/-- The frame an entry refers to. -/
def pte (w : BitVec 32) : Option Nat := if present w then some (frame w) else none

variable {w : BitVec 32}

theorem pte_eq_some {f : Nat} : pte w = some f ↔ present w = true ∧ frame w = f := by
  unfold pte
  split <;> simp [*]

theorem pte_zero : pte 0#32 = none := by decide

variable {n : Nat}

theorem toNat_page_or (hn : n < 2 ^ 20) (hw : w.toNat < 2 ^ 12) :
    (ofNat 32 (n * pageSize) ||| w).toNat = n * pageSize + w.toNat := by
  have hlt : n * pageSize < 2 ^ 32 := by
    unfold pageSize pageShift
    omega
  rw [BitVec.toNat_or, BitVec.toNat_ofNat, Nat.mod_eq_of_lt hlt, Nat.mul_comm]
  exact (Nat.two_pow_add_eq_or_of_lt hw n).symm

theorem frame_page_or (hn : n < 2 ^ 20) (hw : w.toNat < 2 ^ 12) :
    frame (ofNat 32 (n * pageSize) ||| w) = n := by
  unfold frame mapNr
  rw [toNat_page_or hn hw]
  unfold pageSize pageShift
  omega

theorem present_iff (w : BitVec 32) : present w = true ↔ w.toNat % 2 = 1 := by
  have hone : (w &&& 1#32).toNat = w.toNat % 2 := by
    exact Nat.and_one_is_mod _
  have hne : (w &&& 1#32) ≠ 0#32 ↔ (w &&& 1#32).toNat ≠ 0 := by
    rw [ne_eq, ← BitVec.toNat_inj]
    rfl
  unfold present
  rw [bne_iff_ne, hne, hone]
  omega

theorem present_page_or (hn : n < 2 ^ 20) (hw : w.toNat < 2 ^ 12) :
    present (ofNat 32 (n * pageSize) ||| w) = present w := by
  rw [Bool.eq_iff_iff, present_iff, present_iff, toNat_page_or hn hw]
  unfold pageSize pageShift
  omega

theorem toNat_and_seven (w : BitVec 32) : (w &&& 7#32).toNat = w.toNat % 8 := by
  exact Nat.and_two_pow_sub_one_eq_mod w.toNat 3

/-- A copied entry refers to the new page, with the permissions of the
old one. -/
theorem pte_copied (hn : n < 2 ^ 20) (hw : present w = true) :
    pte (ofNat 32 (n * pageSize) ||| (w &&& 7#32)) = some n := by
  have hlt : (w &&& 7#32).toNat < 2 ^ 12 := by
    rw [toNat_and_seven]
    omega
  rw [pte_eq_some, present_page_or hn hlt, frame_page_or hn hlt, present_iff, toNat_and_seven]
  rw [present_iff] at hw
  exact ⟨by omega, rfl⟩

-- ======== slots

/-- The places that refer to a page of the child. -/
inductive Slot
  | task
  | dir
  | table (i : Fin 1024)
  | entry (i j : Fin 1024)
  deriving DecidableEq, Fintype

/-- The references of a child with its structure in frame `p` and its
directory in frame `d`. -/
def child (p d : Nat) (mem : Nat → Nat → BitVec 32) : Slot → Option Nat
  | .task => some p
  | .dir => some d
  | .table i => if kpDirEntnum ≤ i.val then pte (mem d i) else none
  | .entry i j =>
    if kpDirEntnum ≤ i.val then (pte (mem d i)).bind fun t => pte (mem t j) else none

variable {p d : Nat} {mem mem' : Nat → Nat → BitVec 32}

/-- A user table of the child. -/
def TableAt (d : Nat) (mem : Nat → Nat → BitVec 32) (i t : Nat) : Prop :=
  kpDirEntnum ≤ i ∧ i < 1024 ∧ pte (mem d i) = some t

theorem child_table {i t : Nat} (h : TableAt d mem i t) :
    child p d mem (.table ⟨i, h.2.1⟩) = some t :=
  (if_pos h.1).trans h.2.2

/-- Words that are in no table do not matter. -/
theorem child_congr (hd : mem' d = mem d) (ht : ∀ i t, TableAt d mem i t → mem' t = mem t) :
    child p d mem' = child p d mem := by
  funext o
  cases o with
  | task | dir => rfl
  | table i => simp only [child, hd]
  | entry i j =>
    simp only [child, hd]
    split
    case isTrue hi =>
      cases hpte : pte (mem d i) with
      | none => rfl
      | some t => simp only [Option.bind_some, ht i t ⟨hi, i.isLt, hpte⟩]
    case isFalse => rfl

/-- A store into the directory, while neither the old table nor the new
one maps a page. -/
theorem child_set_dir (p d : Nat) (mem : Nat → Nat → BitVec 32) {i : Nat} (w : BitVec 32)
    (hi : kpDirEntnum ≤ i) (hlt : i < 1024) (hdir : ∀ i t, TableAt d mem i t → t ≠ d)
    (hold : ∀ j < 1024, (pte (mem d i)).bind (fun t => pte (mem t j)) = none)
    (hnew : ∀ j < 1024, (pte w).bind (fun t => pte (mem t j)) = none) (hwd : pte w ≠ some d) :
    child p d (update mem d (update (mem d) i w))
      = update (child p d mem) (.table ⟨i, hlt⟩) (pte w) := by
  funext o
  cases o with
  | task | dir => rfl
  | table i' =>
    by_cases he : i'.val = i
    · obtain rfl : i' = ⟨i, hlt⟩ := Fin.ext he
      simp [child, hi]
    · have hne : Slot.table i' ≠ .table ⟨i, hlt⟩ := by
        simpa [Fin.ext_iff] using he
      simp [child, update_of_ne he, update_of_ne hne]
  | entry i' j =>
    rw [update_of_ne (by simp)]
    simp only [child, update_self]
    split
    case isFalse => rfl
    case isTrue hi' =>
      by_cases he : i'.val = i
      · rw [he, hold j j.isLt, update_self]
        cases hw : pte w with
        | none => rfl
        | some t =>
          have htd : t ≠ d := fun htd => hwd (htd ▸ hw)
          have hj := hnew j j.isLt
          rw [hw] at hj
          simpa [update_of_ne htd] using hj
      · rw [update_of_ne he]
        cases hpte : pte (mem d i') with
        | none => rfl
        | some t =>
          have htd : t ≠ d := hdir i' t ⟨hi', i'.isLt, hpte⟩
          simp [update_of_ne htd]

/-- A store into a table. -/
theorem child_set_entry {i t j : Nat} (ht : TableAt d mem i t)
    (hj : j < 1024) (htd : t ≠ d) (hone : ∀ i', TableAt d mem i' t → i' = i) :
    child p d (update mem t (update (mem t) j w))
      = update (child p d mem) (.entry ⟨i, ht.2.1⟩ ⟨j, hj⟩) (pte w) := by
  have hd : update mem t (update (mem t) j w) d = mem d :=
    update_of_ne htd.symm _ _
  funext o
  cases o with
  | task | dir => rfl
  | table i' =>
    rw [update_of_ne (by simp)]
    simp only [child, hd]
  | entry i' j' =>
    by_cases he : i'.val = i
    · obtain rfl : i' = ⟨i, ht.2.1⟩ := Fin.ext he
      by_cases hj' : j'.val = j
      · obtain rfl : j' = ⟨j, hj⟩ := Fin.ext hj'
        simp [child, hd, ht.1, ht.2.2]
      · have hne : Slot.entry ⟨i, ht.2.1⟩ j' ≠ .entry ⟨i, ht.2.1⟩ ⟨j, hj⟩ := by
          simpa [Fin.ext_iff] using hj'
        rw [update_of_ne hne]
        simp [child, hd, ht.1, ht.2.2, update_of_ne hj']
    · have hne : Slot.entry i' j' ≠ .entry ⟨i, ht.2.1⟩ ⟨j, hj⟩ := by
        simp [Fin.ext_iff, he]
      rw [update_of_ne hne]
      simp only [child, hd]
      split
      case isFalse => rfl
      case isTrue hi' =>
        cases hpte : pte (mem d i') with
        | none => rfl
        | some t' =>
          have htt : t' ≠ t := fun h => he (hone i' ⟨hi', i'.isLt, h ▸ hpte⟩)
          simp [update_of_ne htt]

/-- A frame the child does not have is no table of it. -/
theorem child_fresh (hfresh : ∀ o, child p d mem o ≠ some n)
    (hrest : ∀ f, f ≠ n → mem' f = mem f) : child p d mem' = child p d mem := by
  refine child_congr (hrest d fun he => hfresh .dir (he ▸ rfl)) fun i t ht => hrest t ?_
  exact fun he => hfresh (.table ⟨i, ht.2.1⟩) (he ▸ child_table ht)

/-- A child without user tables. -/
theorem child_bare (h : ∀ i t, ¬ TableAt d mem i t) : child p d mem
      = update (update (fun _ => none) .task (some p)) .dir (some d) := by
  have hnone (i : Fin 1024) (hi : kpDirEntnum ≤ i.val) : pte (mem d i) = none := by
    cases hpte : pte (mem d i) with
    | none => rfl
    | some t => exact absurd ⟨hi, i.isLt, hpte⟩ (h i t)
  funext o
  cases o with
  | task | dir => rfl
  | table i =>
    simp only [child]
    split
    case isTrue hi => exact hnone i hi
    case isFalse => rfl
  | entry i j =>
    rw [update_of_ne (by simp), update_of_ne (by simp)]
    simp only [child]
    split
    case isTrue hi => rw [hnone i hi, Option.bind_none]
    case isFalse => rfl

-- ======== invariant

/-- The references of the child are all that is new since `s0`. Its tables
are pages of its own, and its kernel entries are those of the parent. -/
structure Child (s0 : PageAlloc) (F : Nat → Prop) (fromDir p d : Nat) (s : PageAlloc) :
    Prop where
  held : Held s0 F (child p d s.mem) s
  dir : F d
  tables : ∀ i, kpDirEntnum ≤ i → i < 1024 →
    s.mem d i = 0#32 ∨ ∃ t, pte (s.mem d i) = some t ∧ F t
  kernel : ∀ i, i < kpDirEntnum → s.mem d i = s0.mem (mapNr fromDir) i

namespace Child

variable {s0 s s' : PageAlloc} {F : Nat → Prop} {fromDir toDir : Nat} {i j t : Nat}

variable (hc : Child s0 F fromDir p d s)

include hc

theorem table_free (ht : TableAt d s.mem i t) : F t := by
  rcases hc.tables i ht.1 ht.2.1 with h0 | ⟨t', hpte, hF⟩
  · rw [TableAt, h0, pte_zero] at ht
    cases ht.2.2
  · rw [ht.2.2] at hpte
    exact Option.some.inj hpte ▸ hF

/-- A page of the child's own has one place. -/
theorem one {o o' : Slot} {f : Nat} (hF : F f)
    (ho : child p d s.mem o = some f) (ho' : child p d s.mem o' = some f) : o = o' := by
  obtain ⟨fl, free, -, hcust⟩ := hc.held.lists
  exact hcust.one hF ho ho'

theorem table_ne_dir (ht : TableAt d s.mem i t) : t ≠ d := by
  intro he
  have hdir : child p d s.mem .dir = some t := congrArg some he.symm
  cases hc.one (hc.table_free ht) (child_table ht) hdir

theorem table_one (ht : TableAt d s.mem i t) {i' : Nat}
    (ht' : TableAt d s.mem i' t) : i' = i := by
  have he := hc.one (hc.table_free ht) (child_table ht') (child_table ht)
  simpa using he

/-- A change that leaves the directory alone. -/
theorem of_dir_eq (held : Held s0 F (child p d s'.mem) s')
    (hd : s'.mem d = s.mem d) : Child s0 F fromDir p d s' where
  held := held
  dir := hc.dir
  tables := by
    rw [hd]
    exact hc.tables
  kernel := by
    rw [hd]
    exact hc.kernel

end Child

-- ======== copying

/-- The frame has another owner, and may be given back to it. -/
def InUse (s : PageAlloc) (F : Nat → Prop) (f : Nat) : Prop :=
  ¬ F f ∧ 0 < s.count f ∧ (s.flags f).testBit pageReserved = false

/-- What one round of the inner loop of `copy_mmap_pts` does. -/
theorem copyEntry_cases {flags fromPgTable toPgTable j : Nat} {s s' : PageAlloc} {more : Bool}
    (h : copyEntry flags fromPgTable toPgTable j s = .ok (more, s')) :
    (present (s.word fromPgTable j) = false ∧ more = true ∧ s' = s)
      ∨ present (s.word fromPgTable j) = true ∧ s.word toPgTable j = 0#32
        ∧ ((flags &&& mapShared ≠ 0 ∧ more = true
            ∧ s' = { s.setWord toPgTable j (s.word fromPgTable j) with
                count := update s.count (frame (s.word fromPgTable j))
                  (s.count (frame (s.word fromPgTable j)) + 1) })
          ∨ flags &&& mapShared = 0 ∧ ∃ page s1, getOnePage s = .ok (page, s1)
            ∧ (page = 0 ∧ more = false ∧ s' = s1
              ∨ page ≠ 0 ∧ more = true
                ∧ s' = (s1.copyPage page (pageMask (s.word fromPgTable j).toNat)).setWord
                    toPgTable j
                    (ofNat 32 page ||| (s.word fromPgTable j &&& 7#32)))) := by
  unfold copyEntry at h
  cases hpres : present (s.word fromPgTable j) with
  | false =>
    left
    simp only [hpres, Bool.not_false, if_true] at h
    cases h
    exact ⟨rfl, rfl, rfl⟩
  | true =>
    right
    simp only [hpres, Bool.not_true, Bool.false_eq_true, if_false] at h
    by_cases hzero : s.word toPgTable j = 0#32
    · rw [if_neg (not_not.mpr hzero)] at h
      refine ⟨rfl, hzero, ?_⟩
      by_cases hshared : flags &&& mapShared = 0
      · right
        rw [if_neg (not_not.mpr hshared)] at h
        refine ⟨hshared, ?_⟩
        obtain ⟨⟨page, s1⟩, hget, h⟩ := bind_returns h
        refine ⟨page, s1, hget, ?_⟩
        by_cases hpage : page = 0
        · left
          simp only [hpage, if_true] at h
          cases h
          exact ⟨hpage, rfl, rfl⟩
        · right
          simp only [hpage, if_false] at h
          cases h
          exact ⟨hpage, rfl, rfl⟩
      · left
        rw [if_pos hshared] at h
        cases h
        exact ⟨hshared, rfl, rfl⟩
    · rw [if_pos hzero] at h
      cases h

section Copying

variable {s0 s s' : PageAlloc} {F : Nat → Prop} {fromDir toDir fromPgTable toPgTable flags : Nat}
  {i j : Nat} {more : Bool}

/-- A store into a table of the child fills or empties one slot. -/
theorem Child.set_entry (hc : Child s0 F fromDir p d s) (ht : TableAt d s.mem i (mapNr toPgTable))
    (hj : j < 1024) (w : BitVec 32) : child p d (s.setWord toPgTable j w).mem
        = update (child p d s.mem) (.entry ⟨i, ht.2.1⟩ ⟨j, hj⟩) (pte w)
      ∧ (s.setWord toPgTable j w).mem d = s.mem d :=
  ⟨child_set_entry ht hj (hc.table_ne_dir ht) fun _ ht' => hc.table_one ht ht',
    update_of_ne (hc.table_ne_dir ht).symm _ _⟩

/-- The slot of an entry of a table. -/
theorem child_entry {t : Nat} (ht : TableAt d mem i t) (hj : j < 1024) :
    child p d mem (.entry ⟨i, ht.2.1⟩ ⟨j, hj⟩) = pte (mem t j) := by
  simp [child, ht.1, ht.2.2]

/-- A page is taken: the child's tables are where they were. -/
theorem Got.child {n : Nat} {s1 : PageAlloc} (hg : Got s0 F (child p d s.mem) s n s1) :
    n ≠ d ∧ (∀ i t, TableAt d s.mem i t → t ≠ n) ∧ s1.mem d = s.mem d
      ∧ child p d s1.mem = child p d s.mem := by
  have hnd : n ≠ d := fun he => hg.fresh .dir (congrArg some he.symm)
  refine ⟨hnd, fun i t ht he => ?_, hg.rest d hnd.symm, child_fresh hg.fresh hg.rest⟩
  exact hg.fresh (.table ⟨i, ht.2.1⟩) (he ▸ child_table ht)

theorem copyEntry_child (hf : FreeFrames s0 F) (hc : Child s0 F fromDir p d s)
    (ht : TableAt d s.mem i (mapNr toPgTable)) (hj : j < 1024) (hfrom : ¬ F (mapNr fromPgTable))
    (hpage : present (s0.word fromPgTable j) = true → InUse s0 F (frame (s0.word fromPgTable j)))
    (h : copyEntry flags fromPgTable toPgTable j s = .ok (more, s')) :
    Child s0 F fromDir p d s' ∧ s'.mem d = s.mem d := by
  have hword : s.word fromPgTable j = s0.word fromPgTable j :=
    congrFun (hc.held.kept _ hfrom) j
  have hFt : F (mapNr toPgTable) := hc.table_free ht
  rcases copyEntry_cases h with ⟨-, -, rfl⟩ | ⟨hpres, hzero, hcase⟩
  · exact ⟨hc, rfl⟩
  · have hnone : child p d s.mem (.entry ⟨i, ht.2.1⟩ ⟨j, hj⟩) = none := by
      rw [child_entry ht hj]
      exact (congrArg pte hzero).trans pte_zero
    rcases hcase with ⟨-, -, rfl⟩ | ⟨-, page, s1, hget, hcase⟩
    · -- a shared page: one more reference to it
      obtain ⟨hslot, hd⟩ := hc.set_entry ht hj (s.word fromPgTable j)
      obtain ⟨hused, hcount, husable⟩ := hpage (hword ▸ hpres)
      rw [← hword] at hused hcount husable
      refine ⟨hc.of_dir_eq ?_ hd, hd⟩
      have hpte : pte (s.word fromPgTable j) = some (frame (s.word fromPgTable j)) :=
        if_pos hpres
      rw [hpte] at hslot
      rw [hslot]
      exact (hc.held.write hFt _).share hused hcount husable hnone
    · rcases hc.held.get hf hget with ⟨rfl, rfl⟩ | ⟨n, rfl, hne, hg⟩
      · -- no page: nothing has changed
        rcases hcase with ⟨-, -, rfl⟩ | ⟨hne, -⟩
        · exact ⟨hc, rfl⟩
        · exact absurd rfl hne
      · rcases hcase with ⟨hzero, -⟩ | ⟨-, -, rfl⟩
        · exact absurd hzero hne
        · -- a page of the child's own
          obtain ⟨hnd, hnt, hd1, hchild1⟩ := hg.child
          let s2 := s1.copyPage (n * pageSize) (pageMask (s.word fromPgTable j).toNat)
          have hrest (f : Nat) (hfn : f ≠ n) : s2.mem f = s.mem f := by
            have hne : f ≠ mapNr (n * pageSize) := by rwa [mapNr_mul]
            exact (update_of_ne hne _ _).trans (hg.rest f hfn)
          have hd2 : s2.mem d = s.mem d := hrest d hnd.symm
          have hchild2 : child p d s2.mem = child p d s.mem := child_fresh hg.fresh hrest
          have ht2 : TableAt d s2.mem i (mapNr toPgTable) := by
            rw [TableAt, hd2]
            exact ht
          have hone (i' : Nat) (ht' : TableAt d s2.mem i' (mapNr toPgTable)) : i' = i := by
            rw [TableAt, hd2] at ht'
            exact hc.table_one ht ht'
          have hslot := child_set_entry (p := p) (w := ofNat 32 (n * pageSize)
            ||| (s.word fromPgTable j &&& 7#32)) ht2 hj (hc.table_ne_dir ht) hone
          rw [pte_copied (hf.bound hg.free) hpres, hchild2] at hslot
          have hd : (s2.setWord toPgTable j (ofNat 32 (n * pageSize)
              ||| (s.word fromPgTable j &&& 7#32))).mem d = s.mem d :=
            (update_of_ne (hc.table_ne_dir ht).symm _ _).trans hd2
          refine ⟨hc.of_dir_eq ?_ hd, hd⟩
          show Held s0 F (child p d (update s2.mem (mapNr toPgTable) _)) _
          rw [hslot]
          have hheld := hg.held _ hnone
          have hFn : F (mapNr (n * pageSize)) := by
            rw [mapNr_mul]
            exact hg.free
          exact (hheld.write hFn _).write hFt _

theorem copyEntries_child (hf : FreeFrames s0 F) (hfrom : ¬ F (mapNr fromPgTable)) :
    ∀ (js : List Nat) {s : PageAlloc}, Child s0 F fromDir p d s →
      TableAt d s.mem i (mapNr toPgTable) →
      (∀ j ∈ js, j < 1024 ∧ (present (s0.word fromPgTable j) = true →
        InUse s0 F (frame (s0.word fromPgTable j)))) →
      copyEntries flags fromPgTable toPgTable js s = .ok (more, s') →
      Child s0 F fromDir p d s' := by
  intro js
  induction js with
  | nil =>
    intro s hc _ _ h
    cases h
    exact hc
  | cons j js ih =>
    intro s hc ht hjs h
    obtain ⟨⟨more1, s1⟩, hone, h⟩ := bind_returns h
    obtain ⟨hj, hpage⟩ := hjs j List.mem_cons_self
    obtain ⟨hc1, hd⟩ := copyEntry_child hf hc ht hj hfrom hpage hone
    cases more1 with
    | false =>
      cases h
      exact hc1
    | true =>
      have ht1 : TableAt d s1.mem i (mapNr toPgTable) := by
        rw [TableAt, hd]
        exact ht
      exact ih hc1 ht1 (fun j hj => hjs j (List.mem_cons_of_mem _ hj)) h

/-- Copying a table onto itself ends at the first page it maps. -/
theorem copyEntries_self (hsame : mapNr toPgTable = mapNr fromPgTable) :
    ∀ js : List Nat, (∃ j ∈ js, present (s.word fromPgTable j) = true) →
      copyEntries flags fromPgTable toPgTable js s ≠ .ok (more, s') := by
  intro js
  induction js with
  | nil =>
    rintro ⟨j, hj, -⟩
    cases hj
  | cons j js ih =>
    intro hex h
    obtain ⟨⟨more1, s1⟩, hone, hnext⟩ := bind_returns h
    rcases copyEntry_cases hone with ⟨hpres, rfl, rfl⟩ | ⟨hpres, hzero, -⟩
    · refine ih ?_ hnext
      obtain ⟨j', hj', hpres'⟩ := hex
      rcases List.mem_cons.mp hj' with rfl | hj'
      · rw [hpres] at hpres'
        cases hpres'
      · exact ⟨j', hj', hpres'⟩
    · have hword : s.word fromPgTable j = 0#32 := by
        rw [← hzero, PageAlloc.word, PageAlloc.word, hsame]
      rw [hword] at hpres
      cases hpres

/-- The table for a user entry, an old one or a new one. -/
theorem pgTableOf_child {r : Option Nat} (hf : FreeFrames s0 F)
    (hc : Child s0 F fromDir p d s) (hdir : mapNr toDir = d) (hi : kpDirEntnum ≤ i)
    (hlt : i < 1024) (h : pgTableOf toDir i s = .ok (r, s')) :
    Child s0 F fromDir p d s' ∧ ∀ t, r = some t → TableAt d s'.mem i (mapNr t) := by
  have hword : s.word toDir i = s.mem d i := by rw [PageAlloc.word, hdir]
  unfold pgTableOf at h
  rw [hword] at h
  split at h
  case isTrue hzero =>
    obtain ⟨⟨page, s1⟩, hget, hret⟩ := bind_returns h
    rcases hc.held.get hf hget with ⟨rfl, rfl⟩ | ⟨n, rfl, hne, hg⟩
    · cases hret
      exact ⟨hc, by simp⟩
    · simp only [if_neg hne] at hret
      cases hret
      obtain ⟨hnd, hnt, hd1, hchild1⟩ := hg.child
      have hbound := hf.bound hg.free
      have hpte : pte (ofNat 32 (n * pageSize) ||| 7#32) = some n := by
        refine pte_eq_some.mpr ⟨?_, frame_page_or hbound (by decide)⟩
        rw [present_page_or hbound (by decide)]
        decide
      have hmem : (s1.setWord toDir i (ofNat 32 (n * pageSize) ||| 7#32)).mem
          = update s1.mem d
              (update (s1.mem d) i (ofNat 32 (n * pageSize) ||| 7#32)) := by
        rw [PageAlloc.setWord, hdir]
      have hentry : (s1.setWord toDir i (ofNat 32 (n * pageSize) ||| 7#32)).mem d i
          = ofNat 32 (n * pageSize) ||| 7#32 := by
        rw [hmem, update_self, update_self]
      have hother {i' : Nat} (hne : i' ≠ i) :
          (s1.setWord toDir i (ofNat 32 (n * pageSize) ||| 7#32)).mem d i'
            = s.mem d i' := by
        rw [hmem, update_self, update_of_ne hne, hd1]
      -- the new table is clear, and there was none before
      have hslot := child_set_dir p d s1.mem (ofNat 32 (n * pageSize) ||| 7#32) hi hlt
        (fun i t ht => hc.table_ne_dir (by rwa [TableAt, hd1] at ht))
        (fun j _ => by rw [hd1, hzero, pte_zero, Option.bind_none])
        (fun j _ => by rw [hpte, Option.bind_some, hg.clear, pte_zero])
        (fun he => hnd (Option.some.inj (hpte.symm.trans he)))
      rw [hpte, hchild1] at hslot
      have hnone : child p d s.mem (.table ⟨i, hlt⟩) = none := by
        simp [child, hi, hzero, pte_zero]
      refine ⟨⟨?_, hc.dir, fun i' hi' hlt' => ?_, fun i' hi' => ?_⟩, ?_⟩
      · rw [hmem, hslot]
        have hFd : F (mapNr toDir) := hdir ▸ hc.dir
        exact (hg.held _ hnone).write hFd _
      · by_cases he : i' = i
        · right
          rw [he, hentry]
          exact ⟨n, hpte, hg.free⟩
        · rw [hother he]
          exact hc.tables i' hi' hlt'
      · rw [hother (by omega)]
        exact hc.kernel i' hi'
      · intro t he
        cases he
        rw [TableAt, hentry, mapNr_mul]
        exact ⟨hi, hlt, hpte⟩
  case isFalse hne =>
    cases h
    refine ⟨hc, fun t he => ?_⟩
    cases he
    rcases hc.tables i hi hlt with h0 | ⟨t, hpte, -⟩
    · exact absurd h0 hne
    · rw [mapNr_pageMask]
      exact ⟨hi, hlt, by rw [hpte, ← (pte_eq_some.mp hpte).2, frame]⟩

end Copying

end Cnix.Mm
