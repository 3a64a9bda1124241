/-
Open-file accounting: the count of an entry of the file table is the
number of descriptors of live processes that point to it, and the inode of
an entry goes to `iput` once for each time the entry was taken, when its
last descriptor goes.

# The argument

`Accounted` is kept by three steps: an entry is taken for a free
descriptor, a descriptor is made to point to an entry that is in use, a
descriptor is closed. Every call is made of these, but for `fork`, which
raises the counts first and copies a whole row of descriptors then.
-/
import Cnix.Lib.Tally
import Cnix.Fs.Filps

namespace Cnix.Fs

open Lib
open Function (update update_of_ne)

namespace FileTable

variable {tb : FileTable} {pid fd i : Nat} {f : Fds} {fp : Option Nat}

-- ======== descriptors

/-- The descriptors of live processes that point to entry `i`. -/
def users (tb : FileTable) (i : Nat) : Finset (Nat × Nat) :=
  (Finset.range nrTasks ×ˢ Finset.range openMax).filter fun x => tb.file x.1 x.2 = some i

/-- How many descriptors of one process point to entry `i`. -/
def row (i : Nat) (f : Option Fds) : Nat :=
  tally (Finset.range openMax) (fun fd => f.bind fun f => f.file fd) i

/-- How many descriptors point to entry `i`. -/
def uses (tb : FileTable) (i : Nat) : Nat := ∑ p ∈ Finset.range nrTasks, row i (tb.fds p)

theorem card_users (tb : FileTable) (i : Nat) : (tb.users i).card = tb.uses i :=
  card_places _ _ _ _

theorem uses_pos (hpid : pid < nrTasks) (hfd : fd < openMax)
    (h : tb.file pid fd = some i) : 0 < tb.uses i := by
  rw [← card_users]
  apply Finset.card_pos.mpr
  exact ⟨(pid, fd), by simp [users, hpid, hfd, h]⟩

/-- Writing a descriptor moves the numbers of the entry that comes and of
the one that goes. -/
theorem uses_setFile (hpid : pid < nrTasks) (hfd : fd < openMax)
    (hlive : tb.fds pid = some f) (fp : Option Nat) (i : Nat) :
    (tb.setFile pid fd fp).uses i + holds i (tb.file pid fd) = tb.uses i + holds i fp := by
  have htask := sum_weight_update (Finset.mem_range.mpr hpid) tb.fds
    (some { f with file := update f.file fd fp }) (row i)
  have hrow : row i (some { f with file := update f.file fd fp })
      + holds i (f.file fd) = row i (tb.fds pid) + holds i fp := by
    rw [hlive]
    exact tally_update (Finset.mem_range.mpr hfd) f.file fp i
  have hnew : (tb.setFile pid fd fp).uses i = ∑ p ∈ Finset.range nrTasks, row i
      (update tb.fds pid (some { f with file := update f.file fd fp }) p) := by
    simp [uses, setFile, hlive]
  have hold : tb.file pid fd = f.file fd := by simp [file, hlive]
  rw [hnew, hold]
  unfold uses
  omega

/-- The flags of a descriptor do not count. -/
theorem uses_setCloexec (flag : Bool) (i : Nat) :
    (tb.setCloexec pid fd flag).uses i = tb.uses i := by
  apply Finset.sum_congr rfl
  intro p _
  by_cases hp : p = pid
  · subst hp
    cases hlive : tb.fds p <;> simp [setCloexec, row, hlive]
  · simp [setCloexec, update_of_ne hp]

theorem file_setFile (hlive : tb.fds pid = some f)
    (j : Nat) : (tb.setFile pid fd fp).file pid j = if j = fd then fp else tb.file pid j := by
  by_cases hj : j = fd <;> simp [file, setFile, hlive, hj]

-- ======== the invariant

/-- Is entry `i` open for `inoptr`? -/
def holding (tb : FileTable) (i : Nat) (inoptr : Handle) : Nat :=
  if (tb.filps i).count ≠ 0 ∧ (tb.filps i).ino = inoptr then 1 else 0

/-- Counts and descriptors agree, and so do entries taken, inodes given
back and entries in use. -/
structure Accounted (tb : FileTable) : Prop where
  live : ∀ p, tb.fds p ≠ none → p < nrTasks
  count : ∀ i, (tb.filps i).count = tb.uses i
  once : ∀ i h, tb.opened.count (i, h) = tb.put.count (i, h) + tb.holding i h

theorem accounted_init (ino : Handle) : Accounted (initFilp ino) where
  live := by
    intro p hp
    by_contra hlt
    apply hp
    have hne : p ≠ 0 := by
      rintro rfl
      exact hlt (by decide)
    simp [initFilp, update_of_ne hne]
  count := by
    intro i
    symm
    apply Finset.sum_eq_zero
    intro p _
    apply tally_none
    by_cases hp : p = 0
    · subst hp
      simp [initFilp]
    · simp [initFilp, update_of_ne hp]
  once := by
    simp [initFilp, holding]

theorem Accounted.setCloexec (h : Accounted tb) (pid fd : Nat) (flag : Bool) :
    Accounted (tb.setCloexec pid fd flag) where
  live := by
    intro p hp
    by_cases hpid : p = pid
    · subst hpid
      apply h.live
      intro hnone
      simp [FileTable.setCloexec, hnone] at hp
    · exact h.live p (by simpa [FileTable.setCloexec, update_of_ne hpid] using hp)
  count := fun i => (h.count i).trans (uses_setCloexec flag i).symm
  once := h.once

theorem live_setFile (hlive : tb.fds pid = some f)
    (h : ∀ p, tb.fds p ≠ none → p < nrTasks) (p : Nat)
    (hp : (tb.setFile pid fd fp).fds p ≠ none) : p < nrTasks := by
  by_cases hpid : p = pid
  · subst hpid
    exact h p (by simp [hlive])
  · exact h p (by simpa [setFile, update_of_ne hpid] using hp)

-- ======== the three steps

theorem count_setFilp (i : Nat) (fp : Filp) (j : Nat) :
    ((tb.setFilp i fp).filps j).count = if j = i then fp.count else (tb.filps j).count := by
  by_cases hj : j = i <;> simp [setFilp, hj]

/-- What `ffree` does to an entry in use. -/
theorem ffree_filps (i e : Nat) : ((tb.ffree i).filps e).count =
    if e = i then (tb.filps i).count - 1 else (tb.filps e).count := by
  unfold ffree
  dsimp only
  split <;> exact count_setFilp i _ e

theorem fds_ffree (i : Nat) : (tb.ffree i).fds = tb.fds := by
  unfold ffree
  dsimp only
  split <;> rfl

theorem file_ffree (i pid fd : Nat) : (tb.ffree i).file pid fd = tb.file pid fd := by
  unfold file
  rw [fds_ffree]

theorem uses_ffree (i e : Nat) : (tb.ffree i).uses e = tb.uses e := by
  unfold uses
  rw [fds_ffree]

/-- `ffree` gives the inode to `iput` when the entry is free then. -/
theorem ffree_once (hused : (tb.filps i).count ≠ 0) (e : Nat) (inoptr : Handle) :
    (tb.ffree i).opened = tb.opened ∧
      (tb.ffree i).put.count (e, inoptr) + (tb.ffree i).holding e inoptr
        = tb.put.count (e, inoptr) + tb.holding e inoptr := by
  unfold ffree
  by_cases hlast : (tb.filps i).count - 1 = 0
  · rw [if_pos hlast]
    by_cases he : e = i
    · subst he
      by_cases hino : (tb.filps e).ino = inoptr
      · simp [holding, setFilp, hlast, hused, hino]
      · simp [holding, setFilp, hlast, hino]
    · simp [holding, setFilp, he, Ne.symm he]
  · rw [if_neg hlast]
    by_cases he : e = i
    · subst he
      simp [holding, setFilp, hlast, hused]
    · simp [holding, setFilp, he]

/-- The entry `get_filp` finds is free. -/
theorem getFilp_free (h : tb.getFilp = some i) : i < nrFilp ∧ (tb.filps i).count = 0 := by
  have hmem := List.mem_of_find?_eq_some h
  obtain ⟨k, _, rfl⟩ := List.mem_map.mp hmem
  have hfree := List.find?_some h
  exact ⟨Nat.mod_lt _ (by decide), by simpa using hfree⟩

/-- `get_filp` looks at every entry. -/
theorem getFilp_full (h : tb.getFilp = none) (hi : i < nrFilp) : (tb.filps i).count ≠ 0 := by
  have hall := List.find?_eq_none.mp h
  -- the entry is met `i - from_filp` steps behind `from_filp`, modulo the size
  have hmem : i ∈ (List.range nrFilp).map fun k => (tb.fromFilp + k) % nrFilp := by
    apply List.mem_map.mpr
    refine ⟨(i + (nrFilp - tb.fromFilp % nrFilp)) % nrFilp,
      List.mem_range.mpr (Nat.mod_lt _ (by decide)), ?_⟩
    unfold nrFilp at hi ⊢
    omega
  have hne := hall i hmem
  simpa using hne

theorem fds_doClose (hlive : tb.fds pid = some f) (fd : Nat) :
    ∃ f', (tb.doClose pid fd).fds pid = some f' := by
  unfold FileTable.doClose
  cases tb.file pid fd with
  | none => exact ⟨f, hlive⟩
  | some i =>
    simp [setFile, fds_ffree, hlive]

/-- Closing one descriptor leaves the others of the process. -/
theorem file_doClose (hlive : tb.fds pid = some f) (j : Nat) :
    (tb.doClose pid fd).file pid j = if j = fd then none else tb.file pid j := by
  unfold FileTable.doClose
  cases hi : tb.file pid fd with
  | none =>
    by_cases hj : j = fd
    · simp [hj, hi]
    · simp [hj]
  | some i =>
    have hlive' : (tb.ffree i).fds pid = some f := by rw [fds_ffree, hlive]
    rw [file_setFile hlive', file_ffree]

section Live

variable (h : Accounted tb) (hlive : tb.fds pid = some f)

include h hlive

theorem Accounted.lt : pid < nrTasks := h.live pid (by simp [hlive])

/-- An entry that a descriptor points to is in use. -/
theorem Accounted.used (hfd : fd < openMax) (hi : tb.file pid fd = some i) :
    (tb.filps i).count ≠ 0 := by
  have hpos := uses_pos (h.lt hlive) hfd hi
  rw [h.count]
  omega

/-- A free descriptor is made to point to an entry in use. -/
theorem Accounted.point {j : Nat} (hj : j < openMax) (hfree : tb.file pid j = none)
    (hused : (tb.filps i).count ≠ 0) : Accounted ((tb.setFile pid j (some i)).fuse i) where
  live := live_setFile hlive h.live
  count := by
    intro e
    have huses := uses_setFile (h.lt hlive) hj hlive (some i) e
    rw [hfree, holds_none, holds_some] at huses
    have hcount := h.count e
    show ((tb.fuse i).filps e).count = (tb.setFile pid j (some i)).uses e
    rw [FileTable.fuse, count_setFilp]
    split_ifs at huses ⊢ with he
    · rw [he] at hcount huses ⊢
      dsimp only
      omega
    · omega
  once := by
    intro e inoptr
    have honce := h.once e inoptr
    have hsame : ((tb.setFile pid j (some i)).fuse i).holding e inoptr = tb.holding e inoptr := by
      by_cases he : e = i
      · subst he
        simp [holding, fuse, setFilp, setFile, hused]
      · simp [holding, fuse, setFilp, setFile, he]
    rw [hsame]
    exact honce

/-- An open descriptor is closed. -/
theorem Accounted.doClose (hfd : fd < openMax) : Accounted (tb.doClose pid fd) := by
  unfold FileTable.doClose
  cases hi : tb.file pid fd with
  | none => exact h
  | some i =>
    show Accounted ((tb.ffree i).setFile pid fd none)
    have hlive' : (tb.ffree i).fds pid = some f := by rw [fds_ffree, hlive]
    have hused := h.used hlive hfd hi
    refine ⟨live_setFile hlive' (by rw [fds_ffree]; exact h.live), ?_, ?_⟩
    · intro e
      have huses := uses_setFile (h.lt hlive) hfd hlive' none e
      rw [file_ffree, hi, uses_ffree, holds_none, holds_some] at huses
      have hcount := h.count e
      rw [show ((tb.ffree i).setFile pid fd none).filps e = (tb.ffree i).filps e from rfl,
        ffree_filps]
      split_ifs at huses ⊢ with he
      · rw [he] at hcount huses ⊢
        omega
      · omega
    · intro e inoptr
      obtain ⟨hopened, hput⟩ := ffree_once hused e inoptr
      have honce := h.once e inoptr
      show (tb.ffree i).opened.count (e, inoptr) = (tb.ffree i).put.count (e, inoptr)
        + (tb.ffree i).holding e inoptr
      rw [hopened, hput, honce]

/-- `fdget` takes a free entry for a free descriptor, or does nothing. -/
theorem Accounted.fdget (mode : Nat) (inoptr : Handle) : Accounted (tb.fdget pid mode inoptr).2 := by
  unfold FileTable.fdget
  split
  next => exact h
  next fd hfd =>
    have hlt : fd < openMax := List.mem_range.mp (List.mem_of_find?_eq_some hfd)
    have hnone : tb.file pid fd = none := by simpa using List.find?_some hfd
    split
    next => exact h
    next i hi =>
      obtain ⟨-, hzero⟩ := getFilp_free hi
      apply Accounted.setCloexec
      refine ⟨live_setFile hlive h.live, ?_, ?_⟩
      · intro e
        have huses := uses_setFile (h.lt hlive) hlt hlive (some i) e
        rw [hnone, holds_none, holds_some] at huses
        have hcount := h.count e
        show ((tb.setFilp i ⟨1, mode, inoptr, 0⟩).filps e).count = (tb.setFile pid fd (some i)).uses e
        rw [count_setFilp]
        split_ifs at huses ⊢ with he
        · rw [he] at hcount huses ⊢
          dsimp only
          omega
        · omega
      · intro e ino
        have honce := h.once e ino
        by_cases he : e = i
        · subst he
          by_cases hino : inoptr = ino
          · subst hino
            simp [holding, setFilp, setFile, hzero] at honce ⊢
            omega
          · simp [holding, setFilp, setFile, hzero, hino] at honce ⊢
            exact honce
        · simp [holding, setFilp, setFile, he, Ne.symm he] at honce ⊢
          exact honce

-- ======== the calls

theorem Accounted.doDup0 (startfd fd : Nat) : Accounted (tb.doDup0 pid startfd fd).2 := by
  unfold FileTable.doDup0
  split
  next => exact h
  next hlimit =>
    have hfd : fd < openMax := by omega
    split
    next => exact h
    next i hi =>
      dsimp only
      split
      next => exact h
      next j hj =>
        obtain ⟨k, _, rfl⟩ := List.mem_map.mp (List.mem_of_find?_eq_some hj)
        have hfree : tb.file pid ((startfd + k) % openMax) = none := by
          simpa using List.find?_some hj
        apply Accounted.setCloexec
        exact h.point hlive (Nat.mod_lt _ (by decide)) hfree (h.used hlive hfd hi)

theorem Accounted.sysFcntl (request : Fcntl) (data : Nat) :
    Accounted (tb.sysFcntl pid fd request data).2 := by
  unfold FileTable.sysFcntl
  split
  · exact h
  split
  · exact h
  split
  · exact h
  cases request with
  | dupfd =>
    have hdup := h.doDup0 hlive data fd
    dsimp only
    generalize tb.doDup0 pid data fd = r at hdup
    obtain ⟨_ | j, tb'⟩ := r
    · exact hdup
    · exact hdup.setCloexec pid j false
  | getfd | ignored | unknown => exact h
  | setfd => exact h.setCloexec pid fd _

theorem Accounted.doDup2 (oldfd newfd : Nat) : Accounted (tb.doDup2 pid oldfd newfd).2 := by
  unfold FileTable.doDup2
  split
  next => exact h
  next hlimit =>
    split
    next => exact h
    next hne =>
      split
      next => exact h
      next i hi =>
        have hold : oldfd < openMax := by omega
        have hnew : newfd < openMax := by omega
        obtain ⟨f', hlive'⟩ := fds_doClose hlive newfd
        have hclosed := h.doClose hlive hnew
        have hfree : (tb.doClose pid newfd).file pid newfd = none := by
          rw [file_doClose hlive, if_pos rfl]
        have hkept : (tb.doClose pid newfd).file pid oldfd = some i := by
          rw [file_doClose hlive, if_neg hne, hi]
        have hused := hclosed.used hlive' hold hkept
        -- the flags are set before the descriptor here
        dsimp only
        generalize tb.doClose pid newfd = tb' at *
        generalize tb'.cloexec pid oldfd = flag
        have hflags := hclosed.setCloexec pid newfd flag
        have hlive'' : (tb'.setCloexec pid newfd flag).fds pid
            = some { f' with cloexec := update f'.cloexec newfd flag } := by
          simp [FileTable.setCloexec, hlive']
        have hfree' : (tb'.setCloexec pid newfd flag).file pid newfd = none := by
          simpa [file, hlive', hlive''] using hfree
        exact hflags.point hlive'' hnew hfree' hused

end Live

/-- The loops of `execve` and `exit`, and what they leave open. -/
theorem Accounted.closeAll (pid : Nat) (which : FileTable → Nat → Bool) (fds : List Nat) :
    ∀ {tb : FileTable} {f : Fds}, Accounted tb → tb.fds pid = some f → (∀ fd ∈ fds, fd < openMax) →
      Accounted (tb.closeAll pid which fds) ∧ ∃ f', (tb.closeAll pid which fds).fds pid = some f' := by
  induction fds with
  | nil => exact fun h hlive _ => ⟨h, _, hlive⟩
  | cons fd fds ih =>
    intro tb f h hlive hlt
    unfold FileTable.closeAll
    rw [List.foldl_cons]
    by_cases hopen : ((tb.file pid fd).isSome && which tb fd) = true
    · rw [if_pos hopen]
      obtain ⟨f', hlive'⟩ := fds_doClose hlive fd
      exact ih (h.doClose hlive (hlt fd List.mem_cons_self)) hlive'
        fun j hj => hlt j (List.mem_cons_of_mem _ hj)
    · rw [if_neg hopen]
      exact ih h hlive fun j hj => hlt j (List.mem_cons_of_mem _ hj)

/-- `exit` closes every descriptor it comes to, and opens none. -/
theorem closeAll_none (fds : List Nat) (j : Nat) : ∀ {tb : FileTable} {f : Fds},
    tb.fds pid = some f → (j ∈ fds ∨ tb.file pid j = none) →
      (tb.closeAll pid (fun _ _ => true) fds).file pid j = none := by
  induction fds with
  | nil =>
    simp [closeAll]
  | cons fd fds ih =>
    intro tb f hlive hj
    unfold closeAll
    rw [List.foldl_cons]
    by_cases hopen : ((tb.file pid fd).isSome && true) = true
    · rw [if_pos hopen]
      obtain ⟨f', hlive'⟩ := fds_doClose hlive fd
      apply ih hlive'
      rw [file_doClose hlive]
      by_cases hfd : j = fd
      · exact .inr (by rw [if_pos hfd])
      · rw [if_neg hfd]
        exact hj.imp_left fun hmem => (List.mem_cons.mp hmem).resolve_left hfd
    · rw [if_neg hopen]
      apply ih hlive
      have hnone : tb.file pid fd = none := by simpa using hopen
      rcases hj with hmem | hj
      · rcases List.mem_cons.mp hmem with rfl | hmem
        · exact .inr hnone
        · exact .inl hmem
      · exact .inr hj

theorem Accounted.execve (h : Accounted tb) (hlive : tb.fds pid = some f) :
    Accounted (tb.execve pid) := by
  apply (Accounted.closeAll pid _ _ h hlive _).1
  intro fd hfd
  have hrange := List.mem_range'_1.mp hfd
  omega

theorem Accounted.exit (h : Accounted tb) (hlive : tb.fds pid = some f) :
    Accounted (tb.exit pid) := by
  obtain ⟨hall, f', hlive'⟩ := Accounted.closeAll pid (fun _ _ => true) (List.range openMax) h hlive
    fun fd hfd => List.mem_range.mp hfd
  have hnone : ∀ fd ∈ Finset.range openMax,
      (tb.closeAll pid (fun _ _ => true) (List.range openMax)).file pid fd = none := by
    intro fd hfd
    exact closeAll_none _ fd hlive (.inl (List.mem_range.mpr (Finset.mem_range.mp hfd)))
  unfold FileTable.exit
  generalize tb.closeAll pid (fun _ _ => true) (List.range openMax) = tb' at *
  refine ⟨?_, ?_, hall.once⟩
  · intro p hp
    by_cases hpid : p = pid
    · subst hpid
      exact hall.lt hlive'
    · exact hall.live p (by simpa [update_of_ne hpid] using hp)
  · intro i
    -- the row that goes is empty
    have hrow := sum_weight_update (Finset.mem_range.mpr (hall.lt hlive')) tb'.fds none (row i)
    have hold : row i (tb'.fds pid) = 0 := tally_none hnone i
    have hnew : row i none = 0 := tally_none (fun _ _ => rfl) i
    have hcount := hall.count i
    unfold uses at hcount ⊢
    dsimp only
    omega

-- ======== fork

/-- What the loop of `copy_process` does after `n` rounds: the counts go up
by what the row has there. -/
theorem fuseAll_spec (pid n : Nat) : (tb.fuseAll pid (List.range n)).fds = tb.fds ∧
      (tb.fuseAll pid (List.range n)).opened = tb.opened ∧
      (tb.fuseAll pid (List.range n)).put = tb.put ∧
      ∀ i, ((tb.fuseAll pid (List.range n)).filps i).ino = (tb.filps i).ino ∧
        ((tb.fuseAll pid (List.range n)).filps i).count
          = (tb.filps i).count + tally (Finset.range n) (tb.file pid) i := by
  induction n with
  | zero => exact ⟨rfl, rfl, rfl, fun i => ⟨rfl, by simp [fuseAll, tally]⟩⟩
  | succ n ih =>
    have hstep : tb.fuseAll pid (List.range (n + 1))
        = (tb.fuseAll pid (List.range n)).fuseFile pid n := by
      simp only [fuseAll, List.range_succ, List.foldl_append, List.foldl_cons, List.foldl_nil]
    rw [hstep, fuseFile]
    generalize tb.fuseAll pid (List.range n) = tb' at *
    obtain ⟨hfds, hopened, hput, hfilps⟩ := ih
    have hfile : tb'.file pid n = tb.file pid n := by simp only [file, hfds]
    rw [hfile]
    have htally : ∀ i, tally (Finset.range (n + 1)) (tb.file pid) i
        = tally (Finset.range n) (tb.file pid) i + holds i (tb.file pid n) :=
      fun i => Finset.sum_range_succ _ _
    cases hn : tb.file pid n with
    | none =>
      refine ⟨hfds, hopened, hput, fun i => ⟨(hfilps i).1, ?_⟩⟩
      rw [htally, hn, holds_none]
      exact (hfilps i).2
    | some j =>
      refine ⟨hfds, hopened, hput, fun i => ?_⟩
      obtain ⟨hino, hcount⟩ := hfilps i
      rw [htally, hn]
      by_cases hi : i = j
      · subst hi
        simp [fuse, setFilp, hino, hcount, holds]
        omega
      · simp [fuse, setFilp, hi, hino, hcount, holds, Ne.symm hi]

theorem Accounted.fork (h : Accounted tb) {nr : Nat} (hlive : tb.fds pid = some f)
    (hnr : nr < nrTasks) (hempty : tb.fds nr = none) : Accounted (tb.fork pid nr) := by
  obtain ⟨hfds, hopened, hput, hfilps⟩ := fuseAll_spec pid openMax
  unfold FileTable.fork
  dsimp only
  generalize tb.fuseAll pid (List.range openMax) = tb' at *
  refine ⟨?_, ?_, ?_⟩
  · intro p hp
    by_cases hpn : p = nr
    · omega
    · exact h.live p (by simpa [update_of_ne hpn, hfds] using hp)
  · intro i
    have hrow := sum_weight_update (Finset.mem_range.mpr hnr) tb.fds (tb.fds pid) (row i)
    have hnone : row i (tb.fds nr) = 0 := by
      rw [hempty]
      exact tally_none (fun _ _ => rfl) i
    have hcopy : row i (tb.fds pid) = tally (Finset.range openMax) (tb.file pid) i := rfl
    have hcount := h.count i
    obtain ⟨-, hfuse⟩ := hfilps i
    unfold uses at hcount ⊢
    rw [hfds]
    dsimp only
    omega
  · intro i inoptr
    obtain ⟨hino, hfuse⟩ := hfilps i
    have honce := h.once i inoptr
    rw [hopened, hput, honce]
    -- a count of 0 has no descriptor, so nothing was added to it
    have hzero : (tb'.filps i).count = 0 ↔ (tb.filps i).count = 0 := by
      constructor
      · omega
      · have hle : tally (Finset.range openMax) (tb.file pid) i ≤ tb.uses i :=
          Finset.single_le_sum (f := fun p => row i (tb.fds p)) (fun _ _ => Nat.zero_le _)
            (Finset.mem_range.mpr (h.lt hlive))
        have hcount := h.count i
        omega
    simp only [holding, hino, ne_eq, hzero]

-- ======== runs

end FileTable

/-- A call that changes descriptors, by the process `pid`. -/
inductive FilpCall
  | open (pid mode : Nat) (inoptr : Handle)
  | dup (pid startfd fd : Nat)
  | dup2 (pid oldfd newfd : Nat)
  | fcntl (pid fd : Nat) (request : FileTable.Fcntl) (data : Nat)
  | pipe (pid : Nat) (inoptr : Handle)
  | fork (pid nr : Nat)
  | close (pid fd : Nat)
  | execve (pid : Nat)
  | exit (pid : Nat)

/-- The process that calls. -/
def FilpCall.pid : FilpCall → Nat
  | .open pid .. | .dup pid .. | .dup2 pid .. | .fcntl pid .. | .pipe pid _ | .fork pid _
  | .close pid _ | .execve pid | .exit pid => pid

namespace FileTable

/-- The table after a call. -/
def call (tb : FileTable) : FilpCall → FileTable
  | .open pid mode inoptr => (tb.fdget pid mode inoptr).2
  | .dup pid startfd fd => (tb.doDup0 pid startfd fd).2
  | .dup2 pid oldfd newfd => (tb.doDup2 pid oldfd newfd).2
  | .fcntl pid fd request data => (tb.sysFcntl pid fd request data).2
  | .pipe pid inoptr => (tb.doPipe pid inoptr).2
  | .fork pid nr => tb.fork pid nr
  | .close pid fd => (tb.sysClose pid fd).2
  | .execve pid => tb.execve pid
  | .exit pid => tb.exit pid

/-- `do_pipe` gets its first descriptor and not its second. -/
def pipeHalfWay (tb : FileTable) (pid : Nat) (inoptr : Handle) : Bool :=
  match tb.fdget pid 0 inoptr with
  | (.error _, _) => false
  | (.ok _, tb) =>
    match (tb.fdget pid 1 inoptr).1 with
    | .error _ => true
    | .ok _ => false

/-- The calls that happen: a live process calls, `fork` has found a free
number, and `pipe` does not fail half way. -/
def Happens (tb : FileTable) (c : FilpCall) : Prop :=
  tb.fds c.pid ≠ none ∧
    match c with
    | .fork _ nr => nr < nrTasks ∧ tb.fds nr = none
    | .pipe pid inoptr => tb.pipeHalfWay pid inoptr = false
    | _ => True

variable {tb : FileTable}

theorem fds_fdget {pid : Nat} {f : Fds} (hlive : tb.fds pid = some f) (mode : Nat)
    (inoptr : Handle) : ∃ f', (tb.fdget pid mode inoptr).2.fds pid = some f' := by
  unfold FileTable.fdget
  split
  next => exact ⟨f, hlive⟩
  next fd _ =>
    split
    next => exact ⟨f, hlive⟩
    next i _ =>
      simp [setCloexec, setFile, setFilp, hlive]

theorem Accounted.doPipe (h : Accounted tb) {pid : Nat} {f : Fds} (hlive : tb.fds pid = some f)
    {inoptr : Handle} (hhalf : tb.pipeHalfWay pid inoptr = false) :
    Accounted (tb.doPipe pid inoptr).2 := by
  have hfirst := h.fdget hlive 0 inoptr
  obtain ⟨f', hlive'⟩ := fds_fdget hlive 0 inoptr
  unfold FileTable.doPipe
  unfold pipeHalfWay at hhalf
  generalize tb.fdget pid 0 inoptr = first at *
  obtain ⟨_ | fd0, tb'⟩ := first
  · exact hfirst
  · have hsecond := hfirst.fdget hlive' 1 inoptr
    dsimp only at hhalf hsecond ⊢
    generalize tb'.fdget pid 1 inoptr = second at *
    obtain ⟨_ | fd1, tb''⟩ := second
    · simp at hhalf
    · exact hsecond

/-- Every call keeps the accounts. -/
theorem Accounted.call (h : Accounted tb) {c : FilpCall} (hc : tb.Happens c) :
    Accounted (tb.call c) := by
  obtain ⟨hlive, hc⟩ := hc
  obtain ⟨f, hlive⟩ := Option.ne_none_iff_exists'.mp hlive
  cases c with
  | «open» pid mode inoptr => exact h.fdget hlive mode inoptr
  | dup pid startfd fd => exact h.doDup0 hlive startfd fd
  | dup2 pid oldfd newfd => exact h.doDup2 hlive oldfd newfd
  | fcntl pid fd request data => exact h.sysFcntl hlive request data
  | pipe pid inoptr => exact h.doPipe hlive hc
  | fork pid nr => exact h.fork hlive hc.1 hc.2
  | close pid fd =>
    unfold FileTable.call sysClose
    dsimp only
    split
    next => exact h
    next hlimit =>
      split
      next => exact h
      next => exact h.doClose hlive (by omega)
  | execve pid => exact h.execve hlive
  | exit pid => exact h.exit hlive

end FileTable

/-- What is reached from the start by calls of any processes. -/
inductive FilpRun (ino : Handle) : FileTable → Prop
  | init : FilpRun ino (initFilp ino)
  | step {tb : FileTable} {c : FilpCall} : FilpRun ino tb → tb.Happens c → FilpRun ino (tb.call c)

theorem FilpRun.accounted {ino : Handle} {tb : FileTable} (h : FilpRun ino tb) : tb.Accounted := by
  induction h with
  | init => exact FileTable.accounted_init ino
  | step _ hc ih => exact ih.call hc

/-- After any calls of any processes: the count of an entry is the number
of descriptors that point to it; `get_filp` gives only entries without
descriptors and fails only if there is no such entry; and each time an
entry was taken for an inode, `iput` got that inode once for it, unless
the entry is still open for it. -/
theorem filps_accounted {ino : Handle} {tb : FileTable} (h : FilpRun ino tb) :
    (∀ i, (tb.filps i).count = (tb.users i).card) ∧
    (∀ i, tb.getFilp = some i → i < nrFilp ∧ tb.users i = ∅) ∧
    (tb.getFilp = none → ∀ i < nrFilp, tb.users i ≠ ∅) ∧
    ∀ i inoptr, tb.opened.count (i, inoptr) = tb.put.count (i, inoptr) +
      if tb.users i ≠ ∅ ∧ (tb.filps i).ino = inoptr then 1 else 0 := by
  have hinv := h.accounted
  have hcard : ∀ i, (tb.filps i).count = (tb.users i).card := by
    intro i
    rw [FileTable.card_users]
    exact hinv.count i
  have hfree : ∀ i, (tb.filps i).count = 0 ↔ tb.users i = ∅ := by
    intro i
    rw [hcard, Finset.card_eq_zero]
  refine ⟨hcard, ?_, ?_, ?_⟩
  · intro i hi
    obtain ⟨hlt, hzero⟩ := FileTable.getFilp_free hi
    exact ⟨hlt, (hfree i).mp hzero⟩
  · intro hfull i hi hempty
    exact FileTable.getFilp_full hfull hi ((hfree i).mpr hempty)
  · intro i inoptr
    have honce := hinv.once i inoptr
    simp only [FileTable.holding, ne_eq, hfree] at honce
    simpa using honce

/-- A child opens a file. -/
theorem filps_accounted_child : let ino : Handle := ⟨0, 1, 0⟩
    let tb := ((initFilp ino).call (.fork 0 1)).call (.open 1 0 ino)
    FilpRun ino tb ∧ ∀ i, (tb.filps i).count = (tb.users i).card := by
  intro ino tb
  have hfork : (initFilp ino).Happens (.fork 0 1) :=
    ⟨by simp [initFilp, FilpCall.pid], by decide, rfl⟩
  have hopen : ((initFilp ino).call (.fork 0 1)).Happens (.open 1 0 ino) :=
    ⟨by simp [FileTable.call, FileTable.fork, FilpCall.pid, (FileTable.fuseAll_spec _ _).1,
      initFilp], trivial⟩
  have hrun : FilpRun ino tb := (FilpRun.init.step hfork).step hopen
  exact ⟨hrun, (filps_accounted hrun).1⟩

end Cnix.Fs
