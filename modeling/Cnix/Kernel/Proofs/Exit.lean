/-
A process that exits stays a zombie if no inode of its mappings makes it
sleep.

`Exits.Final` is what is wanted of one state. It breaks where
`mmap_free_all`, which `do_exit` calls when it has marked the task, puts
an inode that is locked, dirty or the last trace of a deleted file: the
task goes to sleep, somebody wakes it up, and it runs again in a state its
father does not wait for.
-/
import Cnix.Kernel.Exit
import Cnix.Kernel.Proofs.Sched

namespace Cnix.Kernel

open Lib
open Function (update_apply update)

variable {n : Nat} {s s' : Exits n} {t u : Fin n} {c : Sched n} {maps : List Nat} {p : PutPoint}

-- ======== the property

/-- A task that has been marked a zombie is one for good: it is not on the
run queue and not asleep. Its page is freed only after its last
`schedule`, and after that it does not run. -/
structure Exits.Final (s : Exits n) : Prop where
  zombie : ∀ t, s.life t ≠ .alive → s.sched.state t = .zombie
  off : ∀ t (l : List (Fin n)), s.life t ≠ .alive → s.sched.run.Ring none (l.map some) → t ∉ l
  awake : ∀ t, s.life t ≠ .alive → s.sched.place t = .out
  page : ∀ t, s.page t = false → s.life t = .gone
  last : ∀ t, s.life t = .gone → s.sched.current ≠ some t

/-- `iput` does not sleep on it. -/
def MapInode.Quiet (x : MapInode) : Prop :=
  x.locked = false ∧ x.dirty = false ∧ (x.count ≤ 1 → x.nlinks ≠ 0)

instance (x : MapInode) : Decidable x.Quiet := inferInstanceAs (Decidable (_ ∧ _))

/-- The inode that the task is about to put is quiet. -/
def Exits.QuietAt (s : Exits n) (t : Fin n) : Prop :=
  match s.life t with
  | .dying (i :: _) .lock => (s.inode i).Quiet
  | _ => True

instance (s : Exits n) (t : Fin n) : Decidable (s.QuietAt t) := by
  unfold Exits.QuietAt
  split <;> infer_instance

/-- What is asked of an event: the inodes that are put are quiet then. -/
def ExitEvent.Calm (s : Exits n) (e : ExitEvent n) : Prop :=
  e.Fair s ∧
    match e with
    | .put => ∀ t, s.sched.current = some t → s.QuietAt t
    | _ => True

instance (s : Exits n) (e : ExitEvent n) : Decidable (e.Calm s) := by
  unfold ExitEvent.Calm
  induction e using ExitEvent.casesOn <;> infer_instance

-- ======== the invariant

/-- A task that is exiting is the one that runs, and it stands at an
`ilock`. -/
structure Exits.Inv (s : Exits n) : Prop where
  sound : s.sched.Sound
  zombie : ∀ t, s.sched.state t = .zombie ↔ s.life t ≠ .alive
  awake : ∀ t, s.life t ≠ .alive → s.sched.place t = .out
  dying : ∀ t maps p, s.life t = .dying maps p → s.sched.current = some t ∧ p = .lock
  page : ∀ t, s.page t = false → s.life t = .gone
  last : ∀ t, s.life t = .gone → s.sched.current ≠ some t

theorem Exits.First.inv (h : s.First) : s.Inv := by
  refine ⟨h.sched.sound, fun t => ?_, fun t ht => absurd (h.life t) ht, fun t maps p ht => ?_, fun t ht => ?_,
    fun t ht => ?_⟩
  · rw [h.sched.state]
    exact iff_of_false TaskState.noConfusion fun ht => ht (h.life t)
  · rw [h.life] at ht
    cases ht
  · rw [h.page] at ht
    cases ht
  · rw [h.life] at ht
    cases ht

theorem Life.eq_alive {l : Life} (h : l.isAlive = true) : l = .alive := by
  cases l with
  | alive => rfl
  | dying _ _ | gone => cases h

/-- A quiet inode is put at once. -/
theorem Exits.iput_quiet {i : Nat} (hquiet : (s.inode i).Quiet) (t : Fin n) (rest : List Nat) :
    ∃ x, s.iput t i rest = some ((s.setInode i x).setLife t (.dying rest .lock)) := by
  obtain ⟨hlocked, hdirty, hlinks⟩ := hquiet
  have hkept : ¬ ((s.inode i).count - 1 = 0 ∧ (s.inode i).nlinks = 0) := by
    rintro ⟨hcount, hnone⟩
    exact hlinks (by omega) hnone
  refine ⟨{ s.inode i with locked := false, count := (s.inode i).count - 1 }, ?_⟩
  simp only [Exits.iput, hlocked, Bool.false_eq_true, if_false, if_neg hkept, Exits.writeBack, Exits.unlock,
    Exits.setInode, Exits.setLife, Function.update_self, hdirty, Function.update_idem]

namespace Exits.Inv

variable (h : s.Inv)

include h

theorem final : s.Final := by
  refine ⟨fun t ht => (h.zombie t).mpr ht, fun t l ht hring htl => ?_, h.awake, h.page, h.last⟩
  obtain ⟨l', hring', hmem⟩ := h.sound.orderly.run
  have hll : l = l' := List.map_injective_iff.mpr (Option.some_injective _) (hring.unique hring')
  subst hll
  have hrun := (hmem t).mp htl
  rw [(h.zombie t).mpr ht] at hrun
  cases hrun

/-- A living task outside `sleepon` runs. -/
theorem running (hout : s.sched.place t = .out) (hlife : s.life t = .alive) :
    s.sched.state t = .running :=
  h.sound.orderly.running hout fun hz => (h.zombie t).mp hz hlife

/-- The queues change, and what concerns a task that exits or has exited
does not. -/
theorem setSched (hsound : c.Sound) (hstate : ∀ t, c.state t = .zombie ↔ s.sched.state t = .zombie)
    (hplace : ∀ t, s.life t ≠ .alive → c.place t = .out)
    (hcur : ∀ t, s.life t ≠ .alive → (c.current = some t ↔ s.sched.current = some t)) :
    (s.setSched c).Inv := by
  refine ⟨hsound, fun t => (hstate t).trans (h.zombie t), hplace, fun t maps p ht => ?_, h.page,
    fun t ht hc => ?_⟩
  · obtain ⟨hc, hp⟩ := h.dying t maps p ht
    have hne : s.life t ≠ .alive := by
      rw [show s.life t = _ from ht]
      exact Life.noConfusion
    exact ⟨(hcur t hne).mpr hc, hp⟩
  · have hne : s.life t ≠ .alive := by
      rw [show s.life t = _ from ht]
      exact Life.noConfusion
    exact h.last t ht ((hcur t hne).mp hc)

/-- The events of the scheduler. -/
theorem sched {e : SchedEvent n} (hfair : e.Fair s.sched) (hlives : e.Lives s)
    (hs : e.apply s.sched = some c) : (s.setSched c).Inv := by
  cases e with
  | sleep q interruptible =>
    obtain ⟨t, hcur, hout, halive⟩ := hlives
    have hlife := Life.eq_alive halive
    have hsleeps : (if interruptible then TaskState.interruptible
        else .uninterruptible).sleeps = true := by
      cases interruptible <;> rfl
    have hrun := h.running hout hlife
    obtain ⟨hsound, hcur', hstate, hplace⟩ := h.sound.sleepon hcur hout hrun hsleeps hs
    have hne (u : Fin n) (hu : s.life u ≠ .alive) : u ≠ t := fun hut => hu (hut ▸ hlife)
    refine h.setSched hsound (fun u => ?_) (fun u hu => ?_) (fun u _ => ?_)
    · rw [hstate, update_apply]
      split
      · next hut =>
        rw [hut, hrun]
        cases interruptible <;> exact iff_of_false TaskState.noConfusion TaskState.noConfusion
      · rfl
    · rw [hplace, Function.update_of_ne (hne u hu)]
      exact h.awake u hu
    · rw [hcur', hcur]
  | wakeup q =>
    obtain ⟨hsound, hplace, hcur, hstate⟩ := h.sound.wakeup hs
    refine h.setSched hsound (fun u => ?_) (fun u hu => ?_) (fun u _ => by rw [hcur])
    · rw [hstate]
      split
      · next hon =>
        refine iff_of_false TaskState.noConfusion fun hz => ?_
        rw [hz] at hon
        exact Bool.noConfusion hon.2
      · rfl
    · rw [hplace]
      exact h.awake u hu
  | schedule pick =>
    obtain ⟨hsound, hstate, hplace, hcur⟩ := h.sound.schedule hs
    refine h.setSched hsound (fun u => by rw [hstate]) (fun u hu => hplace u (h.awake u hu))
      (fun u hu => iff_of_false (fun hc => ?_) fun hc => ?_)
    · have hrun := hcur u hc
      rw [(h.zombie u).mpr hu] at hrun
      cases hrun
    · rcases hlives u hc with halive | hplace
      · exact hu halive
      · exact hplace (h.awake u hu)
  | resume =>
    obtain ⟨hsound, hcur, hstate, hplace⟩ := h.sound.resume hfair hs
    exact h.setSched hsound (fun u => by rw [hstate]) (fun u hu => hplace u (h.awake u hu))
      (fun u _ => by rw [hcur])

/-- A task is marked a zombie. -/
theorem exit (hcur : s.sched.current = some t) (hout : s.sched.place t = .out)
    (hlife : s.life t = .alive) : (s.exit t).Inv := by
  have hrun := h.running hout hlife
  have horderly : ((s.sched.delRun t).setState t .zombie).Orderly := by
    refine ⟨h.sound.orderly.run.delRun hrun TaskState.noConfusion, h.sound.orderly.wait, fun u hu => ?_⟩
    have hu' : (update s.sched.state t .zombie u).sleeps = true := hu
    rw [update_apply] at hu'
    split at hu'
    · cases hu'
    · exact h.sound.orderly.asleep u hu'
  have hlife' (u : Fin n) : (s.exit t).life u = if u = t then .dying (s.mmap t) .lock else s.life u :=
    update_apply ..
  have hnone (u : Fin n) (hu : u ≠ t) : s.sched.current ≠ some u := fun hc =>
    hu (Option.some.inj (hc.symm.trans hcur))
  refine ⟨⟨horderly, fun u q hc hwait => ?_⟩, fun u => ?_, fun u hu => ?_, fun u maps p hu => ?_, fun u hu => ?_,
    fun u hu => ?_⟩
  · obtain rfl : u = t := Option.some.inj ((show s.sched.current = some u from hc).symm.trans hcur)
    have hwait' : s.sched.place u = .waiting q := hwait
    rw [hout] at hwait'
    cases hwait'
  · rw [hlife']
    show update s.sched.state t .zombie u = .zombie ↔ _
    rw [update_apply]
    split
    · exact iff_of_true rfl Life.noConfusion
    · exact h.zombie u
  · by_cases hut : u = t
    · exact hut ▸ hout
    · rw [hlife', if_neg hut] at hu
      exact h.awake u hu
  · rw [hlife'] at hu
    split at hu
    · next hut =>
      cases hu
      exact ⟨hut ▸ hcur, rfl⟩
    · next hut => exact absurd (h.dying u maps p hu).1 (hnone u hut)
  · have hgone : s.life u = .gone := h.page u hu
    have hut : u ≠ t := by
      rintro rfl
      rw [hlife] at hgone
      cases hgone
    rw [hlife', if_neg hut]
    exact hgone
  · rw [hlife'] at hu
    split at hu
    · cases hu
    · exact h.last u hu

/-- One inode less to put. -/
theorem next {rest : List Nat} (hlife : s.life t = .dying maps p)
    (i : Nat) (x : MapInode) : ((s.setInode i x).setLife t (.dying rest .lock)).Inv := by
  have hlife' (u : Fin n) : ((s.setInode i x).setLife t (.dying rest .lock)).life u
      = if u = t then .dying rest .lock else s.life u := update_apply ..
  have halive (u : Fin n) : ((s.setInode i x).setLife t (.dying rest .lock)).life u ≠ .alive ↔
      s.life u ≠ .alive := by
    rw [hlife']
    split
    · next hut =>
      rw [hut, hlife]
      exact iff_of_true Life.noConfusion Life.noConfusion
    · rfl
  have hgone (u : Fin n) : ((s.setInode i x).setLife t (.dying rest .lock)).life u = .gone ↔
      s.life u = .gone := by
    rw [hlife']
    split
    · next hut =>
      rw [hut, hlife]
      exact iff_of_false Life.noConfusion Life.noConfusion
    · rfl
  refine ⟨h.sound, fun u => (h.zombie u).trans (halive u).symm, fun u hu => h.awake u ((halive u).mp hu),
    fun u maps p hu => ?_, fun u hu => (hgone u).mpr (h.page u hu), fun u hu => h.last u ((hgone u).mp hu)⟩
  rw [hlife'] at hu
  split at hu
  · next hut =>
    cases hu
    exact ⟨hut ▸ (h.dying t _ _ hlife).1, rfl⟩
  · exact h.dying u maps p hu

/-- The last `schedule`. -/
theorem leave (hlife : s.life t = .dying maps p)
    {pick : Option (Fin n)} (hs : s.leave t pick = some s') : s'.Inv := by
  obtain ⟨c, hc, rfl⟩ := Option.map_eq_some_iff.mp hs
  obtain ⟨hcur, -⟩ := h.dying t _ _ hlife
  have hne : s.life t ≠ .alive := by
    rw [hlife]
    exact Life.noConfusion
  obtain ⟨horderly, hstate, hplace, hrun⟩ := h.sound.orderly.schedule hc
  have hlife' (u : Fin n) : (((s.setLife t .gone).setSched c).life u) = if u = t then .gone else s.life u :=
    update_apply ..
  -- whoever runs now is no zombie
  have hnew (u : Fin n) (hu : s.life u ≠ .alive) : c.current ≠ some u := by
    intro hcur'
    have := hrun u hcur'
    rw [(h.zombie u).mpr hu] at this
    cases this
  have hnone (u : Fin n) (hu : u ≠ t) : s.sched.current ≠ some u := fun hc =>
    hu (Option.some.inj (hc.symm.trans hcur))
  refine ⟨⟨horderly, fun u q hcur' _ => ?_⟩, fun u => ?_, fun u hu => ?_, fun u maps p hu => ?_, fun u hu => ?_,
    fun u hu => ?_⟩
  · show c.state u = .running
    rw [hstate]
    exact hrun u hcur'
  · rw [hlife', show ((s.setLife t .gone).setSched c).sched.state = s.sched.state from hstate]
    split
    · next hut => exact iff_of_true (hut ▸ (h.zombie t).mpr hne) Life.noConfusion
    · exact h.zombie u
  · rw [show ((s.setLife t .gone).setSched c).sched.place = s.sched.place from hplace]
    by_cases hut : u = t
    · exact hut ▸ h.awake t hne
    · rw [hlife', if_neg hut] at hu
      exact h.awake u hu
  · rw [hlife'] at hu
    split at hu
    · cases hu
    · next hut => exact absurd (h.dying u maps p hu).1 (hnone u hut)
  · rw [hlife']
    split
    · rfl
    · exact h.page u hu
  · by_cases hut : u = t
    · exact hnew u (hut ▸ hne)
    · rw [hlife', if_neg hut] at hu
      refine hnew u ?_
      rw [hu]
      exact Life.noConfusion

/-- The page of a zombie is freed by a task that runs. -/
theorem wait (hcur : s.sched.current = some t) (hlife : s.life t = .alive) {c : Fin n}
    (hs : s.wait c = some s') : s'.Inv := by
  unfold Exits.wait at hs
  split at hs
  · next hz =>
    cases hs
    refine { h with page := fun u hu => ?_ }
    have hu' : update s.page c false u = false := hu
    rw [update_apply] at hu'
    split at hu'
    · next huc =>
      cases hl : s.life c with
      | gone => exact huc ▸ hl
      | alive => exact absurd hl ((h.zombie c).mp hz.1)
      | dying maps p =>
        have hct : c = t := Option.some.inj ((h.dying c _ _ hl).1.symm.trans hcur)
        rw [hct, hlife] at hl
        cases hl
    · exact h.page u hu'
  · cases hs

/-- One step with a quiet inode. -/
theorem step {e : ExitEvent n} (hcalm : e.Calm s) (hs : e.apply s = some s') : s'.Inv := by
  obtain ⟨hfair, hquiet⟩ := hcalm
  cases e with
  | sched e =>
    obtain ⟨c, hc, rfl⟩ := Option.map_eq_some_iff.mp hs
    exact h.sched hfair.1 hfair.2 hc
  | exit =>
    obtain ⟨t, hcur, hout, halive⟩ := hfair
    rw [ExitEvent.apply, hcur] at hs
    cases hs
    exact h.exit hcur hout (Life.eq_alive halive)
  | put =>
    obtain ⟨t, hcur, -, hputs⟩ := hfair
    have hq := hquiet t hcur
    rw [ExitEvent.apply, hcur, Option.bind_some] at hs
    match hl : s.life t with
    | .alive | .gone | .dying [] _ =>
      rw [hl] at hputs
      cases hputs
    | .dying (i :: rest) p =>
      obtain ⟨-, rfl⟩ := h.dying t _ _ hl
      simp only [Exits.QuietAt, hl] at hq
      simp only [Exits.put, hl] at hs
      obtain ⟨x, hx⟩ := Exits.iput_quiet hq t rest
      rw [hx] at hs
      cases hs
      exact h.next hl i x
  | block q =>
    -- only in `truncate` or `iwrite`, which are never reached
    obtain ⟨t, -, -, hblocks⟩ := hfair
    match hl : s.life t with
    | .alive | .gone | .dying [] _ =>
      rw [hl] at hblocks
      cases hblocks
    | .dying (i :: rest) p =>
      obtain ⟨-, rfl⟩ := h.dying t _ _ hl
      rw [hl] at hblocks
      cases hblocks
  | leave pick =>
    obtain ⟨t, hcur, -, hends⟩ := hfair
    rw [ExitEvent.apply, hcur, Option.bind_some] at hs
    match hl : s.life t with
    | .alive | .gone | .dying (_ :: _) _ =>
      rw [hl] at hends
      cases hends
    | .dying [] p => exact h.leave hl hs
  | wait c =>
    obtain ⟨t, hcur, -, halive⟩ := hfair
    exact h.wait hcur (Life.eq_alive halive) hs
  | inode i x =>
    cases hs
    exact { h with }
  | mmap maps =>
    obtain ⟨t, -, rfl⟩ := Option.map_eq_some_iff.mp hs
    exact { h with }

end Exits.Inv

-- ======== runs

theorem ExitRun.inv (h : ExitRun ExitEvent.Calm s) : s.Inv :=
  Reached.inv (fun _ hs => hs.inv) (fun _ _ _ hinv hcalm hs => hinv.step hcalm hs) h

/-- Exit is final in every run in which the inodes of a zombie's mappings
are quiet when they are put. -/
theorem exit_final (h : ExitRun ExitEvent.Calm s) : s.Final :=
  h.inv.final

theorem Exits.boot_first (i : Nat) (x : MapInode) : (Exits.boot 2 i x).First :=
  ⟨Cnix.Kernel.boot_first, fun _ => rfl, fun _ => rfl⟩

/-- A task with a mapped file exits, and its father frees its page. -/
theorem exit_final_reaped : ∃ s : Exits 2, ExitRun ExitEvent.Calm s ∧ s.page 1 = false ∧ s.Final := by
  obtain ⟨s, hplay, hpage⟩ : ∃ s, play ExitEvent.apply ExitEvent.Calm (Exits.boot 2 0 ⟨false, 1, 1, false⟩)
      [.sched (.schedule (some 1)), .exit, .put, .leave (some 0), .wait 1] = some s ∧ s.page 1 = false := by
    decide +kernel
  have hs : ExitRun ExitEvent.Calm s := .play (.first (Exits.boot_first ..)) hplay
  exact ⟨s, hs, hpage, exit_final hs⟩

/-- A task exits while it has a deleted file mapped. Where `iput` frees the
blocks of the file it waits for one of them, and is back on the run queue
when the block is there. -/
theorem zombie_runs : ∃ s : Exits 2, ExitRun ExitEvent.Fair s ∧ ¬ s.Final := by
  obtain ⟨s, hplay, hlife, hstate⟩ : ∃ s,
      play ExitEvent.apply ExitEvent.Fair (Exits.boot 2 0 ⟨false, 1, 0, false⟩)
        [.sched (.schedule (some 1)), .exit, .put, .block 7, .sched (.schedule (some 0)),
          .sched (.wakeup 7)] = some s ∧ s.life 1 ≠ .alive ∧ s.sched.state 1 = .running := by
    decide +kernel
  refine ⟨s, .play (.first (Exits.boot_first ..)) hplay, fun hfinal => ?_⟩
  have hz := hfinal.zombie 1 hlife
  rw [hstate] at hz
  cases hz

end Cnix.Kernel
