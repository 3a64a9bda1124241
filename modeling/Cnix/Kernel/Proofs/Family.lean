/-
Fathers, children and `wait`.

`FamilyInv` is what every run keeps as long as `init` does not exit: the
lists of children are the classes of `ppid`, the father of every process
lives, and a zombie keeps the code that it gave to `exit`. That the
father lives is what makes reaping safe: a zombie that is freed is the
father of nobody, since its children went to `init` when it exited.

`setpgid` and the terminals do not touch any of this (`Tasks.Akin`), also
where they break the groups.
-/
import Cnix.Kernel.Proofs.Tasks

namespace Cnix.Kernel

open Lib
open Function (update update_self update_apply update_of_ne update_eq_self)

variable {t t' : Tasks} {p q cur : Nat} {tp tc : Task} {e : TaskEvent}

-- ======== the property

/-- `init` does not exit. -/
def TaskEvent.Kept (t : Tasks) (e : TaskEvent) : Prop :=
  e.Fair t ∧ match e with
    | .exit cur _ => cur ≠ initpid
    | _ => True

/-- Every process but the idle one and `init` is on one list of children,
that of its father, who is in the table. -/
def Tasks.Listed (t : Tasks) : Prop :=
  ∀ q tq, t.task q = some tq → q ≠ idlepid → q ≠ initpid →
    (t.task tq.ppid).isSome ∧ ∀ p, (t.clist p).count q = if p = tq.ppid then 1 else 0

/-- What a call returns is right. Who gets a child is its father, the child
had exited with this code, nobody has got it before, and it is gone then.
Who gets none when it waits for any child has no zombie. -/
structure TaskEvent.Right (t t' : Tasks) (e : TaskEvent) (res : WaitResult) : Prop where
  child : ∀ c status, res = .child c status → ∃ tc, t.task c = some tc ∧ tc.zombie = true ∧
    tc.ppid = e.caller ∧ t.code tc.serial = some status ∧ tc.serial ∉ t.reaped ∧
    t'.task c = none ∧ t'.reaped = tc.serial :: t.reaped
  none : e.anyChild t → res = .echild ∨ res = .zero → ∀ c tc, t'.task c = some tc →
    tc.ppid = e.caller → tc.zombie = false

-- ======== the invariant

/-- What holds before there is `init`, too. -/
@[mk_iff]
structure Family (t : Tasks) : Prop where
  child : ∀ p q, q ∈ t.clist p ↔ q ≠ idlepid ∧ ∃ tq, t.task q = some tq ∧ tq.ppid = p
  nodup : ∀ p, (t.clist p).Nodup
  father : ∀ q tq, t.task q = some tq → t.Live tq.ppid
  idle : ∃ ti, t.task idlepid = some ti ∧ ti.zombie = false ∧ ti.ppid = idlepid
  serial : ∀ q tq, t.task q = some tq → tq.serial < t.born ∧ tq.serial ∉ t.reaped
  single : ∀ q tq, t.task q = some tq → ∀ r tr, t.task r = some tr → tq.serial = tr.serial → q = r
  reaped : t.reaped.Nodup ∧ ∀ k ∈ t.reaped, k < t.born
  code : ∀ q tq, t.task q = some tq → tq.zombie = true → t.code tq.serial = some tq.exitCode
  waits : ∀ p, t.waits p ≠ none → t.clist p ≠ []

@[mk_iff]
structure FamilyInv (t : Tasks) : Prop extends Family t where
  init : t.Live initpid

theorem FamilyInv.listed (h : FamilyInv t) : t.Listed := by
  intro q tq hq hidle hinit
  obtain ⟨tp, htp, -⟩ := h.father q tq hq
  refine ⟨by rw [htp]; rfl, fun p => ?_⟩
  split
  · next hp => exact List.count_eq_one_of_mem (h.nodup p) ((h.child p q).mpr ⟨hidle, tq, hq, hp.symm⟩)
  · next hp =>
    refine List.count_eq_zero_of_not_mem fun hmem => hp ?_
    obtain ⟨-, tq', hq', hp'⟩ := (h.child p q).mp hmem
    rw [hq] at hq'
    cases hq'
    exact hp'.symm

/-- A zombie is the father of nobody. -/
theorem Family.childless (h : Family t) (hp : ¬ t.Live p) {tq : Task} (hq : t.task q = some tq) :
    tq.ppid ≠ p :=
  fun he => hp (he ▸ h.father q tq hq)

-- ======== the same kin

/-- A process without the fields that do not matter for the family. -/
def Task.kin (tp : Task) : Task := { tp with pgid := 0, session := 0, tty := 0, uid := 0, euid := 0 }

/-- The processes as far as the family goes. -/
def Tasks.kin (t : Tasks) : Tasks :=
  { t with task := fun q => (t.task q).map Task.kin, pglist := ⟨id, id⟩, owner := fun _ => 0, nextPid := 0 }

/-- Nothing of the family changed. -/
def Tasks.Akin (t t' : Tasks) : Prop := t'.kin = t.kin

theorem Tasks.Akin.trans {t1 t2 t3 : Tasks} (h : t1.Akin t2) (h' : t2.Akin t3) : t1.Akin t3 :=
  Eq.trans h' h

theorem live_kin (p : Nat) : t.kin.Live p ↔ t.Live p := by
  simp [Tasks.Live, Tasks.kin, Task.kin]

theorem familyInv_kin : FamilyInv t.kin ↔ FamilyInv t := by
  simp only [familyInv_iff, family_iff, live_kin]
  simp [Tasks.kin, Task.kin]

theorem Tasks.Akin.live (h : t.Akin t') (p : Nat) : t'.Live p ↔ t.Live p := by
  rw [← live_kin, h, live_kin]

theorem Tasks.Akin.inv (hkin : t.Akin t') (h : FamilyInv t) : FamilyInv t' := by
  rw [← familyInv_kin, hkin, familyInv_kin]
  exact h

theorem Tasks.Akin.back (h : t.Akin t') {tq : Task} (hq : t'.task q = some tq) :
    ∃ tp, t.task q = some tp ∧ tp.kin = tq.kin := by
  have hkin : (t'.task q).map Task.kin = (t.task q).map Task.kin := congrFun (congrArg Tasks.task h) q
  rw [hq] at hkin
  exact Option.map_eq_some_iff.mp hkin.symm

/-- Other fields of some processes change. -/
theorem akin_change (t : Tasks) (who : List Nat) {f : Task → Task}
    (hf : ∀ p, (f p).kin = p.kin := by exact fun _ => rfl) : t.Akin (t.change who f) := by
  have htask (q : Nat) : (if q ∈ who then (t.task q).map f else t.task q).map Task.kin
      = (t.task q).map Task.kin := by
    split
    · rw [Option.map_map]
      exact congrArg ((t.task q).map ·) (funext hf)
    · rfl
  unfold Tasks.Akin Tasks.kin Tasks.change
  simp only [htask]

theorem akin_setOwner (t : Tasks) (tty p : Nat) : t.Akin (t.setOwner tty p) := rfl

theorem akin_pglist (t : Tasks) (lk : Links Nat) : t.Akin { t with pglist := lk } := rfl

/-- A process leaves its group. -/
theorem akin_leaveGroup (h : t.leaveGroup cur tp = some t') : t.Akin t' := by
  unfold Tasks.leaveGroup at h
  split at h
  · cases h
    split
    · exact akin_setOwner ..
    · exact rfl
  · obtain ⟨others, -, rfl⟩ := Option.map_eq_some_iff.mp h
    have h1 : t.Akin (if t.owns cur tp then (t.setOwner (Tasks.terminal tp) 0).change others
        ({ · with tty := notty }) else t) := by
      split
      · exact (akin_setOwner ..).trans (akin_change ..)
      · exact rfl
    refine Tasks.Akin.trans ?_ (akin_pglist ..)
    split
    · exact h1.trans (akin_change ..)
    · exact h1

theorem akin_moveGroup {pid pgid : Nat} (h : t.moveGroup pid pgid tp = some t') : t.Akin t' := by
  obtain ⟨t1, hleft, rfl⟩ := Option.map_eq_some_iff.mp h
  refine Tasks.Akin.trans ?_ (akin_change ..)
  split at hleft
  · cases hleft
    split
    · exact akin_setOwner ..
    · exact rfl
  · obtain ⟨others, -, rfl⟩ := Option.map_eq_some_iff.mp hleft
    have h1 : t.Akin (if t.owns pid tp then t.setOwner (Tasks.terminal tp) (t.pglist.next pid)
        else t) := by
      split
      · exact akin_setOwner ..
      · exact rfl
    refine Tasks.Akin.trans ?_ (akin_pglist ..)
    split
    · exact h1.trans (akin_change ..)
    · exact h1

theorem akin_setpgid {pid pgid : Int} (h : t.setpgid cur pid pgid = some (.ok t')) : t.Akin t' := by
  unfold Tasks.setpgid at h
  split at h
  · cases h
  · cases h
    exact rfl
  · obtain ⟨t1, hbind, he⟩ := Option.map_eq_some_iff.mp h
    cases he
    obtain ⟨tp, -, hmove⟩ := Option.bind_eq_some_iff.mp hbind
    exact akin_moveGroup hmove

theorem akin_setsid (h : t.setsid cur = some (.ok t')) : t.Akin t' := by
  obtain ⟨res, hres, hmap⟩ := Option.map_eq_some_iff.mp h
  cases res with
  | error e => cases hmap
  | ok t1 =>
    cases hmap
    exact (akin_setpgid hres).trans (akin_change ..)

theorem akin_ttyOpen {dev : Nat} {noctty : Bool} (h : t.ttyOpen cur dev noctty = some t') :
    t.Akin t' := by
  obtain ⟨tp, -, rfl⟩ := Option.map_eq_some_iff.mp h
  split
  · exact (akin_setOwner ..).trans (akin_change ..)
  · exact rfl

-- ======== fork

theorem Family.copyProcess {nr : Nat} (h : Family t) (hcur : t.task cur = some tp)
    (hlive : tp.zombie = false) (hnr : t.task nr = none) : Family (t.copyProcess cur nr tp) := by
  have hdead : ¬ t.Live nr := not_live_none hnr
  have hnidle : nr ≠ idlepid := fun he => by
    obtain ⟨ti, hi, hz, -⟩ := h.idle
    exact hdead (he ▸ ⟨ti, hi, hz⟩)
  have hself : (t.copyProcess cur nr tp).task nr = some { tp with ppid := cur, serial := t.born } :=
    update_self ..
  have hother {q : Nat} (hq : q ≠ nr) : (t.copyProcess cur nr tp).task q = t.task q :=
    update_of_ne hq ..
  have hlive' (p : Nat) (hp : t.Live p) : (t.copyProcess cur nr tp).Live p :=
    (copyProcess_live hlive p).mpr (.inr hp)
  -- what is in the table is the new process or an old one
  have hcases {q : Nat} {tq : Task} (hq : (t.copyProcess cur nr tp).task q = some tq) :
      (q = nr ∧ tq = { tp with ppid := cur, serial := t.born }) ∨ (q ≠ nr ∧ t.task q = some tq) := by
    by_cases hqn : q = nr
    · subst hqn
      rw [hself] at hq
      cases hq
      exact .inl ⟨rfl, rfl⟩
    · rw [hother hqn] at hq
      exact .inr ⟨hqn, hq⟩
  have hempty : t.clist nr = [] := by
    refine List.eq_nil_iff_forall_not_mem.mpr fun q hq => ?_
    obtain ⟨-, tq, htq, hp⟩ := (h.child nr q).mp hq
    exact h.childless hdead htq hp
  have hclist (p : Nat) : (t.copyProcess cur nr tp).clist p = if p = cur then nr :: t.clist cur
      else t.clist p := by
    show update (update t.clist nr []) cur (nr :: t.clist cur) p = _
    rw [update_apply]
    split
    · rfl
    · rw [← hempty, update_eq_self]
  have hfresh : ∀ p, nr ∉ t.clist p := by
    intro p hmem
    obtain ⟨-, tq, htq, -⟩ := (h.child p nr).mp hmem
    rw [hnr] at htq
    cases htq
  refine ⟨fun p q => ?_, fun p => ?_, fun q tq hq => ?_, ?_, fun q tq hq => ?_,
    fun q tq hq r tr hr hs => ?_, ⟨h.reaped.1, fun k hk => ?_⟩,
    fun q tq hq hz => ?_, fun p hp => ?_⟩
  · rw [hclist]
    by_cases hqn : q = nr
    · subst hqn
      rw [hself]
      by_cases hpc : p = cur
      · rw [if_pos hpc]
        refine iff_of_true List.mem_cons_self ⟨hnidle, _, rfl, hpc.symm⟩
      · rw [if_neg hpc]
        refine iff_of_false (hfresh p) ?_
        rintro ⟨-, tq, hq, hp⟩
        cases hq
        exact hpc hp.symm
    · rw [hother hqn, ← h.child]
      split
      · next hpc =>
        subst hpc
        simp [hqn]
      · rfl
  · rw [hclist]
    split
    · exact List.nodup_cons.2 ⟨hfresh cur, h.nodup cur⟩
    · exact h.nodup p
  · rcases hcases hq with ⟨rfl, rfl⟩ | ⟨-, hq⟩
    · exact hlive' cur ⟨tp, hcur, hlive⟩
    · exact hlive' _ (h.father q tq hq)
  · rw [hother (Ne.symm hnidle)]
    exact h.idle
  · rcases hcases hq with ⟨rfl, rfl⟩ | ⟨-, hq⟩
    · exact ⟨Nat.lt_succ_self _, fun hmem => absurd (h.reaped.2 _ hmem) (Nat.lt_irrefl _)⟩
    · exact ⟨(h.serial q tq hq).1.trans (Nat.lt_succ_self _), (h.serial q tq hq).2⟩
  · rcases hcases hq with ⟨hqn, hq'⟩ | ⟨-, hq'⟩ <;> rcases hcases hr with ⟨hrn, hr'⟩ | ⟨-, hr'⟩
    · exact hqn.trans hrn.symm
    · have hlt := (h.serial r tr hr').1
      rw [← hs, hq'] at hlt
      exact absurd hlt (Nat.lt_irrefl _)
    · have hlt := (h.serial q tq hq').1
      rw [hs, hr'] at hlt
      exact absurd hlt (Nat.lt_irrefl _)
    · exact h.single q tq hq' r tr hr' hs
  · exact (h.reaped.2 k hk).trans (Nat.lt_succ_self _)
  · rcases hcases hq with ⟨rfl, rfl⟩ | ⟨-, hq⟩
    · rw [show ({ tp with ppid := cur, serial := t.born } : Task).zombie = false from hlive] at hz
      cases hz
    · exact h.code q tq hq hz
  · rw [hclist]
    split
    · exact List.cons_ne_nil _ _
    · exact h.waits p hp

/-- What a caller may be told: nothing yet, or the truth. -/
structure Told (t t' : Tasks) (cur : Nat) (anyChild : Prop) (res : Option WaitResult) : Prop where
  inv : FamilyInv t'
  child : ∀ c status, res = some (.child c status) → ∃ tc, t.task c = some tc ∧ tc.zombie = true ∧
    tc.ppid = cur ∧ t.code tc.serial = some status ∧ tc.serial ∉ t.reaped ∧ t'.task c = none ∧
    t'.reaped = tc.serial :: t.reaped
  none : anyChild → res = some .echild ∨ res = some .zero → ∀ c tc, t'.task c = some tc →
    tc.ppid = cur → tc.zombie = false

/-- The call is `wait`, `waitpid` or what comes after a sleep there. -/
def TaskEvent.isWait : TaskEvent → Bool
  | .wait _ _ | .waitpid _ _ _ | .wake _ _ => true
  | _ => false

namespace FamilyInv

variable (h : FamilyInv t)

include h

theorem fork (hcur : t.Live cur) {mem : Bool}
    (happly : t.fork cur mem = some t') : FamilyInv t' := by
  rcases fork_cases hcur happly with rfl | ⟨nr, hnone, -, hcase⟩
  · exact h
  · have h1 : FamilyInv { t with nextPid := nr % (nrTasks - 1) + 1 } :=
      { h with }
    rcases hcase with rfl | ⟨tp, htp, hlive, rfl⟩
    · exact h1
    · exact ⟨h1.toFamily.copyProcess htp hlive hnone, (copyProcess_live hlive _).mpr (.inr h.init)⟩

-- ======== exit

/-- The children go to `init`; then the process is the father of nobody. -/
theorem adopt (hidle : cur ≠ idlepid) (hinit : cur ≠ initpid)
    (hwaits : t.waits cur = none) (hadopt : t.adopt cur = some t') :
    FamilyInv t' ∧ (∀ p, t'.Live p ↔ t.Live p) ∧ t'.waits = t.waits ∧
      ∀ q tq, t'.task q = some tq → tq.ppid ≠ cur := by
  rw [Tasks.adopt, if_neg hinit] at hadopt
  have hlive (p : Nat) : t'.Live p ↔ t.Live p := by
    cases hadopt
    exact change_live (fun _ => by rfl) p
  have hwaits' : t'.waits = t.waits := by
    cases hadopt
    rfl
  -- an entry is an old one, with a new father if the old one exits
  have htask (q : Nat) : t'.task q = (t.task q).map fun tq =>
      { tq with ppid := if q ∈ t.clist cur then initpid else tq.ppid } := by
    cases hadopt
    show (if q ∈ t.clist cur then (t.task q).map ({ · with ppid := initpid }) else t.task q) = _
    split
    · rfl
    · exact (Option.map_id' ..).symm
  have hback {q : Nat} {tq : Task} (hq : t'.task q = some tq) : ∃ tr, t.task q = some tr ∧
      { tr with ppid := if q ∈ t.clist cur then initpid else tr.ppid } = tq := by
    rw [htask] at hq
    exact Option.map_eq_some_iff.mp hq
  have hcur {q : Nat} {tq : Task} (hq : t.task q = some tq) (hq0 : q ≠ idlepid) :
      q ∈ t.clist cur ↔ tq.ppid = cur := by
    rw [h.child]
    constructor
    · rintro ⟨-, tq', hq', hp⟩
      rw [hq] at hq'
      cases hq'
      exact hp
    · exact fun hp => ⟨hq0, tq, hq, hp⟩
  have hidle' : idlepid ∉ t.clist cur := fun hmem => ((h.child cur idlepid).mp hmem).1 rfl
  have hclist (p : Nat) : t'.clist p = if p = cur then [] else if p = initpid then
      t.clist initpid ++ t.clist cur else t.clist p := by
    cases hadopt
    show update (update _ _ _) _ _ p = _
    rw [update_apply, update_apply]
    rfl
  have hsame : t'.born = t.born ∧ t'.reaped = t.reaped ∧ t'.code = t.code := by
    cases hadopt
    exact ⟨rfl, rfl, rfl⟩
  obtain ⟨hborn, hreaped, hcode⟩ := hsame
  refine ⟨⟨⟨fun p q => ?_, fun p => ?_, fun q tq hq => ?_, ?_, fun q tq hq => ?_,
    fun q tq hq r tr hr hs => ?_, ?_, fun q tq hq hz => ?_, fun p hp => ?_⟩, (hlive _).mpr h.init⟩, hlive,
    hwaits', fun q tq hq => ?_⟩
  · rw [hclist]
    constructor
    · intro hmem
      -- from the lists to the fathers
      have hold : ∃ tq, t.task q = some tq ∧ q ≠ idlepid ∧
          (if q ∈ t.clist cur then initpid else tq.ppid) = p := by
        split at hmem
        · exact absurd hmem List.not_mem_nil
        · next hpc =>
          split at hmem
          · next hpi =>
            rcases List.mem_append.mp hmem with hmem | hmem
            · obtain ⟨hq0, tq, hq, hp⟩ := (h.child initpid q).mp hmem
              refine ⟨tq, hq, hq0, ?_⟩
              split <;> simp [hpi, hp]
            · obtain ⟨hq0, tq, hq, -⟩ := (h.child cur q).mp hmem
              exact ⟨tq, hq, hq0, by rw [if_pos hmem, hpi]⟩
          · obtain ⟨hq0, tq, hq, hp⟩ := (h.child p q).mp hmem
            refine ⟨tq, hq, hq0, ?_⟩
            rw [if_neg fun hmem' => hpc (hp.symm.trans ((hcur hq hq0).mp hmem')), hp]
      obtain ⟨tq, hq, hq0, hp⟩ := hold
      exact ⟨hq0, _, by rw [htask, hq]; rfl, hp⟩
    · rintro ⟨hq0, tq, hq, hp⟩
      obtain ⟨tr, ho, rfl⟩ := hback hq
      dsimp only at hp
      split at hp
      · next hmem =>
        subst hp
        rw [if_neg (Ne.symm hinit), if_pos rfl]
        exact List.mem_append_right _ hmem
      · next hmem =>
        have hmem' : q ∈ t.clist p := (h.child p q).mpr ⟨hq0, tr, ho, hp⟩
        have hpc : p ≠ cur := fun he => hmem (he ▸ hmem')
        rw [if_neg hpc]
        split
        · next hpi => exact List.mem_append_left _ (hpi ▸ hmem')
        · exact hmem'
  · rw [hclist]
    split
    · exact List.nodup_nil
    · split
      · refine List.nodup_append.mpr ⟨h.nodup _, h.nodup _, fun a ha b hb hab => ?_⟩
        subst hab
        obtain ⟨hq0, ta, hta, hpa⟩ := (h.child initpid a).mp ha
        exact hinit (((hcur hta hq0).mp hb).symm.trans hpa)
      · exact h.nodup p
  · obtain ⟨tr, ho, rfl⟩ := hback hq
    rw [hlive]
    dsimp only
    split
    · exact h.init
    · exact h.father q tr ho
  · obtain ⟨ti, hi, hz, hp⟩ := h.idle
    refine ⟨ti, ?_, hz, hp⟩
    simp [htask, hi, hidle']
  · obtain ⟨tr, ho, rfl⟩ := hback hq
    rw [hborn, hreaped]
    exact h.serial q tr ho
  · obtain ⟨tr, ho, rfl⟩ := hback hq
    obtain ⟨tr', ho', rfl⟩ := hback hr
    exact h.single q tr ho r tr' ho' hs
  · rw [hreaped, hborn]
    exact h.reaped
  · obtain ⟨tr, ho, rfl⟩ := hback hq
    rw [hcode]
    exact h.code q tr ho hz
  · rw [hwaits'] at hp
    have hpc : p ≠ cur := fun he => hp (he ▸ hwaits)
    rw [hclist, if_neg hpc]
    split
    · next hpi =>
      subst hpi
      simp [h.waits initpid hp]
    · exact h.waits p hp
  · obtain ⟨tr, ho, rfl⟩ := hback hq
    by_cases hq0 : q = idlepid
    · subst hq0
      rw [if_neg hidle']
      -- the idle process is its own father
      obtain ⟨ti, hi, -, hp⟩ := h.idle
      rw [ho] at hi
      cases hi
      rw [hp]
      exact Ne.symm hidle
    · split
      · exact Ne.symm hinit
      · next hmem => exact fun he => hmem ((hcur ho hq0).mpr he)

/-- A process that is the father of nobody is marked. -/
theorem bury (hcur : t.task cur = some tp) (hidle : cur ≠ idlepid)
    (hinit : cur ≠ initpid) (hchildless : ∀ q tq, t.task q = some tq → tq.ppid ≠ cur) (code : Int) :
    FamilyInv (t.bury cur code) := by
  have hself : (t.bury cur code).task cur = some { tp with zombie := true, exitCode := code } := by
    show (if cur ∈ [cur] then (t.task cur).map _ else t.task cur) = _
    rw [if_pos (List.mem_singleton_self _), hcur]
    rfl
  have hother {q : Nat} (hq : q ≠ cur) : (t.bury cur code).task q = t.task q := by
    show (if q ∈ [cur] then (t.task q).map _ else t.task q) = _
    rw [if_neg (by simpa using hq)]
  have hlive {p : Nat} (hp : t.Live p) (hpc : p ≠ cur) : (t.bury cur code).Live p := by
    obtain ⟨tq, hq, hz⟩ := hp
    exact ⟨tq, (hother hpc).trans hq, hz⟩
  have hcases {q : Nat} {tq : Task} (hq : (t.bury cur code).task q = some tq) :
      (q = cur ∧ tq = { tp with zombie := true, exitCode := code }) ∨ (q ≠ cur ∧ t.task q = some tq) := by
    by_cases hqc : q = cur
    · subst hqc
      rw [hself] at hq
      cases hq
      exact .inl ⟨rfl, rfl⟩
    · rw [hother hqc] at hq
      exact .inr ⟨hqc, hq⟩
  -- the entry of an old one has the same father and the same number
  have hold {q : Nat} {tq : Task} (hq : (t.bury cur code).task q = some tq) :
      ∃ tr, t.task q = some tr ∧ tq.ppid = tr.ppid ∧ tq.serial = tr.serial := by
    rcases hcases hq with ⟨rfl, rfl⟩ | ⟨-, hq'⟩
    · exact ⟨tp, hcur, rfl, rfl⟩
    · exact ⟨tq, hq', rfl, rfl⟩
  have hcode : (t.bury cur code).code = update t.code tp.serial (some code) := by
    show (t.task cur).elim _ _ = _
    rw [hcur]
    rfl
  refine ⟨⟨fun p q => ?_, h.nodup, fun q tq hq => ?_, ?_, fun q tq hq => ?_,
    fun q tq hq r tr hr hs => ?_, h.reaped, fun q tq hq hz => ?_, h.waits⟩, hlive h.init (Ne.symm hinit)⟩
  · show q ∈ t.clist p ↔ _
    rw [h.child]
    by_cases hqc : q = cur
    · subst hqc
      rw [hself, hcur]
      simp
    · rw [hother hqc]
  · obtain ⟨tr, hr, hp, -⟩ := hold hq
    rw [hp]
    exact hlive (h.father q tr hr) (hchildless q tr hr)
  · rw [hother (Ne.symm hidle)]
    exact h.idle
  · obtain ⟨tr, hr, -, hs⟩ := hold hq
    rw [hs]
    exact h.serial q tr hr
  · obtain ⟨ta, ha, -, hsa⟩ := hold hq
    obtain ⟨tb, hb, -, hsb⟩ := hold hr
    exact h.single q ta ha r tb hb (hsa.symm.trans (hs.trans hsb))
  · rw [hcode]
    rcases hcases hq with ⟨rfl, rfl⟩ | ⟨hqc, hq'⟩
    · exact update_self ..
    · have hne : tq.serial ≠ tp.serial := fun he => hqc (h.single q tq hq' cur tp hcur he)
      rw [update_of_ne hne]
      exact h.code q tq hq' hz

theorem exit (hcur : t.Live cur) (hidle : cur ≠ idlepid)
    (hinit : cur ≠ initpid) (hwaits : t.waits cur = none) {code : Int}
    (happly : t.exit cur code = some t') : FamilyInv t' := by
  obtain ⟨t1, hadopt, hrest⟩ := Option.bind_eq_some_iff.mp happly
  obtain ⟨h1, hlive, -, hchildless⟩ := h.adopt hidle hinit hwaits hadopt
  obtain ⟨tp, -, hmap⟩ := Option.bind_eq_some_iff.mp hrest
  obtain ⟨t2, hleave, rfl⟩ := Option.map_eq_some_iff.mp hmap
  have hkin := akin_leaveGroup hleave
  have h2 := hkin.inv h1
  obtain ⟨tp2, htp2, -⟩ := (hkin.live cur).mpr ((hlive cur).mpr hcur)
  refine h2.bury htp2 hidle hinit (fun q tq hq => ?_) code
  obtain ⟨tr, hr, hsame⟩ := hkin.back hq
  have hp : tr.kin.ppid = tq.kin.ppid := by rw [hsame]
  exact fun he => hchildless q tr hr (hp.trans he)

-- ======== wait

/-- A zombie that is the child of the caller is freed. -/
theorem reap {child : Nat} (hmem : child ∈ t.clist cur)
    (hchild : t.task child = some tc) (hzombie : tc.zombie = true) :
    FamilyInv (t.reap cur child tc) := by
  have hdead : ¬ t.Live child := not_live_zombie hchild hzombie
  have hself : (t.reap cur child tc).task child = none := update_self ..
  have hother {q : Nat} (hq : q ≠ child) : (t.reap cur child tc).task q = t.task q :=
    update_of_ne hq ..
  have hlive {p : Nat} (hp : t.Live p) : (t.reap cur child tc).Live p := by
    have hpc : p ≠ child := fun he => hdead (he ▸ hp)
    obtain ⟨tq, hq, hz⟩ := hp
    exact ⟨tq, (hother hpc).trans hq, hz⟩
  have hold {q : Nat} {tq : Task} (hq : (t.reap cur child tc).task q = some tq) :
      q ≠ child ∧ t.task q = some tq := by
    by_cases hqc : q = child
    · subst hqc
      rw [hself] at hq
      cases hq
    · rw [hother hqc] at hq
      exact ⟨hqc, hq⟩
  have hclist (p : Nat) : (t.reap cur child tc).clist p
      = if p = cur then (t.clist cur).erase child else t.clist p := update_apply ..
  obtain ⟨hq0, tc', htc', hfather⟩ := (h.child cur child).mp hmem
  obtain rfl : tc = tc' := Option.some.inj (hchild.symm.trans htc')
  refine ⟨⟨fun p q => ?_, fun p => ?_, fun q tq hq => ?_, ?_, fun q tq hq => ?_,
    fun q tq hq r tr hr hs => ?_, ⟨?_, fun k hk => ?_⟩, fun q tq hq hz => ?_, fun p hp => ?_⟩, hlive h.init⟩
  · rw [hclist]
    by_cases hqc : q = child
    · subst hqc
      rw [hself]
      refine iff_of_false ?_ (by simp)
      split
      · exact fun hmem' => ((h.nodup cur).mem_erase_iff.mp hmem').1 rfl
      · next hpc =>
        intro hmem'
        obtain ⟨-, tq, htq, hp⟩ := (h.child p q).mp hmem'
        rw [hchild] at htq
        cases htq
        exact hpc (hp.symm.trans hfather)
    · rw [hother hqc, ← h.child]
      split
      · next hpc =>
        subst hpc
        rw [(h.nodup p).mem_erase_iff]
        exact and_iff_right hqc
      · rfl
  · rw [hclist]
    split
    · exact (h.nodup cur).erase child
    · exact h.nodup p
  · exact hlive (h.father q tq (hold hq).2)
  · rw [hother (Ne.symm hq0)]
    exact h.idle
  · obtain ⟨hqc, hq'⟩ := hold hq
    obtain ⟨hlt, hnot⟩ := h.serial q tq hq'
    refine ⟨hlt, fun hin => ?_⟩
    rcases List.mem_cons.mp hin with he | hin
    · exact hqc (h.single q tq hq' child tc hchild he)
    · exact hnot hin
  · exact h.single q tq (hold hq).2 r tr (hold hr).2 hs
  · exact List.nodup_cons.2 ⟨(h.serial child tc hchild).2, h.reaped.1⟩
  · rcases List.mem_cons.mp hk with rfl | hk
    · exact (h.serial child tc hchild).1
    · exact h.reaped.2 k hk
  · exact h.code q tq (hold hq).2 hz
  · have hp' : update t.waits cur none p ≠ none := hp
    have hpc : p ≠ cur := by
      rintro rfl
      rw [update_self] at hp'
      exact hp' rfl
    rw [update_of_ne hpc] at hp'
    rw [hclist, if_neg hpc]
    exact h.waits p hp'

theorem back (cur : Nat) : FamilyInv (t.back cur) := by
  refine { h with waits := fun p hp => ?_ }
  have hp' : update t.waits cur none p ≠ none := hp
  rw [update_apply] at hp'
  split at hp'
  · exact absurd rfl hp'
  · exact h.waits p hp'

theorem park (hcur : t.clist cur ≠ []) (req : WaitReq) : FamilyInv (t.park cur req) := by
  refine { h with waits := fun p hp => ?_ }
  have hp' : update t.waits cur (some req) p ≠ none := hp
  rw [update_apply] at hp'
  split at hp'
  · next hpc => exact hpc ▸ hcur
  · exact h.waits p hp'

/-- Who has no zombie on its list is the father of none. -/
theorem no_zombie (hno : ∀ c ∈ t.clist cur, t.zombie c = false)
    (htc : t.task q = some tc) (hp : tc.ppid = cur) : tc.zombie = false := by
  by_cases hq : q = idlepid
  · subst hq
    obtain ⟨ti, hi, hz, -⟩ := h.idle
    rw [hi] at htc
    cases htc
    exact hz
  · have hz := hno q ((h.child cur q).mpr ⟨hq, tc, htc, hp⟩)
    rw [Tasks.zombie, htc] at hz
    exact hz

/-- What `wait`, `waitpid` and a process woken up there do. -/
theorem outcome {res : Option WaitResult}
    (hres : e.outcome t = some (t', res)) : Told t t' e.caller (e.anyChild t) res := by
  cases outcome_attended hres with
  | @reaped child tc hmem htc hzombie =>
    obtain ⟨-, tc', htc', hfather⟩ := (h.child _ child).mp hmem
    obtain rfl : tc = tc' := Option.some.inj (htc.symm.trans htc')
    refine ⟨h.reap hmem htc hzombie, fun c status he => ?_, (fun _ he => by simp at he)⟩
    cases he
    exact ⟨tc, htc, hzombie, hfather, h.code child tc htc hzombie, (h.serial child tc htc).2,
      update_self .., rfl⟩
  | parked req hcur =>
    exact ⟨h.park hcur req, nofun, (fun _ he => by simp at he)⟩
  | back hchild hnone =>
    refine ⟨h.back _, fun c status he => absurd (Option.some.inj he) (hchild c status),
      fun ha he c tc htc hp => ?_⟩
    exact h.no_zombie (hnone ha (he.imp Option.some.inj Option.some.inj)) htc hp

-- ======== runs

theorem step (hok : e.Kept t) (happly : e.apply t = some t') : FamilyInv t' := by
  obtain ⟨⟨hlive, hfair⟩, hkept⟩ := hok
  cases e with
  | fork cur mem => exact h.fork hlive happly
  | exit cur code => exact h.exit hlive hfair.2 hkept hfair.1 happly
  | setpgid cur pid pgid =>
    rcases settled_spec happly with rfl | hset
    · exact h
    · exact (akin_setpgid hset).inv h
  | setsid cur =>
    rcases settled_spec happly with rfl | hset
    · exact h
    · exact (akin_setsid hset).inv h
  | ttyOpen cur dev noctty => exact (akin_ttyOpen happly).inv h
  | wait cur option | waitpid cur pid option | wake cur intr =>
    obtain ⟨⟨t1, res⟩, hres, rfl⟩ := Option.map_eq_some_iff.mp happly
    exact (h.outcome hres).inv

/-- A child that is looked for on the list is in the table. -/
theorem attend_isSome {c : Nat} (hmem : c ∈ t.clist cur) (req : WaitReq)
    (option : Nat) : (t.attend cur req option c).isSome := by
  obtain ⟨-, tc, htc, -⟩ := (h.child cur c).mp hmem
  rw [Tasks.attend, htc]
  rfl

theorem checkAgain_isSome (hcur : t.clist cur ≠ []) (option : Nat) :
    (t.checkAgain cur option).isSome := by
  unfold Tasks.checkAgain
  split
  · next c hfind => exact h.attend_isSome (List.mem_of_find?_eq_some hfind) ..
  · rw [List.getLast?_eq_some_getLast hcur, Option.bind_some]
    exact h.attend_isSome (List.getLast_mem hcur) ..

theorem doAgain_isSome (pid : Int) (option : Nat) : (t.doAgain cur pid option).isSome := by
  unfold Tasks.doAgain
  split
  · rfl
  · next c hchosen => exact h.attend_isSome (chosen_mem hchosen) ..

/-- A process in `wait` always goes on: it never meets an empty list after
it slept. -/
theorem outcome_isSome (hfair : e.Fair t) (hwait : e.isWait = true) : (e.outcome t).isSome := by
  have hdoWait (cur option : Nat) : (t.doWait cur option).isSome := by
    unfold Tasks.doWait
    split
    · rfl
    · next hcur => exact h.checkAgain_isSome hcur option
  cases e with
  | wait cur option => exact hdoWait cur option
  | waitpid cur pid option =>
    unfold TaskEvent.outcome Tasks.doWaitpid
    dsimp only
    split
    · rfl
    · split
      · rfl
      · split
        · exact hdoWait cur option
        · exact h.doAgain_isSome pid option
  | wake cur intr =>
    have hwaits : t.waits cur ≠ none := hfair.2
    obtain ⟨req, hreq⟩ := Option.ne_none_iff_exists'.mp hwaits
    unfold TaskEvent.outcome Tasks.wake
    dsimp only
    rw [hreq, Option.bind_some]
    split
    · rfl
    · split
      · exact h.checkAgain_isSome (h.waits cur hwaits) _
      · exact h.doAgain_isSome ..
  | _ => cases hwait

end FamilyInv

/-- The idle process alone. -/
theorem schedInit_family : Family { schedInit with nextPid := 2 } := by
  have htask {q : Nat} {tq : Task} (hq : schedInit.task q = some tq) : q = idlepid ∧ tq = idleTask := by
    have hq' : (if q = idlepid then some idleTask else none) = some tq := hq
    split at hq'
    · next hqi =>
      cases hq'
      exact ⟨hqi, rfl⟩
    · cases hq'
  refine ⟨fun p q => ?_, fun _ => List.nodup_nil, fun q tq hq => ?_, ⟨idleTask, rfl, rfl, rfl⟩,
    fun q tq hq => ?_, fun q tq hq r tr hr _ => ?_, ⟨List.nodup_nil, nofun⟩, fun q tq hq hz => ?_,
    fun p hp => absurd rfl hp⟩
  · refine iff_of_false List.not_mem_nil ?_
    rintro ⟨hqi, tq, hq, -⟩
    exact hqi (htask hq).1
  · rw [(htask hq).2]
    exact ⟨idleTask, rfl, rfl⟩
  · rw [(htask hq).2]
    exact ⟨Nat.one_pos, List.not_mem_nil⟩
  · exact (htask hq).1.trans (htask hr).1.symm
  · rw [(htask hq).2] at hz
    cases hz

theorem tasksInit_family : FamilyInv tasksInit :=
  ⟨schedInit_family.copyProcess rfl rfl rfl, ⟨_, rfl, rfl⟩⟩

theorem TaskRun.family (h : TaskRun TaskEvent.Kept t) : FamilyInv t :=
  Reached.inv (fun _ ht => by rw [ht]; exact tasksInit_family)
    (fun _ _ _ hinv hok hs => hinv.step hok hs) h

/-- In every run in which `init` does not exit: every process is on the
list of its father only, nobody is reaped twice, `wait` and `waitpid` go
on, and what they return is right. -/
theorem family_kept (h : TaskRun TaskEvent.Kept t) :
    t.Listed ∧ t.reaped.Nodup ∧ (∀ q tq, t.task q = some tq → tq.serial ∉ t.reaped) ∧
      (∀ e : TaskEvent, e.Fair t → e.isWait = true → (e.outcome t).isSome) ∧
      ∀ (e : TaskEvent) (t' : Tasks) (res : WaitResult), e.outcome t = some (t', some res) →
        e.Right t t' res := by
  have hinv := h.family
  refine ⟨hinv.listed, hinv.reaped.1, fun q tq hq => (hinv.serial q tq hq).2,
    fun e hfair hwait => hinv.outcome_isSome hfair hwait, fun e t' res hres => ?_⟩
  have htold := hinv.outcome hres
  exact ⟨fun c status he => htold.child c status (congrArg some he),
    fun hany he => htold.none hany (he.imp (congrArg some) (congrArg some))⟩

instance (t : Tasks) (e : TaskEvent) : Decidable (e.Kept t) := by
  unfold TaskEvent.Kept
  induction e using TaskEvent.casesOn <;> infer_instance

/-- A grandchild of `init` loses its father and exits. -/
def orphan : List TaskEvent := [.fork 1 true, .fork 2 true, .exit 2 7, .exit 3 9]

/-- `init` gets its child first, and then the grandchild. -/
theorem family_kept_orphan : ∃ t, TaskRun TaskEvent.Kept t ∧ t.clist 1 = [2, 3] ∧
    ∃ t', (TaskEvent.wait 1 0).outcome t = some (t', some (.child 2 7)) ∧
      TaskEvent.Right t t' (.wait 1 0) (.child 2 7) := by
  obtain ⟨t, hplay, hlist, ⟨t', res⟩, hout, rfl⟩ : ∃ t,
      play TaskEvent.apply TaskEvent.Kept tasksInit orphan = some t ∧ t.clist 1 = [2, 3] ∧
      ∃ r, (TaskEvent.wait 1 0).outcome t = some r ∧ r.2 = some (.child 2 7) := by decide +kernel
  have hrun : TaskRun TaskEvent.Kept t := .play (.first rfl) hplay
  exact ⟨t, hrun, hlist, t', hout, (family_kept hrun).2.2.2.2 _ t' _ hout⟩

end Cnix.Kernel
