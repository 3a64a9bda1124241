/-
What the calls do to the table of processes.

`fork` leaves all as it is, or moves on the number it tries next, or makes
a process (`fork_cases`). A `wait` that does not get stuck reaps a zombie
from the list of the caller, or puts the caller to sleep, or returns without
a child (`Attended`). Groups and families are both kept along these cases.
-/
import Cnix.Kernel.Tasks

namespace Cnix.Kernel

open Lib

variable {t t' : Tasks} {p cur : Nat}

theorem Tasks.Live.isSome (h : t.Live p) : (t.task p).isSome := by
  obtain ⟨tp, htp, -⟩ := h
  rw [htp]
  rfl

theorem not_live_none (h : t.task p = none) : ¬ t.Live p := by
  intro hlive
  have hsome := hlive.isSome
  rw [h] at hsome
  cases hsome

theorem not_live_zombie {tp : Task} (h : t.task p = some tp) (hzombie : tp.zombie = true) :
    ¬ t.Live p := by
  rintro ⟨tq, htq, hlive⟩
  rw [h] at htq
  cases htq
  rw [hzombie] at hlive
  cases hlive

/-- An entry is changed in a way that leaves the state and the group. -/
theorem change_live {who : List Nat} {f : Task → Task} (hf : ∀ p, (f p).zombie = p.zombie) (p : Nat) :
    (t.change who f).Live p ↔ t.Live p := by
  unfold Tasks.Live Tasks.change
  dsimp only
  split
  · cases t.task p with
    | none => simp
    | some tp => simp [hf]
  · rfl

-- ======== fork

theorem copyProcess_live {tp : Task} {nr : Nat} (hlive : tp.zombie = false) (p : Nat) :
    (t.copyProcess cur nr tp).Live p ↔ p = nr ∨ t.Live p := by
  unfold Tasks.Live Tasks.copyProcess
  by_cases hp : p = nr
  · subst hp
    simp [hlive]
  · simp [hp]

theorem findLoop_spec {left i nr : Nat} (h : t.findLoop left i = some nr) :
    t.task nr = none ∧ (i < nrTasks → nr < nrTasks) := by
  induction left generalizing i with
  | zero => cases h
  | succ left ih =>
    unfold Tasks.findLoop at h
    split at h
    · next hnone =>
      cases h
      exact ⟨Option.isNone_iff_eq_none.mp hnone, id⟩
    · obtain ⟨hnone, hlt⟩ := ih h
      refine ⟨hnone, fun hi => hlt ?_⟩
      split
      · decide
      · omega

theorem fork_cases (hcur : t.Live cur) {mem : Bool} (h : t.fork cur mem = some t') :
    t' = t ∨ ∃ nr, t.task nr = none ∧ (t.nextPid < nrTasks → nr < nrTasks)
      ∧ (t' = { t with nextPid := nr % (nrTasks - 1) + 1 }
        ∨ ∃ tp, t.task cur = some tp ∧ tp.zombie = false
          ∧ t' = { t with nextPid := nr % (nrTasks - 1) + 1 }.copyProcess cur nr tp) := by
  obtain ⟨tp, htp, hlive⟩ := hcur
  unfold Tasks.fork at h
  rw [htp] at h
  cases hfind : t.findEmptyProcess with
  | none =>
    rw [hfind] at h
    cases h
    exact .inl rfl
  | some nr =>
    rw [hfind] at h
    obtain ⟨hnone, hlt⟩ := findLoop_spec hfind
    dsimp only at h
    split at h
    · cases h
      exact .inr ⟨nr, hnone, hlt, .inr ⟨tp, htp, hlive, rfl⟩⟩
    · cases h
      exact .inr ⟨nr, hnone, hlt, .inl rfl⟩

-- ======== groups

theorem settled_spec {res : Option (Except Tasks.GroupErrno Tasks)}
    (h : TaskEvent.settled t res = some t') : t' = t ∨ res = some (.ok t') := by
  unfold TaskEvent.settled at h
  split at h
  · cases h
  · cases h
    exact .inl rfl
  · cases h
    exact .inr rfl

-- ======== wait

/-- What `wait` and `waitpid` come to. Who waits for any child and gets
none has no zombie on its list. -/
inductive Tasks.Attended (t : Tasks) (cur : Nat) (anyChild : Prop) :
    Tasks → Option WaitResult → Prop
  | reaped {child : Nat} {tc : Task} : child ∈ t.clist cur → t.task child = some tc →
      tc.zombie = true →
      Attended t cur anyChild (t.reap cur child tc) (some (.child child tc.exitCode))
  | parked (req : WaitReq) : t.clist cur ≠ [] → Attended t cur anyChild (t.park cur req) none
  | back {res : WaitResult} : (∀ c status, res ≠ .child c status) →
      (anyChild → res = .echild ∨ res = .zero → ∀ c ∈ t.clist cur, t.zombie c = false) →
      Attended t cur anyChild (t.back cur) (some res)

variable {any any' : Prop} {res : Option WaitResult} {option : Nat} {pid : Int}

theorem Tasks.Attended.weaken (h : t.Attended cur any t' res) (hany : any' → any) :
    t.Attended cur any' t' res := by
  cases h with
  | reaped hmem htc hzombie => exact .reaped hmem htc hzombie
  | parked req hcur => exact .parked req hcur
  | back hchild hnone => exact .back hchild fun ha => hnone (hany ha)

theorem attend_attended {req : WaitReq} {child : Nat} (hmem : child ∈ t.clist cur)
    (hany : any → t.zombie child = false → ∀ c ∈ t.clist cur, t.zombie c = false)
    (h : t.attend cur req option child = some (t', res)) : t.Attended cur any t' res := by
  obtain ⟨tc, htc, hif⟩ := Option.map_eq_some_iff.mp h
  split at hif
  · next hzombie =>
    cases hif
    exact .reaped hmem htc hzombie
  · next hzombie =>
    split at hif
    · cases hif
      refine .back nofun fun ha _ => hany ha ?_
      rw [Tasks.zombie, htc]
      simpa using hzombie
    · cases hif
      exact .parked req (List.ne_nil_of_mem hmem)

theorem checkAgain_attended (h : t.checkAgain cur option = some (t', res)) :
    t.Attended cur True t' res := by
  unfold Tasks.checkAgain at h
  split at h
  · next c hfind =>
    refine attend_attended (List.mem_of_find?_eq_some hfind) (fun _ hz => ?_) h
    rw [List.find?_some hfind] at hz
    cases hz
  · next hfind =>
    obtain ⟨c, hlast, hc⟩ := Option.bind_eq_some_iff.mp h
    refine attend_attended (List.mem_of_getLast? hlast) (fun _ _ c' hc' => ?_) hc
    simpa using List.find?_eq_none.mp hfind c' hc'

/-- No children, no zombies. -/
theorem lonely_attended (hnil : t.clist cur = []) :
    t.Attended cur any (t.back cur) (some .echild) := by
  refine .back nofun fun _ _ c hc => ?_
  rw [hnil] at hc
  exact absurd hc List.not_mem_nil

theorem doWait_attended (h : t.doWait cur option = some (t', res)) :
    t.Attended cur True t' res := by
  unfold Tasks.doWait at h
  split at h
  · next hnil =>
    cases h
    exact lonely_attended hnil
  · exact checkAgain_attended h

theorem chosen_mem {c : Nat} (h : t.chosen cur pid = some c) : c ∈ t.clist cur := by
  unfold Tasks.chosen at h
  split at h
  · exact List.mem_of_find?_eq_some h
  · dsimp only at h
    split at h
    · next c' hfind =>
      cases h
      exact List.mem_of_mem_filter (List.mem_of_find?_eq_some hfind)
    · exact List.mem_of_mem_filter (List.mem_of_getLast? h)

theorem doAgain_attended (h : t.doAgain cur pid option = some (t', res)) :
    t.Attended cur False t' res := by
  unfold Tasks.doAgain at h
  split at h
  · cases h
    exact .back nofun fun hf => hf.elim
  · next c hchosen => exact attend_attended (chosen_mem hchosen) (fun hf => hf.elim) h

/-- The call waits for any child. -/
def TaskEvent.anyChild (t : Tasks) : TaskEvent → Prop
  | .wait _ _ => True
  | .waitpid _ pid _ => pid = -1
  | .wake cur _ => ∃ option, t.waits cur = some (.wait option)
  | _ => False

theorem outcome_attended {e : TaskEvent} (h : e.outcome t = some (t', res)) :
    t.Attended e.caller (e.anyChild t) t' res := by
  cases e with
  | wait cur option => exact doWait_attended h
  | waitpid cur pid option =>
    unfold TaskEvent.outcome Tasks.doWaitpid at h
    dsimp only at h
    split at h
    · next hnil =>
      cases h
      exact lonely_attended hnil
    · split at h
      · cases h
        exact .back nofun (fun _ he => by simp at he)
      · split at h
        · exact (doWait_attended h).weaken fun _ => trivial
        · next hpid => exact (doAgain_attended h).weaken fun he => hpid he
  | wake cur intr =>
    obtain ⟨req, hreq, hif⟩ := Option.bind_eq_some_iff.mp h
    split at hif
    · cases hif
      exact .back nofun (fun _ he => by simp at he)
    · split at hif
      · exact (checkAgain_attended hif).weaken fun _ => trivial
      · refine (doAgain_attended hif).weaken ?_
        rintro ⟨option', he⟩
        rw [hreq] at he
        cases he
  | _ => cases h

end Cnix.Kernel
