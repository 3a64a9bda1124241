/-
The rings of `pglist` and the process groups.

# What goes wrong

`sys_setpgid` takes the process off the ring of its group and gives it
the new group number, but does not put it on the ring of the new group. A
signal to the group does not reach it. A zombie keeps the pointers to the
ring that it left, so that a signal to a zombie that was the leader of its
group goes around that ring for ever.

# What holds

If `setpgid` only makes a process the leader of a group of its own, the
rings are the classes of the group numbers (`GroupInv`). The second half of
the invariant is that the number of a group is the pid of one of its
living members: that is why a number that is given out new (to the
others when the leader exits, or to a process that becomes a leader) is
that of no other group.
-/
import Mathlib.Data.Finset.Card
import Mathlib.Order.Interval.Finset.Nat
import Cnix.Kernel.Proofs.Tasks

namespace Cnix.Kernel

open Lib Links
open Function (update update_self update_apply update_of_ne)

variable {t t' : Tasks} {p q cur : Nat} {f : Task → Task} {tp : Task} {pid pgid : Int}
  {e : TaskEvent}

-- ======== the property

/-- The rings match the group numbers, and a signal to a group reaches
its living members: one to the group of a leader that lives, and one
from a terminal whose owner lives. -/
structure Tasks.Grouped (t : Tasks) : Prop where
  ring : ∀ p q, t.Live p → t.Live q → (t.pgid p = t.pgid q ↔ ∃ l, t.pglist.Ring p l ∧ q ∈ p :: l)
  kill : ∀ cur g l, t.Live g → t.killGroup cur g = some (.ok l) →
    l.Nodup ∧ ∀ q, q ∈ l ↔ t.Live q ∧ t.pgid q = g
  killEnds : ∀ cur g, t.Live g → t.killGroup cur g ≠ none
  kbd : ∀ tty, t.Live (t.owner tty) → 0 < t.owner tty → ∃ l, t.kbdSig tty = some l ∧ l.Nodup ∧
    ∀ q, q ∈ l ↔ t.Live q ∧ t.pgid q = t.pgid (t.owner tty)

/-- `setpgid` is called for a process that lives, to make it a leader or
for the group that it is in, and `init` does not exit. -/
def TaskEvent.Leads (t : Tasks) (e : TaskEvent) : Prop :=
  e.Fair t ∧ match e with
    | .exit cur _ => cur ≠ initpid
    | .setpgid cur pid pgid =>
      let p := if pid = 0 then cur else pid.toNat
      t.Live p ∧ ((p : Int) = pgid ∨ (t.pgid p : Int) = pgid)
    | _ => True

-- ======== the invariant

/-- The rings are the classes of the group numbers, and the number of a
group is the pid of a member. -/
structure GroupInv (t : Tasks) : Prop where
  classes : t.pglist.Classes t.Live t.pgid
  leader : ∀ p, t.Live p → t.Live (t.pgid p) ∧ t.pgid (t.pgid p) = t.pgid p
  bound : ∀ p, (t.task p).isSome → p < nrTasks
  next : t.nextPid < nrTasks

-- ======== bookkeeping

theorem change_isSome (who : List Nat) (f : Task → Task) (p : Nat) :
    ((t.change who f).task p).isSome = (t.task p).isSome := by
  unfold Tasks.change
  dsimp only
  split
  · cases t.task p <;> rfl
  · rfl

theorem change_pgid {who : List Nat} (hf : ∀ p, (f p).pgid = p.pgid) (p : Nat) :
    (t.change who f).pgid p = t.pgid p := by
  unfold Tasks.pgid Tasks.change
  dsimp only
  split
  · cases t.task p with
    | none => rfl
    | some tp => exact hf tp
  · rfl

/-- Some processes get a new group number. -/
theorem change_pgid_set (who : List Nat) {g : Nat} (hf : ∀ p, (f p).pgid = g)
    (hp : t.Live p) : (t.change who f).pgid p = if p ∈ who then g else t.pgid p := by
  obtain ⟨tp, htp, -⟩ := hp
  unfold Tasks.pgid Tasks.change
  dsimp only
  split
  · rw [htp]
    exact hf tp
  · rfl

theorem bury_live (t : Tasks) (cur : Nat) (code : Int) (q : Nat) :
    (t.bury cur code).Live q ↔ q ≠ cur ∧ t.Live q := by
  unfold Tasks.Live Tasks.bury Tasks.change
  by_cases hq : q = cur
  · subst hq
    cases t.task q <;> simp
  · simp [hq]

theorem bury_pgid (t : Tasks) (cur : Nat) (code : Int) (q : Nat) :
    (t.bury cur code).pgid q = t.pgid q := by
  exact change_pgid (fun _ => by rfl) q

/-- What a process leaves behind: the rings of the others are the classes
of their groups, and each group has a leader. -/
structure Left (t t' : Tasks) (cur : Nat) : Prop where
  live : ∀ q, t'.Live q ↔ t.Live q
  classes : t'.pglist.Classes (fun q => q ≠ cur ∧ t.Live q) t'.pgid
  leader : ∀ q, q ≠ cur → t.Live q →
    t'.pgid q ≠ cur ∧ t.Live (t'.pgid q) ∧ t'.pgid (t'.pgid q) = t'.pgid q
  isSome : ∀ q, (t'.task q).isSome = (t.task q).isSome
  next : t'.nextPid = t.nextPid

theorem Left.bury (h : GroupInv t) (hleft : Left t t' cur) (code : Int) : GroupInv (t'.bury cur code) := by
  have hlive (q : Nat) : (t'.bury cur code).Live q ↔ q ≠ cur ∧ t.Live q := by
    rw [bury_live, hleft.live]
  refine ⟨hleft.classes.congr hlive fun q _ => bury_pgid t' cur code q, fun q hq => ?_, fun q hq => ?_, ?_⟩
  · obtain ⟨hqc, hq⟩ := (hlive q).mp hq
    obtain ⟨hne, hl, hg⟩ := hleft.leader q hqc hq
    rw [bury_pgid, bury_pgid]
    exact ⟨(hlive _).mpr ⟨hne, hl⟩, hg⟩
  · have hq' : ((t'.change [cur] _).task q).isSome := hq
    rw [change_isSome, hleft.isSome] at hq'
    exact h.bound q hq'
  · exact hleft.next.trans_lt h.next

theorem terminal_alike (t : Tasks) (cur : Nat) (tp : Task) (who : List Nat) (tty' : Nat) :
    let t1 := if t.owns cur tp then (t.setOwner tty' 0).change who ({ · with tty := notty }) else t
    (∀ q, t1.Live q ↔ t.Live q) ∧ (∀ q, t1.pgid q = t.pgid q) ∧ t1.pglist = t.pglist ∧
      (∀ q, (t1.task q).isSome = (t.task q).isSome) ∧ t1.nextPid = t.nextPid := by
  split
  · refine ⟨fun q => ?_, fun q => ?_, rfl, fun q => change_isSome who _ q, rfl⟩
    · exact change_live (t := t.setOwner tty' 0) (fun _ => by rfl) q
    · exact change_pgid (t := t.setOwner tty' 0) (fun _ => by rfl) q
  · exact ⟨fun _ => Iff.rfl, fun _ => rfl, rfl, fun _ => rfl, rfl⟩

/-- Who passes the checks is not in the group yet. -/
theorem checkPgid_spec (h : t.checkPgid cur pid pgid = .ok (some p)) :
    p = (if pid = 0 then cur else pid.toNat) ∧ 0 ≤ pgid ∧ ∀ tp, t.task p = some tp → tp.pgid ≠ pgid.toNat := by
  unfold Tasks.checkPgid at h
  split at h
  · cases h
  split at h
  · cases h
  next hpgid =>
  split at h
  · split at h
    · cases h
    dsimp only at h
    generalize (if pid = 0 then cur else pid.toNat) = who at h ⊢
    split at h
    · cases h
    next tp htp =>
    split at h
    · cases h
    next hne =>
    have hp : p = who := by
      split at h
      · split at h
        · cases h
        · cases h
          rfl
      · split at h
        · cases h
        split at h
        · cases h
        · cases h
          rfl
    refine ⟨hp, by omega, fun tq htq => ?_⟩
    rw [hp, htp] at htq
    cases htq
    exact hne
  · cases h

theorem pgid_task (hp : t.task p = some tp) : t.pgid p = tp.pgid := by
  rw [Tasks.pgid, hp]
  rfl

-- ======== the groups

namespace GroupInv

variable (h : GroupInv t)

include h

/-- Only who lives, their groups and the rings matter. -/
theorem congr (hlive : ∀ p, t'.Live p ↔ t.Live p)
    (hpgid : ∀ p, t.Live p → t'.pgid p = t.pgid p) (hring : t'.pglist = t.pglist)
    (hsome : ∀ p, (t'.task p).isSome → (t.task p).isSome) (hnext : t'.nextPid = t.nextPid) :
    GroupInv t' := by
  refine ⟨?_, fun p hp => ?_, fun p hp => h.bound p (hsome p hp), ?_⟩
  · rw [hring]
    exact h.classes.congr hlive hpgid
  · have hp' := (hlive p).mp hp
    obtain ⟨hl, hg⟩ := h.leader p hp'
    rw [hpgid p hp', hlive, hpgid _ hl]
    exact ⟨hl, hg⟩
  · rw [hnext]
    exact h.next

/-- The loop over the others of a group meets them. -/
theorem others (hp : t.Live p) : ∃ l, t.others p = some l ∧
    t.pglist.Ring p l ∧ ∀ q, q ∈ p :: l ↔ t.Live q ∧ t.pgid q = t.pgid p := by
  obtain ⟨l, hring, hmem⟩ := h.classes p hp
  refine ⟨l, hring.visit ?_, hring, hmem⟩
  -- all nodes are numbers below `NR_TASKS`
  have hsub : (p :: l).toFinset ⊆ Finset.range nrTasks := by
    intro q hq
    exact Finset.mem_range.mpr (h.bound q ((hmem q).mp (List.mem_toFinset.mp hq)).1.isSome)
  have hcard := Finset.card_le_card hsub
  rw [List.toFinset_card_of_nodup hring.nodup, Finset.card_range, List.length_cons] at hcard
  omega

theorem members (hp : t.Live p) : ∃ l, t.members p = some l ∧ l.Nodup ∧
    ∀ q, q ∈ l ↔ t.Live q ∧ t.pgid q = t.pgid p := by
  obtain ⟨l, hothers, hring, hmem⟩ := h.others hp
  refine ⟨p :: l, ?_, hring.nodup, hmem⟩
  rw [Tasks.members, hothers]
  rfl

theorem grouped : t.Grouped := by
  refine ⟨fun p q hp hq => ?_, fun cur g l hg hkill => ?_, fun cur g hg => ?_, fun tty hlive hpos => ?_⟩
  · obtain ⟨l, hring, hmem⟩ := h.classes p hp
    constructor
    · exact fun hpq => ⟨l, hring, (hmem q).mpr ⟨hq, hpq.symm⟩⟩
    · rintro ⟨l', hring', hq'⟩
      rw [hring'.unique hring] at hq'
      exact ((hmem q).mp hq').2.symm
  · obtain ⟨l', hmembers, hnodup, hmem⟩ := h.members hg
    unfold Tasks.killGroup at hkill
    rw [hmembers] at hkill
    split at hkill
    · cases hkill
    split at hkill
    · next c tg hc htg =>
      split at hkill
      · cases hkill
      next hgid =>
      split at hkill
      · cases hkill
      cases hkill
      have hpgid : t.pgid g = g := by
        rw [Tasks.pgid, htg]
        exact of_not_not hgid
      rw [hpgid] at hmem
      exact ⟨hnodup, hmem⟩
    · cases hkill
  · obtain ⟨l', hmembers, -⟩ := h.members hg
    unfold Tasks.killGroup
    rw [hmembers]
    split
    · exact Option.some_ne_none _
    · split
      · split
        · exact Option.some_ne_none _
        · split <;> exact Option.some_ne_none _
      · exact Option.some_ne_none _
  · obtain ⟨l, hmembers, hnodup, hmem⟩ := h.members hlive
    refine ⟨l, ?_, hnodup, hmem⟩
    rw [Tasks.kbdSig, if_neg (Nat.pos_iff_ne_zero.mp hpos), hmembers]

/-- What does not touch the groups keeps them. -/
theorem change (who : List Nat)
    (hzombie : ∀ p, (f p).zombie = p.zombie) (hpgid : ∀ p, (f p).pgid = p.pgid) :
    GroupInv (t.change who f) :=
  h.congr (change_live hzombie) (fun p _ => change_pgid hpgid p) rfl
    (fun p hp => by rwa [change_isSome] at hp) rfl

-- ======== fork

theorem copyProcess {nr : Nat} (hcur : t.task cur = some tp)
    (hlive : tp.zombie = false) (hnr : t.task nr = none) (hlt : nr < nrTasks) :
    GroupInv (t.copyProcess cur nr tp) := by
  have hcurlive : t.Live cur := ⟨tp, hcur, hlive⟩
  have hnrlive : ¬ t.Live nr := not_live_none hnr
  have hlive' (p : Nat) : (t.copyProcess cur nr tp).Live p ↔ p = nr ∨ t.Live p :=
    copyProcess_live hlive p
  have hpgid : (t.copyProcess cur nr tp).pgid = update t.pgid nr (t.pgid cur) := by
    funext p
    unfold Tasks.pgid Tasks.copyProcess
    by_cases hp : p = nr
    · subst hp
      simp [hcur]
    · simp [update_of_ne hp]
  have hother {p : Nat} (hp : t.Live p) : update t.pgid nr (t.pgid cur) p = t.pgid p := by
    have hpn : p ≠ nr := fun hpn => hnrlive (hpn ▸ hp)
    exact update_of_ne hpn ..
  refine ⟨?_, fun p hp => ?_, fun p hp => ?_, h.next⟩
  · rw [hpgid]
    exact (h.classes.insertHead hcurlive hnrlive).congr hlive' fun _ _ => rfl
  · rw [hpgid]
    -- the new process is in the group of its father
    have hgroup (q : Nat) (hq : t.Live q) (he : update t.pgid nr (t.pgid cur) p = t.pgid q) :
        (t.copyProcess cur nr tp).Live (update t.pgid nr (t.pgid cur) p) ∧
          update t.pgid nr (t.pgid cur) (update t.pgid nr (t.pgid cur) p)
            = update t.pgid nr (t.pgid cur) p := by
      obtain ⟨hl, hg⟩ := h.leader q hq
      rw [he, hother hl]
      exact ⟨(hlive' _).mpr (.inr hl), hg⟩
    rcases (hlive' p).mp hp with rfl | hp
    · exact hgroup cur hcurlive (update_self ..)
    · exact hgroup p hp (hother hp)
  · by_cases hpn : p = nr
    · exact hpn ▸ hlt
    · have hp' : (update t.task nr _ p).isSome := hp
      rw [update_of_ne hpn] at hp'
      exact h.bound p hp'

theorem fork (hcur : t.Live cur) {mem : Bool}
    (happly : t.fork cur mem = some t') : GroupInv t' := by
  rcases fork_cases hcur happly with rfl | ⟨nr, hnone, hlt, hcase⟩
  · exact h
  · have hnext : nr % (nrTasks - 1) + 1 < nrTasks := by
      unfold nrTasks
      omega
    have h1 : GroupInv { t with nextPid := nr % (nrTasks - 1) + 1 } :=
      ⟨h.classes, h.leader, h.bound, hnext⟩
    rcases hcase with rfl | ⟨tp, htp, hlive, rfl⟩
    · exact h1
    · exact h1.copyProcess htp hlive hnone (hlt h.next)

-- ======== exit

/-- Nobody is in the group of a process that is not its leader. -/
theorem not_leader (hcur : t.pgid cur ≠ cur) (hq : t.Live q) : t.pgid q ≠ cur := by
  intro he
  have hg := (h.leader q hq).2
  rw [he] at hg
  exact hcur hg

/-- The others get a new number if the leader goes. -/
theorem rename {l : List Nat} {first : Nat}
    (hmem : ∀ q, q ∈ cur :: l ↔ t.Live q ∧ t.pgid q = t.pgid cur) (hlead : t.pgid cur = cur)
    (hfirst : first ∈ l) (hnot : cur ∉ l) {key : Nat → Nat}
    (hkey : ∀ q, t.Live q → key q = if q ∈ l then first else t.pgid q) :
    (t.pglist.unlink cur).Classes (fun q => q ≠ cur ∧ t.Live q) key ∧
      ∀ q, q ≠ cur → t.Live q → key q ≠ cur ∧ t.Live (key q) ∧ key (key q) = key q := by
  have hfc : first ≠ cur := fun he => hnot (he ▸ hfirst)
  obtain ⟨hflive, hfgid⟩ := (hmem first).mp (List.mem_cons_of_mem _ hfirst)
  rw [hlead] at hfgid
  have hcur : t.Live cur := ((hmem cur).mp List.mem_cons_self).1
  -- who is not in the group does not have the new number
  have hnew {q : Nat} (hq : t.Live q) : t.pgid q ≠ first := by
    intro he
    have hg := (h.leader q hq).2
    rw [he, hfgid] at hg
    exact hfc hg.symm
  have hin {q : Nat} (hq : t.Live q) (hqc : q ≠ cur) : q ∈ l ↔ t.pgid q = cur := by
    have := hmem q
    rw [List.mem_cons, hlead] at this
    tauto
  refine ⟨(h.classes.unlink hcur).rekey fun p q hp hq => ?_, fun q hqc hq => ?_⟩
  · rw [hkey p hp.2, hkey q hq.2]
    by_cases hpl : p ∈ l <;> by_cases hql : q ∈ l
    · rw [if_pos hpl, if_pos hql, (hin hp.2 hp.1).mp hpl, (hin hq.2 hq.1).mp hql]
      simp
    · rw [if_pos hpl, if_neg hql, (hin hp.2 hp.1).mp hpl]
      exact iff_of_false (hnew hq.2) fun he => hql ((hin hq.2 hq.1).mpr he)
    · rw [if_neg hpl, if_pos hql, (hin hq.2 hq.1).mp hql]
      exact iff_of_false (fun he => hnew hp.2 he.symm) fun he => hpl ((hin hp.2 hp.1).mpr he.symm)
    · rw [if_neg hpl, if_neg hql]
  · rw [hkey q hq]
    by_cases hql : q ∈ l
    · rw [if_pos hql, hkey first hflive, if_pos hfirst]
      exact ⟨hfc, hflive, rfl⟩
    · obtain ⟨hl, hg⟩ := h.leader q hq
      have hgc : t.pgid q ≠ cur := fun he => hql ((hin hq hqc).mpr he)
      rw [if_neg hql, hkey _ hl, if_neg fun hmem => hgc (hg ▸ (hin hl hgc).mp hmem)]
      exact ⟨hgc, hl, hg⟩

theorem leaveGroup (hcur : t.task cur = some tp)
    (hlive : tp.zombie = false) (hleave : t.leaveGroup cur tp = some t') : Left t t' cur := by
  have hcurlive : t.Live cur := ⟨tp, hcur, hlive⟩
  have hpgid := pgid_task hcur
  obtain ⟨l, hothers, hring, hmem⟩ := h.others hcurlive
  have hnot : cur ∉ l := (List.nodup_cons.1 hring.nodup).1
  unfold Tasks.leaveGroup at hleave
  split at hleave
  · next halone =>
    -- nobody else is in the group
    have hprev : t.pglist.prev cur = cur := of_decide_eq_true halone
    obtain rfl : l = [] := hring.prev_self_iff.mp hprev
    have hleft : Left t t cur := by
      refine ⟨fun _ => Iff.rfl, h.classes.forget hcurlive hring, fun q hqc hq => ?_, fun _ => rfl, rfl⟩
      obtain ⟨hl, hg⟩ := h.leader q hq
      refine ⟨fun he => hqc ?_, hl, hg⟩
      rw [he] at hg
      have := (hmem q).mpr ⟨hq, he.trans hg.symm⟩
      simpa using this
    split at hleave
    · cases hleave
      exact ⟨hleft.live, hleft.classes, hleft.leader, hleft.isSome, rfl⟩
    · cases hleave
      exact hleft
  · next halone =>
    have hne : l ≠ [] := by
      rintro rfl
      exact halone (decide_eq_true (hring.prev_self_iff.mpr rfl))
    obtain ⟨first, l, rfl⟩ := List.exists_cons_of_ne_nil hne
    have hfirst : t.pglist.next cur = first := hring.next_cons
    rw [hothers] at hleave
    simp only [Option.map_some, Option.some.injEq] at hleave
    obtain ⟨hlive1, hpgid1, hlist1, hsome1, hnext1⟩ :=
      terminal_alike t cur tp (first :: l) (Tasks.terminal tp)
    -- the terminal is given up first; then the number may change
    revert hlive1 hpgid1 hlist1 hsome1 hnext1 hleave
    generalize (if t.owns cur tp then (t.setOwner (Tasks.terminal tp) 0).change (first :: l)
      ({ · with tty := notty }) else t) = t1
    intro hleave hlive1 hpgid1 hlist1 hsome1 hnext1
    rw [hfirst] at hleave
    split at hleave
    · next hlead =>
      subst hleave
      have hlead' : t.pgid cur = cur := hpgid.trans hlead.symm
      have hkey (q : Nat) (hq : t.Live q) :
          (t1.change (first :: l) ({ · with pgid := first })).pgid q
            = if q ∈ first :: l then first else t.pgid q := by
        rw [change_pgid_set (first :: l) (fun _ => by rfl) ((hlive1 q).mpr hq), hpgid1]
      obtain ⟨hclasses, hleader⟩ := h.rename hmem hlead' List.mem_cons_self hnot hkey
      refine ⟨fun q => ?_, ?_, hleader, fun q => ?_, hnext1⟩
      · exact (change_live (fun _ => by rfl) q).trans (hlive1 q)
      · show (Links.unlink t1.pglist cur).Classes _ _
        rw [hlist1]
        exact hclasses
      · exact (change_isSome (first :: l) _ q).trans (hsome1 q)
    · next hlead =>
      subst hleave
      have hlead' : t.pgid cur ≠ cur := fun he => hlead (he.symm.trans hpgid)
      refine ⟨hlive1, ?_, fun q hqc hq => ?_, hsome1, hnext1⟩
      · rw [hlist1]
        exact (h.classes.unlink hcurlive).congr (fun _ => Iff.rfl) fun q _ => hpgid1 q
      · obtain ⟨hl, hg⟩ := h.leader q hq
        show t1.pgid q ≠ cur ∧ t.Live (t1.pgid q) ∧ t1.pgid (t1.pgid q) = t1.pgid q
        rw [hpgid1, hpgid1]
        exact ⟨h.not_leader hlead' hq, hl, hg⟩

/-- The lists of children do not matter for the groups. -/
theorem adopt (hinit : cur ≠ initpid) (hadopt : t.adopt cur = some t') :
    GroupInv t' ∧ (t'.Live cur ↔ t.Live cur) := by
  rw [Tasks.adopt, if_neg hinit] at hadopt
  cases hadopt
  have h1 := h.change (t.clist cur) (f := ({ · with ppid := initpid })) (fun _ => rfl) (fun _ => rfl)
  refine ⟨h1.congr (fun _ => Iff.rfl) (fun _ _ => rfl) rfl (fun _ hp => hp) rfl, ?_⟩
  exact change_live (f := ({ · with ppid := initpid })) (fun _ => by rfl) cur

theorem exit (hcur : t.Live cur) (hinit : cur ≠ initpid) {code : Int}
    (happly : t.exit cur code = some t') : GroupInv t' := by
  obtain ⟨t1, hadopt, hrest⟩ := Option.bind_eq_some_iff.mp happly
  obtain ⟨h1, hcur1⟩ := h.adopt hinit hadopt
  obtain ⟨tp, htp, hlive⟩ := hcur1.mpr hcur
  rw [htp, Option.bind_some] at hrest
  obtain ⟨t2, hleave, rfl⟩ := Option.map_eq_some_iff.mp hrest
  exact (h1.leaveGroup htp hlive hleave).bury h1 code

-- ======== setpgid

/-- A process is alone on a ring, with its pid for a group number. -/
theorem moved (hcur : t.Live cur) (hlead : t.pgid cur ≠ cur)
    (htask : t'.task = t.task) (hlist : t'.pglist = t.pglist.isolate cur)
    (hnext : t'.nextPid = t.nextPid) (hzombie : ∀ p, (f p).zombie = p.zombie)
    (hgroup : ∀ p, (f p).pgid = cur) : GroupInv (t'.change [cur] f) := by
  have hlive (q : Nat) : (t'.change [cur] f).Live q ↔ t.Live q := by
    rw [change_live hzombie]
    unfold Tasks.Live
    rw [htask]
  have hpgid {q : Nat} (hq : t.Live q) :
      (t'.change [cur] f).pgid q = update t.pgid cur cur q := by
    have hq' : t'.Live q := (change_live hzombie q).mp ((hlive q).mpr hq)
    have hsame : t'.pgid q = t.pgid q := by
      unfold Tasks.pgid
      rw [htask]
    rw [change_pgid_set [cur] hgroup hq', update_apply, hsame]
    simp
  refine ⟨?_, fun q hq => ?_, fun q hq => ?_, ?_⟩
  · show t'.pglist.Classes _ _
    rw [hlist]
    have hclasses := h.classes.isolate hcur (k := cur) fun q hq _ => h.not_leader hlead hq
    exact hclasses.congr hlive fun q hq => hpgid hq
  · have hq' := (hlive q).mp hq
    by_cases hqc : q = cur
    · subst hqc
      rw [hpgid hq', update_self, hpgid hq', update_self]
      exact ⟨hq, rfl⟩
    · obtain ⟨hl, hg⟩ := h.leader q hq'
      rw [hpgid hq', update_of_ne hqc, hpgid hl,
        update_of_ne (h.not_leader hlead hq')]
      exact ⟨(hlive _).mpr hl, hg⟩
  · rw [change_isSome, htask] at hq
    exact h.bound q hq
  · exact hnext.trans_lt h.next

/-- A process becomes the leader of a group of its own. -/
theorem moveGroup (hcur : t.task cur = some tp)
    (hlive : tp.zombie = false) (hlead : tp.pgid ≠ cur) (hmove : t.moveGroup cur cur tp = some t') :
    GroupInv t' := by
  have hcurlive : t.Live cur := ⟨tp, hcur, hlive⟩
  have hpgid := pgid_task hcur
  have hlead' : t.pgid cur ≠ cur := fun he => hlead (hpgid.symm.trans he)
  obtain ⟨l, hothers, hring, hmem⟩ := h.others hcurlive
  have halone : t.alone cur = false := by
    -- the leader of its group is on its ring
    refine decide_eq_false fun hprev => hlead' ?_
    obtain rfl : l = [] := hring.prev_self_iff.mp hprev
    have := (hmem (t.pgid cur)).mpr (h.leader cur hcurlive)
    simpa using this
  unfold Tasks.moveGroup at hmove
  rw [if_neg (by rw [halone]; exact Bool.false_ne_true), hothers] at hmove
  simp only [Option.map_some, Option.some.injEq] at hmove
  rw [if_neg (Ne.symm hlead)] at hmove
  subst hmove
  split
  all_goals
    refine h.moved hcurlive hlead' ?_ ?_ ?_ (fun _ => ?_) (fun _ => ?_)
    all_goals rfl

theorem setpgid (hok : t.Live (if pid = 0 then cur else pid.toNat) ∧
      (((if pid = 0 then cur else pid.toNat : Nat) : Int) = pgid ∨
        (t.pgid (if pid = 0 then cur else pid.toNat) : Int) = pgid))
    (hset : t.setpgid cur pid pgid = some (.ok t')) : GroupInv t' := by
  unfold Tasks.setpgid at hset
  split at hset
  · cases hset
  · cases hset
    exact h
  · next p hcheck =>
    obtain ⟨hp, hpos, hne⟩ := checkPgid_spec hcheck
    rw [← hp] at hok
    obtain ⟨⟨tp, htp, hlive⟩, hok⟩ := hok
    have hpgid := pgid_task htp
    have hown : pgid.toNat = p := by
      rcases hok with hok | hok
      · omega
      · refine absurd ?_ (hne tp htp)
        omega
    rw [htp, Option.bind_some, hown] at hset
    obtain ⟨t1, hmove, he⟩ := Option.map_eq_some_iff.mp hset
    cases he
    exact h.moveGroup htp hlive (hown ▸ hne tp htp) hmove

theorem setsid (hcur : t.Live cur) (hset : t.setsid cur = some (.ok t')) : GroupInv t' := by
  obtain ⟨res, hres, hmap⟩ := Option.map_eq_some_iff.mp hset
  cases res with
  | error e => cases hmap
  | ok t1 =>
    cases hmap
    have hown : (if (cur : Int) = 0 then cur else (cur : Int).toNat) = cur := by
      split <;> omega
    have h1 : GroupInv t1 := by
      refine h.setpgid ?_ hres
      rw [hown]
      exact ⟨hcur, .inl rfl⟩
    exact h1.change [cur] (fun _ => rfl) (fun _ => rfl)

-- ======== wait

/-- A zombie is in no group, so that it can be freed. -/
theorem reap {child : Nat} (hchild : t.task child = some tp)
    (hzombie : tp.zombie = true) : GroupInv (t.reap cur child tp) := by
  have hdead : ¬ t.Live child := not_live_zombie hchild hzombie
  have htask (q : Nat) (hq : q ≠ child) : (t.reap cur child tp).task q = t.task q :=
    update_of_ne hq ..
  have hself : (t.reap cur child tp).task child = none := update_self ..
  refine h.congr (fun q => ?_) (fun q hq => ?_) rfl (fun q hq => ?_) rfl
  · by_cases hqc : q = child
    · subst hqc
      exact iff_of_false (not_live_none hself) hdead
    · unfold Tasks.Live
      rw [htask q hqc]
  · have hqc : q ≠ child := fun hqc => hdead (hqc ▸ hq)
    unfold Tasks.pgid
    rw [htask q hqc]
  · by_cases hqc : q = child
    · subst hqc
      rw [hself] at hq
      cases hq
    · rwa [htask q hqc] at hq

theorem outcome {res : Option WaitResult} (hres : e.outcome t = some (t', res)) : GroupInv t' := by
  have hplain {w : Nat → Option WaitReq} : GroupInv { t with waits := w } :=
    h.congr (fun _ => Iff.rfl) (fun _ _ => rfl) rfl (fun _ hp => hp) rfl
  cases outcome_attended hres with
  | reaped _ htc hzombie => exact h.reap htc hzombie
  | parked req _ | back _ _ => exact hplain

-- ======== runs

theorem step (hok : e.Leads t) (happly : e.apply t = some t') : GroupInv t' := by
  obtain ⟨⟨hlive, -⟩, hok⟩ := hok
  cases e with
  | fork cur mem => exact h.fork hlive happly
  | exit cur code => exact h.exit hlive hok happly
  | setpgid cur pid pgid =>
    rcases settled_spec happly with rfl | hset
    · exact h
    · exact h.setpgid hok hset
  | setsid cur =>
    rcases settled_spec happly with rfl | hset
    · exact h
    · exact h.setsid hlive hset
  | ttyOpen cur dev noctty =>
    obtain ⟨tp, -, hif⟩ := Option.map_eq_some_iff.mp happly
    split at hif
    · subst hif
      have h1 : GroupInv (t.setOwner (dev - 1) cur) :=
        h.congr (fun _ => Iff.rfl) (fun _ _ => rfl) rfl (fun _ hp => hp) rfl
      exact h1.change [cur] (fun _ => rfl) (fun _ => rfl)
    · subst hif
      exact h
  | wait cur option | waitpid cur pid option | wake cur intr =>
    obtain ⟨⟨t1, res⟩, hres, rfl⟩ := Option.map_eq_some_iff.mp happly
    exact h.outcome hres

end GroupInv

/-- The idle process alone. -/
theorem schedInit_groups : GroupInv schedInit := by
  have hlive (p : Nat) : schedInit.Live p ↔ p = idlepid := by
    unfold Tasks.Live schedInit
    by_cases hp : p = idlepid <;> simp [hp, idleTask]
  refine ⟨fun p hp => ⟨[], ⟨⟨rfl, rfl⟩, List.nodup_singleton p⟩, fun q => ?_⟩, fun p hp => ?_,
    fun p hp => ?_, by decide⟩
  · rw [(hlive p).mp hp, hlive]
    constructor
    · intro hq
      obtain rfl : q = idlepid := by simpa using hq
      exact ⟨rfl, rfl⟩
    · rintro ⟨rfl, -⟩
      exact List.mem_singleton_self _
  · obtain rfl := (hlive p).mp hp
    exact ⟨hp, rfl⟩
  · by_cases hpi : p = idlepid
    · rw [hpi]
      decide
    · have hp' : (if p = idlepid then some idleTask else none).isSome := hp
      rw [if_neg hpi] at hp'
      cases hp'

theorem tasksInit_groups : GroupInv tasksInit := by
  have h : GroupInv { schedInit with nextPid := 2 } :=
    ⟨schedInit_groups.classes, schedInit_groups.leader, schedInit_groups.bound, by decide⟩
  exact h.copyProcess rfl rfl rfl (by decide)

theorem TaskRun.groups (h : TaskRun TaskEvent.Leads t) : GroupInv t :=
  Reached.inv (fun _ ht => by rw [ht]; exact tasksInit_groups)
    (fun _ _ _ hinv hok hs => hinv.step hok hs) h

theorem TaskRun.start {ok : Tasks → TaskEvent → Prop} : TaskRun ok tasksInit := .first rfl

/-- If `setpgid` only makes processes leaders, the rings are the groups. -/
theorem groups_match (h : TaskRun TaskEvent.Leads t) : t.Grouped := h.groups.grouped

instance (t : Tasks) (e : TaskEvent) : Decidable (e.Leads t) := by
  unfold TaskEvent.Leads
  induction e using TaskEvent.casesOn <;> infer_instance

/-- `init` has two children; the first becomes a leader and has a child. -/
def twoGroups : List TaskEvent :=
  [.fork 1 true, .fork 1 true, .setpgid 2 0 2, .fork 2 true]

theorem groups_match_leader : ∃ t, TaskRun TaskEvent.Leads t ∧
    (t.Live 4 ∧ t.pgid 4 = 2 ∧ t.pgid 3 = 0) ∧ t.Grouped := by
  obtain ⟨t, hplay, ht⟩ : ∃ t, play TaskEvent.apply TaskEvent.Leads tasksInit twoGroups = some t ∧
      t.Live 4 ∧ t.pgid 4 = 2 ∧ t.pgid 3 = 0 := by decide +kernel
  have hrun := TaskRun.start.play hplay
  exact ⟨t, hrun, ht, groups_match hrun⟩

-- ======== an example

/-- The first child becomes a leader, and the second is put into its
group. -/
def joinGroup : List TaskEvent :=
  [.fork 1 true, .fork 1 true, .setpgid 1 2 2, .setpgid 1 3 2]

/-- Both have the number of the group, but the leader is alone on its
ring. -/
theorem group_split : ∃ t, TaskRun TaskEvent.Fair t ∧ ¬ t.Grouped := by
  obtain ⟨t, hplay, h2, h3, hpgid, hnext⟩ : ∃ t,
      play TaskEvent.apply TaskEvent.Fair tasksInit joinGroup = some t ∧
      t.Live 2 ∧ t.Live 3 ∧ t.pgid 2 = t.pgid 3 ∧ t.pglist.next 2 = 2 := by decide +kernel
  refine ⟨t, TaskRun.start.play hplay, fun hgrouped => ?_⟩
  obtain ⟨l, hring, hmem⟩ := (hgrouped.ring 2 3 h2 h3).mp hpgid
  rw [hring.next_self_iff.mp hnext] at hmem
  simp at hmem

end Cnix.Kernel
