/-
Who may change the attributes of a file.

A process that is neither root nor the owner is refused by every call but
one: `chown` and `fchown` let it pass when it names the owner that the
file has, and then write its own group to the file (`Regroups`). Without
such calls the attributes stay, whatever the process calls.
-/
import Cnix.Fs.Proofs.Calm
import Cnix.Fs.Proofs.Calls

namespace Cnix.Fs

open Lib

variable {s s' s1 : Sys} {pid : Nat} {h k : Handle} {d : Dinode} {f : Handle → M Ret}

/-- The calls on attributes. -/
inductive AttrCall
  | chmod (path : Name) (mode : BitVec 16)
  | fchmod (fd : Nat) (mode : BitVec 16)
  | chown (path : Name) (owner group : Int)
  | fchown (fd : Nat) (owner group : Int)
  | utime (path : Name) (buf : Option (Nat × Nat))

/-- What process `pid` does. -/
def AttrCall.run (pid : Nat) : AttrCall → M Ret
  | .chmod path mode => doChmod pid path mode
  | .fchmod fd mode => sysFchmod pid fd mode
  | .chown path owner group => doChown pid path owner group
  | .fchown fd owner group => sysFchown pid fd owner group
  | .utime path buf => doUtime pid path buf

/-- The process neither is root nor owns the file. -/
structure Stranger (s : Sys) (pid : Nat) (h : Handle) : Prop where
  user : (s.task pid).euid ≠ 0
  other : (s.task pid).euid ≠ (s.node h).uid

/-- The owner is named and the group is the caller's, and not the file's. -/
def Regroups (s : Sys) (pid : Nat) (h : Handle) (owner group : Int) : Prop :=
  owner = (s.node h).uid ∧ group = (s.task pid).egid ∧ group ≠ (s.node h).gid

/-- The call does not take the file over for the group of the process. -/
def NoTakeover (pid : Nat) (h : Handle) (s : Sys) : AttrCall → Prop
  | .chown path owner group =>
    (∃ s1, namei pid path false s = .ok (.ok h, s1)) → 0 < group → ¬ Regroups s pid h owner group
  | .fchown fd owner group =>
    (∃ i, (s.task pid).file fd = some i ∧ (s.filps i).ino = h) → ¬ Regroups s pid h owner group
  | _ => True

/-- Calls of one process, each meeting `ok`. -/
inductive AttrRun (pid : Nat) (ok : Sys → AttrCall → Prop) (s : Sys) : Sys → Prop
  | init : AttrRun pid ok s s
  | step {s1 s2 : Sys} {c : AttrCall} {r : Ret} : AttrRun pid ok s s1 → ok s1 c →
      c.run pid s1 = .ok (r, s2) → AttrRun pid ok s s2

-- ======== one inode

/-- The attributes of one file are kept. -/
structure Same (h : Handle) (s s' : Sys) : Prop where
  task : s'.task = s.task
  owner : (s.node h).SameOwner (s'.node h)
  mode : (s'.node h).mode = (s.node h).mode ∨ (s.node h).nlinks = 0 ∧ (s'.node h).mode = 0

theorem Calm.same (hc : Calm s s') (h : Handle) : Same h s s' := ⟨hc.task, hc.owner h, hc.mode h⟩

theorem Same.trans {s2 : Sys} (h1 : Same h s s1) (h2 : Same h s1 s2) : Same h s s2 := by
  refine ⟨h2.task.trans h1.task, h1.owner.trans h2.owner, ?_⟩
  have hlinks := h1.owner.nlinks
  rcases h1.mode with hm | hm
  · rw [← hm, ← hlinks]
    exact h2.mode
  · rcases h2.mode with hm' | hm'
    · exact .inr ⟨hm.1, hm'.trans hm.2⟩
    · exact .inr ⟨hm.1, hm'.2⟩

theorem Same.stranger (hs : Same h s s') (hp : Stranger s pid h) : Stranger s' pid h := by
  refine ⟨hs.task ▸ hp.user, ?_⟩
  rw [hs.task, hs.owner.uid]
  exact hp.other

/-- Writing another inode. -/
theorem Same.setNode_ne (hne : h ≠ k) : Same h s (s.setNode k d) := by
  have hnode : (s.setNode k d).node h = s.node h := by simp [Sys.setNode, hne]
  refine ⟨rfl, ?_, .inl ?_⟩
  · rw [hnode]
    exact .refl _
  · rw [hnode]

/-- The end of a call that was not refused. -/
theorem Same.put {r : Ret} (hsame : Same h s (s.setNode k d)) :
    wp (do set (s.setNode k d); iput pid k; return r : M Ret) (fun _ s' => Same h s s')
      (fun _ => True) s := by
  rw [wp_bind, wp_set]
  refine (iput_calm _).seq fun _ s1 h1 => ?_
  exact hsame.trans (h1.same h)

theorem Stranger.chmodInode (hp : Stranger s pid h) (mode : BitVec 16) :
    wp (chmodInode pid mode k) (fun _ s' => Same h s s') (fun _ => True) s := by
  unfold Fs.chmodInode
  rw [wp_bind, wp_get]
  dsimp only
  split
  · exact (refuse_calm s).mono (fun _ _ hc => hc.same h) fun _ => id
  · next hok =>
    have hne : h ≠ k := by
      rintro rfl
      exact hok ⟨hp.user, hp.other⟩
    exact Same.put (Same.setNode_ne hne)

theorem Stranger.chownInode (hp : Stranger s pid h) (owner group : Int) (regroup : Bool)
    (hok : k = h → regroup = true → ¬ Regroups s pid h owner group) :
    wp (chownInode pid owner group regroup k) (fun _ s' => Same h s s') (fun _ => True) s := by
  unfold Fs.chownInode
  rw [wp_bind, wp_get]
  dsimp only
  split
  · exact (refuse_calm s).mono (fun _ _ hc => hc.same h) fun _ => id
  · next howner =>
    split
    · exact (refuse_calm s).mono (fun _ _ hc => hc.same h) fun _ => id
    · next hgroup =>
      apply Same.put
      by_cases hk : h = k
      · subst hk
        -- the owner was named, so the group is the one that the file has
        have hnamed : (s.node h).uid = owner := by
          by_contra hne
          exact howner ⟨hp.user, hp.other, hne⟩
        have hmine : (s.task pid).egid = group := by
          by_contra hne
          exact hgroup ⟨hp.user, hne⟩
        have hgid : (if regroup = true then group else (s.node h).gid) = (s.node h).gid := by
          split
          · next hre =>
            by_contra hne
            exact hok rfl hre ⟨hnamed.symm, hmine.symm, hne⟩
          · rfl
        rw [if_neg hp.user, hgid]
        exact (Calm.setNode (.refl _) (.inl rfl)).same h
      · exact Same.setNode_ne hk

/-- What comes after the inode was found. -/
theorem Stranger.afterNamei (hp : Stranger s pid h) {path : Name}
    (hf : ∀ k s1, namei pid path false s = .ok (.ok k, s1) → Same h s s1 → Stranger s1 pid h →
      wp (f k) (fun _ s' => Same h s1 s') (fun _ => True) s1) :
    wp (do
      match ← namei pid path false with
      | .error e => return errno e
      | .ok inoptr => f inoptr) (fun _ s' => Same h s s') (fun _ => True) s := by
  rw [wp_bind]
  unfold wp
  cases hn : namei pid path false s with
  | error t => trivial
  | ok r =>
    obtain ⟨found, s1⟩ := r
    have hsame := (namei_calm.returns hn).same h
    cases found with
    | error e => exact hsame
    | ok k =>
      have hk := hf k s1 hn hsame (hsame.stranger hp)
      exact hk.mono (fun _ _ h2 => hsame.trans h2) fun _ => id

/-- What comes after the inode of a descriptor was taken. -/
theorem Stranger.afterFget (hp : Stranger s pid h) {fd : Nat}
    (hf : ∀ k s1, (∃ i, (s.task pid).file fd = some i ∧ (s.filps i).ino = k) → Same h s s1 →
      Stranger s1 pid h → wp (f k) (fun _ s' => Same h s1 s') (fun _ => True) s1) :
    wp (do
      match ← fgetInode pid fd with
      | .error e => return .error e
      | .ok inoptr => f inoptr) (fun _ s' => Same h s s') (fun _ => True) s := by
  have htarget : wp (fgetInode pid fd) (fun r s1 => Same h s s1 ∧ ∀ k, r = .ok k →
      ∃ i, (s.task pid).file fd = some i ∧ (s.filps i).ino = k) (fun _ => True) s := by
    unfold fgetInode
    split
    · exact ⟨(Calm.refl s).same h, nofun⟩
    · rw [wp_bind, wp_get]
      split
      · exact ⟨(Calm.refl s).same h, nofun⟩
      · next i hi =>
        refine (ilock_calm s).seq fun _ s1 h1 => ?_
        refine (hold_calm s1).seq fun _ s2 h2 => ?_
        exact ⟨(h1.trans h2).same h, fun k hk => by cases hk; exact ⟨i, hi, rfl⟩⟩
  refine htarget.seq fun r s1 hr => ?_
  cases r with
  | error e => exact hr.1
  | ok k =>
    have hk := hf k s1 (hr.2 k rfl) hr.1 (hr.1.stranger hp)
    exact hk.mono (fun _ _ h2 => hr.1.trans h2) fun _ => id

-- ======== the calls

theorem Same.regroups (hs : Same h s s') {owner group : Int} (hr : Regroups s' pid h owner group) :
    Regroups s pid h owner group := by
  unfold Regroups at hr ⊢
  rw [hs.owner.uid, hs.owner.gid, hs.task] at hr
  exact hr

theorem Stranger.doUtime (hp : Stranger s pid h) (path : Name) (buf : Option (Nat × Nat)) :
    wp (doUtime pid path buf) (fun _ s' => Same h s s') (fun _ => True) s := by
  apply hp.afterNamei
  intro k s1 _ _ hp
  rw [wp_bind, wp_get]
  dsimp only
  split
  · exact (refuse_calm s1).mono (fun _ _ hc => hc.same h) fun _ => id
  · next hok =>
    cases buf with
    | none =>
      refine (iput_calm s1).seq fun _ s2 h2 => ?_
      exact h2.same h
    | some times =>
      have hne : h ≠ k := by
        rintro rfl
        exact hok ⟨hp.user, hp.other, .inl rfl⟩
      exact Same.put (Same.setNode_ne hne)

/-- A call of a stranger that is not a takeover. -/
theorem Stranger.call (hp : Stranger s pid h) {c : AttrCall} (hok : NoTakeover pid h s c) :
    wp (c.run pid) (fun _ s' => Same h s s') (fun _ => True) s := by
  cases c with
  | chmod path mode => exact hp.afterNamei fun k s1 _ _ hp => hp.chmodInode mode
  | fchmod fd mode => exact hp.afterFget fun k s1 _ _ hp => hp.chmodInode mode
  | chown path owner group =>
    refine hp.afterNamei fun k s1 hn hsame hp => hp.chownInode owner group _ ?_
    rintro rfl hpos hre
    exact hok ⟨s1, hn⟩ (of_decide_eq_true hpos) (hsame.regroups hre)
  | fchown fd owner group =>
    refine hp.afterFget fun k s1 htarget hsame hp => hp.chownInode owner group _ ?_
    rintro rfl _ hre
    exact hok htarget (hsame.regroups hre)
  | utime path buf => exact hp.doUtime path buf

theorem AttrRun.same (hrun : AttrRun pid (NoTakeover pid h) s s') (hp : Stranger s pid h) :
    Same h s s' := by
  induction hrun with
  | init => exact (Calm.refl s).same h
  | step _ hok hcall ih =>
    have hstep := wp.returns ((ih.stranger hp).call hok) hcall
    exact ih.trans hstep

/-- No calls of a process that neither is root nor owns the file change its
owner, group, times or mode, if none is a takeover. A file without links
may be freed, when the last call that holds it ends. -/
theorem attributes_kept (hrun : AttrRun pid (NoTakeover pid h) s s') (huser : (s.task pid).euid ≠ 0)
    (hother : (s.task pid).euid ≠ (s.node h).uid) :
    (s'.node h).uid = (s.node h).uid ∧ (s'.node h).gid = (s.node h).gid ∧
      (s'.node h).atime = (s.node h).atime ∧ (s'.node h).mtime = (s.node h).mtime ∧
      ((s'.node h).mode = (s.node h).mode ∨ (s.node h).nlinks = 0 ∧ (s'.node h).mode = 0) := by
  have hsame := hrun.same ⟨huser, hother⟩
  exact ⟨hsame.owner.uid, hsame.owner.gid, hsame.owner.atime, hsame.owner.mtime, hsame.mode⟩

-- ======== a stranger

/-- The file that the process of user 7 and group 7 has open. -/
def strangerFile : Handle := ⟨0, 2, 0⟩

/-- All files belong to user 5 and group 5. The process has one open. -/
def strangerSys : Sys :=
  Sys.quiet oneZone.vol
    (fun _ => ⟨0x81a4#16, 1, 5, 5, ⟨0, fun _ => 0⟩, 0, 0⟩)
    (fun _ => ⟨1, 0, strangerFile, 0⟩)
    (fun _ => ⟨⟨0, 1, 0⟩, ⟨0, 1, 0⟩, 7, 7, 7, 7, 0, Function.update (fun _ => none) 0 (some 0)⟩)

/-- `fchmod` is refused. -/
theorem attributes_kept_fchmod : ∃ s', sysFchmod 2 0 0o777#16 strangerSys = .ok (.error .eacces, s')
    ∧ (s'.node strangerFile).gid = 5 := by
  have hcall : ∃ s', sysFchmod 2 0 0o777#16 strangerSys = .ok (.error .eacces, s') := ⟨_, rfl⟩
  obtain ⟨s', hcall⟩ := hcall
  have hrun : AttrRun 2 (NoTakeover 2 strangerFile) strangerSys s' :=
    .step (c := .fchmod 0 0o777#16) .init trivial hcall
  exact ⟨s', hcall, (attributes_kept hrun (by decide) (by decide)).2.1⟩

/-- `fchown` with the owner that the file has gives it the group of the
process. -/
theorem group_taken_over : ∃ s', AttrRun 2 (fun _ _ => True) strangerSys s' ∧
    (strangerSys.task 2).euid ≠ 0 ∧ (strangerSys.task 2).euid ≠ (strangerSys.node strangerFile).uid ∧
    (s'.node strangerFile).gid ≠ (strangerSys.node strangerFile).gid := by
  have hcall : ∃ s', sysFchown 2 0 5 7 strangerSys = .ok (.ok 0, s') ∧
      (s'.node strangerFile).gid = 7 := ⟨_, rfl, rfl⟩
  obtain ⟨s', hcall, hgid⟩ := hcall
  refine ⟨s', .step (c := .fchown 0 5 7) .init trivial hcall, by decide, by decide, ?_⟩
  rw [hgid]
  decide

end Cnix.Fs
