/-
A process that is not root, and its descendants.

The saved uid is what `setuid` and `setreuid` let a process go back to.
`execve` sets it to the owner of the file, so a file of root is enough to
become root. Without such files the three uids stay different from 0
(`Cred.Plain`): a set-uid call only moves them among each other.
-/
import Cnix.Kernel.Cred

namespace Cnix.Kernel

open Function (update update_self update_apply)

variable {c c' : Cred} {call : CredCall} {procs : Nat → Option Cred}

/-- None of the uids is that of root. -/
structure Cred.Plain (c : Cred) : Prop where
  uid : c.uid ≠ suUid
  euid : c.euid ≠ suUid
  suid : c.suid ≠ suUid

/-- A file that is executed does not have the set-uid bit. -/
def NoSetuid : CredCall → Prop
  | .execve f _ => f.mode &&& iSu = 0
  | _ => True

/-- It does not belong to root either. -/
def NotRoots : CredCall → Prop
  | .execve f _ => f.mode &&& iSu = 0 ∧ f.uid ≠ suUid
  | _ => True

/-- A process and its descendants, each call meeting `ok`. A call that
fails changes nothing. -/
inductive CredRun (ok : CredCall → Prop) (c0 : Cred) : (Nat → Option Cred) → Prop
  | init (pid : Nat) : CredRun ok c0 (update (fun _ => none) pid (some c0))
  | call {procs : Nat → Option Cred} {c c' : Cred} (h : CredRun ok c0 procs) (pid : Nat)
      (call : CredCall) (hpid : procs pid = some c) (hok : ok call)
      (hret : call.apply c = .ok c') : CredRun ok c0 (update procs pid (some c'))
  | fork {procs : Nat → Option Cred} {c : Cred} (h : CredRun ok c0 procs) (pid : Nat)
      (hpid : procs pid = some c) (nr : Nat) (hnr : procs nr = none) :
      CredRun ok c0 (update procs nr (some c))
  | exit {procs : Nat → Option Cred} (h : CredRun ok c0 procs) (pid : Nat) :
      CredRun ok c0 (update procs pid none)

namespace Cred.Plain

theorem setuid {uid : Int} (h : c.Plain) (hret : sysSetuid uid c = .ok c') : c'.Plain := by
  unfold sysSetuid at hret
  rw [if_neg h.euid] at hret
  split at hret
  · next huid =>
    cases hret
    refine ⟨h.uid, ?_, h.suid⟩
    rcases huid with rfl | rfl
    · exact h.uid
    · exact h.suid
  · cases hret

theorem setreuid {ruid euid : Int} (h : c.Plain) (hret : sysSetreuid ruid euid c = .ok c') :
    c'.Plain := by
  unfold sysSetreuid at hret
  rw [if_neg h.euid] at hret
  split at hret
  · cases hret
  next hruid =>
  split at hret
  · cases hret
  next heuid =>
  cases hret
  refine ⟨?_, ?_, h.suid⟩
  · rcases not_and_or.mp hruid with hr | hr
    · exact not_not.mp hr ▸ h.uid
    · exact not_not.mp hr ▸ h.euid
  · rcases not_and_or.mp heuid with he | he
    · exact not_not.mp he ▸ h.uid
    · exact not_not.mp he ▸ h.suid

theorem setgid {gid : Int} (h : c.Plain) (hret : sysSetgid gid c = .ok c') : c'.Plain := by
  unfold sysSetgid at hret
  repeat' split at hret
  all_goals cases hret
  all_goals exact ⟨h.uid, h.euid, h.suid⟩

theorem setregid {rgid egid : Int} (h : c.Plain) (hret : sysSetregid rgid egid c = .ok c') :
    c'.Plain := by
  unfold sysSetregid at hret
  repeat' split at hret
  all_goals cases hret
  all_goals exact ⟨h.uid, h.euid, h.suid⟩

theorem execve {f : ExecFile} {loads : Bool} (h : c.Plain) (hf : f.uid ≠ suUid)
    (hret : doExecve f loads c = .ok c') : c'.Plain := by
  unfold doExecve at hret
  repeat' split at hret
  all_goals cases hret
  exact ⟨h.uid, h.euid, hf⟩

/-- One call. -/
theorem step (h : c.Plain) (hok : NotRoots call) (hret : call.apply c = .ok c') : c'.Plain := by
  cases call with
  | execve f loads => exact h.execve hok.2 hret
  | setuid uid => exact h.setuid hret
  | setreuid ruid euid => exact h.setreuid hret
  | setgid gid => exact h.setgid hret
  | setregid rgid egid => exact h.setregid hret

end Cred.Plain

theorem plain_update {p : Nat} {new : Option Cred} (h : ∀ pid c, procs pid = some c → c.Plain)
    (hnew : ∀ c ∈ new, c.Plain) : ∀ pid c, update procs p new pid = some c → c.Plain := by
  intro pid c hpid
  rw [update_apply] at hpid
  split at hpid
  · exact hnew c hpid
  · exact h pid c hpid

/-- All processes of a run. -/
theorem CredRun.plain {c0 : Cred} (h : CredRun NotRoots c0 procs) (h0 : c0.Plain) :
    ∀ pid c, procs pid = some c → c.Plain := by
  induction h with
  | init p => exact plain_update nofun (by simpa using h0)
  | call _ _ _ hp hok hret ih => exact plain_update ih (by simpa using (ih _ _ hp).step hok hret)
  | fork _ _ hp nr _ ih => exact plain_update ih (by simpa using ih _ _ hp)
  | exit _ p ih => exact plain_update ih nofun

/-- Without files of root, neither the process nor a descendant gets the
uid of root. -/
theorem no_privilege_gain {c0 : Cred} (h : CredRun NotRoots c0 procs) (huid : c0.uid ≠ suUid)
    (heuid : c0.euid ≠ suUid) (hsuid : c0.suid ≠ suUid) {pid : Nat} (hpid : procs pid = some c) :
    c.uid ≠ suUid ∧ c.euid ≠ suUid :=
  have hplain := h.plain ⟨huid, heuid, hsuid⟩ pid c hpid
  ⟨hplain.uid, hplain.euid⟩

/-- A user's process. -/
def someUser : Cred := ⟨7, 7, 7, 7, 7, 7⟩

/-- The process executes a file of user 8 and then sets its uid. -/
theorem no_privilege_gain_user : ∃ procs, CredRun NotRoots someUser procs
    ∧ procs 2 = some ⟨7, 8, 8, 7, 7, 0⟩ ∧ (8 ≠ suUid ∧ 7 ≠ suUid) := by
  have hinit : CredRun NotRoots someUser _ := CredRun.init 2
  have hexec := hinit.call 2 (.execve ⟨0x81ed#16, 8, 0⟩ true) (update_self ..)
    ⟨by decide, by decide⟩ rfl
  have hset := hexec.call 2 (.setuid 8) (update_self ..) trivial rfl
  have hnone := no_privilege_gain hset (by decide) (by decide) (by decide)
    (update_self ..)
  exact ⟨_, hset, update_self .., hnone.2, hnone.1⟩

/-- The process executes a file of root that does not have the set-uid
bit, and may then set its uid to 0. -/
theorem privilege_gained : ∃ procs, CredRun NoSetuid someUser procs
    ∧ procs 2 = some ⟨7, 0, 0, 7, 7, 0⟩ := by
  have hinit : CredRun NoSetuid someUser _ := CredRun.init 2
  have hexec := hinit.call 2 (.execve ⟨0x81ed#16, 0, 0⟩ true) (update_self ..)
    (show (0x81ed#16 &&& iSu) = 0 by decide) rfl
  have hset := hexec.call 2 (.setuid 0) (update_self ..) trivial rfl
  exact ⟨_, hset, update_self ..⟩

end Cnix.Kernel
