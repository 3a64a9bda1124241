/-
Who a process is: the set-id calls of `kernel/syscall.c` and what
`do_execve` of `kernel/exec.c` makes of the owner of a file.

`do_execve` takes the owner and the group of every file that it executes
as the saved ids, whether or not the file has the set-id bits. Where it
finds the file, opens and loads it is left out: `loads` tells whether
that went well. Of a script that names an interpreter, the ids are those
of the script.
-/
import Cnix.Fs.Core

namespace Cnix.Kernel

open Fs (iReg isReg iXb)

/-- `SU_UID`. -/
def suUid : Int := 0

/-- The ids in `struct task_struct`, signed shorts and characters. -/
structure Cred where
  uid : Int
  euid : Int
  suid : Int
  gid : Int
  egid : Int
  sgid : Int
  deriving DecidableEq, Repr

/-- `EPERM`, `EACCES`, `EISDIR` and the errors of loading a file. -/
inductive CredErrno
  | eperm
  | eacces
  | eisdir
  | load
  deriving DecidableEq, Repr

-- ======== set-id calls

/-- `sys_setuid`. -/
def sysSetuid (uid : Int) (c : Cred) : Except CredErrno Cred :=
  if c.euid = suUid then .ok { c with uid := uid, euid := uid, suid := uid }
  else if uid = c.uid ∨ uid = c.suid then .ok { c with euid := uid }
  else .error .eperm

/-- `sys_setreuid`. -/
def sysSetreuid (ruid euid : Int) (c : Cred) : Except CredErrno Cred :=
  if c.euid = suUid then .ok { c with uid := ruid, euid := euid }
  else if ruid ≠ c.uid ∧ ruid ≠ c.euid then .error .eperm
  else if euid ≠ c.uid ∧ euid ≠ c.suid then .error .eperm
  else .ok { c with uid := ruid, euid := euid }

/-- `sys_setgid`. -/
def sysSetgid (gid : Int) (c : Cred) : Except CredErrno Cred :=
  if c.egid = suUid then .ok { c with gid := gid, egid := gid, sgid := gid }
  else if gid = c.gid ∨ gid = c.sgid then .ok { c with egid := gid }
  else .error .eperm

/-- `sys_setregid`. -/
def sysSetregid (rgid egid : Int) (c : Cred) : Except CredErrno Cred :=
  if c.egid = suUid then .ok { c with gid := rgid, egid := egid }
  else if rgid ≠ c.gid ∧ rgid ≠ c.egid then .error .eperm
  else if egid ≠ c.gid ∧ egid ≠ c.sgid then .error .eperm
  else .ok { c with gid := rgid, egid := egid }

-- ======== execve

/-- `I_SU`. -/
def iSu : BitVec 16 := 0x800#16

/-- What `do_execve` reads of the inode of a file. -/
structure ExecFile where
  mode : BitVec 16
  uid : Int
  gid : Int
  deriving DecidableEq, Repr

/-- `admit(inoptr, I_XB)`. -/
def ExecFile.admits (f : ExecFile) (c : Cred) : Bool :=
  Fs.admitted ⟨⟨0, 0, 0⟩, ⟨0, 0, 0⟩, c.uid, c.gid, c.euid, c.egid, 0, fun _ => none⟩
    ⟨f.mode, 0, f.uid, f.gid, ⟨0, fun _ => 0⟩, 0, 0⟩ iXb

/-- `do_execve`. -/
def doExecve (f : ExecFile) (loads : Bool) (c : Cred) : Except CredErrno Cred :=
  if !isReg f.mode then .error .eisdir
  else if !f.admits c then .error .eacces
  else if !loads then .error .load
  else .ok { c with suid := f.uid, sgid := f.gid }

-- ======== calls

/-- The calls that change who a process is. -/
inductive CredCall
  | execve (f : ExecFile) (loads : Bool)
  | setuid (uid : Int)
  | setreuid (ruid euid : Int)
  | setgid (gid : Int)
  | setregid (rgid egid : Int)

/-- What the call returns. -/
def CredCall.apply (c : Cred) : CredCall → Except CredErrno Cred
  | .execve f loads => doExecve f loads c
  | .setuid uid => sysSetuid uid c
  | .setreuid ruid euid => sysSetreuid ruid euid c
  | .setgid gid => sysSetgid gid c
  | .setregid rgid egid => sysSetregid rgid egid c

end Cnix.Kernel
