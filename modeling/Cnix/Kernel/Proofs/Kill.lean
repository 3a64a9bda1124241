/-
`SIGKILL` and the calls of the process it is sent to.

# What the process can do

`sigaction`, `sigprocmask` and `sigsuspend` take `SIGKILL` out of every
mask, so it is never blocked. But neither `signal` nor `sigaction` refuses
to set its handler. As long as that is left alone, a pending `SIGKILL`
stays pending until the process exits (`doWithSignal_kill`).

# What comes first

`do_with_signal` takes the lowest signal first, and if the process has a
handler for that, it enters the handler and leaves `SIGKILL` for the next
call.
-/
import Cnix.Kernel.Proofs.Deliver

namespace Cnix.Kernel

variable {t t' : SigTask} {i : Nat} {s : Sigset} {killed : Bool}

-- ======== sets

theorem cannotblock_kill : (s &&& ~~~cannotblocksig).getLsbD sigkill = false := by
  rw [BitVec.getLsbD_and, show (~~~cannotblocksig).getLsbD sigkill = false from by decide,
    Bool.and_false]

-- ======== events

/-- What happens to a process: its calls, a signal that is sent to it, a
call of `do_with_signal`. After a `fork` the run goes on with the child. -/
inductive SigEvent
  | signal (signum : Int) (handler : Handler)
  | sigaction (signum : Int) (act : Option (UserPtr Sigaction)) (oact : Option (BitVec 32))
  | sigprocmask (how : How) (set : Option (UserPtr Sigset)) (oset : Option (BitVec 32))
  | sigsuspend (sigmask : Option (UserPtr Sigset))
  | sigreturn (cs : Nat)
  | sendsig (signum : Nat)
  | deliver
  | fork (pid : Nat)
  | execve

/-- The task after a call of `do_with_signal`, unless it exits. -/
def Outcome.task : Outcome → Option SigTask
  | .back t => some t
  | .handler _ t => some t
  | .exit _ => none

/-- The task after the event, unless it exits. -/
def SigEvent.apply (t : SigTask) : SigEvent → Option SigTask
  | .signal signum handler => some (sysSignal signum handler t).2
  | .sigaction signum act oact => some (sysSigaction signum act oact t).2.2
  | .sigprocmask how set oset => some (sysSigprocmask how set oset t).2.2
  | .sigsuspend sigmask => some (sysSigsuspend sigmask t).2
  | .sigreturn cs => some (doSigreturn cs t)
  | .sendsig signum => some (Kernel.sendsig signum t)
  | .deliver => (doWithSignal t).task
  | .fork pid => some { t with pid := pid, signal := 0 }
  | .execve => some { t with check := true, sigaction := fun _ => ⟨sigDfl, 0, 0⟩ }

/-- Whether `SIGKILL` has been sent to the process, after the event. -/
def SigEvent.kills (killed : Bool) : SigEvent → Bool
  | .sendsig signum => killed || signum == sigkill
  | .fork _ => false
  | _ => killed

/-- The tasks that come about, with whether `SIGKILL` has been sent, when
each event meets `ok`. -/
inductive KillRun (ok : SigEvent → Prop) : Bool → SigTask → Prop
  | init (pid : Nat) : KillRun ok false (freshTask pid)
  | step {killed : Bool} {t t' : SigTask} {e : SigEvent} (h : KillRun ok killed t) (hok : ok e)
      (he : e.apply t = some t') : KillRun ok (e.kills killed) t'

/-- The handler of `SIGKILL` is left alone. -/
def LeavesKill : SigEvent → Prop
  | .signal signum handler => signum = sigkill + 1 → handler = sigDfl
  | .sigaction signum act _ =>
    signum = sigkill + 1 → ∀ p, act = some p → p.val.handler = sigDfl
  | _ => True

/-- The process has a handler of its own for the signal. -/
def SigTask.catches (t : SigTask) (signum : Nat) : Bool :=
  !t.ignores signum && (t.sigaction signum).handler != sigDfl

-- ======== do_with_signal

/-- `SIGKILL` is pending and nothing keeps it from the process. -/
structure Doomed (t : SigTask) : Prop where
  pid : 1 < t.pid
  pending : t.signal.getLsbD sigkill = true
  unblocked : t.blocked.getLsbD sigkill = false
  default : (t.sigaction sigkill).handler = sigDfl

theorem Doomed.ready (h : Doomed t) : t.ready sigkill = true := by
  unfold SigTask.ready
  rw [h.pending, h.unblocked]
  rfl

theorem not_ignores_kill (h : (t.sigaction sigkill).handler = sigDfl) :
    t.ignores sigkill = false := by
  unfold SigTask.ignores
  rw [h]
  decide

/-- What becomes of a process that is to be killed. -/
def Outcome.Ends (t : SigTask) : Outcome → Prop
  | .back _ => False
  | .handler i t' => i < sigkill ∧ t.ready i = true ∧ t.catches i = true
    ∧ ∃ t₁, Doomed t₁ ∧ t₁.sigaction = t.sigaction ∧ t' = enterHandler t₁ i
  | .exit code => code ≤ sigkill + 1

theorem catches_of_handler (hign : t.ignores i = false)
    (hown : (t.sigaction i).handler ≠ sigDfl) : t.catches i = true := by
  simp [SigTask.catches, hign, hown]

/-- It ends with an exit, or at a lower signal that the process catches,
and `SIGKILL` is still pending then. -/
theorem doWithSignal_kill (h : Doomed t) : (doWithSignal t).Ends t := by
  -- `SIGKILL` is ready and not ignored, so it is not passed
  have hpast {i : Nat} {s : Sigset} (hpassed : Passed t 0 i s) : i ≤ sigkill := by
    by_contra hlt
    have hign := hpassed.ignored sigkill (Nat.zero_le _) (by omega) h.ready
    rw [not_ignores_kill h.default] at hign
    cases hign
  rcases doWithSignal_cases t with ⟨s, -, hall⟩ | ⟨i, s, hi, hr, hign, hpassed, -, hact⟩
  · exact absurd (hpast (hall h.pid)) (by decide)
  · have hle := hpast hpassed
    rw [hact, act]
    split
    · exact Nat.succ_le_succ hle
    · next hown =>
      have hne : i ≠ sigkill := by
        rintro rfl
        exact hown h.default
      refine ⟨by omega, hr, catches_of_handler hign hown, { t with signal := s &&& ~~~sigbit i },
        ⟨h.pid, ?_, h.unblocked, h.default⟩, rfl, rfl⟩
      rw [getLsbD_sdiff (by decide), hpassed.bits _ (by decide), h.pending]
      simp [hne.symm, hle]

-- ======== the run

/-- What holds of every task as long as the handler of `SIGKILL` is left
alone. -/
structure KillInv (killed : Bool) (t : SigTask) : Prop where
  default : (t.sigaction sigkill).handler = sigDfl
  unblocked : t.blocked.getLsbD sigkill = false
  saved : t.blockedSaved.getLsbD sigkill = false
  masks : ∀ i, (t.sigaction i).mask.getLsbD sigkill = false
  pending : killed = true → 1 < t.pid → t.signal.getLsbD sigkill = true

theorem fresh_killInv (pid : Nat) : KillInv false (freshTask pid) where
  default := rfl
  unblocked := BitVec.getLsbD_zero
  saved := BitVec.getLsbD_zero
  masks := fun _ => BitVec.getLsbD_zero
  pending := nofun

namespace KillInv

variable {killed : Bool}

variable (h : KillInv killed t)

include h

theorem doomed (hk : killed = true) (hpid : 1 < t.pid) : Doomed t :=
  ⟨hpid, h.pending hk hpid, h.unblocked, h.default⟩

/-- The handler and the mask of one signal are set. -/
theorem act {new : Sigaction}
    (hmask : new.mask.getLsbD sigkill = false) (hkill : i = sigkill → new.handler = sigDfl) :
    KillInv killed { t with sigaction := Function.update t.sigaction i new } where
  default := by
    show (Function.update t.sigaction i new sigkill).handler = sigDfl
    by_cases hi : sigkill = i
    · rw [hi, Function.update_self]
      exact hkill hi.symm
    · rw [Function.update_of_ne hi]
      exact h.default
  unblocked := h.unblocked
  saved := h.saved
  masks := fun j => by
    show (Function.update t.sigaction i new j).mask.getLsbD sigkill = false
    by_cases hj : j = i
    · rw [hj, Function.update_self]
      exact hmask
    · rw [Function.update_of_ne hj]
      exact h.masks j
  pending := h.pending

theorem block {blocked saved : Sigset}
    (hblocked : blocked.getLsbD sigkill = false) (hsaved : saved.getLsbD sigkill = false) :
    KillInv killed { t with blocked := blocked, blockedSaved := saved } :=
  ⟨h.default, hblocked, hsaved, h.masks, h.pending⟩

theorem signal {n : Int} {handler : Handler}
    (hok : LeavesKill (.signal n handler)) : KillInv killed (sysSignal n handler t).2 := by
  unfold sysSignal
  split
  · exact h
  · next hn =>
    split
    · exact h
    · refine h.act (h.masks _) fun hi => hok ?_
      omega

theorem sigaction {n : Int} {act : Option (UserPtr Sigaction)}
    {oact : Option (BitVec 32)} (hok : LeavesKill (.sigaction n act oact)) :
    KillInv killed (sysSigaction n act oact t).2.2 := by
  unfold sysSigaction
  split
  · exact h
  · next hn =>
    split
    · exact h
    · split
      · exact h
      · next p =>
        split
        · exact h
        · split
          · exact h
          · refine h.act cannotblock_kill fun hi => hok ?_ p rfl
            omega

theorem sigprocmask {how : How} {set : Option (UserPtr Sigset)}
    {oset : Option (BitVec 32)} : KillInv killed (sysSigprocmask how set oset t).2.2 := by
  unfold sysSigprocmask
  split
  · exact h
  · split
    · exact h
    · split
      · exact h
      · split
        · exact h
        · exact h.block cannotblock_kill h.saved

theorem sigsuspend {sigmask : Option (UserPtr Sigset)} :
    KillInv killed (sysSigsuspend sigmask t).2 := by
  unfold sysSigsuspend
  split
  · exact h
  · split
    · exact h
    · exact h.block cannotblock_kill h.unblocked

theorem sigreturn {cs : Nat} : KillInv killed (doSigreturn cs t) := by
  unfold doSigreturn
  split
  · split
    · exact h.block h.saved (by decide)
    · exact h
  · exact h

theorem sendsig : KillInv (killed || i == sigkill) (Kernel.sendsig i t) := by
  unfold Kernel.sendsig
  split
  · next hign =>
    refine { h with pending := fun hk hpid => h.pending ?_ hpid }
    rw [Bool.or_eq_true, beq_iff_eq] at hk
    rcases hk with hk | rfl
    · exact hk
    · rw [not_ignores_kill h.default] at hign
      cases hign
  · refine { h with pending := fun hk hpid => ?_ }
    rw [BitVec.getLsbD_or, sigbit_getLsbD (by decide)]
    rw [Bool.or_eq_true, beq_iff_eq] at hk
    rcases hk with hk | rfl
    · rw [h.pending hk hpid, Bool.true_or]
    · rw [decide_eq_true rfl, Bool.or_true]

end KillInv

theorem KillInv.deliver (h : KillInv killed t)
    (he : (doWithSignal t).task = some t') : KillInv killed t' := by
  have hends (hk : killed = true) (hpid : 1 < t.pid) := doWithSignal_kill (h.doomed hk hpid)
  rcases doWithSignal_cases t with ⟨s, hback, -⟩ | ⟨i, s, -, -, -, -, -, hact⟩
  · rw [hback] at he hends
    cases he
    exact { h with pending := fun hk hpid => (hends hk hpid).elim }
  · rw [hact, Kernel.act] at he hends
    split at he
    · cases he
    · next hown =>
      rw [if_neg hown] at hends
      cases he
      refine ⟨h.default, h.masks _, h.unblocked, h.masks, fun hk hpid => ?_⟩
      obtain ⟨-, -, -, t1, hdoom, -, heq⟩ := hends hk hpid
      rw [heq]
      exact hdoom.pending

/-- One event. -/
theorem KillInv.step {e : SigEvent} (h : KillInv killed t) (hok : LeavesKill e)
    (he : e.apply t = some t') : KillInv (e.kills killed) t' := by
  cases e with
  | signal n handler =>
    cases he
    exact h.signal hok
  | sigaction n act oact =>
    cases he
    exact h.sigaction hok
  | sigprocmask how set oset =>
    cases he
    exact h.sigprocmask
  | sigsuspend sigmask =>
    cases he
    exact h.sigsuspend
  | sigreturn cs =>
    cases he
    exact h.sigreturn
  | sendsig i =>
    cases he
    exact h.sendsig
  | deliver => exact h.deliver he
  | fork pid =>
    cases he
    exact { h with pending := fun hk => by cases hk }
  | execve =>
    cases he
    exact ⟨rfl, h.unblocked, h.saved, fun _ => BitVec.getLsbD_zero, h.pending⟩

theorem KillRun.inv (h : KillRun LeavesKill killed t) : KillInv killed t := by
  induction h with
  | init pid => exact fresh_killInv pid
  | step _ hok he ih => exact ih.step hok he

/-- A process that leaves the handler of `SIGKILL` alone neither blocks
nor ignores nor catches it, and once it was sent, the next call of
`do_with_signal` that does not find a lower signal with a handler ends
the process. -/
theorem sigkill_not_evaded {killed : Bool} (h : KillRun LeavesKill killed t) :
    t.blocked.getLsbD sigkill = false ∧ t.ignores sigkill = false ∧ t.catches sigkill = false
      ∧ (killed = true → 1 < t.pid → (∀ i, i < sigkill → t.ready i = true → t.catches i = false) →
          ∃ code, code ≤ sigkill + 1 ∧ doWithSignal t = .exit code) := by
  have hinv := h.inv
  refine ⟨hinv.unblocked, not_ignores_kill hinv.default, ?_, fun hk hpid hlow => ?_⟩
  · unfold SigTask.catches
    rw [hinv.default]
    exact Bool.and_false _
  · have hends := doWithSignal_kill (hinv.doomed hk hpid)
    cases ho : doWithSignal t with
    | back t1 =>
      rw [ho] at hends
      exact hends.elim
    | handler i t1 =>
      rw [ho] at hends
      obtain ⟨hi, hready, hcatch, -⟩ := hends
      rw [hlow i hi hready] at hcatch
      cases hcatch
    | exit code =>
      rw [ho] at hends
      exact ⟨code, hends, rfl⟩

/-- A process that catches `SIGHUP` is sent `SIGKILL`. -/
def hangupTask : SigTask := sendsig sigkill (sysSignal 1 0x40001000#32 (freshTask 2)).2

theorem hangupTask_run : KillRun LeavesKill true hangupTask := by
  have hcatch : KillRun LeavesKill false (sysSignal 1 0x40001000#32 (freshTask 2)).2 :=
    KillRun.step (e := .signal 1 0x40001000#32) (KillRun.init 2) nofun rfl
  exact KillRun.step (e := .sendsig sigkill) hcatch trivial rfl

theorem sigkill_not_evaded_hangup : ∃ code, code ≤ sigkill + 1
    ∧ doWithSignal hangupTask = .exit code :=
  (sigkill_not_evaded hangupTask_run).2.2.2 rfl (by decide) (by decide)

/-- `signal` sets a handler for `SIGKILL`, which is entered. -/
theorem sigkill_caught : ∃ t t', KillRun (fun _ => True) true t ∧ 1 < t.pid
    ∧ (∀ i, i < sigkill → t.ready i = false) ∧ doWithSignal t = .handler sigkill t' := by
  refine ⟨sendsig sigkill (sysSignal 9 0x40001000#32 (freshTask 2)).2, _, ?_, by decide, by decide,
    rfl⟩
  have hcatch : KillRun (fun _ => True) false (sysSignal 9 0x40001000#32 (freshTask 2)).2 :=
    KillRun.step (e := .signal 9 0x40001000#32) (KillRun.init 2) trivial rfl
  exact KillRun.step (e := .sendsig sigkill) hcatch trivial rfl

end Cnix.Kernel
