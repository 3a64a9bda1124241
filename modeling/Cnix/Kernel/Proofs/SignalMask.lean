/-
The mask after the handlers of signals.

# What is saved

A handler is entered with a mask of its own, and `do_sigreturn` is to
bring the old one back. There is one place to save a mask in, and 0 in it
means that nothing is saved. So the mask 0 is not brought back, a handler
within a handler loses the mask of the first, and the mask that
`sigsuspend` has saved is lost to the handler it waits for.

# The run

Beside the task, a run has what the code that is running has installed
(`mine`) and what the handlers on the stack have interrupted
(`interrupted`, the innermost first): that is what the returns are to
bring back. If each handler that has not returned interrupted code with
the mask that is in force now, and a mask that is 0 is not replaced, all
of them do (`mask_restored`).
-/
import Cnix.Lib.Runs
import Cnix.Kernel.Proofs.Kill

namespace Cnix.Kernel

/-- A process with handlers on its stack. -/
structure Nested where
  task : SigTask
  mine : Sigset
  interrupted : List Sigset

variable {n n' : Nested} {t t' : SigTask} {m : Sigset} {rest : List Sigset}

-- ======== the run

/-- The masks after `do_with_signal` of a task. -/
def Nested.deliver (n : Nested) : Outcome → Option Nested
  | .back t => some { n with task := t }
  | .handler signum t => some ⟨t, (t.sigaction signum).mask, n.mine :: n.interrupted⟩
  | .exit _ => none

/-- An event of a process whose handlers return as they were entered. -/
def SigEvent.nest (n : Nested) (e : SigEvent) : Option Nested :=
  match e with
  | .sigprocmask how set oset =>
    let (ret, _, t) := sysSigprocmask how set oset n.task
    match ret with
    | .ok () => some { n with task := t, mine := t.blocked }
    | .error _ => some { n with task := t }
  | .deliver => n.deliver (doWithSignal n.task)
  | .sigreturn cs =>
    match n.interrupted with
    | [] => none
    | m :: rest => if cs = userCs then some ⟨doSigreturn cs n.task, m, rest⟩ else none
  | .execve => (SigEvent.execve.apply n.task).map fun t => ⟨t, t.blocked, []⟩
  | e => (e.apply n.task).map fun t => { n with task := t }

/-- The processes that come about when each event meets `ok`. -/
abbrev MaskRun : (Nested → SigEvent → Prop) → Nested → Prop :=
  Lib.Reached (fun n => ∃ pid, n = ⟨freshTask pid, 0, []⟩) fun n e => e.nest n

/-- All interrupted code had the mask that is in force. -/
def Nested.Level (n : Nested) : Prop := ∀ m ∈ n.interrupted, m = n.task.blocked

/-- What the events must keep to, for the masks to be brought back. -/
def MaskOk (n : Nested) : SigEvent → Prop
  | .deliver => ∀ i, i < signr → n.task.ready i = true → n.task.catches i = true →
      n.mine = n.task.blocked ∧ n.Level
        ∧ (n.task.blocked ≠ 0 ∨ (n.task.sigaction i).mask = 0)
  | .sigprocmask _ _ _ => n.interrupted = [] ∨ n.task.blockedSaved ≠ 0
  | .sigsuspend _ => n.interrupted = [] ∨ n.Level ∧ n.task.blocked ≠ 0
  | _ => True

-- ======== do_with_signal

/-- What `do_with_signal` leaves of the masks. -/
def Outcome.Masks (t : SigTask) : Outcome → Prop
  | .back t' => t'.blocked = t.blocked ∧ t'.blockedSaved = t.blockedSaved
  | .handler i t' => i < signr ∧ t.ready i = true ∧ t.catches i = true
    ∧ t'.sigaction = t.sigaction ∧ t'.blockedSaved = t.blocked
    ∧ t'.blocked = (t.sigaction i).mask
  | .exit _ => True

theorem doWithSignal_masks : (doWithSignal t).Masks t := by
  rcases doWithSignal_cases t with ⟨s, hback, -⟩ | ⟨i, s, hi, hr, hign, -, -, hact⟩
  · rw [hback]
    exact ⟨rfl, rfl⟩
  · rw [hact, act]
    split
    · trivial
    · next hown => exact ⟨hi, hr, catches_of_handler hign hown, rfl, rfl, rfl⟩

-- ======== invariant

/-- The mask that the innermost handler interrupted is saved, or it is in
force already. -/
structure MaskInv (n : Nested) : Prop where
  same : ∀ m rest, n.interrupted = m :: rest → ∀ m' ∈ rest, m' = m
  saved : ∀ m rest, n.interrupted = m :: rest →
    n.task.blockedSaved = m ∨ n.task.blockedSaved = 0 ∧ n.task.blocked = m
  zero : ∀ rest, n.interrupted = 0 :: rest → n.task.blocked = 0

theorem MaskInv.nil (h : n.interrupted = []) : MaskInv n where
  same := fun m rest he => by rw [h] at he; cases he
  saved := fun m rest he => by rw [h] at he; cases he
  zero := fun rest he => by rw [h] at he; cases he

/-- Events that leave the masks and the stack. -/
theorem MaskInv.congr (h : MaskInv n) (hint : n'.interrupted = n.interrupted)
    (hblocked : n'.task.blocked = n.task.blocked)
    (hsaved : n'.task.blockedSaved = n.task.blockedSaved) : MaskInv n' where
  same := fun m rest he => h.same m rest (hint ▸ he)
  saved := fun m rest he => by
    rw [hblocked, hsaved]
    exact h.saved m rest (hint ▸ he)
  zero := fun rest he => by
    rw [hblocked]
    exact h.zero rest (hint ▸ he)

/-- The mask that `do_sigreturn` leaves. -/
theorem MaskInv.returned (h : MaskInv n) (hint : n.interrupted = m :: rest) :
    (doSigreturn userCs n.task).blocked = m ∧ (doSigreturn userCs n.task).blockedSaved = 0 := by
  unfold doSigreturn
  rw [if_pos rfl]
  rcases h.saved m rest hint with hsaved | ⟨hsaved, hblocked⟩
  · by_cases hm : m = 0
    · rw [hm] at hsaved hint
      rw [if_neg (by rw [hsaved]; exact fun hne => hne rfl), hm]
      exact ⟨h.zero rest hint, hsaved⟩
    · rw [if_pos (by rw [hsaved]; exact hm)]
      exact ⟨hsaved, rfl⟩
  · rw [if_neg (by rw [hsaved]; exact fun hne => hne rfl)]
    exact ⟨hblocked, hsaved⟩

theorem MaskInv.sigreturn (h : MaskInv n) (hint : n.interrupted = m :: rest) :
    MaskInv ⟨doSigreturn userCs n.task, m, rest⟩ := by
  obtain ⟨hblocked, hsaved⟩ := h.returned hint
  have hsame := h.same m rest hint
  refine ⟨fun m' rest' he m'' hm'' => ?_, fun m' rest' he => ?_, fun rest' he => ?_⟩
  · rw [show rest = m' :: rest' from he] at hsame
    rw [hsame m'' (List.mem_cons_of_mem _ hm''), hsame m' (List.mem_cons_self ..)]
  · rw [show rest = m' :: rest' from he] at hsame
    rw [hsame m' (List.mem_cons_self ..)]
    exact .inr ⟨hsaved, hblocked⟩
  · rw [show rest = 0 :: rest' from he] at hsame
    rw [hsame 0 (List.mem_cons_self ..)]
    exact hblocked

/-- A handler is entered. -/
theorem MaskInv.enter {mine : Sigset} (hlevel : n.Level) (hmine : n.mine = n.task.blocked)
    (hsaved : t.blockedSaved = n.task.blocked) (hzero : n.task.blocked ≠ 0 ∨ t.blocked = 0) :
    MaskInv ⟨t, mine, n.mine :: n.interrupted⟩ where
  same := fun m rest he m' hm' => by
    cases he
    rw [hlevel m' hm', hmine]
  saved := fun m rest he => by
    cases he
    rw [hmine]
    exact .inl hsaved
  zero := fun rest he => by
    have hnil : n.mine = 0 := (List.cons.inj he).1
    rcases hzero with hne | hzero
    · exact absurd (hmine ▸ hnil) hne
    · exact hzero

theorem MaskInv.sigprocmask {how : How} {set : Option (UserPtr Sigset)}
    {oset : Option (BitVec 32)} (h : MaskInv n) (hok : n.interrupted = [] ∨ n.task.blockedSaved ≠ 0)
    (hint : n'.interrupted = n.interrupted)
    (htask : n'.task = (sysSigprocmask how set oset n.task).2.2) : MaskInv n' := by
  rcases hok with hnil | hne
  · exact MaskInv.nil (hint.trans hnil)
  · have hkept : n'.task.blockedSaved = n.task.blockedSaved := by
      rw [htask]
      unfold sysSigprocmask
      repeat' split
      all_goals rfl
    have hsaved (m : Sigset) (rest : List Sigset) (he : n'.interrupted = m :: rest) :
        n.task.blockedSaved = m := by
      rcases h.saved m rest (hint ▸ he) with hs | ⟨hs, -⟩
      · exact hs
      · exact absurd hs hne
    refine ⟨fun m rest he => h.same m rest (hint ▸ he), fun m rest he => .inl ?_,
      fun rest he => ?_⟩
    · rw [hkept]
      exact hsaved m rest he
    · exact absurd (hsaved 0 rest he) hne

theorem MaskInv.sigsuspend {sigmask : Option (UserPtr Sigset)} (h : MaskInv n)
    (hok : n.interrupted = [] ∨ n.Level ∧ n.task.blocked ≠ 0)
    (hint : n'.interrupted = n.interrupted)
    (htask : n'.task = (sysSigsuspend sigmask n.task).2) : MaskInv n' := by
  rcases hok with hnil | ⟨hlevel, hne⟩
  · exact MaskInv.nil (hint.trans hnil)
  · have hsame (m : Sigset) (rest : List Sigset) (he : n'.interrupted = m :: rest) :
        n.task.blocked = m :=
      (hlevel m (by rw [← hint, he]; exact List.mem_cons_self ..)).symm
    have hcases : n'.task = n.task ∨ n'.task.blockedSaved = n.task.blocked := by
      rw [htask]
      unfold sysSigsuspend
      split
      · exact .inl rfl
      · split
        · exact .inl rfl
        · exact .inr rfl
    rcases hcases with he | hsaved
    · exact h.congr hint (by rw [he]) (by rw [he])
    · refine ⟨fun m rest he => h.same m rest (hint ▸ he), fun m rest he => .inl ?_,
        fun rest he => ?_⟩
      · rw [hsaved, hsame m rest he]
      · exact absurd (hsame 0 rest he) hne

/-- The handlers are set without touching the masks in force. -/
theorem signal_masks {signum : Int} {handler : Handler} :
    (sysSignal signum handler t).2.blocked = t.blocked
      ∧ (sysSignal signum handler t).2.blockedSaved = t.blockedSaved := by
  unfold sysSignal
  repeat' split
  all_goals exact ⟨rfl, rfl⟩

theorem sigaction_masks {signum : Int} {act : Option (UserPtr Sigaction)}
    {oact : Option (BitVec 32)} : (sysSigaction signum act oact t).2.2.blocked = t.blocked
      ∧ (sysSigaction signum act oact t).2.2.blockedSaved = t.blockedSaved := by
  unfold sysSigaction
  repeat' split
  all_goals exact ⟨rfl, rfl⟩

theorem sendsig_masks {signum : Nat} : (sendsig signum t).blocked = t.blocked
    ∧ (sendsig signum t).blockedSaved = t.blockedSaved := by
  unfold sendsig
  split
  · exact ⟨rfl, rfl⟩
  · exact ⟨rfl, rfl⟩

theorem MaskInv.deliver (h : MaskInv n) (hok : MaskOk n .deliver)
    (he : n.deliver (doWithSignal n.task) = some n') : MaskInv n' := by
  have hmasks := doWithSignal_masks (t := n.task)
  generalize doWithSignal n.task = o at he hmasks
  cases o with
  | back t =>
    cases he
    exact h.congr rfl hmasks.1 hmasks.2
  | handler i t =>
    cases he
    obtain ⟨hi, hready, hcatch, -, hsaved, hblocked⟩ := hmasks
    obtain ⟨hmine, hlevel, hzero⟩ := hok i hi hready hcatch
    refine MaskInv.enter hlevel hmine hsaved ?_
    rw [hblocked]
    exact hzero
  | exit code => cases he

/-- One event. -/
theorem MaskInv.step {e : SigEvent} (h : MaskInv n) (hok : MaskOk n e)
    (he : e.nest n = some n') : MaskInv n' := by
  cases e with
  | signal signum handler =>
    cases he
    exact h.congr rfl signal_masks.1 signal_masks.2
  | sigaction signum act oact =>
    cases he
    exact h.congr rfl sigaction_masks.1 sigaction_masks.2
  | sigprocmask how set oset =>
    unfold SigEvent.nest at he
    dsimp only at he
    split at he
    · cases he
      exact h.sigprocmask hok rfl rfl
    · cases he
      exact h.sigprocmask hok rfl rfl
  | sigsuspend sigmask =>
    cases he
    exact h.sigsuspend hok rfl rfl
  | sigreturn cs =>
    unfold SigEvent.nest at he
    dsimp only at he
    split at he
    · cases he
    next m rest hint =>
    split at he
    · next hcs =>
      cases he
      rw [hcs]
      exact h.sigreturn hint
    · cases he
  | sendsig signum =>
    cases he
    exact h.congr rfl sendsig_masks.1 sendsig_masks.2
  | deliver => exact h.deliver hok he
  | fork pid =>
    cases he
    exact h.congr rfl rfl rfl
  | execve =>
    cases he
    exact MaskInv.nil rfl

theorem MaskRun.inv (h : MaskRun MaskOk n) : MaskInv n := by
  refine Lib.Reached.inv ?_ (fun _ _ _ ih hok he => ih.step hok he) h
  rintro _ ⟨pid, rfl⟩
  exact MaskInv.nil rfl

-- ======== results

/-- When the outermost handler returns, the mask is that of the code it
interrupted. -/
theorem mask_restored {mine : Sigset} (h : MaskRun MaskOk ⟨t, mine, [m]⟩) :
    (doSigreturn userCs t).blocked = m :=
  (h.inv.returned rfl).1

/-- A handler for `SIGHUP` with a mask of its own. -/
def catchHangup (mask : Sigset) : SigEvent :=
  .sigaction 1 (some ⟨0x40002000#32, ⟨0x40001000#32, mask, 0⟩⟩) none

/-- The process blocks `SIGINT` before it catches `SIGHUP`. -/
theorem mask_restored_hangup : ∃ t mine, MaskRun MaskOk ⟨t, mine, [2#32]⟩
    ∧ (doSigreturn userCs t).blocked = 2#32 := by
  have hinit : MaskRun MaskOk ⟨freshTask 2, 0, []⟩ := .first ⟨2, rfl⟩
  have hblock := hinit.step
    (SigEvent.sigprocmask .setmask (some ⟨0x40002000#32, 2#32⟩) none) (.inl rfl) rfl
  have hcatch := hblock.step (catchHangup 4#32) trivial rfl
  have hsent := hcatch.step (SigEvent.sendsig 0) trivial rfl
  have hrun := hsent.step SigEvent.deliver
    (fun _ _ _ _ => ⟨rfl, nofun, .inl (by decide)⟩) rfl
  exact ⟨_, _, hrun, mask_restored hrun⟩

/-- The mask 0 is not brought back. -/
theorem mask_not_restored : ∃ t mine m, MaskRun (fun _ _ => True) ⟨t, mine, [m]⟩
    ∧ (doSigreturn userCs t).blocked ≠ m := by
  have hinit : MaskRun (fun _ _ => True) ⟨freshTask 2, 0, []⟩ := .first ⟨2, rfl⟩
  have hcatch := hinit.step (catchHangup 4#32) trivial rfl
  have hsent := hcatch.step (SigEvent.sendsig 0) trivial rfl
  have hrun := hsent.step SigEvent.deliver trivial rfl
  exact ⟨_, _, _, hrun, by decide⟩

end Cnix.Kernel
