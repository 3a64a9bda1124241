/-
What `do_with_signal` does, and that `anysig` tells beforehand.

The loop of `do_with_signal` is set apart from what it does about the
signal it stops at (`scan`, `act`). `doWithSignal_cases` is all that the
other modules need to know about it: the signals it has passed that were
ready are ignored, and are no longer pending.
-/
import Cnix.Kernel.Signal

namespace Cnix.Kernel

variable {t : SigTask} {i j k left : Nat} {s : Sigset}

-- ======== sets

theorem sigbit_getLsbD (hj : j < signr) : (sigbit i).getLsbD j = decide (j = i) := by
  have hj' : j < 32 := hj
  unfold sigbit
  by_cases he : j = i
  · subst he
    simp [hj']
  · rw [decide_eq_false he]
    by_cases hlt : j < i
    · simp [hlt]
    · have hne : j - i ≠ 0 := by omega
      simp [hne]

theorem getLsbD_sdiff (hj : j < signr) :
    (s &&& ~~~sigbit i).getLsbD j = (s.getLsbD j && decide (j ≠ i)) := by
  have hj' : j < 32 := hj
  rw [BitVec.getLsbD_and, BitVec.getLsbD_not, sigbit_getLsbD hj, decide_eq_true hj',
    Bool.true_and, decide_not]

theorem ready_clear (hi : i ≠ j) (hj : j < signr) : (t.clear i).ready j = t.ready j := by
  unfold SigTask.ready SigTask.clear
  rw [getLsbD_sdiff hj, decide_eq_true (Ne.symm hi), Bool.and_true]

theorem ready_signal (h : t.ready i = true) : t.signal ≠ 0 := by
  intro hzero
  simp [SigTask.ready, hzero] at h

-- ======== the loop

/-- The loop of `do_with_signal`: the signal it stops at, and the task. -/
def scan : Nat → Nat → SigTask → Option Nat × SigTask
  | 0, _, t => (none, t)
  | left + 1, signum, t =>
    if !t.ready signum then scan left (signum + 1) t
    else
      let t := t.clear signum
      if t.pid ≤ 1 then (none, t)
      else if t.ignores signum then
        if t.signal ≠ 0 then scan left (signum + 1) t else (none, t)
      else (some signum, t)

/-- What is done about the signal. -/
def act : Option Nat × SigTask → Outcome
  | (none, t) => .back t
  | (some i, t) =>
    if (t.sigaction i).handler = sigDfl then .exit (i + 1) else .handler i (enterHandler t i)

theorem checkAgain_eq_act : ∀ (left k : Nat) (t : SigTask),
    checkAgain left k t = act (scan left k t) := by
  intro left
  induction left with
  | zero => exact fun _ _ => rfl
  | succ left ih =>
    intro k t
    rw [checkAgain, scan]
    simp only [ih]
    split_ifs <;> simp_all [act]

/-- The set `s` is left of the pending signals between `k` and `i`. -/
structure Passed (t : SigTask) (k i : Nat) (s : Sigset) : Prop where
  ignored : ∀ j, k ≤ j → j < i → t.ready j = true → t.ignores j = true
  bits : ∀ j < signr,
    s.getLsbD j = (t.signal.getLsbD j && !(decide (k ≤ j ∧ j < i) && t.ready j))

theorem Passed.nil (t : SigTask) (k : Nat) : Passed t k k t.signal :=
  ⟨fun j hk hj => absurd hj (Nat.not_lt.mpr hk), fun j _ => by simp; omega⟩

theorem Passed.empty (h : t.signal = 0) (k i : Nat) : Passed t k i t.signal :=
  ⟨fun _ _ _ hr => absurd h (ready_signal hr), fun j _ => by simp [h]⟩

theorem Passed.skip (h : Passed t (k + 1) i s) (hready : t.ready k = false) : Passed t k i s where
  ignored := by grind [h.ignored]
  bits := by grind [h.bits]

theorem Passed.ignore (h : Passed (t.clear k) (k + 1) i s) (hi : k < i) (hlast : i ≤ signr)
    (hready : t.ready k = true) (hign : t.ignores k = true) : Passed t k i s where
  ignored := by
    intro j hk hj hr
    by_cases he : k = j
    · exact he ▸ hign
    · exact h.ignored j (by omega) hj (by rwa [ready_clear he (by omega)])
  bits := by grind [h.bits, ready_clear, getLsbD_sdiff, SigTask.clear]

/-- The loop comes to its end, or to a signal that is not ignored. -/
theorem scan_cases : ∀ {left k : Nat} {t : SigTask}, k + left = signr →
    (∃ s, scan left k t = (none, { t with signal := s }) ∧ (1 < t.pid → Passed t k signr s)) ∨
    ∃ i s, k ≤ i ∧ i < signr ∧ t.ready i = true ∧ t.ignores i = false ∧ Passed t k i s ∧
      scan left k t = (some i, { t with signal := s &&& ~~~sigbit i }) := by
  intro left
  induction left with
  | zero =>
    intro k t hk
    exact .inl ⟨t.signal, rfl, fun _ => (show k = signr by omega) ▸ Passed.nil t k⟩
  | succ left ih =>
    intro k t hk
    rw [scan]
    by_cases hready : t.ready k = true
    · simp only [hready, Bool.not_true, Bool.false_eq_true, if_false]
      split_ifs with hpid hign hmore
      · exact .inl ⟨_, rfl, fun hlt => absurd hpid (Nat.not_le.mpr hlt)⟩
      · rcases ih (k := k + 1) (t := t.clear k) (by omega) with ⟨s, hscan, hall⟩ |
          ⟨i, s, hk', hi, hr, hign', hpassed, hscan⟩
        · exact .inl ⟨s, hscan, fun hlt => (hall hlt).ignore (by omega) le_rfl hready hign⟩
        · rw [ready_clear (by omega) hi] at hr
          exact .inr ⟨i, s, by omega, hi, hr, hign', hpassed.ignore hk' hi.le hready hign, hscan⟩
      · refine .inl ⟨_, rfl, fun _ => ?_⟩
        exact (Passed.empty (by simpa using hmore) _ _).ignore (by omega) le_rfl hready hign
      · exact .inr ⟨k, t.signal, le_rfl, by omega, hready, Bool.eq_false_iff.mpr hign,
          Passed.nil t k, rfl⟩
    · rw [Bool.not_eq_true] at hready
      simp only [hready, Bool.not_false, if_true]
      rcases ih (k := k + 1) (t := t) (by omega) with ⟨s, hscan, hall⟩ |
        ⟨i, s, hk', hi, hr, hign, hpassed, hscan⟩
      · exact .inl ⟨s, hscan, fun hlt => (hall hlt).skip hready⟩
      · exact .inr ⟨i, s, by omega, hi, hr, hign, hpassed.skip hready, hscan⟩

/-- What `do_with_signal` can do. -/
theorem doWithSignal_cases (t : SigTask) :
    (∃ s, doWithSignal t = .back { t with signal := s } ∧ (1 < t.pid → Passed t 0 signr s)) ∨
    ∃ i s, i < signr ∧ t.ready i = true ∧ t.ignores i = false ∧ Passed t 0 i s ∧
      scan signr 0 t = (some i, { t with signal := s &&& ~~~sigbit i }) ∧
      doWithSignal t = act (some i, { t with signal := s &&& ~~~sigbit i }) := by
  rw [doWithSignal, checkAgain_eq_act]
  rcases scan_cases (t := t) (Nat.zero_add signr) with ⟨s, hscan, hall⟩ |
    ⟨i, s, -, hi, hr, hign, hpassed, hscan⟩
  · exact .inl ⟨s, by rw [hscan, act], hall⟩
  · exact .inr ⟨i, s, hi, hr, hign, hpassed, hscan, by rw [hscan]⟩

-- ======== anysig

theorem anysigFrom_iff : ∀ {left k : Nat}, k + left = signr →
    (anysigFrom left k t = true ↔
      ∃ i, k ≤ i ∧ i < signr ∧ t.ready i = true ∧ t.ignores i = false) := by
  intro left
  induction left with
  | zero =>
    intro k hk
    simp only [anysigFrom, Bool.false_eq_true, false_iff]
    rintro ⟨i, hi, hlt, -⟩
    omega
  | succ left ih =>
    intro k hk
    have hnext : (∃ i, k ≤ i ∧ i < signr ∧ t.ready i = true ∧ t.ignores i = false) ↔
        t.ready k = true ∧ t.ignores k = false ∨
          ∃ i, k + 1 ≤ i ∧ i < signr ∧ t.ready i = true ∧ t.ignores i = false := by
      constructor
      · rintro ⟨i, hi, hlt, h⟩
        rcases hi.eq_or_lt with rfl | hi
        · exact .inl h
        · exact .inr ⟨i, hi, hlt, h⟩
      · rintro (h | ⟨i, hi, h⟩)
        · exact ⟨k, le_rfl, by omega, h⟩
        · exact ⟨i, by omega, h⟩
    rw [hnext, ← ih (by omega), anysigFrom]
    grind [ready_signal]

/-- `anysig` tells whether `do_with_signal` would end the process or enter
a handler. If so, it acts on the lowest signal that is ready and not
ignored, and the signals that are no longer pending, in the handler too,
are that one and lower ones that are ignored. -/
theorem anysig_tells (hpid : 1 < t.pid) :
    (anysig t = true ↔ ∀ t', doWithSignal t ≠ .back t') ∧
    (anysig t = true → ∃ i t', i < signr ∧ t.ready i = true ∧ t.ignores i = false ∧
      (∀ j < i, t.ready j = true → t.ignores j = true) ∧
      scan signr 0 t = (some i, t') ∧ doWithSignal t = act (some i, t') ∧
      (∀ k t1, doWithSignal t = .handler k t1 → k = i ∧ t1.signal = t'.signal) ∧
      ∀ j < signr, t'.signal.getLsbD j = (t.signal.getLsbD j &&
        !decide (j = i ∨ j < i ∧ t.ready j = true ∧ t.ignores j = true))) := by
  have hany : anysig t = true ↔ ∃ i < signr, t.ready i = true ∧ t.ignores i = false := by
    have hfrom := anysigFrom_iff (t := t) (Nat.zero_add signr)
    simp only [Nat.zero_le, true_and] at hfrom
    rw [anysig, ← hfrom]
    grind [ready_signal]
  rw [hany]
  rcases doWithSignal_cases t with ⟨s, hback, hall⟩ | ⟨i, s, hi, hr, hign, hpassed, hscan, hact⟩
  · have hnot : ¬ ∃ i < signr, t.ready i = true ∧ t.ignores i = false := by
      rintro ⟨i, hi, hr, hign⟩
      rw [(hall hpid).ignored i (Nat.zero_le _) hi hr] at hign
      cases hign
    exact ⟨⟨fun h => absurd h hnot, fun h => absurd hback (h _)⟩, fun h => absurd h hnot⟩
  · refine ⟨⟨fun _ t' hback => ?_, fun _ => ⟨i, hi, hr, hign⟩⟩, fun _ => ⟨i, _, hi, hr, hign,
      fun j hj => hpassed.ignored j (Nat.zero_le _) hj, hscan, hact, fun k t1 hback => ?_, fun j hj => ?_⟩⟩
    · rw [hact, act] at hback
      split at hback <;> cases hback
    · rw [hact, act] at hback
      split at hback
      · cases hback
      · cases hback
        exact ⟨rfl, rfl⟩
    · rw [getLsbD_sdiff hj, hpassed.bits j hj]
      grind [hpassed.ignored]

/-- `SIGCHLD` and `SIGHUP` are pending, and the first is ignored. -/
theorem anysig_tells_hangup : anysig { freshTask 2 with signal := 0x10001#32 } = true ∧
    ∀ t', doWithSignal { freshTask 2 with signal := 0x10001#32 } ≠ .back t' :=
  have h : anysig { freshTask 2 with signal := 0x10001#32 } = true := by decide
  ⟨h, (anysig_tells (t := { freshTask 2 with signal := 0x10001#32 }) (by decide)).1.mp h⟩

end Cnix.Kernel
