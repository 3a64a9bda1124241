/-
Preconditions of programs that change a state and may stop.

A program from `s` either returns a value in a new state or stops with a
reason. `wp x post trap s` says that `post` holds of the one or `trap` of
the other. What a composed program does follows from what its parts do
(`wp_bind`), so one lemma for each function is enough to go through a
program that calls it.
-/
import Mathlib.Control.Basic

namespace Cnix.Lib

variable {σ ε α β : Type} {e : ε} {b : β}

/-- What a program from `s` leads to. -/
def wp (x : StateT σ (Except ε) α) (post : α → σ → Prop) (trap : ε → Prop) (s : σ) : Prop :=
  match x s with
  | .ok (a, s') => post a s'
  | .error e => trap e

variable {x : StateT σ (Except ε) α} {f : α → StateT σ (Except ε) β}
  {post post' : α → σ → Prop} {post2 : β → σ → Prop} {trap trap' : ε → Prop} {s s' : σ} {a : α}

theorem wp.mono (h : wp x post trap s) (hpost : ∀ a s', post a s' → post' a s')
    (htrap : ∀ e, trap e → trap' e) : wp x post' trap' s := by
  unfold wp at h ⊢
  split at h
  · exact hpost _ _ h
  · exact htrap _ h

theorem wp.returns (h : wp x post trap s) (hx : x s = .ok (a, s')) : post a s' := by
  unfold wp at h
  rw [hx] at h
  exact h

theorem wp.stops (h : wp x post trap s) (hx : x s = .error e) : trap e := by
  unfold wp at h
  rw [hx] at h
  exact h

/-- A computation that returns has returned from its first step. -/
theorem bind_returns {m : Except ε α} {k : α → Except ε β} (h : (m >>= k) = .ok b) :
    ∃ a, m = .ok a ∧ k a = .ok b := by
  cases m with
  | error e => cases h
  | ok a => exact ⟨a, rfl, h⟩

/-- A step whose result is known. -/
theorem run_bind (hx : x s = .ok (a, s')) : (x >>= f) s = f a s' := by
  show (x s >>= fun r => f r.1 r.2 : Except ε (β × σ)) = _
  rw [hx]
  rfl

/-- A program that returns has returned from its first step. -/
theorem run_bind_ok (hrun : (x >>= f) s = .ok (b, s')) :
    ∃ a s1, x s = .ok (a, s1) ∧ f a s1 = .ok (b, s') := by
  obtain ⟨r, hx, hf⟩ := bind_returns (m := x s) (k := fun r => f r.1 r.2) hrun
  exact ⟨r.1, r.2, hx, hf⟩

theorem run_get {g : σ → StateT σ (Except ε) β} : (get >>= g) s = g s s := rfl

/-- A program that never stops returns. -/
theorem wp.total (h : wp x post (fun _ => False) s) : ∃ a s', x s = .ok (a, s') ∧ post a s' := by
  unfold wp at h
  split at h
  · next a s' hx => exact ⟨a, s', hx, h⟩
  · exact h.elim

theorem wp_true (x : StateT σ (Except ε) α) (s : σ) : wp x (fun _ _ => True) (fun _ => True) s := by
  unfold wp
  split <;> trivial

@[simp] theorem wp_pure : wp (pure a) post trap s = post a s := rfl

theorem wp_bind : wp (x >>= f) post2 trap s = wp x (fun a s => wp (f a) post2 trap s) trap s := by
  unfold wp
  show (match (x s >>= fun r => f r.1 r.2 : Except ε (β × σ)) with
    | .ok (b, s') => post2 b s'
    | .error e => trap e) = _
  cases x s with
  | error e | ok r => rfl

/-- A step that is known to return, and the rest. -/
theorem wp_bind_ok (hx : x s = .ok (a, s')) : wp (x >>= f) post2 trap s = wp (f a) post2 trap s' := by
  unfold wp
  rw [run_bind hx]

theorem wp_bind_error (hx : x s = .error e) : wp (x >>= f) post2 trap s = trap e := by
  rw [wp_bind]
  unfold wp
  rw [hx]

@[simp] theorem wp_get {post : σ → σ → Prop} :
    wp (get : StateT σ (Except ε) σ) post trap s = post s s := rfl

@[simp] theorem wp_set {post : PUnit → σ → Prop} :
    wp (set s' : StateT σ (Except ε) PUnit) post trap s = post ⟨⟩ s' := rfl

/-- One step of a program, for which there is a lemma, and the rest. -/
theorem wp.seq (h : wp x post trap s)
    (hf : ∀ a s', post a s' → wp (f a) post2 trap s') : wp (x >>= f) post2 trap s := by
  rw [wp_bind]
  exact h.mono hf fun _ => id

-- ======== what every step keeps to

/-- Whatever a program does is a step of `R`. -/
def Within (R : σ → σ → Prop) (x : StateT σ (Except ε) α) : Prop :=
  ∀ s, wp x (fun _ s' => R s s') (fun _ => True) s

section Within

variable {R : σ → σ → Prop}

theorem Within.returns (h : Within R x) (hx : x s = .ok (a, s')) : R s s' := by
  have hs := wp.returns (h s) hx
  exact hs

theorem Within.bind (htrans : ∀ {s1 s2 s3}, R s1 s2 → R s2 s3 → R s1 s3) (hx : Within R x)
    (hf : ∀ a, Within R (f a)) : Within R (x >>= f) := by
  intro s
  refine (hx s).seq fun a s1 h1 => ?_
  exact (hf a s1).mono (fun _ _ h2 => htrans h1 h2) fun _ => id

theorem within_pure (hrefl : ∀ s, R s s) (a : α) : Within R (pure a : StateT σ (Except ε) α) :=
  fun s => hrefl s

theorem within_get (hrefl : ∀ s, R s s) : Within R (get : StateT σ (Except ε) σ) :=
  fun s => hrefl s

theorem within_modify {g : σ → σ} (hg : ∀ s, R s (g s)) :
    Within R (modify g : StateT σ (Except ε) PUnit) := fun s => hg s

end Within

end Cnix.Lib
