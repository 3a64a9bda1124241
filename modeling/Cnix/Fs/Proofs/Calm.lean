/-
What finding and putting an inode can do to the attributes of files.

`iput` frees an inode without links when nobody refers to it any more, and
clears its mode then. Nothing else of what the attribute calls deal with
is changed by a walk, whatever state it starts from (`Calm`).
-/
import Cnix.Lib.Hoare
import Cnix.Fs.Access

namespace Cnix.Fs

open Lib

variable {s s1 s2 s3 : Sys} {pid : Nat} {h : Handle} {α : Type} {name : Name} {q : Quest}
  {follow : Option Follow}

/-- The same owner, group, times and links. -/
structure Dinode.SameOwner (d d' : Dinode) : Prop where
  uid : d'.uid = d.uid
  gid : d'.gid = d.gid
  atime : d'.atime = d.atime
  mtime : d'.mtime = d.mtime
  nlinks : d'.nlinks = d.nlinks

/-- The same owners and modes, unless a file without links was freed. -/
structure Calm (s s' : Sys) : Prop where
  task : s'.task = s.task
  filps : s'.filps = s.filps
  owner : ∀ h, (s.node h).SameOwner (s'.node h)
  mode : ∀ h, (s'.node h).mode = (s.node h).mode ∨ (s.node h).nlinks = 0 ∧ (s'.node h).mode = 0

theorem Dinode.SameOwner.refl (d : Dinode) : d.SameOwner d := ⟨rfl, rfl, rfl, rfl, rfl⟩

theorem Dinode.SameOwner.trans {d1 d2 d3 : Dinode} (h1 : d1.SameOwner d2)
    (h2 : d2.SameOwner d3) : d1.SameOwner d3 where
  uid := h2.uid.trans h1.uid
  gid := h2.gid.trans h1.gid
  atime := h2.atime.trans h1.atime
  mtime := h2.mtime.trans h1.mtime
  nlinks := h2.nlinks.trans h1.nlinks

theorem Calm.refl (s : Sys) : Calm s s := ⟨rfl, rfl, fun _ => .refl _, fun _ => .inl rfl⟩

theorem Calm.trans (h1 : Calm s1 s2) (h2 : Calm s2 s3) : Calm s1 s3 where
  task := h2.task.trans h1.task
  filps := h2.filps.trans h1.filps
  owner := fun h => (h1.owner h).trans (h2.owner h)
  mode := by
    intro h
    have hlinks := (h1.owner h).nlinks
    rcases h1.mode h with hm | hm
    · rw [← hm, ← hlinks]
      exact h2.mode h
    · rcases h2.mode h with hm' | hm'
      · exact .inr ⟨hm.1, hm'.trans hm.2⟩
      · exact .inr ⟨hm.1, hm'.2⟩

/-- The rule for calm programs. -/
theorem calm_bind {β : Type} {x : M α} {f : α → M β} (hx : Within Calm x)
    (hf : ∀ a, Within Calm (f a)) : Within Calm (x >>= f) := hx.bind Calm.trans hf

theorem calm_pure (a : α) : Within Calm (pure a : M α) := within_pure Calm.refl a

theorem calm_get : Within Calm (get : M Sys) := within_get Calm.refl

theorem calm_stop (t : Trap) : Within Calm (fun _ => .error t : M α) := fun _ => trivial

/-- Counts, locks and mount marks are not attributes. -/
theorem Calm.setRef (s : Sys) (h : Handle) (r : Ref) : Calm s (s.setRef h r) :=
  ⟨rfl, rfl, fun _ => .refl _, fun _ => .inl rfl⟩

-- ======== the inodes

theorem ilock_calm : Within Calm (ilock pid h) := by
  intro s
  unfold wp ilock
  cases (s.ref h).lock with
  | none => exact .setRef s h _
  | some owner => trivial

theorem hold_calm : Within Calm (hold h) := fun s => .setRef s h _

/-- Writing an inode whose owner and mode stay. -/
theorem Calm.setNode {d : Dinode} (howner : (s.node h).SameOwner d)
    (hmode : d.mode = (s.node h).mode ∨ (s.node h).nlinks = 0 ∧ d.mode = 0) :
    Calm s (s.setNode h d) := by
  refine ⟨rfl, rfl, fun k => ?_, fun k => ?_⟩
  · by_cases hk : k = h
    · subst hk
      simpa [Sys.setNode] using howner
    · simpa [Sys.setNode, hk] using Dinode.SameOwner.refl _
  · by_cases hk : k = h
    · subst hk
      simpa [Sys.setNode] using hmode
    · simp [Sys.setNode, hk]

theorem Calm.setVol (s : Sys) (dev : Dev) (vol : Volume) : Calm s (s.setVol dev vol) :=
  ⟨rfl, rfl, fun _ => .refl _, fun _ => .inl rfl⟩

theorem itruncate_calm (s : Sys) (h : Handle) : Calm s (itruncate h s) :=
  (Calm.setVol s h.dev _).trans (Calm.setNode ⟨rfl, rfl, rfl, rfl, rfl⟩ (.inl rfl))

theorem ifree_calm (hlinks : (s.node h).nlinks = 0) : Calm s (ifree h s) := by
  have htrunc := itruncate_calm s h
  have hlinks' : ((itruncate h s).node h).nlinks = 0 := (htrunc.owner h).nlinks.trans hlinks
  refine htrunc.trans ((Calm.setVol _ h.dev _).trans (Calm.setNode ?_ ?_))
  · exact ⟨rfl, rfl, rfl, rfl, rfl⟩
  · exact .inr ⟨hlinks', rfl⟩

theorem iputLocked_calm : Within Calm (iputLocked h) := by
  intro s
  unfold wp iputLocked
  by_cases hcount : (s.ref h).count - 1 < 0
  · rw [if_pos hcount]
    trivial
  · rw [if_neg hcount]
    by_cases hfree : (s.ref h).count - 1 = 0 ∧ h.dev ≠ nodev ∧ (s.node h).nlinks = 0
    · rw [if_pos hfree]
      exact (ifree_calm hfree.2.2).trans (.setRef _ h _)
    · rw [if_neg hfree]
      exact .setRef s h _

theorem iput_calm : Within Calm (iput pid h) := by
  apply calm_bind calm_get
  intro s
  split
  · exact calm_bind ilock_calm fun _ => iputLocked_calm
  · exact iputLocked_calm

theorem igetLoop_calm (dev : Dev) (turns num : Nat) : Within Calm (igetLoop pid dev turns num) := by
  induction turns generalizing num with
  | zero => exact calm_stop _
  | succ turns ih =>
    intro s
    unfold wp igetLoop
    dsimp only
    cases (s.ref (s.cur dev num)).lock with
    | some owner => trivial
    | none =>
      cases mountedRoot s (s.cur dev num) with
      | none => exact .setRef s _ _
      | some root =>
        dsimp only
        by_cases hroot : root = num
        · rw [if_pos hroot]
          exact .setRef s _ _
        · rw [if_neg hroot]
          exact ih root s

theorem iget_calm (dev : Dev) (num : Nat) : Within Calm (iget pid dev num) := igetLoop_calm dev 2 num

-- ======== the walk

theorem crossMount_calm : Within Calm (crossMount pid h) := by
  apply calm_bind calm_get
  intro s
  split
  · exact calm_pure _
  · apply calm_bind iput_calm
    intro _
    apply calm_bind calm_get
    intro s'
    split
    · exact calm_stop _
    · exact calm_bind hold_calm fun _ => calm_bind ilock_calm fun _ => calm_pure _

theorem searchedDir_calm : Within Calm (searchedDir pid h name) := by
  unfold searchedDir
  split
  · apply calm_bind calm_get
    intro s
    split
    · exact calm_stop _
    · apply calm_bind hold_calm
      intro _
      apply calm_bind ilock_calm
      intro _
      exact calm_bind iput_calm fun _ => calm_pure _
  · exact calm_pure _

theorem ifind_calm : Within Calm (ifind pid h name) := by
  apply calm_bind calm_get
  intro s
  split
  · exact calm_bind iput_calm fun _ => calm_pure _
  split
  · exact calm_pure _
  apply calm_bind searchedDir_calm
  intro workino
  apply calm_bind calm_get
  intro s'
  split
  · exact calm_bind iput_calm fun _ => calm_pure _
  · apply calm_bind iput_calm
    intro _
    apply calm_bind (iget_calm _ _)
    intro tmp
    exact calm_bind crossMount_calm fun _ => calm_pure _

theorem errout_calm {e : Errno} : Within Calm (errout pid h e) := by
  exact calm_bind iput_calm fun _ => calm_pure _

/-- A follower of links that is calm, or none. -/
def Follow.Calm (follow : Option Follow) : Prop :=
  ∀ f, follow = some f → ∀ prev ended text, Within Fs.Calm (f prev ended text)

theorem nameiLoop_calm (hfollow : Follow.Calm follow)
    (ended : Bool) (turns : Nat) (prev : Dev × Nat) (h : Handle) (path : Name) :
    Within Calm (nameiLoop pid q follow ended turns prev h path) := by
  induction turns generalizing prev h path with
  | zero => exact calm_stop _
  | succ turns ih =>
    unfold nameiLoop
    split
    · exact calm_pure _
    apply calm_bind calm_get
    intro s
    dsimp only
    split
    · -- a link
      split
      · exact calm_pure _
      · exact errout_calm
      · next f _ =>
        split
        · exact errout_calm
        · exact calm_bind iput_calm fun _ => hfollow f rfl _ _ _
    · split
      · split
        · exact errout_calm
        · exact calm_pure _
      · exact errout_calm
      · split
        · exact errout_calm
        · apply calm_bind ifind_calm
          intro found
          split
          · exact calm_pure _
          · exact ih _ _ _

theorem stepPath_calm (hfollow : Follow.Calm follow)
    (prev : Dev × Nat) (ended : Bool) (path : Name) :
    Within Calm (stepPath pid q follow prev ended path) := by
  unfold stepPath
  split
  · exact calm_pure _
  · apply calm_bind calm_get
    intro s
    apply calm_bind (iget_calm _ _)
    intro workino
    exact nameiLoop_calm hfollow _ _ _ _ _

theorem stepIntoLink_calm (links : Nat) (prev : Dev × Nat) (ended : Bool)
    (path : Name) : Within Calm (stepIntoLink pid q links prev ended path) := by
  induction links generalizing prev ended path with
  | zero => exact stepPath_calm (fun f hf => by cases hf) prev ended path
  | succ links ih =>
    apply stepPath_calm
    intro f hf
    cases hf
    exact ih

/-- A walk is calm. -/
theorem namei_calm {path : Name} {flag : Bool} : Within Calm (namei pid path flag) := by
  exact calm_bind calm_get fun s => stepIntoLink_calm _ _ _ _

theorem refuse_calm : Within Calm (refuse pid h) := by
  exact calm_bind iput_calm fun _ => calm_pure _

end Cnix.Fs
