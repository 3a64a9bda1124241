/-
What `do_open` grants, after any `chmod` calls of the owner.

# Two gaps

`chmod` and `fchmod` add the bits they are given to the mode, so that a
permission that was given once stays. And `admit` is content with one of
the bits it is asked for, in any of the classes that the process falls
in.

# When it holds

If each mode that the owner gives has the permissions of the mode before
(`Widens`), the file has the permissions that were given last. If then
the class of the process has all the bits that are asked for, or none of
them and the other classes it falls in have no more (`Nested`), only
processes whose class has them all are let in.
-/
import Cnix.Lib.Runs
import Cnix.Fs.Proofs.Attributes

namespace Cnix.Fs

open Lib

variable {s s' s0 s1 : Sys} {pid fd i : Nat} {h k : Handle} {path : Name} {g mode : BitVec 16}
  {task : Task} {d : Dinode} {access : Access} {c : AttrCall} {flags : OpenFlags}

-- ======== the classes

/-- The bits of a class that an access asks for. -/
def Access.wants : Access → List Nat
  | .rdonly => [2]
  | .wronly => [1]
  | .rdwr => [2, 1]

/-- Where the bits of the class that applies to the process are: those of
the owner, else of the group, else of others. -/
def classOf (task : Task) (d : Dinode) : Nat :=
  if task.euid = d.uid then 6 else if task.egid = d.gid then 3 else 0

/-- The class has every bit that the access asks for. -/
def Permits (mode : BitVec 16) (cls : Nat) (access : Access) : Prop :=
  ∀ i ∈ access.wants, mode.getLsbD (cls + i) = true

/-- The class has all or none of the bits, and the other classes that the
process falls in have no others. -/
structure Nested (task : Task) (d : Dinode) (access : Access) : Prop where
  whole : Permits d.mode (classOf task d) access
    ∨ ∀ i ∈ access.wants, d.mode.getLsbD (classOf task d + i) = false
  group : task.egid = d.gid → ∀ i ∈ access.wants, d.mode.getLsbD (3 + i) = true →
    d.mode.getLsbD (classOf task d + i) = true
  other : ∀ i ∈ access.wants, d.mode.getLsbD i = true →
    d.mode.getLsbD (classOf task d + i) = true

theorem twoPow_and_ne (hi : i < 16) (mode : BitVec 16) :
    (BitVec.twoPow 16 i &&& mode != 0) = mode.getLsbD i := by
  rw [BitVec.twoPow_and]
  cases mode.getLsbD i with
  | false => rfl
  | true =>
    have hne : BitVec.twoPow 16 i ≠ 0 := by
      intro hzero
      have hbit := congrArg (fun x => x.getLsbD i) hzero
      simp [hi] at hbit
    simpa using hne

/-- The test of `admit` for one class. -/
theorem bits_and {cls : Nat} (hcls : cls = 6 ∨ cls = 3 ∨ cls = 0)
    (mode : BitVec 16) : (access.bits <<< cls &&& mode != 0) = true ↔
      ∃ i ∈ access.wants, mode.getLsbD (cls + i) = true := by
  have hr : iRb <<< cls = BitVec.twoPow 16 (cls + 2) := by
    rcases hcls with rfl | rfl | rfl <;> rfl
  have hw : iWb <<< cls = BitVec.twoPow 16 (cls + 1) := by
    rcases hcls with rfl | rfl | rfl <;> rfl
  have hlt : cls + 2 < 16 := by omega
  have hread := twoPow_and_ne hlt mode
  have hwrite := twoPow_and_ne (i := cls + 1) (by omega) mode
  cases access with
  | rdonly => simp [Access.bits, Access.wants, hr, ← hread]
  | wronly => simp [Access.bits, Access.wants, hw, ← hwrite]
  | rdwr =>
    have hboth : (iRb ||| iWb) <<< cls &&& mode
        = BitVec.twoPow 16 (cls + 2) &&& mode ||| BitVec.twoPow 16 (cls + 1) &&& mode := by
      rw [BitVec.shiftLeft_or_distrib, hr, hw]
      ext i hi
      simp only [BitVec.getElem_and, BitVec.getElem_or, Bool.and_or_distrib_right]
    simp only [Access.bits, Access.wants, hboth, ← hread, ← hwrite, bne_iff_ne, ne_eq,
      List.mem_cons, List.not_mem_nil, or_false, exists_eq_or_imp, exists_eq_left]
    rw [BitVec.ofNat_eq_ofNat, BitVec.or_eq_zero_iff]
    exact not_and_or

/-- A process that is let in has a bit in one of its classes. -/
theorem admitted_class (huser : task.euid ≠ 0) (hgrant : admitted task d access.bits = true) :
    (task.euid = d.uid ∧ ∃ i ∈ access.wants, d.mode.getLsbD (6 + i) = true) ∨
    (task.egid = d.gid ∧ ∃ i ∈ access.wants, d.mode.getLsbD (3 + i) = true) ∨
    ∃ i ∈ access.wants, d.mode.getLsbD i = true := by
  unfold admitted at hgrant
  rw [if_neg huser] at hgrant
  simp only [Bool.or_eq_true, Bool.and_eq_true, beq_iff_eq] at hgrant
  rcases hgrant with (⟨huid, hbits⟩ | ⟨hgid, hbits⟩) | hbits
  · exact .inl ⟨huid, (bits_and (.inl rfl) d.mode).mp hbits⟩
  · exact .inr (.inl ⟨hgid, (bits_and (.inr (.inl rfl)) d.mode).mp hbits⟩)
  · have hzero : access.bits <<< 0 = access.bits := BitVec.shiftLeft_zero _
    rw [← hzero] at hbits
    obtain ⟨i, hi, hbit⟩ := (bits_and (.inr (.inr rfl)) d.mode).mp hbits
    rw [Nat.zero_add] at hbit
    exact .inr (.inr ⟨i, hi, hbit⟩)

/-- Where the classes are nested, the class of the process decides. -/
theorem Nested.permits (hn : Nested task d access)
    (huser : task.euid ≠ 0) (hgrant : admitted task d access.bits = true) :
    Permits d.mode (classOf task d) access := by
  have hown : ∃ i ∈ access.wants, d.mode.getLsbD (classOf task d + i) = true := by
    rcases admitted_class huser hgrant with ⟨huid, i, hi, hbit⟩ | ⟨hgid, i, hi, hbit⟩ | ⟨i, hi, hbit⟩
    · have hcls : classOf task d = 6 := if_pos huid
      exact ⟨i, hi, hcls ▸ hbit⟩
    · exact ⟨i, hi, hn.group hgid i hi hbit⟩
    · exact ⟨i, hi, hn.other i hi hbit⟩
  rcases hn.whole with hall | hnone
  · exact hall
  · obtain ⟨i, hi, hbit⟩ := hown
    rw [hnone i hi] at hbit
    cases hbit

-- ======== the history

/-- The mode that a `chmod` or `fchmod` call gives. -/
def AttrCall.gives : AttrCall → Option (BitVec 16)
  | .chmod _ mode | .fchmod _ mode => some mode
  | _ => none

/-- The call is about the file. -/
def AttrCall.On (pid : Nat) (h : Handle) (s : Sys) : AttrCall → Prop
  | .chmod path _ | .chown path .. | .utime path _ => ∃ s1, namei pid path false s = .ok (.ok h, s1)
  | .fchmod fd _ | .fchown fd .. => ∃ i, (s.task pid).file fd = some i ∧ (s.filps i).ino = h

/-- `chmod` and `fchmod` calls by processes of the owner, each meeting
`ok`, and the mode that was given last. -/
inductive ModeRun (h : Handle) (ok : Nat → Sys → AttrCall → Prop) (s0 : Sys) :
    Sys → BitVec 16 → Prop
  | init : ModeRun h ok s0 s0 (s0.node h).mode
  | given {s s' : Sys} {g mode : BitVec 16} {pid : Nat} {c : AttrCall} :
      ModeRun h ok s0 s g → (s.task pid).euid = (s.node h).uid → c.gives = some mode → ok pid s c →
      c.On pid h s → c.run pid s = .ok (.ok 0, s') → ModeRun h ok s0 s' mode
  | other {s s' : Sys} {g mode : BitVec 16} {r : Ret} {pid : Nat} {c : AttrCall} :
      ModeRun h ok s0 s g → (s.task pid).euid = (s.node h).uid → c.gives = some mode → ok pid s c →
      (c.On pid h s → ∃ e, r = .error e) → c.run pid s = .ok (r, s') → ModeRun h ok s0 s' g

/-- The mode has the permissions that the file has. -/
def Widens (h : Handle) (pid : Nat) (s : Sys) (c : AttrCall) : Prop :=
  c.On pid h s → ∀ mode, c.gives = some mode → ∀ i < 9, (s.node h).mode.getLsbD i = true →
    mode.getLsbD i = true

/-- The file has the permissions of `g`, or none. -/
def HasMode (s : Sys) (h : Handle) (g : BitVec 16) : Prop :=
  (∀ i < 9, (s.node h).mode.getLsbD i = g.getLsbD i) ∨ (s.node h).mode = 0

theorem Same.hasMode (hs : Same h s s') (hg : HasMode s h g) : HasMode s' h g := by
  rcases hs.mode with hm | hm
  · unfold HasMode
    rw [hm]
    exact hg
  · exact .inr hm.2

/-- A call is about one file. -/
theorem AttrCall.On.unique (hh : c.On pid h s) (hk : c.On pid k s) : k = h := by
  have hpath (path : Name) (hh : ∃ s1, namei pid path false s = .ok (.ok h, s1))
      (hk : ∃ s1, namei pid path false s = .ok (.ok k, s1)) : k = h := by
    obtain ⟨s1, hh⟩ := hh
    obtain ⟨s2, hk⟩ := hk
    rw [hh] at hk
    cases hk
    rfl
  have hfile (fd : Nat) (hh : ∃ i, (s.task pid).file fd = some i ∧ (s.filps i).ino = h)
      (hk : ∃ i, (s.task pid).file fd = some i ∧ (s.filps i).ino = k) : k = h := by
    obtain ⟨i, hi, rfl⟩ := hh
    obtain ⟨j, hj, rfl⟩ := hk
    rw [hi] at hj
    cases hj
    rfl
  cases c with
  | chmod path mode => exact hpath path hh hk
  | fchmod fd mode => exact hfile fd hh hk
  | chown path owner group => exact hpath path hh hk
  | fchown fd owner group => exact hfile fd hh hk
  | utime path buf => exact hpath path hh hk

-- ======== chmod

/-- The inode after `chmod`. -/
def widened (d : Dinode) (mode : BitVec 16) : Dinode := { d with mode := d.mode ||| mode &&& iUgrwx }

/-- What a call that gives `mode` comes to: nothing, and an error if it is
about a file at all, or the file that it is about is changed. -/
def Chmods (pid : Nat) (c : AttrCall) (mode : BitVec 16) (s : Sys) (r : Ret) (s' : Sys) : Prop :=
  (Calm s s' ∧ ∀ k, c.On pid k s → ∃ e, r = .error e) ∨
    ∃ k s1, c.On pid k s ∧ r = .ok 0 ∧ Calm s s1 ∧
      Calm (s1.setNode k (widened (s1.node k) mode)) s'

theorem chmodInode_chmods (hk : c.On pid k s) (hcalm : Calm s s1) :
    wp (chmodInode pid mode k) (Chmods pid c mode s) (fun _ => True) s1 := by
  unfold chmodInode
  rw [wp_bind, wp_get]
  dsimp only
  split
  · refine (iput_calm s1).seq fun _ s2 h2 => ?_
    exact .inl ⟨hcalm.trans h2, fun _ _ => ⟨_, rfl⟩⟩
  · rw [wp_bind, wp_set]
    refine (iput_calm _).seq fun _ s2 h2 => ?_
    exact .inr ⟨k, s1, hk, rfl, hcalm, h2⟩

theorem doChmod_chmods :
    wp (doChmod pid path mode) (Chmods pid (.chmod path mode) mode s) (fun _ => True) s := by
  unfold doChmod
  rw [wp_bind]
  unfold wp
  cases hn : namei pid path false s with
  | error t => trivial
  | ok r =>
    obtain ⟨found, s1⟩ := r
    have hcalm := namei_calm.returns hn
    cases found with
    | error e =>
      refine .inl ⟨hcalm, fun k hk => ?_⟩
      obtain ⟨s2, hk⟩ := hk
      rw [hn] at hk
      cases hk
    | ok k => exact chmodInode_chmods ⟨s1, hn⟩ hcalm

theorem sysFchmod_chmods :
    wp (sysFchmod pid fd mode) (Chmods pid (.fchmod fd mode) mode s) (fun _ => True) s := by
  unfold sysFchmod fgetInode
  split
  · exact .inl ⟨Calm.refl s, fun _ _ => ⟨_, rfl⟩⟩
  · rw [wp_bind, wp_bind, wp_get]
    split
    · exact .inl ⟨Calm.refl s, fun _ _ => ⟨_, rfl⟩⟩
    · next i hi =>
      refine (ilock_calm s).seq fun _ s1 h1 => ?_
      refine (hold_calm s1).seq fun _ s2 h2 => ?_
      exact chmodInode_chmods ⟨i, hi, rfl⟩ (h1.trans h2)

theorem chmods_of_gives {r : Ret} (hgives : c.gives = some mode)
    (hrun : c.run pid s = .ok (r, s')) : Chmods pid c mode s r s' := by
  cases c with
  | chmod path m =>
    cases hgives
    exact wp.returns doChmod_chmods hrun
  | fchmod fd m =>
    cases hgives
    exact wp.returns sysFchmod_chmods hrun
  | chown | fchown | utime => cases hgives

/-- The permissions after a widening `chmod`. -/
theorem widened_getLsbD
    (hw : ∀ i < 9, d.mode.getLsbD i = true → mode.getLsbD i = true) (hi : i < 9) :
    (widened d mode).mode.getLsbD i = mode.getLsbD i := by
  have hall : iUgrwx.getLsbD i = true := by
    revert i
    decide
  unfold widened
  rw [BitVec.getLsbD_or, BitVec.getLsbD_and, hall, Bool.and_true]
  cases hd : d.mode.getLsbD i with
  | false => exact Bool.false_or _
  | true => rw [hw i hi hd, Bool.true_or]

/-- The file has the permissions that were given last. -/
theorem ModeRun.hasMode (hrun : ModeRun h (Widens h) s0 s g) : HasMode s h g := by
  induction hrun with
  | init => exact .inl fun i _ => rfl
  | @given s s' g mode pid c _ _ hgives hok hon hcall ih =>
    rcases chmods_of_gives hgives hcall with ⟨-, hfail⟩ | ⟨k, s1, hk, -, hfound, hend⟩
    · obtain ⟨e, he⟩ := hfail h hon
      cases he
    · have hkh := hon.unique hk
      subst hkh
      apply (hend.same k).hasMode
      refine .inl fun i hi => ?_
      have hnode : (s1.setNode k (widened (s1.node k) mode)).node k = widened (s1.node k) mode :=
        Function.update_self ..
      rw [hnode]
      refine widened_getLsbD (fun j hj hbit => ?_) hi
      rcases hfound.mode k with hm | ⟨-, hm⟩
      · exact hok hon mode hgives j hj (hm ▸ hbit)
      · rw [hm] at hbit
        simp at hbit
  | @other s s' g mode r pid c _ _ hgives hok hnot hcall ih =>
    rcases chmods_of_gives hgives hcall with ⟨hcalm, -⟩ | ⟨k, s1, hk, hr, hfound, hend⟩
    · exact (hcalm.same h).hasMode ih
    · have hne : h ≠ k := by
        rintro rfl
        obtain ⟨e, he⟩ := hnot hk
        rw [he] at hr
        cases hr
      have hsame := ((hfound.same h).trans (Same.setNode_ne hne)).trans (hend.same h)
      exact hsame.hasMode ih

-- ======== open

theorem openInode_admitted : wp (openInode pid h flags) (fun r _ => ∀ fd, r = .ok fd →
      admitted (s.task pid) (s.node h) flags.access.bits = true) (fun _ => True) s := by
  unfold openInode
  rw [wp_bind, wp_get]
  dsimp only
  split
  · refine (iput_calm s).seq fun _ s1 _ => ?_
    intro fd hfd
    cases hfd
  · next hgrant =>
    have hgrant : admitted (s.task pid) (s.node h) flags.access.bits = true := by
      simpa using hgrant
    exact (wp_true _ s).mono (fun _ _ _ _ _ => hgrant) fun _ => id

/-- A file that is there and that `do_open` opens was admitted. -/
theorem doOpen_admitted (hn : namei pid path false s = .ok (.ok h, s1))
    (hopen : doOpen pid path flags mode s = .ok (.ok fd, s')) :
    admitted (s1.task pid) (s1.node h) flags.access.bits = true := by
  have hspec : wp (doOpen pid path flags mode) (fun r _ => ∀ fd, r = .ok fd →
      admitted (s1.task pid) (s1.node h) flags.access.bits = true) (fun _ => True) s := by
    unfold doOpen
    rw [wp_bind]
    unfold wp
    rw [hn]
    show wp _ _ _ s1
    rw [wp_bind, wp_get]
    dsimp only
    split
    · refine (iput_calm s1).seq fun _ s2 _ => ?_
      intro fd hfd
      cases hfd
    · exact openInode_admitted
  exact wp.returns hspec hopen fd rfl

/-- If the owner only ever adds permissions and the classes of the file are
nested for what is asked, a process that is not root opens the file only
if its class has every bit it asks for in the mode that was given last. -/
theorem open_permitted (hrun : ModeRun h (Widens h) s0 s g) {flags : OpenFlags} {mode : BitVec 16}
    (huser : (s.task pid).euid ≠ 0) (hnested : Nested (s.task pid) (s.node h) flags.access)
    (hfound : namei pid path false s = .ok (.ok h, s1))
    (hopen : doOpen pid path flags mode s = .ok (.ok fd, s')) :
    Permits g (classOf (s.task pid) (s.node h)) flags.access := by
  have hgrant := doOpen_admitted hfound hopen
  have hcalm := namei_calm.returns hfound
  -- an inode without permissions lets nobody in
  have hlive {d : Dinode} (hd : d.mode = 0)
      (h : admitted (s.task pid) d flags.access.bits = true) : False := by
    rcases admitted_class huser h with ⟨-, i, -, hbit⟩ | ⟨-, i, -, hbit⟩ | ⟨i, -, hbit⟩
    all_goals
      rw [hd] at hbit
      simp at hbit
  rw [hcalm.task] at hgrant
  have hsame : admitted (s.task pid) (s.node h) flags.access.bits = true := by
    rcases hcalm.mode h with hm | ⟨-, hm⟩
    · unfold admitted at hgrant ⊢
      rw [(hcalm.owner h).uid, (hcalm.owner h).gid, hm] at hgrant
      exact hgrant
    · exact (hlive hm hgrant).elim
  have hpermits := hnested.permits huser hsame
  rcases hrun.hasMode with hmode | hzero
  · intro i hi
    have hlt : classOf (s.task pid) (s.node h) + i < 9 := by
      have hi2 : i ≤ 2 := by
        cases hacc : flags.access <;> rw [hacc] at hi <;> simp [Access.wants] at hi <;> omega
      unfold classOf
      split
      · omega
      · split <;> omega
    rw [← hmode _ hlt]
    exact hpermits i hi
  · exact (hlive hzero hsame).elim

-- ======== the root directory

/-- The root directory, which belongs to user 5 and has mode 0755. -/
def rootDir : Handle := ⟨0, rootInode, 0⟩

/-- The uid of a process is its number. -/
def rootDirSys : Sys :=
  Sys.quiet oneZone.vol
    (fun _ => ⟨0x41ed#16, 1, 5, 5, ⟨0, fun _ => 0⟩, 0, 0⟩)
    (fun _ => ⟨0, 0, rootDir, 0⟩)
    (fun pid => ⟨rootDir, rootDir, pid, pid, pid, pid, 0, fun _ => none⟩)

/-- The flags of an open for reading. -/
def forReading : OpenFlags := ⟨.rdonly, false, false, false, false⟩

/-- After `chmod("/", mode)` by the owner. -/
def afterChmod (mode : BitVec 16) : Sys :=
  match doChmod 5 [slash] mode rootDirSys with
  | .ok (_, s) => s
  | .error _ => rootDirSys

/-- After `chmod("/", 0775)` others read the directory. -/
theorem open_permitted_root : Permits 0o775#16 0 .rdonly := by
  have hchmod : doChmod 5 [slash] 0o775#16 rootDirSys = .ok (.ok 0, afterChmod 0o775#16) := rfl
  have hfound : ∃ s1, namei 5 [slash] false rootDirSys = .ok (.ok rootDir, s1) := ⟨_, rfl⟩
  have hrun : ModeRun rootDir (Widens rootDir) rootDirSys (afterChmod 0o775#16) 0o775#16 := by
    refine .given (c := .chmod [slash] 0o775#16) .init rfl rfl ?_ hfound hchmod
    intro _ mode hgives
    cases hgives
    decide
  have hthere : ∃ s1, namei 7 [slash] false (afterChmod 0o775#16) = .ok (.ok rootDir, s1) := ⟨_, rfl⟩
  obtain ⟨s1, hthere⟩ := hthere
  obtain ⟨s', hopen⟩ : ∃ s', doOpen 7 [slash] forReading 0 (afterChmod 0o775#16) = .ok (.ok 0, s') := by
    decide +kernel
  exact open_permitted hrun (by decide) ⟨.inl (by unfold Permits; decide), by decide, by decide⟩
    hthere hopen

/-- After `chmod("/", 0700)` others read the directory all the same. -/
theorem open_unpermitted : ∃ s s' s1 g, ModeRun rootDir (fun _ _ _ => True) rootDirSys s g ∧
    (s.task 7).euid ≠ 0 ∧ namei 7 [slash] false s = .ok (.ok rootDir, s1) ∧
    doOpen 7 [slash] forReading 0 s = .ok (.ok 0, s') ∧
    ¬ Permits g (classOf (s.task 7) (s.node rootDir)) .rdonly := by
  have hchmod : doChmod 5 [slash] 0o700#16 rootDirSys = .ok (.ok 0, afterChmod 0o700#16) := rfl
  have hfound : ∃ s1, namei 5 [slash] false rootDirSys = .ok (.ok rootDir, s1) := ⟨_, rfl⟩
  obtain ⟨s', hopen⟩ : ∃ s', doOpen 7 [slash] forReading 0 (afterChmod 0o700#16) = .ok (.ok 0, s') := by
    decide +kernel
  refine ⟨afterChmod 0o700#16, s', _, 0o700#16, ?_, by decide, rfl, hopen, ?_⟩
  · exact .given (c := .chmod [slash] 0o700#16) .init rfl rfl trivial hfound hchmod
  · unfold Permits
    decide

end Cnix.Fs
