/-
Where a walk goes on when it comes to a mount point.

# Two crossings

`ifind` goes from an inode with `MOUNT_I` to the root of the volume that
is mounted on it. But `iget` has done something before: it finds the
mount point in memory, where the mount keeps it, takes the number of the
mounted root, and looks for that number on the device of the mount point.
So `ifind` gets the root of the volume that the mount point is on, and
crosses from there (`target`). Only if the mount point is that root
itself, the walk comes to the mounted volume.

From the root of the mounted volume `..` is looked up in the mount point,
and the same detour is made if the directory above it is a mount point.

# What a step is

`stepFrom` is what a walk does between two components, from a state in
which nothing is locked (`Unlocked`). It is a total function then
(`stepFrom_total`).
-/
import Cnix.Lib.Hoare
import Cnix.Fs.Proofs.Calls
import Cnix.Fs.Namei

namespace Cnix.Fs

open Lib

variable {s s' : Sys} {pid num : Nat} {dev : Dev} {h w r : Handle} {name : Name}

/-- The walk has come to `h` and looks up `name`. -/
def stepFrom (pid : Nat) (h : Handle) (name : Name) : M (Option Handle) := do
  hold h
  ilock pid h
  ifind pid h name

-- ======== the target

/-- Where `iget` goes. -/
def igetTarget (s : Sys) (dev : Dev) (num : Nat) : Handle :=
  if (s.ref (s.cur dev num)).mounts.isSome ∧ num ≠ rootInode then s.cur dev rootInode
  else s.cur dev num

/-- Where `ifind` goes from there. -/
def crossed (s : Sys) (h : Handle) : Option Handle :=
  match (s.ref h).mounts with
  | none => some h
  | some dev => s.rooti dev

/-- Where a walk goes that finds the number in a directory of the device. -/
def target (s : Sys) (dev : Dev) (num : Nat) : Option Handle := crossed s (igetTarget s dev num)

/-- No inode is locked. -/
structure Unlocked (s : Sys) : Prop where
  free : ∀ h, (s.ref h).lock = none
  counts : ∀ h, 0 ≤ (s.ref h).count

/-- What is mounted has a root, and all roots have one number. -/
structure Wired (s : Sys) : Prop where
  roots : ∀ dev h, s.rooti dev = some h → h.num = rootInode
  mounted : ∀ h dev, (s.ref h).mounts = some dev → ∃ r, s.rooti dev = some r

/-- The same mounts and the same structures in the hash table. -/
structure SameMounts (s s' : Sys) : Prop where
  gen : s'.gen = s.gen
  rooti : s'.rooti = s.rooti
  mounts : ∀ h, (s'.ref h).mounts = (s.ref h).mounts

theorem SameMounts.target (hs : SameMounts s s') : target s' dev num = target s dev num := by
  have hcur (num : Nat) : s'.cur dev num = s.cur dev num := by
    unfold Sys.cur
    rw [hs.gen]
  have hget : igetTarget s' dev num = igetTarget s dev num := by
    unfold igetTarget
    rw [hcur, hcur, hs.mounts]
  unfold Fs.target crossed
  rw [hget, hs.mounts, hs.rooti]

theorem SameMounts.wired (hs : SameMounts s s') (hw : Wired s) : Wired s' := by
  refine ⟨?_, ?_⟩
  · rw [hs.rooti]
    exact hw.roots
  · intro h dev hm
    rw [hs.mounts] at hm
    rw [hs.rooti]
    exact hw.mounted h dev hm

-- ======== lock and count

/-- The inode is counted once more, and locked. -/
def locked (pid : Nat) (h : Handle) (s : Sys) : Sys :=
  s.setRef h { s.ref h with count := (s.ref h).count + 1, lock := some pid }

/-- No program stops here. -/
abbrev noTrap : Trap → Prop := fun _ => False

theorem wp_hold_ilock {α : Type} {f : M α} {post : α → Sys → Prop} (hfree : (s.ref h).lock = none)
    (hf : wp f post noTrap (locked pid h s)) : wp (do hold h; ilock pid h; f) post noTrap s := by
  have hlock : ilock pid h (s.setRef h { s.ref h with count := (s.ref h).count + 1 })
      = .ok ((), locked pid h s) := by
    simp [ilock, Sys.setRef, hfree, locked]
  show wp (ilock pid h >>= fun _ => f) post noTrap
    (s.setRef h { s.ref h with count := (s.ref h).count + 1 })
  rw [wp_bind]
  unfold wp
  rw [hlock]
  exact hf

/-- `iput` by the process that has the lock. -/
theorem iput_of_lock (hlock : (s.ref h).lock = some pid) : iput pid h s = iputLocked h s := by
  have hget : iput pid h s
      = (if (s.ref h).lock ≠ some pid then (do ilock pid h; iputLocked h) else iputLocked h) s := rfl
  rw [hget, if_neg fun hne => hne hlock]

section Idle

variable (hidle : Unlocked s)

include hidle

/-- The inode is put again. It may be freed, but that is not seen here. -/
theorem iput_locked_total :
    wp (iput pid h) (fun _ s' => Unlocked s' ∧ SameMounts s s') noTrap (locked pid h s) := by
  have hself : (locked pid h s).ref h
      = { s.ref h with count := (s.ref h).count + 1, lock := some pid } := by
    simp [locked, Sys.setRef]
  unfold iput
  rw [wp_bind, wp_get]
  dsimp only
  rw [if_neg (by rw [hself]; exact fun hne => hne rfl)]
  unfold wp iputLocked
  rw [hself]
  have hcount : (s.ref h).count + 1 - 1 = (s.ref h).count := by omega
  rw [hcount, if_neg (Int.not_lt.mpr (hidle.counts h))]
  dsimp only
  -- `ifree` changes the volume and the inode, not the references
  have hfreed : ∀ s1 : Sys, s1.ref = (locked pid h s).ref → s1.gen = s.gen → s1.rooti = s.rooti →
      Unlocked (s1.setRef h { s1.ref h with count := (s.ref h).count, lock := none }) ∧
        SameMounts s (s1.setRef h { s1.ref h with count := (s.ref h).count, lock := none }) := by
    intro s1 href hgen hroot
    have hback : (s1.setRef h { s1.ref h with count := (s.ref h).count, lock := none }).ref
        = s.ref := by
      funext k
      by_cases hk : k = h
      · subst hk
        have hnone := hidle.free k
        simp [Sys.setRef, href, hself, ← hnone]
      · simp [Sys.setRef, href, locked, hk]
    refine ⟨⟨?_, ?_⟩, hgen, hroot, ?_⟩
    · rw [hback]
      exact hidle.free
    · rw [hback]
      exact hidle.counts
    · rw [hback]
      exact fun _ => rfl
  split
  · exact hfreed _ rfl rfl rfl
  · exact hfreed _ rfl rfl rfl

/-- One turn of the loop of `iget`. -/
theorem igetLoop_turn (hw : Wired s) (turns num : Nat) :
    igetLoop pid dev (turns + 1) num s =
      if (s.ref (s.cur dev num)).mounts.isSome ∧ num ≠ rootInode then
        igetLoop pid dev turns rootInode s
      else .ok (s.cur dev num, locked pid (s.cur dev num) s) := by
  have hroot : mountedRoot s (s.cur dev num)
      = if (s.ref (s.cur dev num)).mounts.isSome then some rootInode else none := by
    unfold mountedRoot
    cases hm : (s.ref (s.cur dev num)).mounts with
    | none => rfl
    | some d =>
      obtain ⟨r, hr⟩ := hw.mounted _ d hm
      simp [hr, hw.roots d r hr]
  conv_lhs => unfold igetLoop
  dsimp only
  rw [hidle.free, hroot]
  by_cases hm : (s.ref (s.cur dev num)).mounts.isSome = true
  · rw [if_pos hm]
    dsimp only
    by_cases hnum : num = rootInode
    · rw [if_pos hnum.symm, if_neg fun hc => hc.2 hnum]
      rfl
    · rw [if_neg (Ne.symm hnum), if_pos ⟨hm, hnum⟩]
  · rw [if_neg hm, if_neg fun hc => hm hc.1]
    rfl

/-- `iget`, which locks what it goes to. -/
theorem iget_total (hw : Wired s) :
    iget pid dev num s = .ok (igetTarget s dev num, locked pid (igetTarget s dev num) s) := by
  unfold iget igetTarget
  rw [igetLoop_turn hidle hw]
  split
  · rw [igetLoop_turn hidle hw, if_neg fun hc => hc.2 rfl]
  · rfl

-- ======== the step

theorem crossMount_total (hsome : crossed s h = some w) :
    wp (crossMount pid h) (fun a _ => a = w) noTrap (locked pid h s) := by
  have hm : ((locked pid h s).ref h).mounts = (s.ref h).mounts := by simp [locked, Sys.setRef]
  unfold crossMount
  rw [wp_bind, wp_get, hm]
  unfold crossed at hsome
  cases hmount : (s.ref h).mounts with
  | none =>
    rw [hmount] at hsome
    exact Option.some.inj hsome
  | some dev =>
    rw [hmount] at hsome
    dsimp only at hsome ⊢
    refine (iput_locked_total hidle).seq fun _ s1 h1 => ?_
    rw [wp_bind, wp_get, h1.2.rooti, hsome]
    exact wp_hold_ilock (h1.1.free w) rfl

/-- The end of `ifind`, when the search has found a number. -/
theorem search_total (hw : Wired s) :
    wp (do iput pid h; let tmp ← iget pid h.dev num; return some (← crossMount pid tmp))
      (fun a _ => a = target s h.dev num) noTrap (locked pid h s) := by
  refine (iput_locked_total hidle).seq fun _ s1 h1 => ?_
  obtain ⟨hidle1, hsame⟩ := h1
  have hw1 := hsame.wired hw
  have hsome : ∃ w, target s1 h.dev num = some w := by
    unfold target crossed
    cases hm : (s1.ref (igetTarget s1 h.dev num)).mounts with
    | none => exact ⟨_, rfl⟩
    | some dev => exact hw1.mounted _ dev hm
  obtain ⟨w, hsome⟩ := hsome
  rw [wp_bind]
  unfold wp
  rw [iget_total hidle1 hw1]
  refine (crossMount_total hidle1 hsome).seq fun a s2 ha => ?_
  rw [← hsame.target, hsome, ha]
  rfl

/-- A step to an entry of the directory. -/
theorem stepFrom_total (hw : Wired s) (hdir : isDir (s.node h).mode = true)
    (hplain : h.num ≠ rootInode ∨ name ≠ dotdot)
    (hfind : dirSearch (s.vol h.dev) (s.node h).ino name = some num) :
    wp (stepFrom pid h name) (fun a _ => a = target s h.dev num) noTrap s := by
  have hnot : ¬ (h.num = rootInode ∧ name = dotdot) := not_and_or.mpr hplain
  refine wp_hold_ilock (hidle.free h) ?_
  unfold ifind searchedDir
  rw [wp_bind, wp_get]
  have hnode : (locked pid h s).node = s.node := rfl
  have hvol : (locked pid h s).vol = s.vol := rfl
  rw [if_neg (by rw [hnode, hdir]; decide), if_neg (fun hc => hnot ⟨hc.1, hc.2.1⟩), if_neg hnot]
  rw [pure_bind, wp_bind, wp_get, hnode, hvol, hfind]
  exact search_total hidle hw

/-- `..` from the root of a volume. -/
theorem stepUp_total {d : Handle} (hw : Wired s)
    (hdir : isDir (s.node r).mode = true) (hnum : r.num = rootInode)
    (hroot : r ≠ (s.task 1).root) (hmount : s.mounti r.dev = some d) (hne : d ≠ r)
    (hheld : (s.ref r).count ≠ 0) (hfind : dirSearch (s.vol d.dev) (s.node d).ino dotdot = some num) :
    wp (stepFrom pid r dotdot) (fun a _ => a = target s d.dev num) noTrap s := by
  refine wp_hold_ilock (hidle.free r) ?_
  unfold ifind searchedDir
  rw [wp_bind, wp_get]
  have hnode : (locked pid r s).node = s.node := rfl
  have htask : (locked pid r s).task = s.task := rfl
  have hmount' : (locked pid r s).mounti r.dev = some d := hmount
  rw [if_neg (by rw [hnode, hdir]; decide), if_neg (fun hc => hroot (htask ▸ hc.2.2)),
    if_pos ⟨hnum, rfl⟩]
  rw [wp_bind, wp_bind, wp_get, hmount']
  have hd : ((locked pid r s).ref d).lock = none := by
    simp [locked, Sys.setRef, hne, hidle.free]
  refine wp_hold_ilock hd ?_
  -- the mount holds the root, so that putting it brings the state back
  have hput : iput pid r (locked pid d (locked pid r s)) = .ok ((), locked pid d s) := by
    have href : (locked pid d (locked pid r s)).ref r
        = { s.ref r with count := (s.ref r).count + 1, lock := some pid } := by
      simp [locked, Sys.setRef, Ne.symm hne]
    have hpos := hidle.counts r
    have hback : (locked pid d (locked pid r s)).setRef r
        { s.ref r with count := (s.ref r).count, lock := none } = locked pid d s := by
      have hnone := hidle.free r
      have hself : { s.ref r with count := (s.ref r).count, lock := none } = s.ref r := by
        rw [← hnone]
      rw [hself]
      unfold locked Sys.setRef
      congr 1
      funext k
      by_cases hk : k = r
      · subst hk
        simp [Ne.symm hne]
      · by_cases hkd : k = d
        · subst hkd
          simp [hk]
        · simp [hk, hkd]
    rw [iput_of_lock (by rw [href])]
    unfold iputLocked
    dsimp only
    rw [href]
    have hcount : (s.ref r).count + 1 - 1 = (s.ref r).count := by omega
    rw [hcount, if_neg (Int.not_lt.mpr hpos), if_neg (fun hc => hheld hc.1), href]
    exact congrArg (fun s => Except.ok ((), s)) hback
  rw [wp_bind]
  unfold wp
  rw [hput]
  show wp _ _ noTrap (locked pid d s)
  have hnode' : (locked pid d s).node = s.node := rfl
  have hvol : (locked pid d s).vol = s.vol := rfl
  rw [wp_bind, wp_get, hnode', hvol, hfind]
  exact search_total hidle hw

/-- `..` from the root of the system. -/
theorem stepTop_total (hdir : isDir (s.node r).mode = true)
    (hnum : r.num = rootInode) (hroot : r = (s.task 1).root) :
    wp (stepFrom pid r dotdot) (fun a _ => a = some r) noTrap s := by
  refine wp_hold_ilock (hidle.free r) ?_
  unfold ifind
  rw [wp_bind, wp_get]
  have hnode : (locked pid r s).node = s.node := rfl
  have htask : (locked pid r s).task = s.task := rfl
  rw [if_neg (by rw [hnode, hdir]; decide), if_pos ⟨hnum, rfl, htask ▸ hroot⟩]
  rfl

end Idle

/-- `..` from a root that is mounted on itself locks it twice. -/
theorem stepLoop_stops (hidle : Unlocked s) (hdir : isDir (s.node r).mode = true)
    (hnum : r.num = rootInode) (hroot : r ≠ (s.task 1).root) (hmount : s.mounti r.dev = some r) :
    ∃ t, stepFrom pid r dotdot s = .error t := by
  have hstop : wp (stepFrom pid r dotdot) (fun _ _ => False) (fun _ => True) s := by
    unfold stepFrom
    rw [wp_bind]
    refine (show wp (hold r) (fun _ s1 => s1 = s.setRef r
      { s.ref r with count := (s.ref r).count + 1 }) (fun _ => True) s from rfl).mono ?_ fun _ => id
    rintro _ _ rfl
    have hlock : ilock pid r (s.setRef r { s.ref r with count := (s.ref r).count + 1 })
        = .ok ((), locked pid r s) := by
      simp [ilock, Sys.setRef, hidle.free, locked]
    rw [wp_bind]
    unfold wp
    rw [hlock]
    show wp (ifind pid r dotdot) (fun _ _ => False) (fun _ => True) (locked pid r s)
    unfold ifind searchedDir
    have hnode : (locked pid r s).node = s.node := rfl
    have htask : (locked pid r s).task = s.task := rfl
    have hmount' : (locked pid r s).mounti r.dev = some r := hmount
    rw [wp_bind, wp_get, if_neg (by rw [hnode, hdir]; decide),
      if_neg (fun hc => hroot (htask ▸ hc.2.2)), if_pos ⟨hnum, rfl⟩]
    rw [wp_bind, wp_bind, wp_get, hmount']
    rw [wp_bind]
    show wp (ilock pid r >>= _) _ _ ((locked pid r s).setRef r _)
    rw [wp_bind]
    unfold wp
    have htwice : ilock pid r ((locked pid r s).setRef r
        { (locked pid r s).ref r with count := ((locked pid r s).ref r).count + 1 })
        = .error (.die .ilock) := by
      simp [ilock, Sys.setRef, locked]
    rw [htwice]
    trivial
  unfold wp at hstop
  split at hstop
  · exact hstop.elim
  · next t ht => exact ⟨t, ht⟩

-- ======== mount points

/-- Volume `dev`, with the root `r`, is mounted on `d`, as `do_mount` leaves
it: both inodes are kept in memory. -/
structure MountedOn (s : Sys) (dev : Dev) (d r : Handle) : Prop where
  mark : (s.ref d).mounts = some dev
  root : s.rooti dev = some r
  point : s.mounti dev = some d
  here : d = s.cur d.dev d.num
  volume : r.dev = dev
  dir : isDir (s.node r).mode = true
  held : (s.ref r).count ≠ 0

/-- The mount point is the root of its volume, or that root leads to the
mounted root as well; and the directory above the mount point is not a
mount point, or for the root of the system is that root. -/
def Crossable (s : Sys) (d r parent : Handle) : Prop :=
  (d.num = rootInode ∨ crossed s (s.cur d.dev rootInode) = some r) ∧
    (if r = (s.task 1).root then r = parent else d ≠ r ∧ crossed s parent = some parent)

/-- A crossing that ends at an inode of some other number than a root. -/
theorem crossed_num (hw : Wired s) {k : Handle} (hk : crossed s h = some k) :
    k = h ∨ k.num = rootInode := by
  unfold crossed at hk
  split at hk
  · exact .inl (Option.some.inj hk).symm
  · exact .inr (hw.roots _ k hk)

theorem target_mount_point (hm : (s.ref (s.cur dev num)).mounts = some w.dev)
    (hw : s.rooti w.dev = some w) : target s dev num = some w ↔
      (num = rootInode ∨ crossed s (s.cur dev rootInode) = some w) := by
  unfold target igetTarget
  by_cases hnum : num = rootInode
  · rw [if_neg fun hc => hc.2 hnum]
    have hself : crossed s (s.cur dev num) = some w := by
      unfold crossed
      rw [hm]
      exact hw
    exact iff_of_true hself (.inl hnum)
  · rw [if_pos ⟨by rw [hm]; rfl, hnum⟩]
    exact (or_iff_right hnum).symm

/-- A directory is reached itself if nothing is mounted on it but, on a
root, its own volume. -/
theorem target_self (hw : Wired s) : target s dev num = some (s.cur dev num) ↔
      crossed s (s.cur dev num) = some (s.cur dev num) := by
  unfold target igetTarget
  split
  · next hc =>
    have hne : (s.cur dev num).num ≠ rootInode := hc.2
    apply iff_of_false
    · intro hroot
      rcases crossed_num hw hroot with heq | hnum
      · exact hne (congrArg Handle.num heq)
      · exact hne hnum
    · obtain ⟨d, hd⟩ := Option.isSome_iff_exists.mp hc.1
      unfold crossed
      rw [hd]
      exact fun hroot => hne (hw.roots d _ hroot)
  · rfl

theorem returns_iff {x : M (Option Handle)} {a b : Option Handle}
    (hx : wp x (fun r _ => r = a) noTrap s) : (∃ s', x s = .ok (b, s')) ↔ a = b := by
  obtain ⟨r, s', hrun, rfl⟩ := hx.total
  constructor
  · rintro ⟨s'', hb⟩
    rw [hrun] at hb
    cases hb
    rfl
  · rintro rfl
    exact ⟨s', hrun⟩

/-- A walk that comes to a mount point goes on in the root of the mounted
volume, and `..` leads from there to the directory above the mount point,
exactly if the mount is `Crossable`. -/
theorem mount_crossed_iff {d r x : Handle} {parent : Nat} (hidle : Unlocked s) (hw : Wired s)
    (hm : MountedOn s dev d r) (hdir : isDir (s.node x).mode = true) (hdev : x.dev = d.dev)
    (hplain : x.num ≠ rootInode ∨ name ≠ dotdot)
    (hfind : dirSearch (s.vol x.dev) (s.node x).ino name = some d.num)
    (hup : dirSearch (s.vol d.dev) (s.node d).ino dotdot = some parent) :
    ((∃ s', stepFrom pid x name s = .ok (some r, s')) ∧
      ∃ s', stepFrom pid r dotdot s = .ok (some (s.cur d.dev parent), s')) ↔
      Crossable s d r (s.cur d.dev parent) := by
  have hnum := hw.roots dev r hm.root
  have hmark : (s.ref (s.cur d.dev d.num)).mounts = some r.dev := by
    rw [← hm.here, hm.volume]
    exact hm.mark
  have hroot : s.rooti r.dev = some r := hm.volume.symm ▸ hm.root
  have hpoint : s.mounti r.dev = some d := hm.volume.symm ▸ hm.point
  apply and_congr
  · rw [returns_iff (stepFrom_total hidle hw hdir hplain hfind), hdev]
    exact target_mount_point hmark hroot
  · split
    · next htop =>
      rw [returns_iff (stepTop_total hidle hm.dir hnum htop), Option.some_inj]
    · next htop =>
      by_cases hself : d = r
      · subst hself
        obtain ⟨t, ht⟩ := stepLoop_stops hidle hm.dir hnum htop hpoint
        apply iff_of_false
        · rintro ⟨s', hs'⟩
          rw [ht] at hs'
          cases hs'
        · exact fun hc => hc.1 rfl
      · rw [returns_iff (stepUp_total hidle hw hm.dir hnum htop hpoint hself hm.held hup),
          target_self hw]
        exact (and_iff_right hself).symm

-- ======== a mounted directory

/-- A root directory with the directory `b`, which is inode 7. -/
def rootBlock : Block :=
  putDirect (putDirect (putDirect zeroBlock 0 ⟨1, dot⟩) 1 ⟨1, dotdot⟩) 2 ⟨7, nameB⟩

section Mounts

variable (up : Nat) (mounts : Handle → Option Dev) (mounti : Dev → Option Handle)

/-- The directory `b`. -/
def dirBlock : Block := putDirect (putDirect zeroBlock 0 ⟨7, dot⟩) 1 ⟨up, dotdot⟩

/-- Blocks 10 and 11 are the two directories. -/
def dirVol : Volume :=
  { oneZone.vol with
    blk := fun b => if b = 10 then rootBlock else if b = 11 then dirBlock up else zeroBlock }

/-- A system with the root volume 0, where every inode is in use once. All
directories but `b` are alike. -/
def dirSys : Sys :=
  { Sys.quiet (dirVol up)
      (fun h => if h.num = 7 then ⟨0x41ed#16, 2, 0, 0, ⟨64, fun _ => 11⟩, 0, 0⟩
        else ⟨0x41ed#16, 3, 0, 0, ⟨96, fun _ => 10⟩, 0, 0⟩)
      (fun _ => ⟨0, 0, ⟨0, 1, 0⟩, 0⟩)
      (fun _ => ⟨⟨0, 1, 0⟩, ⟨0, 1, 0⟩, 0, 0, 0, 0, 0, fun _ => none⟩) with
    ref := fun h => ⟨1, none, mounts h, false⟩
    rooti := fun dev => some ⟨dev, rootInode, 0⟩
    mounti := mounti }

theorem dirSys_unlocked : Unlocked (dirSys up mounts mounti) :=
  ⟨fun _ => rfl, fun _ => Int.one_nonneg⟩

theorem dirSys_wired : Wired (dirSys up mounts mounti) := by
  refine ⟨fun dev h hr => ?_, fun h dev _ => ⟨_, rfl⟩⟩
  cases hr
  rfl

end Mounts

/-- Volume 1 is mounted on the root and again on `b`, which is below the
directory 9. -/
def mountedTwice : Sys :=
  dirSys 9 (fun h => if h = ⟨0, 1, 0⟩ ∨ h = ⟨0, 7, 0⟩ then some 1 else none) fun _ => some ⟨0, 7, 0⟩

/-- The walk to `b` comes to volume 1, and from there back to the
directory. -/
theorem mount_crossed_twice :
    (∃ s', stepFrom 2 ⟨0, 9, 0⟩ nameB mountedTwice = .ok (some ⟨1, 1, 0⟩, s')) ∧
      ∃ s', stepFrom 2 ⟨1, 1, 0⟩ dotdot mountedTwice = .ok (some ⟨0, 9, 0⟩, s') := by
  have hm : MountedOn mountedTwice 1 ⟨0, 7, 0⟩ ⟨1, 1, 0⟩ :=
    ⟨rfl, rfl, rfl, rfl, rfl, by decide, by decide⟩
  have hfind : dirSearch (mountedTwice.vol 0) (mountedTwice.node ⟨0, 9, 0⟩).ino nameB = some 7 := by
    decide +kernel
  have hup : dirSearch (mountedTwice.vol 0) (mountedTwice.node ⟨0, 7, 0⟩).ino dotdot = some 9 := by
    decide +kernel
  have hcross : Crossable mountedTwice ⟨0, 7, 0⟩ ⟨1, 1, 0⟩ (mountedTwice.cur 0 9) :=
    ⟨.inr rfl, by decide, rfl⟩
  exact (mount_crossed_iff (x := ⟨0, 9, 0⟩) (dirSys_unlocked ..) (dirSys_wired ..) hm (by decide)
    rfl (.inl (by decide)) hfind hup).mpr hcross

/-- Volume 0 is mounted on itself, and volume 1 on `b`. -/
def twoVolumes : Sys :=
  dirSys 1 (fun h => if h = ⟨0, 1, 0⟩ then some 0 else if h = ⟨0, 7, 0⟩ then some 1 else none)
    fun dev => if dev = 0 then some ⟨0, 1, 0⟩ else some ⟨0, 7, 0⟩

/-- The inode that a walk goes on with. -/
def found : Except Trap (Option Handle × Sys) → Option Handle
  | .ok (h, _) => h
  | .error _ => none

/-- A walk to `b` comes to the root it started from. -/
theorem mount_not_crossed : MountedOn twoVolumes 1 ⟨0, 7, 0⟩ ⟨1, 1, 0⟩ ∧
    Unlocked twoVolumes ∧ Wired twoVolumes ∧
    dirSearch (twoVolumes.vol 0) (twoVolumes.node ⟨0, 1, 0⟩).ino nameB = some 7 ∧
    found (stepFrom 2 ⟨0, 1, 0⟩ nameB twoVolumes) = some ⟨0, 1, 0⟩ :=
  ⟨⟨rfl, rfl, rfl, rfl, rfl, by decide, by decide⟩, dirSys_unlocked .., dirSys_wired ..,
    by decide +kernel, by decide +kernel⟩

end Cnix.Fs
