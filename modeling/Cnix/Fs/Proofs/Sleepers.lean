/-
One inode in memory for one inode of a volume, while processes sleep.

Every step of `iget`, `iput` and `ialloc` keeps the invariant of
`SceneInv`, if no process misses an inode in the hash table that another
one is bringing in (`Happening.Orderly`). And an inode in memory gets
another number only when it is taken from the free list and has not to be
written (`Renames`).
-/
import Cnix.Fs.Proofs.SceneInv

namespace Cnix.Fs

open Function (update_self update_of_ne update_eq_self)

variable {n : Nat} {t t' : Scene n} {pid num : Nat} {dev : Dev} {i : Fin n}
  {asked : Option (Dev × Nat)} {again : Option (Fin n) → Scene n → Scene n} {who : Nat → Prop}
  {ino : Incore} {fact : Bool} {e : Happening n}

-- ======== the numbers

/-- Only a free inode that has not to be written gets another number. -/
def Renames (t t' : Scene n) : Prop :=
  ∀ j, (t'.pool.inode j).id ≠ (t.pool.inode j).id →
    j ∈ t.pool.ifreelist ∧ (t.pool.inode j).dirty = false

theorem Renames.of_eq (h : ∀ j, (t'.pool.inode j).id = (t.pool.inode j).id) : Renames t t' :=
  fun j hne => absurd (h j) hne

/-- Nothing else than a free inode that has not to be written is changed. -/
theorem Renames.of_clean (hmem : i ∈ t.pool.ifreelist) (hclean : (t.pool.inode i).dirty = false)
    (hinode : ∀ j, j ≠ i → t'.pool.inode j = t.pool.inode j) : Renames t t' := by
  intro j hne
  by_cases hj : j = i
  · subst hj
    exact ⟨hmem, hclean⟩
  · exact absurd (congrArg Incore.id (hinode j hj)) hne

theorem setInode_id (ino : Incore) (hid : ino.id = (t.pool.inode i).id) (j : Fin n) :
    ((t.setInode i ino).pool.inode j).id = (t.pool.inode j).id := by
  by_cases hj : j = i
  · subst hj
    rw [show (t.setInode j ino).pool.inode j = ino from update_self ..]
    exact hid
  · rw [show (t.setInode i ino).pool.inode j = t.pool.inode j from update_of_ne hj ..]

theorem written_pool (t : Scene n) (pid : Nat) (i : Fin n) : (t.written pid i).pool = t.pool := by
  unfold Scene.written
  split <;> rfl

/-- What a step leads to. -/
structure Onward (t t' : Scene n) : Prop where
  inv : SceneInv t'
  renames : Renames t t'

-- ======== iget

theorem getIhash_none (hmiss : t.pool.getIhash dev num = none) : Absent t.pool (dev, num) := by
  intro j hj hid
  have hnot := List.find?_eq_none.mp hmiss j hj
  have hdev : (t.pool.inode j).dev = dev := congrArg Prod.fst hid
  have hnum : (t.pool.inode j).num = num := congrArg Prod.snd hid
  simp [hdev, hnum] at hnot

/-- A number that is absent stays so when an inode without a device is
dropped, and is looked for itself. -/
theorem unhooked_sought (habsent : Absent t.pool (dev, num))
    (hnone : (t.pool.inode i).dev = nodev) : (t.unhooked i).sought dev num = num := by
  have hhash : (t.unhooked i).pool.hash = t.pool.hash := if_pos hnone
  have hmiss : (t.unhooked i).pool.getIhash dev num = none := by
    unfold Pool.getIhash
    rw [hhash, List.find?_eq_none]
    intro j hj hid
    simp only [Bool.and_eq_true, beq_iff_eq] at hid
    exact habsent j hj (Prod.ext hid.1 hid.2)
  unfold Scene.sought
  rw [hmiss]

/-- `loop1`, for an inode of a device that nobody else brings in. -/
theorem Holds.igetFree (h : Others pid t) (hdev : dev ≠ nodev) (habsent : Absent t.pool (dev, num))
    (halone : t.Alone pid (dev, num))
    (hagain : ∀ i ∈ t.pool.ifreelist, (t.pool.inode i).dev = nodev →
      Onward (t.unhooked i) (again (some i) (t.unhooked i))) :
    Onward t (t.igetFree pid none dev num again) := by
  unfold Scene.igetFree
  split
  · refine ⟨h.goto (fun hask => absurd rfl hask) (fun a ha => ?_) nofun
      nofun nofun, Renames.of_eq fun _ => rfl⟩
    have hseeks : (Point.loop1 none dev num : Point n).seeks = some (dev, num) := if_neg hdev
    rw [hseeks] at ha
    cases ha
    exact ⟨hdev, habsent, halone⟩
  · next i rest hlist =>
    have hmem : i ∈ t.pool.ifreelist := hlist ▸ List.mem_cons_self
    dsimp only
    split
    · split
      · next hnone =>
        obtain ⟨hinv, hnames⟩ := hagain i hmem hnone
        refine ⟨hinv, fun j hj => ?_⟩
        obtain ⟨hmem, hclean⟩ := hnames j hj
        exact ⟨List.mem_of_mem_erase hmem, hclean⟩
      · -- the inode is written, and the process looks again
        obtain ⟨hc, hl⟩ := unhooked_change h.table hmem
        refine ⟨(h.unhook hmem).goto ⟨rfl, hdev, hl⟩ nofun
          (fun j hj q hq hi => ?_) nofun nofun,
          Renames.of_eq fun _ => rfl⟩
        cases hj
        exact (h.takes_limbo hq hi).list hmem
    · next hclean =>
      have hclean : (t.pool.inode i).dirty = false := by simpa using hclean
      exact ⟨h.claim hmem hclean hdev habsent halone,
        Renames.of_clean hmem hclean fun j hj => update_of_ne hj ..⟩

/-- `loop`, for an inode of a device. -/
theorem Holds.igetLoop (h : Others pid t) (hdev : dev ≠ nodev)
    (hclear : t.pool.getIhash dev (t.sought dev num) = none → t.Alone pid (dev, t.sought dev num))
    (turns : Nat) (tmp : Option (Fin n)) :
    Onward t (Scene.igetLoop pid none dev turns num tmp t) := by
  induction turns generalizing num tmp t with
  | zero => exact ⟨h.goto_plain ⟨rfl, hdev⟩ rfl rfl, Renames.of_eq fun _ => rfl⟩
  | succ turns ih =>
    unfold Scene.igetLoop
    rw [if_neg hdev]
    cases hfind : t.pool.getIhash dev num with
    | some i =>
      dsimp only
      have hmem : i ∈ t.pool.hash := List.mem_of_find?_eq_some hfind
      split
      · exact ⟨h.goto_plain ⟨rfl, hdev⟩ rfl rfl, Renames.of_eq fun _ => rfl⟩
      · next hlock =>
        have hlock : t.lock i = none := by simpa using hlock
        split
        · next hmount =>
          have hroot : t.sought dev num = rootInode := by
            unfold Scene.sought
            rw [hfind]
            exact if_pos ⟨hlock, hmount⟩
          have hagain : t.sought dev rootInode = rootInode := by
            unfold Scene.sought
            split
            · exact if_neg fun hc => hc.2.2 rfl
            · rfl
          rw [hroot] at hclear
          exact ih h (by rw [hagain]; exact hclear) _
        · refine ⟨h.grab hmem hlock, Renames.of_eq fun j => ?_⟩
          have hkeep := setInode_id (t := t) (i := i)
            { t.pool.inode i with count := (t.pool.inode i).count + 1 } rfl j
          unfold Pool.grab
          dsimp only
          split
          · exact hkeep
          · exact hkeep
    | none =>
      have hsame : t.sought dev num = num := by
        unfold Scene.sought
        rw [hfind]
      rw [hsame] at hclear
      refine h.igetFree hdev (getIhash_none hfind) (hclear hfind) fun i hmem hnone => ?_
      refine ih (h.unhook hmem) ?_ _
      rw [unhooked_sought (getIhash_none hfind) hnone]
      exact fun _ => hclear hfind

/-- `loop1`, for an inode without a device: the first free one is taken. For
`ialloc` its number is one that nobody has or brings in. -/
theorem Holds.igetFree_nodev (h : Others pid t) (hclean : t.HeadClean)
    (hasked : ∀ a, asked = some a → a.1 ≠ nodev ∧ Absent t.pool a ∧ t.Alone pid a)
    (again : Option (Fin n) → Scene n → Scene n) :
    Onward t (t.igetFree pid asked nodev num again) := by
  unfold Scene.igetFree
  split
  · refine ⟨h.goto (fun _ => rfl) (fun a ha => ?_) nofun
      nofun nofun, Renames.of_eq fun _ => rfl⟩
    have hseeks : (Point.loop1 asked nodev num : Point n).seeks = asked := by
      cases asked <;> rfl
    rw [hseeks] at ha
    exact hasked a ha
  · next i rest hlist =>
    have hmem : i ∈ t.pool.ifreelist := hlist ▸ List.mem_cons_self
    have hdirty : (t.pool.inode i).dirty = false := hclean i (by rw [hlist]; rfl)
    have hstake (q : Nat) (hq : q ≠ pid) := h.clean_stake hmem hdirty hq
    obtain ⟨hc, hl⟩ := unhooked_change h.table hmem
    have h1 := h.unhook hmem
    dsimp only
    rw [hdirty, if_neg Bool.false_ne_true, if_pos rfl]
    cases asked with
    | none =>
      refine ⟨h1.enter hl ⟨nodev, (t.pool.inode i).num, 1, false, (t.pool.inode i).unlinked, false⟩
        (t.pool.inodeFreeNum - 1) rfl hstake (fun hdev => absurd rfl hdev), ?_⟩
      exact Renames.of_clean hmem hdirty fun j hj => update_of_ne hj ..
    | some a =>
      obtain ⟨hdev, habsent, halone⟩ := hasked a rfl
      have hgiven := h1.enter hl ⟨a.1, a.2, 1, true, false, false⟩ (t.pool.inodeFreeNum - 1) rfl
        hstake (fun _ => ⟨fun j hj => ?_, halone⟩)
      · have hshape : Scene.handOut { t.unhooked i with pool := (t.pool.unhook i).fill nodev num i }
            pid (some a) i = ((t.unhooked i).entered pid i ⟨a.1, a.2, 1, true, false, false⟩
              (t.pool.inodeFreeNum - 1)).goto pid .idle := by
          simp [Scene.handOut, Scene.entered, Scene.unhooked, Scene.setLock, Scene.setInode,
            Scene.goto, Pool.fill, Pool.set, Pool.unhook, hdev]
        rw [← hshape] at hgiven
        exact ⟨hgiven, Renames.of_clean hmem hdirty fun j hj =>
          (update_of_ne hj ..).trans (update_of_ne hj ..)⟩
      · have hji : j ≠ i := fun hji => hl.hash (hji ▸ hj)
        exact habsent j ((hc.hash j hji).mp hj)

/-- `iread` is done. -/
theorem Holds.filled (h : SceneInv t) (hpt : t.point pid = .iread asked dev num i) (unlinked : Bool) :
    SceneInv (t.filled pid asked unlinked i) := by
  have hfits := h.fits pid trivial
  rw [hpt] at hfits
  obtain ⟨rfl, hdev, hid, hl⟩ := hfits
  have hseeks : (t.point pid).seeks = some (dev, num) := by
    rw [hpt]
    rfl
  have hnumber : ({ t.pool.inode i with
      count := 1, dirty := false, unlinked := unlinked, mount := false } : Incore).id = (dev, num) := hid
  have hdev' : (t.pool.inode i).dev ≠ nodev := by
    rw [show (t.pool.inode i).dev = dev from congrArg Prod.fst hid]
    exact hdev
  have hothers : Others pid t := h.others
  have hgiven := hothers.enter hl { t.pool.inode i with
      count := 1, dirty := false, unlinked := unlinked, mount := false }
    (t.pool.inodeFreeNum - 1) rfl (fun q hq hi => ?_) (fun _ => ⟨?_, fun q hq hseek => ?_⟩)
  · have hshape : t.filled pid none unlinked i = (t.entered pid i { t.pool.inode i with
        count := 1, dirty := false, unlinked := unlinked, mount := false }
        (t.pool.inodeFreeNum - 1)).goto pid .idle := by
      simp [Scene.filled, Scene.handOut, Scene.entered, Scene.setLock, Scene.goto, Pool.set, hdev']
    rw [hshape]
    exact hgiven
  · -- another process that works on the inode would have taken it, or write it
    have htakes : (t.point pid).takes = some i := by
      rw [hpt]
      rfl
    cases hptq : t.point q with
    | idle | ilock _ | loop _ _ _ _ | loop1 _ _ _ =>
      rw [hptq] at hi
      cases hi
    | iread _ _ _ j | iwrite _ _ _ j =>
      rw [hptq] at hi
      cases hi
      exact hq (h.taken q pid i trivial trivial (by rw [hptq]; rfl) htakes)
    | truncate j =>
      have hfits := h.fits q trivial
      rw [hptq] at hi hfits
      cases hi
      exact hl.hash hfits.2.2.1
    | flush j =>
      rw [hptq] at hi
      cases hi
      exact h.read pid q i trivial trivial (by rw [hpt]; rfl) hptq
  · rw [hnumber]
    exact (h.absent pid _ trivial hseeks).2
  · rw [hnumber] at hseek
    exact hq (h.apart q pid _ trivial trivial hseek hseeks)

-- ======== iput

/-- Only the inode itself and its lock change. -/
theorem Holds.rewrite (h : Holds who t) {owner : Option Nat}
    (hid : ino.id = (t.pool.inode i).id) (hzero : ino.count = 0 ↔ (t.pool.inode i).count = 0)
    (hpos : 0 ≤ ino.count) (hlock : ∀ q, who q → t.lock i = some q →
      owner = some q ∧ (i ∈ t.pool.ifreelist → ino.dirty = true)) :
    Holds who ((t.setInode i ino).setLock i owner) := by
  have hself : ((t.setInode i ino).setLock i owner).pool.inode i = ino := update_self ..
  have howner : ((t.setInode i ino).setLock i owner).lock i = owner := update_self ..
  have hdev : ino.dev = (t.pool.inode i).dev := congrArg Prod.fst hid
  have hc : Change i t ((t.setInode i ino).setLock i owner) := by
    refine ⟨rfl, fun j hj => update_of_ne hj .., fun j hj => update_of_ne hj ..,
      fun _ _ => Iff.rfl, fun _ _ => Iff.rfl, h.table.listed, h.table.hashed, fun hi => ?_, ?_,
      fun hi => ?_, fun hused => ?_⟩
    · rw [hself]
      exact hzero.mpr (h.table.unused i hi)
    · rw [hself]
      exact hpos
    · rw [hself, hdev]
      exact h.table.real i hi
    · rw [hself] at hused ⊢
      rw [hdev]
      exact h.table.used i fun hnone => hused (hzero.mpr hnone)
  refine h.keep hc (by rw [hself]; exact hid) (fun hmem => hmem) fun q hq hi => ?_
  have hlimbo (hl : Limbo t.pool i) : Limbo ((t.setInode i ino).setLock i owner).pool i := by
    refine ⟨?_, hl.hash, hl.list⟩
    rw [hself]
    exact hzero.mpr hl.count
  have hfits := h.fits q hq
  cases hpt : t.point q with
  | idle | ilock _ | loop _ _ _ _ | loop1 _ _ _ =>
    rw [hpt] at hi
    cases hi
  | iread asked dev num j =>
    rw [hpt] at hi hfits
    cases hi
    refine ⟨hfits.1, hfits.2.1, ?_, hlimbo hfits.2.2.2⟩
    rw [hself, hid]
    exact hfits.2.2.1
  | iwrite asked dev num j =>
    rw [hpt] at hi hfits
    cases hi
    exact ⟨hfits.1, hfits.2.1, hlimbo hfits.2.2⟩
  | truncate j =>
    rw [hpt] at hi hfits
    cases hi
    refine ⟨howner.trans (hlock q hq hfits.1).1, ?_, hfits.2.2⟩
    rw [hself]
    exact hzero.mpr hfits.2.1
  | flush j =>
    rw [hpt] at hi hfits
    cases hi
    refine ⟨howner.trans (hlock q hq hfits.1).1, fun hmem => ?_⟩
    rw [hself]
    exact (hlock q hq hfits.1).2 hmem

/-- The lock is taken or given up, by a process that has it. -/
theorem Holds.setLock (h : Others pid t) (hlock : t.lock i = some pid ∨ t.lock i = none)
    (owner : Option Nat) : Others pid (t.setLock i owner) := by
  have hkeep : Others pid ((t.setInode i (t.pool.inode i)).setLock i owner) := by
    exact h.rewrite rfl Iff.rfl (h.table.nonneg i) fun q hq hl =>
      absurd hl (Scene.lock_ne hlock hq)
  have hsame : t.setInode i (t.pool.inode i) = t := by
    unfold Scene.setInode Pool.set
    rw [update_eq_self]
  rwa [hsame] at hkeep

/-- Only the inode changes, which is not on the free list. -/
theorem Holds.setInode (h : Holds who t)
    (hid : ino.id = (t.pool.inode i).id) (hzero : ino.count = 0 ↔ (t.pool.inode i).count = 0)
    (hpos : 0 ≤ ino.count) (hnot : i ∉ t.pool.ifreelist) : Holds who (t.setInode i ino) := by
  have hkeep := h.rewrite hid hzero hpos fun q _ hl => ⟨hl, fun hmem => absurd hmem hnot⟩
  have hsame : (t.setInode i ino).setLock i (t.lock i) = t.setInode i ino := by
    exact congrArg (fun l => { t.setInode i ino with lock := l }) (update_eq_self ..)
  rwa [hsame] at hkeep

/-- An inode that is not used is put on the free list. -/
theorem PoolOk.released (h : PoolOk t.pool) (hnot : i ∉ t.pool.ifreelist)
    (hcount : (t.pool.inode i).count = 0) : Change i t (t.released i) := by
  refine ⟨rfl, fun _ _ => rfl, fun _ _ => rfl, fun _ _ => Iff.rfl, fun j hj => ?_, ?_, h.hashed,
    fun _ => hcount, h.nonneg i, h.real i, h.used i⟩
  · show j ∈ t.pool.ifreelist ++ [i] ↔ j ∈ t.pool.ifreelist
    simp [hj]
  · refine List.nodup_append.mpr ⟨h.listed, List.nodup_singleton i, fun a ha b hb => ?_⟩
    rw [List.mem_singleton.mp hb]
    exact fun hai => hnot (hai ▸ ha)

/-- The end of `iput`, by the only process that works on the inode. -/
theorem Holds.written (h : Others pid t) (hlock : t.lock i = some pid)
    (hstake : ∀ q, q ≠ pid → (t.point q).stake ≠ some i) : SceneInv (t.written pid i) := by
  unfold Scene.written
  split
  · next hd =>
    refine h.goto ⟨hlock, fun _ => hd.1⟩ nofun nofun
      nofun (fun j hj q hq hi => ?_)
    cases hj
    apply hstake q hq
    cases hpt : t.point q with
    | iread asked dev num j =>
      rw [hpt] at hi
      exact hi
    | _ =>
      rw [hpt] at hi
      cases hi
  · exact (h.setLock (.inl hlock) none).goto_plain trivial rfl rfl

theorem Holds.iputLocked (h : Others pid t) (hlock : t.lock i = some pid ∨ t.lock i = none)
    (happly : (t.setLock i (some pid)).iputLocked pid i = some t') : Onward t t' := by
  unfold Scene.iputLocked at happly
  dsimp only at happly
  have hino : (t.setLock i (some pid)).pool.inode i = t.pool.inode i := rfl
  rw [hino] at happly
  split at happly
  · cases happly
  next hpos =>
  have hused : (t.pool.inode i).count ≠ 0 := by omega
  have hnot : i ∉ t.pool.ifreelist := fun hi => hused (h.table.unused i hi)
  have hstake (q : Nat) (hq : q ≠ pid) : (t.point q).stake ≠ some i :=
    h.no_stake hused (fun r hr => Scene.lock_ne hlock hr) hq
  -- the inode with the smaller count
  let t1 := (t.setLock i (some pid)).setInode i
    { t.pool.inode i with count := (t.pool.inode i).count - 1 }
  have hself : t1.pool.inode i = { t.pool.inode i with count := (t.pool.inode i).count - 1 } :=
    update_self ..
  have hmine : t1.lock i = some pid := update_self ..
  have hc : Change i t t1 := by
    refine ⟨rfl, fun j hj => update_of_ne hj .., fun j hj => update_of_ne hj ..,
      fun _ _ => Iff.rfl, fun _ _ => Iff.rfl, h.table.listed, h.table.hashed,
      fun hi => absurd hi hnot, ?_, fun hi => ?_, fun _ hdev => ?_⟩
    · rw [hself]
      exact Int.not_lt.mp hpos
    · rw [hself]
      exact h.table.real i hi
    · rw [hself] at hdev
      exact h.table.used i hused hdev
  have hid : ∀ j, (t1.pool.inode j).id = (t.pool.inode j).id := setInode_id _ rfl
  have h1 : Others pid t1 := h.keep hc (hid i) id fun q hq hi => absurd hi (hstake q hq)
  have hnames {t2 : Scene n} (hinode : t2.pool.inode = t1.pool.inode) :
      Renames t (t2.written pid i) := by
    refine Renames.of_eq fun j => ?_
    rw [written_pool, hinode]
    exact hid j
  split at happly
  · next hzero =>
    split at happly
    · cases happly
    next hdie =>
    split at happly
    · next hgone =>
      cases happly
      have hmem : i ∈ t.pool.hash := not_not.mp fun hmem => hdie ⟨hgone.1, hmem⟩
      refine ⟨h1.goto ⟨hmine, ?_, hmem, hnot⟩ nofun
        nofun nofun nofun,
        Renames.of_eq hid⟩
      rw [hself]
      exact hzero
    · cases happly
      -- the inode is free
      have hc2 := h1.table.released hnot (by rw [hself]; exact hzero)
      have h2 : Others pid (t1.released i) :=
        h1.keep hc2 rfl id fun q hq hi => absurd hi (hstake q hq)
      exact ⟨h2.written hmine hstake, hnames rfl⟩
  · cases happly
    exact ⟨h1.written hmine hstake, hnames rfl⟩

/-- `truncate` and `ifree` are done. -/
theorem Holds.truncated (h : SceneInv t) (hpt : t.point pid = .truncate i) (dirty : Bool) :
    Onward t (t.truncated pid dirty i) := by
  have hfits := h.fits pid trivial
  rw [hpt] at hfits
  obtain ⟨hlock, hcount, hmem, hnot⟩ := hfits
  have hothers : Others pid t := h.others
  have hstake (q : Nat) (hq : q ≠ pid) : (t.point q).stake ≠ some i := by
    intro hi
    have hmine := Scene.lock_ne (.inl hlock) hq
    rcases h.stake_cases trivial hi with hl | ⟨hl, -⟩ | ⟨hl, -⟩
    · exact hl.hash hmem
    · exact hmine hl
    · exact hmine hl
  let t1 := t.setInode i { t.pool.inode i with dirty := (t.pool.inode i).dirty || dirty }
  let t2 := { t1 with pool := { t1.pool with hash := t1.pool.hash.erase i } }
  have hself : t2.pool.inode i
      = { t.pool.inode i with dirty := (t.pool.inode i).dirty || dirty } := update_self ..
  have hc : Change i t t2 := by
    refine ⟨rfl, fun j hj => update_of_ne hj .., fun _ _ => rfl,
      fun j hj => List.mem_erase_of_ne hj, fun _ _ => Iff.rfl, h.table.listed,
      h.table.hashed.erase i, fun hi => absurd hi hnot, ?_, fun hi => ?_, fun hused => ?_⟩
    · rw [hself]
      exact h.table.nonneg i
    · rw [hself]
      exact h.table.real i hmem
    · rw [hself] at hused
      exact absurd hcount hused
  have hid : ∀ j, (t2.pool.inode j).id = (t.pool.inode j).id := setInode_id _ rfl
  have h2 : Others pid t2 :=
    hothers.keep hc (hid i) (fun _ => hmem) fun q hq hi => absurd hi (hstake q hq)
  have hc3 := h2.table.released hnot (by rw [hself]; exact hcount)
  have h3 : Others pid (t2.released i) :=
    h2.keep hc3 rfl id fun q hq hi => absurd hi (hstake q hq)
  refine ⟨h3.written hlock hstake, Renames.of_eq ?_⟩
  unfold Scene.truncated
  rw [written_pool]
  exact hid

/-- The inode has been written at the end of `iput`. -/
theorem Holds.flushed (h : SceneInv t) (hpt : t.point pid = .flush i) :
    Onward t ((t.setInode i { t.pool.inode i with dirty := false }).unlock pid i) := by
  have hfits := h.fits pid trivial
  rw [hpt] at hfits
  have hothers : Others pid t := h.others
  have hwritten : Others pid ((t.setInode i { t.pool.inode i with dirty := false }).setLock i none) := by
    exact hothers.rewrite rfl Iff.rfl (h.table.nonneg i) fun q hq hl =>
      absurd hl (Scene.lock_ne (.inl hfits.1) hq)
  exact ⟨hwritten.goto_plain trivial rfl rfl, Renames.of_eq (setInode_id _ rfl)⟩

-- ======== the steps

theorem Scene.sought_congr (hinode : ∀ j, (t'.pool.inode j).id = (t.pool.inode j).id
      ∧ (t'.pool.inode j).mount = (t.pool.inode j).mount)
    (hhash : t'.pool.hash = t.pool.hash) (hlock : t'.lock = t.lock) :
    t'.pool.getIhash dev num = t.pool.getIhash dev num ∧ t'.sought dev num = t.sought dev num := by
  have hget : t'.pool.getIhash dev num = t.pool.getIhash dev num := by
    unfold Pool.getIhash
    congr 1
    funext j
    have hdev : (t'.pool.inode j).dev = (t.pool.inode j).dev := congrArg Prod.fst (hinode j).1
    have hnum : (t'.pool.inode j).num = (t.pool.inode j).num := congrArg Prod.snd (hinode j).1
    rw [hdev, hnum]
  refine ⟨hget, ?_⟩
  unfold sought
  rw [hget, hlock]
  cases t.pool.getIhash dev num with
  | none => rfl
  | some i => simp only [(hinode i).2]

/-- `iget` at `loop`. -/
theorem Holds.iget (h : Others pid t) (hclear : t.Clear pid dev num) (turns : Nat)
    (tmp : Option (Fin n)) (hdev : dev ≠ nodev) :
    Onward t (Scene.igetLoop pid none dev turns num tmp t) := by
  unfold Scene.Clear at hclear
  rw [if_neg hdev] at hclear
  exact h.igetLoop hdev hclear turns tmp

/-- A process runs on. -/
theorem Holds.wake (h : SceneInv t) (hok : (Happening.wake pid fact).Orderly t)
    (happly : t.wake pid fact = some t') : Onward t t' := by
  have hclear : (t.point pid).Clear t pid := hok.2
  have hfits := h.fits pid trivial
  have hothers : Others pid t := h.others
  unfold Scene.wake at happly
  cases hpt : t.point pid with
  | idle =>
    rw [hpt] at happly
    cases happly
  | loop asked dev num tmp =>
    rw [hpt] at happly hclear hfits
    obtain ⟨rfl, hdev⟩ := hfits
    cases happly
    exact hothers.iget hclear _ _ hdev
  | loop1 asked dev num =>
    have hseeks := h.absent pid
    have hapart := h.apart pid
    rw [hpt] at happly hclear hfits hseeks hapart
    cases happly
    -- what it seeks is brought in by nobody else
    have hmine (a : Dev × Nat) (ha : (Point.loop1 asked dev num : Point n).seeks = some a) :
        a.1 ≠ nodev ∧ Absent t.pool a ∧ t.Alone pid a := by
      obtain ⟨hdev, habsent⟩ := hseeks a trivial ha
      exact ⟨hdev, habsent, fun q hq hq' => hq (hapart q a trivial trivial ha hq').symm⟩
    by_cases hdev : dev = nodev
    · subst hdev
      refine hothers.igetFree_nodev (hclear rfl) (fun a ha => hmine a ?_) _
      rw [ha]
      rfl
    · have hask : asked = none := by
        by_contra hask
        exact hdev (hfits hask)
      subst hask
      obtain ⟨-, habsent, halone⟩ := hmine (dev, num) (if_neg hdev)
      refine hothers.igetFree hdev habsent halone fun i hmem hnone => ?_
      refine (hothers.unhook hmem).igetLoop hdev ?_ _ _
      rw [unhooked_sought habsent hnone]
      exact fun _ => halone
  | iread asked dev num i =>
    rw [hpt] at happly hfits
    obtain ⟨rfl, -⟩ := hfits
    cases happly
    exact ⟨h.filled hpt fact, Renames.of_eq (setInode_id _ rfl)⟩
  | iwrite asked dev num i =>
    rw [hpt] at happly hclear hfits
    obtain ⟨rfl, hdev, hl⟩ := hfits
    cases happly
    have hwritten : Others pid (t.setInode i { t.pool.inode i with dirty := false }) :=
      hothers.setInode rfl Iff.rfl (h.table.nonneg i) hl.list
    have hid := setInode_id (t := t) (i := i) { t.pool.inode i with dirty := false } rfl
    have hmount (j : Fin n) :
        ((t.setInode i { t.pool.inode i with dirty := false }).pool.inode j).mount
          = (t.pool.inode j).mount := by
      by_cases hj : j = i
      · subst hj
        rw [show (t.setInode j { t.pool.inode j with dirty := false }).pool.inode j
          = { t.pool.inode j with dirty := false } from update_self ..]
      · exact congrArg Incore.mount (update_of_ne hj ..)
    have hinode (j : Fin n) := And.intro (hid j) (hmount j)
    have hclear' : (t.setInode i { t.pool.inode i with dirty := false }).Clear pid dev num := by
      have hclear : t.Clear pid dev num := hclear
      unfold Scene.Clear at hclear ⊢
      rw [if_neg hdev] at hclear ⊢
      rw [(Scene.sought_congr hinode rfl rfl).2, (Scene.sought_congr hinode rfl rfl).1]
      exact hclear
    obtain ⟨hinv, hnames⟩ := hwritten.iget hclear' _ _ hdev
    refine ⟨hinv, fun j hne => ?_⟩
    rw [← hid j] at hne
    obtain ⟨hmem, hclean⟩ := hnames j hne
    have hji : j ≠ i := fun hji => hl.list (hji ▸ hmem)
    rw [show (t.setInode i { t.pool.inode i with dirty := false }).pool.inode j
      = t.pool.inode j from update_of_ne hji ..] at hclean
    exact ⟨hmem, hclean⟩
  | ilock i =>
    rw [hpt] at happly
    dsimp only at happly
    split at happly
    · next hlock => exact hothers.iputLocked (.inr hlock) happly
    · cases happly
      exact ⟨h, Renames.of_eq fun _ => rfl⟩
  | truncate i =>
    rw [hpt] at happly
    cases happly
    exact h.truncated hpt fact
  | flush i =>
    rw [hpt] at happly
    cases happly
    exact h.flushed hpt

theorem Holds.step (h : SceneInv t) (hok : e.Orderly t)
    (happly : e.apply t = some t') : Onward t t' := by
  have hothers (pid : Nat) : Others pid t := h.others
  have hused (i : Fin n) (hi : (t.pool.inode i).count ≠ 0) : i ∉ t.pool.ifreelist :=
    fun hmem => hi (h.table.unused i hmem)
  obtain ⟨hfair, hclear⟩ := hok
  cases e with
  | iget pid dev num =>
    cases happly
    by_cases hdev : dev = nodev
    · subst hdev
      have hclean : t.HeadClean := hclear
      exact (hothers pid).igetFree_nodev hclean (fun a ha => by cases ha) _
    · exact (hothers pid).iget hclear _ _ hdev
  | ialloc pid dev num =>
    cases happly
    obtain ⟨hclean, hmiss, halone⟩ := hclear
    refine (hothers pid).igetFree_nodev hclean (fun a ha => ?_) _
    cases ha
    exact ⟨hfair.2, getIhash_none hmiss, halone⟩
  | iput pid i =>
    have happly : t.iput pid i = some t' := happly
    unfold Scene.iput at happly
    split at happly
    · next hlock => exact (hothers pid).iputLocked hlock happly
    · cases happly
      exact ⟨(hothers pid).goto_plain trivial rfl rfl, Renames.of_eq fun _ => rfl⟩
  | wake pid fact => exact h.wake ⟨hfair, hclear⟩ happly
  | ilock pid i =>
    cases happly
    exact ⟨((hothers pid).setLock (.inr hfair.2.2) _).of_idle hfair.1, Renames.of_eq fun _ => rfl⟩
  | iunlock pid i =>
    cases happly
    exact ⟨((hothers pid).setLock (.inl hfair.2) _).of_idle hfair.1, Renames.of_eq fun _ => rfl⟩
  | hold i =>
    cases happly
    have hpos := h.table.nonneg i
    have hi : (t.pool.inode i).count ≠ 0 := hfair
    refine ⟨h.setInode rfl ?_ ?_ (hused i hfair), Renames.of_eq (setInode_id _ rfl)⟩
    · show (t.pool.inode i).count + 1 = 0 ↔ _
      omega
    · show 0 ≤ (t.pool.inode i).count + 1
      omega
  | touch i | link i _ | mount i _ =>
    cases happly
    exact ⟨h.setInode rfl Iff.rfl (h.table.nonneg i) (hused i hfair),
      Renames.of_eq (setInode_id _ rfl)⟩

-- ======== the runs

theorem start_inv : SceneInv (Scene.start n) := by
  have hpool := initInode_inv n
  refine ⟨⟨hpool.nodup, fun i hi => (hpool.free i).mpr hi, hpool.nonneg, List.nodup_nil,
    nofun, nofun,
    fun i hcount => absurd rfl hcount⟩, fun _ _ => trivial, ?_, ?_, ?_, ?_⟩
  · intro q a _ hseeks
    cases hseeks
  · intro q r a _ _ hseeks
    cases hseeks
  · intro q r i _ _ htakes
    cases htakes
  · intro q r i _ _ hreads
    cases hreads

theorem SceneRun.inv (h : SceneRun Happening.Orderly t) : SceneInv t := by
  refine Lib.Reached.inv ?_ (fun _ _ _ ih hok happly => (ih.step hok happly).inv) h
  rintro _ rfl
  exact start_inv

theorem Holds.single (h : SceneInv t) : t.Single := by
  intro i j hi hj hdev hid
  have hdev' : (t.pool.inode j).dev ≠ nodev := by
    rw [← show (t.pool.inode i).dev = (t.pool.inode j).dev from congrArg Prod.fst hid]
    exact hdev
  have hmem (hi : (t.pool.inode i).count ≠ 0 ∨ i ∈ t.pool.hash) : i ∈ t.pool.hash :=
    hi.elim (fun hcount => h.table.used i hcount hdev) id
  have hmem' : j ∈ t.pool.hash := hj.elim (fun hcount => h.table.used j hcount hdev') id
  exact h.table.single i (hmem hi) j hmem' hid

/-- A free inode that has not to be written is written by nobody. -/
theorem Holds.not_writes (h : SceneInv t) (hmem : i ∈ t.pool.ifreelist)
    (hclean : (t.pool.inode i).dirty = false) (q : Nat) : ¬ (t.point q).Writes i := by
  intro hw
  have hi : (t.point q).stake = some i := by
    cases hpt : t.point q with
    | iwrite _ _ _ j | truncate j | flush j =>
      rw [hpt] at hw
      exact congrArg some hw
    | _ =>
      rw [hpt] at hw
      exact hw.elim
  exact h.clean_stake hmem hclean trivial hi

/-- If no two processes bring in the same inode at once, there is one inode
in memory for each, and an inode in memory gets another number only when
nobody refers to it and nobody writes it. -/
theorem inode_single (h : SceneRun Happening.Orderly t) :
    t.Single ∧ ∀ (e : Happening n) (t' : Scene n), e.Orderly t → e.apply t = some t' → ∀ i,
      (t'.pool.inode i).id ≠ (t.pool.inode i).id →
      (t.pool.inode i).count = 0 ∧ ∀ q, ¬ (t.point q).Writes i := by
  have hinv := h.inv
  refine ⟨hinv.single, fun e t' hok happly i hne => ?_⟩
  obtain ⟨hmem, hclean⟩ := (hinv.step hok happly).renames i hne
  exact ⟨hinv.table.unused i hmem, hinv.not_writes hmem hclean⟩

-- ======== two runs

instance Happening.decidableFair (t : Scene n) (e : Happening n) : Decidable (e.Fair t) := by
  unfold Happening.Fair
  split <;> infer_instance

/-- A process in `iget` finds what it looks for, or looks no more. -/
def Point.finds (t : Scene n) : Point n → Bool
  | .loop _ dev num _ => dev ≠ nodev ∧ (t.pool.getIhash dev (t.sought dev num)).isSome
  | .loop1 _ _ _ | .iwrite _ _ _ _ => false
  | _ => true

/-- Then nothing has to be known of the other processes. -/
def Happening.finds (t : Scene n) : Happening n → Bool
  | .iget _ dev num => (Point.loop none dev num none : Point n).finds t
  | .wake pid _ => (t.point pid).finds t
  | .ialloc _ _ _ => false
  | _ => true

theorem Point.finds.clear {pt : Point n} (h : pt.finds t = true) : pt.Clear t pid := by
  cases pt with
  | loop _ dev num _ =>
    obtain ⟨hdev, hfound⟩ := of_decide_eq_true h
    show t.Clear pid dev num
    unfold Scene.Clear
    rw [if_neg hdev]
    intro hnone
    rw [hnone] at hfound
    cases hfound
  | loop1 _ _ _ | iwrite _ _ _ _ => cases h
  | idle | iread _ _ _ _ | ilock _ | truncate _ | flush _ => trivial

theorem Happening.finds.orderly (hfair : e.Fair t) (h : e.finds t = true) : e.Orderly t := by
  refine ⟨hfair, ?_⟩
  cases e with
  | iget pid dev num => exact @Point.finds.clear _ t pid (.loop none dev num none) h
  | wake pid _ => exact Point.finds.clear h
  | ialloc _ _ _ => cases h
  | iput _ _ | ilock _ _ | iunlock _ _ | hold _ | touch _ | link _ _ | mount _ _ => trivial

/-- Process 2 asks for inode 7 when process 1 has read and locked it, waits
for the lock, and gets the same inode. -/
theorem inode_single_shared : ∃ t : Scene 2, SceneRun Happening.Orderly t ∧
    (t.pool.inode 1).count = 2 ∧ t.point 1 = .ilock 1 ∧ t.Single := by
  let t1 := Scene.igetLoop 1 none 0 (Scene.start 2).turns 7 none (Scene.start 2)
  have h1 : SceneRun Happening.Orderly t1 := by
    refine .step (.iget 1 0 7) (.first rfl) ⟨rfl, ?_⟩ rfl
    intro _ q _ hseeks
    cases hseeks
  obtain ⟨t, hplay, hcount, hpoint⟩ : ∃ t, Lib.play Happening.apply
      (fun t e => e.Fair t ∧ e.finds t = true) t1
      [.wake 1 false, .iget 2 0 7, .iunlock 1 1, .wake 2 false, .iput 1 1] = some t ∧
      (t.pool.inode 1).count = 2 ∧ t.point 1 = .ilock 1 := by decide +kernel
  have hrun : SceneRun Happening.Orderly t :=
    Lib.play_inv (fun _ e _ h hok hs => h.step e (Happening.finds.orderly hok.1 hok.2) hs) h1 hplay
  exact ⟨t, hrun, hcount, hpoint, (inode_single hrun).1⟩

/-- Two processes ask for inode 7 before either of them has read it. -/
def twoReaders : List (Happening nrInode) :=
  [.iget 1 0 7, .iget 2 0 7, .wake 1 false, .wake 2 false]

/-- Both get an inode of their own. -/
theorem inode_twice : ∃ t : Scene nrInode, SceneRun Happening.Fair t ∧ ¬ t.Single := by
  obtain ⟨t, hplay, hi, hj, hdev, hid⟩ : ∃ t,
      Lib.play Happening.apply Happening.Fair (Scene.start nrInode) twoReaders = some t ∧
      (t.pool.inode 2046).count ≠ 0 ∧ (t.pool.inode 2047).count ≠ 0 ∧
      (t.pool.inode 2046).dev ≠ nodev ∧ (t.pool.inode 2046).id = (t.pool.inode 2047).id := by
    decide +kernel
  refine ⟨t, .play (.first rfl) hplay, fun hsingle => ?_⟩
  cases hsingle 2046 2047 (.inl hi) (.inl hj) hdev hid

end Cnix.Fs
