/-
The super blocks of mounted devices.

# What goes wrong

- A super block that `sread` does not accept leaves its slot with the
  count 1 and no device: nothing finds it again.
- `umount` leaves `s_dev` and `s_mounti` behind. The slot has the count 0,
  and the next mount of the device finds it by `s_dev` and does not count
  it again, so that it is given to the next new device.
- A device that is mounted twice has one slot, which forgets the first
  directory.

# When it holds

Without these (`Plain`), a slot with a device is counted, `s_mounti` and
`i_mounts` point to each other, and no slot ever changes hands.
-/
import Cnix.Fs.Mount

namespace Cnix.Fs

open Function (update update_apply)

variable {t t' : SbTable} {disks : Disks} {dev : Dev} {on : Handle → Option Dev}

/-- The calls, and `sread` of a device for an inode on it. -/
inductive MountCall
  | mount (dev : Dev) (dirino rooti : Handle)
  | umount (dev : Dev) (iiucount : Nat)
  | sread (dev : Dev)

/-- The table after a call. -/
def MountCall.apply (disks : Disks) (t : SbTable) : MountCall → MountRet × SbTable
  | .mount dev dirino rooti => t.doMount disks dev dirino rooti
  | .umount dev iiucount => t.doUmount disks dev iiucount
  | .sread dev =>
    match t.sread disks dev with
    | (none, t) => (.null, t)
    | (some _, t) => (.ok, t)

/-- The device that is mounted on each directory, after a call. -/
def MountCall.mounted (on : Handle → Option Dev) (r : MountRet) :
    MountCall → Handle → Option Dev
  | .mount dev dirino _ => if r = .ok then update on dirino (some dev) else on
  | .umount dev _ => if r = .ok then fun h => if on h = some dev then none else on h else on
  | .sread _ => on

/-- `sread` of the device succeeds. -/
def Readable (disks : Disks) (t : SbTable) (dev : Dev) : Prop :=
  dev ≠ nodev ∧ ((∃ i, (t.sb i).dev = dev) ∨ disks.good dev = true ∧ ∃ i, (t.sb i).count = 0)

/-- The device can be read, is not mounted twice, and is not unmounted. -/
def Plain (disks : Disks) (t : SbTable) : MountCall → Prop
  | .mount dev dirino _ => (t.mounts dirino).isSome ∨
      Readable disks t dev ∧ ∀ i, (t.sb i).dev = dev → (t.sb i).mounti = none
  | .umount _ iiucount => 1 < iiucount
  | .sread dev => Readable disks t dev

/-- Calls that meet `ok`, from the start, and which device was mounted on
which directory. -/
inductive MountRun (disks : Disks) (ok : SbTable → MountCall → Prop) :
    SbTable → (Handle → Option Dev) → Prop
  | init : MountRun disks ok initSuper fun _ => none
  | step {t t' : SbTable} {on : Handle → Option Dev} {r : MountRet} (c : MountCall) :
      MountRun disks ok t on → ok t c → c.apply disks t = (r, t') →
      MountRun disks ok t' (c.mounted on r)

/-- The slot of a mounted device is that device's, a slot without a device
is free, and `MOUNT_I` is set for the directories of the slots. -/
structure TableOk (t : SbTable) (on : Handle → Option Dev) : Prop where
  kept : ∀ dirino i, t.mounts dirino = some i → on dirino = some (t.sb i).dev
  available : ∀ i, (t.sb i).dev = nodev → (t.sb i).count = 0
  exact : ∀ dirino, (t.mounts dirino).isSome ↔ ∃! i, (t.sb i).mounti = some dirino

-- ======== the invariant

structure MountInv (t : SbTable) (on : Handle → Option Dev) : Prop where
  counted : ∀ i, (t.sb i).count = 0 ↔ (t.sb i).dev = nodev
  unused : ∀ i, (t.sb i).dev = nodev → (t.sb i).mounti = none
  paired : ∀ dirino i, t.mounts dirino = some i ↔ (t.sb i).mounti = some dirino
  device : ∀ dirino i, t.mounts dirino = some i → on dirino = some (t.sb i).dev

theorem initSuper_inv : MountInv initSuper fun _ => none := by
  refine ⟨fun i => ?_, fun i _ => rfl, fun dirino i => ?_, fun dirino i h => ?_⟩
  · exact iff_of_true rfl rfl
  · exact iff_of_false nofun nofun
  · cases h

theorem MountInv.ok (h : MountInv t on) : TableOk t on := by
  refine ⟨h.device, fun i hi => (h.counted i).mpr hi, fun dirino => ?_⟩
  constructor
  · intro hsome
    obtain ⟨i, hi⟩ := Option.isSome_iff_exists.mp hsome
    refine ⟨i, (h.paired dirino i).mp hi, fun j hj => ?_⟩
    have hj := (h.paired dirino j).mpr hj
    rw [hi] at hj
    exact (Option.some.inj hj).symm
  · rintro ⟨i, hi, -⟩
    rw [(h.paired dirino i).mpr hi]
    rfl

theorem SbTable.set_sb (i j : Fin nrSb) (sp : Sb) :
    (t.set i sp).sb j = if j = i then sp else t.sb j := update_apply ..

/-- A slot without a device is given to one. -/
theorem MountInv.assign (h : MountInv t on) {i : Fin nrSb} (hfree : (t.sb i).count = 0)
    (hdev : dev ≠ nodev) : MountInv (t.set i ⟨dev, 1, none, none⟩) on := by
  have hnone := h.unused i ((h.counted i).mp hfree)
  refine ⟨fun j => ?_, fun j => ?_, fun dirino j => ?_, fun dirino j hj => ?_⟩
  · rw [SbTable.set_sb]
    split
    · exact iff_of_false Int.one_ne_zero hdev
    · exact h.counted j
  · rw [SbTable.set_sb]
    split
    · exact fun _ => rfl
    · exact h.unused j
  · show t.mounts dirino = some j ↔ _
    rw [SbTable.set_sb, h.paired dirino j]
    split
    · next hji => rw [hji, hnone]
    · rfl
  · have hji : j ≠ i := by
      rintro rfl
      have hmount := (h.paired dirino j).mp hj
      rw [hnone] at hmount
      cases hmount
    rw [SbTable.set_sb, if_neg hji]
    exact h.device dirino j hj

/-- What `sread` gives of a device that can be read. -/
theorem MountInv.sread (h : MountInv t on) (hread : Readable disks t dev) :
    ∃ i t', t.sread disks dev = (some i, t') ∧ MountInv t' on ∧ (t'.sb i).dev = dev ∧
      t'.mounts = t.mounts ∧
      ((∀ j, (t.sb j).dev = dev → (t.sb j).mounti = none) → (t'.sb i).mounti = none) := by
  obtain ⟨hdev, hread⟩ := hread
  unfold SbTable.sread
  cases hfind : (List.finRange nrSb).find? fun i => (t.sb i).dev == dev with
  | some i =>
    have hi : (t.sb i).dev = dev := by simpa using List.find?_some hfind
    exact ⟨i, t, rfl, h, hi, rfl, fun hnone => hnone i hi⟩
  | none =>
    have hall : ∀ i, (t.sb i).dev ≠ dev := by
      intro i
      have hne := List.find?_eq_none.mp hfind i (List.mem_finRange i)
      simpa using hne
    obtain ⟨j, hj⟩ | ⟨hgood, j, hj⟩ := hread
    · exact absurd hj (hall j)
    · cases hfree : (List.finRange nrSb).find? fun i => (t.sb i).count == 0 with
      | none =>
        have hne := List.find?_eq_none.mp hfree j (List.mem_finRange j)
        exact absurd hj (by simpa using hne)
      | some i =>
        have hi : (t.sb i).count = 0 := by simpa using List.find?_some hfree
        have hsb : (t.set i ⟨dev, 1, none, none⟩).sb i = ⟨dev, 1, none, none⟩ := by
          rw [SbTable.set_sb, if_pos rfl]
        refine ⟨i, t.set i ⟨dev, 1, none, none⟩, by simp [hgood], h.assign hi hdev, ?_, rfl, ?_⟩
        · rw [hsb]
        · intro _
          rw [hsb]

/-- A directory and a slot get to know each other. -/
theorem MountInv.join (h : MountInv t on) {i : Fin nrSb} {dirino rooti : Handle}
    (hdev : (t.sb i).dev = dev) (hne : dev ≠ nodev) (hdir : t.mounts dirino = none)
    (hslot : (t.sb i).mounti = none) :
    MountInv ((t.set i { t.sb i with rooti := some rooti, mounti := some dirino }).setMounts
      dirino (some i)) (update on dirino (some dev)) := by
  have hsb (j : Fin nrSb) : ((t.set i
      { t.sb i with rooti := some rooti, mounti := some dirino }).setMounts dirino (some i)).sb j
      = if j = i then { t.sb i with rooti := some rooti, mounti := some dirino } else t.sb j :=
    SbTable.set_sb i j _
  refine ⟨fun j => ?_, fun j => ?_, fun d j => ?_, fun d j hj => ?_⟩
  · rw [hsb]
    split
    · exact h.counted i
    · exact h.counted j
  · rw [hsb]
    split
    · intro hnode
      exact absurd (hdev.symm.trans hnode) hne
    · exact h.unused j
  · rw [hsb]
    show update t.mounts dirino (some i) d = some j ↔ _
    rw [update_apply]
    by_cases hd : d = dirino
    · subst hd
      rw [if_pos rfl]
      split
      · next hji => simp [hji]
      · next hji =>
        have hnot : (t.sb j).mounti ≠ some d := by
          intro hmount
          rw [← h.paired, hdir] at hmount
          cases hmount
        exact iff_of_false (fun he => hji (Option.some.inj he).symm) hnot
    · rw [if_neg hd]
      split
      · next hji =>
        have hnot : t.mounts d ≠ some j := by
          intro hmount
          rw [h.paired, hji, hslot] at hmount
          cases hmount
        exact iff_of_false hnot fun he => hd (Option.some.inj he).symm
      · exact h.paired d j
  · change update t.mounts dirino (some i) d = some j at hj
    rw [hsb]
    rw [update_apply] at hj ⊢
    split at hj
    · next hd =>
      cases hj
      rw [if_pos hd, if_pos rfl, hdev]
    · next hd =>
      rw [if_neg hd]
      split
      · next hji =>
        rw [hji] at hj
        exact h.device d i hj
      · exact h.device d j hj

-- ======== the runs

theorem MountInv.step (h : MountInv t on) {c : MountCall} {r : MountRet} (hok : Plain disks t c)
    (happly : c.apply disks t = (r, t')) : MountInv t' (c.mounted on r) := by
  cases c with
  | mount dev dirino rooti =>
    unfold MountCall.apply SbTable.doMount at happly
    dsimp only at happly
    by_cases hbusy : (t.mounts dirino).isSome = true
    · rw [if_pos hbusy] at happly
      cases happly
      exact h
    · rw [if_neg hbusy] at happly
      obtain ⟨hread, hnone⟩ := hok.resolve_left hbusy
      obtain ⟨i, t1, hsread, h1, hdev, hmounts, hslot⟩ := h.sread hread
      rw [hsread] at happly
      cases happly
      have hdir : t1.mounts dirino = none := by
        rw [hmounts]
        simpa using hbusy
      exact h1.join hdev hread.1 hdir (hslot hnone)
  | umount dev iiucount =>
    unfold MountCall.apply SbTable.doUmount at happly
    dsimp only at happly
    rw [if_pos (show 1 < iiucount from hok)] at happly
    cases happly
    exact h
  | sread dev =>
    obtain ⟨i, t1, hsread, h1, -⟩ := h.sread hok
    unfold MountCall.apply at happly
    dsimp only at happly
    rw [hsread] at happly
    cases happly
    exact h1

theorem MountRun.inv (h : MountRun disks (Plain disks) t on) : MountInv t on := by
  induction h with
  | init => exact initSuper_inv
  | step c _ hok happly ih => exact ih.step hok happly

/-- If every device that is mounted can be read and is not mounted yet, and
no device is unmounted, the table is in order. -/
theorem superblocks_kept (h : MountRun disks (Plain disks) t on) : TableOk t on := h.inv.ok

-- ======== three accidents

/-- A super block that `sread` accepts. -/
def someSuper : DiskSuper := ⟨lmMagic, 1, 1, 1, 1, 0⟩

/-- Device 5 has no file system, all others have one. -/
def someDisks : Disks := fun dev => if dev = 5 then some { someSuper with magic := 0 } else some someSuper

/-- A directory of device 3, and the root of a device. -/
def someDir (num : Nat) : Handle := ⟨3, num, 0⟩
def rootOf (dev : Dev) : Handle := ⟨dev, rootInode, 0⟩

/-- Device 3 is mounted on its own root and device 4 below it. -/
theorem superblocks_kept_two : ∃ t on, MountRun someDisks (Plain someDisks) t on ∧
    on (someDir 7) = some 4 ∧ TableOk t on := by
  have hinit : MountRun someDisks (Plain someDisks) initSuper fun _ => none := .init
  have hroot := hinit.step (.mount 3 (rootOf 3) (rootOf 3))
    (.inr ⟨⟨by decide, .inr ⟨rfl, ⟨0, by decide⟩, rfl⟩⟩, by decide⟩) rfl
  have hbelow := hroot.step (.mount 4 (someDir 7) (rootOf 4))
    (.inr ⟨⟨by decide, .inr ⟨rfl, ⟨1, by decide⟩, rfl⟩⟩, by decide⟩) rfl
  exact ⟨_, _, hbelow, rfl, superblocks_kept hbelow⟩

/-- A slot that a failed `sread` does not give back; a directory that a slot
still has after `umount`; and a mounted device whose slot is given to
another one. -/
theorem superblocks_lost : (∃ t on, MountRun someDisks (fun _ _ => True) t on ∧
      ∃ i, (t.sb i).dev = nodev ∧ (t.sb i).count ≠ 0) ∧
    (∃ t on, MountRun someDisks (fun _ _ => True) t on ∧
      ∃ dirino i, t.mounts dirino = none ∧ (t.sb i).mounti = some dirino) ∧
    ∃ t on, MountRun someDisks (fun _ _ => True) t on ∧
      ∃ dirino i, t.mounts dirino = some i ∧ on dirino ≠ some (t.sb i).dev := by
  have hinit : MountRun someDisks (fun _ _ => True) initSuper fun _ => none := .init
  have hbad := hinit.step (.mount 5 (someDir 7) (rootOf 5)) trivial rfl
  have hmount := hinit.step (.mount 4 (someDir 7) (rootOf 4)) trivial rfl
  have humount := hmount.step (.umount 4 1) trivial rfl
  have hagain := humount.step (.mount 4 (someDir 7) (rootOf 4)) trivial rfl
  have hother := hagain.step (.mount 6 (someDir 8) (rootOf 6)) trivial rfl
  let first : Fin nrSb := ⟨0, by decide⟩
  refine ⟨⟨_, _, hbad, first, rfl, by decide⟩, ⟨_, _, humount, someDir 7, first, rfl, rfl⟩,
    ⟨_, _, hother, someDir 7, first, rfl, by decide⟩⟩

end Cnix.Fs
