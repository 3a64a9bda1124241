/-
A file gives up its zones: `truncate`.

A slot is cleared, and the zone that was in it is given back: the volume
stays sound (`Sound.freeSlot`), and so it does on the way through the file
(`Sound.walker`). What is freed depends on the size of the file alone
(`Sound.truncate`): the slots whose floor is below it.
-/
import Cnix.Fs.Proofs.FreeWalk

namespace Cnix.Fs

open Lib

variable {fs fs1 fs2 : Files} {a zone : Nat} {s : Slot} (disk : Nat → Block)

-- ======== one slot

/-- The slots in `gone` of file `a` have given up their zones. Nothing is
lost unless one of them held the last zone of the volume. -/
structure Shrunk (a : Nat) (gone : Slot → Prop) (fs fs' : Files) : Prop
    extends Apart a fs fs' where
  cleared : ∀ s, gone s → fs'.ref (a, s) = 0
  kept : ∀ s, ¬ gone s → fs'.ref (a, s) = fs.ref (a, s)
  sound : Sound fs' []
  balanced : (∀ s, gone s → fs.ref (a, s) + 1 ≠ fs.vol.sp.zones) → Balanced fs [] →
    Balanced fs' []

variable {gone gone' : Slot → Prop}

theorem Shrunk.refl (h : Sound fs []) : Shrunk a (fun _ => False) fs fs :=
  ⟨Apart.refl, fun _ hs => hs.elim, fun _ _ => rfl, h, fun _ => id⟩

theorem Shrunk.trans (h : Shrunk a gone fs fs1) (h' : Shrunk a gone' fs1 fs2) :
    Shrunk a (fun s => gone s ∨ gone' s) fs fs2 where
  toApart := h.toApart.trans h'.toApart
  cleared := fun s hs => by
    by_cases hs' : gone' s
    · exact h'.cleared s hs'
    · rw [h'.kept s hs']
      exact h.cleared s (hs.resolve_right hs')
  kept := fun s hs => by
    rw [h'.kept s fun hs' => hs (.inr hs'), h.kept s fun hs' => hs (.inl hs')]
  sound := h'.sound
  balanced := fun hlast hbal => by
    refine h'.balanced (fun s hs => ?_) (h.balanced (fun s hs => hlast s (.inl hs)) hbal)
    rw [h.sp]
    by_cases hgone : gone s
    · have hsome := fs.vol.sp.some_zone
      have hlayout := fs.vol.sp.layout
      unfold superBlock at hlayout
      rw [h.cleared s hgone]
      omega
    · rw [h.kept s hgone]
      exact hlast s (.inr hs)

/-- More slots may be counted if they held nothing. -/
theorem Shrunk.mono (h : Shrunk a gone fs fs1) (hsub : ∀ s, gone s → gone' s)
    (hempty : ∀ s, gone' s → ¬ gone s → fs.ref (a, s) = 0) : Shrunk a gone' fs fs1 where
  toApart := h.toApart
  cleared := fun s hs => by
    by_cases hgone : gone s
    · exact h.cleared s hgone
    · rw [h.kept s hgone]
      exact hempty s hs hgone
  kept := fun s hs => h.kept s fun hgone => hs (hsub s hgone)
  sound := h.sound
  balanced := fun hlast => h.balanced fun s hs => hlast s (hsub s hs)

/-- A slot is cleared, and its zone, whose bytes no longer matter, is
given back. -/
theorem Sound.freeSlot (h : Sound fs []) (hst : Stored a s 0 fs fs1)
    (hz : fs.ref (a, s) = zone) (hzone : zone ≠ 0) (data : Block) : Shrunk a (· = s) fs
      (fs1.set a (bitfree (fs1.vol.put zone data) zone .zmap) (fs1.inode a)) := by
  have hmem : zone ∈ zone :: ([] : List Nat) := List.mem_cons_self ..
  obtain ⟨hsound1, hbal1⟩ := h.unlink hst hz hzone
  obtain ⟨hidle2, hsound2, hbal2⟩ := hsound1.put (a := a) data
    (hsound1.ledger.pend_used hmem).1 (hsound1.ledger.pend_free hmem)
  obtain ⟨hidle3, hsound3, hbal3⟩ := hsound2.release (a := a)
  simp only [set_vol, set_inode_self, set_set] at hidle3 hsound3 hbal3
  have hrefs (o : Nat × Slot) := (hidle3.ref_all o).trans (hidle2.ref_all o)
  refine ⟨(hst.toApart.trans hidle2.toApart).trans hidle3.toApart, fun u hu => ?_,
    fun u hu => ?_, hsound3, fun hlast hbal => ?_⟩
  · rw [hrefs, hst.own_ref, if_pos hu]
  · rw [hrefs, hst.own_ref, if_neg hu]
  · refine hbal3 ?_ (hbal2 (hbal1 hbal))
    rw [Volume.put_sp, hst.sp, ← hz]
    exact hlast s rfl

/-- An empty slot is cleared. -/
theorem Sound.clearSlot (h : Sound fs []) (hst : Stored a s 0 fs fs1)
    (hz : fs.ref (a, s) = 0) : Shrunk a (· = s) fs fs1 := by
  obtain ⟨hsound, hbal⟩ := h.clear hst hz
  refine ⟨hst.toApart, fun u hu => ?_, fun u hu => ?_, hsound, fun _ => hbal⟩
  · rw [hst.own_ref, if_pos hu]
  · rw [hst.own_ref, if_neg hu]

-- ======== truncate

theorem Sound.proper (h : Sound fs []) (ha : fs.live a = true) : Proper fs.vol (fs.inode a) where
  distinct := fun s t hne he => by
    rw [← ref_live ha, ← ref_live ha] at he
    have hsame := h.ledger.inj he (ref_live ha s ▸ hne)
    rw [Prod.mk.injEq] at hsame
    exact hsame.2
  data := fun s _ hne => by
    rw [← ref_live ha] at hne ⊢
    exact (h.dataZone hne).1

/-- A slot that is cleared, in a file of a sound volume. -/
theorem Unset.stored {vol : Volume} {ino : Inode} (hu : Unset fs.vol (fs.inode a) s vol ino)
    (h : Sound fs []) (ha : fs.live a = true)
    (hold : s.isNode = true → fs.vol.Empty (fs.ref (a, s))) : Stored a s 0 fs (fs.set a vol ino) := by
  cases hu with
  | root hs => exact stored_root 0 ha hs hold fun _ => empty_zero
  | entry hs hz hi =>
    rw [← ref_live ha] at hz ⊢
    exact stored_entry 0 h ha hs rfl hz hi (by decide) hz.symm hold fun _ => empty_zero

/-- The same on the way through a file. -/
theorem Unset.walked {vol1 vol2 : Volume} {ino1 ino2 : Inode} (hu : Unset vol1 ino1 s vol2 ino2)
    (ha : fs.live a = true) (h : Sound (fs.set a vol1 ino1) [])
    (hold : s.isNode = true → vol1.Empty (zoneOf vol1 ino1 s)) :
    (fs.set a vol1 ino1).ref (a, s) = zoneOf vol1 ino1 s
      ∧ Stored a s 0 (fs.set a vol1 ino1) (fs.set a vol2 ino2) := by
  have ha1 : (fs.set a vol1 ino1).live a = true := ha
  have href : (fs.set a vol1 ino1).ref (a, s) = zoneOf vol1 ino1 s := by
    rw [ref_live ha1, set_vol, set_inode_self]
  have hu1 : Unset (fs.set a vol1 ino1).vol ((fs.set a vol1 ino1).inode a) s vol2 ino2 := by
    rwa [set_vol, set_inode_self]
  have hst := hu1.stored h ha1 (by rw [href]; exact hold)
  rw [set_set] at hst
  exact ⟨href, hst⟩

/-- The volume stays sound as `truncate` goes through a file. -/
theorem Sound.walker (h : Sound fs []) (ha : fs.live a = true) :
    Walker fs.vol (fs.inode a) fun P vol ino _ => Shrunk a P fs (fs.set a vol ino) where
  proper := h.proper ha
  wider := fun hc hw hsub hzero => hw.mono hsub fun s hs hp => by
    rw [ref_live ha, ← hc.kept s hp, hzero s hs]
  unset := fun {P s vol1 ino1 vol2 ino2 calls} hc hw hu hold hz => by
    obtain ⟨href, hst⟩ := hu.walked ha hw.sound hold
    exact hw.trans (hw.sound.clearSlot hst (href.trans hz))
  free := fun {P s vol1 ino1 vol2 ino2 calls} hc hw hu hold hz data => by
    obtain ⟨href, hst⟩ := hu.walked ha hw.sound hold
    have hfree := hw.sound.freeSlot hst href hz data
    simp only [set_vol, set_inode_self, set_set] at hfree
    exact hw.trans hfree

/-- `truncate` frees the slots whose floor is below the size of the
file. -/
theorem Sound.truncate (h : Sound fs []) (ha : fs.live a = true) :
    Shrunk a (fun s => s.floor < (fs.inode a).size) fs
        (fs.set a (Fs.truncate disk fs.vol (fs.inode a)).1 (Fs.truncate disk fs.vol (fs.inode a)).2)
      ∧ (Fs.truncate disk fs.vol (fs.inode a)).2.size = 0 := by
  obtain ⟨vol, ino, he, -, hall⟩ := (h.walker ha).truncate disk (by rw [set_self]; exact Shrunk.refl h)
  rw [he]
  obtain ⟨hapart, hsound, hbal, hrefs⟩ := hall.sound.resize (a := a) (n := 0)
  simp only [set_vol, set_inode_self, set_set] at hapart hsound hbal hrefs
  refine ⟨⟨hall.toApart.trans hapart, fun s hs => ?_, fun s hs => ?_, hsound,
    fun hlast hb => hbal (hall.balanced hlast hb)⟩, rfl⟩
  · rw [hrefs, hall.cleared s hs]
  · rw [hrefs, hall.kept s hs]

/-- After `truncate` a tidy file holds nothing. -/
theorem Sound.truncate_tidy (h : Sound fs []) (ha : fs.live a = true) (htidy : fs.Tidy a)
    (s : Slot) : (fs.set a (Fs.truncate disk fs.vol (fs.inode a)).1
      (Fs.truncate disk fs.vol (fs.inode a)).2).ref (a, s) = 0 := by
  obtain ⟨hshrunk, -⟩ := h.truncate disk ha
  by_cases hs : s.floor < (fs.inode a).size
  · exact hshrunk.cleared s hs
  · rw [hshrunk.kept s hs]
    by_contra hne
    exact hs (htidy s id hne)

end Cnix.Fs
