/-
No zone is lost, and none is in two places.

That a zone is in at most one slot, and in none when it is free, holds
along every run (`Call.sound`). That every zone in use is in a slot does
not: `bitfree` does not clear the bit of the last zone of the volume, so
this zone is lost when a file gives it up, and a write that fails can
leave the double indirect zone in a file that ends right before it,
where `truncate` does not look. In a run whose calls keep clear of both
(`Careful`), every zone in use is in one slot (`zones_conserved`).
-/
import Cnix.Fs.Proofs.Calls

namespace Cnix.Fs

open Lib

variable {fs fs' : Files} {a b : Nat}

/-- A call that loses no zone. A write must not fail while it holds the
last zone. A file that is truncated must not hold this zone, nor a
double indirect zone that it is too short for. -/
def Careful (fs : Files) (a : Nat) : Option (Nat × Nat) → Prop
  | some (pos, n) => fs.SafeWrite a pos n
  | none => (∀ s, fs.ref (a, s) + 1 ≠ fs.vol.sp.zones)
      ∧ (fs.ref (a, .double) ≠ 0 →
        (nrDzones + nrIndirects) * blocksiz < (fs.inode a).size)

/-- A consistent volume. -/
structure Consistent (fs : Files) : Prop where
  sound : Sound fs []
  balanced : Balanced fs []
  tidy : ∀ a, fs.live a = true → fs.Tidy a

/-- The runs of a volume: calls for files that are live. -/
inductive ZoneRun (ok : Files → Nat → Option (Nat × Nat) → Prop) : Files → Prop
  | start {fs : Files} (h : Consistent fs) : ZoneRun ok fs
  | call {fs fs' : Files} {a : Nat} (hrun : ZoneRun ok fs) (ha : fs.live a = true)
      (hcall : Call ok a fs fs') : ZoneRun ok fs'

/-- Every zone in use is in one slot, every zone in a slot is in use, and
without files no zone is in use. -/
structure Conserved (fs : Files) : Prop where
  owned : ∀ z, fs.vol.Used z → ∃ o, fs.ref o = z ∧ ∀ o', fs.ref o' = z → o' = o
  held : ∀ o, fs.ref o ≠ 0 → fs.vol.Used (fs.ref o)
  all_clear : (∀ a, fs.live a = false) → ∀ z, ¬ fs.vol.Used z

/-- What holds along a careful run. -/
structure ZoneInv (fs : Files) : Prop where
  sound : Sound fs []
  balanced : Balanced fs []
  tidy : ∀ a, fs.live a = true → fs.TidyBut a (· = .double)

-- ======== the steps

/-- A truncated file that was tidy holds nothing, and nothing is lost. -/
theorem ZoneInv.truncate (h : ZoneInv fs) (ha : fs.live a = true) (hok : Careful fs a none)
    (disk : Nat → Block) : Balanced (fs.set a (Fs.truncate disk fs.vol (fs.inode a)).1
        (Fs.truncate disk fs.vol (fs.inode a)).2) []
      ∧ ∀ s, (fs.set a (Fs.truncate disk fs.vol (fs.inode a)).1
        (Fs.truncate disk fs.vol (fs.inode a)).2).ref (a, s) = 0 := by
  have htidy : fs.Tidy a := fun s _ hne => by
    by_cases hs : s = .double
    · rw [hs] at hne ⊢
      exact hok.2 hne
    · exact h.tidy a ha s hs hne
  refine ⟨?_, h.sound.truncate_tidy disk ha htidy⟩
  exact (h.sound.truncate disk ha).1.balanced (fun s _ => hok.1 s) h.balanced

theorem Balanced.kill (h : Balanced fs []) (hrefs : ∀ s, fs.ref (a, s) = 0) :
    Balanced (fs.kill a) [] := by
  intro z hz
  rcases h z hz with hmem | ⟨o, ho⟩
  · cases hmem
  refine .inr ⟨o, ?_⟩
  rw [ref_kill]
  split
  · next he =>
    rw [← ho, ← hrefs o.2, ← he]
  · exact ho

/-- The calls keep the invariant. -/
theorem ZoneInv.call (h : ZoneInv fs) (ha : fs.live a = true) (hcall : Call Careful a fs fs') :
    ZoneInv fs' := by
  have hother {b : Nat} (hb : b ≠ a) (hlive : fs'.live b = true) :
      fs'.TidyBut b (· = .double) := by
    have hsame := hcall.kept h.sound ha hb
    intro s hs hne
    rw [hsame.ref] at hne
    rw [hsame.inode]
    exact h.tidy b (hsame.live ▸ hlive) s hs hne
  refine ⟨hcall.sound h.sound ha, ?_, fun b hlive => ?_⟩
  · cases hcall with
    | @write lost pos src w hok hw =>
      obtain ⟨w', hw', htrans⟩ := h.sound.doWrite ha src
      rw [hw'] at hw
      cases hw
      exact htrans.balanced hok h.balanced
    | truncate disk hok => exact (h.truncate ha hok disk).1
    | lastPut disk inum hok =>
      obtain ⟨hbal, hrefs⟩ := h.truncate ha hok disk
      have hsound := (h.sound.truncate disk ha).1.sound
      obtain ⟨hsame, -, hbal'⟩ := hsound.bitfree_imap (a := a) inum
      simp only [set_vol, set_inode_self, set_set] at hsame hbal'
      refine (hbal' hbal).kill fun s => ?_
      rw [(hsame a).ref]
      exact hrefs s
  · by_cases hb : b = a
    · subst hb
      cases hcall with
      | @write lost pos src w hok hw =>
        obtain ⟨w', hw', htrans⟩ := h.sound.doWrite ha src
        rw [hw'] at hw
        cases hw
        exact htrans.tidy (h.tidy b ha)
      | truncate disk hok =>
        exact fun s _ hne => absurd ((h.truncate ha hok disk).2 s) hne
      | lastPut disk inum hok =>
        have hdead : ∀ fs1 : Files, (fs1.kill b).live b = false :=
          fun _ => Function.update_self ..
        rw [hdead] at hlive
        cases hlive
    · exact hother hb hlive

theorem ZoneInv.conserved (h : ZoneInv fs) : Conserved fs where
  owned := fun z hz => by
    rcases h.balanced z hz with hmem | ⟨o, ho⟩
    · cases hmem
    refine ⟨o, ho, fun o' ho' => h.sound.ledger.inj (ho'.trans ho.symm) ?_⟩
    rw [ho']
    rintro rfl
    exact not_used_zero hz
  held := fun o ho => h.sound.ledger.held ho
  all_clear := fun hdead z hz => by
    rcases h.balanced z hz with hmem | ⟨o, ho⟩
    · cases hmem
    have hzero : fs.ref o = 0 := by
      unfold Files.ref
      rw [hdead o.1]
      rfl
    rw [← ho, hzero] at hz
    exact not_used_zero hz

-- ======== the runs

theorem ZoneRun.inv (h : ZoneRun Careful fs) : ZoneInv fs := by
  induction h with
  | start h => exact ⟨h.sound, h.balanced, fun a ha s _ => h.tidy a ha s id⟩
  | call _ ha hcall ih => exact ih.call ha hcall

/-- Along a run of careful calls the zones are conserved. -/
theorem zones_conserved (h : ZoneRun Careful fs) : Conserved fs := h.inv.conserved

theorem fresh_consistent {n : Nat} {hlow : 0 < n} {hhigh : n < bitsPerBlock} {live : Nat → Bool} :
    Consistent { fresh n hlow hhigh with live := live } :=
  ⟨fresh_sound, fresh_balanced, fun a _ s _ hne => absurd (fresh_ref (a, s)) hne⟩

/-- A fresh volume with two files. -/
def freshPair : Files := { fresh 9 (by decide) (by decide) with live := fun b => b < 2 }

/-- A byte is written to each of them. -/
theorem fresh_zones_conserved : ∃ fs, ZoneRun Careful fs ∧ fs.ref (0, .direct 0) = 4 ∧
    fs.ref (1, .direct 0) = 5 ∧ Conserved fs := by
  have hsafe (fs : Files) (a : Nat) : Careful fs a (some (0, 1)) :=
    .inr (.inl fun x _ (hx : x < 0 + 1) => by
      rw [show x = 0 by omega]
      trivial)
  have hstart : ZoneRun Careful freshPair := .start fresh_consistent
  have hfirst := hstart.call (a := 0) rfl (Call.write (w := ⟨.ok 1, 1, _, _⟩) (hsafe _ _)
    (show doWrite zeroBlock _ _ 0 [7] = _ from rfl))
  have hsecond := hfirst.call (a := 1) rfl (Call.write (w := ⟨.ok 1, 1, _, _⟩) (hsafe _ _)
    (show doWrite zeroBlock _ _ 0 [8] = _ from rfl))
  exact ⟨_, hsecond, rfl, rfl, zones_conserved hsecond⟩

/-- The only zone of a volume is written and given up: its bit stays set
though no file holds it. -/
theorem last_zone_lost : ∃ fs, ZoneRun (fun _ _ _ => True) fs ∧ ¬ Conserved fs := by
  have hstart : ZoneRun (fun _ _ _ => True) oneZone :=
    .start fresh_consistent
  have hwrite := hstart.call (a := 0) rfl (Call.write (w := ⟨.ok 1, 1, _, _⟩) trivial
    (show doWrite zeroBlock _ _ 0 [7] = _ from rfl))
  have hput := hwrite.call (a := 0) rfl (Call.lastPut (fun _ => zeroBlock) 1 trivial)
  refine ⟨_, hput, fun hcons => ?_⟩
  refine hcons.all_clear (fun a => ?_) 4 ⟨⟨by decide, by decide⟩, rfl⟩
  show Function.update (fun b => b == 0) 0 false a = false
  by_cases ha : a = 0
  · rw [ha, Function.update_self]
  · rw [Function.update_of_ne ha]
    exact beq_eq_false_iff_ne.mpr ha

/-- Whatever calls there were, also those that lose zones: no zone is in
two slots, a zone in a slot is in use, and a call leaves the bytes of the
other files alone. -/
theorem zones_never_shared {ok : Files → Nat → Option (Nat × Nat) → Prop} (h : ZoneRun ok fs) :
    (∀ o o', fs.ref o = fs.ref o' → fs.ref o ≠ 0 → o = o') ∧
    (∀ o, fs.ref o ≠ 0 → fs.vol.Used (fs.ref o)) ∧
    ∀ a b fs', fs.live a → Call ok a fs fs' → b ≠ a → fs'.array b = fs.array b := by
  have hs : Sound fs [] := by
    induction h with
    | start h => exact h.sound
    | call _ ha hcall ih => exact hcall.sound ih ha
  exact ⟨fun _ _ => hs.ledger.inj, fun _ => hs.ledger.held,
    fun _ _ _ ha hcall hb => (hcall.kept hs ha hb).array⟩

/-- A file with one zone, and one with an indirect zone and what is under
it. A write to the first leaves the second alone. -/
theorem zones_never_shared_pair : ∃ fs, ZoneRun (fun _ _ _ => True) fs ∧
    fs.ref (0, .direct 0) = 4 ∧ fs.ref (1, .single) = 6 ∧ fs.ref (1, .ind 0) = 5 ∧
    fs.vol.Used 4 ∧ fs.vol.Used 5 ∧ fs.vol.Used 6 ∧ (∀ s, fs.ref (0, s) = 5 → False) ∧
    ∀ fs', Call (fun _ _ _ => True) 0 fs fs' → fs'.array 1 = fs.array 1 := by
  have hstart : ZoneRun (fun _ _ _ => True) freshPair := .start fresh_consistent
  have hfirst := hstart.call (a := 0) rfl (Call.write (w := ⟨.ok 1, 1, _, _⟩) trivial
    (show doWrite zeroBlock _ _ 0 [7] = _ from rfl))
  have hrun := hfirst.call (a := 1) rfl (Call.write (w := ⟨.ok 1, 7169, _, _⟩) trivial
    (show doWrite zeroBlock _ _ 7168 [8] = _ from rfl))
  obtain ⟨hinj, hused, hkept⟩ := zones_never_shared hrun
  refine ⟨_, hrun, rfl, rfl, rfl, hused (0, .direct 0) (by decide), hused (1, .ind 0) (by decide),
    hused (1, .single) (by decide), fun s hs => ?_, fun fs' hcall => hkept 0 1 fs' rfl hcall (by decide)⟩
  have hsame := hinj (0, s) (1, .ind 0) hs (by rw [hs]; decide)
  cases hsame

end Cnix.Fs
