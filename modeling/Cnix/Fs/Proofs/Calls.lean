/-
The calls that change the files of a volume.

A call is a `do_write` at some position, a `truncate`, or the last
`iput` of a file without links, which gives the inode back. No call
leaves a zone in two slots or in a slot without its bit
(`Call.sound`), and none touches another file (`Call.kept`).
-/
import Cnix.Fs.Proofs.Shrink

namespace Cnix.Fs

open Lib

variable {fs fs' : Files} {a b : Nat}

/-- The inode is given back. -/
def Files.kill (fs : Files) (a : Nat) : Files :=
  { fs with live := Function.update fs.live a false }

/-- One call for file `a`, `ok` telling what is allowed. -/
inductive Call (ok : Files → Nat → Option (Nat × Nat) → Prop) (a : Nat) : Files → Files → Prop
  | write {fs : Files} {lost : Block} {pos : Nat} {src : List Byte} {w : Written}
      (hok : ok fs a (some (pos, src.length)))
      (hw : doWrite lost fs.vol (fs.inode a) pos src = .ok w) :
      Call ok a fs (fs.set a w.vol w.ino)
  | truncate {fs : Files} (disk : Nat → Block) (hok : ok fs a none) :
      Call ok a fs (fs.set a (truncate disk fs.vol (fs.inode a)).1
        (truncate disk fs.vol (fs.inode a)).2)
  | lastPut {fs : Files} (disk : Nat → Block) (inum : Nat) (hok : ok fs a none) :
      Call ok a fs ((fs.set a (lastPut disk fs.vol (fs.inode a) inum).1
        (lastPut disk fs.vol (fs.inode a) inum).2).kill a)

variable {ok : Files → Nat → Option (Nat × Nat) → Prop}

-- ======== giving the inode back

/-- `bitfree` of the inode's number. -/
theorem Sound.bitfree_imap (h : Sound fs []) (inum : Nat) :
    (∀ b, Kept b fs (fs.set a (bitfree fs.vol inum .imap) (fs.inode a)))
      ∧ Sound (fs.set a (bitfree fs.vol inum .imap) (fs.inode a)) []
      ∧ (Balanced fs [] → Balanced (fs.set a (bitfree fs.vol inum .imap) (fs.inode a)) []) := by
  have hbit := Fs.bitfree_imap fs.vol inum
  have hblk (o : Nat × Slot) (ho : fs.ref o ≠ 0) :
      (bitfree fs.vol inum .imap).blk (fs.ref o) = fs.vol.blk (fs.ref o) :=
    hbit.data (h.dataZone ho).1
  have hrefs (o : Nat × Slot) := Sound.ref_keep (a := a) hblk o
  have hused := hbit.used
  refine ⟨fun b => ⟨rfl, set_inode_keep, fun s => hrefs (b, s), fun s => hblk (b, s)⟩,
    ⟨?_, ?_, ?_⟩, fun hbal => ?_⟩
  · rw [funext hrefs, set_vol, hused]
    exact h.ledger
  · unfold Volume.Reserved
    rw [set_vol, hbit.zmap]
    exact h.reserved
  · rw [set_vol, hbit.sp]
    exact h.writable
  · unfold Balanced
    rw [funext hrefs, set_vol, hused]
    exact hbal

theorem ref_kill (o : Nat × Slot) :
    (fs.kill a).ref o = if o.1 = a then 0 else fs.ref o := by
  unfold Files.ref Files.kill
  by_cases ho : o.1 = a
  · rw [if_pos ho, ho]
    simp
  · rw [if_neg ho]
    simp [Function.update_of_ne ho]

theorem Sound.kill (h : Sound fs []) : Sound (fs.kill a) [] := by
  refine ⟨h.ledger.restrict fun o ho => ?_, h.reserved, h.writable⟩
  rw [ref_kill] at ho ⊢
  split at ho
  · exact absurd rfl ho
  · next hne => exact if_neg hne

-- ======== each call

/-- Whatever a call does, the ledger stays sound. -/
theorem Call.sound (h : Call ok a fs fs') (hs : Sound fs []) (ha : fs.live a = true) :
    Sound fs' [] := by
  cases h with
  | @write lost pos src w _ hw =>
    obtain ⟨w', hw', htrans⟩ := hs.doWrite ha src
    rw [hw'] at hw
    cases hw
    exact htrans.sound
  | truncate disk _ => exact (hs.truncate disk ha).1.sound
  | lastPut disk inum _ =>
    have htrunc := (hs.truncate disk ha).1.sound
    obtain ⟨-, hsound, -⟩ := htrunc.bitfree_imap (a := a) inum
    simp only [set_vol, set_inode_self, set_set] at hsound
    exact hsound.kill

theorem kept_kill (hb : b ≠ a) : Kept b fs (fs.kill a) :=
  ⟨Function.update_of_ne hb .., rfl, fun s => (ref_kill (b, s)).trans (if_neg hb), fun _ _ => rfl⟩

/-- A call for one file leaves the others alone. -/
theorem Call.kept (h : Call ok a fs fs') (hs : Sound fs []) (ha : fs.live a = true)
    (hb : b ≠ a) : Kept b fs fs' := by
  cases h with
  | @write lost pos src w _ hw =>
    obtain ⟨w', hw', htrans⟩ := hs.doWrite ha src
    rw [hw'] at hw
    cases hw
    exact htrans.apart.kept hb
  | truncate disk _ => exact (hs.truncate disk ha).1.toApart.kept hb
  | lastPut disk inum _ =>
    have htrunc := (hs.truncate disk ha).1
    obtain ⟨hsame, -, -⟩ := htrunc.sound.bitfree_imap (a := a) inum
    simp only [set_vol, set_inode_self, set_set] at hsame
    exact ((htrunc.toApart.kept hb).trans (hsame b)).trans (kept_kill hb)

-- ======== a fresh volume

/-- The super block of a volume with one block for each bitmap and `n`
data zones. -/
def freshSuper (n : Nat) (hlow : 0 < n) (hhigh : n < bitsPerBlock) : SuperBlock where
  ninodes := 1
  imblocks := 1
  zmblocks := 1
  zones := 4 + n
  fdzone := 4
  roflag := false
  layout := Nat.le_refl 4
  some_inode := Nat.one_pos
  some_zone := Nat.lt_add_of_pos_right hlow
  imap_covers := by decide
  zmap_covers := by omega
  zones_lt := by
    have hbits : bitsPerBlock = 8192 := rfl
    omega

/-- A volume none of whose zones is in use, with the empty file 0. -/
def fresh (n : Nat) (hlow : 0 < n) (hhigh : n < bitsPerBlock) : Files where
  vol := ⟨freshSuper n hlow hhigh, 1, 1, fun b => if b = 3 then setBit zeroBlock 0 else zeroBlock⟩
  inode := fun _ => ⟨0, fun _ => 0⟩
  live := fun b => b == 0

def oneZone : Files := fresh 1 (by decide) (by decide)

variable {n : Nat} {hlow : 0 < n} {hhigh : n < bitsPerBlock} {live : Nat → Bool}

/-- Nothing here depends on which files there are. -/
theorem fresh_ref (o : Nat × Slot) : { fresh n hlow hhigh with live := live }.ref o = 0 := by
  obtain ⟨b, s⟩ := o
  unfold Files.ref
  split
  · cases s with
    | direct i => exact ite_self 0
    | single | double => rfl
    | ind i | mid i => exact empty_zero i
    | leaf i j =>
      exact empty_zero j
  · rfl

theorem fresh_unused (z : Nat) : ¬ (fresh n hlow hhigh).vol.Used z := by
  rintro ⟨⟨hz, hz'⟩, hbit⟩
  change 4 ≤ z at hz
  change z < 4 + n at hz'
  have hsmall : z + 1 - 4 < bitsPerBlock := by omega
  change bitAt (if 3 + (z + 1 - 4) / bitsPerBlock = 3 then setBit zeroBlock 0 else zeroBlock)
    ((z + 1 - 4) % bitsPerBlock) = true at hbit
  rw [Nat.div_eq_of_lt hsmall, Nat.mod_eq_of_lt hsmall, if_pos rfl, bitAt_setBit] at hbit
  rw [decide_eq_false (by omega), Bool.false_or] at hbit
  unfold bitAt zeroBlock at hbit
  rw [word_zero, BitVec.ofNat_eq_ofNat, BitVec.getLsbD_zero] at hbit
  cases hbit

theorem fresh_sound : Sound { fresh n hlow hhigh with live := live } [] := by
  refine ⟨⟨fun _ ho => absurd (fresh_ref _) ho, fun ho => absurd (fresh_ref _) ho,
    nofun, nofun,
    List.not_mem_nil, List.nodup_nil⟩, ?_, rfl⟩
  show bitAt (setBit zeroBlock 0) 0 = true
  rfl

theorem fresh_balanced : Balanced { fresh n hlow hhigh with live := live } [] :=
  fun z hz => absurd hz (fresh_unused z)

end Cnix.Fs
