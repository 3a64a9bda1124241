/-
A regular file is an array of bytes.

The run of a file starts from any file whose slots are in order. It
goes on with the calls for this file, and between them with any calls
for the other files of the volume. The abstract array is changed by the
calls as an array is: a write puts its bytes where the position is, a
truncation empties it, and nothing else changes it. In every state of
the run the file stands for this array (`FileRun.inv`), so `do_read`
returns its bytes (`file_refines_array`).
-/
import Cnix.Fs.Proofs.Calls

namespace Cnix.Fs

open Lib

variable {fs fs' : Files} {a b pos : Nat} {f : Sparse Byte}

/-- A file whose slots are in order, and that is blank beyond its end. -/
structure Regular (fs : Files) (a : Nat) : Prop where
  sound : Sound fs []
  live : fs.live a = true
  tidy : fs.Tidy a
  bounded : (fs.inode a).size ≤ filesizeMax
  blank : (fs.array a).Blank

/-- The runs of file `a`: the files of the volume, `f_pos`, and the array.
The writes return their full count. -/
inductive FileRun (a : Nat) : Files → Nat → Sparse Byte → Prop
  | start {fs : Files} {pos : Nat} (h : Regular fs a) (hpos : pos < filesizeMax) :
      FileRun a fs pos (fs.array a)
  | write {fs : Files} {pos : Nat} {f : Sparse Byte} {lost : Block} {src : List Byte}
      {w : Written} (hrun : FileRun a fs pos f)
      (hw : doWrite lost fs.vol (fs.inode a) pos src = .ok w)
      (hret : w.ret = .ok src.length) :
      FileRun a (fs.set a w.vol w.ino) w.pos (f.write pos src)
  | read {fs : Files} {pos : Nat} {f : Sparse Byte} (hrun : FileRun a fs pos f) (count : Nat) :
      FileRun a fs (doRead fs.vol (fs.inode a) pos count).2 f
  | lseek {fs : Files} {pos p : Nat} {f : Sparse Byte} (hrun : FileRun a fs pos f)
      (hp : p < filesizeMax) : FileRun a fs p f
  | truncate {fs : Files} {pos : Nat} {f : Sparse Byte} (hrun : FileRun a fs pos f)
      (disk : Nat → Block) :
      FileRun a (fs.set a (truncate disk fs.vol (fs.inode a)).1
        (truncate disk fs.vol (fs.inode a)).2) pos Sparse.empty
  | other {fs fs' : Files} {pos b : Nat} {f : Sparse Byte} (hrun : FileRun a fs pos f)
      (hb : b ≠ a) (hlive : fs.live b = true) (hcall : Call (fun _ _ _ => True) b fs fs') :
      FileRun a fs' pos f

/-- What holds in every state of a run. -/
structure FileInv (a : Nat) (fs : Files) (pos : Nat) (f : Sparse Byte) : Prop
    extends Regular fs a where
  array : fs.array a = f
  pos_le : pos ≤ filesizeMax

-- ======== the steps

theorem FileInv.write {lost : Block} {src : List Byte} {w : Written} (h : FileInv a fs pos f)
    (hw : doWrite lost fs.vol (fs.inode a) pos src = .ok w) (hret : w.ret = .ok src.length) :
    FileInv a (fs.set a w.vol w.ino) w.pos (f.write pos src) := by
  obtain ⟨w', hw', htrans⟩ := h.sound.doWrite h.live src
  rw [hw'] at hw
  cases hw
  obtain ⟨-, -, harray, htidy⟩ := htrans.full _ hret
  obtain ⟨hsize, hpos⟩ := htrans.bounded h.pos_le h.pos_le h.bounded
  refine ⟨⟨htrans.sound, h.live, htidy h.tidy, hsize, ?_⟩, ?_, hpos⟩
  · rw [harray]
    exact h.blank.write pos src
  · rw [harray, h.array]

/-- A file without zones and without a size is the empty array. -/
theorem array_empty (hsize : (fs.inode a).size = 0) (hrefs : ∀ s, fs.ref (a, s) = 0) :
    fs.array a = Sparse.empty := by
  unfold Files.array Sparse.empty
  congr 1
  funext x
  unfold Files.content
  rw [hrefs, if_pos rfl]
  rfl

theorem FileInv.truncate (h : FileInv a fs pos f) (disk : Nat → Block) :
    FileInv a (fs.set a (Fs.truncate disk fs.vol (fs.inode a)).1
      (Fs.truncate disk fs.vol (fs.inode a)).2) pos Sparse.empty := by
  obtain ⟨hshrunk, hsize⟩ := h.sound.truncate disk h.live
  have hrefs := h.sound.truncate_tidy disk h.live h.tidy
  have harray : (fs.set a (Fs.truncate disk fs.vol (fs.inode a)).1
      (Fs.truncate disk fs.vol (fs.inode a)).2).array a = Sparse.empty := by
    refine array_empty ?_ hrefs
    rw [set_inode_self]
    exact hsize
  refine ⟨⟨hshrunk.sound, h.live, fun s _ hne => absurd (hrefs s) hne, ?_, ?_⟩, harray,
    h.pos_le⟩
  · rw [set_inode_self, hsize]
    exact Nat.zero_le _
  · rw [harray]
    exact Sparse.blank_empty

theorem FileInv.other (h : FileInv a fs pos f) (hb : b ≠ a) (hlive : fs.live b = true)
    (hcall : Call (fun _ _ _ => True) b fs fs') : FileInv a fs' pos f := by
  have hsame := hcall.kept h.sound hlive (Ne.symm hb)
  refine ⟨⟨hcall.sound h.sound hlive, hsame.live.trans h.live, fun s hs hne => ?_, ?_, ?_⟩,
    hsame.array.trans h.array, h.pos_le⟩
  · rw [hsame.ref] at hne
    rw [hsame.inode]
    exact h.tidy s hs hne
  · rw [hsame.inode]
    exact h.bounded
  · rw [hsame.array]
    exact h.blank

theorem FileInv.read (h : FileInv a fs pos f) (count : Nat) : doRead fs.vol (fs.inode a) pos count
      = (f.read pos count, pos + (f.read pos count).length) := by
  rw [doRead_eq h.live h.bounded, h.array]

/-- A read that starts within the largest file ends within it. -/
theorem FileInv.read_pos (h : FileInv a fs pos f) (count : Nat) :
    pos + (f.read pos count).length ≤ filesizeMax := by
  have hsize : f.size ≤ filesizeMax := by
    rw [← h.array]
    exact h.bounded
  have hpos := h.pos_le
  rw [Sparse.length_read]
  omega

-- ======== the runs

theorem FileRun.inv (h : FileRun a fs pos f) : FileInv a fs pos f := by
  induction h with
  | start h hpos => exact ⟨h, rfl, Nat.le_of_lt hpos⟩
  | write _ hw hret ih => exact ih.write hw hret
  | @read fs pos f _ count ih =>
    refine ⟨ih.toRegular, ih.array, ?_⟩
    rw [ih.read]
    exact ih.read_pos count
  | lseek _ hp ih => exact ⟨ih.toRegular, ih.array, Nat.le_of_lt hp⟩
  | truncate _ disk ih => exact ih.truncate disk
  | other _ hb hlive hcall ih => exact ih.other hb hlive hcall

/-- In every state of a run, `do_read` returns the bytes of the array from
`f_pos` on, up to its count or the end of the file, and moves `f_pos` by
their number. `do_write` comes to an end, and if it returns a count, this
is the full one and `f_pos` moves by it. The size is that of the array,
beyond which there are only zeros. -/
theorem file_refines_array (h : FileRun a fs pos f) : (∀ count, doRead fs.vol (fs.inode a) pos count
        = (f.read pos count, pos + (f.read pos count).length))
      ∧ (∀ lost src, ∃ w, doWrite lost fs.vol (fs.inode a) pos src = .ok w
        ∧ ∀ n, w.ret = .ok n → n = src.length ∧ w.pos = pos + n)
      ∧ (fs.inode a).size = f.size ∧ ∀ x, f.size ≤ x → f.cell x = 0 := by
  have hinv := h.inv
  refine ⟨hinv.read, fun lost src => ?_, ?_, ?_⟩
  · obtain ⟨w, hw, htrans⟩ := hinv.sound.doWrite hinv.live src
    refine ⟨w, hw, fun n hn => ?_⟩
    obtain ⟨hret, hp, -, -⟩ := htrans.full n hn
    rw [Nat.add_sub_cancel_left] at hret
    rw [hret]
    exact ⟨rfl, hp⟩
  · rw [← hinv.array]
    rfl
  · rw [← hinv.array]
    exact hinv.blank

theorem fresh_regular {n : Nat} {hlow : 0 < n} {hhigh : n < bitsPerBlock} :
    Regular (fresh n hlow hhigh) 0 where
  sound := fresh_sound
  live := rfl
  tidy := fun s _ hne => absurd (fresh_ref (0, s)) hne
  bounded := Nat.zero_le _
  blank := by
    rw [array_empty rfl fun s => fresh_ref (0, s)]
    exact Sparse.blank_empty

/-- A byte behind a hole: written, found again, and read with the zeros
before it. -/
theorem fresh_file_refines_array : ∃ fs f, FileRun 0 fs 1022 f
    ∧ doRead fs.vol (fs.inode 0) 1022 4 = ([0, 0, 0, 7], 1026) := by
  have hstart : FileRun 0 (fresh 9 (by decide) (by decide)) 1025 _ :=
    FileRun.start fresh_regular (by decide)
  have hwrite := hstart.write (w := ⟨.ok 1, 1026, _, _⟩)
    (show doWrite zeroBlock _ _ 1025 [7] = _ from rfl) rfl
  have hrun := hwrite.lseek (p := 1022) (by decide)
  refine ⟨_, _, hrun, ((file_refines_array hrun).1 4).trans ?_⟩
  rfl

end Cnix.Fs
