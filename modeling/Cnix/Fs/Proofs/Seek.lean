/-
Where an open file is read and written.

`f_pos` is a signed number of 32 bits. `do_lseek` means to refuse a sum
that wraps around, but takes one below zero, and a compiler that counts on
signed sums not to wrap drops the tests (`kept` is false then). `do_read` and `do_write` use the
remainder of `f_pos`, which has the sign of `f_pos`, as the index into
their first block; all other blocks are used from index 0 on. At a position
below zero they would leave the block and `i_zone`, so a run ends there.
-/
import Cnix.Fs.Proofs.Calls
import Cnix.Lib.Runs

namespace Cnix.Fs

open Lib

/-- A regular file, open once. -/
structure OpenFile where
  fpos : BitVec 32
  vol : Volume
  ino : Inode

/-- `fp->f_pos % BLOCKSIZ`. -/
def OpenFile.inblock (f : OpenFile) : Int := f.fpos.toInt.tmod blocksiz

/-- The calls on the file. -/
inductive FileCall
  | lseek (kept : Bool) (offset whence : BitVec 32)
  | read (count : Nat)
  | write (lost : Block) (src : List Byte)

/-- The size as an `off_t`. -/
def OpenFile.size (f : OpenFile) : BitVec 32 := BitVec.ofNat 32 f.ino.size

def FileCall.apply (f : OpenFile) : FileCall → Option OpenFile
  | .lseek kept offset whence =>
    match doLseek kept f.fpos f.size offset whence with
    | .error _ => some f
    | .ok pos => some { f with fpos := pos }
  | .read count =>
    if f.fpos.slt 0 then none
    else some { f with fpos := BitVec.ofNat 32 (doRead f.vol f.ino f.fpos.toNat count).2 }
  | .write lost src =>
    if f.fpos.slt 0 then none
    else
      match doWrite lost f.vol f.ino f.fpos.toNat src with
      | .error _ => none
      | .ok w => some ⟨BitVec.ofNat 32 w.pos, w.vol, w.ino⟩

/-- The file has just been opened. -/
def OpenFile.Opened (f : OpenFile) : Prop := f.fpos = 0 ∧ f.ino.size < 2 ^ 31

/-- No `lseek` asks for a position below zero, or for one beyond the numbers
of 32 bits that nothing refuses. -/
def FileCall.Forward (f : OpenFile) : FileCall → Prop
  | .lseek kept offset whence =>
    ∀ pos, seekBase f.fpos f.size whence = some pos →
      0 ≤ pos.toInt + offset.toInt ∧ (kept = true ∨ pos.toInt + offset.toInt < 2 ^ 31)
  | _ => True

/-- The runs of calls that meet a condition. -/
abbrev SeekRun (ok : OpenFile → FileCall → Prop) : OpenFile → Prop :=
  Reached OpenFile.Opened FileCall.apply ok

/-- An empty file. -/
def emptyFile (fpos : BitVec 32) : OpenFile :=
  ⟨fpos, oneZone.vol, ⟨0, fun _ => 0⟩⟩

variable {vol : Volume} {ino : Inode} {lost : Block} {n : Nat}

-- ======== how far it gets

theorem readLoop_within : ∀ {rounds pos count : Nat}, pos ≤ n → ino.size ≤ n →
    pos + (readLoop vol ino rounds pos count).length ≤ n := by
  intro rounds
  induction rounds with
  | zero => intro pos count hpos _; exact hpos
  | succ rounds ih =>
    intro pos count hpos hsize
    rw [readLoop]
    generalize hreading : min (min (chunkLen pos) count) (ino.size - pos) = reading
    split
    · exact hpos
    · have hlen : (readBlock vol ino pos reading).length = reading := by
        unfold readBlock memread
        split <;> simp
      have hrest : pos + reading + (readLoop vol ino rounds (pos + reading) (count - reading)).length
          ≤ n := ih (by omega) hsize
      rw [List.length_append, hlen]
      omega

theorem minode_size {pos data : Nat} {r : Bool × Volume × Inode}
    (h : minode vol ino pos data = .ok r) : r.2.2.size = ino.size := by
  unfold minode minodeDouble at h
  dsimp only at h
  split at h
  · cases h
    rfl
  · split at h
    · split at h <;> cases h <;> rfl
    · split at h
      · cases h
        rfl
      · split at h
        · cases h
          rfl
        · split at h <;> split at h <;> cases h <;> rfl

/-- One round of `do_write`. -/
theorem writeBlock_size {pos : Nat} {src : List Byte} {r : Changed}
    (h : writeBlock lost vol ino pos src = .ok r) :
    r.ino.size ≤ max ino.size (pos + src.length) := by
  unfold writeBlock at h
  split at h
  · split at h
    · cases h
      exact Nat.le_max_left ..
    · split at h
      · cases h
      · next hm =>
        cases h
        exact Nat.le_trans (Nat.le_of_eq (minode_size hm)) (Nat.le_max_left ..)
      · next hm =>
        cases h
        exact Nat.le_of_eq (congrArg (max · _) (minode_size hm))
  · cases h
    exact Nat.le_refl _

/-- A write ends within the largest file or where it began. -/
theorem writeLoop_within {fpos : Nat} (hmax : filesizeMax ≤ n) (hfpos : fpos ≤ n) :
    ∀ {rounds : Nat} {vol : Volume} {ino : Inode} {pos : Nat} {src : List Byte} {w : Written},
      pos ≤ n → ino.size ≤ n → writeLoop lost fpos rounds vol ino pos src = .ok w →
      w.pos ≤ n ∧ w.ino.size ≤ n := by
  intro rounds
  induction rounds with
  | zero =>
    intro vol ino pos src w hpos hsize h
    cases h
    exact ⟨hpos, hsize⟩
  | succ rounds ih =>
    intro vol ino pos src w hpos hsize h
    rw [writeLoop] at h
    split at h
    · cases h
      exact ⟨hpos, hsize⟩
    · split at h
      · cases h
        exact ⟨hfpos, hsize⟩
      · next hroom =>
        have hchunk := chunk_le_filesizeMax (Nat.lt_of_not_le hroom)
        have htake : (src.take (chunkLen pos)).length ≤ chunkLen pos :=
          List.length_take_le ..
        dsimp only at h
        split at h
        · cases h
        · next hb =>
          cases h
          have hblock := writeBlock_size hb
          exact ⟨hpos, by dsimp only at hblock ⊢; omega⟩
        · next hb =>
          have hblock := writeBlock_size hb
          exact ih (by omega) (by dsimp only at hblock; omega) h

-- ======== positions

theorem toInt_nonneg {x : BitVec 32} : 0 ≤ x.toInt ↔ x.toNat < 2 ^ 31 := by
  rw [BitVec.toInt_eq_toNat_cond]
  split <;> omega

theorem toNat_ofNat_small {k : Nat} (hk : k < 2 ^ 31) : (BitVec.ofNat 32 k).toNat = k := by
  rw [BitVec.toNat_ofNat, Nat.mod_eq_of_lt (by omega)]

/-- What `do_lseek` takes is not negative, unless that was asked for. -/
theorem doLseek_nonneg {kept : Bool} {fpos size offset whence pos' : BitVec 32}
    (hask : ∀ pos, seekBase fpos size whence = some pos →
      0 ≤ pos.toInt + offset.toInt ∧ (kept = true ∨ pos.toInt + offset.toInt < 2 ^ 31))
    (h : doLseek kept fpos size offset whence = .ok pos') : pos'.toNat < 2 ^ 31 := by
  unfold doLseek at h
  split at h
  · cases h
  next pos hbase =>
  obtain ⟨hsum, hfits⟩ := hask pos hbase
  split at h
  · cases h
  split at h
  · cases h
  next hover =>
  cases h
  rw [BitVec.slt_iff_toInt_lt, BitVec.slt_iff_toInt_lt] at hover
  have hzero : (0 : BitVec 32).toNat = 0 := rfl
  simp only [BitVec.toInt_eq_toNat_cond, BitVec.toNat_add, hzero] at hsum hfits hover ⊢
  cases kept with
  | true =>
    have hover : ¬ (_ ∧ _) := fun h => hover ⟨rfl, h⟩
    omega
  | false =>
    have hfits := hfits.resolve_left Bool.noConfusion
    omega

/-- The position and the size fit in an `off_t`. -/
def OpenFile.Valid (f : OpenFile) : Prop := f.fpos.toNat < 2 ^ 31 ∧ f.ino.size < 2 ^ 31

theorem valid_step {f f' : OpenFile} {e : FileCall} (h : f.Valid) (hok : e.Forward f)
    (hs : e.apply f = some f') : f'.Valid := by
  obtain ⟨hpos, hsize⟩ := h
  have hmax : filesizeMax ≤ 2 ^ 31 - 1 := by decide
  cases e with
  | lseek kept offset whence =>
    rw [FileCall.apply] at hs
    split at hs
    · cases hs
      exact ⟨hpos, hsize⟩
    · next pos hseek =>
      cases hs
      exact ⟨doLseek_nonneg hok hseek, hsize⟩
  | read count =>
    rw [FileCall.apply] at hs
    split at hs
    · cases hs
    cases hs
    have hend : (doRead f.vol f.ino f.fpos.toNat count).2 ≤ 2 ^ 31 - 1 :=
      readLoop_within (by omega) (by omega)
    exact ⟨by rw [toNat_ofNat_small (by omega)]; omega, hsize⟩
  | write lost src =>
    rw [FileCall.apply] at hs
    split at hs
    · cases hs
    split at hs
    · cases hs
    next w hw =>
    cases hs
    obtain ⟨hend, hgrown⟩ :=
      writeLoop_within hmax (show f.fpos.toNat ≤ _ by omega) (by omega) (by omega) hw
    exact ⟨by rw [toNat_ofNat_small (by omega)]; omega, by dsimp only; omega⟩

/-- In every run whose `lseek`s ask for positions from zero to the largest
that is not refused, `f_pos` is not negative and the index into a block lies in the block. An `lseek`
that fails leaves the file as it was. -/
theorem position_valid {f : OpenFile} (h : SeekRun FileCall.Forward f) :
    0 ≤ f.fpos.toInt ∧ 0 ≤ f.inblock ∧ f.inblock < blocksiz
      ∧ ∀ kept offset whence e, doLseek kept f.fpos f.size offset whence = .error e →
        (FileCall.lseek kept offset whence).apply f = some f := by
  have hvalid : f.Valid := by
    refine Reached.inv (fun f hf => ?_) (fun f e f' hi hok hs => valid_step hi hok hs) h
    obtain ⟨hzero, hsize⟩ := hf
    exact ⟨by rw [hzero]; decide, hsize⟩
  have hpos := toInt_nonneg.mpr hvalid.1
  have hblock : (0 : Int) < blocksiz := by decide
  refine ⟨hpos, Int.tmod_nonneg _ hpos, Int.tmod_lt_of_pos _ hblock, fun kept offset whence e he => ?_⟩
  rw [FileCall.apply, he]

/-- To the largest position, then back from there. -/
theorem position_valid_back :
    ∃ f : OpenFile, f.fpos = 2147480000 ∧ 0 ≤ f.inblock ∧ f.inblock < blocksiz := by
  have hopen : SeekRun FileCall.Forward (emptyFile 0) := .first ⟨rfl, by decide⟩
  have hset : SeekRun FileCall.Forward (emptyFile 2147483647) :=
    .step (.lseek false 2147483647 0) hopen (fun pos hpos => by cases hpos; decide) rfl
  have hcur : SeekRun FileCall.Forward (emptyFile 2147480000) :=
    .step (.lseek false (-3647) 1) hset (fun pos hpos => by cases hpos; decide) rfl
  obtain ⟨-, hlow, hhigh, -⟩ := position_valid hcur
  exact ⟨_, rfl, hlow, hhigh⟩

/-- `lseek(fd, -5, SEEK_SET)` succeeds. -/
theorem position_negative : ∃ f, SeekRun (fun _ _ => True) f ∧ f.fpos.toInt = -5 ∧ f.inblock = -5 :=
  ⟨emptyFile (-5), .step (.lseek true (-5) 0) (.first (s := emptyFile 0) ⟨rfl, by decide⟩) trivial rfl,
    by decide, by decide⟩

end Cnix.Fs
