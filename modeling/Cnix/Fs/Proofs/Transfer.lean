/-
`do_write` and `do_read` as a whole.

A file is an array of bytes that its slots and blocks stand for
(`Files.array`). A round of `do_write` writes its bytes into this array,
and so do all rounds together, if none fails (`Sound.doWrite`);
`do_read` reads this array (`doRead_eq`).

A file is tidy when `truncate` goes far enough for every zone it holds.
A write that succeeds keeps a file tidy. One that fails may leave the
double indirect zone behind in a file that ends where this zone starts.
-/
import Cnix.Fs.Proofs.Growth
import Cnix.Lib.Sparse

namespace Cnix.Fs

open Lib

variable {fs fs' : Files} {a b pos n fpos : Nat} {s t : Slot} {src : List Byte} {lost : Block}

/-- The array that the file stands for. -/
def Files.array (fs : Files) (a : Nat) : Sparse Byte :=
  ⟨(fs.inode a).size, fun x => fs.content a (slotOf (x / blocksiz)) (x % blocksiz)⟩

-- ======== other positions

theorem content_congr (href : fs'.ref (b, s) = fs.ref (b, s))
    (hblk : fs.ref (b, s) ≠ 0 → fs'.vol.blk (fs.ref (b, s)) = fs.vol.blk (fs.ref (b, s))) :
    fs'.content b s = fs.content b s := by
  unfold Files.content
  rw [href]
  split
  · rfl
  · next hne => exact hblk hne

theorem Kept.content (h : Kept b fs fs') (s : Slot) : fs'.content b s = fs.content b s :=
  content_congr (h.ref s) (h.bytes s)

/-- A file that is as it was stands for what it stood for. -/
theorem Kept.array (h : Kept b fs fs') : fs'.array b = fs.array b := by
  unfold Files.array
  rw [h.inode]
  congr 1
  funext x
  rw [h.content]

/-- A round that succeeds writes its bytes into the array. -/
theorem BlockWritten.array (h : BlockWritten a pos src fs true fs') (hsrc : src ≠ [])
    (hfit : pos % blocksiz + src.length ≤ blocksiz) : fs'.array a = (fs.array a).write pos src := by
  obtain ⟨-, hcontent, hsize⟩ := h.filled rfl
  have hpos := Nat.div_add_mod pos blocksiz
  unfold Files.array Sparse.write
  rw [if_neg hsrc, hsize]
  congr 1
  funext x
  have hx := Nat.div_add_mod x blocksiz
  by_cases hblock : x / blocksiz = pos / blocksiz
  · rw [hblock, hcontent]
    rw [hblock] at hx
    unfold memcpy
    have hsame : pos % blocksiz ≤ x % blocksiz ∧ x % blocksiz < pos % blocksiz + src.length
        ↔ pos ≤ x ∧ x < pos + src.length := by omega
    by_cases hin : pos ≤ x ∧ x < pos + src.length
    · rw [if_pos (hsame.mpr hin), if_pos hin]
      congr 1
      omega
    · rw [if_neg (fun hin' => hin (hsame.mp hin')), if_neg hin]
      show _ = fs.content a (slotOf (x / blocksiz)) (x % blocksiz)
      rw [hblock]
  · have hslot : slotOf (x / blocksiz) ≠ slotOf (pos / blocksiz) :=
      fun he => hblock (slotOf_inj he)
    have hout : ¬ (pos ≤ x ∧ x < pos + src.length) := by
      rintro ⟨hlow, hhigh⟩
      apply hblock
      apply Nat.div_eq_of_lt_le
      · rw [Nat.mul_comm]
        omega
      · rw [Nat.mul_comm, Nat.mul_succ]
        omega
    rw [if_neg hout, content_congr (h.grown.data (slotOf_data _) hslot)
      (h.grown.own _ (slotOf_data _) hslot)]

-- ======== tidy

/-- The size that a file must exceed for `truncate` to get to the slot. -/
def Slot.floor : Slot → Nat
  | .direct _ => 0
  | .single | .ind _ => nrDzones * blocksiz
  | .double | .mid _ | .leaf _ _ => (nrDzones + nrIndirects) * blocksiz

/-- `truncate` gets to every zone of the file, apart from those in the
slots `except`. -/
def Files.TidyBut (fs : Files) (a : Nat) (except : Slot → Prop) : Prop :=
  ∀ s, ¬ except s → fs.ref (a, s) ≠ 0 → s.floor < (fs.inode a).size

/-- `truncate` gets to every zone of the file. -/
def Files.Tidy (fs : Files) (a : Nat) : Prop := fs.TidyBut a fun _ => False

theorem floor_path (h : s ∈ t.path) : s.floor = t.floor := by
  cases t with
  | ind i =>
    rcases List.mem_cons.mp h with rfl | h
    · rfl
    · rw [List.mem_singleton.mp h]
  | leaf i j =>
    rcases List.mem_cons.mp h with rfl | h
    · rfl
    · rcases List.mem_cons.mp h with rfl | h
      · rfl
      · rw [List.mem_singleton.mp h]
  | direct i | single | double | mid i => rw [List.mem_singleton.mp h]

theorem floor_slotOf (pos : Nat) : (slotOf (pos / blocksiz)).floor ≤ pos := by
  have hbs : blocksiz = 1024 := rfl
  unfold slotOf
  split
  · exact Nat.zero_le _
  · split
    · show nrDzones * blocksiz ≤ pos
      rw [hbs] at *
      omega
    · show (nrDzones + nrIndirects) * blocksiz ≤ pos
      rw [hbs] at *
      omega

/-- A round that succeeds ends behind the floor of every slot it sets. -/
theorem BlockWritten.tidy {except : Slot → Prop} (h : BlockWritten a pos src fs true fs')
    (hsrc : src ≠ []) (htidy : fs.TidyBut a except) : fs'.TidyBut a except := by
  obtain ⟨-, -, hsize⟩ := h.filled rfl
  have hlen := List.length_pos_iff.mpr hsrc
  intro s hs hne
  by_cases hsame : fs'.ref (a, s) = fs.ref (a, s)
  · have hold := htidy s hs (hsame ▸ hne)
    omega
  · have hfloor := floor_path (h.grown.path s hsame)
    have hle := floor_slotOf pos
    omega

/-- A round that fails may leave the double indirect zone. -/
theorem BlockWritten.tidy_failed (h : BlockWritten a pos src fs false fs')
    (htidy : fs.TidyBut a (· = .double)) : fs'.TidyBut a (· = .double) := by
  obtain ⟨hrefs, hsize⟩ := h.failed rfl
  intro s hs hne
  rw [hrefs s hs] at hne
  rw [hsize]
  exact htidy s hs hne

-- ======== enough zones

/-- The number of blocks that `n` bytes from `pos` on lie in. -/
def touched (pos n : Nat) : Nat :=
  if n = 0 then 0 else (pos + n - 1) / blocksiz - pos / blocksiz + 1

/-- The volume does not lose its last zone to a write of `n` bytes at
`pos`: this zone is in use, or the write needs no indirect zone, or there
are zones for all it may need. -/
def Files.SafeWrite (fs : Files) (a pos n : Nat) : Prop :=
  fs.vol.Used (fs.vol.sp.zones - 1)
    ∨ (∀ x, pos ≤ x → x < pos + n → fs.Paved a (slotOf (x / blocksiz)))
    ∨ 3 * touched pos n ≤ fs.vol.freeZones.card

theorem Files.SafeWrite.head (h : fs.SafeWrite a pos n) (hn : 0 < n) :
    fs.Safe a (slotOf (pos / blocksiz)) := by
  rcases h with hused | hpaved | hcard
  · exact .inl hused
  · exact .inr (.inl (hpaved pos (Nat.le_refl _) (by omega)))
  · unfold touched at hcard
    rw [if_neg (by omega)] at hcard
    exact .inr (.inr (by omega))

theorem Grown.paved (h : Grown a t fs fs') {u : Slot} (hp : fs.Paved a u) : fs'.Paved a u := by
  cases u with
  | ind i =>
    show fs'.ref _ ≠ 0
    rw [h.kept _ hp]
    exact hp
  | leaf i j =>
    show fs'.ref _ ≠ 0 ∧ fs'.ref _ ≠ 0
    rw [h.kept _ hp.1, h.kept _ hp.2]
    exact hp
  | direct i | single | double | mid i => trivial

theorem Grown.ref_kept (h : Grown a t fs fs') {o : Nat × Slot} (ho : fs.ref o ≠ 0) :
    fs'.ref o = fs.ref o := by
  obtain ⟨b, s⟩ := o
  by_cases hb : b = a
  · rw [hb] at ho ⊢
    exact h.kept s ho
  · exact h.ref b hb s

/-- A zone in use stays in use while a file grows. -/
theorem Grown.used (h : Grown a t fs fs') (hsound : Sound fs' []) (hbal : Balanced fs [])
    {z : Nat} (hz : fs.vol.Used z) : fs'.vol.Used z := by
  rcases hbal z hz with hmem | ⟨o, ho⟩
  · cases hmem
  have hne : fs.ref o ≠ 0 := by
    rw [ho]
    rintro rfl
    exact not_used_zero hz
  have hsame := h.ref_kept hne
  have hheld := hsound.ledger.held (hsame ▸ hne)
  rw [hsame, ho] at hheld
  exact hheld

theorem length_path (t : Slot) : t.path.length ≤ 3 := by
  cases t with
  | leaf i j => exact Nat.le_refl 3
  | ind i => exact Nat.le_succ 2
  | direct i | single | double | mid i => exact Nat.le_of_ble_eq_true rfl

/-- A file takes at most three zones on the way to one slot. -/
theorem Grown.card_freeZones (h : Grown a t fs fs') (hsound : Sound fs [])
    (hbal' : Balanced fs' []) : fs.vol.freeZones.card ≤ fs'.vol.freeZones.card + 3 := by
  have hsub : fs.vol.freeZones
      ⊆ fs'.vol.freeZones ∪ (t.path.map fun s => fs'.ref (a, s)).toFinset := by
    intro z hz
    rw [mem_freeZones] at hz
    rw [Finset.mem_union, mem_freeZones, h.sp]
    by_cases hused : fs'.vol.Used z
    · right
      rcases hbal' z hused with hmem | ⟨⟨b, s⟩, ho⟩
      · cases hmem
      have hnew : fs'.ref (b, s) ≠ fs.ref (b, s) := by
        intro he
        have hne : fs.ref (b, s) ≠ 0 := by
          rw [← he, ho]
          rintro rfl
          exact not_used_zero hused
        have hheld := hsound.ledger.held hne
        rw [← he, ho] at hheld
        exact hz.2 hheld
      by_cases hb : b = a
      · subst hb
        rw [List.mem_toFinset, List.mem_map]
        exact ⟨s, h.path s hnew, ho⟩
      · exact absurd (h.ref b hb s) hnew
    · exact .inl ⟨hz.1, hused⟩
  have hle := (Finset.card_le_card hsub).trans (Finset.card_union_le ..)
  have hlist := List.toFinset_card_le (t.path.map fun s => fs'.ref (a, s))
  rw [List.length_map] at hlist
  have hpath := length_path t
  omega

/-- The rest of a safe write is safe. -/
theorem Files.SafeWrite.tail {k : Nat} (h : fs.SafeWrite a pos n)
    (hgrown : Grown a t fs fs') (hsound : Sound fs []) (hsound' : Sound fs' [])
    (hbal : Balanced fs []) (hbal' : Balanced fs' []) (hk : k = min (chunkLen pos) n) :
    fs'.SafeWrite a (pos + k) (n - k) := by
  rcases h with hused | hpaved | hcard
  · refine .inl ?_
    rw [hgrown.sp]
    exact hgrown.used hsound' hbal hused
  · refine .inr (.inl fun x hlow hhigh => hgrown.paved (hpaved x (by omega) (by omega)))
  · have hthree := hgrown.card_freeZones hsound hbal'
    have htouched : touched (pos + k) (n - k) = 0
        ∨ touched (pos + k) (n - k) + 1 ≤ touched pos n := by
      have hbs : blocksiz = 1024 := rfl
      unfold chunkLen at hk
      unfold touched
      rw [hbs] at hk ⊢
      by_cases hn : n - k = 0
      · exact .inl (if_pos hn)
      · rw [if_neg hn, if_neg (by omega)]
        omega
    refine .inr (.inr ?_)
    omega

-- ======== all the rounds

/-- Only the size of the file is set. -/
theorem Sound.resize {pend : List Nat} (h : Sound fs pend) :
    Apart a fs (fs.set a fs.vol { fs.inode a with size := n })
      ∧ Sound (fs.set a fs.vol { fs.inode a with size := n }) pend
      ∧ (Balanced fs pend → Balanced (fs.set a fs.vol { fs.inode a with size := n }) pend)
      ∧ ∀ o, (fs.set a fs.vol { fs.inode a with size := n }).ref o = fs.ref o := by
  have hrefs (o : Nat × Slot) :
      (fs.set a fs.vol { fs.inode a with size := n }).ref o = fs.ref o := by
    rw [ref_size, set_self]
  refine ⟨Sound.apart rfl (fun _ _ => rfl) fun _ _ _ _ => rfl, ⟨?_, h.reserved, h.writable⟩, fun hbal => ?_,
    hrefs⟩
  · rw [funext hrefs]
    exact h.ledger
  · unfold Balanced
    rw [funext hrefs]
    exact hbal

/-- What the rounds of `do_write` from `pos` on owe. -/
structure Transferred (a fpos pos : Nat) (src : List Byte) (fs : Files) (w : Written)
    (fs' : Files) : Prop where
  apart : Apart a fs fs'
  sound : Sound fs' []
  full : ∀ n, w.ret = .ok n → n = pos + src.length - fpos ∧ w.pos = pos + src.length
    ∧ fs'.array a = (fs.array a).write pos src ∧ (fs.Tidy a → fs'.Tidy a)
  tidy : fs.TidyBut a (· = .double) → fs'.TidyBut a (· = .double)
  balanced : fs.SafeWrite a pos src.length → Balanced fs [] → Balanced fs' []
  bounded : pos ≤ filesizeMax → fpos ≤ filesizeMax → (fs.inode a).size ≤ filesizeMax →
    (fs'.inode a).size ≤ filesizeMax ∧ w.pos ≤ filesizeMax

/-- There is nothing left to write. -/
theorem Sound.transferred_nil (h : Sound fs []) :
    Transferred a fpos pos [] fs ⟨.ok (pos - fpos), pos, fs.vol, fs.inode a⟩ fs := by
  refine ⟨Apart.refl, h, fun n hn => ?_, id, fun _ => id, fun hpos _ hsize => ⟨hsize, hpos⟩⟩
  cases hn
  exact ⟨rfl, rfl, rfl, id⟩

/-- A block of the largest file ends within it. -/
theorem chunk_le_filesizeMax (hpos : pos < filesizeMax) : pos + chunkLen pos ≤ filesizeMax := by
  have hmax : filesizeMax = blocksiz * maxBlocks := rfl
  have hdiv := Nat.div_add_mod pos blocksiz
  have hblock := Nat.mul_le_mul_left blocksiz (div_lt_maxBlocks hpos)
  unfold chunkLen
  rw [Nat.mul_succ] at hblock
  omega

theorem chunk_fits (pos : Nat) (src : List Byte) :
    pos % blocksiz + (src.take (chunkLen pos)).length ≤ blocksiz := by
  have hlt := Nat.mod_lt pos (show 0 < blocksiz by decide)
  rw [List.length_take]
  unfold chunkLen
  omega

theorem chunkLen_pos (pos : Nat) : 0 < chunkLen pos :=
  Nat.sub_pos_of_lt (Nat.mod_lt pos (by decide))

/-- Each round writes something. -/
theorem chunk_ne_nil (pos : Nat) (hsrc : src ≠ []) : src.take (chunkLen pos) ≠ [] := by
  have hchunk := chunkLen_pos pos
  have hlen := List.length_pos_iff.mpr hsrc
  rw [← List.length_pos_iff, List.length_take]
  omega

/-- One round and the others. -/
theorem Transferred.step {fs1 : Files} {w : Written} (h : Sound fs [])
    (hpos : pos < filesizeMax) (hsrc : src ≠ [])
    (hnow : BlockWritten a pos (src.take (chunkLen pos)) fs true fs1)
    (hrest : Transferred a fpos (pos + (src.take (chunkLen pos)).length)
      (src.drop (chunkLen pos)) fs1 w fs') : Transferred a fpos pos src fs w fs' := by
  have hlen := List.length_pos_iff.mpr hsrc
  have htake : (src.take (chunkLen pos)).length = min (chunkLen pos) src.length :=
    List.length_take ..
  have hne := chunk_ne_nil pos hsrc
  refine ⟨hnow.grown.toApart.trans hrest.apart, hrest.sound, fun n hn => ?_,
    fun htidy => hrest.tidy (hnow.tidy hne htidy), fun hsafe hbal => ?_,
    fun _ hfpos hsize => ?_⟩
  · obtain ⟨hret, hp, harray, htidy⟩ := hrest.full n hn
    rw [List.length_drop] at hret hp
    refine ⟨by omega, by omega, ?_, fun ht => htidy (hnow.tidy hne ht)⟩
    rw [harray, hnow.array hne (chunk_fits pos src), ← Sparse.write_append,
      List.take_append_drop]
  · have hbal1 := hnow.balanced (hsafe.head hlen) hbal
    refine hrest.balanced ?_ hbal1
    have htail := hsafe.tail hnow.grown h hnow.sound hbal hbal1 htake
    rw [List.length_drop]
    rw [htake] at htail ⊢
    rw [show src.length - chunkLen pos = src.length - min (chunkLen pos) src.length by omega]
    exact htail
  · have hle := chunk_le_filesizeMax hpos
    obtain ⟨-, -, hsize1⟩ := hnow.filled rfl
    refine hrest.bounded (by omega) hfpos ?_
    omega

/-- A round that fails ends the write. -/
theorem Sound.transferred_eio {vol : Volume} {ino : Inode} (hpos : pos < filesizeMax)
    (hnow : BlockWritten a pos (src.take (chunkLen pos)) fs false (fs.set a vol ino)) (hsrc : src ≠ []) :
    Transferred a fpos pos src fs ⟨.error .eio, pos, vol, { ino with size := max ino.size pos }⟩
      (fs.set a vol { ino with size := max ino.size pos }) := by
  obtain ⟨hrefs, hsize⟩ := hnow.failed rfl
  obtain ⟨hapart, hsound, hbal, hrefs'⟩ := hnow.sound.resize (a := a) (n := max ino.size pos)
  simp only [set_vol, set_inode_self, set_set] at hapart hsound hbal hrefs' hsize
  refine ⟨hnow.grown.toApart.trans hapart, hsound, fun n hn => (by cases hn),
    fun htidy s hs hne => ?_, fun hsafe hb => ?_, fun hp _ hle => ?_⟩
  · rw [hrefs'] at hne
    have hold := hnow.tidy_failed htidy s hs hne
    rw [set_inode_self] at hold ⊢
    exact Nat.lt_of_lt_of_le hold (Nat.le_max_left ..)
  · exact hbal (hnow.balanced (hsafe.head (List.length_pos_iff.mpr hsrc)) hb)
  · rw [set_inode_self]
    dsimp only
    omega

/-- What holds of the rounds of `do_write`, from the last one to the first:
there is nothing left, the file has the largest size, a round fails, or it
succeeds and the others follow. -/
structure WriteRule (a fpos : Nat) (lost : Block)
    (P : Nat → List Byte → Files → Written → Files → Prop) : Prop where
  nil : ∀ {pos fs}, Sound fs [] → P pos [] fs ⟨.ok (pos - fpos), pos, fs.vol, fs.inode a⟩ fs
  efbig : ∀ {pos src fs}, Sound fs [] → src ≠ [] → filesizeMax ≤ pos →
    P pos src fs ⟨.error .efbig, fpos, fs.vol, fs.inode a⟩ fs
  eio : ∀ {pos src fs vol ino}, Sound fs [] → fs.live a = true → src ≠ [] → pos < filesizeMax →
    writeBlock lost fs.vol (fs.inode a) pos (src.take (chunkLen pos)) = .ok ⟨false, vol, ino⟩ →
    BlockWritten a pos (src.take (chunkLen pos)) fs false (fs.set a vol ino) →
    P pos src fs ⟨.error .eio, pos, vol, { ino with size := max ino.size pos }⟩
      (fs.set a vol { ino with size := max ino.size pos })
  step : ∀ {pos src fs vol ino w fs'}, Sound fs [] → fs.live a = true → src ≠ [] → pos < filesizeMax →
    writeBlock lost fs.vol (fs.inode a) pos (src.take (chunkLen pos)) = .ok ⟨true, vol, ino⟩ →
    BlockWritten a pos (src.take (chunkLen pos)) fs true (fs.set a vol ino) →
    P (pos + (src.take (chunkLen pos)).length) (src.drop (chunkLen pos)) (fs.set a vol ino) w fs' →
    P pos src fs w fs'

theorem WriteRule.writeLoop
    {P : Nat → List Byte → Files → Written → Files → Prop} (hP : WriteRule a fpos lost P) :
    ∀ {rounds : Nat} {fs : Files} {src : List Byte} (pos : Nat), Sound fs [] → fs.live a = true →
      src.length ≤ rounds → ∃ w, writeLoop lost fpos rounds fs.vol (fs.inode a) pos src = .ok w
        ∧ P pos src fs w (fs.set a w.vol w.ino) := by
  intro rounds
  induction rounds with
  | zero =>
    intro fs src pos h _ hlen
    obtain rfl : src = [] := List.eq_nil_of_length_eq_zero (by omega)
    exact ⟨_, rfl, by rw [set_self]; exact hP.nil h⟩
  | succ rounds ih =>
    intro fs src pos h ha hlen
    rw [Fs.writeLoop]
    split
    · next hnil =>
      subst hnil
      exact ⟨_, rfl, by rw [set_self]; exact hP.nil h⟩
    · next hsrc =>
      split
      · next hmax => exact ⟨_, rfl, by rw [set_self]; exact hP.efbig h hsrc hmax⟩
      · next hmax =>
        have hpos : pos < filesizeMax := by omega
        obtain ⟨⟨ok, vol, ino⟩, hr, hnow, -⟩ := h.writeBlock (a := a)
          (src.take (chunkLen pos)) lost ha hpos
        dsimp only
        rw [hr]
        cases ok with
        | false => exact ⟨_, rfl, hP.eio h ha hsrc hpos hr hnow⟩
        | true =>
          have hlen' : (src.drop (chunkLen pos)).length ≤ rounds := by
            have hchunk := chunkLen_pos pos
            rw [List.length_drop]
            omega
          obtain ⟨w, hw, hrest⟩ := ih (pos + (src.take (chunkLen pos)).length) hnow.sound ha hlen'
          simp only [set_vol, set_inode_self, set_set] at hw hrest
          exact ⟨w, hw, hP.step h ha hsrc hpos hr hnow hrest⟩

theorem writeRule_transferred :
    WriteRule a fpos lost fun pos src fs w fs' => Transferred a fpos pos src fs w fs' where
  nil := fun h => h.transferred_nil
  efbig := fun h _ _ => ⟨Apart.refl, h, fun n hn => (by cases hn), id, fun _ => id,
    fun _ hf hsize => ⟨hsize, hf⟩⟩
  eio := fun _ _ hsrc hpos _ hnow => Sound.transferred_eio hpos hnow hsrc
  step := fun h _ hsrc hpos _ hnow hrest => Transferred.step h hpos hsrc hnow hrest

/-- `do_write`. -/
theorem Sound.doWrite (h : Sound fs []) (ha : fs.live a = true) (src : List Byte) :
    ∃ w, Fs.doWrite lost fs.vol (fs.inode a) fpos src = .ok w
      ∧ Transferred a fpos fpos src fs w (fs.set a w.vol w.ino) :=
  writeRule_transferred.writeLoop fpos h ha (Nat.le_refl _)

-- ======== do_read

/-- `do_read` within one block. -/
theorem readBlock_eq (ha : fs.live a = true) {len : Nat} (hpos : pos < filesizeMax)
    (hlen : len ≤ chunkLen pos) :
    readBlock fs.vol (fs.inode a) pos len = (List.range' pos len).map (fs.array a).cell := by
  have hcell {i : Nat} (hi : i < len) : (fs.array a).cell (pos + i)
      = fs.content a (slotOf (pos / blocksiz)) (pos % blocksiz + i) := by
    have hdiv := Nat.div_add_mod pos blocksiz
    unfold chunkLen at hlen
    have hblock : (pos + i) / blocksiz = pos / blocksiz := by
      apply Nat.div_eq_of_lt_le
      · rw [Nat.mul_comm]
        omega
      · rw [Nat.mul_comm, Nat.mul_succ]
        omega
    have hmod := Nat.div_add_mod (pos + i) blocksiz
    show fs.content a (slotOf ((pos + i) / blocksiz)) ((pos + i) % blocksiz) = _
    rw [hblock] at hmod ⊢
    congr 1
    omega
  unfold readBlock memread
  rw [bmap_eq hpos, ← ref_live ha, List.range'_eq_map_range (s := pos), List.map_map]
  unfold Files.content at hcell
  split
  · next hz =>
    rw [hz] at hcell
    apply List.ext_getElem
    · simp
    · intro i hi hi'
      rw [List.length_replicate] at hi
      simp only [List.getElem_replicate, List.getElem_map, List.getElem_range,
        Function.comp_apply]
      exact (hcell hi).symm
  · next hz =>
    rw [List.range'_eq_map_range, List.map_map]
    apply List.map_congr_left
    intro i hi
    rw [Function.comp_apply, Function.comp_apply, hcell (List.mem_range.mp hi), if_neg hz]

/-- The rounds of `do_read`. -/
theorem readLoop_eq (ha : fs.live a = true) (hsize : (fs.inode a).size ≤ filesizeMax) :
    ∀ {rounds pos count : Nat}, count ≤ rounds →
      readLoop fs.vol (fs.inode a) rounds pos count = (fs.array a).read pos count := by
  intro rounds
  induction rounds with
  | zero =>
    intro pos count hcount
    exact (Sparse.read_nil (by omega)).symm
  | succ rounds ih =>
    intro pos count hcount
    have hs : (fs.array a).size = (fs.inode a).size := rfl
    have hchunk := chunkLen_pos pos
    rw [readLoop]
    split
    · next hzero =>
      refine (Sparse.read_nil ?_).symm
      omega
    · next hne =>
      rw [ih (by omega), readBlock_eq ha (by omega) (by omega), ← Sparse.read_split]
      omega

/-- `do_read` reads the array that the file stands for. -/
theorem doRead_eq (ha : fs.live a = true) (hsize : (fs.inode a).size ≤ filesizeMax)
    (fpos count : Nat) : doRead fs.vol (fs.inode a) fpos count
      = ((fs.array a).read fpos count, fpos + ((fs.array a).read fpos count).length) := by
  unfold doRead
  rw [readLoop_eq ha hsize (Nat.le_refl _)]

end Cnix.Fs
