/-
When a write keeps its word.

Whether a round of `do_write` succeeds depends on how many slots on the
way to its block are empty: `bitalloc` has to give a zone for each, one
after the other (`Yields`). Where the bytes of data zones matter to none
of it, a round that succeeds takes exactly these zones (`Takes`), so that
all rounds together succeed if `bitalloc` gives a zone for every empty slot
on the way to a block of the write (`missing`).

A write that fails has kept its word only if it has changed nothing: the
first round fails, within the file, or what was written before the largest
size was reached was there already.
-/
import Cnix.Fs.Proofs.BlockCount

namespace Cnix.Fs

open Lib

variable {vol : Volume} {fs fs' : Files} {a k m n zone pos fpos : Nat} {lost : Block}
  {src : List Byte} {ino : Inode}

theorem writeBlock_got {r : Changed} (h : Sound fs [])
    (ha : fs.live a = true) (hpos : pos < filesizeMax)
    (hr : writeBlock lost fs.vol (fs.inode a) pos src = .ok r) :
    Got (fs.blockNeed a (slotOf (pos / blocksiz))) fs.vol r.ok r.vol := by
  obtain ⟨r', hr', -, hgot⟩ := h.writeBlock src lost ha hpos
  rw [hr] at hr'
  cases hr'
  exact hgot

-- ======== all rounds

/-- The empty slots on the way to the bytes of a write. -/
def Files.missing (fs : Files) (a pos n : Nat) : Finset Slot :=
  ((Finset.range n).biUnion fun x => (slotOf ((pos + x) / blocksiz)).path.toFinset).filter
    fun s => fs.ref (a, s) = 0

theorem mem_missing {s : Slot} : s ∈ fs.missing a pos n
    ↔ fs.ref (a, s) = 0 ∧ ∃ x < n, s ∈ (slotOf ((pos + x) / blocksiz)).path := by
  unfold Files.missing
  rw [Finset.mem_filter, Finset.mem_biUnion, and_comm]
  refine and_congr_right fun _ => exists_congr fun x => ?_
  rw [Finset.mem_range, List.mem_toFinset]

theorem card_path (ha : fs.live a = true) {t : Slot} (ht : t.isNode = false) :
    (t.path.toFinset.filter fun s => fs.ref (a, s) = 0).card = fs.blockNeed a t := by
  unfold Files.blockNeed
  split
  · next hfree =>
    cases t with
    | direct i => simp [Slot.path, Files.nodeNeed, hfree, Finset.filter_singleton]
    | ind i =>
      by_cases hs : fs.ref (a, .single) = 0 <;>
        simp [Slot.path, Files.nodeNeed, need, hfree, hs, Finset.filter_insert, Finset.filter_singleton]
    | leaf i j =>
      by_cases hd : fs.ref (a, .double) = 0 <;> by_cases hm : fs.ref (a, .mid i) = 0 <;>
        simp [Slot.path, Files.nodeNeed, need, hfree, hd, hm, Finset.filter_insert,
          Finset.filter_singleton]
    | single | double | mid i => cases ht
  · next hne =>
    rw [Finset.card_eq_zero, Finset.filter_eq_empty_iff]
    exact fun s hs => ref_path ha hne (List.mem_toFinset.mp hs)

/-- In one block. -/
theorem card_missing_block (ha : fs.live a = true) (hn : 0 < n) (hfit : n ≤ chunkLen pos) :
    (fs.missing a pos n).card = fs.blockNeed a (slotOf (pos / blocksiz)) := by
  have hblock {x : Nat} (hx : x < n) : (pos + x) / blocksiz = pos / blocksiz := by
    have hbs : blocksiz = 1024 := rfl
    unfold chunkLen at hfit
    rw [hbs] at hfit ⊢
    omega
  rw [← card_path ha (slotOf_data _)]
  congr 1
  ext s
  rw [mem_missing, Finset.mem_filter, List.mem_toFinset, and_comm]
  refine and_congr_left fun _ => ⟨?_, fun hs => ⟨0, hn, hs⟩⟩
  rintro ⟨x, hx, hs⟩
  rwa [hblock hx] at hs

/-- The round for the first block, and the rest after it. -/
theorem BlockWritten.card_missing (h : BlockWritten a pos src fs true fs')
    (ha : fs'.live a = true) (hsrc : src ≠ []) (hfit : src.length ≤ chunkLen pos) (hle : src.length ≤ n) :
    (fs.missing a pos n).card = (fs'.missing a (pos + src.length) (n - src.length)).card
      + fs.blockNeed a (slotOf (pos / blocksiz)) := by
  have hlen := List.length_pos_iff.mpr hsrc
  have hlive : fs.live a = true := h.grown.live ▸ ha
  have hsmall {x : Nat} (hx : x < src.length) : (pos + x) / blocksiz = pos / blocksiz := by
    have hbs : blocksiz = 1024 := rfl
    unfold chunkLen at hfit
    rw [hbs] at hfit ⊢
    omega
  rw [← card_missing_block hlive hlen hfit, ← Finset.card_union_of_disjoint]
  · congr 1
    ext s
    rw [Finset.mem_union, mem_missing, mem_missing, mem_missing]
    constructor
    · rintro ⟨hzero, x, hx, hs⟩
      by_cases hnow : x < src.length
      · exact .inr ⟨hzero, x, hnow, hs⟩
      · by_cases hsame : fs'.ref (a, s) = 0
        · refine .inl ⟨hsame, x - src.length, by omega, ?_⟩
          rwa [show pos + src.length + (x - src.length) = pos + x by omega]
        · exact .inr ⟨hzero, 0, hlen, h.grown.path s fun he => hsame (he.trans hzero)⟩
    · rintro (⟨hzero, x, hx, hs⟩ | ⟨hzero, x, hx, hs⟩)
      · refine ⟨?_, x + src.length, by omega, ?_⟩
        · by_contra hne
          exact hne (h.grown.kept s hne ▸ hzero)
        · rwa [show pos + (x + src.length) = pos + src.length + x by omega]
      · exact ⟨hzero, x, by omega, hs⟩
  · rw [Finset.disjoint_left]
    intro s hlater hnow
    obtain ⟨hzero, -⟩ := mem_missing.mp hlater
    obtain ⟨-, x, hx, hs⟩ := mem_missing.mp hnow
    rw [hsmall hx] at hs
    exact ref_path ha (h.filled rfl).1 hs hzero

/-- How a write from `pos` on ends. -/
inductive Outcome (a fpos pos : Nat) (src : List Byte) (fs : Files) (w : Written) (fs' : Files) : Prop
  | ok {r : Nat} : w.ret = .ok r → (src = [] ∨ pos + src.length ≤ filesizeMax) →
      Yields (fs.missing a pos src.length).card fs.vol → Outcome a fpos pos src fs w fs'
  | efbig : w.ret = .error .efbig → src ≠ [] → filesizeMax < pos + src.length →
      Yields (fs.missing a pos (filesizeMax - pos)).card fs.vol → w.pos = fpos →
      fs'.array a = (fs.array a).write pos (src.take (filesizeMax - pos)) → Outcome a fpos pos src fs w fs'
  | eio : w.ret = .error .eio → src ≠ [] → pos < filesizeMax →
      ¬ Yields (fs.missing a pos (min src.length (filesizeMax - pos))).card fs.vol →
      (pos < w.pos ∧ Yields (fs.blockNeed a (slotOf (pos / blocksiz))) fs.vol
        ∨ w.pos = pos ∧ ¬ Yields (fs.blockNeed a (slotOf (pos / blocksiz))) fs.vol
          ∧ fs'.array a = ⟨max (fs.inode a).size pos, (fs.array a).cell⟩) → Outcome a fpos pos src fs w fs'

theorem missing_zero : fs.missing a pos 0 = ∅ := rfl

/-- A round that fails leaves the bytes as they were. -/
theorem BlockWritten.array_failed (h : BlockWritten a pos src fs false (fs.set a vol ino))
    (hfree : fs.ref (a, slotOf (pos / blocksiz)) = 0) :
    (fs.set a vol { ino with size := m }).array a = ⟨m, (fs.array a).cell⟩ := by
  obtain ⟨hrefs, -⟩ := h.failed rfl
  have hcontent (n : Nat) :
      (fs.set a vol { ino with size := m }).content a (slotOf n) = fs.content a (slotOf n) := by
    have hdata := slotOf_data n
    have href : (fs.set a vol { ino with size := m }).ref (a, slotOf n) = fs.ref (a, slotOf n) := by
      rw [ref_size]
      refine hrefs _ fun he => ?_
      rw [he] at hdata
      cases hdata
    refine content_congr href fun hne => h.grown.own _ hdata (fun he => ?_) hne
    rw [he] at hne
    exact hne hfree
  unfold Files.array
  rw [set_inode_self]
  congr 1
  funext x
  rw [hcontent]

/-- The first block is part of it. -/
theorem blockNeed_le (ha : fs.live a = true) (hn : 0 < n) :
    ∃ k, (fs.missing a pos n).card = k + fs.blockNeed a (slotOf (pos / blocksiz)) := by
  have hchunk := chunkLen_pos pos
  have hsub : fs.missing a pos (min n (chunkLen pos)) ⊆ fs.missing a pos n := by
    intro s hs
    obtain ⟨hzero, x, hx, hpath⟩ := mem_missing.mp hs
    exact mem_missing.mpr ⟨hzero, x, by omega, hpath⟩
  have hle := Finset.card_le_card hsub
  rw [card_missing_block ha (by omega) (Nat.min_le_right ..)] at hle
  exact ⟨_, (Nat.sub_add_cancel hle).symm⟩

theorem Outcome.step {w : Written}
    (h : Sound fs []) (ha : fs.live a = true) (hsrc : src ≠ []) (hpos : pos < filesizeMax)
    (hr : writeBlock lost fs.vol (fs.inode a) pos (src.take (chunkLen pos)) = .ok ⟨true, vol, ino⟩)
    (hnow : BlockWritten a pos (src.take (chunkLen pos)) fs true (fs.set a vol ino))
    (hrest : Outcome a fpos (pos + (src.take (chunkLen pos)).length) (src.drop (chunkLen pos))
      (fs.set a vol ino) w fs') : Outcome a fpos pos src fs w fs' := by
  have htake : Takes (fs.blockNeed a (slotOf (pos / blocksiz))) fs.vol vol := writeBlock_got h ha hpos hr
  have hne := chunk_ne_nil pos hsrc
  have hlen := List.length_pos_iff.mpr hne
  have hmax := chunk_le_filesizeMax hpos
  have hfits := chunk_fits pos src
  have hnowlen := List.length_take (i := chunkLen pos) (l := src)
  generalize hchunk : src.take (chunkLen pos) = now at *
  have hdrop : (src.drop (chunkLen pos)).length = src.length - now.length := by
    rw [List.length_drop, hnowlen]
    omega
  -- the zones for the rest are what the first round leaves
  have hyields {n : Nat} (hle : now.length ≤ n) :
      Yields ((fs.set a vol ino).missing a (pos + now.length) (n - now.length)).card vol ↔ Yields (fs.missing a pos n).card fs.vol := by
    rw [hnow.card_missing ha hne (by omega) hle]
    exact htake _
  rcases hrest with ⟨hret, hfit, hy⟩ | ⟨hret, -, hbig, hy, hp, harray⟩ | ⟨hret, -, hpos', hy, hcase⟩
  · rw [hdrop] at hfit hy
    refine .ok hret (.inr ?_) ((hyields (by omega)).mp hy)
    rcases hfit with hnil | hfit
    · have hzero : src.length ≤ chunkLen pos := by
        have := congrArg List.length hnil
        rw [List.length_drop, List.length_nil] at this
        omega
      omega
    · omega
  · rw [← Nat.sub_sub] at hy harray
    refine .efbig hret hsrc (by omega) ((hyields (by omega)).mp hy) hp ?_
    rw [harray, hnow.array hne hfits, ← Sparse.write_append]
    congr 1
    rw [hnowlen, show min (chunkLen pos) src.length = chunkLen pos by omega, ← hchunk, ← List.take_add]
    congr 1
    omega
  · rw [hdrop, show min (src.length - now.length) (filesizeMax - (pos + now.length))
      = min src.length (filesizeMax - pos) - now.length by omega] at hy
    refine .eio hret hsrc hpos (fun hall => hy ((hyields (by omega)).mpr hall)) (.inl ⟨?_, htake.yields⟩)
    rcases hcase with ⟨hlt, -⟩ | ⟨heq, -⟩
    · omega
    · omega

theorem writeRule_outcome :
    WriteRule a fpos lost fun pos src fs w fs' => Outcome a fpos pos src fs w fs' where
  nil := fun _ => .ok rfl (.inl rfl) trivial
  efbig := fun {pos src fs} _ hsrc hmax => by
    have hlen := List.length_pos_iff.mpr hsrc
    have hzero : filesizeMax - pos = 0 := by omega
    refine .efbig rfl hsrc (by omega) ?_ rfl ?_
    · rw [hzero, missing_zero]
      trivial
    · rw [hzero]
      rfl
  eio := fun {pos src fs vol ino} h ha hsrc hpos hr hnow => by
    have hlen := List.length_pos_iff.mpr hsrc
    have hnot : ¬ Yields (fs.blockNeed a (slotOf (pos / blocksiz))) fs.vol := writeBlock_got h ha hpos hr
    have hfree : fs.ref (a, slotOf (pos / blocksiz)) = 0 := by
      by_contra hne
      rw [Files.blockNeed, if_neg hne] at hnot
      exact hnot trivial
    have hsize : ino.size = (fs.inode a).size := by
      have := (hnow.failed rfl).2
      rwa [set_inode_self] at this
    obtain ⟨k, hk⟩ : ∃ k, (fs.missing a pos (min src.length (filesizeMax - pos))).card = _ :=
      blockNeed_le ha (by omega)
    refine .eio rfl hsrc hpos (fun hall => hnot ?_) (.inr ⟨rfl, hnot, ?_⟩)
    · rw [hk] at hall
      exact hall.of_add
    · rw [hnow.array_failed hfree, hsize]
  step := fun h ha hsrc hpos hr hnow hrest => hrest.step h ha hsrc hpos hr hnow

-- ======== the law

/-- What a write returns is what it has done. -/
def WriteLaw (fs : Files) (a fpos : Nat) (src : List Byte) (w : Written) : Prop :=
  match w.ret with
  | .ok r => w.pos = fpos + r ∧ ((fs.set a w.vol w.ino).array a).size = max (fs.inode a).size (fpos + r)
      ∧ ∀ x, ((fs.set a w.vol w.ino).array a).cell x
        = if fpos ≤ x ∧ x < fpos + r then src.getD (x - fpos) 0 else (fs.array a).cell x
  | .error _ => w.pos = fpos ∧ (fs.set a w.vol w.ino).array a = fs.array a

/-- There are zones for all of it and it ends in the largest file; or the
first block gets none and the write starts within the file; or it goes
beyond the largest file, and what fits is there already. -/
inductive Keeps (fs : Files) (a fpos : Nat) (src : List Byte) : Prop
  | nothing : src = [] → fpos ≤ (fs.inode a).size → Keeps fs a fpos src
  | all : src ≠ [] → fpos + src.length ≤ filesizeMax →
      Yields (fs.missing a fpos src.length).card fs.vol → Keeps fs a fpos src
  | first : src ≠ [] → fpos < filesizeMax → fpos ≤ (fs.inode a).size →
      ¬ Yields (fs.blockNeed a (slotOf (fpos / blocksiz))) fs.vol → Keeps fs a fpos src
  | beyond : src ≠ [] → filesizeMax < fpos + src.length →
      Yields (fs.missing a fpos (filesizeMax - fpos)).card fs.vol →
      (fs.array a).write fpos (src.take (filesizeMax - fpos)) = fs.array a → Keeps fs a fpos src

/-- `do_write` does what it returns if and only if one of these is so. -/
theorem doWrite_law_iff {lost : Block} {fpos : Nat} {src : List Byte} (h : Sound fs [])
    (ha : fs.live a = true) : ∃ w, doWrite lost fs.vol (fs.inode a) fpos src = .ok w
      ∧ (WriteLaw fs a fpos src w ↔ Keeps fs a fpos src) := by
  obtain ⟨w, hw, htrans⟩ := h.doWrite ha src
  obtain ⟨w', hw', hout⟩ : ∃ w', doWrite lost fs.vol (fs.inode a) fpos src = .ok w' ∧ _ :=
    writeRule_outcome.writeLoop fpos h ha (Nat.le_refl _)
  rw [hw] at hw'
  cases hw'
  refine ⟨w, hw, ?_⟩
  unfold WriteLaw
  have hfirst (hpos : fpos < filesizeMax) {n : Nat} (hn : 0 < n)
      (hy : Yields (fs.missing a fpos n).card fs.vol) :
      Yields (fs.blockNeed a (slotOf (fpos / blocksiz))) fs.vol := by
    obtain ⟨k, hk⟩ : ∃ k, (fs.missing a fpos n).card = _ := blockNeed_le ha hn
    rw [hk] at hy
    exact hy.of_add
  rcases hout with ⟨hret, hfits, hy⟩ | ⟨hret, hsrc, hbig, hy, hp, harray⟩ | ⟨hret, hsrc, hpos, hy, hcase⟩
  · obtain ⟨hr, hp, harray, -⟩ := htrans.full _ hret
    rw [Nat.add_sub_cancel_left] at hr
    rw [hret, hr, harray]
    by_cases hsrc : src = []
    · subst hsrc
      constructor
      · rintro ⟨-, hsize, -⟩
        have hmax : (fs.inode a).size = max (fs.inode a).size fpos := hsize
        exact .nothing rfl (by omega)
      · rintro (⟨-, hle⟩ | ⟨hne, -⟩ | ⟨hne, -⟩ | ⟨hne, -⟩)
        · exact ⟨hp, (Nat.max_eq_left hle).symm, fun x => (if_neg (by simp)).symm⟩
        · exact absurd rfl hne
        · exact absurd rfl hne
        · exact absurd rfl hne
    · refine ⟨fun _ => .all hsrc (hfits.resolve_left hsrc) hy, fun _ => ⟨hp, ?_, fun x => ?_⟩⟩
      · rw [Sparse.write, if_neg hsrc]
        rfl
      · rw [Sparse.write, if_neg hsrc]
        rfl
  · rw [hret, hp, harray]
    constructor
    · rintro ⟨-, hsame⟩
      exact .beyond hsrc hbig hy hsame
    · rintro (⟨hnil, -⟩ | ⟨-, hle, -⟩ | ⟨-, hpos, -, hnot⟩ | ⟨-, -, -, hsame⟩)
      · exact absurd hnil hsrc
      · omega
      · exact absurd (hfirst hpos (by omega) hy) hnot
      · exact ⟨rfl, hsame⟩
  · rw [hret]
    have hfew : ¬ (fpos + src.length ≤ filesizeMax ∧ Yields (fs.missing a fpos src.length).card fs.vol) := by
      rintro ⟨hle, hall⟩
      rw [Nat.min_eq_left (by omega)] at hy
      exact hy hall
    have hbeyond : ¬ (filesizeMax < fpos + src.length
        ∧ Yields (fs.missing a fpos (filesizeMax - fpos)).card fs.vol) := by
      rintro ⟨hlt, hall⟩
      rw [Nat.min_eq_right (by omega)] at hy
      exact hy hall
    rcases hcase with ⟨hlt, hone⟩ | ⟨hp, hnone, harray⟩
    · constructor
      · omega
      · rintro (⟨hnil, -⟩ | ⟨-, hle, hall⟩ | ⟨-, -, -, hnot⟩ | ⟨-, hbig, hall, -⟩)
        · exact absurd hnil hsrc
        · exact absurd ⟨hle, hall⟩ hfew
        · exact absurd hone hnot
        · exact absurd ⟨hbig, hall⟩ hbeyond
    · rw [harray]
      constructor
      · rintro ⟨-, he⟩
        have hsize : max (fs.inode a).size fpos = (fs.inode a).size := congrArg Sparse.size he
        exact .first hsrc hpos (by omega) hnone
      · rintro (⟨hnil, -⟩ | ⟨-, hle, hall⟩ | ⟨-, -, hle, -⟩ | ⟨-, hbig, hall, -⟩)
        · exact absurd hnil hsrc
        · exact absurd ⟨hle, hall⟩ hfew
        · rw [Nat.max_eq_left hle]
          exact ⟨hp, rfl⟩
        · exact absurd ⟨hbig, hall⟩ hbeyond

/-- A byte behind the direct zones of an empty file, which takes an
indirect zone, too. -/
theorem doWrite_law_byte : ∃ w, doWrite zeroBlock (fresh 9 (by decide) (by decide)).vol
    ⟨0, fun _ => 0⟩ 7168 [7] = .ok w ∧ WriteLaw (fresh 9 (by decide) (by decide)) 0 7168 [7] w := by
  obtain ⟨w, hw, hlaw⟩ := @doWrite_law_iff (fresh 9 (by decide) (by decide)) 0 _ _ _ fresh_sound rfl
  refine ⟨w, hw, hlaw.mpr (.all (by decide) (by decide) ?_)⟩
  exact ⟨by decide, by decide, trivial⟩

/-- Two blocks for a volume with one zone: the call fails, but the first
block is in the file and `f_pos` behind it. -/
theorem doWrite_partial : ∃ w, doWrite zeroBlock oneZone.vol
    ⟨0, fun _ => 0⟩ 0 (List.replicate 1025 7) = .ok w
      ∧ w.ret = .error .eio ∧ w.pos = 1024 ∧ w.ino.size = 1024 := by
  decide +kernel

end Cnix.Fs
