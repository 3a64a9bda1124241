/-
How `truncate` goes through a file.

Each part of `truncate` clears slots one at a time, and the zone that was
in a slot is given back: a slot in the inode or an entry of an indirect
zone, which goes after its own entries, when it is empty. A property of
what has been cleared, of the volume and the inode, and of the calls of
`bitfree` so far that survives such a step (`Walker`) holds at the end
(`Walker.truncate`). The slots whose floor is below the size of the file
are cleared then.
-/
import Cnix.Fs.Proofs.Transfer

namespace Cnix.Fs

open Lib
open List (append_nil append_assoc)

-- ======== the order of the writes

theorem put_comm {vol : Volume} {b b' : Nat} {data data' : Block} (h : b ≠ b') :
    (vol.put b data).put b' data' = (vol.put b' data').put b data := by
  unfold Volume.put
  rw [Function.update_comm h]

theorem put_self {vol : Volume} {b : Nat} : vol.put b (vol.blk b) = vol := by
  unfold Volume.put
  rw [Function.update_eq_self]

theorem clearMapBit_put {vol : Volume} {bit b : Nat} {data : Block}
    (hb : vol.sp.fromBlock .zmap + bit / bitsPerBlock ≠ b) :
    (clearMapBit vol .zmap bit).put b data = clearMapBit (vol.put b data) .zmap bit := by
  unfold clearMapBit
  dsimp only
  rw [Volume.put_sp, Volume.put_blk, if_neg hb, put_comm (Ne.symm hb)]
  split
  · next hlt =>
    rw [if_pos (by exact hlt)]
    rfl
  · next hlt => rw [if_neg (by exact hlt)]

theorem bitfree_cases : bitfree vol zone .zmap = vol
    ∨ bitfree vol zone .zmap = clearMapBit vol .zmap (zone + 1 - vol.sp.fdzone)
      ∧ zone + 1 - vol.sp.fdzone ≤ vol.sp.zones - vol.sp.fdzone := by
  unfold bitfree
  dsimp only
  split
  · exact .inl rfl
  · split
    · exact .inl rfl
    · exact .inr ⟨rfl, by omega⟩

theorem bitfree_sp {vol : Volume} : (bitfree vol zone .zmap).sp = vol.sp := by
  rcases bitfree_cases with he | ⟨he, -⟩
  · rw [he]
  · rw [he, clearMapBit_sp]

/-- `bitfree` and the write of a data zone can be exchanged. -/
theorem bitfree_put {vol : Volume} {b : Nat} {data : Block} (hb : vol.sp.fdzone ≤ b) :
    (bitfree vol zone .zmap).put b data = bitfree (vol.put b data) zone .zmap := by
  unfold bitfree
  rw [Volume.put_sp]
  by_cases hro : vol.sp.roflag = true
  · rw [if_pos hro, if_pos hro]
  · rw [if_neg hro, if_neg hro]
    by_cases hout : zone + 1 < vol.sp.fdzone
        ∨ vol.sp.zones - vol.sp.fdzone - 1 < zone + 1 - vol.sp.fdzone
    · rw [if_pos hout, if_pos hout]
    · rw [if_neg hout, if_neg hout]
      have hblock := zmap_block (x := zone + 1 - vol.sp.fdzone) vol.sp (by omega)
      exact clearMapBit_put (by omega)

theorem bitfree_blk {vol : Volume} {b : Nat} (hb : vol.sp.fdzone ≤ b) :
    (bitfree vol zone .zmap).blk b = vol.blk b := by
  rcases bitfree_cases with he | ⟨he, hle⟩
  · rw [he]
  · have hblock := zmap_block vol.sp hle
    rw [he, clearMapBit_blk, Volume.put_blk, if_neg (by omega)]

-- ======== the calls

/-- `bitfree` is called for what is not `NOZONE`. -/
def call (zone : Nat) : Option Nat := if zone ≠ nozone then some zone else none

/-- The calls of `freezones`. -/
def freezonesCalls (disk : Nat → Block) (vol : Volume) (block : Nat) : Nat → List Nat
  | 0 => []
  | i + 1 => freezonesCalls disk vol block i
      ++ (call ((freezones disk vol block i).getZone block i)).toList

/-- The calls of `truncate` for the direct zones. -/
def freeDirectCalls (vol : Volume) (ino : Inode) : Nat → List Nat
  | 0 => []
  | i + 1 => freeDirectCalls vol ino i ++ (call ((freeDirect vol ino i).2.zone i)).toList

/-- The calls for an indirect zone with data zones. -/
def freeNodeCalls (disk : Nat → Block) (vol : Volume) (zone : Nat) : List Nat :=
  if zone ≠ nozone then freezonesCalls disk vol zone nrIndirects ++ [zone] else []

/-- The calls of the loop over the double indirect zone. -/
def freeMidsCalls (disk : Nat → Block) (vol : Volume) (zone : Nat) : Nat → List Nat
  | 0 => []
  | i + 1 => freeMidsCalls disk vol zone i
      ++ freeNodeCalls disk (freeMids disk vol zone i) ((freeMids disk vol zone i).getZone zone i)

/-- The calls for the double indirect zone. -/
def freeDoubleCalls (disk : Nat → Block) (vol : Volume) (ino : Inode) : List Nat :=
  let zone := ino.zone (nrDzones + 1)
  if zone ≠ nozone then freeMidsCalls disk vol zone nrIndirects ++ [zone] else []

/-- The calls of `bitfree` in `truncate`. -/
def truncateCalls (disk : Nat → Block) (vol : Volume) (ino : Inode) : List Nat :=
  if ino.size = 0 then []
  else
    let r := freeDirect vol ino nrDzones
    let r' := if ino.size ≤ nrDzones * blocksiz then r else freeSingle disk r.1 r.2
    freeDirectCalls vol ino nrDzones
      ++ ((if ino.size ≤ nrDzones * blocksiz then [] else freeNodeCalls disk r.1 (r.2.zone nrDzones))
        ++ if ino.size ≤ (nrDzones + nrIndirects) * blocksiz then []
          else freeDoubleCalls disk r'.1 r'.2)

/-- What the calls leave. -/
def Volume.freed (vol : Volume) (calls : List Nat) : Volume :=
  calls.foldl (fun vol zone => bitfree vol zone .zmap) vol

-- ======== one step

/-- No zone is in two slots, and the blocks that hold zone numbers are not
in the bitmaps. -/
structure Proper (vol : Volume) (ino : Inode) : Prop where
  distinct : ∀ s t, zoneOf vol ino s ≠ 0 → zoneOf vol ino s = zoneOf vol ino t → s = t
  data : ∀ s, s.isNode = true → zoneOf vol ino s ≠ 0 → vol.sp.fdzone ≤ zoneOf vol ino s

/-- `NOZONE` is stored into a slot, of the inode or of a node. -/
inductive Unset (vol : Volume) (ino : Inode) : Slot → Volume → Inode → Prop
  | root {s : Slot} {i : Nat} : s = .single ∧ i = nrDzones ∨ s = .double ∧ i = nrDzones + 1
      ∨ s = .direct i ∧ i < nrDzones → Unset vol ino s vol (ino.setZone i nozone)
  | entry {s : Slot} {i : Nat} : s.isNode = true → zoneOf vol ino s ≠ 0 → i < nrIndirects →
      Unset vol ino (s.child i) (vol.setZone (zoneOf vol ino s) i nozone) ino

/-- The slots `P` are cleared, the others hold what they held. -/
structure Cleared (vol : Volume) (ino : Inode) (P : Slot → Prop) (vol' : Volume) (ino' : Inode) :
    Prop where
  sp : vol'.sp = vol.sp
  gone : ∀ s, P s → zoneOf vol' ino' s = 0
  kept : ∀ s, ¬ P s → zoneOf vol' ino' s = zoneOf vol ino s

variable {vol vol1 vol2 : Volume} {ino ino1 ino2 : Inode} {P Q : Slot → Prop} {s t : Slot}
  {calls : List Nat} {m n i zone : Nat} {data : Block}

theorem Unset.sp (h : Unset vol ino s vol1 ino1) : vol1.sp = vol.sp := by
  cases h with
  | root hs | entry hs hz hi => rfl

theorem Unset.zoneOf_eq (h : Unset vol ino s vol1 ino1) (hp : Proper vol ino)
    (hold : s.isNode = true → vol.Empty (zoneOf vol ino s)) (t : Slot) :
    zoneOf vol1 ino1 t = if t = s then 0 else zoneOf vol ino t := by
  cases h with
  | root hs => exact zoneOf_setRoot hs hold fun _ => empty_zero
  | entry hs hz hi =>
    exact zoneOf_setEntry hs rfl hz (fun u _ he => hp.distinct u _ (he ▸ hz) he) hi (by decide)
      hz.symm hold fun _ => empty_zero

namespace Cleared

theorem refl : Cleared vol ino (fun _ => False) vol ino :=
  ⟨rfl, fun _ => False.elim, fun _ _ => rfl⟩

variable (h : Cleared vol ino P vol1 ino1)

include h

theorem eq_of_ne (hne : zoneOf vol1 ino1 s ≠ 0) :
    zoneOf vol1 ino1 s = zoneOf vol ino s :=
  h.kept s fun hs => hne (h.gone s hs)

theorem proper (hp : Proper vol ino) : Proper vol1 ino1 where
  distinct := fun s t hne he => by
    have ht := h.eq_of_ne (he ▸ hne)
    have hs := h.eq_of_ne hne
    rw [hs] at hne he
    exact hp.distinct s t hne (he.trans ht)
  data := fun s hnode hne => by
    have hs := h.eq_of_ne hne
    rw [hs] at hne ⊢
    exact h.sp ▸ hp.data s hnode hne

theorem wider (hsub : ∀ s, P s → Q s)
    (hzero : ∀ s, Q s → zoneOf vol1 ino1 s = 0) : Cleared vol ino Q vol1 ino1 :=
  ⟨h.sp, hzero, fun s hs => h.kept s fun hp => hs (hsub s hp)⟩

/-- A slot is cleared. -/
theorem unset (hp : Proper vol ino)
    (hu : Unset vol1 ino1 s vol2 ino2) (hold : s.isNode = true → vol1.Empty (zoneOf vol1 ino1 s)) :
    Cleared vol ino (fun t => P t ∨ t = s) vol2 ino2 := by
  have hset := hu.zoneOf_eq (h.proper hp) hold
  refine ⟨hu.sp.trans h.sp, fun t ht => ?_, fun t ht => ?_⟩
  · rw [hset]
    split
    · rfl
    · next hne => exact h.gone t (ht.resolve_right hne)
  · rw [hset, if_neg fun he => ht (.inr he), h.kept t fun hp => ht (.inl hp)]

/-- The zone that was in it is given back. -/
theorem free (hp : Proper vol ino)
    (hu : Unset vol1 ino1 s vol2 ino2) (hold : s.isNode = true → vol1.Empty (zoneOf vol1 ino1 s)) :
    Cleared vol ino (fun t => P t ∨ t = s)
      (bitfree (vol2.put (zoneOf vol1 ino1 s) data) (zoneOf vol1 ino1 s) .zmap) ino2 := by
  have h2 := h.unset hp hu hold
  have hset := hu.zoneOf_eq (h.proper hp) hold
  have hsame (t : Slot) : zoneOf (bitfree (vol2.put (zoneOf vol1 ino1 s) data) (zoneOf vol1 ino1 s) .zmap)
      ino2 t = zoneOf vol2 ino2 t := by
    refine zoneOf_congr fun u hnode hne => ?_
    have hlow := (h2.proper hp).data u hnode hne
    rw [bitfree_blk (by exact hlow), Volume.put_blk, if_neg]
    intro he
    rw [hset] at hne he
    split at hne
    · exact hne rfl
    · next hus =>
      rw [if_neg hus] at he
      exact hus ((h.proper hp).distinct u s hne he)
  exact ⟨bitfree_sp.trans h2.sp, fun t ht => (hsame t).trans (h2.gone t ht),
    fun t ht => (hsame t).trans (h2.kept t ht)⟩

end Cleared

-- ======== the slots

/-- What lies under the entry `i` of the double indirect zone. -/
def Beneath (i : Nat) (t : Slot) : Prop := t = .mid i ∨ ∃ j, t = .leaf i j

theorem floor_zero (h : s.floor = 0) : ∃ i, s = .direct i := by
  cases s with
  | direct i => exact ⟨i, rfl⟩
  | single | double | ind i | mid i | leaf i j => cases h

theorem floor_single (h : s.floor = nrDzones * blocksiz) :
    s = .single ∨ ∃ i, s = Slot.single.child i := by
  cases s with
  | single => exact .inl rfl
  | ind i => exact .inr ⟨i, rfl⟩
  | direct i | double | mid i | leaf i j => cases h

theorem floor_double (h : s.floor = (nrDzones + nrIndirects) * blocksiz) :
    s = .double ∨ ∃ i, Beneath i s := by
  cases s with
  | double => exact .inl rfl
  | mid i => exact .inr ⟨i, .inl rfl⟩
  | leaf i j => exact .inr ⟨i, .inr ⟨j, rfl⟩⟩
  | direct i | single | ind i => cases h

theorem floor_cases (s : Slot) : s.floor = 0 ∨ s.floor = nrDzones * blocksiz
    ∨ s.floor = (nrDzones + nrIndirects) * blocksiz := by
  cases s with
  | direct i => exact .inl rfl
  | single | ind i => exact .inr (.inl rfl)
  | double | mid i | leaf i j => exact .inr (.inr rfl)

/-- There is nothing under a zone that is not there. -/
theorem zoneOf_child_zero (hs : s.isNode = true) (hz : zoneOf vol ino s = 0) :
    zoneOf vol ino (s.child i) = 0 := by
  rw [zoneOf_child hs, hz]
  exact empty_zero i

/-- Entries behind the last are not there. -/
theorem zoneOf_child_ge (hs : s.isNode = true) (hi : nrIndirects ≤ i) :
    zoneOf vol ino (s.child i) = 0 := by
  rw [zoneOf_child hs]
  exact if_pos (.inr hi)

-- ======== the rule

/-- What survives the steps of `truncate`. -/
structure Walker (vol : Volume) (ino : Inode)
    (I : (Slot → Prop) → Volume → Inode → List Nat → Prop) : Prop where
  proper : Proper vol ino
  wider : ∀ {P Q vol1 ino1 calls}, Cleared vol ino P vol1 ino1 → I P vol1 ino1 calls →
    (∀ s, P s → Q s) → (∀ s, Q s → zoneOf vol1 ino1 s = 0) → I Q vol1 ino1 calls
  unset : ∀ {P s vol1 ino1 vol2 ino2 calls}, Cleared vol ino P vol1 ino1 → I P vol1 ino1 calls →
    Unset vol1 ino1 s vol2 ino2 → (s.isNode = true → vol1.Empty (zoneOf vol1 ino1 s)) →
    zoneOf vol1 ino1 s = 0 → I (fun t => P t ∨ t = s) vol2 ino2 calls
  free : ∀ {P s vol1 ino1 vol2 ino2 calls}, Cleared vol ino P vol1 ino1 → I P vol1 ino1 calls →
    Unset vol1 ino1 s vol2 ino2 → (s.isNode = true → vol1.Empty (zoneOf vol1 ino1 s)) →
    zoneOf vol1 ino1 s ≠ 0 → ∀ data, I (fun t => P t ∨ t = s)
      (bitfree (vol2.put (zoneOf vol1 ino1 s) data) (zoneOf vol1 ino1 s) .zmap) ino2
      (calls ++ [zoneOf vol1 ino1 s])

/-- The property after some steps. -/
def Walked (vol : Volume) (ino : Inode) (I : (Slot → Prop) → Volume → Inode → List Nat → Prop)
    (P : Slot → Prop) (vol1 : Volume) (ino1 : Inode) (calls : List Nat) : Prop :=
  Cleared vol ino P vol1 ino1 ∧ I P vol1 ino1 calls

namespace Walker

variable {I : (Slot → Prop) → Volume → Inode → List Nat → Prop} (w : Walker vol ino I)
  (disk : Nat → Block)

include w

section Parts

variable (h : Walked vol ino I P vol1 ino1 calls)

include h

/-- More slots may be counted if they hold nothing. -/
theorem also (hsub : ∀ s, P s → Q s)
    (hzero : ∀ s, Q s → ¬ P s → zoneOf vol1 ino1 s = 0) : Walked vol ino I Q vol1 ino1 calls := by
  have hall (s : Slot) (hs : Q s) : zoneOf vol1 ino1 s = 0 := by
    by_cases hp : P s
    · exact h.1.gone s hp
    · exact hzero s hs hp
  exact ⟨h.1.wider hsub hall, w.wider h.1 h.2 hsub hall⟩

theorem same (hiff : ∀ s, P s ↔ Q s) :
    Walked vol ino I Q vol1 ino1 calls :=
  w.also h (fun s => (hiff s).mp) fun s hs hp => absurd ((hiff s).mpr hs) hp

/-- A slot is cleared and what was in it is given back. -/
theorem give (hu : Unset vol1 ino1 s vol2 ino2)
    (hold : s.isNode = true → vol1.Empty (zoneOf vol1 ino1 s)) (data : Block) :
    Walked vol ino I (fun t => P t ∨ t = s)
      (if zoneOf vol1 ino1 s ≠ nozone
        then bitfree (vol2.put (zoneOf vol1 ino1 s) data) (zoneOf vol1 ino1 s) .zmap else vol2) ino2
      (calls ++ (call (zoneOf vol1 ino1 s)).toList) := by
  unfold call
  by_cases hz : zoneOf vol1 ino1 s = nozone
  · rw [if_neg (not_not_intro hz), if_neg (not_not_intro hz), Option.toList_none, append_nil]
    exact ⟨h.1.unset w.proper hu hold, w.unset h.1 h.2 hu hold hz⟩
  · rw [if_pos hz, if_pos hz]
    exact ⟨h.1.free w.proper hu hold, w.free h.1 h.2 hu hold hz data⟩

-- ======== freezones

/-- One round of `freezones`, on the entries of a node. -/
theorem freeEntry (hs : s.isNode = true)
    (hm : zoneOf vol1 ino1 s = m) (hm0 : m ≠ 0) (hi : i < nrIndirects)
    (hdata : (s.child i).isNode = false) :
    Walked vol ino I (fun t => P t ∨ t = s.child i) (freeEntry disk vol1 m i) ino1
      (calls ++ (call (vol1.getZone m i)).toList) := by
  subst hm
  have hentry : vol1.getZone (zoneOf vol1 ino1 s) i = zoneOf vol1 ino1 (s.child i) := by
    rw [zoneOf_child hs, entry_eq_getZone hm0 hi]
  have hgive := w.give h (.entry hs hm0 hi) (fun hnode => by rw [hdata] at hnode; cases hnode)
    (disk (zoneOf vol1 ino1 (s.child i)))
  have hp := h.1.proper w.proper
  unfold Fs.freeEntry
  dsimp only
  rw [hentry]
  convert hgive using 1
  split
  · next hz =>
    have hne : zoneOf vol1 ino1 (s.child i) ≠ zoneOf vol1 ino1 s := by
      intro he
      rw [hp.distinct _ _ hz he, hs] at hdata
      cases hdata
    have hdz := hp.data s hs hm0
    -- the source clears the entry last
    unfold Volume.setZone
    rw [bitfree_blk (by exact hdz), bitfree_put (by exact hdz), Volume.put_blk,
      if_neg (Ne.symm hne), put_comm hne]
  · rfl

/-- `freezones` of the first `n` entries of a node. -/
theorem freezones (hs : s.isNode = true)
    (hdata : ∀ i, (s.child i).isNode = false) (hm : zoneOf vol1 ino1 s = m) (hm0 : m ≠ 0) :
    ∀ {n : Nat}, n ≤ nrIndirects →
      Walked vol ino I (fun t => P t ∨ ∃ i < n, t = s.child i) (freezones disk vol1 m n) ino1
        (calls ++ freezonesCalls disk vol1 m n) := by
  intro n
  induction n with
  | zero =>
    intro _
    rw [Fs.freezones, freezonesCalls, append_nil]
    exact w.same h fun t => by simp
  | succ n ih =>
    intro hn
    have hfirst := ih (by omega)
    have hm1 : zoneOf (Fs.freezones disk vol1 m n) ino1 s = m := by
      rw [hfirst.1.kept, ← h.1.eq_of_ne (hm ▸ hm0), hm]
      rintro (hp | ⟨i, -, he⟩)
      · exact hm0 (hm ▸ h.1.gone s hp)
      · have hnode := hdata i
        rw [← he, hs] at hnode
        cases hnode
    have hnext := w.freeEntry disk hfirst hs hm1 hm0 (show n < nrIndirects by omega) (hdata n)
    rw [append_assoc] at hnext
    refine w.same hnext fun t => ?_
    rw [or_assoc, Nat.exists_lt_succ_right]

/-- All entries of a node that holds data zones are freed. -/
theorem freeEntries (hs : s.isNode = true)
    (hdata : ∀ i, (s.child i).isNode = false) (hm : zoneOf vol1 ino1 s = m) (hm0 : m ≠ 0) :
    Walked vol ino I (fun t => P t ∨ ∃ i, t = s.child i) (Fs.freezones disk vol1 m nrIndirects) ino1
      (calls ++ freezonesCalls disk vol1 m nrIndirects) := by
  refine w.also (w.freezones disk h hs hdata hm hm0 (Nat.le_refl _)) (fun t ht => ?_) fun t ht hnot => ?_
  · exact ht.imp_right fun ⟨i, _, he⟩ => ⟨i, he⟩
  · rcases ht with hp | ⟨i, rfl⟩
    · exact absurd (.inl hp) hnot
    · refine zoneOf_child_ge hs ?_
      by_contra hi
      exact hnot (.inr ⟨i, by omega, rfl⟩)

/-- An indirect zone in the inode that is empty is given back. -/
theorem freeRoot
    (hs : s = .single ∧ i = nrDzones ∨ s = .double ∧ i = nrDzones + 1) (hne : ino1.zone i ≠ nozone)
    (hempty : ∀ j, P (s.child j)) :
    Walked vol ino I (fun t => P t ∨ t = s) (bitfree vol1 (ino1.zone i) .zmap)
      (ino1.setZone i nozone) (calls ++ [ino1.zone i]) := by
  have hnode : s.isNode = true ∧ zoneOf vol1 ino1 s = ino1.zone i := by
    rcases hs with ⟨rfl, rfl⟩ | ⟨rfl, rfl⟩
    · exact ⟨rfl, rfl⟩
    · exact ⟨rfl, rfl⟩
  have hgive := w.give h (.root (i := i) (hs.imp_right .inl))
    (fun _ j => (zoneOf_child hnode.1 j).symm.trans (h.1.gone _ (hempty j))) (vol1.blk (ino1.zone i))
  rwa [hnode.2, put_self, call, if_pos hne, if_pos hne] at hgive

-- ======== the inode

/-- The first `n` direct zones. -/
theorem freeDirect : ∀ {n : Nat}, n ≤ nrDzones →
    Walked vol ino I (fun t => P t ∨ ∃ i < n, t = .direct i) (Fs.freeDirect vol1 ino1 n).1
      (Fs.freeDirect vol1 ino1 n).2 (calls ++ freeDirectCalls vol1 ino1 n) := by
  intro n
  induction n with
  | zero =>
    intro _
    rw [freeDirectCalls, append_nil]
    exact w.same h fun t => by simp
  | succ n ih =>
    intro hn
    have hfirst := ih (by omega)
    rw [Fs.freeDirect, freeDirectCalls]
    generalize Fs.freeDirect vol1 ino1 n = r at hfirst
    have hgive := w.give hfirst (.root (s := .direct n) (i := n) (.inr (.inr ⟨rfl, by omega⟩)))
      nofun (r.1.blk (r.2.zone n))
    have hz : zoneOf r.1 r.2 (.direct n) = r.2.zone n := if_pos (by omega)
    rw [hz, put_self, append_assoc] at hgive
    refine w.same hgive fun t => ?_
    rw [or_assoc, Nat.exists_lt_succ_right]

/-- `truncate`, the direct zones. -/
theorem freeDirects :
    Walked vol ino I (fun t => P t ∨ t.floor = 0) (Fs.freeDirect vol1 ino1 nrDzones).1
      (Fs.freeDirect vol1 ino1 nrDzones).2 (calls ++ freeDirectCalls vol1 ino1 nrDzones) := by
  refine w.also (w.freeDirect h (Nat.le_refl _)) (fun t ht => ?_) fun t ht hnot => ?_
  · refine ht.imp_right ?_
    rintro ⟨i, -, rfl⟩
    rfl
  · rcases ht with hp | hfloor
    · exact absurd (.inl hp) hnot
    · obtain ⟨i, rfl⟩ := floor_zero hfloor
      exact if_neg fun hlt => hnot (.inr ⟨i, hlt, rfl⟩)

/-- `truncate`, the single indirect zone. -/
theorem freeSingle :
    Walked vol ino I (fun t => P t ∨ t.floor = nrDzones * blocksiz) (Fs.freeSingle disk vol1 ino1).1
      (Fs.freeSingle disk vol1 ino1).2 (calls ++ freeNodeCalls disk vol1 (ino1.zone nrDzones)) := by
  unfold Fs.freeSingle freeNodeCalls
  by_cases hz : ino1.zone nrDzones = nozone
  · rw [if_neg (not_not_intro hz), if_neg (not_not_intro hz), append_nil]
    refine w.also h (fun _ => .inl) fun t ht hnot => ?_
    rcases floor_single (ht.resolve_left hnot) with rfl | ⟨i, rfl⟩
    · exact hz
    · exact zoneOf_child_zero rfl hz
  · rw [if_pos hz, if_pos hz, ← append_assoc]
    have hfirst := w.freeEntries disk h (s := .single) rfl (fun _ => rfl) rfl hz
    have hnext := w.freeRoot hfirst (.inl ⟨rfl, rfl⟩) hz fun j => .inr ⟨j, rfl⟩
    refine w.same hnext fun t => ?_
    rw [or_assoc]
    refine or_congr_right ⟨?_, fun hfloor => (floor_single hfloor).symm⟩
    rintro (⟨i, rfl⟩ | rfl)
    · rfl
    · rfl

-- ======== the double indirect zone

/-- One round of the loop over the double indirect zone. -/
theorem freeMid (hm : zoneOf vol1 ino1 .double = m)
    (hm0 : m ≠ 0) (hi : i < nrIndirects) :
    Walked vol ino I (fun t => P t ∨ Beneath i t) (Fs.freeMid disk vol1 m i) ino1
      (calls ++ freeNodeCalls disk vol1 (vol1.getZone m i)) := by
  subst hm
  have hentry : vol1.getZone (zoneOf vol1 ino1 .double) i = zoneOf vol1 ino1 (.mid i) :=
    (entry_eq_getZone hm0 hi).symm
  unfold Fs.freeMid freeNodeCalls
  rw [hentry]
  by_cases hz : zoneOf vol1 ino1 (.mid i) = nozone
  · rw [if_neg (not_not_intro hz), if_neg (not_not_intro hz), append_nil]
    refine w.also h (fun _ => .inl) fun t ht hnot => ?_
    rcases ht.resolve_left hnot with rfl | ⟨j, rfl⟩
    · exact hz
    · exact zoneOf_child_zero (s := .mid i) rfl hz
  · rw [if_pos hz, if_pos hz, ← append_assoc]
    have hfirst := w.freeEntries disk h (s := .mid i) rfl (fun _ => rfl) rfl hz
    generalize Fs.freezones disk vol1 (zoneOf vol1 ino1 (.mid i)) nrIndirects = vol2 at hfirst ⊢
    have hkept {t : Slot} (ht : t.isNode = true) (hne : zoneOf vol1 ino1 t ≠ 0) :
        zoneOf vol2 ino1 t = zoneOf vol1 ino1 t := by
      rw [hfirst.1.kept, ← h.1.eq_of_ne hne]
      rintro (hp | ⟨j, rfl⟩)
      · exact hne (h.1.gone t hp)
      · cases ht
    have hgive := w.give hfirst
      (.entry (s := .double) rfl (by rw [hkept rfl hm0]; exact hm0) hi)
      (fun _ j => (zoneOf_child rfl j).symm.trans (hfirst.1.gone _ (.inr ⟨j, rfl⟩)))
      ((vol2.setZone (zoneOf vol2 ino1 .double) i nozone).blk (zoneOf vol2 ino1 (Slot.double.child i)))
    rw [put_self, hkept (t := Slot.double.child i) rfl hz, hkept (t := .double) rfl hm0, call,
      if_pos (by exact hz), if_pos (by exact hz)] at hgive
    refine w.same hgive fun t => ?_
    rw [or_assoc]
    exact or_congr_right or_comm

/-- The first `n` rounds of this loop. -/
theorem freeMids (hm : zoneOf vol1 ino1 .double = m)
    (hm0 : m ≠ 0) : ∀ {n : Nat}, n ≤ nrIndirects →
      Walked vol ino I (fun t => P t ∨ ∃ i < n, Beneath i t) (Fs.freeMids disk vol1 m n) ino1
        (calls ++ freeMidsCalls disk vol1 m n) := by
  intro n
  induction n with
  | zero =>
    intro _
    rw [Fs.freeMids, freeMidsCalls, append_nil]
    exact w.same h fun t => by simp
  | succ n ih =>
    intro hn
    have hfirst := ih (by omega)
    have hm1 : zoneOf (Fs.freeMids disk vol1 m n) ino1 .double = m := by
      rw [hfirst.1.kept, ← h.1.eq_of_ne (hm ▸ hm0), hm]
      rintro (hp | ⟨i, -, he | ⟨j, he⟩⟩)
      · exact hm0 (hm ▸ h.1.gone .double hp)
      · cases he
      · cases he
    have hnext := w.freeMid disk hfirst hm1 hm0 (show n < nrIndirects by omega)
    rw [append_assoc] at hnext
    refine w.same hnext fun t => ?_
    rw [or_assoc, Nat.exists_lt_succ_right]

/-- `truncate`, the double indirect zone. -/
theorem freeDouble :
    Walked vol ino I (fun t => P t ∨ t.floor = (nrDzones + nrIndirects) * blocksiz)
      (Fs.freeDouble disk vol1 ino1).1 (Fs.freeDouble disk vol1 ino1).2
      (calls ++ freeDoubleCalls disk vol1 ino1) := by
  unfold Fs.freeDouble freeDoubleCalls
  by_cases hz : ino1.zone (nrDzones + 1) = nozone
  · rw [if_neg (not_not_intro hz), if_neg (not_not_intro hz), append_nil]
    refine w.also h (fun _ => .inl) fun t ht hnot => ?_
    have hmid (i : Nat) : zoneOf vol1 ino1 (.mid i) = 0 := zoneOf_child_zero (s := .double) rfl hz
    rcases floor_double (ht.resolve_left hnot) with rfl | ⟨i, rfl | ⟨j, rfl⟩⟩
    · exact hz
    · exact hmid i
    · exact zoneOf_child_zero (s := .mid i) rfl (hmid i)
  · rw [if_pos hz, if_pos hz, ← append_assoc]
    have hmids := w.freeMids disk h rfl hz (Nat.le_refl _)
    -- entries behind the last are not there
    have hfirst := w.also hmids (Q := fun t => P t ∨ ∃ i, Beneath i t)
      (fun t ht => ht.imp_right fun ⟨i, _, hb⟩ => ⟨i, hb⟩) fun t ht hnot => by
        rcases ht with hp | ⟨i, hb⟩
        · exact absurd (.inl hp) hnot
        · have hi : nrIndirects ≤ i := by
            by_contra hi
            exact hnot (.inr ⟨i, by omega, hb⟩)
          have hmid : zoneOf (Fs.freeMids disk vol1 (ino1.zone (nrDzones + 1)) nrIndirects) ino1 (.mid i)
              = 0 := zoneOf_child_ge (s := .double) rfl hi
          rcases hb with rfl | ⟨j, rfl⟩
          · exact hmid
          · exact zoneOf_child_zero (s := .mid i) rfl hmid
    have hnext := w.freeRoot hfirst (.inr ⟨rfl, rfl⟩) hz fun j => .inr ⟨j, .inl rfl⟩
    refine w.same hnext fun t => ?_
    rw [or_assoc]
    refine or_congr_right ⟨?_, fun hfloor => (floor_double hfloor).symm⟩
    rintro (⟨i, rfl | ⟨j, rfl⟩⟩ | rfl)
    · rfl
    · rfl
    · rfl

end Parts

-- ======== truncate

/-- `truncate` clears the slots whose floor is below the size of the
file, and then sets the size. -/
theorem truncate (h : I (fun _ => False) vol ino []) :
    ∃ vol' ino', Fs.truncate disk vol ino = (vol', { ino' with size := 0 })
      ∧ Walked vol ino I (fun t => t.floor < ino.size) vol' ino' (truncateCalls disk vol ino) := by
  have hstart : Walked vol ino I (fun _ => False) vol ino [] := ⟨Cleared.refl, h⟩
  unfold Fs.truncate truncateCalls
  by_cases h0 : ino.size = 0
  · rw [if_pos h0, if_pos h0]
    refine ⟨vol, ino, by rw [← h0], w.also hstart (fun _ => False.elim) fun t ht => ?_⟩
    omega
  · rw [if_neg h0, if_neg h0]
    have hdirect := w.freeDirects hstart
    generalize Fs.freeDirect vol ino nrDzones = r at hdirect ⊢
    have hsingle := w.freeSingle disk hdirect
    have hsingle : Walked vol ino I
        (fun t => (False ∨ t.floor = 0) ∨ nrDzones * blocksiz < ino.size ∧ t.floor = nrDzones * blocksiz)
        (if ino.size ≤ nrDzones * blocksiz then r else Fs.freeSingle disk r.1 r.2).1
        (if ino.size ≤ nrDzones * blocksiz then r else Fs.freeSingle disk r.1 r.2).2
        (freeDirectCalls vol ino nrDzones ++ if ino.size ≤ nrDzones * blocksiz then []
          else freeNodeCalls disk r.1 (r.2.zone nrDzones)) := by
      split
      · next hle =>
        rw [append_nil]
        exact w.same hdirect fun t => by simp [Nat.not_lt.mpr hle]
      · next hgt => exact w.same hsingle fun t => by simp [Nat.not_le.mp hgt]
    refine ⟨_, _, rfl, ?_⟩
    rw [← append_assoc]
    have hlt : 0 < nrDzones * blocksiz ∧ nrDzones * blocksiz < (nrDzones + nrIndirects) * blocksiz := by
      decide
    split
    · next hle =>
      rw [append_nil]
      refine w.same hsingle fun t => ?_
      rw [false_or]
      rcases floor_cases t with hf | hf | hf
      · omega
      · omega
      · omega
    · next hgt =>
      refine w.same (w.freeDouble disk hsingle) fun t => ?_
      have hcases := floor_cases t
      omega

end Walker

end Cnix.Fs
