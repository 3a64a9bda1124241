/-
A file grows: `minode` and one round of `do_write`.

`minode` links a pending zone to the slot of a position, after opening
the indirect zones on the way. It fails only when `bitalloc` does, and
then the zone is still pending; the double indirect zone may have been
linked by then. It takes exactly the zones for the empty slots on the way
(`nodeNeed`). One round of `do_write` writes its bytes into the block
of the position, a new one if need be, and no other byte of the volume
is changed that a file can read (`Sound.writeBlock`).
-/
import Cnix.Fs.File
import Cnix.Fs.Proofs.Ownership
import Cnix.Fs.Proofs.Search

namespace Cnix.Fs

open Lib

variable {fs fs' fs'' : Files} {a zone m i k pos : Nat} {pend pend' pend'' : List Nat}
  {vol' vol vol'' : Volume} {ino : Inode} {s t : Slot} {ok : Bool}

/-- The slots on the way to a slot, itself included. -/
def Slot.path : Slot → List Slot
  | .ind i => [.single, .ind i]
  | .leaf i j => [.double, .mid i, .leaf i j]
  | s => [s]

theorem Slot.eq_of_mem_path (h : s ∈ t.path) (hs : s.isNode = false) : s = t := by
  cases t with
  | ind i =>
    rcases List.mem_cons.mp h with rfl | h
    · cases hs
    · exact List.mem_singleton.mp h
  | leaf i j =>
    rcases List.mem_cons.mp h with rfl | h
    · cases hs
    rcases List.mem_cons.mp h with rfl | h
    · cases hs
    · exact List.mem_singleton.mp h
  | direct i | single | double | mid i => exact List.mem_singleton.mp h

/-- File `a` has got zones on the way to slot `t`. -/
structure Grown (a : Nat) (t : Slot) (fs fs' : Files) : Prop extends Apart a fs fs' where
  kept : ∀ s, fs.ref (a, s) ≠ 0 → fs'.ref (a, s) = fs.ref (a, s)
  path : ∀ s, fs'.ref (a, s) ≠ fs.ref (a, s) → s ∈ t.path
  own : ∀ s, s.isNode = false → s ≠ t → fs.ref (a, s) ≠ 0 →
    fs'.vol.blk (fs.ref (a, s)) = fs.vol.blk (fs.ref (a, s))

theorem Grown.data (h : Grown a t fs fs') (hs : s.isNode = false) (ht : s ≠ t) :
    fs'.ref (a, s) = fs.ref (a, s) := by
  by_contra hne
  exact ht (Slot.eq_of_mem_path (h.path s hne) hs)

theorem Grown.trans (h : Grown a t fs fs') (h' : Grown a t fs' fs'') : Grown a t fs fs'' where
  toApart := h.toApart.trans h'.toApart
  kept := fun s hne => by
    have hkept := h.kept s hne
    rw [h'.kept s (by rw [hkept]; exact hne), hkept]
  path := fun s hne => by
    by_cases he : fs'.ref (a, s) = fs.ref (a, s)
    · exact h'.path s (by rw [he]; exact hne)
    · exact h.path s he
  own := fun s hs ht hne => by
    have hown := h'.own s hs ht (by rw [h.data hs ht]; exact hne)
    rw [h.data hs ht] at hown
    rw [hown, h.own s hs ht hne]

/-- A part of growing: what becomes of the file and of the ledger. -/
structure Grows (a : Nat) (t : Slot) (fs : Files) (pend : List Nat) (fs' : Files)
    (pend' : List Nat) : Prop where
  grown : Grown a t fs fs'
  size : (fs'.inode a).size = (fs.inode a).size
  sound : Sound fs' pend'
  balanced : Balanced fs pend → Balanced fs' pend'

theorem Grows.trans (h : Grows a t fs pend fs' pend') (h' : Grows a t fs' pend' fs'' pend'') :
    Grows a t fs pend fs'' pend'' :=
  ⟨h.grown.trans h'.grown, h'.size.trans h.size, h'.sound, h'.balanced ∘ h.balanced⟩

theorem Idle.grown (h : Idle a fs fs') : Grown a t fs fs' where
  toApart := h.toApart
  kept := fun s _ => h.ref_all (a, s)
  path := fun s hne => absurd (h.ref_all (a, s)) hne
  own := fun s _ _ => h.own s

theorem Grows.refl (h : Sound fs pend) : Grows a t fs pend fs pend :=
  ⟨⟨Apart.refl, fun _ _ => rfl, fun _ hne => absurd rfl hne, fun _ _ _ _ => rfl⟩, rfl, h, id⟩

/-- An empty slot on the way to `t` is set. -/
theorem Stored.grown (h : Stored a s zone fs fs') (hfree : fs.ref (a, s) = 0)
    (hs : s ∈ t.path) : Grown a t fs fs' where
  toApart := h.toApart
  kept := fun u hne => by
    rw [h.own_ref, if_neg]
    rintro rfl
    exact hne hfree
  path := fun u hne => by
    by_cases hu : u = s
    · rw [hu]
      exact hs
    · rw [h.own_ref, if_neg hu] at hne
      exact absurd rfl hne
  own := fun u hu _ => h.own u hu

-- ======== indirect zones

/-- The zones for an empty slot and for one that is not. -/
def need (zone : Nat) : Nat := if zone = 0 then 1 else 0

/-- What a function did that needs `k` zones. -/
def Got (k : Nat) (vol : Volume) (ok : Bool) (vol' : Volume) : Prop :=
  if ok then Takes k vol vol' else ¬ Yields k vol

theorem Got.after (h' : Got m vol' ok vol'') (h : Takes k vol vol') : Got (m + k) vol ok vol'' := by
  cases ok with
  | false => exact fun hy => h' ((h m).mpr hy)
  | true => exact h.trans h'

theorem Got.free (h : Got k vol ok vol')
    (h' : ok = true → Takes 0 vol' vol'') : Got k vol ok vol'' := by
  cases ok with
  | false => exact h
  | true => exact Takes.free h (h' rfl)

/-- A new indirect zone: pending, with no entries. -/
theorem Sound.openNew (h : Sound fs pend) (hres : openIndirect fs.vol 0 = (zone, vol')) :
    (zone = 0 → vol' = fs.vol ∧ ¬ Yields 1 fs.vol) ∧
    (zone ≠ 0 → Grows a t fs pend (fs.set a vol' (fs.inode a)) (zone :: pend)
      ∧ (∀ o, (fs.set a vol' (fs.inode a)).ref o = fs.ref o) ∧ vol'.Empty zone
      ∧ Takes 1 fs.vol vol') := by
  unfold openIndirect at hres
  rw [if_neg (by simp [nozone])] at hres
  split at hres
  · next vol1 halloc =>
    cases hres
    have hvol := (bitalloc_spec h.reserved halloc).1 rfl
    exact ⟨fun _ => ⟨hvol, not_yields halloc⟩, fun hz => absurd rfl hz⟩
  · next z vol1 hne halloc =>
    cases hres
    have hz : zone ≠ 0 := hne
    obtain ⟨hidle1, hsound1, hbal1⟩ := h.alloc (a := a) halloc hz
    have hmem : zone ∈ zone :: pend := List.mem_cons_self ..
    have hdz := (hsound1.ledger.pend_used hmem).1
    obtain ⟨hidle2, hsound2, hbal2⟩ := hsound1.put (a := a) zeroBlock hdz
      (hsound1.ledger.pend_free hmem)
    simp only [set_vol, set_inode_self, set_set] at hidle2 hsound2 hbal2
    refine ⟨fun h0 => absurd h0 hz, fun _ => ⟨⟨hidle1.grown.trans hidle2.grown, ?_, hsound2, hbal2 ∘ hbal1⟩,
      fun o => ?_, empty_put_zeroBlock, (takes_bitalloc halloc hz).free (takes_put hdz)⟩⟩
    · rw [set_inode_self]
    · rw [hidle2.ref_all, hidle1.ref_all]

/-- The indirect zones of the inode itself: `slot` is at `i_zone[i]`. -/
def RootNode (s : Slot) (i : Nat) (t : Slot) : Prop :=
  s = .single ∧ i = nrDzones ∧ (∃ k, t = .ind k)
    ∨ s = .double ∧ i = nrDzones + 1 ∧ ∃ k l, t = .leaf k l

theorem RootNode.mem_path (h : RootNode s i t) : s ∈ t.path := by
  rcases h with ⟨rfl, -, k, rfl⟩ | ⟨rfl, -, k, l, rfl⟩
  · exact List.mem_cons_self ..
  · exact List.mem_cons_self ..

theorem RootNode.zoneOf (h : RootNode s i t) : Fs.zoneOf vol ino s = ino.zone i := by
  rcases h with ⟨rfl, rfl, -⟩ | ⟨rfl, rfl, -⟩
  · rfl
  · rfl

/-- An indirect zone of the inode is there, or is linked while it is
empty, or the volume is full. -/
theorem Sound.openRoot (h : Sound fs pend) (ha : fs.live a = true) (hs : RootNode s i t)
    (hres : openIndirect fs.vol ((fs.inode a).zone i) = (zone, vol')) :
    (zone = 0 → vol' = fs.vol ∧ ¬ Yields (need (fs.ref (a, s))) fs.vol) ∧
    (zone ≠ 0 → Grows a t fs pend (fs.set a vol' ((fs.inode a).setZone i zone)) pend
      ∧ (∀ u, (fs.set a vol' ((fs.inode a).setZone i zone)).ref (a, u)
        = if u = s then zone else fs.ref (a, u))
      ∧ Takes (need (fs.ref (a, s))) fs.vol vol') := by
  have href : fs.ref (a, s) = (fs.inode a).zone i := by
    rw [ref_live ha, hs.zoneOf]
  by_cases hold : (fs.inode a).zone i = 0
  · rw [hold] at hres href
    obtain ⟨hfull, hopen⟩ := h.openNew (a := a) (t := t) hres
    refine ⟨fun hz => ?_, fun hz => ?_⟩
    · rw [href]
      exact hfull hz
    · obtain ⟨hgrows, hrefs, hempty, htake⟩ := hopen hz
      have hst : Stored a s zone (fs.set a vol' (fs.inode a))
          ((fs.set a vol' (fs.inode a)).set a vol' ((fs.inode a).setZone i zone)) := by
        have hlive : (fs.set a vol' (fs.inode a)).live a = true := ha
        have hroot := stored_root zone (s := s) (i := i) hlive
          (by
            rcases hs with ⟨hs, hi, -⟩ | ⟨hs, hi, -⟩
            · exact .inl ⟨hs, hi⟩
            · exact .inr (.inl ⟨hs, hi⟩))
          (fun _ => by rw [hrefs, href]; exact empty_zero)
          (fun _ => hempty)
        simpa using hroot
      have hfree : (fs.set a vol' (fs.inode a)).ref (a, s) = 0 := (hrefs _).trans href
      obtain ⟨hsound, hbal⟩ := hgrows.sound.link hst hfree
      refine ⟨?_, fun u => ?_, by rw [href]; exact htake⟩
      · have hall := hgrows.trans ⟨hst.grown hfree hs.mem_path, hst.size, hsound, hbal⟩
        rw [set_set] at hall
        exact hall
      · have hown := hst.own_ref u
        rw [set_set, hrefs] at hown
        exact hown
  · have hopen : openIndirect fs.vol ((fs.inode a).zone i)
        = ((fs.inode a).zone i, fs.vol) := if_pos hold
    rw [hopen] at hres
    cases hres
    have hino : (fs.inode a).setZone i ((fs.inode a).zone i) = fs.inode a := by
      unfold Inode.setZone
      rw [Function.update_eq_self]
    rw [hino, set_self]
    refine ⟨fun h0 => absurd h0 hold, fun _ => ⟨Grows.refl h, fun u => ?_, ?_⟩⟩
    · split
      · next hu => rw [hu, href]
      · rfl
    · rw [need, if_neg (by rw [href]; exact hold)]
      exact fun _ => Iff.rfl

/-- A pending zone becomes entry `i` of a node: the slot `t` itself, or
an empty node on the way to it. -/
theorem Sound.linkEntry (h : Sound fs (zone :: pend)) (ha : fs.live a = true)
    (hs : s.isNode = true) (hm : fs.ref (a, s) = m) (hm0 : m ≠ 0) (hi : i < nrIndirects)
    (hfree : fs.ref (a, s.child i) = 0) (hpath : s.child i ∈ t.path)
    (hnode : (s.child i).isNode = true → fs.vol.Empty zone) :
    Grows a t fs (zone :: pend) (fs.set a (fs.vol.setZone m i zone) (fs.inode a)) pend
      ∧ (∀ u, (fs.set a (fs.vol.setZone m i zone) (fs.inode a)).ref (a, u)
        = if u = s.child i then zone else fs.ref (a, u))
      ∧ Takes 0 fs.vol (fs.vol.setZone m i zone) := by
  have hmem : zone ∈ zone :: pend := List.mem_cons_self ..
  have hdz := (h.ledger.pend_used hmem).1
  have hlt := fs.vol.sp.zones_lt
  have hhigh := hdz.2
  have hzm : zone ≠ m := by
    rw [← hm]
    exact (h.ledger.pend_free hmem (a, s)).symm
  have hst := stored_entry zone h ha hs hm hm0 hi (by omega) hzm
    (fun _ => by rw [hfree]; exact empty_zero) hnode
  obtain ⟨hsound, hbal⟩ := h.link hst hfree
  exact ⟨⟨hst.grown hfree hpath, hst.size, hsound, hbal⟩, hst.own_ref,
    takes_put (hm ▸ h.dataZone (hm ▸ hm0))⟩

/-- What `minode` owes for the slot `t`. If it fails, only the double
indirect zone may be new. -/
structure Entered (a : Nat) (t : Slot) (zone : Nat) (pend : List Nat) (fs : Files)
    (r : Bool × Volume × Inode) : Prop where
  linked : r.1 = true → Grows a t fs (zone :: pend) (fs.set a r.2.1 r.2.2) pend
    ∧ (fs.set a r.2.1 r.2.2).ref (a, t) = zone
  failed : r.1 = false → Grows a t fs (zone :: pend) (fs.set a r.2.1 r.2.2) (zone :: pend)
    ∧ ∀ s, s ≠ .double → (fs.set a r.2.1 r.2.2).ref (a, s) = fs.ref (a, s)

/-- The volume is full. -/
theorem Sound.entered_full (h : Sound fs (zone :: pend)) (hvol : vol' = fs.vol) :
    Entered a t zone pend fs (false, vol', fs.inode a) := by
  refine ⟨fun hr => Bool.noConfusion hr, fun _ => ?_⟩
  rw [hvol, set_self]
  exact ⟨Grows.refl h, fun _ _ => rfl⟩

theorem ref_entry (ha : fs.live a = true) (hs : s.isNode = true) (hi : i < nrIndirects)
    (hne : fs.ref (a, s) ≠ 0) : fs.vol.getZone (fs.ref (a, s)) i = fs.ref (a, s.child i) := by
  rw [ref_live ha (s.child i), zoneOf_child hs, ← ref_live ha, entry_eq_getZone hne hi]

/-- `minode` under the double indirect zone. -/
theorem Sound.minodeDouble (h : Sound fs (zone :: pend)) (excess : Nat)
    (ha : fs.live a = true) (hm : fs.ref (a, .double) = m) (hm0 : m ≠ 0)
    (hex : excess < nrIndirects * nrIndirects)
    (ht : t = .leaf (excess / nrIndirects) (excess % nrIndirects)) (hfree : fs.ref (a, t) = 0) :
    ∃ r, Fs.minodeDouble fs.vol (fs.inode a) m excess zone = .ok r ∧ Entered a t zone pend fs r
      ∧ Got (need (fs.ref (a, .mid (excess / nrIndirects)))) fs.vol r.1 r.2.1 := by
  have hidx : excess / nrIndirects < nrIndirects := Nat.div_lt_of_lt_mul hex
  have hoff : excess % nrIndirects < nrIndirects := Nat.mod_lt _ (by decide)
  unfold Fs.minodeDouble
  dsimp only
  generalize excess / nrIndirects = i, excess % nrIndirects = j at *
  have hold : fs.vol.getZone m i = fs.ref (a, .mid i) := by
    rw [← hm]
    exact ref_entry ha rfl hidx (hm ▸ hm0)
  -- once there is a zone under the double one, the entry in it is free
  have hlast : ∀ {fs1 : Files} {z : Nat}, Sound fs1 (zone :: pend) → fs1.live a = true →
      fs1.ref (a, .mid i) = z → z ≠ 0 → fs1.ref (a, t) = 0 →
      ∃ r, (if fs1.vol.getZone z j ≠ nozone then
            Except.error (Trap.die .minode)
          else .ok (true, fs1.vol.setZone z j zone, fs1.inode a)) = .ok r
        ∧ r.1 = true ∧ Grows a t fs1 (zone :: pend) (fs1.set a r.2.1 r.2.2) pend
        ∧ (fs1.set a r.2.1 r.2.2).ref (a, t) = zone ∧ Takes 0 fs1.vol r.2.1 := by
    intro fs1 z h1 ha1 hz hz0 hfree1
    have hentry : fs1.vol.getZone z j = 0 := by
      rw [← hz, ref_entry ha1 rfl hoff (hz ▸ hz0), ← hfree1, ht]
      rfl
    obtain ⟨hgrows, hrefs, hput⟩ := h1.linkEntry (s := .mid i) (t := t) ha1 rfl hz
      hz0 hoff (by rw [ht] at hfree1; exact hfree1) (by rw [ht]; simp [Slot.path, Slot.child])
      nofun
    refine ⟨_, if_neg (by simp [hentry, nozone]), rfl, hgrows, ?_, hput⟩
    rw [hrefs, if_pos (by rw [ht]; rfl)]
  rw [hold]
  by_cases hmid : fs.ref (a, .mid i) = 0
  · rw [hmid]
    split
    · next vol1 hopen =>
      obtain ⟨hvol, hnot⟩ := (h.openNew (a := a) (t := t) hopen).1 rfl
      exact ⟨_, rfl, h.entered_full hvol, hnot⟩
    · next tmp vol1 hne hopen =>
      obtain ⟨hgrows, hrefs, hempty, htake⟩ := (h.openNew (a := a) (t := t) hopen).2 hne
      have hlive : (fs.set a vol1 (fs.inode a)).live a = true := ha
      obtain ⟨hgrows2, hrefs2, hput⟩ := hgrows.sound.linkEntry (s := .double) (t := t) (i := i)
        hlive rfl ((hrefs _).trans hm) hm0 hidx
        ((hrefs _).trans hmid) (by rw [ht]; simp [Slot.path, Slot.child])
        (fun _ => hempty)
      simp only [set_vol, set_inode_self, set_set] at hgrows2 hrefs2
      obtain ⟨r, hr, hok, hgrows3, href, hput2⟩ := hlast hgrows2.sound ha
        ((hrefs2 _).trans (if_pos rfl)) hne (by
          rw [hrefs2, if_neg (by rw [ht]; simp [Slot.child]), hrefs, hfree])
      simp only [set_vol, set_inode_self] at hr
      rw [set_set] at hgrows3 href
      refine ⟨r, hr, ⟨fun _ => ⟨(hgrows.trans hgrows2).trans hgrows3, href⟩,
        fun hf => by rw [hok] at hf; cases hf⟩, ?_⟩
      rw [hok]
      exact (htake.free hput).free hput2
  · have hopen : openIndirect fs.vol (fs.ref (a, .mid i))
        = (fs.ref (a, .mid i), fs.vol) := if_pos hmid
    rw [hopen]
    split
    · next heq =>
      rw [Prod.mk.injEq] at heq
      exact absurd heq.1 hmid
    · next tmp vol1 hne heq =>
      obtain ⟨rfl, rfl⟩ := heq
      rw [if_neg (show ¬ fs.ref (a, .mid i) = nozone from hmid), need,
        if_neg hmid]
      obtain ⟨r, hr, hok, hgrows, href, hput⟩ := hlast h ha rfl hmid hfree
      refine ⟨r, hr, ⟨fun _ => ⟨hgrows, href⟩, fun hf => by rw [hok] at hf; cases hf⟩, ?_⟩
      rw [hok]
      exact hput

/-- The indirect zones on the way to `t` are all there. -/
def Files.Paved (fs : Files) (a : Nat) : Slot → Prop
  | .ind _ => fs.ref (a, .single) ≠ 0
  | .leaf i _ => fs.ref (a, .double) ≠ 0 ∧ fs.ref (a, .mid i) ≠ 0
  | _ => True

/-- The zones that `minode` needs, besides that which it enters. -/
def Files.nodeNeed (fs : Files) (a : Nat) : Slot → Nat
  | .ind _ => need (fs.ref (a, .single))
  | .leaf i _ => need (fs.ref (a, .mid i)) + need (fs.ref (a, .double))
  | _ => 0

/-- The zones that a round needs. -/
def Files.blockNeed (fs : Files) (a : Nat) (t : Slot) : Nat :=
  if fs.ref (a, t) = 0 then fs.nodeNeed a t + 1 else 0

theorem nodeNeed_le (fs : Files) (a : Nat) (t : Slot) : fs.nodeNeed a t ≤ 2 := by
  have hneed (z : Nat) : need z ≤ 1 := by
    unfold need
    split <;> omega
  unfold Files.nodeNeed
  split
  · exact (hneed _).trans (by omega)
  · exact Nat.add_le_add (hneed _) (hneed _)
  · exact Nat.zero_le _

theorem Files.Paved.nodeNeed (h : fs.Paved a t) : fs.nodeNeed a t = 0 := by
  cases t with
  | ind i => exact if_neg h
  | leaf i j =>
    show need _ + need _ = 0
    rw [need, need, if_neg h.2, if_neg h.1]
  | direct i | single | double | mid i => rfl

theorem Idle.nodeNeed (h : Idle a fs fs') : fs'.nodeNeed a t = fs.nodeNeed a t := by
  unfold Files.nodeNeed
  split <;> simp only [h.ref_all]

/-- `minode` in the inode. -/
theorem Sound.minodeDirect (h : Sound fs (zone :: pend)) (ha : fs.live a = true)
    (hi : i < nrDzones) (hfree : fs.ref (a, .direct i) = 0) :
    Entered a (.direct i) zone pend fs (true, fs.vol, (fs.inode a).setZone i zone) := by
  have hst := stored_root zone ha (.inr (.inr ⟨rfl, hi⟩))
    nofun nofun
  obtain ⟨hsound, hbal⟩ := h.link hst hfree
  have hgrown : Grown a (.direct i) _ _ := hst.grown hfree (List.mem_cons_self ..)
  exact ⟨fun _ => ⟨⟨hgrown, hst.size, hsound, hbal⟩, (hst.own_ref _).trans (if_pos rfl)⟩,
    fun hr => Bool.noConfusion hr⟩

/-- `minode` at a position that has no zone: the pending zone is linked,
or the volume is full and it is still pending. -/
theorem Sound.minode (h : Sound fs (zone :: pend)) (ha : fs.live a = true)
    (hpos : pos < filesizeMax) (hfree : fs.ref (a, slotOf (pos / blocksiz)) = 0) :
    ∃ r, Fs.minode fs.vol (fs.inode a) pos zone = .ok r
      ∧ Entered a (slotOf (pos / blocksiz)) zone pend fs r
      ∧ Got (fs.nodeNeed a (slotOf (pos / blocksiz))) fs.vol r.1 r.2.1 := by
  have hmax := div_lt_maxBlocks hpos
  unfold Fs.minode
  generalize pos / blocksiz = n at *
  unfold maxBlocks at hmax
  unfold slotOf at hfree ⊢
  by_cases hdirect : n < nrDzones
  · simp only [if_pos hdirect] at hfree ⊢
    exact ⟨_, rfl, h.minodeDirect ha hdirect hfree, fun _ => Iff.rfl⟩
  simp only [if_neg hdirect] at hfree ⊢
  by_cases hsingle : n - nrDzones < nrIndirects
  · simp only [if_pos hsingle] at hfree ⊢
    have hroot : RootNode .single nrDzones (.ind (n - nrDzones)) :=
      .inl ⟨rfl, rfl, _, rfl⟩
    split
    · next vol1 hopen =>
      obtain ⟨hvol, hnot⟩ := (h.openRoot ha hroot hopen).1 rfl
      exact ⟨_, rfl, h.entered_full hvol, hnot⟩
    · next tmp vol1 hne hopen =>
      obtain ⟨hgrows, hrefs, htake⟩ := (h.openRoot ha hroot hopen).2 hne
      obtain ⟨hgrows2, hrefs2, hput⟩ := hgrows.sound.linkEntry (s := .single)
        (i := n - nrDzones) (t := .ind (n - nrDzones)) ha rfl ((hrefs _).trans (if_pos rfl)) hne
        hsingle ((hrefs _).trans hfree) (by simp [Slot.path, Slot.child])
        nofun
      simp only [set_vol, set_inode_self, set_set] at hgrows2 hrefs2
      exact ⟨_, rfl, ⟨fun _ => ⟨hgrows.trans hgrows2, (hrefs2 _).trans (if_pos rfl)⟩,
        fun hr => Bool.noConfusion hr⟩, htake.free hput⟩
  · simp only [if_neg hsingle] at hfree ⊢
    have hroot : RootNode .double (nrDzones + 1)
        (.leaf ((n - nrDzones - nrIndirects) / nrIndirects)
          ((n - nrDzones - nrIndirects) % nrIndirects)) := .inr ⟨rfl, rfl, _, _, rfl⟩
    split
    · next vol1 hopen =>
      obtain ⟨hvol, hnot⟩ := (h.openRoot ha hroot hopen).1 rfl
      exact ⟨_, rfl, h.entered_full hvol, fun hy => hnot hy.of_add⟩
    · next tmp vol1 hne hopen =>
      obtain ⟨hgrows, hrefs, htake⟩ := (h.openRoot ha hroot hopen).2 hne
      obtain ⟨r, hr, hent, hgot⟩ := hgrows.sound.minodeDouble
        (n - nrDzones - nrIndirects) ha ((hrefs _).trans (if_pos rfl)) hne
        (by omega) rfl ((hrefs _).trans hfree)
      simp only [set_vol, set_inode_self] at hr
      rw [hrefs, if_neg Slot.noConfusion] at hgot
      refine ⟨r, hr, ⟨fun hok => ?_, fun hf => ?_⟩, hgot.after htake⟩
      · obtain ⟨hgrows2, href⟩ := hent.linked hok
        rw [set_set] at hgrows2 href
        exact ⟨hgrows.trans hgrows2, href⟩
      · obtain ⟨hgrows2, hrest⟩ := hent.failed hf
        rw [set_set] at hgrows2 hrest
        exact ⟨hgrows.trans hgrows2, fun s hs => by rw [hrest s hs, hrefs, if_neg hs]⟩

-- ======== one round

/-- The bytes of the block in a slot; a hole reads as zeros. -/
def Files.content (fs : Files) (a : Nat) (t : Slot) : Block :=
  if fs.ref (a, t) = 0 then zeroBlock else fs.vol.blk (fs.ref (a, t))

theorem ref_size {n : Nat} (o : Nat × Slot) :
    (fs.set a vol' { ino with size := n }).ref o = (fs.set a vol' ino).ref o := by
  obtain ⟨b, s⟩ := o
  unfold Files.ref
  by_cases hb : b = a
  · subst hb
    rw [set_inode_self, set_inode_self]
    cases s <;> rfl
  · rw [set_inode_of_ne hb, set_inode_of_ne hb]
    rfl

/-- A data block of the file is written. -/
theorem Sound.fill (h : Sound fs pend) (data : Block) (n : Nat) (ht : t.isNode = false)
    (hz : fs.ref (a, t) = zone) (hzone : zone ≠ 0) :
    Grown a t fs (fs.set a (fs.vol.put zone data) { fs.inode a with size := n })
      ∧ Sound (fs.set a (fs.vol.put zone data) { fs.inode a with size := n }) pend
      ∧ (Balanced fs pend →
        Balanced (fs.set a (fs.vol.put zone data) { fs.inode a with size := n }) pend)
      ∧ ∀ o, (fs.set a (fs.vol.put zone data) { fs.inode a with size := n }).ref o = fs.ref o := by
  have hdz : fs.vol.sp.DataZone zone := hz ▸ h.dataZone (hz ▸ hzone)
  have hother {o : Nat × Slot} (ho : o ≠ (a, t)) :
      (fs.vol.put zone data).blk (fs.ref o) = fs.vol.blk (fs.ref o) := by
    rw [Volume.put_blk, if_neg]
    intro he
    exact ho (h.ledger.inj (he.trans hz.symm) (he ▸ hzone))
  have hrefs (o : Nat × Slot) :
      (fs.set a (fs.vol.put zone data) { fs.inode a with size := n }).ref o = fs.ref o := by
    rw [ref_size]
    unfold Files.ref Files.set
    rw [Function.update_eq_self]
    dsimp only
    split
    · next hlive =>
      apply zoneOf_congr
      intro s hs _
      have hblk := hother (o := (o.1, s)) (by
        intro he
        rw [Prod.mk.injEq] at he
        rw [he.2, ht] at hs
        cases hs)
      rw [ref_live hlive] at hblk
      exact hblk
    · rfl
  have hused : (fs.vol.put zone data).Used = fs.vol.Used :=
    funext fun x => propext (used_put hdz)
  refine ⟨⟨Sound.apart rfl (fun b hb => put_low hdz hb) fun b hb s _ => hother (by simp [hb]),
    fun s _ => hrefs (a, s), fun s hne => absurd (hrefs (a, s)) hne, fun s _ hst _ => hother (by simp [hst])⟩,
    ⟨?_, reserved_put hdz h.reserved, h.writable⟩, fun hbal => ?_, hrefs⟩
  · rw [funext hrefs, set_vol, hused]
    exact h.ledger
  · unfold Balanced
    rw [funext hrefs, set_vol, hused]
    exact hbal

/-- The volume does not lose its last zone to a write at slot `t`: this
zone is in use, or the write needs no indirect zone, or there are zones
for all it may need. -/
def Files.Safe (fs : Files) (a : Nat) (t : Slot) : Prop :=
  fs.vol.Used (fs.vol.sp.zones - 1) ∨ fs.Paved a t ∨ 3 ≤ fs.vol.freeZones.card

/-- What one round of `do_write` owes. -/
structure BlockWritten (a pos : Nat) (src : List Byte) (fs : Files) (ok : Bool) (fs' : Files) :
    Prop where
  grown : Grown a (slotOf (pos / blocksiz)) fs fs'
  sound : Sound fs' []
  balanced : fs.Safe a (slotOf (pos / blocksiz)) → Balanced fs [] → Balanced fs' []
  filled : ok = true → fs'.ref (a, slotOf (pos / blocksiz)) ≠ 0
    ∧ fs'.content a (slotOf (pos / blocksiz))
      = memcpy (fs.content a (slotOf (pos / blocksiz))) (pos % blocksiz) src
    ∧ (fs'.inode a).size = max (fs.inode a).size (pos + src.length)
  failed : ok = false → (∀ s, s ≠ .double → fs'.ref (a, s) = fs.ref (a, s))
    ∧ (fs'.inode a).size = (fs.inode a).size

/-- A round that finds a zone at its position. -/
theorem Sound.overwrite {src : List Byte} (h : Sound fs [])
    (hz : fs.ref (a, slotOf (pos / blocksiz)) = zone) (hzone : zone ≠ 0) :
    BlockWritten a pos src fs true
      (fs.set a (fs.vol.put zone (memcpy (fs.vol.blk zone) (pos % blocksiz) src))
        { fs.inode a with size := max (fs.inode a).size (pos + src.length) }) := by
  obtain ⟨hgrown, hsound, hbal, hrefs⟩ :=
    h.fill (memcpy (fs.vol.blk zone) (pos % blocksiz) src)
      (max (fs.inode a).size (pos + src.length)) (slotOf_data _) hz hzone
  refine ⟨hgrown, hsound, fun _ => hbal, fun _ => ⟨?_, ?_, ?_⟩, fun hf => Bool.noConfusion hf⟩
  · rw [hrefs, hz]
    exact hzone
  · unfold Files.content
    rw [hrefs, hz, if_neg hzone, if_neg hzone, set_vol, Volume.put_blk, if_pos rfl]
  · rw [set_inode_self]

/-- A write that is safe fails with a data zone other than the last. -/
theorem Sound.not_last {r : Bool × Volume × Inode} (h : Sound fs [])
    (halloc : bitalloc fs.vol .zmap = (zone, vol')) (hzone : zone ≠ 0)
    (hgot : Got (fs.nodeNeed a (slotOf (pos / blocksiz))) vol' r.1 r.2.1)
    (hf : r.1 = false) (hsafe : fs.Safe a (slotOf (pos / blocksiz))) :
    zone + 1 ≠ fs.vol.sp.zones := by
  intro hlast
  obtain ⟨-, hfree, hmark⟩ := (bitalloc_spec h.reserved halloc).2 hzone
  rw [hf] at hgot
  refine hgot ?_
  rcases hsafe with hused | hpaved | hcard
  · rw [← hlast, Nat.add_sub_cancel] at hused
    exact absurd hused hfree
  · rw [hpaved.nodeNeed]
    trivial
  · have hone := hmark.card_freeZones
    have hample : vol'.Ample 2 := ⟨bitalloc_last halloc hlast, by omega⟩
    exact (hample.yields (hmark.reserved h.reserved) (by rw [hmark.sp]; exact h.writable)).mono
      (nodeNeed_le ..)

/-- A round that has got a new zone. -/
theorem Sound.extend (h : Sound fs []) (src : List Byte) (lost : Block)
    (ha : fs.live a = true) (hpos : pos < filesizeMax)
    (hhole : fs.ref (a, slotOf (pos / blocksiz)) = 0)
    (halloc : bitalloc fs.vol .zmap = (zone, vol')) (hzone : zone ≠ 0) :
    ∃ r, Fs.minode vol' (fs.inode a) pos zone = .ok r ∧ (r.1 = true → BlockWritten a pos src fs true
        (fs.set a (r.2.1.put zone (memcpy zeroBlock (pos % blocksiz) src))
          { r.2.2 with size := max r.2.2.size (pos + src.length) }))
      ∧ (r.1 = false → BlockWritten a pos src fs false
        (fs.set a ((bitfree r.2.1 zone .zmap).put zone lost) r.2.2))
      ∧ Got (fs.nodeNeed a (slotOf (pos / blocksiz)) + 1) fs.vol r.1
        (r.2.1.put zone (memcpy zeroBlock (pos % blocksiz) src)) := by
  obtain ⟨hidle, hsound, hbal⟩ := h.alloc (a := a) halloc hzone
  obtain ⟨r, hr, hent, hgot⟩ := hsound.minode (a := a) ha hpos ((hidle.ref_all _).trans hhole)
  rw [hidle.nodeNeed] at hgot
  simp only [set_vol, set_inode_self] at hr hgot
  refine ⟨r, hr, fun hok => ?_, fun hf => ?_,
    (hgot.after (takes_bitalloc halloc hzone)).free fun hok => ?_⟩
  · obtain ⟨hgrows, href⟩ := hent.linked hok
    rw [set_set] at hgrows href
    obtain ⟨hgrown, hsound2, hbal2, hrefs⟩ := hgrows.sound.fill
      (memcpy zeroBlock (pos % blocksiz) src) (max r.2.2.size (pos + src.length))
      (slotOf_data _) href hzone
    simp only [set_vol, set_inode_self, set_set] at hgrown hsound2 hbal2 hrefs
    have hsize : r.2.2.size = (fs.inode a).size := by
      have hsame := hgrows.size
      simpa using hsame
    refine ⟨(hidle.grown.trans hgrows.grown).trans hgrown, hsound2,
      fun _ hb => hbal2 (hgrows.balanced (hbal hb)), fun _ => ⟨?_, ?_, ?_⟩,
      fun hf => Bool.noConfusion hf⟩
    · rw [hrefs, href]
      exact hzone
    · unfold Files.content
      rw [hrefs, href, hhole, if_neg hzone, if_pos rfl, set_vol, Volume.put_blk, if_pos rfl]
    · rw [set_inode_self, hsize]
  · obtain ⟨hgrows, hrest⟩ := hent.failed hf
    rw [set_set] at hgrows hrest
    -- the zone is given back, and then its buffer is released
    have hmem : zone ∈ zone :: ([] : List Nat) := List.mem_cons_self ..
    obtain ⟨hidle2, hsound2, hbal2⟩ := hgrows.sound.release (a := a)
    have hdz := (hgrows.sound.ledger.pend_used hmem).1
    rw [← hidle2.sp] at hdz
    obtain ⟨hidle3, hsound3, hbal3⟩ := hsound2.put (a := a) lost hdz fun o => by
      rw [hidle2.ref_all]
      exact hgrows.sound.ledger.pend_free hmem o
    simp only [set_vol, set_inode_self, set_set] at hidle2 hidle3 hsound3 hbal2 hbal3
    refine ⟨((hidle.grown.trans hgrows.grown).trans hidle2.grown).trans hidle3.grown, hsound3,
      fun hsafe hb => ?_, fun hok => Bool.noConfusion hok, fun _ => ⟨fun s hs => ?_, ?_⟩⟩
    · have hlast := h.not_last halloc hzone hgot hf hsafe
      refine hbal3 (hbal2 ?_ (hgrows.balanced (hbal hb)))
      have hsp : r.2.1.sp = fs.vol.sp := hgrows.grown.sp.trans hidle.sp
      rw [hsp]
      exact hlast
    · rw [hidle3.ref_all, hidle2.ref_all, hrest s hs, hidle.ref_all]
    · have hsame := hgrows.size
      simpa using hsame
  · obtain ⟨hgrows, href⟩ := hent.linked hok
    have hdz := hgrows.sound.dataZone (href ▸ hzone)
    rw [href] at hdz
    exact takes_put hdz

/-- One round of `do_write`. -/
theorem Sound.writeBlock (h : Sound fs []) (src : List Byte) (lost : Block)
    (ha : fs.live a = true) (hpos : pos < filesizeMax) :
    ∃ r, Fs.writeBlock lost fs.vol (fs.inode a) pos src = .ok r
      ∧ BlockWritten a pos src fs r.ok (fs.set a r.vol r.ino)
      ∧ Got (fs.blockNeed a (slotOf (pos / blocksiz))) fs.vol r.ok r.vol := by
  have hslot : bmap fs.vol (fs.inode a) pos = fs.ref (a, slotOf (pos / blocksiz)) := by
    rw [bmap_eq hpos, ref_live ha]
  unfold Fs.writeBlock Files.blockNeed
  rw [hslot]
  split
  · next hhole =>
    rw [if_pos hhole]
    split
    · next vol1 halloc =>
      refine ⟨_, rfl, ?_, fun hy => not_yields halloc hy.of_add⟩
      rw [(bitalloc_spec h.reserved halloc).1 rfl, set_self]
      exact ⟨(Grows.refl h).grown, h, fun _ => id, fun hok => Bool.noConfusion hok,
        fun _ => ⟨fun _ _ => rfl, rfl⟩⟩
    · next block vol1 hne halloc =>
      obtain ⟨⟨ok, vol2, ino2⟩, hr, hok, hf, hgot⟩ :=
        h.extend src lost ha hpos hhole halloc hne
      rw [hr]
      cases ok with
      | true => exact ⟨_, rfl, hok rfl, hgot⟩
      | false => exact ⟨_, rfl, hf rfl, hgot⟩
  · next block hne =>
    rw [if_neg hne]
    exact ⟨_, rfl, h.overwrite rfl hne, takes_put (h.dataZone hne)⟩

end Cnix.Fs
