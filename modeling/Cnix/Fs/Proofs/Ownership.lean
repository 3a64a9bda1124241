/-
Who owns which zone, over all files of a volume.

# The ledger of a volume

The slots of all live inodes, with the zones they hold and the bits of
the zone bitmap, are a ledger (`Sound`): no zone is in two slots, and a
zone in a slot has its bit set. A zone between `bitalloc` and the store
of its number is pending. `Balanced` says that no zone is lost.

# The steps

The functions of the file system change a volume by few kinds of steps,
each for one file `a`: take a zone, write a block that no slot holds,
link a pending zone to a slot, unlink one, and give a pending zone back.
Each has one lemma here, which says what becomes of the ledger, that the
other files keep their slots and their bytes (`Apart`), and what the
slots of `a` hold after it.
-/
import Cnix.Fs.Proofs.Bitmap
import Cnix.Fs.Proofs.Slots
import Cnix.Lib.Ledger

namespace Cnix.Fs

open Lib

/-- A mounted volume and the inodes in core. An inode is live until its
number is given back. -/
structure Files where
  vol : Volume
  inode : Nat → Inode
  live : Nat → Bool

/-- The zone in a slot of an inode. -/
def Files.ref (fs : Files) (o : Nat × Slot) : Nat :=
  if fs.live o.1 then zoneOf fs.vol (fs.inode o.1) o.2 else 0

/-- A call for inode `a` has changed the volume and this inode. -/
def Files.set (fs : Files) (a : Nat) (vol : Volume) (ino : Inode) : Files :=
  { fs with vol := vol, inode := Function.update fs.inode a ino }

/-- No zone has two owners or is held without its bit. -/
structure Sound (fs : Files) (pend : List Nat) : Prop where
  ledger : Ledger 0 fs.ref fs.vol.Used pend
  reserved : fs.vol.Reserved
  writable : fs.vol.sp.roflag = false

/-- Every zone whose bit is set is pending or in a slot. -/
def Balanced (fs : Files) (pend : List Nat) : Prop := Exact fs.ref fs.vol.Used pend

/-- The other files keep their slots and their bytes, and the inode
bitmap is as it was. -/
structure Apart (a : Nat) (fs fs' : Files) : Prop where
  sp : fs'.vol.sp = fs.vol.sp
  low : ∀ b, b < fs.vol.sp.fromBlock .zmap → fs'.vol.blk b = fs.vol.blk b
  live : fs'.live = fs.live
  inode : ∀ b, b ≠ a → fs'.inode b = fs.inode b
  ref : ∀ b, b ≠ a → ∀ s, fs'.ref (b, s) = fs.ref (b, s)
  bytes : ∀ b, b ≠ a → ∀ s, fs.ref (b, s) ≠ 0 →
    fs'.vol.blk (fs.ref (b, s)) = fs.vol.blk (fs.ref (b, s))

theorem Apart.refl {a : Nat} {fs : Files} : Apart a fs fs :=
  ⟨rfl, fun _ _ => rfl, rfl, fun _ _ => rfl, fun _ _ _ => rfl, fun _ _ _ _ => rfl⟩

theorem Apart.trans {a : Nat} {fs fs' fs'' : Files} (h : Apart a fs fs')
    (h' : Apart a fs' fs'') : Apart a fs fs'' where
  sp := h'.sp.trans h.sp
  low := fun b hb => (h'.low b (h.sp ▸ hb)).trans (h.low b hb)
  live := h'.live.trans h.live
  inode := fun b hb => (h'.inode b hb).trans (h.inode b hb)
  ref := fun b hb s => (h'.ref b hb s).trans (h.ref b hb s)
  bytes := fun b hb s hs => by
    have hbytes := h'.bytes b hb s (by rw [h.ref b hb s]; exact hs)
    rw [h.ref b hb s] at hbytes
    rw [hbytes, h.bytes b hb s hs]

/-- File `b` is as it was. -/
structure Kept (b : Nat) (fs fs' : Files) : Prop where
  live : fs'.live b = fs.live b
  inode : fs'.inode b = fs.inode b
  ref : ∀ s, fs'.ref (b, s) = fs.ref (b, s)
  bytes : ∀ s, fs.ref (b, s) ≠ 0 → fs'.vol.blk (fs.ref (b, s)) = fs.vol.blk (fs.ref (b, s))

theorem Apart.kept {a b : Nat} {fs fs' : Files} (h : Apart a fs fs') (hb : b ≠ a) : Kept b fs fs' :=
  ⟨by rw [h.live], h.inode b hb, h.ref b hb, h.bytes b hb⟩

theorem Kept.trans {b : Nat} {fs fs' fs'' : Files} (h : Kept b fs fs') (h' : Kept b fs' fs'') :
    Kept b fs fs'' where
  live := h'.live.trans h.live
  inode := h'.inode.trans h.inode
  ref := fun s => (h'.ref s).trans (h.ref s)
  bytes := fun s hs => by
    have hbytes := h'.bytes s (by rw [h.ref]; exact hs)
    rw [h.ref] at hbytes
    rw [hbytes, h.bytes s hs]

variable {fs : Files} {a zone m i : Nat} {pend : List Nat} {vol' : Volume} {ino : Inode}
  {data : Block} {s t : Slot} {b : Nat}

-- ======== views

section Views

@[simp] theorem set_vol : (fs.set a vol' ino).vol = vol' := rfl

@[simp] theorem set_live : (fs.set a vol' ino).live = fs.live := rfl

@[simp] theorem set_inode_self : (fs.set a vol' ino).inode a = ino :=
  Function.update_self ..

theorem set_inode_of_ne (hb : b ≠ a) : (fs.set a vol' ino).inode b = fs.inode b :=
  Function.update_of_ne hb ..

theorem set_inode_keep {b : Nat} : (fs.set a vol' (fs.inode a)).inode b = fs.inode b := by
  unfold Files.set
  rw [Function.update_eq_self]

@[simp] theorem set_set {vol'' : Volume} {ino' : Inode} :
    (fs.set a vol' ino).set a vol'' ino' = fs.set a vol'' ino' := by
  unfold Files.set
  simp only [Function.update_idem]

@[simp] theorem set_self : fs.set a fs.vol (fs.inode a) = fs := by
  unfold Files.set
  rw [Function.update_eq_self]

theorem ref_live (ha : fs.live a = true) (s : Slot) :
    fs.ref (a, s) = zoneOf fs.vol (fs.inode a) s := if_pos ha

/-- A data zone lies behind the bitmaps. -/
theorem put_low {vol : Volume} (hdz : vol.sp.DataZone zone)
    (hb : b < vol.sp.fromBlock .zmap) : (vol.put zone data).blk b = vol.blk b := by
  have hlayout := vol.sp.layout
  have hlow := hdz.1
  change b < superBlock + 1 + vol.sp.imblocks at hb
  rw [Volume.put_blk, if_neg (by omega)]

theorem not_used_zero {vol : Volume} : ¬ vol.Used 0 := by
  intro h
  have hlow := h.1.1
  have hlayout := vol.sp.layout
  omega

end Views

namespace Sound

theorem dataZone (h : Sound fs pend) {o : Nat × Slot} (ho : fs.ref o ≠ 0) :
    fs.vol.sp.DataZone (fs.ref o) := (h.ledger.held ho).1

/-- A step that keeps the bytes of what other files hold. -/
theorem apart (hsp : vol'.sp = fs.vol.sp)
    (hlow : ∀ b, b < fs.vol.sp.fromBlock .zmap → vol'.blk b = fs.vol.blk b)
    (hblk : ∀ b, b ≠ a → ∀ s, fs.ref (b, s) ≠ 0 →
      vol'.blk (fs.ref (b, s)) = fs.vol.blk (fs.ref (b, s))) : Apart a fs (fs.set a vol' ino) where
  sp := hsp
  low := hlow
  live := rfl
  inode := fun _ hb => set_inode_of_ne hb
  ref := fun b hb s => by
    unfold Files.ref
    rw [set_live, set_inode_of_ne hb, set_vol]
    by_cases hlive : fs.live b = true
    · rw [if_pos hlive, if_pos hlive]
      apply zoneOf_congr
      intro t _ hne
      have hbytes := hblk b hb t
      rw [ref_live hlive] at hbytes
      exact hbytes hne
    · rw [if_neg hlive, if_neg hlive]
  bytes := hblk

/-- A step that keeps the bytes of everything held keeps all slots. -/
theorem ref_keep (hblk : ∀ o, fs.ref o ≠ 0 → vol'.blk (fs.ref o) = fs.vol.blk (fs.ref o))
    (o : Nat × Slot) : (fs.set a vol' (fs.inode a)).ref o = fs.ref o := by
  unfold Files.ref Files.set
  rw [Function.update_eq_self]
  by_cases hlive : fs.live o.1 = true
  · rw [if_pos hlive, if_pos hlive]
    apply zoneOf_congr
    intro t _ hne
    have hbytes := hblk (o.1, t)
    rw [ref_live hlive] at hbytes
    exact hbytes hne
  · rw [if_neg hlive, if_neg hlive]

end Sound

-- ======== steps of a zone

/-- What a step that links no slot and unlinks none leaves. -/
structure Idle (a : Nat) (fs fs' : Files) : Prop extends Apart a fs fs' where
  ref_all : ∀ o, fs'.ref o = fs.ref o
  own : ∀ s, fs.ref (a, s) ≠ 0 →
    fs'.vol.blk (fs.ref (a, s)) = fs.vol.blk (fs.ref (a, s))
  same_inode : fs'.inode a = fs.inode a

theorem idle_of_blocks (hsp : vol'.sp = fs.vol.sp)
    (hlow : ∀ b, b < fs.vol.sp.fromBlock .zmap → vol'.blk b = fs.vol.blk b)
    (hblk : ∀ o, fs.ref o ≠ 0 → vol'.blk (fs.ref o) = fs.vol.blk (fs.ref o)) :
    Idle a fs (fs.set a vol' (fs.inode a)) where
  toApart := Sound.apart hsp hlow fun b _ s => hblk (b, s)
  ref_all := Sound.ref_keep hblk
  own := fun s => hblk (a, s)
  same_inode := set_inode_self

/-- The bits of one zone change. -/
theorem Marked.idle {v : Bool} (h : Sound fs pend) (hmark : Marked fs.vol vol' zone v) :
    Idle a fs (fs.set a vol' (fs.inode a)) :=
  idle_of_blocks hmark.sp hmark.low fun _ ho => hmark.data _ (h.dataZone ho).1

/-- `bitalloc` gives out a zone. -/
theorem Sound.alloc (h : Sound fs pend) (hres : bitalloc fs.vol .zmap = (zone, vol'))
    (hzone : zone ≠ 0) : Idle a fs (fs.set a vol' (fs.inode a))
      ∧ Sound (fs.set a vol' (fs.inode a)) (zone :: pend)
      ∧ (Balanced fs pend → Balanced (fs.set a vol' (fs.inode a)) (zone :: pend)) := by
  obtain ⟨hdz, hfree, hmark⟩ := (bitalloc_spec h.reserved hres).2 hzone
  have hidle := hmark.idle (a := a) h
  have hused (x : Nat) : vol'.Used x ↔ x = zone ∨ fs.vol.Used x := by
    rw [hmark.used]
    by_cases hx : x = zone
    · simp [hx, hdz]
    · simp [hx]
  refine ⟨hidle, ⟨?_, hmark.reserved h.reserved, ?_⟩, fun hbal => ?_⟩
  · have href := funext hidle.ref_all
    rw [href]
    exact h.ledger.take hfree hzone hused
  · rw [set_vol, hmark.sp]
    exact h.writable
  · unfold Balanced
    rw [funext hidle.ref_all]
    exact hbal.take hused

/-- The block of a zone in no slot is written. -/
theorem Sound.put (h : Sound fs pend) (data : Block) (hdz : fs.vol.sp.DataZone zone)
    (hfree : ∀ o, fs.ref o ≠ zone) : Idle a fs (fs.set a (fs.vol.put zone data) (fs.inode a))
      ∧ Sound (fs.set a (fs.vol.put zone data) (fs.inode a)) pend
      ∧ (Balanced fs pend → Balanced (fs.set a (fs.vol.put zone data) (fs.inode a)) pend) := by
  have hidle : Idle a fs (fs.set a (fs.vol.put zone data) (fs.inode a)) :=
    idle_of_blocks rfl (fun b hb => put_low hdz hb) fun o _ => by
      rw [Volume.put_blk, if_neg (hfree o)]
  have hused : (fs.vol.put zone data).Used = fs.vol.Used :=
    funext fun x => propext (used_put hdz)
  refine ⟨hidle, ⟨?_, reserved_put hdz h.reserved, h.writable⟩, fun hbal => ?_⟩
  · rw [funext hidle.ref_all, set_vol, hused]
    exact h.ledger
  · unfold Balanced
    rw [funext hidle.ref_all, set_vol, hused]
    exact hbal

/-- A pending zone is given back. Nothing is lost, unless it is the last
zone of the volume. -/
theorem Sound.release (h : Sound fs (zone :: pend)) :
    Idle a fs (fs.set a (bitfree fs.vol zone .zmap) (fs.inode a))
      ∧ Sound (fs.set a (bitfree fs.vol zone .zmap) (fs.inode a)) pend
      ∧ (zone + 1 ≠ fs.vol.sp.zones → Balanced fs (zone :: pend) →
        Balanced (fs.set a (bitfree fs.vol zone .zmap) (fs.inode a)) pend) := by
  have hdz := (h.ledger.pend_used (List.mem_cons_self ..)).1
  by_cases hlast : zone + 1 = fs.vol.sp.zones
  · rw [bitfree_last hdz hlast, set_self]
    exact ⟨⟨Apart.refl, fun _ => rfl, fun _ _ => rfl, rfl⟩,
      ⟨h.ledger.forget, h.reserved, h.writable⟩, fun hne => absurd hlast hne⟩
  · have hhigh := hdz.2
    have hmark := bitfree_spec h.writable hdz (by omega)
    have hidle := hmark.idle (a := a) h
    have hused (x : Nat) : (bitfree fs.vol zone .zmap).Used x
        ↔ x ≠ zone ∧ fs.vol.Used x := by
      rw [hmark.used]
      simp
    refine ⟨hidle, ⟨?_, hmark.reserved h.reserved, ?_⟩, fun _ hbal => ?_⟩
    · rw [funext hidle.ref_all]
      exact h.ledger.drop hused
    · rw [set_vol, hmark.sp]
      exact h.writable
    · unfold Balanced
      rw [funext hidle.ref_all]
      exact hbal.drop hused

-- ======== steps of a slot

/-- Slot `s` of inode `a` has been set to `zone`. -/
structure Stored (a : Nat) (s : Slot) (zone : Nat) (fs fs' : Files) : Prop
    extends Apart a fs fs' where
  own_ref : ∀ t, fs'.ref (a, t) = if t = s then zone else fs.ref (a, t)
  own : ∀ t, t.isNode = false → fs.ref (a, t) ≠ 0 →
    fs'.vol.blk (fs.ref (a, t)) = fs.vol.blk (fs.ref (a, t))
  used : ∀ x, fs'.vol.Used x ↔ fs.vol.Used x
  reserved : fs.vol.Reserved → fs'.vol.Reserved
  size : (fs'.inode a).size = (fs.inode a).size

variable {fs' : Files}

theorem Stored.ref_update (h : Stored a s zone fs fs') (o : Nat × Slot) :
    fs'.ref o = if o = (a, s) then zone else fs.ref o := by
  obtain ⟨b, t⟩ := o
  by_cases hb : b = a
  · rw [hb, h.own_ref]
    simp
  · rw [h.ref b hb, if_neg (by simp [hb])]

/-- A slot in the inode. -/
theorem stored_root (zone : Nat) (ha : fs.live a = true)
    (hs : s = .single ∧ i = nrDzones ∨ s = .double ∧ i = nrDzones + 1
      ∨ s = .direct i ∧ i < nrDzones) (hold : s.isNode = true → fs.vol.Empty (fs.ref (a, s)))
    (hnew : s.isNode = true → fs.vol.Empty zone) :
    Stored a s zone fs (fs.set a fs.vol ((fs.inode a).setZone i zone)) where
  toApart := Sound.apart rfl (fun _ _ => rfl) fun _ _ _ _ => rfl
  own_ref := fun t => by
    rw [ref_live ha] at hold
    rw [ref_live (by exact ha), ref_live ha, set_vol, set_inode_self]
    exact zoneOf_setRoot hs hold hnew
  own := fun _ _ _ => rfl
  used := fun _ => Iff.rfl
  reserved := id
  size := by
    rw [set_inode_self]
    rfl

/-- An entry of a node. -/
theorem stored_entry (zone : Nat) (h : Sound fs pend) (ha : fs.live a = true) (hs : s.isNode = true)
    (hm : fs.ref (a, s) = m) (hm0 : m ≠ 0) (hi : i < nrIndirects) (hz : zone < 2 ^ 32)
    (hzm : zone ≠ m) (hold : (s.child i).isNode = true → fs.vol.Empty (fs.ref (a, s.child i)))
    (hnew : (s.child i).isNode = true → fs.vol.Empty zone) :
    Stored a (s.child i) zone fs (fs.set a (fs.vol.setZone m i zone) (fs.inode a)) := by
  have hdz : fs.vol.sp.DataZone m := hm ▸ h.dataZone (hm ▸ hm0)
  have honly {o : Nat × Slot} (ho : o ≠ (a, s)) : fs.ref o ≠ m := by
    intro he
    exact ho (h.ledger.inj (he.trans hm.symm) (he ▸ hm0))
  refine ⟨Sound.apart rfl (fun b hb => put_low hdz hb) fun b hb t _ => ?_, fun t => ?_, fun t ht _ => ?_, fun x => ?_,
    fun hres => ?_, ?_⟩
  · exact setZone_blk (honly (by simp [hb]))
  · rw [ref_live ha] at hm hold
    rw [ref_live (by exact ha), ref_live ha, set_vol, set_inode_self]
    refine zoneOf_setEntry hs hm hm0 (fun t' ht' hm' => ?_) hi hz hzm hold hnew
    by_contra hts
    refine honly (o := (a, t')) (by simp [hts]) ?_
    rw [ref_live ha]
    exact hm'
  · refine setZone_blk (honly ?_)
    intro he
    rw [Prod.mk.injEq] at he
    rw [he.2, hs] at ht
    cases ht
  · exact used_put hdz
  · exact reserved_put hdz hres
  · rw [set_inode_self]

namespace Sound

/-- A write to a slot does to the files what it does to the ledger. -/
theorem stored {z : Nat} {pend' : List Nat} (h : Sound fs pend) (hst : Stored a s z fs fs')
    (hledger : Ledger 0 fs'.ref fs.vol.Used pend')
    (hexact : Balanced fs pend → Exact fs'.ref fs.vol.Used pend') :
    Sound fs' pend' ∧ (Balanced fs pend → Balanced fs' pend') := by
  have hused : fs'.vol.Used = fs.vol.Used := funext fun x => propext (hst.used x)
  unfold Balanced at hexact ⊢
  rw [hused]
  refine ⟨⟨?_, hst.reserved h.reserved, ?_⟩, hexact⟩
  · rw [hused]
    exact hledger
  · rw [hst.sp]
    exact h.writable

/-- A pending zone goes into an empty slot. -/
theorem link (h : Sound fs (zone :: pend)) (hst : Stored a s zone fs fs')
    (hfree : fs.ref (a, s) = 0) :
    Sound fs' pend ∧ (Balanced fs (zone :: pend) → Balanced fs' pend) :=
  h.stored hst (h.ledger.link hst.ref_update)
    fun hbal => Exact.link hbal hfree not_used_zero hst.ref_update

/-- A slot gives up its zone. -/
theorem unlink (h : Sound fs pend) (hst : Stored a s 0 fs fs') (hz : fs.ref (a, s) = zone)
    (hzone : zone ≠ 0) :
    Sound fs' (zone :: pend) ∧ (Balanced fs pend → Balanced fs' (zone :: pend)) :=
  h.stored hst (h.ledger.unlink hz hzone hst.ref_update)
    fun hbal => Exact.unlink hbal hz hst.ref_update

/-- An empty slot is cleared. -/
theorem clear (h : Sound fs pend) (hst : Stored a s 0 fs fs') (hz : fs.ref (a, s) = 0) :
    Sound fs' pend ∧ (Balanced fs pend → Balanced fs' pend) := by
  have href : fs'.ref = fs.ref := by
    funext o
    rw [hst.ref_update]
    split
    · next ho => rw [ho, hz]
    · rfl
  refine h.stored hst ?_ fun hbal => ?_
  · rw [href]
    exact h.ledger
  · rw [href]
    exact hbal

end Sound

end Cnix.Fs
