/-
Conservation of the inodes in memory: an inode is on the free list exactly
when nobody refers to it.

# Where inodes get lost

`iget` drops a free inode that has to be written from the free list and
starts again, and counts on finding it written. `iput` has written every
inode with a device before it can be free. But a pipe or a socket has no
device, `iput` does not write it, and `fchmod` and `fchown` mark it all
the same. The next `iget` that comes across it takes it from the free list
for good.

# The invariant

`PoolInv`: nothing on the free list, and nothing without a device, has to
be written. Then `iget` takes its first free inode at once
(`iget_cases`), and every step keeps the list and the counts together.
-/
import Cnix.Lib.Runs
import Cnix.Fs.Pool

namespace Cnix.Fs

variable {n num : Nat} {p p' : Pool n} {i : Fin n} {dev : Dev} {rest : List (Fin n)}

-- ======== the steps

/-- What the system calls do to the table. All of them go through these
steps: `hold` is an `i_count++`, and `touch` an `i_dirty = 1`. -/
inductive PoolStep (n : Nat)
  | iget (dev : Dev) (num : Nat)
  | ialloc (dev : Dev) (num : Nat)
  | iput (i : Fin n)
  | hold (i : Fin n)
  | touch (i : Fin n)
  | link (i : Fin n) (unlinked : Bool)
  | mount (i : Fin n) (mounted : Bool)

/-- The table after a step. -/
def PoolStep.apply (p : Pool n) : PoolStep n → Option (Pool n)
  | .iget dev num => (p.iget dev num).map Prod.snd
  | .ialloc dev num => (p.ialloc dev num).map Prod.snd
  | .iput i => p.iput i
  | .hold i => some (p.set i { p.inode i with count := (p.inode i).count + 1 })
  | .touch i => some (p.set i { p.inode i with dirty := true })
  | .link i unlinked => some (p.set i { p.inode i with unlinked := unlinked })
  | .mount i mounted => some (p.set i { p.inode i with mount := mounted })

/-- A step is taken with an inode that is in use, and a file is made on a
device. -/
def PoolStep.InUse (p : Pool n) : PoolStep n → Prop
  | .ialloc dev _ => dev ≠ nodev
  | .hold i | .touch i | .link i _ | .mount i _ => (p.inode i).count ≠ 0
  | _ => True

/-- And what is marked to be written has a device. -/
def PoolStep.Writable (p : Pool n) (e : PoolStep n) : Prop :=
  e.InUse p ∧ ∀ i, e = .touch i → (p.inode i).dev ≠ nodev

/-- What is reached from the start by steps that meet `ok`. -/
abbrev PoolRun (ok : Pool n → PoolStep n → Prop) : Pool n → Prop :=
  Lib.Reached (· = initInode n) PoolStep.apply ok

-- ======== the invariant

/-- The free list has the inodes with the count 0, and none that has to be
written. -/
structure PoolInv (p : Pool n) : Prop where
  nodup : p.ifreelist.Nodup
  free : ∀ i, (p.inode i).count = 0 ↔ i ∈ p.ifreelist
  nonneg : ∀ i, 0 ≤ (p.inode i).count
  number : p.inodeFreeNum = p.ifreelist.length
  clean : ∀ i ∈ p.ifreelist, (p.inode i).dirty = false
  still : ∀ i, (p.inode i).dev = nodev → (p.inode i).dirty = false

theorem initInode_inv (n : Nat) : PoolInv (initInode n) where
  nodup := List.nodup_reverse.mpr (List.nodup_finRange n)
  free := fun i => by simp [initInode]
  nonneg := fun i => Int.le_refl 0
  number := by simp [initInode]
  clean := fun i _ => rfl
  still := fun i _ => rfl

theorem Pool.set_inode (i j : Fin n) (ino : Incore) :
    (p.set i ino).inode j = if j = i then ino else p.inode j := Function.update_apply ..

-- ======== iget and iput

namespace Pool

section Clean

variable (hclean : ∀ i ∈ p.ifreelist, (p.inode i).dirty = false)

include hclean

/-- The end of `iget` when nothing was found in the hash table. -/
theorem igetLoop_miss {dev : Dev} {turns num : Nat} {tmp : Option (Fin n)}
    (hmiss : (if dev = nodev then tmp else p.getIhash dev num) = none) :
    igetLoop dev (turns + 1) num tmp p = match p.ifreelist with
      | [] => none
      | i :: _ => some (i, (p.unhook i).fill dev num i) := by
  unfold igetLoop
  rw [hmiss]
  cases hlist : p.ifreelist with
  | nil => rfl
  | cons i rest =>
    have hi := hclean i (hlist ▸ List.mem_cons_self)
    dsimp only
    rw [hi]
    rfl

/-- If nothing on the free list has to be written, `iget` finds the inode,
takes the first free one, or there is none. -/
theorem iget_cases (dev : Dev) (num : Nat) : (∃ i, p.iget dev num = some (i, p.grab i)) ∨
      (∃ i rest num', p.ifreelist = i :: rest ∧
        p.iget dev num = some (i, (p.unhook i).fill dev num' i)) ∨
      (p.ifreelist = [] ∧ p.iget dev num = none) := by
  have hmiss (num turns : Nat) (tmp : Option (Fin n))
      (h : (if dev = nodev then tmp else p.getIhash dev num) = none) :
      (∃ i rest num', p.ifreelist = i :: rest ∧
        igetLoop dev (turns + 1) num tmp p = some (i, (p.unhook i).fill dev num' i)) ∨
      (p.ifreelist = [] ∧ igetLoop dev (turns + 1) num tmp p = none) := by
    rw [igetLoop_miss hclean h]
    cases p.ifreelist with
    | nil => exact .inr ⟨rfl, rfl⟩
    | cons i rest => exact .inl ⟨i, rest, num, rfl, rfl⟩
  unfold iget
  cases hfound : if dev = nodev then none else p.getIhash dev num with
  | none => exact .inr (hmiss num _ none hfound)
  | some i =>
    unfold igetLoop
    rw [hfound]
    dsimp only
    split
    · -- the mounted root, which the second turn looks for
      cases hroot : if dev = nodev then some i else p.getIhash dev rootInode with
      | none => exact .inr (hmiss rootInode _ (some i) hroot)
      | some j =>
        left
        refine ⟨j, ?_⟩
        unfold igetLoop
        rw [hroot]
        dsimp only
        rw [if_neg fun hne => hne.2 rfl]
    · exact .inl ⟨i, rfl⟩

/-- `iget` does not wait while there is a free inode. -/
theorem iget_some
    (hne : p.ifreelist ≠ []) (dev : Dev) (num : Nat) : ∃ i p', p.iget dev num = some (i, p') := by
  rcases iget_cases hclean dev num with ⟨i, hi⟩ | ⟨i, rest, num', -, hi⟩ | ⟨hempty, -⟩
  · exact ⟨i, _, hi⟩
  · exact ⟨i, _, hi⟩
  · exact absurd hempty hne

end Clean

/-- `iwrite` leaves an inode without a device as it is. -/
def written (ino : Incore) : Incore := { ino with dirty := ino.dirty && ino.dev == nodev }

theorem iwrite_eq (q : Pool n) (i : Fin n) : q.iwrite i = q.set i (written (q.inode i)) := by
  unfold iwrite
  split
  · next hd =>
    have hne : ((q.inode i).dev == nodev) = false := by simpa using hd.2
    unfold written
    rw [hne, Bool.and_false]
  · next hd =>
    have hsame : written (q.inode i) = q.inode i := by
      generalize q.inode i = ino at hd ⊢
      obtain ⟨dev, num, count, dirty, unlinked, mount⟩ := ino
      simp only [written, Incore.mk.injEq, true_and, and_true]
      cases dirty with
      | false => rfl
      | true => simpa using hd
    rw [hsame]
    unfold set
    rw [Function.update_eq_self]

end Pool

-- ======== the steps keep it

namespace PoolInv

variable (h : PoolInv p)

include h

/-- Writing an inode in use that stays in use. -/
theorem set (ino : Incore) (hused : (p.inode i).count ≠ 0)
    (hcount : 0 < ino.count) (hstill : ino.dev = nodev → ino.dirty = false) :
    PoolInv (p.set i ino) := by
  have hnot : i ∉ p.ifreelist := fun hmem => hused ((h.free i).mpr hmem)
  refine ⟨h.nodup, fun j => ?_, fun j => ?_, h.number, fun j hj => ?_, fun j => ?_⟩
  all_goals rw [Pool.set_inode]
  · split
    · next hji =>
      subst hji
      exact iff_of_false (Int.ne_of_gt hcount) hnot
    · exact h.free j
  · split
    · exact Int.le_of_lt hcount
    · exact h.nonneg j
  · have hne : j ≠ i := fun hji => hnot (hji ▸ hj)
    rw [if_neg hne]
    exact h.clean j hj
  · split
    · exact hstill
    · exact h.still j

/-- Only the hash table is changed. -/
theorem rehash (hash : List (Fin n)) : PoolInv { p with hash := hash } := { h with }

/-- A free inode is taken from the free list and filled. -/
theorem take (hmem : i ∈ p.ifreelist) (ino : Incore)
    (hcount : 0 < ino.count) (hstill : ino.dev = nodev → ino.dirty = false) (hash : List (Fin n)) :
    PoolInv { p.set i ino with
      hash := hash, ifreelist := p.ifreelist.erase i, inodeFreeNum := p.inodeFreeNum - 1 } := by
  have herase (j : Fin n) : j ∈ p.ifreelist.erase i ↔ j ≠ i ∧ j ∈ p.ifreelist :=
    h.nodup.mem_erase_iff
  refine ⟨h.nodup.erase i, fun j => ?_, fun j => ?_, ?_, fun j hj => ?_, fun j => ?_⟩
  · rw [Pool.set_inode, herase]
    split
    · next hji => exact iff_of_false (Int.ne_of_gt hcount) fun hj => hj.1 hji
    · next hji => simp [hji, h.free j]
  · rw [Pool.set_inode]
    split
    · exact Int.le_of_lt hcount
    · exact h.nonneg j
  · have hlen := List.length_erase_of_mem hmem
    have hpos := List.length_pos_of_mem hmem
    have hnum := h.number
    show p.inodeFreeNum - 1 = ((p.ifreelist.erase i).length : Int)
    omega
  · obtain ⟨hji, hj⟩ := (herase j).mp hj
    rw [Pool.set_inode, if_neg hji]
    exact h.clean j hj
  · rw [Pool.set_inode]
    split
    · exact hstill
    · exact h.still j

/-- An inode in use becomes free. -/
theorem release (hused : (p.inode i).count ≠ 0) (ino : Incore)
    (hcount : ino.count = 0) (hclean : ino.dirty = false) (hash : List (Fin n)) :
    PoolInv { p.set i ino with
      hash := hash, ifreelist := p.ifreelist ++ [i], inodeFreeNum := p.inodeFreeNum + 1 } := by
  have hnot : i ∉ p.ifreelist := fun hmem => hused ((h.free i).mpr hmem)
  refine ⟨?_, fun j => ?_, fun j => ?_, ?_, fun j hj => ?_, fun j => ?_⟩
  · exact List.nodup_append.mpr ⟨h.nodup, List.nodup_singleton i, fun a ha b hb => by
      rw [List.mem_singleton.mp hb]
      exact fun hai => hnot (hai ▸ ha)⟩
  · rw [Pool.set_inode, List.mem_append, List.mem_singleton]
    split
    · next hji => exact iff_of_true hcount (.inr hji)
    · next hji => simp [hji, h.free j]
  · rw [Pool.set_inode]
    split
    · exact hcount.ge
    · exact h.nonneg j
  · have hnum := h.number
    show p.inodeFreeNum + 1 = ((p.ifreelist ++ [i]).length : Int)
    rw [List.length_append, List.length_singleton]
    omega
  · rw [Pool.set_inode]
    split
    · exact hclean
    · next hji =>
      rcases List.mem_append.mp hj with hj | hj
      · exact h.clean j hj
      · exact absurd (List.mem_singleton.mp hj) hji
  · rw [Pool.set_inode]
    split
    · exact fun _ => hclean
    · exact h.still j

theorem grab (i : Fin n) : PoolInv (p.grab i) := by
  have hpos : 0 < (p.inode i).count + 1 := Int.lt_add_one_of_le (h.nonneg i)
  unfold Pool.grab
  dsimp only
  split
  · next hzero =>
    exact h.take ((h.free i).mp hzero) { p.inode i with count := (p.inode i).count + 1 } hpos
      (h.still i) p.hash
  · next hused => exact h.set _ hused hpos (h.still i)

theorem fill (hmem : i ∈ p.ifreelist) (dev : Dev)
    (num : Nat) : PoolInv ((p.unhook i).fill dev num i) :=
  h.take hmem _ Int.one_pos (fun _ => rfl) _

theorem iget (hget : p.iget dev num = some (i, p')) : PoolInv p' ∧ (p'.inode i).count ≠ 0 := by
  rcases Pool.iget_cases h.clean dev num with ⟨j, hj⟩ | ⟨j, rest, num', hlist, hj⟩ | ⟨-, hj⟩
  · rw [hj] at hget
    cases hget
    refine ⟨h.grab i, ?_⟩
    have hcount : ((p.grab i).inode i).count = (p.inode i).count + 1 := by
      unfold Pool.grab
      dsimp only
      split <;> simp [Pool.set]
    have hpos := h.nonneg i
    omega
  · rw [hj] at hget
    cases hget
    refine ⟨h.fill (hlist ▸ List.mem_cons_self) dev num', ?_⟩
    simp [Pool.fill, Pool.set]
  · rw [hj] at hget
    cases hget

theorem ialloc (hdev : dev ≠ nodev) (halloc : p.ialloc dev num = some (i, p')) : PoolInv p' := by
  unfold Pool.ialloc at halloc
  cases hget : p.iget nodev num with
  | none =>
    rw [hget] at halloc
    cases halloc
  | some r =>
    obtain ⟨j, q⟩ := r
    rw [hget] at halloc
    cases halloc
    obtain ⟨hq, hused⟩ := h.iget hget
    have hpos : 0 < (q.inode i).count := lt_of_le_of_ne (hq.nonneg i) (Ne.symm hused)
    exact (hq.set { q.inode i with dev := dev, num := num, dirty := true, unlinked := false }
      hused hpos fun hnone => absurd hnone hdev).rehash _

theorem iput (hput : p.iput i = some p') : PoolInv p' := by
  unfold Pool.iput at hput
  dsimp only at hput
  split at hput
  · cases hput
  next hneg =>
  have hused : (p.inode i).count ≠ 0 := by omega
  have hclean (count : Int) :
      (Pool.written { p.inode i with count := count }).dirty = false := by
    unfold Pool.written
    cases hd : (p.inode i).dev == nodev with
    | false => exact Bool.and_false _
    | true => simp [h.still i (by simpa using hd)]
  split at hput
  · next hzero =>
    split at hput
    · cases hput
    have hput := Option.some.inj hput
    rw [Pool.iwrite_eq] at hput
    have hwritten := h.release hused (Pool.written { p.inode i with count := 0 }) rfl
      (hclean 0) (if (p.inode i).dev ≠ nodev ∧ (p.inode i).unlinked = true
        then p.hash.erase i else p.hash)
    rw [← hput, hzero]
    simpa [Pool.set] using hwritten
  · next hmore =>
    have hput := Option.some.inj hput
    rw [Pool.iwrite_eq] at hput
    have hwritten := h.set (Pool.written { p.inode i with count := (p.inode i).count - 1 })
      hused (by show 0 < (p.inode i).count - 1; omega) (fun _ => hclean _)
    rw [← hput]
    simpa [Pool.set] using hwritten

-- ======== the runs

theorem step {e : PoolStep n} (hok : e.Writable p) (happly : e.apply p = some p') : PoolInv p' := by
  have hpos (i : Fin n) (hused : (p.inode i).count ≠ 0) : 0 < (p.inode i).count :=
    lt_of_le_of_ne (h.nonneg i) (Ne.symm hused)
  obtain ⟨huse, hdev⟩ := hok
  cases e with
  | iget dev num =>
    obtain ⟨⟨i, q⟩, hget, rfl⟩ := Option.map_eq_some_iff.mp happly
    exact (h.iget hget).1
  | ialloc dev num =>
    obtain ⟨⟨i, q⟩, halloc, rfl⟩ := Option.map_eq_some_iff.mp happly
    exact h.ialloc huse halloc
  | iput i => exact h.iput happly
  | hold i =>
    cases happly
    exact h.set _ huse (Int.lt_add_one_of_le (h.nonneg i)) (h.still i)
  | touch i =>
    cases happly
    exact h.set _ huse (hpos i huse) fun hnone => absurd hnone (hdev i rfl)
  | link i unlinked | mount i mounted =>
    cases happly
    exact h.set _ huse (hpos i huse) (h.still i)

end PoolInv

theorem PoolRun.inv (h : PoolRun PoolStep.Writable p) : PoolInv p := by
  refine Lib.Reached.inv ?_ (fun _ _ _ ih hok happly => ih.step hok happly) h
  rintro _ rfl
  exact initInode_inv n

/-- If only inodes with a device are marked to be written, an inode has the
count 0 exactly when it is on the free list, whose length is
`inode_free_num`, and `iget` waits only if all inodes are in use. -/
theorem pool_conserved (h : PoolRun PoolStep.Writable p) :
    (∀ i, (p.inode i).count = 0 ↔ i ∈ p.ifreelist) ∧ p.inodeFreeNum = p.ifreelist.length ∧
      ∀ dev num, p.iget dev num = none → ∀ i, (p.inode i).count ≠ 0 := by
  have hinv := h.inv
  refine ⟨hinv.free, hinv.number, fun dev num hnone i hzero => ?_⟩
  have hmem := (hinv.free i).mp hzero
  obtain ⟨j, q, hget⟩ := Pool.iget_some hinv.clean (List.ne_nil_of_mem hmem) dev num
  rw [hget] at hnone
  cases hnone

-- ======== an example

instance : NeZero nrInode := ⟨nofun⟩

instance (p : Pool n) (e : PoolStep n) : Decidable (e.InUse p) := by
  unfold PoolStep.InUse
  split <;> infer_instance

instance (p : Pool n) (e : PoolStep n) : Decidable (e.Writable p) :=
  have : Decidable (∀ i, e = .touch i → (p.inode i).dev ≠ nodev) :=
    match e with
    | .touch i => decidable_of_iff ((p.inode i).dev ≠ nodev) (by simp)
    | .iget _ _ | .ialloc _ _ | .iput _ | .hold _ | .link _ _ | .mount _ _ => .isTrue nofun
  inferInstanceAs (Decidable (_ ∧ _))

/-- The root is looked up, a file and a pipe are made, the file is written
and closed, and made again. -/
def makeFiles : List (PoolStep nrInode) :=
  [.iget 0 rootInode, .ialloc 0 7, .iget nodev 0, .touch 2046, .link 2046 true, .iput 2046, .ialloc 0 7]

theorem pool_conserved_files : ∃ p : Pool nrInode, PoolRun PoolStep.Writable p ∧
    (p.inode 2046).count = 0 ∧ (p.inode 2044).num = 7 ∧ p.inodeFreeNum = p.ifreelist.length := by
  obtain ⟨p, hplay, hcount, hnum⟩ : ∃ p,
      Lib.play PoolStep.apply PoolStep.Writable (initInode nrInode) makeFiles = some p ∧
      (p.inode 2046).count = 0 ∧ (p.inode 2044).num = 7 := by decide +kernel
  have hrun : PoolRun PoolStep.Writable p := .play (.first rfl) hplay
  exact ⟨p, hrun, hcount, hnum, (pool_conserved hrun).2.1⟩

-- ======== a lost inode

variable {inode : Fin n → Incore} {free : Int} {l m : List (Fin n)}

/-- An inode without a device that nobody refers to. -/
def unused (dirty : Bool) : Incore := ⟨nodev, 0, 0, dirty, true, false⟩

/-- A pipe is made and closed: its inode goes from the head of the free list
to the end. -/
theorem pipe_closed (hi : inode i = unused false) :
    Lib.play PoolStep.apply PoolStep.InUse ⟨inode, [], i :: rest, free⟩ [.iget nodev 0, .iput i]
      = some ⟨inode, [], rest ++ [i], free⟩ := by
  simp [Lib.play, PoolStep.apply, PoolStep.InUse, Pool.iget, Pool.igetLoop, Pool.unhook, Pool.fill,
    Pool.iput, Pool.iwrite, Pool.set, hi, unused]

/-- A socket is made, its mode is changed by `fchmod`, and it is closed. -/
theorem socket_closed (hi : inode i = unused false) :
    Lib.play PoolStep.apply PoolStep.InUse ⟨inode, [], i :: rest, free⟩
        [.iget nodev 0, .hold i, .touch i, .iput i, .iput i]
      = some ⟨Function.update inode i (unused true), [], rest ++ [i], free⟩ := by
  simp [Lib.play, PoolStep.apply, PoolStep.InUse, Pool.iget, Pool.igetLoop, Pool.unhook, Pool.fill,
    Pool.iput, Pool.iwrite, Pool.set, hi, unused]

/-- As many pipes as there are inodes in front of the list. -/
theorem PoolRun.pipes (h : PoolRun PoolStep.InUse ⟨inode, [], l ++ m, free⟩)
    (hl : ∀ i ∈ l, inode i = unused false) : PoolRun PoolStep.InUse ⟨inode, [], m ++ l, free⟩ := by
  induction l generalizing m with
  | nil => simpa using h
  | cons i l ih =>
    rw [List.cons_append] at h
    have hnext := h.play (pipe_closed (hl i List.mem_cons_self))
    rw [List.append_assoc] at hnext
    simpa using ih hnext fun j hj => hl j (List.mem_cons_of_mem _ hj)

/-- When the inode of such a socket has come to the head of the free list
again, the next `iget` of a file loses it. -/
theorem inode_lost : ∃ p : Pool nrInode, PoolRun PoolStep.InUse p ∧
    (∃ i, (p.inode i).count = 0 ∧ i ∉ p.ifreelist) ∧ p.inodeFreeNum ≠ p.ifreelist.length := by
  have hlist : (List.finRange nrInode).reverse = 2047 :: (List.finRange nrInode).reverse.tail := by
    decide +kernel
  have hnodup := List.nodup_reverse.mpr (List.nodup_finRange nrInode)
  have hstart : PoolRun PoolStep.InUse (initInode nrInode) := .first rfl
  unfold initInode at hstart
  rw [hlist] at hstart hnodup
  have hsocket := hstart.play (socket_closed rfl)
  have hturned := PoolRun.pipes hsocket fun i hi => Function.update_of_ne
    (show i ≠ 2047 from fun he => (List.nodup_cons.mp hnodup).1 (he ▸ hi)) ..
  obtain ⟨p, hplay, hcount, hmem, hnum⟩ : ∃ p, Lib.play PoolStep.apply PoolStep.InUse
      ⟨Function.update (fun _ => unused false) 2047 (unused true), [],
        2047 :: (List.finRange nrInode).reverse.tail, nrInode⟩ [.iget 0 rootInode] = some p ∧
      (p.inode 2047).count = 0 ∧ 2047 ∉ p.ifreelist ∧ p.inodeFreeNum ≠ p.ifreelist.length := by
    decide +kernel
  exact ⟨p, hturned.play hplay, ⟨2047, hcount, hmem⟩, hnum⟩

end Cnix.Fs
