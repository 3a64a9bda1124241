/-
What the table of inodes and the processes that sleep owe each other.

# The race

`iget` looks for the inode in the hash table, and if it is not there takes
a free one, reads it from the disk, and enters it in the hash table when
it is read. It does not look again. Two processes that want the same inode
and both sleep in between enter it twice. The same goes for a process that
waits for a free inode.

# The invariant

`Holds`: what the table owes (`PoolOk`), what every process owes where it
sleeps (`Point.Fits`), and what two processes owe each other: they do not
bring in the same number, and do not work on the same inode. Most steps
change one inode only, so that what the others owe is kept if they have
nothing to do with it (`Holds.change`).
-/
import Cnix.Fs.Sleepers
import Cnix.Fs.Proofs.Pool

namespace Cnix.Fs

open Function (update_self update_of_ne)

variable {n q : Nat} {t t' : Scene n} {p : Pool n} {pid num : Nat} {dev : Dev} {i : Fin n}
  {asked : Option (Dev × Nat)} {pt : Point n} {who : Nat → Prop}

-- ======== the property

/-- The device and the number of an inode. -/
def Incore.id (ino : Incore) : Dev × Nat := (ino.dev, ino.num)

/-- Two inodes in memory that are referenced or hashed are not the same
inode of a device. -/
def Scene.Single (t : Scene n) : Prop :=
  ∀ i j, ((t.pool.inode i).count ≠ 0 ∨ i ∈ t.pool.hash) →
    ((t.pool.inode j).count ≠ 0 ∨ j ∈ t.pool.hash) →
    (t.pool.inode i).dev ≠ nodev → (t.pool.inode i).id = (t.pool.inode j).id → i = j

/-- The process is writing the inode. -/
def Point.Writes (i : Fin n) : Point n → Prop
  | .iwrite _ _ _ j | .truncate j | .flush j => j = i
  | _ => False

/-- The number that a process is going to enter in the hash table without
looking for it again. -/
def Point.seeks : Point n → Option (Dev × Nat)
  | .loop1 asked dev num => asked.or (if dev = nodev then none else some (dev, num))
  | .iread _ dev num _ => some (dev, num)
  | .loop asked _ _ _ | .iwrite asked _ _ _ => asked
  | _ => none

/-- No other process is going to enter the number. -/
def Scene.Alone (t : Scene n) (pid : Nat) (a : Dev × Nat) : Prop :=
  ∀ q, q ≠ pid → (t.point q).seeks ≠ some a

/-- The number that `iget` looks for in the end: it goes from a mount point
to `ROOT_INODE`. -/
def Scene.sought (t : Scene n) (dev : Dev) (num : Nat) : Nat :=
  match t.pool.getIhash dev num with
  | some i => if t.lock i = none ∧ (t.pool.inode i).mount ∧ rootInode ≠ num then rootInode else num
  | none => num

/-- The first free inode has not to be written. -/
def Scene.HeadClean (t : Scene n) : Prop :=
  ∀ i, t.pool.ifreelist.head? = some i → (t.pool.inode i).dirty = false

/-- What `iget` meets at `loop`: an inode that is not in the hash table is
brought in by no other process, and for an inode without a device there is
one that has not to be written. -/
def Scene.Clear (t : Scene n) (pid : Nat) (dev : Dev) (num : Nat) : Prop :=
  if dev = nodev then t.HeadClean
  else t.pool.getIhash dev (t.sought dev num) = none → t.Alone pid (dev, t.sought dev num)

/-- What a process meets that runs on in `iget`. -/
def Point.Clear (t : Scene n) (pid : Nat) : Point n → Prop
  | .loop _ dev num _ | .iwrite _ dev num _ => t.Clear pid dev num
  | .loop1 _ dev _ => dev = nodev → t.HeadClean
  | _ => True

/-- No two processes bring in the same inode at once. -/
def Happening.Orderly (t : Scene n) (e : Happening n) : Prop :=
  e.Fair t ∧ match e with
    | .iget pid dev num => t.Clear pid dev num
    | .ialloc pid dev num =>
      t.HeadClean ∧ t.pool.getIhash dev num = none ∧ t.Alone pid (dev, num)
    | .wake pid _ => (t.point pid).Clear t pid
    | _ => True

-- ======== the invariant

/-- What the table owes. -/
structure PoolOk (p : Pool n) : Prop where
  listed : p.ifreelist.Nodup
  unused : ∀ i ∈ p.ifreelist, (p.inode i).count = 0
  nonneg : ∀ i, 0 ≤ (p.inode i).count
  hashed : p.hash.Nodup
  real : ∀ i ∈ p.hash, (p.inode i).dev ≠ nodev
  single : ∀ i ∈ p.hash, ∀ j ∈ p.hash, (p.inode i).id = (p.inode j).id → i = j
  used : ∀ i, (p.inode i).count ≠ 0 → (p.inode i).dev ≠ nodev → i ∈ p.hash

/-- The inode is neither in use nor to be found. -/
structure Limbo (p : Pool n) (i : Fin n) : Prop where
  count : (p.inode i).count = 0
  hash : i ∉ p.hash
  list : i ∉ p.ifreelist

/-- No inode of the hash table has the number. -/
def Absent (p : Pool n) (a : Dev × Nat) : Prop := ∀ i ∈ p.hash, (p.inode i).id ≠ a

/-- What a process owes where it is. -/
def Point.Fits (t : Scene n) (pid : Nat) : Point n → Prop
  | .idle | .ilock _ => True
  | .loop asked dev _ _ => asked = none ∧ dev ≠ nodev
  | .loop1 asked dev _ => asked ≠ none → dev = nodev
  | .iread asked dev num i =>
    asked = none ∧ dev ≠ nodev ∧ (t.pool.inode i).id = (dev, num) ∧ Limbo t.pool i
  | .iwrite asked dev _ i => asked = none ∧ dev ≠ nodev ∧ Limbo t.pool i
  | .truncate i =>
    t.lock i = some pid ∧ (t.pool.inode i).count = 0 ∧ i ∈ t.pool.hash ∧ i ∉ t.pool.ifreelist
  | .flush i => t.lock i = some pid ∧ (i ∈ t.pool.ifreelist → (t.pool.inode i).dirty = true)

/-- The inode that a process works on, and the one that it has taken from
the free list, and the one that it reads. -/
def Point.stake : Point n → Option (Fin n)
  | .iread _ _ _ i | .iwrite _ _ _ i | .truncate i | .flush i => some i
  | _ => none

def Point.takes : Point n → Option (Fin n)
  | .iread _ _ _ i | .iwrite _ _ _ i => some i
  | _ => none

def Point.reads : Point n → Option (Fin n)
  | .iread _ _ _ i => some i
  | _ => none

/-- The table is in order, and the processes in `who`. -/
structure Holds (who : Nat → Prop) (t : Scene n) : Prop where
  table : PoolOk t.pool
  fits : ∀ q, who q → (t.point q).Fits t q
  absent : ∀ q a, who q → (t.point q).seeks = some a → a.1 ≠ nodev ∧ Absent t.pool a
  apart : ∀ q r a, who q → who r → (t.point q).seeks = some a → (t.point r).seeks = some a → q = r
  taken : ∀ q r i, who q → who r → (t.point q).takes = some i → (t.point r).takes = some i → q = r
  read : ∀ q r i, who q → who r → (t.point q).reads = some i → t.point r ≠ .flush i

abbrev SceneInv (t : Scene n) : Prop := Holds (fun _ => True) t

/-- Without the process that runs. -/
abbrev Others (pid : Nat) (t : Scene n) : Prop := Holds (· ≠ pid) t

theorem Holds.others (h : SceneInv t) : Others pid t :=
  ⟨h.table, fun q _ => h.fits q trivial, fun q a _ => h.absent q a trivial,
    fun q r a _ _ => h.apart q r a trivial trivial, fun q r i _ _ => h.taken q r i trivial trivial,
    fun q r i _ _ => h.read q r i trivial trivial⟩

/-- The process goes on to a place where it owes what is true. -/
theorem Holds.goto (h : Others pid t) (hfits : pt.Fits t pid)
    (hseeks : ∀ a, pt.seeks = some a → a.1 ≠ nodev ∧ Absent t.pool a ∧ t.Alone pid a)
    (htakes : ∀ i, pt.takes = some i → ∀ q, q ≠ pid → (t.point q).takes ≠ some i)
    (hreads : ∀ i, pt.reads = some i → ∀ q, q ≠ pid → t.point q ≠ .flush i)
    (hflush : ∀ i, pt = .flush i → ∀ q, q ≠ pid → (t.point q).reads ≠ some i) :
    SceneInv (t.goto pid pt) := by
  have hself : (t.goto pid pt).point pid = pt := update_self ..
  have hother (q : Nat) (hq : q ≠ pid) : (t.goto pid pt).point q = t.point q :=
    update_of_ne hq ..
  refine ⟨h.table, fun q _ => ?_, fun q a _ hq => ?_, fun q r a _ _ hq hr => ?_,
    fun q r i _ _ hq hr => ?_, fun q r i _ _ hq => ?_⟩
  · by_cases hpid : q = pid
    · rw [hpid, hself]
      exact hfits
    · rw [hother q hpid]
      exact h.fits q hpid
  · rcases Lib.claim_update.mp hq with ⟨-, ha⟩ | ⟨hpid, ha⟩
    · exact ⟨(hseeks a ha).1, (hseeks a ha).2.1⟩
    · exact h.absent q a hpid ha
  · exact Lib.apart_update h.apart (fun a ha => (hseeks a ha).2.2) hq hr
  · exact Lib.apart_update h.taken htakes hq hr
  · by_cases hpid : q = pid <;> by_cases hrpid : r = pid
    · rw [hpid, hself] at hq
      rw [hrpid, hself]
      rintro rfl
      cases hq
    · rw [hpid, hself] at hq
      rw [hother r hrpid]
      exact hreads i hq r hrpid
    · rw [hother q hpid] at hq
      rw [hrpid, hself]
      exact fun hr => hflush i hr q hpid hq
    · rw [hother q hpid] at hq
      rw [hother r hrpid]
      exact h.read q r i hpid hrpid hq

/-- The process goes to a place where it owes nothing to the others. -/
theorem Holds.goto_plain (h : Others pid t) (hfits : pt.Fits t pid)
    (hseeks : pt.seeks = none) (hstake : pt.stake = none) : SceneInv (t.goto pid pt) := by
  have htakes : pt.takes = none := by
    cases pt <;> first | rfl | cases hstake
  have hreads : pt.reads = none := by
    cases pt <;> first | rfl | cases hstake
  refine h.goto hfits (fun a ha => ?_) (fun i hi => ?_) (fun i hi => ?_) (fun i hi => ?_)
  · rw [hseeks] at ha
    cases ha
  · rw [htakes] at hi
    cases hi
  · rw [hreads] at hi
    cases hi
  · rw [hi] at hstake
    cases hstake

-- ======== one inode changes

/-- A step that changes the inode `i`, its lock and its place in the lists,
and leaves it in order. -/
structure Change (i : Fin n) (t t' : Scene n) : Prop where
  point : t'.point = t.point
  inode : ∀ j, j ≠ i → t'.pool.inode j = t.pool.inode j
  lock : ∀ j, j ≠ i → t'.lock j = t.lock j
  hash : ∀ j, j ≠ i → (j ∈ t'.pool.hash ↔ j ∈ t.pool.hash)
  list : ∀ j, j ≠ i → (j ∈ t'.pool.ifreelist ↔ j ∈ t.pool.ifreelist)
  listed : t'.pool.ifreelist.Nodup
  hashed : t'.pool.hash.Nodup
  unused : i ∈ t'.pool.ifreelist → (t'.pool.inode i).count = 0
  nonneg : 0 ≤ (t'.pool.inode i).count
  real : i ∈ t'.pool.hash → (t'.pool.inode i).dev ≠ nodev
  used : (t'.pool.inode i).count ≠ 0 → (t'.pool.inode i).dev ≠ nodev → i ∈ t'.pool.hash

theorem Change.poolOk (hc : Change i t t') (h : PoolOk t.pool)
    (hsingle : i ∈ t'.pool.hash → ∀ j ∈ t.pool.hash, j ≠ i →
      (t.pool.inode j).id ≠ (t'.pool.inode i).id) : PoolOk t'.pool := by
  refine ⟨hc.listed, fun j hj => ?_, fun j => ?_, hc.hashed, fun j hj => ?_, fun j hj k hk hid => ?_,
    fun j hcount hdev => ?_⟩
  · by_cases hji : j = i
    · subst hji
      exact hc.unused hj
    · rw [hc.inode j hji]
      exact h.unused j ((hc.list j hji).mp hj)
  · by_cases hji : j = i
    · subst hji
      exact hc.nonneg
    · rw [hc.inode j hji]
      exact h.nonneg j
  · by_cases hji : j = i
    · subst hji
      exact hc.real hj
    · rw [hc.inode j hji]
      exact h.real j ((hc.hash j hji).mp hj)
  · by_cases hji : j = i <;> by_cases hki : k = i
    · exact hji.trans hki.symm
    · subst hji
      rw [hc.inode k hki] at hid
      exact absurd hid.symm (hsingle hj k ((hc.hash k hki).mp hk) hki)
    · subst hki
      rw [hc.inode j hji] at hid
      exact absurd hid (hsingle hk j ((hc.hash j hji).mp hj) hji)
    · rw [hc.inode j hji, hc.inode k hki] at hid
      exact h.single j ((hc.hash j hji).mp hj) k ((hc.hash k hki).mp hk) hid
  · by_cases hji : j = i
    · subst hji
      exact hc.used hcount hdev
    · rw [hc.inode j hji] at hcount hdev
      exact (hc.hash j hji).mpr (h.used j hcount hdev)

/-- A process that does not work on the inode owes what it owed. -/
theorem Change.fits (hc : Change i t t') (hfits : pt.Fits t pid)
    (hstake : pt.stake ≠ some i) : pt.Fits t' pid := by
  have hne {j : Fin n} (hj : pt.stake = some j) : j ≠ i := fun hji => hstake (hji ▸ hj)
  have hlimbo {j : Fin n} (hj : pt.stake = some j) (hl : Limbo t.pool j) : Limbo t'.pool j := by
    have hji := hne hj
    refine ⟨?_, fun hmem => hl.hash ((hc.hash j hji).mp hmem),
      fun hmem => hl.list ((hc.list j hji).mp hmem)⟩
    rw [hc.inode j hji]
    exact hl.count
  cases pt with
  | idle | ilock _ | loop _ _ _ _ | loop1 _ _ _ => exact hfits
  | iread asked dev num j =>
    obtain ⟨hask, hdev, hid, hl⟩ := hfits
    exact ⟨hask, hdev, (hc.inode j (hne rfl)).symm ▸ hid, hlimbo rfl hl⟩
  | iwrite asked dev num j => exact ⟨hfits.1, hfits.2.1, hlimbo rfl hfits.2.2⟩
  | truncate j =>
    have hji := hne rfl
    obtain ⟨hlock, hcount, hhash, hlist⟩ := hfits
    refine ⟨(hc.lock j hji).trans hlock, ?_, (hc.hash j hji).mpr hhash,
      fun hmem => hlist ((hc.list j hji).mp hmem)⟩
    rw [hc.inode j hji]
    exact hcount
  | flush j =>
    have hji := hne rfl
    refine ⟨(hc.lock j hji).trans hfits.1, fun hmem => ?_⟩
    rw [hc.inode j hji]
    exact hfits.2 ((hc.list j hji).mp hmem)

/-- What the others owe is kept by a step on an inode that they do not work
on, or not so that it matters, and that does not enter what they seek. -/
theorem Holds.change (h : Holds who t) (hc : Change i t t')
    (hstake : ∀ q, who q → (t.point q).stake = some i → (t.point q).Fits t' q)
    (hsingle : i ∈ t'.pool.hash → ∀ j ∈ t.pool.hash, j ≠ i →
      (t.pool.inode j).id ≠ (t'.pool.inode i).id)
    (hsought : i ∈ t'.pool.hash → ∀ q, who q → (t.point q).seeks ≠ some (t'.pool.inode i).id) :
    Holds who t' := by
  refine ⟨hc.poolOk h.table hsingle, fun q hq => ?_, fun q a hq hseeks => ?_, ?_, ?_, ?_⟩
  · rw [hc.point]
    by_cases hi : (t.point q).stake = some i
    · exact hstake q hq hi
    · exact hc.fits (h.fits q hq) hi
  · rw [hc.point] at hseeks
    refine ⟨(h.absent q a hq hseeks).1, fun j hj hid => ?_⟩
    by_cases hji : j = i
    · subst hji
      exact hsought hj q hq (hid ▸ hseeks)
    · rw [hc.inode j hji] at hid
      exact (h.absent q a hq hseeks).2 j ((hc.hash j hji).mp hj) hid
  all_goals rw [hc.point]
  · exact h.apart
  · exact h.taken
  · exact h.read

/-- If the inode keeps its number and is not entered, nothing more is
needed. -/
theorem Holds.keep (h : Holds who t) (hc : Change i t t')
    (hid : (t'.pool.inode i).id = (t.pool.inode i).id) (hhash : i ∈ t'.pool.hash → i ∈ t.pool.hash)
    (hstake : ∀ q, who q → (t.point q).stake = some i → (t.point q).Fits t' q) : Holds who t' := by
  refine h.change hc hstake (fun hi j hj hji => ?_) (fun hi q hq hseeks => ?_)
  · rw [hid]
    exact fun hsame => hji (h.table.single j hj i (hhash hi) hsame)
  · rw [hid] at hseeks
    exact (h.absent q _ hq hseeks).2 i (hhash hi) rfl

/-- What a process works on is in use only if it has the lock. -/
theorem Holds.stake_cases (h : Holds who t) (hq : who q) (hi : (t.point q).stake = some i) :
    Limbo t.pool i ∨ (t.lock i = some q ∧ (t.pool.inode i).count = 0 ∧ t.point q = .truncate i) ∨
      (t.lock i = some q ∧ t.point q = .flush i) := by
  have hfits := h.fits q hq
  cases hpt : t.point q with
  | idle | ilock _ | loop _ _ _ _ | loop1 _ _ _ =>
    rw [hpt] at hi
    cases hi
  | iread asked dev num j =>
    rw [hpt] at hi hfits
    cases hi
    exact .inl hfits.2.2.2
  | iwrite asked dev num j =>
    rw [hpt] at hi hfits
    cases hi
    exact .inl hfits.2.2
  | truncate j =>
    rw [hpt] at hi hfits
    cases hi
    exact .inr (.inl ⟨hfits.1, hfits.2.1, rfl⟩)
  | flush j =>
    rw [hpt] at hi hfits
    cases hi
    exact .inr (.inr ⟨hfits.1, rfl⟩)

/-- A lock that the process has, or that nobody has. -/
theorem Scene.lock_ne (hlock : t.lock i = some pid ∨ t.lock i = none) (hq : q ≠ pid) :
    t.lock i ≠ some q := by
  rcases hlock with hl | hl
  · rw [hl]
    exact fun he => hq (Option.some.inj he).symm
  · rw [hl]
    exact nofun

/-- An inode in use is worked on by nobody but the one with its lock. -/
theorem Holds.no_stake (h : Holds who t) (hused : (t.pool.inode i).count ≠ 0)
    (hlock : ∀ q, who q → t.lock i ≠ some q) (hq : who q) : (t.point q).stake ≠ some i := by
  intro hi
  rcases h.stake_cases hq hi with hl | ⟨hl, -, -⟩ | ⟨hl, -⟩
  · exact hused hl.count
  · exact hlock q hq hl
  · exact hlock q hq hl

theorem Holds.takes_limbo (h : Holds who t) (hq : who q)
    (hi : (t.point q).takes = some i) : Limbo t.pool i := by
  have hfits := h.fits q hq
  cases hpt : t.point q with
  | iread asked dev num j =>
    rw [hpt] at hi hfits
    cases hi
    exact hfits.2.2.2
  | iwrite asked dev num j =>
    rw [hpt] at hi hfits
    cases hi
    exact hfits.2.2
  | _ =>
    rw [hpt] at hi
    cases hi

/-- A process that is in no call owes nothing. -/
theorem Holds.of_idle (h : Others pid t) (hidle : t.point pid = .idle) : SceneInv t := by
  have hgoto : SceneInv (t.goto pid .idle) := h.goto_plain trivial rfl rfl
  have hsame : t.goto pid .idle = t := by
    unfold Scene.goto
    rw [← hidle, Function.update_eq_self]
  rwa [hsame] at hgoto

-- ======== a free inode

/-- The first free inode is taken from the lists. -/
def Scene.unhooked (t : Scene n) (i : Fin n) : Scene n := { t with pool := t.pool.unhook i }

theorem unhooked_change (h : PoolOk t.pool) (hmem : i ∈ t.pool.ifreelist) :
    Change i t (t.unhooked i) ∧ Limbo (t.unhooked i).pool i := by
  have hcount := h.unused i hmem
  have hlist (j : Fin n) : j ∈ (t.unhooked i).pool.ifreelist ↔ j ≠ i ∧ j ∈ t.pool.ifreelist :=
    h.listed.mem_erase_iff
  have hhash (j : Fin n) : j ∈ (t.unhooked i).pool.hash ↔ j ≠ i ∧ j ∈ t.pool.hash := by
    show j ∈ (if (t.pool.inode i).dev = nodev then t.pool.hash else t.pool.hash.erase i) ↔ _
    split
    · next hdev => exact ⟨fun hj => ⟨fun hji => h.real j hj (hji ▸ hdev), hj⟩, And.right⟩
    · exact h.hashed.mem_erase_iff
  have hnot : i ∉ (t.unhooked i).pool.hash := fun hi => ((hhash i).mp hi).1 rfl
  have hnot' : i ∉ (t.unhooked i).pool.ifreelist := fun hi => ((hlist i).mp hi).1 rfl
  refine ⟨⟨rfl, fun _ _ => rfl, fun _ _ => rfl, fun j hj => ?_, fun j hj => ?_, h.listed.erase i,
    ?_, fun hi => absurd hi hnot', hcount.ge, fun hi => absurd hi hnot,
    fun hused => absurd hcount hused⟩, hcount, hnot, hnot'⟩
  · rw [hhash]
    exact and_iff_right hj
  · rw [hlist]
    exact and_iff_right hj
  · show (if (t.pool.inode i).dev = nodev then t.pool.hash else t.pool.hash.erase i).Nodup
    split
    · exact h.hashed
    · exact h.hashed.erase i

/-- Only a process that still writes a free inode works on it. -/
theorem Holds.free_stake (h : Holds who t) (hmem : i ∈ t.pool.ifreelist)
    (hq : who q) (hi : (t.point q).stake = some i) :
    t.point q = .flush i ∧ (t.pool.inode i).dirty = true := by
  have hfits := h.fits q hq
  rcases h.stake_cases hq hi with hl | ⟨-, -, hpt⟩ | ⟨-, hpt⟩
  · exact absurd hmem hl.list
  · rw [hpt] at hfits
    exact absurd hmem hfits.2.2.2
  · rw [hpt] at hfits
    exact ⟨hpt, hfits.2 hmem⟩

theorem Holds.clean_stake (h : Holds who t) (hmem : i ∈ t.pool.ifreelist)
    (hclean : (t.pool.inode i).dirty = false) (hq : who q) : (t.point q).stake ≠ some i := by
  intro hi
  have hdirty := (h.free_stake hmem hq hi).2
  rw [hclean] at hdirty
  cases hdirty

theorem Holds.unhook (h : Others pid t) (hmem : i ∈ t.pool.ifreelist) :
    Others pid (t.unhooked i) := by
  obtain ⟨hc, hl⟩ := unhooked_change h.table hmem
  refine h.keep hc rfl (fun hi => absurd hi hl.hash) fun q hq hi => ?_
  obtain ⟨hpt, -⟩ := h.free_stake hmem hq hi
  have hfits := h.fits q hq
  rw [hpt] at hfits ⊢
  exact ⟨hfits.1, fun hi => absurd hi hl.list⟩

/-- An inode that nobody finds is changed. -/
theorem Limbo.setInode (hl : Limbo t.pool i) (h : PoolOk t.pool) (ino : Incore)
    (hcount : ino.count = 0) : Change i t (t.setInode i ino) ∧ Limbo (t.setInode i ino).pool i := by
  have hself : (t.setInode i ino).pool.inode i = ino := update_self ..
  refine ⟨⟨rfl, fun j hj => update_of_ne hj .., fun _ _ => rfl, fun _ _ => Iff.rfl,
    fun _ _ => Iff.rfl, h.listed, h.hashed, fun hi => absurd hi hl.list, ?_,
    fun hi => absurd hi hl.hash, fun hused => ?_⟩, ?_, hl.hash, hl.list⟩
  · rw [hself, hcount]
  · rw [hself, hcount] at hused
    exact absurd rfl hused
  · rw [hself, hcount]

/-- The first free inode, which nobody writes, is taken for a number that
nobody else brings in. -/
theorem Holds.claim (h : Others pid t) (hmem : i ∈ t.pool.ifreelist)
    (hclean : (t.pool.inode i).dirty = false) (hdev : dev ≠ nodev)
    (habsent : Absent t.pool (dev, num)) (halone : t.Alone pid (dev, num)) :
    SceneInv (((t.unhooked i).setInode i { t.pool.inode i with dev := dev, num := num }).goto pid
      (.iread none dev num i)) := by
  obtain ⟨hc, hl⟩ := unhooked_change h.table hmem
  have hstake (q : Nat) (hq : q ≠ pid) := h.clean_stake hmem hclean hq
  have h1 := h.unhook hmem
  have hcount : (t.pool.inode i).count = 0 := h.table.unused i hmem
  obtain ⟨hc1, hl1⟩ := hl.setInode h1.table { t.pool.inode i with dev := dev, num := num } hcount
  have h2 := h1.change hc1 (fun q hq hi => absurd hi (hstake q hq)) (fun hi => absurd hi hl1.hash)
    (fun hi => absurd hi hl1.hash)
  have hself : ((t.unhooked i).setInode i { t.pool.inode i with dev := dev, num := num }).pool.inode i
      = { t.pool.inode i with dev := dev, num := num } := update_self ..
  refine h2.goto ⟨rfl, hdev, ?_, hl1⟩ (fun a ha => ?_) (fun j hj q hq hi => ?_)
    (fun j hj q hq hi => ?_) nofun
  · rw [hself]
    rfl
  · cases ha
    refine ⟨hdev, fun j hj => ?_, halone⟩
    have hji : j ≠ i := fun hji => hl1.hash (hji ▸ hj)
    rw [hc1.inode j hji]
    exact habsent j ((hc.hash j hji).mp hj)
  · cases hj
    exact (h.takes_limbo hq hi).list hmem
  · cases hj
    apply hstake q hq
    have hpt : t.point q = .flush i := hi
    rw [hpt]
    rfl

/-- The inode comes into use. With a device it is entered in the hash
table. -/
def Scene.entered (t : Scene n) (pid : Nat) (i : Fin n) (ino : Incore) (free : Int) : Scene n :=
  { t.setLock i (some pid) with
    pool := { t.pool.set i ino with
      hash := if ino.dev = nodev then t.pool.hash else i :: t.pool.hash
      inodeFreeNum := free } }

theorem Holds.enter (h : Others pid t) (hl : Limbo t.pool i) (ino : Incore) (free : Int)
    (hcount : ino.count = 1) (hstake : ∀ q, q ≠ pid → (t.point q).stake ≠ some i)
    (habsent : ino.dev ≠ nodev → Absent t.pool ino.id ∧ t.Alone pid ino.id) :
    SceneInv ((t.entered pid i ino free).goto pid .idle) := by
  have hself : (t.entered pid i ino free).pool.inode i = ino := update_self ..
  have hhash (j : Fin n) (hj : j ≠ i) :
      j ∈ (t.entered pid i ino free).pool.hash ↔ j ∈ t.pool.hash := by
    show j ∈ (if ino.dev = nodev then t.pool.hash else i :: t.pool.hash) ↔ _
    split
    · exact Iff.rfl
    · rw [List.mem_cons]
      exact or_iff_right hj
  have hentered : i ∈ (t.entered pid i ino free).pool.hash → ino.dev ≠ nodev := by
    intro hi hdev
    have hsame : (t.entered pid i ino free).pool.hash = t.pool.hash := if_pos hdev
    exact hl.hash (hsame ▸ hi)
  have hc : Change i t (t.entered pid i ino free) := by
    refine ⟨rfl, fun j hj => update_of_ne hj .., fun j hj => update_of_ne hj ..,
      hhash, fun _ _ => Iff.rfl, h.table.listed, ?_, fun hi => absurd hi hl.list, ?_, ?_, ?_⟩
    · show (if ino.dev = nodev then t.pool.hash else i :: t.pool.hash).Nodup
      split
      · exact h.table.hashed
      · exact List.nodup_cons.mpr ⟨hl.hash, h.table.hashed⟩
    · rw [hself, hcount]
      exact Int.one_nonneg
    · rw [hself]
      exact hentered
    · rw [hself]
      intro _ hdev
      show i ∈ (if ino.dev = nodev then t.pool.hash else i :: t.pool.hash)
      rw [if_neg hdev]
      exact List.mem_cons_self
  refine (h.change hc (fun q hq hi => absurd hi (hstake q hq)) (fun hi j hj _ => ?_)
    (fun hi => ?_)).goto_plain trivial rfl rfl
  · rw [hself]
    exact (habsent (hentered hi)).1 j hj
  · rw [hself]
    exact (habsent (hentered hi)).2

/-- An inode of the hash table that is not locked is used once more. -/
theorem Holds.grab (h : Others pid t) (hmem : i ∈ t.pool.hash) (hlock : t.lock i = none) :
    SceneInv (Scene.handOut { t with pool := t.pool.grab i } pid none i) := by
  have hnonneg := h.table.nonneg i
  have hinode (j : Fin n) : (t.pool.grab i).inode j
      = if j = i then { t.pool.inode i with count := (t.pool.inode i).count + 1 }
        else t.pool.inode j := by
    unfold Pool.grab
    dsimp only
    split
    · exact Pool.set_inode i j _
    · exact Pool.set_inode i j _
  have hself : (t.pool.grab i).inode i
      = { t.pool.inode i with count := (t.pool.inode i).count + 1 } := by
    rw [hinode, if_pos rfl]
  have hhash : (t.pool.grab i).hash = t.pool.hash := by
    unfold Pool.grab
    dsimp only
    split <;> rfl
  have hlist : (t.pool.grab i).ifreelist = t.pool.ifreelist.erase i := by
    unfold Pool.grab
    dsimp only
    split
    · rfl
    · next hused =>
      exact (List.erase_of_not_mem fun hi => hused (h.table.unused i hi)).symm
  have hc : Change i t (Scene.setLock { t with pool := t.pool.grab i } i (some pid)) := by
    refine ⟨rfl, fun j hj => ?_, fun j hj => update_of_ne hj .., fun j _ => ?_, fun j hj => ?_,
      ?_, ?_, fun hi => ?_, ?_, fun _ => ?_, fun _ _ => ?_⟩
    · exact (hinode j).trans (if_neg hj)
    · exact hhash ▸ Iff.rfl
    · show j ∈ (t.pool.grab i).ifreelist ↔ _
      rw [hlist, h.table.listed.mem_erase_iff]
      exact and_iff_right hj
    · show (t.pool.grab i).ifreelist.Nodup
      rw [hlist]
      exact h.table.listed.erase i
    · show (t.pool.grab i).hash.Nodup
      rw [hhash]
      exact h.table.hashed
    · have hi' : i ∈ (t.pool.grab i).ifreelist := hi
      rw [hlist, h.table.listed.mem_erase_iff] at hi'
      exact absurd rfl hi'.1
    · show 0 ≤ ((t.pool.grab i).inode i).count
      rw [hself]
      exact Int.le_add_one hnonneg
    · show ((t.pool.grab i).inode i).dev ≠ nodev
      rw [hself]
      exact h.table.real i hmem
    · show i ∈ (t.pool.grab i).hash
      rw [hhash]
      exact hmem
  refine (h.keep hc ?_ (fun _ => hmem) fun q hq hi => ?_).goto_plain trivial rfl rfl
  · show ((t.pool.grab i).inode i).id = _
    rw [hself]
    rfl
  · -- what is in the hash table and not locked is worked on by nobody
    rcases h.stake_cases hq hi with hl | ⟨hl, -⟩ | ⟨hl, -⟩
    · exact absurd hmem hl.hash
    · rw [hlock] at hl
      cases hl
    · rw [hlock] at hl
      cases hl

end Cnix.Fs
