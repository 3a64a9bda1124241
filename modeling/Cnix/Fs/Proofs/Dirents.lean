/-
What a sequence of `sys_getdents` lists.

What has been listed, followed by the used entries behind the position, is
the used entries of the directory: a round of the loop reads one entry,
and lists it if it is used (`getdentsLoop_spec`). Records are multiples of
four long, so that the last one gets longer than the room that was tested
for only if the count is no such multiple.
-/
import Cnix.Fs.Dirents
import Cnix.Fs.Proofs.Lookup

namespace Cnix.Fs

open Lib

/-- Entry `k` of a file. -/
def Files.slot (fs : Files) (a k : Nat) : Direct :=
  direct (fs.content a (slotOf (k / directs))) (k % directs)

/-- The entries of a directory, the free ones among them. -/
def Files.slots (fs : Files) (a : Nat) : List Direct :=
  (List.range ((fs.inode a).size / directSize)).map (fs.slot a)

/-- The entries that are not free. -/
def used (l : List Direct) : List Direct := l.filter fun e => e.ino != 0

theorem used_cons {x : Direct} {l : List Direct} : used (x :: l) = if x.ino = 0 then used l else x :: used l := by
  unfold used
  rw [List.filter_cons]
  by_cases hx : x.ino = 0
  · rw [if_pos hx, hx]
    rfl
  · rw [if_neg hx, if_pos (by simpa using hx)]

/-- A directory of whole entries. -/
structure Listable (fs : Files) (a : Nat) : Prop where
  live : fs.live a = true
  whole : (fs.inode a).size % directSize = 0
  bounded : (fs.inode a).size ≤ filesizeMax

/-- The entry that a record is for. -/
def Dirent.entry (r : Dirent) : Direct := ⟨r.ino, r.name⟩

variable {fs : Files} {a k loc : Nat} {count : Nat} {records : List Dirent}

theorem direct_congr {data data' : Block} {i : Nat}
    (h : ∀ x, directSize * i ≤ x → x < directSize * i + directSize → data' x = data x) :
    direct data' i = direct data i := by
  simp only [directSize] at h
  simp only [direct, directSize, nameMax]
  congr 1
  · rw [h _ (by omega) (by omega), h _ (by omega) (by omega)]
  · congr 1
    apply List.map_congr_left
    intro x hx
    rw [List.mem_range'_1] at hx
    exact h x (by omega) (by omega)

/-- An entry alone. -/
theorem direct_shift (data : Block) (j : Nat) :
    direct (fun i => data (directSize * j + i)) 0 = direct data j := by
  unfold direct memread
  congr 2

/-- The entry at the position, as it is read. -/
theorem Listable.read (hd : Listable fs a) (hk : k < (fs.inode a).size / directSize) :
    ∃ bytes, doRead fs.vol (fs.inode a) (directSize * k) directSize = (bytes, directSize * (k + 1))
      ∧ bytes.length = directSize ∧ readDirect bytes = fs.slot a k := by
  have hsize : directSize = 32 := rfl
  have hwhole := hd.whole
  have hlen : ((fs.array a).read (directSize * k) directSize).length = directSize := by
    rw [Sparse.length_read, show (fs.array a).size = (fs.inode a).size from rfl]
    rw [hsize] at hk hwhole ⊢
    omega
  refine ⟨_, (doRead_eq hd.live hd.bounded _ _).trans ?_, hlen, ?_⟩
  · rw [hlen]
    rfl
  · rw [readDirect, Files.slot, ← direct_shift (fs.content a (slotOf (k / directs))) (k % directs)]
    refine direct_congr fun i _ hi => ?_
    unfold Sparse.read
    have hi' : i < min (directSize * k + directSize) (fs.array a).size - directSize * k := by
      rw [Sparse.length_read] at hlen
      omega
    rw [List.getD_eq_getElem?_getD, List.getElem?_map, List.getElem?_range' hi']
    show fs.content a (slotOf ((directSize * k + 1 * i) / blocksiz)) ((directSize * k + 1 * i) % blocksiz) = _
    have hdirects : directs = 32 := rfl
    have hblocksiz : blocksiz = 1024 := rfl
    have hdiv : (32 * k + 1 * i) / 1024 = k / 32 := by omega
    have hmod : (32 * k + 1 * i) % 1024 = 32 * (k % 32) + i := by omega
    rw [hsize, hdirects, hblocksiz, hdiv, hmod]

/-- Behind the last entry nothing is read. -/
theorem Listable.last (hd : Listable fs a) (hk : (fs.inode a).size / directSize ≤ k) :
    doRead fs.vol (fs.inode a) (directSize * k) directSize = ([], directSize * k) := by
  have hsize : directSize = 32 := rfl
  have hwhole := hd.whole
  have hnil : (fs.array a).read (directSize * k) directSize = [] := by
    refine Sparse.read_nil ?_
    rw [show (fs.array a).size = (fs.inode a).size from rfl]
    rw [hsize] at hk hwhole ⊢
    omega
  rw [doRead_eq hd.live hd.bounded, hnil]
  rfl

-- ======== the loop

/-- No used entry from `k` on has a name of thirty bytes. -/
def Files.Short (fs : Files) (a k : Nat) : Prop :=
  ∀ e ∈ used ((fs.slots a).drop k), e.name.length < nameMax

theorem slots_drop (hk : k < (fs.inode a).size / directSize) :
    (fs.slots a).drop k = fs.slot a k :: (fs.slots a).drop (k + 1) := by
  have hlen : k < (fs.slots a).length := by
    rw [Files.slots, List.length_map, List.length_range]
    exact hk
  rw [List.drop_eq_getElem_cons hlen]
  simp [Files.slots]

theorem reclen_le {name : Name} (hn : name.length ≤ nameMax) : reclen name ≤ 44 ∧ 4 ∣ reclen name
    ∧ (name.length < nameMax → reclen name ≤ 40) := by
  have hmax : nameMax = 30 := rfl
  have hoff : nameoff = 10 := rfl
  unfold reclen
  omega

theorem dirbytes_zero (hr : ∀ e ∈ records, e.reclen = reclen e.name)
    (hzero : dirbytes records = 0) : records = [] := by
  cases records with
  | nil => rfl
  | cons e records =>
    have he := hr e (List.mem_cons_self ..)
    have hsum : dirbytes (e :: records) = e.reclen + dirbytes records := rfl
    unfold reclen at he
    omega

theorem slot_short : (fs.slot a k).name.length ≤ nameMax := by
  refine Nat.le_trans (cstring_length _) ?_
  rw [memread, List.length_map, List.length_range']

/-- What a call lists from entry `k` on, and where it stops. -/
structure Lists (fs : Files) (a count loc k : Nat) (r : Listing) (records : List Dirent) (k' : Nat) :
    Prop where
  ret : r.ret = .ok records
  pos : r.pos = directSize * k'
  bound : k' ≤ (fs.inode a).size / directSize
  reclen : ∀ e ∈ records, e.reclen = reclen e.name
  entries : records.map Dirent.entry ++ used ((fs.slots a).drop k') = used ((fs.slots a).drop k)
  room : 4 ∣ count ∧ 4 ∣ loc ∨ fs.Short a k → loc ≤ count → loc + dirbytes records ≤ count
  full : used ((fs.slots a).drop k') = [] ∨ count < loc + dirbytes records + (nameoff + nameMax + 1)

theorem Lists.stop (hk : k ≤ (fs.inode a).size / directSize)
    (hstop : used ((fs.slots a).drop k) = [] ∨ count < loc + (nameoff + nameMax + 1)) :
    Lists fs a count loc k ⟨.ok [], directSize * k⟩ [] k :=
  ⟨rfl, rfl, hk, nofun, rfl, fun _ hle => hle, hstop⟩

/-- A used entry is listed. -/
theorem Lists.cons {r : Listing} {k' off : Nat} {e : Direct}
    (hdrop : used ((fs.slots a).drop k) = e :: used ((fs.slots a).drop (k + 1)))
    (hlen : e.name.length ≤ nameMax) (hroom : ¬ count < loc + (nameoff + nameMax + 1))
    (hl : Lists fs a count (loc + Fs.reclen e.name) (k + 1) r records k') :
    Lists fs a count loc k (r.cons ⟨e.ino, off, Fs.reclen e.name, e.name⟩)
      (⟨e.ino, off, Fs.reclen e.name, e.name⟩ :: records) k' := by
  obtain ⟨hlong, hfour, hshort⟩ := reclen_le hlen
  have hmin : nameoff + nameMax + 1 = 41 := rfl
  have hbytes : dirbytes (⟨e.ino, off, Fs.reclen e.name, e.name⟩ :: records)
      = Fs.reclen e.name + dirbytes records := rfl
  refine ⟨?_, hl.pos, hl.bound, fun x hx => ?_, ?_, fun hcount hle => ?_, ?_⟩
  · rw [Listing.cons, hl.ret]
    rfl
  · rcases List.mem_cons.mp hx with rfl | hx
    · rfl
    · exact hl.reclen x hx
  · rw [hdrop, List.map_cons, List.cons_append, hl.entries]
    rfl
  · -- the record fits: its length is rounded, but so is the count
    have hnext : 4 ∣ count ∧ 4 ∣ loc + Fs.reclen e.name ∨ fs.Short a (k + 1) := by
      refine hcount.imp (fun h => ⟨h.1, by omega⟩) fun h x hx => h x ?_
      rw [hdrop]
      exact List.mem_cons_of_mem _ hx
    have hfits : loc + Fs.reclen e.name ≤ count := by
      rcases hcount with ⟨hc, hloc⟩ | h
      · omega
      · have := hshort (h e (by rw [hdrop]; exact List.mem_cons_self ..))
        omega
    have hrest := hl.room hnext hfits
    omega
  · exact hl.full.imp_right fun h => by omega

/-- From entry `k` on, with rounds for all that are left. -/
theorem getdentsLoop_spec (hd : Listable fs a) : ∀ {rounds loc k : Nat},
    k ≤ (fs.inode a).size / directSize → (fs.inode a).size / directSize < rounds + k → ∃ records k',
      Lists fs a count loc k (getdentsLoop fs.vol (fs.inode a) count rounds loc (directSize * k)) records
        k' := by
  intro rounds
  induction rounds with
  | zero =>
    omega
  | succ rounds ih =>
    intro loc k hle hrounds
    rw [getdentsLoop]
    by_cases hroom : count < loc + (nameoff + nameMax + 1)
    · rw [if_pos hroom]
      exact ⟨[], k, .stop hle (.inr hroom)⟩
    rw [if_neg hroom]
    by_cases hk : k < (fs.inode a).size / directSize
    · obtain ⟨bytes, hread, hlen, hdirect⟩ := hd.read hk
      have hdrop := congrArg used (slots_drop hk)
      rw [hread]
      dsimp only
      rw [if_neg (not_not_intro hlen), hdirect]
      by_cases hused : (fs.slot a k).ino = 0
      · rw [if_pos hused]
        obtain ⟨records, k', hl⟩ : ∃ records k', Lists fs a count loc (k + 1) _ records k' :=
          ih hk (by omega)
        have hskip : used ((fs.slots a).drop k) = used ((fs.slots a).drop (k + 1)) := by
          rw [hdrop, used_cons, if_pos hused]
        refine ⟨records, k', hl.ret, hl.pos, hl.bound, hl.reclen, hskip ▸ hl.entries, fun hcount => ?_, hl.full⟩
        refine hl.room (hcount.imp_right fun hshort e he => hshort e ?_)
        rwa [hskip]
      · rw [if_neg hused]
        rw [used_cons, if_neg hused] at hdrop
        obtain ⟨records, k', hl⟩ := ih hk (by omega)
        exact ⟨_, k', hl.cons hdrop slot_short hroom⟩
    · rw [hd.last (Nat.le_of_not_lt hk)]
      refine ⟨[], k, .stop hle (.inl ?_)⟩
      rw [List.drop_eq_nil_of_le]
      · rfl
      · rw [Files.slots, List.length_map, List.length_range]
        exact Nat.le_of_not_lt hk

-- ======== the calls

/-- A process that lists the directory: `f_pos` and the records so far. -/
structure Reader where
  pos : Nat
  seen : List Dirent

/-- A call with the count. -/
def Reader.call (fs : Files) (a : Nat) (r : Reader) (count : Nat) : Option Reader :=
  match (sysGetdents fs.vol (fs.inode a) count r.pos).ret with
  | .error _ => none
  | .ok records => some ⟨(sysGetdents fs.vol (fs.inode a) count r.pos).pos, r.seen ++ records⟩

/-- A record with the longest name has room if there is anything to list,
and the count is a multiple of four if such a name may come. -/
structure Reader.Roomy (fs : Files) (a : Nat) (r : Reader) (count : Nat) : Prop where
  positive : 0 < count
  room : nameoff + nameMax + 1 ≤ count ∨ used ((fs.slots a).drop (r.pos / directSize)) = []
  rounded : 4 ∣ count ∨ fs.Short a (r.pos / directSize)

/-- The position is that of an entry, and what is in front of it has been
listed. -/
def Reader.Good (fs : Files) (a : Nat) (r : Reader) : Prop :=
  ∃ k ≤ (fs.inode a).size / directSize, r.pos = directSize * k
    ∧ r.seen.map Dirent.entry ++ used ((fs.slots a).drop k) = used (fs.slots a)

theorem sysGetdents_spec (hd : Listable fs a) (hk : k ≤ (fs.inode a).size / directSize)
    (hcount : 0 < count) : ∃ records k',
      Lists fs a count 0 k (sysGetdents fs.vol (fs.inode a) count (directSize * k)) records k' := by
  rw [sysGetdents, if_neg (by omega)]
  exact getdentsLoop_spec hd hk (by omega)

theorem Reader.Good.call {r r' : Reader} (hd : Listable fs a) (hg : r.Good fs a) (hcount : 0 < count)
    (hr : r.call fs a count = some r') : r'.Good fs a := by
  obtain ⟨k, hk, hpos, hseen⟩ := hg
  obtain ⟨records, k', hl⟩ := sysGetdents_spec hd hk hcount
  rw [← hpos] at hl
  rw [Reader.call, hl.ret] at hr
  cases hr
  refine ⟨k', hl.bound, hl.pos, ?_⟩
  rw [List.map_append, List.append_assoc, hl.entries, hseen]

/-- Each call returns whole records that fit; together they list the used
entries in their order, and all of them have been listed when nothing is
returned. -/
theorem getdents_exact {r : Reader} (hd : Listable fs a)
    (h : Reached (· = (⟨0, []⟩ : Reader)) (Reader.call fs a) (Reader.Roomy fs a) r)
    (hroomy : r.Roomy fs a count) : ∃ records,
      (sysGetdents fs.vol (fs.inode a) count r.pos).ret = .ok records
      ∧ dirbytes records ≤ count ∧ (∀ e ∈ records, e.reclen = reclen e.name)
      ∧ (r.seen ++ records).map Dirent.entry <+: used (fs.slots a)
      ∧ (dirbytes records = 0 → r.seen.map Dirent.entry = used (fs.slots a)) := by
  have hgood : r.Good fs a := by
    refine Reached.inv (fun r hr => ?_) (fun r e r' hi hok hs => hi.call hd hok.positive hs) h
    rw [hr]
    exact ⟨0, Nat.zero_le _, rfl, rfl⟩
  obtain ⟨k, hk, hpos, hseen⟩ := hgood
  obtain ⟨records, k', hl⟩ := sysGetdents_spec hd hk hroomy.positive
  have hdiv : r.pos / directSize = k := by
    rw [hpos, Nat.mul_div_cancel_left _ (by decide)]
  rw [← hpos] at hl
  have hroom := hroomy.room
  have hrounded := hroomy.rounded
  rw [hdiv] at hroom hrounded
  refine ⟨records, hl.ret, ?_, hl.reclen, ⟨used ((fs.slots a).drop k'), ?_⟩, fun hzero => ?_⟩
  · have hfit := hl.room (hrounded.imp_left fun h => ⟨h, Nat.dvd_zero 4⟩) (Nat.zero_le _)
    omega
  · rw [List.map_append, List.append_assoc, hl.entries, hseen]
  · have hnone : records = [] := dirbytes_zero hl.reclen hzero
    subst hnone
    have hrest : used ((fs.slots a).drop k) = [] := by
      rcases hl.full with hnil | hsmall
      · rw [← hl.entries, hnil]
        rfl
      · refine hroom.resolve_left (Nat.not_le.mpr ?_)
        rwa [hzero, Nat.add_zero, Nat.zero_add] at hsmall
    rw [← hseen, hrest, List.append_nil]

/-- The root of the full volume, with `.` and `..`. -/
def rootFiles : Files :=
  ⟨fullVolume, fun _ => ⟨64, fun i => if i = 0 then 4 else 0⟩, fun b => b == 0⟩

theorem getdents_exact_root : ∃ records,
    (sysGetdents rootFiles.vol (rootFiles.inode 0) 44 0).ret = .ok records
      ∧ records.map Dirent.entry <+: used (rootFiles.slots 0) := by
  have hd : Listable rootFiles 0 := ⟨rfl, by decide, by decide⟩
  have hroomy : Reader.Roomy rootFiles 0 ⟨0, []⟩ 44 :=
    ⟨by decide, .inl (by decide), .inl (by decide)⟩
  obtain ⟨records, hret, -, -, hlist, -⟩ := getdents_exact hd (.first rfl) hroomy
  exact ⟨records, hret, hlist⟩

/-- With a count of 40 nothing is returned, though there are entries. -/
theorem getdents_short : (sysGetdents rootFiles.vol (rootFiles.inode 0) 40 0).ret = .ok []
    ∧ used (rootFiles.slots 0) ≠ [] := by
  decide +kernel

end Cnix.Fs
