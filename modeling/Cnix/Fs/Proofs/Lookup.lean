/-
What a walk through the file system can come to.

The text of a link is shorter than a page, and what is left of the path is
put behind it only if both fit (`linkPath_lt`); so does every string of a
walk, and the depth of links bounds it (`Bounded`).

A walk without an error number ends at a link whose text is empty. It gets
to inodes that are reachable from the root or the working directory, and
all of them have a path (`Leads`): there is such a walk if and only if one
of the links that can be reached is empty.
-/
import Cnix.Fs.Lookup
import Cnix.Fs.Link
import Cnix.Fs.Proofs.Seek

namespace Cnix.Fs

open Lib

variable {g : Graph} {q : Quest} {prev h k : Handle} {ended : Bool}
  {path name rest text page : Name} {level : Nat} {vol : Volume} {ino : Inode} {next : Next}
  {names : List Name}

-- ======== what is built

theorem cstring_length (l : List Byte) : (cstring l).length ≤ l.length := by
  induction l with
  | nil => exact Nat.le_refl 0
  | cons b rest ih =>
    unfold cstring
    split
    · exact Nat.succ_le_succ ih
    · exact Nat.zero_le _

theorem realFilename_lt (ht : realFilename vol ino = .ok text) : text.length < pageSize := by
  unfold realFilename at ht
  split at ht
  · cases ht
  cases ht
  have hread : 0 + (readLoop vol ino ino.size 0 ino.size).length ≤ ino.size :=
    readLoop_within (Nat.zero_le _) (Nat.le_refl _)
  have hstring := cstring_length (doRead vol ino 0 ino.size).1
  unfold doRead at hstring ⊢
  dsimp only at hstring ⊢
  omega

/-- The terminator fits. -/
theorem linkPath_lt (hp : linkPath vol ino next path = .ok page) : page.length < pageSize := by
  unfold linkPath at hp
  split at hp
  · cases hp
  · next htext =>
    cases hp
    exact realFilename_lt htext
  · next text _ htext _ =>
    split at hp
    · cases hp
    next hfit =>
    cases hp
    rw [List.length_append, List.length_cons]
    omega

/-- The links followed and the strings built are within the bounds. -/
structure Lookup.Bounded (r : Lookup) : Prop where
  level : r.level ≤ maxSymlinkDepth + 1
  built : ∀ s ∈ r.built, s.length + 1 ≤ pageSize

theorem Lookup.Bounded.after {r : Lookup} {strings : List Name} (hr : r.Bounded)
    (hs : ∀ s ∈ strings, s.length + 1 ≤ pageSize) : (r.after strings).Bounded :=
  ⟨hr.level, List.forall_mem_append.mpr ⟨hs, hr.built⟩⟩

theorem Lookup.Bounded.none {found : Found} (hl : level ≤ maxSymlinkDepth + 1) :
    Lookup.Bounded ⟨found, level, []⟩ :=
  ⟨hl, nofun⟩

/-- The two strings of a link. -/
theorem strings_lt (ht : g.text h = .ok text)
    (hp : linkPath (g.vol h) (g.ino h) (getNextName path q.flag) path = .ok page) :
    ∀ s ∈ [text, page], s.length + 1 ≤ pageSize := by
  intro s hmem
  rcases List.mem_cons.mp hmem with rfl | hmem
  · exact realFilename_lt ht
  · rw [List.mem_singleton.mp hmem]
    exact linkPath_lt hp

theorem walk_bounded (hl : level ≤ maxSymlinkDepth + 1) :
    (g.walk q level ended prev h path).Bounded := by
  fun_induction Graph.walk with
  | case1 | case2 | case3 | case8 | case9 | case10 | case11 | case12 => exact .none hl
  | case4 => exact .none (by omega)
  | case5 level ended prev h path _ _ _ hlevel text htext =>
    refine ⟨Nat.succ_le_succ (Nat.le_of_not_lt hlevel), fun s hmem => ?_⟩
    rw [List.mem_singleton.mp hmem]
    exact realFilename_lt htext
  | case6 level ended prev h path _ _ _ hlevel text htext page hpage =>
    exact ⟨Nat.succ_le_succ (Nat.le_of_not_lt hlevel), strings_lt htext hpage⟩
  | case7 level ended prev h path _ _ _ hlevel text htext page hpage start ended' path' _ ih =>
    exact (ih (Nat.succ_le_succ (Nat.le_of_not_lt hlevel))).after (strings_lt htext hpage)
  | case13 level ended prev h path _ _ name rest _ _ found _ ih => exact ih hl

/-- A lookup follows at most 33 links, and every string it builds fits in
a page with its terminator. -/
theorem lookup_bounded (g : Graph) (q : Quest) (path : Name) :
    (g.lookup q path).level ≤ 33 ∧ ∀ s ∈ (g.lookup q path).built, s.length + 1 ≤ pageSize := by
  have hr : (g.lookup q path).Bounded := by
    unfold Graph.lookup
    split
    · exact .none (Nat.zero_le _)
    · exact walk_bounded (Nat.zero_le _)
  exact ⟨hr.level, hr.built⟩

-- ======== what can be reached

/-- A name that `get_next_name` can return. -/
structure Component (name : Name) : Prop where
  some : name ≠ []
  short : name.length ≤ nameMax
  noSlash : slash ∉ name

/-- `ifind` is called for a name. -/
structure Graph.Step (g : Graph) (h : Handle) (name : Name) (k : Handle) : Prop where
  component : Component name
  notLink : isLnk (g.mode h) = false
  admits : g.admits h = true
  find : g.find h name = some k

/-- Reachable from the root or the working directory. -/
inductive Graph.Reach (g : Graph) : Handle → Prop
  | root : g.Reach g.root
  | pwd : g.Reach g.pwd
  | step {h k : Handle} {name : Name} : g.Reach h → g.Step h name k → g.Reach k

theorem getNextName_component {flag : Bool} (hn : getNextName path flag = .part name rest) :
    Component name := by
  obtain ⟨hsome, hshort, -⟩ := getNextName_part hn
  refine ⟨hsome, hshort, fun hmem => ?_⟩
  unfold getNextName at hn
  dsimp only at hn
  split_ifs at hn
  cases hn
  have hall := List.all_eq_true.mp List.all_takeWhile _ hmem
  simp at hall

theorem linkPath_nil
    (hp : linkPath vol ino next path = .ok []) : realFilename vol ino = .ok [] := by
  unfold linkPath at hp
  split at hp
  · cases hp
  · next htext => rw [htext, hp]
  · split at hp
    · cases hp
    · have hnil := congrArg Except.toOption hp
      simp [Except.toOption] at hnil

theorem stepInto_none (hs : g.stepInto prev ended path = none) : path = [] := by
  unfold Graph.stepInto at hs
  split_ifs at hs with hnil
  exact hnil

theorem stepInto_some {start : Handle} {ended' : Bool} {path' : Name}
    (hs : g.stepInto prev ended path = some (start, ended', path')) : start = g.root ∨ start = prev := by
  unfold Graph.stepInto at hs
  split_ifs at hs
  · cases hs
    exact .inl rfl
  · cases hs
    exact .inr rfl

/-- Without an empty link, `NULL` comes with an error. -/
theorem walk_found (hfull : ∀ k, g.Reach k → isLnk (g.mode k) = true → g.text k ≠ .ok [])
    (hprev : g.Reach prev) (hh : g.Reach h) :
    (g.walk q level ended prev h path).found ≠ .error none := by
  fun_induction Graph.walk with
  | case1 | case2 | case3 | case4 | case5 | case8 | case9 | case10 | case11 | case12 =>
    intro he
    cases he
  | case6 level ended prev h path _ hlnk _ _ text htext page hpage hnone =>
    rw [stepInto_none hnone] at hpage
    exact absurd (linkPath_nil hpage) (hfull h hh hlnk)
  | case7 level ended prev h path _ _ _ _ text _ page _ start ended' path' hstart ih =>
    have hreach : g.Reach start := by
      rcases stepInto_some hstart with rfl | rfl
      · exact .root
      · exact hprev
    exact ih hreach hreach
  | case13 level ended prev h path _ hlnk name rest hnext hmay found hfind ih =>
    refine ih hh (hh.step ⟨getNextName_component hnext, ?_, ?_, hfind⟩)
    · simpa using hlnk
    · simpa using hmay

-- ======== a path to it

/-- From one inode to another by names. -/
inductive Graph.Leads (g : Graph) : Handle → List Name → Handle → Prop
  | nil {h : Handle} : g.Leads h [] h
  | cons {h k x : Handle} {name : Name} {names : List Name} :
      g.Step h name k → g.Leads k names x → g.Leads h (name :: names) x

/-- The names with a slash behind each. -/
def slashed (names : List Name) : Name := names.flatMap (· ++ [slash])

theorem Graph.Leads.snoc {x : Handle} (hl : g.Leads h names k)
    (hs : g.Step k name x) : g.Leads h (names ++ [name]) x := by
  induction hl with
  | nil => exact .cons hs .nil
  | cons hstep _ ih => exact .cons hstep (ih hs)

theorem Graph.Reach.leads (hr : g.Reach h) :
    ∃ start names, (start = g.root ∨ start = g.pwd) ∧ g.Leads start names h := by
  induction hr with
  | root => exact ⟨g.root, [], .inl rfl, .nil⟩
  | pwd => exact ⟨g.pwd, [], .inr rfl, .nil⟩
  | step _ hs ih =>
    obtain ⟨start, names, hstart, hl⟩ := ih
    exact ⟨start, _, hstart, hl.snoc hs⟩

theorem Graph.Leads.component (hl : g.Leads h names k) : ∀ name ∈ names, Component name := by
  induction hl with
  | nil => exact nofun
  | cons hstep _ ih =>
    intro name hmem
    rcases List.mem_cons.mp hmem with rfl | hmem
    · exact hstep.component
    · exact ih name hmem

theorem takeWhile_name (hslash : slash ∉ name) :
    (name ++ slash :: rest).takeWhile (· != slash) = name
      ∧ (name ++ slash :: rest).dropWhile (· != slash) = slash :: rest := by
  have hall : ∀ c ∈ name, (c != slash) = true := by
    intro c hc
    rw [bne_iff_ne]
    rintro rfl
    exact hslash hc
  constructor
  · rw [List.takeWhile_append_of_pos hall, List.takeWhile_cons_of_neg (by simp), List.append_nil]
  · rw [List.dropWhile_append_of_pos hall, List.dropWhile_cons_of_neg (by simp)]

/-- A path of names has no slash in front. -/
theorem dropWhile_slashed (hn : ∀ name ∈ names, Component name) :
    (slashed names).dropWhile (· == slash) = slashed names := by
  cases names with
  | nil => rfl
  | cons name names =>
    have hc := hn name (List.mem_cons_self ..)
    obtain ⟨c, rest, rfl⟩ := List.exists_cons_of_ne_nil hc.some
    have hne : c ≠ slash := fun he => hc.noSlash (he ▸ List.mem_cons_self ..)
    exact List.dropWhile_cons_of_neg (by rw [beq_iff_eq]; exact hne)

theorem getNextName_slashed (hc : Component name) (hn : ∀ name ∈ names, Component name) :
    getNextName (slashed (name :: names)) false = .part name (slashed names) := by
  have hpath : slashed (name :: names) = name ++ slash :: slashed names := by
    simp [slashed]
  unfold getNextName
  rw [hpath, (takeWhile_name hc.noSlash).1, (takeWhile_name hc.noSlash).2, List.dropWhile_cons_of_pos (by simp), dropWhile_slashed hn]
  rw [if_neg hc.some, if_neg (Nat.not_lt.mpr hc.short), if_neg (by simp)]

/-- A turn of the loop at an inode that is no link. -/
theorem walk_next (hlnk : isLnk (g.mode h) = false) (hmay : g.admits h = true) (hstop : q.stop = none)
    (hnext : getNextName path q.flag = .part name rest) :
    g.walk q level ended prev h path = match g.find h name with
      | none => ⟨.error (some .enoent), level, []⟩
      | some k => g.walk q level ended h k rest := by
  rw [Graph.walk, if_neg (by simp [hstop]), if_neg (by simp [hlnk])]
  split
  · next hother =>
    rw [hnext] at hother
    cases hother
  · next hother =>
    rw [hnext] at hother
    cases hother
  · next hpart =>
    rw [hnext] at hpart
    cases hpart
    exact if_neg (by simp [hmay])

/-- `namei` of a path to an empty link. -/
theorem Graph.Leads.walk (hl : g.Leads h names k) (hlnk : isLnk (g.mode k) = true)
    (hempty : g.text k = .ok []) :
    (g.walk ⟨false, true, none⟩ 0 ended prev h (slashed names)).found = .error none := by
  induction hl generalizing prev with
  | nil =>
    have hpage (vol : Volume) (ino : Inode) (ht : realFilename vol ino = .ok []) :
        linkPath vol ino (getNextName (slashed []) false) (slashed []) = .ok [] := by
      unfold linkPath
      rw [ht]
      rfl
    rw [Graph.walk, if_neg (by simp), if_pos hlnk, if_neg (by simp), dif_neg (by decide), hempty]
    rw [hpage _ _ hempty]
    rfl
  | cons hstep hl ih =>
    rw [walk_next hstep.notLink hstep.admits rfl
      (getNextName_slashed hstep.component hl.component), hstep.find]
    exact ih hlnk hempty

/-- A path of names starts at the root if a slash is in front of it. -/
theorem stepInto_slash (hn : ∀ name ∈ names, Component name) :
    ∃ e, g.stepInto prev ended (slash :: slashed names) = some (g.root, e, slashed names) := by
  refine ⟨ended || (slash :: slashed names).getLast? == some slash, ?_⟩
  rw [Graph.stepInto, if_neg (List.cons_ne_nil _ _), if_pos List.head?_cons,
    List.dropWhile_cons_of_pos (by simp), dropWhile_slashed hn]

theorem stepInto_slashed (hn : ∀ name ∈ names, Component name)
    (hne : names ≠ []) : slashed names ≠ []
      ∧ ∃ e, g.stepInto prev ended (slashed names) = some (prev, e, slashed names) := by
  have hsome : slashed names ≠ [] := by
    obtain ⟨name, rest, rfl⟩ := List.exists_cons_of_ne_nil hne
    simp [slashed]
  refine ⟨hsome, ended || (slashed names).getLast? == some slash, ?_⟩
  rw [Graph.stepInto, if_neg hsome, if_neg]
  intro hhead
  have hdrop := dropWhile_slashed hn
  obtain ⟨c, rest, he⟩ := List.exists_cons_of_ne_nil hsome
  rw [he] at hhead hdrop
  cases hhead
  rw [List.dropWhile_cons_of_pos (by simp)] at hdrop
  have hlen := (List.dropWhile_sublist (l := rest) (· == slash)).length_le
  rw [hdrop, List.length_cons] at hlen
  omega

/-- `__namei` returns `NULL` without an error for some path, if and only if
a link that can be reached is empty. -/
theorem lookup_error_iff (hroot : isLnk (g.mode g.root) = false) (hpwd : isLnk (g.mode g.pwd) = false) :
    (∀ q path, path ≠ [] → (g.lookup q path).found ≠ .error none)
      ↔ ∀ h, g.Reach h → isLnk (g.mode h) = true → g.text h ≠ .ok [] := by
  constructor
  · intro hall h hreach hlnk hempty
    obtain ⟨start, names, hstart, hl⟩ := hreach.leads
    have hne : names ≠ [] := by
      rintro rfl
      cases hl
      rcases hstart with rfl | rfl
      · rw [hroot] at hlnk
        cases hlnk
      · rw [hpwd] at hlnk
        cases hlnk
    rcases hstart with rfl | rfl
    · obtain ⟨e, hstep⟩ : ∃ e, g.stepInto g.pwd false _ = _ := stepInto_slash hl.component
      refine hall ⟨false, true, none⟩ (slash :: slashed names) (List.cons_ne_nil _ _) ?_
      rw [Graph.lookup, hstep]
      exact hl.walk hlnk hempty
    · obtain ⟨hsome, e, hstep⟩ : _ ∧ ∃ e, g.stepInto g.pwd false _ = _ := stepInto_slashed hl.component hne
      refine hall ⟨false, true, none⟩ (slashed names) hsome ?_
      rw [Graph.lookup, hstep]
      exact hl.walk hlnk hempty
  · intro hfull q path hne
    unfold Graph.lookup
    split
    · next hnone => exact absurd (stepInto_none hnone) hne
    · next start ended path' hstart =>
      have hreach : g.Reach start := by
        rcases stepInto_some hstart with rfl | rfl
        · exact .root
        · exact .pwd
      exact walk_found hfull hreach hreach

/-- The root has one entry, the link `l` with the text `b`, which leads
nowhere. -/
def danglingGraph : Graph where
  root := ⟨0, rootInode, 0⟩
  pwd := ⟨0, rootInode, 0⟩
  mode := fun h => if h.num = 2 then iLnk else iDir
  vol := fun _ => { oneZone.vol with blk := fun _ i => if i = 0 then 0x62#8 else 0 }
  ino := fun _ => ⟨1, fun _ => 4⟩
  admits := fun _ => true
  find := fun h name => if h.num = rootInode ∧ name = nameL then some ⟨0, 2, 0⟩ else none

theorem danglingGraph_text :
    realFilename (danglingGraph.vol danglingGraph.root) ⟨1, fun _ => 4⟩ = .ok nameB := by
  decide +kernel

/-- A lookup of `/l` fails, and says why, as every other one does. -/
theorem lookup_error_dangling :
    (danglingGraph.lookup ⟨false, true, none⟩ (slash :: nameL)).found = .error (some .enoent)
      ∧ ∀ q path, path ≠ [] → (danglingGraph.lookup q path).found ≠ .error none := by
  have htext (h : Handle) : danglingGraph.text h = .ok nameB := danglingGraph_text
  refine ⟨?_, (lookup_error_iff (by decide) (by decide)).mpr fun h _ _ => ?_⟩
  · -- at the root, at the link, and at the root again
    rw [Graph.lookup]
    show (danglingGraph.walk _ 0 false danglingGraph.root danglingGraph.root nameL).found = _
    rw [walk_next rfl rfl rfl rfl]
    show (danglingGraph.walk _ 0 false danglingGraph.root ⟨0, 2, 0⟩ []).found = _
    have hpage : linkPath (danglingGraph.vol ⟨0, 2, 0⟩) (danglingGraph.ino ⟨0, 2, 0⟩)
      (getNextName [] false) [] = .ok nameB := by decide +kernel
    rw [Graph.walk, if_neg nofun, if_pos (by decide), if_neg (by decide), dif_neg (by decide), htext, hpage]
    show (danglingGraph.walk _ 1 false danglingGraph.root danglingGraph.root nameB).found = _
    rw [walk_next rfl rfl rfl rfl]
    rfl
  · rw [htext]
    exact nofun

-- ======== a link without text

/-- The only zone of the volume is that of the root, with its entries `.`
and `..`. An inode is free. -/
def fullVolume : Volume where
  sp := { oneZone.vol.sp with ninodes := 2, some_inode := Nat.two_pos, imap_covers := by decide }
  isearch := 1
  zsearch := 1
  blk := fun b =>
    if b = 2 ∨ b = 3 then setBit (setBit zeroBlock 0) 1
    else if b = 4 then putDirect (putDirect zeroBlock 0 ⟨1, dot⟩) 1 ⟨1, dotdot⟩
    else zeroBlock

def fullSys : Sys :=
  Sys.quiet fullVolume
    (fun _ => ⟨0x41ed#16, 2, 0, 0, ⟨64, fun i => if i = 0 then 4 else 0⟩, 0, 0⟩)
    (fun _ => ⟨0, 0, ⟨0, rootInode, 0⟩, 0⟩)
    (fun _ => ⟨⟨0, rootInode, 0⟩, ⟨0, rootInode, 0⟩, 0, 0, 0, 0, 0, fun _ => none⟩)

/-- `symlink("l", "/l")` fails with an error, and leaves a link for which
`namei` returns `NULL` without one. -/
theorem symlink_unfound : ∃ e s s', doSymlink 1 nameL (slash :: nameL) fullSys = .ok (.error e, s)
    ∧ namei 1 (slash :: nameL) false s = .ok (.error none, s') := by
  obtain ⟨s, hlink, s', hnamei⟩ : ∃ s, doSymlink 1 nameL (slash :: nameL) fullSys = .ok (.error .eio, s)
      ∧ ∃ s', namei 1 (slash :: nameL) false s = .ok (.error none, s') := by decide +kernel
  exact ⟨.eio, s, s', hlink, hnamei⟩

end Cnix.Fs
