/-
The directory that a call changes, and the name that it looks up.

# Two walks that begin alike

`unlink`, `rename` and `link` look for the inode of a path with `namei0`,
and for the directory that its name is in with `namei`, which leaves the
last component off. Up to that component both walks do the same, whatever
the state (`stepIntoLink_approach`); `approach` is that part of them.

# Where they part

If the walk then stands at a directory, this is what the one returns and
what the other looks the name up in. If it stands at a link, the one
follows the text of the link and goes on with the name. The other follows
the text alone and leaves off the last component of it, so that it returns
the directory above the one that the link leads to.
-/
import Cnix.Lib.Runs
import Cnix.Fs.Proofs.Crossing
import Mathlib.Data.List.TakeWhile

namespace Cnix.Fs

open Lib

variable {s s1 : Sys} {pid links : Nat} {h x : Handle} {path left name rest tail : Name} {q : Quest}
  {flag : Bool}

-- ======== the last name

theorem takeWhile_before_slash (front back : Name) :
    (front ++ slash :: back).takeWhile (· != slash) = front.takeWhile (· != slash) := by
  induction front with
  | nil => simp
  | cons c front ih => rw [List.cons_append, List.takeWhile_cons, List.takeWhile_cons, ih]

/-- A slash ends the tail, if a component follows. -/
theorem getTail_append (front : Name) (hleft : ∃ c ∈ left, c ≠ slash) :
    getTail (front ++ slash :: left) = getTail left := by
  have hbody : (front ++ slash :: left).reverse = left.reverse ++ slash :: front.reverse := by simp
  unfold getTail
  rw [hbody, List.dropWhile_append]
  cases hdrop : left.reverse.dropWhile (· == slash) with
  | nil =>
    obtain ⟨c, hc, hne⟩ := hleft
    have hall := List.dropWhile_eq_nil_iff.1 hdrop c (List.mem_reverse.mpr hc)
    exact absurd (eq_of_beq hall) hne
  | cons c body =>
    simp only [List.isEmpty_cons, Bool.false_eq_true, if_false, takeWhile_before_slash]
    simp

theorem getTail_of_slashes (hpath : ∀ c ∈ path, c = slash) : getTail path = none := by
  have hdrop : path.reverse.dropWhile (· == slash) = [] := by
    rw [List.dropWhile_eq_nil_iff]
    intro c hc
    rw [hpath c (List.mem_reverse.mp hc)]
    rfl
  unfold getTail
  rw [hdrop, if_pos (.inl rfl)]

/-- The slashes in front do not matter. -/
theorem getTail_dropWhile (path : Name) : getTail (path.dropWhile (· == slash)) = getTail path := by
  induction path with
  | nil => rfl
  | cons c path ih =>
    rw [List.dropWhile_cons]
    split
    · next hc =>
      rw [ih, eq_of_beq hc]
      by_cases hleft : ∃ c ∈ path, c ≠ slash
      · exact (getTail_append [] hleft).symm
      · push Not at hleft
        rw [getTail_of_slashes hleft, getTail_of_slashes (by simpa using hleft)]
    · rfl

/-- `get_next_name` leaves the tail of the path. -/
theorem getTail_rest (hnext : getNextName path flag = .part name rest)
    (hrest : rest ≠ []) : getTail rest = getTail path := by
  have hsplit := List.takeWhile_append_dropWhile (p := (· != slash)) (l := path)
  have hpart : rest = (path.dropWhile (· != slash)).dropWhile (· == slash) := by
    unfold getNextName at hnext
    dsimp only at hnext
    split_ifs at hnext
    cases hnext
    rfl
  cases hback : path.dropWhile (· != slash) with
  | nil =>
    rw [hback] at hpart
    exact absurd hpart hrest
  | cons c back =>
    have hc : c = slash := by
      have hhead := List.head_dropWhile_not (p := (· != slash)) (l := path) (by simp [hback])
      simpa [hback] using hhead
    subst hc
    have hpart' : rest = back.dropWhile (· == slash) := by
      rw [hpart, hback, List.dropWhile_cons_of_pos (by simp)]
    have hleft : ∃ c ∈ back, c ≠ slash := by
      by_contra hnone
      push Not at hnone
      apply hrest
      rw [hpart', List.dropWhile_eq_nil_iff]
      exact fun c hc => by simp [hnone c hc]
    rw [hpart', getTail_dropWhile, ← hsplit, hback, getTail_append _ hleft]

/-- A component and slashes behind it. -/
theorem getTail_component {slashes : Name} (hname : ∀ c ∈ name, c ≠ slash) (hne : name ≠ [])
    (hslashes : ∀ c ∈ slashes, c = slash) (hlen : name.length ≤ nameMax) :
    getTail (name ++ slashes) = some name := by
  have hdrop : slashes.reverse.dropWhile (· == slash) = [] := by
    rw [List.dropWhile_eq_nil_iff]
    exact fun c hc => by simp [hslashes c (List.mem_reverse.mp hc)]
  have htake : name.reverse.takeWhile (· != slash) = name.reverse := by
    rw [List.takeWhile_eq_self_iff]
    exact fun c hc => by simpa using hname c (List.mem_reverse.mp hc)
  have hkeep : name.reverse.dropWhile (· == slash) = name.reverse := by
    rw [List.dropWhile_eq_self_iff]
    intro hpos
    have hfirst := hname _ (List.mem_reverse.mp (List.getElem_mem hpos))
    exact fun heq => hfirst (eq_of_beq heq)
  unfold getTail
  rw [List.reverse_append, List.dropWhile_append, hdrop]
  simp only [List.isEmpty_nil, if_true]
  rw [hkeep, htake, List.reverse_reverse, if_neg]
  rintro (hnil | hlong)
  · exact hne (List.reverse_eq_nil_iff.mp hnil)
  · exact absurd hlong (Nat.not_lt.mpr hlen)

/-- What is left of the path when `get_next_name` returns `NULL` for the
father: nothing, or one component, which is the tail. -/
theorem getNextName_last (hnext : getNextName path true = .null) (hhead : path.head? ≠ some slash)
    (hpath : path ≠ []) :
    ∃ tail, getTail path = some tail ∧ getNextName path false = .part tail [] := by
  have hsplit := List.takeWhile_append_dropWhile (p := (· != slash)) (l := path)
  have hname : path.takeWhile (· != slash) ≠ [] := by
    cases path with
    | nil => exact absurd rfl hpath
    | cons c path =>
      rw [List.takeWhile_cons_of_pos (by simpa using hhead)]
      exact List.cons_ne_nil _ _
  unfold getNextName at hnext ⊢
  rw [if_neg hname] at hnext ⊢
  split at hnext
  · cases hnext
  next hlen =>
  split at hnext
  · next hrest =>
    refine ⟨path.takeWhile (· != slash), ?_, ?_⟩
    · conv_lhs => rw [← hsplit]
      refine getTail_component (fun c hc => ?_) hname (fun c hc => ?_) (Nat.not_lt.mp hlen)
      · simpa using List.mem_takeWhile_imp hc
      · exact eq_of_beq (List.dropWhile_eq_nil_iff.mp hrest.2 c hc)
    · rw [if_neg hlen, hrest.2]
      rfl
  · cases hnext

-- ======== the approach

/-- Where a walk stands when only the last component is left. -/
structure Stand where
  links : Nat
  ended : Bool
  turns : Nat
  prev : Dev × Nat
  workino : Handle
  left : Name

/-- A walk up to its last component, or the error that it ends with. -/
abbrev Approach := Dev × Nat → Bool → Name → M (Except (Option Errno) Stand)

/-- The loop of `__namei` up to the last component. -/
def approachLoop (pid links : Nat) (follow : Option Approach) (ended : Bool) :
    Nat → Dev × Nat → Handle → Name → M (Except (Option Errno) Stand)
  | 0, _, _, _ => fun _ => .error .sleep
  | turns + 1, prev, workino, path => do
    let s ← get
    let d := s.node workino
    match getNextName path true with
    | .null => return .ok ⟨links, ended, turns + 1, prev, workino, path⟩
    | next =>
      if isLnk d.mode then
        match follow with
        | none => do
          iput pid workino
          return .error (some .emlink)
        | some follow =>
          match linkPath (s.vol workino.dev) d.ino next path with
          | .error e => do
            iput pid workino
            return .error (some e)
          | .ok text => do
            iput pid workino
            follow prev ended text
      else
        match next with
        | .part name rest =>
          if !admitted (s.task pid) d iXb then do
            iput pid workino
            return .error (some .eacces)
          else do
            match ← ifind pid workino name with
            | none => return .error (some .enoent)
            | some found =>
              approachLoop pid links follow ended turns (workino.dev, workino.num) found rest
        | _ => do
          iput pid workino
          return .error (some .enametoolong)

def approachPath (pid links : Nat) (follow : Option Approach) : Approach :=
  fun prev ended path => do
    if path = [] then return .error none
    let ended := ended || path.getLast? == some slash
    let root := ((← get).task pid).root
    let absolute := path.head? = some slash
    let start := if absolute then (root.dev, root.num) else prev
    let path := if absolute then path.dropWhile (· == slash) else path
    let workino ← iget pid start.1 start.2
    approachLoop pid links follow ended (path.length + 1) start workino path

/-- The approach, when `links` links may still be followed. -/
def approachLink (pid : Nat) : Nat → Approach
  | 0 => approachPath pid 0 none
  | links + 1 => approachPath pid (links + 1) (some (approachLink pid links))

/-- What every `__namei` of the path does first. -/
def approach (pid : Nat) (path : Name) : M (Except (Option Errno) Stand) := do
  let pwd := ((← get).task pid).pwd
  approachLink pid (maxSymlinkDepth + 1) (pwd.dev, pwd.num) false path

/-- How links are followed, when `links` may still be. -/
def followOf (pid : Nat) (q : Quest) : Nat → Option Follow
  | 0 => none
  | links + 1 => some (stepIntoLink pid q links)

/-- What `__namei` does from there. -/
def arrive (pid : Nat) (q : Quest) : Except (Option Errno) Stand → M Found
  | .error e => pure (.error e)
  | .ok st =>
    nameiLoop pid q (followOf pid q st.links) st.ended st.turns st.prev st.workino st.left

theorem getNextName_flag (hnext : getNextName path true ≠ .null) :
    getNextName path flag = getNextName path true := by
  unfold getNextName at hnext ⊢
  dsimp only at hnext ⊢
  cases flag with
  | true => rfl
  | false =>
    split_ifs at hnext ⊢ <;> simp_all

theorem errout_approach (e : Errno) :
    errout pid h e = (do iput pid h; return .error (some e)) >>= arrive pid q := by
  rw [bind_assoc]
  rfl

variable {follow : Option Approach}

/-- The loop of a walk begins with that of the approach. -/
theorem nameiLoop_approach (hstop : q.stop = none)
    (hnone : followOf pid q links = none → follow = none)
    (hsome : ∀ f, followOf pid q links = some f → ∃ g, follow = some g ∧
      ∀ prev ended text, f prev ended text = g prev ended text >>= arrive pid q)
    (ended : Bool) (turns : Nat) (prev : Dev × Nat) (h : Handle) (path : Name) :
    nameiLoop pid q (followOf pid q links) ended turns prev h path =
      approachLoop pid links follow ended turns prev h path >>= arrive pid q := by
  induction turns generalizing prev h path with
  | zero => rfl
  | succ turns ih =>
    have hgo : ∀ next, next ≠ .null → getNextName path true = next →
        nameiLoop pid q (followOf pid q links) ended (turns + 1) prev h path =
          approachLoop pid links follow ended (turns + 1) prev h path >>= arrive pid q := by
      intro next hnext hpath
      have hflag : getNextName path q.flag = next := by
        rw [getNextName_flag (by rw [hpath]; exact hnext), hpath]
      have hplain : ¬ q.stop = some h := by
        rw [hstop]
        exact Option.some_ne_none h ∘ Eq.symm
      funext s
      unfold nameiLoop approachLoop
      rw [if_neg hplain, bind_assoc, run_get, run_get, hflag, hpath]
      by_cases hlnk : isLnk (s.node h).mode = true
      · -- a link in front of two components: both follow its text and the rest
        have hfollow (f : Follow) (g : Approach)
            (hg : ∀ prev ended text, f prev ended text = g prev ended text >>= arrive pid q) :
            (match linkPath (s.vol h.dev) (s.node h).ino next path with
              | .error e => errout pid h e
              | .ok text => do iput pid h; f prev ended text : M Found) =
            (match linkPath (s.vol h.dev) (s.node h).ino next path with
              | .error e => (do iput pid h; return .error (some e))
              | .ok text => (do iput pid h; g prev ended text) :
              M (Except (Option Errno) Stand)) >>= arrive pid q := by
          cases linkPath (s.vol h.dev) (s.node h).ino next path with
          | error e => exact errout_approach e
          | ok text =>
            rw [bind_assoc]
            simp only [hg]
        cases hf : followOf pid q links with
        | none =>
          rw [hnone hf, if_pos hlnk]
          cases next with
          | null => exact absurd rfl hnext
          | tooLong | part name rest =>
            dsimp only
            rw [if_pos hlnk]
            exact congrFun (errout_approach _) s
        | some f =>
          obtain ⟨g, rfl, hg⟩ := hsome f hf
          rw [if_pos hlnk]
          cases next with
          | null => exact absurd rfl hnext
          | tooLong | part name rest =>
            dsimp only
            rw [if_pos hlnk]
            exact congrFun (hfollow f g hg) s
      · rw [if_neg hlnk]
        cases next with
        | null => exact absurd rfl hnext
        | tooLong =>
          dsimp only
          rw [if_neg hlnk]
          exact congrFun (errout_approach _) s
        | part name rest =>
          dsimp only
          rw [if_neg hlnk]
          by_cases hx : (!admitted (s.task pid) (s.node h) iXb) = true
          · rw [if_pos hx, if_pos hx]
            exact congrFun (errout_approach _) s
          · rw [if_neg hx, if_neg hx, bind_assoc]
            refine congrFun (congrArg (ifind pid h name >>= ·) (funext fun found => ?_)) s
            cases found with
            | none => rfl
            | some found => exact ih _ _ _
    cases hpath : getNextName path true with
    | null =>
      funext s
      conv_rhs => unfold approachLoop
      rw [bind_assoc, run_get, hpath]
      rfl
    | tooLong | part name rest => exact hgo _ Next.noConfusion hpath

theorem stepPath_approach (hstop : q.stop = none) (links : Nat)
    (hnone : followOf pid q links = none → follow = none)
    (hsome : ∀ f, followOf pid q links = some f → ∃ g, follow = some g ∧
      ∀ prev ended text, f prev ended text = g prev ended text >>= arrive pid q)
    (prev : Dev × Nat) (ended : Bool) (path : Name) :
    stepPath pid q (followOf pid q links) prev ended path =
      approachPath pid links follow prev ended path >>= arrive pid q := by
  unfold stepPath approachPath
  by_cases hpath : path = []
  · rw [if_pos hpath, if_pos hpath]
    rfl
  · rw [if_neg hpath, if_neg hpath]
    funext s
    rw [bind_assoc, run_get, run_get, bind_assoc]
    simp only [nameiLoop_approach hstop hnone hsome]

theorem stepIntoLink_approach (hstop : q.stop = none) (links : Nat) (prev : Dev × Nat) (ended : Bool)
    (path : Name) : stepIntoLink pid q links prev ended path =
      approachLink pid links prev ended path >>= arrive pid q := by
  induction links generalizing prev ended path with
  | zero =>
    exact stepPath_approach hstop 0 (fun _ => rfl) nofun prev ended path
  | succ links ih =>
    refine stepPath_approach hstop (links + 1) nofun (fun f hf => ?_)
      prev ended path
    cases hf
    exact ⟨_, rfl, ih⟩

/-- Every walk of the path begins with the approach. -/
theorem nameiQuest_approach (hstop : q.stop = none) (path : Name) :
    nameiQuest pid q path = approach pid path >>= arrive pid q := by
  funext s
  unfold nameiQuest approach
  rw [bind_assoc, run_get, run_get, stepIntoLink_approach hstop]

-- ======== what is left

/-- What is left is the last component of a path with this tail. -/
structure Stand.Last (tail : Option Name) (st : Stand) : Prop where
  null : getNextName st.left true = .null
  head : st.left.head? ≠ some slash
  turns : st.left.length < st.turns
  tail : getTail st.left = tail

/-- The approach stops in front of the last component. -/
abbrev Stops (tail : Option Name) (x : M (Except (Option Errno) Stand)) : Prop :=
  ∀ s, wp x (fun r _ => ∀ st, r = .ok st → st.Last tail) (fun _ => True) s

theorem stops_error {t : Option Name} (e : Option Errno) :
    Stops t (do iput pid h; return .error e) := by
  intro s
  refine (wp_true (iput pid h) s).seq fun _ s1 _ st hst => ?_
  cases hst

/-- The text of a link in front of a path, and the path, has its tail. -/
theorem linkPath_tail {vol : Volume} {ino : Inode} {next : Next} {text : Name}
    (hnext : next ≠ .null) (hpath : path ≠ []) (hhead : path.head? ≠ some slash)
    (htext : linkPath vol ino next path = .ok text) : getTail text = getTail path := by
  have hcomponent : ∃ c ∈ path, c ≠ slash := by
    cases path with
    | nil => exact absurd rfl hpath
    | cons c path => exact ⟨c, List.mem_cons_self, by simpa using hhead⟩
  unfold linkPath at htext
  split at htext
  · cases htext
  · exact absurd rfl hnext
  · split at htext
    · cases htext
    · cases htext
      exact getTail_append _ hcomponent

theorem head_dropWhile_slash : (path.dropWhile (· == slash)).head? ≠ some slash := by
  intro hhead
  have hnot := List.head?_dropWhile_not (· == slash) path
  rw [hhead] at hnot
  simp at hnot

/-- What `get_next_name` leaves does not begin with a slash. -/
theorem getNextName_head (hnext : getNextName path flag = .part name rest) :
    rest.head? ≠ some slash := by
  unfold getNextName at hnext
  dsimp only at hnext
  split_ifs at hnext
  cases hnext
  exact head_dropWhile_slash

theorem getNextName_father (hnext : getNextName path true = .part name rest) : rest ≠ [] := by
  unfold getNextName at hnext
  dsimp only at hnext
  split_ifs at hnext with h1 h2 h3
  cases hnext
  exact fun hrest => h3 ⟨rfl, hrest⟩

theorem approachLoop_stops
    (hfollow : ∀ g, follow = some g → ∀ prev ended text, Stops (getTail text) (g prev ended text))
    (ended : Bool) (turns : Nat) (prev : Dev × Nat) (hhead : path.head? ≠ some slash)
    (hturns : path.length < turns) :
    Stops (getTail path) (approachLoop pid links follow ended turns prev h path) := by
  induction turns generalizing prev h path with
  | zero => exact absurd hturns (Nat.not_lt_zero _)
  | succ turns ih =>
    intro s
    have hlink (g : Approach) (next : Next) (hg : follow = some g) (hnext : next ≠ .null)
        (hpath : path ≠ []) :
        wp (match linkPath (s.vol h.dev) (s.node h).ino next path with
          | .error e => (do iput pid h; return .error (some e))
          | .ok text => (do iput pid h; g prev ended text) : M (Except (Option Errno) Stand))
          (fun r _ => ∀ st, r = .ok st → st.Last (getTail path)) (fun _ => True) s := by
      cases htext : linkPath (s.vol h.dev) (s.node h).ino next path with
      | error e => exact stops_error _ s
      | ok text =>
        refine (wp_true (iput pid h) s).seq fun _ s1 _ => ?_
        rw [← linkPath_tail hnext hpath hhead htext]
        exact hfollow g hg _ _ _ s1
    unfold approachLoop
    rw [wp_bind, wp_get]
    cases hnext : getNextName path true with
    | null =>
      intro st hst
      cases hst
      exact ⟨hnext, hhead, hturns, rfl⟩
    | tooLong =>
      have hpath : path ≠ [] := by
        rintro rfl
        cases hnext
      dsimp only
      split
      · cases follow with
        | none => exact stops_error _ s
        | some g => exact hlink g _ rfl nofun hpath
      · exact stops_error _ s
    | part name rest =>
      have hpath : path ≠ [] := by
        rintro rfl
        cases hnext
      dsimp only
      split
      · cases follow with
        | none => exact stops_error _ s
        | some g => exact hlink g _ rfl nofun hpath
      · split
        · exact stops_error _ s
        · refine (wp_true (ifind pid h name) s).seq fun found s1 _ => ?_
          cases found with
          | none =>
            intro st hst
            cases hst
          | some found =>
            rw [← getTail_rest hnext (getNextName_father hnext)]
            have hrest := (getNextName_part hnext).2.2
            exact ih _ (getNextName_head hnext) (by omega) s1

theorem approachPath_stops
    (hfollow : ∀ g, follow = some g → ∀ prev ended text, Stops (getTail text) (g prev ended text))
    (prev : Dev × Nat) (ended : Bool) (path : Name) :
    Stops (getTail path) (approachPath pid links follow prev ended path) := by
  intro s
  unfold approachPath
  split
  · intro st hst
    cases hst
  · rw [wp_bind, wp_get]
    refine (wp_true _ s).seq fun h s1 _ => ?_
    by_cases habs : path.head? = some slash
    · simp only [if_pos habs]
      rw [← getTail_dropWhile]
      exact approachLoop_stops hfollow _ _ _ head_dropWhile_slash (Nat.lt_succ_self _) s1
    · simp only [if_neg habs]
      exact approachLoop_stops hfollow _ _ _ habs (Nat.lt_succ_self _) s1

/-- The approach stops in front of the last component. -/
theorem approachLink_stops (prev : Dev × Nat) (ended : Bool) (path : Name) :
    Stops (getTail path) (approachLink pid links prev ended path) := by
  induction links generalizing prev ended path with
  | zero => exact approachPath_stops (fun g hg => by cases hg) prev ended path
  | succ links ih =>
    refine approachPath_stops (fun g hg => ?_) prev ended path
    cases hg
    exact ih

-- ======== the last step

/-- What the father is looked for with. -/
def fatherQuest : Quest := ⟨true, true, none⟩

/-- What the inode is looked for with, which may be a link. -/
def inodeQuest : Quest := ⟨false, false, none⟩

theorem ifind_isDir (hfind : ifind pid h name s = .ok (some x, s1)) :
    isDir (s.node h).mode = true := by
  by_contra hdir
  have hnone : wp (ifind pid h name) (fun r _ => r = none) (fun _ => True) s := by
    unfold ifind
    rw [wp_bind, wp_get, if_pos (by simpa using hdir)]
    exact (wp_true (iput pid h) s).seq fun _ _ _ => rfl
  cases hnone.returns hfind

theorem errout_fails {e : Errno} (hrun : errout pid h e s = .ok (.ok x, s1)) : False := by
  have herr : wp (errout pid h e) (fun r _ => r = .error (some e)) (fun _ => True) s :=
    (wp_true (iput pid h) s).seq fun _ _ _ => rfl
  cases herr.returns hrun

variable {st : Stand}

theorem Stand.Last.left_ne (hlast : st.Last (some tail)) : st.left ≠ [] := by
  intro hleft
  have htail := hlast.tail
  rw [hleft] at htail
  cases htail

theorem Stand.Last.next (hlast : st.Last (some tail)) :
    getNextName st.left false = .part tail [] := by
  obtain ⟨last, htail, hnext⟩ := getNextName_last hlast.null hlast.head hlast.left_ne
  have heq : last = tail := Option.some.inj (htail.symm.trans hlast.tail)
  rw [hnext, heq]

theorem arrive_eq (hlast : st.Last (some tail)) (pid : Nat) (q : Quest) :
    ∃ turns, arrive pid q (.ok st) = nameiLoop pid q (followOf pid q st.links) st.ended (turns + 2)
      st.prev st.workino st.left := by
  have hleft := List.length_pos_iff.mpr hlast.left_ne
  have hturns := hlast.turns
  refine ⟨st.turns - 2, ?_⟩
  rw [show st.turns - 2 + 2 = st.turns by omega]
  rfl

/-- Nothing is left of the path. -/
theorem nameiLoop_end {follow : Option Follow} {ended : Bool} {turns : Nat} {prev : Dev × Nat}
    (hrun : nameiLoop pid inodeQuest follow ended (turns + 1) prev h [] s = .ok (.ok x, s1)) :
    x = h ∧ s1 = s := by
  unfold nameiLoop at hrun
  rw [if_neg (by exact nofun), run_get] at hrun
  have hnext : getNextName [] inodeQuest.flag = .null := rfl
  rw [hnext] at hrun
  dsimp only at hrun
  split at hrun
  · cases hrun
    exact ⟨rfl, rfl⟩
  · split at hrun
    · exact (errout_fails hrun).elim
    · cases hrun
      exact ⟨rfl, rfl⟩

/-- From a directory the walk to the inode looks up the tail. -/
theorem arrive_inode (hlast : st.Last (some tail)) (hlnk : ¬ isLnk (s.node st.workino).mode = true)
    (hrun : arrive pid inodeQuest (.ok st) s = .ok (.ok x, s1)) :
    ifind pid st.workino tail s = .ok (some x, s1) := by
  obtain ⟨turns, harrive⟩ := arrive_eq hlast pid inodeQuest
  have hnext : getNextName st.left inodeQuest.flag = .part tail [] := hlast.next
  rw [harrive] at hrun
  unfold nameiLoop at hrun
  rw [if_neg (by exact nofun), run_get, hnext] at hrun
  dsimp only at hrun
  rw [if_neg hlnk] at hrun
  split at hrun
  · exact (errout_fails hrun).elim
  · obtain ⟨found, s2, hfind, hend⟩ := run_bind_ok hrun
    cases found with
    | none => cases hend
    | some found =>
      obtain ⟨rfl, rfl⟩ := nameiLoop_end hend
      exact hfind

/-- The walk to the father is at its end. -/
theorem arrive_father (hlast : st.Last (some tail))
    (hlnk : ¬ isLnk (s.node st.workino).mode = true) (hdir : isDir (s.node st.workino).mode = true) :
    arrive pid fatherQuest (.ok st) s = .ok (.ok st.workino, s) := by
  obtain ⟨turns, harrive⟩ := arrive_eq hlast pid fatherQuest
  have hnext : getNextName st.left fatherQuest.flag = .null := hlast.null
  rw [harrive]
  unfold nameiLoop
  rw [if_neg (by exact nofun), run_get, hnext]
  rw [if_neg hlnk, if_neg (by rw [hdir]; simp)]
  rfl

/-- The walk to the father follows the text of a link and forgets the last
component. -/
theorem arrive_link {d : Handle} (hlast : st.Last (some tail))
    (hlnk : isLnk (s.node st.workino).mode = true) :
    arrive pid fatherQuest (.ok st) s = .ok (.ok d, s1) ↔
      ∃ text links, realFilename (s.vol st.workino.dev) (s.node st.workino).ino = .ok text ∧
        st.links = links + 1 ∧
        (do iput pid st.workino
            stepIntoLink pid fatherQuest links st.prev st.ended text : M Found) s
          = .ok (.ok d, s1) := by
  obtain ⟨turns, harrive⟩ := arrive_eq hlast pid fatherQuest
  have hnext : getNextName st.left fatherQuest.flag = .null := hlast.null
  have hinto : fatherQuest.intoLink = true := rfl
  rw [harrive]
  unfold nameiLoop
  rw [if_neg (by exact nofun), run_get, hnext, hinto]
  rw [if_pos hlnk]
  cases hlinks : st.links with
  | zero =>
    apply iff_of_false
    · exact fun hrun => errout_fails hrun
    · rintro ⟨_, _, _, hsucc, _⟩
      cases hsucc
  | succ links =>
    unfold followOf linkPath
    cases htext : realFilename (s.vol st.workino.dev) (s.node st.workino).ino with
    | error e =>
      apply iff_of_false
      · exact fun hrun => errout_fails hrun
      · rintro ⟨_, _, hok, _⟩
        cases hok
    | ok text =>
      constructor
      · exact fun hrun => ⟨text, links, rfl, rfl, hrun⟩
      · rintro ⟨_, _, hok, hsucc, hrun⟩
        cases hok
        cases hsucc
        exact hrun

/-- The walk to the father leads to a directory in which the name of the
path stands for `x`. -/
def Held (pid : Nat) (path : Name) (x : Handle) (s : Sys) : Prop :=
  ∃ d tail s1 s₂, namei pid path true s = .ok (.ok d, s1) ∧ isDir (s1.node d).mode = true ∧
    getTail path = some tail ∧ ifind pid d tail s1 = .ok (some x, s₂)

/-- The directory above the one that a link leads to has the name as well,
for the same inode. -/
def LeadsBack (pid : Nat) (st : Stand) (tail : Name) (x : Handle) (s : Sys) : Prop :=
  ∃ text links d s1 s₂,
    realFilename (s.vol st.workino.dev) (s.node st.workino).ino = .ok text ∧ st.links = links + 1 ∧
    (do iput pid st.workino
        stepIntoLink pid fatherQuest links st.prev st.ended text : M Found) s = .ok (.ok d, s1) ∧
    ifind pid d tail s1 = .ok (some x, s₂)

/-- A path that leads to `x` is approached, by both walks. -/
theorem approach_of_namei0 (hfull : namei0 pid path false s = .ok (.ok x, s1)) :
    ∃ st s₂, approach pid path s = .ok (.ok st, s₂) ∧ st.Last (getTail path) ∧
      arrive pid inodeQuest (.ok st) s₂ = .ok (.ok x, s1) ∧
      namei pid path true s = arrive pid fatherQuest (.ok st) s₂ := by
  have hinode : namei0 pid path false = approach pid path >>= arrive pid inodeQuest :=
    nameiQuest_approach rfl path
  have hfather : namei pid path true = approach pid path >>= arrive pid fatherQuest :=
    nameiQuest_approach rfl path
  rw [hinode] at hfull
  obtain ⟨r, s₂, happr, harrive⟩ := run_bind_ok hfull
  cases r with
  | error e => cases harrive
  | ok st =>
    refine ⟨st, s₂, happr, (approachLink_stops _ _ path s).returns happr st rfl, harrive, ?_⟩
    rw [hfather, run_bind happr]

/-- Without a link in front of the tail, the father holds `x`. -/
theorem father_holds_of_dir {s₂ : Sys} (hfull : namei0 pid path false s = .ok (.ok x, s1))
    (htail : getTail path = some tail) (happr : approach pid path s = .ok (.ok st, s₂))
    (hlnk : ¬ isLnk (s₂.node st.workino).mode = true) : Held pid path x s := by
  obtain ⟨st', s2', happr', hlast, harrive, hrun⟩ := approach_of_namei0 hfull
  rw [happr] at happr'
  cases happr'
  rw [htail] at hlast
  have hfind := arrive_inode hlast hlnk harrive
  have hdir := ifind_isDir hfind
  exact ⟨st.workino, tail, s₂, s1, hrun.trans (arrive_father hlast hlnk hdir), hdir, htail, hfind⟩

/-- If a path leads to `x`, the walk to the father leads to a directory
that holds `x` under the tail of the path exactly if the path has a tail
and what stands in front of it is no link, or a link that leads back. -/
theorem father_holds_iff (hfull : namei0 pid path false s = .ok (.ok x, s1)) :
    Held pid path x s ↔ ∃ tail st s₂, getTail path = some tail ∧
      approach pid path s = .ok (.ok st, s₂) ∧
      (isLnk (s₂.node st.workino).mode = true → LeadsBack pid st tail x s₂) := by
  obtain ⟨st, s₂, happr, hlast, -, hrun⟩ := approach_of_namei0 hfull
  constructor
  · rintro ⟨d, tail, s3, s4, hd, hdir, htail, hfind⟩
    refine ⟨tail, st, s₂, htail, happr, fun hlnk => ?_⟩
    rw [htail] at hlast
    rw [hrun, arrive_link hlast hlnk] at hd
    obtain ⟨text, links, htext, hlinks, hgo⟩ := hd
    exact ⟨text, links, d, s3, s4, htext, hlinks, hgo, hfind⟩
  · rintro ⟨tail, st', s2', htail, happr', hback⟩
    by_cases hlnk : isLnk (s2'.node st'.workino).mode = true
    · rw [happr] at happr'
      cases happr'
      rw [htail] at hlast
      obtain ⟨text, links, d, s3, s4, htext, hlinks, hgo, hfind⟩ := hback hlnk
      have hd := (arrive_link hlast hlnk).mpr ⟨text, links, htext, hlinks, hgo⟩
      exact ⟨d, tail, s3, s4, hrun.trans hd, ifind_isDir hfind, htail, hfind⟩
    · exact father_holds_of_dir hfull htail happr' hlnk

-- ======== a link in between

/-- The root directory with the directory `b` and the link `l`. -/
def linkedRoot : Block := putDirect rootBlock 3 ⟨8, nameL⟩

/-- The directory `b` with the file `f`. -/
def linkedDir : Block := putDirect (dirBlock 1) 2 ⟨9, nameF⟩

/-- The text of the link is `b`. -/
def linkText : Block := fun i => if i = 0 then 0x62 else 0

/-- A system with the root volume only, mounted on itself, in which `l`
leads to `b`. -/
def linkSys : Sys :=
  { Sys.quiet
      { oneZone.vol with
        blk := fun b =>
          if b = 10 then linkedRoot else if b = 11 then linkedDir
          else if b = 12 then linkText else zeroBlock }
      (fun h =>
        if h.num = 9 then ⟨0x81a4#16, 1, 0, 0, ⟨0, fun _ => 0⟩, 0, 0⟩
        else if h.num = 8 then ⟨0xa1ff#16, 1, 0, 0, ⟨1, fun _ => 12⟩, 0, 0⟩
        else if h.num = 7 then ⟨0x41ed#16, 2, 0, 0, ⟨96, fun _ => 11⟩, 0, 0⟩
        else ⟨0x41ed#16, 3, 0, 0, ⟨128, fun _ => 10⟩, 0, 0⟩)
      (fun _ => ⟨0, 0, ⟨0, 1, 0⟩, 0⟩)
      (fun _ => ⟨⟨0, 1, 0⟩, ⟨0, 1, 0⟩, 0, 0, 0, 0, 0, fun _ => none⟩) with
    ref := fun h => ⟨1, none, if h.num = rootInode then some 0 else none, false⟩
    rooti := fun dev => some ⟨dev, rootInode, 0⟩
    mounti := fun dev => some ⟨dev, rootInode, 0⟩ }

/-- The file `f`, and the paths `/b/f` and `/l/f` to it. -/
def fileF : Handle := ⟨0, 9, 0⟩
def directPath : Name := slash :: nameB ++ slash :: nameF
def detourPath : Name := slash :: nameL ++ slash :: nameF

/-- `/b` holds `f`. -/
theorem father_holds_direct : Held 2 directPath fileF linkSys := by
  obtain ⟨s1, hfull⟩ : ∃ s1, namei0 2 directPath false linkSys = .ok (.ok fileF, s1) := by
    decide +kernel
  obtain ⟨⟨_, s2⟩, happr, st, rfl, hlnk⟩ : ∃ r, approach 2 directPath linkSys = .ok r ∧
      ∃ st, r.1 = .ok st ∧ isLnk (r.2.node st.workino).mode = false := by decide +kernel
  refine (father_holds_iff hfull).mpr ⟨nameF, st, s2, by decide +kernel, happr, fun hc => ?_⟩
  rw [hlnk] at hc
  cases hc

/-- The tail of the path is looked up in the father. -/
def lookTail (pid : Nat) (path : Name) : M (Option Handle) := do
  match ← namei pid path true, getTail path with
  | .ok d, some tail => ifind pid d tail
  | _, _ => return none

theorem Held.lookTail (hheld : Held pid path x s) :
    ∃ s2, lookTail pid path s = .ok (some x, s2) := by
  obtain ⟨d, tail, s1, s2, hd, _, htail, hfind⟩ := hheld
  refine ⟨s2, ?_⟩
  unfold Fs.lookTail
  rw [run_bind hd, htail]
  exact hfind

/-- `/l/f` is the file `f`, but the father of the path is the root, which
does not hold it. -/
theorem father_lost : (∃ s1, namei0 2 detourPath false linkSys = .ok (.ok fileF, s1)) ∧
    fileF ≠ (linkSys.task 2).root ∧ ¬ Held 2 detourPath fileF linkSys := by
  refine ⟨by decide +kernel, by decide, fun hheld => ?_⟩
  obtain ⟨s2, hlook⟩ := hheld.lookTail
  have hnone : found (lookTail 2 detourPath linkSys) = none := by decide +kernel
  rw [hlook] at hnone
  cases hnone

end Cnix.Fs
