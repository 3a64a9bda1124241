/-
From a path to an inode: `get_next_name`, `get_tail`, `real_filename`,
`ifind`, `__namei` and `bypass` of `fs/util.c`.

`__namei` returns a locked inode, or `NULL` and an error. A link whose
text is empty makes it return `NULL` and the error 0. With `flag` it
looks for the directory that the last component of the path is in. A
link in front of the last component is then replaced by its text alone,
so that the last component of the text is what is left off.

The two pages that `__namei` takes for the texts of links are always
there.
-/
import Cnix.Fs.Direct

namespace Cnix.Fs

-- ======== components

/-- What `get_next_name` returns: `NULL`, -1, or a component and what
follows it. -/
inductive Next
  | null
  | tooLong
  | part (name rest : Name)
  deriving DecidableEq

/-- `get_next_name`. -/
def getNextName (path : Name) (flag : Bool) : Next :=
  let name := path.takeWhile (· != slash)
  let rest := (path.dropWhile (· != slash)).dropWhile (· == slash)
  if name = [] then .null
  else if nameMax < name.length then .tooLong
  else if flag ∧ rest = [] then .null
  else .part name rest

/-- `get_tail`. -/
def getTail (path : Name) : Option Name :=
  let body := path.reverse.dropWhile (· == slash)
  let tail := (body.takeWhile (· != slash)).reverse
  if body = [] ∨ nameMax < tail.length then none else some tail

/-- The name that `getNextName` gives is not empty and leaves less of the
path. -/
theorem getNextName_part {path name rest : Name} {flag : Bool}
    (h : getNextName path flag = .part name rest) :
    name ≠ [] ∧ name.length ≤ nameMax ∧ rest.length < path.length := by
  unfold getNextName at h
  dsimp only at h
  split at h
  · cases h
  next hname =>
  split at h
  · cases h
  next hlen =>
  split at h
  · cases h
  cases h
  refine ⟨hname, Nat.le_of_not_lt hlen, ?_⟩
  have hsplit := List.takeWhile_append_dropWhile (p := (· != slash)) (l := path)
  have hlength := congrArg List.length hsplit
  have hpos := List.length_pos_iff.mpr hname
  have hdrop := (List.dropWhile_sublist (l := path.dropWhile (· != slash))
    (· == slash)).length_le
  rw [List.length_append] at hlength
  omega

-- ======== links

/-- `real_filename`: the text of a link. -/
def realFilename (vol : Volume) (ino : Inode) : Except Errno Name :=
  if pageSize ≤ ino.size then .error .enametoolong
  else .ok (cstring (doRead vol ino 0 ino.size).1)

/-- The path to follow instead of the link: its text, and what is left of
the path unless `get_next_name` returned `NULL`. -/
def linkPath (vol : Volume) (ino : Inode) (next : Next) (left : Name) :
    Except Errno Name :=
  match realFilename vol ino, next with
  | .error e, _ => .error e
  | .ok text, .null => .ok text
  | .ok text, _ =>
    if pageSize - text.length < left.length + 2 then .error .enametoolong
    else .ok (text ++ slash :: left)

/-- `MAX_SYMLINK_DEPTH`. -/
def maxSymlinkDepth : Nat := 32

-- ======== ifind

variable (pid : Nat)

/-- The last step of `ifind`: from a mount point to the mounted root. -/
def crossMount (tmp : Handle) : M Handle := do
  match ((← get).ref tmp).mounts with
  | none => return tmp
  | some dev =>
    iput pid tmp
    match (← get).rooti dev with
    | none => die .ifind
    | some root =>
      hold root
      ilock pid root
      return root

/-- The directory that `ifind` searches: for `..` in the root of a volume,
that which the volume is mounted on. -/
def searchedDir (inoptr : Handle) (name : Name) : M Handle := do
  if inoptr.num = rootInode ∧ name = dotdot then
    match (← get).mounti inoptr.dev with
    | none => die .ifind
    | some workino =>
      hold workino
      ilock pid workino
      iput pid inoptr
      return workino
  else return inoptr

/-- `ifind`: the inode with the name, locked. The directory is put. -/
def ifind (inoptr : Handle) (name : Name) : M (Option Handle) := do
  let s ← get
  if !isDir (s.node inoptr).mode then
    iput pid inoptr
    return none
  if inoptr.num = rootInode ∧ name = dotdot ∧ inoptr = (s.task 1).root then
    return some inoptr
  let workino ← searchedDir pid inoptr name
  let s ← get
  match dirSearch (s.vol workino.dev) (s.node workino).ino name with
  | none =>
    iput pid workino
    return none
  | some ino =>
    iput pid workino
    let tmp ← iget pid workino.dev ino
    return some (← crossMount pid tmp)

-- ======== __namei

/-- An inode, or `NULL` and the error, which may be 0. -/
abbrev Found := Except (Option Errno) Handle

/-- Where `__namei` goes on after a link: the inode that a relative path
starts at, and whether a path has ended with a slash. -/
abbrev Follow := Dev × Nat → Bool → Name → M Found

/-- What a walk is after: the father or the inode itself, whether a link
at the end is followed, and for `bypass` an inode to stop at. -/
structure Quest where
  flag : Bool
  intoLink : Bool
  stop : Option Handle

/-- The label `errout`. -/
def errout (workino : Handle) (e : Errno) : M Found := do
  iput pid workino
  return .error (some e)

/-- The loop of `__namei`. `follow` is missing when too many links have
been followed. -/
def nameiLoop (q : Quest) (follow : Option Follow) (ended : Bool) :
    Nat → Dev × Nat → Handle → Name → M Found
  | 0, _, _, _ => fun _ => .error .sleep
  | turns + 1, prev, workino, path => do
    if q.stop = some workino then return .ok workino
    let s ← get
    let d := s.node workino
    let next := getNextName path q.flag
    if isLnk d.mode then
      match next, q.intoLink, follow with
      | .null, false, _ => return .ok workino
      | _, _, none => errout pid workino .emlink
      | _, _, some follow =>
        match linkPath (s.vol workino.dev) d.ino next path with
        | .error e => errout pid workino e
        | .ok text =>
          iput pid workino
          follow prev ended text
    else
      match next with
      | .null =>
        if ended ∧ !isDir d.mode then errout pid workino .enotdir
        else return .ok workino
      | .tooLong => errout pid workino .enametoolong
      | .part name rest =>
        if !admitted (s.task pid) d iXb then errout pid workino .eacces
        else
          match ← ifind pid workino name with
          | none => return .error (some .enoent)
          | some found =>
            nameiLoop q follow ended turns (workino.dev, workino.num) found rest

/-- The label `step_into_link`. -/
def stepPath (q : Quest) (follow : Option Follow) : Follow :=
  fun prev ended path => do
    if path = [] then return .error none
    let ended := ended || path.getLast? == some slash
    let root := ((← get).task pid).root
    let absolute := path.head? = some slash
    let start := if absolute then (root.dev, root.num) else prev
    let path := if absolute then path.dropWhile (· == slash) else path
    let workino ← iget pid start.1 start.2
    nameiLoop pid q follow ended (path.length + 1) start workino path

/-- `__namei`, when `links` links may still be followed. -/
def stepIntoLink (q : Quest) : Nat → Follow
  | 0 => stepPath pid q none
  | links + 1 => stepPath pid q (some (stepIntoLink q links))

/-- `__namei`. -/
def nameiQuest (q : Quest) (path : Name) : M Found := do
  let pwd := ((← get).task pid).pwd
  stepIntoLink pid q (maxSymlinkDepth + 1) (pwd.dev, pwd.num) false path

/-- `namei`. -/
def namei (path : Name) (flag : Bool) : M Found :=
  nameiQuest pid ⟨flag, true, none⟩ path

/-- `namei0`. -/
def namei0 (path : Name) (flag : Bool) : M Found :=
  nameiQuest pid ⟨flag, false, none⟩ path

end Cnix.Fs
