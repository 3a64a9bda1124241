/-
`__namei` of `fs/util.c` on a file system that stands still.

The inodes are those of a graph: `ifind` leads from one to another and
`admit` tells where it may be called. The text of a link is read from its
volume, as it is in `Namei`. What `__namei` builds in its two pages is
kept, and `level`, the number of links it has followed.

The function ends because a link is followed only while `level` is at most
`MAX_SYMLINK_DEPTH`, and `get_next_name` shortens the path between two
links.
-/
import Cnix.Fs.Namei

namespace Cnix.Fs

/-- The file system as one process sees it. -/
structure Graph where
  root : Handle
  pwd : Handle
  mode : Handle → BitVec 16
  vol : Handle → Volume
  ino : Handle → Inode
  admits : Handle → Bool
  find : Handle → Name → Option Handle

/-- What `__namei` returns, the links it has followed and the strings it
has built. -/
structure Lookup where
  found : Found
  level : Nat
  built : List Name

/-- A string is built before the walk goes on. -/
def Lookup.after (strings : List Name) (r : Lookup) : Lookup :=
  { r with built := strings ++ r.built }

namespace Graph

variable (g : Graph)

/-- The text of a link. -/
def text (h : Handle) : Except Errno Name := realFilename (g.vol h) (g.ino h)

/-- The label `step_into_link`: where the walk starts, whether the path
ends with a slash, and the path without the slashes in front. -/
def stepInto (prev : Handle) (ended : Bool) (path : Name) : Option (Handle × Bool × Name) :=
  if path = [] then none
  else if path.head? = some slash then
    some (g.root, ended || path.getLast? == some slash, path.dropWhile (· == slash))
  else some (prev, ended || path.getLast? == some slash, path)

/-- The loop of `__namei`. -/
def walk (q : Quest) (level : Nat) (ended : Bool) (prev workino : Handle) (path : Name) : Lookup :=
  if q.stop = some workino then ⟨.ok workino, level, []⟩
  else if isLnk (g.mode workino) then
    if getNextName path q.flag = .null ∧ q.intoLink = false then ⟨.ok workino, level, []⟩
    else if _hlevel : maxSymlinkDepth < level then ⟨.error (some .emlink), level, []⟩
    else
      match g.text workino with
      | .error e => ⟨.error (some e), level + 1, []⟩
      | .ok text =>
        match linkPath (g.vol workino) (g.ino workino) (getNextName path q.flag) path with
        | .error e => ⟨.error (some e), level + 1, [text]⟩
        | .ok page =>
          match g.stepInto prev ended page with
          | none => ⟨.error none, level + 1, [text, page]⟩
          | some (start, ended, path) =>
            (walk q (level + 1) ended start start path).after [text, page]
  else
    match _hnext : getNextName path q.flag with
    | .null =>
      if ended ∧ !isDir (g.mode workino) then ⟨.error (some .enotdir), level, []⟩
      else ⟨.ok workino, level, []⟩
    | .tooLong => ⟨.error (some .enametoolong), level, []⟩
    | .part name rest =>
      if !g.admits workino then ⟨.error (some .eacces), level, []⟩
      else
        match g.find workino name with
        | none => ⟨.error (some .enoent), level, []⟩
        | some foundino => walk q level ended workino foundino rest
termination_by (maxSymlinkDepth + 1 - level, path.length)
decreasing_by
  · exact .left _ _ (by omega)
  · exact .right _ (getNextName_part _hnext).2.2

/-- `__namei`. -/
def lookup (q : Quest) (path : Name) : Lookup :=
  match g.stepInto g.pwd false path with
  | none => ⟨.error none, 0, []⟩
  | some (start, ended, path) => g.walk q 0 ended start start path

end Graph

end Cnix.Fs
