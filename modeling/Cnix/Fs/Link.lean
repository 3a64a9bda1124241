/-
`do_symlink` of `fs/link.c`.

The text of a link is what `do_write` puts into a new inode that is opened
for it. `do_symlink` does not look at whether all of it was written: the
number of bytes that were is returned.
-/
import Cnix.Fs.Open

namespace Cnix.Fs

/-- `do_write` of the text of a link to an inode that was just opened. -/
def writeText (fd pid : Nat) (text : Name) : M Ret := do
  let s ← get
  match (s.task pid).file fd with
  | none => die .doClose
  | some i =>
    let h := (s.filps i).ino
    let d := s.node h
    match doWrite zeroBlock (s.vol h.dev) d.ino (s.filps i).pos (bytes text) with
    | .error t => throw t
    | .ok w =>
      set (((s.setVol h.dev w.vol).setNode h { d with ino := w.ino }).setFilp i
        { s.filps i with pos := w.pos })
      return w.ret

/-- The text is written to the new link, which is then put. -/
def fillLink (pid : Nat) (inoptr fino : Handle) (text : Name) : M Ret := do
  let finish (ret : Ret) : M Ret := do
    iput pid inoptr
    iput pid fino
    return ret
  match ← doInodeOpen pid inoptr .wronly with
  | .error e => finish (.error e)
  | .ok fd =>
    let ret ← writeText fd pid text
    let _ ← doClose pid fd
    match ret with
    | .error e => finish (.error e)
    | .ok n => finish (.ok (if n = text.length then 0 else n))

/-- `do_symlink`. -/
def doSymlink (pid : Nat) (oldpath newpath : Name) : M Ret := do
  if 4096 ≤ oldpath.length then return .error .enametoolong
  match ← namei pid newpath false with
  | .ok inoptr =>
    iput pid inoptr
    return .error .eexist
  | .error _ =>
    match ← namei pid newpath true with
    | .error e => return errno e
    | .ok fino =>
      let s ← get
      let d := s.node fino
      if !isDir d.mode then
        iput pid fino
        return .error .enotdir
      match getTail newpath with
      | none =>
        iput pid fino
        return .error .enametoolong
      | some part =>
        if !admitted (s.task pid) d iWb then
          iput pid fino
          return .error .eacces
        let mode := 0x1ed#16 &&& ~~~(s.task pid).umask ||| iLnk
        match ← iinsert pid fino part mode 0 with
        | .error e =>
          iput pid fino
          return .error e
        | .ok none => die .iinsert
        | .ok (some inoptr) => fillLink pid inoptr fino oldpath

end Cnix.Fs
