/-
`sys_getdents` of `fs/syscall.c`, for a directory and a count that is not
negative.

The entries are read one by one with `do_read`. A record has room for its
name and is a multiple of four bytes long; the loop goes on while there is
room for a record with the longest name before it is rounded.
-/
import Cnix.Fs.Direct

namespace Cnix.Fs

/-- `nameoff`. -/
def nameoff : Nat := 10

/-- `struct dirent`. -/
structure Dirent where
  ino : Nat
  off : Nat
  reclen : Nat
  name : Name
  deriving DecidableEq

/-- What a call leaves: the records, or an error, and `f_pos`. -/
structure Listing where
  ret : Except Errno (List Dirent)
  pos : Nat

/-- A record in front of those that follow. An error is all that is
returned. -/
def Listing.cons (e : Dirent) (r : Listing) : Listing := { r with ret := r.ret.map (e :: ·) }

/-- The bytes that `do_read` has put into a `struct direct`. -/
def readDirect (bytes : List Byte) : Direct := direct (fun i => bytes.getD i 0) 0

/-- `d_reclen`. -/
def reclen (name : Name) : Nat := (nameoff + name.length + 1 + 3) / 4 * 4

/-- The loop of `sys_getdents`, for at most `rounds` entries. -/
def getdentsLoop (vol : Volume) (ino : Inode) (count : Nat) : Nat → Nat → Nat → Listing
  | 0, _, pos => ⟨.error .eio, pos⟩
  | rounds + 1, loc, pos =>
    if count < loc + (nameoff + nameMax + 1) then ⟨.ok [], pos⟩
    else
      let (bytes, pos) := doRead vol ino pos directSize
      if bytes.length ≠ directSize then ⟨if bytes = [] then .ok [] else .error .eio, pos⟩
      else
        let d := readDirect bytes
        if d.ino = 0 then getdentsLoop vol ino count rounds loc pos
        else
          (getdentsLoop vol ino count rounds (loc + reclen d.name) pos).cons
            ⟨d.ino, pos, reclen d.name, d.name⟩

/-- `sys_getdents` at the position `pos`. -/
def sysGetdents (vol : Volume) (ino : Inode) (count pos : Nat) : Listing :=
  if count = 0 then ⟨.ok [], pos⟩
  else getdentsLoop vol ino count (ino.size / directSize + 1) 0 pos

/-- What the call returns. -/
def dirbytes (records : List Dirent) : Nat := (records.map (·.reclen)).sum

end Cnix.Fs
