/-
The console of `driver/vga.c`: what `vga_write` does with a byte, from the
plain characters to the thirteen states of the escape sequences.

Characters are gathered in `v_data` and go to the video memory at
`v_curpos`, which is where the cursor was at the last `vga_flush`. The
screen is the 25 rows from `v_org` on; it moves through the memory between
`v_start` and `v_end`.

Numbers are C integers: an argument of an escape sequence may have any
number of digits and wraps at 2^32, and so does a cursor that is moved by
it. Both copies of the source move cells as if at once, since one starts
at the low end and is used downwards, and the other the other way round.
The registers of the adapter, the lights of the keyboard and the bell are
left out.

`writes` is there for the proofs only: every run of cells that was
written, the last one first.
-/
import Cnix.Basic

namespace Cnix.Driver

/-- `cols` and `lines`. -/
def cols : Int := 80
def lines : Int := 25

/-- `VBUFFERSIZE`. -/
def vbufferSize : Nat := 256

/-- `DEF_COLOR`. -/
def defColor : BitVec 16 := 0x0700

/-- `v_escape`: which of `escape0` to `escape12` takes the next byte. -/
inductive Esc
  | e0 | e1 | e2 | e3 | e4 | e5 | e6 | e7 | e8 | e9 | e10 | e11 | e12
  deriving DecidableEq, Repr

/-- A C integer. -/
def wrap (x : Int) : Int := x.bmod (2 ^ 32)

/-- `struct vga_struct`; `onlcr` are the flags `OPOST` and `ONLCR` of its
terminal, `data` the first `v_idx` cells of `v_data`. -/
structure Vga where
  onlcr : Bool
  currow : Int
  curcol : Int
  vstart : Int
  vend : Int
  org : Int
  curpos : Int
  escape : Esc
  argv : Fin 4 → Int
  attr : BitVec 16
  data : List (BitVec 16)
  mem : Int → BitVec 16
  bakCurrow : Int
  bakCurcol : Int
  bakCurpos : Int
  bakAttr : BitVec 16
  scrollStart : Int
  scrollEnd : Int
  colorReverse : Bool
  writes : List (Int × Int)

namespace Vga

variable (v : Vga)

-- ======== video memory

/-- `color_ch`. -/
def colorCh (ch : BitVec 16) : BitVec 16 :=
  if v.colorReverse then (ch ||| v.attr) ^^^ 0xff00 else ch ||| v.attr

/-- Write `count` cells from `dest` on. -/
def write (dest count : Int) (cell : Int → BitVec 16) : Vga :=
  { v with
    mem := fun i => if dest ≤ i ∧ i < dest + count then cell (i - dest) else v.mem i
    writes := if 0 < count then (dest, count) :: v.writes else v.writes }

/-- `vidmem_set`. -/
def vidmemSet (dest : Int) (ch : BitVec 16) (count : Int) : Vga := v.write dest count fun _ => ch

/-- `front_copy` and `back_copy` inside the memory. -/
def frontCopy (dest src count : Int) : Vga := v.write dest count fun i => v.mem (src + i)
def backCopy (dest src count : Int) : Vga := v.write dest count fun i => v.mem (src + i)

/-- `vga_flush`. -/
def flush : Vga :=
  let v := v.write v.curpos v.data.length fun i => v.data.getD i.toNat 0
  { v with data := [], curpos := v.org + cols * v.currow + v.curcol }

/-- `scroll_up`. -/
def scrollUp : Vga :=
  let howmuch := v.scrollEnd - v.scrollStart
  if howmuch < lines - 1 then
    let dest := v.org + v.scrollStart * cols
    let v := v.frontCopy dest (dest + cols) (howmuch * cols)
    v.vidmemSet (dest + howmuch * cols) (v.colorCh 32) cols
  else
    let v :=
      if v.org + cols * (lines + 1) ≤ v.vend then { v with org := v.org + cols }
      else
        let v := v.flush
        let v := v.frontCopy v.vstart (v.org + cols) ((lines - 1) * cols)
        { v with org := v.vstart }
    v.vidmemSet (v.org + (lines - 1) * cols) (v.colorCh 32) cols

/-- `scroll_down`. -/
def scrollDown : Vga :=
  let howmuch := v.scrollEnd - v.scrollStart
  if howmuch < lines - 1 then
    let src := v.org + v.scrollStart * cols
    let v := v.backCopy (src + cols) src (howmuch * cols)
    v.vidmemSet src (v.colorCh 32) cols
  else
    let v :=
      if v.vstart ≤ v.org - cols then { v with org := v.org - cols }
      else
        let v := v.flush
        let v := v.backCopy (v.vend - (lines - 1) * cols) v.org ((lines - 1) * cols)
        { v with org := v.vend - lines * cols }
    v.vidmemSet v.org (v.colorCh 32) cols

-- ======== plain characters

/-- The cursor goes to the next row: at the end of the scrolling region the
region moves instead. -/
def nextRow : Vga :=
  if v.currow = v.scrollEnd then v.scrollUp else { v with currow := v.currow + 1 }

/-- `bs_proc`. -/
def bsProc : Vga :=
  let v := { v with curcol := v.curcol - 1 }
  if v.curcol < 0 then
    let v := { v with currow := v.currow - 1 }
    if 0 ≤ v.currow then { v with curcol := v.curcol + cols }
    else { v with curcol := 0, currow := 0 }
  else v

/-- `nl_proc`. -/
def nlProc : Vga := nextRow (if v.onlcr then { v with curcol := 0 } else v)

/-- `cr_proc`. -/
def crProc : Vga := { v with curcol := 0 }

/-- `tab_proc`. -/
def tabProc : Vga :=
  let v := { v with curcol := (v.curcol + 8) / 8 * 8 }
  if cols - 1 < v.curcol then nextRow { v with curcol := v.curcol - (cols - 1) } else v

/-- `esc_proc`. -/
def escProc : Vga := { v with escape := .e1 }

/-- `char_table`; the bell does nothing here. -/
def charTable : List (Byte × (Vga → Vga)) :=
  [(10, nlProc), (27, escProc), (9, tabProc), (8, bsProc), (7, id), (13, crProc)]

/-- The function of a character in a table. -/
def lookUp (table : List (Byte × (Vga → Vga))) (ch : Byte) : Option (Vga → Vga) :=
  (table.find? fun entry => entry.1 == ch).map Prod.snd

/-- A character needs a new row. -/
def rowFull : Bool := vbufferSize - 1 < v.data.length ∨ cols - 1 < v.curcol

/-- `escape0` puts a character. -/
def putChar (ch : Byte) : Vga :=
  let v := if v.rowFull then flush { v.nextRow with curcol := 0 } else v
  { v with data := v.data ++ [v.colorCh (ch.setWidth 16)], curcol := v.curcol + 1 }

/-- `escape0`. -/
def escape0 (ch : Byte) : Vga :=
  if ch = 0 then v
  else
    match (if ch < 32 then lookUp charTable ch else none) with
    | some proc => (proc v).flush
    | none => v.putChar ch

-- ======== escape sequences

/-- `check_col` and `check_row`. -/
def clamp (x bound : Int) : Int := if x < 0 then 0 else if bound - 1 < x then bound - 1 else x

/-- Move the cursor, within the screen. -/
def setRow (row : Int) : Vga := { v with currow := clamp (wrap row) lines }
def setCol (col : Int) : Vga := { v with curcol := clamp (wrap col) cols }

/-- An argument that counts, 1 if it is missing. -/
def arg (i : Fin 4) : Int := if v.argv i ≤ 0 then 1 else v.argv i

/-- An argument that is a place, from 0 on. -/
def place (i : Fin 4) : Int := if v.argv i ≤ 0 then 0 else v.argv i - 1

/-- `esc_at`. -/
def escAt : Vga :=
  let n := min (v.place 0) (cols - v.curcol)
  let v := v.backCopy (v.curpos + n) v.curpos (cols - (v.curcol + n))
  v.vidmemSet v.curpos (v.colorCh 32) n

/-- `esc_A` to `esc_H`. -/
def escA : Vga := v.setRow (v.currow - v.arg 0)
def escB : Vga := v.setRow (v.currow + v.arg 0)
def escC : Vga := v.setCol (v.curcol + v.arg 0)
def escD : Vga := v.setCol (v.curcol - v.arg 0)
def escE : Vga := { v.setRow (v.currow + v.arg 0) with curcol := 0 }
def escF : Vga := { v.setRow (v.currow - v.arg 0) with curcol := 0 }
def escG : Vga := v.setCol (v.place 0)
def escH : Vga := (v.setCol (v.place 1)).setRow (v.place 0)

/-- `esc_J`. -/
def escJ : Vga :=
  let n := if v.argv 0 < 0 then 0 else v.argv 0
  if n = 0 then v.vidmemSet v.curpos (v.colorCh 32) (lines * cols - (v.curpos - v.org))
  else if n = 1 then v.vidmemSet v.org (v.colorCh 32) (v.curpos - v.org)
  else if n = 2 then v.vidmemSet v.org (v.colorCh 32) (lines * cols)
  else v

/-- `esc_K`. -/
def escK : Vga :=
  let n := if v.argv 0 < 0 then 0 else v.argv 0
  if n = 0 then v.vidmemSet v.curpos (v.colorCh 32) (cols - v.curcol)
  else if n = 1 then v.vidmemSet (v.curpos - v.curcol) (v.colorCh 32) v.curcol
  else if n = 2 then v.vidmemSet (v.curpos - v.curcol) (v.colorCh 32) cols
  else v

/-- `esc_L`. -/
def escL : Vga :=
  let n := min (v.place 0) (lines - v.currow)
  let src := v.curpos - v.curcol
  let v := v.backCopy (src + n * cols) src ((lines - (n + v.currow)) * cols)
  v.vidmemSet src (v.colorCh 32) (n * cols)

/-- `esc_M`. -/
def escM : Vga :=
  let n := min (v.place 0) (lines - v.currow)
  let dest := v.curpos - v.curcol
  let count := lines - (n + v.currow)
  let v := v.frontCopy dest (dest + n * cols) (count * cols)
  v.vidmemSet (dest + count * cols) (v.colorCh 32) (n * cols)

/-- How many characters `esc_P` and `esc_X` are about; a missing argument
is not compared with the end of the row. -/
def charCount : Int := if v.argv 0 ≤ 0 then 1 else min (v.argv 0) (cols - v.curcol)

/-- `esc_P`. The cells to clear begin `count << 1` cells behind the cursor:
the shift is that of a number of bytes, but the pointer counts cells. -/
def escP : Vga :=
  let n := v.charCount
  let count := cols - (v.curcol + n)
  let v := v.frontCopy v.curpos (v.curpos + n) count
  v.vidmemSet (v.curpos + 2 * count) (v.colorCh 32) n

/-- `esc_X`. -/
def escX : Vga := v.vidmemSet v.curpos (v.colorCh 32) v.charCount

/-- `esc_a` and `esc_d`. -/
def esca : Vga := v.setCol (v.arg 0)
def escd : Vga := v.setRow (v.place 0)

/-- `colors`. -/
def colors : List (BitVec 16) := [0, 4, 2, 6, 1, 5, 3, 7]

/-- `esc_m0` with its argument. -/
def escm0 (n : Int) : Vga :=
  if n = 0 then { v with attr := defColor, colorReverse := false }
  else if n = 7 then { v with colorReverse := true }
  else if 30 ≤ n ∧ n ≤ 37 then
    { v with attr := (v.attr &&& 0xf0ff) ||| (colors.getD (n - 30).toNat 0 <<< 8) }
  else if 40 ≤ n ∧ n ≤ 47 then
    { v with attr := (v.attr &&& 0x0fff) ||| (colors.getD (n - 40).toNat 0 <<< 12) }
  else v

/-- One more argument of `esc_m`, which it keeps in the first. -/
def escmArg (i : Fin 4) : Vga :=
  if 0 ≤ v.argv i then escm0 { v with argv := Function.update v.argv 0 (v.argv i) } (v.argv i) else v

/-- `esc_m`. -/
def escm : Vga :=
  let n := if v.argv 0 < 0 then 0 else v.argv 0
  let v := escm0 { v with argv := Function.update v.argv 0 n } n
  ((v.escmArg 1).escmArg 2).escmArg 3

/-- `esc_r`: the scrolling region. -/
def escr : Vga :=
  if v.place 1 ≤ v.place 0 then v
  else { v with scrollStart := v.place 0, scrollEnd := v.place 1 }

/-- `esc_char_table`; `id` stands for the functions that do nothing, and
for the one that sets the lights. -/
def escCharTable : List (Byte × (Vga → Vga)) :=
  [(64, escAt), (65, escA), (66, escB), (67, escC), (68, escD), (69, escE), (70, escF), (71, escG),
    (72, escH), (74, escJ), (75, escK), (76, escL), (77, escM), (80, escP), (88, escX), (97, esca),
    (99, id), (100, escd), (101, id), (102, escH), (103, id), (104, id), (108, id), (109, escm),
    (110, id), (113, id), (114, escr), (115, id), (117, id)]

-- ======== the states

/-- `escape1`. -/
def escape1 (ch : Byte) : Vga :=
  if ch = 91 then { v with argv := fun _ => -1, escape := .e2 }
  else if ch = 40 then { v with escape := .e9 }
  else if ch = 41 then { v with escape := .e10 }
  else
    let v :=
      -- reverse index
      if ch = 77 then
        flush (if v.currow = v.scrollStart then v.scrollDown else { v with currow := v.currow - 1 })
      -- save and restore the cursor
      else if ch = 55 then
        flush { v with
          bakCurrow := v.currow, bakCurcol := v.curcol, bakCurpos := v.curpos, bakAttr := v.attr }
      else if ch = 56 then
        if 0 ≤ v.bakCurpos then
          flush { v with
            currow := v.bakCurrow, curcol := v.bakCurcol, curpos := v.bakCurpos, attr := v.bakAttr
            bakCurpos := -1, bakAttr := defColor }
        else v
      else v
    { v with escape := .e0 }

/-- A decimal digit. -/
def isDigit (ch : Byte) : Bool := 48 ≤ ch ∧ ch ≤ 57

/-- The first digit of an argument. -/
def firstDigit (i : Fin 4) (ch : Byte) (next : Esc) : Vga :=
  { v with argv := Function.update v.argv i ((ch.toNat : Int) - 48), escape := next }

/-- One more digit. -/
def nextDigit (i : Fin 4) (ch : Byte) : Vga :=
  { v with argv := Function.update v.argv i (wrap (v.argv i * 10 + ch.toNat - 48)) }

/-- The byte that ends a sequence. -/
def finish (ch : Byte) : Vga :=
  let v :=
    match lookUp escCharTable ch with
    | some proc => (proc v).flush
    | none => v
  { v with escape := .e0 }

/-- `escape4`, `escape6` and `escape11`: behind a semicolon. -/
def startArg (i : Fin 4) (next : Esc) (ch : Byte) : Vga :=
  if isDigit ch then v.firstDigit i ch next else v.finish ch

/-- `escape3`, `escape5` and `escape7`: in a number that a semicolon may
follow. -/
def moreArg (i : Fin 4) (next : Esc) (ch : Byte) : Vga :=
  if isDigit ch then v.nextDigit i ch
  else if ch = 59 then { v with escape := next }
  else v.finish ch

/-- `escape8` and `escape12`: in a number that ends the sequence. -/
def lastArg (i : Fin 4) (ch : Byte) : Vga :=
  if isDigit ch then v.nextDigit i ch else v.finish ch

/-- `escape2`. -/
def escape2 (ch : Byte) : Vga :=
  if isDigit ch then v.firstDigit 0 ch .e3
  else if ch = 63 then { v with escape := .e8 }
  else v.finish ch

/-- `esc_proc_table`. -/
def byte (ch : Byte) : Vga :=
  match v.escape with
  | .e0 => v.escape0 ch
  | .e1 => v.escape1 ch
  | .e2 => v.escape2 ch
  | .e3 => v.moreArg 0 .e4 ch
  | .e4 => v.startArg 1 .e5 ch
  | .e5 => v.moreArg 1 .e6 ch
  | .e6 => v.startArg 2 .e7 ch
  | .e7 => v.moreArg 2 .e11 ch
  | .e8 => v.lastArg 0 ch
  | .e9 => { v with escape := .e0 }
  | .e10 => { v with escape := .e0 }
  | .e11 => v.startArg 3 .e12 ch
  | .e12 => v.lastArg 3 ch

/-- `vga_write`. -/
def vgaWrite (data : List Byte) : Vga := (data.foldl byte v).flush

end Vga

/-- `vga_init`. -/
def vgaInit (onlcr : Bool) : Vga where
  onlcr := onlcr
  currow := 0
  curcol := 0
  vstart := 0
  vend := 8160
  org := 8160 - cols * lines
  curpos := 8160 - cols * lines
  escape := .e0
  argv _ := 0
  attr := defColor
  data := []
  mem _ := 32 ||| defColor
  bakCurrow := 0
  bakCurcol := 0
  bakCurpos := -1
  bakAttr := defColor
  scrollStart := 0
  scrollEnd := lines - 1
  colorReverse := false
  writes := []

end Cnix.Driver
