/-
The console stays on the screen, and writes nothing outside its part of
the video memory.

`Ready` is what every function of the driver keeps: the cursor, the screen
and the scrolling region are where they belong, and what is gathered fits
into the memory. `vga_flush` turns it into `Inv`, which holds between two
bytes and says besides where the gathered characters will go: they end at
the cursor, in its row. So each function needs one lemma, from `Inv` to
`Ready`, about the cells it writes and where it puts the cursor.

Five places break it. `esc_r` takes any row for the end of the region. A
cursor below the region goes down from the last row of the screen, and one
above it goes up from the first. `esc_P` clears cells that are twice as
far away as they should be. `esc_X` without an argument clears a cell
behind the last one of the row. `ByteOk` says that a byte does not come to
one of them.
-/
import Cnix.Driver.Vga
import Cnix.Lib.Runs

namespace Cnix.Driver

open Cnix.Lib

namespace Vga

variable {v : Vga} {ch : Byte} {dest count src col : Int}

-- ======== the statement

/-- What is asked of a console. -/
structure OnScreen (v : Vga) : Prop where
  row : 0 ≤ v.currow ∧ v.currow < lines
  col : 0 ≤ v.curcol ∧ v.curcol ≤ cols
  screen : v.vstart ≤ v.org ∧ v.org + lines * cols ≤ v.vend
  region : 0 ≤ v.scrollStart ∧ v.scrollStart < v.scrollEnd ∧ v.scrollEnd < lines
  cells : ∀ w ∈ v.writes, v.vstart ≤ w.1 ∧ w.1 + w.2 ≤ v.vend

/-- A cursor that goes to the next row is at the end of the region or not
in the last row. -/
def NextOk (v : Vga) : Prop := v.currow = v.scrollEnd ∨ v.currow < lines - 1

/-- The byte moves the cursor to the next row. -/
def Advances (v : Vga) (ch : Byte) : Prop :=
  ch = 10 ∨ (ch = 9 ∧ cols - 1 < (v.curcol + 8) / 8 * 8)
    ∨ (ch ≠ 0 ∧ (ch < 32 → lookUp charTable ch = none) ∧ v.rowFull = true)

/-- The end of an escape sequence keeps the region and the cells it clears
within bounds. -/
structure FinishOk (v : Vga) (ch : Byte) : Prop where
  region : ch = 114 → v.place 1 ≤ v.place 0 ∨ v.place 1 < lines
  delete : ch = 80 → 0 < v.charCount →
    v.vstart ≤ v.curpos + 2 * (cols - (v.curcol + v.charCount))
      ∧ v.curpos + 2 * (cols - (v.curcol + v.charCount)) + v.charCount ≤ v.vend
  clear : ch = 88 → v.curpos + v.charCount ≤ v.vend

/-- The condition on a byte, in the state it finds. -/
def ByteOk (v : Vga) (ch : Byte) : Prop :=
  match v.escape with
  | .e0 => v.Advances ch → v.NextOk
  | .e1 => ch = 77 → v.currow = v.scrollStart ∨ 0 < v.currow
  | .e9 => True
  | .e10 => True
  | _ => v.FinishOk ch

-- ======== the invariant

/-- What every function keeps: what is gathered fits into the memory, and
so does the saved cursor on the screen. -/
structure Ready (v : Vga) : Prop extends OnScreen v where
  saved : 0 ≤ v.bakCurrow ∧ v.bakCurrow < lines ∧ 0 ≤ v.bakCurcol ∧ v.bakCurcol ≤ cols
  fits : 0 < (v.data.length : Int) → v.vstart ≤ v.curpos ∧ v.curpos + v.data.length ≤ v.vend

/-- What holds between two bytes: the gathered characters end at the
cursor, in its row, and there are none in an escape sequence. -/
structure Inv (v : Vga) : Prop extends Ready v where
  pos : v.curpos + v.data.length = v.org + cols * v.currow + v.curcol
  short : (v.data.length : Int) ≤ v.curcol
  plain : v.escape ≠ .e0 → v.data = []

theorem cols_eq : cols = 80 := rfl

theorem lines_eq : lines = 25 := rfl

section Moves

variable (h : v.Ready)

include h

/-- Cells are written where they may be. -/
theorem Ready.write {cell : Int → BitVec 16}
    (hin : 0 < count → v.vstart ≤ dest ∧ dest + count ≤ v.vend) : (v.write dest count cell).Ready := by
  refine { h with cells := ?_ }
  intro w hw
  unfold Vga.write at hw
  split at hw
  · next hpos =>
    rcases List.mem_cons.mp hw with rfl | hw
    · exact hin hpos
    · exact h.cells w hw
  · exact h.cells w hw

/-- After `vga_flush` nothing is gathered, and the cursor is where it is
shown. -/
theorem Ready.flush : v.flush.Inv := by
  have hwrite : (v.write v.curpos v.data.length fun i => v.data.getD i.toNat 0).Ready :=
    h.write h.fits
  refine ⟨⟨⟨h.row, h.col, h.screen, h.region, hwrite.cells⟩, h.saved, fun hpos => ?_⟩, ?_, h.col.1,
    fun _ => rfl⟩
  · exact absurd hpos (Int.lt_irrefl 0)
  · show v.org + 80 * v.currow + v.curcol + ((0 : Nat) : Int) = v.org + 80 * v.currow + v.curcol
    omega

theorem Ready.vidmemSet {cell : BitVec 16}
    (hin : 0 < count → v.vstart ≤ dest ∧ dest + count ≤ v.vend) : (v.vidmemSet dest cell count).Ready :=
  h.write hin

theorem Ready.frontCopy
    (hin : 0 < count → v.vstart ≤ dest ∧ dest + count ≤ v.vend) : (v.frontCopy dest src count).Ready :=
  h.write hin

theorem Ready.backCopy
    (hin : 0 < count → v.vstart ≤ dest ∧ dest + count ≤ v.vend) : (v.backCopy dest src count).Ready :=
  h.write hin

theorem Ready.setOrg {org : Int} (hin : v.vstart ≤ org ∧ org + lines * cols ≤ v.vend) :
    ({ v with org := org } : Vga).Ready :=
  { h with screen := hin }

theorem Ready.setCursor {row : Int} (hrow : 0 ≤ row ∧ row < lines)
    (hcol : 0 ≤ col ∧ col ≤ cols) : ({ v with currow := row, curcol := col } : Vga).Ready :=
  { h with row := hrow, col := hcol }

-- ======== scrolling

/-- A row of the screen is blanked. -/
theorem Ready.blank {cell : BitVec 16} (hin : v.org ≤ dest ∧ dest + cols ≤ v.org + lines * cols) :
    (v.vidmemSet dest cell cols).Ready := by
  have hscreen := h.screen
  refine h.vidmemSet fun _ => ?_
  omega

theorem Ready.scrollUp : v.scrollUp.Ready := by
  have hscreen := h.screen
  have hregion := h.region
  simp only [cols_eq, lines_eq] at hscreen hregion
  unfold Vga.scrollUp
  dsimp only
  split
  · refine Ready.vidmemSet (h.frontCopy fun _ => ?_) fun _ => ?_
    · simp only [cols_eq]
      omega
    · show v.vstart ≤ _ ∧ _ ≤ v.vend
      simp only [cols_eq]
      omega
  · refine Ready.blank ?_ (by simp only [cols_eq, lines_eq]; omega)
    split
    · refine h.setOrg ?_
      simp only [cols_eq, lines_eq] at *
      omega
    · -- the screen goes back to the beginning of the memory
      refine (h.flush.toReady.frontCopy fun _ => ?_).setOrg ?_
      all_goals
        show v.vstart ≤ v.vstart ∧ v.vstart + _ ≤ v.vend
        simp only [cols_eq, lines_eq]
        omega

theorem Ready.scrollDown : v.scrollDown.Ready := by
  have hscreen := h.screen
  have hregion := h.region
  simp only [cols_eq, lines_eq] at hscreen hregion
  unfold Vga.scrollDown
  dsimp only
  split
  · refine Ready.vidmemSet (h.backCopy fun _ => ?_) fun _ => ?_
    · simp only [cols_eq]
      omega
    · show v.vstart ≤ _ ∧ _ ≤ v.vend
      simp only [cols_eq]
      omega
  · refine Ready.blank ?_ (by simp only [cols_eq, lines_eq]; omega)
    split
    · refine h.setOrg ?_
      simp only [cols_eq, lines_eq] at *
      omega
    · -- the screen goes on to the end of the memory
      refine (h.flush.toReady.backCopy fun _ => ?_).setOrg ?_
      all_goals
        show v.vstart ≤ v.vend - _ ∧ v.vend - _ + _ ≤ v.vend
        simp only [cols_eq, lines_eq]
        omega

-- ======== plain characters

theorem Ready.nextRow (hok : v.NextOk) : v.nextRow.Ready := by
  unfold Vga.nextRow
  split
  · exact h.scrollUp
  · next hne =>
    refine { h with row := ?_ }
    have hrow := h.row
    have hlt := hok.resolve_left hne
    rw [lines_eq] at *
    show 0 ≤ v.currow + 1 ∧ v.currow + 1 < 25
    omega

theorem Ready.bsProc : v.bsProc.Ready := by
  have hrow := h.row
  have hcol := h.col
  simp only [cols_eq, lines_eq] at hrow hcol
  unfold Vga.bsProc
  dsimp only
  split
  · split
    · refine h.setCursor ?_ ?_ <;>
        (simp only [cols_eq, lines_eq]; omega)
    · exact h.setCursor (by decide) (by decide)
  · refine { h with col := ?_ }
    show 0 ≤ v.curcol - 1 ∧ v.curcol - 1 ≤ 80
    omega

/-- The column alone is changed. -/
theorem Ready.setCol0 (hcol : 0 ≤ col ∧ col ≤ cols) :
    ({ v with curcol := col } : Vga).Ready :=
  h.setCursor h.row hcol

theorem Ready.nlProc (hok : v.NextOk) : v.nlProc.Ready := by
  unfold Vga.nlProc
  split
  · exact (h.setCol0 (by decide)).nextRow hok
  · exact h.nextRow hok

theorem Ready.tabProc (hok : cols - 1 < (v.curcol + 8) / 8 * 8 → v.NextOk) :
    v.tabProc.Ready := by
  have hcol := h.col
  unfold Vga.tabProc
  dsimp only
  split
  · next hfull =>
    refine Ready.nextRow (h.setCol0 ?_) (hok hfull)
    simp only [cols_eq] at *
    omega
  · next hroom =>
    refine h.setCol0 ?_
    omega

end Moves

theorem scrollUp_escape : v.scrollUp.escape = v.escape := by
  unfold Vga.scrollUp
  dsimp only
  split
  · rfl
  · split <;> rfl

theorem nextRow_escape : v.nextRow.escape = v.escape := by
  unfold Vga.nextRow
  split
  · exact scrollUp_escape
  · rfl

/-- A character is gathered, and the cursor goes one column on. -/
theorem Inv.append (h : v.Inv) (hplain : v.escape = .e0) (hroom : v.curcol < cols) (cell : BitVec 16) :
    ({ v with data := v.data ++ [cell], curcol := v.curcol + 1 } : Vga).Inv := by
  have hrow := h.row
  have hcol := h.col
  have hscreen := h.screen
  have hpos := h.pos
  have hshort := h.short
  have hlen : ((v.data ++ [cell]).length : Int) = v.data.length + 1 := by simp
  simp only [cols_eq, lines_eq] at hrow hcol hscreen hpos hroom
  refine ⟨⟨⟨h.row, ?_, h.screen, h.region, h.cells⟩, h.saved, ?_⟩, ?_, ?_, fun hne => absurd hplain hne⟩
  · show 0 ≤ v.curcol + 1 ∧ v.curcol + 1 ≤ 80
    omega
  · intro _
    show v.vstart ≤ v.curpos ∧ v.curpos + ((v.data ++ [cell]).length : Int) ≤ v.vend
    omega
  · show v.curpos + ((v.data ++ [cell]).length : Int) = v.org + 80 * v.currow + (v.curcol + 1)
    omega
  · show ((v.data ++ [cell]).length : Int) ≤ v.curcol + 1
    omega

theorem Inv.putChar (h : v.Inv) (hplain : v.escape = .e0) (hok : v.rowFull = true → v.NextOk) :
    (v.putChar ch).Inv := by
  unfold Vga.putChar
  split
  · next hfull =>
    have hnext : (Vga.flush { v.nextRow with curcol := 0 }).Inv :=
      ((h.toReady.nextRow (hok hfull)).setCol0 (by decide)).flush
    have hescape : (Vga.flush { v.nextRow with curcol := 0 }).escape = .e0 :=
      nextRow_escape.trans hplain
    have hroom : (0 : Int) < cols := by decide
    exact hnext.append hescape hroom _
  · next hroom =>
    refine h.append hplain ?_ _
    have hcol : ¬ cols - 1 < v.curcol := by
      intro hlt
      exact hroom (by simp [rowFull, hlt])
    omega

/-- What holds of every function of a table holds of the one found there. -/
theorem lookUp_of_forall {table : List (Byte × (Vga → Vga))} {proc : Vga → Vga} {P : Byte → (Vga → Vga) → Prop}
    (hall : ∀ entry ∈ table, P entry.1 entry.2) (hproc : lookUp table ch = some proc) : P ch proc := by
  obtain ⟨entry, hfind, rfl⟩ := Option.map_eq_some_iff.mp hproc
  have hch : entry.1 = ch := by simpa using List.find?_some hfind
  have hentry := hall entry (List.mem_of_find?_eq_some hfind)
  rw [hch] at hentry
  exact hentry

/-- What the control characters do. -/
theorem charTable_ready (h : v.Inv) :
    ∀ entry ∈ charTable, (v.Advances entry.1 → v.NextOk) → (entry.2 v).Ready := by
  have hready := h.toReady
  have hcol : (0 : Int) ≤ 0 ∧ (0 : Int) ≤ cols := by decide
  simp only [charTable, List.forall_mem_cons]
  refine ⟨fun hok => ?_, fun _ => ?_, fun hok => ?_, fun _ => ?_, fun _ => ?_, fun _ => ?_, by simp⟩
  · exact hready.nlProc (hok (.inl rfl))
  · exact { hready with }
  · exact hready.tabProc fun hfull => hok (.inr (.inl ⟨rfl, hfull⟩))
  · exact hready.bsProc
  · exact hready
  · exact hready.setCol0 hcol

theorem Inv.escape0 (h : v.Inv) (hplain : v.escape = .e0) (hok : v.Advances ch → v.NextOk) :
    (v.escape0 ch).Inv := by
  unfold Vga.escape0
  split
  · exact h
  · next hne =>
    split
    · next proc hproc =>
      split at hproc
      · refine Ready.flush ?_
        exact lookUp_of_forall (P := fun c p => (v.Advances c → v.NextOk) → (p v).Ready)
          (charTable_ready h) hproc hok
      · cases hproc
    · next hnone =>
      refine h.putChar hplain fun hfull => hok (.inr (.inr ⟨hne, fun hlt => ?_, hfull⟩))
      rw [if_pos hlt] at hnone
      exact hnone

-- ======== escape sequences

theorem clamp_bounds {x bound : Int} (hpos : 0 < bound) : 0 ≤ clamp x bound ∧ clamp x bound < bound := by
  unfold clamp
  split
  · omega
  · split <;> omega

theorem Ready.setRow (h : v.Ready) (row : Int) : (v.setRow row).Ready :=
  h.setCursor (clamp_bounds (by decide)) h.col

theorem Ready.setCol (h : v.Ready) (col : Int) : (v.setCol col).Ready := by
  have hbounds : 0 ≤ clamp (wrap col) cols ∧ clamp (wrap col) cols < cols := clamp_bounds (by decide)
  exact h.setCol0 ⟨hbounds.1, Int.le_of_lt hbounds.2⟩

theorem place_nonneg (i : Fin 4) : 0 ≤ v.place i := by
  unfold place
  split <;> omega

/-- In an escape sequence the cursor is where it is shown. -/
structure Still (v : Vga) : Prop extends Ready v where
  pos : v.curpos = v.org + cols * v.currow + v.curcol

theorem Inv.still (h : v.Inv) (hnone : v.data = []) : v.Still := by
  refine ⟨h.toReady, ?_⟩
  have hpos := h.pos
  rw [hnone] at hpos
  simpa using hpos

section Still

variable (h : v.Still)

include h

theorem Still.bounds : 0 ≤ v.currow ∧ v.currow < 25 ∧ 0 ≤ v.curcol ∧ v.curcol ≤ 80 ∧
    v.vstart ≤ v.org ∧ v.org + 25 * 80 ≤ v.vend ∧ v.curpos = v.org + 80 * v.currow + v.curcol :=
  ⟨h.row.1, h.row.2, h.col.1, h.col.2, h.screen.1, h.screen.2, h.pos⟩

theorem Still.escAt : v.escAt.Ready := by
  have hbounds := h.bounds
  have hplace := v.place_nonneg 0
  unfold Vga.escAt
  generalize v.place 0 = n at *
  refine Ready.vidmemSet (h.toReady.backCopy fun _ => ?_) fun _ => ?_
  · simp only [cols_eq]
    omega
  · show v.vstart ≤ v.curpos ∧ v.curpos + min n (cols - v.curcol) ≤ v.vend
    simp only [cols_eq]
    omega

theorem Still.escJ : v.escJ.Ready := by
  have hbounds := h.bounds
  unfold Vga.escJ
  dsimp only
  generalize (if v.argv 0 < 0 then 0 else v.argv 0) = n
  split
  · refine h.toReady.vidmemSet fun _ => ?_
    simp only [cols_eq, lines_eq]
    omega
  split
  · refine h.toReady.vidmemSet fun _ => ?_
    omega
  split
  · refine h.toReady.vidmemSet fun _ => ?_
    simp only [cols_eq, lines_eq]
    omega
  · exact h.toReady

theorem Still.escK : v.escK.Ready := by
  have hbounds := h.bounds
  unfold Vga.escK
  dsimp only
  generalize (if v.argv 0 < 0 then 0 else v.argv 0) = n
  split
  · refine h.toReady.vidmemSet fun _ => ?_
    simp only [cols_eq]
    omega
  split
  · refine h.toReady.vidmemSet fun _ => ?_
    omega
  split
  · refine h.toReady.vidmemSet fun _ => ?_
    simp only [cols_eq]
    omega
  · exact h.toReady

theorem Still.escL : v.escL.Ready := by
  have hbounds := h.bounds
  have hplace := v.place_nonneg 0
  unfold Vga.escL
  generalize v.place 0 = n at *
  refine Ready.vidmemSet (h.toReady.backCopy fun _ => ?_) fun _ => ?_
  · simp only [cols_eq, lines_eq]
    omega
  · show v.vstart ≤ v.curpos - v.curcol
      ∧ v.curpos - v.curcol + min n (lines - v.currow) * cols ≤ v.vend
    simp only [cols_eq, lines_eq]
    omega

theorem Still.escM : v.escM.Ready := by
  have hbounds := h.bounds
  have hplace := v.place_nonneg 0
  refine Ready.vidmemSet (h.toReady.frontCopy fun _ => ?_) fun _ => ?_
  · simp only [cols_eq, lines_eq]
    omega
  · show v.vstart ≤ _ ∧ _ ≤ v.vend
    simp only [cols_eq, lines_eq]
    omega

theorem Still.escP (hok : v.FinishOk 80) : v.escP.Ready := by
  have hbounds := h.bounds
  have hcells := hok.delete rfl
  refine Ready.vidmemSet (h.toReady.frontCopy fun hcount => ?_) hcells
  have hn : 0 ≤ v.charCount := by
    unfold charCount
    simp only [cols_eq]
    split <;> omega
  simp only [cols_eq] at hcount ⊢
  omega

theorem Still.escX (hok : v.FinishOk 88) : v.escX.Ready := by
  have hbounds := h.bounds
  exact h.toReady.vidmemSet fun _ => ⟨by omega, hok.clear rfl⟩

end Still

theorem Ready.escm0 (h : v.Ready) (n : Int) : (v.escm0 n).Ready := by
  have hkeep : ∀ attr rev, ({ v with attr := attr, colorReverse := rev } : Vga).Ready := fun _ _ =>
    { h with }
  unfold Vga.escm0
  split
  · exact hkeep _ _
  split
  · exact hkeep v.attr _
  split
  · exact hkeep _ v.colorReverse
  split
  · exact hkeep _ v.colorReverse
  · exact h

theorem Ready.setArgv (h : v.Ready) (argv : Fin 4 → Int) : ({ v with argv := argv } : Vga).Ready :=
  { h with }

theorem Ready.escmArg (h : v.Ready) (i : Fin 4) : (v.escmArg i).Ready := by
  unfold Vga.escmArg
  split
  · exact (h.setArgv _).escm0 _
  · exact h

theorem Ready.escm (h : v.Ready) : v.escm.Ready :=
  ((((h.setArgv _).escm0 _).escmArg 1).escmArg 2).escmArg 3

theorem Ready.escr (h : v.Ready) (hok : v.FinishOk 114) : v.escr.Ready := by
  unfold Vga.escr
  split
  · exact h
  · next hlt =>
    have hend := (hok.region rfl).resolve_left hlt
    have hstart := v.place_nonneg 0
    exact { h with region := ⟨hstart, Int.not_le.mp hlt, hend⟩ }

/-- What the ends of escape sequences do. -/
theorem escCharTable_ready (h : v.Still) :
    ∀ entry ∈ escCharTable, v.FinishOk entry.1 → (entry.2 v).Ready := by
  have hready := h.toReady
  have hcol : (0 : Int) ≤ 0 ∧ (0 : Int) ≤ cols := by decide
  simp only [escCharTable, List.forall_mem_cons]
  exact ⟨fun _ => h.escAt, fun _ => hready.setRow _, fun _ => hready.setRow _,
    fun _ => hready.setCol _, fun _ => hready.setCol _,
    fun _ => (hready.setRow _).setCol0 hcol, fun _ => (hready.setRow _).setCol0 hcol,
    fun _ => hready.setCol _, fun _ => (hready.setCol _).setRow _,
    fun _ => h.escJ, fun _ => h.escK, fun _ => h.escL, fun _ => h.escM, h.escP, h.escX,
    fun _ => hready.setCol _, fun _ => hready, fun _ => hready.setRow _, fun _ => hready,
    fun _ => (hready.setCol _).setRow _, fun _ => hready, fun _ => hready, fun _ => hready,
    fun _ => hready.escm, fun _ => hready, fun _ => hready, hready.escr, fun _ => hready,
    fun _ => hready, by simp⟩

-- ======== the states

variable (h : v.Inv)

include h

theorem Inv.toPlain : ({ v with escape := .e0 } : Vga).Inv :=
  { h with plain := fun hne => absurd rfl hne }

section Nothing

variable (hnone : v.data = [])

include hnone

/-- Only the state and the arguments of an escape sequence change. -/
theorem Inv.toEscape (next : Esc) (argv : Fin 4 → Int) :
    ({ v with escape := next, argv := argv } : Vga).Inv :=
  { h with plain := fun _ => hnone }

theorem Inv.finish (hok : v.FinishOk ch) : (v.finish ch).Inv := by
  unfold Vga.finish
  cases hproc : lookUp escCharTable ch with
  | none => exact h.toPlain
  | some proc =>
    have hready : (proc v).Ready :=
      lookUp_of_forall (P := fun c p => v.FinishOk c → (p v).Ready)
        (escCharTable_ready (h.still hnone)) hproc hok
    exact hready.flush.toPlain

theorem Inv.startArg (hok : v.FinishOk ch) (i : Fin 4) (next : Esc) :
    (v.startArg i next ch).Inv := by
  unfold Vga.startArg
  split
  · exact h.toEscape hnone _ _
  · exact h.finish hnone hok

theorem Inv.lastArg (hok : v.FinishOk ch) (i : Fin 4) :
    (v.lastArg i ch).Inv := by
  unfold Vga.lastArg
  split
  · exact h.toEscape hnone v.escape _
  · exact h.finish hnone hok

theorem Inv.moreArg (hok : v.FinishOk ch) (i : Fin 4) (next : Esc) :
    (v.moreArg i next ch).Inv := by
  unfold Vga.moreArg
  split
  · exact h.toEscape hnone v.escape _
  · split
    · exact h.toEscape hnone _ v.argv
    · exact h.finish hnone hok

theorem Inv.escape2 (hok : v.FinishOk ch) : (v.escape2 ch).Inv := by
  unfold Vga.escape2
  split
  · exact h.toEscape hnone _ _
  · split
    · exact h.toEscape hnone _ v.argv
    · exact h.finish hnone hok

theorem Inv.escape1
    (hok : ch = 77 → v.currow = v.scrollStart ∨ 0 < v.currow) : (v.escape1 ch).Inv := by
  have hready := h.toReady
  unfold Vga.escape1
  split
  · exact h.toEscape hnone _ _
  split
  · exact h.toEscape hnone _ v.argv
  split
  · exact h.toEscape hnone _ v.argv
  · refine Inv.toPlain ?_
    split
    · next hch =>
      refine Ready.flush ?_
      split
      · exact hready.scrollDown
      · next hne =>
        have hpos := (hok hch).resolve_left hne
        have hrow := h.row
        exact hready.setCursor ⟨by omega, by omega⟩ h.col
    split
    · exact Ready.flush { hready with saved := ⟨h.row.1, h.row.2, h.col.1, h.col.2⟩ }
    split
    · split
      · obtain ⟨hlow, hhigh, hleft, hright⟩ := h.saved
        refine Ready.flush ⟨⟨⟨hlow, hhigh⟩, ⟨hleft, hright⟩, h.screen, h.region, h.cells⟩, h.saved, ?_⟩
        intro hpos
        rw [hnone] at hpos
        exact absurd hpos (Int.lt_irrefl 0)
      · exact h
    · exact h

end Nothing

/-- One byte. -/
theorem Inv.byte (hok : v.ByteOk ch) : (v.byte ch).Inv := by
  unfold ByteOk at hok
  unfold Vga.byte
  have hplain := h.plain
  cases hescape : v.escape <;> rw [hescape] at hok hplain <;> dsimp only at hok ⊢
  case e0 => exact h.escape0 hescape hok
  case e1 => exact h.escape1 (hplain nofun) hok
  case e2 => exact h.escape2 (hplain nofun) hok
  case e3 => exact h.moreArg (hplain nofun) hok 0 _
  case e4 => exact h.startArg (hplain nofun) hok 1 _
  case e5 => exact h.moreArg (hplain nofun) hok 1 _
  case e6 => exact h.startArg (hplain nofun) hok 2 _
  case e7 => exact h.moreArg (hplain nofun) hok 2 _
  case e8 => exact h.lastArg (hplain nofun) hok 0
  case e9 => exact h.toPlain
  case e10 => exact h.toPlain
  case e11 => exact h.startArg (hplain nofun) hok 3 _
  case e12 => exact h.lastArg (hplain nofun) hok 3

end Vga

-- ======== the runs

/-- What happens to a console: a byte of `vga_write`, or its end. -/
inductive VgaEvent
  | byte (ch : Byte)
  | done

def Vga.step (v : Vga) : VgaEvent → Option Vga
  | .byte ch => some (v.byte ch)
  | .done => some v.flush

def Vga.EventOk (v : Vga) : VgaEvent → Prop
  | .byte ch => v.ByteOk ch
  | .done => True

theorem vgaInit_inv (onlcr : Bool) : (vgaInit onlcr).Inv := by
  have hrow : (0 : Int) ≤ 0 ∧ (0 : Int) < lines := by decide
  have hcol : (0 : Int) ≤ 0 ∧ (0 : Int) ≤ cols := by decide
  have hscreen : (0 : Int) ≤ 8160 - cols * lines ∧ 8160 - cols * lines + lines * cols ≤ 8160 := by decide
  have hregion : (0 : Int) ≤ 0 ∧ (0 : Int) < lines - 1 ∧ lines - 1 < lines := by decide
  refine ⟨⟨⟨hrow, hcol, hscreen, hregion, nofun⟩, ?_, ?_⟩, ?_, ?_, fun _ => rfl⟩
  · exact ⟨hrow.1, hrow.2, hcol.1, hcol.2⟩
  · intro hpos
    exact absurd hpos (Int.lt_irrefl 0)
  · show 8160 - cols * lines + 0 = 8160 - cols * lines + cols * 0 + 0
    decide
  · exact Int.le_refl 0

/-- Whatever is written to a console, as long as no byte comes to one of the
five places, the cursor, the screen and the region stay where they belong
and no cell outside the console's memory is written. -/
theorem console_on_screen {v : Vga}
    (hrun : Reached (fun v => ∃ onlcr, v = vgaInit onlcr) Vga.step Vga.EventOk v) : v.OnScreen := by
  have hinv : v.Inv := by
    refine hrun.inv ?_ fun v e v' h hok hstep => ?_
    · rintro _ ⟨onlcr, rfl⟩
      exact vgaInit_inv onlcr
    · cases e with
      | byte ch =>
        cases hstep
        exact h.byte hok
      | done =>
        cases hstep
        exact h.toReady.flush
  exact hinv.toOnScreen

/-- Every byte of a write meets the condition. -/
def Vga.BytesOk : Vga → List Byte → Prop
  | _, [] => True
  | v, ch :: data => v.ByteOk ch ∧ (v.byte ch).BytesOk data

/-- Bytes are steps, one after the other. -/
theorem bytes_reached {first : Vga → Prop} {data : List Byte} {v : Vga}
    (h : Reached first Vga.step Vga.EventOk v) (hok : v.BytesOk data) :
    Reached first Vga.step Vga.EventOk (data.foldl Vga.byte v) := by
  induction data generalizing v with
  | nil => exact h
  | cons ch data ih => exact ih (.step (.byte ch) h hok.1 rfl) hok.2

/-- Most bytes that end a sequence are not about the region or about cells
to clear. -/
theorem finishOk_of_ne {v : Vga} {ch : Byte} (hch : ch ≠ 114 ∧ ch ≠ 80 ∧ ch ≠ 88) : v.FinishOk ch :=
  ⟨fun h => absurd h hch.1, fun h => absurd h hch.2.1, fun h => absurd h hch.2.2⟩

/-- A console after some bytes. -/
def written (data : List Byte) : Vga := data.foldl Vga.byte (vgaInit true)

/-- The cursor is sent to the last row, and a new line there makes the
screen scroll: it goes back to the beginning of the memory. -/
theorem console_on_screen_scroll :
    (written [27, 91, 50, 53, 72, 10]).org = 0 ∧ (written [27, 91, 50, 53, 72, 10]).OnScreen := by
  have hlast : (written [27, 91, 50, 53, 72]).NextOk := .inl (by decide +kernel)
  have hok : (vgaInit true).BytesOk [27, 91, 50, 53, 72, 10] :=
    ⟨fun _ => .inr (by decide), fun h => absurd h (by decide), finishOk_of_ne (by decide),
      finishOk_of_ne (by decide), finishOk_of_ne (by decide), fun _ => hlast, trivial⟩
  exact ⟨by decide +kernel, console_on_screen (bytes_reached (.first ⟨true, rfl⟩) hok)⟩

/-- Without the condition bytes lead anywhere. -/
theorem written_reached (data : List Byte) :
    Reached (fun v => ∃ onlcr, v = vgaInit onlcr) Vga.step (fun _ _ => True) (written data) := by
  have hfrom : ∀ v : Vga, Reached (fun v => ∃ onlcr, v = vgaInit onlcr) Vga.step (fun _ _ => True) v →
      Reached (fun v => ∃ onlcr, v = vgaInit onlcr) Vga.step (fun _ _ => True) (data.foldl Vga.byte v) := by
    induction data with
    | nil => exact fun _ h => h
    | cons ch data ih => exact fun v h => ih _ (.step (.byte ch) h trivial rfl)
  exact hfrom _ (.first ⟨true, rfl⟩)

/-- The five places. A region that ends in row 100; a new line below a
region of five rows; a reverse index above a region; a character deleted in
the last row, and one cleared behind its end. -/
theorem console_leaves_screen : (written [27, 91, 49, 59, 49, 48, 48, 114]).scrollEnd = 99
      ∧ (written [27, 91, 49, 59, 53, 114, 27, 91, 50, 53, 72, 10]).currow = 25
      ∧ (written [27, 91, 53, 59, 57, 114, 27, 77]).currow = -1
      ∧ (8238, 1) ∈ (written [27, 91, 50, 53, 72, 27, 91, 80]).writes
      ∧ (8160, 1) ∈ (written ([27, 91, 50, 53, 72] ++ List.replicate 80 97 ++ [27, 91, 88])).writes
      ∧ ¬ ∀ v, Reached (fun v => ∃ onlcr, v = vgaInit onlcr) Vga.step (fun _ _ => True) v → v.OnScreen := by
  refine ⟨by decide +kernel, by decide +kernel, by decide +kernel, by decide +kernel, by decide +kernel,
    fun h => ?_⟩
  have hregion := (h _ (written_reached [27, 91, 49, 59, 49, 48, 48, 114])).region
  exact absurd hregion.2.2 (by decide +kernel)

end Cnix.Driver
