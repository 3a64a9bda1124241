/-
Canonical input: what readers of a terminal get is the lines that were
typed.

At every moment the bytes that readers have got, those that a reader
inside holds and those in the queue are what was typed, and readers have
got bytes of finished lines only. Two things break this. `tty_read` takes
what is in the queue, whether its line is finished or not, and may return
it; and the erase character takes the newest byte of the queue, which may
end a finished line, or be missing because a reader already has it. In a
run in which neither happens the two statements hold in every state.

The invariant says besides that the unfinished line and what a reader
holds contain no end of a line, and that the finished lines end with one:
this is how the end of a line in the queue tells finished bytes from
others.
-/
import Cnix.Driver.TtyLine

namespace Cnix.Driver

open Cnix.Lib
open List (append_assoc append_nil)
open Tty (maxInput)

-- ======== the queue

namespace TtyQueue

variable {tq : TtyQueue}

theorem chars_length (tq : TtyQueue) : tq.chars.length = tq.count := cells_length ..

theorem chars_eq_nil : tq.chars = [] ↔ tq.count = 0 := by
  rw [← List.length_eq_zero_iff, chars_length]

theorem head_lt (tq : TtyQueue) : tq.head < maxInput := by
  rw [tq.head_eq]
  exact Nat.mod_lt _ (by decide)

theorem carries (tq : TtyQueue) : Carries tq.buf maxInput tq.tail tq.count tq.chars [] :=
  ⟨tq.count_le, rfl⟩

theorem chars_put {ch : Byte} (hroom : tq.count < maxInput) :
    (tq.put ch hroom).chars = tq.chars ++ [ch] := by
  have hnew : cells (Function.update tq.buf tq.head ch) tq.head [ch].length = [ch] := by
    simp [cells]
  have hold : ∀ i, ¬ (tq.head ≤ i ∧ i < tq.head + [ch].length) →
      Function.update tq.buf tq.head ch i = tq.buf i := by
    intro i hi
    refine Function.update_of_ne ?_ _ _
    rintro rfl
    exact hi ⟨le_refl _, Nat.lt_succ_self _⟩
  have hrun : tq.head + [ch].length ≤ maxInput := tq.head_lt
  have hfull : tq.count + [ch].length ≤ maxInput := hroom
  have h := tq.carries.put tq.head_eq.symm hrun hfull hnew hold
  exact h.flow.symm

theorem chars_unput (hsome : 0 < tq.count) : (tq.unput hsome).chars = tq.chars.dropLast := by
  have hsplit : tq.chars = (tq.unput hsome).chars
      ++ cells (unroll tq.buf maxInput) (tq.tail + (tq.count - 1)) 1 := by
    have hcount : tq.count = (tq.count - 1) + 1 := by omega
    show cells (unroll tq.buf maxInput) tq.tail tq.count
      = cells (unroll tq.buf maxInput) tq.tail (tq.count - 1) ++ _
    rw [← cells_add, ← hcount]
  rw [hsplit]
  exact (List.dropLast_concat ..).symm

theorem chars_take (hsome : 0 < tq.count) : tq.chars = tq.front :: (tq.take hsome).chars := by
  have hlt := tq.tail_lt
  have h := tq.carries.take hsome hlt
  have htail : (tq.take hsome).tail = (tq.tail + 1) % maxInput := by
    show (if tq.tail + 1 = maxInput then 0 else tq.tail + 1) = _
    split
    · next hend => rw [hend, Nat.mod_self]
    · rw [Nat.mod_eq_of_lt (by omega)]
  have hfront : cells tq.buf tq.tail 1 = [tq.front] := by simp [cells, front]
  rw [h.flow, hfront, ← htail]
  rfl

end TtyQueue

-- ======== the inner loop

/-- The settings, as the loop over a list of characters has them. -/
def Termios.view (t : Termios) : Tty where
  type := .vga
  pktmode := false
  tq := []
  allowRead := true
  canon := t.icanon
  vmin := (t.cc Driver.vmin).toNat
  vtime := (t.cc Driver.vtime).toNat
  veol := t.cc Driver.veol
  veol2 := t.cc Driver.veol2
  veof := t.cc Driver.veof
  buddyCount := 0
  buddyQueue := 0

theorem toNat_ne_zero (x : Byte) : x ≠ 0 ↔ x.toNat ≠ 0 := by
  rw [ne_eq, BitVec.toNat_eq]
  rfl

/-- The loop over the circular buffer is the loop over its characters. -/
theorem takeFrom_view (t : Termios) (count : Nat) (tq : TtyQueue) (buffer : List Byte) :
    t.view.takeChars count tq.chars buffer = ((Input.takeFrom t count tq.count tq buffer).1.chars,
          (Input.takeFrom t count tq.count tq buffer).2) := by
  generalize hleft : tq.count = left
  induction left generalizing tq buffer with
  | zero =>
    simp [Tty.takeChars, Input.takeFrom, TtyQueue.chars_eq_nil.mpr hleft]
  | succ left ih =>
    have hsome : 0 < tq.count := by omega
    have htake : (tq.take hsome).count = left := by
      show tq.count - 1 = left
      omega
    rw [TtyQueue.chars_take hsome, Tty.takeChars, Input.takeFrom]
    by_cases hfull : count ≤ buffer.length
    · rw [if_pos hfull, dif_neg (by omega), TtyQueue.chars_take hsome]
    · rw [if_neg hfull, dif_pos ⟨hsome, by omega⟩]
      have hnext := ih (tq.take hsome) (buffer ++ [tq.front]) htake
      have hmin : t.view.vmin ≠ 0 ↔ t.cc vmin ≠ 0 := (toNat_ne_zero _).symm
      have htime : t.view.vtime ≠ 0 ↔ t.cc vtime ≠ 0 := (toNat_ne_zero _).symm
      have hstop : t.view.vtime = 0 ↔ t.cc vtime = 0 := not_iff_not.mp htime
      have hcanon : t.view.canon = t.icanon := rfl
      have hline : (t.view.master = false ∧ t.icanon = true ∧ t.view.endline tq.front = true)
          ↔ (t.icanon = true ∧ t.endline tq.front = true) :=
        ⟨And.right, fun h => ⟨rfl, h⟩⟩
      simp only [hcanon, hmin, htime, hstop, hline]
      by_cases hraw : t.icanon = false ∧ t.cc vmin ≠ 0
      · simp only [if_pos hraw]
        by_cases henough : t.cc vtime = 0 ∧ (t.cc vmin).toNat ≤ (buffer ++ [tq.front]).length
        · have henough' : t.cc vtime = 0 ∧ t.view.vmin ≤ (buffer ++ [tq.front]).length := henough
          rw [if_pos henough', if_pos henough]
        · have henough' : ¬ (t.cc vtime = 0 ∧ t.view.vmin ≤ (buffer ++ [tq.front]).length) := henough
          rw [if_neg henough', if_neg henough]
          exact hnext
      · simp only [if_neg hraw]
        split
        · rfl
        · split
          · rfl
          · exact hnext

/-- What the loop takes in canonical mode: nothing behind the end of a
line, and all there is unless it is left early. -/
structure Taken (tty : Tty) (count : Nat) (tq buffer taken rest : List Byte) (how : Tty.Leave) :
    Prop where
  split : tq = taken ++ rest
  first : ∀ c ∈ taken.dropLast, tty.endline c = false
  whole : how = .over → (∀ c ∈ taken, tty.endline c = false) ∧
    (rest = [] ∨ count ≤ (buffer ++ taken).length)
  stop : how = .stop → tty.vtime ≠ 0 ∧ taken ≠ []
  line : how = .line → ∃ c ∈ taken, tty.endline c = true

theorem takeChars_taken {tty : Tty} (hcanon : tty.canon = true) (hmaster : tty.master = false)
    (count : Nat) (tq buffer : List Byte) :
    ∃ taken, (tty.takeChars count tq buffer).2.1 = buffer ++ taken ∧
      Taken tty count tq buffer taken (tty.takeChars count tq buffer).1
        (tty.takeChars count tq buffer).2.2 := by
  have hraw : ¬ (tty.canon = false ∧ tty.vmin ≠ 0) := by simp [hcanon]
  induction tq generalizing buffer with
  | nil =>
    refine ⟨[], by simp [Tty.takeChars], ⟨rfl, by simp, ?_, ?_, ?_⟩⟩ <;>
      simp [Tty.takeChars]
  | cons ch tq ih =>
    rw [Tty.takeChars]
    by_cases hfull : count ≤ buffer.length
    · simp only [if_pos hfull]
      refine ⟨[], by simp, ⟨rfl, by simp, fun _ => ⟨by simp, .inr (by simpa using hfull)⟩, ?_, ?_⟩⟩ <;>
        simp
    · simp only [if_neg hfull, if_neg hraw]
      by_cases htime : tty.vtime ≠ 0
      · simp only [if_pos htime]
        refine ⟨[ch], rfl, ⟨rfl, by simp, ?_, fun _ => ⟨htime, by simp⟩, ?_⟩⟩ <;> simp
      · simp only [if_neg htime]
        by_cases hend : tty.endline ch = true
        · simp only [hmaster, hcanon, hend, true_and, if_true]
          refine ⟨[ch], rfl, ⟨rfl, by simp, ?_, ?_, fun _ => ⟨ch, by simp, hend⟩⟩⟩ <;> simp
        · have hnot : tty.endline ch = false := by simpa using hend
          simp only [hmaster, hcanon, hnot, and_false, if_false, Bool.false_eq_true]
          obtain ⟨taken, hbuf, h⟩ := ih (buffer ++ [ch])
          refine ⟨ch :: taken, by rw [hbuf]; simp, ⟨congrArg (ch :: ·) h.split, ?_, ?_, ?_, ?_⟩⟩
          · intro c hc
            cases taken with
            | nil => cases hc
            | cons x taken =>
              rcases List.mem_cons.mp hc with rfl | hc
              · exact hnot
              · exact h.first c hc
          · intro how
            obtain ⟨hnone, hrest⟩ := h.whole how
            exact ⟨List.forall_mem_cons.mpr ⟨hnot, hnone⟩, hrest.imp_right fun hle => by simpa using hle⟩
          · intro how
            exact ⟨(h.stop how).1, by simp⟩
          · intro how
            obtain ⟨c, hc, he⟩ := h.line how
            exact ⟨c, List.mem_cons_of_mem _ hc, he⟩

namespace Input

variable {s s' : Input} {buffer bytes : List Byte} {r : Reader} {pid count : Nat}
  {ndelay sig : Bool}

-- ======== the statement

/-- What a reader inside has taken and not yet returned. -/
def held (s : Input) : List Byte :=
  match s.reader with
  | none => []
  | some r => r.buffer

/-- Readers have got bytes of finished lines only, and what they have not
got is still there. -/
structure Delivered (s : Input) : Prop where
  done : s.out <+: s.lines.done
  flow : s.out ++ s.held ++ s.tty.tq.chars = s.lines.done ++ s.lines.current

/-- The end of a line is in the queue. -/
def Complete (s : Input) : Prop := ∃ c ∈ s.tty.tq.chars, s.tty.termios.endline c = true

/-- A call that holds `buffer` and looks into the queue finds a whole line,
or nothing, or cannot return yet. -/
def TakeOk (s : Input) (count : Nat) (ndelay : Bool) (buffer : List Byte) : Prop :=
  s.Complete ∨ buffer ++ s.tty.tq.chars = [] ∨
    ((buffer ++ s.tty.tq.chars).length < count ∧ (s.tty.termios.cc vtime = 0 ∨ s.tty.tq.chars = [])
      ∧ ndelay = false ∧ s.hungUp = false)

/-- The newest byte of the queue belongs to the unfinished line; if there is
none, no reader holds one. -/
def EraseOk (s : Input) : Prop :=
  (∀ c, s.tty.tq.chars.getLast? = some c → s.tty.termios.endline c = false)
    ∧ (s.tty.tq.chars = [] → s.held = [])

/-- A character is put into a queue that is not full, and an erase character
is typed where there is something of its line to erase. -/
def ActOk (s : Input) : Act → Prop
  | .put _ => s.tty.tq.count < maxInput
  | .erase => s.EraseOk
  | .wake => True

/-- The same for all that a key does. -/
def ActsOk : Input → List Act → Prop
  | _, [] => True
  | s, a :: acts => s.ActOk a ∧ ActsOk (s.act a) acts

/-- The condition on an event, in the state it finds. -/
def EventOk (s : Input) : InputEvent → Prop
  | .key ch =>
    ActsOk { s with tty := { s.tty with escape := (s.tty.putQueue ch).1 } } (s.tty.putQueue ch).2
  | .read _ count own ndelay =>
    own = true ∨ s.tty.console = false → s.reader = none → s.TakeOk count ndelay []
  | .wake pid sig =>
    (∀ r, s.reader = some r → r.pid = pid →
      if sig then r.buffer = [] else s.TakeOk r.count r.ndelay r.buffer)
    ∧ ∀ d, s.door pid = some d → s.reader = none → sig = false → s.TakeOk d.count d.ndelay []

-- ======== the invariant

/-- What holds while a call has `buffer` in its hands. -/
structure Inside (s : Input) (buffer : List Byte) : Prop where
  canon : s.tty.termios.icanon = true
  done : s.out <+: s.lines.done
  flow : s.out ++ buffer ++ s.tty.tq.chars = s.lines.done ++ s.lines.current
  unfinished : ∀ c ∈ s.lines.current, s.tty.termios.endline c = false
  finished : ∀ c, s.lines.done.getLast? = some c → s.tty.termios.endline c = true

/-- What holds between events: nobody sleeps on the end of a line. -/
structure Inv (s : Input) : Prop extends s.Inside s.held where
  holds : ∀ c ∈ s.held, s.tty.termios.endline c = false

theorem Inv.delivered (h : s.Inv) : s.Delivered := ⟨h.done, h.flow⟩

-- ======== keys

theorem wakeReader_held (s : Input) : s.wakeReader.held = s.held := by
  unfold held wakeReader
  cases s.reader <;> rfl

theorem Inv.wakeReader (h : s.Inv) : s.wakeReader.Inv := by
  refine ⟨{ h with flow := ?_ }, ?_⟩
  · rw [wakeReader_held]
    exact h.flow
  · rw [wakeReader_held]
    exact h.holds

/-- A character goes into the queue and onto the line. -/
theorem Inv.put (h : s.Inv) {ch : Byte} (hroom : s.tty.tq.count < maxInput) : (s.act (.put ch)).Inv := by
  have hput : ({ s with
      lines := s.lines.put s.tty.termios.endline ch
      tty := { s.tty with tq := s.tty.tq.put ch hroom } } : Input).Inv := by
    have hflow : s.out ++ s.held ++ (s.tty.tq.put ch hroom).chars
        = s.lines.done ++ s.lines.current ++ [ch] := by
      rw [TtyQueue.chars_put, ← append_assoc, h.flow]
    cases hend : s.tty.termios.endline ch with
    | true =>
      have hlines : s.lines.put s.tty.termios.endline ch
          = ⟨s.lines.done ++ s.lines.current ++ [ch], []⟩ := if_pos hend
      rw [hlines]
      refine ⟨⟨h.canon, ?_, hflow.trans (append_nil _).symm, by simp, ?_⟩, h.holds⟩
      · rw [append_assoc]
        exact h.done.trans (List.prefix_append ..)
      · intro c hc
        rw [List.getLast?_concat] at hc
        cases hc
        exact hend
    | false =>
      have hlines : s.lines.put s.tty.termios.endline ch
          = ⟨s.lines.done, s.lines.current ++ [ch]⟩ := if_neg (by rw [hend]; exact Bool.false_ne_true)
      rw [hlines]
      refine ⟨⟨h.canon, h.done, hflow.trans (append_assoc ..), ?_, h.finished⟩, h.holds⟩
      exact List.forall_mem_append.mpr ⟨h.unfinished, List.forall_mem_singleton.mpr hend⟩
  unfold act
  dsimp only
  rw [dif_pos hroom]
  split
  · exact hput.wakeReader
  · exact hput

/-- The erase character takes the same byte from the queue and from the
line. -/
theorem Inv.erase (h : s.Inv) (hok : s.EraseOk) : (s.act .erase).Inv := by
  unfold act
  by_cases hsome : 0 < s.tty.tq.count
  · rw [dif_pos hsome]
    have hne : s.tty.tq.chars ≠ [] := fun hnil => by
      rw [TtyQueue.chars_eq_nil] at hnil
      omega
    obtain ⟨older, c, hchars⟩ := List.eq_nil_or_concat s.tty.tq.chars |>.resolve_left hne
    rw [List.concat_eq_append] at hchars
    have hflow := h.flow
    rw [hchars, ← append_assoc] at hflow
    have hopen : s.tty.termios.endline c = false := hok.1 c (by rw [hchars, List.getLast?_concat])
    -- the byte is not that of a finished line, which would end one
    have hcur : s.lines.current ≠ [] := by
      intro hnil
      rw [hnil, append_nil] at hflow
      have hend := h.finished c (by rw [← hflow, List.getLast?_concat])
      rw [hopen] at hend
      cases hend
    refine ⟨⟨h.canon, h.done, ?_, fun c hc => h.unfinished c (List.dropLast_subset _ hc), h.finished⟩,
      h.holds⟩
    show s.out ++ s.held ++ (s.tty.tq.unput hsome).chars = s.lines.done ++ s.lines.current.dropLast
    rw [TtyQueue.chars_unput, hchars, List.dropLast_concat, ← List.dropLast_append_of_ne_nil hcur,
      ← hflow, List.dropLast_concat]
  · rw [dif_neg hsome]
    have hnil : s.tty.tq.chars = [] := TtyQueue.chars_eq_nil.mpr (by omega)
    have hflow := h.flow
    rw [hnil, hok.2 hnil, append_nil, append_nil] at hflow
    have hcur : s.lines.current = [] := by
      have hle := h.done.length_le
      rw [hflow, List.length_append] at hle
      exact List.length_eq_zero_iff.mp (by omega)
    refine ⟨⟨h.canon, h.done, ?_, fun c hc => h.unfinished c (List.dropLast_subset _ hc), h.finished⟩,
      h.holds⟩
    show s.out ++ s.held ++ s.tty.tq.chars = s.lines.done ++ s.lines.current.dropLast
    rw [h.flow, hcur]
    rfl

theorem Inv.acts {acts : List Act} (h : s.Inv) (hok : s.ActsOk acts) : (acts.foldl act s).Inv := by
  induction acts generalizing s with
  | nil => exact h
  | cons a acts ih =>
    refine ih ?_ hok.2
    cases a with
    | put ch => exact h.put hok.1
    | erase => exact h.erase hok.1
    | wake => exact h.wakeReader

-- ======== readers

/-- A call returns bytes of finished lines. -/
theorem Inside.leave (h : s.Inside buffer) (hdone : s.out ++ buffer <+: s.lines.done) :
    (s.leave buffer).Inv := by
  refine ⟨⟨h.canon, hdone, ?_, h.unfinished, h.finished⟩, nofun⟩
  show s.out ++ buffer ++ [] ++ s.tty.tq.chars = s.lines.done ++ s.lines.current
  rw [append_nil, h.flow]

/-- A call goes to sleep with what it has taken. -/
theorem Inside.sleep (h : s.Inside r.buffer) (hholds : ∀ c ∈ r.buffer, s.tty.termios.endline c = false) :
    ({ s with reader := some r } : Input).Inv :=
  ⟨{ h with }, hholds⟩

/-- At the head of the loop nothing wrong is returned if the bytes are
those of finished lines, or if the call has to wait. -/
theorem Inside.await (h : s.Inside r.buffer) (hholds : ∀ c ∈ r.buffer, s.tty.termios.endline c = false)
    (hok : s.out ++ r.buffer <+: s.lines.done
      ∨ (r.buffer.length < r.count ∧ r.ndelay = false ∧ s.hungUp = false)) : (s.await r).Inv := by
  have hsleep : ({ s with reader := some { r with woken := false } } : Input).Inv :=
    Inside.sleep (r := { r with woken := false }) h hholds
  unfold Input.await
  rcases hok with hdone | ⟨hlt, hndelay, hopen⟩
  · split
    · exact h.leave hdone
    · split
      · exact h.leave hdone
      · exact hsleep
  · rw [if_neg (by omega), if_neg (by simp [hndelay, hopen])]
    exact hsleep

/-- With the end of a line in the queue, what is taken up to it belongs to
finished lines. -/
theorem Inside.taken_done {taken rest : List Byte} (h : s.Inside buffer)
    (hsplit : s.tty.tq.chars = taken ++ rest)
    (hfirst : ∀ c ∈ taken.dropLast, s.tty.termios.endline c = false) (hline : s.Complete) :
    s.out ++ (buffer ++ taken) <+: s.lines.done := by
  have hflow : (s.out ++ (buffer ++ taken)) ++ rest = s.lines.done ++ s.lines.current := by
    rw [← h.flow, hsplit]
    simp only [append_assoc]
  refine List.prefix_of_prefix_length_le ⟨rest, hflow⟩ (List.prefix_append ..) ?_
  by_contra hlong
  -- otherwise something that is taken is of the unfinished line, and so is
  -- everything behind it
  obtain ⟨mine, hmine⟩ := List.prefix_of_prefix_length_le (List.prefix_append ..) ⟨rest, hflow⟩
    (Nat.le_of_lt (Nat.lt_of_not_le hlong))
  have hcur : s.lines.current = mine ++ rest := by
    rw [← hmine, append_assoc] at hflow
    exact (List.append_cancel_left hflow).symm
  have hne : mine ≠ [] := by
    rintro rfl
    rw [← hmine, append_nil] at hlong
    exact hlong (le_refl _)
  obtain ⟨c, hc, hend⟩ := hline
  have hopen : ∀ x ∈ mine ++ rest, s.tty.termios.endline x = false := hcur ▸ h.unfinished
  rw [hsplit] at hc
  rcases List.mem_append.mp hc with hc | hc
  · obtain ⟨older, d, rfl⟩ := List.eq_nil_or_concat taken |>.resolve_left (List.ne_nil_of_mem hc)
    rw [List.concat_eq_append] at hc hfirst hmine
    rw [List.dropLast_concat] at hfirst
    obtain ⟨before, e, rfl⟩ := List.eq_nil_or_concat mine |>.resolve_left hne
    rw [List.concat_eq_append, ← append_assoc, ← append_assoc, ← append_assoc] at hmine
    have hlast : e = d := (List.append_inj' hmine rfl).2 |> List.singleton_inj.mp
    rcases List.mem_append.mp hc with hc | hc
    · rw [hfirst c hc] at hend
      cases hend
    · rw [List.mem_singleton.mp hc, ← hlast, hopen e (by simp)] at hend
      cases hend
  · rw [hopen c (List.mem_append_right _ hc)] at hend
    cases hend

/-- What the inner loop does to a terminal. -/
theorem takeFrom_taken (h : s.Inside buffer) (count : Nat) :
    ∃ taken, (takeFrom s.tty.termios count s.tty.tq.count s.tty.tq buffer).2.1 = buffer ++ taken ∧
      Taken s.tty.termios.view count s.tty.tq.chars buffer taken
        (takeFrom s.tty.termios count s.tty.tq.count s.tty.tq buffer).1.chars
        (takeFrom s.tty.termios count s.tty.tq.count s.tty.tq buffer).2.2 := by
  have hview := takeFrom_view s.tty.termios count s.tty.tq buffer
  have hcanon : s.tty.termios.view.canon = true := h.canon
  obtain ⟨taken, hbuf, htaken⟩ := takeChars_taken hcanon rfl count s.tty.tq.chars buffer
  rw [hview] at hbuf htaken
  exact ⟨taken, hbuf, htaken⟩

/-- The inner loop, and what follows it: the call returns bytes of finished
lines, or goes to sleep. -/
theorem Inside.takeIn (h : s.Inside r.buffer) (hholds : ∀ c ∈ r.buffer, s.tty.termios.endline c = false)
    (hok : s.TakeOk r.count r.ndelay r.buffer) : (s.takeIn r).Inv := by
  obtain ⟨taken, hbuf, htaken⟩ := takeFrom_taken h r.count
  unfold Input.takeIn
  generalize takeFrom s.tty.termios r.count s.tty.tq.count s.tty.tq r.buffer = res at hbuf htaken
  obtain ⟨tq, buffer, how⟩ := res
  subst hbuf
  have hin : ({ s with tty := { s.tty with tq := tq } } : Input).Inside (r.buffer ++ taken) := by
    refine { h with flow := ?_ }
    rw [← h.flow, htaken.split]
    simp only [append_assoc]
  have hnone (hover : how = .over) : ∀ c ∈ r.buffer ++ taken, s.tty.termios.endline c = false :=
    List.forall_mem_append.mpr ⟨hholds, (htaken.whole hover).1⟩
  by_cases hline : s.Complete
  · have hdone := h.taken_done htaken.split htaken.first hline
    cases how with
    | stop | line => exact hin.leave hdone
    | _ => exact Inside.await (r := { r with buffer := r.buffer ++ taken }) hin (hnone rfl) (.inl hdone)
  · -- nothing that is taken ends a line, so that nothing is returned
    have hshort : how = .over ∧ (s.out ++ (r.buffer ++ taken) <+: s.lines.done
        ∨ ((r.buffer ++ taken).length < r.count ∧ r.ndelay = false ∧ s.hungUp = false)) := by
      have hlen : (r.buffer ++ taken).length ≤ (r.buffer ++ s.tty.tq.chars).length := by
        rw [htaken.split]
        simp only [List.length_append]
        omega
      cases how with
      | stop =>
        obtain ⟨htime, hne⟩ := htaken.stop rfl
        have hchars : s.tty.tq.chars ≠ [] := by
          rw [htaken.split]
          exact List.append_ne_nil_of_left_ne_nil hne _
        rcases hok with hfull | hnil | ⟨-, hzero | hnil, -⟩
        · exact absurd hfull hline
        · exact absurd (List.append_eq_nil_iff.mp hnil).2 hchars
        · exact absurd hzero ((toNat_ne_zero _).mpr htime)
        · exact absurd hnil hchars
      | line =>
        obtain ⟨c, hc, hend⟩ := htaken.line rfl
        have hmem : c ∈ s.tty.tq.chars := by
          rw [htaken.split]
          exact List.mem_append_left _ hc
        exact absurd ⟨c, hmem, hend⟩ hline
      | _ =>
        refine ⟨rfl, ?_⟩
        rcases hok with hfull | hnil | ⟨hlt, -, hndelay, hopen⟩
        · exact absurd hfull hline
        · rw [hnil] at hlen
          rw [List.length_eq_zero_iff.mp (Nat.le_zero.mp hlen), append_nil]
          exact .inl h.done
        · exact .inr ⟨Nat.lt_of_le_of_lt hlen hlt, hndelay, hopen⟩
    obtain ⟨rfl, hwait⟩ := hshort
    exact Inside.await (r := { r with buffer := r.buffer ++ taken }) hin (hnone rfl) hwait

-- ======== the run

/-- A call that nobody is ahead of. -/
theorem Inv.enter (h : s.Inv) (hfree : s.reader = none)
    (hok : s.TakeOk count ndelay []) : (s.enter pid count ndelay).Inv := by
  have hheld : s.held = [] := by
    unfold held
    rw [hfree]
  have hin : ({ s with door := Function.update s.door pid none } : Input).Inside [] := by
    have hflow := h.flow
    rw [hheld] at hflow
    exact { h with flow := hflow }
  unfold Input.enter
  dsimp only
  split
  · refine Inside.await (r := ⟨pid, count, ndelay, [], false⟩) hin nofun (.inl ?_)
    rw [append_nil]
    exact h.done
  · exact Inside.takeIn (r := ⟨pid, count, ndelay, [], false⟩) hin nofun hok

theorem Inv.tryAgain (h : s.Inv)
    (hok : s.reader = none → s.TakeOk count ndelay []) : (s.tryAgain pid count ndelay).Inv := by
  unfold Input.tryAgain
  split
  · exact ⟨{ h with }, h.holds⟩
  · next hnone =>
    have hfree : s.reader = none := by simpa using hnone
    exact h.enter hfree (hok hfree)

theorem Inv.retry {d : Door} (h : s.Inv)
    (hok : s.reader = none → sig = false → s.TakeOk d.count d.ndelay [])
    (hstep : s.retry pid d sig = some s') : s'.Inv := by
  unfold Input.retry at hstep
  cases sig with
  | true =>
    cases hstep
    exact ⟨{ h with }, h.holds⟩
  | false =>
    simp only [Bool.false_eq_true, if_false] at hstep
    split at hstep
    · cases hstep
      exact h.tryAgain fun hfree => hok hfree rfl
    · cases hstep

theorem Inv.resume (h : s.Inv) (hr : s.reader = some r)
    (hok : if sig then r.buffer = [] else s.TakeOk r.count r.ndelay r.buffer)
    (hstep : s.resume r sig = some s') : s'.Inv := by
  have hheld : s.held = r.buffer := by
    unfold held
    rw [hr]
  have hin : s.Inside r.buffer := hheld ▸ h.toInside
  have hholds : ∀ c ∈ r.buffer, s.tty.termios.endline c = false := hheld ▸ h.holds
  unfold Input.resume at hstep
  cases sig with
  | true =>
    cases hstep
    have hnil : r.buffer = [] := hok
    rw [hnil] at hin
    refine hin.leave ?_
    rw [append_nil]
    exact h.done
  | false =>
    simp only [Bool.false_eq_true, if_false] at hstep hok
    split at hstep
    · cases hstep
      exact hin.takeIn hholds hok
    · cases hstep

theorem Inv.step {e : InputEvent} (h : s.Inv) (hok : s.EventOk e)
    (hstep : s.step e = some s') : s'.Inv := by
  cases e with
  | key ch =>
    cases hstep
    refine Inv.acts ?_ hok
    exact ⟨{ h with }, h.holds⟩
  | read pid count own ndelay =>
    unfold Input.step at hstep
    dsimp only at hstep
    split at hstep
    · cases hstep
    split at hstep
    · cases hstep
      exact h
    · next hown =>
      cases hstep
      refine h.tryAgain (hok ?_)
      cases own <;> simp_all
  | wake pid sig =>
    obtain ⟨hreader, hdoor⟩ := hok
    have hretry : (s.door pid).bind (fun d => s.retry pid d sig) = some s' → s'.Inv := by
      intro hbind
      obtain ⟨d, hd, hd'⟩ := Option.bind_eq_some_iff.mp hbind
      exact h.retry (hdoor d hd) hd'
    unfold Input.step at hstep
    cases hr : s.reader with
    | none =>
      rw [hr] at hstep
      exact hretry hstep
    | some r =>
      rw [hr] at hstep
      dsimp only at hstep
      split at hstep
      · next hpid => exact h.resume hr (hreader r hr hpid) hstep
      · exact hretry hstep

end Input

/-- A terminal in canonical mode at which nothing has happened yet. -/
structure Fresh (s : Input) : Prop where
  icanon : s.tty.termios.icanon = true
  echoe : s.tty.termios.echoe = true
  empty : s.tty.tq.count = 0
  nobody : s.reader = none
  doors : ∀ pid, s.door pid = none
  out : s.out = []
  lines : s.lines = ⟨[], []⟩

theorem Fresh.inv {s : Input} (h : Fresh s) : s.Inv := by
  have hchars : s.tty.tq.chars = [] := TtyQueue.chars_eq_nil.mpr h.empty
  have hheld : s.held = [] := by
    unfold Input.held
    rw [h.nobody]
  refine ⟨⟨h.icanon, ?_, ?_, ?_, ?_⟩, ?_⟩
  · rw [h.out]
    exact List.nil_prefix
  · rw [h.out, hheld, hchars, h.lines]
    rfl
  · rw [h.lines]
    exact nofun
  · rw [h.lines]
    exact nofun
  · rw [hheld]
    exact nofun

/-- In every run of keys and reads in which each read finds a whole line or
has to wait, and each erase character something of its line, readers get
the lines as they were typed. -/
theorem canonical_input {s : Input} (hrun : Reached Fresh Input.step Input.EventOk s) : s.Delivered := by
  have hinv : s.Inv := hrun.inv (fun _ h => h.inv) fun _ _ _ h hok hstep => h.step hok hstep
  exact hinv.delivered

/-- A console at which nothing has happened yet. -/
def freshConsole : Input := ⟨initConsole, none, fun _ => none, [], ⟨[], []⟩⟩

theorem freshConsole_fresh : Fresh freshConsole := ⟨rfl, rfl, rfl, rfl, fun _ => rfl, rfl, rfl⟩

/-- The console after some keys. -/
def typed (keys : List (BitVec 16)) : Input := keys.foldl Input.key freshConsole

/-- The letter `a` and the return key, and a read: the line is delivered. -/
theorem canonical_input_line : ((typed [97, 13]).tryAgain 1 80 false).out = [97, 10]
      ∧ ((typed [97, 13]).tryAgain 1 80 false).Delivered := by
  have hkeys : Reached Fresh Input.step Input.EventOk (typed [97, 13]) := by
    have hroom : (typed []).tty.tq.count < maxInput := by decide
    have hroom' : (typed [97]).tty.tq.count < maxInput := by decide
    have hfirst : Reached Fresh Input.step Input.EventOk (typed [97]) :=
      .step (.key 97) (.first freshConsole_fresh) ⟨hroom, trivial⟩ rfl
    exact .step (.key 13) hfirst ⟨trivial, hroom', trivial⟩ rfl
  have hline : (typed [97, 13]).TakeOk 80 false [] := .inl ⟨10, by decide, by decide⟩
  exact ⟨by decide, canonical_input (.step (.read 1 80 true false) hkeys (fun _ _ => hline) rfl)⟩

/-- The queue is not full when a key is pressed, and a read asks for
something. -/
def Pending (s : Input) : InputEvent → Prop
  | .key _ => s.tty.tq.count < maxInput
  | .read _ count _ _ => 0 < count
  | .wake _ _ => True

/-- A byte is delivered although its line is not finished; and a return key
that was typed is erased although nobody has read its line. -/
theorem lines_broken :
    (∃ s, Reached Fresh Input.step Pending s ∧ s.out = [97] ∧ s.lines.done = [] ∧ ¬ s.Delivered)
      ∧ ∃ s, Reached Fresh Input.step Pending s ∧ s.lines.done = [97, 10] ∧ s.out = []
        ∧ s.tty.tq.chars = [97] ∧ ¬ s.Delivered := by
  have hfirst : Reached Fresh Input.step Pending (typed [97]) := by
    have hroom : (typed []).tty.tq.count < maxInput := by decide
    exact .step (.key 97) (.first freshConsole_fresh) hroom rfl
  have hline : Reached Fresh Input.step Pending (typed [97, 13]) := by
    have hroom : (typed [97]).tty.tq.count < maxInput := by decide
    exact .step (.key 13) hfirst hroom rfl
  refine ⟨⟨(typed [97]).tryAgain 1 1 false, ?_, by decide, by decide, fun h => ?_⟩,
    ⟨typed [97, 13, 8], ?_, by decide, by decide, by decide, fun h => ?_⟩⟩
  · exact .step (.read 1 1 true false) hfirst Nat.zero_lt_one rfl
  · exact absurd h.done (by decide)
  · have hroom : (typed [97, 13]).tty.tq.count < maxInput := by decide
    exact .step (.key 8) hline hroom rfl
  · exact absurd h.flow (by decide)

end Cnix.Driver
