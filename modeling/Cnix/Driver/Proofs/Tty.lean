/-
When a read of a terminal sleeps.

The inner loop of `tty_read` empties the queue unless it is told to stop:
by the number of characters asked for, by `VMIN` or `VTIME`, or by the end
of a line (`Enough`). If it is not, the outer loop comes back to an empty
queue. So the queue is emptied at most once, and a read that finds
characters sleeps exactly if they are not enough and nothing else ends it
(`read_some`).
-/
import Mathlib.Tactic.Common
import Cnix.Driver.Tty

namespace Cnix.Driver

/-- The call returns. -/
def TtyEnd.Back (e : TtyEnd) : Prop := ∃ bytes error, e = .returned bytes error

theorem TtyEnd.back (bytes : List Byte) (error : Int) : (TtyEnd.returned bytes error).Back := ⟨bytes, error, rfl⟩

namespace Tty

variable {tty : Tty} {count : Nat} {tq buffer : List Byte} {own ndelay : Bool}

/-- The characters that are there let the inner loop stop. -/
def Enough (tty : Tty) (count : Nat) : Prop :=
  count ≤ tty.tq.length ∨
    if tty.canon = false ∧ tty.vmin ≠ 0 then tty.vtime = 0 ∧ tty.vmin ≤ tty.tq.length
    else tty.vtime ≠ 0 ∨ tty.canon = true ∧ ∃ ch ∈ tty.tq, tty.endline ch = true

instance (tty : Tty) (count : Nat) : Decidable (tty.Enough count) := by
  unfold Enough
  infer_instance

-- ======== the inner loop

/-- Unless it is told to stop, it takes all there are or as many as are
wanted. -/
theorem takeChars_over (hover : (tty.takeChars count tq buffer).2.2 = .over) (hb : buffer.length ≤ count) :
    (tty.takeChars count tq buffer).2.1.length = min count (buffer.length + tq.length) ∧
      (buffer.length + tq.length < count → (tty.takeChars count tq buffer).1 = []) := by
  induction tq generalizing buffer with
  | nil =>
    refine ⟨?_, fun _ => rfl⟩
    show buffer.length = min count (buffer.length + 0)
    omega
  | cons ch tq ih =>
    rw [takeChars] at hover ⊢
    have hlen : (buffer ++ [ch]).length = buffer.length + 1 := List.length_append
    by_cases hfull : count ≤ buffer.length
    · rw [if_pos hfull] at hover ⊢
      refine ⟨?_, fun hlt => absurd hfull (by omega)⟩
      show buffer.length = _
      omega
    · rw [if_neg hfull] at hover ⊢
      dsimp only at hover ⊢
      have hrest {buffer' : List Byte} (hb' : buffer'.length = buffer.length + 1)
          (hover' : (tty.takeChars count tq buffer').2.2 = .over) :
          (tty.takeChars count tq buffer').2.1.length = min count (buffer.length + (tq.length + 1)) ∧
            (buffer.length + (tq.length + 1) < count → (tty.takeChars count tq buffer').1 = []) := by
        obtain ⟨h1, h2⟩ := ih hover' (by omega)
        refine ⟨by omega, fun hlt => h2 (by omega)⟩
      split at hover
      · next hraw =>
        rw [if_pos hraw]
        split at hover
        · cases hover
        next hmin =>
        rw [if_neg hmin]
        exact hrest hlen hover
      · next hraw =>
        rw [if_neg hraw]
        split at hover
        · cases hover
        next hv =>
        rw [if_neg hv]
        split at hover
        · cases hover
        next hline =>
        rw [if_neg hline]
        exact hrest hlen hover

/-- With `VMIN` alone it stops there; with `VTIME` too it never does. -/
theorem takeChars_vmin (hraw : tty.canon = false ∧ tty.vmin ≠ 0) (hb : tty.vtime = 0 → buffer.length < tty.vmin) :
    (tty.takeChars count tq buffer).2.2 ≠ .over ↔
      tty.vtime = 0 ∧ tty.vmin ≤ count ∧ tty.vmin ≤ buffer.length + tq.length := by
  induction tq generalizing buffer with
  | nil =>
    refine iff_of_false (fun h => h rfl) fun ⟨hv, _, hle⟩ => ?_
    rw [List.length_nil] at hle
    omega
  | cons ch tq ih =>
    rw [takeChars, List.length_cons]
    have hlen : (buffer ++ [ch]).length = buffer.length + 1 := List.length_append
    by_cases hfull : count ≤ buffer.length
    · rw [if_pos hfull]
      refine iff_of_false (fun h => h rfl) fun ⟨hv, hle, _⟩ => ?_
      omega
    · rw [if_neg hfull]
      rw [if_pos hraw, hlen]
      by_cases hmin : tty.vtime = 0 ∧ tty.vmin ≤ buffer.length + 1
      · rw [if_pos hmin]
        refine iff_of_true nofun ⟨hmin.1, ?_, ?_⟩
        · omega
        · omega
      · rw [if_neg hmin, ih fun hv => ?_]
        · rw [hlen, Nat.add_assoc, Nat.add_comm 1]
        · by_contra hge
          exact hmin ⟨hv, by omega⟩

/-- With `VTIME`, and without `VMIN` or in canonical mode, it stops after one
character. -/
theorem takeChars_vtime (hraw : ¬ (tty.canon = false ∧ tty.vmin ≠ 0)) (hv : tty.vtime ≠ 0) (hne : tq ≠ [])
    (hb : buffer.length < count) : (tty.takeChars count tq buffer).2.2 ≠ .over := by
  cases tq with
  | nil => exact absurd rfl hne
  | cons ch tq =>
    rw [takeChars, if_neg (Nat.not_le.2 hb)]
    rw [if_neg hraw, if_pos hv]
    exact nofun

/-- Otherwise it stops at the end of a line. -/
theorem takeChars_line (hraw : ¬ (tty.canon = false ∧ tty.vmin ≠ 0)) (hv : tty.vtime = 0)
    (hmaster : tty.master = false) : (tty.takeChars count tq buffer).2.2 ≠ .over ↔
      tty.canon = true ∧ ∃ ch ∈ tq.take (count - buffer.length), tty.endline ch = true := by
  induction tq generalizing buffer with
  | nil => exact iff_of_false (fun h => h rfl) fun ⟨_, ch, hch, _⟩ => by simp at hch
  | cons ch tq ih =>
    rw [takeChars]
    have hlen : (buffer ++ [ch]).length = buffer.length + 1 := List.length_append
    by_cases hfull : count ≤ buffer.length
    · rw [if_pos hfull, Nat.sub_eq_zero_of_le hfull]
      exact iff_of_false (fun h => h rfl) fun ⟨_, ch, hch, _⟩ => by simp at hch
    · rw [if_neg hfull]
      rw [if_neg hraw, if_neg (not_not_intro hv)]
      have htake : (ch :: tq).take (count - buffer.length) = ch :: tq.take (count - (buffer.length + 1)) := by
        rw [show count - buffer.length = count - (buffer.length + 1) + 1 by omega, List.take_succ_cons]
      rw [htake]
      by_cases hline : tty.master = false ∧ tty.canon = true ∧ tty.endline ch = true
      · rw [if_pos hline]
        exact iff_of_true nofun ⟨hline.2.1, ch, List.mem_cons_self, hline.2.2⟩
      · rw [if_neg hline, ih, hlen]
        refine and_congr_right fun hcanon => ⟨fun ⟨x, hx, he⟩ => ⟨x, List.mem_cons_of_mem _ hx, he⟩, ?_⟩
        rintro ⟨x, hx, he⟩
        rcases List.mem_cons.1 hx with rfl | hx
        · exact absurd ⟨hmaster, hcanon, he⟩ hline
        · exact ⟨x, hx, he⟩

/-- The inner loop stops, or has as many as are wanted. -/
theorem takeChars_enough (hmaster : tty.master = false) (hcount : 0 < count) (hne : tty.tq ≠ []) :
    ((tty.takeChars count tty.tq []).2.2 ≠ .over ∨ count ≤ tty.tq.length) ↔ tty.Enough count := by
  unfold Enough
  rw [or_comm]
  by_cases hshort : count ≤ tty.tq.length
  · exact iff_of_true (.inl hshort) (.inl hshort)
  · rw [or_iff_right hshort, or_iff_right hshort]
    by_cases hraw : tty.canon = false ∧ tty.vmin ≠ 0
    · have hmin : ([] : List Byte).length < tty.vmin := Nat.pos_of_ne_zero hraw.2
      rw [if_pos hraw, takeChars_vmin hraw fun _ => hmin, List.length_nil, Nat.zero_add]
      exact ⟨fun ⟨hv, _, hle⟩ => ⟨hv, hle⟩, fun ⟨hv, hle⟩ => ⟨hv, by omega, hle⟩⟩
    · rw [if_neg hraw]
      by_cases hv : tty.vtime = 0
      · rw [takeChars_line hraw hv hmaster, List.length_nil, Nat.sub_zero, List.take_of_length_le (by omega)]
        exact ⟨.inr, fun h => h.resolve_left (not_not_intro hv)⟩
      · exact iff_of_true (takeChars_vtime hraw hv hne hcount) (.inl hv)

-- ======== the read

/-- Nothing ends a read that finds the queue empty. -/
structure Waits (tty : Tty) (ndelay : Bool) : Prop where
  blocking : ndelay = false
  peer : ¬ (tty.isPty = true ∧ tty.buddyCount = 0)

/-- A turn that finds the queue empty. -/
theorem readLoop_nil (turns : Nat) (hlt : buffer.length < count) :
    (tty.Waits ndelay → tty.readLoop ndelay count (turns + 1) [] buffer = .slept) ∧
      (¬ tty.Waits ndelay → (tty.readLoop ndelay count (turns + 1) [] buffer).Back) := by
  rw [readLoop, if_neg (Nat.not_le.2 hlt), if_pos rfl]
  cases ndelay with
  | true => exact ⟨fun h => (by cases h.blocking), fun _ => TtyEnd.back ..⟩
  | false =>
    rw [if_neg Bool.false_ne_true]
    split
    · next hpeer => exact ⟨fun h => absurd hpeer h.peer, fun _ => TtyEnd.back ..⟩
    · next hpeer => exact ⟨fun _ => rfl, fun h => absurd ⟨rfl, hpeer⟩ h⟩

/-- The byte that a master in packet mode puts first. -/
def start (tty : Tty) : List Byte := if tty.master ∧ tty.pktmode then [tiocpktData] else []

section Allowed

variable (hallow : tty.allowRead = true)

include hallow

/-- Reading from an empty queue. -/
theorem read_none (hown : own = true ∨ tty.type ≠ .vga) (hempty : tty.tq = [])
    (hlt : tty.start.length < count) : (tty.Waits ndelay → tty.read own ndelay count = .slept) ∧
      (¬ tty.Waits ndelay → (tty.read own ndelay count).Back) := by
  have hread : tty.read own ndelay count = tty.readLoop ndelay count 2 [] tty.start := by
    rw [read, if_neg (fun h => ?_), if_neg (by rw [hallow]; exact Bool.noConfusion), hempty]
    · rfl
    · rcases hown with hown | hown
      · rw [hown] at h
        cases h.1
      · exact hown h.2
  rw [hread]
  exact readLoop_nil 1 hlt

/-- Another task's screen, or a buffer that is full from the start. -/
theorem read_early
    (hearly : own = false ∧ tty.type = .vga ∨ count ≤ tty.start.length) :
    (tty.read own ndelay count).Back := by
  rw [read]
  split
  · exact TtyEnd.back ..
  · next hnot =>
    rw [if_neg (by rw [hallow]; exact Bool.noConfusion), readLoop]
    have hfull : count ≤ tty.start.length := hearly.resolve_left hnot
    rw [if_pos (show count ≤ (if tty.master ∧ tty.pktmode then [tiocpktData] else []).length from hfull)]
    exact TtyEnd.back ..

/-- Reading from a queue that is not empty: the master end takes what there
is. -/
theorem read_master (hmaster : tty.master = true) (hne : tty.tq ≠ []) :
    (tty.read own ndelay count).Back := by
  by_cases hearly : own = false ∧ tty.type = .vga ∨ count ≤ tty.start.length
  · exact read_early hallow hearly
  · obtain ⟨hown, hlt⟩ := not_or.1 hearly
    rw [read, if_neg hown, if_neg (by rw [hallow]; exact Bool.noConfusion), readLoop]
    rw [if_neg (show ¬ count ≤ (if tty.master ∧ tty.pktmode then [tiocpktData] else []).length from hlt), if_neg hne]
    split
    · exact TtyEnd.back ..
    · exact TtyEnd.back ..
    · rw [if_pos hmaster]
      exact TtyEnd.back ..

/-- And the others take it until it is enough, or wait for more. -/
theorem read_some (hmaster : tty.master = false)
    (hown : own = true ∨ tty.type ≠ .vga) (hcount : 0 < count) (hne : tty.tq ≠ []) :
    (tty.Waits ndelay ∧ ¬ tty.Enough count → tty.read own ndelay count = .slept) ∧
      (¬ (tty.Waits ndelay ∧ ¬ tty.Enough count) → (tty.read own ndelay count).Back) := by
  have hread : tty.read own ndelay count = tty.readLoop ndelay count 2 tty.tq [] := by
    rw [read, if_neg (fun h => ?_), if_neg (by rw [hallow]; exact Bool.noConfusion),
      if_neg (by rw [hmaster]; exact fun h => Bool.noConfusion h.1)]
    rcases hown with hown | hown
    · rw [hown] at h
      cases h.1
    · exact hown h.2
  have henough := takeChars_enough hmaster hcount hne
  have hover := @takeChars_over tty count tty.tq []
  rw [hread, readLoop, if_neg (show ¬ count ≤ ([] : List Byte).length from Nat.not_le.2 hcount), if_neg hne]
  rcases htake : tty.takeChars count tty.tq [] with ⟨tq', buffer', leave⟩
  rw [htake] at henough hover
  dsimp only at henough hover
  cases leave with
  | line | stop =>
    exact ⟨fun h => absurd (henough.1 (.inl nofun)) h.2, fun _ => TtyEnd.back ..⟩
  | _ =>
    obtain ⟨hlen, hrest⟩ := hover rfl (Nat.zero_le _)
    rw [List.length_nil, Nat.zero_add] at hlen hrest
    dsimp only
    rw [if_neg (by rw [hmaster]; exact Bool.false_ne_true)]
    by_cases hfull : count ≤ tty.tq.length
    · refine ⟨fun h => absurd (henough.1 (.inr hfull)) h.2, fun _ => ?_⟩
      rw [readLoop, if_pos (by omega)]
      exact TtyEnd.back ..
    · -- the queue is empty now
      have hnot : ¬ tty.Enough count := fun h => (henough.2 h).elim (fun h => h rfl) hfull
      rw [hrest (by omega)]
      have hnil := @readLoop_nil tty count buffer' ndelay 0 (by omega)
      exact ⟨fun h => hnil.1 h.1, fun h => hnil.2 fun hw => h ⟨hw, hnot⟩⟩

end Allowed

end Tty

end Cnix.Driver
