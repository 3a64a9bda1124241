/-
The bottom halves themselves: `raise_bottom` and `do_with_bottom` of
`kernel/bottom.c`.

An interrupt raises a half, which sets its bit of `b_active`, and the
return from an interrupt calls `do_with_bottom`. While one call works
(`b_inflag`) the others return at once. It takes the bits that are not
masked out of `b_active` and starts the handlers of these; what is raised
meanwhile is left in `b_active` for the next turn of its loop, or for the
next call. Interrupts get in between any two steps here. What is done
with the interrupts disabled is one step.
-/
import Cnix.Kernel.Bottom

namespace Cnix.Kernel

variable {actions : BottomT → Bool} {b : BottomT}

/-- Where a call of `do_with_bottom` is that works: before it takes the
bits, in the `for` loop with the halves it has not come to, in the handler
of one, at the two reads of the loop's test, at the end. -/
inductive Spot
  | take
  | scan (active : BitVec 32) (rest : List BottomT)
  | handler (b : BottomT) (active : BitVec 32) (rest : List BottomT)
  | test
  | test1 (active : BitVec 32)
  | leave
  deriving DecidableEq

/-- The variables of `bottom.c`, and the calls of `do_with_bottom` that
work. -/
structure Halves where
  bMask : BitVec 32
  bActive : BitVec 32
  bInflag : Bool
  calls : List Spot

/-- `init_bottom`. -/
def initBottom : Halves := ⟨0, 0, false, []⟩

/-- One step of a call: where it is then, unless it has returned. -/
def Spot.go (actions : BottomT → Bool) (s : Halves) : Spot → Halves × Option Spot
  | .take => ({ s with bActive := s.bActive &&& s.bMask },
      some (.scan (s.bActive &&& ~~~s.bMask) [.timerB, .ideB, .keyboardB, .floppyB, .pcnet32B]))
  | .scan active (b :: rest) =>
    (s, some (if active.getLsbD b.idx ∧ actions b then .handler b active rest else .scan active rest))
  | .scan _ [] => (s, some .test)
  | .handler _ active rest => (s, some (.scan active rest))
  | .test => (s, some (.test1 s.bActive))
  | .test1 active => (s, some (if active &&& ~~~s.bMask ≠ 0 then .take else .leave))
  | .leave => ({ s with bInflag := false }, none)

/-- An interrupt calls `raise_bottom`; someone writes the mask;
`do_with_bottom` is called, inside of another interrupt or not; a call
that works goes on. -/
inductive Moment
  | raise (b : BottomT)
  | mask (mask : BitVec 32)
  | call (nested : Bool)
  | go (k : Nat)

def Halves.step (actions : BottomT → Bool) (s : Halves) : Moment → Halves
  | .raise b => if actions b then { s with bActive := s.bActive ||| b.bit } else s
  | .mask mask => { s with bMask := mask }
  | .call nested =>
    if s.bActive = 0 ∨ nested ∨ s.bInflag then s
    else { s with bInflag := true, calls := .take :: s.calls }
  | .go k =>
    match s.calls[k]? with
    | none => s
    | some p =>
      let (s', q) := p.go actions s
      { s' with calls := q.elim (s.calls.eraseIdx k) (s.calls.set k) }

/-- The half whose handler runs in the call. -/
def Spot.running : Spot → Option BottomT
  | .handler b _ _ => some b
  | _ => none

/-- The handlers that run. -/
def Halves.running (s : Halves) : List BottomT := s.calls.filterMap Spot.running

/-- The handler is started between two states. -/
def Starts (b : BottomT) (s s' : Halves) : Prop := b ∉ s.running ∧ b ∈ s'.running

/-- The state after some moments. -/
def halvesAfter (actions : BottomT → Bool) (moments : List Moment) : Halves :=
  moments.foldl (Halves.step actions) initBottom

/-- The call has still to come to the half. -/
def Spot.Takes (b : BottomT) : Spot → Prop
  | .scan active rest | .handler _ active rest => active.getLsbD b.idx = true ∧ b ∈ rest
  | _ => False

/-- At most one call works. -/
def Halves.Single (s : Halves) : Prop :=
  s.calls = [] ∧ s.bInflag = false ∨ (∃ p, s.calls = [p]) ∧ s.bInflag = true

/-- The half is in `b_active`, or a call has taken it out and has not come
to it. -/
def Halves.Due (b : BottomT) (s : Halves) : Prop :=
  s.bActive.getLsbD b.idx = true ∨ ∃ p ∈ s.calls, p.Takes b

/-- A call that goes on loses none of the halves that it has taken. -/
theorem Spot.go_due {s : Halves} {p : Spot} (hb : actions b = true)
    (h : s.bActive.getLsbD b.idx = true ∨ p.Takes b) :
    ((p.go actions s).1.bActive.getLsbD b.idx = true ∨ ∃ q ∈ (p.go actions s).2, q.Takes b) ∨
      p.running ≠ some b ∧ ∃ q ∈ (p.go actions s).2, q.running = some b := by
  cases p with
  | take =>
    have hactive := h.resolve_right id
    -- a bit that is masked stays, any other is taken
    cases hmask : s.bMask.getLsbD b.idx with
    | true => simp [go, hactive, hmask]
    | false =>
      refine .inl (.inr ⟨_, rfl, ?_, by cases b <;> simp⟩)
      rw [BitVec.getLsbD_and, BitVec.getLsbD_not, hactive, hmask]
      cases b <;> rfl
  | scan active rest =>
    cases rest with
    | nil => exact .inl (.inl (h.resolve_right fun h => by cases h.2))
    | cons c rest =>
      rcases h with h | ⟨hbit, hmem⟩
      · exact .inl (.inl h)
      rw [go]
      rcases List.mem_cons.1 hmem with rfl | hmem
      · -- it is the turn of the half
        rw [if_pos ⟨hbit, hb⟩]
        exact .inr ⟨nofun, _, rfl, rfl⟩
      · refine .inl (.inr ⟨_, rfl, ?_⟩)
        split
        · exact ⟨hbit, hmem⟩
        · exact ⟨hbit, hmem⟩
  | handler c active rest => exact .inl (h.imp_right fun h => ⟨_, rfl, h⟩)
  | test | test1 active | leave => exact .inl (.inl (h.resolve_right id))

/-- It gives up the flag when it returns. -/
theorem Spot.go_inflag {s : Halves} (hflag : s.bInflag = true) (p : Spot) :
    (p.go actions s).1.bInflag = (p.go actions s).2.isSome := by
  cases p with
  | scan active rest => cases rest <;> exact hflag
  | take | handler b active rest | test | test1 active => exact hflag
  | leave => rfl

theorem Halves.Single.step {s : Halves} (h : s.Single) (e : Moment) : (s.step actions e).Single := by
  cases e with
  | raise b =>
    rw [Halves.step]
    split
    · exact h
    · exact h
  | mask mask => exact h
  | call nested =>
    rw [Halves.step]
    split
    · exact h
    · next hwork =>
      obtain ⟨hnil, -⟩ | ⟨-, hflag⟩ := h
      · exact .inr ⟨⟨.take, by rw [hnil]⟩, rfl⟩
      · exact absurd (.inr (.inr hflag)) hwork
  | go k =>
    rw [Halves.step]
    obtain ⟨hnil, hflag⟩ | ⟨⟨p, hone⟩, hflag⟩ := h
    · rw [hnil]
      exact .inl ⟨hnil, hflag⟩
    rw [hone]
    cases k with
    | succ k => exact .inr ⟨⟨p, hone⟩, hflag⟩
    | zero =>
      have hout : (p.go actions s).1.bInflag = (p.go actions s).2.isSome := p.go_inflag hflag
      dsimp only [List.getElem?_cons_zero]
      generalize p.go actions s = r at hout
      obtain ⟨s', _ | q⟩ := r
      · exact .inl ⟨rfl, hout⟩
      · exact .inr ⟨⟨q, rfl⟩, hout⟩

/-- Each step leaves a half due, or starts its handler. -/
theorem Halves.Due.step {s : Halves} (h : s.Due b) (hs : s.Single) (hb : actions b = true)
    (e : Moment) : (s.step actions e).Due b ∨ Starts b s (s.step actions e) := by
  cases e with
  | raise c =>
    refine .inl ?_
    rw [Halves.step]
    split
    · exact h.imp_left fun hactive => by simp [hactive]
    · exact h
  | mask mask => exact .inl h
  | call nested =>
    refine .inl ?_
    rw [Halves.step]
    split
    · exact h
    · exact h.imp_right fun ⟨p, hp, htakes⟩ => ⟨p, List.mem_cons_of_mem _ hp, htakes⟩
  | go k =>
    unfold Starts
    rw [Halves.step]
    obtain ⟨hnil, -⟩ | ⟨⟨p, hone⟩, -⟩ := hs
    · rw [hnil]
      exact .inl h
    rw [hone]
    cases k with
    | succ k => exact .inl h
    | zero =>
      unfold Due at h
      simp only [hone, List.mem_singleton, exists_eq_left] at h
      have hgo := Spot.go_due hb h
      dsimp only [List.getElem?_cons_zero]
      generalize p.go actions s = r at hgo
      obtain ⟨s', _ | q⟩ := r
      · exact .inl (hgo.elim (.imp_right nofun) fun h => nomatch h.2.choose_spec.1)
      · simp only [Option.mem_some_iff, exists_eq_left'] at hgo
        refine hgo.imp (fun h => h.imp_right fun h => ⟨q, List.mem_singleton_self q, h⟩) ?_
        intro ⟨hp, hq⟩
        exact ⟨by simp [Halves.running, hone, hp], by simp [Halves.running, hq]⟩

theorem halvesAfter_single (actions : BottomT → Bool) (moments : List Moment) :
    (halvesAfter actions moments).Single :=
  List.foldlRecOn moments _ (.inl ⟨rfl, rfl⟩) fun _ hs e _ => hs.step e

/-- A half that was raised is due until its handler is started. -/
theorem due_or_started (hb : actions b = true) (before after : List Moment) :
    (halvesAfter actions (before ++ .raise b :: after)).Due b ∨
      ∃ l e, l ++ [e] <+: after ∧ Starts b (halvesAfter actions (before ++ .raise b :: l))
        (halvesAfter actions (before ++ .raise b :: (l ++ [e]))) := by
  have hsnoc (l : List Moment) (e : Moment) : halvesAfter actions (before ++ .raise b :: (l ++ [e]))
      = (halvesAfter actions (before ++ .raise b :: l)).step actions e := by
    simp [halvesAfter, List.foldl_append]
  -- on what has happened since the raise, from its end
  induction after using List.reverseRecOn with
  | nil =>
    refine .inl (.inl ?_)
    simp only [halvesAfter, List.foldl_append, List.foldl_cons, List.foldl_nil, Halves.step, hb, if_true]
    cases b <;> simp [BottomT.bit, BottomT.idx]
  | append_singleton l e ih =>
    rcases ih with ih | ⟨l', e', hl, hstarts⟩
    · rw [hsnoc]
      refine (ih.step (halvesAfter_single ..) hb e).imp_right fun h => ⟨l, e, List.prefix_rfl, ?_⟩
      rw [hsnoc]
      exact h
    · exact .inr ⟨l', e', hl.trans (List.prefix_append l [e]), hstarts⟩

/-- Whatever happens in whatever order: while no call works, a half that
was raised is still in `b_active` or its handler was started since; and no
two handlers run at once. -/
theorem halves_not_lost (hb : actions b = true) (before after : List Moment) :
    let s := halvesAfter actions (before ++ .raise b :: after)
    (s.bInflag = false → s.bActive.getLsbD b.idx = true ∨
      ∃ l e, l ++ [e] <+: after ∧ Starts b (halvesAfter actions (before ++ .raise b :: l))
        (halvesAfter actions (before ++ .raise b :: (l ++ [e]))))
      ∧ s.running.length ≤ 1 := by
  intro s
  have hdue : s.Due b ∨ _ := due_or_started hb before after
  obtain ⟨hnil, -⟩ | ⟨⟨p, hone⟩, hflag⟩ := halvesAfter_single actions (before ++ .raise b :: after)
  · refine ⟨fun _ => hdue.imp_left fun h => h.resolve_right fun ⟨p, hp, _⟩ => ?_, ?_⟩
    · simp [s, Halves.running, hnil]
    · rw [show s.calls = [] from hnil] at hp
      cases hp
  · refine ⟨fun hnot => ?_, ?_⟩
    · rw [show s.bInflag = true from hflag] at hnot
      cases hnot
    · simpa [s, Halves.running, hone] using List.length_filterMap_le Spot.running [p]

/-- The timer is raised while the disk's handler runs, with the timer
masked; the handler takes the mask away, and the next turn of the loop
starts the timer's. -/
theorem halves_not_lost_timer :
    let before := [.raise .ideB, .call false, .go 0, .go 0, .go 0, .mask 1]
    let after := [.call false, .mask 0] ++ List.replicate 18 (.go 0)
    let s := halvesAfter (fun _ => true) (before ++ .raise .timerB :: after)
    (s.bInflag = false ∧ s.bActive = 0) ∧ ∃ l e, l ++ [e] <+: after ∧
      Starts .timerB (halvesAfter (fun _ => true) (before ++ .raise .timerB :: l))
        (halvesAfter (fun _ => true) (before ++ .raise .timerB :: (l ++ [e]))) := by
  intro before after s
  have hs : s.bInflag = false ∧ s.bActive = 0 := by decide
  refine ⟨hs, ((halves_not_lost rfl before after).1 hs.1).resolve_left ?_⟩
  rw [show (halvesAfter (fun _ => true) (before ++ .raise .timerB :: after)).bActive = 0 from hs.2]
  decide

end Cnix.Kernel
