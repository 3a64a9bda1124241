/-
The ports of the internet sockets (`net/common.c`).

# Two moving positions

`inet_port_alloc` looks for a word of the bitmap with a bit left, from
where the last call ended. On its way past a full word it advances the
index, and also the pointer `bits` that the index is added to: from the
second turn on it reads and marks a word that is as many words behind
the one of the port it returns as it made turns, and in the end words
behind the bitmap. The call is right exactly when the first word it
looks at is not full (`Open`).

UDP and TCP have a bitmap each, and `Ports` is one of the two. `net_init`
does not clear it.
-/
import Mathlib.Logic.Function.Basic
import Cnix.Lib.Runs

namespace Cnix.Net

open Lib
open Function (update update_self update_of_ne)

def maxPortNum : Nat := 65536
def reservedPortNum : Nat := 1024

/-- The bits from the bitmap on, and where the last call ended. -/
structure Ports where
  bits : Nat → Bool
  lastbit : Nat

namespace Ports

variable {s : Ports} {k : Nat}

/-- `idx` after `k` turns. -/
def idx (s : Ports) (k : Nat) : Nat :=
  let idx := (s.lastbit + 32 * k) / 32
  if maxPortNum / 32 ≤ idx then reservedPortNum / 32 else idx

/-- The word it reads after `k` turns: `bits` was moved as often. -/
def word (s : Ports) (k : Nat) : Nat := k + s.idx k

/-- `while(bits[idx] & (1 << bit)) bit++`, in a word not full. -/
def firstZero (s : Ports) (word : Nat) : Option Nat :=
  (List.range 32).find? fun bit => !s.bits (word * 32 + bit)

/-- The `do` loop: the turns before a word that is not full. -/
def search (s : Ports) : Option Nat :=
  (List.range (maxPortNum / 32)).find? fun k => (s.firstZero (s.word k)).isSome

/-- `inet_port_alloc`: the port, or -1. -/
def portAlloc (s : Ports) : Int × Ports :=
  match s.search with
  | none => (-1, s)
  | some k =>
    let bit := (s.firstZero (s.word k)).getD 0
    let lastbit := (s.idx k + 1) * 32
    ((s.idx k * 32 + bit : Nat), ⟨update s.bits (s.word k * 32 + bit) true,
      if maxPortNum < lastbit then reservedPortNum else lastbit⟩)

/-- `inet_port_free`; the port must be in use. -/
def portFree (s : Ports) (port : BitVec 16) : Option Ports :=
  if s.bits port.toNat then some { s with bits := update s.bits port.toNat false } else none

/-- `inet_port_use`. -/
def portUse (s : Ports) (port : BitVec 16) : Int × Ports :=
  if s.bits port.toNat then (-1, s) else (0, { s with bits := update s.bits port.toNat true })

inductive Event
  | alloc
  | use (port : BitVec 16)
  | free (port : BitVec 16)

def apply (s : Ports) : Event → Option Ports
  | .alloc => some s.portAlloc.2
  | .use port => some (s.portUse port).2
  | .free port => s.portFree port

/-- The states in runs from `net_init`. -/
abbrev Run : Ports → Prop := Reached (·.lastbit = reservedPortNum) apply fun _ _ => True

/-- What a call of `inet_port_alloc` owes: it stays within the bitmap, it
fails only when all ports are in use, and the port it returns was free
and is the one that it marks. -/
structure Sound (s : Ports) : Prop where
  inside : ∀ k < s.search.elim (maxPortNum / 32) (· + 1), s.word k < maxPortNum / 32
  full : s.portAlloc.1 = -1 → ∀ port, reservedPortNum ≤ port → port < maxPortNum → s.bits port
  marks : s.portAlloc.1 ≠ -1 → ∃ port : Nat, s.portAlloc.1 = port ∧ reservedPortNum ≤ port
    ∧ port < maxPortNum ∧ s.bits port = false ∧ s.portAlloc.2.bits = update s.bits port true

/-- The first word it looks at is not full. -/
def Open (s : Ports) : Prop := ∃ bit < 32, s.bits (s.idx 0 * 32 + bit) = false

-- ======== one call

theorem idx_bounds (h : reservedPortNum ≤ s.lastbit) (k : Nat) :
    reservedPortNum / 32 ≤ s.idx k ∧ s.idx k < maxPortNum / 32 := by
  unfold idx reservedPortNum maxPortNum at *
  dsimp only
  split
  · decide
  · omega

/-- What a call does that finds a word after `k` turns. -/
theorem portAlloc_some (h : s.search = some k) :
    ∃ bit < 32, s.portAlloc.1 = (s.idx k * 32 + bit : Nat) ∧ s.bits (s.word k * 32 + bit) = false
      ∧ s.portAlloc.2.bits = update s.bits (s.word k * 32 + bit) true := by
  have hfound := List.find?_some h
  obtain ⟨bit, hbit⟩ := Option.isSome_iff_exists.1 hfound
  have hclear := List.find?_some hbit
  unfold portAlloc
  rw [h]
  dsimp only
  rw [hbit]
  exact ⟨bit, List.mem_range.1 (List.mem_of_find?_eq_some hbit), rfl, by simpa using hclear, rfl⟩

theorem sound_iff (h : reservedPortNum ≤ s.lastbit) : s.Sound ↔ s.Open := by
  have hword : s.word 0 = s.idx 0 := Nat.zero_add _
  have hbounds := idx_bounds h
  have hmax : maxPortNum / 32 = 2048 := rfl
  have hres : reservedPortNum / 32 = 32 := rfl
  constructor
  · intro hs
    cases hfind : s.search with
    | none =>
      -- the last turn reads behind the bitmap
      have hlast := hs.inside 2047 (by rw [hfind]; decide)
      have hidx := hbounds 2047
      unfold word at hlast
      omega
    | some k =>
      obtain ⟨bit, hbit, hport, hclear, hset⟩ := portAlloc_some hfind
      by_cases hk : k = 0
      · subst hk
        rw [hword] at hclear
        exact ⟨bit, hbit, hclear⟩
      · -- the bit that is set is not that of the port
        obtain ⟨port, hport', -, -, -, hmarks⟩ := hs.marks (by rw [hport]; omega)
        have hsame := congrFun (hset.symm.trans hmarks) (s.word k * 32 + bit)
        have hne : s.word k * 32 + bit ≠ port := by
          unfold word
          omega
        rw [update_self, update_of_ne hne, hclear] at hsame
        cases hsame
  · intro hopen
    have hfind : s.search = some 0 := by
      unfold search
      rw [hmax, List.range_succ_eq_map, List.find?_cons_of_pos]
      rw [hword]
      simpa [Open, firstZero, List.find?_isSome] using hopen
    obtain ⟨bit, hbit, hport, hclear, hset⟩ := portAlloc_some hfind
    have hidx := hbounds 0
    rw [hword] at hclear hset
    refine ⟨fun k hk => ?_, fun hfail => ?_, fun _ => ⟨_, hport, ?_, ?_, hclear, hset⟩⟩
    · rw [hfind] at hk
      obtain rfl : k = 0 := Nat.lt_one_iff.1 hk
      rw [hword]
      exact hidx.2
    · rw [hport] at hfail
      omega
    · unfold reservedPortNum
      omega
    · unfold maxPortNum
      omega

-- ======== runs

theorem Run.lastbit (h : Run s) : reservedPortNum ≤ s.lastbit := by
  refine Reached.inv (P := fun s : Ports => reservedPortNum ≤ s.lastbit)
    (fun s hs => Nat.le_of_eq hs.symm) (fun s ev s' hs _ hstep => ?_) h
  cases ev with
  | alloc =>
    rw [← Option.some.inj hstep]
    unfold portAlloc
    split
    · exact hs
    · next k _ =>
      have hidx := (idx_bounds hs k).1
      dsimp only
      unfold reservedPortNum at *
      split
      · exact Nat.le_refl _
      · omega
  | use port =>
    rw [← Option.some.inj hstep]
    unfold portUse
    split
    · exact hs
    · exact hs
  | free port =>
    rw [apply, portFree] at hstep
    split at hstep
    · rw [← Option.some.inj hstep]
      exact hs
    · cases hstep

/-- In every state of every run, a call of `inet_port_alloc` does what it
owes exactly when the first word it looks at is not full. -/
theorem port_alloc_sound_iff (h : Run s) : s.Sound ↔ s.Open := sound_iff (Run.lastbit h)

/-- The next word has a port in use. -/
theorem port_alloc_sound_next : ∃ s, Run s ∧ s.bits 1056 ∧ s.portAlloc.1 = 1057 ∧ s.Sound := by
  obtain ⟨s, hplay, hused, hport, hclear⟩ : ∃ s, play apply (fun _ _ => True)
      ⟨fun _ => false, 1024⟩ [.alloc, .use 1056] = some s ∧ s.bits 1056 ∧ s.portAlloc.1 = 1057 ∧
      s.bits (s.idx 0 * 32 + 1) = false := by decide +kernel
  have hrun : Run s := .play (.first rfl) hplay
  exact ⟨s, hrun, hused, hport, (port_alloc_sound_iff hrun).2 ⟨1, by decide, hclear⟩⟩

/-- The 32 ports from 1024 on are in use: 1056 is returned, and another
one is marked. -/
theorem port_alloc_marks_other : ∃ s, Run s ∧ s.portAlloc.1 = 1056
    ∧ s.portAlloc.2.bits 1056 = false ∧ ¬ s.Sound := by
  obtain ⟨s, hplay, hport, hfree⟩ : ∃ s, play apply (fun _ _ => True) ⟨fun _ => false, 1024⟩
      ((List.range 32).map fun i => .use (BitVec.ofNat 16 (1024 + i))) = some s ∧
      s.portAlloc.1 = 1056 ∧ s.portAlloc.2.bits 1056 = false := by decide +kernel
  refine ⟨s, .play (.first rfl) hplay, hport, hfree, fun hsound => ?_⟩
  obtain ⟨port, hport', -, -, -, hmarks⟩ := hsound.marks (by rw [hport]; decide)
  obtain rfl : port = 1056 := by omega
  rw [hmarks, update_self] at hfree
  cases hfree

end Ports

end Cnix.Net
