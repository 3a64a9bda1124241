/-
The overlap test of `kernel/mmap.c`.

A mapping takes whole pages, from that of its first byte to that of its
last, and so does a new segment. `mmap_check_addr` rounds the bounds of
the mapping and not those of the range. This is enough: a range from
below reaches a page of the mapping with the first byte of the first one,
and a range from behind that byte begins in a page of the mapping or
touches none.
-/
import Cnix.Basic

namespace Cnix.Kernel

/-- The bounds of a mapping. -/
structure Mapping where
  start : Nat
  stop : Nat

/-- `mmap_check_addr`, with sums of 32 bits; none for its `DIE`. -/
def mmapCheckAddr (mmap : List Mapping) (addr memsz : Nat) : Option Bool :=
  if memsz = 0 then none
  else some (mmap.all fun m =>
    let start := pageMask m.start
    let stop := pageMask ((m.stop + pageSize - 1) % 2 ^ 32)
    if addr < start then decide ((addr + memsz) % 2 ^ 32 ≤ start)
    else if start < addr then decide (stop ≤ addr)
    else false)

/-- One of the bytes from `start` on and below `stop` is in the page. -/
def Touches (start stop page : Nat) : Prop := ∃ b, start ≤ b ∧ b < stop ∧ mapNr b = page

theorem clear_iff {a b c d : Nat} (hab : a < b) (hcd : c < d) :
    (∀ page, Touches a b page → ¬ Touches c d page)
      ↔ mapNr (b - 1) < mapNr c ∨ mapNr (d - 1) < mapNr a := by
  unfold Touches mapNr pageSize pageShift
  constructor
  · intro h
    by_contra hnot
    refine h (max (a / 2 ^ 12) (c / 2 ^ 12)) ⟨max a (c / 2 ^ 12 * 2 ^ 12), ?_⟩
      ⟨max c (a / 2 ^ 12 * 2 ^ 12), ?_⟩
    · omega
    · omega
  · rintro h page ⟨x, hx⟩ ⟨y, hy⟩
    omega

/-- The test says whether a range that does not wrap is clear of every
mapping. -/
theorem mmapCheckAddr_iff {mmap : List Mapping} {addr memsz : Nat} (hpos : 0 < memsz)
    (hmmap : ∀ m ∈ mmap, m.start < m.stop ∧ m.stop ≤ 0xF0000000) (hwrap : addr + memsz < 2 ^ 32) :
    mmapCheckAddr mmap addr memsz = some true ↔
      ∀ m ∈ mmap, ∀ page, Touches addr (addr + memsz) page → ¬ Touches m.start m.stop page := by
  unfold mmapCheckAddr
  rw [if_neg (by omega), Option.some.injEq, List.all_eq_true]
  refine forall₂_congr fun m hm => ?_
  obtain ⟨hne, htop⟩ := hmmap m hm
  rw [clear_iff (by omega) hne]
  unfold pageMask mapNr pageSize pageShift
  dsimp only
  split
  · rw [decide_eq_true_eq]
    omega
  · split
    · rw [decide_eq_true_eq]
      omega
    · simp only [Bool.false_eq_true, false_iff]
      omega

/-- The page behind that of a mapping. -/
theorem mmapCheckAddr_next : mmapCheckAddr [⟨0x8048010, 0x8048020⟩] 0x8049000 1 = some true
    ∧ ∀ m ∈ [Mapping.mk 0x8048010 0x8048020], ∀ page, Touches 0x8049000 (0x8049000 + 1) page →
      ¬ Touches m.start m.stop page := by
  have hnext : mmapCheckAddr [⟨0x8048010, 0x8048020⟩] 0x8049000 1 = some true := by decide
  exact ⟨hnext, (mmapCheckAddr_iff (by decide) (by simp) (by decide)).1 hnext⟩

end Cnix.Kernel
