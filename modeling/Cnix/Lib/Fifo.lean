/-
A queue in a circular buffer, as the two ends see it.

The buffer is read as an endless one: cell `i` is cell `i % cap`. Then the
queue is a run of consecutive cells, and what goes on at the end of the
buffer is said once (`unroll_run`). `Carries` relates the cells to
everything that ever went in and came out, with one rule for each end.
-/
import Mathlib.Data.List.Basic
import Mathlib.Tactic.Common

namespace Cnix.Lib

variable {α : Type*} {buf buf' : Nat → α} {cap r n : Nat} {ins outs : List α}

-- ======== runs of cells

/-- The `n` cells from `r` on. -/
def cells (buf : Nat → α) (r n : Nat) : List α := (List.range n).map fun k => buf (r + k)

@[simp] theorem cells_length (buf : Nat → α) (r n : Nat) : (cells buf r n).length = n := by
  simp [cells]

@[simp] theorem cells_zero (buf : Nat → α) (r : Nat) : cells buf r 0 = [] := rfl

theorem cells_add (buf : Nat → α) (r m n : Nat) :
    cells buf r (m + n) = cells buf r m ++ cells buf (r + m) n := by
  unfold cells
  rw [List.range_add, List.map_append, List.map_map]
  refine congrArg _ (List.map_congr_left fun k _ => ?_)
  rw [Function.comp_apply, Nat.add_assoc]

theorem cells_congr {r' : Nat} (h : ∀ k < n, buf (r + k) = buf' (r' + k)) : cells buf r n = cells buf' r' n :=
  List.map_congr_left fun k hk => h k (List.mem_range.mp hk)

theorem cells_getElem (buf : Nat → α) (r n k : Nat) (hk : k < (cells buf r n).length) :
    (cells buf r n)[k] = buf (r + k) := by
  simp [cells]

theorem cells_take {k : Nat} (hk : k ≤ n) : (cells buf r n).take k = cells buf r k := by
  obtain ⟨m, rfl⟩ := Nat.exists_eq_add_of_le hk
  rw [cells_add]
  exact List.take_left' (cells_length ..)

theorem cells_drop {k : Nat} (hk : k ≤ n) : (cells buf r n).drop k = cells buf (r + k) (n - k) := by
  obtain ⟨m, rfl⟩ := Nat.exists_eq_add_of_le hk
  rw [cells_add, Nat.add_sub_cancel_left]
  exact List.drop_left' (cells_length ..)

/-- The circular buffer as an endless one. -/
def unroll (buf : Nat → α) (cap : Nat) : Nat → α := fun i => buf (i % cap)

theorem unroll_mod (buf : Nat → α) (cap r n : Nat) :
    cells (unroll buf cap) (r % cap) n = cells (unroll buf cap) r n :=
  cells_congr fun _ _ => congrArg buf (Nat.mod_add_mod ..)

/-- Up to the end of the buffer nothing is circular. -/
theorem unroll_run (h : r + n ≤ cap) : cells (unroll buf cap) r n = cells buf r n :=
  cells_congr fun k hk => congrArg buf (Nat.mod_eq_of_lt (by omega))

theorem unroll_congr {r' : Nat} (h : r % cap = r' % cap) :
    cells (unroll buf cap) r n = cells (unroll buf cap) r' n := by
  rw [← unroll_mod, h, unroll_mod]

-- ======== the queue

/-- The queue is the `n` cells from `r` on: what went in and has not come
out. -/
structure Carries (buf : Nat → α) (cap r n : Nat) (ins outs : List α) : Prop where
  room : n ≤ cap
  flow : ins = outs ++ cells (unroll buf cap) r n

theorem Carries.start (buf : Nat → α) (cap r : Nat) : Carries buf cap r 0 [] [] :=
  ⟨Nat.zero_le _, rfl⟩

theorem Carries.isPrefix (h : Carries buf cap r n ins outs) : outs <+: ins :=
  ⟨_, h.flow.symm⟩

theorem Carries.length_eq (h : Carries buf cap r n ins outs) : ins.length = outs.length + n := by
  rw [h.flow, List.length_append, cells_length]

/-- Cells are taken out in front. -/
theorem Carries.take (h : Carries buf cap r n ins outs) {k : Nat} (hk : k ≤ n) (hrun : r + k ≤ cap) :
    Carries buf cap ((r + k) % cap) (n - k) ins (outs ++ cells buf r k) := by
  refine ⟨Nat.le_trans (Nat.sub_le ..) h.room, ?_⟩
  calc ins = outs ++ cells (unroll buf cap) r (k + (n - k)) := by rw [Nat.add_sub_cancel' hk, ← h.flow]
    _ = outs ++ (cells (unroll buf cap) r k ++ cells (unroll buf cap) (r + k) (n - k)) := by rw [cells_add]
    _ = outs ++ cells buf r k ++ cells (unroll buf cap) ((r + k) % cap) (n - k) := by
        rw [unroll_run hrun, unroll_mod, List.append_assoc]

/-- Two cells less than a round apart are different ones. -/
theorem mod_add_ne {i j : Nat} (hij : i < j) (hj : j < i + cap) : i % cap ≠ j % cap := by
  intro he
  have hd : cap ∣ j - i := Nat.dvd_of_mod_eq_zero (Nat.sub_mod_eq_zero_of_mod_eq he.symm)
  have := Nat.le_of_dvd (by omega) hd
  omega

/-- Cells are filled behind the last one. -/
theorem Carries.put (h : Carries buf cap r n ins outs) {w : Nat} {src : List α} (hw : (r + n) % cap = w)
    (hrun : w + src.length ≤ cap) (hroom : n + src.length ≤ cap)
    (hnew : cells buf' w src.length = src)
    (hold : ∀ i, ¬ (w ≤ i ∧ i < w + src.length) → buf' i = buf i) :
    Carries buf' cap r (n + src.length) (ins ++ src) outs := by
  refine ⟨hroom, ?_⟩
  -- the cells that are filled are not in the queue
  have hkept : cells (unroll buf' cap) r n = cells (unroll buf cap) r n := by
    refine cells_congr fun k hk => hold _ fun ⟨hlow, hhigh⟩ => ?_
    obtain ⟨j, hj⟩ := Nat.exists_eq_add_of_le hlow
    refine @mod_add_ne cap (r + k) (r + n + j) (by omega) (by omega) ?_
    rw [hj, ← hw, Nat.add_mod (r + n) j]
    have hjlt : j < cap := by omega
    rw [Nat.mod_eq_of_lt hjlt, hw, Nat.mod_eq_of_lt (by omega)]
  have hput : cells (unroll buf' cap) (r + n) src.length = src := by
    rw [← unroll_mod, hw, unroll_run hrun, hnew]
  rw [cells_add, hkept, hput, ← List.append_assoc, ← h.flow]

end Cnix.Lib
