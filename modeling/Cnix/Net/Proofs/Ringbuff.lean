/-
The byte ring refines a bounded queue: its abstraction is the list of
bytes in it (`contents`), `copy_to_ring` appends as many bytes as fit,
and `copy_from_ring` copies from an offset and, with `del`, drops from
the front. `ring_refines_queue` says so of every run of the operations.

The ring is the queue of `Cnix.Lib.Fifo` that ends at `head` (`carries`),
so that a copy that goes around the end is two runs of cells.
-/
import Cnix.Net.Ringbuff

namespace Cnix.Net.RingBuffer

open Lib

variable {r : RingBuffer} {src : List Byte} {len off : Nat}

/-- The bytes in the ring, oldest first. -/
def contents (r : RingBuffer) : List Byte :=
  (List.range r.count).map fun i => r.data ((r.head + r.size - r.count + i) % r.size)

@[simp] theorem contents_length (r : RingBuffer) : r.contents.length = r.count := by
  simp [contents]

theorem contents_eq (r : RingBuffer) :
    r.contents = cells (unroll r.data r.size) (r.head + r.size - r.count) r.count := rfl

theorem carries (r : RingBuffer) :
    Carries r.data r.size (r.head + r.size - r.count) r.count r.contents [] :=
  ⟨r.count_le, rfl⟩

/-- A queue that ends at `head` is that of the ring. -/
theorem contents_of_carries {p : Nat} {ins : List Byte}
    (h : Carries r.data r.size p r.count ins []) (hend : (p + r.count) % r.size = r.head) :
    r.contents = ins := by
  have hc := r.count_le
  have hstart : (r.head + r.size - r.count) % r.size = p % r.size := by
    refine Nat.ModEq.add_right_cancel' r.count ?_
    rw [Nat.sub_add_cancel (by omega), ← hend]
    exact (Nat.add_mod_right ..).trans (Nat.mod_mod ..)
  exact (unroll_congr hstart).trans h.flow.symm

/-- A run of bytes is put behind those that are there. -/
theorem put_run {data : Nat → Byte} {cap p n w : Nat} {ins : List Byte}
    (h : Carries data cap p n ins []) (src : List Byte) (hw : (p + n) % cap = w)
    (hrun : w + src.length ≤ cap) (hroom : n + src.length ≤ cap) :
    Carries (memcpy data w src) cap p (n + src.length) (ins ++ src) [] :=
  h.put hw hrun hroom (cells_memcpy ..) fun _ hout => if_neg hout

/-- The buffer after `copy_to_ring`: one run of bytes, or two. -/
theorem put_wrapped {d : Nat} (hd : d ≤ src.length) (hroom : d ≤ r.size - r.count) :
    Carries (if d ≤ r.size - r.head then memcpy r.data r.head (src.take d)
      else memcpy (memcpy r.data r.head (src.take (r.size - r.head))) 0
        ((src.drop (r.size - r.head)).take (d - (r.size - r.head))))
      r.size (r.head + r.size - r.count) (r.count + d) (r.contents ++ src.take d) [] := by
  have hh := r.head_lt
  have hc := r.count_le
  have hlen {k : Nat} (hk : k ≤ src.length) : (src.take k).length = k :=
    List.length_take_of_le hk
  have hw : (r.head + r.size - r.count + r.count) % r.size = r.head := by
    rw [Nat.sub_add_cancel (by omega), Nat.add_mod_right, Nat.mod_eq_of_lt hh]
  split
  · next hfit =>
    have hput := put_run r.carries (src.take d) hw (by rw [hlen hd]; omega) (by rw [hlen hd]; omega)
    rwa [hlen hd] at hput
  · next hfit =>
    -- to the end of the buffer, and on from its start
    obtain ⟨m, rfl⟩ := Nat.exists_eq_add_of_le (show r.size - r.head ≤ d by omega)
    have hfirst := hlen (show r.size - r.head ≤ src.length by omega)
    have hrest : ((src.drop (r.size - r.head)).take m).length = m := by
      refine List.length_take_of_le ?_
      rw [List.length_drop]
      omega
    have hput := put_run r.carries (src.take (r.size - r.head)) hw (by omega) (by omega)
    rw [hfirst] at hput
    have hput2 := put_run hput ((src.drop (r.size - r.head)).take m)
      (by rw [show r.head + r.size - r.count + (r.count + (r.size - r.head)) = r.size + r.size by
        omega, Nat.add_mod_right, Nat.mod_self]) (by omega) (by omega)
    rw [hrest, List.append_assoc, ← List.take_add, Nat.add_assoc] at hput2
    rw [Nat.add_sub_cancel_left]
    exact hput2

/-- `copy_to_ring` appends the bytes that fit. -/
theorem copyToRing_contents (src : List Byte) (r : RingBuffer) :
    (r.copyToRing src).1.contents = r.contents ++ src.take (r.size - r.count)
      ∧ (r.copyToRing src).2 = min src.length (r.size - r.count)
      ∧ (r.copyToRing src).1.size = r.size
      ∧ (r.copyToRing src).1.count = r.count + min src.length (r.size - r.count) := by
  unfold copyToRing
  split
  next hfull =>
    have hz : r.size - r.count = 0 := by omega
    simp [hz]
  next hroom =>
    refine ⟨?_, rfl, rfl, rfl⟩
    have htake : src.take (r.size - r.count)
        = src.take (min src.length (r.size - r.count)) := by
      rw [List.take_eq_take_iff]
      omega
    rw [htake]
    refine contents_of_carries (put_wrapped (Nat.min_le_left ..) (Nat.min_le_right ..)) ?_
    have hc := r.count_le
    rw [show r.head + r.size - r.count + (r.count + min src.length (r.size - r.count))
      = r.head + min src.length (r.size - r.count) + r.size by omega, Nat.add_mod_right]

/-- Taking bytes off the count takes them off the front. -/
theorem dropCount_contents (r : RingBuffer) (n : Nat) :
    (r.dropCount n).contents = r.contents.drop n := by
  have hc := r.count_le
  by_cases hn : n ≤ r.count
  · rw [contents_eq r, cells_drop hn, contents_eq,
      show r.head + r.size - r.count + n = r.head + r.size - (r.count - n) by omega]
    rfl
  · rw [List.drop_of_length_le (by rw [contents_length]; omega)]
    refine List.eq_nil_of_length_eq_zero ?_
    rw [contents_length]
    exact Nat.sub_eq_zero_of_le (by omega)

/-- The two halves of a wrapped read are one run of the queue. -/
theorem memread_wrap {idx size : Nat} (data : Nat → Byte) (hidx : idx < size)
    (hlen : len ≤ size) :
    (if len ≤ size - idx then memread data idx len
      else memread data idx (size - idx) ++ memread data 0 (len - (size - idx)))
      = cells (unroll data size) idx len := by
  simp only [memread_eq_cells]
  split
  · exact (unroll_run (by omega)).symm
  · obtain ⟨m, hm⟩ := Nat.exists_eq_add_of_le (show size - idx ≤ len by omega)
    have hend : cells (unroll data size) (idx + (size - idx)) m = cells (unroll data size) 0 m :=
      unroll_congr (by rw [Nat.add_sub_cancel' hidx.le, Nat.mod_self, Nat.zero_mod])
    rw [hm, Nat.add_sub_cancel_left, cells_add, hend, unroll_run (by omega), unroll_run (by omega)]

/-- `copy_from_ring` of bytes that are there copies them, and with `del`
takes the first ones off. -/
theorem copyFromRing_contents (del : Bool)
    (hlen : off + len ≤ r.count) (hoff : off < r.count) :
    r.copyFromRing len off del = .ok ((r.contents.drop off).take len,
      if del then r.dropCount len else r) := by
  have hh := r.head_lt
  have hc := r.count_le
  have hrun : (r.contents.drop off).take len
      = cells (unroll r.data r.size) (r.head + r.size - r.count + off) len := by
    rw [contents_eq, cells_drop (by omega), cells_take (by omega)]
  unfold copyFromRing
  rw [if_neg (by omega), if_neg (by omega), Nat.min_eq_left (by omega)]
  refine congrArg Except.ok (Prod.ext ?_ rfl)
  rw [hrun]
  dsimp only
  split
  · rw [memread_wrap _ (by omega) (by omega)]
    exact unroll_congr (by rw [show r.head + off + r.size - r.count
      = r.head + r.size - r.count + off by omega])
  · -- the read position has come around once
    rw [memread_wrap _ (by omega) (by omega)]
    refine unroll_congr ?_
    rw [show r.head + r.size - r.count + off = r.head + off - r.count + r.size by omega,
      Nat.add_mod_right]

/-- Reading up to `n` bytes off the ring. -/
theorem copyFromRing_front (r : RingBuffer) (n : Nat) :
    ∃ r', r.copyFromRing n 0 true = .ok (r.contents.take n, r')
      ∧ r'.contents = r.contents.drop n ∧ r'.size = r.size ∧ r'.count = r.count - n := by
  have hlen := r.contents_length
  by_cases hz : r.count = 0
  · have hnil : r.contents = [] := List.eq_nil_of_length_eq_zero (by omega)
    refine ⟨r, ?_, ?_, rfl, by omega⟩
    · unfold copyFromRing
      rw [if_pos hz, hnil, List.take_nil]
    · rw [hnil, List.drop_nil]
  · by_cases hn : n ≤ r.count
    · refine ⟨r.dropCount n, ?_, dropCount_contents r n, rfl, rfl⟩
      rw [copyFromRing_contents true (by omega) (by omega), List.drop_zero]
      rfl
    · -- a request for more than there is gives all there is
      have hmin : r.copyFromRing n 0 true = r.copyFromRing r.count 0 true := by
        unfold copyFromRing
        rw [Nat.min_eq_right (by omega), Nat.min_self]
      refine ⟨r.dropCount r.count, ?_, ?_, rfl, ?_⟩
      · rw [hmin, copyFromRing_contents true (by omega) (by omega), List.drop_zero,
          List.take_of_length_le (by omega), List.take_of_length_le (by omega)]
        rfl
      · rw [dropCount_contents, List.drop_of_length_le (by omega),
          List.drop_of_length_le (by omega)]
      · show r.count - r.count = _
        omega

-- ======== runs

/-- What is done with a ring: bytes are put in, taken out or looked at, or
the count is lowered, as for bytes that were acknowledged. -/
inductive Op
  | put (src : List Byte)
  | take (len : Nat)
  | peek (len off : Nat)
  | drop (n : Nat)

/-- An operation on the ring: the bytes copied out, the number copied in,
and the ring. -/
def Op.apply (r : RingBuffer) : Op → Except Trap ((List Byte × Nat) × RingBuffer)
  | .put src => .ok (([], (r.copyToRing src).2), (r.copyToRing src).1)
  | .take len => (r.copyFromRing len 0 true).map fun (bytes, r) => ((bytes, 0), r)
  | .peek len off => (r.copyFromRing len off false).map fun (bytes, r) => ((bytes, 0), r)
  | .drop n => .ok (([], 0), r.dropCount n)

/-- The operation on a queue of at most `size` bytes. -/
def Op.queue (size : Nat) (q : List Byte) : Op → (List Byte × Nat) × List Byte
  | .put src => (([], min src.length (size - q.length)), q ++ src.take (size - q.length))
  | .take len => ((q.take len, 0), q.drop len)
  | .peek len off => (((q.drop off).take len, 0), q)
  | .drop n => (([], 0), q.drop n)

/-- No byte is looked at or dropped that is not there. -/
def Op.Within (q : List Byte) : Op → Prop
  | .peek len off => off + len ≤ q.length ∧ off < q.length
  | .drop n => n ≤ q.length
  | _ => True

def runRing (r : RingBuffer) : List Op → Except Trap (List (List Byte × Nat) × RingBuffer)
  | [] => .ok ([], r)
  | op :: ops => do
    let (res, r) ← op.apply r
    let (rest, r) ← runRing r ops
    .ok (res :: rest, r)

def runQueue (size : Nat) (q : List Byte) : List Op → List (List Byte × Nat) × List Byte
  | [] => ([], q)
  | op :: ops =>
      let rest := runQueue size (op.queue size q).2 ops
      ((op.queue size q).1 :: rest.1, rest.2)

def AllWithin (size : Nat) (q : List Byte) : List Op → Prop
  | [] => True
  | op :: ops => op.Within q ∧ AllWithin size (op.queue size q).2 ops

theorem Op.apply_refines (op : Op) (h : op.Within r.contents) :
    ∃ r', op.apply r = .ok ((op.queue r.size r.contents).1, r') ∧
      r'.contents = (op.queue r.size r.contents).2 ∧ r'.size = r.size := by
  cases op with
  | put src =>
    obtain ⟨hcont, hn, hsize, -⟩ := r.copyToRing_contents src
    exact ⟨_, by simp [Op.apply, Op.queue, hn], by simpa [Op.queue] using hcont, hsize⟩
  | take len =>
    obtain ⟨r', hcopy, hcont, hsize, -⟩ := r.copyFromRing_front len
    exact ⟨r', by simp [Op.apply, Op.queue, hcopy, Except.map], hcont, hsize⟩
  | peek len off =>
    have hcopy := copyFromRing_contents (r := r) false (by simpa using h.1) (by simpa using h.2)
    exact ⟨r, by simp [Op.apply, Op.queue, hcopy, Except.map], rfl, rfl⟩
  | drop n => exact ⟨_, rfl, dropCount_contents r n, rfl⟩

/-- In every run a ring gives what a bounded queue gives, and holds what
the queue holds. -/
theorem ring_refines_queue (ops : List Op) (r : RingBuffer) (h : AllWithin r.size r.contents ops) :
    ∃ r', runRing r ops = .ok ((runQueue r.size r.contents ops).1, r') ∧
      r'.contents = (runQueue r.size r.contents ops).2 ∧ r'.size = r.size := by
  induction ops generalizing r with
  | nil => exact ⟨r, rfl, rfl, rfl⟩
  | cons op ops ih =>
    obtain ⟨r1, happly, hcont, hsize⟩ := op.apply_refines h.1
    obtain ⟨r', hrun, hcont', hsize'⟩ := ih r1 (by rw [hcont, hsize]; exact h.2)
    rw [hcont, hsize] at hrun hcont'
    refine ⟨r', ?_, hcont', hsize'.trans hsize⟩
    simp [runRing, runQueue, happly, hrun, bind, Except.bind]

theorem ring_refines_queue_wrapped :
    ∃ r', runRing (initRing 2 (fun _ => 0) (by decide)) [.put [1, 2, 3], .drop 1, .put [4], .peek 1 1]
      = .ok ([([], 2), ([], 0), ([], 1), ([4], 0)], r') :=
  (ring_refines_queue [.put [1, 2, 3], .drop 1, .put [4], .peek 1 1]
    (initRing 2 (fun _ => 0) (by decide))
    ⟨trivial, (by decide : 1 ≤ 2), trivial, ⟨(by decide : 2 ≤ 2), (by decide : 1 < 2)⟩, trivial⟩).imp fun _ h => h.1

end Cnix.Net.RingBuffer
