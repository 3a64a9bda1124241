/-
The byte rings of `net/ringbuff.c`.

A ring carries what `init_ring` and the copy functions keep: the write
position lies in the buffer and no more bytes are counted than fit. The
rings of size 0 that a listening socket gets are never copied to or
from and are not modelled.
-/
import Cnix.Basic

namespace Cnix.Net

/-- `ring_buffer_t`. -/
structure RingBuffer where
  data : Nat → Byte
  head : Nat
  count : Nat
  size : Nat
  head_lt : head < size
  count_le : count ≤ size

namespace RingBuffer

/-- `init_ring`, for a size that is not 0. -/
def initRing (size : Nat) (data : Nat → Byte) (hs : 0 < size) : RingBuffer where
  data := data
  head := 0
  count := 0
  size := size
  head_lt := hs
  count_le := Nat.zero_le _

/-- `copy_to_ring`: the ring and the number of bytes copied. -/
def copyToRing (src : List Byte) (r : RingBuffer) : RingBuffer × Nat :=
  if h : r.size ≤ r.count then (r, 0)
  else
    let dataLen := min src.length (r.size - r.count)
    let len := r.size - r.head
    let data :=
      if dataLen ≤ len then memcpy r.data r.head (src.take dataLen)
      else memcpy (memcpy r.data r.head (src.take len)) 0
        ((src.drop len).take (dataLen - len))
    ({ r with
        data := data
        head := (r.head + dataLen) % r.size
        count := r.count + dataLen
        head_lt := Nat.mod_lt _ (Nat.lt_of_le_of_lt (Nat.zero_le _) r.head_lt)
        count_le := by
          have hle : dataLen ≤ r.size - r.count := Nat.min_le_right _ _
          omega }, dataLen)

/-- `ring->count -= n`. -/
def dropCount (r : RingBuffer) (n : Nat) : RingBuffer :=
  { r with
    count := r.count - n
    count_le := Nat.le_trans (Nat.sub_le _ _) r.count_le }

/-- `copy_from_ring`: the bytes copied, and the ring. -/
def copyFromRing (r : RingBuffer) (dataLen off : Nat) (del : Bool) :
    Except Trap (List Byte × RingBuffer) :=
  if r.count = 0 then .ok ([], r)
  else if r.count ≤ off then .error (.die .copyFromRing)
  else
    let dataLen := min dataLen r.count
    let idx := if r.head + off < r.count then r.head + off + r.size - r.count
      else r.head + off - r.count
    let len := r.size - idx
    let dest :=
      if dataLen ≤ len then memread r.data idx dataLen
      else memread r.data idx len ++ memread r.data 0 (dataLen - len)
    .ok (dest, if del then r.dropCount dataLen else r)

/-- `ring_is_empty`. -/
def ringIsEmpty (r : RingBuffer) : Bool := r.count = 0

/-- `ring_is_avail`. -/
def ringIsAvail (r : RingBuffer) : Bool := r.count < r.size

end RingBuffer

end Cnix.Net
