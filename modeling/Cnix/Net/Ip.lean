/-
Fragments of IP datagrams put together again: `cons_ip_dgram` of
`net/ip.c` and what it calls.

The fragments of one datagram hang in a ring through `skb->list`, sorted
by offset and without a head node of their own: the first one stands for
all of them. It is what the hash table of `net/common.c` finds. The queue
of `ip_frag_node_t` remembers when the first fragment came in, and names
the `skbuff` that came in then.

The ring is a ring of pointers here, because `insert_packet` edits it
while it walks along it, frees one of its members and looks at it again,
and puts a new first member before the old one with `list_add_tail` of the
old one alone. An `skbuff` is a number below the number `n` of all of
them. Reading the header of one that was freed is a fault.

Left out are the timer that gives up after 30 seconds, and the `skbuff`
that a queue node lies in. The header of an `skbuff` is a field of its own
in the order of the host. The lists of the hash table and the queue are
plain lists.
-/
import Cnix.Basic
import Cnix.Lib.Links

namespace Cnix.Net

open Lib

/-- `iphdr_t`, in the order of the host. -/
structure IpHdr where
  version : Nat
  ihl : Nat
  totLen : Nat
  id : Nat
  fragOff : Nat
  ttl : Nat
  protocol : Nat
  saddr : Nat
  daddr : Nat
  deriving DecidableEq, Repr

namespace IpHdr

variable (ip : IpHdr)

/-- `IP_MORE`, and one more than `FRAG_MASK`. -/
def ipMore : Nat := 2 ^ 13

/-- `OFFSET(ip)`. -/
def offset : Nat := ip.fragOff % ipMore * 8

/-- `ip->frag_off & IP_MORE`. -/
def more : Bool := ip.fragOff / ipMore % 2 = 1

/-- `ip->ihl << 2`. -/
def hdrLen : Nat := ip.ihl * 4

/-- `ip->tot_len - (ip->ihl << 2)`. -/
def dataLen : Int := (ip.totLen : Int) - ip.hdrLen

/-- Two fragments are of one datagram. -/
def Same (ip₁ ip₂ : IpHdr) : Prop :=
  ip₁.daddr = ip₂.daddr ∧ ip₁.saddr = ip₂.saddr ∧ ip₁.id = ip₂.id

instance (ip₁ ip₂ : IpHdr) : Decidable (Same ip₁ ip₂) := inferInstanceAs (Decidable (_ ∧ _))

/-- `hash_fn`, up to the number of lists. -/
def hash : Nat := (ip.saddr * 8 + ip.daddr * 4 + ip.id) % 2 ^ 32 % 127

end IpHdr

/-- `skbuff_t`, without its links and flags. -/
structure Skbuff where
  ip : IpHdr
  data : Nat → Byte
  dataPtr : Nat
  dlen : Nat
  dgramLen : Int

/-- Why a call does not return: a `PANIC`, the header of a freed `skbuff`
is read, or a ring has no end. -/
inductive Fault
  | die (site : Site)
  | freed
  | endless
  deriving DecidableEq, Repr

/-- `ip_frag_node_t`. -/
structure FragNode (n : Nat) where
  skb : Fin n
  time : Nat
  deriving DecidableEq

/-- The `skbuff`s, the hash table, the queue and `ip_timer_active`. -/
structure FragTable (n : Nat) where
  skb : Fin n → Skbuff
  live : Fin n → Bool
  list : Links (Fin n)
  hash : Nat → List (Fin n)
  queue : List (FragNode n)
  timer : Bool

namespace FragTable

variable {n : Nat} (t : FragTable n)

/-- No fragment has come in. -/
def empty (n : Nat) : FragTable n where
  skb := fun _ => ⟨⟨0, 0, 0, 0, 0, 0, 0, 0, 0⟩, fun _ => 0, 0, 0, 0⟩
  live := fun _ => false
  list := ⟨fun p => p, fun p => p⟩
  hash := fun _ => []
  queue := []
  timer := false

-- ======== skbuffs

/-- `SK_TO_IP_HDR`. -/
def ip (p : Fin n) : Except Fault IpHdr :=
  if t.live p then .ok (t.skb p).ip else .error .freed

/-- `list_init(&skb->list)`. -/
def initList (p : Fin n) : FragTable n := { t with list := (t.list.setNext p p).setPrev p p }

/-- `list_del1(&skb->list)`. -/
def delList (p : Fin n) : FragTable n := ({ t with list := t.list.unlink p }).initList p

/-- `skb_free`. -/
def skbFree (p : Fin n) : FragTable n :=
  { t.initList p with live := Function.update t.live p false }

def setSkb (p : Fin n) (s : Skbuff) : FragTable n := { t with skb := Function.update t.skb p s }

/-- A frame has come in as `p`. -/
def receive (p : Fin n) (s : Skbuff) : FragTable n :=
  { (t.setSkb p s).initList p with live := Function.update t.live p true }

-- ======== the hash table

/-- The loop of `get_ip_hash_entry`. -/
def hashFind (ip : IpHdr) : List (Fin n) → Except Fault (Option (Fin n))
  | [] => .ok none
  | q :: qs => do
    let ipq ← t.ip q
    if ip.Same ipq then return some q else hashFind ip qs

/-- `get_ip_hash_entry`. -/
def getIpHashEntry (ip : IpHdr) : Except Fault (Option (Fin n)) := t.hashFind ip (t.hash ip.hash)

/-- `add_ip_hash_entry`, for an `skbuff` with this header. -/
def addIpHashEntry (ip : IpHdr) (p : Fin n) : FragTable n :=
  { t with hash := Function.update t.hash ip.hash (p :: t.hash ip.hash) }

/-- `list_del1(&skb->pkt_list)`. -/
def delHash (p : Fin n) : FragTable n := { t with hash := fun b => (t.hash b).erase p }

-- ======== the queue

/-- `add_to_frag_queue` from the second turn on, `t1` being the node that
was looked at. -/
def queueAfter (node : FragNode n) : FragNode n → List (FragNode n) → List (FragNode n)
  | t1, [] => [t1, node]
  | t1, t2 :: rest =>
    if t1.time ≤ node.time ∧ t2.time ≤ node.time then t1 :: node :: t2 :: rest
    else t1 :: queueAfter node t2 rest

/-- `add_to_frag_queue`. -/
def addToFragQueue (node : FragNode n) : List (FragNode n) → List (FragNode n)
  | [] => [node]
  | t1 :: rest => if node.time < t1.time then node :: t1 :: rest else queueAfter node t1 rest

/-- The loop of `del_from_frag_queue`, and `list_del1`. -/
def queueDel (ip : IpHdr) : List (FragNode n) → Except Fault (List (FragNode n))
  | [] => .error (.die .delFromFragQueue)
  | t1 :: rest => do
    let ip1 ← t.ip t1.skb
    if ip1.Same ip then return rest
    else return t1 :: (← queueDel ip rest)

/-- `del_from_frag_queue`. -/
def delFromFragQueue (p : Fin n) : Except Fault (FragTable n) := do
  let ip ← t.ip p
  let queue ← t.queueDel ip t.queue
  return { t with queue, timer := t.timer && !queue.isEmpty }

-- ======== insert_packet

/-- `check_continous`. -/
def checkContinous (p next : Fin n) : Except Fault Bool := do
  let ip ← t.ip p
  let ipNext ← t.ip next
  return (ip.offset : Int) + ip.dataLen ≤ ipNext.offset

/-- How the loop of `insert_packet` ends: with a `return`, or with a place
to insert at. -/
inductive Spot (n : Nat)
  | head (p : Fin n)
  | after (tmp : Fin n)

/-- The loop of `insert_packet`, at most `fuel` turns. -/
def insertLoop (head p : Fin n) (offset : Nat) :
    Nat → Fin n → FragTable n → Except Fault (FragTable n × Spot n)
  | 0, _, _ => .error .endless
  | fuel + 1, tmp, t => do
    let pos := t.list.next tmp
    let ip1 ← t.ip tmp
    if offset = ip1.offset then
      -- the duplicate goes, and the loop is left
      return ((t.delList tmp).skbFree tmp, .after tmp)
    else if tmp = head ∧ offset < ip1.offset then
      if ← t.checkContinous p head then
        let t := t.initList p
        return ({ t with list := t.list.insertTail p head }, .head p)
      else return (t.skbFree p, .head head)
    else if pos ≠ head then
      let ip2 ← t.ip pos
      if ip1.offset < offset ∧ offset < ip2.offset then return (t, .after tmp)
      else insertLoop head p offset fuel pos t
    else return (t, .after tmp)

/-- `insert_packet`. `list_insert` does the writes of `list_add_head`. -/
def insertPacket (head p : Fin n) : Except Fault (FragTable n × Fin n) := do
  let ip ← t.ip p
  let (t, spot) ← insertLoop head p ip.offset n head t
  match spot with
  | .head h => return (t, h)
  | .after tmp =>
    if ← t.checkContinous tmp p then return ({ t with list := t.list.insertHead tmp p }, head)
    else return (t.skbFree p, head)

-- ======== have_all_packet

/-- The loop of `have_all_packet`, at most `fuel` turns. -/
def haveLoop (head : Fin n) : Nat → Fin n → Int → Except Fault Bool
  | 0, _, _ => .error .endless
  | fuel + 1, tmp, index => do
    let ip ← t.ip tmp
    let pos := t.list.next tmp
    let index := index + ip.dataLen
    if pos ≠ head then
      let ip1 ← t.ip pos
      if index ≠ ip1.offset then return false else haveLoop head fuel pos index
    else return !ip.more

/-- `have_all_packet`. -/
def haveAllPacket (head : Fin n) : Except Fault Bool := do
  let ip ← t.ip head
  if ip.offset ≠ 0 then return false else t.haveLoop head n head 0

-- ======== trim_packets_header

/-- What `trim_packets_header` does to a fragment that is not the first. -/
def trimmed (s : Skbuff) : Skbuff :=
  { s with
    dlen := s.dataPtr + s.ip.totLen
    dataPtr := s.dataPtr + s.ip.hdrLen
    dgramLen := s.ip.dataLen }

/-- Its loop, at most `fuel` turns. -/
def trimLoop (head : Fin n) : Nat → Fin n → Int → FragTable n → Except Fault (FragTable n × Int)
  | 0, _, _, _ => .error .endless
  | fuel + 1, pos, size, t =>
    if pos = head then .ok (t, size)
    else do
      let ip ← t.ip pos
      trimLoop head fuel (t.list.next pos) (size + ip.dataLen) (t.setSkb pos (trimmed (t.skb pos)))

/-- `trim_packets_header`. -/
def trimPacketsHeader (head : Fin n) : Except Fault (FragTable n) := do
  let (t, size) ← trimLoop head n (t.list.next head) 0 t
  let ip ← t.ip head
  let s := t.skb head
  let size := size + ip.totLen
  return t.setSkb head { s with
    dlen := s.dataPtr + ip.totLen
    dgramLen := size
    ip := { ip with totLen := (size % 2 ^ 16).toNat } }

-- ======== cons_ip_dgram

/-- `cons_ip_dgram`, at the time `now`: the first `skbuff` of a datagram
that is complete. -/
def consIpDgram (now : Nat) (p : Fin n) : Except Fault (FragTable n × Option (Fin n)) := do
  let ip ← t.ip p
  match ← t.getIpHashEntry ip with
  | none =>
    let t := { t with queue := addToFragQueue ⟨p, now⟩ t.queue, timer := true }
    return (t.addIpHashEntry ip p, none)
  | some head =>
    let (t, tmp) ← t.insertPacket head p
    let ip ← t.ip tmp
    let t := if tmp ≠ head then (t.delHash head).addIpHashEntry ip tmp else t
    if ← t.haveAllPacket tmp then
      let t ← t.delFromFragQueue tmp
      let t ← (t.delHash tmp).trimPacketsHeader tmp
      return (t, some tmp)
    else return (t, none)

end FragTable

end Cnix.Net
