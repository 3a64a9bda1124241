/-
The order of the queue of fragments, and which nodes are given up.

`check_frag_queue` stops at the first node that is young, so it finds all
the old ones only in a queue that is sorted by time. `add_to_frag_queue`
means to keep it sorted, but puts the new node behind the first two
neighbours that are both not younger, where it should lie between them. In
a sorted queue of two or more, the place is right for a node that is older
than all, or as old as the second (`sorted_add_iff`).
-/
import Cnix.Lib.Runs
import Cnix.Net.Proofs.FragChain

namespace Cnix.Net.FragTable

open Lib

variable {n : Nat} {node a b : FragNode n} {q rest : List (FragNode n)} {cur : Nat}

/-- `IP_FRAG_TIMEOUT`, in ticks. -/
def ipFragTimeout : Nat := 30 * 100

/-- The loop of `check_frag_queue` at the tick `cur`: the nodes that are
removed, and those that are left. -/
def checkFragQueue (cur : Nat) : List (FragNode n) → List (FragNode n) × List (FragNode n)
  | [] => ([], [])
  | t1 :: rest =>
    if (t1.time + ipFragTimeout) % 2 ^ 32 ≤ cur then
      (t1 :: (checkFragQueue cur rest).1, (checkFragQueue cur rest).2)
    else ([], t1 :: rest)

inductive QueueEvent (n : Nat)
  | add (node : FragNode n)
  | check (cur : Nat)

def QueueEvent.apply (q : List (FragNode n)) : QueueEvent n → Option (List (FragNode n))
  | .add node => some (addToFragQueue node q)
  | .check cur => some (checkFragQueue cur q).2

-- ======== the statement

def Sorted (q : List (FragNode n)) : Prop := q.Pairwise (·.time ≤ ·.time)

/-- The time of the node is up at the tick `cur`. -/
def Expired (cur : Nat) (node : FragNode n) : Prop := node.time + ipFragTimeout ≤ cur

instance : DecidablePred (Expired cur : FragNode n → Prop) :=
  fun node => inferInstanceAs (Decidable (node.time + ipFragTimeout ≤ cur))

/-- What is asked of the queue. -/
structure OnTime (q : List (FragNode n)) : Prop where
  sorted : Sorted q
  expiry : ∀ cur < 2 ^ 32,
    checkFragQueue cur q = (q.filter (Expired cur ·), q.filter (¬ Expired cur ·))

/-- The new node finds its place. -/
def Placed (q : List (FragNode n)) (node : FragNode n) : Prop :=
  ∀ a b rest, q = a :: b :: rest → node.time < a.time ∨ node.time = b.time

/-- New nodes find their place, and the ticks do not wrap around before
their time is up. -/
def QueueEvent.Placed (q : List (FragNode n)) : QueueEvent n → Prop
  | .add node => FragTable.Placed q node ∧ node.time + ipFragTimeout < 2 ^ 32
  | .check _ => True

-- ======== adding

theorem sorted_cons : Sorted (a :: q) ↔ (∀ b ∈ q, a.time ≤ b.time) ∧ Sorted q := List.pairwise_cons

/-- A node behind one that is younger. -/
theorem not_sorted_queueAfter (hlt : node.time < a.time) : ¬ Sorted (queueAfter node a rest) := by
  intro h
  cases rest with
  | nil => exact Nat.not_le.mpr hlt ((sorted_cons.mp h).1 node List.mem_cons_self)
  | cons b rest =>
    rw [queueAfter, if_neg (fun hc => Nat.not_le.mpr hlt hc.1)] at h
    obtain ⟨c1, c2, -, hq⟩ := queueAfter_perm node b rest
    exact Nat.not_le.mpr hlt ((sorted_cons.mp h).1 node (by simp [hq]))

/-- Where the queue stays sorted. -/
theorem sorted_add_iff (h : Sorted q) (node : FragNode n) :
    Sorted (addToFragQueue node q) ↔ Placed q node := by
  match q with
  | [] => exact iff_of_true (List.pairwise_singleton ..) nofun
  | [a] =>
    refine iff_of_true ?_ nofun
    rw [addToFragQueue]
    split
    · exact sorted_cons.mpr ⟨by simp; omega, h⟩
    · exact sorted_cons.mpr ⟨by simp; omega, List.pairwise_singleton ..⟩
  | a :: b :: rest =>
    obtain ⟨hfirst, htail⟩ := sorted_cons.mp h
    have hab := hfirst b List.mem_cons_self
    have hplaced : Placed (a :: b :: rest) node ↔ node.time < a.time ∨ node.time = b.time :=
      ⟨fun hp => hp a b rest rfl, fun hp _ _ _ he => by cases he; exact hp⟩
    rw [hplaced, addToFragQueue]
    split
    · next hlt => exact iff_of_true (sorted_cons.mpr ⟨by grind, h⟩) (.inl hlt)
    next hle =>
    rw [queueAfter]
    split
    · -- behind the first, which is right only before the second
      next hc =>
      constructor
      · intro hs
        have hbetween := (sorted_cons.mp (sorted_cons.mp hs).2).1 b List.mem_cons_self
        omega
      · intro hp
        have hafter := (sorted_cons.mp htail).1
        exact sorted_cons.mpr ⟨by grind, sorted_cons.mpr ⟨by grind, htail⟩⟩
    · next hc =>
      refine iff_of_false (fun hs => ?_) (by omega)
      exact not_sorted_queueAfter (by omega) (sorted_cons.mp hs).2

-- ======== the runs

/-- In a sorted queue the loop stops behind the last node whose time is
up. -/
theorem checkFragQueue_eq (h : Sorted q) (hwrap : ∀ a ∈ q, a.time + ipFragTimeout < 2 ^ 32) :
    checkFragQueue cur q = (q.filter (Expired cur ·), q.filter (¬ Expired cur ·)) := by
  induction q with
  | nil => rfl
  | cons a q ih =>
    obtain ⟨hfirst, htail⟩ := sorted_cons.mp h
    rw [checkFragQueue, Nat.mod_eq_of_lt (hwrap a List.mem_cons_self)]
    by_cases ha : Expired cur a
    · rw [if_pos (show a.time + ipFragTimeout ≤ cur from ha),
        ih htail fun b hb => hwrap b (List.mem_cons_of_mem _ hb)]
      simp [ha]
    · have hyoung (b : FragNode n) (hb : b ∈ a :: q) : ¬ Expired cur b := by
        unfold Expired at ha ⊢
        rcases List.mem_cons.mp hb with rfl | hb
        · exact ha
        · have hle := hfirst b hb
          omega
      rw [if_neg (show ¬ a.time + ipFragTimeout ≤ cur from ha), Prod.mk.injEq]
      exact ⟨(List.filter_eq_nil_iff.mpr (by simpa using hyoung)).symm,
        (List.filter_eq_self.mpr (by simpa using hyoung)).symm⟩

/-- In every run in which new nodes find their place, the queue is sorted
and nodes are given up when their time is up; and a new node keeps the
queue sorted only where it finds its place. -/
theorem frag_queue_on_time (h : Reached (· = []) QueueEvent.apply QueueEvent.Placed q) :
    OnTime q ∧ ∀ node, Sorted (addToFragQueue node q) ↔ Placed q node := by
  have hinv : Sorted q ∧ ∀ a ∈ q, a.time + ipFragTimeout < 2 ^ 32 := by
    refine Reached.inv (P := fun q => Sorted q ∧ ∀ a ∈ q, a.time + ipFragTimeout < 2 ^ 32) ?_
      (fun q e q' hq hok hstep => ?_) h
    · rintro _ rfl
      exact ⟨List.Pairwise.nil, by simp⟩
    · cases e with
      | add node =>
        cases hstep
        refine ⟨(sorted_add_iff hq.1 node).mpr hok.1, fun a ha => ?_⟩
        obtain ⟨c1, c2, rfl, hadd⟩ := addToFragQueue_perm node q
        rw [hadd] at ha
        grind [hq.2, hok.2]
      | check cur =>
        cases hstep
        rw [checkFragQueue_eq hq.1 hq.2]
        exact ⟨hq.1.filter _, fun a ha => hq.2 a (List.mem_of_mem_filter ha)⟩
  exact ⟨⟨hinv.1, fun _ _ => checkFragQueue_eq hinv.1 hinv.2⟩, sorted_add_iff hinv.1⟩

def nodeAt (time : Nat) : FragNode 1 := ⟨Fin.last 0, time⟩

theorem frag_queue_on_time_two : OnTime [nodeAt 1, nodeAt 2] := by
  have h0 : Reached (· = []) QueueEvent.apply QueueEvent.Placed ([] : List (FragNode 1)) := .first rfl
  have h1 := h0.step (QueueEvent.add (nodeAt 1)) ⟨nofun, by decide⟩ rfl
  have h2 := h1.step (QueueEvent.add (nodeAt 2)) ⟨nofun, by decide⟩ rfl
  exact (frag_queue_on_time h2).1

/-- The third node goes before the second, which is not given up in time
then. -/
theorem frag_queue_unsorted : ∃ q : List (FragNode 1),
    Reached (· = []) QueueEvent.apply (fun _ _ => True) q ∧ ¬ Sorted q ∧
      (checkFragQueue 3002 q).2 = [nodeAt 3, nodeAt 2] := by
  have h0 : Reached (· = []) QueueEvent.apply (fun _ _ => True) ([] : List (FragNode 1)) := .first rfl
  have h1 := h0.step (QueueEvent.add (nodeAt 1)) trivial rfl
  have h2 := h1.step (QueueEvent.add (nodeAt 2)) trivial rfl
  have h3 := h2.step (QueueEvent.add (nodeAt 3)) trivial rfl
  exact ⟨[nodeAt 1, nodeAt 3, nodeAt 2], h3, fun h => by simp [Sorted, nodeAt] at h, by decide⟩

end Cnix.Net.FragTable
