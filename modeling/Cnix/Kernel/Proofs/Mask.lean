/-
The mask of the bottom halves over the buffer cache and the heap.

Two notions carry everything. Code `Keeps` the mask if it returns with the
one it started with; code `Gives` a mask back if it returns with that one,
whatever it started with. Code that takes the mask and then gives back
what it has saved keeps it (`keeps_locked`), and it does not matter what
happens in between, sleeps and retries included. So each function needs
one look at its ends.

One end does not match. `inval_block` of a block that is not in the cache
gives nothing back.
-/
import Cnix.Kernel.MaskedCalls
import Cnix.Lib.Hoare

namespace Cnix.Kernel

open Cnix.Lib

variable {W α β : Type} {mask flags : BitVec 32} {x : KM W α} {f : α → KM W β} {a : α} {k : Kern W}

/-- Code that returns with the mask it started with. -/
def Keeps (x : KM W α) : Prop := Within (fun k k' => k'.bMask = k.bMask) x

/-- Code that returns with the given mask. -/
def Gives (mask : BitVec 32) (x : KM W α) : Prop :=
  ∀ k, wp x (fun _ k' => k'.bMask = mask) (fun _ => True) k

/-- If code returns from `k`, it does so with the given mask. -/
def EndsWith (mask : BitVec 32) (x : KM W α) (k : Kern W) : Prop :=
  ∀ a k', x k = .ok (a, k') → k'.bMask = mask

-- ======== the rules

theorem Keeps.bind (hx : Keeps x) (hf : ∀ a, Keeps (f a)) : Keeps (x >>= f) :=
  Within.bind (fun h1 h2 => h2.trans h1) hx hf

theorem keeps_pure (a : α) : Keeps (pure a : KM W α) := fun _ => rfl

theorem keeps_throw (halt : Halt) : Keeps (throw halt : KM W α) := fun _ => trivial

theorem keeps_world : Keeps (world : KM W W) := fun _ => rfl

theorem keeps_setWorld (w : W) : Keeps (setWorld w) := fun _ => rfl

theorem keeps_modifyWorld (g : W → W) : Keeps (modifyWorld g) := fun _ => rfl

theorem gives_throw (halt : Halt) : Gives mask (throw halt : KM W α) := fun _ => trivial

theorem endsWith_pure : EndsWith mask (pure a) k ↔ k.bMask = mask := by
  refine ⟨fun h => h _ _ rfl, ?_⟩
  rintro h _ _ hrun
  cases hrun
  exact h

theorem endsWith_bind {k1 : Kern W} (hx : x k = .ok (a, k1)) :
    EndsWith mask (x >>= f) k ↔ EndsWith mask (f a) k1 := by
  unfold EndsWith
  rw [run_bind hx]

theorem endsWith_error {halt : Halt} (hx : x k = .error halt) : EndsWith mask (x >>= f) k := by
  intro b k' hrun
  obtain ⟨a, k1, hok, -⟩ := run_bind_ok hrun
  rw [hx] at hok
  cases hok

/-- Only the end of the code counts. -/
theorem Gives.after (hf : ∀ a, Gives mask (f a)) : Gives mask (x >>= f) := by
  intro k
  exact (wp_true x k).seq fun a k' _ => hf a k'

/-- What keeps the mask may follow. -/
theorem Gives.bind (hx : Gives mask x) (hf : ∀ a, Keeps (f a)) : Gives mask (x >>= f) := by
  intro k
  refine (hx k).seq fun a k' hk => ?_
  exact (hf a k').mono (fun _ _ h => h.trans hk) fun _ => id

theorem keeps_bottomHalves : Keeps (bottomHalves : KM W Unit) := by
  refine within_modify fun k => ?_
  split
  · rfl
  · split <;> rfl

/-- Both ways to give a mask back. -/
theorem gives_restore : Gives mask (restoreBottomMask mask : KM W Unit) := by
  have hset : Gives mask (setMask mask : KM W Unit) := fun _ => rfl
  exact hset.bind fun _ => keeps_bottomHalves

theorem gives_unlock : Gives mask (unlockBottom mask : KM W Unit) := gives_restore

theorem gives_unlockAll : Gives mask (unlockAllBottom mask : KM W Unit) := gives_restore

/-- What a lock saves is the mask at entry: with anything between it and
the end, code that gives that back keeps the mask. -/
theorem keeps_locked {lock : KM W (BitVec 32)} {f : BitVec 32 → KM W β}
    (hlock : ∀ k, wp lock (fun flags _ => flags = k.bMask) (fun _ => True) k)
    (hf : ∀ flags, Gives flags (f flags)) : Keeps (lock >>= f) := by
  intro k
  refine (hlock k).seq fun flags k1 hflags => ?_
  subst hflags
  exact hf _ k1

/-- The two locks save the mask. -/
theorem lock_saves {g : BitVec 32 → BitVec 32} (k : Kern W) :
    wp (do
      bottomHalves
      let flags ← saveBottomMask
      setMask (g flags)
      return flags : KM W (BitVec 32)) (fun flags _ => flags = k.bMask) (fun _ => True) k := by
  refine (keeps_bottomHalves k).seq fun _ k1 h1 => ?_
  exact h1

theorem lockAll_saves (k : Kern W) :
    wp (lockAllBottom : KM W (BitVec 32)) (fun flags _ => flags = k.bMask) (fun _ => True) k :=
  lock_saves (g := fun _ => BitVec.allOnes 32) k

theorem keeps_lockbIde {f : BitVec 32 → KM W β} (hf : ∀ flags, Gives flags (f flags)) :
    Keeps (lockbIde >>= f) :=
  keeps_locked (fun k => lock_saves (g := fun flags => flags ||| BottomT.ideB.bit) k) hf

theorem lockbIde_run (k : Kern W) :
    ∃ k1, lockbIde k = .ok (k.bMask, k1) ∧ k1.bMask = k.bMask ||| BottomT.ideB.bit := by
  have hhalves : ∃ k1, bottomHalves k = .ok ((), k1) := ⟨_, rfl⟩
  obtain ⟨k1, h1⟩ := hhalves
  have hmask : k1.bMask = k.bMask := keeps_bottomHalves.returns h1
  refine ⟨{ k1 with bMask := k1.bMask ||| BottomT.ideB.bit }, ?_, by rw [hmask]⟩
  rw [← hmask]
  exact run_bind h1

theorem keeps_lockAll {f : BitVec 32 → KM W β} (hf : ∀ flags, Gives flags (f flags)) :
    Keeps (lockAllBottom >>= f) :=
  keeps_locked lockAll_saves hf

theorem keeps_sleepon : Keeps (sleepon : KM W Unit) := by
  refine keeps_lockAll fun bflags => ?_
  refine gives_unlockAll.bind fun _ => ?_
  have hsave : ∀ k, wp (saveBottomMask : KM W (BitVec 32)) (fun flags _ => flags = k.bMask)
      (fun _ => True) k := fun _ => rfl
  refine keeps_locked hsave fun saved => ?_
  exact Gives.after fun _ => Gives.after fun _ => gives_restore

theorem keeps_wakeup : Keeps (wakeup : KM W Unit) := keeps_lockAll fun _ => gives_unlockAll

end Cnix.Kernel

namespace Cnix.Fs.Lock

open Cnix.Lib Cnix.Kernel

variable {n turns : Nat} {dev : Dev} {block : Nat} {b : Fin n} {flags : BitVec 32}

-- ======== the buffer cache

theorem getReqLoop_gives : Gives flags (getReqLoop (n := n) flags turns) := by
  induction turns with
  | zero => exact gives_throw _
  | succ turns ih =>
    refine Gives.after fun c => ?_
    split
    · exact Gives.after fun _ => gives_unlock
    · exact Gives.after fun _ => ih

theorem getReq_keeps : Kernel.Keeps (getReq (n := n) turns) :=
  keeps_lockbIde fun _ => getReqLoop_gives

theorem finishCmd_keeps : Kernel.Keeps (finishCmd (n := n)) := by
  refine keeps_world.bind fun c => ?_
  split
  · exact keeps_pure _
  · exact (keeps_setWorld _).bind fun _ => keeps_pure _
  · exact keeps_throw _

theorem enqueue_keeps (req : Request n) : Kernel.Keeps (enqueue req) := by
  refine keeps_lockbIde fun flags => Gives.after fun c => Gives.after fun _ => ?_
  refine gives_unlock.bind fun _ => ?_
  split
  · exact keeps_pure _
  · exact finishCmd_keeps

theorem ideRwBlock_keeps (write : Bool) : Kernel.Keeps (ideRwBlock turns write b) := by
  refine keeps_world.bind fun c => ?_
  dsimp only
  split
  · exact keeps_throw _
  · split
    · exact keeps_throw _
    · exact getReq_keeps.bind fun _ => enqueue_keeps _

theorem iowait_keeps : Kernel.Keeps (iowait turns b) :=
  keeps_lockbIde fun _ => Gives.after fun _ => gives_unlock

theorem brelse_keeps (bh : Option (Fin n)) : Kernel.Keeps (brelse bh) := by
  cases bh with
  | none => exact keeps_pure _
  | some b =>
    refine keeps_world.bind fun c => ?_
    have hrest : Kernel.Keeps (do
        wakeup
        let flags ← lockbIde
        modifyWorld fun c =>
          let c := c.clear b (bWanted ||| bBusy ||| bAsy)
          { c with relFree := c.relFree.insertTail .free (.buf b) }
        unlockBottom flags : KM (Cache n) Unit) :=
      keeps_wakeup.bind fun _ => keeps_lockbIde fun _ => Gives.after fun _ => gives_unlock
    split
    · exact keeps_pure _
    · split
      · exact keeps_wakeup.bind fun _ => hrest
      · exact hrest

theorem bwrite_keeps : Kernel.Keeps (bwrite turns b) := by
  refine keeps_world.bind fun c => (keeps_setWorld _).bind fun _ => ?_
  refine (ideRwBlock_keeps true).bind fun _ => ?_
  split
  · exact iowait_keeps.bind fun _ => brelse_keeps _
  · exact keeps_pure _

theorem getblkLoop_gives : Gives flags (getblkLoop (n := n) dev block turns flags) := by
  induction turns generalizing flags with
  | zero => exact gives_throw _
  | succ turns ih =>
    refine Gives.after fun r => ?_
    cases r with
    | some b =>
      refine Gives.after fun c => ?_
      split
      · exact Gives.after fun _ => ih
      · exact Gives.after fun _ => gives_unlock.bind fun _ => keeps_pure _
    | none =>
      refine Gives.after fun c => ?_
      split
      · exact Gives.after fun _ => ih
      · split
        · refine Gives.after fun _ => ?_
          split
          · split
            · exact gives_throw _
            · -- the mask is given back and taken again
              refine Gives.after fun _ => gives_unlock.bind fun _ => ?_
              exact bwrite_keeps.bind fun _ => keeps_lockbIde fun _ => ih
          · exact Gives.after fun _ => gives_unlock.bind fun _ => keeps_pure _
        · exact gives_throw _

theorem getblk_keeps : Kernel.Keeps (getblk (n := n) turns dev block) :=
  keeps_lockbIde fun _ => getblkLoop_gives

theorem bread_keeps : Kernel.Keeps (bread (n := n) turns dev block) := by
  refine getblk_keeps.bind fun b => keeps_world.bind fun c => ?_
  have hrest : Kernel.Keeps (do
      let c ← world
      if c.has b bError then
        brelse (some b)
        return none
      else return some b : KM (Cache n) (Option (Fin n))) := by
    refine keeps_world.bind fun c => ?_
    split
    · exact (brelse_keeps _).bind fun _ => keeps_pure _
    · exact keeps_pure _
  split
  · exact keeps_pure _
  · refine (ideRwBlock_keeps false).bind fun r => ?_
    cases r with
    | true => exact iowait_keeps.bind fun _ => hrest
    | false => exact hrest

theorem bsyncLoop_gives : Gives flags (bsyncLoop b flags turns) := by
  induction turns with
  | zero => exact gives_throw _
  | succ turns ih =>
    refine Gives.after fun c => ?_
    split
    · split
      · exact Gives.after fun _ => ih
      · exact Gives.after fun _ => gives_unlock.bind fun _ => bwrite_keeps.bind fun _ => keeps_pure _
    · exact gives_unlock.bind fun _ => keeps_pure _

theorem bsyncList_keeps (i : Nat) (tmp pos : Node n) (again : Bool) :
    Kernel.Keeps (bsyncList i turns tmp pos again) := by
  induction turns generalizing tmp pos again with
  | zero => exact keeps_throw _
  | succ turns ih =>
    unfold bsyncList
    split
    · exact keeps_pure _
    · split
      · refine keeps_lockbIde fun flags => bsyncLoop_gives.bind fun wrote => ?_
        exact keeps_world.bind fun c => ih _ _ _
      · exact keeps_throw _

theorem bsyncFrom_keeps (rows : List Nat) (again : Bool) :
    Kernel.Keeps (bsyncFrom (n := n) turns rows again) := by
  induction rows generalizing again with
  | nil => exact keeps_pure _
  | cons i rest ih =>
    refine keeps_world.bind fun c => ?_
    exact (bsyncList_keeps i _ _ again).bind fun again => ih again

theorem bsync_keeps : Kernel.Keeps (bsync (n := n) turns) := by
  unfold bsync
  induction turns with
  | zero => exact keeps_throw _
  | succ turns ih =>
    unfold bsyncAgain
    generalize List.range nrHash = rows
    refine (bsyncFrom_keeps rows false).bind fun again => ?_
    cases again with
    | true => exact ih
    | false => exact keeps_pure _

theorem invalDev_keeps : Kernel.Keeps (invalDev (n := n) turns dev) :=
  keeps_lockbIde fun _ => Gives.after fun _ => Gives.after fun _ => gives_unlock

-- ======== inval_block

/-- Each time `inval_block` looks the block up, it finds it. -/
def StaysCached (dev : Dev) (block : Nat) : Nat → Kern (Cache n) → Prop
  | 0, _ => True
  | turns + 1, k =>
    match getblkFromHash turns dev block k with
    | .error _ => True
    | .ok (none, _) => False
    | .ok (some b, k) =>
      if k.world.has b bBusy ∨ 0 < (k.world.buf b).count then
        match want b k with
        | .error _ => True
        | .ok (_, k) => StaysCached dev block turns k
      else True

/-- The look-up only reads. -/
theorem getblkFromHash_same {r : Option (Fin n)} {k k' : Kern (Cache n)}
    (hrun : getblkFromHash turns dev block k = .ok (r, k')) : k' = k := by
  have hworld : (world : KM (Cache n) (Cache n)) k = .ok (k.world, k) := rfl
  unfold getblkFromHash at hrun
  rw [run_bind hworld] at hrun
  cases hfind : k.world.findInHash dev block turns (k.world.rel.next (Cache.hashfn dev block)) with
  | ok r' =>
    rw [hfind] at hrun
    cases hrun
    rfl
  | error halt =>
    rw [hfind] at hrun
    cases hrun

theorem want_keeps : Kernel.Keeps (want b) :=
  (keeps_modifyWorld _).bind fun _ => keeps_sleepon.bind fun _ => keeps_modifyWorld _

/-- The loop gives the mask back if it always finds the block; otherwise it
returns and leaves the mask as it is. -/
theorem invalBlockLoop_spec (dev : Dev) (block : Nat) (flags : BitVec 32) (turns : Nat)
    (k : Kern (Cache n)) : wp (invalBlockLoop dev block flags turns)
      (fun _ k' => (StaysCached dev block turns k → k'.bMask = flags)
        ∧ (¬ StaysCached dev block turns k → k'.bMask = k.bMask))
      (fun _ => StaysCached dev block turns k) k := by
  induction turns generalizing k with
  | zero => exact trivial
  | succ turns ih =>
    unfold StaysCached invalBlockLoop
    cases hlook : getblkFromHash turns dev block k with
    | error halt =>
      rw [wp_bind_error hlook]
      trivial
    | ok r =>
      obtain ⟨r, k1⟩ := r
      obtain rfl := getblkFromHash_same hlook
      rw [wp_bind_ok hlook]
      cases r with
      | none => exact ⟨fun h => h.elim, fun _ => rfl⟩
      | some b =>
        have hworld : (world : KM (Cache n) (Cache n)) k1 = .ok (k1.world, k1) := rfl
        rw [wp_bind_ok hworld]
        by_cases hbusy : k1.world.has b bBusy ∨ 0 < (k1.world.buf b).count
        · simp only [if_pos hbusy]
          cases hwant : want b k1 with
          | error halt =>
            rw [wp_bind_error hwant]
            trivial
          | ok r =>
            have hmask : r.2.bMask = k1.bMask := want_keeps.returns hwant
            rw [wp_bind_ok hwant, ← hmask]
            exact ih r.2
        · simp only [if_neg hbusy]
          split
          · trivial
          · refine (Gives.after (fun _ => gives_unlock) k1).mono (fun _ k' hk => ?_) fun _ => id
            exact ⟨fun _ => hk, fun h => absurd trivial h⟩

/-- Each time a call of `inval_block` looks the block up, it finds it. -/
def FindsBlock (turns : Nat) (dev : Dev) (block : Nat) (k : Kern (Cache n)) : Prop :=
  ∀ flags k₁, lockbIde k = .ok (flags, k₁) → StaysCached dev block turns k₁

/-- `inval_block` keeps the mask exactly if it finds the block each time,
or the bottom half of the disk was masked before. -/
theorem invalBlock_keeps_iff (k : Kern (Cache n)) : EndsWith k.bMask (invalBlock turns dev block) k
      ↔ k.bMask ||| BottomT.ideB.bit = k.bMask ∨ FindsBlock turns dev block k := by
  obtain ⟨k1, hlock, hmask⟩ := lockbIde_run k
  have hspec := invalBlockLoop_spec dev block k.bMask turns k1
  have hfinds : FindsBlock turns dev block k ↔ StaysCached dev block turns k1 := by
    refine ⟨fun h => h _ _ hlock, fun h flags k2 h2 => ?_⟩
    rw [hlock] at h2
    cases h2
    exact h
  unfold invalBlock
  rw [endsWith_bind hlock, hfinds]
  constructor
  · intro hkeeps
    by_contra hno
    obtain ⟨hbit, hnot⟩ := not_or.mp hno
    -- a look-up that fails ends the call, so there is a return
    cases hend : invalBlockLoop dev block k.bMask turns k1 with
    | error halt => exact hnot (hspec.stops hend)
    | ok r =>
      have hleft := (hspec.returns hend).2 hnot
      exact hbit (by rw [← hmask, ← hleft, hkeeps _ _ hend])
  · intro hor _ k' hend
    by_cases hstays : StaysCached dev block turns k1
    · exact (hspec.returns hend).1 hstays
    · rw [(hspec.returns hend).2 hstays, hmask]
      exact hor.resolve_right hstays

end Cnix.Fs.Lock

namespace Cnix.Mm.Lock

open Cnix.Lib Cnix.Kernel

variable {turns attr order : Nat} {flags : BitVec 32}

-- ======== the heap

theorem takeBlock_gives (pg : Nat) : Gives flags (takeBlock order pg flags) := by
  refine Gives.after fun h => ?_
  split
  · exact gives_throw _
  · exact Gives.after fun _ => gives_unlockAll.bind fun _ => keeps_pure _

theorem kmalloc_keeps (size : Int) : Keeps (kmalloc turns size attr) := by
  unfold kmalloc
  dsimp only
  split
  · exact keeps_pure _
  · refine keeps_lockAll fun flags => Gives.after fun h => ?_
    split
    · exact takeBlock_gives _
    · refine Gives.after fun addr => ?_
      split
      · exact gives_unlockAll.bind fun _ => keeps_pure _
      · exact Gives.after fun _ => takeBlock_gives _

theorem kfree_keeps (p : Nat) : Keeps (kfree p) := by
  refine keeps_lockAll fun flags => Gives.after fun _ => Gives.after fun h => ?_
  dsimp only
  split
  · exact Gives.after fun _ => Gives.after fun _ => Gives.after fun _ => gives_unlockAll
  · split
    · exact Gives.after fun _ => gives_unlockAll
    · exact gives_unlockAll

end Cnix.Mm.Lock
