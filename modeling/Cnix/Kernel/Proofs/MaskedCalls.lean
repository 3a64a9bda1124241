/-
The mask of the bottom halves over connections, and over all the calls
that take it.

`tcp_write` gives back the `MSG` flags unless it returns an error: of a
call that comes to its end nothing but its flags decides whether the mask
is the same. `tcp_sendmsg` makes one such call for each buffer, and the
last that comes to its end decides, since only the flags of the last
buffer differ from those of the others.
-/
import Cnix.Kernel.Proofs.Mask

namespace Cnix.Net.Lock

open Cnix.Lib Cnix.Kernel

variable {turns : Nat} {buffer : List Byte} {flags : BitVec 32}

-- ======== connections

theorem waitResponse_keeps (rflag : Bool) : Keeps (waitResponse rflag) := by
  refine keeps_lockAll fun flags => Gives.after fun serv => ?_
  split
  · exact gives_unlockAll.bind fun _ => keeps_pure _
  · exact Gives.after fun _ => Gives.after fun _ => gives_unlockAll.bind fun _ => keeps_pure _

theorem startIfFull_keeps : Keeps startIfFull :=
  keeps_lockAll fun _ => Gives.after fun _ => Gives.after fun _ => gives_unlockAll

theorem tcpWriteEnd_gives : Gives flags (tcpWriteEnd flags) :=
  Gives.after fun _ => Gives.after fun _ => Gives.after fun _ => gives_unlockAll

/-- A round that takes nothing gives back the `MSG` flags. -/
theorem writeRound_keeps (k : Kern Conn) :
    wp (writeRound flags buffer) (fun writing k' => writing ≠ 0 → k'.bMask = k.bMask)
      (fun _ => True) k := by
  refine (lockAll_saves k).seq fun bflags k1 hflags => ?_
  subst hflags
  refine (wp_true theServ k1).seq fun serv k2 _ => ?_
  dsimp only
  split
  · exact (wp_true _ k2).seq fun _ _ _ hne => absurd rfl hne
  · have hrest : Gives k.bMask (do
        setServ (serv.tcpWrite buffer (flags &&& msgOob ≠ 0)).1
        unlockAllBottom k.bMask
        startIfFull
        return (serv.tcpWrite buffer (flags &&& msgOob ≠ 0)).2) :=
      Gives.after fun _ => gives_unlockAll.bind fun _ => startIfFull_keeps.bind fun _ => keeps_pure _
    exact (hrest k2).mono (fun _ _ h _ => h) fun _ => id

/-- `tcp_write` comes to its last statement. -/
def Ends (flags : BitVec 32) (k : Kern Conn) : Prop := ∃ k', tcpWriteEnd flags k = .ok ((), k')

/-- The loop of `tcp_write` is left, but not by an error, and the call
comes to its end. -/
def Through (flags : BitVec 32) : Nat → List Byte → Kern Conn → Prop
  | 0, _, _ => False
  | turns + 1, buffer, k =>
    if buffer = [] then Ends flags k
    else
      match waitResponse false k with
      | .error _ => False
      | .ok (ret, k) =>
        if ret < 0 then False
        else if ret = 0 ∨ flags &&& msgDontwait ≠ 0 then Ends flags k
        else
          match writeRound flags buffer k with
          | .error _ => False
          | .ok (writing, k) =>
            if writing = 0 then Ends flags k
            else Through flags turns (buffer.drop writing) k

/-- An error leaves the mask alone; otherwise what is behind the loop
decides. -/
theorem tcpWriteLoop_spec (flags : BitVec 32) (turns : Nat) (buffer : List Byte) (writed : Nat)
    (k : Kern Conn) :
    wp (tcpWriteLoop flags turns buffer writed)
      (fun r k' => match r with
        | .error ret => ¬ Through flags turns buffer k ∧ k'.bMask = k.bMask ∧ ret < 0
        | .ok _ => Through flags turns buffer k ↔ Ends flags k')
      (fun _ => ¬ Through flags turns buffer k) k := by
  induction turns generalizing buffer writed k with
  | zero => exact id
  | succ turns ih =>
    unfold tcpWriteLoop Through
    by_cases hbuf : buffer = []
    · simp only [if_pos hbuf]
      exact Iff.rfl
    · simp only [if_neg hbuf]
      cases hwait : waitResponse false k with
      | error halt =>
        rw [wp_bind_error hwait]
        exact id
      | ok r =>
        obtain ⟨ret, k1⟩ := r
        have hmask : k1.bMask = k.bMask := (waitResponse_keeps false).returns hwait
        rw [wp_bind_ok hwait]
        by_cases hneg : ret < 0
        · simp only [if_pos hneg]
          exact ⟨id, hmask, hneg⟩
        · simp only [if_neg hneg]
          by_cases hleave : ret = 0 ∨ flags &&& msgDontwait ≠ 0
          · simp only [if_pos hleave]
            exact Iff.rfl
          · simp only [if_neg hleave]
            cases hround : writeRound flags buffer k1 with
            | error halt =>
              rw [wp_bind_error hround]
              exact id
            | ok r =>
              obtain ⟨writing, k2⟩ := r
              rw [wp_bind_ok hround]
              by_cases hzero : writing = 0
              · simp only [if_pos hzero]
                exact Iff.rfl
              · simp only [if_neg hzero]
                have hmask2 : k2.bMask = k1.bMask :=
                  (writeRound_keeps k1).returns hround hzero
                rw [← hmask, ← hmask2]
                exact ih _ _ k2

/-- `tcp_write` has a connection, and comes to its end. -/
def GetsThrough (turns : Nat) (buffer : List Byte) (flags : BitVec 32) (k : Kern Conn) : Prop :=
  k.world.tserv ≠ none ∧ Through flags turns buffer k

/-- A call that comes to its end gives back the `MSG` flags, another one
that returns has an error and leaves the mask alone. -/
theorem tcpWrite_spec (turns : Nat) (buffer : List Byte) (flags : BitVec 32) (k : Kern Conn) :
    wp (tcpWrite turns buffer flags)
      (fun ret k' => (GetsThrough turns buffer flags k → k'.bMask = flags ∧ 0 ≤ ret)
        ∧ (¬ GetsThrough turns buffer flags k → k'.bMask = k.bMask ∧ ret < 0))
      (fun _ => ¬ GetsThrough turns buffer flags k) k := by
  have hworld : (world : KM Conn Conn) k = .ok (k.world, k) := rfl
  unfold tcpWrite GetsThrough
  rw [wp_bind_ok hworld]
  cases hserv : k.world.tserv with
  | none =>
    have herr : -enotconn < 0 := by decide
    exact ⟨fun h => absurd rfl h.1, fun _ => ⟨rfl, herr⟩⟩
  | some serv =>
    have hsome : some serv ≠ none := by simp
    simp only [hsome, ne_eq, not_false_eq_true, true_and]
    have hloop := tcpWriteLoop_spec flags turns buffer 0 k
    cases hrun : tcpWriteLoop flags turns buffer 0 k with
    | error halt =>
      rw [wp_bind_error hrun]
      exact hloop.stops hrun
    | ok r =>
      obtain ⟨ret, k1⟩ := r
      have hret := hloop.returns hrun
      rw [wp_bind_ok hrun]
      cases ret with
      | error ret => exact ⟨fun h => absurd h hret.1, fun _ => hret.2⟩
      | ok writed =>
        dsimp only at hret ⊢
        rw [hret]
        cases hend : tcpWriteEnd flags k1 with
        | error halt =>
          rw [wp_bind_error hend]
          rintro ⟨k', hk'⟩
          rw [hend] at hk'
          cases hk'
        | ok r =>
          rw [wp_bind_ok hend]
          have hgiven : r.2.bMask = flags := (tcpWriteEnd_gives k1).returns hend
          exact ⟨fun _ => ⟨hgiven, Int.natCast_nonneg _⟩, fun h => absurd ⟨r.2, hend⟩ h⟩

/-- `tcp_write` keeps the mask exactly if it does not come to its end, or
was called with the mask for its flags. -/
theorem tcpWrite_keeps_iff (k : Kern Conn) : EndsWith k.bMask (tcpWrite turns buffer flags) k
      ↔ k.bMask = flags ∨ ¬ GetsThrough turns buffer flags k := by
  have hspec := tcpWrite_spec turns buffer flags k
  constructor
  · intro hkeeps
    by_contra hno
    obtain ⟨hne, hthrough⟩ := not_or.mp hno
    rw [not_not] at hthrough
    cases hrun : tcpWrite turns buffer flags k with
    | error halt => exact hspec.stops hrun hthrough
    | ok r => exact hne (by rw [← hkeeps r.1 r.2 hrun, ((hspec.returns hrun).1 hthrough).1])
  · intro hor ret k' hrun
    by_cases hthrough : GetsThrough turns buffer flags k
    · rw [((hspec.returns hrun).1 hthrough).1]
      exact (hor.resolve_right (not_not.mpr hthrough)).symm
    · exact ((hspec.returns hrun).2 hthrough).1

/-- The last `tcp_write` of a `tcp_sendmsg` that comes to its end has the
mask for its flags; `given` is that of the last one before `i`, and the
mask of the call before the first. -/
def SendsBack (turns : Nat) (iov : Nat → Option (List Byte)) (flags mask : BitVec 32) :
    Nat → Nat → BitVec 32 → Kern Conn → Prop
  | 0, _, given, _ => given = mask
  | left + 1, i, given, k =>
    match iov i with
    | none => given = mask
    | some buffer =>
      match tcpWrite turns buffer (sendFlags flags left) k with
      | .error _ => True
      | .ok (ret, k') =>
        (GetsThrough turns buffer (sendFlags flags left) k →
          if ret = 0 then sendFlags flags left = mask
          else SendsBack turns iov flags mask left (i + 1) (sendFlags flags left) k')
        ∧ (¬ GetsThrough turns buffer (sendFlags flags left) k → given = mask)

theorem sendmsgLoop_ends_iff {iov : Nat → Option (List Byte)} {mask : BitVec 32}
    {left i total : Nat} (k : Kern Conn) :
    EndsWith mask (sendmsgLoop turns iov flags left i total) k
      ↔ SendsBack turns iov flags mask left i k.bMask k := by
  induction left generalizing i total k with
  | zero => exact endsWith_pure
  | succ left ih =>
    unfold SendsBack sendmsgLoop
    cases hiov : iov i with
    | none => exact endsWith_pure
    | some buffer =>
      dsimp only
      cases hrun : tcpWrite turns buffer (sendFlags flags left) k with
      | error halt => exact iff_of_true (endsWith_error hrun) trivial
      | ok r =>
        obtain ⟨ret, k1⟩ := r
        obtain ⟨hthrough, herror⟩ := (tcpWrite_spec _ _ _ k).returns hrun
        rw [endsWith_bind hrun]
        by_cases hget : GetsThrough turns buffer (sendFlags flags left) k
        · obtain ⟨hmask, hpos⟩ := hthrough hget
          simp only [hget, not_true_eq_false, false_implies, and_true, true_implies,
            if_neg (Int.not_lt.mpr hpos)]
          rw [← hmask]
          split
          · exact endsWith_pure
          · exact ih k1
        · obtain ⟨hmask, hneg⟩ := herror hget
          simp only [hget, not_false_eq_true, false_implies, true_and, true_implies, if_pos hneg]
          rw [← hmask]
          exact endsWith_pure

end Cnix.Net.Lock

namespace Cnix.Kernel

open Cnix.Lib
open Cnix.Fs.Lock (Cache)
open Cnix.Net.Lock (Conn)

variable {n : Nat} {W : Type} {mask : BitVec 32}

-- ======== the calls

/-- The call does not come to an end that gives back another mask. -/
def MaskedCall.Matched (mask : BitVec 32) : MaskedCall n → Prop
  | .cache (.invalBlock dev block) st =>
    mask ||| BottomT.ideB.bit = mask ∨ Fs.Lock.FindsBlock st.turns dev block (st.kern mask)
  | .conn (.tcpWrite buffer flags) st =>
    mask = flags ∨ ¬ Net.Lock.GetsThrough st.turns buffer flags (st.kern mask)
  | .conn (.tcpSendmsg message flags) st =>
    ∀ iov, message.iov = some iov → message.readable →
      Net.Lock.SendsBack st.turns iov flags mask message.iovlen.toNat 0 mask (st.kern mask)
  | _ => True

/-- Code that keeps the mask, as a call. -/
theorem maskAfter_iff {x : KM W Unit} {k : Kern W} :
    (∀ m, maskAfter x k = some m → m = mask) ↔ EndsWith mask x k := by
  unfold maskAfter EndsWith
  constructor
  · rintro h ⟨⟩ k' hrun
    refine h _ ?_
    rw [hrun]
  · intro h m hm
    split at hm
    · next k' hrun =>
      cases hm
      exact h _ _ hrun
    · cases hm

theorem Keeps.endsWith {x : KM W Unit} (hx : Keeps x) (k : Kern W) : EndsWith k.bMask x k :=
  fun _ _ hrun => hx.returns hrun

/-- The result of a call does not matter. -/
theorem endsWith_drop {α : Type} {x : KM W α} {k : Kern W} :
    EndsWith mask (do let _ ← x; return ()) k ↔ EndsWith mask x k := by
  cases hrun : x k with
  | error halt =>
    refine iff_of_true (endsWith_error hrun) fun a k' h => ?_
    rw [hrun] at h
    cases h
  | ok r =>
    rw [endsWith_bind hrun]
    refine endsWith_pure.trans ⟨fun h a k' hk => ?_, fun h => h r.1 r.2 hrun⟩
    rw [hrun] at hk
    cases hk
    exact h

theorem heap_keeps (call : HeapCall) (turns : Nat) : Keeps (call.run turns) := by
  cases call with
  | kmalloc size attr => exact (Mm.Lock.kmalloc_keeps size).bind fun _ => keeps_pure _
  | kfree p => exact Mm.Lock.kfree_keeps p

theorem sendmsg_ends_iff {message : Net.Lock.Msghdr} (k : Kern Conn) :
    EndsWith k.bMask (Net.Lock.tcpSendmsg turns message flags) k
      ↔ ∀ iov, message.iov = some iov → message.readable →
        Net.Lock.SendsBack turns iov flags k.bMask message.iovlen.toNat 0 k.bMask k := by
  unfold Net.Lock.tcpSendmsg
  cases hiov : message.iov with
  | none => exact iff_of_true (endsWith_pure.mpr rfl) nofun
  | some iov =>
    dsimp only
    split
    · next hneg =>
      refine iff_of_true (endsWith_pure.mpr rfl) fun iov' _ _ => ?_
      rw [Int.toNat_of_nonpos (Int.le_of_lt hneg)]
      rfl
    · split
      · next hread =>
        refine iff_of_true (endsWith_pure.mpr rfl) fun iov' _ h => ?_
        rw [h] at hread
        cases hread
      · next hread =>
        rw [Net.Lock.sendmsgLoop_ends_iff]
        refine ⟨fun h iov' hiov' _ => ?_, fun h => h iov rfl (by simpa using hread)⟩
        cases hiov'
        exact h

theorem cache_ends_iff (call : CacheCall n) (st : Start (Cache n)) (mask : BitVec 32) :
    EndsWith mask (call.run st.turns) (st.kern mask) ↔ (MaskedCall.cache call st).Matched mask := by
  cases call with
  | getblk dev block =>
    have hkeeps : Keeps (Fs.Lock.getblk (n := n) st.turns dev block) := Fs.Lock.getblk_keeps
    exact iff_of_true ((hkeeps.bind fun _ => keeps_pure _).endsWith _) trivial
  | bread dev block =>
    have hkeeps : Keeps (Fs.Lock.bread (n := n) st.turns dev block) := Fs.Lock.bread_keeps
    exact iff_of_true ((hkeeps.bind fun _ => keeps_pure _).endsWith _) trivial
  | bwrite b => exact iff_of_true (Fs.Lock.bwrite_keeps.endsWith _) trivial
  | brelse bh => exact iff_of_true ((Fs.Lock.brelse_keeps bh).endsWith _) trivial
  | bsync => exact iff_of_true (Fs.Lock.bsync_keeps.endsWith _) trivial
  | invalBlock dev block => exact Fs.Lock.invalBlock_keeps_iff _
  | invalDev dev => exact iff_of_true (Fs.Lock.invalDev_keeps.endsWith _) trivial

theorem conn_ends_iff (call : ConnCall) (st : Start Conn) (mask : BitVec 32) :
    EndsWith mask (call.run st.turns) (st.kern mask)
      ↔ (MaskedCall.conn call st : MaskedCall n).Matched mask := by
  cases call with
  | tcpWrite buffer flags => exact endsWith_drop.trans (Net.Lock.tcpWrite_keeps_iff _)
  | tcpSendmsg message flags => exact endsWith_drop.trans (sendmsg_ends_iff _)

theorem after_iff (mask : BitVec 32) (call : MaskedCall n) :
    (∀ m, call.after mask = some m → m = mask) ↔ call.Matched mask := by
  cases call with
  | cache call st => exact maskAfter_iff.trans (cache_ends_iff call st mask)
  | heap call st => exact maskAfter_iff.trans (iff_of_true ((heap_keeps call st.turns).endsWith _) trivial)
  | conn call st => exact maskAfter_iff.trans (conn_ends_iff call st mask)

/-- A call returns with the mask it was made with exactly if it does not
come to an end that gives back another one; so any number of such calls,
one after the other, leave the mask as it was. -/
theorem mask_discipline : (∀ (mask : BitVec 32) (call : MaskedCall n),
      (∀ m, call.after mask = some m → m = mask) ↔ call.Matched mask) ∧ ∀ (mask0 mask : BitVec 32),
      Reached (· = mask0) (fun mask call => call.after mask)
        (fun mask (call : MaskedCall n) => call.Matched mask) mask → mask = mask0 := by
  refine ⟨after_iff, fun mask0 mask hrun => ?_⟩
  refine hrun.inv (P := fun m => m = mask0) (fun _ h => h) fun m call m' hm hmatched hstep => ?_
  rw [(after_iff m call).mpr hmatched m' hstep, hm]

/-- A cache of one buffer, which is free. -/
def bootCache : Cache 1 where
  buf _ := ⟨Fs.nodev, 0, 0, 0, 0, 0⟩
  rel := ⟨id, id⟩
  relFree :=
    let links : Fs.Lock.Node 1 → Fs.Lock.Node 1
      | .hash i => .hash i
      | .free => .buf 0
      | .buf _ => .free
    ⟨links, links⟩
  reqFreelist := 1
  queue := []
  devInfo _ := none
  answer := .taken

/-- What a call that nobody disturbs starts from. -/
def quiet {W : Type} (w : W) : Start W := ⟨w, [], [], 3⟩

/-- The caller of `inval_block` has the disk masked already. -/
theorem mask_discipline_inval : (MaskedCall.cache (.invalBlock 1 5) (quiet bootCache)).Matched 0x2
      ∧ (MaskedCall.cache (.invalBlock 1 5) (quiet bootCache)).after 0x2 = some 0x2
      ∧ ∀ m, (MaskedCall.cache (.invalBlock 1 5) (quiet bootCache)).after 0x2 = some m → m = 0x2 := by
  have hmatched : (MaskedCall.cache (.invalBlock 1 5) (quiet bootCache)).Matched 0x2 :=
    .inl (by decide)
  exact ⟨hmatched, by decide +kernel, (mask_discipline.1 0x2 _).mpr hmatched⟩

/-- The block that `truncate` frees need not be in the cache, and then the
bottom half of the disk stays masked. A `send` of one byte with
`MSG_DONTWAIT` leaves that flag as the mask. -/
theorem mask_lost : (MaskedCall.cache (.invalBlock 1 5) (quiet bootCache)).after 0 = some 0x2
      ∧ (MaskedCall.conn (.tcpWrite [0] Net.Lock.msgDontwait)
          (quiet ⟨some (Net.establishedServ 0 0), false⟩) : MaskedCall 1).after 0 = some 0x40
      ∧ ¬ ∀ (mask : BitVec 32) (call : MaskedCall 1) (m : BitVec 32),
          call.after mask = some m → m = mask := by
  have hinval : (MaskedCall.cache (.invalBlock 1 5) (quiet bootCache)).after 0 = some 0x2 := by
    decide +kernel
  refine ⟨hinval, by decide +kernel, fun h => ?_⟩
  have hzero := h 0 _ _ hinval
  exact absurd hzero (by decide)

end Cnix.Kernel
