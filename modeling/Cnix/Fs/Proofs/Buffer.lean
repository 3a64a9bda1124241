/-
Who a buffer belongs to while it is being transferred.

# What goes wrong

`iowait` waits for `B_DONE`, but `bwrite` does not clear this flag before
it starts the transfer. A buffer that was read, or that is to be written
late, has it. So a `bwrite` that should wait for the end of the transfer
does not: it releases the buffer at once, with the request still in the
queue, and the next `getblk` may give it to another block. A `bread` does
the same when the controller has refused its command `MAX_ERRS` times:
`finish_cmd` keeps the request.

# The invariant

`BufHolds`: a buffer is on the free list, or with the process that got it,
or with a process in a call, or on its way to the disk without one
(`B_ASY`). A request in the queue has its buffer for itself. As for the
inodes, most steps change one buffer, which the running process has in
hand (`InHand`), so that the others keep what they have.
-/
import Cnix.Fs.Buffer
import Mathlib.Data.List.Perm.Basic

namespace Cnix.Fs

open Function (update update_self update_of_ne update_eq_self)

variable {n : Nat} {t t' : BufCache n} {pid block : Nat} {dev : Dev} {b : Fin n} {want w : Bool}
  {pt : BufPoint n} {who : Nat → Prop} {req : Request n} {rest : List (Request n)}

-- ======== the property

/-- The buffer that a process waits for. -/
def BufPoint.waits : BufPoint n → Option (Fin n)
  | .iowait _ _ b | .written b => some b
  | _ => none

/-- A request has its buffer for itself: it is busy, not on the free list,
that of the block of the request, no other request names it, and who waits
for it has made this request. -/
structure BufCache.Owned (t : BufCache n) : Prop where
  busy : ∀ r ∈ t.queue, (t.buf r.buf).busy = true
  unlisted : ∀ r ∈ t.queue, r.buf ∉ t.bfreelist
  block : ∀ r ∈ t.queue, (t.buf r.buf).dev = r.dev ∧ (t.buf r.buf).blocknr = r.block
  alone : (t.queue.map Request.buf).Nodup
  waiter : ∀ r ∈ t.queue, ∀ q, (t.point q).waits = some r.buf → q = r.pid

/-- What is written without `B_ASY` has not `B_DONE` yet. -/
def BufCache.Unwritten (t : BufCache n) (b : Fin n) : Prop :=
  (t.buf b).dirty = true → (t.buf b).busy = false → (t.buf b).done = false

/-- A command for the next request would not be given up. -/
def BufCache.Heard (t : BufCache n) : Prop := t.queue = [] → t.givesUp = false

/-- What is asked of a process that runs on. -/
def BufPoint.Timely (t : BufCache n) : BufPoint n → Prop
  | .getblk want _ _ | .evict want _ _ _ => want = true → t.Heard
  | .ask _ _ _ => t.Heard
  | .bsync b => t.Unwritten b
  | _ => True

/-- No buffer with `B_DONE` is written without `B_ASY`, and `bread` does not
run into a controller that refuses its command. -/
def BufEvent.Timely (t : BufCache n) (e : BufEvent n) : Prop :=
  e.Fair t ∧ match e with
    | .bread _ _ _ => t.Heard
    | .bwrite _ b asy => asy = false → (t.buf b).done = false
    | .bsync _ b => t.Unwritten b
    | .wake pid => (t.point pid).Timely t
    | _ => True

-- ======== the invariant

/-- The buffer that a process in a call has. -/
def BufPoint.uses : BufPoint n → Option (Fin n)
  | .evict _ _ _ b | .ask _ _ b | .iowait _ _ b | .write b | .written b => some b
  | _ => none

/-- What is known of its flags. -/
def BufPoint.Fits (asy done : Bool) : BufPoint n → Prop
  | .evict _ _ _ _ => asy = true
  | .ask _ _ _ => asy = false ∧ done = false
  | .iowait _ _ _ | .written _ => asy = false
  | .write _ => asy = true ∨ done = false
  | _ => True

/-- The buffers are in order, as far as the processes in `who` go. -/
structure BufHolds (who : Nat → Prop) (t : BufCache n) : Prop where
  listed : t.bfreelist.Nodup
  free : ∀ b, b ∈ t.bfreelist ↔ (t.buf b).busy = false
  plain : ∀ b, (t.buf b).busy = false → (t.buf b).asy = false
  held : ∀ b h, t.held b = some h → (t.buf b).busy = true ∧ (t.buf b).asy = false
  used : ∀ q b, who q → (t.point q).uses = some b → (t.buf b).busy = true ∧ t.held b = none ∧
    (t.point q).Fits (t.buf b).asy (t.buf b).done
  single : ∀ q r b, who q → who r → (t.point q).uses = some b → (t.point r).uses = some b → q = r
  named : ∀ r ∈ t.queue, (t.buf r.buf).busy = true ∧ t.held r.buf = none ∧
    (t.buf r.buf).dev = r.dev ∧ (t.buf r.buf).blocknr = r.block
  alone : (t.queue.map Request.buf).Nodup
  served : ∀ r ∈ t.queue,
    ((t.buf r.buf).asy = true ∧ ∀ q, who q → (t.point q).uses ≠ some r.buf) ∨
    ((t.buf r.buf).asy = false ∧ (t.buf r.buf).done = false ∧ who r.pid ∧
      (t.point r.pid).waits = some r.buf)

abbrev BufInv (t : BufCache n) : Prop := BufHolds (fun _ => True) t

/-- Without the process that runs. -/
abbrev BufOthers (pid : Nat) (t : BufCache n) : Prop := BufHolds (· ≠ pid) t

theorem BufPoint.uses_of_waits (h : pt.waits = some b) : pt.uses = some b := by
  cases pt <;> first | exact h | cases h

/-- A process that does not wait for a transfer runs. -/
theorem BufHolds.others (h : BufInv t)
    (hrun : ∀ b, (t.point pid).waits = some b → (t.buf b).done = true) : BufOthers pid t := by
  refine ⟨h.listed, h.free, h.plain, h.held, fun q b _ => h.used q b trivial,
    fun q r b _ _ => h.single q r b trivial trivial, h.named, h.alone, fun r hr => ?_⟩
  rcases h.served r hr with ⟨hasy, huses⟩ | ⟨hasy, hdone, -, hwaits⟩
  · exact .inl ⟨hasy, fun q _ => huses q trivial⟩
  · refine .inr ⟨hasy, hdone, fun hpid => ?_, hwaits⟩
    have hdone' := hrun r.buf (hpid ▸ hwaits)
    rw [hdone] at hdone'
    cases hdone'

/-- The buffer belongs to none of the processes in `who`, nor to the disk. -/
structure InHand (who : Nat → Prop) (t : BufCache n) (b : Fin n) : Prop where
  busy : (t.buf b).busy = true
  held : t.held b = none
  uses : ∀ q, who q → (t.point q).uses ≠ some b
  queue : ∀ r ∈ t.queue, r.buf ≠ b

theorem InHand.not_held (hb : InHand who t b) {hold : Hold} (hh : t.held b = some hold) : False := by
  rw [hb.held] at hh
  cases hh

/-- The running process has the buffer. -/
abbrev Mine (pid : Nat) (t : BufCache n) (b : Fin n) : Prop := InHand (· ≠ pid) t b

/-- The process goes on; a buffer that it uses then, it has in hand. -/
theorem BufHolds.goto (h : BufOthers pid t)
    (hb : ∀ b, pt.uses = some b → Mine pid t b ∧ pt.Fits (t.buf b).asy (t.buf b).done) :
    BufInv (t.goto pid pt) := by
  have hself : (t.goto pid pt).point pid = pt := update_self ..
  have hother (q : Nat) (hq : q ≠ pid) : (t.goto pid pt).point q = t.point q :=
    update_of_ne hq ..
  refine ⟨h.listed, h.free, h.plain, h.held, fun q c _ hc => ?_, fun q r c _ _ hc hc' => ?_,
    h.named, h.alone, fun r hr => ?_⟩
  · rcases Lib.claim_update.mp hc with ⟨hq, hc⟩ | ⟨hq, hc⟩
    · rw [hq, hself]
      exact ⟨(hb c hc).1.busy, (hb c hc).1.held, (hb c hc).2⟩
    · rw [hother q hq]
      exact h.used q c hq hc
  · exact Lib.apart_update h.single (fun c hc => (hb c hc).1.uses) hc hc'
  · rcases h.served r hr with ⟨hasy, hno⟩ | ⟨hasy, hdone, hwho, hwaits⟩
    · refine .inl ⟨hasy, fun q _ hc => ?_⟩
      rcases Lib.claim_update.mp hc with ⟨-, hc⟩ | ⟨hq, hc⟩
      · exact (hb _ hc).1.queue r hr rfl
      · exact hno q hq hc
    · refine .inr ⟨hasy, hdone, trivial, ?_⟩
      rw [hother r.pid hwho]
      exact hwaits

/-- The process goes on without a buffer. -/
theorem BufHolds.goto_plain (h : BufOthers pid t) (hpt : pt.uses = none) : BufInv (t.goto pid pt) :=
  h.goto fun b hb => by rw [hpt] at hb; cases hb

/-- The process goes on with a buffer that it has in hand. -/
theorem BufHolds.goto_uses (h : BufOthers pid t) (hb : Mine pid t b)
    (hpt : pt.uses = some b) (hfits : pt.Fits (t.buf b).asy (t.buf b).done) :
    BufInv (t.goto pid pt) :=
  h.goto fun _ hc => Option.some.inj (hpt.symm.trans hc) ▸ ⟨hb, hfits⟩

-- ======== one buffer changes

/-- A step that changes the buffer `b` and leaves it in order. -/
structure BufChange (b : Fin n) (t t' : BufCache n) : Prop where
  point : t'.point = t.point
  queue : t'.queue = t.queue
  buf : ∀ c, c ≠ b → t'.buf c = t.buf c
  keep : ∀ c, c ≠ b → t'.held c = t.held c
  list : ∀ c, c ≠ b → (c ∈ t'.bfreelist ↔ c ∈ t.bfreelist)
  listed : t'.bfreelist.Nodup
  free : b ∈ t'.bfreelist ↔ (t'.buf b).busy = false
  plain : (t'.buf b).busy = false → (t'.buf b).asy = false
  held : ∀ h, t'.held b = some h → (t'.buf b).busy = true ∧ (t'.buf b).asy = false

/-- A buffer changes that no request names, and that a process in a call
does not have, or so that it may. -/
theorem BufHolds.change (h : BufHolds who t) (hc : BufChange b t t')
    (huses : ∀ q, who q → (t.point q).uses = some b →
      (t'.buf b).busy = true ∧ t'.held b = none ∧ (t.point q).Fits (t'.buf b).asy (t'.buf b).done)
    (hqueue : ∀ r ∈ t.queue, r.buf ≠ b) : BufHolds who t' := by
  have hbuf {c : Fin n} (hcb : c ≠ b) : t'.buf c = t.buf c := hc.buf c hcb
  refine ⟨hc.listed, fun c => ?_, fun c hbusy => ?_, fun c hold hh => ?_, fun q c hq hu => ?_, ?_,
    fun r hr => ?_, ?_, fun r hr => ?_⟩
  · by_cases hcb : c = b
    · subst hcb
      exact hc.free
    · rw [hc.list c hcb, hbuf hcb]
      exact h.free c
  · by_cases hcb : c = b
    · subst hcb
      exact hc.plain hbusy
    · rw [hbuf hcb] at hbusy ⊢
      exact h.plain c hbusy
  · by_cases hcb : c = b
    · subst hcb
      exact hc.held hold hh
    · rw [hbuf hcb]
      rw [hc.keep c hcb] at hh
      exact h.held c hold hh
  · rw [hc.point] at hu ⊢
    by_cases hcb : c = b
    · subst hcb
      exact huses q hq hu
    · rw [hbuf hcb, hc.keep c hcb]
      exact h.used q c hq hu
  · rw [hc.point]
    exact h.single
  · rw [hc.queue] at hr
    have hcb := hqueue r hr
    rw [hbuf hcb, hc.keep _ hcb]
    exact h.named r hr
  · rw [hc.queue]
    exact h.alone
  · rw [hc.queue] at hr
    rw [hc.point, hbuf (hqueue r hr)]
    exact h.served r hr

/-- A free buffer belongs to nobody. -/
theorem BufHolds.free_unused (h : BufHolds who t) (hb : (t.buf b).busy = false) :
    t.held b = none ∧ (∀ q, who q → (t.point q).uses ≠ some b) ∧ ∀ r ∈ t.queue, r.buf ≠ b := by
  have hbusy (hbusy : (t.buf b).busy = true) : False := by
    rw [hb] at hbusy
    cases hbusy
  refine ⟨?_, fun q hq hu => hbusy (h.used q b hq hu).1, fun r hr hrb => ?_⟩
  · cases hheld : t.held b with
    | none => rfl
    | some hold => exact (hbusy (h.held b hold hheld).1).elim
  · exact hbusy (hrb ▸ (h.named r hr).1)

/-- `notavail` puts a free buffer in the hand of the process. -/
theorem BufHolds.notavail (h : BufOthers pid t) (hb : (t.buf b).busy = false) (flag : Bool) :
    BufOthers pid (t.notavail b flag) ∧ Mine pid (t.notavail b flag) b ∧
      (t.notavail b flag).buf b = { t.buf b with busy := true } := by
  obtain ⟨hheld, huses, hqueue⟩ := h.free_unused hb
  have hself : (t.notavail b flag).buf b = { t.buf b with busy := true } := update_self ..
  have hlist (c : Fin n) : c ∈ (t.notavail b flag).bfreelist ↔ c ≠ b ∧ c ∈ t.bfreelist :=
    h.listed.mem_erase_iff
  have hc : BufChange b t (t.notavail b flag) := by
    refine ⟨rfl, rfl, fun c hcb => update_of_ne hcb .., fun _ _ => rfl, fun c hcb => ?_,
      h.listed.erase b, ?_, ?_, fun hold hh => ?_⟩
    · rw [hlist]
      exact and_iff_right hcb
    · rw [hlist, hself]
      exact iff_of_false (fun hmem => hmem.1 rfl) Bool.noConfusion
    · rw [hself]
      exact nofun
    · have hh' : t.held b = some hold := hh
      rw [hheld] at hh'
      cases hh'
  refine ⟨h.change hc (fun q hq hu => absurd hu (huses q hq)) hqueue, ⟨?_, hheld, huses, hqueue⟩,
    hself⟩
  rw [hself]

/-- A buffer in hand is changed and stays busy. -/
theorem InHand.setBuf (hb : InHand who t b) (h : BufHolds who t) (bh : BufHead)
    (hbusy : bh.busy = true) : BufHolds who (t.setBuf b bh) ∧ InHand who (t.setBuf b bh) b := by
  have hself : (t.setBuf b bh).buf b = bh := update_self ..
  have hc : BufChange b t (t.setBuf b bh) := by
    refine ⟨rfl, rfl, fun c hcb => update_of_ne hcb .., fun _ _ => rfl, fun _ _ => Iff.rfl,
      h.listed, ?_, fun hfree => ?_, fun _ hh => (hb.not_held hh).elim⟩
    · rw [hself, hbusy]
      refine iff_of_false (fun hmem => ?_) Bool.noConfusion
      have hfree := (h.free b).mp hmem
      rw [hb.busy] at hfree
      cases hfree
    · rw [hself, hbusy] at hfree
      cases hfree
  refine ⟨h.change hc (fun q hq hu => absurd hu (hb.uses q hq)) hb.queue, ?_, hb.held, hb.uses,
    hb.queue⟩
  rw [hself]
  exact hbusy

-- ======== requests

theorem elevator_perm (sec : Request n → Nat) (req : Request n) (l : List (Request n)) :
    (elevator sec req l).Perm (req :: l) := by
  fun_induction elevator sec req l with
  | case1 => exact List.Perm.refl _
  | case2 prev | case3 prev next rest h => exact List.Perm.swap ..
  | case4 prev next rest h ih => exact (ih.cons prev).trans (List.Perm.swap ..)

theorem mem_elevator {sec : Request n → Nat} {r : Request n} {l : List (Request n)} :
    r ∈ elevator sec req l ↔ r = req ∨ r ∈ l := by
  rw [(elevator_perm sec req l).mem_iff, List.mem_cons]

/-- `B_ERROR` of some buffers and the counts of the controller are others. -/
def BufCache.marked (t : BufCache n) (err : Fin n → Bool) (errs refuse : Nat) : BufCache n :=
  { t with buf := fun c => { t.buf c with error := err c }, errs, refuse }

theorem BufHolds.marked {err : Fin n → Bool} {errs refuse : Nat} (h : BufHolds who t) :
    BufHolds who (t.marked err errs refuse) := { h with }

/-- That is all that `finish_cmd` changes. -/
theorem finishCmd_marked (t : BufCache n) : ∃ err errs refuse, t.finishCmd.2 = t.marked err errs refuse := by
  unfold BufCache.finishCmd
  split
  · exact ⟨fun c => (t.buf c).error, _, _, rfl⟩
  · next req rest hqueue =>
    dsimp only
    split
    · refine ⟨fun c => if c = req.buf then true else (t.buf c).error,
        (BufCache.retry (t.errs + 1) (t.refuse - 1)).1,
        (BufCache.retry (t.errs + 1) (t.refuse - 1)).2, ?_⟩
      unfold BufCache.marked BufCache.setBuf
      dsimp only
      congr 1
      funext c
      rw [Function.update_apply]
      split
      · next hc => rw [hc]
      · rfl
    · split
      · exact ⟨fun c => (t.buf c).error, _, _, rfl⟩
      · exact ⟨fun c => (t.buf c).error, 0, _, rfl⟩

theorem ideRwBlock_marked :
    ∃ err errs refuse, (t.ideRwBlock w b pid).2 = (t.enqueue w b pid).marked err errs refuse := by
  unfold BufCache.ideRwBlock
  split
  · exact finishCmd_marked _
  · exact ⟨fun c => (t.buf c).error, _, _, rfl⟩

/-- The command is taken in the end, or another one is going on. -/
theorem BufCache.Heard.ideRwBlock (h : t.Heard) (w : Bool) (b : Fin n) (pid : Nat) :
    (t.ideRwBlock w b pid).1 = true := by
  unfold BufCache.ideRwBlock
  split
  · next hempty =>
    have hgive : (t.enqueue w b pid).givesUp = false := h hempty
    unfold BufCache.finishCmd
    split
    · rfl
    · dsimp only
      rw [hgive, if_neg Bool.false_ne_true]
      split <;> rfl
  · rfl

/-- With a request in the queue no command is given. -/
theorem heard_ideRwBlock : (t.ideRwBlock w b pid).2.Heard := by
  obtain ⟨err, errs, refuse, heq⟩ := ideRwBlock_marked
  rw [heq]
  intro hempty
  have hlen := (elevator_perm t.sec ⟨(t.buf b).dev, (t.buf b).blocknr, w, b, pid⟩ t.queue).length_eq
  rw [show elevator t.sec _ t.queue = [] from hempty] at hlen
  cases hlen

/-- The buffer is given back. -/
theorem InHand.brelse (hb : InHand who t b) (h : BufHolds who t) : BufHolds who (t.brelse b) := by
  have hnot : b ∉ t.bfreelist := by
    rw [h.free b, hb.busy]
    exact Bool.noConfusion
  unfold BufCache.brelse
  rw [if_pos hb.busy]
  refine h.change ⟨rfl, rfl, fun c hcb => update_of_ne hcb .., fun _ _ => rfl,
    fun c hcb => ?_, ?_, ?_, fun _ => ?_, fun _ hh => (hb.not_held hh).elim⟩
    (fun q hq hu => absurd hu (hb.uses q hq)) hb.queue
  · simp [hcb]
  · refine List.nodup_append.mpr ⟨h.listed, List.nodup_singleton b, fun c hc d hd => ?_⟩
    rw [List.mem_singleton.mp hd]
    exact fun hcb => hnot (hcb ▸ hc)
  · show b ∈ t.bfreelist ++ [b] ↔ (update t.buf b _ b).busy = false
    simp
  · show (update t.buf b _ b).asy = false
    rw [update_self]

namespace InHand

variable (hb : Mine pid t b) (h : BufOthers pid t)

include hb h

/-- What a new request keeps, apart from who serves it. -/
theorem alone : ((t.enqueue w b pid).queue.map Request.buf).Nodup := by
  have hperm := (elevator_perm t.sec ⟨(t.buf b).dev, (t.buf b).blocknr, w, b, pid⟩ t.queue).map
    Request.buf
  refine hperm.nodup_iff.mpr (List.nodup_cons.mpr ⟨fun hmem => ?_, h.alone⟩)
  obtain ⟨r, hr, hrb⟩ := List.mem_map.mp hmem
  exact hb.queue r hr hrb

theorem named : ∀ r ∈ (t.enqueue w b pid).queue, (t.buf r.buf).busy = true ∧ t.held r.buf = none ∧
      (t.buf r.buf).dev = r.dev ∧ (t.buf r.buf).blocknr = r.block := by
  intro r hr
  rcases mem_elevator.mp hr with rfl | hr
  · exact ⟨hb.busy, hb.held, rfl, rfl⟩
  · exact h.named r hr

/-- A buffer with `B_ASY` is left to the disk. -/
theorem send (hasy : (t.buf b).asy = true) : BufOthers pid (t.ideRwBlock true b pid).2 := by
  obtain ⟨err, errs, refuse, heq⟩ := ideRwBlock_marked
  rw [heq]
  refine BufHolds.marked { h with named := hb.named h, alone := hb.alone h, served := fun r hr => ?_ }
  rcases mem_elevator.mp hr with rfl | hr
  · exact .inl ⟨hasy, hb.uses⟩
  · exact h.served r hr

/-- A process waits for the end of a transfer. -/
theorem await (hasy : (t.buf b).asy = false) (hdone : (t.buf b).done = false)
    (hwaits : pt.waits = some b) (hfits : pt.Fits (t.buf b).asy (t.buf b).done) :
    BufInv ((t.ideRwBlock w b pid).2.goto pid pt) := by
  obtain ⟨err, errs, refuse, heq⟩ := ideRwBlock_marked
  rw [heq]
  have hinv := h.goto_uses hb (BufPoint.uses_of_waits hwaits) hfits
  have hqueued : BufInv ((t.enqueue w b pid).goto pid pt) := by
    refine { hinv with named := hb.named h, alone := hb.alone h, served := fun r hr => ?_ }
    rcases mem_elevator.mp hr with rfl | hr
    · refine .inr ⟨hasy, hdone, trivial, ?_⟩
      rw [show ((t.enqueue w b pid).goto pid pt).point pid = pt from update_self ..]
      exact hwaits
    · exact hinv.served r hr
  exact hqueued.marked

/-- The process gets the buffer. -/
theorem hold (hasy : (t.buf b).asy = false)
    (dev : Dev) (block : Nat) (filled : Bool) : BufInv (t.hold pid dev block filled b) := by
  have hc : BufChange b t (t.setHeld b (some ⟨pid, dev, block, filled⟩)) :=
    ⟨rfl, rfl, fun _ _ => rfl, fun c hcb => update_of_ne hcb .., fun _ _ => Iff.rfl,
      h.listed, h.free b, h.plain b, fun _ _ => ⟨hb.busy, hasy⟩⟩
  exact (h.change hc (fun q hq hu => absurd hu (hb.uses q hq)) hb.queue).goto_plain rfl

/-- `bread` asks for a block. -/
theorem breadBlock (hasy : (t.buf b).asy = false)
    (hdone : (t.buf b).done = false) (hheard : t.Heard) (dev : Dev) (block : Nat) :
    BufInv (t.breadBlock pid dev block b) := by
  unfold BufCache.breadBlock
  split
  · exact h.goto_uses hb rfl ⟨hasy, hdone⟩
  · dsimp only
    rw [hheard.ideRwBlock false b pid]
    exact hb.await h hasy hdone rfl hasy

/-- `bread` is done. -/
theorem breadEnd (hasy : (t.buf b).asy = false)
    (dev : Dev) (block : Nat) : BufInv (t.breadEnd pid dev block b) := by
  unfold BufCache.breadEnd
  split
  · exact (hb.brelse h).goto_plain rfl
  · exact hb.hold h hasy dev block true

/-- `getblk` has got the buffer. -/
theorem granted (hasy : (t.buf b).asy = false)
    (hheard : want = true → t.Heard) (dev : Dev) (block : Nat) :
    BufInv (t.granted pid want dev block b) := by
  unfold BufCache.granted
  split
  · next hwant =>
    split
    · exact hb.hold h hasy dev block true
    · next hdone => exact hb.breadBlock h hasy (by simpa using hdone) (hheard hwant) dev block
  · exact hb.hold h hasy dev block false

/-- `bwrite` has a request for a buffer with `B_ASY`, or without `B_DONE`. -/
theorem bwriteBlock
    (hok : (t.buf b).asy = true ∨ (t.buf b).done = false) : BufInv (t.bwriteBlock pid b) := by
  obtain ⟨err, errs, refuse, heq⟩ := ideRwBlock_marked
  have hsame : ((t.ideRwBlock true b pid).2.buf b).asy = (t.buf b).asy ∧
      ((t.ideRwBlock true b pid).2.buf b).done = (t.buf b).done := by
    rw [heq]
    exact ⟨rfl, rfl⟩
  unfold BufCache.bwriteBlock
  dsimp only
  rw [hsame.1, hsame.2]
  cases hasy : (t.buf b).asy with
  | true =>
    rw [if_pos rfl]
    exact (hb.send h hasy).goto_plain rfl
  | false =>
    have hdone : (t.buf b).done = false := hok.resolve_left (by simp [hasy])
    rw [if_neg Bool.false_ne_true, hdone, if_neg Bool.false_ne_true]
    exact hb.await h hasy hdone rfl hasy

theorem bwrite (hok : (t.buf b).asy = true ∨ (t.buf b).done = false) : BufInv (t.bwrite pid b) := by
  obtain ⟨h1, hb1⟩ := hb.setBuf h { t.buf b with read := false, error := false, dirty := false } hb.busy
  have hself : (t.setBuf b { t.buf b with read := false, error := false, dirty := false }).buf b
      = { t.buf b with read := false, error := false, dirty := false } := update_self ..
  rw [← congrArg BufHead.asy hself, ← congrArg BufHead.done hself] at hok
  unfold BufCache.bwrite
  dsimp only
  split
  · exact h1.goto_uses hb1 rfl hok
  · exact hb1.bwriteBlock h1 hok

/-- New contents for a buffer in hand. -/
theorem modify (data : Option Block) :
    BufOthers pid (t.modify b data) ∧ Mine pid (t.modify b data) b := by
  cases data with
  | none => exact ⟨h, hb⟩
  | some data =>
    obtain ⟨h1, hb1⟩ := hb.setBuf h { t.buf b with data := data, dirty := true, done := true }
      hb.busy
    exact ⟨{ h1 with }, { hb1 with }⟩

end InHand

-- ======== getblk

theorem BufHolds.getblkLoop (h : BufOthers pid t) (hheard : want = true → t.Heard) (dev : Dev)
    (block turns : Nat) : BufInv (BufCache.getblkLoop pid want dev block turns t) := by
  induction turns generalizing t with
  | zero => exact h.goto_plain rfl
  | succ turns ih =>
    unfold BufCache.getblkLoop
    split
    · next b hfind =>
      split
      · exact h.goto_plain rfl
      · next hbusy =>
        have hbusy : (t.buf b).busy = false := by simpa using hbusy
        obtain ⟨h1, hb1, hself⟩ := h.notavail hbusy false
        refine hb1.granted h1 ?_ hheard dev block
        rw [hself]
        exact h.plain b hbusy
    · split
      · exact h.goto_plain rfl
      · next b rest hlist =>
        have hbusy : (t.buf b).busy = false := (h.free b).mp (hlist ▸ List.mem_cons_self)
        obtain ⟨h1, hb1, hself⟩ := h.notavail hbusy true
        dsimp only
        split
        · -- the buffer is written back, and the process looks again
          obtain ⟨h2, hb2⟩ := hb1.setBuf h1 { (t.notavail b true).buf b with
            asy := true, dirty := false, read := false, error := false } hb1.busy
          have hasy : (((t.notavail b true).evicted b).buf b).asy = true := by
            rw [show ((t.notavail b true).evicted b).buf b = { (t.notavail b true).buf b with
              asy := true, dirty := false, read := false, error := false } from update_self ..]
          split
          · exact h2.goto_uses hb2 rfl hasy
          · exact ih (hb2.send h2 hasy) fun _ => heard_ideRwBlock
        · obtain ⟨h2, hb2⟩ := hb1.setBuf h1 ⟨dev, block, true, false, false, false, true, false,
            ((t.notavail b true).buf b).data⟩ rfl
          have h3 : BufOthers pid ((t.notavail b true).assign dev block b) :=
            { h2 with }
          have hb3 : Mine pid ((t.notavail b true).assign dev block b) b :=
            { hb2 with }
          refine hb3.granted h3 ?_ hheard dev block
          rw [show ((t.notavail b true).assign dev block b).buf b = ⟨dev, block, true, false, false,
            false, true, false, ((t.notavail b true).buf b).data⟩ from update_self ..]

-- ======== bwrite, iodone

/-- The buffer that a process has in its call, and that is not with the
disk. -/
theorem BufHolds.mine (h : BufInv t) (hu : (t.point pid).uses = some b)
    (hrun : ∀ b, (t.point pid).waits = some b → (t.buf b).done = true) : Mine pid t b := by
  obtain ⟨hbusy, hheld, -⟩ := h.used pid b trivial hu
  refine ⟨hbusy, hheld, fun q hq hq' => hq (h.single q pid b trivial trivial hq' hu), fun r hr hrb => ?_⟩
  subst hrb
  rcases h.served r hr with ⟨-, hno⟩ | ⟨-, hdone, -, hwaits⟩
  · exact hno pid trivial hu
  · have hpid := h.single r.pid pid r.buf trivial trivial (BufPoint.uses_of_waits hwaits) hu
    have hdone' := hrun r.buf (hpid ▸ hwaits)
    rw [hdone] at hdone'
    cases hdone'

/-- A buffer that a process has got. -/
theorem BufHolds.take (h : BufOthers pid t) {hold : Hold} (hheld : t.held b = some hold) :
    BufOthers pid (t.setHeld b none) ∧ Mine pid (t.setHeld b none) b ∧ (t.buf b).asy = false := by
  obtain ⟨hbusy, hasy⟩ := h.held b hold hheld
  have huses (q : Nat) (hq : q ≠ pid) : (t.point q).uses ≠ some b := by
    intro hu
    have hnone := (h.used q b hq hu).2.1
    rw [hheld] at hnone
    cases hnone
  have hqueue (r : Request n) (hr : r ∈ t.queue) : r.buf ≠ b := by
    rintro rfl
    have hnone := (h.named r hr).2.1
    rw [hheld] at hnone
    cases hnone
  have hself : (t.setHeld b none).held b = none := update_self ..
  have hc : BufChange b t (t.setHeld b none) := by
    refine ⟨rfl, rfl, fun _ _ => rfl, fun c hcb => update_of_ne hcb .., fun _ _ => Iff.rfl,
      h.listed, h.free b, h.plain b, fun hold hh => ?_⟩
    rw [hself] at hh
    cases hh
  exact ⟨h.change hc (fun q hq hu => absurd hu (huses q hq)) hqueue, ⟨hbusy, hself, huses, hqueue⟩,
    hasy⟩

theorem BufHolds.bsync (h : BufOthers pid t) (hok : t.Unwritten b) : BufInv (t.bsync pid b) := by
  unfold BufCache.bsync
  split
  · next hdirty =>
    split
    · exact h.goto_plain rfl
    · next hbusy =>
      have hbusy : (t.buf b).busy = false := by simpa using hbusy
      obtain ⟨h1, hb1, hself⟩ := h.notavail hbusy false
      refine hb1.bwrite h1 (.inr ?_)
      rw [hself]
      exact hok hdirty hbusy
  · exact h.goto_plain rfl

/-- A request leaves the queue. -/
theorem BufHolds.dequeue (h : BufInv t)
    (hqueue : t.queue = req :: rest) : BufInv { t with queue := rest } ∧ ∀ r ∈ rest, r.buf ≠ req.buf := by
  have hmem (r : Request n) (hr : r ∈ rest) : r ∈ t.queue := hqueue ▸ List.mem_cons_of_mem _ hr
  have halone := h.alone
  rw [hqueue, List.map_cons, List.nodup_cons] at halone
  exact ⟨{ h with named := fun r hr => h.named r (hmem r hr), alone := halone.2
                  served := fun r hr => h.served r (hmem r hr) },
    fun r hr hrb => halone.1 (List.mem_map.mpr ⟨r, hr, hrb⟩)⟩

/-- The buffer of a request when its transfer is done. -/
def BufCache.landed (t : BufCache n) (req : Request n) : BufHead :=
  let bh := t.buf req.buf
  let data := if req.write then bh.data else t.disk (req.dev, req.block)
  if bh.asy then { bh with data := data, done := true, busy := false, asy := false }
  else { bh with data := data, done := true, read := false }

/-- The disk then. -/
def BufCache.stored (t : BufCache n) (req : Request n) : Dev × Nat → Block :=
  if req.write then update t.disk (req.dev, req.block) (t.buf req.buf).data else t.disk

theorem ideBottom_eq (hqueue : t.queue = req :: rest) (hbusy : (t.buf req.buf).busy = true) :
    t.ideBottom = some (BufCache.finishCmd { t with
      buf := update t.buf req.buf (t.landed req)
      disk := t.stored req
      bfreelist := if (t.buf req.buf).asy then t.bfreelist ++ [req.buf] else t.bfreelist
      queue := rest }).2 := by
  unfold BufCache.ideBottom
  rw [hqueue]
  dsimp only
  unfold BufCache.landed BufCache.stored BufCache.transfer BufCache.iodone BufCache.brelse
  cases hw : req.write <;> cases hasy : (t.buf req.buf).asy <;> cases hread : (t.buf req.buf).read <;>
    simp [BufCache.setBuf, hasy, hread, hbusy]

/-- The end of a transfer. -/
theorem BufHolds.ideBottom (h : BufInv t) (happly : t.ideBottom = some t') : BufInv t' := by
  cases hqueue : t.queue with
  | nil =>
    unfold BufCache.ideBottom at happly
    rw [hqueue] at happly
    cases happly
  | cons req rest =>
    have hreq : req ∈ t.queue := hqueue ▸ List.mem_cons_self
    obtain ⟨hbusy, hheld, -⟩ := h.named req hreq
    rw [ideBottom_eq hqueue hbusy] at happly
    cases happly
    obtain ⟨err, errs, refuse, heq⟩ := finishCmd_marked { t with
      buf := update t.buf req.buf (t.landed req)
      disk := t.stored req
      bfreelist := if (t.buf req.buf).asy then t.bfreelist ++ [req.buf] else t.bfreelist
      queue := rest }
    rw [heq]
    refine BufHolds.marked ?_
    obtain ⟨h0, hrest⟩ := h.dequeue hqueue
    have hnot : req.buf ∉ t.bfreelist := by
      rw [h.free, hbusy]
      exact Bool.noConfusion
    have hself : update t.buf req.buf (t.landed req) req.buf = t.landed req :=
      update_self ..
    refine h0.change (b := req.buf) ⟨rfl, rfl, fun c hcb => update_of_ne hcb ..,
      fun _ _ => rfl, fun c hcb => ?_, ?_, ?_, ?_, fun hold hh => ?_⟩ (fun q _ hu => ?_) hrest
    · split
      · simp [hcb]
      · rfl
    · split
      · refine List.nodup_append.mpr ⟨h.listed, List.nodup_singleton _, fun c hc d hd => ?_⟩
        rw [List.mem_singleton.mp hd]
        exact fun hcb => hnot (hcb ▸ hc)
      · exact h.listed
    · show req.buf ∈ (if (t.buf req.buf).asy then t.bfreelist ++ [req.buf] else t.bfreelist) ↔
        (update t.buf req.buf (t.landed req) req.buf).busy = false
      unfold BufCache.landed
      dsimp only
      split
      · simp
      · simp [hnot, hbusy]
    · show (update t.buf req.buf (t.landed req) req.buf).busy = false →
        (update t.buf req.buf (t.landed req) req.buf).asy = false
      rw [hself]
      unfold BufCache.landed
      dsimp only
      split
      · exact fun _ => rfl
      · next hasy => exact fun _ => by simpa using hasy
    · have hh' : t.held req.buf = some hold := hh
      rw [hheld] at hh'
      cases hh'
    · -- who has the buffer waits for it
      rcases h.served req hreq with ⟨-, hno⟩ | ⟨hasy, -, -, hwaits⟩
      · exact absurd hu (hno q trivial)
      · have hq := h.single q req.pid _ trivial trivial hu (BufPoint.uses_of_waits hwaits)
        subst hq
        have hland : t.landed req = { t.buf req.buf with
            data := if req.write then (t.buf req.buf).data else t.disk (req.dev, req.block)
            done := true, read := false } := by
          unfold BufCache.landed
          rw [if_neg (by rw [hasy]; exact Bool.noConfusion)]
        dsimp only
        rw [hself, hland]
        refine ⟨hbusy, hheld, ?_⟩
        cases hpt : t.point req.pid with
        | iowait dev block c | written c => exact hasy
        | _ =>
          rw [hpt] at hwaits
          cases hwaits

-- ======== the runs

theorem bufInit_inv (startSec : Dev → Nat) (disk : Dev × Nat → Block) :
    BufInv (bufInit n startSec disk) := by
  refine ⟨List.nodup_reverse.mpr (List.nodup_finRange n), ?_, fun _ _ => rfl, ?_, ?_, ?_, ?_,
    List.nodup_nil, ?_⟩
  · simp [bufInit]
  · intro b hold hh
    cases hh
  · intro q b _ hu
    cases hu
  · intro q r b _ _ hu
    cases hu
  · exact nofun
  · exact nofun

/-- A process that is in a call and does not wait for the disk runs on. -/
theorem BufHolds.resume (h : BufInv t) (hpt : t.point pid = pt)
    (hrun : ∀ b, pt.waits = some b → (t.buf b).done = true) :
    BufOthers pid t ∧ ∀ b, pt.uses = some b → Mine pid t b ∧ pt.Fits (t.buf b).asy (t.buf b).done := by
  subst hpt
  exact ⟨h.others hrun, fun b hu => ⟨h.mine hu hrun, (h.used pid b trivial hu).2.2⟩⟩

/-- A process runs on. -/
theorem BufHolds.wake (h : BufInv t) (hok : (t.point pid).Timely t)
    (happly : t.wake pid = some t') : BufInv t' := by
  unfold BufCache.wake at happly
  cases hpt : t.point pid with
  | idle =>
    rw [hpt] at happly
    cases happly
  | getblk want dev block =>
    obtain ⟨hothers, -⟩ := h.resume hpt nofun
    rw [hpt] at happly hok
    cases happly
    exact hothers.getblkLoop hok ..
  | evict want dev block b =>
    obtain ⟨hothers, hmine⟩ := h.resume hpt nofun
    obtain ⟨hb, hfits⟩ := hmine b rfl
    rw [hpt] at happly
    dsimp only at happly
    split at happly
    · cases happly
      exact h
    · cases happly
      exact (hb.send hothers hfits).getblkLoop (fun _ => heard_ideRwBlock) ..
  | ask dev block b =>
    obtain ⟨hothers, hmine⟩ := h.resume hpt nofun
    obtain ⟨hb, hasy, hdone⟩ := hmine b rfl
    rw [hpt] at happly hok
    cases happly
    exact hb.breadBlock hothers hasy hdone hok dev block
  | iowait dev block b =>
    rw [hpt] at happly
    dsimp only at happly
    split at happly
    · next hdone =>
      cases happly
      obtain ⟨hothers, hmine⟩ := h.resume hpt fun c hc => Option.some.inj hc ▸ hdone
      obtain ⟨hb, hasy⟩ := hmine b rfl
      exact hb.breadEnd hothers hasy dev block
    · cases happly
      exact h
  | write b =>
    obtain ⟨hothers, hmine⟩ := h.resume hpt nofun
    obtain ⟨hb, hfits⟩ := hmine b rfl
    rw [hpt] at happly
    dsimp only at happly
    split at happly
    · cases happly
      exact h
    · cases happly
      exact hb.bwriteBlock hothers hfits
  | written b =>
    rw [hpt] at happly
    dsimp only at happly
    split at happly
    · next hdone =>
      cases happly
      obtain ⟨hothers, hmine⟩ := h.resume hpt fun c hc => Option.some.inj hc ▸ hdone
      exact ((hmine b rfl).1.brelse hothers).goto_plain rfl
    · cases happly
      exact h
  | bsync b =>
    obtain ⟨hothers, -⟩ := h.resume hpt nofun
    rw [hpt] at happly hok
    cases happly
    exact hothers.bsync hok

/-- A process that stays out of every call. -/
theorem BufHolds.of_idle (h : BufOthers pid t) (hidle : t.point pid = .idle) : BufInv t := by
  have hgoto : t.goto pid .idle = t := by
    unfold BufCache.goto
    rw [← hidle, update_eq_self]
  rw [← hgoto]
  exact h.goto_plain rfl

theorem modify_setHeld (t : BufCache n) (b c : Fin n) (data : Option Block) (hold : Option Hold) :
    (t.modify b data).setHeld c hold = (t.setHeld c hold).modify b data := by
  cases data <;> rfl

theorem modify_point (t : BufCache n) (b : Fin n) (data : Option Block) :
    (t.modify b data).point = t.point := by
  cases data <;> rfl

theorem brelse_point (t : BufCache n) (b : Fin n) : (t.brelse b).point = t.point := by
  unfold BufCache.brelse
  split <;> rfl

theorem BufHolds.step (h : BufInv t) {e : BufEvent n} (hok : e.Timely t)
    (happly : e.apply t = some t') : BufInv t' := by
  obtain ⟨hfair, hok⟩ := hok
  have hidle {pid : Nat} (hidle : t.point pid = .idle) : BufOthers pid t :=
    h.others fun b hb => by rw [hidle] at hb; cases hb
  cases e with
  | getblk pid dev block =>
    cases happly
    exact (hidle hfair.1).getblkLoop (fun hwant => by cases hwant) ..
  | bread pid dev block =>
    cases happly
    exact (hidle hfair.1).getblkLoop (fun _ => hok) ..
  | brelse pid b data =>
    cases happly
    obtain ⟨hold, hheld, -⟩ := Option.map_eq_some_iff.mp hfair.2
    obtain ⟨h1, hb1, -⟩ := (hidle hfair.1).take hheld
    obtain ⟨h2, hb2⟩ := hb1.modify h1 data
    rw [modify_setHeld]
    refine (hb2.brelse h2).of_idle ?_
    rw [brelse_point, modify_point]
    exact hfair.1
  | bwrite pid b asy =>
    cases happly
    obtain ⟨hold, hheld, -⟩ := Option.map_eq_some_iff.mp hfair.2
    obtain ⟨h1, hb1, hasy⟩ := (hidle hfair.1).take hheld
    obtain ⟨h2, hb2⟩ := hb1.setBuf h1 { t.buf b with asy := (t.buf b).asy || asy } hb1.busy
    refine hb2.bwrite h2 ?_
    rw [show ((t.setHeld b none).setBuf b { t.buf b with asy := (t.buf b).asy || asy }).buf b
      = { t.buf b with asy := (t.buf b).asy || asy } from update_self ..]
    cases asy with
    | false => exact .inr (hok rfl)
    | true => exact .inl (Bool.or_true _)
  | bsync pid b =>
    cases happly
    exact (hidle hfair.1).bsync hok
  | wake pid => exact h.wake hok happly
  | done => exact h.ideBottom happly
  | refuse commands =>
    cases happly
    exact h.marked

theorem BufRun.inv (h : BufRun BufEvent.Timely t) : BufInv t := by
  refine Lib.Reached.inv ?_ (fun _ _ _ ih hok happly => ih.step hok happly) h
  rintro _ ⟨startSec, disk, rfl⟩
  exact bufInit_inv startSec disk

theorem BufHolds.owned (h : BufInv t) : t.Owned := by
  refine ⟨fun r hr => (h.named r hr).1, fun r hr hmem => ?_, fun r hr => (h.named r hr).2.2, h.alone,
    fun r hr q hq => ?_⟩
  · have hfree := (h.free r.buf).mp hmem
    rw [(h.named r hr).1] at hfree
    cases hfree
  · have huses := BufPoint.uses_of_waits hq
    rcases h.served r hr with ⟨-, hno⟩ | ⟨-, -, -, hwaits⟩
    · exact absurd huses (hno q trivial)
    · exact h.single q r.pid r.buf trivial trivial huses (BufPoint.uses_of_waits hwaits)

-- ======== a run

instance BufEvent.decidableFair (t : BufCache n) (e : BufEvent n) : Decidable (e.Fair t) := by
  unfold BufEvent.Fair
  cases e <;> infer_instance

instance BufCache.decidableHeard (t : BufCache n) : Decidable t.Heard := inferInstanceAs (Decidable (_ → _))

instance BufCache.decidableUnwritten (t : BufCache n) (b : Fin n) : Decidable (t.Unwritten b) :=
  inferInstanceAs (Decidable (_ → _ → _))

instance BufPoint.decidableTimely (t : BufCache n) (pt : BufPoint n) : Decidable (pt.Timely t) := by
  unfold BufPoint.Timely
  split <;> infer_instance

instance BufEvent.decidableTimely (t : BufCache n) (e : BufEvent n) : Decidable (e.Timely t) := by
  unfold BufEvent.Timely
  cases e <;> infer_instance

/-- Four processes and three buffers. The first two read, the third gets a
block, and the fourth wants what the first one reads. The command for the
second request is refused twice. Then the third process writes its
block. -/
def fourCalls (b : Fin n) : List (BufEvent n) :=
  [.bread 1 0 5, .bread 2 0 6, .getblk 3 0 7, .bread 4 0 5, .refuse 2, .done, .wake 1, .bwrite 3 b false]

theorem fourCalls_run : ∃ t : BufCache 3, BufRun BufEvent.Timely t ∧
    t.queue.map Request.buf = [1, 0] ∧ (t.held 2).isSome ∧ t.point 4 = .getblk true 0 5 := by
  obtain ⟨t, hplay, ht⟩ : ∃ t, Lib.play BufEvent.apply BufEvent.Timely
      (bufInit 3 (fun _ => 0) fun _ => zeroBlock) (fourCalls 0) = some t ∧
      t.queue.map Request.buf = [1, 0] ∧ (t.held 2).isSome ∧ t.point 4 = .getblk true 0 5 := by
    decide +kernel
  exact ⟨t, .play (.first ⟨_, _, rfl⟩) hplay, ht⟩

/-- If no buffer with `B_DONE` is written without `B_ASY`, and no read is
given up, a request has its buffer for itself until its transfer is
done. -/
theorem buffers_owned (h : BufRun BufEvent.Timely t) : t.Owned := h.inv.owned

theorem buffers_owned_four : ∃ t : BufCache 3, BufRun BufEvent.Timely t ∧
    t.queue.map Request.buf = [1, 0] ∧ t.point 4 = .getblk true 0 5 ∧ t.Owned := by
  obtain ⟨t, hrun, hqueue, -, hpoint⟩ := fourCalls_run
  exact ⟨t, hrun, hqueue, hpoint, buffers_owned hrun⟩

/-- Two calls never have the same buffer, and none has a buffer that a
process holds or that is free. What is free is on the list once. -/
theorem buffers_exclusive (h : BufRun BufEvent.Timely t) :
    t.bfreelist.Nodup ∧ (∀ b, b ∈ t.bfreelist ↔ (t.buf b).busy = false) ∧
    (∀ q r b, (t.point q).uses = some b → (t.point r).uses = some b → q = r) ∧
    (∀ q b, (t.point q).uses = some b → t.held b = none ∧ b ∉ t.bfreelist) ∧
    ∀ b p, t.held b = some p → b ∉ t.bfreelist ∧ b ∉ t.queue.map Request.buf := by
  have hi := h.inv
  refine ⟨hi.listed, hi.free, fun q r b => hi.single q r b trivial trivial, fun q b hq => ?_,
    fun b p hp => ⟨?_, fun hb => ?_⟩⟩
  · simp [hi.free, hi.used q b trivial hq]
  · simp [hi.free, (hi.held b p hp).1]
  · obtain ⟨r, hr, rfl⟩ := List.mem_map.mp hb
    simp [(hi.named r hr).2.1] at hp

theorem buffers_exclusive_four : ∃ t : BufCache 3, BufRun BufEvent.Timely t ∧
    t.queue.map Request.buf = [1, 0] ∧ (t.held 2).isSome ∧ t.bfreelist.Nodup ∧ 2 ∉ t.bfreelist := by
  obtain ⟨t, hrun, hqueue, hheld, -⟩ := fourCalls_run
  obtain ⟨hold, hhold⟩ := Option.isSome_iff_exists.mp hheld
  obtain ⟨hnodup, -, -, -, hmine⟩ := buffers_exclusive hrun
  exact ⟨t, hrun, hqueue, hheld, hnodup, (hmine 2 hold hhold).1⟩

-- ======== an example

/-- A process fills block 5 for the first time and leaves it to be written
later. Then `sync` writes it. -/
def lateWrite (b : Fin n) : List (BufEvent n) :=
  [.getblk 1 0 5, .brelse 1 b (some zeroBlock), .bsync 2 b]

/-- `sync` gives the buffer back before it is written. -/
theorem buffer_released_early : ∃ t : BufCache nrBuf, BufRun BufEvent.Fair t ∧ ¬ t.Owned := by
  let b : Fin nrBuf := ⟨16383, by decide⟩
  obtain ⟨t, hplay, hqueue, hbusy⟩ : ∃ t, Lib.play BufEvent.apply BufEvent.Fair
      (bufInit nrBuf (fun _ => 0) fun _ => zeroBlock) (lateWrite b) = some t ∧
      t.queue.map Request.buf = [b] ∧ (t.buf b).busy = false := by decide +kernel
  refine ⟨t, .play (.first ⟨_, _, rfl⟩) hplay, fun howned => ?_⟩
  obtain ⟨r, hr, hbuf⟩ := List.mem_map.mp (hqueue ▸ List.mem_singleton_self _)
  have hbusy' := howned.busy r hr
  rw [hbuf, hbusy] at hbusy'
  cases hbusy'

end Cnix.Fs
