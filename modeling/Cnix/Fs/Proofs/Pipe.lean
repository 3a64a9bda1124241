/-
A pipe is a queue, whoever reads and writes it.

One turn of a copy loop is one rule of `Carries`: the part of the page up
to its end is taken or filled. What a process keeps while it sleeps only
matters to itself: a reader's buffer has the pieces that the log says it
got, a writer's those that it gave, and both have not more to do than they
asked for.
-/
import Cnix.Fs.Pipe

namespace Cnix.Fs

open Lib
open PipeEvent (apply)

variable {s s' : Pipe} {id turns rounds : Nat} {c : ReadCall} {w : WriteCall} {count : Nat}
  {x : Caller} {log extra given : List (Nat × List Byte)} {since : Nat} {bytes : List Byte} {e : PipeEvent}

-- ======== memory

/-- Bytes are put behind those that are there. -/
theorem cells_append (data : Block) (n : Nat) (src : List Byte) :
    cells (memcpy data n src) 0 (n + src.length) = cells data 0 n ++ src := by
  rw [cells_add, Nat.zero_add, cells_memcpy]
  refine congrArg (· ++ src) (cells_congr fun k hk => if_neg fun h => ?_)
  omega

theorem advance_eq {p k : Nat} (h : p + k ≤ pipeSize) : Pipe.advance p k = (p + k) % pipeSize := by
  unfold Pipe.advance
  split
  · rw [Nat.le_antisymm h (by assumption), Nat.mod_self]
  · rw [Nat.mod_eq_of_lt (by omega)]

theorem advance_lt (p k : Nat) : Pipe.advance p k < pipeSize := by
  unfold Pipe.advance
  split
  · exact Nat.zero_lt_succ _
  · omega

-- ======== the invariant

/-- The pieces of a process in a log since then. -/
def pieces (log : List (Nat × List Byte)) (id since : Nat) : List Byte :=
  ((log.drop since).filter (·.1 = id)).flatMap Prod.snd

/-- What the log says that went to the process since then. -/
def Pipe.chunks (s : Pipe) (id since : Nat) : List Byte := pieces s.log id since

/-- What it says that came from the process. -/
def Pipe.gifts (s : Pipe) (id since : Nat) : List Byte := pieces s.inlog id since

/-- The bytes are those that the process has moved since then. -/
def Logged (log : List (Nat × List Byte)) (id since : Nat) (bytes : List Byte) : Prop :=
  since ≤ log.length ∧ bytes = pieces log id since

/-- The buffer of a reader has the pieces it got, one behind the other. -/
def Pipe.Received (s : Pipe) (id : Nat) (c : ReadCall) : Prop :=
  Logged s.log id c.since (cells c.buffer 0 c.readed)

/-- The buffer of a writer begins with the pieces it gave. -/
def Pipe.Sent (s : Pipe) (id : Nat) (w : WriteCall) : Prop :=
  Logged s.inlog id w.since (cells w.buffer 0 w.writed)

/-- There is something to do, and as much as is missing. -/
def Wants (done count : Nat) (all : Int) : Prop := 0 < count ∧ ((done : Int) < all → all = done + count)

def ReadCall.Wants (c : ReadCall) : Prop := Fs.Wants c.readed c.count c.count1

def WriteCall.Wants (c : WriteCall) : Prop := Fs.Wants c.writed c.count c.count1

/-- The page, and what went in and out. -/
structure Pipe.Flow (s : Pipe) : Prop where
  carries : Carries s.buffer pipeSize s.readp s.size s.ins s.outs
  readp : s.readp < pipeSize
  writep : (s.readp + s.size) % pipeSize = s.writep

/-- What a process has. -/
def Pipe.Settled (s : Pipe) (id : Nat) : Caller → Prop
  | .idle => True
  | .reader c ret => s.Received id c ∧ (ret = none → c.Wants)
  | .writer w ret => s.Sent id w ∧ (ret = none → w.Wants)

structure Pipe.Inv (s : Pipe) : Prop where
  flow : s.Flow
  settled : ∀ id, s.Settled id (s.caller id)

/-- All but the process that runs. -/
structure Pipe.InvBut (s : Pipe) (id : Nat) : Prop where
  flow : s.Flow
  settled : ∀ i, i ≠ id → s.Settled i (s.caller i)

theorem Pipe.Inv.but (h : s.Inv) (id : Nat) : s.InvBut id :=
  ⟨h.flow, fun i _ => h.settled i⟩

theorem Pipe.Inv.fresh (page : Nat → Byte) : (Pipe.fresh page).Inv where
  flow := ⟨Carries.start .., Nat.zero_lt_succ _, rfl⟩
  settled := fun _ => trivial

/-- The process goes to sleep or returns. -/
theorem Pipe.InvBut.setCaller (h : s.InvBut id) (hx : s.Settled id x) : (s.setCaller id x).Inv := by
  have hsame (i : Nat) (y : Caller) (hy : s.Settled i y) : (s.setCaller id x).Settled i y := by
    cases y with
    | idle => trivial
    | reader c ret | writer c ret => exact hy
  refine ⟨⟨h.flow.carries, h.flow.readp, h.flow.writep⟩, fun i => hsame i _ ?_⟩
  show s.Settled i (Function.update s.caller id x i)
  rw [Function.update_apply]
  split
  · next hid => exact hid ▸ hx
  · next hid => exact h.settled i hid

/-- A log grows. -/
theorem Logged.append (h : Logged log id since bytes) (extra : List (Nat × List Byte)) :
    Logged (log ++ extra) id since (bytes ++ (extra.filter (·.1 = id)).flatMap Prod.snd) := by
  obtain ⟨hsince, hbytes⟩ := h
  refine ⟨?_, ?_⟩
  · rw [List.length_append]
    exact Nat.le_trans hsince (Nat.le_add_right ..)
  · unfold pieces
    rw [List.drop_append_of_le_length hsince, List.filter_append, List.flatMap_append, hbytes]
    rfl

/-- Pieces of others do not concern a process. -/
theorem Logged.frame (h : Logged log id since bytes) (hextra : ∀ p ∈ extra, p.1 ≠ id) :
    Logged (log ++ extra) id since bytes := by
  have hnone : extra.filter (·.1 = id) = [] := by
    rw [List.filter_eq_nil_iff]
    exact fun p hp => by simpa using hextra p hp
  have hall := h.append extra
  rwa [hnone, List.flatMap_nil, List.append_nil] at hall

/-- A call that begins has moved nothing. -/
theorem Logged.start (log : List (Nat × List Byte)) (id : Nat) : Logged log id log.length [] := by
  simp [Logged, pieces]

/-- The process that runs copies something. -/
theorem Pipe.InvBut.copy (h : s.InvBut id) (hflow : s'.Flow) (hcaller : s'.caller = s.caller)
    (hlog : s'.log = s.log ++ extra) (hinlog : s'.inlog = s.inlog ++ given)
    (hextra : ∀ p ∈ extra ++ given, p.1 = id) : s'.InvBut id := by
  refine ⟨hflow, fun i hid => ?_⟩
  have hi := h.settled i hid
  have hother (p : Nat × List Byte) (hp : p ∈ extra ++ given) : p.1 ≠ i :=
    fun he => hid (he.symm.trans (hextra p hp))
  rw [hcaller]
  cases hcall : s.caller i with
  | idle => trivial
  | writer d ret =>
    rw [hcall] at hi
    refine ⟨?_, hi.2⟩
    unfold Pipe.Sent
    rw [hinlog]
    exact hi.1.frame fun p hp => hother p (List.mem_append_right _ hp)
  | reader d ret =>
    rw [hcall] at hi
    refine ⟨?_, hi.2⟩
    unfold Pipe.Received
    rw [hlog]
    exact hi.1.frame fun p hp => hother p (List.mem_append_left _ hp)

-- ======== reading

/-- One turn takes the bytes up to the end of the page. -/
theorem readTurn_inv (h : s.InvBut id) (hrec : s.Received id c) (hcount : 0 < count) (hsize : count ≤ s.size) :
    ∃ s' c' count', s.readTurn id c count = (s', c', count') ∧ s'.InvBut id ∧ s'.Received id c' ∧
      c'.readed + count' = c.readed + count ∧ s'.size + count = s.size + count' ∧ count' < count ∧
      c'.count1 = c.count1 := by
  unfold Pipe.readTurn
  extract_lets reading bytes d t
  have hreading : 0 < reading ∧ reading ≤ count ∧ s.readp + reading ≤ pipeSize := by
    have := h.flow.readp
    dsimp only [reading]
    split <;> omega
  obtain ⟨hpos, hle, hrun⟩ := hreading
  have hbytes : bytes = cells s.buffer s.readp reading := memread_eq_cells ..
  have hlen : bytes.length = reading := by rw [hbytes, cells_length]
  have hlog : t.log = s.log ++ [(id, bytes)] := rfl
  have hflow : t.Flow := by
    refine ⟨?_, advance_lt .., ?_⟩
    · show Carries s.buffer pipeSize (Pipe.advance s.readp reading) (s.size - reading) s.ins t.outs
      have houts : t.outs = s.outs ++ cells s.buffer s.readp reading := by
        rw [Pipe.outs, hlog, List.flatMap_append, hbytes]
        simp [Pipe.outs]
      rw [advance_eq hrun, houts]
      exact h.flow.carries.take (Nat.le_trans hle hsize) hrun
    · show (Pipe.advance s.readp reading + (s.size - reading)) % pipeSize = s.writep
      rw [advance_eq hrun, Nat.mod_add_mod, ← h.flow.writep, Nat.add_assoc,
        Nat.add_sub_cancel' (Nat.le_trans hle hsize)]
  have hmine : t.Received id d := by
    show Logged (s.log ++ [(id, bytes)]) id c.since (cells (memcpy c.buffer c.readed bytes) 0 (c.readed + reading))
    rw [← hlen, cells_append]
    simpa using hrec.append [(id, bytes)]
  refine ⟨t, d, count - reading, rfl, h.copy hflow rfl hlog (List.append_nil _).symm (by simp), hmine, ?_, ?_,
    by omega, rfl⟩
  · show c.readed + reading + (count - reading) = _
    omega
  · show s.size - reading + count = s.size + (count - reading)
    omega

/-- A call that goes on has the rest to do. -/
theorem rest_wants {all : Int} {done : Nat} (h : done < all) : Wants done (all - done).toNat all := by
  unfold Wants
  omega

/-- The loop copies out what is asked for. -/
theorem readLoop_inv (hturns : count ≤ turns) (h : s.InvBut id) (hrec : s.Received id c)
    (hsize : count ≤ s.size) :
    ∃ s' c', Pipe.readLoop id turns s c count = (s', c') ∧ s'.InvBut id ∧ s'.Received id c' ∧
      c'.readed = c.readed + count ∧ s'.size + count = s.size ∧ c'.count1 = c.count1 := by
  induction turns generalizing s c count with
  | zero =>
    obtain rfl : count = 0 := Nat.le_zero.mp hturns
    exact ⟨s, c, rfl, h, hrec, rfl, rfl, rfl⟩
  | succ turns ih =>
    by_cases hzero : count = 0
    · subst hzero
      exact ⟨s, c, if_pos rfl, h, hrec, rfl, rfl, rfl⟩
    · obtain ⟨s1, c1, count1, hturn, h1, hrec1, hreaded, hsize1, hlt, hcount1⟩ :=
        readTurn_inv h hrec (Nat.pos_of_ne_zero hzero) hsize
      obtain ⟨s', c', hloop, h', hrec', hreaded', hsize', hcount1'⟩ :=
        ih (show count1 ≤ turns by omega) h1 hrec1 (by omega)
      refine ⟨s', c', ?_, h', hrec', by omega, by omega, hcount1'.trans hcount1⟩
      rw [Pipe.readLoop, if_neg hzero, hturn]
      exact hloop

/-- One round. If it does not end the call, the pipe is empty. -/
theorem readFrom_inv (h : s.InvBut id) (hrec : s.Received id c) (hwants : c.Wants)
    (hrounds : s.size = 0 ∧ 1 ≤ rounds ∨ 2 ≤ rounds) :
    ∃ s', Pipe.readFrom id rounds s c = some s' ∧ s'.Inv := by
  induction rounds generalizing s c with
  | zero => omega
  | succ rounds ih =>
    rw [Pipe.readFrom]
    split
    · split
      · exact ⟨_, rfl, h.setCaller ⟨hrec, nofun⟩⟩
      · split
        · exact ⟨_, rfl, h.setCaller ⟨hrec, fun _ => hwants⟩⟩
        · exact ⟨_, rfl, h.setCaller ⟨hrec, nofun⟩⟩
    · next hsize =>
      extract_lets n
      have hn : n ≤ s.size ∧ n ≤ c.count ∧ (n = s.size ∨ n = c.count) := by
        dsimp only [n]
        split <;> omega
      obtain ⟨s1, c1, hloop, h1, hrec1, hreaded, hsize1, hcount1⟩ :=
        readLoop_inv (Nat.le_refl n) h hrec hn.1
      rw [hloop]
      dsimp only
      split
      · next hless =>
        have hall := hwants.2 (by omega)
        exact ih ⟨h1.flow, h1.settled⟩ hrec1 (rest_wants hless) (.inl ⟨by omega, by omega⟩)
      · exact ⟨_, rfl, h1.setCaller ⟨hrec1, nofun⟩⟩

-- ======== writing

/-- One turn fills the bytes up to the end of the page. -/
theorem writeTurn_inv (h : s.InvBut id) (hsent : s.Sent id w) (hcount : 0 < count)
    (hsize : s.size + count ≤ pipeSize) :
    ∃ s' w' count', s.writeTurn id w count = (s', w', count') ∧ s'.InvBut id ∧ s'.Sent id w' ∧
      w'.writed + count' = w.writed + count ∧ s'.size + count' = s.size + count ∧ count' < count ∧
      w'.count1 = w.count1 := by
  unfold Pipe.writeTurn
  extract_lets writing bytes d t
  have hwritep : s.writep < pipeSize := by
    rw [← h.flow.writep]
    exact Nat.mod_lt _ (Nat.zero_lt_succ _)
  have hwriting : 0 < writing ∧ writing ≤ count ∧ s.writep + writing ≤ pipeSize := by
    dsimp only [writing]
    split <;> omega
  obtain ⟨hpos, hle, hrun⟩ := hwriting
  have hbytes : bytes = cells w.buffer w.writed writing := memread_eq_cells ..
  have hlen : bytes.length = writing := by rw [hbytes, cells_length]
  have hinlog : t.inlog = s.inlog ++ [(id, bytes)] := rfl
  have hins : t.ins = s.ins ++ bytes := by
    rw [Pipe.ins, hinlog, List.flatMap_append]
    simp [Pipe.ins]
  have hflow : t.Flow := by
    refine ⟨?_, h.flow.readp, ?_⟩
    · have hnew : cells (memcpy s.buffer s.writep bytes) s.writep bytes.length = bytes := cells_memcpy ..
      have hput := h.flow.carries.put h.flow.writep (by omega) (by omega) hnew (fun i hi => if_neg hi)
      rw [hlen, ← hins] at hput
      exact hput
    · show (s.readp + (s.size + writing)) % pipeSize = Pipe.advance s.writep writing
      rw [advance_eq hrun, ← h.flow.writep, Nat.mod_add_mod, Nat.add_assoc]
  have hmine : t.Sent id d := by
    show Logged (s.inlog ++ [(id, bytes)]) id w.since (cells w.buffer 0 (w.writed + writing))
    rw [cells_add, Nat.zero_add, ← hbytes]
    simpa using hsent.append [(id, bytes)]
  refine ⟨t, d, count - writing, rfl, h.copy hflow rfl (List.append_nil _).symm hinlog (by simp), hmine, ?_, ?_,
    by omega, rfl⟩
  · show w.writed + writing + (count - writing) = _
    omega
  · show s.size + writing + (count - writing) = _
    omega

/-- The loop copies in what is asked for. -/
theorem writeLoop_inv (hturns : count ≤ turns) (h : s.InvBut id) (hsent : s.Sent id w)
    (hsize : s.size + count ≤ pipeSize) :
    ∃ s' w', Pipe.writeLoop id turns s w count = (s', w') ∧ s'.InvBut id ∧ s'.Sent id w' ∧
      w'.writed = w.writed + count ∧ s'.size = s.size + count ∧ w'.count1 = w.count1 := by
  induction turns generalizing s w count with
  | zero =>
    obtain rfl : count = 0 := Nat.le_zero.mp hturns
    exact ⟨s, w, rfl, h, hsent, rfl, rfl, rfl⟩
  | succ turns ih =>
    by_cases hzero : count = 0
    · subst hzero
      exact ⟨s, w, if_pos rfl, h, hsent, rfl, rfl, rfl⟩
    · obtain ⟨s1, w1, count1, hturn, h1, hsent1, hwrited, hsize1, hlt, hcount1⟩ :=
        writeTurn_inv h hsent (Nat.pos_of_ne_zero hzero) hsize
      obtain ⟨s', w', hloop, h', hsent', hwrited', hsize', hcount1'⟩ :=
        ih (show count1 ≤ turns by omega) h1 hsent1 (by omega)
      refine ⟨s', w', ?_, h', hsent', by omega, by omega, hcount1'.trans hcount1⟩
      rw [Pipe.writeLoop, if_neg hzero, hturn]
      exact hloop

/-- One round. If it does not end the call, the pipe is full. -/
theorem writeFrom_inv (h : s.InvBut id) (hsent : s.Sent id w) (hwants : w.Wants)
    (hrounds : pipeSize ≤ s.size ∧ 1 ≤ rounds ∨ 2 ≤ rounds) :
    ∃ s', Pipe.writeFrom id rounds s w = some s' ∧ s'.Inv := by
  induction rounds generalizing s w with
  | zero => omega
  | succ rounds ih =>
    rw [Pipe.writeFrom]
    split
    · exact ⟨_, rfl, h.setCaller ⟨hsent, nofun⟩⟩
    · split
      · exact ⟨_, rfl, h.setCaller ⟨hsent, fun _ => hwants⟩⟩
      · next hsize =>
        extract_lets n
        have hn : n ≤ pipeSize - s.size ∧ n ≤ w.count ∧ (n = pipeSize - s.size ∨ n = w.count) := by
          dsimp only [n]
          split <;> omega
        obtain ⟨s1, w1, hloop, h1, hsent1, hwrited, hsize1, hcount1⟩ :=
          writeLoop_inv (Nat.le_refl n) h hsent (by omega)
        rw [hloop]
        dsimp only
        split
        · next hless =>
          have hall := hwants.2 (by omega)
          exact ih ⟨h1.flow, h1.settled⟩ hsent1 (rest_wants hless) (.inl ⟨by omega, by omega⟩)
        · exact ⟨_, rfl, h1.setCaller ⟨hsent1, nofun⟩⟩

-- ======== runs

/-- A call that starts has all of it to do. -/
theorem count_wants {k : BitVec 32} (hk : k ≠ 0) : Wants 0 k.toNat k.toInt := by
  refine ⟨BitVec.toNat_pos_of_ne_zero hk, fun hlt => ?_⟩
  rw [BitVec.toInt_eq_toNat_cond] at hlt ⊢
  split at hlt
  · omega
  · omega

/-- Whatever can happen does, and keeps the invariant. -/
theorem Pipe.Inv.step (h : s.Inv) (hfair : e.Fair s) : ∃ s', e.apply s = some s' ∧ s'.Inv := by
  cases e with
  | read id buffer k ndelay =>
    by_cases hk : k = 0
    · exact ⟨s, if_pos hk, h⟩
    · have hrec : s.Received id ⟨buffer, 0, k.toNat, k.toInt, ndelay, s.log.length⟩ := Logged.start ..
      obtain ⟨s', hs, h'⟩ := readFrom_inv (h.but id) hrec (count_wants hk) (.inr (Nat.le_refl 2))
      refine ⟨s', ?_, h'⟩
      rw [apply, Pipe.doRead, if_neg hk]
      exact hs
  | write id buffer k =>
    by_cases hk : k = 0
    · exact ⟨s, if_pos hk, h⟩
    · have hsent : s.Sent id ⟨buffer, 0, k.toNat, k.toInt, s.inlog.length⟩ := Logged.start ..
      obtain ⟨s', hs, h'⟩ := writeFrom_inv (h.but id) hsent (count_wants hk) (.inr (Nat.le_refl 2))
      refine ⟨s', ?_, h'⟩
      rw [apply, Pipe.doWrite, if_neg hk]
      exact hs
  | wake id sig =>
    have hset := h.settled id
    rw [PipeEvent.Fair] at hfair
    rw [apply, Pipe.wake]
    rcases hc : s.caller id with _ | ⟨c, _ | _⟩ | ⟨w, _ | _⟩
    all_goals rw [hc] at hset hfair
    case reader.none =>
      cases sig with
      | true => exact ⟨_, rfl, (h.but id).setCaller ⟨hset.1, by simp⟩⟩
      | false => exact readFrom_inv (h.but id) hset.1 (hset.2 rfl) (.inr (Nat.le_refl 2))
    case writer.none =>
      cases sig with
      | true => exact ⟨_, rfl, (h.but id).setCaller ⟨hset.1, by simp⟩⟩
      | false => exact writeFrom_inv (h.but id) hset.1 (hset.2 rfl) (.inr (Nat.le_refl 2))
    all_goals cases hfair
  | close =>
    refine ⟨_, rfl, ⟨h.flow.carries, h.flow.readp, h.flow.writep⟩, fun i => ?_⟩
    have hi := h.settled i
    cases hc : s.caller i with
    | idle => trivial
    | reader _ _ | writer _ _ =>
      rw [hc] at hi
      exact hi

theorem PipeRun.inv (h : PipeRun s) : s.Inv := by
  refine Reached.inv (fun s hs => ?_) (fun s e s' hinv hfair hs => ?_) h
  · obtain ⟨page, rfl⟩ := hs
    exact .fresh page
  · obtain ⟨s1, hs1, hinv1⟩ := hinv.step hfair
    rw [hs1] at hs
    cases hs
    exact hinv1

/-- In every run: what was copied out is what was copied in first, the rest
is the `i_size` bytes in the page, the two positions are that far apart,
and a reader's buffer has its pieces one behind the other. What was copied
in is what the writers' buffers begin with. Every call ends or sleeps. -/
theorem pipe_fifo (h : PipeRun s) :
    s.outs <+: s.ins ∧ s.ins.length = s.outs.length + s.size ∧ s.size ≤ 4096 ∧
    (s.readp + s.size) % 4096 = s.writep ∧
    (∀ id c ret, s.caller id = .reader c ret → cells c.buffer 0 c.readed = s.chunks id c.since) ∧
    (∀ id w ret, s.caller id = .writer w ret → cells w.buffer 0 w.writed = s.gifts id w.since) ∧
    ∀ e : PipeEvent, e.Fair s → (e.apply s).isSome := by
  have hinv := h.inv
  refine ⟨hinv.flow.carries.isPrefix, hinv.flow.carries.length_eq, hinv.flow.carries.room, hinv.flow.writep,
    fun id c ret hc => ?_, fun id w ret hw => ?_, fun e he => ?_⟩
  · have hset := hinv.settled id
    rw [hc] at hset
    exact hset.1.2
  · have hset := hinv.settled id
    rw [hw] at hset
    exact hset.1.2
  · obtain ⟨s', hs, -⟩ := hinv.step he
    rw [hs]
    rfl

/-- A reader of four bytes sleeps in the empty pipe, gets three and sleeps
again. -/
theorem pipe_fifo_short : ∃ s, PipeRun s ∧ s.log = [(0, [7, 8, 9])] ∧ s.outs <+: s.ins := by
  obtain ⟨s, hplay, hlog⟩ : ∃ s, play apply PipeEvent.Fair (Pipe.fresh fun _ => 0)
      [.read 0 (fun _ => 0) 4 false, .write 1 (fun i => [7, 8, 9].getD i 0) 3, .wake 0 false] = some s ∧
      s.log = [(0, [7, 8, 9])] := by decide +kernel
  have hs : PipeRun s := .play (.first ⟨_, rfl⟩) hplay
  exact ⟨s, hs, hlog, (pipe_fifo hs).1⟩

-- ======== errors

/-- A call that returned an error has moved no byte. -/
def Caller.Atomic : Caller → Prop
  | .idle => True
  | .reader c ret => ∀ r, ret = some r → r < 0 → c.readed = 0
  | .writer c ret => ∀ r, ret = some r → r < 0 → c.writed = 0

/-- A sleeper that has moved some bytes already does not come back with a
signal, and a writer not to a pipe whose other end was closed. -/
def PipeEvent.Whole (s : Pipe) : PipeEvent → Prop
  | .wake id sig =>
    match s.caller id with
    | .reader c none => sig = true → c.readed = 0
    | .writer c none => sig = true ∨ s.buddy = false → c.writed = 0
    | _ => True
  | _ => True

theorem readLoop_caller : ∀ (turns : Nat) (s : Pipe) (c : ReadCall) (count : Nat),
    (Pipe.readLoop id turns s c count).1.caller = s.caller := by
  intro turns
  induction turns with
  | zero => intro s c count; rfl
  | succ turns ih =>
    intro s c count
    rw [Pipe.readLoop]
    split
    · rfl
    · exact ih ..

theorem writeLoop_caller : ∀ (turns : Nat) (s : Pipe) (w : WriteCall) (count : Nat),
    (Pipe.writeLoop id turns s w count).1.caller = s.caller
      ∧ (Pipe.writeLoop id turns s w count).1.buddy = s.buddy := by
  intro turns
  induction turns with
  | zero => intro s w count; exact ⟨rfl, rfl⟩
  | succ turns ih =>
    intro s w count
    rw [Pipe.writeLoop]
    split
    · exact ⟨rfl, rfl⟩
    · exact ih ..

/-- All callers are atomic when the one that runs is. -/
theorem atomic_setCaller (h : ∀ i, (s.caller i).Atomic) (hx : x.Atomic) (i : Nat) :
    ((s.setCaller id x).caller i).Atomic := by
  show (Function.update s.caller id x i).Atomic
  rw [Function.update_apply]
  split
  · exact hx
  · exact h i

/-- `do_read` itself returns no error. -/
theorem readFrom_atomic : ∀ {rounds : Nat} {s : Pipe} {c : ReadCall}, (∀ i, (s.caller i).Atomic) →
    Pipe.readFrom id rounds s c = some s' → ∀ i, (s'.caller i).Atomic := by
  intro rounds
  induction rounds with
  | zero => intro s c _ hs; cases hs
  | succ rounds ih =>
    intro s c h hs
    have hback (d : ReadCall) : (Caller.reader d (some d.readed)).Atomic := by
      intro r hr hneg
      cases hr
      omega
    rw [Pipe.readFrom] at hs
    split at hs
    · split at hs
      · cases hs
        exact atomic_setCaller h (hback c)
      · split at hs
        · cases hs
          exact atomic_setCaller h nofun
        · cases hs
          exact atomic_setCaller h (hback c)
    · dsimp only at hs
      generalize (if s.size < c.count then s.size else c.count) = n at hs
      have h1 (i : Nat) : ((Pipe.readLoop id n s c n).1.caller i).Atomic := by
        rw [readLoop_caller]
        exact h i
      split at hs
      · exact ih h1 hs
      · cases hs
        exact atomic_setCaller h1 (hback _)

/-- `do_write` returns an error at the start of a round, and the other end
is not closed within a round. -/
theorem writeFrom_atomic : ∀ {rounds : Nat} {s : Pipe} {w : WriteCall}, (∀ i, (s.caller i).Atomic) →
    (s.buddy = false → w.writed = 0) →
    Pipe.writeFrom id rounds s w = some s' → ∀ i, (s'.caller i).Atomic := by
  intro rounds
  induction rounds with
  | zero => intro s w _ _ hs; cases hs
  | succ rounds ih =>
    intro s w h hbuddy hs
    rw [Pipe.writeFrom] at hs
    split at hs
    · next hclosed =>
      cases hs
      exact atomic_setCaller h fun r _ _ => hbuddy (by simpa using hclosed)
    · next hopen =>
      split at hs
      · cases hs
        exact atomic_setCaller h nofun
      · dsimp only at hs
        generalize (if pipeSize - s.size < w.count then pipeSize - s.size else w.count) = n at hs
        obtain ⟨hcaller, hsame⟩ := @writeLoop_caller id n s w n
        have h1 (i : Nat) : ((Pipe.writeLoop id n s w n).1.caller i).Atomic := by
          rw [hcaller]
          exact h i
        split at hs
        · refine ih h1 (fun hoff => ?_) hs
          rw [hsame] at hoff
          simp [hoff] at hopen
        · cases hs
          refine atomic_setCaller h1 fun r hr hneg => ?_
          cases hr
          omega

/-- Without a signal or a closed end in between, nothing is moved by a
call that fails. -/
theorem atomic_step (h : ∀ i, (s.caller i).Atomic) (hwhole : e.Whole s)
    (hs : e.apply s = some s') (i : Nat) : (s'.caller i).Atomic := by
  cases e with
  | read id buffer k ndelay =>
    rw [apply, Pipe.doRead] at hs
    split at hs
    · cases hs
      exact h i
    · exact readFrom_atomic h hs i
  | write id buffer k =>
    rw [apply, Pipe.doWrite] at hs
    split at hs
    · cases hs
      exact h i
    · exact writeFrom_atomic h (fun _ => rfl) hs i
  | wake id sig =>
    rw [apply, Pipe.wake] at hs
    rw [PipeEvent.Whole] at hwhole
    rcases hc : s.caller id with _ | ⟨c, _ | _⟩ | ⟨w, _ | _⟩
    all_goals rw [hc] at hs hwhole
    case reader.none =>
      cases sig with
      | true =>
        cases hs
        refine atomic_setCaller h ?_ i
        exact fun _ _ _ => hwhole rfl
      | false => exact readFrom_atomic h hs i
    case writer.none =>
      cases sig with
      | true =>
        cases hs
        refine atomic_setCaller h ?_ i
        exact fun _ _ _ => hwhole (.inl rfl)
      | false => exact writeFrom_atomic h (fun hoff => hwhole (.inr hoff)) hs i
    all_goals cases hs
  | close =>
    cases hs
    exact h i

/-- In every run in which no one is sent away half way, a call that
returned an error has taken nothing out of the pipe and put nothing in. -/
theorem pipe_error_atomic (h : Reached (fun s => ∃ page, s = Pipe.fresh page) apply
      (fun s e => e.Fair s ∧ e.Whole s) s) {id : Nat} {r : Int} (hneg : r < 0) :
    (∀ c, s.caller id = .reader c (some r) → c.readed = 0 ∧ s.chunks id c.since = [])
      ∧ ∀ w, s.caller id = .writer w (some r) → w.writed = 0 ∧ s.gifts id w.since = [] := by
  have hatomic : ∀ i, (s.caller i).Atomic := by
    refine Reached.inv (fun s hs i => ?_) (fun s e s' hi hok hs => atomic_step hi hok.2 hs) h
    obtain ⟨page, rfl⟩ := hs
    trivial
  have hmine := hatomic id
  have hset := (PipeRun.inv (h.mono fun _ _ => And.left)).settled id
  refine ⟨fun c hc => ?_, fun w hw => ?_⟩
  · rw [hc] at hmine hset
    have hzero := hmine r rfl hneg
    refine ⟨hzero, hset.1.2.symm.trans ?_⟩
    rw [hzero, cells_zero]
  · rw [hw] at hmine hset
    have hzero := hmine r rfl hneg
    refine ⟨hzero, hset.1.2.symm.trans ?_⟩
    rw [hzero, cells_zero]

/-- A reader in the empty pipe is sent away with a signal. -/
theorem pipe_error_atomic_signal : ∃ s : Pipe, ∃ c, s.caller 0 = .reader c (some (-eintr))
    ∧ c.readed = 0 ∧ s.chunks 0 c.since = [] :=
  ⟨_, _, rfl, (pipe_error_atomic
    (.step (.wake 0 true)
      (.step (.read 0 (fun _ => 0) 4 false) (.first ⟨fun _ => 0, rfl⟩) ⟨rfl, trivial⟩ rfl)
      ⟨rfl, fun _ => rfl⟩ rfl) (by decide)).1 _ rfl⟩

/-- A reader got three bytes, and an error. -/
def Pipe.losing (s : Pipe) : Bool :=
  match s.caller 0 with
  | .reader c (some r) => c.readed = 3 ∧ r = -eintr ∧ s.log = [(0, [7, 8, 9])]
  | _ => false

/-- A reader of four bytes gets three and then a signal: the call fails
and the three bytes are out of the pipe. -/
theorem pipe_error_loses : ∃ s, PipeRun s ∧ ∃ c, s.caller 0 = .reader c (some (-eintr))
    ∧ c.readed = 3 ∧ s.log = [(0, [7, 8, 9])] := by
  obtain ⟨s, hplay, hseen⟩ : ∃ s, play apply PipeEvent.Fair (Pipe.fresh fun _ => 0)
      [.read 0 (fun _ => 0) 4 false, .write 1 (fun i => [7, 8, 9].getD i 0) 3, .wake 0 false,
        .wake 0 true] = some s ∧ s.losing = true := by decide +kernel
  have hs : PipeRun s := .play (.first ⟨_, rfl⟩) hplay
  unfold Pipe.losing at hseen
  split at hseen
  · next c r hc =>
    obtain ⟨hthree, rfl, hlog⟩ := of_decide_eq_true hseen
    exact ⟨s, hs, c, hc, hthree, hlog⟩
  · cases hseen

end Cnix.Fs
