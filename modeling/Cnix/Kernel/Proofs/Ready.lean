/-
Whether a read does what `check_fd_read` says.

A read of an object that is reported readable should not sleep, and a read
of one that is not should. For each kind of object the state, the
descriptor and the count are named at which this is so (`Honest`): a pipe
or a terminal has to hold as much as is asked for, unless something else
ends the read; TCP is right whenever there is a connection; `udp_can_read`
never says no; and `do_read` refuses a raw socket whatever has come.
-/
import Cnix.Driver.Proofs.Tty
import Cnix.Kernel.Ready

namespace Cnix.Kernel

open Cnix.Driver Cnix.Fs Cnix.Net

variable {r : Reader} {count : BitVec 32} {tty : Tty}

/-- The answer of `check_fd_read` and the read agree. -/
def Agrees (o : Obj) (r : Reader) (count : BitVec 32) : Prop :=
  ∃ b, checkFdRead o = .ok b ∧ readFirst o r count = if b then .returns else .sleeps

-- ======== pipes

section Pipes

variable {s : Pipe} {c : ReadCall} {id n turns : Nat}

/-- What the loop of `do_read` leaves. -/
structure Took (s : Pipe) (c : ReadCall) (n : Nat) (s' : Pipe) (c' : ReadCall) : Prop where
  readp : s'.readp < pipeSize
  size : s'.size = s.size - n
  readed : c'.readed = c.readed + n
  buddy : s'.buddy = s.buddy
  ndelay : c'.ndelay = c.ndelay
  count1 : c'.count1 = c.count1

theorem readTurn_took (hreadp : s.readp < pipeSize) (hn : 0 < n) :
    ∃ k, 0 < k ∧ k ≤ n ∧ (s.readTurn id c n).2.2 = n - k ∧
      Took s c k (s.readTurn id c n).1 (s.readTurn id c n).2.1 := by
  unfold Pipe.readTurn
  extract_lets reading bytes d t
  have hreading : 0 < reading ∧ reading ≤ n := by
    dsimp only [reading]
    split <;> omega
  refine ⟨reading, hreading.1, hreading.2, rfl, ?_, rfl, rfl, rfl, rfl, rfl⟩
  show Pipe.advance s.readp reading < pipeSize
  unfold Pipe.advance
  split
  · exact Nat.zero_lt_succ _
  · omega

theorem readLoop_took (hreadp : s.readp < pipeSize) (hturns : n ≤ turns) :
    Took s c n (Pipe.readLoop id turns s c n).1 (Pipe.readLoop id turns s c n).2 := by
  induction turns generalizing s c n with
  | zero =>
    obtain rfl : n = 0 := Nat.le_zero.1 hturns
    exact ⟨hreadp, rfl, rfl, rfl, rfl, rfl⟩
  | succ turns ih =>
    rw [Pipe.readLoop]
    by_cases hzero : n = 0
    · subst hzero
      exact ⟨hreadp, rfl, rfl, rfl, rfl, rfl⟩
    · rw [if_neg hzero]
      obtain ⟨k, hk, hkn, hleft, htook⟩ := readTurn_took hreadp (Nat.pos_of_ne_zero hzero)
      rcases hturn : s.readTurn id c n with ⟨s1, c1, n1⟩
      rw [hturn] at hleft htook
      subst hleft
      obtain ⟨h1, h2, h3, h4, h5, h6⟩ := ih htook.readp (show n - k ≤ turns by omega)
      refine ⟨h1, ?_, ?_, h4.trans htook.buddy, h5.trans htook.ndelay, h6.trans htook.count1⟩
      · rw [h2, htook.size]
        omega
      · rw [h3, htook.readed]
        omega

/-- What came first in a call of `do_read` on a pipe. -/
def callerFirst (s : Option Pipe) (id : Nat) : First :=
  match s with
  | none => .fails
  | some s =>
    match s.caller id with
    | .reader _ (some _) => .returns
    | .reader _ none => .sleeps
    | _ => .fails

theorem callerFirst_reader (s : Pipe) (id : Nat) (c : ReadCall) (ret : Option Int) :
    callerFirst (some (s.setCaller id (.reader c ret))) id = if ret.isSome then .returns else .sleeps := by
  have hcaller : (s.setCaller id (.reader c ret)).caller id = .reader c ret := Function.update_self ..
  unfold callerFirst
  dsimp only
  rw [hcaller]
  cases ret with
  | none | some ret => rfl

/-- A round at an empty pipe. -/
theorem readFrom_empty (rounds : Nat) (hsize : s.size = 0) :
    callerFirst (Pipe.readFrom id (rounds + 1) s c) id
      = if c.ndelay = false ∧ s.buddy = true then .sleeps else .returns := by
  rw [Pipe.readFrom, if_pos hsize]
  cases c.ndelay with
  | true =>
    rw [if_pos rfl, callerFirst_reader]
    rfl
  | false =>
    rw [if_neg Bool.false_ne_true]
    cases s.buddy with
    | true =>
      rw [if_pos rfl, callerFirst_reader]
      rfl
    | false =>
      rw [if_neg Bool.false_ne_true, callerFirst_reader]
      rfl

/-- A read of a pipe sleeps if the pipe does not hold as much, has a
writer, and the descriptor blocks. Of 2^31 bytes or more one round is
done. -/
theorem doRead_first (hreadp : s.readp < pipeSize) (hcount : count ≠ 0) :
    readFirst (.pipe s) r count =
      if r.ndelay = false ∧ s.buddy = true ∧ s.size < count.toNat ∧ (s.size = 0 ∨ count.toNat < 2 ^ 31)
      then .sleeps else .returns := by
  have hpos := BitVec.toNat_pos_of_ne_zero hcount
  rw [readFirst, if_neg hcount]
  show callerFirst (s.doRead r.id r.buffer count r.ndelay) r.id = _
  rw [Pipe.doRead, if_neg hcount]
  by_cases hsize : s.size = 0
  · rw [readFrom_empty 1 hsize]
    refine if_congr ?_ rfl rfl
    rw [hsize]
    exact ⟨fun ⟨h1, h2⟩ => ⟨h1, h2, hpos, .inl rfl⟩, fun ⟨h1, h2, _⟩ => ⟨h1, h2⟩⟩
  · rw [Pipe.readFrom, if_neg hsize]
    dsimp only
    have hn : (if s.size < count.toNat then s.size else count.toNat) = min s.size count.toNat := by
      split <;> omega
    rw [hn]
    have htook := @readLoop_took s ⟨r.buffer, 0, count.toNat, count.toInt, r.ndelay, s.log.length⟩ r.id
      (min s.size count.toNat) _ hreadp (Nat.le_refl _)
    rcases hloop : Pipe.readLoop r.id (min s.size count.toNat) s
      ⟨r.buffer, 0, count.toNat, count.toInt, r.ndelay, s.log.length⟩ (min s.size count.toNat) with ⟨s', c'⟩
    rw [hloop] at htook
    obtain ⟨-, hsize', hreaded, hbuddy, hndelay, hcount1⟩ := htook
    rw [hreaded, hcount1, Nat.zero_add]
    -- an `int` below 2^31 is what was asked for
    have hint : ((min s.size count.toNat : Nat) : Int) < count.toInt ↔
        s.size < count.toNat ∧ count.toNat < 2 ^ 31 := by
      rw [BitVec.toInt_eq_toNat_cond]
      split <;> omega
    by_cases hshort : s.size < count.toNat ∧ count.toNat < 2 ^ 31
    · rw [if_pos (hint.2 hshort), readFrom_empty 0 (by omega)]
      rw [hndelay, hbuddy]
      refine if_congr ?_ rfl rfl
      exact ⟨fun ⟨h1, h2⟩ => ⟨h1, h2, hshort.1, .inr hshort.2⟩, fun ⟨h1, h2, _⟩ => ⟨h1, h2⟩⟩
    · rw [if_neg (fun h => hshort (hint.1 h)), callerFirst_reader]
      exact (if_neg fun h => hshort ⟨h.2.2.1, h.2.2.2.resolve_left hsize⟩).symm

end Pipes

/-- The pipe holds what is asked for, or nobody else has it open, or the
descriptor does not block; at an empty one with a writer it must block. -/
def PipeHonest (s : Pipe) (r : Reader) (count : BitVec 32) : Prop :=
  if s.size = 0 then s.buddy = true → r.ndelay = false
  else r.ndelay = true ∨ s.buddy = false ∨ count.toNat ≤ s.size ∨ 2 ^ 31 ≤ count.toNat

theorem pipe_agrees {s : Pipe} (hreadp : s.readp < pipeSize) (hcount : count ≠ 0) :
    Agrees (.pipe s) r count ↔ PipeHonest s r count := by
  have hpos := BitVec.toNat_pos_of_ne_zero hcount
  unfold Agrees PipeHonest
  rw [doRead_first hreadp hcount]
  simp only [checkFdRead, Except.ok.injEq, exists_eq_left']
  by_cases hsize : s.size = 0
  · cases s.buddy <;> cases r.ndelay <;> simp [hsize, hpos]
  · have hgt : 0 < s.size := Nat.pos_of_ne_zero hsize
    simp only [hgt, true_or, decide_true, if_true, hsize, if_false, false_or]
    rw [ite_eq_right_iff]
    constructor
    · intro h
      by_contra hnot
      simp only [not_or] at hnot
      obtain ⟨h1, h2, h3, h4⟩ := hnot
      cases h ⟨by simpa using h1, by simpa using h2, by omega, by omega⟩
    · rintro h ⟨h1, h2, h3, h4⟩
      rw [h1, h2] at h
      rcases h with h | h | h | h
      · cases h
      · cases h
      · omega
      · omega

-- ======== terminals

/-- `tty_read` gets as far as `check_fd_read` says. -/
def TtyHonest (tty : Tty) (r : Reader) (count : BitVec 32) : Prop :=
  if tty.tq = [] then
    -- the other end of a pseudo terminal is closed, or nothing keeps the read from waiting
    tty.isPty = true ∧ tty.buddyCount = 0 ∨
      (r.own = true ∨ tty.type ≠ .vga) ∧ tty.start.length < count.toNat ∧ r.ndelay = false
  else
    -- something keeps it from waiting
    r.own = false ∧ tty.type = .vga ∨ tty.master = true ∨ r.ndelay = true ∨
      tty.isPty = true ∧ tty.buddyCount = 0 ∨ tty.Enough count.toNat

theorem tty_first (hcount : count ≠ 0) :
    (tty.read r.own r.ndelay count.toNat = .slept → readFirst (.tty tty) r count = .sleeps) ∧
      ((tty.read r.own r.ndelay count.toNat).Back → readFirst (.tty tty) r count = .returns) := by
  rw [readFirst, if_neg hcount]
  refine ⟨fun h => ?_, ?_⟩
  · rw [h]
  · rintro ⟨bytes, error, h⟩
    rw [h]

theorem not_waits {ndelay : Bool} :
    ¬ tty.Waits ndelay ↔ ndelay = true ∨ tty.isPty = true ∧ tty.buddyCount = 0 := by
  constructor
  · intro h
    by_contra hnot
    obtain ⟨h1, h2⟩ := not_or.1 hnot
    exact h ⟨by simpa using h1, h2⟩
  · rintro (h | h) hw
    · rw [hw.blocking] at h
      cases h
    · exact hw.peer h

/-- At an empty queue. -/
theorem tty_agrees_empty (hallow : tty.allowRead = true) (hcount : count ≠ 0) (hempty : tty.tq = []) :
    Agrees (.tty tty) r count ↔ TtyHonest tty r count := by
  obtain ⟨hsleeps, hreturns⟩ := @tty_first r count tty hcount
  have hcan : checkFdRead (.tty tty) = .ok (tty.isPty && tty.buddyCount == 0) := by
    rw [checkFdRead, Tty.canRead, if_neg (not_not_intro hempty)]
  unfold Agrees TtyHonest
  rw [if_pos hempty, hcan]
  simp only [Except.ok.injEq, exists_eq_left']
  by_cases hpeer : tty.isPty = true ∧ tty.buddyCount = 0
  · refine iff_of_true ?_ (.inl hpeer)
    rw [hpeer.1, hpeer.2]
    refine hreturns ?_
    by_cases hearly : r.own = false ∧ tty.type = .vga ∨ count.toNat ≤ tty.start.length
    · exact Tty.read_early hallow hearly
    · obtain ⟨hown, hlt⟩ := not_or.1 hearly
      refine (Tty.read_none hallow ?_ hempty (Nat.lt_of_not_le hlt)).2 (not_waits.2 (.inr hpeer))
      cases hown' : r.own with
      | true => exact .inl rfl
      | false => exact .inr fun hv => hown ⟨hown', hv⟩
  · have hno : (tty.isPty && tty.buddyCount == 0) = false := by
      rw [Bool.and_eq_false_iff]
      by_contra hboth
      simp only [not_or, Bool.not_eq_false, beq_iff_eq] at hboth
      exact hpeer hboth
    rw [hno, or_iff_right hpeer]
    by_cases hearly : r.own = false ∧ tty.type = .vga ∨ count.toNat ≤ tty.start.length
    · rw [hreturns (Tty.read_early hallow hearly)]
      refine iff_of_false nofun fun ⟨hown, hlt, _⟩ => ?_
      rcases hearly with ⟨h1, h2⟩ | h
      · rcases hown with hown | hown
        · rw [hown] at h1
          cases h1
        · exact hown h2
      · omega
    · obtain ⟨hown, hlt⟩ := not_or.1 hearly
      have hown' : r.own = true ∨ tty.type ≠ .vga := by
        cases hr : r.own with
        | true => exact .inl rfl
        | false => exact .inr fun hv => hown ⟨hr, hv⟩
      have hnone := @Tty.read_none tty count.toNat r.own r.ndelay hallow hown' hempty (Nat.lt_of_not_le hlt)
      cases hnd : r.ndelay with
      | true =>
        rw [hreturns (hnone.2 (not_waits.2 (.inl hnd)))]
        exact iff_of_false nofun fun ⟨_, _, h⟩ => by cases h
      | false =>
        rw [hsleeps (hnone.1 ⟨hnd, hpeer⟩)]
        exact iff_of_true rfl ⟨hown', Nat.lt_of_not_le hlt, rfl⟩

/-- At a queue that is not empty. -/
theorem tty_agrees_some (hallow : tty.allowRead = true) (hcount : count ≠ 0) (hne : tty.tq ≠ []) :
    Agrees (.tty tty) r count ↔ TtyHonest tty r count := by
  have hpos := BitVec.toNat_pos_of_ne_zero hcount
  obtain ⟨hsleeps, hreturns⟩ := @tty_first r count tty hcount
  have hcan : checkFdRead (.tty tty) = .ok true := by
    rw [checkFdRead, Tty.canRead, if_pos hne]
  unfold Agrees TtyHonest
  rw [if_neg hne, hcan]
  simp only [Except.ok.injEq, exists_eq_left']
  by_cases hforeign : r.own = false ∧ tty.type = .vga
  · exact iff_of_true (hreturns (Tty.read_early hallow (.inl hforeign))) (.inl hforeign)
  cases hmaster : tty.master with
  | true =>
    exact iff_of_true (hreturns (Tty.read_master hallow hmaster hne)) (.inr (.inl rfl))
  | false =>
    have hown : r.own = true ∨ tty.type ≠ .vga := by
      cases hr : r.own with
      | true => exact .inl rfl
      | false => exact .inr fun hv => hforeign ⟨hr, hv⟩
    have hsome := @Tty.read_some tty count.toNat r.own r.ndelay hallow hmaster hown hpos hne
    by_cases hwait : tty.Waits r.ndelay ∧ ¬ tty.Enough count.toNat
    · rw [hsleeps (hsome.1 hwait)]
      refine iff_of_false nofun ?_
      rintro (h | h | h | h | h)
      · exact hforeign h
      · cases h
      · exact not_waits.2 (.inl h) hwait.1
      · exact not_waits.2 (.inr h) hwait.1
      · exact hwait.2 h
    · refine iff_of_true (hreturns (hsome.2 hwait)) (.inr (.inr ?_))
      by_cases henough : tty.Enough count.toNat
      · exact .inr (.inr henough)
      · rw [← or_assoc]
        exact .inl (not_waits.1 fun hw => hwait ⟨hw, henough⟩)

-- ======== sockets

/-- The data of the first `skbuff` that has some. -/
def firstPiece (pieces : List (List Byte)) : List Byte := (pieces.find? (· ≠ [])).getD []

/-- There is something to read, and what is asked for of it is in one
piece. -/
def SockHonest (count : BitVec 32) : Socket → Prop
  | .stream none => False
  | .stream (some serv) => count.toNat < 2 ^ 31 ∨ serv.rcvring.count = 0 ∨ serv.state = .closed ∨
      serv.state = .syn ∨ (serv.state = .listen ∨ serv.state = .synSent) ∧ serv.rcvskblist = []
  | .dgram none => False
  | .dgram (some serv) => serv.broken = true ∨
      ∃ d ds, serv.rcvskb = d :: ds ∧ (2 ^ 31 ≤ count.toNat ∨ min d.len count.toNat ≤ (firstPiece d.pieces).length)
  | .raw skblist => skblist ≠ []

/-- The first thing a read of a socket does. -/
def sockFirst : Except SockFault (Option Got) → First
  | .ok (some _) => .returns
  | .ok none => .sleeps
  | .error _ => .fails

theorem sock_first (sock : Socket) (hcount : count ≠ 0) :
    readFirst (.sock sock) r count = sockFirst (socketRead sock count) := by
  rw [readFirst, if_neg hcount]
  rcases socketRead sock count with fault | _ | got
  · rfl
  · rfl
  · rfl

theorem toInt_neg_iff : count.toInt < 0 ↔ 2 ^ 31 ≤ count.toNat := by
  rw [BitVec.toInt_eq_toNat_cond]
  split <;> omega

theorem takeRing_first (ring : RingBuffer) (x : Int) :
    sockFirst (do
      let bytes ← takeRing ring x
      return some (.ok bytes)) = if ring.count = 0 ∨ 0 ≤ x then .returns else .fails := by
  unfold takeRing
  by_cases hempty : ring.count = 0
  · rw [if_pos hempty, if_pos (.inl hempty)]
    rfl
  · rw [if_neg hempty]
    by_cases hneg : x < 0
    · rw [if_pos hneg, if_neg (fun h => h.elim hempty (by omega))]
      rfl
    · rw [if_neg hneg, if_pos (.inr (by omega)), RingBuffer.copyFromRing, if_neg hempty,
        if_neg (Nat.not_le.2 (Nat.pos_of_ne_zero hempty))]
      rfl

/-- The connection is in no state to be read from, or nothing waits for
`accept` or `connect`. -/
def TcpIdle (serv : TcpServ) : Prop :=
  serv.state = .closed ∨ serv.state = .syn ∨
    (serv.state = .listen ∨ serv.state = .synSent) ∧ serv.rcvskblist = []

/-- The three answers of `tcp_can_do`. -/
theorem tcpCanDo_cases (serv : TcpServ) :
    serv.tcpCanDo true = 1 ∧ serv.state ≠ .closed ∧ ¬ TcpIdle serv ∨
    serv.tcpCanDo true = 0 ∧ (serv.state = .closed ∨ serv.rcvring.count = 0) ∨
    serv.tcpCanDo true = -1 ∧ serv.state ≠ .closed ∧ (serv.rcvring.count = 0 ∨ TcpIdle serv) := by
  unfold TcpServ.tcpCanDo TcpIdle RingBuffer.ringIsEmpty
  cases hstate : serv.state with
  | closed => exact .inr (.inl ⟨rfl, .inl rfl⟩)
  | listen | synSent => by_cases hq : serv.rcvskblist = [] <;> simp [TcpState.rank, hq]
  | syn => simp [TcpState.rank]
  | closeWait | lastAck | established | finWait1 | finWait2 | closing | timeWait =>
    by_cases hring : serv.rcvring.count = 0
    · cases serv.readable <;> simp [TcpState.rank, hring]
    · simp [TcpState.rank, hring]

theorem rank_closed {st : TcpState} : st.rank < TcpState.listen.rank ↔ st = .closed := by
  cases st <;> simp [TcpState.rank]

/-- TCP agrees unless a negative count meets bytes. -/
theorem tcp_agrees (serv : TcpServ) (hcount : count ≠ 0) :
    Agrees (.sock (.stream (some serv))) r count ↔ SockHonest count (.stream (some serv)) := by
  have hneg := @toInt_neg_iff count
  have hhonest : SockHonest count (.stream (some serv)) ↔
      count.toNat < 2 ^ 31 ∨ serv.rcvring.count = 0 ∨ TcpIdle serv := Iff.rfl
  unfold Agrees
  rw [sock_first _ hcount, hhonest]
  simp only [checkFdRead, sockCanRead, tcpCan, Except.ok.injEq, exists_eq_left', socketRead, tcpReadFirst, if_neg hcount,
    waitResponse, rank_closed]
  rcases tcpCanDo_cases serv with ⟨hdo, hopen, hidle⟩ | ⟨hdo, hring⟩ | ⟨hdo, hopen, hring⟩
  · rw [hdo, if_neg hopen]
    simp only [show (0 : Int) ≤ 1 by decide, if_true, decide_true, show ¬ (1 : Int) < 0 by decide, if_false,
      show (1 : Int) ≠ 0 by decide]
    rw [takeRing_first, ite_eq_left_iff]
    constructor
    · intro h
      by_contra hnot
      simp only [not_or] at hnot
      obtain ⟨h1, h2, -⟩ := hnot
      cases h fun hor => hor.elim h2 fun hge => by omega
    · intro h hnot
      obtain ⟨h1, h2⟩ := not_or.1 hnot
      rcases h with h | h | h
      · omega
      · exact absurd h h1
      · exact absurd h hidle
  · rw [hdo]
    by_cases hclosed : serv.state = .closed
    · rw [if_pos hclosed]
      exact iff_of_true rfl (.inr (.inr (.inl hclosed)))
    · rw [if_neg hclosed]
      exact iff_of_true rfl (.inr (.inl (hring.resolve_left hclosed)))
  · rw [hdo, if_neg hopen]
    exact iff_of_true rfl (.inr hring)

/-- The buffer is used up. -/
theorem copyPieces_used (pieces : List (List Byte)) {left : Nat} (hleft : 0 < left) :
    copyPieces pieces true left = .error .die := by
  obtain ⟨left, rfl⟩ := Nat.exists_eq_succ_of_ne_zero (Nat.ne_of_gt hleft)
  induction pieces with
  | nil => rfl
  | cons piece rest ih =>
    cases piece with
    | nil => exact congrArg (· >>= fun copied => .ok ([] ++ copied)) ih
    | cons b piece => rfl

/-- All that is copied comes from one piece. -/
theorem copyPieces_eq (pieces : List (List Byte)) (left : Nat) :
    copyPieces pieces false left
      = if left ≤ (firstPiece pieces).length then .ok ((firstPiece pieces).take left) else .error .die := by
  cases left with
  | zero =>
    rw [if_pos (Nat.zero_le _), List.take_zero]
    cases pieces <;> rfl
  | succ left =>
    induction pieces with
    | nil => rfl
    | cons piece rest ih =>
      cases piece with
      | nil =>
        -- nothing is copied, and `iovcur` stays where it is
        have hskip : copyPieces ([] :: rest) false (left + 1) = copyPieces rest false (left + 1) := by
          show (copyPieces rest false (left + 1) >>= fun copied => .ok ([] ++ copied)) = _
          cases copyPieces rest false (left + 1) <;> rfl
        exact hskip.trans ih
      | cons b piece =>
        show (copyPieces rest true (left + 1 - ((b :: piece).take (left + 1)).length) >>=
          fun copied => .ok ((b :: piece).take (left + 1) ++ copied)) = ite (left + 1 ≤ (b :: piece).length) _ _
        rw [List.length_take]
        by_cases hfit : left + 1 ≤ (b :: piece).length
        · rw [if_pos hfit, Nat.min_eq_left hfit, Nat.sub_self, copyPieces]
          exact congrArg Except.ok (List.append_nil _)
        · rw [if_neg hfit, copyPieces_used rest (by omega)]
          rfl

/-- `udp_can_read` says yes, so there must be something, in one piece. -/
theorem udp_agrees (serv : UdpServ) (hcount : count ≠ 0) :
    Agrees (.sock (.dgram (some serv))) r count ↔ SockHonest count (.dgram (some serv)) := by
  have hneg := @toInt_neg_iff count
  unfold Agrees
  rw [sock_first _ hcount]
  simp only [checkFdRead, sockCanRead, udpCanRead, Except.ok.injEq, exists_eq_left', if_true, socketRead, udpRead,
    SockHonest]
  cases hbroken : serv.broken with
  | true => exact iff_of_true rfl (.inl rfl)
  | false =>
    rw [if_neg Bool.false_ne_true, or_iff_right Bool.false_ne_true]
    cases hq : serv.rcvskb with
    | nil => exact iff_of_false nofun fun ⟨d, ds, h, _⟩ => by cases h
    | cons d ds =>
      have hex : (∃ d' ds', d :: ds = d' :: ds' ∧
          (2 ^ 31 ≤ count.toNat ∨ min d'.len count.toNat ≤ (firstPiece d'.pieces).length)) ↔
          (2 ^ 31 ≤ count.toNat ∨ min d.len count.toNat ≤ (firstPiece d.pieces).length) := by
        refine ⟨?_, fun h => ⟨d, ds, rfl, h⟩⟩
        rintro ⟨d', ds', he, h⟩
        cases he
        exact h
      rw [hex]
      dsimp only
      unfold copyDgram
      by_cases hbig : count.toInt < 0
      · rw [if_pos hbig]
        exact iff_of_true rfl (.inl (hneg.1 hbig))
      · rw [if_neg hbig, or_iff_right (fun h => hbig (hneg.2 h)), copyPieces_eq]
        by_cases hfit : min d.len count.toNat ≤ (firstPiece d.pieces).length
        · rw [if_pos hfit]
          exact iff_of_true rfl hfit
        · rw [if_neg hfit]
          exact iff_of_false nofun hfit

/-- `do_read` refuses a raw socket. -/
theorem raw_agrees (skblist : List Dgram) (hcount : count ≠ 0) :
    Agrees (.sock (.raw skblist)) r count ↔ SockHonest count (.raw skblist) := by
  unfold Agrees
  rw [sock_first _ hcount]
  cases skblist with
  | nil => exact iff_of_false (fun ⟨b, hb, h⟩ => by cases hb; cases h) fun h => h rfl
  | cons d ds => exact iff_of_true ⟨true, rfl, rfl⟩ (List.cons_ne_nil d ds)

-- ======== every object

/-- There is no other reader. -/
def Sole : Obj → Prop
  | .tty ttyp => ttyp.allowRead = true
  | .sock _ => True
  | .pipe inoptr => inoptr.readp < pipeSize

/-- The states, readers and counts at which readiness means what it
says. -/
def Honest (o : Obj) (r : Reader) (count : BitVec 32) : Prop :=
  match o with
  | .tty ttyp => TtyHonest ttyp r count
  | .sock sock => SockHonest count sock
  | .pipe inoptr => PipeHonest inoptr r count

/-- For every object, reader and positive count. -/
theorem readable_agrees (o : Obj) (r : Reader) (hsole : Sole o) (hcount : count ≠ 0) :
    Agrees o r count ↔ Honest o r count := by
  match o, hsole with
  | .tty ttyp, hallow =>
    by_cases hempty : ttyp.tq = []
    · exact tty_agrees_empty hallow hcount hempty
    · exact tty_agrees_some hallow hcount hempty
  | .sock (.stream none), _ => exact iff_of_false (fun ⟨b, hb, _⟩ => by cases hb) id
  | .sock (.stream (some serv)), _ => exact tcp_agrees serv hcount
  | .sock (.dgram none), _ => exact iff_of_false (fun ⟨b, hb, _⟩ => by cases hb) id
  | .sock (.dgram (some serv)), _ => exact udp_agrees serv hcount
  | .sock (.raw skblist), _ => exact raw_agrees skblist hcount
  | .pipe inoptr, hreadp => exact pipe_agrees hreadp hcount

/-- A reader of its own terminal that blocks. -/
def plainReader : Reader := ⟨true, false, 0, fun _ => 0⟩

/-- A pipe with a writer that holds two bytes. -/
def twoBytes : Pipe := { Pipe.fresh fun _ => 7 with size := 2, writep := 2 }

/-- Two bytes are there and two are asked for. -/
theorem readable_agrees_pipe :
    Sole (.pipe twoBytes) ∧ Honest (.pipe twoBytes) plainReader 2 ∧ Agrees (.pipe twoBytes) plainReader 2 := by
  have hsole : Sole (.pipe twoBytes) := by
    show 0 < pipeSize
    decide
  have hhonest : Honest (.pipe twoBytes) plainReader 2 := .inr (.inr (.inl (by decide)))
  exact ⟨hsole, hhonest, (readable_agrees _ plainReader hsole (by decide)).2 hhonest⟩

/-- A bound UDP socket at which nothing has come is readable, and a read of
it sleeps. -/
theorem udp_readable_sleeps : checkFdRead (.sock (.dgram (some ⟨false, []⟩))) = .ok true ∧
      readFirst (.sock (.dgram (some ⟨false, []⟩))) plainReader 1 = .sleeps ∧
      ¬ Agrees (.sock (.dgram (some ⟨false, []⟩))) plainReader 1 := by
  refine ⟨rfl, by decide, ?_⟩
  rintro ⟨b, hb, h⟩
  cases hb
  exact absurd h (by decide)

end Cnix.Kernel
