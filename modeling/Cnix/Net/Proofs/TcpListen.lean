/-
The queue of a listening socket.

`reasm_tcpskb` counts a `syn` before it looks at the backlog, refuses it
when the count has reached the backlog, and leaves it counted. So a
backlog of `b` has room for `b - 1`, and a `syn` that is refused is never
taken off the count. In a run in which no `syn` finds `b - 1` others in
the queue, the count is right, no more than `b` are queued, and none is
refused (`backlog_kept`).
-/
import Cnix.Lib.Runs
import Cnix.Net.TcpListen
import Cnix.Net.TcpOpen

namespace Cnix.Net

open Lib

variable {serv serv' : TcpServ} {skb : Skb} {b : Nat}

/-- A socket right after `tcp_listen` with a backlog of `b`. -/
def Listening (b : Nat) (serv : TcpServ) : Prop :=
  1 ≤ b ∧ ∃ serv₀ : TcpServ, serv₀.synnum = 0 ∧ serv₀.rcvskblist = []
    ∧ tcpListen (some serv₀) b = .ok serv

/-- The count is the number of queued `syn`s, which fit into the
backlog. -/
structure Booked (b : Nat) (serv : TcpServ) : Prop where
  state : serv.state = .listen
  backlog : serv.backlog = b
  syns : ∀ skb ∈ serv.rcvskblist, skb.tcp.syn = true
  count : serv.synnum = serv.rcvskblist.length
  le : serv.rcvskblist.length ≤ b

/-- A `syn` finds room: fewer than `b - 1` are queued. -/
def ListenEvent.Roomy (serv : TcpServ) : ListenEvent → Prop
  | .arrive skb => skb.tcp.syn = true → serv.rcvskblist.length + 1 < serv.backlog
  | .accept => True

theorem Listening.booked (h : Listening b serv) : Booked b serv := by
  obtain ⟨hb, serv0, hsyn, hlist, hlisten⟩ := h
  unfold tcpListen at hlisten
  dsimp only at hlisten
  split at hlisten
  · cases hlisten
  cases hlisten
  refine ⟨rfl, ?_, ?_, ?_, ?_⟩
  · rw [if_pos (by omega), Int.toNat_natCast]
  · rw [hlist]
    intro skb hskb
    cases hskb
  · rw [hsyn, hlist]
    rfl
  · rw [hlist]
    exact Nat.zero_le b

/-- An arrival may stop the timer first, which does not matter to the
queue. -/
theorem Booked.reasm (h : Booked b serv) : ∃ serv1 : TcpServ, Booked b serv1
    ∧ serv1.rcvskblist = serv.rcvskblist ∧ reasmTcpskb serv skb = .ok (reasmUnsynced serv1 skb) := by
  unfold reasmTcpskb
  split
  · next htimer =>
    have hstop : serv.stopAnyTimer = { serv with timertype := .none, armed := false } :=
      if_neg (by rw [htimer]; decide)
    have hbooked : Booked b serv.stopAnyTimer := by
      rw [hstop]
      exact { h with }
    exact ⟨serv.stopAnyTimer, hbooked, by rw [hstop], if_pos (.inr (.inl hbooked.state))⟩
  · exact ⟨serv, h, rfl, if_pos (.inr (.inl h.state))⟩

/-- A `syn` that finds room is queued. -/
theorem Booked.queue (h : Booked b serv)
    (hroom : skb.tcp.syn = true → serv.rcvskblist.length + 1 < serv.backlog) :
    ∃ serv', reasmUnsynced serv skb = ⟨skb.tcp.syn, some serv'⟩ ∧ Booked b serv' := by
  unfold reasmUnsynced
  cases hsyn : skb.tcp.syn with
  | false => exact ⟨serv, rfl, h⟩
  | true =>
    have hlt := hroom hsyn
    have hcount := h.count
    have hbacklog := h.backlog
    rw [if_neg (by simp), h.state]
    dsimp only
    rw [if_neg (by omega)]
    refine ⟨_, rfl, rfl, h.backlog, ?_, ?_, ?_⟩
    · exact List.forall_mem_append.mpr ⟨h.syns, List.forall_mem_singleton.mpr hsyn⟩
    · rw [List.length_append, List.length_singleton, ← hcount]
    · rw [List.length_append, List.length_singleton]
      omega

theorem Booked.accept (h : Booked b serv) : Booked b (tcpStateListen serv).2 := by
  unfold tcpStateListen
  split
  · exact h
  · next skb list hlist =>
    have hsyns := h.syns
    have hcount := h.count
    have hle := h.le
    rw [hlist] at hsyns hcount hle
    rw [List.length_cons] at hcount hle
    have hrest : ∀ p ∈ list, p.tcp.syn = true := fun p hp => hsyns p (List.mem_cons_of_mem _ hp)
    have hnum : serv.synnum - 1 = list.length := by omega
    have hlen : list.length ≤ b := by omega
    split
    · exact ⟨h.state, h.backlog, hrest, hnum, hlen⟩
    · exact ⟨h.state, h.backlog, hrest, hnum, hlen⟩

/-- An arrival that finds room. -/
theorem Booked.arrive (h : Booked b serv)
    (hroom : skb.tcp.syn = true → serv.rcvskblist.length + 1 < serv.backlog) :
    ∃ serv', reasmTcpskb serv skb = .ok ⟨skb.tcp.syn, some serv'⟩ ∧ Booked b serv' := by
  obtain ⟨serv1, h1, hlist, hreasm⟩ := @Booked.reasm serv skb b h
  rw [hreasm]
  obtain ⟨serv', hqueue, hbooked⟩ := @Booked.queue serv1 skb b h1 fun hsyn => by
    rw [hlist, h1.backlog, ← h.backlog]
    exact hroom hsyn
  rw [hqueue]
  exact ⟨serv', rfl, hbooked⟩

theorem Booked.step {e : ListenEvent} (h : Booked b serv) (hroom : e.Roomy serv)
    (hstep : serv.listenStep e = some serv') : Booked b serv' := by
  cases e with
  | arrive skb =>
    obtain ⟨serv1, hreasm, hbooked⟩ := h.arrive hroom
    unfold TcpServ.listenStep at hstep
    dsimp only at hstep
    rw [hreasm] at hstep
    cases hstep
    exact hbooked
  | accept =>
    cases hstep
    exact h.accept

/-- As long as no `syn` finds `b - 1` or more in the queue, the count is
the number of queued `syn`s, no more than `b` are queued, and no `syn` is
refused. -/
theorem backlog_kept (b : Nat) (serv : TcpServ)
    (hreach : Reached (Listening b) TcpServ.listenStep (fun serv e => e.Roomy serv) serv) :
    serv.synnum = (serv.rcvskblist.filter (·.tcp.syn)).length
      ∧ (serv.rcvskblist.filter (·.tcp.syn)).length ≤ b
      ∧ ∀ skb, skb.tcp.syn = true → (ListenEvent.arrive skb).Roomy serv →
          ∃ serv', reasmTcpskb serv skb = .ok ⟨true, some serv'⟩ := by
  have h : Booked b serv :=
    hreach.inv (fun _ hfirst => hfirst.booked) fun _ _ _ h hroom hstep => h.step hroom hstep
  rw [List.filter_eq_self.mpr h.syns]
  refine ⟨h.count, h.le, fun skb hsyn hroom => ?_⟩
  obtain ⟨serv', hreasm, -⟩ := h.arrive hroom
  rw [hsyn] at hreasm
  exact ⟨serv', hreasm⟩

/-- A bound socket. -/
def boundServ : TcpServ := allocTcpserv ⟨ethernet, 0, fun _ => 0, fun _ => 0, false⟩

/-- It listens with a backlog. -/
def listeningServ (b : Nat) : TcpServ := { boundServ with state := .listen, backlog := b }

/-- A `syn`. -/
def synSkb : Skb := ⟨⟨0, 0, 5, false, true, false, false, false, 0, 0⟩, 20, [], []⟩

theorem listeningServ_listening {b : Nat} (hb : 1 ≤ b) : Listening b (listeningServ b) := by
  refine ⟨hb, boundServ, rfl, rfl, ?_⟩
  have hbacklog : (if (0 : Int) < b then (b : Int).toNat else 1) = b := by
    rw [if_pos (by omega), Int.toNat_natCast]
  show Except.ok { boundServ with
    state := .listen, backlog := if (0 : Int) < b then (b : Int).toNat else 1 } = _
  rw [hbacklog]
  rfl

/-- A backlog of 3: one `syn` is queued, and the next one finds room. -/
theorem backlog_kept_three : ∃ serv, Reached (Listening 3) TcpServ.listenStep
      (fun serv e => e.Roomy serv) serv
    ∧ serv.rcvskblist = [synSkb] ∧ serv.synnum = (serv.rcvskblist.filter (·.tcp.syn)).length := by
  have hreach : Reached (Listening 3) TcpServ.listenStep (fun serv e => e.Roomy serv)
      { listeningServ 3 with synnum := 1, rcvskblist := [synSkb] } :=
    .step (.arrive synSkb) (.first (listeningServ_listening (by decide)))
      (fun _ => show 0 + 1 < 3 by decide) rfl
  exact ⟨_, hreach, rfl, (backlog_kept 3 _ hreach).1⟩

/-- A backlog of 1: the first `syn` is refused with nothing queued, and it
stays counted. -/
theorem backlog_one_refuses : ∃ serv serv', Reached (Listening 1) TcpServ.listenStep
      (fun _ _ => True) serv ∧ serv.rcvskblist = []
    ∧ reasmTcpskb serv synSkb = .ok ⟨false, some serv'⟩
    ∧ Reached (Listening 1) TcpServ.listenStep (fun _ _ => True) serv'
    ∧ serv'.rcvskblist = [] ∧ serv'.synnum = 1 := by
  have hfirst : Reached (Listening 1) TcpServ.listenStep (fun _ _ => True) (listeningServ 1) :=
    .first (listeningServ_listening (by decide))
  exact ⟨listeningServ 1, { listeningServ 1 with synnum := 1 }, hfirst, rfl, rfl,
    .step (.arrive synSkb) hfirst trivial rfl, rfl, rfl⟩

end Cnix.Net
