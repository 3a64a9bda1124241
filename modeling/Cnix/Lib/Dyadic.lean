/-
Dyadic blocks: the runs `[m, m + 2^k)` with `m` a multiple of `2^k`.

Two dyadic blocks are nested or disjoint (`InBlock.nested`), every
block below the top order has one buddy, and the two halves of a
parent block are each other's buddies. `Tiling top B F` says that the
family `B` of blocks is a disjoint cover of the set `F` in which no two
buddies below the top order are both present. That last clause is what
makes a tiling canonical: `Tiling.complete` shows that a tiling has a
block of order at least `k` whenever its set contains any aligned run of
`2^k` points.

`PairBits` is the one-bit-a-pair encoding of a family: the bit of a
pair says whether exactly one of the two buddies is present.
-/
import Mathlib.Algebra.Order.Group.Nat
import Mathlib.Data.Nat.Bitwise
import Mathlib.Tactic.Ring

namespace Cnix.Lib

-- ======== blocks

/-- The point `f` lies in the block of order `k` at `m`. -/
def InBlock (k m f : Nat) : Prop := m ≤ f ∧ f < m + 2 ^ k

instance (k m f : Nat) : Decidable (InBlock k m f) :=
  inferInstanceAs (Decidable (_ ∧ _))

/-- A block contains its first point. -/
theorem InBlock.self (k m : Nat) : InBlock k m m :=
  ⟨Nat.le_refl m, Nat.lt_add_of_pos_right (Nat.two_pow_pos k)⟩

/-- Multiples of `d` that are closer than `d` from below are ordered. -/
theorem le_of_lt_add_of_dvd {d a b : Nat} (ha : d ∣ a) (hb : d ∣ b) (h : a < b + d) : a ≤ b := by
  obtain ⟨p, rfl⟩ := ha
  obtain ⟨q, rfl⟩ := hb
  have : p < q + 1 := by
    refine Nat.lt_of_mul_lt_mul_left (a := d) ?_
    exact h
  exact Nat.mul_le_mul_left d (Nat.lt_succ_iff.1 this)

/-- Dyadic blocks that meet are nested, the smaller in the larger. -/
theorem InBlock.nested {j k a b f : Nat} (hjk : j ≤ k) (ha : 2 ^ j ∣ a)
    (hb : 2 ^ k ∣ b) (hfa : InBlock j a f) (hfb : InBlock k b f) :
    b ≤ a ∧ a + 2 ^ j ≤ b + 2 ^ k := by
  have hdvd : 2 ^ j ∣ 2 ^ k := Nat.pow_dvd_pow 2 hjk
  have hb' : 2 ^ j ∣ b := hdvd.trans hb
  unfold InBlock at hfa hfb
  refine ⟨le_of_lt_add_of_dvd hb' ha (by omega), ?_⟩
  refine le_of_lt_add_of_dvd (Nat.dvd_add ha (Nat.dvd_refl _))
    (Nat.dvd_add hb' hdvd) ?_
  omega

/-- Blocks of one order that meet are equal. -/
theorem InBlock.eq_of_same {k a b f : Nat} (ha : 2 ^ k ∣ a)
    (hb : 2 ^ k ∣ b) (hfa : InBlock k a f) (hfb : InBlock k b f) : a = b := by
  have h1 := (InBlock.nested (Nat.le_refl k) ha hb hfa hfb).1
  have h2 := (InBlock.nested (Nat.le_refl k) hb ha hfb hfa).1
  omega

-- ======== buddies

/-- The other half of the parent block. -/
def buddy (k m : Nat) : Nat := m ^^^ 2 ^ k

/-- The start of the parent block. -/
def parent (k m : Nat) : Nat := m / 2 ^ (k + 1) * 2 ^ (k + 1)

theorem parent_dvd (k m : Nat) : 2 ^ (k + 1) ∣ parent k m :=
  Nat.dvd_mul_left _ _

/-- Flipping the lowest bit. -/
private theorem xor_one_eq (q : Nat) :
    q ^^^ 1 = if q % 2 = 0 then q + 1 else q - 1 := by
  have hdiv : (q ^^^ 1) / 2 = q / 2 := by
    rw [Nat.xor_div_two]
    simp
  have hmod : (q ^^^ 1) % 2 = (q + 1) % 2 := Nat.xor_mod_two_eq
  split <;> omega

/-- The buddy of a lower half follows it, that of an upper half
precedes it. -/
theorem buddy_eq {k m : Nat} (hm : 2 ^ k ∣ m) :
    buddy k m = if m / 2 ^ k % 2 = 0 then m + 2 ^ k else m - 2 ^ k := by
  obtain ⟨q, rfl⟩ := hm
  have hq : 2 ^ k * q / 2 ^ k = q := Nat.mul_div_cancel_left q (Nat.two_pow_pos k)
  have hx : buddy k (2 ^ k * q) = 2 ^ k * (q ^^^ 1) := by
    have h1 : 2 ^ k * q = q <<< k := by rw [Nat.shiftLeft_eq, Nat.mul_comm]
    have h2 : 2 ^ k = 1 <<< k := by rw [Nat.shiftLeft_eq, Nat.one_mul]
    calc 2 ^ k * q ^^^ 2 ^ k = q <<< k ^^^ 1 <<< k := by rw [h1, ← h2]
      _ = (q ^^^ 1) <<< k := Nat.shiftLeft_xor_distrib.symm
      _ = 2 ^ k * (q ^^^ 1) := by rw [Nat.shiftLeft_eq, Nat.mul_comm]
  rw [hx, hq, xor_one_eq]
  split
  · rw [Nat.mul_add, Nat.mul_one]
  · rw [Nat.mul_sub, Nat.mul_one]

/-- An upper half is at least one half into the line. -/
theorem le_of_odd {k m : Nat} (hodd : m / 2 ^ k % 2 ≠ 0) : 2 ^ k ≤ m := by
  by_contra hlt
  rw [Nat.div_eq_of_lt (Nat.lt_of_not_le hlt)] at hodd
  exact hodd rfl

theorem buddy_ne {k m : Nat} (hm : 2 ^ k ∣ m) : buddy k m ≠ m := by
  rw [buddy_eq hm]
  split
  · omega
  · next hodd =>
    have := le_of_odd hodd
    omega

@[simp] theorem buddy_buddy (k m : Nat) : buddy k (buddy k m) = m := by
  simp [buddy]

/-- The two cases of a block inside its parent: lower half with the
buddy above, or upper half with the buddy below. -/
theorem buddy_cases {k m : Nat} (hm : 2 ^ k ∣ m) : (parent k m = m ∧ buddy k m = m + 2 ^ k)
      ∨ (parent k m + 2 ^ k = m ∧ buddy k m = parent k m) := by
  have hdiv : m / 2 ^ (k + 1) = m / 2 ^ k / 2 := by
    rw [Nat.pow_succ, Nat.div_div_eq_div_mul]
  have hback : m / 2 ^ k * 2 ^ k = m := Nat.div_mul_cancel hm
  have hpar : parent k m = m / 2 ^ k / 2 * 2 * 2 ^ k := by
    unfold parent
    rw [hdiv, Nat.pow_succ]
    ring
  rw [buddy_eq hm, hpar]
  by_cases heven : m / 2 ^ k % 2 = 0
  · left
    have h2 : m / 2 ^ k / 2 * 2 = m / 2 ^ k := by omega
    rw [if_pos heven, h2, hback]
    exact ⟨rfl, rfl⟩
  · have h2 : m / 2 ^ k = m / 2 ^ k / 2 * 2 + 1 := by omega
    have h3 : m = m / 2 ^ k / 2 * 2 * 2 ^ k + 2 ^ k := by
      calc m = (m / 2 ^ k / 2 * 2 + 1) * 2 ^ k := by rw [← h2, hback]
        _ = _ := by ring
    rw [if_neg heven]
    omega

/-- The index of a pair is shared by the two buddies. -/
theorem pairIdx_buddy {k m : Nat} (hm : 2 ^ k ∣ m) : buddy k m / 2 ^ (k + 1) = m / 2 ^ (k + 1) := by
  have hpar : parent k m = m / 2 ^ (k + 1) * 2 ^ (k + 1) := rfl
  have hle : m / 2 ^ (k + 1) * 2 ^ (k + 1) ≤ buddy k m := by
    rcases buddy_cases hm with ⟨h1, h2⟩ | ⟨h1, h2⟩ <;> omega
  have hlt : buddy k m < m / 2 ^ (k + 1) * 2 ^ (k + 1) + 2 ^ (k + 1) := by
    rcases buddy_cases hm with ⟨h1, h2⟩ | ⟨h1, h2⟩ <;> omega
  refine Nat.div_eq_of_lt_le hle ?_
  rw [Nat.succ_mul]
  exact hlt

/-- Aligned blocks with one pair index are equal or buddies. -/
theorem eq_or_buddy_of_pairIdx {k m m' : Nat} (hm : 2 ^ k ∣ m)
    (hm' : 2 ^ k ∣ m') (hidx : m' / 2 ^ (k + 1) = m / 2 ^ (k + 1)) : m' = m ∨ m' = buddy k m := by
  have hpar : parent k m' = parent k m := by
    unfold parent
    rw [hidx]
  rcases buddy_cases hm with ⟨h1, h2⟩ | ⟨h1, h2⟩ <;>
    rcases buddy_cases hm' with ⟨h1', h2'⟩ | ⟨h1', h2'⟩ <;> omega

/-- The parent is the block and its buddy. -/
theorem inBlock_parent {k m f : Nat} (hm : 2 ^ k ∣ m) :
    InBlock (k + 1) (parent k m) f ↔ InBlock k m f ∨ InBlock k (buddy k m) f := by
  unfold InBlock
  rcases buddy_cases hm with ⟨h1, h2⟩ | ⟨h1, h2⟩ <;> omega

-- ======== tilings

/-- The family `B` with the block `(k, m)` added. -/
def addBlock (B : Nat → Nat → Prop) (k m : Nat) : Nat → Nat → Prop :=
  fun j n => B j n ∨ (j = k ∧ n = m)

/-- The family `B` with the block `(k, m)` removed. -/
def delBlock (B : Nat → Nat → Prop) (k m : Nat) : Nat → Nat → Prop :=
  fun j n => B j n ∧ ¬ (j = k ∧ n = m)

/-- `B` is a family of dyadic blocks of order at most `top` that covers
exactly `F`, block by disjoint block, with no pair of buddies left
unmerged below the top order. -/
structure Tiling (top : Nat) (B : Nat → Nat → Prop) (F : Nat → Prop) :
    Prop where
  order_le : ∀ {k m}, B k m → k ≤ top
  aligned : ∀ {k m}, B k m → 2 ^ k ∣ m
  covers : ∀ f, F f ↔ ∃ k m, B k m ∧ InBlock k m f
  disjoint : ∀ {j k a b f}, B j a → B k b → InBlock j a f → InBlock k b f →
    j = k ∧ a = b
  coalesced : ∀ {k m}, k < top → B k m → ¬ B k (buddy k m)

namespace Tiling

variable {top : Nat} {B : Nat → Nat → Prop} {F : Nat → Prop} {k m : Nat}

/-- The points of a block of the family lie in the set. -/
theorem mem_of_block (ht : Tiling top B F) (hb : B k m) {f : Nat} (hf : InBlock k m f) : F f :=
  (ht.covers f).2 ⟨k, m, hb, hf⟩

/-- The empty family tiles the empty set. -/
theorem empty : Tiling top (fun _ _ => False) fun _ => False where
  order_le h := h.elim
  aligned h := h.elim
  covers _ := ⟨fun h => h.elim, fun ⟨_, _, h, _⟩ => h.elim⟩
  disjoint h := h.elim
  coalesced _ h := h.elim

/-- Removing a block removes its points. -/
theorem del (ht : Tiling top B F) (hb : B k m) :
    Tiling top (delBlock B k m) fun f => F f ∧ ¬ InBlock k m f where
  order_le h := ht.order_le h.1
  aligned h := ht.aligned h.1
  covers f := by
    constructor
    · rintro ⟨hF, hout⟩
      obtain ⟨j, n, hj, hin⟩ := (ht.covers f).1 hF
      refine ⟨j, n, ⟨hj, ?_⟩, hin⟩
      rintro ⟨rfl, rfl⟩
      exact hout hin
    · rintro ⟨j, n, ⟨hj, hne⟩, hin⟩
      exact ⟨ht.mem_of_block hj hin, fun hin' => hne (ht.disjoint hj hb hin hin')⟩
  disjoint h h' := ht.disjoint h.1 h'.1
  coalesced hk h h' := ht.coalesced hk h.1 h'.1

/-- Adding a block outside the set, whose buddy is not in the family,
adds its points. -/
theorem add (ht : Tiling top B F) (hk : k ≤ top) (hm : 2 ^ k ∣ m)
    (hout : ∀ f, InBlock k m f → ¬ F f) (hbud : k < top → ¬ B k (buddy k m)) :
    Tiling top (addBlock B k m) fun f => F f ∨ InBlock k m f where
  order_le h := by
    rcases h with h | ⟨rfl, -⟩
    · exact ht.order_le h
    · exact hk
  aligned h := by
    rcases h with h | ⟨rfl, rfl⟩
    · exact ht.aligned h
    · exact hm
  covers f := by
    constructor
    · rintro (hF | hin)
      · obtain ⟨j, n, hj, hin⟩ := (ht.covers f).1 hF
        exact ⟨j, n, .inl hj, hin⟩
      · exact ⟨k, m, .inr ⟨rfl, rfl⟩, hin⟩
    · rintro ⟨j, n, hj | ⟨rfl, rfl⟩, hin⟩
      · exact .inl (ht.mem_of_block hj hin)
      · exact .inr hin
  disjoint h h' hf hf' := by
    rcases h with h | ⟨rfl, rfl⟩ <;> rcases h' with h' | ⟨rfl, rfl⟩
    · exact ht.disjoint h h' hf hf'
    · exact absurd (ht.mem_of_block h hf) (hout _ hf')
    · exact absurd (ht.mem_of_block h' hf') (hout _ hf)
    · exact ⟨rfl, rfl⟩
  coalesced hj h h' := by
    rcases h with h | ⟨rfl, rfl⟩ <;> rcases h' with h' | ⟨h1, h2⟩
    · exact ht.coalesced hj h h'
    · -- the new block would be the buddy of an old one
      subst h1
      refine hbud hj ?_
      rw [← h2, buddy_buddy]
      exact h
    · exact hbud hj h'
    · exact buddy_ne hm h2

/-- An aligned run of points of the set lies in one block of the
family: small blocks inside the run would have merged. -/
theorem complete (ht : Tiling top B F) (hk : k ≤ top) (hm : 2 ^ k ∣ m)
    (hrun : ∀ f, InBlock k m f → F f) : ∃ j n, B j n ∧ k ≤ j ∧ InBlock j n m := by
  induction k generalizing m with
  | zero =>
    obtain ⟨j, n, hj, hin⟩ := (ht.covers m).1 (hrun m (InBlock.self 0 m))
    exact ⟨j, n, hj, Nat.zero_le j, hin⟩
  | succ k ih =>
    have hpos := Nat.two_pow_pos k
    have hmk : 2 ^ k ∣ m := (Nat.pow_dvd_pow 2 (Nat.le_succ k)).trans hm
    have hmk' : 2 ^ k ∣ m + 2 ^ k := Nat.dvd_add hmk (Nat.dvd_refl _)
    -- each half lies in a block of order at least `k`
    obtain ⟨j, n, hj, hkj, hin⟩ := ih (by omega) hmk fun f hf =>
      hrun f (by unfold InBlock at hf ⊢; omega)
    obtain ⟨j', n', hj', hkj', hin'⟩ := ih (by omega) hmk' fun f hf =>
      hrun f (by unfold InBlock at hf ⊢; omega)
    by_cases h1 : k + 1 ≤ j
    · exact ⟨j, n, hj, h1, hin⟩
    by_cases h2 : k + 1 ≤ j'
    · refine ⟨j', n', hj', h2, ?_⟩
      have hmid : InBlock (k + 1) m (m + 2 ^ k) := by unfold InBlock; omega
      have hnest := InBlock.nested h2 hm (ht.aligned hj') hmid hin'
      unfold InBlock
      omega
    · -- both halves are blocks of order `k`, hence unmerged buddies
      obtain rfl : j = k := by omega
      obtain rfl : j' = j := by omega
      have hn : n = m := InBlock.eq_of_same (ht.aligned hj) hmk hin (InBlock.self _ m)
      have hn' : n' = m + 2 ^ j' :=
        InBlock.eq_of_same (ht.aligned hj') hmk' hin' (InBlock.self _ _)
      have hbud : buddy j' m = m + 2 ^ j' := by
        rw [buddy_eq hmk, if_pos]
        obtain ⟨q, rfl⟩ := hm
        rw [Nat.pow_succ, Nat.mul_assoc, Nat.mul_div_cancel_left _ hpos]
        omega
      subst hn hn'
      rw [← hbud] at hj'
      exact absurd hj' (ht.coalesced (by omega) hj)

end Tiling

-- ======== pair bits

/-- Flip the bit of pair `i` at order `k`. -/
def flipBit (bit : Nat → Nat → Bool) (k i : Nat) : Nat → Nat → Bool :=
  fun j x => if j = k ∧ x = i then !bit j x else bit j x

/-- The bit of each pair below the top order says whether exactly one
of the two buddies is in the family. -/
def PairBits (top : Nat) (bit : Nat → Nat → Bool) (B : Nat → Nat → Prop) :
    Prop :=
  ∀ k m, k < top → 2 ^ k ∣ m →
    (bit k (m / 2 ^ (k + 1)) = true ↔ ¬ (B k m ↔ B k (buddy k m)))

namespace PairBits

variable {top : Nat} {bit : Nat → Nat → Bool} {B B' : Nat → Nat → Prop}
  {k m : Nat}

/-- Changing the membership of one block and flipping its pair's bit
keeps the encoding. -/
theorem flip (hp : PairBits top bit B) (hm : 2 ^ k ∣ m) (hself : B' k m ↔ ¬ B k m)
    (hrest : ∀ j n, ¬ (j = k ∧ n = m) → (B' j n ↔ B j n)) :
    PairBits top (flipBit bit k (m / 2 ^ (k + 1))) B' := by
  intro j n hj hn
  have hold := hp j n hj hn
  unfold flipBit
  by_cases hpair : j = k ∧ n / 2 ^ (j + 1) = m / 2 ^ (k + 1)
  · obtain ⟨rfl, hidx⟩ := hpair
    rcases eq_or_buddy_of_pairIdx hm hn hidx with rfl | rfl
    · have hb := hrest j (buddy j n) fun h => buddy_ne hm h.2
      cases hbit : bit j (n / 2 ^ (j + 1)) <;> rw [hbit] at hold <;> simp at hold ⊢ <;> tauto
    · have hb := hrest j (buddy j m) fun h => buddy_ne hm h.2
      cases hbit : bit j (buddy j m / 2 ^ (j + 1)) <;> rw [hbit] at hold <;>
        simp at hold ⊢ <;> tauto
  · rw [if_neg hpair]
    have hne : ¬ (j = k ∧ n = m) := by
      rintro ⟨rfl, rfl⟩
      exact hpair ⟨rfl, rfl⟩
    have hne' : ¬ (j = k ∧ buddy j n = m) := by
      rintro ⟨rfl, rfl⟩
      exact hpair ⟨rfl, (pairIdx_buddy hn).symm⟩
    rw [hold, hrest j n hne, hrest j _ hne']

theorem add (hp : PairBits top bit B) (hm : 2 ^ k ∣ m) (hb : ¬ B k m) :
    PairBits top (flipBit bit k (m / 2 ^ (k + 1))) (addBlock B k m) := by
  refine hp.flip hm ?_ ?_
  · simp [addBlock, hb]
  · simp only [addBlock]
    tauto

theorem del (hp : PairBits top bit B) (hm : 2 ^ k ∣ m) (hb : B k m) :
    PairBits top (flipBit bit k (m / 2 ^ (k + 1))) (delBlock B k m) := by
  refine hp.flip hm ?_ ?_
  · simp [delBlock, hb]
  · simp only [delBlock]
    tauto

end PairBits

end Cnix.Lib
