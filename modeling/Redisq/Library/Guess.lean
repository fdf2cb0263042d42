import Mathlib.Algebra.Order.Floor.Div
import Mathlib.Tactic.Linarith

/-!
# Taking by guess

A consumer empties a queue in rounds, of at most `limit` elements each.  It
does not know how long the queue is before a round, only after: it takes what
the last round left, or once the queue was empty, as many as it took since the
queue was last seen so.  A guess that is off costs one round
(`rounds_le`), and a guess is right for a queue like the last one
(`drained`).
-/

/-- How many elements are expected, and how many were taken since the queue
was last seen empty. -/
@[ext] structure Guess where
  len : ℕ
  run : ℕ

namespace Guess

variable {limit : ℕ} {g : Guess} {x : Guess × ℕ} {i n : ℕ}

/-- What a round is after. -/
def want (limit : ℕ) (g : Guess) : ℕ := min limit (max 1 g.len)

/-- The guess after a round that took `taken` elements and left `left`. -/
def after (taken left : ℕ) (g : Guess) : Guess :=
  if 0 < left then ⟨left, g.run + taken⟩
  else ⟨if 0 < g.run + taken then g.run + taken else g.len, 0⟩

/-- A round, with how long the queue is. -/
def round (limit : ℕ) (x : Guess × ℕ) : Guess × ℕ :=
  (x.1.after (min (x.1.want limit) x.2) (x.2 - x.1.want limit), x.2 - x.1.want limit)

theorem want_pos (hlimit : 0 < limit) (g : Guess) : 0 < g.want limit :=
  lt_min hlimit (lt_of_lt_of_le Nat.one_pos (le_max_left _ _))

theorem want_le (limit : ℕ) (g : Guess) : g.want limit ≤ limit := min_le_left _ _

@[simp] theorem round_snd (limit : ℕ) (x : Guess × ℕ) :
    (round limit x).2 = x.2 - x.1.want limit := rfl

/-- Of a queue that is not empty the consumer knows the length. -/
theorem len_round (h : 0 < (round limit x).2) : (round limit x).1.len = (round limit x).2 := by
  rw [round_snd] at h
  rw [round, after, if_pos h]

/-- From the second round on, each takes all or as many as it may. -/
theorem round_of_len (h : x.1.len = x.2) : (round limit x).2 = x.2 - limit := by
  rw [round_snd, want, h]
  omega

/-- What is left after `i` more rounds than one. -/
theorem left_iterate (limit : ℕ) (x : Guess × ℕ) (i : ℕ) :
    ((round limit)^[i + 1] x).2 = (round limit x).2 - i * limit := by
  induction i with
  | zero => simp
  | succ i ih =>
      rw [Function.iterate_succ_apply']
      by_cases hleft : 0 < ((round limit)^[i + 1] x).2
      · have hlen : ((round limit)^[i + 1] x).1.len = ((round limit)^[i + 1] x).2 := by
          rw [Function.iterate_succ_apply'] at hleft ⊢
          exact len_round hleft
        rw [round_of_len hlen, ih, Nat.succ_mul, Nat.sub_sub]
      · rw [round_snd, Nat.succ_mul]
        omega

/-- How many rounds empty a queue. -/
def rounds (limit : ℕ) (x : Guess × ℕ) : ℕ := 1 + (round limit x).2 ⌈/⌉ limit

theorem left_eq_zero_iff (hlimit : 0 < limit) (hx : 0 < x.2) :
    ((round limit)^[i] x).2 = 0 ↔ rounds limit x ≤ i := by
  cases i with
  | zero =>
      rw [rounds]
      constructor
      · intro h
        exact absurd h hx.ne'
      · intro h
        omega
  | succ i =>
      rw [left_iterate, rounds, Nat.add_comm 1, Nat.succ_le_succ_iff, ceilDiv_le_iff_le_mul hlimit,
        Nat.sub_eq_zero_iff_le, Nat.mul_comm]

/-- **At most one extra round**, whatever the guess. -/
theorem rounds_le (hlimit : 0 < limit) (x : Guess × ℕ) :
    rounds limit x ≤ 1 + (x.2 - 1) ⌈/⌉ limit := by
  have hwant := x.1.want_pos hlimit
  refine Nat.add_le_add_left ((ceilDiv_le_iff_le_mul hlimit).mpr ?_) 1
  refine le_trans ?_ ((ceilDiv_le_iff_le_mul hlimit).mp le_rfl)
  rw [round_snd]
  omega

/-- The elements of a queue are counted until it is empty; then they are what
is expected. -/
theorem counted (hx : 0 < x.2) (i : ℕ) :
    (0 < ((round limit)^[i] x).2 ∧ ((round limit)^[i] x).2 ≤ x.2 ∧
        ((round limit)^[i] x).1.run + ((round limit)^[i] x).2 = x.1.run + x.2) ∨
      (round limit)^[i] x = (⟨x.1.run + x.2, 0⟩, 0) := by
  induction i with
  | zero => exact Or.inl ⟨hx, le_rfl, rfl⟩
  | succ i ih =>
      rw [Function.iterate_succ_apply']
      generalize (round limit)^[i] x = y at ih
      rcases ih with ⟨hpos, hle, hrun⟩ | rfl
      · by_cases hleft : 0 < y.2 - y.1.want limit
        · left
          refine ⟨hleft, ?_, ?_⟩
          · rw [round_snd]
            omega
          · rw [round, after, if_pos hleft]
            show y.1.run + min (y.1.want limit) y.2 + (y.2 - y.1.want limit) = x.1.run + x.2
            omega
        · right
          have htotal : y.1.run + min (y.1.want limit) y.2 = x.1.run + x.2 := by omega
          rw [round, after, if_neg hleft, htotal, if_pos (by omega)]
          rw [Nat.eq_zero_of_not_pos hleft]
      · right
        rw [round, after]
        simp

/-- After that the guess stays, however often the empty queue is looked
at. -/
theorem drained (hlimit : 0 < limit) (hx : 0 < x.2) (hi : rounds limit x ≤ i) :
    (round limit)^[i] x = (⟨x.1.run + x.2, 0⟩, 0) := by
  refine (counted hx i).resolve_left fun hleft => ?_
  exact hleft.1.ne' ((left_eq_zero_iff hlimit hx).mpr hi)

end Guess
