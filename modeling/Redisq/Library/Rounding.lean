import Mathlib.Algebra.Order.Group.Nat
import Mathlib.Tactic.Linarith
import Mathlib.Tactic.Ring

/-!
# Rounding to nearest, ties to even

Numbers of `p` significant bits, counted in units that each of them is a whole
number of.  `round p a b` is the one nearest to `a / b`, the even one of two.
Rounding keeps the order (`round_mono`), leaves alone what has few enough bits
(`round_of_lt`), and is off by one part in `2 ^ p` at most (`round_near`).
-/

namespace Rounding

/-! ## Whole numbers -/

/-- The whole number nearest to `a / b`, the even one of two. -/
def nearest (a b : ℕ) : ℕ :=
  if 2 * (a % b) < b ∨ 2 * (a % b) = b ∧ a / b % 2 = 0 then a / b else a / b + 1

section Nearest

variable {a b c d : ℕ}

theorem div_le_nearest (a b : ℕ) : a / b ≤ nearest a b := by
  unfold nearest
  split
  · exact le_rfl
  · exact Nat.le_succ _

theorem nearest_le_succ (a b : ℕ) : nearest a b ≤ a / b + 1 := by
  unfold nearest
  split
  · exact Nat.le_succ _
  · exact le_rfl

theorem nearest_mul (k : ℕ) (hb : 0 < b) : nearest (k * b) b = k := by
  unfold nearest
  rw [Nat.mul_mod_left, Nat.mul_div_cancel k hb, if_pos (Or.inl hb)]

/-- It is half a unit away at most. -/
theorem nearest_near (a : ℕ) (hb : 0 < b) :
    2 * a ≤ 2 * (nearest a b * b) + b ∧ 2 * (nearest a b * b) ≤ 2 * a + b := by
  have hsplit := Nat.div_add_mod' a b
  have hlt := Nat.mod_lt a hb
  unfold nearest
  split
  · next hdown => omega
  · next hup =>
      have hsucc : (a / b + 1) * b = a / b * b + b := Nat.succ_mul _ _
      omega

/-- The larger of two fractions with one whole part is rounded up if the
smaller is. -/
theorem nearest_mono_of_div_eq (hb : 0 < b) (hd : 0 < d) (h : a * d ≤ c * b)
    (hwhole : a / b = c / d) : nearest a b ≤ nearest c d := by
  -- of the remainders, as fractions, the smaller is the first one
  have hrest : a % b * d ≤ c % d * b := by
    have ha := Nat.div_add_mod' a b
    have hc := Nat.div_add_mod' c d
    have hleft : a * d = a / b * b * d + a % b * d := by rw [← add_mul, ha]
    have hright : c * b = c / d * d * b + c % d * b := by rw [← add_mul, hc]
    have hsame : a / b * b * d = c / d * d * b := by rw [hwhole]; ring
    omega
  by_cases hdown : 2 * (c % d) < d ∨ 2 * (c % d) = d ∧ c / d % 2 = 0
  · have hdown' : 2 * (a % b) < b ∨ 2 * (a % b) = b ∧ a / b % 2 = 0 := by
      have htwice : 2 * (a % b) * d ≤ 2 * (c % d) * b := by
        rw [mul_assoc, mul_assoc]
        exact Nat.mul_le_mul_left 2 hrest
      rcases hdown with hlt | ⟨heq, heven⟩
      · left
        have hless : 2 * (c % d) * b < d * b := Nat.mul_lt_mul_of_pos_right hlt hb
        have hless : 2 * (a % b) * d < b * d := by rw [mul_comm b d]; omega
        exact Nat.lt_of_mul_lt_mul_right hless
      · have hle : 2 * (a % b) * d ≤ b * d := by
          rw [heq, mul_comm d b] at htwice
          exact htwice
        rcases (Nat.le_of_mul_le_mul_right hle hd).lt_or_eq with hlt | heq'
        · exact Or.inl hlt
        · exact Or.inr ⟨heq', by rw [hwhole]; exact heven⟩
    rw [nearest, if_pos hdown', nearest, if_pos hdown, hwhole]
  · rw [nearest.eq_def c d, if_neg hdown, ← hwhole]
    exact nearest_le_succ a b

theorem nearest_mono (hb : 0 < b) (hd : 0 < d) (h : a * d ≤ c * b) :
    nearest a b ≤ nearest c d := by
  have hwhole : a / b ≤ c / d := by
    rw [Nat.le_div_iff_mul_le hd]
    refine Nat.le_of_mul_le_mul_right ?_ hb
    calc a / b * d * b = a / b * b * d := by ring
      _ ≤ a * d := Nat.mul_le_mul_right d (Nat.div_mul_le_self a b)
      _ ≤ c * b := h
  rcases hwhole.lt_or_eq with hlt | heq
  · calc nearest a b ≤ a / b + 1 := nearest_le_succ a b
      _ ≤ c / d := hlt
      _ ≤ nearest c d := div_le_nearest c d
  · exact nearest_mono_of_div_eq hb hd h heq

end Nearest

/-! ## Significant bits -/

/-- The distance of numbers of `p` bits next to `n`. -/
def grid (p n : ℕ) : ℕ := 2 ^ (Nat.log2 n + 1 - p)

/-- The number of `p` bits nearest to `a / b`, the even one of two. -/
def round (p a b : ℕ) : ℕ := nearest a (b * grid p (a / b)) * grid p (a / b)

section Round

variable {p a b c d n : ℕ}

theorem grid_pos (p n : ℕ) : 0 < grid p n := Nat.two_pow_pos _

/-- What lies in a power of two's reach is rounded to that power at most. -/
theorem round_le_two_pow (hb : 0 < b) (h : a / b < 2 ^ n) (hn : Nat.log2 (a / b) + 1 - p ≤ n) :
    round p a b ≤ 2 ^ n := by
  have hsplit : 2 ^ n = 2 ^ (n - (Nat.log2 (a / b) + 1 - p)) * grid p (a / b) := by
    rw [grid, ← pow_add]
    congr 1
    omega
  have hgrid : 0 < b * grid p (a / b) := Nat.mul_pos hb (grid_pos _ _)
  have hnearest : nearest a (b * grid p (a / b)) ≤
      2 ^ (n - (Nat.log2 (a / b) + 1 - p)) := by
    rw [← nearest_mul (2 ^ (n - (Nat.log2 (a / b) + 1 - p))) hgrid]
    refine nearest_mono hgrid hgrid (Nat.mul_le_mul_right _ ?_)
    have hlt : a < 2 ^ n * b := (Nat.div_lt_iff_lt_mul hb).mp h
    calc a ≤ 2 ^ n * b := hlt.le
      _ = 2 ^ (n - (Nat.log2 (a / b) + 1 - p)) * (b * grid p (a / b)) := by
        rw [hsplit]
        ring
  calc round p a b ≤ 2 ^ (n - (Nat.log2 (a / b) + 1 - p)) * grid p (a / b) :=
        Nat.mul_le_mul_right _ hnearest
    _ = 2 ^ n := hsplit.symm

/-- A power of two below is one after rounding. -/
theorem two_pow_le_round (hb : 0 < b) (h : 2 ^ n ≤ a / b)
    (hn : Nat.log2 (a / b) + 1 - p ≤ n) : 2 ^ n ≤ round p a b := by
  have hsplit : 2 ^ n = 2 ^ (n - (Nat.log2 (a / b) + 1 - p)) * grid p (a / b) := by
    rw [grid, ← pow_add]
    congr 1
    omega
  have hgrid : 0 < b * grid p (a / b) := Nat.mul_pos hb (grid_pos _ _)
  have hnearest : 2 ^ (n - (Nat.log2 (a / b) + 1 - p)) ≤ nearest a (b * grid p (a / b)) := by
    rw [← nearest_mul (2 ^ (n - (Nat.log2 (a / b) + 1 - p))) hgrid]
    refine nearest_mono hgrid hgrid (Nat.mul_le_mul_right _ ?_)
    calc 2 ^ (n - (Nat.log2 (a / b) + 1 - p)) * (b * grid p (a / b)) = 2 ^ n * b := by
          rw [hsplit]
          ring
      _ ≤ a := (Nat.le_div_iff_mul_le hb).mp h
  calc 2 ^ n = 2 ^ (n - (Nat.log2 (a / b) + 1 - p)) * grid p (a / b) := hsplit
    _ ≤ round p a b := Nat.mul_le_mul_right _ hnearest

/-- Rounding keeps the order. -/
theorem round_mono (hp : 0 < p) (hb : 0 < b) (hd : 0 < d) (h : a * d ≤ c * b) :
    round p a b ≤ round p c d := by
  have hwhole : a / b ≤ c / d := by
    rw [Nat.le_div_iff_mul_le hd]
    refine Nat.le_of_mul_le_mul_right ?_ hb
    calc a / b * d * b = a / b * b * d := by ring
      _ ≤ a * d := Nat.mul_le_mul_right d (Nat.div_mul_le_self a b)
      _ ≤ c * b := h
  by_cases hlog : Nat.log2 (a / b) = Nat.log2 (c / d)
  · have hgrid : grid p (a / b) = grid p (c / d) := by rw [grid, grid, hlog]
    unfold round
    rw [hgrid]
    refine Nat.mul_le_mul_right _ (nearest_mono ?_ ?_ ?_)
    · exact Nat.mul_pos hb (grid_pos _ _)
    · exact Nat.mul_pos hd (grid_pos _ _)
    · rw [← mul_assoc, ← mul_assoc]
      exact Nat.mul_le_mul_right _ h
  · -- a power of two lies between
    have hne : c / d ≠ 0 := by
      intro hzero
      rw [hzero, Nat.le_zero] at hwhole
      exact hlog (by rw [hwhole, hzero])
    have hlt : a / b < 2 ^ Nat.log2 (c / d) := by
      by_contra hge
      have hne' : a / b ≠ 0 := by
        intro hzero
        rw [hzero] at hge
        exact hge (Nat.two_pow_pos _)
      have hle := (Nat.le_log2 hne').mpr (not_lt.mp hge)
      have hle' := (Nat.le_log2 hne).mpr ((Nat.log2_self_le hne').trans hwhole)
      exact hlog (le_antisymm hle' hle)
    have hless : Nat.log2 (a / b) + 1 - p ≤ Nat.log2 (c / d) := by
      rcases Nat.eq_zero_or_pos (a / b) with hzero | hpos
      · rw [hzero, Nat.log2_zero]
        omega
      · have hless := (Nat.log2_lt hpos.ne').mpr hlt
        omega
    exact (round_le_two_pow hb hlt hless).trans
      (two_pow_le_round hd (Nat.log2_self_le hne) (by omega))

/-- What has few bits is not rounded. -/
theorem round_of_dvd (h : grid p n ∣ n) : round p n 1 = n := by
  unfold round
  rw [Nat.div_one, one_mul]
  obtain ⟨k, hk⟩ := h
  calc nearest n (grid p n) * grid p n = nearest (k * grid p n) (grid p n) * grid p n := by
        congr 2
        rw [mul_comm]
        exact hk
    _ = k * grid p n := by rw [nearest_mul k (grid_pos p n)]
    _ = n := by rw [mul_comm]; exact hk.symm

theorem round_of_lt (h : n < 2 ^ p) : round p n 1 = n := by
  apply round_of_dvd
  rcases Nat.eq_zero_or_pos n with rfl | hpos
  · exact dvd_zero _
  · have hlog := (Nat.log2_lt hpos.ne').mpr h
    have hone : grid p n = 1 := by
      rw [grid, Nat.sub_eq_zero_of_le hlog]
      rfl
    rw [hone]
    exact one_dvd n

/-- A number of at most `p` bits, some places further left, is not rounded. -/
theorem round_shifted {k e : ℕ} (hk : k < 2 ^ p) : round p (k * 2 ^ e) 1 = k * 2 ^ e := by
  apply round_of_dvd
  rcases Nat.eq_zero_or_pos k with rfl | hpos
  · rw [zero_mul]
    exact dvd_zero _
  · have hlog : Nat.log2 (k * 2 ^ e) < p + e := by
      rw [Nat.log2_lt (Nat.mul_pos hpos (Nat.two_pow_pos e)).ne', pow_add]
      exact Nat.mul_lt_mul_of_pos_right hk (Nat.two_pow_pos e)
    exact Dvd.dvd.mul_left (pow_dvd_pow 2 (by omega)) k

/-- Rounding is off by half a grid at most. -/
theorem round_near_grid (hb : 0 < b) (p a : ℕ) :
    2 * a ≤ 2 * (round p a b * b) + b * grid p (a / b) ∧
      2 * (round p a b * b) ≤ 2 * a + b * grid p (a / b) := by
  have hround : nearest a (b * grid p (a / b)) * (b * grid p (a / b)) = round p a b * b := by
    rw [round, mul_comm b, mul_assoc]
  rw [← hround]
  exact nearest_near a (Nat.mul_pos hb (grid_pos _ _))

theorem grid_le {e : ℕ} (hp : 0 < p) (h : n < 2 ^ e) : grid p n ≤ 2 ^ (e - p) := by
  refine Nat.pow_le_pow_right (by decide) ?_
  rcases Nat.eq_zero_or_pos n with rfl | hpos
  · rw [Nat.log2_zero]
    omega
  · have hlog := (Nat.log2_lt hpos.ne').mpr h
    omega

/-- Rounding a whole number is off by one part in `2 ^ p` at most. -/
theorem round_near (n : ℕ) :
    2 ^ p * n ≤ 2 ^ p * round p n 1 + n ∧ 2 ^ p * round p n 1 ≤ 2 ^ p * n + n := by
  by_cases hlt : n < 2 ^ p
  · rw [round_of_lt hlt]
    exact ⟨Nat.le_add_right _ _, Nat.le_add_right _ _⟩
  · have hne : n ≠ 0 := by
      rintro rfl
      exact hlt (Nat.two_pow_pos p)
    have hlog := (Nat.le_log2 hne).mpr (not_lt.mp hlt)
    -- half a grid, `2 ^ p` times, is the leading bit
    have hlead : 2 ^ p * grid p n ≤ 2 * n := by
      calc 2 ^ p * grid p n = 2 * 2 ^ Nat.log2 n := by
            rw [grid, ← pow_add, ← pow_succ']
            congr 1
            omega
        _ ≤ 2 * n := Nat.mul_le_mul_left 2 (Nat.log2_self_le hne)
    obtain ⟨hlow, hhigh⟩ := round_near_grid Nat.one_pos p n
    rw [Nat.div_one, mul_one, one_mul] at hlow hhigh
    constructor
    · have hscaled := Nat.mul_le_mul_left (2 ^ p) hlow
      rw [mul_add] at hscaled
      have htwice : 2 ^ p * (2 * n) = 2 * (2 ^ p * n) := by ring
      have htwice' : 2 ^ p * (2 * round p n 1) = 2 * (2 ^ p * round p n 1) := by ring
      omega
    · have hscaled := Nat.mul_le_mul_left (2 ^ p) hhigh
      rw [mul_add] at hscaled
      have htwice : 2 ^ p * (2 * n) = 2 * (2 ^ p * n) := by ring
      have htwice' : 2 ^ p * (2 * round p n 1) = 2 * (2 ^ p * round p n 1) := by ring
      omega

end Round

end Rounding
