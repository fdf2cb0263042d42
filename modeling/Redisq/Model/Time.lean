import Mathlib.Algebra.Order.Ring.Int
import Redisq.Library.Rounding

/-!
# Times

The scripts compute with seconds as doubles.  They are rounded in a script's
reading of the clock and in the sum of that and a timeout.  The sweep's
differences of readings, and the scores it moves on by them, are exact: from
2004 to 2038 all of these are whole numbers of 2⁻²² s, and below 2³¹ s.
-/

namespace Redisq.Model

/-- Seconds as a script computes with them: a double, in units of 2⁻⁸² s.
Doubles of whole microseconds and nanoseconds are whole numbers of them. -/
abbrev Time := ℤ

/-- One second. -/
def second : Time := 2 ^ 82

/-- The double nearest to a time that is not negative. -/
def nearestDouble (x : Time) : Time := Rounding.round 53 x.toNat 1

/-- The double that is made of `n` parts of a second, `parts` to one: the
whole seconds and the rest, a double itself, are added. -/
def secondsOf (parts n : ℕ) : Time :=
  nearestDouble ((n / parts : ℕ) * second + Rounding.round 53 (n % parts * 2 ^ 82) parts)

/-- A `time.Duration`, in nanoseconds. -/
abbrev Duration := ℤ

/-- `d.Seconds()`, of a duration that is not negative. -/
def seconds (d : Duration) : Time := secondsOf 1000000000 d.toNat

/-! ## Rounding -/

theorem nearestDouble_nonneg (x : Time) : 0 ≤ nearestDouble x := Int.natCast_nonneg _

theorem nearestDouble_mono {x y : Time} (h : x ≤ y) : nearestDouble x ≤ nearestDouble y := by
  refine Int.ofNat_le.mpr (Rounding.round_mono (by decide) Nat.one_pos Nat.one_pos ?_)
  rw [mul_one, mul_one]
  exact Int.toNat_le_toNat h

theorem nearestDouble_pos {x : Time} (h : 0 < x) : 0 < nearestDouble x := by
  calc (0 : Time) < nearestDouble 1 := by decide
    _ ≤ nearestDouble x := nearestDouble_mono h

/-- A whole number of seconds is a double. -/
theorem nearestDouble_second {n : ℕ} (h : n < 2 ^ 53) :
    nearestDouble (n * second) = n * second := by
  have hcast : (n * second : Time) = ((n * 2 ^ 82 : ℕ) : ℤ) := by
    rw [second]
    push_cast
    rfl
  rw [hcast, nearestDouble, Int.toNat_natCast, Rounding.round_shifted h]

/-- Rounding is off by one part in 2⁵³ at most. -/
theorem nearestDouble_near {x : Time} (h : 0 ≤ x) :
    2 ^ 53 * x ≤ 2 ^ 53 * nearestDouble x + x ∧ 2 ^ 53 * nearestDouble x ≤ 2 ^ 53 * x + x := by
  obtain ⟨n, rfl⟩ := Int.eq_ofNat_of_zero_le h
  obtain ⟨hlow, hhigh⟩ := @Rounding.round_near 53 n
  rw [nearestDouble, Int.toNat_natCast]
  constructor
  · exact_mod_cast hlow
  · exact_mod_cast hhigh

theorem secondsOf_nonneg (parts n : ℕ) : 0 ≤ secondsOf parts n := nearestDouble_nonneg _

/-- The rest of a second is a double of one second at most. -/
theorem round_rest_le {parts : ℕ} (hparts : 0 < parts) (n : ℕ) :
    Rounding.round 53 (n % parts * 2 ^ 82) parts ≤ 2 ^ 82 := by
  have hone : Rounding.round 53 (2 ^ 82) 1 = 2 ^ 82 := rfl
  rw [← hone]
  refine Rounding.round_mono (by decide) hparts Nat.one_pos ?_
  rw [mul_one, hone, mul_comm]
  exact Nat.mul_le_mul_left _ (Nat.mod_lt n hparts).le

/-- The rest of a second is off by 2⁻⁵⁴ s at most. -/
theorem round_rest_near {parts : ℕ} (hparts : 0 < parts) (n : ℕ) :
    n % parts * 2 ^ 82 ≤ Rounding.round 53 (n % parts * 2 ^ 82) parts * parts + parts * 2 ^ 28 ∧
      Rounding.round 53 (n % parts * 2 ^ 82) parts * parts ≤
        n % parts * 2 ^ 82 + parts * 2 ^ 28 := by
  have hwhole : n % parts * 2 ^ 82 / parts < 2 ^ 82 := by
    rw [Nat.div_lt_iff_lt_mul hparts, mul_comm]
    exact Nat.mul_lt_mul_of_pos_left (Nat.mod_lt n hparts) (Nat.two_pow_pos 82)
  have hgrid := Rounding.grid_le (p := 53) (by decide) hwhole
  have hslack := Nat.mul_le_mul_left parts hgrid
  obtain ⟨hlow, hhigh⟩ := Rounding.round_near_grid hparts 53 (n % parts * 2 ^ 82)
  omega

/-- Seconds are off by one part in 2⁵³, and 2⁻⁵³ s, at most. -/
theorem secondsOf_near {parts : ℕ} (hparts : 0 < parts) (n : ℕ) :
    2 ^ 53 * (n * second) ≤ 2 ^ 53 * (parts * secondsOf parts n) + (n * second + parts * second) ∧
      2 ^ 53 * (parts * secondsOf parts n) ≤
        2 ^ 53 * (n * second) + (n * second + parts * second) := by
  obtain ⟨hlow, hhigh⟩ := round_rest_near hparts n
  have hsplit : (n : ℤ) = parts * (n / parts : ℕ) + (n % parts : ℕ) := by
    exact_mod_cast (Nat.div_add_mod n parts).symm
  have hx : 0 ≤ (n / parts : ℕ) * second + (Rounding.round 53 (n % parts * 2 ^ 82) parts : ℤ) :=
    add_nonneg (mul_nonneg (Int.natCast_nonneg _) (by decide)) (Int.natCast_nonneg _)
  obtain ⟨hbelow, habove⟩ := nearestDouble_near hx
  rw [← secondsOf] at hbelow habove
  have hpartsnonneg : (0 : ℤ) ≤ parts := Int.natCast_nonneg _
  have hscaledBelow := mul_le_mul_of_nonneg_left hbelow hpartsnonneg
  have hscaledAbove := mul_le_mul_of_nonneg_left habove hpartsnonneg
  generalize Rounding.round 53 (n % parts * 2 ^ 82) parts = rest at *
  generalize n / parts = whole at *
  generalize n % parts = fraction at *
  zify at hlow hhigh
  rw [hsplit, second]
  rw [second] at hscaledBelow hscaledAbove
  constructor <;> linarith

theorem secondsOf_mono {parts m n : ℕ} (hparts : 0 < parts) (h : m ≤ n) :
    secondsOf parts m ≤ secondsOf parts n := by
  refine nearestDouble_mono ?_
  have hsecond : second = ((2 ^ 82 : ℕ) : ℤ) := rfl
  rw [hsecond]
  rcases (Nat.div_le_div_right (c := parts) h).lt_or_eq with hlt | heq
  · have hrest := round_rest_le hparts m
    have hwhole : (m / parts + 1) * 2 ^ 82 ≤ n / parts * 2 ^ 82 := Nat.mul_le_mul_right _ hlt
    rw [Nat.succ_mul] at hwhole
    exact_mod_cast (by omega :
      m / parts * 2 ^ 82 + Rounding.round 53 (m % parts * 2 ^ 82) parts ≤
        n / parts * 2 ^ 82 + Rounding.round 53 (n % parts * 2 ^ 82) parts)
  · have hm := Nat.div_add_mod m parts
    have hn := Nat.div_add_mod n parts
    rw [heq] at hm ⊢
    have hrest : m % parts ≤ n % parts := by omega
    have hround := @Rounding.round_mono 53 (m % parts * 2 ^ 82) parts (n % parts * 2 ^ 82) parts
      (by decide) hparts hparts (Nat.mul_le_mul_right _ (Nat.mul_le_mul_right _ hrest))
    exact Int.add_le_add_left (Int.ofNat_le.mpr hround) _

/-- Whole seconds. -/
theorem secondsOf_whole {parts n : ℕ} (hparts : 0 < parts) (h : n < 2 ^ 53) :
    secondsOf parts (n * parts) = n * second := by
  have hzero : Rounding.round 53 0 parts = 0 := by
    rw [Rounding.round, Nat.zero_div, Rounding.nearest, Nat.zero_mod, Nat.zero_div]
    rw [if_pos (Or.inl (Nat.mul_pos hparts (Rounding.grid_pos _ _))), Nat.zero_mul]
  rw [secondsOf, Nat.mul_div_cancel n hparts, Nat.mul_mod_left, zero_mul, hzero, Nat.cast_zero,
    add_zero, nearestDouble_second h]

/-- Half seconds. -/
theorem secondsOf_halves {n : ℕ} (h : n < 2 ^ 53) :
    secondsOf 1000000 (n * 500000) = n * (second / 2) := by
  have hdiv : n * 500000 / 1000000 = n / 2 := by omega
  have hmod : n * 500000 % 1000000 = n % 2 * 500000 := by omega
  have hrest : Rounding.round 53 (n % 2 * 500000 * 2 ^ 82) 1000000 = n % 2 * 2 ^ 81 := by
    rcases Nat.mod_two_eq_zero_or_one n with hzero | hone
    · rw [hzero]
      decide
    · rw [hone]
      decide +kernel
  have hsum : ((n / 2 : ℕ) : ℤ) * second + (n % 2 * 2 ^ 81 : ℕ) = ((n * 2 ^ 81 : ℕ) : ℤ) := by
    rw [second]
    omega
  rw [secondsOf, hdiv, hmod, hrest, hsum, nearestDouble, Int.toNat_natCast,
    Rounding.round_shifted h]
  push_cast
  rfl

end Redisq.Model
