import Mathlib.Algebra.Group.Nat.Defs
import Mathlib.Data.Nat.Log
import Mathlib.Data.List.Basic
import Mathlib.Data.List.Lex
import Mathlib.Order.Lattice

/-!
# Numbers printed with leading zeros

`fixed` prints a number in a fixed count of digits, highest first; `padded`
is printf's zero-padded conversion, which widens when the number needs more
digits.  Padded texts determine their numbers (`padded_injective`), and texts
of one width sort as their numbers do, whatever follows them
(`fixed_append_lt`).  A printer that works from the lowest digit up, as
`write` does, and pads after that prints the same (`write_eq`,
`leftpad_padded`).
-/

namespace Digits

variable {α : Type*}

/-- The digits of `n` to base `b` in `w` places, highest first. -/
def fixed (digit : ℕ → α) (b : ℕ) : ℕ → ℕ → List α
  | 0, _ => []
  | w + 1, n => digit (n / b ^ w) :: fixed digit b w (n % b ^ w)

/-- At least `w` places, and as many as `n` needs. -/
def padded (digit : ℕ → α) (b w n : ℕ) : List α :=
  fixed digit b (max w (Nat.log b n + 1)) n

/-- The loop of a printer: digits go in front of what is written, the lowest
first, until the number is below the base or `room` runs out. -/
def write (digit : ℕ → α) (b : ℕ) : ℕ → ℕ → List α → List α
  | 0, _, written => written
  | room + 1, n, written =>
      if n < b then digit n :: written
      else write digit b room (n / b) (digit (n % b) :: written)

@[simp] theorem length_fixed (digit : ℕ → α) (b w n : ℕ) :
    (fixed digit b w n).length = w := by
  induction w generalizing n with
  | zero => rfl
  | succ w ih => rw [fixed, List.length_cons, ih]

/-- A number of at most `w` digits is printed in `w` places. -/
theorem padded_of_lt (digit : ℕ → α) {b w n : ℕ} (hw : w ≠ 0) (h : n < b ^ w) :
    padded digit b w n = fixed digit b w n := by
  rw [padded, Nat.max_eq_left (Nat.log_lt_of_lt_pow' hw h)]

private theorem div_pow_lt {b w n : ℕ} (h : n < b ^ (w + 1)) : n / b ^ w < b := by
  refine Nat.div_lt_of_lt_mul ?_
  rw [← Nat.pow_succ]
  exact h

private theorem mod_pow_lt {b w n : ℕ} (h : n < b ^ (w + 1)) : n % b ^ w < b ^ w := by
  refine Nat.mod_lt _ (Nat.pos_of_ne_zero fun hzero => ?_)
  rw [Nat.pow_succ, hzero, Nat.zero_mul] at h
  exact Nat.not_lt_zero n h

/-- Every printed digit is one of the base's. -/
theorem forall_mem_fixed {digit : ℕ → α} {b : ℕ} {p : α → Prop}
    (hp : ∀ d < b, p (digit d)) (w n : ℕ) (h : n < b ^ w) :
    ∀ a ∈ fixed digit b w n, p a := by
  induction w generalizing n with
  | zero => intro a ha; simp [fixed] at ha
  | succ w ih =>
      intro a ha
      rcases List.mem_cons.mp ha with rfl | hmem
      · exact hp _ (div_pow_lt h)
      · exact ih _ (mod_pow_lt h) a hmem

theorem forall_mem_padded {digit : ℕ → α} {b : ℕ} {p : α → Prop} (hb : 1 < b)
    (hp : ∀ d < b, p (digit d)) (w n : ℕ) : ∀ a ∈ padded digit b w n, p a :=
  forall_mem_fixed hp _ n ((Nat.lt_pow_succ_log_self hb n).trans_le
    (Nat.pow_le_pow_right (by omega) (Nat.le_max_right w _)))

/-- Fixed-width texts of different numbers differ. -/
theorem fixed_injective {digit : ℕ → α} {b : ℕ}
    (hdigit : ∀ d < b, ∀ e < b, digit d = digit e → d = e) (w : ℕ) {m n : ℕ}
    (hm : m < b ^ w) (hn : n < b ^ w) (h : fixed digit b w m = fixed digit b w n) :
    m = n := by
  induction w generalizing m n with
  | zero => simp only [Nat.pow_zero, Nat.lt_one_iff] at hm hn; rw [hm, hn]
  | succ w ih =>
      simp only [fixed, List.cons.injEq] at h
      have hdiv := hdigit _ (div_pow_lt hm) _ (div_pow_lt hn) h.1
      have hmod := ih (mod_pow_lt hm) (mod_pow_lt hn) h.2
      rw [← Nat.div_add_mod m (b ^ w), ← Nat.div_add_mod n (b ^ w), hdiv, hmod]

/-- Padded texts of different numbers differ. -/
theorem padded_injective {digit : ℕ → α} {b : ℕ} (hb : 1 < b)
    (hdigit : ∀ d < b, ∀ e < b, digit d = digit e → d = e) (w : ℕ) {m n : ℕ}
    (h : padded digit b w m = padded digit b w n) : m = n := by
  have hwidth : ∀ k, k < b ^ max w (Nat.log b k + 1) := fun k =>
    (Nat.lt_pow_succ_log_self hb k).trans_le
      (Nat.pow_le_pow_right (by omega) (Nat.le_max_right w _))
  have hlen : max w (Nat.log b m + 1) = max w (Nat.log b n + 1) := by
    simpa [padded] using congrArg List.length h
  refine fixed_injective hdigit _ (hwidth m) (hlen ▸ hwidth n) ?_
  rw [padded, padded, ← hlen] at h
  exact h

/-- Texts of one width sort as their numbers, whatever follows them. -/
theorem fixed_append_lt [LinearOrder α] {digit : ℕ → α} {b : ℕ}
    (hdigit : ∀ d e, d < e → e < b → digit d < digit e) (w : ℕ) {m n : ℕ}
    (hn : n < b ^ w) (h : m < n) (x y : List α) :
    fixed digit b w m ++ x < fixed digit b w n ++ y := by
  induction w generalizing m n with
  | zero => rw [Nat.pow_zero, Nat.lt_one_iff] at hn; omega
  | succ w ih =>
      simp only [fixed, List.cons_append]
      rw [List.cons_lt_cons_iff]
      rcases Nat.lt_or_ge (m / b ^ w) (n / b ^ w) with hlt | hge
      · exact Or.inl (hdigit _ _ hlt (div_pow_lt hn))
      · have hdiv : m / b ^ w = n / b ^ w :=
          Nat.le_antisymm (Nat.div_le_div_right h.le) hge
        refine Or.inr ⟨congrArg digit hdiv, ih (mod_pow_lt hn) ?_⟩
        rw [← Nat.div_add_mod m (b ^ w), ← Nat.div_add_mod n (b ^ w), hdiv] at h
        exact Nat.lt_of_add_lt_add_left h

/-- Read digit by digit, a fixed-width text gives its number back. -/
theorem foldl_fixed {digit : ℕ → α} {b : ℕ} {value : α → ℕ}
    (hvalue : ∀ d < b, value (digit d) = d) (w : ℕ) {n : ℕ} (h : n < b ^ w) (m : ℕ) :
    (fixed digit b w n).foldl (fun m a => b * m + value a) m = b ^ w * m + n := by
  induction w generalizing n m with
  | zero =>
      rw [Nat.pow_zero, Nat.lt_one_iff] at h
      simp [fixed, h]
  | succ w ih =>
      rw [fixed, List.foldl_cons, ih (mod_pow_lt h), hvalue _ (div_pow_lt h)]
      calc
        b ^ w * (b * m + n / b ^ w) + n % b ^ w =
            b ^ w * b * m + (b ^ w * (n / b ^ w) + n % b ^ w) := by
          rw [Nat.mul_add, Nat.mul_assoc, Nat.add_assoc]
        _ = b ^ (w + 1) * m + n := by rw [Nat.div_add_mod, Nat.pow_succ]

theorem foldl_padded {digit : ℕ → α} {b : ℕ} (hb : 1 < b) {value : α → ℕ}
    (hvalue : ∀ d < b, value (digit d) = d) (w n : ℕ) :
    (padded digit b w n).foldl (fun m a => b * m + value a) 0 = n := by
  have hwidth : n < b ^ max w (Nat.log b n + 1) :=
    (Nat.lt_pow_succ_log_self hb n).trans_le
      (Nat.pow_le_pow_right (by omega) (Nat.le_max_right w _))
  rw [padded, foldl_fixed hvalue _ hwidth, Nat.mul_zero, Nat.zero_add]

/-- Unpadded, a number but zero starts with a digit of its own. -/
theorem padded_one (digit : ℕ → α) {b : ℕ} (hb : 1 < b) (n : ℕ) :
    ∃ d rest, padded digit b 1 n = digit d :: rest ∧ d < b ∧ (d = 0 → n = 0 ∧ rest = []) := by
  have hwidth : max 1 (Nat.log b n + 1) = Nat.log b n + 1 := Nat.max_eq_right (by omega)
  refine ⟨n / b ^ Nat.log b n, fixed digit b (Nat.log b n) (n % b ^ Nat.log b n), ?_, ?_, ?_⟩
  · rw [padded, hwidth, fixed]
  · exact div_pow_lt (Nat.lt_pow_succ_log_self hb n)
  · intro hzero
    have hn : n = 0 := by
      by_contra hne
      have hle := Nat.pow_log_le_self b hne
      have hpos : 0 < b ^ Nat.log b n := Nat.pow_pos (by omega)
      have := Nat.div_pos hle hpos
      omega
    subst hn
    exact ⟨rfl, by simp [fixed]⟩

/-- A fixed-width text ends in its lowest digit. -/
theorem fixed_succ_last (digit : ℕ → α) {b : ℕ} (w : ℕ) {n : ℕ} (h : n < b ^ (w + 1)) :
    fixed digit b (w + 1) n = fixed digit b w (n / b) ++ [digit (n % b)] := by
  induction w generalizing n with
  | zero =>
      rw [Nat.zero_add, Nat.pow_one] at h
      simp only [fixed, Nat.pow_zero, Nat.div_one, List.nil_append]
      rw [Nat.mod_eq_of_lt h]
  | succ w ih =>
      have hquotient : n / b / b ^ w = n / b ^ (w + 1) := by
        rw [Nat.div_div_eq_div_mul, Nat.pow_succ, Nat.mul_comm]
      have hrest : n % b ^ (w + 1) / b = n / b % b ^ w := by
        rw [Nat.pow_succ, Nat.mul_comm, Nat.mod_mul_right_div_self]
      have hlast : n % b ^ (w + 1) % b = n % b := by
        rw [Nat.pow_succ, Nat.mod_mul_left_mod]
      rw [fixed, ih (mod_pow_lt h), hrest, hlast, fixed, hquotient, List.cons_append]

/-- In more places than it needs, a number has zeros in front. -/
theorem fixed_add (digit : ℕ → α) {b w n : ℕ} (hb : 0 < b) (h : n < b ^ w) (k : ℕ) :
    fixed digit b (k + w) n = List.replicate k (digit 0) ++ fixed digit b w n := by
  induction k with
  | zero => rw [Nat.zero_add, List.replicate_zero, List.nil_append]
  | succ k ih =>
      have hsmall : n < b ^ (k + w) :=
        h.trans_le (Nat.pow_le_pow_right hb (Nat.le_add_left w k))
      rw [Nat.add_right_comm, fixed, Nat.div_eq_of_lt hsmall, Nat.mod_eq_of_lt hsmall, ih,
        List.replicate_succ, List.cons_append]

/-- Zeros in front of the unpadded text make the padded one. -/
theorem leftpad_padded (digit : ℕ → α) {b : ℕ} (hb : 1 < b) (w n : ℕ) :
    (padded digit b 1 n).leftpad w (digit 0) = padded digit b w n := by
  have hwidth : max 1 (Nat.log b n + 1) = Nat.log b n + 1 := Nat.max_eq_right (by omega)
  have hsplit : max w (Nat.log b n + 1) = (w - (Nat.log b n + 1)) + (Nat.log b n + 1) := by
    omega
  rw [padded, padded, hwidth, List.leftpad, length_fixed, hsplit,
    fixed_add digit (by omega) (Nat.lt_pow_succ_log_self hb n)]

/-- Unpadded, a number of several digits ends in its lowest one. -/
theorem padded_one_last (digit : ℕ → α) {b : ℕ} (hb : 1 < b) {n : ℕ} (h : b ≤ n) :
    padded digit b 1 n = padded digit b 1 (n / b) ++ [digit (n % b)] := by
  have hwidth : ∀ k, max 1 (Nat.log b k + 1) = Nat.log b k + 1 := fun k =>
    Nat.max_eq_right (by omega)
  have hlog : Nat.log b n = Nat.log b (n / b) + 1 := by
    have hpos : 0 < Nat.log b n := Nat.log_pos hb h
    rw [Nat.log_div_base]
    omega
  rw [padded, padded, hwidth, hwidth, ← hlog,
    fixed_succ_last digit _ (Nat.lt_pow_succ_log_self hb n)]

/-- With room for every digit, the loop writes the unpadded text. -/
theorem write_eq (digit : ℕ → α) {b : ℕ} (hb : 1 < b) {room : ℕ} (hroom : room ≠ 0) {n : ℕ}
    (h : n < b ^ room) (written : List α) :
    write digit b room n written = padded digit b 1 n ++ written := by
  induction room generalizing n written with
  | zero => exact absurd rfl hroom
  | succ room ih =>
      rw [write]
      split
      · next hlast =>
          have hlog : Nat.log b n = 0 := Nat.log_of_lt hlast
          simp only [padded, hlog, fixed, Nat.pow_zero, Nat.div_one, Nat.zero_add, Nat.max_self,
            List.cons_append, List.nil_append]
      · next hmore =>
          have hle : b ≤ n := Nat.le_of_not_lt hmore
          have hne : room ≠ 0 := by
            rintro rfl
            rw [Nat.zero_add, Nat.pow_one] at h
            omega
          have hquotient : n / b < b ^ room := by
            apply Nat.div_lt_of_lt_mul
            rw [Nat.mul_comm, ← Nat.pow_succ]
            exact h
          rw [ih hne hquotient, padded_one_last digit hb hle, List.append_assoc,
            List.singleton_append]

end Digits
