import Mathlib.Algebra.BigOperators.Group.Finset.Basic
import Mathlib.Algebra.BigOperators.Intervals

/-!
# Runs of a step function

A run feeds an infinite sequence of inputs to a step function; every finite
run is a prefix of one.  The rules below are the only inductions over runs
that a development on top of this module needs: an invariant of every state,
or of every state from one on, a balance of what comes in against what goes
out, and a simulation between two step functions that read matching inputs.
-/

namespace Trajectory

variable {σ τ ι κ : Type*}

/-- The state before input number `n`. -/
def state (step : σ → ι → σ) (s₀ : σ) (u : ℕ → ι) : ℕ → σ
  | 0 => s₀
  | n + 1 => step (state step s₀ u n) (u n)

@[simp] theorem state_zero (step : σ → ι → σ) (s₀ : σ) (u : ℕ → ι) :
    state step s₀ u 0 = s₀ := rfl

@[simp] theorem state_succ (step : σ → ι → σ) (s₀ : σ) (u : ℕ → ι) (n : ℕ) :
    state step s₀ u (n + 1) = step (state step s₀ u n) (u n) := rfl

section Rules

variable {step : σ → ι → σ} {s₀ : σ} {u : ℕ → ι}

/-- The invariant rule. -/
theorem invariant {I : σ → Prop} (h₀ : I s₀)
    (hstep : ∀ n, I (state step s₀ u n) → I (step (state step s₀ u n) (u n))) :
    ∀ n, I (state step s₀ u n) := by
  intro n
  induction n with
  | zero => exact h₀
  | succ n ih => exact hstep n ih

/-- The invariant rule, from some state of the run on; what is known of the
inputs from there on may be used. -/
theorem invariant_from {I : σ → Prop} {m : ℕ} (hm : I (state step s₀ u m))
    (hstep : ∀ n, m ≤ n → I (state step s₀ u n) → I (step (state step s₀ u n) (u n))) :
    ∀ n, m ≤ n → I (state step s₀ u n) := by
  intro n hn
  induction n, hn using Nat.le_induction with
  | base => exact hm
  | succ n hn ih => exact hstep n hn ih

/-- What a run holds and has paid out is what it started with and was paid
in, as soon as every step balances. -/
theorem balance {M : Type*} [AddCommMonoid M] (total : σ → M) (paidIn paidOut : ℕ → M)
    (N : ℕ)
    (hstep : ∀ n < N, total (step (state step s₀ u n) (u n)) + paidOut n =
      total (state step s₀ u n) + paidIn n) :
    total (state step s₀ u N) + ∑ i ∈ Finset.range N, paidOut i =
      total s₀ + ∑ i ∈ Finset.range N, paidIn i := by
  induction N with
  | zero => simp
  | succ N ih =>
      have hprev := ih fun n hn => hstep n (Nat.lt_succ_of_lt hn)
      have hlast := hstep N (Nat.lt_succ_self N)
      rw [Finset.sum_range_succ, Finset.sum_range_succ, state_succ]
      calc
        total (step (state step s₀ u N) (u N)) +
              (∑ i ∈ Finset.range N, paidOut i + paidOut N) =
            total (step (state step s₀ u N) (u N)) + paidOut N +
              ∑ i ∈ Finset.range N, paidOut i := by
          rw [add_comm (∑ i ∈ Finset.range N, paidOut i), add_assoc]
        _ = total (state step s₀ u N) + ∑ i ∈ Finset.range N, paidOut i +
              paidIn N := by
          rw [hlast, add_right_comm]
        _ = total s₀ + (∑ i ∈ Finset.range N, paidIn i + paidIn N) := by
          rw [hprev, add_assoc]

/-- The balance from some state of the run on. -/
theorem balance_from {M : Type*} [AddCommMonoid M] (total : σ → M) (paidIn paidOut : ℕ → M)
    {m : ℕ}
    (hstep : ∀ n, m ≤ n → total (step (state step s₀ u n) (u n)) + paidOut n =
      total (state step s₀ u n) + paidIn n) :
    ∀ n, m ≤ n → total (state step s₀ u n) + ∑ i ∈ Finset.Ico m n, paidOut i =
      total (state step s₀ u m) + ∑ i ∈ Finset.Ico m n, paidIn i := by
  intro n hn
  induction n, hn using Nat.le_induction with
  | base => simp
  | succ n hn ih =>
      rw [Finset.sum_Ico_succ_top hn, Finset.sum_Ico_succ_top hn, state_succ]
      calc
        total (step (state step s₀ u n) (u n)) +
              (∑ i ∈ Finset.Ico m n, paidOut i + paidOut n) =
            total (step (state step s₀ u n) (u n)) + paidOut n +
              ∑ i ∈ Finset.Ico m n, paidOut i := by
          rw [add_comm (∑ i ∈ Finset.Ico m n, paidOut i), add_assoc]
        _ = total (state step s₀ u n) + ∑ i ∈ Finset.Ico m n, paidOut i +
              paidIn n := by
          rw [hstep n hn, add_right_comm]
        _ = total (state step s₀ u m) + (∑ i ∈ Finset.Ico m n, paidIn i + paidIn n) := by
          rw [ih, add_assoc]

/-- The simulation rule: a relation that matching steps keep holds between
the two runs all along. -/
theorem simulation {step' : τ → κ → τ} {t₀ : τ} {v : ℕ → κ} {R : τ → σ → Prop}
    (h₀ : R t₀ s₀)
    (hstep : ∀ n, R (state step' t₀ v n) (state step s₀ u n) →
      R (step' (state step' t₀ v n) (v n)) (step (state step s₀ u n) (u n))) :
    ∀ n, R (state step' t₀ v n) (state step s₀ u n) := by
  intro n
  induction n with
  | zero => exact h₀
  | succ n ih => exact hstep n ih

end Rules

end Trajectory
