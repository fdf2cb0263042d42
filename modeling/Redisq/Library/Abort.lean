import Mathlib.Data.Nat.Notation
import Redisq.Library.CommandScript

/-!
# Scripts that stop half way

A script whose commands may fail is not undone when one of them does: the
store keeps what the commands before it wrote.  `attempt` runs a script up to
the first command that fails, `cut` up to a given number of commands, and
`Throughout` says of a property that it holds wherever a run may stop.  An
attempt always ends at a cut (`attempt_eq_cut`), so what holds throughout
holds after every attempt.

## Main results

* `throughout_bind` — a property holds throughout `x`, then `f`, if it holds
  throughout both, `f` taken up where `x` ends.
* `cut_bind` — where a given number of commands stops in `x`, then `f`.
* `attempt_of_spared` — an attempt of a script with no failing command is its
  plain run.
-/

namespace Script

variable {ω σ α β γ : Type}

/-! ## Runs that stop -/

/-- Run a script up to its first failing command: the reply, if it came to
one, and the store at that point. -/
def attempt (fails : ω → Bool) : Script ω σ α → σ → Option α × σ
  | .done a, s => (some a, s)
  | .call op effect next, s =>
      if fails op then (none, s) else (next (effect s).1).attempt fails (effect s).2

/-- The store after the first `n` commands, or all of them. -/
def cut : ℕ → Script ω σ α → σ → σ
  | 0, _, s => s
  | _ + 1, .done _, s => s
  | n + 1, .call _ effect next, s => (next (effect s).1).cut n (effect s).2

/-- The number of commands of a run. -/
def size : Script ω σ α → σ → ℕ
  | .done _, _ => 0
  | .call _ effect next, s => (next (effect s).1).size (effect s).2 + 1

/-- `P` holds wherever the run may stop. -/
def Throughout (P : σ → Prop) (x : Script ω σ α) (s : σ) : Prop :=
  ∀ n, P (x.cut n s)

/-- No command of the script changes what `f` reads. -/
def Leaves (f : σ → γ) (x : Script ω σ α) : Prop :=
  ∀ s, Throughout (fun t => f t = f s) x s

/-- No command the script may come to fails. -/
def Spared (fails : ω → Bool) : Script ω σ α → Prop
  | .done _ => True
  | .call op _ next => fails op = false ∧ ∀ b, (next b).Spared fails

/-- The script comes to a failing command, whatever the store. -/
def Blocked (fails : ω → Bool) (x : Script ω σ α) : Prop :=
  ∀ s, (x.attempt fails s).1 = none

/-! ## Attempts -/

section Attempts

variable (fails : ω → Bool)

@[simp] theorem attempt_pure (a : α) (s : σ) :
    (pure a : Script ω σ α).attempt fails s = (some a, s) := rfl

theorem attempt_command (op : ω) (effect : σ → α × σ) (s : σ) :
    (command op effect).attempt fails s =
      if fails op then (none, s) else (some (effect s).1, (effect s).2) := rfl

@[simp ↓] theorem attempt_ite (p : Prop) [Decidable p] (x y : Script ω σ α) (s : σ) :
    (if p then x else y).attempt fails s =
      if p then x.attempt fails s else y.attempt fails s := by
  split <;> rfl

/-- A part that stops stops the whole. -/
theorem attempt_bind_of_none {x : Script ω σ α} {s t : σ} (h : x.attempt fails s = (none, t))
    (f : α → Script ω σ β) : (x >>= f).attempt fails s = (none, t) := by
  induction x generalizing s with
  | done a => cases h
  | call op effect next ih =>
      show (if fails op then (none, s) else _) = _
      rw [attempt] at h
      by_cases hop : fails op = true
      · rw [if_pos hop] at h
        rw [if_pos hop, (Prod.mk.inj h).2]
      · rw [if_neg hop] at h
        rw [if_neg hop]
        exact ih (effect s).1 h

/-- A part that comes to its end hands over to the next. -/
theorem attempt_bind_of_some {x : Script ω σ α} {s t : σ} {a : α}
    (h : x.attempt fails s = (some a, t)) (f : α → Script ω σ β) :
    (x >>= f).attempt fails s = (f a).attempt fails t := by
  induction x generalizing s with
  | done b =>
      obtain ⟨hreply, hstore⟩ := Prod.mk.inj h
      rw [← Option.some.inj hreply, ← hstore]
      rfl
  | call op effect next ih =>
      show (if fails op then (none, s) else _) = _
      rw [attempt] at h
      by_cases hop : fails op = true
      · rw [if_pos hop] at h
        cases h
      · rw [if_neg hop] at h
        rw [if_neg hop]
        exact ih (effect s).1 h

theorem attempt_command_bind (op : ω) (effect : σ → α × σ) (f : α → Script ω σ β) (s : σ) :
    (command op effect >>= f).attempt fails s =
      if fails op then (none, s) else (f (effect s).1).attempt fails (effect s).2 := rfl

theorem attempt_bind_fst_none {x : Script ω σ α} {s : σ} (h : (x.attempt fails s).1 = none)
    (f : α → Script ω σ β) : ((x >>= f).attempt fails s).1 = none := by
  cases hx : x.attempt fails s with
  | mk reply t =>
      rw [hx] at h
      obtain rfl : reply = none := h
      rw [attempt_bind_of_none fails hx]

/-- What becomes of a reply has no part in the store. -/
theorem attempt_bind_pure (x : Script ω σ α) (g : α → β) (s : σ) :
    ((x >>= fun a => pure (g a)).attempt fails s).2 = (x.attempt fails s).2 := by
  cases h : x.attempt fails s with
  | mk reply t =>
      cases reply with
      | none => rw [attempt_bind_of_none fails h]
      | some a => rw [attempt_bind_of_some fails h, attempt_pure]

/-- An attempt that comes to an end is the plain run. -/
theorem attempt_eq_exec {x : Script ω σ α} {s t : σ} {a : α}
    (h : x.attempt fails s = (some a, t)) : x.exec s = (a, t) := by
  induction x generalizing s with
  | done b =>
      obtain ⟨hreply, hstore⟩ := Prod.mk.inj h
      rw [← Option.some.inj hreply, ← hstore]
      rfl
  | call op effect next ih =>
      rw [attempt] at h
      by_cases hop : fails op = true
      · rw [if_pos hop] at h
        cases h
      · rw [if_neg hop] at h
        exact ih (effect s).1 h

end Attempts

/-! ## Cuts -/

theorem cut_zero (x : Script ω σ α) (s : σ) : x.cut 0 s = s := by
  cases x <;> rfl

@[simp] theorem cut_pure (a : α) (n : ℕ) (s : σ) : (pure a : Script ω σ α).cut n s = s := by
  cases n <;> rfl

@[simp] theorem size_pure (a : α) (s : σ) : (pure a : Script ω σ α).size s = 0 := rfl

@[simp] theorem size_command (op : ω) (effect : σ → α × σ) (s : σ) :
    (command op effect).size s = 1 := rfl

@[simp ↓] theorem size_bind (x : Script ω σ α) (f : α → Script ω σ β) (s : σ) :
    (x >>= f).size s = x.size s + (f (x.exec s).1).size (x.exec s).2 := by
  induction x generalizing s with
  | done a => exact (Nat.zero_add _).symm
  | call op effect next ih =>
      show ((next (effect s).1 >>= f).size (effect s).2 + 1) = _
      rw [ih]
      exact Nat.add_right_comm _ _ _

/-- A cut of the first part, or of the second from where the first ends. -/
theorem cut_bind (x : Script ω σ α) (f : α → Script ω σ β) (n : ℕ) (s : σ) :
    (x >>= f).cut n s =
      if n ≤ x.size s then x.cut n s
      else (f (x.exec s).1).cut (n - x.size s) (x.exec s).2 := by
  induction x generalizing s n with
  | done a =>
      by_cases hn : n = 0
      · subst hn
        rw [if_pos (Nat.zero_le _)]
        exact cut_zero _ s
      · rw [if_neg (by show ¬n ≤ 0; omega)]
        rfl
  | call op effect next ih =>
      cases n with
      | zero => rfl
      | succ n =>
          show (next (effect s).1 >>= f).cut n (effect s).2 = _
          rw [ih]
          have hsize : (call op effect next).size s = (next (effect s).1).size (effect s).2 + 1 :=
            rfl
          by_cases hn : n ≤ (next (effect s).1).size (effect s).2
          · rw [if_pos hn, if_pos (by omega)]
            rfl
          · rw [if_neg hn, if_neg (by omega), hsize, Nat.add_sub_add_right]
            rfl

/-- All the commands are the plain run. -/
theorem cut_of_size_le {x : Script ω σ α} {n : ℕ} {s : σ} (h : x.size s ≤ n) :
    x.cut n s = (x.exec s).2 := by
  induction x generalizing s n with
  | done a => exact cut_pure a n s
  | call op effect next ih =>
      cases n with
      | zero => exact absurd h (Nat.not_succ_le_zero _)
      | succ n => exact ih (effect s).1 (Nat.le_of_succ_le_succ h)

/-- Past the first part, the commands are the second part's. -/
theorem cut_bind_add (x : Script ω σ α) (f : α → Script ω σ β) (n : ℕ) (s : σ) :
    (x >>= f).cut (x.size s + n) s = (f (x.exec s).1).cut n (x.exec s).2 := by
  rw [cut_bind]
  cases n with
  | zero => rw [if_pos (by omega), cut_of_size_le (by omega), cut_zero]
  | succ n => rw [if_neg (by omega), Nat.add_sub_cancel_left]

theorem cut_bind_pure (x : Script ω σ α) (g : α → β) (n : ℕ) (s : σ) :
    (x >>= fun a => pure (g a)).cut n s = x.cut n s := by
  rw [cut_bind]
  split
  · rfl
  · next h => rw [cut_pure, cut_of_size_le (Nat.le_of_not_le h)]

/-- An attempt ends at a cut. -/
theorem attempt_eq_cut (fails : ω → Bool) (x : Script ω σ α) (s : σ) :
    ∃ n, (x.attempt fails s).2 = x.cut n s := by
  induction x generalizing s with
  | done a => exact ⟨0, rfl⟩
  | call op effect next ih =>
      by_cases hop : fails op = true
      · refine ⟨0, ?_⟩
        rw [attempt, if_pos hop]
        rfl
      · obtain ⟨n, hn⟩ := ih (effect s).1 (effect s).2
        refine ⟨n + 1, ?_⟩
        rw [attempt, if_neg hop]
        exact hn

/-! ## What holds throughout -/

section Throughout

variable {P : σ → Prop}

theorem Throughout.start {x : Script ω σ α} {s : σ} (h : Throughout P x s) : P s :=
  cut_zero x s ▸ h 0

theorem Throughout.finish {x : Script ω σ α} {s : σ} (h : Throughout P x s) : P (x.exec s).2 :=
  cut_of_size_le (Nat.le_refl (x.size s)) ▸ h (x.size s)

theorem Throughout.attempt {x : Script ω σ α} {s : σ} (h : Throughout P x s)
    (fails : ω → Bool) : P (x.attempt fails s).2 := by
  obtain ⟨n, hn⟩ := attempt_eq_cut fails x s
  rw [hn]
  exact h n

theorem Throughout.mono {Q : σ → Prop} {x : Script ω σ α} {s : σ} (h : Throughout P x s)
    (hPQ : ∀ t, P t → Q t) : Throughout Q x s :=
  fun n => hPQ _ (h n)

@[simp] theorem throughout_pure {a : α} {s : σ} :
    Throughout P (pure a : Script ω σ α) s ↔ P s :=
  ⟨Throughout.start, fun h n => (cut_pure a n s).symm ▸ h⟩

@[simp] theorem throughout_command {op : ω} {effect : σ → α × σ} {s : σ} :
    Throughout P (command op effect) s ↔ P s ∧ P (effect s).2 := by
  constructor
  · intro h
    exact ⟨h.start, h.finish⟩
  · rintro ⟨hstart, hfinish⟩ n
    cases n with
    | zero => exact hstart
    | succ n =>
        show P ((pure (effect s).1 : Script ω σ α).cut n (effect s).2)
        rw [cut_pure]
        exact hfinish

@[simp ↓] theorem throughout_bind {x : Script ω σ α} {f : α → Script ω σ β} {s : σ} :
    Throughout P (x >>= f) s ↔
      Throughout P x s ∧ Throughout P (f (x.exec s).1) (x.exec s).2 := by
  constructor
  · intro h
    constructor
    · intro n
      by_cases hn : n ≤ x.size s
      · have hcut := h n
        rwa [cut_bind, if_pos hn] at hcut
      · have hcut := h (x.size s)
        rw [cut_bind, if_pos (Nat.le_refl _)] at hcut
        rwa [cut_of_size_le (Nat.le_of_not_le hn), ← cut_of_size_le (Nat.le_refl (x.size s))]
    · intro n
      cases n with
      | zero =>
          have hcut := h (x.size s)
          rw [cut_bind, if_pos (Nat.le_refl _), cut_of_size_le (Nat.le_refl _)] at hcut
          rwa [cut_zero]
      | succ n =>
          have hcut := h (x.size s + (n + 1))
          rwa [cut_bind, if_neg (by omega), Nat.add_sub_cancel_left] at hcut
  · rintro ⟨hfirst, hsecond⟩ n
    rw [cut_bind]
    split
    · exact hfirst n
    · exact hsecond _

@[simp ↓] theorem throughout_ite {p : Prop} [Decidable p] {x y : Script ω σ α} {s : σ} :
    Throughout P (if p then x else y) s ↔
      (p → Throughout P x s) ∧ (¬p → Throughout P y s) := by
  by_cases hp : p <;> simp [hp]

end Throughout

/-! ## What a script leaves alone -/

section Leaves

variable {f : σ → γ}

theorem Leaves.exec {x : Script ω σ α} (h : Leaves f x) (s : σ) : f (x.exec s).2 = f s :=
  (h s).finish

theorem Leaves.attempt {x : Script ω σ α} (h : Leaves f x) (fails : ω → Bool) (s : σ) :
    f (x.attempt fails s).2 = f s :=
  (h s).attempt fails

theorem leaves_pure (a : α) : Leaves f (pure a : Script ω σ α) :=
  fun _ => throughout_pure.mpr rfl

theorem leaves_command {op : ω} {effect : σ → α × σ} (h : ∀ s, f (effect s).2 = f s) :
    Leaves f (command op effect) :=
  fun s => throughout_command.mpr ⟨rfl, h s⟩

theorem Leaves.bind {x : Script ω σ α} {g : α → Script ω σ β} (hx : Leaves f x)
    (hg : ∀ a, Leaves f (g a)) : Leaves f (x >>= g) := by
  intro s
  refine throughout_bind.mpr ⟨hx s, ?_⟩
  have hend : f (x.exec s).2 = f s := hx.exec s
  exact (hg (x.exec s).1 (x.exec s).2).mono fun t ht => ht.trans hend

theorem Leaves.ite {p : Prop} [Decidable p] {x y : Script ω σ α} (hx : Leaves f x)
    (hy : Leaves f y) : Leaves f (if p then x else y) := by
  split
  · exact hx
  · exact hy

theorem Leaves.each {l : List β} {x : β → Script ω σ PUnit} (hx : ∀ b, Leaves f (x b)) :
    Leaves f (each l x) := by
  induction l with
  | nil => exact leaves_pure _
  | cons b rest ih => exact (hx b).bind fun _ => ih

end Leaves

/-! ## Scripts without a failing command -/

section Spared

variable {fails : ω → Bool}

/-- An attempt with no failing command is the plain run. -/
theorem attempt_of_spared {x : Script ω σ α} (h : x.Spared fails) (s : σ) :
    x.attempt fails s = (some (x.exec s).1, (x.exec s).2) := by
  induction x generalizing s with
  | done a => rfl
  | call op effect next ih =>
      have hop : ¬fails op = true := by
        rw [h.1]
        exact Bool.false_ne_true
      rw [attempt, if_neg hop]
      exact ih (effect s).1 (h.2 (effect s).1) (effect s).2

theorem spared_of_forall (h : ∀ op, fails op = false) (x : Script ω σ α) : x.Spared fails := by
  induction x with
  | done a => trivial
  | call op effect next ih => exact ⟨h op, fun b => ih b⟩

theorem spared_pure (a : α) : (pure a : Script ω σ α).Spared fails := trivial

theorem spared_command {op : ω} {effect : σ → α × σ} (h : fails op = false) :
    (command op effect).Spared fails :=
  ⟨h, fun _ => trivial⟩

theorem Spared.bind {x : Script ω σ α} {f : α → Script ω σ β} (hx : x.Spared fails)
    (hf : ∀ a, (f a).Spared fails) : (x >>= f).Spared fails := by
  induction x with
  | done a => exact hf a
  | call op effect next ih => exact ⟨hx.1, fun b => ih b (hx.2 b)⟩

theorem Spared.ite {p : Prop} [Decidable p] {x y : Script ω σ α} (hx : x.Spared fails)
    (hy : y.Spared fails) : (if p then x else y : Script ω σ α).Spared fails := by
  split
  · exact hx
  · exact hy

end Spared

/-! ## Scripts that come to a failing command -/

section Blocked

variable {fails : ω → Bool}

theorem blocked_command {op : ω} {effect : σ → α × σ} (h : fails op = true) :
    Blocked fails (command op effect) := by
  intro s
  rw [attempt_command, if_pos h]

theorem Blocked.bind_left {x : Script ω σ α} (h : x.Blocked fails) (f : α → Script ω σ β) :
    (x >>= f).Blocked fails :=
  fun s => attempt_bind_fst_none fails (h s) f

theorem Blocked.bind_right {x : Script ω σ α} {f : α → Script ω σ β}
    (h : ∀ a, (f a).Blocked fails) : (x >>= f).Blocked fails := by
  intro s
  cases hx : x.attempt fails s with
  | mk reply t =>
      cases reply with
      | none => rw [attempt_bind_of_none fails hx]
      | some a =>
          rw [attempt_bind_of_some fails hx]
          exact h a t

theorem Blocked.ite {p : Prop} [Decidable p] {x y : Script ω σ α} (hx : x.Blocked fails)
    (hy : y.Blocked fails) : (if p then x else y : Script ω σ α).Blocked fails := by
  split
  · exact hx
  · exact hy

end Blocked

end Script
