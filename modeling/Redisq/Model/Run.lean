import Redisq.Library.Trajectory
import Redisq.Model.Invocation

/-!
# Runs of scripts

A run feeds script runs, one after the other, to the keys of a queue; `none`
is a moment at which no script runs.  Every script run first finds out
whether the queue key has expired.
-/

namespace Redisq.Model

/-- An invocation and the server it runs on. -/
structure ScriptRun where
  inv : Invocation
  env : Env

/-- The queue key is gone once the clock is past its expiry. -/
def Store.evicted (env : Env) (s : Store) : Store :=
  if s.expiry.any (fun expiry => expiry < env.nowms) = true then
    { s with list := [], zset := ∅, expiry := none }
  else s

/-- An expired queue key takes nothing else with it. -/
theorem Store.evicted_eq (env : Env) (s : Store) :
    ∃ list zset expiry,
      s.evicted env = { s with list := list, zset := zset, expiry := expiry } := by
  unfold Store.evicted
  split
  · exact ⟨[], ∅, none, rfl⟩
  · exact ⟨s.list, s.zset, s.expiry, rfl⟩

/-- The key expires once. -/
theorem Store.evicted_evicted (env : Env) (s : Store) :
    (s.evicted env).evicted env = s.evicted env := by
  by_cases h : s.expiry.any (fun expiry => expiry < env.nowms) = true
  · simp [Store.evicted, h]
  · simp [Store.evicted, h]

@[simp] theorem Store.evicted_nacked (env : Env) (s : Store) :
    (s.evicted env).nacked = s.nacked := by
  obtain ⟨_, _, _, h⟩ := s.evicted_eq env
  rw [h]

@[simp] theorem Store.evicted_seq (env : Env) (s : Store) : (s.evicted env).seq = s.seq := by
  obtain ⟨_, _, _, h⟩ := s.evicted_eq env
  rw [h]

@[simp] theorem Store.evicted_timeouts (env : Env) (s : Store) :
    (s.evicted env).timeouts = s.timeouts := by
  obtain ⟨_, _, _, h⟩ := s.evicted_eq env
  rw [h]

@[simp] theorem Store.evicted_liveness (env : Env) (s : Store) :
    (s.evicted env).liveness = s.liveness := by
  obtain ⟨_, _, _, h⟩ := s.evicted_eq env
  rw [h]
  rfl

/-- A script run: its reply, and the store it leaves. -/
def ScriptRun.exec (k : Kind) (cj : Cjson) (r : ScriptRun) (s : Store) : Reply × Store :=
  (r.inv.script k cj r.env).exec (s.evicted r.env)

/-- Its reply. -/
def ScriptRun.reply (k : Kind) (cj : Cjson) (s : Store) (r : ScriptRun) : Reply :=
  (r.exec k cj s).1

/-- One moment of a run. -/
def step (k : Kind) (cj : Cjson) (s : Store) (r : Option ScriptRun) : Store :=
  match r with
  | none => s
  | some r => (r.exec k cj s).2

/-- The store before moment `n` of a run from empty keys. -/
def storeAt (k : Kind) (cj : Cjson) (u : ℕ → Option ScriptRun) (n : ℕ) : Store :=
  Trajectory.state (step k cj) Store.empty u n

/-- The effect of a script run, the idle set and the Job Records aside. -/
def ScriptRun.after (k : Kind) (cj : Cjson) (s : Store) (r : ScriptRun) : Store :=
  r.inv.after k cj r.env (s.evicted r.env)

theorem step_some (k : Kind) (cj : Cjson) (s : Store) (r : ScriptRun) :
    (r.after k cj s).SameBut (step k cj s (some r)) :=
  script_exec k cj r.env r.inv (s.evicted r.env)

@[simp] theorem step_none (k : Kind) (cj : Cjson) (s : Store) : step k cj s none = s := rfl

@[simp] theorem storeAt_zero (k : Kind) (cj : Cjson) (u : ℕ → Option ScriptRun) :
    storeAt k cj u 0 = Store.empty := rfl

theorem storeAt_succ (k : Kind) (cj : Cjson) (u : ℕ → Option ScriptRun) (n : ℕ) :
    storeAt k cj u (n + 1) = step k cj (storeAt k cj u n) (u n) := rfl

/-- Invariants of the keys, the idle set and the Job Records aside. -/
theorem storeAt_invariant {k : Kind} {cj : Cjson} {u : ℕ → Option ScriptRun}
    {I : Store → Prop} (hsame : ∀ s t : Store, s.SameBut t → I s → I t)
    (hempty : I Store.empty)
    (hafter : ∀ n r, u n = some r → I (storeAt k cj u n) → I (r.after k cj (storeAt k cj u n)))
    (n : ℕ) : I (storeAt k cj u n) := by
  refine Trajectory.invariant (I := I) hempty (fun m hm => ?_) n
  cases hr : u m with
  | none => exact hm
  | some r => exact hsame _ _ (step_some k cj _ r) (hafter m r hr hm)

section Fields

variable {k : Kind} {cj : Cjson} {u : ℕ → Option ScriptRun} {n : ℕ} {r : ScriptRun}

theorem storeAt_nacked (hr : u n = some r) :
    (storeAt k cj u (n + 1)).nacked = (r.after k cj (storeAt k cj u n)).nacked := by
  obtain ⟨_, _, _, _, h⟩ := step_some k cj (storeAt k cj u n) r
  rw [storeAt_succ, hr, h]

theorem storeAt_timeouts (hr : u n = some r) :
    (storeAt k cj u (n + 1)).timeouts = (r.after k cj (storeAt k cj u n)).timeouts := by
  obtain ⟨_, _, _, _, h⟩ := step_some k cj (storeAt k cj u n) r
  rw [storeAt_succ, hr, h]

theorem storeAt_liveness (hr : u n = some r) :
    (storeAt k cj u (n + 1)).liveness = (r.after k cj (storeAt k cj u n)).liveness := by
  obtain ⟨_, _, _, _, h⟩ := step_some k cj (storeAt k cj u n) r
  rw [storeAt_succ, hr, h]
  rfl

theorem storeAt_succ_none (hr : u n = none) : storeAt k cj u (n + 1) = storeAt k cj u n := by
  rw [storeAt_succ, hr, step_none]

/-- Where nothing runs any more, nothing changes. -/
theorem storeAt_of_none {m : ℕ} (h : ∀ i, m ≤ i → u i = none) (hn : m ≤ n) :
    storeAt k cj u n = storeAt k cj u m := by
  induction n, hn using Nat.le_induction with
  | base => rfl
  | succ n hn ih => rw [storeAt_succ_none (h n hn), ih]

end Fields

/-- A push run stores its item unless its id is remembered. -/
theorem push_reply (k : Kind) (cj : Cjson) (s : Store) (env : Env) (a : PushArgs) :
    if s.remembers env a then ScriptRun.reply k cj s ⟨.push a, env⟩ = .pushed none
    else ∃ r, ScriptRun.reply k cj s ⟨.push a, env⟩ = .pushed (some r) := by
  have hevicted : (s.evicted env).remembers env a = s.remembers env a := by
    unfold Store.evicted
    split <;> rfl
  simp only [ScriptRun.reply, ScriptRun.exec, Invocation.script, ↓Script.exec_bind,
    Script.exec_pure, ← hevicted]
  split
  · next h => rw [push_exec_repeat k env a _ h]
  · next h =>
      rw [push_exec k env a _ (by simpa using h)]
      exact ⟨_, rfl⟩

end Redisq.Model
