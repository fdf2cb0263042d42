import Redisq.Model.Run

/-!
# An id is stored once per window

Which pushes are remembered depends on earlier pushes of the same id alone:
`:dedup:<id>` is written by storing runs and read by nothing else.  A push of
an id stores its item exactly when the window of every earlier storing run of
that id has passed (`stores_iff`), whatever else runs in between.
-/

namespace Redisq.Model

/-! ## What is remembered -/

/-- The ids remembered after a script run. -/
def ScriptRun.remembering (r : ScriptRun) (dedup : Hash ℕ) : Hash ℕ :=
  match r.inv with
  | .push a =>
      match a.id with
      | none => dedup
      | some (id, window) =>
          if (dedup.lookup id).any (fun expiry => r.env.nowms ≤ expiry) = true then dedup
          else dedup.insert id (r.env.nowms + window)
  | _ => dedup

theorem PopCall.effect_dedup (k : Kind) (env : Env) (p : PopCall) (s : Store) :
    (p.effect k env s).2.dedup = s.dedup := by
  obtain ⟨_, _, _, _, _, _, _, _, h⟩ := s.pop_eq k env p.args p.ids p.slots
  rw [PopCall.effect, h]

theorem Store.movedAll_dedup (k : Kind) (cj : Cjson) (ids : List Bytes) (s : Store) :
    (ids.foldl (Store.moved k cj) s).dedup = s.dedup := by
  obtain ⟨_, _, _, _, _, _, _, _, _, h⟩ := s.movedAll_eq k cj ids
  rw [h]

theorem after_dedup (k : Kind) (cj : Cjson) (s : Store) (r : ScriptRun) :
    (r.after k cj s).dedup = r.remembering s.dedup := by
  obtain ⟨inv, env⟩ := r
  have hevicted : (s.evicted env).dedup = s.dedup := by
    unfold Store.evicted
    split <;> rfl
  simp only [ScriptRun.after, ScriptRun.remembering, ← hevicted]
  generalize s.evicted env = s
  cases inv with
  | push a =>
      cases hid : a.id with
      | none =>
          simp only [Invocation.after, Store.afterPush, Store.remembers, hid, PushArgs.remember]
          rfl
      | some p =>
          simp only [Invocation.after, Store.afterPush, Store.remembers, hid, PushArgs.remember]
          split <;> rfl
  | rawPop =>
      simp only [Invocation.after, Store.rawPopped]
      split
      · rfl
      · cases k <;> rfl
  | pop p => exact p.effect_dedup k env s
  | finish a =>
      simp only [Invocation.after, Store.afterFinish]
      split <;> rfl
  | requeue vt => exact s.movedAll_dedup k cj _
  | sweep owner hbt =>
      simp only [Invocation.after, Store.swept_eq]
      exact s.movedAll_dedup k cj _
  | release owner => exact s.movedAll_dedup k cj _
  | remove item =>
      cases k with
      | fifo => rfl
      | prio =>
          simp only [Invocation.after, Store.removed]
          split <;> rfl
  | _ => rfl

/-- When `id` is forgotten, after a script run, if it was to be at `expiry`. -/
def ScriptRun.expiryAfter (r : ScriptRun) (id : Bytes) (expiry : Option ℕ) : Option ℕ :=
  match r.inv with
  | .push a =>
      match a.id with
      | none => expiry
      | some (id', window) =>
          if id' = id ∧ ¬expiry.any (fun expiry => r.env.nowms ≤ expiry) = true then
            some (r.env.nowms + window)
          else expiry
  | _ => expiry

/-- What is remembered of an id depends on that id alone. -/
theorem lookup_remembering (r : ScriptRun) (id : Bytes) (dedup : Hash ℕ) :
    (r.remembering dedup).lookup id = r.expiryAfter id (dedup.lookup id) := by
  obtain ⟨inv, env⟩ := r
  cases inv with
  | push a =>
      cases hid : a.id with
      | none => simp only [ScriptRun.remembering, ScriptRun.expiryAfter, hid]
      | some p =>
          obtain ⟨id', window⟩ := p
          simp only [ScriptRun.remembering, ScriptRun.expiryAfter, hid]
          by_cases heq : id' = id
          · subst heq
            split <;> simp_all
          · have hne : id ≠ id' := Ne.symm heq
            split <;> simp [heq, Finmap.lookup_insert_of_ne _ hne]
  | _ => rfl

/-! ## Runs -/

/-- Moment `n` is a run of an `EnqueueOnce` of `id` that sends a window of
`window` ms. -/
def OnceRun (u : ℕ → Option ScriptRun) (id : Bytes) (n : ℕ) (env : Env) (window : ℕ) : Prop :=
  ∃ a : PushArgs, u n = some ⟨.push a, env⟩ ∧ a.id = some (id, window)

/-- The run at moment `n` stored an item. -/
def Stores (k : Kind) (cj : Cjson) (u : ℕ → Option ScriptRun) (n : ℕ) : Prop :=
  ∃ r x, u n = some r ∧ r.reply k cj (storeAt k cj u n) = .pushed (some x)

/-- When `id` is forgotten. -/
def expiryAt (k : Kind) (cj : Cjson) (u : ℕ → Option ScriptRun) (id : Bytes) (n : ℕ) :
    Option ℕ :=
  (storeAt k cj u n).dedup.lookup id

section Runs

variable {k : Kind} {cj : Cjson} {u : ℕ → Option ScriptRun} {id : Bytes}

theorem expiryAt_succ (n : ℕ) :
    expiryAt k cj u id (n + 1) =
      match u n with
      | none => expiryAt k cj u id n
      | some r => r.expiryAfter id (expiryAt k cj u id n) := by
  simp only [expiryAt, storeAt_succ]
  cases u n with
  | none => rfl
  | some r =>
      obtain ⟨idle, jobs, completed, failed, hstep⟩ := step_some k cj (storeAt k cj u n) r
      rw [hstep]
      show (r.after k cj (storeAt k cj u n)).dedup.lookup id = _
      rw [after_dedup, lookup_remembering]

/-- A push of `id` stores its item unless `id` is remembered. -/
theorem OnceRun.stores_iff {n : ℕ} {env : Env} {window : ℕ} (h : OnceRun u id n env window) :
    Stores k cj u n ↔
      ¬(expiryAt k cj u id n).any (fun expiry => env.nowms ≤ expiry) = true := by
  obtain ⟨a, hu, hid⟩ := h
  have hreply := push_reply k cj (storeAt k cj u n) env a
  have hrem : (storeAt k cj u n).remembers env a =
      (expiryAt k cj u id n).any fun expiry => env.nowms ≤ expiry := by
    simp only [Store.remembers, hid, expiryAt]
  rw [hrem] at hreply
  constructor
  · rintro ⟨r, x, hr, hx⟩ hany
    obtain rfl : (⟨.push a, env⟩ : ScriptRun) = r := Option.some.inj (hu.symm.trans hr)
    rw [if_pos hany, hx] at hreply
    cases hreply
  · intro hany
    rw [if_neg hany] at hreply
    obtain ⟨x, hx⟩ := hreply
    exact ⟨_, x, hu, hx⟩

/-- What a moment does to an id: a storing push of it sets its expiry, and
nothing else touches it. -/
theorem expiryAt_succ_cases (n : ℕ) :
    (∃ env window, OnceRun u id n env window ∧ Stores k cj u n ∧
        expiryAt k cj u id (n + 1) = some (env.nowms + window)) ∨
      ((∀ env window, OnceRun u id n env window → ¬Stores k cj u n) ∧
        expiryAt k cj u id (n + 1) = expiryAt k cj u id n) := by
  by_cases hstore : ∃ env window, OnceRun u id n env window ∧ Stores k cj u n
  · obtain ⟨env, window, hrun, hstores⟩ := hstore
    refine Or.inl ⟨env, window, hrun, hstores, ?_⟩
    have hany := hrun.stores_iff.mp hstores
    obtain ⟨a, hu, hid⟩ := hrun
    rw [expiryAt_succ, hu]
    simp only [ScriptRun.expiryAfter, hid, true_and]
    exact if_pos hany
  · have hnot : ∀ env window, OnceRun u id n env window → ¬Stores k cj u n :=
      fun env window hrun hstores => hstore ⟨env, window, hrun, hstores⟩
    refine Or.inr ⟨hnot, ?_⟩
    rw [expiryAt_succ]
    cases hu : u n with
    | none => rfl
    | some r =>
        obtain ⟨inv, env⟩ := r
        cases inv with
        | push a =>
            cases hid : a.id with
            | none => simp only [ScriptRun.expiryAfter, hid]
            | some p =>
                obtain ⟨id', window⟩ := p
                simp only [ScriptRun.expiryAfter, hid]
                refine if_neg fun h => ?_
                have hrun : OnceRun u id n env window := ⟨a, hu, by rw [hid, h.1]⟩
                exact hnot env window hrun (hrun.stores_iff.mpr h.2)
        | _ => rfl

/-- An id is remembered because of a storing run, and until the window of
every storing run has passed. -/
theorem remembered (n : ℕ) :
    (∀ expiry, expiryAt k cj u id n = some expiry → ∃ i < n, ∃ env window,
        OnceRun u id i env window ∧ Stores k cj u i ∧ expiry = env.nowms + window) ∧
      ∀ i < n, ∀ env window, OnceRun u id i env window → Stores k cj u i →
        ∃ expiry, expiryAt k cj u id n = some expiry ∧ env.nowms + window ≤ expiry := by
  induction n with
  | zero => exact ⟨fun _ h => by simp [expiryAt, Store.empty] at h, fun _ h => by omega⟩
  | succ n ih =>
      obtain ⟨ihFrom, ihUntil⟩ := ih
      rcases expiryAt_succ_cases (k := k) (u := u) n with
        ⟨env, window, hrun, hstores, hsucc⟩ | ⟨hnot, hsucc⟩
      · refine ⟨fun expiry h => ?_, fun i hi env' window' hrun' hstores' => ?_⟩
        · exact ⟨n, Nat.lt_succ_self n, env, window, hrun, hstores,
            Option.some.inj (h.symm.trans hsucc)⟩
        · refine ⟨_, hsucc, ?_⟩
          rcases Nat.lt_succ_iff_lt_or_eq.mp hi with hlt | rfl
          · -- The later run stored, so the earlier window had passed.
            obtain ⟨expiry, hexpiry, hle⟩ := ihUntil i hlt env' window' hrun' hstores'
            have hany := hrun.stores_iff.mp hstores
            rw [hexpiry] at hany
            simp only [Option.any_some, decide_eq_true_eq, not_le] at hany
            omega
          · obtain ⟨a, hu, hid⟩ := hrun
            obtain ⟨a', hu', hid'⟩ := hrun'
            rw [hu] at hu'
            cases hu'
            rw [hid] at hid'
            cases hid'
            exact le_rfl
      · rw [hsucc]
        refine ⟨fun expiry h => ?_, fun i hi env' window' hrun' hstores' => ?_⟩
        · obtain ⟨i, hi, hrest⟩ := ihFrom expiry h
          exact ⟨i, hi.trans (Nat.lt_succ_self n), hrest⟩
        · rcases Nat.lt_succ_iff_lt_or_eq.mp hi with hlt | rfl
          · exact ihUntil i hlt env' window' hrun' hstores'
          · exact absurd hstores' (hnot env' window' hrun')

/-- Runs without some pushes of `id` remember every other id alike. -/
theorem expiryAt_congr {u' : ℕ → Option ScriptRun}
    (hu' : ∀ n, u' n = u n ∨ (u' n = none ∧ ∃ env window, OnceRun u id n env window))
    {id' : Bytes} (hid : id' ≠ id) (n : ℕ) :
    expiryAt k cj u' id' n = expiryAt k cj u id' n := by
  induction n with
  | zero => rfl
  | succ n ih =>
      rw [expiryAt_succ, expiryAt_succ]
      rcases hu' n with heq | ⟨hnone, env, window, a, hu, ha⟩
      · rw [heq, ih]
      · rw [hnone, hu]
        simp only [ih, ScriptRun.expiryAfter, ha, Ne.symm hid, false_and, if_false]

/-- Stored once per window.  Two runs that store an item under an id are
more than the first one's window apart; a run that stores nothing follows a
storing run whose window has not passed; and leaving out any pushes of the id
changes nothing for the others.  The window is the object's, in whole
milliseconds and at least one. -/
theorem enqueueOnce_once_per_window (k : Kind) (cj : Cjson) (u : ℕ → Option ScriptRun)
    (id : Bytes) :
    (∀ i j env env' window window', i < j →
      OnceRun u id i env window → OnceRun u id j env' window' →
      Stores k cj u i → Stores k cj u j → env.nowms + window < env'.nowms) ∧
    (∀ j env' window', OnceRun u id j env' window' → ¬Stores k cj u j →
      ∃ i < j, ∃ env window, OnceRun u id i env window ∧ Stores k cj u i ∧
        env'.nowms ≤ env.nowms + window) ∧
    (∀ u' : ℕ → Option ScriptRun,
      (∀ n, u' n = u n ∨ (u' n = none ∧ ∃ env window, OnceRun u id n env window)) →
      ∀ n id' env window, id' ≠ id → u' n = u n → OnceRun u id' n env window →
        (Stores k cj u' n ↔ Stores k cj u n)) ∧
    (∀ (a : PushArgs) (d : Time), id ≠ [] → 0 < d →
      (a.enqueueOnce id d).id = some (id, (max 1 (d / 1000000)).toNat)) := by
  refine ⟨?_, ?_, ?_, fun a d hid hd => a.id_enqueueOnce hid hd⟩
  · intro i j env env' window window' hij hi hj hstores hstores'
    obtain ⟨expiry, hexpiry, hle⟩ := (remembered j).2 i hij env window hi hstores
    have hany := hj.stores_iff.mp hstores'
    rw [hexpiry] at hany
    simp only [Option.any_some, decide_eq_true_eq, not_le] at hany
    omega
  · intro j env' window' hj hstores
    have hany := not_not.mp (mt hj.stores_iff.mpr hstores)
    cases hexpiry : expiryAt k cj u id j with
    | none => simp [hexpiry] at hany
    | some expiry =>
        obtain ⟨i, hi, env, window, hrun, hstored, rfl⟩ := (remembered j).1 expiry hexpiry
        rw [hexpiry] at hany
        exact ⟨i, hi, env, window, hrun, hstored, by simpa using hany⟩
  · intro u' hu' n id' env window hid hsame hrun
    have hrun' : OnceRun u' id' n env window := by
      obtain ⟨a, hu, ha⟩ := hrun
      exact ⟨a, hsame.trans hu, ha⟩
    rw [hrun.stores_iff, hrun'.stores_iff, expiryAt_congr hu' hid n]

end Runs

end Redisq.Model
