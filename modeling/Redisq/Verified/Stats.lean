import Redisq.Model.Stats
import Redisq.Verified.Losses
import Redisq.Verified.Paused
import Redisq.Verified.Signals

/-!
# The counts add up

What `QueueStats` reports at one moment adds up: every job that was submitted
or made pending by hand since the keys were empty waits, is pending, has
completed or failed, was taken out raw or by `Remove`, or was lost with the
queue key (`stats_add_up`).  The pause it reports is the one in effect, with
the time at which it took effect (`paused_since`).
-/

namespace Redisq.Model

/-! ## Counting -/

section Steps

variable {k : Kind} {cj : Cjson} {s : Store} {r : ScriptRun}

/-- As many items are in custody as wait and are pending. -/
theorem card_total (k : Kind) (s : Store) :
    Multiset.card (s.custody k).total = s.len k + s.nacked.keys.card := by
  have hkeys : s.nacked.keys.card = Multiset.card s.nacked.entries := Multiset.card_map _ _
  have hentries : Multiset.card (s.custody k).entries = Multiset.card s.nacked.entries :=
    Multiset.card_map _ _
  have hwaiting : Multiset.card (s.custody k).waiting = s.len k := (s.len_eq_card k).symm
  rw [Custody.total, Multiset.card_add, Multiset.card_map, hwaiting, hentries, hkeys]

theorem finishedInto_evicted (state : JobState) :
    ScriptRun.finishedInto k cj state (s.evicted r.env) r =
      ScriptRun.finishedInto k cj state s r := by
  rw [ScriptRun.finishedInto, ScriptRun.finishedInto, reply_evicted]

/-- A finish that found its entry counts in one Job State. -/
theorem card_finished (k : Kind) (cj : Cjson) (s : Store) (r : ScriptRun) :
    Multiset.card (r.finished k cj s) =
      ScriptRun.finishedInto k cj .completed s r + ScriptRun.finishedInto k cj .failed s r := by
  rw [← finished_evicted, ← finishedInto_evicted (s := s) .completed,
    ← finishedInto_evicted (s := s) .failed]
  obtain ⟨inv, env⟩ := r
  by_cases hfinish : ∃ a, inv = .finish a
  · obtain ⟨a, rfl⟩ := hfinish
    have hreply := finish_reply k cj (s.evicted env) env a (Store.evicted_evicted env s)
    unfold ScriptRun.finished ScriptRun.finishedInto
    simp only [hreply]
    cases h : (s.evicted env).nacked.lookup a.ackID with
    | none => rfl
    | some item =>
        have hentry : ((s.evicted env).custody k).entryOf a.ackID = {(a.ackID, item)} :=
          Custody.entryOf_of_some h
        simp only [Option.isSome_some, hentry, Multiset.card_singleton]
        cases a.state <;> rfl
  · unfold ScriptRun.finished ScriptRun.finishedInto
    cases inv with
    | finish a => exact absurd ⟨a, rfl⟩ hfinish
    | _ => rfl

end Steps

/-! ## Runs -/

/-- All counts are 0: at the start, and after a `Purge`. -/
def StartsClean (u : ℕ → Option ScriptRun) (m : ℕ) : Prop :=
  m = 0 ∨ ∃ i env, m = i + 1 ∧ u i = some ⟨.purge, env⟩

section Runs

variable {k : Kind} {cj : Cjson} {u : ℕ → Option ScriptRun} {m n : ℕ}

theorem StartsClean.storeAt (h : StartsClean u m) :
    ((storeAt k cj u m).custody k).total = 0 ∧ (storeAt k cj u m).stats = ⟨0, 0, 0⟩ := by
  obtain rfl | ⟨i, env, rfl, hr⟩ := h
  · exact ⟨by cases k <;> rfl, rfl⟩
  · obtain ⟨hcustody, -, -, -, hstats⟩ :=
      SameBut_fields (k := k) (step_some k cj (Model.storeAt k cj u i) ⟨.purge, env⟩)
    rw [storeAt_succ, hr, hcustody, hstats]
    exact ⟨by cases k <;> rfl, rfl⟩

/-- `:stats` counts what happens, a `Purge` aside. -/
theorem stats_step {r : ScriptRun} (hr : u n = some r) (hpurge : r.inv ≠ .purge) :
    (storeAt k cj u (n + 1)).stats =
      ⟨(storeAt k cj u n).stats.submitted + r.submitted k cj (storeAt k cj u n),
        (storeAt k cj u n).stats.completed +
          ScriptRun.finishedInto k cj .completed (storeAt k cj u n) r,
        (storeAt k cj u n).stats.failed +
          ScriptRun.finishedInto k cj .failed (storeAt k cj u n) r⟩ := by
  obtain ⟨_, _, _, heq⟩ := (storeAt k cj u n).evicted_eq r.env
  have hstats : ((storeAt k cj u n).evicted r.env).stats = (storeAt k cj u n).stats := by rw [heq]
  have hsubmitted : r.submitted k cj ((storeAt k cj u n).evicted r.env) =
      r.submitted k cj (storeAt k cj u n) := by
    rw [ScriptRun.submitted, ScriptRun.pushed, reply_evicted]
    rfl
  obtain ⟨-, -, -, -, hsame⟩ := SameBut_fields (k := k) (step_some k cj (storeAt k cj u n) r)
  rw [storeAt_succ, hr, hsame, ScriptRun.after,
    after_stats (Store.evicted_evicted r.env (storeAt k cj u n)) hpurge, hstats, hsubmitted,
    finishedInto_evicted .completed, finishedInto_evicted .failed]

/-- The totals since all counts were 0. -/
theorem stats_since (hclean : StartsClean u m) (hmn : m ≤ n)
    (hpurge : ∀ i env, m ≤ i → i < n → u i ≠ some ⟨.purge, env⟩) :
    (storeAt k cj u n).stats =
      ⟨countFrom k cj u m n (ScriptRun.submitted k cj),
        countFrom k cj u m n (ScriptRun.finishedInto k cj .completed),
        countFrom k cj u m n (ScriptRun.finishedInto k cj .failed)⟩ := by
  induction n, hmn using Nat.le_induction with
  | base =>
      simp only [countFrom_self]
      exact hclean.storeAt.2
  | succ n hmn ih =>
      have hbefore := ih fun i env him hin => hpurge i env him (by omega)
      simp only [countFrom_succ hmn]
      cases hr : u n with
      | none => simp only [storeAt_succ_none hr, hbefore, atMoment, hr, add_zero]
      | some r =>
          have hne : r.inv ≠ .purge := fun hinv =>
            hpurge n r.env hmn n.lt_succ_self (by rw [hr, ← hinv])
          simp only [stats_step hr hne, hbefore, atMoment, hr]

theorem card_sum (f : Store → ScriptRun → Multiset Bytes) :
    Multiset.card (∑ i ∈ Finset.Ico m n, atMoment k cj u f i) =
      countFrom k cj u m n fun s r => Multiset.card (f s r) := by
  rw [Multiset.card_sum, countFrom]
  refine Finset.sum_congr rfl fun i _ => ?_
  unfold atMoment
  split <;> rfl

theorem countFrom_add (f g h : Store → ScriptRun → ℕ)
    (hsum : ∀ i r, u i = some r → h (storeAt k cj u i) r =
      f (storeAt k cj u i) r + g (storeAt k cj u i) r) :
    countFrom k cj u m n h = countFrom k cj u m n f + countFrom k cj u m n g := by
  simp only [countFrom, ← Finset.sum_add_distrib]
  refine Finset.sum_congr rfl fun i _ => ?_
  unfold atMoment
  cases hr : u i with
  | none => rfl
  | some r => exact hsum i r hr

/-- The counts add up.  Since all of them were 0, as many jobs were submitted
or made pending by hand as wait, are pending, have completed or failed, were
taken out by a raw pop or a `Remove`, or were lost when the queue key
expired. -/
theorem stats_add_up (h : Accountable k cj u) (hclean : StartsClean u m) (hmn : m ≤ n)
    (hpurge : ∀ i env, m ≤ i → i < n → u i ≠ some ⟨.purge, env⟩) (env : Env)
    (hfits : (storeAt k cj u n).Fits) :
    (queueStats k env (storeAt k cj u n)).counts.pending +
        (queueStats k env (storeAt k cj u n)).counts.processing +
        ((queueStats k env (storeAt k cj u n)).totals.completed +
          (queueStats k env (storeAt k cj u n)).totals.failed) +
        countFrom k cj u m n (fun s r => Multiset.card (r.takenOut k cj s)) +
        (countFrom k cj u m n (fun s r => Multiset.card (s.expired k r.env)) +
          Multiset.card ((storeAt k cj u n).expired k env)) =
      (queueStats k env (storeAt k cj u n)).totals.submitted +
        countFrom k cj u m n (fun s r => Multiset.card (r.prepared s)) := by
  have hitems := congrArg Multiset.card
    (Trajectory.balance_from (fun s : Store => (s.custody k).total) _ _
      (fun n _ => h.step_atMoment n) n hmn)
  have hstate : ∀ i, Trajectory.state (step k cj) Store.empty u i = storeAt k cj u i :=
    fun _ => rfl
  simp only [Finset.sum_add_distrib, Multiset.card_add, card_sum, hstate, hclean.storeAt.1,
    Multiset.card_zero] at hitems
  have hnow := congrArg Multiset.card (evicted_total k env (storeAt k cj u n))
  rw [Multiset.card_add, card_total, Store.evicted_nacked] at hnow
  have hstats := @stats_since k cj _ _ _ hclean hmn hpurge
  have hout := @countFrom_add k cj u m n
    (fun s r => Multiset.card (r.takenOut k cj s)) (fun s r => Multiset.card (r.finished k cj s))
    (fun s r => Multiset.card (r.itemsOut k cj s))
    fun i r _ => by rw [ScriptRun.itemsOut, Multiset.card_add, Multiset.card_map]
  have hin := @countFrom_add k cj u m n
    (ScriptRun.submitted k cj) (fun s r => Multiset.card (r.prepared s))
    (fun s r => Multiset.card (r.itemsIn k cj s))
    fun i r _ => by rw [ScriptRun.itemsIn, Multiset.card_add, Multiset.card_map]; rfl
  have hfinished := @countFrom_add k cj u m n
    (ScriptRun.finishedInto k cj .completed) (ScriptRun.finishedInto k cj .failed)
    (fun s r => Multiset.card (r.finished k cj s)) fun i r _ => card_finished k cj _ r
  have hlost : countFrom k cj u m n (fun s r => Multiset.card (r.lost k s)) =
      countFrom k cj u m n fun s r => Multiset.card (s.expired k r.env) := by
    refine Finset.sum_congr rfl fun i hi => ?_
    obtain ⟨hmi, hin⟩ := Finset.mem_Ico.mp hi
    unfold atMoment
    cases hr : u i with
    | none => rfl
    | some r =>
        simp only [ScriptRun.lost]
        split
        · next hinv => exact absurd (by rw [hr, ← hinv]) (hpurge i r.env hmi hin)
        · rw [add_zero]
  rw [queueStats_eq k env hfits, hstats]
  simp only
  omega

/-! ## The pause -/

/-- A `Pause` at Redis time `t`, in ms, took effect before moment `n`, and no
`Resume` came since. -/
def PausedSince (k : Kind) (cj : Cjson) (u : ℕ → Option ScriptRun) (n t : ℕ) : Prop :=
  ∃ i env, i < n ∧ u i = some ⟨.pause, env⟩ ∧ (storeAt k cj u i).paused = none ∧
    env.nowms = t ∧ ∀ j env', i < j → j < n → u j ≠ some ⟨.resume, env'⟩

theorem PausedSince.succ_iff {t : ℕ} :
    PausedSince k cj u (n + 1) t ↔
      (∃ env, u n = some ⟨.pause, env⟩ ∧ (storeAt k cj u n).paused = none ∧ env.nowms = t) ∨
        (PausedSince k cj u n t ∧ ∀ env, u n ≠ some ⟨.resume, env⟩) := by
  constructor
  · rintro ⟨i, env, hin, hpause, hnone, ht, hresume⟩
    obtain hlt | rfl := (show i ≤ n by omega).lt_or_eq
    · exact Or.inr ⟨⟨i, env, hlt, hpause, hnone, ht, fun j env' hij hjn =>
        hresume j env' hij (by omega)⟩, fun env' => hresume n env' hlt n.lt_succ_self⟩
    · exact Or.inl ⟨env, hpause, hnone, ht⟩
  · rintro (⟨env, hpause, hnone, ht⟩ | ⟨⟨i, env, hin, hpause, hnone, ht, hresume⟩, hnow⟩)
    · exact ⟨n, env, n.lt_succ_self, hpause, hnone, ht, fun j env' hij hjn => by omega⟩
    · refine ⟨i, env, by omega, hpause, hnone, ht, fun j env' hij hjn => ?_⟩
      obtain hlt | rfl := (show j ≤ n by omega).lt_or_eq
      · exact hresume j env' hij hlt
      · exact hnow env'

theorem storeAt_paused_iff {t : ℕ} :
    (storeAt k cj u n).paused = some t ↔ PausedSince k cj u n t := by
  induction n generalizing t with
  | zero =>
      constructor
      · intro h
        cases h
      · rintro ⟨i, env, hi, -⟩
        omega
  | succ n ih =>
      rw [PausedSince.succ_iff, ← ih]
      cases hr : u n with
      | none => simp [storeAt_succ_none hr]
      | some r =>
          obtain ⟨inv, env⟩ := r
          rw [storeAt_paused hr, ScriptRun.after]
          by_cases hpause : inv = .pause
          · subst hpause
            show some (((storeAt k cj u n).evicted env).paused.getD env.nowms) = some t ↔ _
            rw [Store.evicted_paused]
            cases h : (storeAt k cj u n).paused <;> simp
          · by_cases hresume : inv = .resume
            · subst hresume
              show (none : Option ℕ) = some t ↔ _
              simp
            · rw [after_paused inv hpause hresume, Store.evicted_paused]
              simp [hpause, hresume]

/-- `QueueStats` reports the pause in effect, since when it is. -/
theorem paused_since (env : Env) (hfits : (storeAt k cj u n).Fits) (t : ℕ) :
    ((queueStats k env (storeAt k cj u n)).paused = true ∧
        (queueStats k env (storeAt k cj u n)).pausedAt = t) ↔ PausedSince k cj u n t := by
  rw [queueStats_eq k env hfits, ← storeAt_paused_iff]
  cases (storeAt k cj u n).paused <;> simp

end Runs

theorem stats_add_up_expiredThenPurged :
    (queueStats .fifo (.plain 20000 fun _ => 0)
          (storeAt .fifo .none expiredThenPurged 2)).counts.pending +
        (queueStats .fifo (.plain 20000 fun _ => 0)
          (storeAt .fifo .none expiredThenPurged 2)).counts.processing +
        ((queueStats .fifo (.plain 20000 fun _ => 0)
            (storeAt .fifo .none expiredThenPurged 2)).totals.completed +
          (queueStats .fifo (.plain 20000 fun _ => 0)
            (storeAt .fifo .none expiredThenPurged 2)).totals.failed) +
        countFrom .fifo .none expiredThenPurged 0 2
          (fun s r => Multiset.card (r.takenOut .fifo .none s)) +
        (countFrom .fifo .none expiredThenPurged 0 2
            (fun s r => Multiset.card (s.expired .fifo r.env)) +
          Multiset.card ((storeAt .fifo .none expiredThenPurged 2).expired .fifo
            (.plain 20000 fun _ => 0))) =
      (queueStats .fifo (.plain 20000 fun _ => 0)
        (storeAt .fifo .none expiredThenPurged 2)).totals.submitted +
        countFrom .fifo .none expiredThenPurged 0 2
          (fun s r => Multiset.card (r.prepared s)) := by
  refine stats_add_up expiredThenPurged_accountable (Or.inl rfl) (by decide) ?_ _
    ⟨by decide, by decide, by decide, fun t ht => by cases ht⟩
  intro i env _ hi hr
  rcases i with _ | _ | i <;> simp [expiredThenPurged] at hr hi

/-- A `Pause`, 5 ms after the epoch. -/
def pauseAtFive : ℕ → Option ScriptRun
  | 0 => some ⟨.pause, .plain 5000 fun _ => 0⟩
  | _ => none

theorem paused_since_pauseAtFive :
    (queueStats .fifo (.plain 6000 fun _ => 0)
      (storeAt .fifo .none pauseAtFive 1)).pausedAt = 5 := by
  refine ((paused_since (n := 1) _ ⟨by decide, by decide, by decide, fun t ht => ?_⟩ 5).mpr
    ⟨0, _, by decide, rfl, rfl, rfl, fun j env hj hjn => by omega⟩).2
  obtain rfl : 5 = t := Option.some.inj ht
  decide

end Redisq.Model
