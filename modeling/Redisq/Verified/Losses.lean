import Mathlib.Tactic.Abel
import Redisq.Verified.Conservation

/-!
# What is lost

Beside what pops, finishes and `Remove` take, two things take items: a `Purge`
takes all there are, and the expiry of the queue key those that wait.  Nothing
else does (`items_accounted`).  The queue key expires no earlier than the last
push with an expiration says, so an item of such a push waits for as long as
its own push says, where all have the same expiration
(`expiry_not_early`).
-/

namespace Redisq.Model

/-! ## Losses of one script run -/

/-- The items that wait under a queue key that has expired. -/
def Store.expired (k : Kind) (env : Env) (s : Store) : Multiset Bytes :=
  if s.expiry.any (fun expiry => expiry < env.nowms) = true then s.waiting k else 0

/-- What a script run loses: what it finds expired, and what a `Purge`
drops. -/
def ScriptRun.lost (k : Kind) (s : Store) (r : ScriptRun) : Multiset Bytes :=
  s.expired k r.env +
    match r.inv with
    | .purge => ((s.evicted r.env).custody k).total
    | _ => 0

section Steps

variable {k : Kind} {cj : Cjson} {s : Store} {r : ScriptRun}

theorem evicted_total (k : Kind) (env : Env) (s : Store) :
    ((s.evicted env).custody k).total + s.expired k env = (s.custody k).total := by
  unfold Store.evicted Store.expired
  split
  · have hnone : ∀ t : Store, t.list = [] → t.zset = ∅ → t.waiting k = 0 := by
      intro t hlist hzset
      cases k with
      | fifo => rw [Store.waiting, hlist]; rfl
      | prio => rw [Store.waiting, hzset]; rfl
    show (_ : Custody Bytes Bytes).waiting + _ + _ = s.waiting k + _
    rw [Store.custody, hnone _ rfl rfl, zero_add, add_comm]
    rfl
  · exact add_zero _

theorem itemsIn_evicted : r.itemsIn k cj (s.evicted r.env) = r.itemsIn k cj s := by
  have hpushed : r.pushed k cj (s.evicted r.env) = r.pushed k cj s := by
    rw [ScriptRun.pushed, reply_evicted]
    rfl
  have hprepared : r.prepared (s.evicted r.env) = r.prepared s := by
    unfold ScriptRun.prepared
    rw [Store.evicted_nacked]
  rw [ScriptRun.itemsIn, ScriptRun.itemsIn, hpushed, hprepared]

theorem takenOut_evicted : r.takenOut k cj (s.evicted r.env) = r.takenOut k cj s := by
  rw [ScriptRun.takenOut, ScriptRun.takenOut, reply_evicted, Store.evicted_evicted]

theorem finished_evicted : r.finished k cj (s.evicted r.env) = r.finished k cj s := by
  have hentry : ∀ id, ((s.evicted r.env).custody k).entryOf id = (s.custody k).entryOf id :=
    fun id => by simp only [Custody.entryOf, Store.custody, Store.evicted_nacked]
  unfold ScriptRun.finished
  simp only [reply_evicted, hentry]

theorem itemsOut_evicted : r.itemsOut k cj (s.evicted r.env) = r.itemsOut k cj s := by
  rw [ScriptRun.itemsOut, ScriptRun.itemsOut, takenOut_evicted, finished_evicted]

end Steps

/-! ## Runs -/

/-- Nothing is made pending by hand over another pending item, and there are
fewer than 2^53 pushes, those of requeues included. -/
structure Accountable (k : Kind) (cj : Cjson) (u : ℕ → Option ScriptRun) : Prop where
  notPending : ∀ n env id item vt, u n = some ⟨.prepareAck id item vt, env⟩ →
    (storeAt k cj u n).nacked.lookup id = none ∨
      (storeAt k cj u n).nacked.lookup id = some item
  fewPuts : FewPuts k cj u

section Runs

variable {k : Kind} {cj : Cjson} {u : ℕ → Option ScriptRun} {m n : ℕ}

/-- One script run balances. -/
theorem Accountable.step (h : Accountable k cj u) {r : ScriptRun} (hr : u n = some r) :
    ((storeAt k cj u (n + 1)).custody k).total +
        (r.itemsOut k cj (storeAt k cj u n) + r.lost k (storeAt k cj u n)) =
      ((storeAt k cj u n).custody k).total + r.itemsIn k cj (storeAt k cj u n) := by
  have hevicted := Store.evicted_evicted r.env (storeAt k cj u n)
  have htotal := evicted_total k r.env (storeAt k cj u n)
  rw [← itemsIn_evicted, ← itemsOut_evicted, ← htotal]
  have hbound := h.fewPuts.seq_after hr
  rw [storeAt_succ, hr, (SameBut_fields (k := k) (step_some k cj (storeAt k cj u n) r)).1,
    ScriptRun.after,
    (after_custody k cj r.env ((storeAt_sequenced k cj u n).evicted r.env) r.inv hbound).1]
  by_cases hpurge : r.inv = .purge
  · obtain ⟨inv, env⟩ := r
    obtain rfl : inv = .purge := hpurge
    have hin : ScriptRun.itemsIn k cj ((storeAt k cj u n).evicted env) ⟨.purge, env⟩ = 0 := rfl
    have hout : ScriptRun.itemsOut k cj ((storeAt k cj u n).evicted env) ⟨.purge, env⟩ = 0 := rfl
    have hclear : ((((storeAt k cj u n).evicted env).custody k).apply .clear).total = 0 := rfl
    show (Custody.apply _ .clear).total + (_ + (_ + Custody.total _)) = _
    rw [hin, hout, hclear, zero_add, zero_add, add_zero, add_comm]
  · have hlegal : (((storeAt k cj u n).evicted r.env).custody k).Legal
        (r.inv.move k cj r.env ((storeAt k cj u n).evicted r.env)) := by
      refine move_legal k cj r.env _ r.inv fun id item vt hinv => ?_
      rw [Store.evicted_nacked]
      obtain ⟨inv, env⟩ := r
      subst hinv
      exact h.notPending n env id item vt hr
    have hlost : r.lost k (storeAt k cj u n) = (storeAt k cj u n).expired k r.env := by
      unfold ScriptRun.lost
      split
      · next hinv => exact absurd hinv hpurge
      · exact add_zero _
    have hbalance := Custody.total_balance _ _ hlegal
    rw [← itemsOut_eq hevicted hpurge, ← @itemsIn_eq k cj _ _ hevicted] at hbalance
    rw [hlost, ← add_assoc, hbalance, add_right_comm]

theorem Accountable.step_atMoment (h : Accountable k cj u) (n : ℕ) :
    ((storeAt k cj u (n + 1)).custody k).total +
        (atMoment k cj u (ScriptRun.itemsOut k cj) n + atMoment k cj u (ScriptRun.lost k) n) =
      ((storeAt k cj u n).custody k).total + atMoment k cj u (ScriptRun.itemsIn k cj) n := by
  cases hr : u n with
  | none => simp only [atMoment, hr, storeAt_succ_none hr, add_zero]
  | some r => simpa only [atMoment, hr] using h.step hr

/-- Every item is accounted for.  What waits and what is pending at a moment,
what was finished, popped raw or removed since an earlier one, and what was
lost, to the expiry of the queue key or a `Purge`, are what there was then and
what was pushed or made pending since. -/
theorem items_accounted (h : Accountable k cj u) (hmn : m ≤ n) :
    ((storeAt k cj u n).custody k).total +
        (∑ i ∈ Finset.Ico m n, atMoment k cj u (ScriptRun.itemsOut k cj) i +
          ∑ i ∈ Finset.Ico m n, atMoment k cj u (ScriptRun.lost k) i) =
      ((storeAt k cj u m).custody k).total +
        ∑ i ∈ Finset.Ico m n, atMoment k cj u (ScriptRun.itemsIn k cj) i := by
  rw [← Finset.sum_add_distrib]
  exact Trajectory.balance_from (fun s : Store => (s.custody k).total) _ _
    (fun n _ => h.step_atMoment n) n hmn

end Runs

/-! ## When the queue key expires -/

/-- The push at moment `i` stores its item. -/
def PushStores (k : Kind) (cj : Cjson) (u : ℕ → Option ScriptRun) (i : ℕ) (a : PushArgs)
    (env : Env) : Prop :=
  u i = some ⟨.push a, env⟩ ∧ ((storeAt k cj u i).evicted env).remembers env a = false

/-- The last push before moment `n` that has an expiration lets the queue key
expire at `expiry`. -/
def ExpiresBy (k : Kind) (cj : Cjson) (u : ℕ → Option ScriptRun) (n expiry : ℕ) : Prop :=
  ∃ i a env, i < n ∧ PushStores k cj u i a env ∧ 0 < a.expiration ∧
    (env.nowms : ℤ) + a.expiration = expiry ∧
    ∀ j a' env', i < j → j < n → PushStores k cj u j a' env' → a'.expiration ≤ 0

section Expiry

variable {k : Kind} {cj : Cjson} {u : ℕ → Option ScriptRun} {n expiry : ℕ}

theorem movedAll_expiry_some {s : Store} (ids : List Bytes)
    (h : (ids.foldl (Store.moved k cj) s).expiry = some expiry) : s.expiry = some expiry := by
  refine @Store.movedAll_induction k cj
    (fun t => t.expiry = some expiry → s.expiry = some expiry) (fun t id ht hmoved => ?_)
    ids s (fun hs => hs) h
  apply ht
  cases hid : t.nacked.lookup id with
  | none =>
      rw [Store.moved_of_none hid] at hmoved
      exact hmoved
  | some v =>
      rw [Store.moved_of_some hid] at hmoved
      cases k <;> exact (Option.ite_none_left_eq_some.mp hmoved).2

/-- Only a push with an expiration sets the queue key's. -/
theorem after_expiry_some {env : Env} {s : Store} {inv : Invocation}
    (h : (inv.after k cj env s).expiry = some expiry) :
    (∃ a, inv = .push a ∧ s.remembers env a = false ∧ 0 < a.expiration ∧
        (env.nowms : ℤ) + a.expiration = expiry) ∨
      (s.expiry = some expiry ∧
        ∀ a, inv = .push a → s.remembers env a = false → a.expiration ≤ 0) := by
  by_cases hpush : ∃ a, inv = .push a
  · obtain ⟨a, rfl⟩ := hpush
    simp only [Invocation.after, Store.afterPush] at h
    split at h
    · next hrem =>
        refine Or.inr ⟨h, fun a' heq hnew => ?_⟩
        obtain rfl := Invocation.push.inj heq
        rw [hrem] at hnew
        cases hnew
    · next hnew =>
        have hnew : s.remembers env a = false := by simpa using hnew
        by_cases hpos : 0 < a.expiration
        · refine Or.inl ⟨a, rfl, hnew, hpos, ?_⟩
          have hset : (env.nowms + a.expiration).toNat = expiry := by
            cases k <;> simpa [Store.pushed, hpos] using h
          omega
        · refine Or.inr ⟨?_, fun a' heq _ => ?_⟩
          · cases k <;>
              exact (Option.ite_none_left_eq_some.mp
                (by simpa only [Store.pushed, if_neg hpos] using h)).2
          · obtain rfl := Invocation.push.inj heq
            exact not_lt.mp hpos
  · right
    refine ⟨?_, fun a heq => absurd ⟨a, heq⟩ hpush⟩
    cases inv with
    | push a => exact absurd ⟨a, rfl⟩ hpush
    | rawPop =>
        simp only [Invocation.after, Store.rawPopped] at h
        split at h
        · exact h
        · cases k <;> exact h
    | pop p => exact (p.effect_frame k env s).2.1 ▸ h
    | finish a =>
        simp only [Invocation.after, Store.afterFinish] at h
        split at h <;> exact h
    | requeue vt => exact movedAll_expiry_some _ h
    | sweep owner hbt =>
        rw [Invocation.after, Store.swept_eq] at h
        exact movedAll_expiry_some _ h
    | release owner => exact movedAll_expiry_some _ h
    | remove item => exact (s.removed_frame k item).2.1 ▸ h
    | purge => cases h
    | _ => exact h

theorem evicted_expiry_some {env : Env} {s : Store} (h : (s.evicted env).expiry = some expiry) :
    s.expiry = some expiry := by
  unfold Store.evicted at h
  split at h
  · cases h
  · exact h

/-- The queue key expires when the last push with an expiration says. -/
theorem expiry_by (h : (storeAt k cj u n).expiry = some expiry) : ExpiresBy k cj u n expiry := by
  induction n with
  | zero => cases h
  | succ n ih =>
      cases hr : u n with
      | none =>
          rw [storeAt_succ_none hr] at h
          obtain ⟨i, a, env, hin, hstores, hpos, hsum, hlast⟩ := ih h
          refine ⟨i, a, env, by omega, hstores, hpos, hsum, fun j a' env' hij hjn hj => ?_⟩
          have hne : j ≠ n := by
            rintro rfl
            rw [hj.1] at hr
            cases hr
          exact hlast j a' env' hij (by omega) hj
      | some r =>
          obtain ⟨-, hexpiry, -⟩ :=
            SameBut_fields (k := k) (step_some k cj (storeAt k cj u n) r)
          rw [storeAt_succ, hr, hexpiry] at h
          obtain ⟨inv, env⟩ := r
          obtain ⟨a, rfl, hnew, hpos, hsum⟩ | ⟨hkept, hother⟩ := after_expiry_some h
          · exact ⟨n, a, env, by omega, ⟨hr, hnew⟩, hpos, hsum, fun j a' env' hnj hjn => by omega⟩
          · obtain ⟨i, a, env', hin, hstores, hpos, hsum, hlast⟩ := ih (evicted_expiry_some hkept)
            refine ⟨i, a, env', by omega, hstores, hpos, hsum, fun j a' env'' hij hjn hj => ?_⟩
            obtain hlt | rfl := (show j ≤ n by omega).lt_or_eq
            · exact hlast j a' env'' hij hlt hj
            · rw [hj.1] at hr
              obtain ⟨rfl, rfl⟩ := ScriptRun.mk.inj (Option.some.inj hr)
              exact hother a' rfl hj.2

/-- No early expiry.  If every push that stores its item has the same
expiration `e` and the Redis clock never runs back, a script finds an item
expired with the queue key only later than `e` ms after its push. -/
theorem expiry_not_early {e : ℤ} {j : ℕ} {a : PushArgs} {env : Env}
    (hclock : ∀ i l r r', i ≤ l → u i = some r → u l = some r' → r.env.nowms ≤ r'.env.nowms)
    (hsame : ∀ i a env, PushStores k cj u i a env → a.expiration = e)
    (hj : PushStores k cj u j a env)
    (hjn : j < n) {now : Env} (hexpired : (storeAt k cj u n).expired k now ≠ 0) :
    (env.nowms : ℤ) + e < now.nowms := by
  unfold Store.expired at hexpired
  split at hexpired
  · next hany =>
      obtain ⟨expiry, hexpiry, hlt⟩ := (Option.any_eq_true _ _).mp hany
      have hlt : expiry < now.nowms := of_decide_eq_true hlt
      obtain ⟨i, a', env', hin, hstores, hpos, hsum, hlast⟩ := expiry_by hexpiry
      rw [hsame i a' env' hstores] at hsum hpos
      have hji : j ≤ i := by
        by_contra hij
        have hnone := hlast j a env (by omega) hjn hj
        rw [hsame j a env hj] at hnone
        omega
      have hle := hclock j i _ _ hji hj.1 hstores.1
      have hle : env.nowms ≤ env'.nowms := hle
      omega
  · exact absurd rfl hexpired

end Expiry

/-- A push whose item expires before another one comes, and a `Purge`. -/
def expiredThenPurged : ℕ → Option ScriptRun
  | 0 => some ⟨.push ⟨[97], 10, 0, false, none⟩, .plain 0 fun _ => 0⟩
  | 1 => some ⟨.push ⟨[98], 10, 0, false, none⟩, .plain 20000 fun _ => 0⟩
  | 2 => some ⟨.purge, .plain 21000 fun _ => 0⟩
  | _ => none

theorem expiredThenPurged_accountable : Accountable .fifo .none expiredThenPurged where
  notPending n env id item vt h := by
    rcases n with _ | _ | _ | n <;> simp [expiredThenPurged] at h
  fewPuts := by
    refine FewPuts.of_le (m := 2) (by decide) fun n => ?_
    rcases n with _ | _ | _ | n <;> simp [atMoment, expiredThenPurged, ScriptRun.puts,
      ScriptRun.pushed, ScriptRun.requeued]
    · split <;> simp
    · split <;> simp

theorem items_accounted_expiredThenPurged :
    ((storeAt .fifo .none expiredThenPurged 3).custody .fifo).total +
        (∑ i ∈ Finset.Ico 0 3, atMoment .fifo .none expiredThenPurged
            (ScriptRun.itemsOut .fifo .none) i +
          ∑ i ∈ Finset.Ico 0 3, atMoment .fifo .none expiredThenPurged (ScriptRun.lost .fifo) i) =
      ((storeAt .fifo .none expiredThenPurged 0).custody .fifo).total +
        ∑ i ∈ Finset.Ico 0 3, atMoment .fifo .none expiredThenPurged
          (ScriptRun.itemsIn .fifo .none) i :=
  items_accounted expiredThenPurged_accountable (by decide)

theorem expiry_not_early_expiredThenPurged :
    ((Env.plain 0 fun _ => 0).nowms : ℤ) + 10 < (Env.plain 20000 fun _ => 0).nowms := by
  refine @expiry_not_early .fifo .none expiredThenPurged 1 10 0 _ (.plain 0 fun _ => 0) ?_ ?_
    ⟨rfl, rfl⟩ (by decide) (.plain 20000 fun _ => 0) (by decide)
  · intro i l r r' hil hr hr'
    rcases i with _ | _ | _ | i <;> rcases l with _ | _ | _ | l <;>
      simp [expiredThenPurged] at hr hr' hil <;> subst hr hr' <;> decide
  · intro i a env h
    obtain ⟨hr, -⟩ := h
    rcases i with _ | _ | _ | i <;> simp [expiredThenPurged] at hr <;> rw [← hr.1]

end Redisq.Model
