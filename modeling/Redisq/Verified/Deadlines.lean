import Redisq.Verified.Heartbeats

/-!
# No early requeue

An entry that a pop handed out with a visibility timeout carries a deadline
no earlier than that pop's for as long as it is pending (`deadline_at`).  The
requeues that ignore deadlines are three (`IgnoresDeadline`).

Deadlines and clocks are doubles, so an entry comes back before the exact sum
of clock and timeout where that sum is rounded down (`roundedDown`).  The
difference is less than a microsecond until the clock reaches 2³¹ s
(`now_lt_later_of_short`).
-/

namespace Redisq.Model

/-! ## Runs -/

/-- The script run at moment `n` is a pop that hands out `v` under ack ID `a`. -/
def Returns (k : Kind) (cj : Cjson) (u : ℕ → Option ScriptRun) (n : ℕ) (p : PopCall) (env : Env)
    (a v : Bytes) : Prop :=
  u n = some ⟨.pop p, env⟩ ∧
    (a, v) ∈ p.returned (ScriptRun.reply k cj (storeAt k cj u n) ⟨.pop p, env⟩)

/-- An entry is pending under `a`. -/
def Pending (k : Kind) (cj : Cjson) (u : ℕ → Option ScriptRun) (n : ℕ) (a : Bytes) : Prop :=
  ((storeAt k cj u n).nacked.lookup a).isSome = true

/-- The script run at moment `m` moves the entry of `a` back to the queue. -/
def MovesBack (k : Kind) (cj : Cjson) (u : ℕ → Option ScriptRun) (m : ℕ) (r : ScriptRun)
    (a : Bytes) : Prop :=
  u m = some r ∧ Pending k cj u m a ∧
    a ∈ r.inv.requeuedIDs k cj r.env ((storeAt k cj u m).evicted r.env)

/-- No ack ID is made pending by hand that a pop generates. -/
def Apart (u : ℕ → Option ScriptRun) : Prop :=
  ∀ i p env j id item vt env', u i = some ⟨.pop p, env⟩ →
    u j = some ⟨.prepareAck id item vt, env'⟩ → id ∉ p.ids

/-- A sweep run by `sweeper` takes `owner` for dead, for one of the two
reasons there are. -/
def TakesForDead (s : Store) (env : Env) (sweeper owner : Owner) (hbt : Time) : Prop :=
  owner.name ∈ s.liveness.sweptDead env sweeper.name hbt ∧
    ((s.liveness.prepared env sweeper.name hbt).RanOut env owner.name ∨
      (s.liveness.prepared env sweeper.name hbt).Absent env owner.name)

/-- The requeue at moment `m` does not look at the deadlines of `owner`'s
entries: it is the owner's release, a sweep that takes it for dead, or a
`RequeueNackedItems` without a visibility timeout. -/
def IgnoresDeadline (k : Kind) (cj : Cjson) (u : ℕ → Option ScriptRun) (m : ℕ) (r : ScriptRun)
    (owner : Owner) : Prop :=
  r.inv = .release owner ∨
    (∃ sweeper hbt, r.inv = .sweep sweeper hbt ∧
      TakesForDead (storeAt k cj u m) r.env sweeper owner hbt) ∨
    ∃ vt ≤ 0, r.inv = .requeue vt

/-! ## The clock before a deadline -/

/-- By a clock before 2³¹ s, it is a microsecond or more until `d` after
`env`. -/
def ShortOf (now env : Env) (d : Duration) : Prop :=
  now.micros < 2 ^ 31 * 1000000 ∧ 1000 * ((now.micros : ℤ) + 1) ≤ 1000 * env.micros + d

/-- By then rounding makes no difference. -/
theorem now_lt_later_of_short {now env : Env} {d : Duration} (h : ShortOf now env d) :
    now.now < later env (seconds d) := by
  obtain ⟨hmicros, hshort⟩ := h
  have hd : d ≤ (d.toNat : ℕ) := Int.self_le_toNat d
  have hclock := (@secondsOf_near 1000000 (by decide) now.micros).2
  have hstart := (@secondsOf_near 1000000 (by decide) env.micros).1
  have htimeout := (@secondsOf_near 1000000000 (by decide) d.toNat).1
  have hsum := (nearestDouble_near (x := env.now + seconds d)
    (add_nonneg env.now_nonneg (secondsOf_nonneg _ _))).1
  rw [← now.now_eq] at hclock
  rw [← env.now_eq] at hstart
  rw [← seconds] at htimeout
  rw [later]
  generalize d.toNat = timeout at hd htimeout
  zify at hmicros
  simp only [second, Nat.cast_ofNat] at hclock hstart htimeout
  linarith

section Runs

variable {k : Kind} {cj : Cjson} {u : ℕ → Option ScriptRun} {n : ℕ} {p : PopCall} {env : Env}
  {a v : Bytes}

theorem Returns.handed (h : Returns k cj u n p env a v) :
    (a, v) ∈ ((storeAt k cj u n).evicted env).handed k p := by
  have hreturned := h.2
  rw [ScriptRun.reply, ScriptRun.exec, Invocation.script, p.returned_eq] at hreturned
  exact hreturned

theorem Returns.mem_ids (h : Returns k cj u n p env a v) : a ∈ p.ids :=
  (List.of_mem_zip h.2).1

/-- After the pop that handed it out. -/
theorem Returns.pending (h : Returns k cj u n p env a v) :
    (storeAt k cj u (n + 1)).nacked.lookup a = some v ∧
      (0 < p.args.vt → ∃ d, deadline env p.args.vt ≤ d ∧
        (storeAt k cj u (n + 1)).timeouts.score a = some d) := by
  rw [storeAt_nacked h.1, storeAt_timeouts h.1]
  exact returned_pending _ h.handed

/-- The deadline of an entry while it is pending. -/
theorem deadline_at (hprepare : ∀ i item vt env, u i ≠ some ⟨.prepareAck a item vt, env⟩)
    (h : Returns k cj u n p env a v) (hvt : 0 < p.args.vt) {m : ℕ} (hnm : n < m)
    (hpending : ∀ i, n < i → i ≤ m → Pending k cj u i a) :
    ∃ d, deadline env p.args.vt ≤ d ∧ (storeAt k cj u m).timeouts.score a = some d := by
  induction m, hnm using Nat.le_induction with
  | base => exact h.pending.2 hvt
  | succ m hnm ih =>
      obtain ⟨d, hle, hd⟩ := ih fun i hni him => hpending i hni (Nat.le_succ_of_le him)
      cases hr : u m with
      | none =>
          rw [storeAt_succ_none hr]
          exact ⟨d, hle, hd⟩
      | some r =>
          have hbefore := hpending m hnm (Nat.le_succ m)
          have hafter := hpending (m + 1) (Nat.lt_succ_of_lt hnm) le_rfl
          rw [Pending, storeAt_nacked hr] at hafter
          obtain ⟨inv, env'⟩ := r
          have hprepare : ∀ item vt, inv ≠ .prepareAck a item vt := by
            rintro item vt rfl
            exact hprepare m item vt env' hr
          rw [storeAt_timeouts hr]
          obtain ⟨d', hdd', hd'⟩ := deadline_kept
            (s := (storeAt k cj u m).evicted env')
            (by rw [Store.evicted_nacked]; exact hbefore) hafter hprepare
            (by rw [Store.evicted_timeouts]; exact hd)
          exact ⟨d', hle.trans hdd', hd'⟩

theorem mem_overdue {env : Env} {s : Store} {a : Bytes} :
    a ∈ s.overdue env ↔ ∃ d, s.timeouts.score a = some d ∧ d ≤ env.now := by
  constructor
  · intro h
    obtain ⟨d, hd⟩ := SortedSet.mem_members_iff.mp h
    obtain ⟨hscore, hle⟩ := SortedSet.score_filter.mp hd
    exact ⟨d, hscore, of_decide_eq_true hle⟩
  · rintro ⟨d, hscore, hle⟩
    exact SortedSet.mem_members_iff.mpr
      ⟨d, SortedSet.score_filter.mpr ⟨hscore, decide_eq_true hle⟩⟩

theorem mem_pendingIDs {env : Env} {f : Bytes → Bool} {s : Store} {a : Bytes}
    (h : a ∈ s.pendingIDs env f) : a ∈ s.nacked.keys ∧ f a = true := by
  have hmem := List.mem_filter.mp ((List.mem_insertionSort _).mp h)
  exact ⟨(env.mem_hkeys _ _).mp hmem.1, hmem.2⟩

/-- The requeues that move an entry whose deadline has not passed. -/
theorem requeuedIDs_early {env : Env} {s : Store} {inv : Invocation} {owner : Owner}
    {start i : ℕ} (h : ackIDOf owner start i ∈ inv.requeuedIDs k cj env s)
    (hearly : ∀ d, s.timeouts.score (ackIDOf owner start i) = some d → env.now < d) :
    inv = .release owner ∨
      (∃ sweeper hbt, inv = .sweep sweeper hbt ∧ TakesForDead s env sweeper owner hbt) ∨
      ∃ vt ≤ 0, inv = .requeue vt := by
  have hnot : ackIDOf owner start i ∉ s.overdue env := fun hover => by
    obtain ⟨d, hd, hle⟩ := mem_overdue.mp hover
    exact absurd (hearly d hd) (not_lt.mpr hle)
  cases inv with
  | requeue vt =>
      by_cases hvt : 0 < vt
      · rw [Invocation.requeuedIDs, Store.requeueIDs, if_pos hvt] at h
        exact absurd h hnot
      · exact Or.inr (Or.inr ⟨vt, not_lt.mp hvt, rfl⟩)
  | sweep sweeper hbt =>
      have hmem := (List.mem_append.mp h).resolve_left hnot
      have hdead := of_decide_eq_true (mem_pendingIDs hmem).2
      rw [ownerOf_ackIDOf] at hdead
      exact Or.inr (Or.inl ⟨sweeper, hbt, rfl, hdead, Liveness.ranOut_or_absent hdead⟩)
  | release o =>
      exact Or.inl (by rw [(ownedBy_ackIDOf o owner start i).mp (mem_pendingIDs h).2])
  | _ => exact absurd h List.not_mem_nil

/-- No early requeue.  A pop with visibility timeout `vt` that hands out an
item, freshly or once more, keeps it away from the queue until its deadline:
while its entry is the one pending, what moves it back at a clock before the
deadline, or a microsecond before it was due, ignores deadlines. -/
theorem no_early_requeue (hapart : Apart u) (h : Returns k cj u n p env a v)
    (hvt : 0 < p.args.vt) {m : ℕ} (hnm : n < m)
    (hpending : ∀ i, n < i → i < m → Pending k cj u i a) {r : ScriptRun}
    (hmoves : MovesBack k cj u m r a)
    (hearly : r.env.now < deadline env p.args.vt ∨
      ∃ d, p.args.vt = seconds d ∧ ShortOf r.env env d) :
    IgnoresDeadline k cj u m r p.args.owner := by
  obtain ⟨_, hpendingLast, hmem⟩ := hmoves
  have hbefore : r.env.now < deadline env p.args.vt := by
    rcases hearly with hbefore | ⟨d, hd, hshort⟩
    · exact hbefore
    · rw [deadline_of_pos env hvt, hd]
      exact now_lt_later_of_short hshort
  have hall : ∀ i, n < i → i ≤ m → Pending k cj u i a := by
    intro i hni him
    rcases him.lt_or_eq with hlt | rfl
    · exact hpending i hni hlt
    · exact hpendingLast
  have hprepare : ∀ i item vt env', u i ≠ some ⟨.prepareAck a item vt, env'⟩ :=
    fun i item vt env' hi => hapart n p env i a item vt env' h.1 hi h.mem_ids
  obtain ⟨d, hle, hd⟩ := deadline_at hprepare h hvt hnm hall
  obtain ⟨i, _, rfl⟩ := mem_ackIDs.mp h.mem_ids
  have hlate : ∀ d', ((storeAt k cj u m).evicted r.env).timeouts.score
      (ackIDOf p.args.owner p.args.start (i + 1)) = some d' → r.env.now < d' := by
    intro d' hd'
    rw [Store.evicted_timeouts, hd] at hd'
    rw [← Option.some.inj hd']
    exact hbefore.trans_le hle
  rcases requeuedIDs_early hmem hlate with hrelease | hsweep | hrequeue
  · exact Or.inl hrelease
  · obtain ⟨sweeper, hbt, hinv, hdead⟩ := hsweep
    refine Or.inr (Or.inl ⟨sweeper, hbt, hinv, ?_⟩)
    rw [TakesForDead, Store.evicted_liveness] at hdead
    exact hdead
  · exact Or.inr (Or.inr hrequeue)

end Runs

/-- A pop with ten seconds to work, and its owner's release a microsecond
later. -/
def closedEarly : ℕ → Option ScriptRun
  | 0 => some ⟨.push ⟨[97], 0, 0, false, none⟩, .plain 0 fun _ => 0⟩
  | 1 => some ⟨.pop ⟨⟨ownerA, 1, 10 * second, 0, false⟩, .one⟩, .plain 1 fun _ => 0⟩
  | 2 => some ⟨.release ownerA, .plain 2 fun _ => 0⟩
  | _ => none

theorem no_early_requeue_closedEarly :
    ∃ r, closedEarly 2 = some r ∧ IgnoresDeadline .fifo .none closedEarly 2 r ownerA := by
  have hreturns : Returns .fifo .none closedEarly 1
      ⟨⟨ownerA, 1, 10 * second, 0, false⟩, .one⟩ (.plain 1 fun _ => 0)
      (ackIDOf ownerA 1 1) [97] := ⟨rfl, by decide⟩
  have hapart : Apart closedEarly := by
    intro i p env j id item vt env' _ hj
    rcases j with _ | _ | _ | j <;> simp [closedEarly] at hj
  exact ⟨_, rfl, no_early_requeue hapart hreturns (by decide) (by decide)
    (fun i hi him => by omega) ⟨rfl, rfl, by decide⟩
    (Or.inr ⟨10000000000, by decide, by decide, by decide⟩)⟩

/-! ## Rounded deadlines -/

/-- No entry comes back before the exact sum of clock and timeout, of
microseconds and nanoseconds, but by a requeue that ignores deadlines. -/
def NeverEarly (k : Kind) (cj : Cjson) (u : ℕ → Option ScriptRun) : Prop :=
  ∀ n p env a v d m r, Returns k cj u n p env a v → 0 < d → p.args.vt = seconds d → n < m →
    (∀ i, n < i → i < m → Pending k cj u i a) → MovesBack k cj u m r a →
    1000 * (r.env.micros : ℤ) < 1000 * env.micros + d →
    IgnoresDeadline k cj u m r p.args.owner

/-- A pop with 1.0001 ms to work, and a sweep 1 ms later.  The deadline is
rounded down to the clock of the sweep. -/
def roundedDown : ℕ → Option ScriptRun
  | 0 => some ⟨.push ⟨[97], 0, 0, false, none⟩, .plain 1701058756267458 fun _ => 0⟩
  | 1 => some ⟨.pop ⟨⟨ownerA, 1, seconds 1000100, 0, false⟩, .one⟩,
      .plain 1701058756267459 fun _ => 0⟩
  | 2 => some ⟨.sweep ownerB minHeartbeat, .plain 1701058756268459 fun _ => 0⟩
  | _ => none

/-- So its entry comes back 100 ns early. -/
theorem roundedDown_early : Apart roundedDown ∧ ¬NeverEarly .fifo .none roundedDown := by
  constructor
  · intro i p env j id item vt env' _ hj
    rcases j with _ | _ | _ | j <;> simp [roundedDown] at hj
  · intro hnever
    have hreturns : Returns .fifo .none roundedDown 1
        ⟨⟨ownerA, 1, seconds 1000100, 0, false⟩, .one⟩ (.plain 1701058756267459 fun _ => 0)
        (ackIDOf ownerA 1 1) [97] := ⟨rfl, by decide +kernel⟩
    rcases hnever 1 _ _ _ _ 1000100 2 _ hreturns (by decide) rfl (by decide)
      (fun i hi him => by omega) ⟨rfl, by unfold Pending; decide +kernel, by decide +kernel⟩
      (by decide) with hrelease | ⟨sweeper, hbt, hsweep, hdead, _⟩ | ⟨vt, _, hrequeue⟩
    · cases hrelease
    · cases hsweep
      exact absurd hdead (by decide +kernel)
    · cases hrequeue

end Redisq.Model
