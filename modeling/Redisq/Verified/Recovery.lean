import Redisq.Verified.Calls
import Redisq.Verified.Reaping

/-!
# What a process held comes back when it is gone

A process that crashes runs nothing any more (`Silent`).  While other objects
sweep, what its object held comes back: once its heartbeat has run out, after
one sweep for every hundred heartbeats there are (`crashed_object_recovered`),
and without waiting for that once two counts, the presence grace apart, find
no subscriber on its wake channel (`gone_object_recovered`).

The sweeps come often enough that no gap between them counts as a stall.
-/

namespace Redisq.Model

/-! ## Runs without an object -/

/-- From moment `m` on `o` neither pops nor sweeps, and nothing is made
pending by hand under an ack ID of its own. -/
structure Silent (u : ℕ → Option ScriptRun) (o : Owner) (m : ℕ) : Prop where
  noPop : ∀ n p env, m ≤ n → u n = some ⟨.pop p, env⟩ → p.args.owner ≠ o
  noSweep : ∀ n hbt env, m ≤ n → u n ≠ some ⟨.sweep o hbt, env⟩
  noHand : ∀ n id item vt env, m ≤ n → u n = some ⟨.prepareAck id item vt, env⟩ →
    ownedBy o.name id = false

/-- The Redis clock never runs back, and from moment `m` on every sweep comes
at most 1.5 s after an earlier one: less than the gap that counts as a stall
by the step in which the sweeps' clock moves. -/
structure Swept (u : ℕ → Option ScriptRun) (m : ℕ) : Prop where
  clock : ∀ i j r r', i ≤ j → u i = some r → u j = some r' → r.env.now ≤ r'.env.now
  often : ∀ n sweeper hbt env, m ≤ n → u n = some ⟨.sweep sweeper hbt, env⟩ →
    ∃ i < n, ∃ sweeper' hbt' env', u i = some ⟨.sweep sweeper' hbt', env'⟩ ∧
      env.now + tickStep ≤ env'.now + sweepGap

/-- A script sets no heartbeat less than `minHeartbeat` ahead. -/
def Invocation.BeatsAhead : Invocation → Prop
  | .pop p => 0 < p.args.hbt → minHeartbeat ≤ p.args.hbt
  | .sweep _ hbt => 0 < hbt → minHeartbeat ≤ hbt
  | _ => True

/-- Nobody knows of `o` any more, and nothing of it is pending. -/
def Gone (k : Kind) (cj : Cjson) (u : ℕ → Option ScriptRun) (o : Owner) (n : ℕ) : Prop :=
  (storeAt k cj u n).liveness.Unmet o.name ∧
    ∀ id, ownedBy o.name id = true → (storeAt k cj u n).nacked.lookup id = none

/-- How many sweeps ran at Redis time `h` or later: one or none. -/
def ScriptRun.sweepsPast (h : Time) (_ : Store) (r : ScriptRun) : ℕ :=
  match r.inv with
  | .sweep _ _ => if h ≤ r.env.now then 1 else 0
  | _ => 0

/-- A sweep at moment `n` moves the sweeps' clock on, and counts. -/
def Counts (k : Kind) (cj : Cjson) (u : ℕ → Option ScriptRun) (n : ℕ) (env : Env) : Prop :=
  ∃ sweeper hbt, u n = some ⟨.sweep sweeper hbt, env⟩ ∧
    ticked env (storeAt k cj u n).clock = true

section Runs

variable {k : Kind} {cj : Cjson} {u : ℕ → Option ScriptRun} {o : Owner} {m n : ℕ}

/-! ## The sweeps' clock -/

/-- The clock is that of the last sweep that moved it. -/
theorem storeAt_clock {r : ScriptRun} (hr : u n = some r) :
    (storeAt k cj u (n + 1)).clock = (storeAt k cj u n).clock ∨
      (storeAt k cj u (n + 1)).clock = some r.env.now := by
  have hafter := congrArg Liveness.clock (@storeAt_liveness k cj _ _ _ hr)
  rw [ScriptRun.after, after_liveness] at hafter
  have hbefore : ((storeAt k cj u n).evicted r.env).liveness.clock = (storeAt k cj u n).clock :=
    congrArg Liveness.clock (Store.evicted_liveness r.env _)
  obtain ⟨inv, env⟩ := r
  cases inv with
  | sweep sweeper hbt =>
      rw [Invocation.livenessAfter, Liveness.swept_clock] at hafter
      split at hafter
      · exact Or.inr hafter
      · exact Or.inl (hafter.trans hbefore)
  | pop p =>
      left
      simp only [Invocation.livenessAfter] at hafter
      split at hafter <;> exact hafter.trans hbefore
  | _ => exact Or.inl (hafter.trans hbefore)

/-- A sweep leaves the clock less than a step behind. -/
theorem clock_after_sweep {sweeper : Owner} {hbt : Time} {env : Env}
    (hn : u n = some ⟨.sweep sweeper hbt, env⟩) :
    ∃ last, (storeAt k cj u (n + 1)).clock = some last ∧ env.now < last + tickStep := by
  have hafter := congrArg Liveness.clock (@storeAt_liveness k cj _ _ _ hn)
  rw [ScriptRun.after, after_liveness, Invocation.livenessAfter, Liveness.swept_clock,
    Store.evicted_liveness] at hafter
  by_cases hticked : ticked env (storeAt k cj u n).liveness.clock = true
  · rw [if_pos hticked] at hafter
    have hpos : (0 : Time) < tickStep := by decide
    exact ⟨env.now, hafter, by linarith⟩
  · rw [if_neg hticked] at hafter
    cases hlast : (storeAt k cj u n).liveness.clock with
    | none => simp [ticked, hlast] at hticked
    | some last =>
        simp only [ticked, hlast, Option.all_some, decide_eq_true_eq, not_or, not_le] at hticked
        exact ⟨last, hafter.trans hlast, by linarith⟩

/-- So does every later moment. -/
theorem Swept.clock_after (h : Swept u m) {i : ℕ} {sweeper : Owner} {hbt : Time} {env : Env}
    (hi : u i = some ⟨.sweep sweeper hbt, env⟩) (hin : i < n) :
    ∃ last, (storeAt k cj u n).clock = some last ∧ env.now < last + tickStep := by
  induction n, (show i + 1 ≤ n from hin) using Nat.le_induction with
  | base => exact clock_after_sweep hi
  | succ n hn ih =>
      obtain ⟨last, hlast, hlt⟩ := ih hn
      cases hr : u n with
      | none => rw [storeAt_succ_none hr]; exact ⟨last, hlast, hlt⟩
      | some r =>
          obtain hsame | hmoved := @storeAt_clock k cj _ _ _ hr
          · exact ⟨last, hsame.trans hlast, hlt⟩
          · have hle : env.now ≤ r.env.now :=
              h.clock i n _ _ (Nat.le_of_succ_le hn) hi hr
            have hpos : (0 : Time) < tickStep := by decide
            exact ⟨r.env.now, hmoved, by linarith⟩

/-- No gap between sweeps counts as a stall. -/
theorem Swept.no_gap (h : Swept u m) (hmn : m ≤ n) {sweeper : Owner} {hbt : Time} {env : Env}
    (hn : u n = some ⟨.sweep sweeper hbt, env⟩) :
    (storeAt k cj u n).liveness.gap env = none ∧
      (storeAt k cj u n).liveness.clock.isSome = true := by
  obtain ⟨i, hin, sweeper', hbt', env', hi, hsoon⟩ := h.often n sweeper hbt env hmn hn
  obtain ⟨last, hlast, hlt⟩ := @Swept.clock_after k cj _ _ _ h _ _ _ _ hi hin
  have hclock : (storeAt k cj u n).liveness.clock = some last := hlast
  constructor
  · simp only [Liveness.gap, hclock, Option.map_some, Option.filter_some, decide_eq_true_eq]
    rw [if_neg (by linarith)]
  · rw [hclock]
    rfl

/-! ## Pending entries -/

/-- A silent object makes nothing pending. -/
theorem Silent.none_step (h : Silent u o m) (hmn : m ≤ n) {id : Bytes}
    (howned : ownedBy o.name id = true) (hnone : (storeAt k cj u n).nacked.lookup id = none) :
    (storeAt k cj u (n + 1)).nacked.lookup id = none := by
  cases hr : u n with
  | none => rw [storeAt_succ_none hr]; exact hnone
  | some r =>
      rw [storeAt_nacked hr, ScriptRun.after]
      cases hafter : (r.inv.after k cj r.env ((storeAt k cj u n).evicted r.env)).nacked.lookup
          id with
      | none => rfl
      | some v =>
          obtain ⟨inv, env⟩ := r
          obtain ⟨hbefore, -⟩ | ⟨p, rfl, htaken⟩ | ⟨vt, rfl⟩ := pending_cases hafter
          · rw [Store.evicted_nacked, hnone] at hbefore
            cases hbefore
          · obtain ⟨i, -, rfl⟩ := List.mem_map.mp (Store.mem_taken htaken).1
            exact absurd ((ownedBy_ackIDOf _ _ _ _).mp howned).symm (h.noPop n p env hmn hr)
          · rw [h.noHand n id v vt env hmn hr] at howned
            cases howned

/-- Who is gone stays gone. -/
theorem Silent.gone_succ (h : Silent u o m) (hmn : m ≤ n) (hgone : Gone k cj u o n) :
    Gone k cj u o (n + 1) :=
  ⟨unmet_step (fun p env hr => h.noPop n p env hmn hr) hgone.1,
    fun id howned => h.none_step hmn howned (hgone.2 id howned)⟩

theorem Silent.gone_from (h : Silent u o m) (hmn : m ≤ n) {j : ℕ} (hnj : n ≤ j)
    (hgone : Gone k cj u o n) : Gone k cj u o j := by
  induction j, hnj using Nat.le_induction with
  | base => exact hgone
  | succ j hnj ih => exact h.gone_succ (by omega) ih

/-- A script reaps `o` at moment `n`. -/
def ReapedAt (k : Kind) (cj : Cjson) (u : ℕ → Option ScriptRun) (o : Owner) (n : ℕ) : Prop :=
  ∃ r, u n = some r ∧ o.name ∈ r.inv.reaps r.env (storeAt k cj u n)

/-- Whom a script reaps is gone. -/
theorem gone_of_reapedAt (h : ReapedAt k cj u o n) : Gone k cj u o (n + 1) := by
  obtain ⟨r, hr, hreaps⟩ := h
  have hevicted : r.inv.reaps r.env ((storeAt k cj u n).evicted r.env) =
      r.inv.reaps r.env (storeAt k cj u n) := by
    obtain ⟨inv, env⟩ := r
    cases inv with
    | sweep sweeper hbt => rw [Invocation.reaps, Store.evicted_liveness]; rfl
    | _ => rfl
  rw [← hevicted] at hreaps
  constructor
  · rw [storeAt_liveness hr, ScriptRun.after, after_liveness]
    exact reaps_unmet k hreaps
  · intro id howned
    rw [storeAt_nacked hr, ScriptRun.after, reaps_after k cj hreaps]
    show (List.foldl _ _ _ : Store).nacked.lookup id = none
    rw [Store.movedAll_nacked]
    refine Finmap.lookup_eq_none.mpr fun hkept => ?_
    obtain ⟨hmem, hout⟩ := Finmap.mem_eraseAll.mp hkept
    exact hout (mem_reaps_requeuedIDs hreaps (Finmap.lookup_isSome.mpr hmem) howned)

/-! ## The heartbeat of a silent object -/

/-- A sweep without a gap prepares by renewing its own heartbeat only. -/
theorem Liveness.prepared_of_no_gap {env : Env} {l : Liveness} (hgap : l.gap env = none)
    (sweeper : Bytes) (hbt : Time) :
    l.prepared env sweeper hbt = (l.clocked env).renewed env sweeper hbt := by
  rw [Liveness.prepared, Liveness.shifted, hgap]

/-- The heartbeats a sweep leaves are those it finds dead aside. -/
theorem Liveness.swept_heartbeats (env : Env) (l : Liveness) (sweeper : Bytes) (hbt : Time) :
    (l.swept env sweeper hbt).heartbeats =
      (l.sweptDead env sweeper hbt).foldl SortedSet.erase
        (l.prepared env sweeper hbt).heartbeats := by
  unfold Liveness.swept Liveness.without Liveness.counted
  split
  · simp only [(Liveness.lookedAll env [] _ (l.prepared env sweeper hbt)).1]
  · rfl

/-- A script run leaves the heartbeat of a silent object, or reaps it. -/
theorem Silent.heartbeat_step (h : Silent u o m) (hswept : Swept u m) (hmn : m ≤ n) {t : Time}
    (hbeat : (storeAt k cj u n).heartbeats.score o.name = some t) :
    (storeAt k cj u (n + 1)).heartbeats.score o.name = some t ∨ ReapedAt k cj u o n := by
  by_cases hreaped : ReapedAt k cj u o n
  · exact Or.inr hreaped
  · left
    cases hr : u n with
    | none => rw [storeAt_succ_none hr]; exact hbeat
    | some r =>
        have hafter := congrArg (fun l : Liveness => l.heartbeats.score o.name)
          (@storeAt_liveness k cj _ _ _ hr)
        refine hafter.trans ?_
        rw [ScriptRun.after, after_liveness]
        obtain ⟨inv, env⟩ := r
        have hnot : o.name ∉ inv.reaps env (storeAt k cj u n) :=
          fun hreaps => hreaped ⟨_, hr, hreaps⟩
        by_cases hsweep : ∃ sweeper hbt, inv = .sweep sweeper hbt
        · obtain ⟨sweeper, hbt, rfl⟩ := hsweep
          have hne : o.name ≠ sweeper.name := fun heq =>
            h.noSweep n hbt env hmn (by rw [hr, Owner.ext heq])
          rw [Invocation.livenessAfter, Store.evicted_liveness, (Liveness.score_swept hnot).1,
            Liveness.prepared_of_no_gap (hswept.no_gap hmn hr).1,
            (Liveness.score_renewed_of_ne hne).1, Liveness.clocked_heartbeats]
          exact hbeat
        · have hforeign := @liveness_foreign k o inv env ((storeAt k cj u n).evicted env)
            (fun heq => hnot (by rw [heq]; exact List.mem_singleton_self _))
            (fun sweeper hbt heq => hsweep ⟨sweeper, hbt, heq⟩)
            (fun p heq => h.noPop n p env hmn (heq ▸ hr))
          rw [hforeign.1, Store.evicted_liveness]
          exact hbeat

/-! ## Those that come first -/

/-- How many heartbeats run out before that of `o`, due at `t`. -/
def aheadOf (k : Kind) (cj : Cjson) (u : ℕ → Option ScriptRun) (o : Owner) (t : Time) (n : ℕ) : ℕ :=
  (storeAt k cj u n).heartbeats.ahead (toLex (t, o.name))

/-- A heartbeat set once `t` is past comes after it. -/
theorem ahead_beaten {env : Env} {a : PopArgs} {z : ZSet} {t : Time} (ht : t ≤ env.now)
    (hahead : 0 < a.hbt → minHeartbeat ≤ a.hbt) :
    (beaten env a z).ahead (toLex (t, o.name)) ≤ z.ahead (toLex (t, o.name)) := by
  unfold beaten
  split
  · next hpos =>
      have hhbt := (deadline_pos env).mp hpos
      refine SortedSet.ahead_insert_le (le_of_lt (Prod.Lex.toLex_lt_toLex.mpr (Or.inl ?_)))
      rw [deadline_of_pos env hhbt]
      exact ht.trans_lt (lt_later env (hahead hhbt))
  · exact le_rfl

theorem ahead_renewed {env : Env} {l : Liveness} {sweeper : Bytes} {hbt t : Time}
    (ht : t ≤ env.now) (hahead : 0 < hbt → minHeartbeat ≤ hbt) :
    (l.renewed env sweeper hbt).heartbeats.ahead (toLex (t, o.name)) ≤
      l.heartbeats.ahead (toLex (t, o.name)) := by
  unfold Liveness.renewed
  split
  · split
    · next hhbt =>
        refine SortedSet.ahead_insert_le (le_of_lt (Prod.Lex.toLex_lt_toLex.mpr (Or.inl ?_)))
        exact ht.trans_lt (lt_later env (hahead hhbt))
    · exact SortedSet.ahead_erase_le _ _ _
  · exact le_rfl

/-- A sweep past `t` that does not take `o` for dead takes a hundred that come
first. -/
theorem ahead_swept {env : Env} {l : Liveness} {sweeper : Bytes} {hbt t : Time}
    (hclock : l.clock.isSome = true) (ht : t ≤ env.now)
    (hbeat : (l.prepared env sweeper hbt).heartbeats.score o.name = some t)
    (hout : o.name ∉ l.sweptDead env sweeper hbt) :
    (l.swept env sweeper hbt).heartbeats.ahead (toLex (t, o.name)) + 100 ≤
      (l.prepared env sweeper hbt).heartbeats.ahead (toLex (t, o.name)) := by
  have hdead : ∃ others, l.sweptDead env sweeper hbt =
      (l.prepared env sweeper hbt).lapsed env ++ others := by
    unfold Liveness.sweptDead Liveness.dead
    rw [if_pos hclock]
    exact ⟨_, rfl⟩
  obtain ⟨others, hdead⟩ := hdead
  have hentry : toLex (t, o.name) ∈ ((l.prepared env sweeper hbt).heartbeats.filter fun e =>
      decide (SortedSet.rank e ≤ env.now)).entries :=
    SortedSet.score_eq_some_iff.mp (SortedSet.score_filter.mpr ⟨hbeat, decide_eq_true ht⟩)
  have hnot : o.name ∉ (l.prepared env sweeper hbt).lapsed env := fun hmem =>
    hout (hdead ▸ List.mem_append_left _ hmem)
  obtain ⟨hlength, hahead⟩ := SortedSet.ahead_of_notMem_take hentry hnot
  have hfirst := SortedSet.ahead_eraseAll (e := toLex (t, o.name))
    ((l.prepared env sweeper hbt).lapsed env)
    ((SortedSet.nodup_members _).sublist (List.take_sublist _ _))
    (l.prepared env sweeper hbt).heartbeats fun name hname => by
      obtain ⟨x, hx, hmember, hlt⟩ := hahead name hname
      exact ⟨x, (List.mem_filter.mp hx).1, hmember, hlt⟩
  have hrest := SortedSet.ahead_eraseAll_le others (toLex (t, o.name))
    (((l.prepared env sweeper hbt).lapsed env).foldl SortedSet.erase
      (l.prepared env sweeper hbt).heartbeats)
  have hhundred : ((l.prepared env sweeper hbt).lapsed env).length = 100 := hlength
  rw [Liveness.swept_heartbeats, hdead, List.foldl_append]
  omega

/-- At a moment past `t` nobody comes first who did not before, and a sweep
that leaves `o` takes a hundred. -/
theorem Silent.ahead_step (h : Silent u o m) (hswept : Swept u m) (hmn : m ≤ n) {t : Time}
    {r : ScriptRun} (hr : u n = some r) (ht : t ≤ r.env.now) (hbeats : r.inv.BeatsAhead)
    (hbeat : (storeAt k cj u n).heartbeats.score o.name = some t)
    (hreaped : ¬ReapedAt k cj u o n) :
    aheadOf k cj u o t (n + 1) + 100 * r.sweepsPast t (storeAt k cj u n) ≤
      aheadOf k cj u o t n := by
  have hafter := congrArg (fun l : Liveness => l.heartbeats.ahead (toLex (t, o.name)))
    (@storeAt_liveness k cj _ _ _ hr)
  rw [ScriptRun.after, after_liveness] at hafter
  have hsame : ((storeAt k cj u n).evicted r.env).heartbeats = (storeAt k cj u n).heartbeats :=
    congrArg Liveness.heartbeats (Store.evicted_liveness r.env _)
  obtain ⟨inv, env⟩ := r
  have hnot : o.name ∉ inv.reaps env (storeAt k cj u n) :=
    fun hreaps => hreaped ⟨_, hr, hreaps⟩
  unfold aheadOf
  show (storeAt k cj u (n + 1)).liveness.heartbeats.ahead _ + _ ≤ _
  rw [hafter]
  cases inv with
  | sweep sweeper hbt =>
      obtain ⟨hgap, hclock⟩ := @Swept.no_gap k cj _ _ _ hswept hmn _ _ _ hr
      have hne : o.name ≠ sweeper.name := fun heq =>
        h.noSweep n hbt env hmn (by rw [hr, Owner.ext heq])
      have hprepared := Liveness.prepared_of_no_gap hgap sweeper.name hbt
      have hrenewed := @ahead_renewed o env ((storeAt k cj u n).liveness.clocked env)
        sweeper.name hbt t ht hbeats
      rw [← hprepared, Liveness.clocked_heartbeats] at hrenewed
      have hkept : ((storeAt k cj u n).liveness.prepared env sweeper.name hbt).heartbeats.score
          o.name = some t := by
        rw [hprepared, (Liveness.score_renewed_of_ne hne).1, Liveness.clocked_heartbeats]
        exact hbeat
      have htaken := ahead_swept hclock ht hkept hnot
      have hone : ScriptRun.sweepsPast t (storeAt k cj u n) ⟨.sweep sweeper hbt, env⟩ = 1 :=
        if_pos ht
      rw [Invocation.livenessAfter, Store.evicted_liveness, hone]
      exact le_trans (by omega) hrenewed
  | pop p =>
      simp only [Invocation.livenessAfter, ScriptRun.sweepsPast]
      split
      · exact (congrArg (fun z : ZSet => z.ahead (toLex (t, o.name))) hsame).le
      · exact (ahead_beaten ht hbeats).trans_eq (by rw [hsame])
  | release owner =>
      refine (SortedSet.ahead_erase_le _ _ _).trans_eq ?_
      exact congrArg (fun z : ZSet => z.ahead (toLex (t, o.name))) hsame
  | _ => exact (congrArg (fun z : ZSet => z.ahead (toLex (t, o.name))) hsame).le

/-- A sweep past `t` that ran says that later moments are past `t`. -/
theorem Swept.past (h : Swept u m) {t : Time} {r : ScriptRun} (hr : u n = some r)
    (hcount : 0 < countFrom k cj u m n (ScriptRun.sweepsPast t)) : t ≤ r.env.now := by
  obtain ⟨i, hi, hpos⟩ := Finset.exists_ne_zero_of_sum_ne_zero hcount.ne'
  obtain ⟨-, hin⟩ := Finset.mem_Ico.mp hi
  unfold atMoment at hpos
  cases hri : u i with
  | none => rw [hri] at hpos; exact absurd rfl hpos
  | some r' =>
      rw [hri] at hpos
      have hle : r'.env.now ≤ r.env.now :=
        h.clock i n _ _ hin.le hri hr
      unfold ScriptRun.sweepsPast at hpos
      simp only at hpos
      split at hpos
      · split at hpos
        · next hpast => exact hpast.trans hle
        · exact absurd rfl hpos
      · exact absurd rfl hpos

/-- What a crashed object held comes back.  Its heartbeat is due at `t`, all
others are set at least `minHeartbeat` ahead, as the objects set them
(`beatsAhead_scriptRuns`), and there are never more than `100 * b` of them:
once `b` sweeps have run at `t` or later, nobody knows of the object and
nothing of it is pending. -/
theorem crashed_object_recovered (k : Kind) (cj : Cjson) (u : ℕ → Option ScriptRun) {o : Owner}
    {m n b : ℕ} {t : Time} (hsilent : Silent u o m) (hswept : Swept u m)
    (hbeats : ∀ i r, m ≤ i → u i = some r → r.inv.BeatsAhead)
    (hbeat : (storeAt k cj u m).heartbeats.score o.name = some t)
    (hfew : ∀ i, m ≤ i → (storeAt k cj u i).heartbeats.entries.length ≤ 100 * b) (hmn : m ≤ n)
    (hsweeps : b ≤ countFrom k cj u m n (ScriptRun.sweepsPast t)) : Gone k cj u o n := by
  have hbound : ∀ i, m ≤ i → (storeAt k cj u i).heartbeats.score o.name = some t →
      aheadOf k cj u o t i < 100 * b := fun i hi hscore =>
    (SortedSet.ahead_lt_length (SortedSet.score_eq_some_iff.mp hscore)).trans_le (hfew i hi)
  have hrun : Gone k cj u o n ∨ (storeAt k cj u n).heartbeats.score o.name = some t ∧
      aheadOf k cj u o t n + 100 * countFrom k cj u m n (ScriptRun.sweepsPast t) < 100 * b := by
    clear hsweeps
    induction n, hmn using Nat.le_induction with
    | base =>
        right
        rw [countFrom_self]
        exact ⟨hbeat, hbound m le_rfl hbeat⟩
    | succ n hmn ih =>
        obtain hgone | ⟨hscore, hahead⟩ := ih
        · exact Or.inl (hsilent.gone_succ hmn hgone)
        · by_cases hreaped : ReapedAt k cj u o n
          · exact Or.inl (gone_of_reapedAt hreaped)
          · right
            have hkept := (hsilent.heartbeat_step hswept hmn hscore).resolve_right hreaped
            have hnow := hbound (n + 1) (by omega) hkept
            refine ⟨hkept, ?_⟩
            rw [countFrom_succ hmn]
            cases hr : u n with
            | none =>
                have hsame : aheadOf k cj u o t (n + 1) = aheadOf k cj u o t n := by
                  rw [aheadOf, storeAt_succ_none hr, aheadOf]
                simp only [atMoment, hr]
                omega
            | some r =>
                simp only [atMoment, hr]
                by_cases hpast : t ≤ r.env.now
                · have hstep := hsilent.ahead_step hswept hmn hr hpast (hbeats n r hmn hr) hscore
                    hreaped
                  omega
                · have hnone : countFrom k cj u m n (ScriptRun.sweepsPast t) = 0 := by
                    by_contra hcount
                    exact hpast (hswept.past hr (Nat.pos_of_ne_zero hcount))
                  have hquiet : r.sweepsPast t (storeAt k cj u n) = 0 := by
                    unfold ScriptRun.sweepsPast
                    split
                    · exact if_neg hpast
                    · rfl
                  omega
  obtain hgone | ⟨-, hahead⟩ := hrun
  · exact hgone
  · omega

/-! ## The mark of a silent object -/

/-- From moment `m` on nobody is subscribed to `o`'s wake channel. -/
def Unheard (u : ℕ → Option ScriptRun) (o : Owner) (m : ℕ) : Prop :=
  ∀ n r, m ≤ n → u n = some r → r.env.subscribers o.name = 0

theorem Liveness.score_looked_of_ne {env : Env} {l : Liveness} {name other : Bytes}
    (hne : name ≠ other) : (l.looked env other).presence.score name = l.presence.score name := by
  unfold Liveness.looked
  split
  · split
    · exact SortedSet.score_insert_of_ne _ _ hne
    · rfl
  · split
    · exact SortedSet.score_insert_of_ne _ _ hne
    · rfl

/-- A count sets a mark to 0 for a subscriber, and a mark that is 0 to the
clock for none. -/
theorem Liveness.score_looked_self (env : Env) (l : Liveness) (name : Bytes) :
    (l.looked env name).presence.score name =
      if 0 < env.subscribers name then some 0
      else if l.presence.score name = some 0 then some env.now
      else l.presence.score name := by
  unfold Liveness.looked
  split
  · split
    · exact SortedSet.score_insert_self _ _ _
    · next hzero => exact not_not.mp hzero
  · split
    · exact SortedSet.score_insert_self _ _ _
    · rfl

/-- Counts look at everybody once. -/
theorem Liveness.score_lookedAll (env : Env) (name : Bytes) (ms : List Bytes) (hms : ms.Nodup) :
    ∀ l : Liveness, (ms.foldl (Liveness.looked env) l).presence.score name =
      if name ∈ ms then (l.looked env name).presence.score name else l.presence.score name := by
  induction ms with
  | nil => exact fun l => rfl
  | cons other rest ih =>
      intro l
      obtain ⟨hother, hrest⟩ := List.nodup_cons.mp hms
      rw [List.foldl_cons, ih hrest]
      by_cases hname : name = other
      · subst hname
        rw [if_neg hother, if_pos List.mem_cons_self]
      · have hsame : (l.looked env other).presence.score name = l.presence.score name :=
          Liveness.score_looked_of_ne hname
        have hagain : ((l.looked env other).looked env name).presence.score name =
            (l.looked env name).presence.score name := by
          rw [Liveness.score_looked_self, Liveness.score_looked_self, hsame]
        by_cases hmem : name ∈ rest
        · rw [if_pos hmem, if_pos (List.mem_cons_of_mem _ hmem), hagain]
        · have hout : name ∉ other :: rest := fun hin =>
            (List.mem_cons.mp hin).elim hname hmem
          rw [if_neg hmem, if_neg hout, hsame]

/-- Everybody with a heartbeat that has not run out is counted, if there are
no more than a sweep counts. -/
theorem Liveness.mem_live {env : Env} {l : Liveness} {name : Bytes} {t : Time}
    (hfew : l.heartbeats.entries.length ≤ 1000) (hbeat : l.heartbeats.score name = some t)
    (hlive : env.now ≤ t) : name ∈ l.live env := by
  have hmem : name ∈ (l.heartbeats.filter fun e =>
      decide (env.now ≤ SortedSet.rank e)).members :=
    SortedSet.mem_members_iff.mpr ⟨t, SortedSet.score_filter.mpr ⟨hbeat, decide_eq_true hlive⟩⟩
  have hlength : (l.heartbeats.filter fun e =>
      decide (env.now ≤ SortedSet.rank e)).members.length ≤ 1000 :=
    (List.length_map _).le.trans ((List.length_filter_le _ _).trans hfew)
  rw [Liveness.live, List.take_of_length_le hlength]
  exact hmem

/-- A sweep prepares without adding a heartbeat. -/
theorem Liveness.prepared_length_le (env : Env) (l : Liveness) (sweeper : Bytes) (hbt : Time) :
    (l.prepared env sweeper hbt).heartbeats.entries.length ≤ l.heartbeats.entries.length := by
  refine SortedSet.length_le_of_subset fun name hname => ?_
  by_contra hout
  have hnone : l.heartbeats.score name = none := SortedSet.score_eq_none_iff.mpr hout
  exact SortedSet.score_eq_none_iff.mp (Liveness.prepared_none hnone) hname

/-- No sweep adds a heartbeat. -/
theorem heartbeats_sweep {sweeper : Owner} {hbt : Time} {env : Env}
    (hn : u n = some ⟨.sweep sweeper hbt, env⟩) :
    (storeAt k cj u (n + 1)).heartbeats.entries.length ≤
      (storeAt k cj u n).heartbeats.entries.length := by
  have hafter := congrArg Liveness.heartbeats (@storeAt_liveness k cj _ _ _ hn)
  rw [ScriptRun.after, after_liveness, Invocation.livenessAfter, Liveness.swept_heartbeats,
    Store.evicted_liveness] at hafter
  show (storeAt k cj u (n + 1)).liveness.heartbeats.entries.length ≤ _
  rw [hafter]
  refine le_trans (SortedSet.length_le_of_subset fun name hname => ?_)
    (Liveness.prepared_length_le env (storeAt k cj u n).liveness sweeper.name hbt)
  exact (SortedSet.mem_members_eraseAll.mp hname).1

/-- The mark a sweep leaves of a silent object it does not take for dead: a
count that finds nobody sets it, unless it is set. -/
theorem Silent.mark_sweep (h : Silent u o m) (hswept : Swept u m) (hunheard : Unheard u o m)
    (hmn : m ≤ n) {sweeper : Owner} {hbt : Time} {env : Env}
    (hr : u n = some ⟨.sweep sweeper hbt, env⟩) (hreaped : ¬ReapedAt k cj u o n) :
    (storeAt k cj u (n + 1)).presence.score o.name =
      if ticked env (storeAt k cj u n).clock = true ∧
          o.name ∈ ((storeAt k cj u n).liveness.prepared env sweeper.name hbt).live env ∧
          (storeAt k cj u n).presence.score o.name = some 0 then some env.now
      else (storeAt k cj u n).presence.score o.name := by
  obtain ⟨hgap, hclock⟩ := @Swept.no_gap k cj _ _ _ hswept hmn _ _ _ hr
  have hne : o.name ≠ sweeper.name := fun heq =>
    h.noSweep n hbt env hmn (by rw [hr, Owner.ext heq])
  have hnot : o.name ∉ (storeAt k cj u n).liveness.sweptDead env sweeper.name hbt :=
    fun hdead => hreaped ⟨_, hr, hdead⟩
  have hafter := congrArg (fun l : Liveness => l.presence.score o.name)
    (@storeAt_liveness k cj _ _ _ hr)
  rw [ScriptRun.after, after_liveness, Invocation.livenessAfter, Store.evicted_liveness] at hafter
  have hprepared : ((storeAt k cj u n).liveness.prepared env sweeper.name hbt).presence.score
      o.name = (storeAt k cj u n).presence.score o.name := by
    rw [Liveness.prepared_of_no_gap hgap, (Liveness.score_renewed_of_ne hne).2,
      Liveness.clocked_presence]
    rfl
  have hlive : (((storeAt k cj u n).liveness.prepared env sweeper.name hbt).live env).Nodup :=
    (SortedSet.nodup_members _).sublist (List.take_sublist _ _)
  refine hafter.trans ?_
  simp only [Liveness.swept, Liveness.without, SortedSet.score_eraseAll, if_neg hnot]
  unfold Liveness.counted
  by_cases hticked : ticked env (storeAt k cj u n).clock = true
  · rw [if_pos ⟨hclock, hticked⟩, Liveness.score_lookedAll env o.name _ hlive,
      Liveness.score_looked_self, if_neg (hunheard n _ hmn hr).not_gt, hprepared]
    by_cases hmem : o.name ∈ ((storeAt k cj u n).liveness.prepared env sweeper.name hbt).live env
    · simp only [hticked, hmem, true_and, if_true]
    · simp only [hmem, false_and, and_false, if_false]
  · rw [if_neg (fun hboth => hticked hboth.2), if_neg (fun hboth => hticked hboth.1)]
    exact hprepared

/-- Other scripts leave the mark. -/
theorem Silent.mark_kept (h : Silent u o m) (hmn : m ≤ n) {r : ScriptRun} (hr : u n = some r)
    (hsweep : ∀ sweeper hbt, r.inv ≠ .sweep sweeper hbt) (hreaped : ¬ReapedAt k cj u o n) :
    (storeAt k cj u (n + 1)).presence.score o.name =
      (storeAt k cj u n).presence.score o.name := by
  have hafter := congrArg (fun l : Liveness => l.presence.score o.name)
    (@storeAt_liveness k cj _ _ _ hr)
  rw [ScriptRun.after, after_liveness] at hafter
  have hnot : o.name ∉ r.inv.reaps r.env (storeAt k cj u n) :=
    fun hreaps => hreaped ⟨_, hr, hreaps⟩
  have hforeign := @liveness_foreign k o r.inv r.env ((storeAt k cj u n).evicted r.env)
    (fun heq => hnot (by rw [heq]; exact List.mem_singleton_self _)) hsweep
    (fun p heq => h.noPop n p r.env hmn (by rw [hr, ← heq]))
  refine hafter.trans (hforeign.2.trans ?_)
  rw [Store.evicted_liveness]
  rfl

/-- The mark of `o` is no later than `t`, and `late` says that it is set. -/
def MarkedBy (k : Kind) (cj : Cjson) (u : ℕ → Option ScriptRun) (o : Owner) (late : Bool) (t : Time)
    (n : ℕ) : Prop :=
  ∃ mark, (storeAt k cj u n).presence.score o.name = some mark ∧ mark ≤ t ∧
    (late = true → mark ≠ 0)

/-- It stays so until the clock is past `t`, and once it is set for ever,
unless the object is reaped. -/
theorem Silent.markedBy_step (h : Silent u o m) (hswept : Swept u m) (hunheard : Unheard u o m)
    (hmn : m ≤ n) {late : Bool} {t : Time}
    (ht : late = true ∨ ∀ r, u n = some r → r.env.now ≤ t)
    (hreaped : ¬ReapedAt k cj u o n) (hmark : MarkedBy k cj u o late t n) :
    MarkedBy k cj u o late t (n + 1) := by
  obtain ⟨mark, hscore, hle, hlate⟩ := hmark
  cases hr : u n with
  | none => exact ⟨mark, by rw [storeAt_succ_none hr, hscore], hle, hlate⟩
  | some r =>
      obtain ⟨inv, env⟩ := r
      by_cases hsweep : ∃ sweeper hbt, inv = .sweep sweeper hbt
      · obtain ⟨sweeper, hbt, rfl⟩ := hsweep
        have hafter := h.mark_sweep hswept hunheard hmn hr hreaped
        split at hafter
        · next hset =>
            have hzero : mark = 0 := Option.some.inj (hscore.symm.trans hset.2.2)
            obtain hlate' | hsoon := ht
            · exact absurd hzero (hlate hlate')
            · refine ⟨env.now, hafter, hsoon _ hr, fun hlate' => ?_⟩
              exact absurd hzero (hlate hlate')
        · exact ⟨mark, hafter.trans hscore, hle, hlate⟩
      · have hafter := h.mark_kept hmn hr
          (fun sweeper hbt heq => hsweep ⟨sweeper, hbt, heq⟩) hreaped
        exact ⟨mark, hafter.trans hscore, hle, hlate⟩

/-- A silent object that nobody hears of is gone, or its heartbeat and mark
are there still. -/
theorem Silent.gone_or_markedBy (h : Silent u o m) (hswept : Swept u m)
    (hunheard : Unheard u o m) {i : ℕ} (hmi : m ≤ i) (hin : i ≤ n) {late : Bool} {t d : Time}
    (ht : late = true ∨ ∀ l r, l < n → u l = some r → r.env.now ≤ t)
    (hbeat : (storeAt k cj u i).heartbeats.score o.name = some d)
    (hmark : MarkedBy k cj u o late t i) :
    Gone k cj u o n ∨
      (storeAt k cj u n).heartbeats.score o.name = some d ∧ MarkedBy k cj u o late t n := by
  induction n, hin using Nat.le_induction with
  | base => exact Or.inr ⟨hbeat, hmark⟩
  | succ n hin ih =>
      have hmn : m ≤ n := hmi.trans hin
      obtain hgone | ⟨hscore, hmarked⟩ := ih (ht.imp id fun hall l r hl => hall l r (by omega))
      · exact Or.inl (h.gone_succ hmn hgone)
      · by_cases hreaped : ReapedAt k cj u o n
        · exact Or.inl (gone_of_reapedAt hreaped)
        · right
          exact ⟨(h.heartbeat_step hswept hmn hscore).resolve_right hreaped,
            h.markedBy_step hswept hunheard hmn (ht.imp id fun hall r => hall n r (by omega))
              hreaped hmarked⟩

/-- What the object of a process that exits held comes back before its
heartbeat runs out.  It was seen subscribed; from moment `m` on nobody is.
Once a count runs the presence grace after a first one, nobody knows of it,
and nothing of it is pending. -/
theorem gone_object_recovered (k : Kind) (cj : Cjson) (u : ℕ → Option ScriptRun) {o : Owner}
    {m i j : ℕ} {d : Time} {env env' : Env} (hsilent : Silent u o m) (hswept : Swept u m)
    (hunheard : Unheard u o m) (hbeat : (storeAt k cj u m).heartbeats.score o.name = some d)
    (hseen : (storeAt k cj u m).presence.score o.name = some 0)
    (hfew : ∀ n, m ≤ n → (storeAt k cj u n).heartbeats.entries.length ≤ 1000) (hmi : m ≤ i)
    (hij : i < j) (hi : Counts k cj u i env) (hj : Counts k cj u j env') (hstart : 0 < env.now)
    (hgrace : env.now + presenceGrace ≤ env'.now) (hdue : env'.now ≤ d) :
    Gone k cj u o (j + 1) := by
  obtain ⟨sweeper, hbt, hri, hticked⟩ := hi
  obtain ⟨sweeper', hbt', hrj, hticked'⟩ := hj
  have hnow : env.now ≤ d :=
    (hswept.clock i j _ _ hij.le hri hrj).trans hdue
  have hcounted : ∀ n env' sweeper' hbt', m ≤ n → u n = some ⟨.sweep sweeper' hbt', env'⟩ →
      env'.now ≤ d → (storeAt k cj u n).heartbeats.score o.name = some d →
      o.name ∈ ((storeAt k cj u n).liveness.prepared env' sweeper'.name hbt').live env' := by
    intro n env' sweeper' hbt' hmn hr hlive hscore
    have hne : o.name ≠ sweeper'.name := fun heq =>
      hsilent.noSweep n hbt' env' hmn (by rw [hr, Owner.ext heq])
    refine Liveness.mem_live ((Liveness.prepared_length_le _ _ _ _).trans (hfew n hmn)) ?_ hlive
    rw [Liveness.prepared_of_no_gap (hswept.no_gap hmn hr).1,
      (Liveness.score_renewed_of_ne hne).1, Liveness.clocked_heartbeats]
    exact hscore
  -- up to the first count the mark is 0 or set by an earlier one
  obtain hgone | ⟨hscore, mark, hmark, hle, -⟩ := @Silent.gone_or_markedBy k cj _ _ _ _
    hsilent hswept hunheard _ le_rfl hmi false env.now _
    (Or.inr fun l r hl hr => hswept.clock l i _ _ hl.le hr hri) hbeat
    ⟨0, hseen, env.now_nonneg, by simp⟩
  · exact hsilent.gone_from hmi (by omega) hgone
  · by_cases hreaped : ReapedAt k cj u o i
    · exact hsilent.gone_from (by omega) (by omega) (gone_of_reapedAt hreaped)
    · have hlate : MarkedBy k cj u o true env.now (i + 1) := by
        have hafter := hsilent.mark_sweep hswept hunheard hmi hri hreaped
        by_cases hzero : mark = 0
        · subst hzero
          rw [if_pos ⟨hticked, hcounted i env sweeper hbt hmi hri hnow hscore, hmark⟩] at hafter
          exact ⟨env.now, hafter, le_rfl, fun _ => hstart.ne'⟩
        · have hset : (storeAt k cj u i).presence.score o.name ≠ some 0 := by
            rw [hmark]
            exact fun heq => hzero (Option.some.inj heq)
          rw [if_neg fun hall => hset hall.2.2] at hafter
          exact ⟨mark, hafter.trans hmark, hle, fun _ => hzero⟩
      have hkept := (hsilent.heartbeat_step hswept hmi hscore).resolve_right hreaped
      -- from then on it stays set, until the second count
      obtain hgone | ⟨hscore', mark', hmark', hle', hne'⟩ := hsilent.gone_or_markedBy
        hswept hunheard (by omega) (show i + 1 ≤ j from hij) (Or.inl rfl) hkept hlate
      · exact hsilent.gone_succ (by omega) hgone
      · refine gone_of_reapedAt ⟨_, hrj, ?_⟩
        have hmj : m ≤ j := by omega
        obtain ⟨hgap, hclock⟩ := @Swept.no_gap k cj _ _ _ hswept hmj _ _ _ hrj
        have hne : o.name ≠ sweeper'.name := fun heq =>
          hsilent.noSweep j hbt' env' hmj (by rw [hrj, Owner.ext heq])
        refine Liveness.mem_sweptDead.mpr ⟨hclock, Or.inr ⟨hticked',
          hcounted j env' sweeper' hbt' hmj hrj hdue hscore', hunheard j _ hmj hrj, mark', ?_,
          hne' rfl, by linarith⟩⟩
        rw [Liveness.prepared_of_no_gap hgap, (Liveness.score_renewed_of_ne hne).2,
          Liveness.clocked_presence]
        exact hmark'

end Runs

/-! ## What the objects send -/

/-- A heartbeat timeout as `SetHeartbeatTimeout` leaves it. -/
def QueueObject.Floored (q : QueueObject) : Prop :=
  0 < q.heartbeatTimeout → 5000000000 ≤ q.heartbeatTimeout

theorem QueueObject.Floored.hbt {q : QueueObject} (h : q.Floored) (hpos : 0 < q.hbt) :
    minHeartbeat ≤ q.hbt := by
  have hset : 0 < q.heartbeatTimeout := by
    by_contra hoff
    rw [QueueObject.hbt, max_eq_left (not_lt.mp hoff)] at hpos
    exact absurd hpos (by decide)
  have hfloor : minHeartbeat = seconds 5000000000 := by decide
  rw [hfloor, QueueObject.hbt, max_eq_right hset.le]
  exact secondsOf_mono (by decide) (Int.toNat_le_toNat (h hset))

namespace World

variable {w : World} {ev : Event} {c : ℕ} {call : Call} {t : Turn}

theorem Turns.floored (h : w.Turns ev c call t) (hq : (w.objects call.owner).Floored) :
    t.object.Floored := by
  cases h with
  | begins c o consumer kind hnew hopen =>
      rcases Call.begin_object (w.objects o) w.sent.length ⟨o, consumer, kind, .ended⟩ with h | h
      · rw [h]
        exact hq
      · rw [h]
        exact hq
  | proceeds c call t hcall h => cases Call.proceeds_of_proceed h <;> exact hq
  | reads c j call i reply t hcall hlog h =>
      rw [Call.read_object h]
      exact hq
  | fails c call t hcall h =>
      rcases Call.fail_object h with h | ⟨r, h⟩
      · rw [h]
        exact hq
      · rw [h]
        exact hq

theorem Turns.beatsAhead (h : w.Turns ev c call t) (hq : (w.objects call.owner).Floored)
    {inv : Invocation} (hinv : t.sends = some inv) : inv.BeatsAhead := by
  cases h with
  | begins c o consumer kind hnew hopen =>
      unfold Call.begin at hinv
      cases kind with
      | tick =>
          cases hinv
          exact hq.hbt
      | requeue =>
          cases hinv
          trivial
      | close =>
          simp only at hinv
          split at hinv
          · cases hinv
          · cases hinv
            trivial
      | dequeue => cases hinv
      | dequeueBatch slots => cases hinv
  | proceeds c call t hcall h =>
      cases Call.proceeds_of_proceed h with
      | pops r vt hstage =>
          cases hinv
          exact hq.hbt
      | _ => cases hinv
  | reads c j call i reply t hcall hlog h =>
      obtain ⟨n, rfl⟩ := (Call.read_settled h).2 inv hinv
      trivial
  | fails c call t hcall h =>
      rw [(Call.fail_settled h).2] at hinv
      cases hinv

/-- The heartbeat timeouts of the objects are off or five seconds at least,
and so is what was sent. -/
structure Floored (w : World) : Prop where
  objects : ∀ o, (w.objects o).Floored
  sent : ∀ m ∈ w.sent, m.inv.BeatsAhead

theorem Floored.set (h : w.Floored) (o : Owner) (f : QueueObject → QueueObject)
    (hf : ∀ q, q.Floored → (f q).Floored) : (w.set o f).Floored where
  objects o' := by
    by_cases ho : o' = o
    · subst ho
      rw [set_self]
      exact hf _ (h.objects o')
    · rw [set_of_ne w f ho]
      exact h.objects o'
  sent := h.sent

theorem Floored.turn (h : w.Floored) (ev : Event) : (w.turn ev).Floored := by
  unfold World.turn
  cases hturn : w.turnOf ev with
  | none => exact h
  | some x =>
      obtain ⟨c, call, t⟩ := x
      have hturns := turns_of_turnOf hturn
      have hq := h.objects call.owner
      refine ⟨fun o => ?_, fun m hm => ?_⟩
      · by_cases ho : o = call.owner
        · subst ho
          rw [take_object_self]
          exact hturns.floored hq
        · rw [take_object_of_ne w c t ho]
          exact h.objects o
      · rcases List.mem_append.mp hm with hold | hnew
        · exact h.sent m hold
        · obtain ⟨inv, hinv, rfl⟩ := Option.map_eq_some_iff.mp (Option.mem_toList.mp hnew)
          exact hturns.beatsAhead hq hinv

theorem Floored.step (k : Kind) (cj : Cjson) (h : w.Floored) (ev : Event) :
    (w.step k cj ev).Floored := by
  cases ev with
  | setVisibilityTimeout o d =>
      exact h.set o (fun q => { q with visibilityTimeout := d }) fun q hq => hq
  | setHeartbeatTimeout o d =>
      refine h.set o (QueueObject.setHeartbeatTimeout d) fun q _ hpos => ?_
      by_cases hd : 0 < d
      · rw [QueueObject.setHeartbeatTimeout, if_pos hd]
        exact le_max_right _ _
      · rw [QueueObject.setHeartbeatTimeout, if_neg hd] at hpos
        exact absurd hpos hd
  | setOnRequeue o => exact h.set o (fun q => { q with onRequeue := true }) fun q hq => hq
  | stop o => exact h.set o (fun q => { q with stopped := true }) fun q hq => hq
  | issue inv =>
      simp only [World.step]
      split
      · next halone =>
          refine ⟨h.objects, fun m hm => ?_⟩
          rcases List.mem_append.mp hm with hold | hnew
          · exact h.sent m hold
          · rw [List.mem_singleton.mp hnew]
            cases inv <;> trivial
      · exact h
  | run i env =>
      simp only [World.step]
      split
      · exact h
      · exact ⟨h.objects, h.sent⟩
  | start c o consumer kind => exact h.turn _
  | proceed c => exact h.turn _
  | read c j => exact h.turn _
  | fail c => exact h.turn _

end World

/-- What the objects send sets no heartbeat less than `minHeartbeat` ahead. -/
theorem beatsAhead_scriptRuns (k : Kind) (cj : Cjson) (e : ℕ → Event) {n : ℕ} {r : ScriptRun}
    (hr : scriptRuns k cj e n = some r) : r.inv.BeatsAhead := by
  have hinit : World.init.Floored :=
    ⟨fun _ => show QueueObject.new.Floored from fun _ => by decide, fun m hm => by cases hm⟩
  have hfloored : (worldAt k cj e n).Floored :=
    Trajectory.invariant hinit (fun n h => h.step k cj (e n)) n
  obtain ⟨m, hm, hinv⟩ := sent_of_run k cj e hr
  rw [← hinv]
  exact hfloored.sent m hm

/-- When the scripts of the run below run, in half seconds. -/
def crashedTime : ℕ → ℕ
  | 0 | 1 | 2 => 2
  | n + 3 => 5 + 3 * min n (2 ^ 40)

/-- An object pops an item, and runs nothing any more.  Another one sweeps
every 1.5 s until the clock stops, and sees it subscribed the first time. -/
def crashed (hbt : Time) (n : ℕ) : Option ScriptRun :=
  some
    { inv :=
        match n with
        | 0 => .push ⟨[97], 0, 0, false, none⟩
        | 1 => .sweep ownerB minHeartbeat
        | 2 => .pop ⟨⟨ownerA, 1, 60 * second, hbt, false⟩, .one⟩
        | _ + 3 => .sweep ownerB minHeartbeat
      env := .plain (crashedTime n * 500000) fun _ => if n = 3 then 1 else 0 }

theorem crashed_silent (hbt : Time) : Silent (crashed hbt) ownerA 3 where
  noPop n p env hn hr := by
    obtain ⟨n, rfl⟩ := Nat.exists_eq_add_of_le' hn
    simp [crashed] at hr
  noSweep n hbt' env hn hr := by
    obtain ⟨n, rfl⟩ := Nat.exists_eq_add_of_le' hn
    simp [crashed, ownerA, ownerB] at hr
  noHand n id item vt env hn hr := by
    obtain ⟨n, rfl⟩ := Nat.exists_eq_add_of_le' hn
    simp [crashed] at hr

theorem crashed_now (n : ℕ) :
    (Env.plain (crashedTime n * 500000) fun _ => if n = 3 then 1 else 0).now =
      crashedTime n * (second / 2) := by
  refine Env.plain_halves ?_ _
  match n with
  | 0 | 1 | 2 => decide
  | n + 3 => simp only [crashedTime]; omega

theorem crashed_swept (hbt : Time) : Swept (crashed hbt) 3 where
  clock i j r r' hij hr hr' := by
    obtain rfl := Option.some.inj hr
    obtain rfl := Option.some.inj hr'
    have hle : crashedTime i ≤ crashedTime j := by
      rcases i with _ | _ | _ | i <;> rcases j with _ | _ | _ | j <;> simp only [crashedTime] <;>
        omega
    rw [crashed_now, crashed_now]
    exact mul_le_mul_of_nonneg_right (Int.ofNat_le.mpr hle) (by decide)
  often n sweeper hbt' env hn hr := by
    obtain ⟨n, rfl⟩ := Nat.exists_eq_add_of_le' hn
    simp only [crashed, Option.some.injEq, ScriptRun.mk.injEq] at hr
    obtain rfl := hr.2
    rcases n with _ | n
    · exact ⟨1, by decide, _, _, _, rfl, by decide +kernel⟩
    · refine ⟨n + 3, by omega, _, _, _, rfl, ?_⟩
      have hle : (crashedTime (n + 1 + 3) : ℤ) ≤ crashedTime (n + 3) + 3 := by
        simp only [crashedTime]
        omega
      rw [crashed_now, crashed_now]
      calc (crashedTime (n + 1 + 3) : ℤ) * (second / 2) + tickStep
          ≤ (crashedTime (n + 3) + 3) * (second / 2) + tickStep :=
            Int.add_le_add_right (mul_le_mul_of_nonneg_right hle (by decide)) _
        _ = crashedTime (n + 3) * (second / 2) + sweepGap := by
            rw [add_mul, add_assoc]
            rfl

theorem crashed_beatsAhead (hbt : Time) (i : ℕ) (r : ScriptRun) (hi : 3 ≤ i)
    (hr : crashed hbt i = some r) : r.inv.BeatsAhead := by
  obtain ⟨i, rfl⟩ := Nat.exists_eq_add_of_le' hi
  obtain rfl := Option.some.inj hr
  exact fun _ => le_rfl

theorem crashed_few (hbt : Time)
    (hstart : (storeAt .fifo .none (crashed hbt) 3).heartbeats.entries.length ≤ 1) {i : ℕ}
    (hi : 3 ≤ i) : (storeAt .fifo .none (crashed hbt) i).heartbeats.entries.length ≤ 1 := by
  induction i, hi using Nat.le_induction with
  | base => exact hstart
  | succ i hi ih =>
      obtain ⟨i, rfl⟩ := Nat.exists_eq_add_of_le' hi
      exact (heartbeats_sweep rfl).trans ih

theorem crashed_object_recovered_crashed :
    Gone .fifo .none (crashed minHeartbeat) ownerA 7 :=
  crashed_object_recovered .fifo .none (crashed minHeartbeat) (b := 1) (t := 6 * second)
    (crashed_silent _) (crashed_swept _) (crashed_beatsAhead _) (by decide +kernel)
    (fun i hi => (crashed_few _ (by decide +kernel) hi).trans (by decide)) (by decide)
    (by decide +kernel)

theorem gone_object_recovered_crashed :
    Gone .fifo .none (crashed (30 * second)) ownerA 7 := by
  have hsilent := crashed_silent (30 * second)
  refine gone_object_recovered .fifo .none (crashed (30 * second)) (m := 4) (i := 4) (j := 6)
    (d := 31 * second)
    ⟨fun n p env hn => hsilent.noPop n p env (by omega),
      fun n hbt env hn => hsilent.noSweep n hbt env (by omega),
      fun n id item vt env hn => hsilent.noHand n id item vt env (by omega)⟩
    ⟨(crashed_swept _).clock, fun n sweeper hbt env hn =>
      (crashed_swept _).often n sweeper hbt env (by omega)⟩
    ?_ (by decide +kernel) (by decide +kernel)
    (fun n hn => (crashed_few _ (by decide +kernel) (by omega)).trans (by decide))
    le_rfl (by decide) ⟨_, _, rfl, by decide +kernel⟩ ⟨_, _, rfl, by decide +kernel⟩
    (by decide +kernel) (by decide +kernel) (by decide +kernel)
  intro n r hn hr
  obtain rfl := Option.some.inj hr
  exact if_neg (by omega)

end Redisq.Model
