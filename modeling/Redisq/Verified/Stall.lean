import Redisq.Verified.Alive

/-!
# A stall of Redis

While no script runs nobody can beat, so the first sweep after a stall moves
heartbeats and marks on by the gap in the clock, if that is more than
`sweepGap`.  A gap of at most `sweepGap` counts as normal, though it may take
a mark past the presence grace: `stall_spares_iff` says that this is the one
way a stall makes a live object look dead, and `shortStall` is a run in which
it does.
-/

namespace Redisq.Model

/-! ## Runs with a stall -/

/-- No script runs from `A` to `B`.  The object sweeps at most one second
apart, but for the stall: then it sweeps last at most one second before it
and next at most one second after it. -/
structure Stalled (u : ℕ → Option ScriptRun) (o : Owner) (A B : Time) : Prop
    extends Beating u o where
  order : A ≤ B
  silent : ∀ n r, u n = some r → r.env.now < A ∨ B < r.env.now
  sweepsOn : ∀ i env, OwnSweep u o i env → ∃ j > i, ∃ env', OwnSweep u o j env' ∧
    (env'.now ≤ env.now + second ∨
      (env.now ≤ A ∧ A ≤ env.now + second ∧ env'.now ≤ B + second))

namespace Liveness

variable {env : Env} {l : Liveness} {o sweeper : Bytes} {hbt t : Time}

/-- The gap since the clock counts as normal, the clock moves on, and the
counts find an owner with a live heartbeat gone: without a subscriber now,
and marked as without one for the presence grace. -/
structure CountedGone (env : Env) (l : Liveness) (sweeper : Bytes) (hbt : Time)
    (o : Bytes) : Prop where
  normalGap : ∃ last, l.clock = some last ∧ env.now - last ≤ sweepGap
  ticked : ticked env l.clock = true
  live : o ∈ (l.renewed env sweeper hbt).live env
  absent : l.Absent env o

/-- A normal gap moves nothing on. -/
theorem shifted_of_normalGap {last : Time} (hclock : l.clock = some last)
    (hgap : env.now - last ≤ sweepGap) : l.shifted env = l ∧ l.skipped env = 0 := by
  have hnone : l.gap env = none := by
    rw [gap, hclock, Option.map_some, Option.filter_some, if_neg]
    simpa using hgap
  constructor
  · rw [shifted, hnone]
  · rw [skipped, hnone, Option.getD_none]

/-- A longer one moves heartbeats on by itself. -/
theorem skipped_of_longGap {last : Time} (hclock : l.clock = some last)
    (hgap : sweepGap < env.now - last) : l.skipped env = env.now - last := by
  rw [skipped, gap, hclock, Option.map_some, Option.filter_some, if_pos (by simpa using hgap),
    Option.getD_some]

theorem live_renewed_clocked (env : Env) (l : Liveness) (sweeper : Bytes) (hbt : Time) :
    ((l.clocked env).renewed env sweeper hbt).live env = (l.renewed env sweeper hbt).live env := by
  unfold live renewed
  rw [clocked_heartbeats]
  split
  · split <;> rfl
  · rw [clocked_heartbeats]

/-- After a normal gap a sweep of another owner sees a mark as it is. -/
theorem absent_prepared {last : Time} (hclock : l.clock = some last)
    (hgap : env.now - last ≤ sweepGap) (hne : o ≠ sweeper) :
    (l.prepared env sweeper hbt).Absent env o ↔ l.Absent env o := by
  obtain ⟨_, hmark⟩ := score_prepared_of_ne (l := l) hne
  have hsame : (l.prepared env sweeper hbt).presence.score o = l.presence.score o := by
    rw [hmark, (shifted_of_normalGap hclock hgap).2]
    cases l.presence.score o <;> simp
  rw [Absent, Absent, hsame]

/-- Once heartbeats have not run out, death is what the counts say. -/
theorem mem_sweptDead_of_normalGap {last : Time} (hclock : l.clock = some last)
    (hgap : env.now - last ≤ sweepGap) (hne : o ≠ sweeper)
    (hheart : ∀ h, l.heartbeats.score o = some h → env.now < h) :
    o ∈ l.sweptDead env sweeper hbt ↔ l.CountedGone env sweeper hbt o := by
  obtain ⟨hshifted, hskipped⟩ := shifted_of_normalGap hclock hgap
  have hlive : (l.prepared env sweeper hbt).live env = (l.renewed env sweeper hbt).live env := by
    rw [prepared, hshifted, live_renewed_clocked]
  have hlapsed : o ∉ (l.prepared env sweeper hbt).lapsed env := by
    intro hmem
    obtain ⟨h', hscore, hle⟩ := mem_lapsed_score hmem
    rw [(score_prepared_of_ne hne).1, hskipped] at hscore
    obtain ⟨h₀, hh₀, rfl⟩ := Option.map_eq_some_iff.mp hscore
    have := hheart h₀ hh₀
    linarith
  rw [mem_sweptDead, hlive, absent_prepared hclock hgap hne]
  constructor
  · rintro ⟨_, hmem⟩
    obtain ⟨htick, hmem, habsent⟩ := hmem.resolve_left hlapsed
    exact ⟨⟨last, hclock, hgap⟩, htick, hmem, habsent⟩
  · rintro ⟨_, htick, hmem, habsent⟩
    exact ⟨by rw [hclock]; rfl, Or.inr ⟨htick, hmem, habsent⟩⟩

/-- A gap that does not count makes an owner as fresh as if it had swept that
much later. -/
theorem Fresh.prepared_skipped (env : Env) (hbt : Time) (h : l.Fresh o t) (ht : 0 ≤ t)
    (hne : o ≠ sweeper) : (l.prepared env sweeper hbt).Fresh o (t + l.skipped env) := by
  apply h.prepared_to hne le_rfl
  intro mark hmark
  by_cases hpos : 0 < mark
  · have hle : t ≤ mark := hmark.resolve_left hpos.ne'
    rw [if_pos hpos]
    exact Or.inr (by linarith)
  · rw [if_neg hpos]
    rcases hmark with hzero | hle
    · exact Or.inl hzero
    · exact Or.inl (le_antisymm (not_lt.mp hpos) (ht.trans hle))

end Liveness

section Runs

variable {k : Kind} {cj : Cjson} {u : ℕ → Option ScriptRun} {o : Owner} {A B : Time}

/-! ## The clock -/

theorem livenessAfter_clock (k : Kind) (env : Env) (s : Store) (inv : Invocation) :
    (inv.livenessAfter k env s).clock =
      match inv with
      | .sweep _ _ =>
          if ticked env s.liveness.clock = true then some env.now else s.liveness.clock
      | _ => s.liveness.clock := by
  cases inv with
  | sweep sweeper hbt => exact Liveness.swept_clock _ _ _ _
  | pop p =>
      simp only [Invocation.livenessAfter]
      split <;> rfl
  | _ => rfl

/-- The clock shows when a script ran. -/
theorem clock_from (n : ℕ) {c : Time} (hc : (storeAt k cj u n).liveness.clock = some c) :
    ∃ i < n, ∃ r, u i = some r ∧ c = r.env.now := by
  induction n with
  | zero => cases hc
  | succ n ih =>
      have hpast : (storeAt k cj u n).liveness.clock = some c →
          ∃ i < n + 1, ∃ r, u i = some r ∧ c = r.env.now := fun h => by
        obtain ⟨i, hi, hrest⟩ := ih h
        exact ⟨i, Nat.lt_succ_of_lt hi, hrest⟩
      cases hr : u n with
      | none =>
          rw [storeAt_succ_none hr] at hc
          exact hpast hc
      | some r =>
          rw [storeAt_liveness hr, ScriptRun.after, after_liveness, livenessAfter_clock,
            Store.evicted_liveness] at hc
          split at hc
          · split at hc
            · exact ⟨n, Nat.lt_succ_self n, r, hr, (Option.some.inj hc).symm⟩
            · exact hpast hc
          · exact hpast hc

/-- After a sweep there is a clock. -/
theorem clock_isSome (k : Kind) (cj : Cjson) {i n : ℕ} (hin : i < n) {env : Env}
    (hown : OwnSweep u o i env) : (storeAt k cj u n).liveness.clock.isSome = true := by
  induction n, hin using Nat.le_induction with
  | base =>
      obtain ⟨hbt, hr⟩ := hown
      rw [storeAt_liveness hr, ScriptRun.after, after_liveness, livenessAfter_clock,
        Store.evicted_liveness]
      cases (storeAt k cj u i).liveness.clock with
      | none => rfl
      | some c =>
          simp only []
          split <;> rfl
  | succ n hin ih =>
      cases hr : u n with
      | none =>
          rw [storeAt_succ_none hr]
          exact ih
      | some r =>
          rw [storeAt_liveness hr, ScriptRun.after, after_liveness, livenessAfter_clock,
            Store.evicted_liveness]
          split
          · split
            · rfl
            · exact ih
          · exact ih

/-! ## Heartbeats over the stall -/

/-- Where a heartbeat comes from, but for its owner's own sweeps: a pop of
its owner's, or the one before, moved on by what a sweep skips. -/
theorem heartbeat_from {env : Env} {s : Store} {inv : Invocation}
    (hown : ∀ hbt, inv ≠ .sweep o hbt)
    (hpop : ∀ p, inv = .pop p → p.args.owner = o → minHeartbeat ≤ p.args.hbt) {x : Time}
    (hx : (inv.livenessAfter k env s).heartbeats.score o.name = some x) :
    env.now + heartbeatAhead ≤ x ∨
      ∃ x₀, s.liveness.heartbeats.score o.name = some x₀ ∧
        ((inv.livenessAfter k env s).clock = s.liveness.clock ∧ x = x₀ ∨
          x = x₀ + s.liveness.skipped env) := by
  have hsame : (inv.livenessAfter k env s).heartbeats.score o.name =
        s.liveness.heartbeats.score o.name →
      (inv.livenessAfter k env s).clock = s.liveness.clock →
      ∃ x₀, s.liveness.heartbeats.score o.name = some x₀ ∧
        ((inv.livenessAfter k env s).clock = s.liveness.clock ∧ x = x₀ ∨
          x = x₀ + s.liveness.skipped env) := fun hheart hclock =>
    ⟨x, hheart.symm.trans hx, Or.inl ⟨hclock, rfl⟩⟩
  cases inv with
  | pop p =>
      simp only [Invocation.livenessAfter] at hx hsame ⊢
      split at hx
      · next hnil => simp only [if_pos hnil] at hsame ⊢; exact Or.inr (hsame trivial trivial)
      · next hsome =>
          simp only [if_neg hsome] at hsame ⊢
          by_cases howner : p.args.owner = o
          · subst howner
            have hhbt := hpop p rfl rfl
            have hpos : 0 < p.args.hbt := (by decide : (0 : Time) < minHeartbeat).trans_le hhbt
            rw [score_beaten_self env hpos] at hx
            obtain rfl := Option.some.inj hx
            exact Or.inl (add_heartbeatAhead_le env hhbt)
          · exact Or.inr (hsame (score_beaten_of_ne (Owner.name_ne howner).symm) trivial)
  | sweep sweeper hbt =>
      have hne : o.name ≠ sweeper.name := Owner.name_ne fun heq => hown hbt (by rw [heq])
      simp only [Invocation.livenessAfter] at hx
      by_cases hdead : o.name ∈ s.liveness.sweptDead env sweeper.name hbt
      · simp only [Liveness.swept, Liveness.without, SortedSet.score_eraseAll, if_pos hdead] at hx
        cases hx
      · rw [(Liveness.score_swept hdead).1, (Liveness.score_prepared_of_ne hne).1] at hx
        obtain ⟨x₀, hx₀, rfl⟩ := Option.map_eq_some_iff.mp hx
        exact Or.inr ⟨x₀, hx₀, Or.inr rfl⟩
  | release o' =>
      by_cases heq : o.name = o'.name
      · simp only [Invocation.livenessAfter, Liveness.without, List.foldl_cons, List.foldl_nil,
          heq, SortedSet.score_erase_self] at hx
        cases hx
      · exact Or.inr (hsame (Liveness.score_without_of_ne heq).1 rfl)
  | _ => exact Or.inr (hsame rfl rfl)

/-- At a script run after an object's last sweep, no more than a second has
passed, or it is the stall that lies between. -/
theorem Stalled.window (h : Stalled u o A B) {i n : ℕ} {env : Env}
    (hown : OwnSweep u o i env) (hlast : ∀ j, i < j → j < n → ∀ env', ¬OwnSweep u o j env')
    {r : ScriptRun} (hr : u n = some r) :
    r.env.now ≤ env.now + second ∨
      (env.now ≤ A ∧ A ≤ env.now + second ∧ r.env.now ≤ B + second) := by
  obtain ⟨j, hij, env', hown', hwhen⟩ := h.sweepsOn i env hown
  have hnj : n ≤ j := not_lt.mp fun hjn => hlast j hij hjn env' hown'
  obtain ⟨hbt', hu'⟩ := hown'
  have hle : r.env.now ≤ env'.now := h.clock n j _ _ hnj hr hu'
  exact hwhen.imp hle.trans fun hstall => ⟨hstall.1, hstall.2.1, hle.trans hstall.2.2⟩

/-- Once the clock is past the stall, and until the object's next sweep, its
heartbeat lasts longer than that sweep takes to come. -/
theorem Stalled.heartbeat_after_stall (h : Stalled u o A B) (n : ℕ)
    (hbefore : ∀ i < n, ∀ env, OwnSweep u o i env → env.now ≤ A) {c x : Time}
    (hc : (storeAt k cj u n).liveness.clock = some c) (hBc : B < c)
    (hx : (storeAt k cj u n).liveness.heartbeats.score o.name = some x) :
    B + second < x := by
  induction n generalizing c x with
  | zero => cases hc
  | succ n ih =>
      have hbegun : ∃ i < n + 1, ∃ env, OwnSweep u o i env := by
        by_contra hnone
        push Not at hnone
        have hunmet := (h.toBeating.fresh k cj (n + 1)).2
          fun i hi env hown => hnone i hi env hown
        rw [hunmet.1] at hx
        cases hx
      obtain ⟨i, hi, env', hown', hlast⟩ := exists_lastSweep hbegun
      have hL := hbefore i hi env' hown'
      have hwin := fun {j : ℕ} (hj : j < n) => hbefore j (Nat.lt_succ_of_lt hj)
      cases hr : u n with
      | none =>
          rw [storeAt_succ_none hr] at hc hx
          exact ih (fun j hj => hwin hj) hc hBc hx
      | some r =>
          -- The run is after the stall, so it is no sweep of the object's own.
          have hnow : B < r.env.now := by
            obtain ⟨j, hj, r', hr', hcr⟩ := clock_from (n + 1) hc
            have hle : r'.env.now ≤ r.env.now :=
              h.clock j n r' r (Nat.lt_succ_iff.mp hj) hr' hr
            linarith
          have hne : ∀ hbt, r.inv ≠ .sweep o hbt := by
            intro hbt heq
            have := hbefore n (Nat.lt_succ_self n) r.env ⟨hbt, by rw [hr, ← heq]⟩
            linarith [h.order]
          have hin : i < n := by
            rcases Nat.lt_succ_iff_lt_or_eq.mp hi with hlt | rfl
            · exact hlt
            · obtain ⟨hbt, hu⟩ := hown'
              rw [hr] at hu
              exact absurd (congrArg ScriptRun.inv (Option.some.inj hu)) (hne hbt)
          have hA : A ≤ env'.now + second := by
            rcases h.window hown' (fun j hij hjn => hlast j hij (Nat.lt_succ_of_lt hjn)) hr
              with hsoon | ⟨_, hA, _⟩
            · linarith [h.order]
            · exact hA
          rw [storeAt_liveness hr, ScriptRun.after, after_liveness] at hc hx
          have hahead : 4 * second < heartbeatAhead := by decide
          have hsecond : 0 < second := by decide
          rcases heartbeat_from hne (fun p hp howner =>
            h.popTimeout n p r.env (by rw [hr, ← hp]) howner) hx with hbeat | ⟨x₀, hx₀, hfrom⟩
          · linarith
          · rw [Store.evicted_liveness] at hx₀ hfrom
            have hskip := (storeAt k cj u n).liveness.skipped_nonneg r.env
            rcases hfrom with ⟨hclock, rfl⟩ | rfl
            · exact ih (fun j hj => hwin hj) (hclock.symm.trans hc) hBc hx₀
            · obtain ⟨c₀, hc₀⟩ := Option.isSome_iff_exists.mp
                (clock_isSome k cj hin hown')
              have hfresh := ((h.toBeating.fresh k cj n).1 i hin env' hown').heartbeat
                x₀ hx₀
              obtain ⟨j, hj, r', hr', hcr⟩ := clock_from n hc₀
              rcases h.silent j r' hr' with hpast | hpast
              · -- The clock stood still over the stall.
                by_cases hgap : sweepGap < r.env.now - c₀
                · rw [Liveness.skipped_of_longGap hc₀ hgap]
                  linarith
                · have hgap' : sweepGap = 2 * second := rfl
                  linarith
              · have := ih (fun j hj => hwin hj) hc₀ (by rw [hcr]; exact hpast) hx₀
                linarith

/-- A sweep of another object takes an object for dead over a stall exactly
if the counts find it gone after a gap that counts as normal. -/
theorem Stalled.mem_sweptDead_iff (h : Stalled u o A B) {n : ℕ} {sweeper : Owner} {hbt : Time}
    {env : Env} (hr : u n = some ⟨.sweep sweeper hbt, env⟩) (hforeign : sweeper ≠ o) :
    o.name ∈ (storeAt k cj u n).liveness.sweptDead env sweeper.name hbt ↔
      (storeAt k cj u n).liveness.CountedGone env sweeper.name hbt o.name := by
  have hne : o.name ≠ sweeper.name := Owner.name_ne (Ne.symm hforeign)
  have hahead : 4 * second < heartbeatAhead := by decide
  have hgrace : 2 * second < presenceGrace := by decide
  have hsweepGap : sweepGap = 2 * second := rfl
  have hsecond : 0 < second := by decide
  by_cases hbegun : ∃ i < n, ∃ env, OwnSweep u o i env
  · obtain ⟨i, hi, env', hown', hlast⟩ := exists_lastSweep hbegun
    have hfresh := (h.toBeating.fresh k cj n).1 i hi env' hown'
    obtain ⟨c, hc⟩ := Option.isSome_iff_exists.mp (clock_isSome k cj hi hown')
    have hdead : (∀ x, (storeAt k cj u n).liveness.heartbeats.score o.name = some x →
        env.now < x) → env.now - c ≤ sweepGap →
        (o.name ∈ (storeAt k cj u n).liveness.sweptDead env sweeper.name hbt ↔
          (storeAt k cj u n).liveness.CountedGone env sweeper.name hbt o.name) :=
      fun hheart hgap => Liveness.mem_sweptDead_of_normalGap hc hgap hne hheart
    have hspared : o.name ∉ (storeAt k cj u n).liveness.sweptDead env sweeper.name hbt →
        sweepGap < env.now - c →
        (o.name ∈ (storeAt k cj u n).liveness.sweptDead env sweeper.name hbt ↔
          (storeAt k cj u n).liveness.CountedGone env sweeper.name hbt o.name) := by
      intro hnot hgap
      refine iff_of_false hnot fun hgone => ?_
      obtain ⟨last, hlastClock, hle⟩ := hgone.normalGap
      rw [hc] at hlastClock
      rw [← Option.some.inj hlastClock] at hle
      exact absurd hgap (not_lt.mpr hle)
    rcases h.window hown' hlast hr with hsoon | ⟨hLA, hAL, hsoon⟩
    · by_cases hgap : sweepGap < env.now - c
      · refine hspared ((hfresh.prepared_of_ne hne).notMem_sweptDead ?_) hgap
        linarith
      · refine hdead (fun x hx => ?_) (not_lt.mp hgap)
        have := hfresh.heartbeat x hx
        linarith
    · obtain ⟨j, hj, r', hr', hcr⟩ := clock_from n hc
      rcases h.silent j r' hr' with hpast | hpast
      · by_cases hgap : sweepGap < env.now - c
        · refine hspared ((hfresh.prepared_skipped env _ env'.now_nonneg
            hne).notMem_sweptDead ?_) hgap
          rw [Liveness.skipped_of_longGap hc hgap]
          linarith
        · refine hdead (fun x hx => ?_) (not_lt.mp hgap)
          have := hfresh.heartbeat x hx
          linarith
      · refine hdead (fun x hx => ?_) (by linarith)
        have hbefore : ∀ j < n, ∀ env'', OwnSweep u o j env'' → env''.now ≤ A := by
          intro j' hj' env'' hown''
          have hji : j' ≤ i := not_lt.mp fun hij => hlast j' hij hj' env'' hown''
          obtain ⟨_, hu'⟩ := hown'
          obtain ⟨_, hu''⟩ := hown''
          exact (h.clock j' i _ _ hji hu'' hu').trans hLA
        have := h.heartbeat_after_stall n hbefore hc (by rw [hcr]; exact hpast) hx
        linarith
  · push Not at hbegun
    have hunmet := (h.toBeating.fresh k cj n).2
      fun i hi env hown => hbegun i hi env hown
    refine iff_of_false hunmet.notMem_sweptDead fun hgone => ?_
    obtain ⟨_, mark, hmark, _⟩ := hgone.absent
    rw [hunmet.2] at hmark
    cases hmark

/-- A stall spares an object exactly in the runs in which no sweep of another
one, after a gap that counts as normal, counts it as gone. -/
theorem stall_spares_iff (k : Kind) (cj : Cjson) (h : Stalled u o A B) :
    (∀ n sweeper hbt env, u n = some ⟨.sweep sweeper hbt, env⟩ → sweeper ≠ o →
      o.name ∉ (storeAt k cj u n).liveness.sweptDead env sweeper.name hbt) ↔
    ∀ n sweeper hbt env, u n = some ⟨.sweep sweeper hbt, env⟩ → sweeper ≠ o →
      ¬(storeAt k cj u n).liveness.CountedGone env sweeper.name hbt o.name := by
  constructor
  · intro hspared n sweeper hbt env hr hforeign
    exact fun hgone => hspared n sweeper hbt env hr hforeign
      ((h.mem_sweptDead_iff hr hforeign).mpr hgone)
  · intro hnot n sweeper hbt env hr hforeign
    exact fun hdead => hnot n sweeper hbt env hr hforeign
      ((h.mem_sweptDead_iff hr hforeign).mp hdead)

/-! ## Stalls of other lengths -/

/-- Which script moved the clock. -/
theorem sweep_of_clock_ne {env : Env} {s : Store} {inv : Invocation}
    (h : (inv.livenessAfter k env s).clock ≠ s.liveness.clock) :
    ∃ sweeper hbt, inv = .sweep sweeper hbt := by
  rw [livenessAfter_clock] at h
  cases inv with
  | sweep sweeper hbt => exact ⟨sweeper, hbt, rfl⟩
  | _ => exact absurd rfl h

/-- Once the clock is past a long stall, the object is as fresh as if it had
swept a second before the end of the stall. -/
theorem Stalled.fresh_after_stall (h : Stalled u o A B) (hlong : sweepGap < B - A) (n : ℕ)
    {c : Time} (hc : (storeAt k cj u n).liveness.clock = some c) (hBc : B < c) :
    (storeAt k cj u n).liveness.Fresh o.name (B - second) := by
  have hsecond : 0 < second := by decide
  induction n generalizing c with
  | zero => cases hc
  | succ n ih =>
      cases hr : u n with
      | none =>
          rw [storeAt_succ_none hr] at hc ⊢
          exact ih hc hBc
      | some r =>
          have hnow : B < r.env.now := by
            obtain ⟨j, hj, r', hr', hcr⟩ := clock_from (n + 1) hc
            have hle : r'.env.now ≤ r.env.now :=
              h.clock j n r' r (Nat.lt_succ_iff.mp hj) hr' hr
            linarith
          obtain ⟨hfreshAll, hunmetAll⟩ := h.toBeating.fresh k cj (n + 1)
          by_cases hbegun : ∃ i < n + 1, ∃ env, OwnSweep u o i env
          swap
          · push Not at hbegun
            exact (hunmetAll fun i hi env hown => hbegun i hi env hown).fresh _
          obtain ⟨i, hi, env', hown', hlast⟩ := exists_lastSweep hbegun
          by_cases hafter : B < env'.now
          · exact (hfreshAll i hi env' hown').mono (by linarith)
          · have hin : i < n := by
              rcases Nat.lt_succ_iff_lt_or_eq.mp hi with hlt | rfl
              · exact hlt
              · obtain ⟨hbt, hu⟩ := hown'
                rw [hr] at hu
                rw [Option.some.inj hu] at hnow
                exact absurd hnow hafter
            have hne : ∀ hbt, r.inv ≠ .sweep o hbt := fun hbt heq =>
              hlast n hin (Nat.lt_succ_self n) r.env ⟨hbt, by rw [hr, ← heq]⟩
            by_cases hsame : (storeAt k cj u (n + 1)).liveness.clock =
                (storeAt k cj u n).liveness.clock
            · exact h.toBeating.fresh_step hr hne (by linarith) (ih (hsame ▸ hc) hBc)
            · -- This sweep is the first after the stall: it skips the gap.
              have hA : A ≤ env'.now + second := by
                rcases h.window hown'
                    (fun j hij hjn => hlast j hij (Nat.lt_succ_of_lt hjn)) hr with
                  hsoon | ⟨_, hA, _⟩
                · linarith [h.order]
                · exact hA
              have hfresh := (h.toBeating.fresh k cj n).1 i hin env' hown'
              obtain ⟨c₀, hc₀⟩ := Option.isSome_iff_exists.mp
                (clock_isSome k cj hin hown')
              rw [storeAt_liveness hr, ScriptRun.after, after_liveness] at hsame ⊢
              rw [← Store.evicted_liveness r.env] at hsame hfresh
              obtain ⟨sweeper, hbt, hinv⟩ := sweep_of_clock_ne hsame
              have hnames : o.name ≠ sweeper.name :=
                Owner.name_ne fun heq => hne hbt (by rw [hinv, heq])
              rw [hinv, Invocation.livenessAfter]
              obtain ⟨j, hj, r', hr', hcr⟩ := clock_from n hc₀
              rcases h.silent j r' hr' with hpast | hpast
              · have hskip : ((storeAt k cj u n).evicted r.env).liveness.skipped r.env =
                    r.env.now - c₀ := by
                  rw [Store.evicted_liveness]
                  exact Liveness.skipped_of_longGap hc₀ (by linarith)
                have hprepared := hfresh.prepared_skipped r.env hbt
                  env'.now_nonneg hnames
                rw [hskip] at hprepared
                exact (hprepared.mono (by linarith)).swept (by linarith)
              · have hfresh' := ih hc₀ (by rw [hcr]; exact hpast)
                rw [← Store.evicted_liveness r.env] at hfresh'
                exact (hfresh'.prepared_of_ne hnames).swept (by linarith)

/-- A stall of less than half a second, or of more than `sweepGap`, makes no
live object look dead. -/
theorem stall_of_other_length_spares (h : Stalled u o A B)
    (hlength : B - A < second / 2 ∨ sweepGap < B - A) {n : ℕ} {sweeper : Owner} {hbt : Time}
    {env : Env} (hr : u n = some ⟨.sweep sweeper hbt, env⟩) (hforeign : sweeper ≠ o) :
    o.name ∉ (storeAt k cj u n).liveness.sweptDead env sweeper.name hbt := by
  have hgrace : presenceGrace = 2 * second + second / 2 := by decide
  have hsecond : 0 < second / 2 ∧ second / 2 < second := by decide
  have hne : o.name ≠ sweeper.name := Owner.name_ne (Ne.symm hforeign)
  rw [h.mem_sweptDead_iff hr hforeign]
  intro hgone
  obtain ⟨c, hc, hgap⟩ := hgone.normalGap
  obtain ⟨_, mark, hmark, hnonzero, hlongGone⟩ := hgone.absent
  by_cases hbegun : ∃ i < n, ∃ env, OwnSweep u o i env
  swap
  · push Not at hbegun
    have hunmet := (h.toBeating.fresh k cj n).2
      fun i hi env hown => hbegun i hi env hown
    rw [hunmet.2] at hmark
    cases hmark
  obtain ⟨i, hi, env', hown', hlast⟩ := exists_lastSweep hbegun
  have hfresh := (h.toBeating.fresh k cj n).1 i hi env' hown'
  have hsince := (hfresh.mark mark hmark).resolve_left hnonzero
  rcases h.window hown' hlast hr with hsoon | ⟨hLA, hAL, hsoon⟩
  · linarith
  · rcases hlength with hshort | hlong
    · linarith
    · have hafter : B < env.now := by
        rcases h.silent n _ hr with hpast | hafter
        · linarith
        · exact hafter
      obtain ⟨j, hj, r', hr', hcr⟩ := clock_from n hc
      rcases h.silent j r' hr' with hpast | hpast
      · linarith
      · have hfresh' := h.fresh_after_stall hlong n hc (by rw [hcr]; exact hpast)
        have := (hfresh'.mark mark hmark).resolve_left hnonzero
        linarith

end Runs

/-! ## A stall that does make a live object look dead -/

/-- When the scripts of the run below run, in units of 10 ms. -/
def shortStallTime : ℕ → ℕ
  | 0 => 1000
  | 1 => 1005
  | 2 => 1010
  | 3 => 1060
  | 4 => 1100
  | 5 => 1120
  | 6 => 1190
  | 7 => 1385
  | n + 8 => 100 * (14 + min n (2 ^ 40))

/-- An object sweeps at 10 s and 11 s and once a second from 14 s on, until
the clock stops.  Another one sweeps at 10.6 s, when it counts the first one's
subscriber, and at 11.2 s and 11.9 s, when it finds none.  No script runs from
12 s to 13.8 s; then, at 13.85 s, the other one sweeps first. -/
def shortStall (n : ℕ) : Option ScriptRun :=
  some
    { inv :=
        match n with
        | 0 => .sweep ownerA minHeartbeat
        | 1 => .push ⟨[97], 0, 0, false, none⟩
        | 2 => .pop ⟨⟨ownerA, 1, 60 * second, minHeartbeat, false⟩, .one⟩
        | 3 => .sweep ownerB minHeartbeat
        | 4 => .sweep ownerA minHeartbeat
        | 5 => .sweep ownerB minHeartbeat
        | 6 => .sweep ownerB minHeartbeat
        | 7 => .sweep ownerB minHeartbeat
        | _ + 8 => .sweep ownerA minHeartbeat
      env := .plain (shortStallTime n * 10000) fun _ => if n = 3 then 1 else 0 }

theorem shortStallTime_mono : Monotone shortStallTime := by
  refine monotone_nat_of_le_succ fun n => ?_
  match n with
  | 0 | 1 | 2 | 3 | 4 | 5 | 6 | 7 => decide
  | n + 8 => simp only [shortStallTime]; omega

theorem shortStallTime_lt (n : ℕ) : shortStallTime n * 10000 < 1000 * 2 ^ 53 := by
  match n with
  | 0 | 1 | 2 | 3 | 4 | 5 | 6 | 7 => decide
  | n + 8 => simp only [shortStallTime]; omega

theorem OwnSweep.shortStall {n : ℕ} {env : Env} (h : OwnSweep shortStall ownerA n env) :
    (n = 0 ∨ n = 4 ∨ 8 ≤ n) ∧
      env = .plain (shortStallTime n * 10000) fun _ => if n = 3 then 1 else 0 := by
  obtain ⟨hbt, hu⟩ := h
  simp only [Model.shortStall, Option.some.injEq, ScriptRun.mk.injEq] at hu
  obtain ⟨hinv, henv⟩ := hu
  refine ⟨?_, henv.symm⟩
  clear henv
  rcases n with _ | _ | _ | _ | _ | _ | _ | _ | n
  case zero => exact Or.inl rfl
  case succ.succ.succ.succ.zero => exact Or.inr (Or.inl rfl)
  case succ.succ.succ.succ.succ.succ.succ.succ => exact Or.inr (Or.inr (by omega))
  all_goals simp [ownerA, ownerB] at hinv

theorem ownSweep_shortStall {n : ℕ} (h : n = 0 ∨ n = 4 ∨ 8 ≤ n) :
    OwnSweep shortStall ownerA n
      (.plain (shortStallTime n * 10000) fun _ => if n = 3 then 1 else 0) := by
  refine ⟨minHeartbeat, ?_⟩
  rcases h with rfl | rfl | hle
  · rfl
  · rfl
  · obtain ⟨m, rfl⟩ := Nat.exists_eq_add_of_le' hle
    rfl

/-- From 14 s on the scripts run at whole seconds. -/
theorem shortStall_now (n : ℕ) :
    (Env.plain (shortStallTime (n + 8) * 10000) fun _ => if n + 8 = 3 then 1 else 0).now =
      (14 + min n (2 ^ 40) : ℕ) * second := by
  rw [show shortStallTime (n + 8) * 10000 = (14 + min n (2 ^ 40)) * 1000000 by
    simp only [shortStallTime]; omega]
  exact Env.plain_seconds (by omega) _

theorem shortStall_stalled :
    Stalled shortStall ownerA (12 * second) (138 * second / 10) where
  clock i j r r' hij hr hr' := by
    obtain rfl := Option.some.inj hr
    obtain rfl := Option.some.inj hr'
    refine Env.now_mono ?_
    rw [Env.plain_micros (shortStallTime_lt i), Env.plain_micros (shortStallTime_lt j)]
    exact Nat.mul_le_mul_right _ (shortStallTime_mono hij)
  sweepTimeout n hbt env hr := by
    match n with
    | 0 | 1 | 2 | 3 | 4 | 5 | 6 | 7 | n + 8 => simp [shortStall] at hr <;> simp [← hr.1]
  popTimeout n p env hr howner := by
    match n with
    | 0 | 1 | 2 | 3 | 4 | 5 | 6 | 7 | n + 8 => simp [shortStall] at hr <;> simp [← hr.1]
  sweepsFirst n p env hr howner := by
    match n with
    | 0 | 1 | 3 | 4 | 5 | 6 | 7 | n + 8 => simp [shortStall] at hr
    | 2 => exact ⟨0, by omega, _, ownSweep_shortStall (Or.inl rfl)⟩
  unclosed n env hr := by
    match n with
    | 0 | 1 | 2 | 3 | 4 | 5 | 6 | 7 | n + 8 => simp [shortStall] at hr
  order := by decide
  silent n r hr := by
    obtain rfl := Option.some.inj hr
    match n with
    | 0 | 1 | 2 | 3 | 4 | 5 | 6 | 7 => decide +kernel
    | n + 8 =>
        refine Or.inr ?_
        rw [shortStall_now]
        calc 138 * second / 10 < (14 : ℕ) * second := by decide
          _ ≤ (14 + min n (2 ^ 40) : ℕ) * second :=
            mul_le_mul_of_nonneg_right (Int.ofNat_le.mpr (by omega)) (by decide)
  sweepsOn i env hown := by
    obtain ⟨hi, rfl⟩ := hown.shortStall
    rcases hi with rfl | rfl | hle
    · exact ⟨4, by omega, _, ownSweep_shortStall (Or.inr (Or.inl rfl)), by decide +kernel⟩
    · exact ⟨8, by omega, _, ownSweep_shortStall (Or.inr (Or.inr le_rfl)), by decide +kernel⟩
    · obtain ⟨m, rfl⟩ := Nat.exists_eq_add_of_le' hle
      refine ⟨m + 9, by omega, _, ownSweep_shortStall (Or.inr (Or.inr (by omega))), Or.inl ?_⟩
      have hnext : ((14 + min (m + 1) (2 ^ 40) : ℕ) : ℤ) ≤ (14 + min m (2 ^ 40) : ℕ) + 1 := by
        omega
      rw [shortStall_now m, shortStall_now (m + 1)]
      calc ((14 + min (m + 1) (2 ^ 40) : ℕ) : ℤ) * second
          ≤ ((14 + min m (2 ^ 40) : ℕ) + 1) * second :=
            mul_le_mul_of_nonneg_right hnext (by decide)
        _ = (14 + min m (2 ^ 40) : ℕ) * second + second := by rw [add_mul, one_mul]

/-- A stall of 1.8 seconds does make an object look dead. -/
theorem shortStall_takes_live_object_for_dead :
    ¬∀ (k : Kind) (cj : Cjson) (u : ℕ → Option ScriptRun) (o : Owner) (A B : Time),
      Stalled u o A B → ∀ n sweeper hbt env, u n = some ⟨.sweep sweeper hbt, env⟩ →
        sweeper ≠ o → o.name ∉ (storeAt k cj u n).liveness.sweptDead env sweeper.name hbt := by
  intro h
  exact h .fifo .none shortStall ownerA _ _ shortStall_stalled 7 ownerB minHeartbeat _ rfl
    (by decide) (by decide +kernel)

theorem stall_spares_iff_shortStall :
    (∀ n sweeper hbt env, shortStall n = some ⟨.sweep sweeper hbt, env⟩ → sweeper ≠ ownerA →
      ownerA.name ∉ (storeAt .fifo .none shortStall n).liveness.sweptDead env sweeper.name hbt) ↔
    ∀ n sweeper hbt env, shortStall n = some ⟨.sweep sweeper hbt, env⟩ → sweeper ≠ ownerA →
      ¬(storeAt .fifo .none shortStall n).liveness.CountedGone env sweeper.name hbt
        ownerA.name :=
  stall_spares_iff .fifo .none shortStall_stalled

end Redisq.Model
