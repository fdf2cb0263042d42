import Mathlib.Tactic.IntervalCases
import Redisq.Verified.Retention

/-!
# What retention keeps over a run

A Job Record stays as it was written until its job is finished again, a Purge,
or retention drops it: while no more jobs were finished at its time or later
than are kept, and it is not too old, no trim does (`record_kept`).  And
whatever trims fall behind, the records are never more than are kept of
completed and of failed jobs (`records_bounded`).
-/

namespace Redisq.Model

/-! ## What a trim leaves -/

namespace Records

variable {r : Records} {state : JobState} {keep age : ℤ} {now : ℕ}

/-- A trim takes `trimCount` of the lowest members. -/
theorem of_trimmed : (r.trimmed state keep age now).of state =
    (r.of state).dropMin (trimCount (r.of state) keep age now) := by
  have hlowered := (trim_lowered state keep age now (Store.empty.withRecords r)).set
  rw [exec_trim, Store.records_withRecords, Store.records_withRecords] at hlowered
  exact hlowered

theorem of_opposite_trimmed :
    (r.trimmed state keep age now).of state.opposite = r.of state.opposite :=
  of_opposite_without _

theorem jobs_trimmed (id : Bytes) : (r.trimmed state keep age now).jobs.lookup id =
    if id ∈ (r.of state).members.take (trimCount (r.of state) keep age now) then none
    else r.jobs.lookup id := by
  have hlowered := (trim_lowered state keep age now (Store.empty.withRecords r)).records id
  rw [exec_trim, Store.records_withRecords, Store.records_withRecords] at hlowered
  exact hlowered

/-- Job `id` was finished into `state` at time `t`, and its record is `rec`. -/
structure Holds (r : Records) (state : JobState) (id : Bytes) (t : ℤ) (rec : Bytes) : Prop where
  entry : toLex (t, id) ∈ (r.of state).entries
  apart : id ∉ (r.of state.opposite).members
  record : r.jobs.lookup id = some rec

variable {id rec : Bytes} {t : ℤ}

theorem opposite_opposite (state : JobState) : state.opposite.opposite = state := by
  cases state <;> rfl

/-- A trim of the other Job State does nothing to a job. -/
theorem Holds.trimmed_opposite (h : r.Holds state id t rec) :
    (r.trimmed state.opposite keep age now).Holds state id t rec where
  entry := by
    have hother := @of_opposite_trimmed r state.opposite keep age now
    rw [opposite_opposite] at hother
    rw [hother]
    exact h.entry
  apart hmem := by
    rw [of_trimmed] at hmem
    obtain ⟨e, he, rfl⟩ := List.mem_map.mp hmem
    exact h.apart (List.mem_map_of_mem (List.mem_of_mem_drop he))
  record := by
    rw [jobs_trimmed, if_neg fun hlow => h.apart (List.mem_of_mem_take hlow)]
    exact h.record

/-- A trim of its own leaves it if those of its time or later are few enough,
and it is young enough. -/
theorem Holds.trimmed (h : r.Holds state id t rec) (hkeep : ((r.of state).since t : ℤ) ≤ keep)
    (hage : 0 < age) (hyoung : now - age < t) :
    (r.trimmed state keep age now).Holds state id t rec := by
  have hself : 0 < (r.of state).since t :=
    List.countP_pos_iff.mpr ⟨_, h.entry, decide_eq_true le_rfl⟩
  have hlength : (r.of state).since t ≤ (r.of state).entries.length := List.countP_le_length
  have hold : toLex (t, id) ∉ (r.of state).entries.take (outdated (r.of state) age now) := by
    intro hmem
    have hrank : t ≤ now - age := old_of_take hmem
    omega
  have hmany : toLex (t, id) ∉
      (r.of state).entries.take (((r.of state).entries.length : ℤ) - keep).toNat :=
    SortedSet.notMem_take_of_since (by rw [SortedSet.rank_toLex]; omega)
  have hout : toLex (t, id) ∉ (r.of state).entries.take (trimCount (r.of state) keep age now) := by
    have hcount : trimCount (r.of state) keep age now ≤
        max (outdated (r.of state) age now) (((r.of state).entries.length : ℤ) - keep).toNat := by
      rw [trimCount, if_pos ⟨by omega, hage⟩]
      omega
    intro hmem
    have hmem := List.take_subset_take_left _ hcount hmem
    rcases le_total (outdated (r.of state) age now)
      (((r.of state).entries.length : ℤ) - keep).toNat with hle | hle
    · rw [max_eq_right hle] at hmem
      exact hmany hmem
    · rw [max_eq_left hle] at hmem
      exact hold hmem
  have hid : id ∉ (r.of state).members.take (trimCount (r.of state) keep age now) := by
    intro hmem
    rw [SortedSet.members, ← List.map_take] at hmem
    obtain ⟨e, he, rfl⟩ := List.mem_map.mp hmem
    have hscore := SortedSet.score_eq_some_iff.mpr h.entry
    have hscore' : (r.of state).score (SortedSet.member e) = some (SortedSet.rank e) :=
      SortedSet.score_eq_some_iff.mpr (List.mem_of_mem_take he)
    obtain rfl := Option.some.inj (hscore'.symm.trans hscore)
    exact hout he
  refine ⟨?_, ?_, ?_⟩
  · rw [of_trimmed]
    have hentry := h.entry
    rw [← List.take_append_drop (trimCount (r.of state) keep age now) (r.of state).entries,
      List.mem_append] at hentry
    exact hentry.resolve_left hout
  · rw [of_opposite_trimmed]
    exact h.apart
  · rw [jobs_trimmed, if_neg hid]
    exact h.record

/-! ## What a finish leaves -/

theorem eq_or_opposite (state state' : JobState) : state' = state ∨ state' = state.opposite := by
  cases state <;> cases state' <;> decide

section Finishes

variable {env : Env} {a : FinishArgs} {id' rec' : Bytes}

theorem of_stored_own : (r.stored env a id rec).of a.state =
    if 0 < a.keep ∧ 0 < a.age then (r.of a.state).insert id env.nowms else r.of a.state := by
  unfold stored
  split <;> simp only [of_with_jobs, of_set_self, of_set_of_opposite]

theorem of_stored_opposite : (r.stored env a id rec).of a.state.opposite =
    (r.of a.state.opposite).erase id := by
  unfold stored
  split <;> simp only [of_with_jobs, of_set_opposite, of_set_opposite_self]

/-- What a finish writes. -/
theorem holds_stored (hon : 0 < a.keep ∧ 0 < a.age) :
    (r.stored env a id rec).Holds a.state id env.nowms rec where
  entry := by
    rw [of_stored_own, if_pos hon]
    exact SortedSet.mem_entries_insert.mpr (Or.inl rfl)
  apart := by
    rw [of_stored_opposite]
    exact fun hmem => (SortedSet.mem_members_erase.mp hmem).2 rfl
  record := by
    simp only [stored, if_pos hon]
    exact Finmap.lookup_insert _

/-- A finish of another job writes nothing of this one. -/
theorem Holds.stored (h : r.Holds state id t rec) (hne : id' ≠ id) :
    (r.stored env a id' rec').Holds state id t rec := by
  have hjobs : (r.stored env a id' rec').jobs.lookup id = some rec := by
    unfold Records.stored
    split
    · simp only [jobs_set, Finmap.lookup_insert_of_ne _ hne.symm]
      exact h.record
    · simp only [jobs_set, Finmap.lookup_erase_ne hne.symm]
      exact h.record
  have hentry : ∀ z : ZSet, toLex (t, id) ∈ z.entries → toLex (t, id) ∈ (z.erase id').entries :=
    fun z hz => SortedSet.mem_entries_erase.mpr ⟨hz, hne.symm⟩
  have hapart : ∀ z : ZSet, id ∉ z.members → id ∉ (z.insert id' env.nowms).members := by
    intro z hz hmem
    obtain heq | hin := SortedSet.mem_members_insert.mp hmem
    · exact hne heq.symm
    · exact hz hin
  obtain rfl | rfl := eq_or_opposite a.state state
  · refine ⟨?_, ?_, hjobs⟩
    · rw [of_stored_own]
      split
      · exact SortedSet.mem_entries_insert.mpr (Or.inr ⟨h.entry, hne.symm⟩)
      · exact h.entry
    · rw [of_stored_opposite]
      exact fun hmem => h.apart (SortedSet.mem_members_erase.mp hmem).1
  · have hown := h.apart
    rw [opposite_opposite] at hown
    refine ⟨?_, ?_, hjobs⟩
    · rw [of_stored_opposite]
      exact hentry _ h.entry
    · rw [opposite_opposite, of_stored_own]
      split
      · exact hapart _ hown
      · exact hown

/-- A finish leaves a job that the trim of its own Job State leaves. -/
theorem Holds.finished (h : (r.stored env a id' rec').Holds state id t rec)
    (hown : a.state = state → (((r.stored env a id' rec').of state).since t : ℤ) ≤ a.keep ∧
      0 < a.age ∧ env.nowms - a.age < t) : (r.finished env a id' rec').Holds state id t rec := by
  obtain heq | heq := eq_or_opposite state a.state
  · obtain ⟨hkeep, hage, hyoung⟩ := hown heq
    unfold Records.finished
    rw [heq]
    exact h.trimmed hkeep hage hyoung
  · unfold Records.finished
    rw [heq]
    exact h.trimmed_opposite

/-- A finish adds one job of its Job State and time. -/
theorem since_stored_le : ((r.stored env a id rec).of state).since t ≤
    (r.of state).since t + if a.state = state ∧ t ≤ env.nowms then 1 else 0 := by
  obtain rfl | rfl := eq_or_opposite a.state state
  · rw [of_stored_own]
    split
    · refine ((r.of a.state).since_insert_le id env.nowms t).trans (Nat.add_le_add_left ?_ _)
      simp
    · exact Nat.le_add_right _ _
  · rw [of_stored_opposite]
    exact (SortedSet.since_erase_le _ _ _).trans (Nat.le_add_right _ _)

end Finishes

/-- A trim adds none. -/
theorem since_trimmed_le (state' : JobState) :
    ((r.trimmed state' keep age now).of state).since t ≤ (r.of state).since t := by
  obtain rfl | rfl := eq_or_opposite state' state
  · rw [of_trimmed]
    exact (List.drop_sublist _ _).countP_le
  · rw [of_opposite_trimmed]

/-! ## No more than that -/

/-- Every record is of a job in a Job State. -/
def Covered (r : Records) : Prop :=
  ∀ id, id ∈ r.jobs → ∃ state, id ∈ (r.of state).members

theorem Covered.trimmed (h : r.Covered) : (r.trimmed state keep age now).Covered := by
  intro id hid
  obtain ⟨rec, hrec⟩ := Finmap.mem_iff.mp hid
  rw [jobs_trimmed] at hrec
  split at hrec
  · cases hrec
  · next hlow =>
      obtain ⟨state', hmem⟩ := h id (Finmap.mem_of_lookup_eq_some hrec)
      refine ⟨state', ?_⟩
      obtain rfl | rfl := eq_or_opposite state state'
      · rw [of_trimmed, SortedSet.members_dropMin]
        rw [← List.take_append_drop (trimCount (r.of state') keep age now) (r.of state').members,
          List.mem_append] at hmem
        exact hmem.resolve_left hlow
      · rw [of_opposite_trimmed]
        exact hmem

theorem Covered.stored (h : r.Covered) (env : Env) (a : FinishArgs) (id rec : Bytes) :
    (r.stored env a id rec).Covered := by
  intro id' hid'
  by_cases hsame : id' = id
  · subst hsame
    refine ⟨a.state, ?_⟩
    rw [of_stored_own]
    split
    · exact SortedSet.mem_members_insert.mpr (Or.inl rfl)
    · next hoff =>
        simp only [Records.stored, if_neg hoff] at hid'
        exact absurd rfl (Finmap.mem_erase.mp hid').1
  · have hbefore : id' ∈ r.jobs := by
      unfold Records.stored at hid'
      split at hid'
      · simp only [jobs_set, Finmap.mem_insert] at hid'
        exact hid'.resolve_left hsame
      · simp only [jobs_set] at hid'
        exact (Finmap.mem_erase.mp hid').2
    obtain ⟨state', hmem⟩ := h id' hbefore
    refine ⟨state', ?_⟩
    obtain rfl | rfl := eq_or_opposite a.state state'
    · rw [of_stored_own]
      split
      · exact SortedSet.mem_members_insert.mpr (Or.inr hmem)
      · exact hmem
    · rw [of_stored_opposite]
      exact SortedSet.mem_members_erase.mpr ⟨hmem, hsame⟩

theorem length_trimmed_le (state' : JobState) :
    ((r.trimmed state' keep age now).of state).entries.length ≤ (r.of state).entries.length := by
  obtain rfl | rfl := eq_or_opposite state' state
  · rw [of_trimmed]
    exact (List.drop_sublist _ _).length_le
  · rw [of_opposite_trimmed]

/-- A finish that keeps `K` of its Job State at most leaves `K` at most. -/
theorem length_finished_le {K : ℕ} {env : Env} {a : FinishArgs}
    (hbefore : (r.of state).entries.length ≤ K) (hkeep : a.state = state → a.keep ≤ K) :
    ((r.finished env a id rec).of state).entries.length ≤ K := by
  unfold Records.finished
  obtain rfl | rfl := eq_or_opposite a.state state
  · have hkeep := hkeep rfl
    rw [of_trimmed, of_stored_own]
    show (List.drop _ _).length ≤ K
    rw [List.length_drop]
    by_cases hon : 0 < a.keep ∧ 0 < a.age
    · have hinsert := (r.of a.state).length_insert_le id env.nowms
      rw [if_pos hon, trimCount, if_pos hon]
      omega
    · rw [if_neg hon]
      omega
  · rw [of_opposite_trimmed, of_stored_opposite]
    exact (List.length_filter_le _ _).trans hbefore

/-- There are no more records than jobs in the Job States. -/
theorem Covered.card_le (h : r.Covered) :
    r.jobs.keys.card ≤ r.completed.entries.length + r.failed.entries.length := by
  have hsub : r.jobs.keys ⊆ (r.completed.members ++ r.failed.members).toFinset := by
    intro id hid
    obtain ⟨state, hmem⟩ := h id (Finmap.mem_keys.mp hid)
    rw [List.mem_toFinset, List.mem_append]
    cases state with
    | completed => exact Or.inl hmem
    | failed => exact Or.inr hmem
  refine (Finset.card_le_card hsub).trans ((List.toFinset_card_le _).trans ?_)
  rw [List.length_append, SortedSet.members, SortedSet.members, List.length_map, List.length_map]

end Records

/-! ## Runs -/

/-- How many jobs a script run finishes into `state` at time `t` or later: one
or none. -/
def ScriptRun.finishedSince (k : Kind) (cj : Cjson) (state : JobState) (t : ℤ) (s : Store)
    (r : ScriptRun) : ℕ :=
  if t ≤ r.env.nowms then r.finishedInto k cj state s else 0

/-- A trim with such a retention keeps the newest `K`, those of time `t` among
them. -/
def Retains (K : ℕ) (t : ℤ) (now : ℕ) (keep age : ℤ) : Prop :=
  K ≤ keep ∧ 0 < age ∧ now - age < t

/-- A script run neither finishes job `id` again nor purges the queue, and the
trim it makes keeps the newest `K` of the Job State, those of time `t` among
them. -/
def ScriptRun.Spares (cj : Cjson) (K : ℕ) (state : JobState) (id : Bytes) (t : ℤ) (s : Store)
    (r : ScriptRun) : Prop :=
  match r.inv with
  | .finish a => ∀ item, s.nacked.lookup a.ackID = some item → jobID cj a.ackID item ≠ id ∧
      (a.state = state → Retains K t r.env.nowms a.keep a.age)
  | .trim keepCompleted ageCompleted keepFailed ageFailed =>
      match state with
      | .completed => Retains K t r.env.nowms keepCompleted ageCompleted
      | .failed => Retains K t r.env.nowms keepFailed ageFailed
  | .purge => False
  | _ => True

section Runs

variable {k : Kind} {cj : Cjson} {u : ℕ → Option ScriptRun} {i n : ℕ} {r : ScriptRun}
  {state : JobState} {id rec : Bytes} {t : ℤ}

theorem finishedInto_of_some {a : FinishArgs} {env : Env} {s : Store} {item : Bytes}
    (hitem : s.nacked.lookup a.ackID = some item) :
    ScriptRun.finishedInto k cj state s ⟨.finish a, env⟩ = if a.state = state then 1 else 0 := by
  have hreply := finish_reply k cj (s.evicted env) env a (Store.evicted_evicted env s)
  rw [reply_evicted (r := ⟨.finish a, env⟩), Store.evicted_nacked, hitem] at hreply
  simp only [ScriptRun.finishedInto, hreply, Option.isSome_some]

/-- A moment adds what it finishes to the jobs of a Job State and time. -/
theorem since_succ (hr : u n = some r) :
    ((storeAt k cj u (n + 1)).records.of state).since t ≤
      ((storeAt k cj u n).records.of state).since t +
        r.finishedSince k cj state t (storeAt k cj u n) := by
  rw [storeAt_records hr]
  obtain ⟨inv, env⟩ := r
  cases inv with
  | finish a =>
      simp only [Invocation.recordsAfter, Store.evicted_nacked, Store.evicted_records]
      split
      · exact Nat.le_add_right _ _
      · next item hitem =>
          have hstored := @Records.since_stored_le (storeAt k cj u n).records state
            (jobID cj a.ackID item)
            (((storeAt k cj u n).evicted env).recordOf cj env a item) t env a
          refine (Records.since_trimmed_le _).trans (hstored.trans (Nat.add_le_add_left ?_ _))
          rw [ScriptRun.finishedSince, finishedInto_of_some hitem]
          show _ ≤ if t ≤ env.nowms then _ else 0
          by_cases hstate : a.state = state <;> by_cases ht : t ≤ env.nowms <;> simp [hstate, ht]
  | trim kc ac kf af =>
      simp only [Invocation.recordsAfter, Store.evicted_records]
      have hfirst := @Records.since_trimmed_le (storeAt k cj u n).records state kc ac env.nowms t
        .completed
      exact (Records.since_trimmed_le .failed).trans (hfirst.trans (Nat.le_add_right _ _))
  | purge =>
      have hnone : (Records.empty.of state).since t = 0 := by cases state <;> rfl
      simp only [Invocation.recordsAfter, hnone]
      exact Nat.zero_le _
  | _ =>
      simp only [Invocation.recordsAfter, Store.evicted_records]
      exact Nat.le_add_right _ _

/-- In a Job State there are no more jobs of a time or later than were
finished then. -/
theorem since_le (k : Kind) (cj : Cjson) (u : ℕ → Option ScriptRun) (state : JobState) (t : ℤ)
    (n : ℕ) : ((storeAt k cj u n).records.of state).since t ≤
      countFrom k cj u 0 n (ScriptRun.finishedSince k cj state t) := by
  induction n with
  | zero =>
      rw [countFrom_self]
      cases state <;> exact le_rfl
  | succ n ih =>
      rw [countFrom_succ (Nat.zero_le n)]
      cases hr : u n with
      | none =>
          rw [storeAt_succ_none hr]
          exact ih.trans (Nat.le_add_right _ _)
      | some r =>
          have hstep := @since_succ k cj u n r state t hr
          simp only [atMoment, hr]
          omega

/-- What a finish of the job's Job State and time adds, and a trim spares. -/
theorem holds_succ {K : ℕ} (h : (storeAt k cj u n).records.Holds state id t rec)
    (hr : u n = some r) (hspares : r.Spares cj K state id t (storeAt k cj u n))
    (hfew : ((storeAt k cj u n).records.of state).since t +
      r.finishedSince k cj state t (storeAt k cj u n) ≤ K) :
    (storeAt k cj u (n + 1)).records.Holds state id t rec := by
  rw [storeAt_records hr]
  obtain ⟨inv, env⟩ := r
  cases inv with
  | finish a =>
      simp only [Invocation.recordsAfter, Store.evicted_nacked, Store.evicted_records]
      split
      · exact h
      · next item hitem =>
          obtain ⟨hne, hretains⟩ := hspares item hitem
          refine (h.stored hne).finished fun hstate => ?_
          obtain ⟨hkeep, hage, hyoung⟩ := hretains hstate
          have hstored := @Records.since_stored_le (storeAt k cj u n).records state
            (jobID cj a.ackID item)
            (((storeAt k cj u n).evicted env).recordOf cj env a item) t env a
          rw [ScriptRun.finishedSince, finishedInto_of_some hitem, if_pos hstate] at hfew
          have hfew : _ + (if t ≤ env.nowms then 1 else 0) ≤ K := hfew
          simp only [hstate, true_and] at hstored
          refine ⟨?_, hage, hyoung⟩
          omega
  | trim kc ac kf af =>
      simp only [Invocation.recordsAfter, Store.evicted_records]
      have hfew : ((storeAt k cj u n).records.of state).since t ≤ K := by omega
      cases state with
      | completed =>
          obtain ⟨hkeep, hage, hyoung⟩ : Retains K t env.nowms kc ac := hspares
          exact (h.trimmed (by omega) hage hyoung).trimmed_opposite
      | failed =>
          obtain ⟨hkeep, hage, hyoung⟩ : Retains K t env.nowms kf af := hspares
          have hless := @Records.since_trimmed_le (storeAt k cj u n).records .failed kc ac
            env.nowms t .completed
          have hkeep : ((((storeAt k cj u n).records.trimmed .completed kc ac env.nowms).of
              .failed).since t : ℤ) ≤ kf := by omega
          exact h.trimmed_opposite.trimmed hkeep hage hyoung
  | purge => exact hspares.elim
  | _ =>
      simp only [Invocation.recordsAfter, Store.evicted_records]
      exact h

theorem countFrom_mono {m n' : ℕ} (hn : n ≤ n') (hm : m ≤ n) (f : Store → ScriptRun → ℕ) :
    countFrom k cj u m n f ≤ countFrom k cj u m n' f := by
  induction n', hn using Nat.le_induction with
  | base => exact le_rfl
  | succ n' hn ih =>
      rw [countFrom_succ (hm.trans hn)]
      exact ih.trans (Nat.le_add_right _ _)

/-- The record of a finished job stays while the trims keep the newest `K` of
its Job State, it is young enough for them, and no more than `K` jobs, itself
among them, were finished into the Job State at its time or later. -/
theorem record_kept {K : ℕ} {a : FinishArgs} {env : Env} {item : Bytes}
    (hr : u i = some ⟨.finish a, env⟩)
    (hitem : (storeAt k cj u i).nacked.lookup a.ackID = some item)
    (hkeep : K ≤ a.keep) (hage : 0 < a.age) (hin : i < n)
    (hspares : ∀ m r, i < m → m < n → u m = some r →
      r.Spares cj K a.state (jobID cj a.ackID item) env.nowms (storeAt k cj u m))
    (hfew : countFrom k cj u 0 n (ScriptRun.finishedSince k cj a.state env.nowms) ≤ K) :
    (storeAt k cj u n).records.Holds a.state (jobID cj a.ackID item) env.nowms
      (((storeAt k cj u i).evicted env).recordOf cj env a item) := by
  have hsince : ∀ m r, m < n → u m = some r →
      ((storeAt k cj u m).records.of a.state).since env.nowms +
        r.finishedSince k cj a.state env.nowms (storeAt k cj u m) ≤ K := by
    intro m r hmn hr
    have hle := since_le k cj u a.state env.nowms m
    have hmore := @countFrom_mono k cj u (m + 1) 0 n hmn (Nat.zero_le _)
      (ScriptRun.finishedSince k cj a.state env.nowms)
    rw [countFrom_succ (Nat.zero_le m)] at hmore
    simp only [atMoment, hr] at hmore
    omega
  induction n, hin using Nat.le_induction with
  | base =>
      have hone := hsince i _ (Nat.lt_succ_self i) hr
      have hself : ScriptRun.finishedSince k cj a.state env.nowms (storeAt k cj u i)
          ⟨.finish a, env⟩ = 1 := by
        rw [ScriptRun.finishedSince, finishedInto_of_some hitem, if_pos rfl]
        exact if_pos le_rfl
      have hstored := @Records.since_stored_le (storeAt k cj u i).records a.state
        (jobID cj a.ackID item) (((storeAt k cj u i).evicted env).recordOf cj env a item)
        env.nowms env a
      rw [if_pos ⟨rfl, le_rfl⟩] at hstored
      rw [hself] at hone
      rw [storeAt_records hr]
      simp only [Invocation.recordsAfter, Store.evicted_nacked, Store.evicted_records, hitem]
      refine (Records.holds_stored ⟨by omega, hage⟩).finished fun _ => ⟨?_, hage, by omega⟩
      omega
  | succ n hin ih =>
      have hholds := ih (fun m r him hmn => hspares m r him (by omega))
        ((countFrom_mono n.le_succ (Nat.zero_le n) _).trans hfew)
        fun m r hmn => hsince m r (by omega)
      cases hr' : u n with
      | none =>
          rw [storeAt_succ_none hr']
          exact hholds
      | some r =>
          exact holds_succ hholds hr' (hspares n r hin n.lt_succ_self hr')
            (hsince n r n.lt_succ_self hr')

/-- No finish keeps more than `K` says of its Job State. -/
def KeepsAtMost (K : JobState → ℕ) (u : ℕ → Option ScriptRun) : Prop :=
  ∀ n a env, u n = some ⟨.finish a, env⟩ → a.keep ≤ K a.state

/-- There are never more jobs in a Job State, nor records, than any finish
keeps, whatever retention the trims go by. -/
theorem records_bounded {K : JobState → ℕ} (h : KeepsAtMost K u) (n : ℕ) :
    (∀ state, ((storeAt k cj u n).records.of state).entries.length ≤ K state) ∧
      (storeAt k cj u n).jobs.keys.card ≤ K .completed + K .failed := by
  have hall : (∀ state, ((storeAt k cj u n).records.of state).entries.length ≤ K state) ∧
      (storeAt k cj u n).records.Covered := by
    induction n with
    | zero =>
        refine ⟨fun state => ?_, fun id hid => absurd hid (Finmap.notMem_empty)⟩
        cases state <;> exact Nat.zero_le _
    | succ n ih =>
        obtain ⟨hlength, hcovered⟩ := ih
        have hstep := storeAt_recordsStep k cj u n
        generalize (storeAt k cj u (n + 1)).records = after at hstep ⊢
        cases hstep with
        | same => exact ⟨hlength, hcovered⟩
        | finishes a env item hr hitem =>
            refine ⟨fun state => ?_, (hcovered.stored env a _ _).trimmed⟩
            exact Records.length_finished_le (hlength state) fun hstate => hstate ▸ h n a env hr
        | trims kc ac kf af now =>
            refine ⟨fun state => ?_, hcovered.trimmed.trimmed⟩
            exact (Records.length_trimmed_le _).trans
              ((Records.length_trimmed_le _).trans (hlength state))
        | purged =>
            refine ⟨fun state => ?_, fun id hid => absurd hid (Finmap.notMem_empty)⟩
            cases state <;> exact Nat.zero_le _
  obtain ⟨hlength, hcovered⟩ := hall
  exact ⟨hlength, hcovered.card_le.trans (Nat.add_le_add (hlength .completed) (hlength .failed))⟩

end Runs

/-- Two jobs acknowledged, with retention for two of them, and a trim. -/
def keepsTwo : ℕ → Option ScriptRun
  | 0 => some ⟨.push ⟨[97], 0, 0, false, none⟩, .plain 0 fun _ => 0⟩
  | 1 => some ⟨.pop ⟨⟨ownerA, 1, second, second, false⟩, .one⟩, .plain 1 fun _ => 0⟩
  | 2 => some ⟨.finish ⟨ackIDOf ownerA 1 1, .completed, [], 2, 1000⟩, .plain 2 fun _ => 0⟩
  | 3 => some ⟨.push ⟨[98], 0, 0, false, none⟩, .plain 3 fun _ => 0⟩
  | 4 => some ⟨.pop ⟨⟨ownerA, 2, second, second, false⟩, .one⟩, .plain 4 fun _ => 0⟩
  | 5 => some ⟨.finish ⟨ackIDOf ownerA 2 1, .completed, [], 2, 1000⟩, .plain 5 fun _ => 0⟩
  | 6 => some ⟨.trim 2 1000 0 0, .plain 6 fun _ => 0⟩
  | _ => none

theorem record_kept_keepsTwo :
    (storeAt .fifo .none keepsTwo 7).records.Holds .completed (ackIDOf ownerA 1 1) 0
      (((storeAt .fifo .none keepsTwo 2).evicted (.plain 2 fun _ => 0)).recordOf .none
        (.plain 2 fun _ => 0) ⟨ackIDOf ownerA 1 1, .completed, [], 2, 1000⟩ [97]) := by
  have hspares : ∀ m r, 2 < m → m < 7 → keepsTwo m = some r →
      r.Spares .none 2 .completed (ackIDOf ownerA 1 1) 0 (storeAt .fifo .none keepsTwo m) := by
    intro m r him hmn hr
    interval_cases m <;> cases hr
    · trivial
    · trivial
    · intro item hitem
      have hid : jobID .none (ackIDOf ownerA 2 1) item = ackIDOf ownerA 2 1 := by
        obtain rfl := Option.some.inj hitem
        rfl
      exact ⟨fun heq => absurd (hid.symm.trans heq) (by decide), fun _ =>
        ⟨by decide, by decide, by decide⟩⟩
    · exact ⟨by decide, by decide, by decide⟩
  have hfew : countFrom .fifo .none keepsTwo 0 7
      (ScriptRun.finishedSince .fifo .none .completed 0) ≤ 2 := by decide
  have hr : keepsTwo 2 =
      some ⟨.finish ⟨ackIDOf ownerA 1 1, .completed, [], 2, 1000⟩, .plain 2 fun _ => 0⟩ := rfl
  have hitem :
      (storeAt .fifo .none keepsTwo 2).nacked.lookup (ackIDOf ownerA 1 1) = some [97] := rfl
  exact record_kept (K := 2) hr hitem (by decide) (by decide) (by decide) hspares hfew

theorem records_bounded_keepsTwo :
    (∀ state, ((storeAt .fifo .none keepsTwo 7).records.of state).entries.length ≤ 2) ∧
      (storeAt .fifo .none keepsTwo 7).jobs.keys.card ≤ 2 + 2 := by
  have hkeeps : KeepsAtMost (fun _ => 2) keepsTwo := by
    intro n a env hr
    rcases n with _ | _ | _ | _ | _ | _ | _ | n <;> cases hr <;> decide
  exact records_bounded hkeeps 7

end Redisq.Model
