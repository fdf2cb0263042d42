import Redisq.Model.Unpack
import Redisq.Verified.InTurn
import Redisq.Verified.Paging
import Redisq.Verified.Records

/-!
# What the scripts unpack stays small

A pop unpacks two values for each of at most `maxPop` items, a trim two
thousand Job IDs at most and a sweep a thousand channels, whatever the run.
A page of finished jobs is bounded by its limit and the members there are,
and by nothing else: `PageFits` is when it fits (`unpacks_fit`).
-/

namespace Redisq.Model

/-! ## Pops, trims and sweeps -/

section Capped

variable {k : Kind} {cj : Cjson} {env : Env} {s : Store}

/-- A pop unpacks at most two values an item. -/
theorem popUnpacks_le {a : PopArgs} {want : ℕ+} {size : ℕ}
    (h : size ∈ popUnpacks k env a want s) : size ≤ 2 * want := by
  have hids : ackIDs a.owner a.start want ≠ [] :=
    List.ne_nil_of_length_pos (by rw [length_ackIDs]; exact want.pos)
  have hpop := exec_popBody k hids s
  rw [length_ackIDs] at hpop
  have hitems := s.length_head_le k (ackIDs a.owner a.start want)
  rw [length_ackIDs] at hitems
  simp only [popUnpacks, length_ackIDs, hpop, List.mem_cons] at h
  rcases h with rfl | h
  · omega
  · split at h
    · cases h
    · split at h
      · cases h
      · split at h
        · have hsize : size = 2 * (s.head k (ackIDs a.owner a.start want)).length := by
            rcases List.mem_append.mp h with h | hlast
            · rcases List.mem_append.mp h with h | htimes
              · rcases List.mem_append.mp h with hprio | hentries
                · cases k with
                  | fifo => cases hprio
                  | prio => exact List.mem_singleton.mp hprio
                · exact List.mem_singleton.mp hentries
              · split at htimes
                · exact List.mem_singleton.mp htimes
                · cases htimes
            · exact List.mem_singleton.mp hlast
          omega
        · cases h

/-- A trim unpacks at most a thousand old ones and a thousand too many. -/
theorem trimUnpacks_le {state : JobState} {keep age : ℤ} {now size : ℕ}
    (h : size ∈ trimUnpacks state keep age now s) : size ≤ 2000 := by
  have hgone : (dropped (s.records.of state) keep age now).length ≤ 2000 := by
    unfold dropped
    split
    · rw [List.length_take]
      omega
    · rw [List.length_append, List.length_take, List.length_take]
      omega
  simp only [trimUnpacks, exec_trimGone] at h
  split at h
  · simp only [List.mem_cons, List.not_mem_nil, or_false, or_self] at h
    omega
  · cases h

/-- A sweep counts at most a thousand owners. -/
theorem sweepUnpacks_le {owner : Bytes} {hbt : Time} {size : ℕ}
    (h : size ∈ sweepUnpacks k cj env owner hbt s) : size ≤ 1000 := by
  simp only [sweepUnpacks] at h
  split at h
  · split at h
    · rw [List.mem_singleton.mp h]
      exact List.length_take_le _ _
    · cases h
  · cases h

/-- So does every script, if the pop is after few enough items. -/
theorem Invocation.unpacks_lt {inv : Invocation} {size : ℕ}
    (hwant : ∀ p, inv = .pop p → p.want ≤ maxPop) (h : size ∈ inv.unpacks k cj env s) :
    size < unpackLimit := by
  show size < 8000
  cases inv with
  | pop p =>
      obtain ⟨a, script⟩ := p
      cases script with
      | batch want slots =>
          have hcap : (want : ℕ) ≤ 1000 := hwant _ rfl
          have := popUnpacks_le h
          omega
      | one => cases h
      | oneLen slots => cases h
  | finish a =>
      simp only [Invocation.unpacks, finishUnpacks] at h
      split at h
      · cases h
      · have := trimUnpacks_le h
        omega
  | trim keepCompleted ageCompleted keepFailed ageFailed =>
      rcases List.mem_append.mp h with hcompleted | hfailed
      · have := trimUnpacks_le hcompleted
        omega
      · have := trimUnpacks_le hfailed
        omega
  | sweep owner hbt =>
      have := sweepUnpacks_le h
      omega
  | _ => cases h

end Capped

/-! ## Pages -/

/-- A page of finished jobs fits: few are asked for, few are behind the
offset, or none is read, since the sum wraps around or Redis refuses a bound.
Other pages unpack nothing. -/
def PageFits (index : ℤ → Option ℤ) (state : JobList) (offset limit : ℤ) (s : Store) : Prop :=
  match state with
  | .finished st =>
      limit < unpackLimit ∨
        ((s.records.of st).entries.length : ℤ) < max 0 offset + unpackLimit ∨
          2 ^ 63 < max 0 offset + limit ∨ ¬Indexed index state (max 0 offset) limit
  | _ => True

section Pages

variable {index : ℤ → Option ℤ} {state : JobList} {offset limit : ℤ} {s : Store}

theorem JobState.this_get (state : JobState) (s : Store) :
    state.this.get s = s.records.of state := by
  cases state <;> rfl

/-- Behind an end that wrapped around stands nothing. -/
theorem slice_of_wrapped {α : Type} {l : List α} {o stop a b : ℤ} (hindex : TakesIndices index)
    (ho : 0 ≤ o) (hfar : stop < -2 ^ 52 ∨ 2 ^ 52 < o)
    (ha : index (luaInt o) = some a) (hb : index (luaInt stop) = some b)
    (hl : l.length ≤ 2 ^ 32) : slice l a b = [] := by
  have hstart := (near_luaInt ho).read hindex ho ha
  have hafter := hstart.nonneg ho
  rcases hfar with hbelow | hbeyond
  · have hlua : luaInt stop < -2 ^ 52 := by
      have hpos := luaInt_cases (n := -stop) (by omega)
      have hneg : luaInt stop = -luaInt (-stop) := by
        rw [luaInt, if_neg (by omega), luaInt, if_pos (by omega)]
      omega
    have hlow := hindex.below _ _ hlua hb
    have hlast : ((l.length : ℤ) + b + 1).toNat = 0 := by omega
    rw [slice, if_neg (by omega), if_pos (by omega), hlast, List.take_zero, List.drop_nil]
  · unfold Near at hstart
    rw [slice, if_neg (by omega)]
    exact List.drop_eq_nil_of_le (by rw [List.length_take]; omega)

/-- What a call of `Jobs` unpacks is small enough exactly if its page fits. -/
theorem jobsUnpacks_lt_iff (hindex : TakesIndices index) (hoffset : offset < 2 ^ 63)
    (hlimit : limit < 2 ^ 63) (hsize : ∀ st, (s.records.of st).entries.length ≤ 2 ^ 32) :
    (∀ size ∈ jobsUnpacks index state offset limit s, size < unpackLimit) ↔
      PageFits index state offset limit s := by
  cases state with
  | finished st =>
      have hlength : (s.records.of st).members.reverse.length =
          (s.records.of st).entries.length := by
        rw [List.length_reverse, SortedSet.members, List.length_map]
      have hsmall := hsize st
      by_cases hnone : limit ≤ 0
      · have hfits : PageFits index (.finished st) offset limit s :=
          Or.inl (by unfold unpackLimit; omega)
        rw [jobsUnpacks, if_pos hnone]
        exact ⟨fun _ => hfits, fun _ _ h => absurd h List.not_mem_nil⟩
      · by_cases hwrap : 2 ^ 63 < max 0 offset + limit
        · have hfits : PageFits index (.finished st) offset limit s :=
            Or.inr (Or.inr (Or.inl hwrap))
          refine ⟨fun _ => hfits, fun _ size h => ?_⟩
          have hstop : int64 (max 0 offset + limit - 1) = max 0 offset + limit - 1 - 2 ^ 64 := by
            unfold int64
            rw [← Int.sub_bmod_right]
            exact Int.bmod_eq_of_le (by omega) (by omega)
          simp only [jobsUnpacks, if_neg hnone, zrevrange, exec_read, JobState.this_get] at h
          split at h
          · next a b ha hb =>
              rw [hstop] at hb
              rw [slice_of_wrapped hindex (by omega) (by omega) ha hb
                (by omega)] at h
              exact absurd h List.not_mem_nil
          · cases h
        · have hstop : int64 (max 0 offset + limit - 1) = max 0 offset + limit - 1 :=
            int64_eq (by omega) (by omega)
          simp only [jobsUnpacks, if_neg hnone, zrevrange, exec_read, JobState.this_get, hstop]
          split
          · next a b ha hb =>
              have hpage := slice_eq (l := (s.records.of st).members.reverse) (by omega)
                (by omega) ((near_luaInt (by omega)).read hindex (by omega) ha)
                ((near_luaInt (by omega)).read hindex (by omega) hb)
                (hlength ▸ hsmall.trans (by decide))
              have hindexed : Indexed index (.finished st) (max 0 offset) limit :=
                ⟨by rw [ha]; rfl, by rw [hb]; rfl⟩
              have hcount : (slice (s.records.of st).members.reverse a b).length =
                  min limit.toNat ((s.records.of st).entries.length - (max 0 offset).toNat) := by
                rw [hpage, List.length_take, List.length_drop, hlength]
              have hiff : (slice (s.records.of st).members.reverse a b).length < unpackLimit ↔
                  PageFits index (.finished st) offset limit s := by
                simp only [PageFits, hindexed, not_true_eq_false, hwrap, or_false, hcount]
                unfold unpackLimit
                omega
              rw [← hiff]
              split
              · next hnil =>
                  rw [hnil]
                  exact ⟨fun _ => by decide, fun _ _ h => absurd h List.not_mem_nil⟩
              · exact List.forall_mem_singleton
          · next hrefused =>
              have hfits : PageFits index (.finished st) offset limit s := by
                refine Or.inr (Or.inr (Or.inr fun hindexed => ?_))
                obtain ⟨a, ha⟩ := Option.isSome_iff_exists.mp hindexed.1
                obtain ⟨b, hb⟩ := Option.isSome_iff_exists.mp hindexed.2
                exact hrefused a b ha hb
              exact ⟨fun _ => hfits, fun _ _ h => absurd h List.not_mem_nil⟩
  | pending =>
      have hnone : jobsUnpacks index .pending offset limit s = [] := ite_self _
      rw [hnone]
      exact ⟨fun _ => trivial, fun _ _ h => absurd h List.not_mem_nil⟩
  | processing =>
      have hnone : jobsUnpacks index .processing offset limit s = [] := ite_self _
      rw [hnone]
      exact ⟨fun _ => trivial, fun _ _ h => absurd h List.not_mem_nil⟩

/-- And the call fails for the size of its page exactly if it is not. -/
theorem jobs_tooMany_iff (k : Kind) (cj : Cjson) (env : Env) :
    ((jobs index k cj env state offset limit).exec s).1 = .error .tooManyResults ↔
      ∃ size ∈ jobsUnpacks index state offset limit s, unpackLimit ≤ size := by
  unfold jobs jobsUnpacks
  by_cases hnone : limit ≤ 0
  · simp [hnone]
  · simp only [hnone, if_false, ↓Script.exec_bind, Script.exec_pure]
    cases state with
    | finished st =>
        simp only [pageScript]
        cases index (luaInt (max 0 offset)) <;>
          cases index (luaInt (int64 (max 0 offset + limit - 1)))
        case some.some a b =>
          simp only [zrevrange, ↓Script.exec_bind, exec_read, ↓Script.exec_ite, Script.exec_pure,
            hmget]
          by_cases hids : slice (st.this.get s).members.reverse a b = []
          · simp [hids, Except.map]
          · by_cases hfew : (slice (st.this.get s).members.reverse a b).length < unpackLimit
            · simp [hids, hfew, Except.map]
            · simpa [hids, hfew, Except.map] using not_lt.mp hfew
        all_goals simp [Except.map]
    | pending =>
        simp only [pageScript]
        cases index (luaInt (max 0 offset)) <;>
          cases index (luaInt (int64 (max 0 offset + limit - 1)))
        case some.some a b =>
          simp only [↓Script.exec_bind, Script.exec_pure, Except.map, reduceCtorEq, false_iff]
          simp
        all_goals simp [Except.map]
    | processing =>
        simp only [pageScript, ↓Script.exec_bind, Script.exec_pure, Except.map, reduceCtorEq,
          false_iff]
        simp

end Pages

/-! ## Runs -/

section Runs

variable {k : Kind} {cj : Cjson} {e : ℕ → Event} {n : ℕ}

/-- Whatever runs at a moment unpacks little. -/
theorem unpacks_lt_of_run {r : ScriptRun} (h : scriptRuns k cj e n = some r) {size : ℕ}
    (hsize : size ∈ r.unpacks k cj (worldAt k cj e n).store) : size < unpackLimit := by
  obtain ⟨inv, env⟩ := r
  refine Invocation.unpacks_lt (fun p hp => ?_) hsize
  have hpop : inv = .pop p := hp
  subst hpop
  exact want_le_of_run h

end Runs

/-- **Every script fits but a page of finished jobs.**  At any moment of a run
each `unpack` of the script that runs passes fewer than 8000 values, and those
of a call of `Jobs` do, and it does not fail for its size, exactly if its page
fits. -/
theorem unpacks_fit (index : ℤ → Option ℤ) (hindex : TakesIndices index) (k : Kind) (cj : Cjson)
    (e : ℕ → Event) (n : ℕ)
    (hsize : ∀ st, ((worldAt k cj e n).store.records.of st).entries.length ≤ 2 ^ 32) :
    (∀ r, scriptRuns k cj e n = some r →
      ∀ size ∈ r.unpacks k cj (worldAt k cj e n).store, size < unpackLimit) ∧
    ∀ env state (offset limit : ℤ), offset < 2 ^ 63 → limit < 2 ^ 63 →
      ((∀ size ∈ jobsUnpacks index state offset limit (worldAt k cj e n).store,
          size < unpackLimit) ↔
        PageFits index state offset limit (worldAt k cj e n).store) ∧
      (((jobs index k cj env state offset limit).exec (worldAt k cj e n).store).1 ≠
          .error .tooManyResults ↔
        PageFits index state offset limit (worldAt k cj e n).store) := by
  refine ⟨fun r hr size => unpacks_lt_of_run hr, fun env state offset limit hoffset hlimit => ?_⟩
  have hiff : _ ↔ PageFits index state offset limit (worldAt k cj e n).store :=
    jobsUnpacks_lt_iff hindex hoffset hlimit hsize
  refine ⟨hiff, ?_⟩
  rw [← hiff, Ne, jobs_tooMany_iff]
  push Not
  rfl

/-! ## A page that does not fit -/

/-- Scripts that need no object, sent and run one after the other. -/
def issuedRuns (u : ℕ → ScriptRun) (n : ℕ) : Event :=
  if n % 2 = 0 then .issue (u (n / 2)).inv else .run (n / 2) (u (n / 2)).env

/-- They do what they do without the world around them. -/
theorem worldAt_issuedRuns (k : Kind) (cj : Cjson) {u : ℕ → ScriptRun}
    (hu : ∀ n, (u n).inv.standalone = true) (n : ℕ) :
    (worldAt k cj (issuedRuns u) (2 * n)).sent =
        (List.range n).map (fun i => ⟨none, (u i).inv⟩) ∧
      (worldAt k cj (issuedRuns u) (2 * n)).store = storeAt k cj (fun i => some (u i)) n := by
  induction n with
  | zero => exact ⟨rfl, rfl⟩
  | succ n ih =>
      obtain ⟨hsent, hstore⟩ := ih
      have hissue : issuedRuns u (2 * n) = .issue (u n).inv := by
        rw [issuedRuns, if_pos (by omega), show 2 * n / 2 = n by omega]
      have hrun : issuedRuns u (2 * n + 1) = .run n (u n).env := by
        rw [issuedRuns, if_neg (by omega), show (2 * n + 1) / 2 = n by omega]
      have hfirst : worldAt k cj (issuedRuns u) (2 * n + 1) =
          { worldAt k cj (issuedRuns u) (2 * n) with
            sent := (worldAt k cj (issuedRuns u) (2 * n)).sent ++ [⟨none, (u n).inv⟩] } := by
        rw [worldAt_succ, hissue, World.step, if_pos (hu n)]
      have hfound : (worldAt k cj (issuedRuns u) (2 * n + 1)).sent[n]? =
          some ⟨none, (u n).inv⟩ := by
        rw [hfirst, hsent]
        simp
      rw [show 2 * (n + 1) = 2 * n + 1 + 1 by omega, worldAt_succ, hrun]
      simp only [World.step, hfound]
      constructor
      · rw [hfirst, hsent, List.range_succ, List.map_append]
        rfl
      · rw [hfirst, hstore, storeAt_succ]

/-- How each job of the run is acknowledged. -/
def crowdedFinish (i : ℕ) : FinishArgs where
  ackID := ackIDOf ownerA i 1
  state := .completed
  reason := []
  keep := 10000
  age := 1000000000

/-- Job `i` is prepared and acknowledged at `i` ms. -/
def crowded (n : ℕ) : ScriptRun :=
  ⟨if n % 2 = 0 then .prepareAck (ackIDOf ownerA (n / 2) 1) [65] 0
    else .finish (crowdedFinish (n / 2)), Env.plain (n / 2 * 1000) fun _ => 0⟩

theorem crowded_standalone (n : ℕ) : (crowded n).inv.standalone = true := by
  show (if n % 2 = 0 then _ else _ : Invocation).standalone = true
  split <;> rfl

/-- Retention keeps them all. -/
theorem crowded_filled {i : ℕ} (hi : i ≤ 8000) :
    Filled i (storeAt .fifo oneEnvelope (fun n => some (crowded n)) (2 * i)).records.completed ∧
      (storeAt .fifo oneEnvelope (fun n => some (crowded n)) (2 * i)).records.failed = ∅ := by
  induction i with
  | zero => exact ⟨filled_empty, rfl⟩
  | succ i ih =>
      obtain ⟨hfilled, hfailed⟩ := ih (by omega)
      have hprepare : some (crowded (2 * i)) = some ⟨.prepareAck (ackIDOf ownerA i 1) [65] 0,
          Env.plain (i * 1000) fun _ => 0⟩ := by
        rw [crowded, if_pos (by omega), show 2 * i / 2 = i by omega]
      have hfinish : some (crowded (2 * i + 1)) = some ⟨.finish (crowdedFinish i),
          Env.plain (i * 1000) fun _ => 0⟩ := by
        rw [crowded, if_neg (by omega), show (2 * i + 1) / 2 = i by omega]
      have hitem : (storeAt .fifo oneEnvelope (fun n => some (crowded n)) (2 * i + 1)).nacked.lookup
          (crowdedFinish i).ackID = some [65] := by
        rw [storeAt_nacked hprepare]
        exact Finmap.lookup_insert _
      have hsame : (storeAt .fifo oneEnvelope (fun n => some (crowded n)) (2 * i + 1)).records =
          (storeAt .fifo oneEnvelope (fun n => some (crowded n)) (2 * i)).records := by
        rw [storeAt_records hprepare]
        exact Store.evicted_records _ _
      obtain ⟨hnew, hmore⟩ := hfilled.insert
      rw [show 2 * (i + 1) = 2 * i + 1 + 1 by omega, storeAt_records hfinish]
      simp only [Invocation.recordsAfter, Store.evicted_nacked, Store.evicted_records, hitem, hsame]
      have hid : jobID oneEnvelope (crowdedFinish i).ackID [65] = ackIDOf ownerA i 1 := rfl
      rw [hid]
      refine ⟨?_, ?_⟩
      · rw [hfilled.kept (by omega) rfl (by show (i : ℤ) < 10000; omega)
          (by show (i : ℤ) < 1000000000; omega) hnew]
        exact hmore
      · show (SortedSet.erase (storeAt .fifo oneEnvelope (fun n => some (crowded n))
          (2 * i)).records.failed (ackIDOf ownerA i 1)) = ∅
        rw [hfailed]
        rfl

theorem Filled.length_entries {i : ℕ} {r : Records} (h : Filled i r.completed) :
    (r.of .completed).entries.length = i :=
  (List.length_map _).symm.trans h.length

/-- So as many completed jobs are there as were run. -/
theorem crowded_sizes {i : ℕ} (hi : i ≤ 8000) :
    ((worldAt .fifo oneEnvelope (issuedRuns crowded) (2 * (2 * i))).store.records.of
        .completed).entries.length = i ∧
      ∀ st, ((worldAt .fifo oneEnvelope (issuedRuns crowded) (2 * (2 * i))).store.records.of
        st).entries.length ≤ 2 ^ 32 := by
  have hstore := (worldAt_issuedRuns .fifo oneEnvelope crowded_standalone (2 * i)).2
  obtain ⟨hfilled, hfailed⟩ := crowded_filled hi
  rw [hstore]
  refine ⟨hfilled.length_entries, fun st => ?_⟩
  cases st with
  | completed =>
      rw [hfilled.length_entries]
      omega
  | failed =>
      rw [Records.of, hfailed]
      decide

/-- A page of 7999 of them fits. -/
theorem unpacks_fit_crowded :
    (∀ size ∈ jobsUnpacks printedIndex (.finished .completed) 0 7999
        (worldAt .fifo oneEnvelope (issuedRuns crowded) (2 * (2 * 8000))).store,
          size < unpackLimit) ∧
      ((jobs printedIndex .fifo oneEnvelope (Env.plain 0 fun _ => 0) (.finished .completed) 0
        7999).exec (worldAt .fifo oneEnvelope (issuedRuns crowded) (2 * (2 * 8000))).store).1 ≠
          .error .tooManyResults := by
  have hfits : PageFits printedIndex (.finished .completed) 0 7999
      (worldAt .fifo oneEnvelope (issuedRuns crowded) (2 * (2 * 8000))).store :=
    Or.inl (by decide)
  have hpage := (unpacks_fit printedIndex printedIndex_takes .fifo oneEnvelope
    (issuedRuns crowded) (2 * (2 * 8000)) (crowded_sizes le_rfl).2).2 (Env.plain 0 fun _ => 0)
    (.finished .completed) 0 7999 (by decide) (by decide)
  exact ⟨hpage.1.mpr hfits, hpage.2.mpr hfits⟩

/-- One of 8000 does not: `unpack` fails, and the call with it. -/
theorem jobs_unpack_tooMany :
    (∃ size ∈ jobsUnpacks printedIndex (.finished .completed) 0 8000
        (worldAt .fifo oneEnvelope (issuedRuns crowded) (2 * (2 * 8000))).store,
          ¬size < unpackLimit) ∧
      ((jobs printedIndex .fifo oneEnvelope (Env.plain 0 fun _ => 0) (.finished .completed) 0
        8000).exec (worldAt .fifo oneEnvelope (issuedRuns crowded) (2 * (2 * 8000))).store).1 =
          .error .tooManyResults := by
  obtain ⟨hlength, hsizes⟩ := crowded_sizes (le_refl 8000)
  have hmany : ¬PageFits printedIndex (.finished .completed) 0 8000
      (worldAt .fifo oneEnvelope (issuedRuns crowded) (2 * (2 * 8000))).store := by
    have hindexed : Indexed printedIndex (.finished .completed) (max 0 0) 8000 :=
      ⟨by decide, by decide⟩
    simp only [PageFits, hlength]
    rintro (hfew | hbehind | hwraps | hrefused)
    · exact absurd hfew (by decide)
    · exact absurd hbehind (by decide)
    · exact absurd hwraps (by decide)
    · exact hrefused hindexed
  rw [← jobsUnpacks_lt_iff printedIndex_takes (by decide) (by decide) hsizes] at hmany
  push Not at hmany
  refine ⟨?_, (jobs_tooMany_iff .fifo oneEnvelope (Env.plain 0 fun _ => 0)).mpr hmany⟩
  obtain ⟨size, hin, hlarge⟩ := hmany
  exact ⟨size, hin, not_lt.mpr hlarge⟩

end Redisq.Model
