import Redisq.Model.Effect
import Redisq.Verified.Conservation

/-!
# Job Records and Job States

`:jobs` holds the record of every job in `:completed` or `:failed`, and of no
other, and no job is in both (`Records.Agree`).  A trim drops the record of
each Job ID it takes out of a set, so it keeps the agreement.  A finish takes
its Job ID out of the other Job State, and with retention on it writes both
the record and the set.

With retention off it drops the record at once and leaves the set to the trim
that follows, which takes the first 1000 members.  A Job ID that is in the set
from an earlier job, and ranks past them, stays there without a record.  That
is the only way in which the agreement is lost (`records_agree_iff`).
-/

namespace Redisq.Model

/-! ## Agreement -/

/-- No job is in both Job States, and `:jobs` has the records of those in
either. -/
def Records.Agree (r : Records) : Prop :=
  (∀ id, id ∈ r.completed.members → id ∉ r.failed.members) ∧
    ∀ id, id ∈ r.jobs ↔ id ∈ r.completed.members ∨ id ∈ r.failed.members

namespace Records

variable {r : Records} {state : JobState}

/-- Agreement, said of one Job State and the other. -/
theorem agree_iff (r : Records) (state : JobState) :
    r.Agree ↔ (∀ id, id ∈ (r.of state).members → id ∉ (r.of state.opposite).members) ∧
      ∀ id, id ∈ r.jobs ↔
        id ∈ (r.of state).members ∨ id ∈ (r.of state.opposite).members := by
  cases state
  · exact Iff.rfl
  · show r.Agree ↔ (∀ id, id ∈ r.failed.members → id ∉ r.completed.members) ∧
      ∀ id, id ∈ r.jobs ↔ id ∈ r.failed.members ∨ id ∈ r.completed.members
    unfold Agree
    constructor
    · rintro ⟨hdisjoint, hjobs⟩
      exact ⟨fun id hf hc => hdisjoint id hc hf, fun id => (hjobs id).trans or_comm⟩
    · rintro ⟨hdisjoint, hjobs⟩
      exact ⟨fun id hc hf => hdisjoint id hf hc, fun id => (hjobs id).trans or_comm⟩

theorem empty_agree : empty.Agree :=
  ⟨fun _ h => absurd h (List.not_mem_nil), fun id => by
    show id ∈ (∅ : Hash Bytes) ↔ id ∈ [] ∨ id ∈ []
    simp [Finmap.notMem_empty]⟩

/-! ## Trims -/

/-- What a trim drops is in the set. -/
theorem mem_of_dropped {z : ZSet} {keep age : ℤ} {now : ℕ} {id : Bytes}
    (h : id ∈ dropped z keep age now) : id ∈ z.members := by
  unfold dropped at h
  split at h
  · exact List.mem_of_mem_take h
  · rcases List.mem_append.mp h with hold | hmost
    · exact List.map_subset _ (List.filter_subset_self _) (List.mem_of_mem_take hold)
    · exact List.mem_of_mem_take hmost

/-- With retention off, a trim takes the first 1000. -/
theorem dropped_of_off {z : ZSet} {keep age : ℤ} {now : ℕ} (h : ¬(0 < keep ∧ 0 < age)) :
    dropped z keep age now = z.members.take 1000 := by
  have hoff : keep ≤ 0 ∨ age ≤ 0 := by omega
  rw [dropped, if_pos hoff]

theorem mem_without {gone : List Bytes} {id : Bytes} :
    id ∈ ((r.without state gone).of state).members ↔ id ∈ (r.of state).members ∧ id ∉ gone := by
  rw [without, of_with_jobs, of_set_self, SortedSet.mem_members_eraseAll]

theorem of_opposite_without (gone : List Bytes) :
    (r.without state gone).of state.opposite = r.of state.opposite := by
  rw [without, of_with_jobs, of_set_opposite]

theorem mem_jobs_without {gone : List Bytes} {id : Bytes} :
    id ∈ (r.without state gone).jobs ↔ id ∈ r.jobs ∧ id ∉ gone :=
  Finmap.mem_eraseAll

/-- Members of a set go together with their records. -/
theorem Agree.without (h : r.Agree) {gone : List Bytes}
    (hgone : ∀ id ∈ gone, id ∈ (r.of state).members) : (r.without state gone).Agree := by
  obtain ⟨hdisjoint, hjobs⟩ := (agree_iff r state).mp h
  refine (agree_iff _ state).mpr ⟨?_, ?_⟩
  · intro id hid
    rw [of_opposite_without]
    exact hdisjoint id (mem_without.mp hid).1
  · intro id
    rw [mem_jobs_without, mem_without, of_opposite_without, hjobs id]
    have hother : id ∈ (r.of state.opposite).members → id ∉ gone :=
      fun hopp hin => hdisjoint id (hgone id hin) hopp
    tauto

theorem Agree.trimmed (h : r.Agree) (state : JobState) (keep age : ℤ) (now : ℕ) :
    (r.trimmed state keep age now).Agree :=
  h.without fun _ => mem_of_dropped

/-! ## Finishes -/

section Finishes

variable {env : Env} {a : FinishArgs} {id rec : Bytes}

/-- With retention on, a finish writes the record and the set. -/
theorem Agree.stored_kept (h : r.Agree) (hkeep : 0 < a.keep ∧ 0 < a.age) :
    (r.stored env a id rec).Agree := by
  obtain ⟨hdisjoint, hjobs⟩ := (agree_iff r a.state).mp h
  rw [agree_iff _ a.state, stored]
  simp only [hkeep, and_self, if_true, of_with_jobs, of_set_self, of_set_of_opposite,
    of_set_opposite, jobs_set, SortedSet.mem_members_insert,
    SortedSet.mem_members_erase, Finmap.mem_insert, hjobs]
  constructor
  · rintro id' (rfl | hin) ⟨hopp, hne⟩
    · exact hne rfl
    · exact hdisjoint id' hin hopp
  · intro id'
    tauto

/-- With retention off, it drops the record, and the trim takes the first
members out of the set. -/
theorem finished_off (hoff : ¬(0 < a.keep ∧ 0 < a.age)) :
    r.finished env a id rec =
      ({ r.set a.state.opposite ((r.of a.state.opposite).erase id) with
        jobs := r.jobs.erase id } : Records).without a.state
        ((r.of a.state).members.take 1000) := by
  rw [finished, stored]
  simp only [hoff, if_false, trimmed, of_with_jobs, of_set_of_opposite, jobs_set]
  rw [dropped_of_off hoff]

/-- A finish keeps the agreement, unless retention is off and the trim does
not reach its Job ID. -/
theorem Agree.finished (h : r.Agree)
    (hreached : ¬(0 < a.keep ∧ 0 < a.age) → id ∉ (r.of a.state).members.drop 1000) :
    (r.finished env a id rec).Agree := by
  by_cases hkeep : 0 < a.keep ∧ 0 < a.age
  · exact (h.stored_kept hkeep).trimmed _ _ _ _
  · obtain ⟨hdisjoint, hjobs⟩ := (agree_iff r a.state).mp h
    have hsplit : ∀ id', id' ∈ (r.of a.state).members ↔
        id' ∈ (r.of a.state).members.take 1000 ∨ id' ∈ (r.of a.state).members.drop 1000 := by
      intro id'
      rw [← List.mem_append, List.take_append_drop]
    have hown := hreached hkeep
    rw [finished_off hkeep, agree_iff _ a.state]
    simp only [mem_without, mem_jobs_without, of_opposite_without, of_with_jobs,
      of_set_of_opposite, of_set_opposite_self, SortedSet.mem_members_erase, Finmap.mem_erase,
      hjobs]
    constructor
    · rintro id' ⟨hin, _⟩ ⟨hopp, _⟩
      exact hdisjoint id' hin hopp
    · intro id'
      have hnever : id' ∈ (r.of a.state.opposite).members →
          id' ∉ (r.of a.state).members.take 1000 :=
        fun hopp htake => hdisjoint id' (List.mem_of_mem_take htake) hopp
      have hself : id' = id → id' ∈ (r.of a.state).members →
          id' ∈ (r.of a.state).members.take 1000 := by
        rintro rfl hin
        exact ((hsplit id').mp hin).resolve_right hown
      tauto

/-- Where the trim does not reach it, the Job ID stays without a record. -/
theorem finished_stale (hoff : ¬(0 < a.keep ∧ 0 < a.age))
    (hpast : id ∈ (r.of a.state).members.drop 1000) : ¬(r.finished env a id rec).Agree := by
  have hin : id ∈ (r.of a.state).members := List.mem_of_mem_drop hpast
  have hnot : id ∉ (r.of a.state).members.take 1000 := by
    have hnodup := (r.of a.state).nodup_members
    rw [← List.take_append_drop 1000 (r.of a.state).members] at hnodup
    exact fun htake => List.disjoint_of_nodup_append hnodup htake hpast
  intro hagree
  obtain ⟨_, hjobs⟩ := (agree_iff _ a.state).mp hagree
  have hrecord := (hjobs id).mpr (Or.inl (by
    rw [finished_off hoff, mem_without, of_with_jobs, of_set_of_opposite]
    exact ⟨hin, hnot⟩))
  rw [finished_off hoff, mem_jobs_without] at hrecord
  exact (Finmap.mem_erase.mp hrecord.1).1 rfl

end Finishes

end Records

/-! ## Runs -/

section Runs

variable {k : Kind} {cj : Cjson} {u : ℕ → Option ScriptRun} {n : ℕ}

/-- What the records may be after moment `n`: as they were, with what a finish
of a pending entry makes of them, trimmed, or gone. -/
inductive RecordsStep (k : Kind) (cj : Cjson) (u : ℕ → Option ScriptRun) (n : ℕ) :
    Records → Prop
  | same : RecordsStep k cj u n (storeAt k cj u n).records
  | finishes (a : FinishArgs) (env : Env) (item : Bytes) (hr : u n = some ⟨.finish a, env⟩)
      (hitem : (storeAt k cj u n).nacked.lookup a.ackID = some item) :
      RecordsStep k cj u n ((storeAt k cj u n).records.finished env a (jobID cj a.ackID item)
        ((storeAt k cj u n).recordOf cj env a item))
  | trims (kc ac kf af : ℤ) (now : ℕ) :
      RecordsStep k cj u n
        (((storeAt k cj u n).records.trimmed .completed kc ac now).trimmed .failed kf af now)
  | purged : RecordsStep k cj u n .empty

theorem storeAt_recordsStep (k : Kind) (cj : Cjson) (u : ℕ → Option ScriptRun) (n : ℕ) :
    RecordsStep k cj u n (storeAt k cj u (n + 1)).records := by
  cases hr : u n with
  | none =>
      rw [storeAt_succ_none hr]
      exact .same
  | some r =>
      rw [storeAt_records hr]
      obtain ⟨inv, env⟩ := r
      cases inv with
      | finish a =>
          have hrecord : ∀ item, ((storeAt k cj u n).evicted env).recordOf cj env a item =
              (storeAt k cj u n).recordOf cj env a item := by
            intro item
            obtain ⟨_, _, _, heq⟩ := (storeAt k cj u n).evicted_eq env
            rw [heq]
            rfl
          simp only [Invocation.recordsAfter, Store.evicted_nacked, Store.evicted_records, hrecord]
          split
          · exact .same
          · next item hitem => exact .finishes a env item hr hitem
      | trim kc ac kf af =>
          simp only [Invocation.recordsAfter, Store.evicted_records]
          exact .trims kc ac kf af env.nowms
      | purge => exact .purged
      | _ =>
          simp only [Invocation.recordsAfter, Store.evicted_records]
          exact .same

/-- At moment `n` a finish with retention off finds its entry, whose Job ID
is past the first 1000 members of the Job State's set. -/
def OutranksTrim (k : Kind) (cj : Cjson) (u : ℕ → Option ScriptRun) (n : ℕ) : Prop :=
  ∃ a env item, u n = some ⟨.finish a, env⟩ ∧
    (storeAt k cj u n).nacked.lookup a.ackID = some item ∧ ¬(0 < a.keep ∧ 0 < a.age) ∧
    jobID cj a.ackID item ∈ ((storeAt k cj u n).records.of a.state).members.drop 1000

/-- The agreement is lost at such a moment. -/
theorem OutranksTrim.stale (h : OutranksTrim k cj u n) :
    ¬(storeAt k cj u (n + 1)).records.Agree := by
  obtain ⟨a, env, item, hr, hitem, hoff, hpast⟩ := h
  rw [storeAt_records hr]
  simp only [Invocation.recordsAfter, Store.evicted_nacked, Store.evicted_records, hitem]
  exact Records.finished_stale hoff hpast

/-- One moment keeps the agreement. -/
theorem agree_step (h : (storeAt k cj u n).records.Agree) (hnot : ¬OutranksTrim k cj u n) :
    (storeAt k cj u (n + 1)).records.Agree := by
  have hstep := storeAt_recordsStep k cj u n
  generalize (storeAt k cj u (n + 1)).records = r at hstep ⊢
  cases hstep with
  | same => exact h
  | finishes a env item hr hitem =>
      apply h.finished
      intro hoff hpast
      exact hnot ⟨a, env, item, hr, hitem, hoff, hpast⟩
  | trims kc ac kf af now => exact (h.trimmed _ _ _ _).trimmed _ _ _ _
  | purged => exact Records.empty_agree

/-- Job Records and Job States agree all along a run exactly if no finish
with retention off finds its Job ID past the members its trim takes. -/
theorem records_agree_iff (k : Kind) (cj : Cjson) (u : ℕ → Option ScriptRun) :
    (∀ n, (storeAt k cj u n).records.Agree) ↔ ∀ n, ¬OutranksTrim k cj u n := by
  constructor
  · intro h n hn
    exact hn.stale (h (n + 1))
  · intro h n
    induction n with
    | zero => exact Records.empty_agree
    | succ n ih => exact agree_step ih (h n)

end Runs

/-! ## A run that loses a record -/

/-- A server to which only one item is JSON: an object with a string id. -/
def oneEnvelope : Cjson where
  decode v := if v = [88] then some (.table (some [88])) else none
  encode v := v

/-- The jobs of the run: a thousand plain items, and then the same envelope
id twice. -/
def overfullItem (i : ℕ) : Bytes := if i < 1000 then [65] else [88]

/-- How job `i` is acknowledged: the last one with retention off. -/
def overfullFinish (i : ℕ) : FinishArgs where
  ackID := ackIDOf ownerA i 1
  state := .completed
  reason := []
  keep := if i < 1001 then 10000 else 0
  age := 1000000000

/-- Job `i` is pushed, popped and acknowledged at `i` ms. -/
def overfull (n : ℕ) : Option ScriptRun :=
  if 1002 ≤ n / 3 then none
  else
    some ⟨match n % 3 with
      | 0 => .push ⟨overfullItem (n / 3), 0, 0, false, none⟩
      | 1 => .pop ⟨⟨ownerA, n / 3, 0, 0, false⟩, .one⟩
      | _ => .finish (overfullFinish (n / 3)), Env.plain (n / 3 * 1000) fun _ => 0⟩

/-- What waits and what is pending, on a list that never expires. -/
structure Holding (s : Store) (list : List Bytes) (nacked : Hash Bytes) : Prop where
  list : s.list = list
  nacked : s.nacked = nacked
  paused : s.paused = none
  expiry : s.expiry = none

theorem Holding.same {s t : Store} {list : List Bytes} {nacked : Hash Bytes}
    (h : Holding s list nacked) (hsame : s.SameBut t) : Holding t list nacked := by
  obtain ⟨_, _, _, _, rfl⟩ := hsame
  exact ⟨h.list, h.nacked, h.paused, h.expiry⟩

/-- One job of the run comes and goes. -/
theorem overfull_job {i : ℕ} (hi : i < 1002)
    (h : Holding (storeAt .fifo oneEnvelope overfull (3 * i)) [] ∅) :
    Holding (storeAt .fifo oneEnvelope overfull (3 * (i + 1))) [] ∅ ∧
      ∃ rec, (storeAt .fifo oneEnvelope overfull (3 * (i + 1))).records =
        (storeAt .fifo oneEnvelope overfull (3 * i)).records.finished
          (Env.plain (i * 1000) fun _ => 0) (overfullFinish i)
          (jobID oneEnvelope (ackIDOf ownerA i 1) (overfullItem i)) rec := by
  have hlt : ¬1002 ≤ i := by omega
  have hpush : overfull (3 * i) = some ⟨.push ⟨overfullItem i, 0, 0, false, none⟩,
      Env.plain (i * 1000) fun _ => 0⟩ := by
    have hdiv : 3 * i / 3 = i := by omega
    have hmod : 3 * i % 3 = 0 := by omega
    simp only [overfull, hdiv, hmod, hlt, if_false]
  have hpop : overfull (3 * i + 1) = some ⟨.pop ⟨⟨ownerA, i, 0, 0, false⟩, .one⟩,
      Env.plain (i * 1000) fun _ => 0⟩ := by
    have hdiv : (3 * i + 1) / 3 = i := by omega
    have hmod : (3 * i + 1) % 3 = 1 := by omega
    simp only [overfull, hdiv, hmod, hlt, if_false]
  have hfinish : overfull (3 * i + 2) = some ⟨.finish (overfullFinish i),
      Env.plain (i * 1000) fun _ => 0⟩ := by
    have hdiv : (3 * i + 2) / 3 = i := by omega
    have hmod : (3 * i + 2) % 3 = 2 := by omega
    simp only [overfull, hdiv, hmod, hlt, if_false]
  have hpushed : Holding (storeAt .fifo oneEnvelope overfull (3 * i + 1)) [overfullItem i] ∅ := by
    rw [storeAt_succ, hpush]
    refine Holding.same ?_ (step_some _ _ _ _)
    simp only [ScriptRun.after, Invocation.after, evicted_of_none h.expiry, Store.afterPush,
      Store.remembers, Bool.false_eq_true, if_false, Store.pushed, h.list]
    exact ⟨rfl, h.nacked, h.paused, rfl⟩
  have hpopped : Holding (storeAt .fifo oneEnvelope overfull (3 * i + 2)) []
      ((∅ : Hash Bytes).insert (ackIDOf ownerA i 1) (overfullItem i)) := by
    rw [storeAt_succ, hpop]
    refine Holding.same ?_ (step_some _ _ _ _)
    have hheld : (storeAt .fifo oneEnvelope overfull (3 * i + 1)).holds [ackIDOf ownerA i 1] =
        false := by
      rw [Store.holds_one, hpushed.nacked]
      rfl
    have hids : (PopCall.mk ⟨ownerA, i, 0, 0, false⟩ .one).ids = [ackIDOf ownerA i 1] := rfl
    have hhead : (storeAt .fifo oneEnvelope overfull (3 * i + 1)).head .fifo
        [ackIDOf ownerA i 1] = [overfullItem i] := by
      rw [Store.head, hpushed.list]
      rfl
    simp only [ScriptRun.after, Invocation.after, evicted_of_none hpushed.expiry,
      PopCall.effect, hids, Store.pop, hheld, Bool.false_eq_true, if_false, hpushed.paused,
      Option.isSome_none, Store.poppedFresh, hhead, reduceCtorEq, Store.joined, Store.pended,
      Store.beheaded, hpushed.list, hpushed.nacked]
    exact ⟨rfl, rfl, rfl, hpushed.expiry⟩
  have hitem : (storeAt .fifo oneEnvelope overfull (3 * i + 2)).nacked.lookup
      (overfullFinish i).ackID = some (overfullItem i) := by
    rw [hpopped.nacked]
    exact Finmap.lookup_insert _
  refine ⟨?_, ?_⟩
  · rw [show 3 * (i + 1) = 3 * i + 2 + 1 by omega, storeAt_succ, hfinish]
    refine Holding.same ?_ (step_some _ _ _ _)
    simp only [ScriptRun.after, Invocation.after, evicted_of_none hpopped.expiry,
      Store.afterFinish, hitem]
    refine ⟨hpopped.list, ?_, hpopped.paused, hpopped.expiry⟩
    show (storeAt .fifo oneEnvelope overfull (3 * i + 2)).nacked.erase (ackIDOf ownerA i 1) = ∅
    rw [hpopped.nacked]
    refine Finmap.ext_lookup fun a => ?_
    by_cases ha : a = ackIDOf ownerA i 1
    · subst ha
      rw [Finmap.lookup_erase, Finmap.lookup_empty]
    · rw [Finmap.lookup_erase_ne ha, Finmap.lookup_insert_of_ne _ ha]
  · rw [show 3 * (i + 1) = 3 * i + 2 + 1 by omega, storeAt_records hfinish]
    have hsame : (storeAt .fifo oneEnvelope overfull (3 * i + 2)).records =
        (storeAt .fifo oneEnvelope overfull (3 * i)).records := by
      rw [storeAt_records hpop]
      show ((storeAt .fifo oneEnvelope overfull (3 * i + 1)).evicted _).records = _
      rw [Store.evicted_records, storeAt_records hpush]
      exact Store.evicted_records _ _
    simp only [Invocation.recordsAfter, Store.evicted_nacked, Store.evicted_records, hitem, hsame]
    exact ⟨_, rfl⟩

/-- `i` jobs finished at the times 0 to `i - 1`, each under its ack ID. -/
structure Filled (i : ℕ) (z : ZSet) : Prop where
  length : z.members.length = i
  times : ∀ e ∈ z.entries, 0 ≤ SortedSet.rank e ∧ SortedSet.rank e < i
  ids : ∀ m ∈ z.members, ∃ j < i, m = ackIDOf ownerA j 1

/-- A record kept under retention that drops nothing yet. -/
theorem Filled.kept {i : ℕ} {r : Records} (h : Filled i r.completed) {a : FinishArgs}
    (hi : i < 2 ^ 53) (hstate : a.state = .completed) (hkeep : i < a.keep) (hage : i < a.age)
    {id : Bytes}
    (hid : id ∉ r.completed.members) (rec : Bytes) :
    (r.finished (Env.plain (i * 1000) fun _ => 0) a id rec).completed =
      r.completed.insert id i := by
  have hnow : (Env.plain (i * 1000) fun _ => 0).nowms = i :=
    Env.plain_nowms hi _
  have hlast := SortedSet.members_insert_last hid fun e he => (h.times e he).2
  have hlength : (r.completed.insert id i).entries.length = i + 1 := by
    have hmembers := congrArg List.length hlast
    rw [List.length_append, h.length] at hmembers
    exact (List.length_map _).symm.trans hmembers
  have hnone : dropped (r.completed.insert id i) a.keep a.age i = [] := by
    have hold : (r.completed.insert id i).filter (fun e =>
        decide (SortedSet.rank e ≤ (i : ℤ) - a.age)) = ∅ := by
      refine SortedSet.ext (List.filter_eq_nil_iff.mpr fun e he => ?_)
      rw [decide_eq_true_eq]
      rcases SortedSet.mem_entries_insert.mp he with rfl | ⟨hin, _⟩
      · rw [SortedSet.rank_toLex]
        omega
      · have := (h.times e hin).1
        omega
    rw [dropped, if_neg (by omega), hold, hlength]
    have hzero : (min (((i + 1 : ℕ) : ℤ) - a.keep) 1000).toNat = 0 := by omega
    rw [hzero]
    rfl
  have hstored : (r.stored (Env.plain (i * 1000) fun _ => 0) a id rec).of .completed =
      r.completed.insert id i := by
    have hon : 0 < a.keep ∧ 0 < a.age := by omega
    simp only [Records.stored, hon, and_self, if_true, hstate, hnow]
    rfl
  show ((r.stored (Env.plain (i * 1000) fun _ => 0) a id rec).trimmed a.state a.keep a.age
    (Env.plain (i * 1000) fun _ => 0).nowms).of .completed = _
  rw [Records.trimmed, hstate, hstored, hnow, hnone, Records.without, List.foldl_nil,
    List.foldl_nil, Records.of_with_jobs, Records.of_set_self, hstored]

/-- One more job finishes. -/
theorem Filled.insert {i : ℕ} {z : ZSet} (h : Filled i z) :
    ackIDOf ownerA i 1 ∉ z.members ∧ Filled (i + 1) (z.insert (ackIDOf ownerA i 1) i) := by
  have hnew : ackIDOf ownerA i 1 ∉ z.members := by
    intro hmem
    obtain ⟨j, hj, heq⟩ := h.ids _ hmem
    exact absurd (ackIDOf_injective heq).2.1 (by omega)
  refine ⟨hnew, ?_, fun e he => ?_, fun m hm => ?_⟩
  · rw [SortedSet.members_insert_last hnew fun e he => (h.times e he).2, List.length_append,
      h.length]
    rfl
  · rcases SortedSet.mem_entries_insert.mp he with rfl | ⟨hin, _⟩
    · rw [SortedSet.rank_toLex]
      omega
    · have := h.times e hin
      omega
  · rcases SortedSet.mem_members_insert.mp hm with rfl | hin
    · exact ⟨i, by omega, rfl⟩
    · obtain ⟨j, hj, heq⟩ := h.ids m hin
      exact ⟨j, by omega, heq⟩

theorem filled_empty : Filled 0 ∅ where
  length := rfl
  times _ he := absurd he List.not_mem_nil
  ids _ hm := absurd hm List.not_mem_nil

theorem overfull_filled {i : ℕ} (hi : i ≤ 1000) :
    Holding (storeAt .fifo oneEnvelope overfull (3 * i)) [] ∅ ∧
      Filled i (storeAt .fifo oneEnvelope overfull (3 * i)).records.completed := by
  induction i with
  | zero => exact ⟨⟨rfl, rfl, rfl, rfl⟩, filled_empty⟩
  | succ i ih =>
      obtain ⟨hholding, hfilled⟩ := ih (by omega)
      obtain ⟨hnext, rec, hrecords⟩ := overfull_job (by omega) hholding
      refine ⟨hnext, ?_⟩
      have hitem : overfullItem i = [65] := if_pos (by omega)
      have hid : jobID oneEnvelope (ackIDOf ownerA i 1) (overfullItem i) =
          ackIDOf ownerA i 1 := by
        rw [hitem]
        rfl
      have hkeep : (overfullFinish i).keep = 10000 := if_pos (by omega)
      obtain ⟨hnew, hmore⟩ := hfilled.insert
      rw [hrecords, hid, hfilled.kept (by omega) rfl (by omega)
        (by show (i : ℤ) < 1000000000; omega) hnew]
      exact hmore

/-- After a thousand jobs a job with envelope id is completed twice, the
second time with retention off: it is still in `:completed`, but its record
is gone. -/
theorem overfull_loses_record :
    ¬(storeAt .fifo oneEnvelope overfull 3006).records.Agree := by
  obtain ⟨hholding, hfilled⟩ := overfull_filled (le_refl 1000)
  obtain ⟨hfirst, rec, hrecords⟩ := overfull_job (i := 1000) (by omega) hholding
  rw [show 1000 + 1 = 1001 from rfl] at hfirst hrecords
  obtain ⟨-, rec', hrecords'⟩ := overfull_job (i := 1001) (by omega) hfirst
  have hid : ∀ i, 1000 ≤ i →
      jobID oneEnvelope (ackIDOf ownerA i 1) (overfullItem i) = [88] := by
    intro i hi
    rw [show overfullItem i = [88] from if_neg (by omega)]
    rfl
  have hnew : [88] ∉ (storeAt .fifo oneEnvelope overfull (3 * 1000)).records.completed.members := by
    intro hmem
    obtain ⟨j, _, heq⟩ := hfilled.ids _ hmem
    have hlength := congrArg List.length heq
    simp only [ackIDOf, List.length_append, List.length_cons, List.length_nil] at hlength
    have hname : ownerA.name.length = 1 := rfl
    omega
  rw [hid 1000 le_rfl] at hrecords
  rw [hid 1001 (by omega)] at hrecords'
  rw [show 3006 = 3 * (1001 + 1) from rfl, hrecords']
  refine Records.finished_stale (by decide) ?_
  rw [show (overfullFinish 1001).state = .completed from rfl, Records.of, hrecords,
    hfilled.kept (by decide) rfl (by decide) (by decide) hnew,
    SortedSet.members_insert_last hnew fun e he => (hfilled.times e he).2,
    List.drop_left' hfilled.length]
  exact List.mem_singleton_self _

end Redisq.Model
