import Redisq.Model.Run

/-!
# The idle set and the Job Records after a script

`Invocation.after` says what a script does to every other key.  Here are the
two parts it leaves out: the consumers a script signals and those it leaves in
the idle set, and the Job Records with the sets of their Job States.
-/

namespace Redisq.Model

/-! ## Job Records -/

/-- The records, and the Job IDs of each Job State by finish time. -/
@[ext] structure Records where
  jobs : Hash Bytes
  completed : ZSet
  failed : ZSet

/-- A queue's. -/
def Store.records (s : Store) : Records :=
  ⟨s.jobs, s.completed, s.failed⟩

/-- A queue with others. -/
def Store.withRecords (s : Store) (r : Records) : Store :=
  { s with jobs := r.jobs, completed := r.completed, failed := r.failed }

@[simp] theorem Store.records_withRecords (s : Store) (r : Records) :
    (s.withRecords r).records = r := rfl

/-- The Job State a job is not in. -/
def JobState.opposite : JobState → JobState
  | .completed => .failed
  | .failed => .completed

/-- What a trim of `z` drops. -/
def dropped (z : ZSet) (keep age : ℤ) (now : ℕ) : List Bytes :=
  if keep ≤ 0 ∨ age ≤ 0 then z.members.take 1000
  else
    (z.filter fun e => decide (SortedSet.rank e ≤ now - age)).members.take 1000 ++
      z.members.take (min ((z.entries.length : ℤ) - keep) 1000).toNat

namespace Records

/-- No records. -/
def empty : Records := ⟨∅, ∅, ∅⟩

/-- The set of a Job State. -/
def of (r : Records) : JobState → ZSet
  | .completed => r.completed
  | .failed => r.failed

/-- With another set of a Job State. -/
def set (r : Records) (state : JobState) (z : ZSet) : Records :=
  match state with
  | .completed => { r with completed := z }
  | .failed => { r with failed := z }

@[simp] theorem of_set_self (r : Records) (state : JobState) (z : ZSet) :
    (r.set state z).of state = z := by
  cases state <;> rfl

@[simp] theorem of_set_opposite (r : Records) (state : JobState) (z : ZSet) :
    (r.set state z).of state.opposite = r.of state.opposite := by
  cases state <;> rfl

@[simp] theorem of_set_of_opposite (r : Records) (state : JobState) (z : ZSet) :
    (r.set state.opposite z).of state = r.of state := by
  cases state <;> rfl

@[simp] theorem of_set_opposite_self (r : Records) (state : JobState) (z : ZSet) :
    (r.set state.opposite z).of state.opposite = z := by
  cases state <;> rfl

@[simp] theorem jobs_set (r : Records) (state : JobState) (z : ZSet) :
    (r.set state z).jobs = r.jobs := by
  cases state <;> rfl

@[simp] theorem of_with_jobs (r : Records) (jobs : Hash Bytes) (state : JobState) :
    ({ r with jobs := jobs } : Records).of state = r.of state := by
  cases state <;> rfl

/-- Without some Job IDs of a Job State. -/
def without (r : Records) (state : JobState) (gone : List Bytes) : Records :=
  { r.set state (gone.foldl SortedSet.erase (r.of state)) with
    jobs := gone.foldl (fun h id => h.erase id) r.jobs }

/-- After a trim of one Job State. -/
def trimmed (r : Records) (state : JobState) (keep age : ℤ) (now : ℕ) : Records :=
  r.without state (dropped (r.of state) keep age now)

/-- After a finish wrote `rec` for a job, or dropped what it had, before the
trim. -/
def stored (r : Records) (env : Env) (a : FinishArgs) (id rec : Bytes) : Records :=
  let r := r.set a.state.opposite ((r.of a.state.opposite).erase id)
  if 0 < a.keep ∧ 0 < a.age then
    { r.set a.state ((r.of a.state).insert id env.nowms) with jobs := r.jobs.insert id rec }
  else { r with jobs := r.jobs.erase id }

/-- After a finish. -/
def finished (r : Records) (env : Env) (a : FinishArgs) (id rec : Bytes) : Records :=
  (r.stored env a id rec).trimmed a.state a.keep a.age env.nowms

end Records

/-- The Job ID of an item pending under `ackID`. -/
def jobID (cj : Cjson) (ackID item : Bytes) : Bytes :=
  if envid cj item ≠ [] then envid cj item else ackID

/-- The attempts a finish counts. -/
def Store.attemptsOf (cj : Cjson) (item : Bytes) (s : Store) : ℕ :=
  if envid cj item ≠ [] then 1 + (s.attempts.lookup (envid cj item)).getD 0 else 1

/-- The record a finish builds. -/
def Store.recordOf (cj : Cjson) (env : Env) (a : FinishArgs) (item : Bytes) (s : Store) :
    Bytes :=
  jobRecord cj env a (jobID cj a.ackID item) item (s.started.lookup a.ackID)
    (s.attemptsOf cj item)

/-- The records after a script. -/
def Invocation.recordsAfter (cj : Cjson) (env : Env) (s : Store) : Invocation → Records
  | .finish a =>
      match s.nacked.lookup a.ackID with
      | none => s.records
      | some item => s.records.finished env a (jobID cj a.ackID item) (s.recordOf cj env a item)
  | .trim keepCompleted ageCompleted keepFailed ageFailed =>
      (s.records.trimmed .completed keepCompleted ageCompleted env.nowms).trimmed .failed
        keepFailed ageFailed env.nowms
  | .purge => .empty
  | _ => s.records

theorem exec_trimGone (state : JobState) (keep age : ℤ) (now : ℕ) (s : Store) :
    (trimGone state.this keep age now).exec s =
      (dropped (s.records.of state) keep age now, s) := by
  have hget : state.this.get s = s.records.of state := by
    cases state <;> rfl
  have hall : slice (s.records.of state).members 0 999 = (s.records.of state).members.take 1000 :=
    rfl
  by_cases hnone : keep ≤ 0 ∨ age ≤ 0
  · simp only [trimGone, dropped, hnone, if_true, zrange, exec_read, hget, hall]
  · by_cases hexcess : 0 < ((s.records.of state).entries.length : ℤ) - keep
    · have hlast : ¬min (((s.records.of state).entries.length : ℤ) - keep) 1000 - 1 < 0 := by
        omega
      have hmost : slice (s.records.of state).members 0
          (min (((s.records.of state).entries.length : ℤ) - keep) 1000 - 1) =
          (s.records.of state).members.take
            (min (((s.records.of state).entries.length : ℤ) - keep) 1000).toNat := by
        simp [slice, hlast]
      simp only [trimGone, dropped, hnone, if_false, zrangeByScore, zcard, zrange,
        ↓Script.exec_bind, exec_read, ↓Script.exec_ite, hget, hexcess, if_true,
        Script.exec_pure, hmost]
    · have hzero : (min (((s.records.of state).entries.length : ℤ) - keep) 1000).toNat = 0 := by
        omega
      simp only [trimGone, dropped, hnone, if_false, zrangeByScore, zcard, zrange,
        ↓Script.exec_bind, exec_read, ↓Script.exec_ite, hget, hexcess, if_false,
        Script.exec_pure, hzero, List.take_zero, List.append_nil]

theorem exec_trim (state : JobState) (keep age : ℤ) (now : ℕ) (s : Store) :
    (trim state.this keep age now).exec s =
      ((), s.withRecords (s.records.trimmed state keep age now)) := by
  simp only [trim, ↓Script.exec_bind, exec_trimGone, ↓Script.exec_ite, Script.exec_pure,
    zremAll, hdelAll, exec_write, gt_iff_lt, List.length_pos_iff, Records.trimmed]
  split
  · cases state <;> rfl
  · next hnil =>
      rw [not_not.mp hnil]
      cases state <;> rfl

theorem exec_keepRecord (cj : Cjson) (env : Env) (a : FinishArgs) (id item : Bytes)
    (started : Option ℕ) (attempts : ℕ) (s : Store) :
    (keepRecord cj env a id item started attempts).exec s =
      ((), s.withRecords (s.records.finished env a id
        (jobRecord cj env a id item started attempts))) := by
  obtain ⟨ackID, state, reason, keep, age⟩ := a
  by_cases hkeep : 0 < keep ∧ 0 < age <;> cases state <;>
    simp only [keepRecord, storeRecord, hkeep, zrem, hset, zadd, hdel, ↓Script.exec_bind,
      exec_write, exec_trim, and_self, if_true, if_false, Records.finished, Records.stored] <;>
    rfl

theorem exec_trimScript (env : Env) (keepCompleted ageCompleted keepFailed ageFailed : ℤ)
    (s : Store) :
    (trimScript env keepCompleted ageCompleted keepFailed ageFailed).exec s =
      ((), s.withRecords ((s.records.trimmed .completed keepCompleted ageCompleted
        env.nowms).trimmed .failed keepFailed ageFailed env.nowms)) := by
  have hcompleted := exec_trim .completed keepCompleted ageCompleted env.nowms
  have hfailed := exec_trim .failed keepFailed ageFailed env.nowms
  simp only [JobState.this] at hcompleted hfailed
  simp only [trimScript, ↓Script.exec_bind, hcompleted, hfailed, Store.records_withRecords]
  rfl

/-- What a finish leaves in the records. -/
theorem finishScript_records (cj : Cjson) (env : Env) (a : FinishArgs) (s : Store)
    {item : Bytes} (h : s.nacked.lookup a.ackID = some item) :
    ((finishScript cj env a).exec s).2.records =
      s.records.finished env a (jobID cj a.ackID item) (s.recordOf cj env a item) := by
  simp only [finishScript, hget, hdel, zrem, hincrFinished, ↓Script.exec_bind, exec_read,
    exec_write, exec_takeAttempts, Script.exec_command, Script.exec_pure, Ref.nacked_get, h,
    exec_keepRecord, Store.records_withRecords]
  rfl

theorem Store.movedAll_records (k : Kind) (cj : Cjson) (ids : List Bytes) (s : Store) :
    (ids.foldl (Store.moved k cj) s).records = s.records := by
  obtain ⟨_, _, _, _, _, _, _, _, _, h⟩ := s.movedAll_eq k cj ids
  rw [h]
  rfl

/-- A script's reply is made of what it computes at the end, and changes no
key. -/
theorem exec_reply {α : Type} (x : Redis α) (f : α → Reply) (s : Store) :
    ((do return f (← x) : Redis Reply).exec s).2 = (x.exec s).2 := by
  simp only [↓Script.exec_bind, Script.exec_pure]

theorem OnlyIdle.records {α : Type} {x : Redis α} (h : OnlyIdle x) (s : Store) :
    (x.exec s).2.records = s.records := by
  obtain ⟨idle, heq⟩ := h s
  rw [heq]
  rfl

theorem push_records (k : Kind) (env : Env) (a : PushArgs) (s : Store) :
    ((push k env a).exec s).2.records = s.records := by
  cases h : s.remembers env a with
  | true => rw [push_exec_repeat k env a s h]
  | false =>
      rw [push_exec k env a s h]
      cases k <;> rfl

theorem Store.pop_records (k : Kind) (env : Env) (a : PopArgs) (ids : List Bytes) (slots : ℕ)
    (s : Store) : (s.pop k env a ids slots).2.records = s.records := by
  obtain ⟨_, _, _, _, _, _, _, _, h⟩ := s.pop_eq k env a ids slots
  rw [h]
  rfl

/-- Every script leaves the records that `recordsAfter` says. -/
theorem script_records (k : Kind) (cj : Cjson) (env : Env) (inv : Invocation) (s : Store) :
    ((inv.script k cj env).exec s).2.records = inv.recordsAfter cj env s := by
  cases inv with
  | push a =>
      rw [Invocation.script, exec_reply]
      exact push_records k env a s
  | rawPop =>
      rw [Invocation.script, exec_reply, rawPop_exec]
      unfold Store.rawPopped
      split
      · rfl
      · cases k <;> rfl
  | pop p =>
      rw [Invocation.script, popCall_exec]
      exact s.pop_records k env p.args p.ids p.slots
  | prepareAck id item vt =>
      simp only [Invocation.script, ↓Script.exec_bind, Script.exec_pure, prepareAck_exec]
      rfl
  | finish a =>
      rw [Invocation.script, exec_reply]
      cases h : s.nacked.lookup a.ackID with
      | none => simp only [finishScript_exec_absent cj env a s h, Invocation.recordsAfter, h]
      | some item => simp only [finishScript_records cj env a s h, Invocation.recordsAfter, h]
  | requeue vt =>
      rw [Invocation.script, exec_reply, requeue_exec]
      exact Store.movedAll_records k cj _ s
  | sweep owner hbt =>
      rw [Invocation.script, exec_reply, sweep_exec, Store.swept_eq]
      exact Store.movedAll_records k cj _ s
  | release owner =>
      rw [Invocation.script, exec_reply, release_exec]
      exact Store.movedAll_records k cj _ s
  | remove item =>
      rw [Invocation.script, exec_reply, remove_exec]
      cases k with
      | fifo => rfl
      | prio =>
          unfold Store.removed
          simp only
          split <;> rfl
  | purge => rfl
  | trim kc ac kf af =>
      simp only [Invocation.script, ↓Script.exec_bind, Script.exec_pure, exec_trimScript]
      rfl
  | lenIdle consumer =>
      rw [Invocation.script, exec_reply]
      exact (lenIdle_onlyIdle k consumer).records s
  | nudge consumer idle =>
      rw [Invocation.script, exec_reply]
      exact (nudge_onlyIdle k consumer idle).records s
  | wakeIdle count => rfl
  | markIdle consumer => rfl
  | leave consumer => rfl
  | pause => rfl
  | resume =>
      simp only [Invocation.script, ↓Script.exec_bind, Script.exec_pure]
      obtain ⟨idle, heq⟩ := resumeScript_exec k env s
      rw [heq]
      rfl

/-- An expired queue key takes no record with it. -/
@[simp] theorem Store.evicted_records (env : Env) (s : Store) :
    (s.evicted env).records = s.records := by
  obtain ⟨_, _, _, h⟩ := s.evicted_eq env
  rw [h]
  rfl

/-- The records after a moment of a run. -/
theorem storeAt_records {k : Kind} {cj : Cjson} {u : ℕ → Option ScriptRun} {n : ℕ}
    {r : ScriptRun} (hr : u n = some r) :
    (storeAt k cj u (n + 1)).records =
      r.inv.recordsAfter cj r.env ((storeAt k cj u n).evicted r.env) := by
  rw [storeAt_succ, hr]
  exact script_records k cj r.env r.inv _

/-! ## The idle set -/

/-- A script that signals nobody. -/
def quiet (idle : Finset Bytes) : List Bytes × Finset Bytes :=
  ([], idle)

/-- The consumers a script signals, and the idle set it leaves. -/
def Invocation.idleAfter (k : Kind) (env : Env) (s : Store) :
    Invocation → List Bytes × Finset Bytes
  | .push a =>
      if s.remembers env a = false ∧ a.wake = true then s.woken env ((s.pushed k env a).len k)
      else quiet s.idle
  | .pop p => quiet (p.effect k env s).2.idle
  | .lenIdle consumer =>
      quiet (if s.len k = 0 ∧ consumer ≠ [] then insert consumer s.idle else s.idle)
  | .nudge consumer idle =>
      quiet (if 0 < s.len k then s.idle.erase consumer
        else if idle then insert consumer s.idle else s.idle)
  | .wakeIdle count => s.woken env count
  | .markIdle consumer => quiet (insert consumer s.idle)
  | .leave consumer => quiet (s.idle.erase consumer)
  | .resume => if s.paused.isSome then s.woken env (s.len k) else quiet s.idle
  | _ => quiet s.idle

/-- A pop whose reply shows the queue empty and slots left. -/
def BatchReply.short (slots : ℕ) : BatchReply → Bool
  | .popped size items => decide (size = 0 ∧ items.length < slots)
  | .paused => false

/-- A consumer's short pop joins the set. -/
theorem PopCall.effect_idle (k : Kind) (env : Env) (p : PopCall) (s : Store) :
    (p.effect k env s).2.idle =
      if p.args.consumerID ≠ [] ∧ (p.effect k env s).1.short p.slots = true then
        insert p.args.consumerID s.idle
      else s.idle := by
  unfold PopCall.effect Store.pop
  split
  · simp only [Store.handedBack, Store.joined, BatchReply.short, decide_eq_true_eq,
      List.length_map]
  · split
    · simp [BatchReply.short]
    · have hidle : (if s.head k p.ids = [] then s
          else (s.beheaded k p.ids).pended env p.args (p.ids.zip (s.head k p.ids))).idle =
            s.idle := by
        split
        · rfl
        · cases k <;> rfl
      simp only [Store.poppedFresh, Store.joined, BatchReply.short, decide_eq_true_eq, hidle]

theorem push_idle (k : Kind) (env : Env) (a : PushArgs) (s : Store) :
    ((push k env a).exec s).2.idle = ((Invocation.push a).idleAfter k env s).2 := by
  cases hrem : s.remembers env a with
  | true =>
      rw [push_exec_repeat k env a s hrem]
      simp [Invocation.idleAfter, quiet, hrem]
  | false =>
      rw [push_exec k env a s hrem]
      simp only [Invocation.idleAfter, hrem, true_and, Store.idlePushed]
      split <;> rfl

theorem Store.movedAll_idle (k : Kind) (cj : Cjson) (ids : List Bytes) (s : Store) :
    (ids.foldl (Store.moved k cj) s).idle = s.idle := by
  obtain ⟨_, _, _, _, _, _, _, _, _, h⟩ := s.movedAll_eq k cj ids
  rw [h]

/-- Every script leaves the idle set that `idleAfter` says. -/
theorem script_idle (k : Kind) (cj : Cjson) (env : Env) (inv : Invocation) (s : Store) :
    ((inv.script k cj env).exec s).2.idle = (inv.idleAfter k env s).2 := by
  cases inv with
  | push a =>
      rw [Invocation.script, exec_reply]
      exact push_idle k env a s
  | rawPop =>
      rw [Invocation.script, exec_reply, rawPop_exec]
      unfold Store.rawPopped
      split
      · rfl
      · cases k <;> rfl
  | pop p => rw [Invocation.script, popCall_exec]; rfl
  | prepareAck id item vt =>
      simp only [Invocation.script, ↓Script.exec_bind, Script.exec_pure, prepareAck_exec]
      rfl
  | finish a =>
      rw [Invocation.script, exec_reply]
      cases h : s.nacked.lookup a.ackID with
      | none => rw [finishScript_exec_absent cj env a s h]; rfl
      | some item =>
          obtain ⟨jobs, completed, failed, hexec⟩ := finishScript_exec cj env a s h
          rw [hexec]
          rfl
  | requeue vt =>
      rw [Invocation.script, exec_reply, requeue_exec]
      exact Store.movedAll_idle k cj _ s
  | sweep owner hbt =>
      rw [Invocation.script, exec_reply, sweep_exec, Store.swept_eq]
      exact Store.movedAll_idle k cj _ s
  | release owner =>
      rw [Invocation.script, exec_reply, release_exec]
      exact Store.movedAll_idle k cj _ s
  | remove item =>
      rw [Invocation.script, exec_reply, remove_exec]
      unfold Store.removed
      cases k with
      | fifo => rfl
      | prio =>
          simp only
          split <;> rfl
  | purge => rfl
  | trim kc ac kf af =>
      simp only [Invocation.script, ↓Script.exec_bind, Script.exec_pure, exec_trimScript]
      rfl
  | lenIdle consumer =>
      rw [Invocation.script, exec_reply]
      simp only [lenIdle, sadd, ↓Script.exec_bind, ↓Script.exec_ite, Script.exec_pure,
        Script.exec_command, exec_lenCmd, Invocation.idleAfter, quiet]
      split <;> rfl
  | nudge consumer idle =>
      rw [Invocation.script, exec_reply]
      simp only [nudge, sadd, srem, ↓Script.exec_bind, ↓Script.exec_ite, Script.exec_pure,
        Script.exec_command, exec_lenCmd, Invocation.idleAfter, quiet]
      split
      · rfl
      · split <;> rfl
  | wakeIdle count => rfl
  | markIdle consumer => rfl
  | leave consumer => rfl
  | pause => rfl
  | resume =>
      simp only [Invocation.script, resumeScript, delPaused, wake, ↓Script.exec_bind,
        Script.exec_command, ↓Script.exec_ite, Script.exec_pure, exec_lenCmd,
        Invocation.idleAfter]
      split <;> rfl

end Redisq.Model
