import Redisq.Model.Format
import Redisq.Model.Command

/-!
# Finishing a job

`PrepareForFutureAck`'s script, the one script of `Acknowledge` and `Reject`,
and the trims of the Job Records.  A finish that finds nothing under its ack
ID changes nothing; any other takes the entry out, counts the job and keeps
its record as retention allows.
-/

namespace Redisq.Model

/-! ## Making an item pending by hand -/

/-- `prepareAck`. -/
def prepareAck (env : Env) (id item : Bytes) (vt : Time) : Redis Unit := do
  hset .nacked id item
  let dl := deadline env vt
  if 0 < dl then zadd .timeouts dl id
  hset .started id env.nowms

/-! ## Envelopes and records -/

/-- `envid(v)`: empty unless `v` is a JSON object with a string id. -/
def envid (cj : Cjson) (v : Bytes) : Bytes :=
  match cj.decode v with
  | some (.table (some id)) => id
  | _ => []

/-- Lua's `%s`. -/
def isSpace (b : Byte) : Bool :=
  b = 32 ∨ (9 ≤ b ∧ b ≤ 13)

/-- Lua's `%d`. -/
def isDigit (b : Byte) : Bool :=
  48 ≤ b ∧ b ≤ 57

/-- `[%d.eE+-]`. -/
def inNumber (b : Byte) : Bool :=
  isDigit b ∨ b ∈ text ".eE+-"

/-- `^%s*-?%d[%d.eE+-]*%s*$`: its parts share no byte, so the match never
backtracks. -/
def looksNumeric (v : Bytes) : Bool :=
  let v := v.dropWhile isSpace
  let v := if v.head? = some 45 then v.tail else v
  match v with
  | [] => false
  | b :: rest => isDigit b && (rest.dropWhile inNumber).all isSpace

/-- The arguments of a finish: the retention that applies is that of its
state, its age in ms. -/
structure FinishArgs where
  ackID : Bytes
  state : JobState
  reason : Bytes
  keep : ℤ
  age : ℤ

/-- ARGV[2]. -/
def JobState.name : JobState → Bytes
  | .completed => text "completed"
  | .failed => text "failed"

/-- The Job State's own set. -/
def JobState.this : JobState → Ref ZSet
  | .completed => .completed
  | .failed => .failed

/-- The other Job State's set. -/
def JobState.other : JobState → Ref ZSet
  | .completed => .failed
  | .failed => .completed

/-- The Job Record: the raw item between texts built around it. -/
def jobRecord (cj : Cjson) (env : Env) (a : FinishArgs) (id item : Bytes)
    (started : Option ℕ) (attempts : ℕ) : Bytes :=
  let bare :=
    match cj.decode item with
    | none => true
    | some .number => !looksNumeric item
    | some _ => false
  let item := if bare then cj.encode item else item
  let now := decimal 1 env.nowms
  text "\x7b\"id\":" ++ cj.encode id ++ text ",\"state\":\"" ++ a.state.name ++
    text "\",\"item\":" ++ item ++
    (match started with
      | some started => text ",\"started_at\":" ++ decimal 1 started
      | none => []) ++
    text ",\"finished_at\":" ++ now ++ text ",\"attempts\":" ++ decimal 1 attempts ++
    (if a.state = .failed then
      text ",\"errors\":[\x7b\"attempt\":" ++ decimal 1 attempts ++ text ",\"at\":" ++ now ++
        text ",\"error\":" ++ cj.encode a.reason ++ text "\x7d]"
    else []) ++
    text "\x7d"

/-! ## Trims -/

/-- What a trim drops: everything if nothing is kept, else what is too old and
what is too many, at most 1000 of each. -/
def trimGone (z : Ref ZSet) (keep age : ℤ) (now : ℕ) : Redis (List Bytes) :=
  if keep ≤ 0 ∨ age ≤ 0 then zrange z 0 999
  else do
    let old ← zrangeByScore z (fun t => t ≤ now - age) (some 1000)
    let card ← zcard z
    let excess := (card : ℤ) - keep
    if 0 < excess then
      let most ← zrange z 0 (min excess 1000 - 1)
      return old ++ most
    else return old

/-- `trim(z, jobs, keep, age, now)`. -/
def trim (z : Ref ZSet) (keep age : ℤ) (now : ℕ) : Redis Unit := do
  let gone ← trimGone z keep age now
  if gone.length > 0 then
    zremAll z gone
    hdelAll .jobs gone

/-- `trimScript`. -/
def trimScript (env : Env) (keepCompleted ageCompleted keepFailed ageFailed : ℤ) :
    Redis Unit := do
  trim .completed keepCompleted ageCompleted env.nowms
  trim .failed keepFailed ageFailed env.nowms

/-! ## Finishes -/

/-- The job's attempts, and no longer counted, if it has an envelope id. -/
def takeAttempts (e : Bytes) : Redis ℕ :=
  if e ≠ [] then do
    let n ← hget .attempts e
    hdel .attempts e
    return 1 + n.getD 0
  else return 1

/-- The job's record, kept or dropped. -/
def storeRecord (cj : Cjson) (env : Env) (a : FinishArgs) (id item : Bytes)
    (started : Option ℕ) (attempts : ℕ) : Redis Unit :=
  if 0 < a.keep ∧ 0 < a.age then do
    hset .jobs id (jobRecord cj env a id item started attempts)
    zadd a.state.this env.nowms id
  else hdel .jobs id

/-- What a finish does to the Job Records. -/
def keepRecord (cj : Cjson) (env : Env) (a : FinishArgs) (id item : Bytes)
    (started : Option ℕ) (attempts : ℕ) : Redis Unit := do
  zrem a.state.other id
  storeRecord cj env a id item started attempts
  trim a.state.this a.keep a.age env.nowms

/-- `finishScript`: whether it found the entry. -/
def finishScript (cj : Cjson) (env : Env) (a : FinishArgs) : Redis Bool := do
  match ← hget .nacked a.ackID with
  | none => return false
  | some item =>
      let started ← hget .started a.ackID
      hdel .nacked a.ackID
      zrem .timeouts a.ackID
      hdel .started a.ackID
      hdel .prio a.ackID
      let e := envid cj item
      let attempts ← takeAttempts e
      hincrFinished a.state
      keepRecord cj env a (if e ≠ [] then e else a.ackID) item started attempts
      return true

/-! ## Effect -/

/-- A script that changes Job Records at most. -/
def OnlyRecords {α : Type} (x : Redis α) : Prop :=
  ∀ s, ∃ jobs completed failed,
    (x.exec s).2 = { s with jobs := jobs, completed := completed, failed := failed }

theorem OnlyRecords.pure {α : Type} (a : α) : OnlyRecords (pure a : Redis α) :=
  fun s => ⟨s.jobs, s.completed, s.failed, rfl⟩

theorem OnlyRecords.bind {α β : Type} {x : Redis α} {f : α → Redis β} (hx : OnlyRecords x)
    (hf : ∀ a, OnlyRecords (f a)) : OnlyRecords (x >>= f) := by
  intro s
  obtain ⟨jobs, completed, failed, hfirst⟩ := hx s
  obtain ⟨jobs', completed', failed', hsecond⟩ := hf (x.exec s).1 (x.exec s).2
  refine ⟨jobs', completed', failed', ?_⟩
  rw [Script.exec_bind, hsecond, hfirst]

theorem OnlyRecords.ite {α : Type} {p : Prop} [Decidable p] {x y : Redis α}
    (hx : OnlyRecords x) (hy : OnlyRecords y) : OnlyRecords (if p then x else y) := by
  split
  · exact hx
  · exact hy

theorem OnlyRecords.read {α β : Type} (r : Ref α) (cmd : Cmd) (f : α → β) :
    OnlyRecords (r.read cmd f) :=
  fun s => ⟨s.jobs, s.completed, s.failed, rfl⟩

theorem OnlyRecords.write_jobs (cmd : Cmd) (f : Hash Bytes → Hash Bytes) :
    OnlyRecords (Ref.jobs.write cmd f) :=
  fun s => ⟨_, s.completed, s.failed, rfl⟩

theorem OnlyRecords.write_this (state : JobState) (cmd : Cmd) (f : ZSet → ZSet) :
    OnlyRecords (state.this.write cmd f) := by
  cases state
  · exact fun s => ⟨s.jobs, _, s.failed, rfl⟩
  · exact fun s => ⟨s.jobs, s.completed, _, rfl⟩

theorem OnlyRecords.write_other (state : JobState) (cmd : Cmd) (f : ZSet → ZSet) :
    OnlyRecords (state.other.write cmd f) := by
  cases state
  · exact fun s => ⟨s.jobs, s.completed, _, rfl⟩
  · exact fun s => ⟨s.jobs, _, s.failed, rfl⟩

theorem trimGone_onlyRecords (z : Ref ZSet) (keep age : ℤ) (now : ℕ) :
    OnlyRecords (trimGone z keep age now) := by
  refine .ite (.read _ _ _) (.bind (.read _ _ _) fun old => .bind (.read _ _ _) fun card => ?_)
  exact .ite (.bind (.read _ _ _) fun _ => .pure _) (.pure _)

theorem trim_onlyRecords (state : JobState) (keep age : ℤ) (now : ℕ) :
    OnlyRecords (trim state.this keep age now) :=
  .bind (trimGone_onlyRecords _ _ _ _) fun _ =>
    .ite (.bind (.write_this _ _ _) fun _ => .write_jobs _ _) (.pure _)

theorem trimScript_onlyRecords (env : Env) (keepCompleted ageCompleted keepFailed
    ageFailed : ℤ) :
    OnlyRecords (trimScript env keepCompleted ageCompleted keepFailed ageFailed) :=
  .bind (trim_onlyRecords .completed _ _ _) fun _ => trim_onlyRecords .failed _ _ _

theorem keepRecord_onlyRecords (cj : Cjson) (env : Env) (a : FinishArgs) (id item : Bytes)
    (started : Option ℕ) (attempts : ℕ) :
    OnlyRecords (keepRecord cj env a id item started attempts) :=
  .bind (.write_other _ _ _) fun _ =>
    .bind (.ite (.bind (.write_jobs _ _) fun _ => .write_this _ _ _) (.write_jobs _ _))
      fun _ => trim_onlyRecords _ _ _ _

theorem exec_takeAttempts (e : Bytes) (s : Store) :
    (takeAttempts e).exec s =
      (if e ≠ [] then 1 + (s.attempts.lookup e).getD 0 else 1,
        { s with attempts := if e ≠ [] then s.attempts.erase e else s.attempts }) := by
  by_cases he : e = []
  · simp only [takeAttempts, he, ne_eq, not_true_eq_false, if_false, Script.exec_pure]
  · simp only [takeAttempts, he, ne_eq, not_false_eq_true, if_true, hget, hdel,
      ↓Script.exec_bind, exec_read, exec_write, Script.exec_pure]
    rfl

/-- The store without the entry `a` finishes, its job counted. -/
def Store.finished (cj : Cjson) (a : FinishArgs) (item : Bytes) (s : Store) : Store :=
  { s with
    nacked := s.nacked.erase a.ackID
    timeouts := s.timeouts.erase a.ackID
    started := s.started.erase a.ackID
    prio := s.prio.erase a.ackID
    attempts :=
      if envid cj item ≠ [] then s.attempts.erase (envid cj item) else s.attempts
    stats := s.stats.count a.state }

theorem prepareAck_exec (env : Env) (id item : Bytes) (vt : Time) (s : Store) :
    (prepareAck env id item vt).exec s =
      ((), { s with
        nacked := s.nacked.insert id item
        timeouts :=
          if 0 < deadline env vt then s.timeouts.insert id (deadline env vt) else s.timeouts
        started := s.started.insert id env.nowms }) := by
  by_cases hdl : 0 < deadline env vt <;>
    simp only [prepareAck, hset, zadd, hdl, if_true, if_false, ↓Script.exec_bind, exec_write] <;>
    rfl

/-- A finish of an ID that is not pending does nothing. -/
theorem finishScript_exec_absent (cj : Cjson) (env : Env) (a : FinishArgs) (s : Store)
    (h : s.nacked.lookup a.ackID = none) :
    (finishScript cj env a).exec s = (false, s) := by
  simp only [finishScript, hget, ↓Script.exec_bind, exec_read, Ref.nacked_get, h,
    Script.exec_pure]

/-- A finish of a pending ID takes the entry out. -/
theorem finishScript_exec (cj : Cjson) (env : Env) (a : FinishArgs) (s : Store) {item : Bytes}
    (h : s.nacked.lookup a.ackID = some item) :
    ∃ jobs completed failed, (finishScript cj env a).exec s =
      (true, { s.finished cj a item with
        jobs := jobs, completed := completed, failed := failed }) := by
  obtain ⟨jobs, completed, failed, hrecord⟩ := keepRecord_onlyRecords cj env a
    (if envid cj item ≠ [] then envid cj item else a.ackID) item (s.started.lookup a.ackID)
    (if envid cj item ≠ [] then 1 + (s.attempts.lookup (envid cj item)).getD 0 else 1)
    (s.finished cj a item)
  refine ⟨jobs, completed, failed, ?_⟩
  simp only [finishScript, hget, hdel, zrem, hincrFinished, ↓Script.exec_bind, exec_read,
    exec_write, exec_takeAttempts, Script.exec_command, Script.exec_pure, Ref.nacked_get, h]
  exact Prod.ext rfl hrecord

end Redisq.Model
