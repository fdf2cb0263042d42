import Redisq.Model.Pop
import Redisq.Model.Push
import Redisq.Model.Sweep

/-!
# Script runs

Every way in which an object changes a queue's keys, as one type: a script or
a command with its arguments.  go-redis may send it several times, and each
copy may run at any later time, so a run of the system is simply a sequence
of script runs in which any invocation may occur anywhere, with any clock.

`Invocation.after` is what an invocation does to the keys, up to the idle set
and the Job Records (`script_exec`).
-/

namespace Redisq.Model

/-! ## Removing and purging -/

/-- `zsetRemove`: the first member that is the item, or holds it. -/
def zsetRemove (item : Bytes) : Redis ℕ := do
  let ms ← zrange .zset 0 (-1)
  match ms.find? fun m => m = item ∨ (17 ≤ m.length ∧ m.head? = some 255 ∧ m.drop 17 = item) with
  | some m =>
      zrem .zset m
      return 1
  | none => return 0

/-- `Remove`. -/
def remove (k : Kind) (item : Bytes) : Redis ℕ :=
  match k with
  | .fifo => lrem item
  | .prio => zsetRemove item

/-- The queue without the first item equal to `item`. -/
def Store.removed (k : Kind) (item : Bytes) (s : Store) : Store :=
  match k with
  | .fifo => { s with list := s.list.erase item }
  | .prio =>
      match s.zset.members.find? fun m =>
          m = item ∨ (17 ≤ m.length ∧ m.head? = some 255 ∧ m.drop 17 = item) with
      | some m => { s with zset := s.zset.erase m }
      | none => s

/-- The store after `Purge`. -/
def Store.purged (k : Kind) (s : Store) : Store :=
  { s with
    list := []
    zset := ∅
    expiry := none
    nacked := ∅
    timeouts := ∅
    started := ∅
    attempts := ∅
    prio := if k = .prio then ∅ else s.prio
    seq := if k = .prio then 0 else s.seq
    jobs := ∅
    completed := ∅
    failed := ∅
    stats := ⟨0, 0, 0⟩ }

/-- `Purge`: one DEL of the queue's keys. -/
def purge (k : Kind) : Redis Unit :=
  .command ⟨.del, .queue⟩ fun s => ((), s.purged k)

/-! ## Pop calls -/

/-- The ack pop scripts. -/
inductive PopScript
  | one
  | oneLen (slots : ℕ)
  | batch (want : ℕ+) (slots : ℕ)

/-- An ack pop script with its arguments. -/
structure PopCall where
  args : PopArgs
  script : PopScript

/-- How many items it is after. -/
def PopCall.want (p : PopCall) : ℕ :=
  match p.script with
  | .one => 1
  | .oneLen _ => 1
  | .batch want _ => want

/-- The caller's free slots. -/
def PopCall.slots (p : PopCall) : ℕ :=
  match p.script with
  | .one => 1
  | .oneLen slots => slots
  | .batch _ slots => slots

/-- Its ack IDs. -/
def PopCall.ids (p : PopCall) : List Bytes :=
  ackIDs p.args.owner p.args.start p.want

/-! ## Invocations -/

/-- A script or command with its arguments. -/
inductive Invocation
  | push (a : PushArgs)
  | rawPop
  | pop (p : PopCall)
  | prepareAck (id item : Bytes) (vt : Time)
  | finish (a : FinishArgs)
  | requeue (vt : Time)
  | sweep (owner : Owner) (hbt : Time)
  | release (owner : Owner)
  | remove (item : Bytes)
  | purge
  | trim (keepCompleted ageCompleted keepFailed ageFailed : ℤ)
  | lenIdle (consumer : Bytes)
  | nudge (consumer : Bytes) (idle : Bool)
  | wakeIdle (count : ℕ)
  | markIdle (consumer : Bytes)
  | leave (consumer : Bytes)
  | pause
  | resume

/-- Replies. -/
inductive Reply
  | pushed (r : Option ℕ)
  | one (r : OneReply)
  | batch (r : BatchReply)
  | found (r : Bool)
  | moved (n : ℕ)
  | swept (r : SweepReply)
  | count (n : ℕ)
  | done
deriving DecidableEq

/-- The ack pop scripts' replies. -/
def PopCall.run (k : Kind) (env : Env) (p : PopCall) : Redis Reply :=
  match p.script with
  | .one => do return .one (← popOne k env p.args)
  | .oneLen slots => do return .batch (← popOneLen k env p.args slots)
  | .batch want slots => do return .batch (← popBatch k env p.args want slots)

/-- The script an invocation runs. -/
def Invocation.script (k : Kind) (cj : Cjson) (env : Env) : Invocation → Redis Reply
  | .push a => do return .pushed (← Model.push k env a)
  | .rawPop => do return .one (← Model.rawPop k)
  | .pop p => p.run k env
  | .prepareAck id item vt => do Model.prepareAck env id item vt; return .done
  | .finish a => do return .found (← finishScript cj env a)
  | .requeue vt => do return .moved (← Model.requeue k cj env vt)
  | .sweep owner hbt => do return .swept (← Model.sweep k cj env owner.name hbt)
  | .release owner => do return .moved (← Model.release k cj env owner.name)
  | .remove item => do return .count (← Model.remove k item)
  | .purge => do Model.purge k; return .done
  | .trim kc ac kf af => do trimScript env kc ac kf af; return .done
  | .lenIdle consumer => do return .count (← Model.lenIdle k consumer)
  | .nudge consumer idle => do return .count (← Model.nudge k consumer idle)
  | .wakeIdle count => do return .count (← wake env count).length
  | .markIdle consumer => do sadd consumer; return .done
  | .leave consumer => do srem consumer; return .done
  | .pause => do return .found (← pauseScript env)
  | .resume => do return .found (← resumeScript k env).isSome

/-! ## Effect -/

/-- The store after a raw pop. -/
def Store.rawPopped (k : Kind) (s : Store) : Store :=
  if s.paused.isSome then s
  else
    match k with
    | .fifo => { s with list := s.list.tail }
    | .prio => { s with zset := s.zset.dropMin 1 }

/-- The store after a push. -/
def Store.afterPush (k : Kind) (env : Env) (a : PushArgs) (s : Store) : Store :=
  if s.remembers env a then s
  else { s.pushed k env a with dedup := a.remember env s.dedup }

/-- The store after a finish. -/
def Store.afterFinish (cj : Cjson) (a : FinishArgs) (s : Store) : Store :=
  match s.nacked.lookup a.ackID with
  | none => s
  | some item => s.finished cj a item

/-- An entry made pending by hand. -/
def Store.prepared (env : Env) (id item : Bytes) (vt : Time) (s : Store) : Store :=
  { s with
    nacked := s.nacked.insert id item
    timeouts :=
      if 0 < deadline env vt then s.timeouts.insert id (deadline env vt) else s.timeouts
    started := s.started.insert id env.nowms }

/-- What an ack pop does, with its reply. -/
def PopCall.effect (k : Kind) (env : Env) (p : PopCall) (s : Store) : BatchReply × Store :=
  s.pop k env p.args p.ids p.slots

/-- What an invocation does. -/
def Invocation.after (k : Kind) (cj : Cjson) (env : Env) (s : Store) : Invocation → Store
  | .push a => s.afterPush k env a
  | .rawPop => s.rawPopped k
  | .pop p => (p.effect k env s).2
  | .prepareAck id item vt => s.prepared env id item vt
  | .finish a => s.afterFinish cj a
  | .requeue vt => (s.requeueIDs env vt).foldl (Store.moved k cj) s
  | .sweep owner hbt => s.swept k cj env owner.name hbt
  | .release owner => s.released k cj env owner.name
  | .remove item => s.removed k item
  | .purge => s.purged k
  | .pause => { s with paused := some (s.paused.getD env.nowms) }
  | .resume => { s with paused := none }
  | _ => s

/-- The idle set and the Job Records aside, two stores are the same. -/
def Store.SameBut (s t : Store) : Prop :=
  ∃ idle jobs completed failed,
    t = { s with idle := idle, jobs := jobs, completed := completed, failed := failed }

theorem Store.SameBut.refl (s : Store) : s.SameBut s :=
  ⟨s.idle, s.jobs, s.completed, s.failed, rfl⟩

theorem Store.SameBut.of_idle {s t : Store} (h : ∃ idle, t = { s with idle := idle }) :
    s.SameBut t := by
  obtain ⟨idle, rfl⟩ := h
  exact ⟨idle, s.jobs, s.completed, s.failed, rfl⟩

theorem popCall_exec (k : Kind) (env : Env) (p : PopCall) (s : Store) :
    (p.run k env).exec s =
      (match p.script with
        | .one => .one (p.effect k env s).1.one
        | _ => .batch (p.effect k env s).1, (p.effect k env s).2) := by
  obtain ⟨args, script⟩ := p
  cases script with
  | one =>
      simp only [PopCall.run, ↓Script.exec_bind, popOne_exec, Script.exec_pure]
      rfl
  | oneLen slots =>
      simp only [PopCall.run, ↓Script.exec_bind, popOneLen_exec, Script.exec_pure]
      rfl
  | batch want slots =>
      simp only [PopCall.run, ↓Script.exec_bind, popBatch_exec k env args want.pos,
        Script.exec_pure]
      rfl

theorem remove_exec (k : Kind) (item : Bytes) (s : Store) :
    ((remove k item).exec s).2 = s.removed k item := by
  cases k with
  | fifo => rfl
  | prio =>
      have hall : slice s.zset.members 0 (-1) = s.zset.members := by simp [slice]
      simp only [remove, zsetRemove, zrange, zrem, ↓Script.exec_bind, exec_read, Ref.zset_get,
        hall, Store.removed]
      split <;> rfl

theorem rawPop_exec (k : Kind) (s : Store) : ((rawPop k).exec s).2 = s.rawPopped k := by
  by_cases hpaused : s.paused.isSome = true
  · cases k <;>
      simp only [rawPop, listRawPop, zsetRawPop, ↓Script.exec_bind, ↓Script.exec_ite,
        exec_existsPaused, Script.exec_pure, Store.rawPopped, hpaused, if_true]
  · cases k with
    | fifo =>
        cases hlist : s.list <;>
          simp [rawPop, listRawPop, lpop, Store.rawPopped, hpaused, hlist]
    | prio =>
        cases hzset : s.zset.entries <;>
          simp [rawPop, zsetRawPop, zpopmin, Store.rawPopped, hpaused, hzset]

/-- Every script does what `after` says. -/
theorem script_exec (k : Kind) (cj : Cjson) (env : Env) (inv : Invocation) (s : Store) :
    (inv.after k cj env s).SameBut ((inv.script k cj env).exec s).2 := by
  have only : ∀ {α : Type} {x : Redis α} (f : α → Reply), OnlyIdle x →
      s.SameBut ((do return f (← x) : Redis Reply).exec s).2 := fun f hx => by
    simp only [↓Script.exec_bind, Script.exec_pure]
    exact .of_idle (hx s)
  cases inv with
  | push a =>
      simp only [Invocation.script, Invocation.after, ↓Script.exec_bind, Script.exec_pure,
        Store.afterPush]
      split
      · next h => rw [push_exec_repeat k env a s h]; exact .refl s
      · next h =>
          rw [push_exec k env a s (by simpa using h)]
          exact .of_idle ⟨_, rfl⟩
  | rawPop =>
      simp only [Invocation.script, Invocation.after, ↓Script.exec_bind, Script.exec_pure,
        rawPop_exec]
      exact .refl _
  | pop p =>
      rw [Invocation.script, popCall_exec]
      exact .refl _
  | prepareAck id item vt =>
      simp only [Invocation.script, ↓Script.exec_bind, Script.exec_pure, prepareAck_exec]
      exact .refl _
  | finish a =>
      simp only [Invocation.script, Invocation.after, ↓Script.exec_bind, Script.exec_pure,
        Store.afterFinish]
      split
      · next h => rw [finishScript_exec_absent cj env a s h]; exact .refl s
      · next item h =>
          obtain ⟨jobs, completed, failed, hexec⟩ := finishScript_exec cj env a s h
          rw [hexec]
          exact ⟨_, jobs, completed, failed, rfl⟩
  | requeue vt =>
      simp only [Invocation.script, ↓Script.exec_bind, Script.exec_pure, requeue_exec]
      exact .refl _
  | sweep owner hbt =>
      simp only [Invocation.script, ↓Script.exec_bind, Script.exec_pure, sweep_exec]
      exact .refl _
  | release owner =>
      simp only [Invocation.script, ↓Script.exec_bind, Script.exec_pure, release_exec]
      exact .refl _
  | remove item =>
      simp only [Invocation.script, ↓Script.exec_bind, Script.exec_pure, remove_exec]
      exact .refl _
  | purge => exact .refl _
  | trim kc ac kf af =>
      obtain ⟨jobs, completed, failed, hexec⟩ := trimScript_onlyRecords env kc ac kf af s
      simp only [Invocation.script, ↓Script.exec_bind, Script.exec_pure, hexec]
      exact ⟨s.idle, jobs, completed, failed, rfl⟩
  | lenIdle consumer => exact only _ (lenIdle_onlyIdle k consumer)
  | nudge consumer idle => exact only _ (nudge_onlyIdle k consumer idle)
  | wakeIdle count => exact .of_idle ⟨_, rfl⟩
  | markIdle consumer => exact .of_idle ⟨_, rfl⟩
  | leave consumer => exact .of_idle ⟨_, rfl⟩
  | pause => exact .refl _
  | resume =>
      simp only [Invocation.script, ↓Script.exec_bind, Script.exec_pure]
      exact .of_idle (resumeScript_exec k env s)

end Redisq.Model
