import Redisq.Model.Effect
import Redisq.Model.Jobs

/-!
# What the scripts unpack

How many values each `unpack` of a script passes to its command, in order,
from the parts of the script that make its lists.  A script with none, or one
that returns before it, has no entry.
-/

namespace Redisq.Model

/-- `unpack(ids)` of `popHead`; `unpack(p)`, `unpack(h)`, `unpack(z)` and again
`unpack(h)`, with two values an item, of the pop itself. -/
def popUnpacks (k : Kind) (env : Env) (a : PopArgs) (want : ℕ) (s : Store) : List ℕ :=
  let ids := ackIDs a.owner a.start want
  let held := ((hmget .nacked ids).exec s).1
  ids.length ::
    if held.any fun v => v.isSome then []
    else if s.paused.isSome then []
    else
      let items := ((popBody k want ids).exec s).1
      if items.length > 0 then
        (match k with
          | .fifo => []
          | .prio => [2 * items.length]) ++
        [2 * items.length] ++
        (if 0 < deadline env a.vt then [2 * items.length] else []) ++
        [2 * items.length]
      else []

/-- `unpack(gone)` of `trim`, twice. -/
def trimUnpacks (state : JobState) (keep age : ℤ) (now : ℕ) (s : Store) : List ℕ :=
  let gone := ((trimGone state.this keep age now).exec s).1
  if gone.length > 0 then [gone.length, gone.length] else []

/-- The trim of a finish comes behind its own record. -/
def finishUnpacks (cj : Cjson) (env : Env) (a : FinishArgs) (s : Store) : List ℕ :=
  match s.nacked.lookup a.ackID with
  | none => []
  | some item =>
      trimUnpacks a.state a.keep a.age env.nowms
        (s.withRecords (s.records.stored env a (jobID cj a.ackID item) (s.recordOf cj env a item)))

/-- `unpack(chans)` of `tickBody`: a channel for each live owner it counts. -/
def sweepUnpacks (k : Kind) (cj : Cjson) (env : Env) (owner : Bytes) (hbt : Time) (s : Store) :
    List ℕ :=
  let ((last, _), s) := (sweepSelf env owner hbt).exec s
  let overdue := ((zrangeByScore .timeouts (fun d => d ≤ env.now) none).exec s).1
  let s := ((requeueAll (move k cj) overdue).exec s).2
  if last.isSome ∧ ticked env last then
    let live := ((zrangeByScore .heartbeats (fun h => env.now ≤ h) (some 1000)).exec s).1
    if live.length > 0 then [live.length] else []
  else []

/-- Those of an invocation. -/
def Invocation.unpacks (k : Kind) (cj : Cjson) (env : Env) (s : Store) : Invocation → List ℕ
  | .pop ⟨a, .batch want _⟩ => popUnpacks k env a want s
  | .finish a => finishUnpacks cj env a s
  | .trim keepCompleted ageCompleted keepFailed ageFailed =>
      trimUnpacks .completed keepCompleted ageCompleted env.nowms s ++
        trimUnpacks .failed keepFailed ageFailed env.nowms
          ((Model.trim JobState.completed.this keepCompleted ageCompleted env.nowms).exec s).2
  | .sweep owner hbt => sweepUnpacks k cj env owner.name hbt s
  | _ => []

/-- And of a script run. -/
def ScriptRun.unpacks (k : Kind) (cj : Cjson) (s : Store) (r : ScriptRun) : List ℕ :=
  r.inv.unpacks k cj r.env (s.evicted r.env)

/-- `unpack(ids)` of `jobsScript`, in a call of `Jobs`. -/
def jobsUnpacks (index : ℤ → Option ℤ) (state : JobList) (offset limit : ℤ) (s : Store) :
    List ℕ :=
  if limit ≤ 0 then []
  else
    match state with
    | .finished state =>
        match index (luaInt (max 0 offset)),
          index (luaInt (int64 (max 0 offset + limit - 1))) with
        | some a, some b =>
            let ids := ((zrevrange state.this a b).exec s).1
            if ids = [] then [] else [ids.length]
        | _, _ => []
    | _ => []

end Redisq.Model
