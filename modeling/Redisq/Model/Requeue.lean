import Redisq.Model.Finish

/-!
# Putting pending items back

The two implementations of a requeue: `move`, which the sweep and the release
use, pushes an item before it drops the entry; the loop of `RequeueNackedItems`
drops the entry first.  With every command succeeding they are the same step,
`Store.moved`, and a whole requeue is that step for each ack ID in turn.
-/

namespace Redisq.Model

/-! ## Bookkeeping -/

/-- `requeued(v, id)`. -/
def requeued (cj : Cjson) (v id : Bytes) : Redis Unit := do
  hdel .started id
  if envid cj v ≠ [] then hincrAttempts (envid cj v)

/-! ## The sweep's and the release's requeue -/

/-- `listRepush`. -/
def listRepush (v : Bytes) : Redis Unit :=
  lpush v

/-- `zsetRepush`: 1 for an item made pending without a priority. -/
def zsetRepush (v id : Bytes) : Redis Unit := do
  let s ← incrSeq
  let p ← hget .prio id
  zaddQueue (p.getD 1) (memberOf s v)
  hdel .prio id

/-- `repush(v, id)`. -/
def repush (k : Kind) (v id : Bytes) : Redis Unit :=
  match k with
  | .fifo => listRepush v
  | .prio => zsetRepush v id

/-- `move(id)`: how many entries it moved. -/
def move (k : Kind) (cj : Cjson) (id : Bytes) : Redis ℕ := do
  match ← hget .nacked id with
  | some v =>
      repush k v id
      hdel .nacked id
      requeued cj v id
      zrem .timeouts id
      return 1
  | none =>
      zrem .timeouts id
      return 0

/-- A requeue step for each ID in turn: how many entries it moved. -/
def requeueAll (one : Bytes → Redis ℕ) : List Bytes → Redis ℕ
  | [] => return 0
  | id :: rest => do
      let n ← one id
      let m ← requeueAll one rest
      return n + m

/-! ## RequeueNackedItems -/

/-- The push of `listRequeue` or `zsetRequeue`. -/
def requeuePush (k : Kind) (v id : Bytes) : Redis Unit :=
  match k with
  | .fifo => lpush v
  | .prio => do
      let s ← incrSeq
      let p ← hget .prio id
      hdel .prio id
      zaddQueue (p.getD 1) (memberOf s v)

/-- One turn of `requeueLoop`. -/
def requeueOne (k : Kind) (cj : Cjson) (id : Bytes) : Redis ℕ := do
  let v ← hget .nacked id
  hdel .nacked id
  zrem .timeouts id
  match v with
  | some v =>
      requeuePush k v id
      requeued cj v id
      return 1
  | none => return 0

/-- The IDs a requeue goes through: those past their deadline, or with no
visibility timeout every pending one. -/
def requeueIDs (env : Env) (vt : Time) : Redis (List Bytes) :=
  if 0 < vt then zrangeByScore .timeouts (fun d => d ≤ env.now) none else hkeys .nacked env

/-- `listRequeue` or `zsetRequeue`. -/
def requeue (k : Kind) (cj : Cjson) (env : Env) (vt : Time) : Redis ℕ := do
  let ids ← requeueIDs env vt
  requeueAll (requeueOne k cj) ids

/-! ## Effect -/

/-- The queue with an item pushed back that was pending under `id`. -/
def Store.repushed (k : Kind) (id v : Bytes) (s : Store) : Store :=
  match k with
  | .fifo =>
      { s with
        list := v :: s.list
        expiry := if s.list.isEmpty then none else s.expiry }
  | .prio =>
      { s with
        seq := s.seq + 1
        zset := s.zset.insert (memberOf (s.seq + 1) v) ((s.prio.lookup id).getD 1)
        prio := s.prio.erase id
        expiry := if s.zset.entries.isEmpty then none else s.expiry }

/-- The attempts of the job in `v`, one more counted. -/
def attempted (cj : Cjson) (v : Bytes) (attempts : Hash ℕ) : Hash ℕ :=
  if envid cj v ≠ [] then
    attempts.insert (envid cj v) ((attempts.lookup (envid cj v)).getD 0 + 1)
  else attempts

/-- The entry of `id` moved back to the queue, and its deadline dropped. -/
def Store.moved (k : Kind) (cj : Cjson) (s : Store) (id : Bytes) : Store :=
  match s.nacked.lookup id with
  | none => { s with timeouts := s.timeouts.erase id }
  | some v =>
      { s.repushed k id v with
        nacked := s.nacked.erase id
        started := s.started.erase id
        attempts := attempted cj v s.attempts
        timeouts := s.timeouts.erase id }

theorem Store.moved_of_none {k : Kind} {cj : Cjson} {s : Store} {id : Bytes}
    (h : s.nacked.lookup id = none) :
    s.moved k cj id = { s with timeouts := s.timeouts.erase id } := by
  simp only [Store.moved, h]

theorem Store.moved_of_some {k : Kind} {cj : Cjson} {s : Store} {id v : Bytes}
    (h : s.nacked.lookup id = some v) :
    s.moved k cj id =
      { s.repushed k id v with
        nacked := s.nacked.erase id
        started := s.started.erase id
        attempts := attempted cj v s.attempts
        timeouts := s.timeouts.erase id } := by
  simp only [Store.moved, h]

/-- The entries a requeue of `ids` moves. -/
def Store.movedCount (k : Kind) (cj : Cjson) : Store → List Bytes → ℕ
  | _, [] => 0
  | s, id :: rest =>
      (if (s.nacked.lookup id).isSome then 1 else 0) + (s.moved k cj id).movedCount k cj rest

theorem exec_requeued (cj : Cjson) (v id : Bytes) (s : Store) :
    (requeued cj v id).exec s =
      ((), { s with
        started := s.started.erase id
        attempts := attempted cj v s.attempts }) := by
  by_cases he : envid cj v = [] <;>
    simp only [requeued, attempted, he, hdel, hincrAttempts, ne_eq, not_true_eq_false,
      not_false_eq_true, if_true, if_false, ↓Script.exec_bind, exec_write, Script.exec_pure] <;>
    rfl

theorem exec_repush (k : Kind) (v id : Bytes) (s : Store) :
    (repush k v id).exec s = ((), s.repushed k id v) := by
  cases k <;> rfl

theorem exec_requeuePush (k : Kind) (v id : Bytes) (s : Store) :
    (requeuePush k v id).exec s = ((), s.repushed k id v) := by
  cases k <;> rfl

theorem exec_move (k : Kind) (cj : Cjson) (id : Bytes) (s : Store) :
    (move k cj id).exec s =
      (if (s.nacked.lookup id).isSome then 1 else 0, s.moved k cj id) := by
  cases h : s.nacked.lookup id with
  | none =>
      simp only [move, hget, zrem, ↓Script.exec_bind, exec_read, exec_write, Ref.nacked_get, h,
        Script.exec_pure, Store.moved]
      rfl
  | some v =>
      simp only [move, hget, hdel, zrem, ↓Script.exec_bind, exec_read, exec_write,
        exec_repush, exec_requeued, Ref.nacked_get, h, Script.exec_pure, Store.moved]
      cases k <;> rfl

theorem exec_requeueOne (k : Kind) (cj : Cjson) (id : Bytes) (s : Store) :
    (requeueOne k cj id).exec s =
      (if (s.nacked.lookup id).isSome then 1 else 0, s.moved k cj id) := by
  cases h : s.nacked.lookup id with
  | none =>
      simp only [requeueOne, hget, hdel, zrem, ↓Script.exec_bind, exec_read, exec_write,
        Ref.nacked_get, h, Script.exec_pure, Store.moved]
      exact Prod.ext rfl (by rw [Finmap.erase_of_lookup_none h]; rfl)
  | some v =>
      simp only [requeueOne, hget, hdel, zrem, ↓Script.exec_bind, exec_read, exec_write,
        exec_requeuePush, exec_requeued, Ref.nacked_get, h, Script.exec_pure, Store.moved]
      cases k <;> rfl

/-- A requeue is its step for each ID in turn. -/
theorem exec_requeueAll (k : Kind) (cj : Cjson) {one : Bytes → Redis ℕ}
    (hone : ∀ id s, (one id).exec s =
      (if (s.nacked.lookup id).isSome then 1 else 0, s.moved k cj id))
    (ids : List Bytes) (s : Store) :
    (requeueAll one ids).exec s = (s.movedCount k cj ids, ids.foldl (Store.moved k cj) s) := by
  induction ids generalizing s with
  | nil => rfl
  | cons id rest ih =>
      simp only [requeueAll, ↓Script.exec_bind, hone, ih, Script.exec_pure, Store.movedCount,
        List.foldl_cons]

/-- A property of the store that a requeue step keeps, a requeue keeps. -/
theorem Store.movedAll_induction {k : Kind} {cj : Cjson} {I : Store → Prop}
    (hstep : ∀ (s : Store) (id : Bytes), I s → I (s.moved k cj id)) (ids : List Bytes) :
    ∀ s : Store, I s → I (ids.foldl (Store.moved k cj) s) := by
  induction ids with
  | nil => exact fun _ h => h
  | cons id rest ih => exact fun s h => ih _ (hstep s id h)

/-- What a requeue step changes. -/
theorem Store.moved_eq (k : Kind) (cj : Cjson) (s : Store) (id : Bytes) :
    ∃ list zset expiry nacked timeouts started attempts prio seq,
      s.moved k cj id =
        { s with
          list := list, zset := zset, expiry := expiry, nacked := nacked, timeouts := timeouts
          started := started, attempts := attempts, prio := prio, seq := seq } := by
  cases h : s.nacked.lookup id with
  | none =>
      rw [Store.moved_of_none h]
      exact ⟨_, _, _, _, _, _, _, _, _, rfl⟩
  | some v =>
      rw [Store.moved_of_some h]
      cases k with
      | fifo => exact ⟨_, _, _, _, _, _, _, _, _, rfl⟩
      | prio => exact ⟨_, _, _, _, _, _, _, _, _, rfl⟩

/-- What a requeue changes. -/
theorem Store.movedAll_eq (k : Kind) (cj : Cjson) (ids : List Bytes) (s : Store) :
    ∃ list zset expiry nacked timeouts started attempts prio seq,
      ids.foldl (Store.moved k cj) s =
        { s with
          list := list, zset := zset, expiry := expiry, nacked := nacked, timeouts := timeouts
          started := started, attempts := attempts, prio := prio, seq := seq } := by
  induction ids generalizing s with
  | nil => exact ⟨_, _, _, _, _, _, _, _, _, rfl⟩
  | cons id rest ih =>
      obtain ⟨_, _, _, _, _, _, _, _, _, hone⟩ := s.moved_eq k cj id
      obtain ⟨_, _, _, _, _, _, _, _, _, hrest⟩ := ih (s.moved k cj id)
      rw [List.foldl_cons, hrest, hone]
      exact ⟨_, _, _, _, _, _, _, _, _, rfl⟩

theorem Store.movedAll_stats (k : Kind) (cj : Cjson) (ids : List Bytes) (s : Store) :
    (ids.foldl (Store.moved k cj) s).stats = s.stats := by
  obtain ⟨_, _, _, _, _, _, _, _, _, h⟩ := s.movedAll_eq k cj ids
  rw [h]

theorem Store.moved_expiry (k : Kind) (cj : Cjson) (s : Store) (id : Bytes)
    (hs : s.expiry = none) : (s.moved k cj id).expiry = none := by
  cases h : s.nacked.lookup id with
  | none => rw [Store.moved_of_none h]; exact hs
  | some v =>
      rw [Store.moved_of_some h]
      cases k <;> simp [Store.repushed, hs]

theorem Store.movedAll_expiry (k : Kind) (cj : Cjson) (ids : List Bytes) (s : Store)
    (hs : s.expiry = none) : (ids.foldl (Store.moved k cj) s).expiry = none :=
  Store.movedAll_induction (fun t id => t.moved_expiry k cj id) ids s hs

/-- The IDs past their deadline, earliest first. -/
def Store.overdue (env : Env) (s : Store) : List Bytes :=
  (s.timeouts.filter fun e => decide (SortedSet.rank e ≤ env.now)).members

/-- What `requeueIDs` replies. -/
def Store.requeueIDs (env : Env) (vt : Time) (s : Store) : List Bytes :=
  if 0 < vt then s.overdue env else env.hkeys s.nacked.keys

theorem requeue_exec (k : Kind) (cj : Cjson) (env : Env) (vt : Time) (s : Store) :
    (requeue k cj env vt).exec s =
      (s.movedCount k cj (s.requeueIDs env vt),
        (s.requeueIDs env vt).foldl (Store.moved k cj) s) := by
  have hids : (requeueIDs env vt).exec s = (s.requeueIDs env vt, s) := by
    rw [requeueIDs, Script.exec_ite, Store.requeueIDs]
    split <;> rfl
  simp only [requeue, ↓Script.exec_bind, hids,
    exec_requeueAll k cj (fun id s => exec_requeueOne k cj id s)]

end Redisq.Model
