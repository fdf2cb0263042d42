import Redisq.Model.Format
import Redisq.Model.Wake

/-!
# Pops

The raw pop of `Dequeue`, and the three ack pops: the single one, the lean
one a batch call runs for one item, and the batch one.  The ack pops hand
back what is still pending under their ack IDs before anything else.

Each ack pop is written as the source has it.  `Store.pop` is their common
effect: `popOne_exec`, `popOneLen_exec` and `popBatch_exec` say that the three
scripts compute it, for one ack ID or for those of a batch.
-/

namespace Redisq.Model

/-! ## What the ack pops are given -/

/-- The arguments the ack pops share.  The consumer ID is the owner's name,
or empty if the caller is not a distributed consumer. -/
structure PopArgs where
  owner : Owner
  start : ℕ
  vt : Time
  hbt : Time
  consumer : Bool

/-- The consumer ID argument. -/
def PopArgs.consumerID (a : PopArgs) : Bytes :=
  if a.consumer then a.owner.name else []

/-- `beat()`. -/
def beat (env : Env) (a : PopArgs) : Redis Unit :=
  if 0 < deadline env a.hbt then zadd .heartbeats (deadline env a.hbt) a.owner.name
  else pure ()

/-- `popKeys`: KEYS of the ack pops, with a priority queue's `:prio` after the
idle set. -/
def popKeys (k : Kind) : List Key :=
  [.queue, .nacked, .timeouts, .idle] ++
    (match k with
      | .fifo => []
      | .prio => [.prio]) ++ [.paused, .started, .heartbeats]

/-- `rawKeys`: KEYS of the raw pops. -/
def rawKeys : List Key := [.queue, .paused]

/-- `KEYS[i]`. -/
def keyAt (keys : List Key) (i : ℕ) : Option Key := keys[i - 1]?

/-- `KEYS[#KEYS - i]`. -/
def keyFromEnd (keys : List Key) (i : ℕ) : Option Key := keyAt keys (keys.length - i)

/-! ## The raw pop -/

/-- The reply of a single pop. -/
inductive OneReply
  | item (v : Bytes)
  | empty
  | paused
deriving DecidableEq

/-- `listRawPop`. -/
def listRawPop : Redis OneReply := do
  if ← existsPaused then return .paused
  else
    match ← lpop with
    | none => return .empty
    | some v => return .item v

/-- `zsetRawPop`; Go strips the prefix of what it returns. -/
def zsetRawPop : Redis OneReply := do
  if ← existsPaused then return .paused
  else
    match (← zpopmin 1).head? with
    | none => return .empty
    | some (m, _) => return .item m

/-- `Dequeue`: the item as the caller gets it. -/
def rawPop (k : Kind) : Redis OneReply :=
  match k with
  | .fifo => listRawPop
  | .prio => do
      match ← zsetRawPop with
      | .item m => return .item (itemOf m)
      | reply => return reply

/-! ## The storages' pops -/

/-- `listPopOne`. -/
def listPopOne : Redis (Option Bytes) :=
  lpop

/-- `zsetPopOne`. -/
def zsetPopOne (id : Bytes) : Redis (Option Bytes) := do
  match (← zpopmin 1).head? with
  | none => return none
  | some (m, score) =>
      hset .prio id score
      return some (itemOf m)

/-- One item, popped under `id`. -/
def popOneBody (k : Kind) (id : Bytes) : Redis (Option Bytes) :=
  match k with
  | .fifo => listPopOne
  | .prio => zsetPopOne id

/-- `listAckPop`'s body. -/
def listPop (want : ℕ) : Redis (List Bytes) := do
  let items ← lrange 0 (want - 1)
  if items.length > 0 then ltrim items.length (-1)
  return items

/-- `zsetAckPop`'s body. -/
def zsetPop (want : ℕ) (ids : List Bytes) : Redis (List Bytes) := do
  let r ← zpopmin want
  let items := r.map fun e => itemOf e.1
  if items.length > 0 then hsetAll .prio (ids.zip (r.map fun e => e.2))
  return items

/-- Up to `want` items, popped under the first of `ids`. -/
def popBody (k : Kind) (want : ℕ) (ids : List Bytes) : Redis (List Bytes) :=
  match k with
  | .fifo => listPop want
  | .prio => zsetPop want ids

/-! ## The ack pops -/

/-- A hand-back's deadline: raised to this run's if that is later. -/
def raiseDeadline (dl : Time) (id : Bytes) : Redis Unit := do
  if 0 < dl then
    let d ← zscore .timeouts id
    if d.all fun d => d < dl then zadd .timeouts dl id

/-- `popOneHead`, `pausedOne`, the storage's pop and `popOneTail`, under ack ID
`id`. -/
def popSingle (k : Kind) (env : Env) (a : PopArgs) (id : Bytes) : Redis OneReply := do
  let dl := deadline env a.vt
  match ← hget .nacked id with
  | some held =>
      raiseDeadline dl id
      beat env a
      return .item held
  | none =>
      if ← existsPaused then return .paused
      else
        match ← popOneBody k id with
        | none =>
            if a.consumerID ≠ [] then sadd a.consumerID
            return .empty
        | some v =>
            hset .nacked id v
            if 0 < dl then zadd .timeouts dl id
            hset .started id env.nowms
            beat env a
            return .item v

/-- The script as it is sent, under the ID of the call's first item. -/
def popOne (k : Kind) (env : Env) (a : PopArgs) : Redis OneReply :=
  popSingle k env a (ackIDOf a.owner a.start 1)

/-- The reply of a batch pop: the queue's length and the items, or that the
queue is paused. -/
inductive BatchReply
  | popped (len : ℕ) (items : List Bytes)
  | paused
deriving DecidableEq

/-- `reply(items)`: a consumer left with slots and an empty queue joins the
idle set. -/
def batchReply (k : Kind) (a : PopArgs) (slots : ℕ) (items : List Bytes) :
    Redis BatchReply := do
  let len ← lenCmd k
  if a.consumerID ≠ [] ∧ len = 0 ∧ items.length < slots then sadd a.consumerID
  return .popped len items

/-- `popOneLenHead`, `pausedBatch`, the storage's pop and `popOneLenTail`. -/
def popOneLen (k : Kind) (env : Env) (a : PopArgs) (slots : ℕ) : Redis BatchReply := do
  let id := ackIDOf a.owner a.start 1
  let dl := deadline env a.vt
  match ← hget .nacked id with
  | some held =>
      raiseDeadline dl id
      beat env a
      batchReply k a slots [held]
  | none =>
      if ← existsPaused then return .paused
      else
        match ← popOneBody k id with
        | none => batchReply k a slots []
        | some v =>
            hset .nacked id v
            if 0 < dl then zadd .timeouts dl id
            hset .started id env.nowms
            beat env a
            batchReply k a slots [v]

/-- The hand-back loop: up to the first id that is not held. -/
def handBack (dl : Time) : List (Bytes × Option Bytes) → Redis (List Bytes)
  | (id, some v) :: rest => do
      raiseDeadline dl id
      let items ← handBack dl rest
      return v :: items
  | _ => return []

/-- `popHead`, `pausedBatch`, the storage's pop and `popTail`. -/
def popBatch (k : Kind) (env : Env) (a : PopArgs) (want slots : ℕ) : Redis BatchReply := do
  let ids := ackIDs a.owner a.start want
  let dl := deadline env a.vt
  let held ← hmget .nacked ids
  if held.any fun v => v.isSome then
    let items ← handBack dl (ids.zip held)
    if items.length > 0 then beat env a
    batchReply k a slots items
  else if ← existsPaused then return .paused
  else
    let items ← popBody k want ids
    if items.length > 0 then
      hsetAll .nacked (ids.zip items)
      if 0 < dl then zaddAll .timeouts dl ((ids.zip items).map fun p => p.1)
      hsetAll .started ((ids.zip items).map fun p => (p.1, env.nowms))
      beat env a
    batchReply k a slots items

/-! ## Their common effect -/

/-- The heartbeats after `beat()`. -/
def beaten (env : Env) (a : PopArgs) (heartbeats : ZSet) : ZSet :=
  if 0 < deadline env a.hbt then heartbeats.insert a.owner.name (deadline env a.hbt)
  else heartbeats

/-- The deadlines after a hand-back of `id`. -/
def raised (dl : Time) (timeouts : ZSet) (id : Bytes) : ZSet :=
  if 0 < dl ∧ (timeouts.score id).all (fun d => d < dl) = true then timeouts.insert id dl
  else timeouts

/-- The deadlines after a pop under `ids`. -/
def timed (dl : Time) (ids : List Bytes) (timeouts : ZSet) : ZSet :=
  if 0 < dl then ids.foldl (fun z id => z.insert id dl) timeouts else timeouts

/-- The entries of the leading ids that are held. -/
def Store.leading (s : Store) : List Bytes → List (Bytes × Bytes)
  | [] => []
  | id :: rest =>
      match s.nacked.lookup id with
      | none => []
      | some v => (id, v) :: s.leading rest

/-- The first items of the queue, at most as many as `ids`. -/
def Store.head (k : Kind) (ids : List Bytes) (s : Store) : List Bytes :=
  match k with
  | .fifo => s.list.take ids.length
  | .prio => (s.zset.entries.take ids.length).map fun e => itemOf (SortedSet.member e)

/-- The queue without them, their priorities kept. -/
def Store.beheaded (k : Kind) (ids : List Bytes) (s : Store) : Store :=
  match k with
  | .fifo => { s with list := s.list.drop ids.length }
  | .prio =>
      { s with
        zset := s.zset.dropMin ids.length
        prio := s.prio.insertAll
          (ids.zip ((s.zset.entries.take ids.length).map SortedSet.rank)) }

/-- Entries made pending. -/
def Store.pended (env : Env) (a : PopArgs) (pairs : List (Bytes × Bytes)) (s : Store) : Store :=
  { s with
    nacked := s.nacked.insertAll pairs
    timeouts := timed (deadline env a.vt) (pairs.map fun p => p.1) s.timeouts
    started := s.started.insertAll (pairs.map fun p => (p.1, env.nowms))
    heartbeats := beaten env a s.heartbeats }

/-- The idle rule. -/
def Store.joined (k : Kind) (a : PopArgs) (slots n : ℕ) (s : Store) : Store :=
  { s with
    idle :=
      if a.consumerID ≠ [] ∧ s.len k = 0 ∧ n < slots then insert a.consumerID s.idle
      else s.idle }

/-- A run that finds one of its ids held. -/
def Store.handedBack (k : Kind) (env : Env) (a : PopArgs) (ids : List Bytes) (slots : ℕ)
    (s : Store) : BatchReply × Store :=
  let run := s.leading ids
  let s' := { s with
    timeouts := run.foldl (fun z (p : Bytes × Bytes) => raised (deadline env a.vt) z p.1) s.timeouts
    heartbeats := if run = [] then s.heartbeats else beaten env a s.heartbeats }
  (.popped (s'.len k) (run.map fun p => p.2), s'.joined k a slots run.length)

/-- A run that pops. -/
def Store.poppedFresh (k : Kind) (env : Env) (a : PopArgs) (ids : List Bytes) (slots : ℕ)
    (s : Store) : BatchReply × Store :=
  let items := s.head k ids
  let s' := if items = [] then s else (s.beheaded k ids).pended env a (ids.zip items)
  (.popped (s'.len k) items, s'.joined k a slots items.length)

/-- One of the ids is held. -/
def Store.holds (s : Store) (ids : List Bytes) : Bool :=
  ids.any fun id => (s.nacked.lookup id).isSome

/-- An ack pop under `ids`, by a caller with `slots` free slots. -/
def Store.pop (k : Kind) (env : Env) (a : PopArgs) (ids : List Bytes) (slots : ℕ)
    (s : Store) : BatchReply × Store :=
  if s.holds ids then s.handedBack k env a ids slots
  else if s.paused.isSome then (.paused, s)
  else s.poppedFresh k env a ids slots

/-- What an ack pop changes. -/
theorem Store.pop_eq (k : Kind) (env : Env) (a : PopArgs) (ids : List Bytes) (slots : ℕ)
    (s : Store) :
    ∃ list zset nacked timeouts started prio idle heartbeats,
      (s.pop k env a ids slots).2 =
        { s with
          list := list, zset := zset, nacked := nacked, timeouts := timeouts, started := started
          prio := prio, idle := idle, heartbeats := heartbeats } := by
  unfold Store.pop
  split
  · exact ⟨_, _, _, _, _, _, _, _, rfl⟩
  · split
    · exact ⟨_, _, _, _, _, _, _, _, rfl⟩
    · simp only [Store.poppedFresh]
      split
      · exact ⟨_, _, _, _, _, _, _, _, rfl⟩
      · cases k with
        | fifo => exact ⟨_, _, _, _, _, _, _, _, rfl⟩
        | prio => exact ⟨_, _, _, _, _, _, _, _, rfl⟩

/-- What a single pop's reply is of the batch reply. -/
def BatchReply.one : BatchReply → OneReply
  | .popped _ (v :: _) => .item v
  | .popped _ [] => .empty
  | .paused => .paused

/-! ### The parts of the scripts -/

@[simp] theorem exec_beat (env : Env) (a : PopArgs) (s : Store) :
    (beat env a).exec s = ((), { s with heartbeats := beaten env a s.heartbeats }) := by
  simp only [beat, zadd, ↓Script.exec_ite, exec_write, Script.exec_pure, beaten]
  split <;> rfl

@[simp] theorem exec_raiseDeadline (dl : Time) (id : Bytes) (s : Store) :
    (raiseDeadline dl id).exec s = ((), { s with timeouts := raised dl s.timeouts id }) := by
  by_cases hdl : 0 < dl <;>
    by_cases hlow : (s.timeouts.score id).all (fun d => d < dl) = true <;>
    simp [raiseDeadline, raised, hdl, hlow]
  rfl

@[simp] theorem exec_batchReply (k : Kind) (a : PopArgs) (slots : ℕ) (items : List Bytes)
    (s : Store) :
    (batchReply k a slots items).exec s =
      (.popped (s.len k) items, s.joined k a slots items.length) := by
  simp only [batchReply, Store.joined, sadd, ↓Script.exec_bind, ↓Script.exec_ite, exec_lenCmd,
    Script.exec_command, Script.exec_pure]
  split <;> rfl

/-- The loop reads what was held before it and raises deadlines from `t` on. -/
theorem exec_handBack (dl : Time) (s t : Store) (ids : List Bytes) :
    (handBack dl (ids.zip (ids.map fun id => s.nacked.lookup id))).exec t =
      ((s.leading ids).map fun p => p.2,
        { t with
          timeouts := (s.leading ids).foldl (fun z p => raised dl z p.1) t.timeouts }) := by
  induction ids generalizing t with
  | nil => rfl
  | cons id rest ih =>
      cases h : s.nacked.lookup id with
      | none =>
          simp only [List.map_cons, List.zip_cons_cons, h, handBack, Script.exec_pure,
            Store.leading, List.map_nil, List.foldl_nil]
      | some v =>
          simp only [List.map_cons, List.zip_cons_cons, h, handBack, ↓Script.exec_bind,
            exec_raiseDeadline, ih, Script.exec_pure, Store.leading, List.foldl_cons]

theorem slice_head {α : Type} {want : ℕ} (h : 0 < want) (l : List α) :
    slice l 0 ((want : ℤ) - 1) = l.take want := by
  have hlast : ¬((want : ℤ) - 1 < 0) := by omega
  simp [slice, hlast]

theorem slice_tail {α : Type} (n : ℕ) (l : List α) : slice l n (-1) = l.drop n := by
  have hfirst : ¬((n : ℤ) < 0) := by omega
  simp [slice, hfirst]

theorem drop_length_take {α : Type} (n : ℕ) (l : List α) :
    l.drop (l.take n).length = l.drop n := by
  rcases Nat.le_total n l.length with h | h
  · rw [List.length_take_of_le h]
  · rw [List.take_of_length_le h, List.drop_length, List.drop_of_length_le h]

theorem Store.length_head_le (k : Kind) (ids : List Bytes) (s : Store) :
    (s.head k ids).length ≤ ids.length := by
  cases k <;> simp [Store.head]

/-- An empty head is that of an empty queue. -/
theorem Store.head_eq_nil {k : Kind} {ids : List Bytes} (hids : ids ≠ []) {s : Store} :
    s.head k ids = [] ↔ s.len k = 0 := by
  cases k <;> simp [Store.head, Store.len, hids]

/-- An empty head leaves the queue as it is. -/
theorem Store.beheaded_of_head_nil {k : Kind} {ids : List Bytes} {s : Store}
    (h : s.head k ids = []) : s.beheaded k ids = s := by
  cases k with
  | fifo =>
      have hdrop : s.list.drop ids.length = s.list := by
        conv_rhs => rw [← List.take_append_drop ids.length s.list]
        rw [show s.list.take ids.length = [] from h, List.nil_append]
      simp only [Store.beheaded, hdrop]
  | prio =>
      have htake : s.zset.entries.take ids.length = [] := List.map_eq_nil_iff.mp h
      have hdrop : s.zset.dropMin ids.length = s.zset := by
        refine SortedSet.ext ?_
        conv_rhs => rw [← List.take_append_drop ids.length s.zset.entries]
        rw [htake, List.nil_append]
        rfl
      simp only [Store.beheaded, hdrop, htake, List.map_nil, List.zip_nil_right,
        Finmap.insertAll_nil]

/-- A storage's pop takes the head of the queue. -/
theorem exec_popBody (k : Kind) {ids : List Bytes} (hids : ids ≠ []) (s : Store) :
    (popBody k ids.length ids).exec s = (s.head k ids, s.beheaded k ids) := by
  have hwant : 0 < ids.length := List.length_pos_iff.mpr hids
  cases k with
  | fifo =>
      simp only [popBody, listPop, lrange, ltrim, ↓Script.exec_bind, ↓Script.exec_ite, exec_read,
        exec_write, Script.exec_pure, Ref.list_get, slice_head hwant, slice_tail,
        drop_length_take, gt_iff_lt, List.length_pos_iff]
      split
      · rfl
      · next hnil =>
          have hhead : s.head .fifo ids = [] := not_not.mp hnil
          rw [Store.beheaded_of_head_nil hhead]
          rfl
  | prio =>
      simp only [popBody, zsetPop, zpopmin, hsetAll, ↓Script.exec_bind, ↓Script.exec_ite,
        exec_write, Script.exec_command, Script.exec_pure, List.map_map, gt_iff_lt,
        List.length_pos_iff]
      split
      · rfl
      · next hnil =>
          have htake : s.zset.entries.take ids.length = [] :=
            List.map_eq_nil_iff.mp (not_not.mp hnil)
          simp only [Store.head, Store.beheaded, htake, List.map_nil, List.zip_nil_right,
            Finmap.insertAll_nil]

theorem exec_popOneBody (k : Kind) (id : Bytes) (s : Store) :
    (popOneBody k id).exec s = ((s.head k [id]).head?, s.beheaded k [id]) := by
  cases k with
  | fifo => simp [popOneBody, listPopOne, Store.head, Store.beheaded, List.head?_take]
  | prio =>
      cases h : s.zset.entries with
      | nil => simp [popOneBody, zsetPopOne, Store.head, Store.beheaded, h]
      | cons e rest =>
          simp [popOneBody, zsetPopOne, Store.head, Store.beheaded, h]
          rfl

/-- The entries of one id. -/
theorem Store.leading_one (s : Store) (id : Bytes) :
    s.leading [id] = ((s.nacked.lookup id).map fun v => (id, v)).toList := by
  cases h : s.nacked.lookup id <;> simp [Store.leading, h]

theorem Store.holds_one (s : Store) (id : Bytes) :
    s.holds [id] = (s.nacked.lookup id).isSome := by
  simp [Store.holds]

/-- One item made pending. -/
theorem Store.pended_one (env : Env) (a : PopArgs) (id v : Bytes) (s : Store) :
    s.pended env a [(id, v)] =
      { s with
        nacked := s.nacked.insert id v
        timeouts :=
          if 0 < deadline env a.vt then s.timeouts.insert id (deadline env a.vt)
          else s.timeouts
        started := s.started.insert id env.nowms
        heartbeats := beaten env a s.heartbeats } := rfl

/-! ### The scripts -/

/-- The lean pop of a batch call. -/
theorem popOneLen_exec (k : Kind) (env : Env) (a : PopArgs) (slots : ℕ) (s : Store) :
    (popOneLen k env a slots).exec s = s.pop k env a [ackIDOf a.owner a.start 1] slots := by
  cases held : s.nacked.lookup (ackIDOf a.owner a.start 1) with
  | some v =>
      simp only [popOneLen, hget, ↓Script.exec_bind, exec_read, Ref.nacked_get, held,
        exec_raiseDeadline, exec_beat, exec_batchReply, Store.pop, Store.holds_one,
        Option.isSome_some, if_true, Store.handedBack, Store.leading_one, Option.map_some,
        Option.toList_some]
      rfl
  | none =>
      simp only [popOneLen, hget, ↓Script.exec_bind, exec_read, Ref.nacked_get, held,
        exec_existsPaused, ↓Script.exec_ite, Script.exec_pure, exec_popOneBody, Store.pop,
        Store.holds_one, Option.isSome_none, Bool.false_eq_true, if_false]
      split
      · rfl
      · have hlen := s.length_head_le k [ackIDOf a.owner a.start 1]
        cases hhead : s.head k [ackIDOf a.owner a.start 1] with
        | nil =>
            simp only [List.head?_nil, exec_batchReply, Store.poppedFresh, hhead, if_true,
              Store.beheaded_of_head_nil hhead]
        | cons v rest =>
            obtain rfl : rest = [] := by
              rw [hhead] at hlen
              exact List.length_eq_zero_iff.mp (by simpa using hlen)
            simp only [List.head?_cons, hset, zadd, ↓Script.exec_bind, ↓Script.exec_ite,
              exec_write, exec_beat, exec_batchReply, Store.poppedFresh, hhead, reduceCtorEq,
              if_false, List.zip_cons_cons, List.zip_nil_right, Store.pended_one]
            split <;> rfl

/-- The single pop. -/
theorem popSingle_exec (k : Kind) (env : Env) (a : PopArgs) (id : Bytes) (s : Store) :
    (popSingle k env a id).exec s =
      ((s.pop k env a [id] 1).1.one, (s.pop k env a [id] 1).2) := by
  cases held : s.nacked.lookup id with
  | some v =>
      simp only [popSingle, hget, ↓Script.exec_bind, exec_read, Ref.nacked_get, held,
        exec_raiseDeadline, exec_beat, Script.exec_pure, Store.pop, Store.holds_one,
        Option.isSome_some, if_true, Store.handedBack, Store.leading_one, Option.map_some,
        Option.toList_some]
      simp [BatchReply.one, Store.joined]
  | none =>
      simp only [popSingle, hget, ↓Script.exec_bind, exec_read, Ref.nacked_get, held,
        exec_existsPaused, ↓Script.exec_ite, Script.exec_pure, exec_popOneBody, Store.pop,
        Store.holds_one, Option.isSome_none, Bool.false_eq_true, if_false]
      split
      · rfl
      · have hlen := s.length_head_le k [id]
        cases hhead : s.head k [id] with
        | nil =>
            have hzero : s.len k = 0 := (Store.head_eq_nil (by simp)).mp hhead
            simp only [List.head?_nil, sadd, ↓Script.exec_bind, ↓Script.exec_ite,
              Script.exec_command, Script.exec_pure, Store.poppedFresh, hhead, if_true,
              Store.beheaded_of_head_nil hhead, BatchReply.one, Store.joined, hzero]
            by_cases hconsumer : a.consumerID = [] <;> simp [hconsumer]
        | cons v rest =>
            obtain rfl : rest = [] := by
              rw [hhead] at hlen
              exact List.length_eq_zero_iff.mp (by simpa using hlen)
            simp only [List.head?_cons, hset, zadd, ↓Script.exec_bind, ↓Script.exec_ite,
              exec_write, Script.exec_pure, exec_beat, Store.poppedFresh, hhead, reduceCtorEq,
              if_false, List.zip_cons_cons, List.zip_nil_right, Store.pended_one,
              BatchReply.one, Store.joined]
            split <;> simp

theorem popOne_exec (k : Kind) (env : Env) (a : PopArgs) (s : Store) :
    (popOne k env a).exec s =
      ((s.pop k env a [ackIDOf a.owner a.start 1] 1).1.one,
        (s.pop k env a [ackIDOf a.owner a.start 1] 1).2) :=
  popSingle_exec k env a (ackIDOf a.owner a.start 1) s

/-- The batch pop, of one item or more. -/
theorem popBatch_exec (k : Kind) (env : Env) (a : PopArgs) {want : ℕ} (hwant : 0 < want)
    (slots : ℕ) (s : Store) :
    (popBatch k env a want slots).exec s =
      s.pop k env a (ackIDs a.owner a.start want) slots := by
  have hids : ackIDs a.owner a.start want ≠ [] := by
    rw [Ne, ← List.length_eq_zero_iff, length_ackIDs]
    exact hwant.ne'
  have hpop := exec_popBody k hids
  rw [length_ackIDs] at hpop
  have hheld : (((ackIDs a.owner a.start want).map fun id => s.nacked.lookup id).any
      fun v => v.isSome) = s.holds (ackIDs a.owner a.start want) := by
    rw [List.any_map]
    rfl
  simp only [popBatch, hmget, ↓Script.exec_bind, ↓Script.exec_ite, exec_read, Ref.nacked_get,
    Script.exec_pure, exec_existsPaused, exec_handBack, exec_batchReply, exec_beat, hpop,
    hheld, Store.pop, gt_iff_lt, List.length_pos_iff, ne_eq, List.map_eq_nil_iff]
  split
  · simp only [Store.handedBack]
    by_cases hrun : s.leading (ackIDs a.owner a.start want) = [] <;>
      simp only [hrun, not_true_eq_false, not_false_eq_true, if_true, if_false,
        List.length_map, List.length_nil, List.map_nil]
  · split
    · rfl
    · simp only [Store.poppedFresh]
      by_cases hhead : s.head k (ackIDs a.owner a.start want) = []
      · simp only [hhead, not_true_eq_false, if_false, if_true, Store.beheaded_of_head_nil hhead]
      · simp only [hhead, not_false_eq_true, if_false, if_true, hsetAll, zaddAll, exec_write,
          Store.pended, timed]
        by_cases hdl : 0 < deadline env a.vt
        · simp only [hdl, if_true]
          rfl
        · simp only [hdl, if_false]
          rfl

end Redisq.Model
