import Redisq.Model.Effect

/-!
# Listing jobs

The script behind `Jobs`: one page of a Job State.  Waiting and pending jobs
come as rows built from the queue's keys, finished ones as the records their
finish left.  It changes nothing (`jobsScript_exec`).
-/

namespace Redisq.Model

/-- The Job States. -/
inductive JobList
  | pending
  | processing
  | finished (state : JobState)

/-- A job that is not finished: its Job ID, its item, when it was started (0
if unknown) and its attempts. -/
structure JobRow where
  id : Bytes
  item : Bytes
  started : ℕ
  attempts : ℕ

/-- The script's replies; nil for a record that is gone. -/
inductive JobsReply
  | rows (rows : List JobRow)
  | records (records : List (Option Bytes))

/-! ## The script -/

/-- How often the job of an envelope id went back to the queue. -/
def countOf (id : Bytes) : Redis ℕ :=
  if id ≠ [] then do return (← hget .attempts id).getD 0 else return 0

/-- The row of a waiting item. -/
def pendingRow (cj : Cjson) (v : Bytes) : Redis JobRow := do
  let n ← countOf (envid cj v)
  return ⟨envid cj v, v, 0, n⟩

/-- The row of a pending entry. -/
def processingRow (cj : Cjson) (ack : Bytes) : Redis JobRow := do
  let v := (← hget .nacked ack).getD []
  let n ← countOf (envid cj v)
  let started ← hget .started ack
  return ⟨if envid cj v ≠ [] then envid cj v else ack, v, started.getD 0, n + 1⟩

/-- A row for each. -/
def eachRow (row : Bytes → Redis JobRow) : List Bytes → Redis (List JobRow)
  | [] => return []
  | v :: rest => do
      let r ← row v
      let rs ← eachRow row rest
      return r :: rs

/-- The waiting items from `a` to `b`. -/
def waitingItems (k : Kind) (a b : ℕ) : Redis (List Bytes) :=
  match k with
  | .fifo => lrange a b
  | .prio => do return (← zrange .zset a b).map itemOf

/-- `jobsScript`: the jobs from `a` to `b` of a Job State. -/
def jobsScript (k : Kind) (cj : Cjson) (env : Env) (state : JobList) (a b : ℕ) :
    Redis JobsReply :=
  match state with
  | .finished state => do
      let ids ← zrevrange state.this a b
      if ids = [] then return .records []
      else return .records (← hmget .jobs ids)
  | .pending => do
      let items ← waitingItems k a b
      return .rows (← eachRow (pendingRow cj) items)
  | .processing => do
      let acks := (← hkeys .nacked env).insertionSort (· ≤ ·)
      return .rows (← eachRow (processingRow cj) ((acks.take (b + 1)).drop a))

/-! ## Effect -/

/-- The items of the queue, in the order in which they are handed out. -/
def Store.items (k : Kind) (s : Store) : List Bytes :=
  match k with
  | .fifo => s.list
  | .prio => s.zset.members.map itemOf

/-- The count kept for an item's envelope id. -/
def Store.kept (cj : Cjson) (s : Store) (item : Bytes) : ℕ :=
  if envid cj item ≠ [] then (s.attempts.lookup (envid cj item)).getD 0 else 0

/-- The pending ack IDs, sorted. -/
def Store.acks (env : Env) (s : Store) : List Bytes :=
  (env.hkeys s.nacked.keys).insertionSort (· ≤ ·)

/-- The elements from `a` to `b`. -/
def page {α : Type} (l : List α) (a b : ℕ) : List α :=
  (l.take (b + 1)).drop a

/-- The row of a waiting item whose job went back `n` times. -/
def JobRow.waiting (cj : Cjson) (item : Bytes) (n : ℕ) : JobRow :=
  ⟨envid cj item, item, 0, n⟩

@[simp] theorem page_map {α β : Type} (f : α → β) (l : List α) (a b : ℕ) :
    page (l.map f) a b = (page l a b).map f := by
  rw [page, page, List.map_drop, List.map_take]

theorem page_all {α : Type} (l : List α) : page l 0 l.length = l := by
  rw [page, List.drop_zero, List.take_of_length_le (Nat.le_succ _)]

theorem slice_page {α : Type} (l : List α) (a b : ℕ) : slice l a b = page l a b := by
  have ha : ¬(a : ℤ) < 0 := by omega
  have hb : ¬(b : ℤ) < 0 := by omega
  simp only [slice, page, ha, hb, if_false]
  congr 1

/-- The row of the entry under `ack`, whose job went back `n` times. -/
def JobRow.pending (cj : Cjson) (s : Store) (ack : Bytes) (n : ℕ) : JobRow :=
  ⟨jobID cj ack ((s.nacked.lookup ack).getD []), (s.nacked.lookup ack).getD [],
    (s.started.lookup ack).getD 0, n + 1⟩

theorem exec_countOf (cj : Cjson) (item : Bytes) (s : Store) :
    (countOf (envid cj item)).exec s = (s.kept cj item, s) := by
  by_cases hid : envid cj item = [] <;>
    simp [countOf, Store.kept, hid]

theorem exec_pendingRow (cj : Cjson) (item : Bytes) (s : Store) :
    (pendingRow cj item).exec s = (.waiting cj item (s.kept cj item), s) := by
  simp only [pendingRow, ↓Script.exec_bind, exec_countOf, Script.exec_pure, JobRow.waiting]

theorem exec_processingRow (cj : Cjson) (ack : Bytes) (s : Store) :
    (processingRow cj ack).exec s =
      (.pending cj s ack (s.kept cj ((s.nacked.lookup ack).getD [])), s) := by
  simp only [processingRow, hget, ↓Script.exec_bind, exec_read, exec_countOf, Script.exec_pure,
    JobRow.pending, jobID, Ref.nacked_get]
  rfl

theorem exec_eachRow {row : Bytes → Redis JobRow} {f : Bytes → JobRow} {s : Store}
    (hrow : ∀ v, (row v).exec s = (f v, s)) (l : List Bytes) :
    (eachRow row l).exec s = (l.map f, s) := by
  induction l with
  | nil => rfl
  | cons v rest ih => simp only [eachRow, ↓Script.exec_bind, hrow, ih, Script.exec_pure,
      List.map_cons]

/-- A page of a Job State. -/
def Store.listed (k : Kind) (cj : Cjson) (env : Env) (state : JobList) (a b : ℕ) (s : Store) :
    JobsReply :=
  match state with
  | .finished state =>
      .records ((page (s.records.of state).members.reverse a b).map fun id =>
        s.records.jobs.lookup id)
  | .pending => .rows ((page (s.items k) a b).map fun v => .waiting cj v (s.kept cj v))
  | .processing =>
      .rows ((page (s.acks env) a b).map fun ack =>
        .pending cj s ack (s.kept cj ((s.nacked.lookup ack).getD [])))

theorem jobsScript_exec (k : Kind) (cj : Cjson) (env : Env) (state : JobList) (a b : ℕ)
    (s : Store) : (jobsScript k cj env state a b).exec s = (s.listed k cj env state a b, s) := by
  cases state with
  | finished state =>
      have hget : state.this.get s = s.records.of state := by
        cases state <;> rfl
      simp only [jobsScript, zrevrange, hmget, ↓Script.exec_bind, exec_read, ↓Script.exec_ite,
        Script.exec_pure, hget, slice_page, Store.listed]
      split
      · next hnone => rw [hnone]; rfl
      · rfl
  | pending =>
      have hitems : (waitingItems k a b).exec s = (page (s.items k) a b, s) := by
        cases k with
        | fifo => simp only [waitingItems, lrange, exec_read, slice_page]; rfl
        | prio =>
            simp only [waitingItems, zrange, ↓Script.exec_bind, exec_read, Script.exec_pure,
              slice_page, Store.items, page_map]
            rfl
      simp only [jobsScript, ↓Script.exec_bind, hitems,
        exec_eachRow (fun v => exec_pendingRow cj v s), Script.exec_pure, Store.listed]
  | processing =>
      simp only [jobsScript, hkeys, ↓Script.exec_bind, exec_read, Ref.nacked_get,
        exec_eachRow (fun v => exec_processingRow cj v s), Script.exec_pure, Store.listed]
      rfl

end Redisq.Model
