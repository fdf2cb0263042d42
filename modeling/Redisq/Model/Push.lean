import Redisq.Model.Format
import Redisq.Model.Wake

/-!
# Pushes

The four push bodies, and `once`, which wraps each of them for `EnqueueOnce`.
A body's `expiration` is ARGV[2], its priority (`prio` only) ARGV[3]; the
wake channel prefix and, under `once`, the id's key and the window follow.
-/

namespace Redisq.Model

/-- `listPushBody`. -/
def listPushBody (env : Env) (item : Bytes) (expiration : ℤ) : Redis ℕ := do
  let _ ← rpush item
  if 0 < expiration then pexpire env expiration
  hincrSubmitted
  return 1

/-- `listPushWakeBody`: one consumer per waiting item is woken. -/
def listPushWakeBody (env : Env) (item : Bytes) (expiration : ℤ) : Redis ℕ := do
  let n ← rpush item
  if 0 < expiration then pexpire env expiration
  hincrSubmitted
  let woken ← wake env n
  return woken.length

/-- `zsetPushBody`. -/
def zsetPushBody (env : Env) (item : Bytes) (expiration priority : ℤ) : Redis ℕ := do
  let s ← incrSeq
  zaddQueue priority (memberOf s item)
  if 0 < expiration then pexpire env expiration
  hincrSubmitted
  return s

/-- `zsetPushWakeBody`. -/
def zsetPushWakeBody (env : Env) (item : Bytes) (expiration priority : ℤ) : Redis ℕ := do
  let s ← incrSeq
  zaddQueue priority (memberOf s item)
  if 0 < expiration then pexpire env expiration
  hincrSubmitted
  let woken ← wake env (← lenCmd .prio)
  return woken.length

/-- `once(body)`: `none`, the script's 0, for a repeat.  The id's key is set
after the push. -/
def once (env : Env) (id : Bytes) (window : ℕ) (body : Redis ℕ) : Redis (Option ℕ) := do
  if ← existsDedup env id then return none
  else
    let r ← body
    setDedup env id window
    return some r

/-- The arguments of a push: `wake` in a distributed queue's, and `id` with
the window in ms in `EnqueueOnce`'s. -/
structure PushArgs where
  item : Bytes
  expiration : ℤ
  priority : ℤ
  wake : Bool
  id : Option (Bytes × ℕ)

/-- The window in ms that `enqueueOnceWith` sends. -/
def windowMs (dedupWindow : Duration) : ℕ :=
  (max 1 (dedupWindow / 1000000)).toNat

/-- `EnqueueOnce`'s arguments: `Enqueue`'s if there is no id or no window. -/
def PushArgs.enqueueOnce (a : PushArgs) (id : Bytes) (dedupWindow : Duration) : PushArgs :=
  if id = [] ∨ dedupWindow ≤ 0 then { a with id := none }
  else { a with id := some (id, windowMs dedupWindow) }

/-- The body a queue type pushes with. -/
def pushBody (k : Kind) (env : Env) (a : PushArgs) : Redis ℕ :=
  match k, a.wake with
  | .fifo, false => listPushBody env a.item a.expiration
  | .fifo, true => listPushWakeBody env a.item a.expiration
  | .prio, false => zsetPushBody env a.item a.expiration a.priority
  | .prio, true => zsetPushWakeBody env a.item a.expiration a.priority

/-- `Enqueue`'s script, or `EnqueueOnce`'s. -/
def push (k : Kind) (env : Env) (a : PushArgs) : Redis (Option ℕ) :=
  match a.id with
  | none => do return some (← pushBody k env a)
  | some (id, window) => once env id window (pushBody k env a)

/-! ## Effect -/

/-- The queue, its sequence and the count after a push of `a`. -/
def Store.pushed (k : Kind) (env : Env) (a : PushArgs) (s : Store) : Store :=
  let expiry (empty : Bool) : Option ℕ :=
    if 0 < a.expiration then some (env.nowms + a.expiration).toNat
    else if empty then none else s.expiry
  let stats := { s.stats with submitted := s.stats.submitted + 1 }
  match k with
  | .fifo =>
      { s with
        list := s.list ++ [a.item]
        expiry := expiry s.list.isEmpty
        stats := stats }
  | .prio =>
      { s with
        seq := s.seq + 1
        zset := s.zset.insert (memberOf (s.seq + 1) a.item) a.priority
        expiry := expiry s.zset.entries.isEmpty
        stats := stats }

/-- A push of this id is remembered. -/
def Store.remembers (env : Env) (a : PushArgs) (s : Store) : Bool :=
  match a.id with
  | none => false
  | some (id, _) => (s.dedup.lookup id).any fun expiry => env.nowms ≤ expiry

/-- The ids remembered after a push of `a`. -/
def PushArgs.remember (env : Env) (a : PushArgs) (dedup : Hash ℕ) : Hash ℕ :=
  match a.id with
  | none => dedup
  | some (id, window) => dedup.insert id (env.nowms + window)

/-- The idle set after a push that stores its item. -/
def Store.idlePushed (k : Kind) (env : Env) (a : PushArgs) (s : Store) : Finset Bytes :=
  if a.wake then (s.woken env ((s.pushed k env a).len k)).2 else s.idle

/-- A body pushes, and wakes if it is a distributed queue's: then it replies
how many consumers it signalled. -/
theorem pushBody_exec (k : Kind) (env : Env) (a : PushArgs) (s : Store) :
    ((pushBody k env a).exec s).2 = { s.pushed k env a with idle := s.idlePushed k env a } ∧
      (a.wake = true → ((pushBody k env a).exec s).1 =
        (s.woken env ((s.pushed k env a).len k)).1.length) := by
  cases k <;> cases hw : a.wake <;>
    simp only [pushBody, hw, listPushBody, listPushWakeBody, zsetPushBody, zsetPushWakeBody,
      ↓Script.exec_bind, ↓Script.exec_ite, Script.exec_pure, Script.exec_command, rpush, incrSeq,
      zaddQueue, pexpire, hincrSubmitted, wake, Store.pushed, exec_lenCmd, Store.idlePushed,
      Store.woken, Store.len, List.length_append, List.length_cons, List.length_nil] <;>
    by_cases he : 0 < a.expiration <;>
    simp [he]

theorem PushArgs.id_enqueueOnce (a : PushArgs) {id : Bytes} (hid : id ≠ []) {d : Duration}
    (hd : 0 < d) : (a.enqueueOnce id d).id = some (id, windowMs d) := by
  rw [PushArgs.enqueueOnce, if_neg (not_or.mpr ⟨hid, not_le.mpr hd⟩)]

/-- A push of a remembered id does nothing. -/
theorem push_exec_repeat (k : Kind) (env : Env) (a : PushArgs) (s : Store)
    (h : s.remembers env a = true) : (push k env a).exec s = (none, s) := by
  cases hid : a.id with
  | none => simp [Store.remembers, hid] at h
  | some p =>
      simp only [Store.remembers, hid] at h
      simp only [push, hid, once, existsDedup, ↓Script.exec_bind, Script.exec_command,
        ↓Script.exec_ite, h, if_true, Script.exec_pure]

/-- Any other push stores its item, and remembers its id. -/
theorem push_exec (k : Kind) (env : Env) (a : PushArgs) (s : Store)
    (h : s.remembers env a = false) :
    (push k env a).exec s =
      (some ((pushBody k env a).exec s).1,
        { s.pushed k env a with
          idle := s.idlePushed k env a, dedup := a.remember env s.dedup }) := by
  have hbody := (pushBody_exec k env a s).1
  cases hid : a.id with
  | none =>
      simp only [push, hid, ↓Script.exec_bind, Script.exec_pure, hbody, PushArgs.remember]
      cases k <;> rfl
  | some p =>
      simp only [Store.remembers, hid] at h
      simp only [push, hid, once, existsDedup, setDedup, ↓Script.exec_bind,
        Script.exec_command, ↓Script.exec_ite, h, Bool.false_eq_true, if_false,
        Script.exec_pure, hbody, PushArgs.remember]
      cases k <;> rfl

end Redisq.Model
