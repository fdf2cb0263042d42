import Redisq.Model.Store

/-!
# The Redis commands the scripts use

Each command is one node of a script, labelled with its name and key.  `read`
and `write` run a command on one key; the commands proper are those two
applied to what Redis documents.  Where Redis counts from the end of a list
or set, `slice` does too.
-/

namespace Redisq.Model

/-- Command names. -/
inductive Cmd
  | del
  | exists
  | get
  | hdel
  | hget
  | hincrby
  | hkeys
  | hmget
  | hset
  | incr
  | llen
  | lpop
  | lpush
  | lrange
  | lrem
  | ltrim
  | pexpire
  | rpush
  | sadd
  | set
  | spop
  | srem
  | zadd
  | zcard
  | zincrby
  | zpopmin
  | zrange
  | zrangebyscore
  | zrem
  | zrevrange
  | zscore
deriving DecidableEq

/-- What a script node is: a command on a key. -/
structure Op where
  cmd : Cmd
  key : Key
deriving DecidableEq

/-- Scripts over a queue's keys. -/
abbrev Redis := Script Op Store

/-- A command that reads its key. -/
def Ref.read {α β : Type} (r : Ref α) (cmd : Cmd) (f : α → β) : Redis β :=
  .command ⟨cmd, r.key⟩ fun s => (f (r.get s), s)

/-- A command that writes its key. -/
def Ref.write {α : Type} (r : Ref α) (cmd : Cmd) (f : α → α) : Redis Unit :=
  .command ⟨cmd, r.key⟩ fun s => ((), r.set (f (r.get s)) s)

@[simp] theorem exec_read {α β : Type} (r : Ref α) (cmd : Cmd) (f : α → β) (s : Store) :
    (r.read cmd f).exec s = (f (r.get s), s) := rfl

@[simp] theorem exec_write {α : Type} (r : Ref α) (cmd : Cmd) (f : α → α) (s : Store) :
    (r.write cmd f).exec s = ((), r.set (f (r.get s)) s) := rfl

/-- Writes of one key, one after the other. -/
theorem exec_each_write {α ι : Type} (r : Ref α) (cmd : Cmd) (f : ι → α → α) (l : List ι)
    (s : Store) :
    (Script.each l fun i => r.write cmd (f i)).exec s =
      ((), r.set (l.foldl (fun v i => f i v) (r.get s)) s) := by
  induction l generalizing s with
  | nil => rw [Script.each, Script.exec_pure, List.foldl_nil, r.set_get]
  | cons i rest ih =>
      rw [Script.each, Script.exec_bind, ih, exec_write, r.get_set, r.set_set, List.foldl_cons]

/-- The elements from `start` to `stop`, both included, as Redis counts:
from 0, or from the end when negative. -/
def slice {α : Type} (l : List α) (start stop : ℤ) : List α :=
  let first := if start < 0 then max 0 (l.length + start) else start
  let last := if stop < 0 then l.length + stop else stop
  (l.take (last + 1).toNat).drop first.toNat

/-! ## Hashes -/

section Hashes

variable {α : Type} (r : Ref (Hash α))

@[simp] def hget (field : Bytes) : Redis (Option α) :=
  r.read .hget fun h => h.lookup field

@[simp] def hmget (fields : List Bytes) : Redis (List (Option α)) :=
  r.read .hmget fun h => fields.map fun field => h.lookup field

@[simp] def hkeys (env : Env) : Redis (List Bytes) :=
  r.read .hkeys fun h => env.hkeys h.keys

@[simp] def hset (field : Bytes) (value : α) : Redis Unit :=
  r.write .hset fun h => h.insert field value

@[simp] def hsetAll (pairs : List (Bytes × α)) : Redis Unit :=
  r.write .hset fun h => h.insertAll pairs

@[simp] def hdel (field : Bytes) : Redis Unit :=
  r.write .hdel fun h => h.erase field

@[simp] def hdelAll (fields : List Bytes) : Redis Unit :=
  r.write .hdel fun h => fields.foldl (fun h field => h.erase field) h

end Hashes

/-- HINCRBY of an `:attempts` field by one. -/
@[simp] def hincrAttempts (field : Bytes) : Redis Unit :=
  Ref.attempts.write .hincrby fun h => h.insert field ((h.lookup field).getD 0 + 1)

/-- HINCRBY of `:stats`' `submitted` by one. -/
@[simp] def hincrSubmitted : Redis Unit :=
  .command ⟨.hincrby, .stats⟩ fun s =>
    ((), { s with stats := { s.stats with submitted := s.stats.submitted + 1 } })

/-- HINCRBY of a Job State's field of `:stats` by one. -/
@[simp] def hincrFinished (state : JobState) : Redis Unit :=
  .command ⟨.hincrby, .stats⟩ fun s => ((), { s with stats := s.stats.count state })

/-! ## Sorted sets -/

section SortedSets

variable (r : Ref ZSet)

@[simp] def zscore (m : Bytes) : Redis (Option ℤ) :=
  r.read .zscore fun z => z.score m

@[simp] def zcard : Redis ℕ :=
  r.read .zcard fun z => z.entries.length

@[simp] def zrange (start stop : ℤ) : Redis (List Bytes) :=
  r.read .zrange fun z => slice z.members start stop

@[simp] def zrevrange (start stop : ℤ) : Redis (List Bytes) :=
  r.read .zrevrange fun z => slice z.members.reverse start stop

/-- ZRANGEBYSCORE of the scores `p` accepts, at most `limit` members. -/
@[simp] def zrangeByScore (p : ℤ → Bool) (limit : Option ℕ) : Redis (List Bytes) :=
  r.read .zrangebyscore fun z =>
    let found := (z.filter fun e => p (SortedSet.rank e)).members
    match limit with
    | none => found
    | some n => found.take n

@[simp] def zadd (score : ℤ) (m : Bytes) : Redis Unit :=
  r.write .zadd fun z => z.insert m score

/-- ZADD XX: only a member already there. -/
@[simp] def zaddXX (score : ℤ) (m : Bytes) : Redis Unit :=
  r.write .zadd fun z => if (z.score m).isSome then z.insert m score else z

/-- ZADD of several members at one score. -/
@[simp] def zaddAll (score : ℤ) (ms : List Bytes) : Redis Unit :=
  r.write .zadd fun z => ms.foldl (fun z m => z.insert m score) z

@[simp] def zincrby (delta : ℤ) (m : Bytes) : Redis Unit :=
  r.write .zincrby fun z => z.insert m ((z.score m).getD 0 + delta)

@[simp] def zrem (m : Bytes) : Redis Unit :=
  r.write .zrem fun z => z.erase m

@[simp] def zremAll (ms : List Bytes) : Redis Unit :=
  r.write .zrem fun z => ms.foldl (fun z m => z.erase m) z

end SortedSets

/-! ## The queue key

A queue key that is written anew has no expiry, whatever an earlier key of
that name had. -/

@[simp] def rpush (item : Bytes) : Redis ℕ :=
  .command ⟨.rpush, .queue⟩ fun s =>
    (s.list.length + 1,
      { s with
        list := s.list ++ [item]
        expiry := if s.list.isEmpty then none else s.expiry })

@[simp] def lpush (item : Bytes) : Redis Unit :=
  .command ⟨.lpush, .queue⟩ fun s =>
    ((),
      { s with
        list := item :: s.list
        expiry := if s.list.isEmpty then none else s.expiry })

@[simp] def lpop : Redis (Option Bytes) :=
  .command ⟨.lpop, .queue⟩ fun s => (s.list.head?, { s with list := s.list.tail })

@[simp] def lrange (start stop : ℤ) : Redis (List Bytes) :=
  Ref.list.read .lrange fun l => slice l start stop

@[simp] def ltrim (start stop : ℤ) : Redis Unit :=
  Ref.list.write .ltrim fun l => slice l start stop

/-- LREM of the first element equal to `item`. -/
@[simp] def lrem (item : Bytes) : Redis ℕ :=
  .command ⟨.lrem, .queue⟩ fun s =>
    (if item ∈ s.list then 1 else 0, { s with list := s.list.erase item })

/-- ZADD of a member to the queue. -/
@[simp] def zaddQueue (score : ℤ) (m : Bytes) : Redis Unit :=
  .command ⟨.zadd, .queue⟩ fun s =>
    ((),
      { s with
        zset := s.zset.insert m score
        expiry := if s.zset.entries.isEmpty then none else s.expiry })

/-- ZPOPMIN of at most `count` members: each with its score. -/
@[simp] def zpopmin (count : ℕ) : Redis (List (Bytes × ℤ)) :=
  .command ⟨.zpopmin, .queue⟩ fun s =>
    ((s.zset.entries.take count).map fun e => (SortedSet.member e, SortedSet.rank e),
      { s with zset := s.zset.dropMin count })

/-- The length of the queue. -/
def Store.len (k : Kind) (s : Store) : ℕ :=
  match k with
  | .fifo => s.list.length
  | .prio => s.zset.entries.length

/-- The queue's length command: LLEN or ZCARD. -/
def lenCmd (k : Kind) : Redis ℕ :=
  match k with
  | .fifo => Ref.list.read .llen List.length
  | .prio => zcard Ref.zset

@[simp] theorem exec_lenCmd (k : Kind) (s : Store) : (lenCmd k).exec s = (s.len k, s) := by
  cases k <;> rfl

@[simp] def pexpire (env : Env) (ms : ℤ) : Redis Unit :=
  .command ⟨.pexpire, .queue⟩ fun s => ((), { s with expiry := some (env.nowms + ms).toNat })

/-! ## Other keys -/

@[simp] def incrSeq : Redis ℕ :=
  .command ⟨.incr, .seq⟩ fun s => (s.seq + 1, { s with seq := s.seq + 1 })

@[simp] def getClock : Redis (Option Time) :=
  .command ⟨.get, .clock⟩ fun s => (s.clock, s)

@[simp] def setClock (now : Time) : Redis Unit :=
  .command ⟨.set, .clock⟩ fun s => ((), { s with clock := some now })

@[simp] def existsPaused : Redis Bool :=
  .command ⟨.exists, .paused⟩ fun s => (s.paused.isSome, s)

@[simp] theorem exec_existsPaused (s : Store) :
    existsPaused.exec s = (s.paused.isSome, s) := rfl

/-- SET NX of `:paused`; whether it was set. -/
@[simp] def setPausedNX (ms : ℕ) : Redis Bool :=
  .command ⟨.set, .paused⟩ fun s =>
    (s.paused.isNone, { s with paused := some (s.paused.getD ms) })

/-- DEL of `:paused`; whether it was there. -/
@[simp] def delPaused : Redis Bool :=
  .command ⟨.del, .paused⟩ fun s => (s.paused.isSome, { s with paused := none })

/-- EXISTS of an id's key.  A key is gone once the clock is past its expiry. -/
@[simp] def existsDedup (env : Env) (id : Bytes) : Redis Bool :=
  .command ⟨.exists, .dedup id⟩ fun s =>
    ((s.dedup.lookup id).any fun expiry => env.nowms ≤ expiry, s)

/-- SET PX of an id's key. -/
@[simp] def setDedup (env : Env) (id : Bytes) (ms : ℕ) : Redis Unit :=
  .command ⟨.set, .dedup id⟩ fun s => ((), { s with dedup := s.dedup.insert id (env.nowms + ms) })

@[simp] def sadd (m : Bytes) : Redis Unit :=
  .command ⟨.sadd, .idle⟩ fun s => ((), { s with idle := insert m s.idle })

@[simp] def srem (m : Bytes) : Redis Unit :=
  .command ⟨.srem, .idle⟩ fun s => ((), { s with idle := s.idle.erase m })

end Redisq.Model
