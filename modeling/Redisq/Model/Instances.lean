import Redisq.Library.Trajectory
import Redisq.Model.Store

/-!
# The instance registry

A namespace keeps its Instance Records in a hash and their report times in a
sorted set, two keys that expire when nobody reports.  A script writes both
and prunes some of what is stale, MULTI/EXEC removes from both, and a reader
takes both in one MULTI/EXEC and leaves out what is old.

Milliseconds of the Redis clock are exact as doubles, so they are integers
here; Go's int64 arithmetic is `Int64`.
-/

namespace Redisq.Model

/-! ## Records -/

/-- `contract.InstanceRecord`, with what the registry only passes on in
`rest`. -/
structure InstanceRecord (ρ : Type) where
  id : Bytes
  intervalMS : Int64
  beatAt : Int64
  lost : Bool
  rest : ρ
deriving DecidableEq

/-- `json.Marshal` and `json.Unmarshal` of records. -/
structure RecordJson (ρ : Type) where
  marshal : InstanceRecord ρ → Bytes
  unmarshal : Bytes → Option (InstanceRecord ρ)

/-- The Redis clock, in microseconds. -/
structure Clock where
  micros : ℕ
  exact : micros / 1000 < 2 ^ 53

/-- The milliseconds of `TIME`, which are seconds and microseconds. -/
def Clock.ms (now : Clock) : ℤ :=
  (now.micros / 1000000 * 1000 + now.micros % 1000000 / 1000 : ℕ)

/-! ## Keys that expire -/

/-- The value of a key, and when it expires.  A key that is not there has no
expiry. -/
structure Expiring (α : Type) [EmptyCollection α] where
  value : α
  expiry : Option ℤ
  absent : value = ∅ → expiry = none

namespace Expiring

variable {α : Type} [EmptyCollection α] [DecidableEq α]

/-- No key. -/
def missing : Expiring α := ⟨∅, none, fun _ => rfl⟩

/-- A key is gone once the clock is past its expiry. -/
def evicted (now : ℤ) (k : Expiring α) : Expiring α :=
  if k.expiry.any fun expiry => expiry < now then missing else k

/-- A write.  A key written anew has no expiry, and one left empty is gone. -/
def write (f : α → α) (k : Expiring α) : Expiring α where
  value := f k.value
  expiry := if k.value = ∅ ∨ f k.value = ∅ then none else k.expiry
  absent h := if_pos (Or.inr h)

/-- PEXPIRE, which leaves a missing key alone. -/
def pexpire (now ms : ℤ) (k : Expiring α) : Expiring α where
  value := k.value
  expiry := if k.value = ∅ then none else some (now + ms)
  absent h := if_pos h

end Expiring

instance : DecidableEq ZSet := fun z z' =>
  decidable_of_iff (z.entries = z'.entries) ⟨SortedSet.ext, congrArg SortedSet.entries⟩

/-- `{instances}` and `{instances}:beats`. -/
structure InstanceKeys where
  records : Expiring (Hash Bytes)
  beats : Expiring ZSet

namespace InstanceKeys

/-- Neither key. -/
def empty : InstanceKeys := ⟨.missing, .missing⟩

/-- What is left of the keys at `now`. -/
def evicted (now : Clock) (s : InstanceKeys) : InstanceKeys :=
  ⟨s.records.evicted now.ms, s.beats.evicted now.ms⟩

end InstanceKeys

/-! ## Commands -/

/-- The two keys. -/
inductive InstanceKey
  | records
  | beats
deriving DecidableEq

/-- The commands on them. -/
inductive InstanceCmd
  | hdel
  | hgetall
  | hset
  | pexpire
  | zadd
  | zrange
  | zrangebyscore
  | zrem
deriving DecidableEq

/-- Scripts over them. -/
abbrev Registry := Script (InstanceCmd × InstanceKey) InstanceKeys

def writeRecords (cmd : InstanceCmd) (f : Hash Bytes → Hash Bytes) : Registry Unit :=
  .command (cmd, .records) fun s => ((), { s with records := s.records.write f })

def writeBeats (cmd : InstanceCmd) (f : ZSet → ZSet) : Registry Unit :=
  .command (cmd, .beats) fun s => ((), { s with beats := s.beats.write f })

def pexpireRecords (now : Clock) (ms : ℤ) : Registry Unit :=
  .command (.pexpire, .records) fun s => ((), { s with records := s.records.pexpire now.ms ms })

def pexpireBeats (now : Clock) (ms : ℤ) : Registry Unit :=
  .command (.pexpire, .beats) fun s => ((), { s with beats := s.beats.pexpire now.ms ms })

/-- ZRANGEBYSCORE of `:beats` below a score, at most `limit` members. -/
def beatsBelow (score : ℤ) (limit : ℕ) : Registry (List Bytes) :=
  .command (.zrangebyscore, .beats) fun s =>
    ((s.beats.value.filter fun e => decide (SortedSet.rank e < score)).members.take limit, s)

/-- ZRANGE of all of `:beats`, with scores. -/
def zrangeBeats : Registry (List (Bytes × ℤ)) :=
  .command (.zrange, .beats) fun s =>
    (s.beats.value.entries.map fun e => (SortedSet.member e, SortedSet.rank e), s)

def hgetallRecords : Registry (Hash Bytes) :=
  .command (.hgetall, .records) fun s => (s.records.value, s)

/-! ## The calls -/

/-- `pruneAfterMS`. -/
def pruneAfterMS : ℤ := 300000

/-- `reportInstanceScript`. -/
def reportInstanceScript (now : Clock) (id body : Bytes) : Registry Unit := do
  writeRecords .hset fun h => h.insert id body
  writeBeats .zadd fun z => z.insert id now.ms
  let stale ← beatsBelow (now.ms - 300000) 100
  Script.each stale fun id => do
    writeRecords .hdel fun h => h.erase id
    writeBeats .zrem fun z => z.erase id
  pexpireRecords now 300000
  pexpireBeats now 300000

/-- The record as it is stored: its report time is not part of it. -/
def InstanceRecord.stored {ρ : Type} (r : InstanceRecord ρ) : InstanceRecord ρ :=
  { r with beatAt := 0, lost := false }

/-- `ReportInstance`: its error, if any. -/
def reportInstance {ρ : Type} (json : RecordJson ρ) (now : Clock) (r : InstanceRecord ρ) :
    Registry (Except String Unit) :=
  if r.id = [] then
    return .error "redisq: instance record needs a non-empty ID"
  else do
    reportInstanceScript now r.id (json.marshal r.stored)
    return .ok ()

/-- `RemoveInstance`. -/
def removeInstance (id : Bytes) : Registry Unit := do
  writeRecords .hdel fun h => h.erase id
  writeBeats .zrem fun z => z.erase id

/-- What `Instances` makes of an entry of `:beats`: nothing if it has no
record, is due for pruning or does not parse. -/
def readInstance {ρ : Type} (json : RecordJson ρ) (nowMS : Int64) (recs : Hash Bytes)
    (z : Bytes × ℤ) : Option (InstanceRecord ρ) :=
  match recs.lookup z.1 with
  | none => none
  | some raw =>
      let beat := Int64.ofInt z.2
      if beat < nowMS - Int64.ofInt pruneAfterMS then none
      else
        match json.unmarshal raw with
        | none => none
        | some r =>
            some { r with
              id := z.1
              beatAt := beat
              lost := decide (beat < nowMS - 3 * r.intervalMS) }

/-- `Instances`. -/
def instances {ρ : Type} (json : RecordJson ρ) (now : Clock) :
    Registry (List (InstanceRecord ρ)) := do
  let beats ← zrangeBeats
  let recs ← hgetallRecords
  return beats.filterMap (readInstance json (Int64.ofInt now.ms) recs)

/-! ## Runs -/

/-- The calls that write. -/
inductive RegistryCall (ρ : Type)
  | report (r : InstanceRecord ρ)
  | remove (id : Bytes)

def RegistryCall.run {ρ : Type} (json : RecordJson ρ) (now : Clock) :
    RegistryCall ρ → Registry (Except String Unit)
  | .report r => reportInstance json now r
  | .remove id => do
      removeInstance id
      return .ok ()

/-- The keys before call number `n` of a run, each call with its time. -/
def instanceKeysAt {ρ : Type} (json : RecordJson ρ) (u : ℕ → Clock × RegistryCall ρ) :
    ℕ → InstanceKeys :=
  Trajectory.state (fun s e => ((e.2.run json e.1).exec (s.evicted e.1)).2) .empty u

/-- What `Instances` returns at `now`. -/
def listAt {ρ : Type} (json : RecordJson ρ) (now : Clock) (s : InstanceKeys) :
    List (InstanceRecord ρ) :=
  ((instances json now).exec (s.evicted now)).1

end Redisq.Model
