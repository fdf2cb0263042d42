import Redisq.Model.Inspect
import Redisq.Model.JobRecord

/-!
# Jobs

`Jobs` as a caller sees it: its bounds are `int`s of 64 bits, which the script
reads as Lua numbers and hands to Redis commands; its rows and records become
jobs, whose envelopes are unwrapped.
-/

namespace Redisq.Model

/-! ## Envelopes -/

/-- What `unwrap` decodes of an item: nil only where the key is absent. -/
structure Envelope where
  status : Option Bytes
  data : Option Bytes
  enqueuedAt : Option Bytes

def Envelope.zero : Envelope := ⟨none, none, none⟩

inductive EnvelopeField
  | status
  | data
  | enqueuedAt
deriving DecidableEq

def envelopeFields : List (String × EnvelopeField) :=
  [("status", .status), ("data", .data), ("enqueued_at", .enqueuedAt)]

/-- A raw message takes any value, null too. -/
def Envelope.set (e : Envelope) (f : EnvelopeField) (v : Bytes) : Option Envelope :=
  match f with
  | .status => some { e with status := some v }
  | .data => some { e with data := some v }
  | .enqueuedAt => some { e with enqueuedAt := some v }

/-- `json.Unmarshal` of an item into an envelope. -/
def decodeEnvelope (item : Bytes) : Option Envelope :=
  decodeObject envelopeFields .zero Envelope.set item

/-- `json.Unmarshal` of a raw message into an `int64` that is 0, its error
ignored. -/
def timeOf (v : Option Bytes) : ℤ :=
  (v.bind fun v => decodeInt 0 v).getD 0

/-- A one-byte character as `json.Marshal` writes it in a string. -/
def marshalByte (b : Byte) : Bytes :=
  match Json.shortEscape b with
  | some c => if b = 47 then [b] else [92, c]
  | none =>
      if b < 32 ∨ b = 60 ∨ b = 62 ∨ b = 38 then
        text "\\u00" ++ [Json.hexDigit (b.val / 16), Json.hexDigit (b.val % 16)]
      else [b]

/-- The inside of a string as `json.Marshal` writes it.  The first `left`
bytes are of a character, which is copied or, escaped already, skipped. -/
def marshalText : ℕ → Bool → Bytes → Bytes
  | _, _, [] => []
  | left + 1, copied, b :: rest =>
      (if copied then [b] else []) ++ marshalText left copied rest
  | 0, _, b :: rest =>
      match Utf8.charLength (b :: rest) with
      | 0 => text "\\ufffd" ++ marshalText 0 true rest
      | 1 => marshalByte b ++ marshalText 0 true rest
      | left + 2 =>
          if (b :: rest).take 3 = [226, 128, 168] then
            text "\\u2028" ++ marshalText (left + 1) false rest
          else if (b :: rest).take 3 = [226, 128, 169] then
            text "\\u2029" ++ marshalText (left + 1) false rest
          else b :: marshalText (left + 1) true rest

/-- `json.Marshal` of a string. -/
def marshalString (s : Bytes) : Bytes :=
  34 :: (marshalText 0 true s ++ [34])

/-- `unwrap`.  Behind white space of other alphabets, which `bytes.TrimSpace`
takes off too, an item is no JSON. -/
def unwrap (item : Bytes) : Bytes × ℤ :=
  let plain := if goJson.accepts item then (item, 0) else (marshalString item, 0)
  if (item.dropWhile isSpace).head? = some 123 then
    match decodeEnvelope item with
    | some ⟨some _, some data, enqueuedAt⟩ => (data, timeOf enqueuedAt)
    | _ => plain
  else plain

/-! ## Jobs -/

/-- `contract.JobRecord`. -/
structure Job where
  id : Bytes
  state : Bytes
  payload : Bytes
  enqueuedAt : ℤ
  startedAt : ℤ
  finishedAt : ℤ
  attempts : ℤ
  errors : List JobError
deriving DecidableEq

/-- A state by its name. -/
def JobList.name : JobList → Bytes
  | .pending => text "pending"
  | .processing => text "processing"
  | .finished state => state.name

/-- The job of a row. -/
def JobRow.job (state : JobList) (r : JobRow) : Job where
  id := r.id
  state := state.name
  payload := (unwrap r.item).1
  enqueuedAt := (unwrap r.item).2
  startedAt := r.started
  finishedAt := 0
  attempts := r.attempts
  errors := []

/-- The job of a record. -/
def JobRecord.job (r : JobRecord) : Job where
  id := r.id
  state := r.state
  payload := (unwrap r.item).1
  enqueuedAt := (unwrap r.item).2
  startedAt := r.startedAt
  finishedAt := r.finishedAt
  attempts := r.attempts
  errors := r.errors

/-- The jobs of a reply. -/
def JobsReply.jobs (state : JobList) : JobsReply → List Job
  | .rows l => l.map (JobRow.job state)
  | .records l => (finishedJobs l).map JobRecord.job

/-! ## Bounds -/

/-- What is left of an integer in an `int`. -/
def int64 (n : ℤ) : ℤ := n.bmod (2 ^ 64)

/-- An integer as a Lua number. -/
def luaInt (n : ℤ) : ℤ :=
  if 0 ≤ n then luaNumber n.toNat else -luaNumber (-n).toNat

/-- How a script fails: a command that refuses an index, or more values than
`unpack` has room for. -/
inductive ScriptError
  | notAnInteger
  | tooManyResults
deriving DecidableEq

/-- `unpack` takes fewer values. -/
def unpackLimit : ℕ := 8000

/-- The elements that `for i = first, last` visits. -/
def fromTo {α : Type} (l : List α) (first last : ℤ) : List α :=
  (l.take last.toNat).drop (first - 1).toNat

/-- The waiting items between the bounds that Redis reads. -/
def waitingBetween (k : Kind) (a b : ℤ) : Redis (List Bytes) :=
  match k with
  | .fifo => lrange a b
  | .prio => do return (← zrange .zset a b).map itemOf

/-- `jobsScript`, with bounds of any size.  Redis reads a Lua number that is
passed for an index as `index` says, and refuses it where that is `none`. -/
def pageScript (index : ℤ → Option ℤ) (k : Kind) (cj : Cjson) (env : Env) (state : JobList)
    (start stop : ℤ) : Redis (Except ScriptError JobsReply) :=
  let a := luaInt start
  let b := luaInt stop
  match state with
  | .finished state =>
      match index a, index b with
      | some a, some b => do
          let ids ← zrevrange state.this a b
          if ids = [] then return .ok (.records [])
          else if ids.length < unpackLimit then return .ok (.records (← hmget .jobs ids))
          else return .error .tooManyResults
      | _, _ => return .error .notAnInteger
  | .pending =>
      match index a, index b with
      | some a, some b => do
          let items ← waitingBetween k a b
          return .ok (.rows (← eachRow (pendingRow cj) items))
      | _, _ => return .error .notAnInteger
  | .processing => do
      let acks := (← hkeys .nacked env).insertionSort (· ≤ ·)
      let visited := fromTo acks (luaInt (a + 1)) (min (luaInt (b + 1)) acks.length)
      return .ok (.rows (← eachRow (processingRow cj) visited))

/-- `Jobs`. -/
def jobs (index : ℤ → Option ℤ) (k : Kind) (cj : Cjson) (env : Env) (state : JobList)
    (offset limit : ℤ) : Redis (Except ScriptError (List Job)) :=
  if limit ≤ 0 then return .ok []
  else do
    let offset := max 0 offset
    let reply ← pageScript index k cj env state offset (int64 (offset + limit - 1))
    return reply.map (JobsReply.jobs state)

end Redisq.Model
