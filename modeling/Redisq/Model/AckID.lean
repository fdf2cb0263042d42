import Redisq.Library.Json.Value
import Redisq.Model.Invocation

/-!
# Ack IDs in two languages

Go prints the number of a reservation and, where it reads a reply, the index
of each item.  The batch script gets the prefix and the printed number as
texts and prints the index itself, from the counter of its loop, so that only
the count and the index are ever Lua numbers.
-/

namespace Redisq.Model

/-! ## Go -/

/-- The places of the buffer that `fmt` writes an integer into. -/
def intbuf : ℕ := 68

/-- `fmtInteger`, for `%0<wid>d` of a number without a sign: its digits from
the lowest up, then zeros. -/
def fmtInteger (wid n : ℕ) : Bytes :=
  (Digits.write digit 10 intbuf n []).leftpad wid 48

/-- `resv`, the number of a reservation as the scripts get it. -/
def resvOf (start : ℕ) : Bytes := fmtInteger 20 start

/-- `ackIDOf` of a queue object with that prefix. -/
def goAckIDOf (ackPrefix resv : Bytes) (i : ℕ) : Bytes :=
  ackPrefix ++ colon :: (resv ++ colon :: fmtInteger 4 i)

/-- What the batch script builds its IDs from: `ARGV[1]`, `ARGV[3]` and
`ARGV[4]`. -/
structure BatchArgv where
  want : Bytes
  pre : Bytes
  resv : Bytes
deriving DecidableEq

/-- As `dequeueBatch` passes them: the client sends an `int` in decimal and a
string as it is. -/
def batchArgv (ackPrefix : Bytes) (start want : ℕ) : BatchArgv where
  want := decimal 1 want
  pre := ackPrefix
  resv := resvOf start

/-! ## Lua -/

/-- `tonumber` of a text of digits: the nearest double.  A count is never sent
as anything else. -/
def tonumber (t : Bytes) : Option ℕ :=
  (Json.digitsValue t).map luaNumber

/-- `for i = first, last do`: the values of `i` from the given one on, in no
more turns than given.  The counter is a double, and so is each sum. -/
def numericFor (last : ℕ) : ℕ → ℕ → List ℕ
  | 0, _ => []
  | turns + 1, i => if i ≤ last then i :: numericFor last turns (luaNumber (i + 1)) else []

/-- `ids`, at the head of the batch script; `none` where the loop has no limit
and fails. -/
def BatchArgv.ids (a : BatchArgv) : Option (List Bytes) :=
  (tonumber a.want).map fun want =>
    -- `string.format` leaves `%04d` to C
    (numericFor want want 1).map fun i => a.pre ++ colon :: (a.resv ++ colon :: decimal 4 i)

/-- The IDs a pop works on: those the batch script builds, or the one that a
lean script gets as `ARGV[2]`. -/
def PopCall.argvIDs (p : PopCall) : Option (List Bytes) :=
  match p.script with
  | .batch want _ => (batchArgv p.args.owner.name p.args.start want).ids
  | _ => some [goAckIDOf p.args.owner.name (resvOf p.args.start) 1]

/-- `string.match(id, '^(.-):') or ''`, as the matcher goes: the shortest
match first, from the start of the ID. -/
def matchOwner (id : Bytes) : Bytes :=
  (Separator.shortest colon id).getD []

end Redisq.Model
