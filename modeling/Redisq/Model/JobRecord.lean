import Redisq.Library.Json.Value
import Redisq.Model.Finish

/-!
# Reading Job Records

What `Jobs` makes of the texts that finishes leave: it decodes each as
`encoding/json` does and leaves out those that do not parse.
-/

namespace Redisq.Model

/-! ## encoding/json -/

/-- The JSON of `encoding/json`. -/
def goJson : Json.Dialect := Json.rfc 10000

/-- A letter in upper case. -/
def upper (b : Byte) : Byte :=
  if 97 ≤ b ∧ b ≤ 122 then b - 32 else b

/-- Whether a key is of the field of that name, which has no `k`: case does
not matter, and `ſ` (197, 191) is an `s`. -/
def isField : Bytes → Bytes → Bool
  | [], key => key = []
  | n :: name, key =>
      (key.head?.map upper = some (upper n) && isField name key.tail) ||
        (n = 115 && key.take 2 = [197, 191] && isField name (key.drop 2))

/-- A string field, which null leaves as it is. -/
def decodeString (old v : Bytes) : Option Bytes :=
  if v = text "null" then some old else Json.unquote v

/-- An integer field of 64 bits. -/
def decodeInt (old : ℤ) (v : Bytes) : Option ℤ :=
  if v = text "null" then some old
  else (Json.integer v).filter fun n => -2 ^ 63 ≤ n ∧ n < 2 ^ 63

/-- The field of a key, if there is one. -/
def fieldOf {F : Type} (fields : List (String × F)) (key : Bytes) : Option F :=
  (fields.find? fun f => isField (text f.1) key).map Prod.snd

/-- A member of an object, which sets its field. -/
def decodeMember {α F : Type} (fields : List (String × F)) (set : α → F → Bytes → Option α)
    (r : α) (m : Bytes × Bytes) : Option α := do
  match fieldOf fields (← Json.unquote m.1) with
  | none => return r
  | some f => set r f m.2

/-- An object, a member at a time: `none` if it does not parse or a value is
not of its field's type. -/
def decodeObject {α F : Type} (fields : List (String × F)) (zero : α)
    (set : α → F → Bytes → Option α) (v : Bytes) : Option α :=
  if Json.trim v = text "null" then some zero
  else do (← goJson.members v).foldlM (decodeMember fields set) zero

/-! ## Job Records -/

/-- `contract.JobError`. -/
structure JobError where
  attempt : ℤ
  atTime : ℤ
  error : Bytes
deriving DecidableEq

/-- A Job Record as `Jobs` decodes it, its item as it stands. -/
structure JobRecord where
  id : Bytes
  state : Bytes
  item : Bytes
  startedAt : ℤ
  finishedAt : ℤ
  attempts : ℤ
  errors : List JobError
deriving DecidableEq

/-- The zero values. -/
def JobError.zero : JobError := ⟨0, 0, []⟩

def JobRecord.zero : JobRecord := ⟨[], [], [], 0, 0, 0, []⟩

inductive ErrorField
  | attempt
  | atTime
  | error
deriving DecidableEq

def errorFields : List (String × ErrorField) :=
  [("attempt", .attempt), ("at", .atTime), ("error", .error)]

def JobError.set (e : JobError) (f : ErrorField) (v : Bytes) : Option JobError :=
  match f with
  | .attempt => do return { e with attempt := ← decodeInt e.attempt v }
  | .atTime => do return { e with atTime := ← decodeInt e.atTime v }
  | .error => do return { e with error := ← decodeString e.error v }

/-- The `errors` of a record. -/
def decodeErrors (v : Bytes) : Option (List JobError) :=
  if v = text "null" then some []
  else do (← goJson.elements v).mapM (decodeObject errorFields JobError.zero JobError.set)

inductive RecordField
  | id
  | state
  | item
  | startedAt
  | finishedAt
  | attempts
  | errors
deriving DecidableEq

def recordFields : List (String × RecordField) :=
  [("id", .id), ("state", .state), ("item", .item), ("started_at", .startedAt),
    ("finished_at", .finishedAt), ("attempts", .attempts), ("errors", .errors)]

def JobRecord.set (r : JobRecord) (f : RecordField) (v : Bytes) : Option JobRecord :=
  match f with
  | .id => do return { r with id := ← decodeString r.id v }
  | .state => do return { r with state := ← decodeString r.state v }
  | .item => some { r with item := v }
  | .startedAt => do return { r with startedAt := ← decodeInt r.startedAt v }
  | .finishedAt => do return { r with finishedAt := ← decodeInt r.finishedAt v }
  | .attempts => do return { r with attempts := ← decodeInt r.attempts v }
  | .errors => do return { r with errors := ← decodeErrors v }

/-- `json.Unmarshal` of a record. -/
def decodeRecord (v : Bytes) : Option JobRecord :=
  decodeObject recordFields .zero JobRecord.set v

/-- The jobs of a page of records: one that is gone or does not parse is left
out. -/
def finishedJobs (records : List (Option Bytes)) : List JobRecord :=
  records.filterMap fun record => record.bind decodeRecord

/-! ## Objects read back -/

/-- A field's name in quotes. -/
def quoted (name : String) : Bytes :=
  34 :: (text name ++ [34])

section Objects

variable {α F : Type} {fields : List (String × F)} {set : α → F → Bytes → Option α}

/-- An object put together from members is decoded member by member. -/
theorem decodeObject_object {zero : α} {ms : List (Bytes × Bytes)}
    (hms : ∀ m ∈ ms, Json.IsMember 9999 m) :
    decodeObject fields zero set (Json.object ms) =
      (ms.map fun m => (m.1, Json.trim m.2)).foldlM (decodeMember fields set) zero := by
  have hnull : Json.object ms ≠ text "null" := by
    cases ms with
    | nil => decide
    | cons m ms => exact fun h => absurd (List.cons.inj h).1 (by decide)
  have hmembers : goJson.members (Json.object ms) =
      some (ms.map fun m => (Json.trim m.1, Json.trim m.2)) :=
    Json.members_object (by decide) hms
  have hkeys : (ms.map fun m => (Json.trim m.1, Json.trim m.2)) =
      ms.map fun m => (m.1, Json.trim m.2) := by
    refine List.map_congr_left fun m hm => ?_
    obtain ⟨⟨s, hkey⟩, -⟩ := hms m hm
    rw [Json.trim_of_unquote hkey]
  rw [decodeObject, Json.trim_object, if_neg hnull, hmembers, hkeys]
  rfl

/-- One field is set, the rest is as before. -/
theorem foldlM_field {r r' : α} {name : String} {f : F} {v : Bytes}
    (hname : Json.unquote (quoted name) = some (text name) ∧ fieldOf fields (text name) = some f)
    (h : set r f v = some r') (ms : List (Bytes × Bytes)) :
    ((quoted name, v) :: ms).foldlM (decodeMember fields set) r =
      ms.foldlM (decodeMember fields set) r' := by
  have hmember : decodeMember fields set r (quoted name, v) = some r' := by
    simp only [decodeMember, hname, Option.bind_eq_bind, Option.bind_some, h]
  rw [List.foldlM_cons, hmember]
  rfl

end Objects

/-! ## Values read back -/

/-- A string is read back. -/
theorem decodeString_quoted {v s : Bytes} (h : Json.unquote v = some s) (old : Bytes) :
    decodeString old (Json.trim v) = some s := by
  have hnull : v ≠ text "null" := by
    rintro rfl
    cases h
  rw [Json.trim_of_unquote h, decodeString, if_neg hnull, h]

theorem isDigit_digit {d : ℕ} (h : d < 10) : Json.isDigit (digit d) = true := by
  have hval : (digit d).val = 48 + d := by
    rw [digit, if_pos h]
    show (48 + d) % 256 = 48 + d
    omega
  simp only [Json.isDigit, Fin.le_def, hval, decide_eq_true_eq]
  show 48 ≤ 48 + d ∧ 48 + d ≤ 57
  omega

theorem all_decimal (n : ℕ) : (decimal 1 n).all Json.isDigit = true :=
  List.all_eq_true.mpr (Digits.forall_mem_padded (by decide) (fun _ => isDigit_digit) 1 n)

theorem decimal_ne_nil (n : ℕ) : decimal 1 n ≠ [] := by
  obtain ⟨d, rest, hdecimal, -⟩ := Digits.padded_one digit (b := 10) (by decide) n
  rw [decimal, hdecimal]
  exact List.cons_ne_nil _ _

/-- Without a leading zero, that is. -/
theorem decimal_zero (n : ℕ) : decimal 1 n = [48] ∨ (decimal 1 n).head? ≠ some 48 := by
  obtain ⟨d, rest, hdecimal, hd, hzero⟩ := Digits.padded_one digit (b := 10) (by decide) n
  rw [decimal, hdecimal]
  by_cases h : d = 0
  · rw [h, (hzero h).2]
    exact Or.inl rfl
  · refine Or.inr fun heq => h ?_
    exact digit_injective d (by omega) 0 (by omega) (Option.some.inj heq)

theorem accepts_decimal (n depth : ℕ) : (Json.rfc depth).accepts (decimal 1 n) = true :=
  Json.accepts_of_digits (all_decimal n) (decimal_ne_nil n) (decimal_zero n) depth

theorem digitsValue_decimal (n : ℕ) : Json.digitsValue (decimal 1 n) = some n := by
  have hvalue : ∀ d < 10, (digit d).val - 48 = d := by decide
  have hfold : (decimal 1 n).foldl (fun m b => 10 * m + (b.val - 48)) 0 = n :=
    Digits.foldl_padded (by decide) hvalue 1 n
  rw [Json.digitsValue, if_pos ⟨decimal_ne_nil n, all_decimal n⟩]
  exact congrArg some hfold

theorem integer_decimal (n : ℕ) : Json.integer (decimal 1 n) = some (n : ℤ) := by
  have hsign : (decimal 1 n).head? ≠ some 45 := by
    intro hhead
    have hdigit := List.all_eq_true.mp (all_decimal n) 45 (List.mem_of_mem_head? hhead)
    cases hdigit
  rw [Json.integer, if_neg hsign, digitsValue_decimal]
  rfl

/-- Any number of 64 bits is read back as it was written. -/
theorem decodeInt_decimal {n : ℕ} (h : n < 2 ^ 63) (old : ℤ) :
    decodeInt old (Json.trim (decimal 1 n)) = some (n : ℤ) := by
  have hnull : decimal 1 n ≠ text "null" := by
    intro hnull
    have hall := all_decimal n
    rw [hnull] at hall
    cases hall
  have hrange : decide (-2 ^ 63 ≤ (n : ℤ) ∧ (n : ℤ) < 2 ^ 63) = true := by
    simp only [decide_eq_true_eq]
    omega
  rw [Json.trim_of_digits (all_decimal n), decodeInt, if_neg hnull, integer_decimal,
    Option.filter_some, if_pos hrange]

end Redisq.Model
