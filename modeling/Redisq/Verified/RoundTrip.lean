import Redisq.Model.JobRecord

/-!
# Job Records round-trip

A finish puts its record together around the item as it stands, unless cjson
does not decode it or it is a bare number that does not look like one.  What
cjson takes for JSON, `encoding/json` may not.  An item for which the two
agree comes back with its record (`record_round_trips_iff`); with any other
the record does not parse, and `Jobs` leaves the job out.
-/

namespace Redisq.Model

/-! ## What is expected -/

/-- What is relied on of cjson: it reads a dialect that RFC 8259 is part of,
1000 deep; what it takes for a number is one token, and no word; it writes
strings that are read back. -/
structure CjsonReads (cj : Cjson) (d : Json.Dialect) : Prop where
  knows : d.Knows (Json.rfc 1000)
  depth : d.depth = 1000
  decodes : ∀ v, (cj.decode v).isSome = d.accepts v
  number : ∀ v, cj.decode v = some .number →
    Json.trim v ≠ [] ∧ (∀ b ∈ Json.trim v, Json.isDelimiter b = false) ∧
      Json.isWord (Json.trim v) = false
  encodes : ∀ s, Utf8.IsUtf8 s → Json.unquote (cj.encode s) = some s

/-- The item a record gives back: its own text if it is JSON nested at most
1000 deep, else a string that holds it. -/
def KeepsItem (item stored : Bytes) : Prop :=
  if (Json.rfc 1000).accepts item then stored = Json.trim item
  else Json.unquote stored = some item

/-- The record is one JSON object, and `Jobs` gives its job back. -/
def RoundTrips (cj : Cjson) (env : Env) (a : FinishArgs) (id item : Bytes) (started : Option ℕ)
    (attempts : ℕ) : Prop :=
  (goJson.members (jobRecord cj env a id item started attempts)).isSome = true ∧
    ∃ r, finishedJobs [some (jobRecord cj env a id item started attempts)] = [r] ∧
      r.id = id ∧ r.state = a.state.name ∧ r.startedAt = (started.getD 0 : ℕ) ∧
      r.finishedAt = env.nowms ∧ r.attempts = attempts ∧
      r.errors = (if a.state = .failed then [⟨attempts, env.nowms, a.reason⟩] else []) ∧
      KeepsItem item r.item

/-- An item that is recorded as it stands and is no JSON. -/
def Misread (cj : Cjson) (item : Bytes) : Prop :=
  (Json.rfc 1000).accepts item = false ∧ cj.decode item ≠ none ∧
    (cj.decode item = some .number → looksNumeric item = true)

/-! ## The record as an object -/

/-- The item as it is recorded. -/
def recordedItem (cj : Cjson) (item : Bytes) : Bytes :=
  match cj.decode item with
  | none => cj.encode item
  | some .number => if looksNumeric item then item else cj.encode item
  | some _ => item

/-- The only entry of `errors`. -/
def errorMembers (cj : Cjson) (env : Env) (a : FinishArgs) (attempts : ℕ) :
    List (Bytes × Bytes) :=
  [(quoted "attempt", decimal 1 attempts), (quoted "at", decimal 1 env.nowms),
    (quoted "error", cj.encode a.reason)]

/-- What a record holds behind the item. -/
def restMembers (cj : Cjson) (env : Env) (a : FinishArgs) (started : Option ℕ) (attempts : ℕ) :
    List (Bytes × Bytes) :=
  (started.toList.map fun started => (quoted "started_at", decimal 1 started)) ++
    ([(quoted "finished_at", decimal 1 env.nowms), (quoted "attempts", decimal 1 attempts)] ++
      if a.state = .failed then
        [(quoted "errors", 91 :: (Json.object (errorMembers cj env a attempts) ++ [93]))]
      else [])

/-- The members of a record. -/
def recordMembers (cj : Cjson) (env : Env) (a : FinishArgs) (id item : Bytes)
    (started : Option ℕ) (attempts : ℕ) : List (Bytes × Bytes) :=
  [(quoted "id", cj.encode id), (quoted "state", 34 :: (a.state.name ++ [34]))] ++
    (quoted "item", recordedItem cj item) :: restMembers cj env a started attempts

section Record

variable {cj : Cjson} {env : Env} {a : FinishArgs} {id item : Bytes} {started : Option ℕ}
  {attempts : ℕ}

/-- What stands behind the item. -/
theorem closing_restMembers :
    Json.closing (restMembers cj env a started attempts) =
      (match started with
        | some started => text ",\"started_at\":" ++ decimal 1 started
        | none => []) ++
      text ",\"finished_at\":" ++ decimal 1 env.nowms ++ text ",\"attempts\":" ++
        decimal 1 attempts ++
      (if a.state = .failed then
        text ",\"errors\":[\x7b\"attempt\":" ++ decimal 1 attempts ++ text ",\"at\":" ++
          decimal 1 env.nowms ++ text ",\"error\":" ++ cj.encode a.reason ++ text "\x7d]"
      else []) ++
      text "\x7d" := by
  by_cases hfailed : a.state = .failed <;> cases started <;>
    simp only [restMembers, hfailed, if_true, if_false, errorMembers, Json.object, Json.closing,
      Option.toList_none, Option.toList_some, List.map_nil, List.map_cons, List.cons_append,
      List.nil_append, List.append_nil, List.append_assoc] <;>
    rfl

theorem jobRecord_eq_object :
    jobRecord cj env a id item started attempts =
      Json.object (recordMembers cj env a id item started attempts) := by
  have hobject : Json.object (recordMembers cj env a id item started attempts) =
      text "\x7b\"id\":" ++ (cj.encode id ++ (text ",\"state\":\"" ++ (a.state.name ++
        (text "\",\"item\":" ++ (recordedItem cj item ++
          Json.closing (restMembers cj env a started attempts)))))) := by
    unfold recordMembers
    cases a.state <;> rfl
  rw [hobject, closing_restMembers]
  simp only [jobRecord, List.append_assoc]
  have hitem : (if (match cj.decode item with
      | none => true
      | some .number => !looksNumeric item
      | some _ => false) = true then cj.encode item else item) = recordedItem cj item := by
    unfold recordedItem
    cases cj.decode item with
    | none => rfl
    | some decoded =>
        cases decoded with
        | number => cases looksNumeric item <;> rfl
        | table _ => rfl
        | other => rfl
  cases started <;> exact hitem ▸ rfl

/-! ## The record read back -/

theorem errorName {name : String} {f : ErrorField} (h : (name, f) ∈ errorFields) :
    Json.unquote (quoted name) = some (text name) ∧
      fieldOf errorFields (text name) = some f := by
  have hall : ∀ field ∈ errorFields, Json.unquote (quoted field.1) = some (text field.1) ∧
      fieldOf errorFields (text field.1) = some field.2 := by
    decide +kernel
  exact hall (name, f) h

theorem recordName {name : String} {f : RecordField} (h : (name, f) ∈ recordFields) :
    Json.unquote (quoted name) = some (text name) ∧
      fieldOf recordFields (text name) = some f := by
  have hall : ∀ field ∈ recordFields, Json.unquote (quoted field.1) = some (text field.1) ∧
      fieldOf recordFields (text field.1) = some field.2 := by
    decide +kernel
  exact hall (name, f) h

theorem isMember_int {n depth : ℕ} {name : String}
    (hname : Json.unquote (quoted name) = some (text name)) :
    Json.IsMember depth (quoted name, decimal 1 n) :=
  ⟨⟨_, hname⟩, accepts_decimal n depth⟩

theorem isMember_string {depth : ℕ} {name : String} {v s : Bytes}
    (hname : Json.unquote (quoted name) = some (text name)) (hv : Json.unquote v = some s) :
    Json.IsMember depth (quoted name, v) :=
  ⟨⟨_, hname⟩, Json.accepts_of_unquote hv depth⟩

theorem unquote_state (state : JobState) :
    Json.unquote (34 :: (state.name ++ [34])) = some state.name := by
  cases state <;> decide +kernel

variable {d : Json.Dialect}

theorem errorMembers_isMember {s : Bytes} (hreason : Json.unquote (cj.encode a.reason) = some s)
    (depth : ℕ) : ∀ m ∈ errorMembers cj env a attempts, Json.IsMember depth m := by
  intro m hm
  simp only [errorMembers, List.mem_cons, List.not_mem_nil, or_false] at hm
  obtain rfl | rfl | rfl := hm
  · exact isMember_int (errorName (f := .attempt) (by simp [errorFields])).1
  · exact isMember_int (errorName (f := .atTime) (by simp [errorFields])).1
  · exact isMember_string (errorName (f := .error) (by simp [errorFields])).1 hreason

theorem set_field {α β : Type} {o : Option α} {x : α} (h : o = some x) (f : α → β) :
    (do return f (← o)) = some (f x) := by
  rw [h]
  rfl

/-- The error comes back. -/
theorem decode_errorMembers (hcj : CjsonReads cj d) (hreason : Utf8.IsUtf8 a.reason)
    (hnow : env.nowms < 2 ^ 53) (hattempts : attempts < 2 ^ 53) :
    decodeObject errorFields .zero JobError.set (Json.object (errorMembers cj env a attempts)) =
      some ⟨attempts, env.nowms, a.reason⟩ := by
  have hattempt : JobError.zero.set .attempt (Json.trim (decimal 1 attempts)) =
      some ⟨attempts, 0, []⟩ :=
    set_field (decodeInt_decimal (by omega) 0) _
  have hat : JobError.set ⟨attempts, 0, []⟩ .atTime (Json.trim (decimal 1 env.nowms)) =
      some ⟨attempts, env.nowms, []⟩ :=
    set_field (decodeInt_decimal (by omega) 0) _
  have herror : JobError.set ⟨attempts, env.nowms, []⟩ .error (Json.trim (cj.encode a.reason)) =
      some ⟨attempts, env.nowms, a.reason⟩ :=
    set_field (decodeString_quoted (hcj.encodes _ hreason) []) _
  rw [decodeObject_object (errorMembers_isMember (hcj.encodes _ hreason) 9999), errorMembers,
    List.map_cons, foldlM_field (errorName (by simp [errorFields])) hattempt, List.map_cons,
    foldlM_field (errorName (by simp [errorFields])) hat, List.map_cons,
    foldlM_field (errorName (by simp [errorFields])) herror]
  rfl

/-- The errors of a failed job, as its record has them. -/
abbrev errorsText (cj : Cjson) (env : Env) (a : FinishArgs) (attempts : ℕ) : Bytes :=
  91 :: (Json.object (errorMembers cj env a attempts) ++ [93])

theorem elements_errorsText {s : Bytes} (hreason : Json.unquote (cj.encode a.reason) = some s)
    {n : ℕ} (hn : 2 ≤ n) :
    (Json.rfc n).elements (errorsText cj env a attempts) =
      some [Json.object (errorMembers cj env a attempts)] := by
  have hms : ∀ m ∈ errorMembers cj env a attempts, Json.IsMember (n - 2) m :=
    errorMembers_isMember hreason (n - 2)
  have hmembers := Json.members_object (n := n - 1) (by omega) hms
  have hobject : (Json.rfc (n - 1)).accepts (Json.object (errorMembers cj env a attempts)) = true :=
    Json.accepts_of_members (by rw [hmembers]; rfl)
  exact Json.elements_singleton (by omega) hobject

theorem decodeErrors_errorsText (hcj : CjsonReads cj d) (hreason : Utf8.IsUtf8 a.reason)
    (hnow : env.nowms < 2 ^ 53) (hattempts : attempts < 2 ^ 53) :
    decodeErrors (Json.trim (errorsText cj env a attempts)) =
      some [⟨attempts, env.nowms, a.reason⟩] := by
  have hnull : errorsText cj env a attempts ≠ text "null" := by
    intro h
    exact absurd (List.cons.inj h).1 (by decide)
  have helements : goJson.elements (errorsText cj env a attempts) = _ :=
    elements_errorsText (hcj.encodes _ hreason) (by decide)
  rw [Json.trim_closed rfl rfl, decodeErrors, if_neg hnull, helements]
  show (List.mapM _ [_] : Option _) = _
  rw [List.mapM_cons, decode_errorMembers hcj hreason hnow hattempts]
  rfl

theorem restMembers_isMember {s : Bytes} (hreason : Json.unquote (cj.encode a.reason) = some s) :
    ∀ m ∈ restMembers cj env a started attempts, Json.IsMember 1000 m := by
  have herrors : Json.IsMember 1000 (quoted "errors", errorsText cj env a attempts) := by
    refine ⟨⟨_, (recordName (f := .errors) (by simp [recordFields])).1⟩,
      Json.accepts_of_elements ?_⟩
    rw [elements_errorsText hreason (by omega)]
    rfl
  intro m hm
  simp only [restMembers, List.mem_append, List.mem_map] at hm
  obtain ⟨ms, -, rfl⟩ | hm | hm := hm
  · exact isMember_int (recordName (f := .startedAt) (by simp [recordFields])).1
  · simp only [List.mem_cons, List.not_mem_nil, or_false] at hm
    obtain rfl | rfl := hm
    · exact isMember_int (recordName (f := .finishedAt) (by simp [recordFields])).1
    · exact isMember_int (recordName (f := .attempts) (by simp [recordFields])).1
  · split at hm
    · rw [List.mem_singleton.mp hm]
      exact herrors
    · exact absurd hm List.not_mem_nil

/-- What the rest of a record adds to it. -/
theorem decode_restMembers (hcj : CjsonReads cj d) (hreason : Utf8.IsUtf8 a.reason)
    (hstarted : ∀ ms ∈ started, ms < 2 ^ 53) (hnow : env.nowms < 2 ^ 53)
    (hattempts : attempts < 2 ^ 53) (state v : Bytes) :
    ((restMembers cj env a started attempts).map fun m => (m.1, Json.trim m.2)).foldlM
        (decodeMember recordFields JobRecord.set) ⟨id, state, v, 0, 0, 0, []⟩ =
      some ⟨id, state, v, (started.getD 0 : ℕ), env.nowms, attempts,
        if a.state = .failed then [⟨attempts, env.nowms, a.reason⟩] else []⟩ := by
  have hfirst : ((started.toList.map fun ms => (quoted "started_at", decimal 1 ms)).map
      fun m => (m.1, Json.trim m.2)).foldlM (decodeMember recordFields JobRecord.set)
        ⟨id, state, v, 0, 0, 0, []⟩ =
          some ⟨id, state, v, (started.getD 0 : ℕ), 0, 0, []⟩ := by
    cases started with
    | none => rfl
    | some ms =>
        have hset : JobRecord.set ⟨id, state, v, 0, 0, 0, []⟩ .startedAt
            (Json.trim (decimal 1 ms)) = some ⟨id, state, v, ms, 0, 0, []⟩ :=
          set_field (decodeInt_decimal ((hstarted ms rfl).trans (by decide)) 0) _
        exact foldlM_field (recordName (by simp [recordFields])) hset []
  have hfinished : JobRecord.set ⟨id, state, v, (started.getD 0 : ℕ), 0, 0, []⟩ .finishedAt
      (Json.trim (decimal 1 env.nowms)) =
        some ⟨id, state, v, (started.getD 0 : ℕ), env.nowms, 0, []⟩ :=
    set_field (decodeInt_decimal (by omega) 0) _
  have hset : JobRecord.set ⟨id, state, v, (started.getD 0 : ℕ), env.nowms, 0, []⟩ .attempts
      (Json.trim (decimal 1 attempts)) =
        some ⟨id, state, v, (started.getD 0 : ℕ), env.nowms, attempts, []⟩ :=
    set_field (decodeInt_decimal (by omega) 0) _
  rw [restMembers, List.map_append, List.foldlM_append, hfirst, Option.bind_eq_bind,
    Option.bind_some, List.cons_append, List.map_cons,
    foldlM_field (recordName (by simp [recordFields])) hfinished, List.cons_append, List.map_cons,
    foldlM_field (recordName (by simp [recordFields])) hset, List.nil_append]
  by_cases hfailed : a.state = .failed
  · have herrors : JobRecord.set ⟨id, state, v, (started.getD 0 : ℕ), env.nowms, attempts, []⟩
        .errors (Json.trim (errorsText cj env a attempts)) =
          some ⟨id, state, v, (started.getD 0 : ℕ), env.nowms, attempts,
            [⟨attempts, env.nowms, a.reason⟩]⟩ :=
      set_field (decodeErrors_errorsText hcj hreason hnow hattempts) _
    rw [if_pos hfailed, if_pos hfailed, List.map_cons,
      foldlM_field (recordName (by simp [recordFields])) herrors]
    rfl
  · rw [if_neg hfailed, if_neg hfailed]
    rfl

/-- A record is an object if its strings are strings and its item is JSON. -/
theorem recordMembers_isMember {s s' : Bytes} (hid : Json.unquote (cj.encode id) = some s)
    (hreason : Json.unquote (cj.encode a.reason) = some s')
    (hitem : (Json.rfc 1000).accepts (recordedItem cj item) = true) :
    ∀ m ∈ recordMembers cj env a id item started attempts, Json.IsMember 9999 m := by
  have hmembers : ∀ m ∈ recordMembers cj env a id item started attempts,
      Json.IsMember 1000 m := by
    intro m hm
    simp only [recordMembers, List.cons_append, List.nil_append, List.mem_cons] at hm
    obtain rfl | rfl | rfl | hm := hm
    · exact isMember_string (recordName (f := .id) (by simp [recordFields])).1 hid
    · exact isMember_string (recordName (f := .state) (by simp [recordFields])).1
        (unquote_state a.state)
    · exact ⟨⟨_, (recordName (f := .item) (by simp [recordFields])).1⟩, hitem⟩
    · exact restMembers_isMember hreason m hm
  exact fun m hm => ⟨(hmembers m hm).1, Json.accepts_mono ((Json.rfc 1000).nested_knows 9999)
    (by decide) (hmembers m hm).2⟩

/-- A record whose item is JSON to Go is read back. -/
theorem decode_jobRecord (hcj : CjsonReads cj d) (hid : Utf8.IsUtf8 id)
    (hreason : Utf8.IsUtf8 a.reason) (hstarted : ∀ ms ∈ started, ms < 2 ^ 53)
    (hnow : env.nowms < 2 ^ 53) (hattempts : attempts < 2 ^ 53)
    (hitem : (Json.rfc 1000).accepts (recordedItem cj item) = true) :
    (goJson.members (jobRecord cj env a id item started attempts)).isSome = true ∧
      decodeRecord (jobRecord cj env a id item started attempts) =
        some ⟨id, a.state.name, Json.trim (recordedItem cj item), (started.getD 0 : ℕ), env.nowms,
          attempts, if a.state = .failed then [⟨attempts, env.nowms, a.reason⟩] else []⟩ := by
  have hdeep : ∀ m ∈ recordMembers cj env a id item started attempts, Json.IsMember 9999 m :=
    recordMembers_isMember (hcj.encodes _ hid) (hcj.encodes _ hreason) hitem
  have hid' : JobRecord.set .zero .id (Json.trim (cj.encode id)) =
      some ⟨id, [], [], 0, 0, 0, []⟩ :=
    set_field (decodeString_quoted (hcj.encodes _ hid) []) _
  have hstate : JobRecord.set ⟨id, [], [], 0, 0, 0, []⟩ .state
      (Json.trim (34 :: (a.state.name ++ [34]))) =
        some ⟨id, a.state.name, [], 0, 0, 0, []⟩ :=
    set_field (decodeString_quoted (unquote_state a.state) []) _
  have hset : JobRecord.set ⟨id, a.state.name, [], 0, 0, 0, []⟩ .item
      (Json.trim (recordedItem cj item)) =
        some ⟨id, a.state.name, Json.trim (recordedItem cj item), 0, 0, 0, []⟩ := rfl
  rw [jobRecord_eq_object]
  constructor
  · rw [goJson, Json.members_object (by decide) hdeep]
    rfl
  · rw [decodeRecord, decodeObject_object hdeep, recordMembers, List.cons_append, List.map_cons,
      foldlM_field (recordName (by simp [recordFields])) hid', List.cons_append, List.map_cons,
      foldlM_field (recordName (by simp [recordFields])) hstate, List.nil_append, List.map_cons,
      foldlM_field (recordName (by simp [recordFields])) hset]
    exact decode_restMembers hcj hreason hstarted hnow hattempts _ _

/-! ## The item as it is recorded -/

theorem isSpace_of_json {b : Byte} (h : Json.isSpace b = true) : isSpace b = true := by
  obtain rfl | rfl | rfl | rfl := of_decide_eq_true h <;> rfl

theorem inNumber_eq (b : Byte) : inNumber b = Json.ofNumber b := by
  revert b
  decide +kernel

theorem not_inNumber_of_space {b : Byte} (h : Json.isSpace b = true) : inNumber b = false := by
  obtain rfl | rfl | rfl | rfl := of_decide_eq_true h <;> rfl

/-- Behind a digit, bytes of a number and white space match. -/
theorem numeric_tail {rest trail : Bytes} (hrest : rest.all Json.ofNumber = true)
    (htrail : trail.all Json.isSpace = true) :
    ((rest ++ trail).dropWhile inNumber).all isSpace = true := by
  induction rest with
  | nil =>
      have hspace : trail.all isSpace = true :=
        List.all_eq_true.mpr fun b hb => isSpace_of_json (List.all_eq_true.mp htrail b hb)
      cases trail with
      | nil => rfl
      | cons b trail =>
          rw [List.all_cons, Bool.and_eq_true] at htrail
          have hleft := not_inNumber_of_space htrail.1
          rw [List.nil_append, List.dropWhile_cons_of_neg (by simp [hleft])]
          exact hspace
  | cons b rest ih =>
      rw [List.all_cons, Bool.and_eq_true] at hrest
      have hb : inNumber b = true := (inNumber_eq b).trans hrest.1
      rw [List.cons_append, List.dropWhile_cons_of_pos hb]
      exact ih hrest.2

/-- A number of JSON looks like one. -/
theorem looksNumeric_of_isNumber {lead t trail : Bytes} (hlead : lead.all Json.isSpace = true)
    (htrail : trail.all Json.isSpace = true) (h : Json.isNumber t = true) :
    looksNumeric (lead ++ (t ++ trail)) = true := by
  obtain ⟨b, rest, ht, hb, hrest⟩ := Json.exists_digit_of_isNumber h
  have htail := numeric_tail hrest htrail
  have hspace : isSpace b = false ∧ b ≠ 45 := by
    have hdigit : 48 ≤ b ∧ b ≤ 57 := of_decide_eq_true hb
    simp only [Fin.le_def] at hdigit
    have hlow : 48 ≤ b.val := hdigit.1
    have hhigh : b.val ≤ 57 := hdigit.2
    refine ⟨decide_eq_false fun hspace => ?_, fun hminus => ?_⟩
    · obtain rfl | ⟨-, hle⟩ := hspace
      · exact absurd hlow (by decide)
      · have hle' : b.val ≤ 13 := hle
        omega
    · rw [hminus] at hlow
      exact absurd hlow (by decide)
  have hdrop : (lead ++ (t ++ trail)).dropWhile isSpace = t ++ trail := by
    rw [List.dropWhile_append_of_pos fun b hb => isSpace_of_json (List.all_eq_true.mp hlead b hb)]
    obtain rfl | rfl := ht
    · rw [List.cons_append, List.dropWhile_cons_of_neg (by simp [hspace.1])]
    · rfl
  rw [looksNumeric, hdrop]
  obtain rfl | rfl := ht
  · have hsign : (b :: rest ++ trail).head? ≠ some 45 := fun heq => hspace.2 (Option.some.inj heq)
    simp only [if_neg hsign]
    exact Bool.and_eq_true _ _ ▸ ⟨hb, htail⟩
  · show (isDigit b && ((rest ++ trail).dropWhile inNumber).all isSpace) = true
    exact Bool.and_eq_true _ _ ▸ ⟨hb, htail⟩

/-- JSON is recorded as it stands. -/
theorem recordedItem_of_json (hcj : CjsonReads cj d) (h : (Json.rfc 1000).accepts item = true) :
    recordedItem cj item = item := by
  have haccepts : d.accepts item = true :=
    Json.accepts_mono hcj.knows (by rw [hcj.depth]; rfl) h
  rw [← hcj.decodes] at haccepts
  obtain ⟨decoded, hdecode⟩ := Option.isSome_iff_exists.mp haccepts
  cases decoded with
  | number =>
      obtain ⟨hnil, hbare, hword⟩ := hcj.number item hdecode
      obtain ⟨lead, trail, hitem, hlead, htrail⟩ := Json.exists_padding item
      rw [hitem] at h
      have hscalar := Json.scalar_of_accepts hlead htrail hnil hbare h
      have hnumber : Json.isNumber (Json.trim item) = true := by
        change (Json.isWord (Json.trim item) || Json.isNumber (Json.trim item)) = true at hscalar
        rw [hword, Bool.false_or] at hscalar
        exact hscalar
      have hlooks := looksNumeric_of_isNumber hlead htrail hnumber
      rw [← hitem] at hlooks
      simp only [recordedItem, hdecode, hlooks, if_true]
  | table _ => simp only [recordedItem, hdecode]
  | other => simp only [recordedItem, hdecode]

theorem recordedItem_of_misread (h : Misread cj item) : recordedItem cj item = item := by
  obtain ⟨-, hdecode, hlooks⟩ := h
  unfold recordedItem
  split
  · next hnone => exact absurd hnone hdecode
  · next hnumber => rw [if_pos (hlooks hnumber)]
  · rfl

/-- Any other item is recorded as a string. -/
theorem recordedItem_of_not_misread (hjson : (Json.rfc 1000).accepts item = false)
    (h : ¬Misread cj item) : recordedItem cj item = cj.encode item := by
  unfold recordedItem
  split
  · rfl
  · next hnumber =>
      split
      · next hlooks =>
          exact absurd ⟨hjson, by rw [hnumber]; exact nofun, fun _ => hlooks⟩ h
      · rfl
  · next decoded hother hdecode =>
      refine absurd ⟨hjson, by rw [hdecode]; exact nofun, fun hnumber => ?_⟩ h
      rw [hdecode] at hnumber
      exact absurd (Option.some.inj hnumber) hother

/-- What is recorded of an item that is not misread is JSON, and keeps it. -/
theorem keepsItem_recorded (hcj : CjsonReads cj d) (hitem : Utf8.IsUtf8 item)
    (h : ¬Misread cj item) :
    (Json.rfc 1000).accepts (recordedItem cj item) = true ∧
      KeepsItem item (Json.trim (recordedItem cj item)) := by
  cases hjson : (Json.rfc 1000).accepts item with
  | true =>
      rw [recordedItem_of_json hcj hjson]
      exact ⟨hjson, by rw [KeepsItem, if_pos hjson]⟩
  | false =>
      have hstring := hcj.encodes item hitem
      rw [recordedItem_of_not_misread hjson h, Json.trim_of_unquote hstring]
      refine ⟨Json.accepts_of_unquote hstring 1000, ?_⟩
      rw [KeepsItem, hjson]
      exact hstring

/-- A misread item spoils its record. -/
theorem decode_misread (hcj : CjsonReads cj d) (hid : Utf8.IsUtf8 id) (h : Misread cj item) :
    decodeRecord (jobRecord cj env a id item started attempts) = none := by
  have hraw : recordedItem cj item = item := recordedItem_of_misread h
  obtain ⟨hjson, hdecode, -⟩ := h
  have haccepts : d.accepts item = true := by
    rw [← hcj.decodes]
    exact Option.isSome_iff_ne_none.mpr hdecode
  have hname : Json.unquote (quoted "item") = some (text "item") :=
    (recordName (f := .item) (by simp [recordFields])).1
  have hpre : ∀ m ∈ [(quoted "id", cj.encode id), (quoted "state", 34 :: (a.state.name ++ [34]))],
      Json.IsMember 1000 m := by
    intro m hm
    simp only [List.mem_cons, List.not_mem_nil, or_false] at hm
    obtain rfl | rfl := hm
    · exact isMember_string (recordName (f := .id) (by simp [recordFields])).1
        (hcj.encodes _ hid)
    · exact isMember_string (recordName (f := .state) (by simp [recordFields])).1
        (unquote_state a.state)
  have hnone : goJson.members (Json.object (recordMembers cj env a id item started attempts)) =
      none := by
    rw [recordMembers, hraw]
    exact Json.members_none hcj.knows hcj.depth.le (by decide) hname haccepts hjson _ hpre
  have hnull : Json.object (recordMembers cj env a id item started attempts) ≠ text "null" :=
    fun heq => absurd (List.cons.inj heq).1 (by decide)
  rw [jobRecord_eq_object, decodeRecord, decodeObject, Json.trim_object, if_neg hnull, hnone]
  rfl

/-- **Job Records round-trip** for the items that are not misread, and for no
other: the job of one that is does not appear. -/
theorem record_round_trips_iff (cj : Cjson) (d : Json.Dialect) (hcj : CjsonReads cj d) (env : Env)
    (a : FinishArgs) (id item : Bytes) (started : Option ℕ) (attempts : ℕ)
    (hid : Utf8.IsUtf8 id) (hitem : Utf8.IsUtf8 item) (hreason : Utf8.IsUtf8 a.reason)
    (hstarted : ∀ ms ∈ started, ms < 2 ^ 53) (hnow : env.nowms < 2 ^ 53)
    (hattempts : attempts < 2 ^ 53) :
    RoundTrips cj env a id item started attempts ↔ ¬Misread cj item := by
  constructor
  · rintro ⟨-, r, hjobs, -⟩ hmisread
    rw [finishedJobs, List.filterMap_cons, Option.bind_some,
      decode_misread hcj hid hmisread] at hjobs
    cases hjobs
  · intro hnot
    obtain ⟨hjson, hkeeps⟩ := keepsItem_recorded hcj hitem hnot
    obtain ⟨hobject, hdecode⟩ := decode_jobRecord hcj hid hreason hstarted hnow hattempts hjson
    refine ⟨hobject, ⟨id, a.state.name, Json.trim (recordedItem cj item), (started.getD 0 : ℕ),
      env.nowms, attempts, if a.state = .failed then [⟨attempts, env.nowms, a.reason⟩] else []⟩,
      ?_, rfl, rfl, rfl, rfl, rfl, rfl, hkeeps⟩
    rw [finishedJobs, List.filterMap_cons, Option.bind_some, hdecode]
    rfl

end Record

/-! ## A lax reader -/

/-- Besides the numbers of RFC 8259: nan, inf, hex digits and leading
zeros. -/
def isLaxNumber (t : Bytes) : Bool :=
  let t := if t.head? = some 45 then t.tail else t
  t = text "nan" ∨ t = text "inf" ∨
    (t.take 2 = text "0x" ∧ t.drop 2 ≠ [] ∧ (t.drop 2).all Json.isHex) ∨
    (t.takeWhile Json.isDigit ≠ [] ∧ Json.isFraction (t.dropWhile Json.isDigit))

/-- The JSON that cjson takes. -/
def laxJson : Json.Dialect where
  scalar t := Json.isWord t || Json.isNumber t || isLaxNumber t
  plain b := 32 ≤ b
  depth := 1000

/-- What a value is: one token that is no word is a number. -/
def laxDecoded (v : Bytes) : Decoded :=
  let t := Json.trim v
  if t ≠ [] ∧ t.all fun b => !Json.isDelimiter b then if Json.isWord t then .other else .number
  else if t.head? = some 91 then .table none
  else if t.head? = some 123 then
    .table ((((laxJson.members v).getD []).reverse.find? fun m =>
      Json.unquote m.1 = some (text "id")).bind fun m => Json.unquote m.2)
  else .other

/-- A cjson library that reads this JSON and escapes what it writes. -/
def laxCjson : Cjson where
  decode v := if laxJson.accepts v then some (laxDecoded v) else none
  encode := Json.quote

theorem laxCjson_reads : CjsonReads laxCjson laxJson where
  knows :=
    { scalar := fun t h => by
        change (Json.isWord t || Json.isNumber t || isLaxNumber t) = true
        rw [Bool.or_eq_true]
        exact Or.inl h
      plain := fun _ h => h }
  depth := rfl
  decodes v := by
    show (if laxJson.accepts v then some (laxDecoded v) else none).isSome = laxJson.accepts v
    cases laxJson.accepts v <;> rfl
  number v h := by
    change (if laxJson.accepts v then some (laxDecoded v) else none) = some .number at h
    split at h
    · have hkind := Option.some.inj h
      simp only [laxDecoded] at hkind
      split at hkind
      · next hbare =>
          split at hkind
          · cases hkind
          · next hword =>
              refine ⟨hbare.1, fun b hb => ?_, by simpa using hword⟩
              simpa using List.all_eq_true.mp hbare.2 b hb
      · split at hkind
        · cases hkind
        · split at hkind <;> cases hkind
    · cases h
  encodes _ h := Json.unquote_quote h

/-- An acknowledgement that keeps its record. -/
def plainFinish : FinishArgs := ⟨text "a", .completed, [], 1000, 86400000⟩

theorem isUtf8_text {s : String} (h : (text s).all (fun b => b.val < 128) = true) :
    Utf8.IsUtf8 (text s) :=
  Utf8.isUtf8_of_ascii fun b hb => of_decide_eq_true (List.all_eq_true.mp h b hb)

/-- An object round-trips. -/
theorem record_round_trips_object :
    RoundTrips laxCjson (.plain 0 fun _ => 0) plainFinish (text "1") (text "\x7b\"a\":1\x7d")
      (some 0) 1 :=
  (record_round_trips_iff laxCjson laxJson laxCjson_reads (.plain 0 fun _ => 0) plainFinish
    (text "1") (text "\x7b\"a\":1\x7d") (some 0) 1 (isUtf8_text (by decide))
    (isUtf8_text (by decide)) (Utf8.isUtf8_of_ascii nofun)
    (fun ms hms => by cases hms; decide) (by decide) (by decide)).mpr
    fun hmisread => absurd hmisread.1 (by decide +kernel)

/-- A nan in an array spoils its record: the job is finished and does not
appear. -/
theorem record_of_nan_lost :
    CjsonReads laxCjson laxJson ∧ Utf8.IsUtf8 (text "1") ∧ Utf8.IsUtf8 (text "[nan]") ∧
      finishedJobs [some (jobRecord laxCjson (.plain 0 fun _ => 0) plainFinish (text "1")
        (text "[nan]") (some 0) 1)] = [] ∧
      ¬RoundTrips laxCjson (.plain 0 fun _ => 0) plainFinish (text "1") (text "[nan]")
        (some 0) 1 := by
  have hid : Utf8.IsUtf8 (text "1") := isUtf8_text (by decide)
  have hmisread : Misread laxCjson (text "[nan]") := by
    have hread : (Json.rfc 1000).accepts (text "[nan]") = false ∧
        laxCjson.decode (text "[nan]") = some (.table none) := by
      decide +kernel
    obtain ⟨hjson, hdecode⟩ := hread
    refine ⟨hjson, ?_, fun hnumber => ?_⟩
    · rw [hdecode]
      exact nofun
    · rw [hdecode] at hnumber
      cases hnumber
  have hlost : finishedJobs [some (jobRecord laxCjson (.plain 0 fun _ => 0) plainFinish (text "1")
      (text "[nan]") (some 0) 1)] = [] := by
    rw [finishedJobs, List.filterMap_cons, Option.bind_some,
      decode_misread laxCjson_reads hid hmisread]
    rfl
  refine ⟨laxCjson_reads, hid, isUtf8_text (by decide), hlost, ?_⟩
  rintro ⟨-, r, hjobs, -⟩
  rw [hlost] at hjobs
  cases hjobs

end Redisq.Model
