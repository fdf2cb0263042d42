import Redisq.Library.Json.Members
import Redisq.Verified.Paging
import Redisq.Verified.Records
import Redisq.Verified.RoundTrip

/-!
# Jobs unwraps envelopes

An item is an envelope if it is an object with the keys `status` and `data`.
`unwrap` takes a key for a field whatever the case of its letters, so it finds
envelopes that are none, and values under other keys.  It finds what the
format says exactly if the fields have the same values either way, or there is
no envelope either way (`unwraps_iff`): in every Job State, for every item
that is JSON, at every moment of a run.
-/

namespace Redisq.Model

/-! ## Envelopes -/

/-- What a field is called. -/
def EnvelopeField.name : EnvelopeField → String
  | .status => "status"
  | .data => "data"
  | .enqueuedAt => "enqueued_at"

/-- The value of the last member with such a key. -/
def lastValue (picks : Bytes → Bool) (ms : List (Bytes × Bytes)) : Option Bytes :=
  (ms.reverse.find? fun m => (Json.unquote m.1).any picks).map Prod.snd

/-- The value of the key that is spelled so. -/
def EnvelopeField.spelled (f : EnvelopeField) : List (Bytes × Bytes) → Option Bytes :=
  lastValue fun key => key = text f.name

/-- The value of the key that `encoding/json` matches. -/
def EnvelopeField.matched (f : EnvelopeField) : List (Bytes × Bytes) → Option Bytes :=
  lastValue fun key => fieldOf envelopeFields key = some f

/-- The members of an item that is an object. -/
def membersOf (depth : ℕ) (item : Bytes) : List (Bytes × Bytes) :=
  ((Json.rfc depth).members item).getD []

/-- A job has what the format says of an item with these members. -/
def Unwraps (item : Bytes) (ms : List (Bytes × Bytes)) (payload : Bytes) (time : ℤ) : Prop :=
  match EnvelopeField.status.spelled ms, EnvelopeField.data.spelled ms with
  | some _, some data => payload = data ∧ time = timeOf (EnvelopeField.enqueuedAt.spelled ms)
  | _, _ => Json.trim payload = Json.trim item ∧ time = 0

/-- There is no envelope even if case does not matter, or there is one if it
does, and its data and its time are those of any case. -/
def CaseAside (ms : List (Bytes × Bytes)) : Prop :=
  (EnvelopeField.status.matched ms = none ∨ EnvelopeField.data.matched ms = none) ∨
    (EnvelopeField.status.spelled ms ≠ none ∧
      EnvelopeField.data.spelled ms = EnvelopeField.data.matched ms ∧
      timeOf (EnvelopeField.enqueuedAt.spelled ms) = timeOf (EnvelopeField.enqueuedAt.matched ms))

section Envelopes

variable {item : Bytes} {ms : List (Bytes × Bytes)} {f : EnvelopeField}

theorem lastValue_cons (picks : Bytes → Bool) (m : Bytes × Bytes) :
    lastValue picks (m :: ms) =
      (lastValue picks ms).or (if (Json.unquote m.1).any picks then some m.2 else none) := by
  rw [lastValue, lastValue, List.reverse_cons, List.find?_append]
  cases ms.reverse.find? fun m => (Json.unquote m.1).any picks with
  | some found => rfl
  | none =>
      rw [List.find?_singleton]
      cases (Json.unquote m.1).any picks <;> rfl

theorem mem_of_lastValue {picks : Bytes → Bool} {v : Bytes} (h : lastValue picks ms = some v) :
    ∃ m ∈ ms, m.2 = v := by
  obtain ⟨m, hm, hv⟩ := Option.map_eq_some_iff.mp h
  exact ⟨m, List.mem_reverse.mp (List.mem_of_find?_eq_some hm), hv⟩

theorem fieldOf_name (f : EnvelopeField) : fieldOf envelopeFields (text f.name) = some f := by
  cases f <;> decide +kernel

/-- A key that is spelled as a field is matched to it. -/
theorem matched_of_spelled (h : f.matched ms = none) : f.spelled ms = none := by
  rw [EnvelopeField.spelled, lastValue, Option.map_eq_none_iff, List.find?_eq_none]
  rw [EnvelopeField.matched, lastValue, Option.map_eq_none_iff, List.find?_eq_none] at h
  intro m hm hspelled
  apply h m hm
  cases hkey : Json.unquote m.1 with
  | none =>
      rw [hkey] at hspelled
      cases hspelled
  | some key =>
      rw [hkey] at hspelled
      rw [Option.any_some, decide_eq_true_eq] at hspelled ⊢
      rw [hspelled]
      exact fieldOf_name f

/-- Case makes no difference where every key that a field matches is spelled
as its name. -/
theorem caseAside_of_spelled (h : ∀ m ∈ ms, ∀ key f, Json.unquote m.1 = some key →
    fieldOf envelopeFields key = some f → key = text f.name) : CaseAside ms := by
  have hsame : ∀ f : EnvelopeField, f.spelled ms = f.matched ms := by
    intro f
    induction ms with
    | nil => rfl
    | cons m ms ih =>
        have hkey : (Json.unquote m.1).any (fun key => key = text f.name) =
            (Json.unquote m.1).any fun key => fieldOf envelopeFields key = some f := by
          cases hunquote : Json.unquote m.1 with
          | none => rfl
          | some key =>
              rw [Option.any_some, Option.any_some, decide_eq_decide]
              constructor
              · rintro rfl
                exact fieldOf_name f
              · exact h m List.mem_cons_self key f hunquote
        have hrest := ih fun m' hm' => h m' (List.mem_cons_of_mem m hm')
        rw [EnvelopeField.spelled, EnvelopeField.matched] at hrest ⊢
        rw [lastValue_cons, lastValue_cons, hkey, hrest]
  unfold CaseAside
  rw [hsame, hsame, hsame]
  tauto

theorem unwraps_envelope {status data payload : Bytes} {time : ℤ}
    (hstatus : EnvelopeField.status.spelled ms = some status)
    (hdata : EnvelopeField.data.spelled ms = some data) :
    Unwraps item ms payload time ↔
      payload = data ∧ time = timeOf (EnvelopeField.enqueuedAt.spelled ms) := by
  rw [Unwraps, hstatus, hdata]

theorem unwraps_whole {payload : Bytes} {time : ℤ}
    (h : EnvelopeField.status.spelled ms = none ∨ EnvelopeField.data.spelled ms = none) :
    Unwraps item ms payload time ↔ Json.trim payload = Json.trim item ∧ time = 0 := by
  obtain h | h := h
  · rw [Unwraps, h]
  · rw [Unwraps, h]
    cases EnvelopeField.status.spelled ms <;> rfl

/-- The value of a field. -/
def Envelope.get (e : Envelope) : EnvelopeField → Option Bytes
  | .status => e.status
  | .data => e.data
  | .enqueuedAt => e.enqueuedAt

theorem Envelope.get_set (e : Envelope) (f : EnvelopeField) (v : Bytes) :
    ∃ e', e.set f v = some e' ∧ ∀ g, e'.get g = if g = f then some v else e.get g := by
  cases f <;> exact ⟨_, rfl, fun g => by cases g <;> rfl⟩

/-- Members one after the other set the fields that their keys match. -/
theorem foldlM_envelope (hkeys : ∀ m ∈ ms, (Json.unquote m.1).isSome = true) (e : Envelope) :
    ∃ e', ms.foldlM (decodeMember envelopeFields Envelope.set) e = some e' ∧
      ∀ f, e'.get f = (f.matched ms).or (e.get f) := by
  induction ms generalizing e with
  | nil => exact ⟨e, rfl, fun f => rfl⟩
  | cons m ms ih =>
      obtain ⟨key, hkey⟩ := Option.isSome_iff_exists.mp (hkeys m List.mem_cons_self)
      have hrest := ih fun m' hm' => hkeys m' (List.mem_cons_of_mem m hm')
      have hmatched : ∀ f : EnvelopeField, f.matched (m :: ms) =
          (f.matched ms).or (if fieldOf envelopeFields key = some f then some m.2 else none) := by
        intro f
        rw [EnvelopeField.matched, lastValue_cons, hkey, Option.any_some]
        simp only [decide_eq_true_eq]
      rw [List.foldlM_cons]
      simp only [decodeMember, hkey, Option.bind_eq_bind, Option.bind_some]
      cases hfield : fieldOf envelopeFields key with
      | none =>
          obtain ⟨e', hfold, hget⟩ := hrest e
          refine ⟨e', hfold, fun f => ?_⟩
          rw [hget f, hmatched f, hfield, if_neg (by simp), Option.or_none]
      | some g =>
          obtain ⟨e₁, hset, hget₁⟩ := e.get_set g m.2
          obtain ⟨e', hfold, hget⟩ := hrest e₁
          refine ⟨e', ?_, fun f => ?_⟩
          · simp only [hset, Option.bind_some]
            exact hfold
          · rw [hget f, hget₁ f, hmatched f, hfield, Option.or_assoc]
            by_cases hf : f = g
            · simp [hf]
            · simp [hf, Ne.symm hf]

/-- An item that is an object is decoded to what its keys match. -/
theorem decodeEnvelope_eq (hms : goJson.members item = some ms) :
    ∃ e, decodeEnvelope item = some e ∧ ∀ f, e.get f = f.matched ms := by
  have hnull : ¬Json.trim item = text "null" := by
    intro hnull
    rw [← Json.members_trim, hnull] at hms
    cases hms
  obtain ⟨e, hfold, hget⟩ := foldlM_envelope (Json.keys_of_members hms) .zero
  refine ⟨e, ?_, fun f => ?_⟩
  · rw [decodeEnvelope, decodeObject, if_neg hnull, hms]
    exact hfold
  · rw [hget f]
    cases f <;> exact Option.or_none

/-- And one that is none to no envelope. -/
theorem decodeEnvelope_none (hms : goJson.members item = none) :
    ∀ e ∈ decodeEnvelope item, e = .zero := by
  intro e he
  rw [decodeEnvelope, decodeObject] at he
  split at he
  · exact (Option.some.inj he).symm
  · rw [hms] at he
    cases he

/-- Where an object starts, Go finds it too. -/
theorem head_of_members (hms : goJson.members item = some ms) :
    (item.dropWhile isSpace).head? = some 123 := by
  obtain ⟨lead, rest, parts, rfl, hlead, -⟩ := Json.split_of_members hms
  have hspace : ∀ b ∈ lead, isSpace b = true := fun b hb =>
    isSpace_of_json (List.all_eq_true.mp hlead b hb)
  rw [List.dropWhile_append_of_pos hspace]
  rfl

/-- Where case does not matter and there is an envelope, its data and time. -/
theorem unwrap_envelope {status data : Bytes} (hms : (goJson.members item).getD [] = ms)
    (hstatus : EnvelopeField.status.matched ms = some status)
    (hdata : EnvelopeField.data.matched ms = some data) :
    unwrap item = (data, timeOf (EnvelopeField.enqueuedAt.matched ms)) := by
  cases hmembers : goJson.members item with
  | none =>
      rw [hmembers] at hms
      subst hms
      cases hstatus
  | some ms' =>
      rw [hmembers] at hms
      obtain rfl : ms' = ms := hms
      obtain ⟨⟨status', data', time⟩, hdecode, hget⟩ := decodeEnvelope_eq hmembers
      obtain rfl : status' = some status := (hget .status).trans hstatus
      obtain rfl : data' = some data := (hget .data).trans hdata
      rw [unwrap, if_pos (head_of_members hmembers), hdecode, ← hget .enqueuedAt]
      rfl

/-- And where there is none, the whole item if it is JSON. -/
theorem unwrap_whole (hjson : goJson.accepts item = true)
    (hms : (goJson.members item).getD [] = ms)
    (h : EnvelopeField.status.matched ms = none ∨ EnvelopeField.data.matched ms = none) :
    unwrap item = (item, 0) := by
  have hnone : ∀ e ∈ decodeEnvelope item, e.status = none ∨ e.data = none := by
    intro e he
    cases hmembers : goJson.members item with
    | none =>
        rw [decodeEnvelope_none hmembers e he]
        exact Or.inl rfl
    | some ms' =>
        rw [hmembers] at hms
        obtain rfl : ms' = ms := hms
        obtain ⟨e', hdecode, hget⟩ := decodeEnvelope_eq hmembers
        obtain rfl : e' = e := Option.some.inj (hdecode.symm.trans he)
        exact h.imp (hget .status).trans (hget .data).trans
  rw [unwrap, if_pos hjson]
  split
  · split
    · next hdecode =>
        obtain hstatus | hdata := hnone _ hdecode
        · cases hstatus
        · cases hdata
    · rfl
  · rfl

/-- What the code finds and what the format says are the same exactly if case
makes no difference. -/
theorem unwraps_unwrap {stored : Bytes} (hjson : goJson.accepts stored = true)
    (hms : (goJson.members stored).getD [] = ms) (hstored : Json.trim stored = Json.trim item) :
    Unwraps item ms (unwrap stored).1 (unwrap stored).2 ↔ CaseAside ms := by
  -- no value of a member is the whole item
  have hless : ∀ v (time : ℤ), EnvelopeField.data.matched ms = some v →
      ¬(Json.trim v = Json.trim item ∧ time = 0) := by
    rintro v time hv ⟨heq, -⟩
    obtain ⟨m, hm, rfl⟩ := mem_of_lastValue hv
    have hlt : Json.weight m.2 < Json.weight stored := by
      cases hmembers : goJson.members stored with
      | none =>
          rw [← hms, hmembers] at hm
          exact absurd hm List.not_mem_nil
      | some ms' =>
          rw [← hms, hmembers] at hm
          exact Json.weight_of_members hmembers m hm
    have hsame := congrArg Json.weight heq
    rw [← hstored, Json.weight_trim, Json.weight_trim] at hsame
    omega
  rw [CaseAside]
  cases hstatus : EnvelopeField.status.matched ms with
  | none =>
      rw [unwrap_whole hjson hms (Or.inl hstatus),
        unwraps_whole (Or.inl (matched_of_spelled hstatus))]
      exact iff_of_true ⟨hstored, rfl⟩ (Or.inl (Or.inl rfl))
  | some status =>
      cases hdata : EnvelopeField.data.matched ms with
      | none =>
          rw [unwrap_whole hjson hms (Or.inr hdata),
            unwraps_whole (Or.inr (matched_of_spelled hdata))]
          exact iff_of_true ⟨hstored, rfl⟩ (Or.inl (Or.inr rfl))
      | some data =>
          rw [unwrap_envelope hms hstatus hdata]
          have hmatched : ¬(some status = none ∨ some data = none) := by
            simp
          rw [or_iff_right hmatched]
          cases hspelled : EnvelopeField.status.spelled ms with
          | none =>
              rw [unwraps_whole (Or.inl hspelled)]
              exact iff_of_false (hless data _ hdata) fun h => h.1 rfl
          | some status' =>
              cases hspelled' : EnvelopeField.data.spelled ms with
              | none =>
                  rw [unwraps_whole (Or.inr hspelled')]
                  apply iff_of_false (hless data _ hdata)
                  rintro ⟨-, hnone, -⟩
                  cases hnone
              | some data' =>
                  rw [unwraps_envelope hspelled hspelled', Option.some.injEq]
                  constructor
                  · rintro ⟨rfl, htime⟩
                    exact ⟨Option.some_ne_none _, rfl, htime.symm⟩
                  · rintro ⟨-, rfl, htime⟩
                    exact ⟨rfl, htime.symm⟩

end Envelopes

/-! ## Records read back -/

section Records

variable {cj : Cjson} {d : Json.Dialect} {env : Env} {a : FinishArgs} {id item : Bytes}
  {started : Option ℕ} {attempts : ℕ}

/-- What is relied on of cjson besides: whatever it writes as a string is one. -/
def CjsonQuotes (cj : Cjson) : Prop :=
  ∀ s, (Json.unquote (cj.encode s)).isSome = true

theorem JobRecord.set_item {r r' : JobRecord} {f : RecordField} {v : Bytes} (hf : f ≠ .item)
    (h : r.set f v = some r') : r'.item = r.item := by
  cases f with
  | item => exact absurd rfl hf
  | _ =>
      obtain ⟨x, -, hx⟩ := Option.bind_eq_some_iff.mp h
      rw [← Option.some.inj hx]

/-- A member of another field. -/
def NotItem (m : Bytes × Bytes) : Prop :=
  ∃ name f, (name, f) ∈ recordFields ∧ f ≠ .item ∧ m.1 = quoted name

/-- Members of other fields leave the item. -/
theorem foldlM_notItem {ms : List (Bytes × Bytes)} {r r' : JobRecord} (hms : ∀ m ∈ ms, NotItem m)
    (h : ms.foldlM (decodeMember recordFields JobRecord.set) r = some r') : r'.item = r.item := by
  induction ms generalizing r with
  | nil =>
      rw [← Option.some.inj h]
  | cons m ms ih =>
      rw [List.foldlM_cons] at h
      obtain ⟨r₁, hfirst, hrest⟩ := Option.bind_eq_some_iff.mp h
      obtain ⟨name, f, hfield, hf, hkey⟩ := hms m List.mem_cons_self
      have hname := recordName hfield
      rw [decodeMember, hkey] at hfirst
      simp only [hname, Option.bind_eq_bind, Option.bind_some] at hfirst
      rw [ih (fun m' hm' => hms m' (List.mem_cons_of_mem m hm')) hrest,
        JobRecord.set_item hf hfirst]

theorem restMembers_notItem :
    ∀ m ∈ restMembers cj env a started attempts, NotItem (m.1, Json.trim m.2) := by
  intro m hm
  simp only [restMembers, List.mem_append, List.mem_map] at hm
  obtain ⟨ms, -, rfl⟩ | hm | hm := hm
  · exact ⟨"started_at", .startedAt, by simp [recordFields], by decide, rfl⟩
  · simp only [List.mem_cons, List.not_mem_nil, or_false] at hm
    obtain rfl | rfl := hm
    · exact ⟨"finished_at", .finishedAt, by simp [recordFields], by decide, rfl⟩
    · exact ⟨"attempts", .attempts, by simp [recordFields], by decide, rfl⟩
  · split at hm
    · rw [List.mem_singleton.mp hm]
      exact ⟨"errors", .errors, by simp [recordFields], by decide, rfl⟩
    · exact absurd hm List.not_mem_nil

/-- A record that is read back has the item that was recorded. -/
theorem item_of_jobRecord (hquotes : CjsonQuotes cj)
    (hitem : (Json.rfc 1000).accepts (recordedItem cj item) = true) {r : JobRecord}
    (h : decodeRecord (jobRecord cj env a id item started attempts) = some r) :
    r.item = Json.trim (recordedItem cj item) := by
  obtain ⟨s, hid⟩ := Option.isSome_iff_exists.mp (hquotes id)
  obtain ⟨s', hreason⟩ := Option.isSome_iff_exists.mp (hquotes a.reason)
  rw [jobRecord_eq_object, decodeRecord,
    decodeObject_object (recordMembers_isMember hid hreason hitem), recordMembers, List.map_append,
    List.foldlM_append] at h
  obtain ⟨r₁, -, hrest⟩ := Option.bind_eq_some_iff.mp h
  have hset : JobRecord.set r₁ .item (Json.trim (recordedItem cj item)) =
      some { r₁ with item := Json.trim (recordedItem cj item) } := rfl
  rw [List.map_cons, foldlM_field (recordName (by simp [recordFields])) hset] at hrest
  refine foldlM_notItem (fun m hm => ?_) hrest
  obtain ⟨m', hm', rfl⟩ := List.mem_map.mp hm
  exact restMembers_notItem m' hm'

end Records

/-! ## Where records come from -/

/-- A record that a finish of a job with this item wrote. -/
def RecordOf (cj : Cjson) (item rec : Bytes) : Prop :=
  ∃ env a id started attempts, rec = jobRecord cj env a id item started attempts

/-- Every record is of an item. -/
def Records.Written (cj : Cjson) (r : Records) : Prop :=
  ∀ id rec, r.jobs.lookup id = some rec → ∃ item, RecordOf cj item rec

section Written

variable {cj : Cjson} {r : Records}

theorem Records.Written.without (h : r.Written cj) (state : JobState) (gone : List Bytes) :
    (r.without state gone).Written cj := by
  intro id rec hrec
  change (gone.foldl (fun h id => h.erase id) r.jobs).lookup id = some rec at hrec
  rw [Finmap.lookup_eraseAll] at hrec
  split at hrec
  · cases hrec
  · exact h id rec hrec

theorem Records.Written.finished (h : r.Written cj) {env : Env} {a : FinishArgs}
    {id item rec : Bytes} (hrec : RecordOf cj item rec) : (r.finished env a id rec).Written cj := by
  apply Records.Written.without
  intro id' rec' hlookup
  by_cases hid : id' = id
  · subst hid
    rw [stored] at hlookup
    split at hlookup
    · rw [Finmap.lookup_insert] at hlookup
      rw [← Option.some.inj hlookup]
      exact ⟨item, hrec⟩
    · rw [Finmap.lookup_erase] at hlookup
      cases hlookup
  · apply h id' rec'
    rw [← hlookup, stored]
    split
    · rw [Finmap.lookup_insert_of_ne _ hid, Records.jobs_set]
    · rw [Finmap.lookup_erase_ne hid, Records.jobs_set]

/-- At every moment of a run. -/
theorem written_storeAt (k : Kind) (cj : Cjson) (u : ℕ → Option ScriptRun) (n : ℕ) :
    (storeAt k cj u n).records.Written cj := by
  induction n with
  | zero => exact fun id rec h => by cases h
  | succ n ih =>
      have hstep := storeAt_recordsStep k cj u n
      generalize (storeAt k cj u (n + 1)).records = r at hstep ⊢
      cases hstep with
      | same => exact ih
      | finishes a env item hr hitem => exact ih.finished ⟨env, a, _, _, _, rfl⟩
      | trims kc ac kf af now => exact (ih.without _ _).without _ _
      | purged =>
          intro id rec h
          cases h

end Written

/-! ## Jobs -/

/-- What an element of a list stands for: the item that waits, the one that is
pending under the ack ID, or one of a job whose finish wrote the record. -/
def Store.ItemOf (cj : Cjson) (state : JobList) (s : Store) (m item : Bytes) : Prop :=
  match state with
  | .pending => m = item
  | .processing => s.nacked.lookup m = some item
  | .finished _ => ∃ rec, s.records.jobs.lookup m = some rec ∧ RecordOf cj item rec

/-- A job that a Job State's list has of an item. -/
def Store.Reports (k : Kind) (cj : Cjson) (env : Env) (state : JobList) (s : Store) (item : Bytes)
    (j : Job) : Prop :=
  ∃ m ∈ s.listing k env state, s.jobOf cj state m = some j ∧ s.ItemOf cj state m item

section Reports

variable {index : ℤ → Option ℤ} {k : Kind} {cj : Cjson} {d : Json.Dialect} {env : Env}
  {state : JobList} {s : Store} {item : Bytes} {j : Job} {js : List Job}

theorem part_subset {α : Type} (l : List α) (i j : ℕ) : (l.take i).drop j ⊆ l :=
  fun _ h => List.mem_of_mem_take (List.mem_of_mem_drop h)

/-- Whatever its bounds are, a page is of the list. -/
theorem pageScript_replies {a b : ℤ} {reply : JobsReply}
    (h : ((pageScript index k cj env state a b).exec s).1 = .ok reply) :
    ∃ page, page ⊆ s.listing k env state ∧ reply = s.replyOf cj state page := by
  cases state with
  | finished state =>
      have hget : state.this.get s = s.records.of state := by
        cases state <;> rfl
      simp only [pageScript] at h
      split at h
      · next a b _ _ =>
          refine ⟨slice (s.records.of state).members.reverse a b, part_subset _ _ _, ?_⟩
          simp only [zrevrange, hmget, ↓Script.exec_bind, exec_read, ↓Script.exec_ite,
            Script.exec_pure, hget] at h
          split at h
          · next hnone =>
              rw [← Except.ok.inj h, hnone]
              rfl
          · split at h
            · exact (Except.ok.inj h).symm
            · cases h
      · cases h
  | pending =>
      simp only [pageScript] at h
      split at h
      · next a b _ _ =>
          refine ⟨slice (s.items k) a b, part_subset _ _ _, ?_⟩
          simp only [↓Script.exec_bind, exec_waitingBetween,
            exec_eachRow (fun v => exec_pendingRow cj v s), Script.exec_pure] at h
          exact (Except.ok.inj h).symm
      · cases h
  | processing =>
      simp only [pageScript, hkeys, ↓Script.exec_bind, exec_read, Ref.nacked_get,
        exec_eachRow (fun v => exec_processingRow cj v s), Script.exec_pure] at h
      exact ⟨fromTo (s.acks env) _ _, part_subset _ _ _,
        (Except.ok.inj h).symm⟩

/-- So every job is of an element of it. -/
theorem jobs_listed {offset limit : ℤ}
    (h : ((jobs index k cj env state offset limit).exec s).1 = .ok js) (hj : j ∈ js) :
    ∃ m ∈ s.listing k env state, s.jobOf cj state m = some j := by
  unfold jobs at h
  split at h
  · rw [← Except.ok.inj h] at hj
    exact absurd hj List.not_mem_nil
  · simp only [↓Script.exec_bind, Script.exec_pure] at h
    cases hreply : ((pageScript index k cj env state (max 0 offset)
        (int64 (max 0 offset + limit - 1))).exec s).1 with
    | error e =>
        rw [hreply] at h
        cases h
    | ok reply =>
        rw [hreply] at h
        obtain ⟨page, hpage, rfl⟩ := pageScript_replies hreply
        rw [← Except.ok.inj h, jobs_replyOf, List.reduceOption_mem_iff] at hj
        obtain ⟨m, hm, hjob⟩ := List.mem_map.mp hj
        exact ⟨m, hpage hm, hjob⟩

/-- And of an item. -/
theorem exists_itemOf (hwritten : s.records.Written cj) {m : Bytes}
    (hm : m ∈ s.listing k env state) (hj : s.jobOf cj state m = some j) :
    ∃ item, s.ItemOf cj state m item := by
  cases state with
  | pending => exact ⟨m, rfl⟩
  | processing =>
      have hperm : (s.acks env).Perm (env.hkeys s.nacked.keys) := List.perm_insertionSort _ _
      have hmem : m ∈ s.nacked := by
        rw [← Finmap.mem_keys, ← env.mem_hkeys]
        exact hperm.mem_iff.mp hm
      obtain ⟨item, hitem⟩ := Finmap.mem_iff.mp hmem
      exact ⟨item, hitem⟩
  | finished state =>
      obtain ⟨r, hr, -⟩ := Option.map_eq_some_iff.mp hj
      obtain ⟨rec, hrec, -⟩ := Option.bind_eq_some_iff.mp hr
      obtain ⟨item, hitem⟩ := hwritten m rec hrec
      exact ⟨item, rec, hrec, hitem⟩

/-- What a job has is what `unwrap` makes of its item, up to the white space
around it. -/
theorem unwrap_of_reports (hcj : CjsonReads cj d) (hquotes : CjsonQuotes cj)
    (hjson : (Json.rfc 1000).accepts item = true) (h : s.Reports k cj env state item j) :
    ∃ stored, (stored = item ∨ stored = Json.trim item) ∧ j.payload = (unwrap stored).1 ∧
      j.enqueuedAt = (unwrap stored).2 := by
  obtain ⟨m, -, hj, hitem⟩ := h
  cases state with
  | pending =>
      obtain rfl : m = item := hitem
      rw [← Option.some.inj hj]
      exact ⟨m, Or.inl rfl, rfl, rfl⟩
  | processing =>
      have hlookup : s.nacked.lookup m = some item := hitem
      have hget : (s.nacked.lookup m).getD [] = item := by rw [hlookup, Option.getD_some]
      rw [← Option.some.inj hj]
      exact ⟨(s.nacked.lookup m).getD [], Or.inl hget, rfl, rfl⟩
  | finished state =>
      obtain ⟨rec, hrec, env', a, id, started, attempts, rfl⟩ := hitem
      obtain ⟨r, hr, rfl⟩ := Option.map_eq_some_iff.mp hj
      rw [hrec, Option.bind_some] at hr
      have hraw : recordedItem cj item = item := recordedItem_of_json hcj hjson
      have hstored := item_of_jobRecord hquotes (by rw [hraw]; exact hjson) hr
      rw [hraw] at hstored
      exact ⟨r.item, Or.inr hstored, rfl, rfl⟩

/-- **Jobs unwraps envelopes** whose spelling case makes no difference to, and
no others: at every moment of a run, each job that it reports is of an item,
and if that is JSON, which cjson reads too, the job has what the format says
of it exactly if the fields of an envelope are the same in any case. -/
theorem unwraps_iff (index : ℤ → Option ℤ) (k : Kind) (cj : Cjson) (d : Json.Dialect)
    (hcj : CjsonReads cj d) (hquotes : CjsonQuotes cj) (u : ℕ → Option ScriptRun) (n : ℕ)
    (env : Env) (state : JobList) (offset limit : ℤ) (js : List Job)
    (hjobs : ((jobs index k cj env state offset limit).exec
      ((storeAt k cj u n).evicted env)).1 = .ok js) (j : Job) (hj : j ∈ js) :
    (∃ item, ((storeAt k cj u n).evicted env).Reports k cj env state item j) ∧
      ∀ item depth, ((storeAt k cj u n).evicted env).Reports k cj env state item j →
        (Json.rfc depth).accepts item = true → (cj.decode item).isSome = true →
          (Unwraps item (membersOf depth item) j.payload j.enqueuedAt ↔
            CaseAside (membersOf depth item)) := by
  constructor
  · have hwritten : ((storeAt k cj u n).evicted env).records.Written cj := by
      rw [Store.evicted_records]
      exact written_storeAt k cj u n
    obtain ⟨m, hm, hjob⟩ := jobs_listed hjobs hj
    obtain ⟨item, hitem⟩ := exists_itemOf hwritten hm hjob
    exact ⟨item, m, hm, hjob, hitem⟩
  · intro item depth hreports haccepts hdecode
    -- cjson reads no deeper than 1000, so Go reads it too
    have hknows : d.Knows (Json.rfc depth) := ⟨hcj.knows.scalar, hcj.knows.plain⟩
    have hjson : (Json.rfc 1000).accepts item = true := by
      rw [hcj.decodes] at hdecode
      have hnested := Json.accepts_nested hknows haccepts hdecode
      rw [hcj.depth] at hnested
      exact hnested
    have hgo : goJson.accepts item = true :=
      Json.accepts_mono ((Json.rfc 1000).nested_knows 10000) (by decide) hjson
    have hmembers : goJson.members item = (Json.rfc depth).members item :=
      Json.members_nested (d := Json.rfc depth) (n := 10000) (m := depth) hgo haccepts
    obtain ⟨stored, hstored, hpayload, htime⟩ := unwrap_of_reports hcj hquotes hjson hreports
    rw [hpayload, htime]
    obtain rfl | rfl := hstored
    · exact unwraps_unwrap hgo (by rw [hmembers]; rfl) rfl
    · exact unwraps_unwrap (by rw [Json.accepts_trim]; exact hgo)
        (by rw [Json.members_trim, hmembers]; rfl) (Json.trim_trim item)

end Reports

/-! ## One item -/

theorem laxCjson_quotes : CjsonQuotes laxCjson := by
  intro s
  show ((Json.pieces (s.flatMap Json.escape ++ [34])).map _).isSome = true
  rw [Json.pieces_flatMap]
  rfl

/-- One item is pushed. -/
def pushedOnce (item : Bytes) (n : ℕ) : Option ScriptRun :=
  if n = 0 then some ⟨.push ⟨item, 0, 0, false, none⟩, .plain 0 fun _ => 0⟩ else none

/-- What is there when its job is listed. -/
abbrev holdingOne (item : Bytes) : Store :=
  (storeAt .fifo laxCjson (pushedOnce item) 1).evicted (.plain 0 fun _ => 0)

/-- Its job. -/
abbrev onlyJob (item : Bytes) : Job :=
  (JobRow.waiting laxCjson item 0).job .pending

theorem jobs_holdingOne (item : Bytes) :
    ((jobs printedIndex .fifo laxCjson (.plain 0 fun _ => 0) .pending 0 1).exec
        (holdingOne item)).1 = .ok [onlyJob item] ∧
      (holdingOne item).Reports .fifo laxCjson (.plain 0 fun _ => 0) .pending item
        (onlyJob item) := by
  have hlist : (holdingOne item).listing .fifo (.plain 0 fun _ => 0) .pending = [item] := rfl
  have hkept : (holdingOne item).kept laxCjson item = 0 := by
    have hattempts : (holdingOne item).attempts = ∅ := rfl
    rw [Store.kept, hattempts, Finmap.lookup_empty]
    exact ite_self 0
  have hjob : (holdingOne item).jobOf laxCjson .pending item = some (onlyJob item) := by
    rw [Store.jobOf, hkept]
  constructor
  · have hsize : ((holdingOne item).listing .fifo (.plain 0 fun _ => 0) .pending).length ≤
        2 ^ 32 := by
      rw [hlist, List.length_singleton]
      decide
    have hindexed : Indexed printedIndex .pending (max 0 0) 1 := ⟨rfl, rfl⟩
    have hexec : (jobs printedIndex .fifo laxCjson (.plain 0 fun _ => 0) .pending 0 1).exec
        (holdingOne item) = _ :=
      jobs_exec printedIndex_takes (by decide) (by decide) hindexed hsize
        (show 0 < unpackLimit by decide)
    rw [hexec, Store.fullList, hlist, List.map_singleton, hjob]
    rfl
  · exact ⟨item, by rw [hlist]; exact List.mem_singleton_self item, hjob, rfl⟩

theorem onlyJob_payload (item : Bytes) : (onlyJob item).payload = (unwrap item).1 := rfl

/-- An envelope. -/
def spelledItem : Bytes := text "\x7b\"status\":1,\"data\":2,\"enqueued_at\":3\x7d"

/-- It is unwrapped. -/
theorem unwraps_spelled :
    (∃ item, (holdingOne spelledItem).Reports .fifo laxCjson (.plain 0 fun _ => 0) .pending item
        (onlyJob spelledItem)) ∧
      Unwraps spelledItem (membersOf 1 spelledItem) (onlyJob spelledItem).payload
        (onlyJob spelledItem).enqueuedAt := by
  obtain ⟨hjobs, hreports⟩ := jobs_holdingOne spelledItem
  obtain ⟨hexists, hiff⟩ := unwraps_iff printedIndex .fifo laxCjson laxJson laxCjson_reads
    laxCjson_quotes (pushedOnce spelledItem) 1 (.plain 0 fun _ => 0) .pending 0 1
    [onlyJob spelledItem] hjobs (onlyJob spelledItem) List.mem_cons_self
  have hread : (Json.rfc 1).accepts spelledItem = true ∧
      (laxCjson.decode spelledItem).isSome = true := by
    decide +kernel
  have hcase : CaseAside (membersOf 1 spelledItem) := by
    apply Or.inr
    decide +kernel
  constructor
  · exact hexists
  · rw [hiff spelledItem 1 hreports hread.1 hread.2]
    exact hcase

/-- An object with two keys in capitals. -/
def capitalItem : Bytes := text "\x7b\"Status\":1,\"Data\":2\x7d"

/-- It is no envelope, and the payload of its job is the value of one of the
two. -/
theorem unwraps_capital :
    CjsonReads laxCjson laxJson ∧ CjsonQuotes laxCjson ∧
      ((jobs printedIndex .fifo laxCjson (.plain 0 fun _ => 0) .pending 0 1).exec
        (holdingOne capitalItem)).1 = .ok [onlyJob capitalItem] ∧
      (holdingOne capitalItem).Reports .fifo laxCjson (.plain 0 fun _ => 0) .pending capitalItem
        (onlyJob capitalItem) ∧
      (Json.rfc 1).accepts capitalItem = true ∧ (laxCjson.decode capitalItem).isSome = true ∧
      (onlyJob capitalItem).payload = text "2" ∧
      ¬Unwraps capitalItem (membersOf 1 capitalItem) (onlyJob capitalItem).payload
        (onlyJob capitalItem).enqueuedAt := by
  obtain ⟨hjobs, hreports⟩ := jobs_holdingOne capitalItem
  have hread : (Json.rfc 1).accepts capitalItem = true ∧
      (laxCjson.decode capitalItem).isSome = true := by
    decide +kernel
  have hpayload : (onlyJob capitalItem).payload = text "2" := by
    rw [onlyJob_payload]
    decide +kernel
  have hstatus : EnvelopeField.status.spelled (membersOf 1 capitalItem) = none := by
    decide +kernel
  refine ⟨laxCjson_reads, laxCjson_quotes, hjobs, hreports, hread.1, hread.2, hpayload, ?_⟩
  rw [unwraps_whole (Or.inl hstatus), hpayload]
  rintro ⟨hwhole, -⟩
  exact absurd hwhole (by decide +kernel)

end Redisq.Model
