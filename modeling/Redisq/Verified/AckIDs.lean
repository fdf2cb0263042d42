import Redisq.Model.AckID
import Redisq.Model.JobRecord
import Redisq.Verified.InTurn

/-!
# Ack IDs are one text

The texts that Go prints and those the batch script builds are the same
(`ids_batchArgv`), whatever the counter: the pops of any run work on the IDs
of their reservation (`argvIDs_of_run`).  Under any prefix without a colon the
text gives prefix, reservation and index back, and sorts by reservation and
index.
-/

namespace Redisq.Model

/-! ## Printing -/

/-- Go's padding is that of C, for every number its buffer holds. -/
theorem fmtInteger_eq (wid : ℕ) {n : ℕ} (h : n < 10 ^ intbuf) :
    fmtInteger wid n = decimal wid n := by
  have hdigits : Digits.write digit 10 intbuf n [] = decimal 1 n := by
    rw [Digits.write_eq digit (by decide) (by decide) h, List.append_nil, decimal]
  have hzero : (48 : Byte) = digit 0 := rfl
  rw [fmtInteger, hdigits, hzero]
  exact Digits.leftpad_padded digit (by decide) wid n

theorem resvOf_eq {start : ℕ} (h : start < 2 ^ 64) : resvOf start = decimal 20 start :=
  fmtInteger_eq 20 (h.trans (by decide))

/-- An index has few digits. -/
theorem index_fits {i : ℕ} (h : i ≤ maxPop) : i < 10 ^ intbuf := by
  have hcap : i ≤ 1000 := h
  have hlarge : 1000 < 10 ^ intbuf := by decide
  omega

theorem goAckIDOf_eq (pre : Bytes) {start i : ℕ} (hstart : start < 2 ^ 64) (hi : i < 10 ^ intbuf) :
    goAckIDOf pre (resvOf start) i = ackText pre start i := by
  rw [goAckIDOf, resvOf_eq hstart, fmtInteger_eq 4 hi, ackText]

/-! ## The script's loop -/

/-- A count is read back as it was sent. -/
theorem tonumber_decimal {n : ℕ} (h : n ≤ 2 ^ 53) : tonumber (decimal 1 n) = some n := by
  rw [tonumber, digitsValue_decimal, Option.map_some, luaNumber_of_le h]

/-- The counter takes every value once, as long as it is exact: the loop then
ends by itself, whatever turns are left. -/
theorem numericFor_eq {last turns i : ℕ} (hlast : last < 2 ^ 53) (hturns : last + 1 ≤ turns + i) :
    numericFor last turns i = List.range' i (last + 1 - i) := by
  induction turns generalizing i with
  | zero =>
      have hover : last + 1 - i = 0 := by omega
      rw [numericFor, hover, List.range'_zero]
  | succ turns ih =>
      rw [numericFor]
      split
      · next hle =>
          have hexact : luaNumber (i + 1) = i + 1 := by
            apply luaNumber_of_le
            omega
          have hleft : last + 1 - i = (last + 1 - (i + 1)) + 1 := by omega
          have hnext : last + 1 ≤ turns + (i + 1) := by omega
          rw [hexact, ih hnext, hleft, List.range'_succ]
      · next hover =>
          have hnone : last + 1 - i = 0 := by omega
          rw [hnone, List.range'_zero]

/-- The script's IDs are those that Go prints. -/
theorem ids_batchArgv (pre : Bytes) (start : ℕ) {want : ℕ} (hwant : want ≤ maxPop) :
    (batchArgv pre start want).ids =
      some ((List.range want).map fun i => goAckIDOf pre (resvOf start) (i + 1)) := by
  have hcap : want ≤ 1000 := hwant
  have hcount : tonumber (batchArgv pre start want).want = some want := by
    apply tonumber_decimal
    omega
  have hloop : numericFor want want 1 = (List.range want).map fun i => i + 1 := by
    have hturns : want + 1 ≤ want + 1 := le_rfl
    rw [numericFor_eq (by omega) hturns, Nat.add_sub_cancel, List.range'_eq_map_range]
    exact List.map_congr_left fun i _ => Nat.add_comm 1 i
  rw [BatchArgv.ids, hcount, Option.map_some, hloop, List.map_map]
  apply congrArg some
  apply List.map_congr_left
  intro i hi
  have hindex : i + 1 < 10 ^ intbuf := by
    apply index_fits
    rw [List.mem_range] at hi
    omega
  show _ = goAckIDOf pre (resvOf start) (i + 1)
  rw [goAckIDOf, fmtInteger_eq 4 hindex]
  rfl

/-- One by one: the script counts from 1, and so does Go. -/
theorem getElem_ids (pre : Bytes) (start : ℕ) {want i : ℕ} (hi : 1 ≤ i) (hle : i ≤ want)
    (hwant : want ≤ maxPop) :
    ((batchArgv pre start want).ids.bind fun ids => ids[i - 1]?) =
      some (goAckIDOf pre (resvOf start) i) := by
  have hindex : i - 1 < want := by omega
  have hnext : i - 1 + 1 = i := by omega
  rw [ids_batchArgv pre start hwant, Option.bind_some, List.getElem?_map,
    List.getElem?_range hindex, Option.map_some, hnext]

/-- No number that a double cannot hold goes through the script. -/
example : (batchArgv (text "A") (2 ^ 62 + 12346) 2).ids =
    some [text "A:04611686018427400250:0001", text "A:04611686018427400250:0002"] := by
  decide

/-- They are the ack IDs of the reservation. -/
theorem ids_eq_ackIDs (o : Owner) {start want : ℕ} (hstart : start < 2 ^ 64)
    (hwant : want ≤ maxPop) :
    (batchArgv o.name start want).ids = some (ackIDs o start want) := by
  rw [ids_batchArgv o.name start hwant, ackIDs]
  apply congrArg some
  apply List.map_congr_left
  intro i hi
  apply goAckIDOf_eq o.name hstart
  apply index_fits
  rw [List.mem_range] at hi
  omega

/-- The pops that run work on the IDs of their reservation. -/
theorem argvIDs_of_run {k : Kind} {cj : Cjson} {e : ℕ → Event} {n : ℕ} {p : PopCall} {env : Env}
    (h : scriptRuns k cj e n = some ⟨.pop p, env⟩) (hstart : p.args.start < 2 ^ 64) :
    p.argvIDs = some p.ids := by
  have hwant : p.want ≤ maxPop := want_le_of_run h
  have hone : goAckIDOf p.args.owner.name (resvOf p.args.start) 1 =
      ackIDOf p.args.owner p.args.start 1 :=
    goAckIDOf_eq p.args.owner.name hstart (by decide)
  obtain ⟨args, script⟩ := p
  cases script with
  | one => exact congrArg (fun id => some [id]) hone
  | oneLen slots => exact congrArg (fun id => some [id]) hone
  | batch want slots => exact ids_eq_ackIDs args.owner hstart hwant

/-! ## Recovering the owner -/

/-- The sweep's match ends at the first colon. -/
theorem matchOwner_eq (id : Bytes) : matchOwner id = ownerOf id := by
  rw [matchOwner, Separator.shortest_eq, ownerOf]
  split
  · rfl
  · rfl

/-! ## Order -/

theorem ackText_lt_of_lex {pre : Bytes} {start start' i i' : ℕ} (hstart : start' < 10 ^ 20)
    (hi : i' < 10 ^ 4) (h : toLex (start, i) < toLex (start', i')) :
    ackText pre start i < ackText pre start' i' := by
  rcases Prod.Lex.toLex_lt_toLex.mp h with hfirst | ⟨heq, hsecond⟩
  · exact ackText_lt_of_start hfirst hstart i i'
  · obtain rfl : start = start' := heq
    exact ackText_lt_of_index hsecond hi

/-- Under one prefix, byte order is that of reservation and index. -/
theorem ackText_lt_iff {pre : Bytes} {start start' i i' : ℕ} (hstart : start < 10 ^ 20)
    (hstart' : start' < 10 ^ 20) (hi : i < 10 ^ 4) (hi' : i' < 10 ^ 4) :
    ackText pre start i < ackText pre start' i' ↔ toLex (start, i) < toLex (start', i') := by
  constructor
  · intro h
    rcases lt_trichotomy (toLex (start, i)) (toLex (start', i')) with hlt | heq | hgt
    · exact hlt
    · obtain ⟨rfl, rfl⟩ := Prod.mk.inj (toLex.injective heq)
      exact absurd h (lt_irrefl _)
    · exact absurd h (ackText_lt_of_lex hstart hi hgt).asymm
  · exact ackText_lt_of_lex hstart' hi'

/-! ## What an ack ID tells -/

/-- What the two languages agree on, and what an ack ID tells. -/
theorem ackIDs_faithful {pre pre' : Bytes} (hpre : colon ∉ pre) (hpre' : colon ∉ pre')
    {start start' : ℕ} (hstart : start < 2 ^ 64) (hstart' : start' < 2 ^ 64) {i i' : ℕ}
    (hi : 1 ≤ i ∧ i ≤ 1000) (hi' : 1 ≤ i' ∧ i' ≤ 1000) :
    (∀ want, i ≤ want → want ≤ maxPop →
        ((batchArgv pre start want).ids.bind fun ids => ids[i - 1]?) =
          some (goAckIDOf pre (resvOf start) i)) ∧
      (goAckIDOf pre (resvOf start) i = goAckIDOf pre' (resvOf start') i' →
        (pre, start, i) = (pre', start', i')) ∧
      matchOwner (goAckIDOf pre (resvOf start) i) = pre ∧
      (ownedBy pre' (goAckIDOf pre (resvOf start) i) = true ↔ pre' = pre) ∧
      (goAckIDOf pre (resvOf start) i < goAckIDOf pre (resvOf start') i' ↔
        toLex (start, i) < toLex (start', i')) := by
  have htext : goAckIDOf pre (resvOf start) i = ackText pre start i :=
    goAckIDOf_eq pre hstart (index_fits hi.2)
  refine ⟨?_, ?_, ?_, ?_, ?_⟩
  · intro want hle hwant
    exact getElem_ids pre start hi.1 hle hwant
  · intro h
    rw [htext, goAckIDOf_eq pre' hstart' (index_fits hi'.2)] at h
    obtain ⟨howner, hreservation, hitem⟩ := ackText_injective hpre hpre' h
    rw [howner, hreservation, hitem]
  · rw [htext, matchOwner_eq]
    exact ownerOf_ackText hpre start i
  · rw [htext]
    exact ownedBy_ackText hpre' hpre start i
  · have hwide : (2 : ℕ) ^ 64 ≤ 10 ^ 20 := by decide
    rw [htext, goAckIDOf_eq pre hstart' (index_fits hi'.2)]
    exact ackText_lt_iff (hstart.trans_le hwide) (hstart'.trans_le hwide) (by omega) (by omega)

theorem ackIDs_faithful_large :
    ((batchArgv [65] (2 ^ 62 + 12346) 1000).ids.bind fun ids => ids[1000 - 1]?) =
        some (goAckIDOf [65] (resvOf (2 ^ 62 + 12346)) 1000) ∧
      matchOwner (goAckIDOf [65] (resvOf (2 ^ 62 + 12346)) 1000) = [65] ∧
      ¬ownedBy [66] (goAckIDOf [65] (resvOf (2 ^ 62 + 12346)) 1000) = true ∧
      goAckIDOf [65] (resvOf (2 ^ 62 + 12346)) 1000 <
        goAckIDOf [65] (resvOf (2 ^ 62 + 12347)) 1 := by
  have hA : colon ∉ ([65] : Bytes) := by decide
  have hB : colon ∉ ([66] : Bytes) := by decide
  have hfirst : 2 ^ 62 + 12346 < 2 ^ 64 := by omega
  have hnext : 2 ^ 62 + 12347 < 2 ^ 64 := by omega
  have hlast : 1 ≤ 1000 ∧ 1000 ≤ 1000 := by omega
  have hone : 1 ≤ 1 ∧ 1 ≤ 1000 := by omega
  obtain ⟨hscript, _, howner, hother, hless⟩ :=
    ackIDs_faithful hA hB hfirst hnext hlast hone
  refine ⟨hscript 1000 le_rfl le_rfl, howner, ?_, ?_⟩
  · intro h
    exact absurd (hother.mp h) (by decide)
  · rw [hless, Prod.Lex.toLex_lt_toLex]
    exact Or.inl (by omega)

end Redisq.Model
