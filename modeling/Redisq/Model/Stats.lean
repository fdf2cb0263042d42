import Redisq.Model.Run

/-!
# Reading the counts

`QueueStats` reads the lengths of the queue, of `:nacked` and of both Job
States, the fields of `:stats` and the pause in one MULTI, so at one moment.
The fields and the pause come as texts, which Go parses.
-/

namespace Redisq.Model

/-! ## `strconv` -/

/-- The largest number of 64 bits. -/
def maxUint64 : ℕ := 2 ^ 64 - 1

/-- The loop of `ParseUint` in base 10, from the number `n` read so far.  What
it returns with an error is 0 for a wrong byte, and the largest number where
the value is out of range. -/
def parseUintLoop : ℕ → Bytes → ℕ
  | n, [] => n
  | n, b :: rest =>
      if b.val < 48 ∨ 57 < b.val then 0
      else if maxUint64 / 10 + 1 ≤ n then maxUint64
      else if maxUint64 < 10 * n + (b.val - 48) then maxUint64
      else parseUintLoop (10 * n + (b.val - 48)) rest

/-- `ParseUint(s, 10, 64)`, its error dropped. -/
def parseUint (s : Bytes) : ℕ :=
  if s = [] then 0 else parseUintLoop 0 s

/-- `ParseInt(s, 10, 64)`, its error dropped: a sign, and then a number that
has to fit in 63 bits. -/
def parseInt (s : Bytes) : ℤ :=
  match s with
  | 43 :: rest => if 2 ^ 63 ≤ parseUint rest then 2 ^ 63 - 1 else parseUint rest
  | 45 :: rest => if 2 ^ 63 < parseUint rest then -2 ^ 63 else -parseUint rest
  | s => if 2 ^ 63 ≤ parseUint s then 2 ^ 63 - 1 else parseUint s

/-! ## `QueueStats` -/

/-- The replies of the MULTI. -/
structure StatsReplies where
  pending : ℕ
  processing : ℕ
  completed : ℕ
  failed : ℕ
  totals : List (Option Bytes)
  paused : Option Bytes

/-- A field of `:stats`: there is none before its first HINCRBY. -/
def statsField (n : ℕ) : Option Bytes :=
  if n = 0 then none else some (decimal 1 n)

/-- The MULTI, run by itself. -/
def statsReplies (k : Kind) (s : Store) : StatsReplies where
  pending := s.len k
  processing := s.nacked.keys.card
  completed := s.completed.entries.length
  failed := s.failed.entries.length
  totals := [statsField s.stats.submitted, statsField s.stats.completed, statsField s.stats.failed]
  paused := s.paused.map (decimal 1)

/-- `contract.JobCounts`. -/
structure JobCounts where
  pending : ℕ
  processing : ℕ
  completed : ℕ
  failed : ℕ

/-- `contract.JobTotals`. -/
structure JobTotals where
  submitted : ℕ
  completed : ℕ
  failed : ℕ

/-- `contract.QueueStats`. -/
structure QueueStats where
  counts : JobCounts
  totals : JobTotals
  paused : Bool
  pausedAt : ℤ

/-- What `QueueStats` makes of a total: 0 of none. -/
def totalOf (v : Option Bytes) : ℕ :=
  match v with
  | some s => parseUint s
  | none => 0

/-- What `QueueStats` makes of the replies. -/
def StatsReplies.stats (r : StatsReplies) : QueueStats where
  counts := ⟨r.pending, r.processing, r.completed, r.failed⟩
  totals :=
    let t := r.totals.map totalOf
    ⟨t.getD 0 0, t.getD 1 0, t.getD 2 0⟩
  paused := r.paused.isSome
  pausedAt :=
    match r.paused with
    | some text => parseInt text
    | none => 0

/-- `QueueStats`, its MULTI run in `env`. -/
def queueStats (k : Kind) (env : Env) (s : Store) : QueueStats :=
  (statsReplies k (s.evicted env)).stats

/-! ## Effect -/

theorem digit_val {d : ℕ} (h : d < 10) : (digit d).val = 48 + d := by
  rw [digit, if_pos h]
  show (48 + d) % 256 = 48 + d
  omega

/-- Digits of a number that fits are read without an error. -/
theorem parseUintLoop_digits (text : Bytes) (hdigits : ∀ b ∈ text, 48 ≤ b.val ∧ b.val ≤ 57) :
    ∀ n, text.foldl (fun m b => 10 * m + (b.val - 48)) n ≤ maxUint64 →
      parseUintLoop n text = text.foldl (fun m b => 10 * m + (b.val - 48)) n := by
  induction text with
  | nil => exact fun n _ => rfl
  | cons b rest ih =>
      intro n hfits
      obtain ⟨hlow, hhigh⟩ := hdigits b List.mem_cons_self
      have hrest : ∀ b ∈ rest, 48 ≤ b.val ∧ b.val ≤ 57 :=
        fun b hb => hdigits b (List.mem_cons_of_mem _ hb)
      have hgrows : ∀ (l : Bytes) (m : ℕ), m ≤ l.foldl (fun m b => 10 * m + (b.val - 48)) m := by
        intro l
        induction l with
        | nil => exact fun m => le_rfl
        | cons c l ihl => exact fun m => le_trans (by omega) (ihl (10 * m + (c.val - 48)))
      rw [List.foldl_cons] at hfits ⊢
      have hone := (hgrows rest (10 * n + (b.val - 48))).trans hfits
      rw [parseUintLoop, if_neg (by omega), if_neg (by omega), if_neg (by omega), ih hrest _ hfits]

/-- A number that fits, printed and parsed. -/
theorem parseUint_decimal {n : ℕ} (h : n < 2 ^ 64) : parseUint (decimal 1 n) = n := by
  have hdigits : ∀ b ∈ decimal 1 n, 48 ≤ b.val ∧ b.val ≤ 57 :=
    Digits.forall_mem_padded (by decide) (fun d hd => by rw [digit_val hd]; omega) 1 n
  have hvalue : (decimal 1 n).foldl (fun m b => 10 * m + (b.val - 48)) 0 = n :=
    Digits.foldl_padded (by decide) (fun d hd => by rw [digit_val hd]; omega) 1 n
  have hne : decimal 1 n ≠ [] := by
    obtain ⟨d, rest, heq, -⟩ := Digits.padded_one digit (by decide : 1 < 10) n
    rw [decimal, heq]
    exact List.cons_ne_nil _ _
  have hfits : n ≤ maxUint64 := by
    rw [maxUint64]
    omega
  rw [parseUint, if_neg hne, parseUintLoop_digits _ hdigits 0 (by rw [hvalue]; exact hfits), hvalue]

theorem parseInt_decimal {n : ℕ} (h : n < 2 ^ 63) : parseInt (decimal 1 n) = n := by
  have hparse := parseUint_decimal (n := n) (by omega)
  obtain ⟨d, rest, heq, hd, -⟩ := Digits.padded_one digit (by decide : 1 < 10) n
  have heq : decimal 1 n = digit d :: rest := heq
  have hdigit := digit_val hd
  rw [heq] at hparse ⊢
  unfold parseInt
  split
  · next hplus =>
      rw [(List.cons.inj hplus).1] at hdigit
      simp at hdigit
      omega
  · next hminus =>
      rw [(List.cons.inj hminus).1] at hdigit
      simp at hdigit
      omega
  · rw [hparse, if_neg (by omega)]

/-- A total is read as it is. -/
theorem totalOf_statsField {n : ℕ} (h : n < 2 ^ 64) : totalOf (statsField n) = n := by
  unfold statsField
  split
  · next hzero => exact hzero.symm
  · exact parseUint_decimal h

/-- The totals and the pause fit in Go's integers. -/
structure Store.Fits (s : Store) : Prop where
  submitted : s.stats.submitted < 2 ^ 64
  completed : s.stats.completed < 2 ^ 64
  failed : s.stats.failed < 2 ^ 64
  paused : ∀ t, s.paused = some t → t < 2 ^ 63

/-- `QueueStats` reports what there is. -/
theorem queueStats_eq (k : Kind) (env : Env) {s : Store} (h : s.Fits) :
    queueStats k env s =
      { counts := ⟨(s.evicted env).len k, s.nacked.keys.card, s.completed.entries.length,
          s.failed.entries.length⟩
        totals := ⟨s.stats.submitted, s.stats.completed, s.stats.failed⟩
        paused := s.paused.isSome
        pausedAt := s.paused.getD 0 } := by
  obtain ⟨list, zset, expiry, heq⟩ := s.evicted_eq env
  have hat : (match s.paused.map (decimal 1) with
      | some text => parseInt text
      | none => 0) = ((s.paused.getD 0 : ℕ) : ℤ) := by
    cases hpaused : s.paused with
    | none => rfl
    | some t => exact parseInt_decimal (h.paused t hpaused)
  have hsome : (s.paused.map (decimal 1)).isSome = s.paused.isSome := Option.isSome_map
  rw [queueStats, heq]
  simp only [statsReplies, StatsReplies.stats, List.map_cons, List.getD_cons_zero,
    List.getD_cons_succ, totalOf_statsField h.submitted, totalOf_statsField h.completed,
    totalOf_statsField h.failed, hsome]
  rw [hat]

end Redisq.Model
