import Mathlib.Data.List.Sort
import Mathlib.Tactic.Simps.Basic
import Mathlib.Data.Finmap
import Redisq.Library.Literal
import Redisq.Library.Custody
import Redisq.Library.SortedSet
import Redisq.Library.CommandScript
import Redisq.Model.Time

/-!
# The Redis keys of one queue

Every key of a queue is a field of `Store`, under the suffix the source gives
it.  A queue of kind `fifo` keeps its waiting items in `list`, one of kind
`prio` in `zset`: the same Redis key, of which only the kind's own type is
ever used.  That distinct names never share a key is proved separately, from
the names themselves.

Numbers that Redis stores as text are kept as numbers.  Times are doubles;
job times and key expiries are milliseconds, as the scripts round them.
-/

namespace Redisq.Model

/-! ## Values -/

/-- One byte of a Go or Redis string. -/
abbrev Byte := Fin 256

/-- Redis strings: items, ack IDs, owners, envelope ids. -/
abbrev Bytes := List Byte

/-- An ASCII text. -/
def text (s : String) : Bytes :=
  s.toList.map fun c => Fin.ofNat 256 c.toNat

/-- A queue's kind, which is in its name and fixes its storage. -/
inductive Kind
  | fifo
  | prio
deriving DecidableEq, Repr

/-- Job States with a set of their own. -/
inductive JobState
  | completed
  | failed
deriving DecidableEq, Repr

abbrev Hash (α : Type) := Finmap fun _ : Bytes => α

abbrev ZSet := SortedSet Bytes ℤ

/-- The fields of `:stats`. -/
structure Stats where
  submitted : ℕ
  completed : ℕ
  failed : ℕ
deriving DecidableEq, Repr

/-- One more job that ended in `state`. -/
def Stats.count (state : JobState) (st : Stats) : Stats :=
  match state with
  | .completed => { st with completed := st.completed + 1 }
  | .failed => { st with failed := st.failed + 1 }

/-! ## The store -/

/-- The values of a queue's keys. -/
structure Store where
  list : List Bytes
  zset : ZSet
  expiry : Option ℕ
  nacked : Hash Bytes
  timeouts : ZSet
  started : Hash ℕ
  attempts : Hash ℕ
  prio : Hash ℤ
  seq : ℕ
  stats : Stats
  jobs : Hash Bytes
  completed : ZSet
  failed : ZSet
  idle : Finset Bytes
  heartbeats : ZSet
  clock : Option Time
  presence : ZSet
  paused : Option ℕ
  dedup : Hash ℕ

/-- No key exists. -/
def Store.empty : Store where
  list := []
  zset := ∅
  expiry := none
  nacked := ∅
  timeouts := ∅
  started := ∅
  attempts := ∅
  prio := ∅
  seq := 0
  stats := ⟨0, 0, 0⟩
  jobs := ∅
  completed := ∅
  failed := ∅
  idle := ∅
  heartbeats := ∅
  clock := none
  presence := ∅
  paused := none
  dedup := ∅

/-- The keys, by suffix. -/
inductive Key
  | queue
  | nacked
  | timeouts
  | started
  | attempts
  | prio
  | seq
  | stats
  | jobs
  | completed
  | failed
  | idle
  | heartbeats
  | clock
  | presence
  | paused
  | dedup (id : Bytes)
deriving DecidableEq

/-- A key together with how its value is read from and written to the store. -/
structure Ref (α : Type) where
  key : Key
  get : Store → α
  set : α → Store → Store
  get_set : ∀ v s, get (set v s) = v := by intros; rfl
  set_get : ∀ s, set (get s) s = s := by intros; rfl
  set_set : ∀ v w s, set v (set w s) = set v s := by intros; rfl

namespace Ref

@[simps] def list : Ref (List Bytes) where
  key := .queue
  get := Store.list
  set v s := { s with list := v }

@[simps] def zset : Ref ZSet where
  key := .queue
  get := Store.zset
  set v s := { s with zset := v }

@[simps] def nacked : Ref (Hash Bytes) where
  key := .nacked
  get := Store.nacked
  set v s := { s with nacked := v }

@[simps] def timeouts : Ref ZSet where
  key := .timeouts
  get := Store.timeouts
  set v s := { s with timeouts := v }

@[simps] def started : Ref (Hash ℕ) where
  key := .started
  get := Store.started
  set v s := { s with started := v }

@[simps] def attempts : Ref (Hash ℕ) where
  key := .attempts
  get := Store.attempts
  set v s := { s with attempts := v }

@[simps] def prio : Ref (Hash ℤ) where
  key := .prio
  get := Store.prio
  set v s := { s with prio := v }

@[simps] def jobs : Ref (Hash Bytes) where
  key := .jobs
  get := Store.jobs
  set v s := { s with jobs := v }

@[simps] def completed : Ref ZSet where
  key := .completed
  get := Store.completed
  set v s := { s with completed := v }

@[simps] def failed : Ref ZSet where
  key := .failed
  get := Store.failed
  set v s := { s with failed := v }

@[simps] def heartbeats : Ref ZSet where
  key := .heartbeats
  get := Store.heartbeats
  set v s := { s with heartbeats := v }

@[simps] def presence : Ref ZSet where
  key := .presence
  get := Store.presence
  set v s := { s with presence := v }

end Ref

/-! ## What a script run is given besides its arguments -/

/-- The server at one script run.  The clock stands still while a script
runs: `micros` are its microseconds, of which the milliseconds are exact as a
double, and `now` is how a script reads it, in
`tonumber(t[1]) + tonumber(t[2]) / 1e6`.  `hkeys` is the order in which HKEYS
happens to list a hash's fields, `spop` the member SPOP happens to take, and
`subscribers` how many subscribers the wake channel of a queue object has. -/
structure Env where
  micros : ℕ
  exact : micros / 1000 < 2 ^ 53
  now : Time
  now_eq : now = secondsOf 1000000 micros
  hkeys : Finset Bytes → List Bytes
  hkeys_nodup : ∀ fields, (hkeys fields).Nodup
  mem_hkeys : ∀ fields field, field ∈ hkeys fields ↔ field ∈ fields
  spop : Finset Bytes → Option Bytes
  spop_eq_none : ∀ members, spop members = none ↔ members = ∅
  mem_of_spop : ∀ members m, spop members = some m → m ∈ members
  subscribers : Bytes → ℕ

/-- The fields of a hash in byte order. -/
def sortedKeys (fields : Finset Bytes) : List Bytes :=
  Quot.liftOn fields.val (fun l => l.insertionSort (· ≤ ·)) fun a b hperm =>
    List.Perm.eq_of_pairwise (fun _ _ _ _ hle hge => le_antisymm hle hge)
      (List.pairwise_insertionSort _ a) (List.pairwise_insertionSort _ b)
      ((List.perm_insertionSort _ a).trans
        (List.Perm.trans hperm (List.perm_insertionSort _ b).symm))

theorem sortedKeys_spec (fields : Finset Bytes) :
    (sortedKeys fields).Nodup ∧ ∀ field, field ∈ sortedKeys fields ↔ field ∈ fields := by
  obtain ⟨fields, hnodup⟩ := fields
  induction fields using Quot.ind with
  | mk l =>
      exact ⟨(List.perm_insertionSort _ l).nodup_iff.mpr hnodup,
        fun field => (List.perm_insertionSort _ l).mem_iff⟩

/-- A server that lists fields and takes members in byte order. -/
def Env.plain (micros : ℕ) (subscribers : Bytes → ℕ) : Env where
  micros := micros % (1000 * 2 ^ 53)
  exact := Nat.div_lt_of_lt_mul (Nat.mod_lt _ (by decide))
  now := secondsOf 1000000 (micros % (1000 * 2 ^ 53))
  now_eq := rfl
  hkeys := sortedKeys
  hkeys_nodup fields := (sortedKeys_spec fields).1
  mem_hkeys fields := (sortedKeys_spec fields).2
  spop members := (sortedKeys members).head?
  spop_eq_none members := by
    rw [List.head?_eq_none_iff, List.eq_nil_iff_forall_not_mem, Finset.eq_empty_iff_forall_notMem]
    exact forall_congr' fun m => not_congr ((sortedKeys_spec members).2 m)
  mem_of_spop members m h := ((sortedKeys_spec members).2 m).mp (List.mem_of_mem_head? h)
  subscribers := subscribers

/-- The clock in whole milliseconds. -/
def Env.nowms (env : Env) : ℕ := env.micros / 1000

theorem Env.plain_micros {n : ℕ} (h : n < 1000 * 2 ^ 53) (subscribers : Bytes → ℕ) :
    (Env.plain n subscribers).micros = n := Nat.mod_eq_of_lt h

theorem Env.plain_nowms {n : ℕ} (h : n < 2 ^ 53) (subscribers : Bytes → ℕ) :
    (Env.plain (n * 1000) subscribers).nowms = n := by
  rw [Env.nowms, Env.plain_micros (by omega)]
  omega

/-- A time `d` past the clock, as a double. -/
def later (env : Env) (d : Time) : Time := nearestDouble (env.now + d)

/-- `deadline(vt)`: 0 for none. -/
def deadline (env : Env) (vt : Time) : Time :=
  if vt ≤ 0 then 0 else later env vt

theorem Env.now_nonneg (env : Env) : 0 ≤ env.now := by
  rw [env.now_eq]
  exact secondsOf_nonneg _ _

theorem Env.now_mono {env env' : Env} (h : env.micros ≤ env'.micros) : env.now ≤ env'.now := by
  rw [env.now_eq, env'.now_eq]
  exact secondsOf_mono (by decide) h

/-- The clock ends before 2⁴⁴ s. -/
theorem Env.now_le (env : Env) : env.now ≤ 2 ^ 44 * second := by
  have hmicros : env.micros ≤ 2 ^ 44 * 1000000 := by
    have hexact := env.exact
    omega
  calc env.now = secondsOf 1000000 env.micros := env.now_eq
    _ ≤ secondsOf 1000000 (2 ^ 44 * 1000000) := secondsOf_mono (by decide) hmicros
    _ = 2 ^ 44 * second := secondsOf_whole (by decide) (by decide)

/-- A clock of whole seconds is exact. -/
theorem Env.plain_seconds {n : ℕ} (h : n ≤ 2 ^ 43) (subscribers : Bytes → ℕ) :
    (Env.plain (n * 1000000) subscribers).now = n * second := by
  rw [Env.now_eq, Env.plain_micros (by omega), secondsOf_whole (by decide) (by omega)]

/-- So is one of half seconds. -/
theorem Env.plain_halves {n : ℕ} (h : n ≤ 2 ^ 44) (subscribers : Bytes → ℕ) :
    (Env.plain (n * 500000) subscribers).now = n * (second / 2) := by
  rw [Env.now_eq, Env.plain_micros (by omega), secondsOf_halves (by omega)]

theorem later_mono (env : Env) {d d' : Time} (h : d ≤ d') : later env d ≤ later env d' :=
  nearestDouble_mono (Int.add_le_add_left h env.now)

theorem later_pos (env : Env) {d : Time} (h : 0 < d) : 0 < later env d :=
  nearestDouble_pos (add_pos_of_nonneg_of_pos env.now_nonneg h)

theorem deadline_of_pos (env : Env) {vt : Time} (h : 0 < vt) : deadline env vt = later env vt :=
  if_neg (not_le.mpr h)

theorem deadline_pos (env : Env) {vt : Time} : 0 < deadline env vt ↔ 0 < vt := by
  by_cases h : 0 < vt
  · rw [deadline_of_pos env h]
    exact iff_of_true (later_pos env h) h
  · rw [deadline, if_pos (not_lt.mp h)]
    exact iff_of_false (lt_irrefl 0) h

/-- What cjson.decode makes of a text, as far as the scripts look. -/
inductive Decoded
  | number
  | table (id : Option Bytes)
  | other
deriving DecidableEq

/-- Redis's cjson library: `decode` fails with `none`, a decoded table says
whether its `id` is a string, and `encode` is of a string. -/
structure Cjson where
  decode : Bytes → Option Decoded
  encode : Bytes → Bytes

/-- One for which no item is JSON. -/
def Cjson.none : Cjson where
  decode _ := Option.none
  encode v := v

end Redisq.Model
