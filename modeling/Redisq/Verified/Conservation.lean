import Mathlib.Algebra.Order.BigOperators.Group.Finset
import Redisq.Verified.Custody

/-!
# No item is lost or duplicated

Over every run of scripts, copies and all: what waits and what is pending is
what came in less what went out, every pending entry leaves through one
finish or one requeue, and `:stats` counts what happened.

Each script run is described by what it did (`ScriptRun.pushed`, `finished`
and the others), taken from its reply where the reply says it.
-/

namespace Redisq.Model

open Custody (Move)

namespace ScriptRun

variable (k : Kind) (cj : Cjson) (s : Store) (r : ScriptRun)

/-- The item a push run stored. -/
def pushed : Multiset Bytes :=
  match r.inv, r.reply k cj s with
  | .push a, .pushed (some _) => {a.item}
  | _, _ => 0

/-- The item a raw pop handed out, or a `Remove` took out. -/
def takenOut : Multiset Bytes :=
  match r.inv, r.reply k cj s with
  | .rawPop, .one (.item v) => {v}
  | .remove item, _ => bagOf ((s.evicted r.env).removedItem k item)
  | _, _ => 0

/-- The entries an ack pop made: what it popped, not what it handed back. -/
def popped : Multiset (Bytes × Bytes) :=
  match r.inv with
  | .pop p => ↑((s.evicted r.env).taken k p.ids)
  | _ => 0

/-- The entry made pending by hand. -/
def prepared : Multiset (Bytes × Bytes) :=
  match r.inv with
  | .prepareAck id item _ => if id ∈ s.nacked then 0 else {(id, item)}
  | _ => 0

/-- The entry an Acknowledge or a Reject found. -/
def finished : Multiset (Bytes × Bytes) :=
  match r.inv, r.reply k cj s with
  | .finish a, .found true => (s.custody k).entryOf a.ackID
  | _, _ => 0

/-- The entries a `RequeueNackedItems`, a sweep or a release moved. -/
def requeued : Multiset (Bytes × Bytes) :=
  match r.inv with
  | .requeue vt => (s.custody k).entriesOf (s.requeueIDs r.env vt)
  | .sweep owner hbt => (s.custody k).entriesOf (s.sweptIDs k cj r.env owner.name hbt)
  | .release owner => (s.custody k).entriesOf (s.pendingIDs r.env (ownedBy owner.name))
  | _ => 0

/-- The items that came in. -/
def itemsIn : Multiset Bytes :=
  r.pushed k cj s + (r.prepared s).map Prod.snd

/-- The items that went out. -/
def itemsOut : Multiset Bytes :=
  r.takenOut k cj s + (r.finished k cj s).map Prod.snd

/-- The entries that came to be pending. -/
def entriesIn : Multiset (Bytes × Bytes) :=
  r.popped k s + r.prepared s

/-- The entries that were finished or requeued. -/
def entriesOut : Multiset (Bytes × Bytes) :=
  r.finished k cj s + r.requeued k cj s

/-- How many items went onto the queue. -/
def puts : ℕ :=
  Multiset.card (r.pushed k cj s) + Multiset.card (r.requeued k cj s)

/-- How many pushes stored an item: one or none. -/
def submitted : ℕ :=
  Multiset.card (r.pushed k cj s)

/-- How many finishes into `state` found their entry: one or none. -/
def finishedInto (state : JobState) (s : Store) (r : ScriptRun) : ℕ :=
  match r.inv, r.reply k cj s with
  | .finish a, .found true => if a.state = state then 1 else 0
  | _, _ => 0

end ScriptRun

/-! ## Replies -/

theorem rawPop_reply (k : Kind) (cj : Cjson) (s : Store) (env : Env)
    (hs : s.evicted env = s) :
    ScriptRun.reply k cj s ⟨.rawPop, env⟩ =
      match s.rawHead k with
      | some v => .one (.item v)
      | none => .one (if s.paused.isSome then .paused else .empty) := by
  simp only [ScriptRun.reply, ScriptRun.exec, hs, Invocation.script, ↓Script.exec_bind,
    Script.exec_pure]
  by_cases hpaused : s.paused.isSome = true
  · cases k <;>
      simp [rawPop, listRawPop, zsetRawPop, Store.rawHead, hpaused]
  · cases k with
    | fifo =>
        cases hlist : s.list <;>
          simp [rawPop, listRawPop, lpop, Store.rawHead, Store.head, hpaused, hlist]
    | prio =>
        cases hzset : s.zset.entries <;>
          simp [rawPop, zsetRawPop, zpopmin, Store.rawHead, Store.head, hpaused, hzset]

theorem finish_reply (k : Kind) (cj : Cjson) (s : Store) (env : Env) (a : FinishArgs)
    (hs : s.evicted env = s) :
    ScriptRun.reply k cj s ⟨.finish a, env⟩ = .found (s.nacked.lookup a.ackID).isSome := by
  simp only [ScriptRun.reply, ScriptRun.exec, hs, Invocation.script, ↓Script.exec_bind,
    Script.exec_pure]
  cases h : s.nacked.lookup a.ackID with
  | none => rw [finishScript_exec_absent cj env a s h]; rfl
  | some item =>
      obtain ⟨jobs, completed, failed, hexec⟩ := finishScript_exec cj env a s h
      rw [hexec]
      rfl

/-! ## What a script run did is its move -/

section Moves

variable {k : Kind} {cj : Cjson} {s : Store} {r : ScriptRun}

theorem itemsIn_eq (hs : s.evicted r.env = s) :
    r.itemsIn k cj s =
      (s.custody k).paidIn (r.inv.move k cj r.env s) := by
  unfold ScriptRun.itemsIn
  obtain ⟨inv, env⟩ := r
  cases inv with
  | push a =>
      have hreply := push_reply k cj s env a
      by_cases h : s.remembers env a = true
      · rw [if_pos h] at hreply
        simp [ScriptRun.pushed, ScriptRun.prepared, hreply, Invocation.move, h, Custody.paidIn]
      · rw [if_neg h] at hreply
        obtain ⟨r, hreply⟩ := hreply
        simp [ScriptRun.pushed, ScriptRun.prepared, hreply, Invocation.move, h, Custody.paidIn]
  | prepareAck id item vt =>
      by_cases h : id ∈ s.nacked <;>
        simp [ScriptRun.pushed, ScriptRun.prepared, Invocation.move, Custody.paidIn,
          Store.custody, h]
  | rawPop => simp only [Invocation.move]; cases s.rawHead k <;> rfl
  | remove item => simp only [Invocation.move]; cases s.removedItem k item <;> rfl
  | _ => rfl

theorem itemsOut_eq (hs : s.evicted r.env = s) (hpurge : r.inv ≠ .purge) :
    r.itemsOut k cj s =
      (s.custody k).paidOut (r.inv.move k cj r.env s) := by
  unfold ScriptRun.itemsOut
  obtain ⟨inv, env⟩ := r
  cases inv with
  | push a =>
      simp only [Invocation.move]
      split <;> rfl
  | finish a =>
      have hreply := finish_reply k cj s env a hs
      cases h : s.nacked.lookup a.ackID with
      | none =>
          have hentry : (s.custody k).entryOf a.ackID = 0 := Custody.entryOf_of_none h
          simp [ScriptRun.takenOut, ScriptRun.finished, hreply, h, Invocation.move,
            Custody.paidOut, hentry]
      | some item =>
          simp [ScriptRun.takenOut, ScriptRun.finished, hreply, h, Invocation.move,
            Custody.paidOut]
  | rawPop =>
      have hreply := rawPop_reply k cj s env hs
      cases h : s.rawHead k with
      | none =>
          by_cases hpaused : s.paused.isSome = true <;>
            simp [ScriptRun.takenOut, ScriptRun.finished, hreply, h, hpaused, Invocation.move,
              Custody.paidOut, withdrawal]
      | some v =>
          simp [ScriptRun.takenOut, ScriptRun.finished, hreply, h, Invocation.move,
            Custody.paidOut, withdrawal]
  | remove item =>
      have hs : s.evicted env = s := hs
      simp only [ScriptRun.takenOut, ScriptRun.finished, Invocation.move, hs]
      cases s.removedItem k item <;> rfl
  | purge => exact absurd rfl hpurge
  | _ => rfl

theorem entriesIn_eq (cj : Cjson) (hs : s.evicted r.env = s) :
    r.entriesIn k s = (s.custody k).entered (r.inv.move k cj r.env s) := by
  unfold ScriptRun.entriesIn
  obtain ⟨inv, env⟩ := r
  cases inv with
  | push a =>
      simp only [Invocation.move]
      split <;> rfl
  | rawPop => simp only [Invocation.move]; cases s.rawHead k <;> rfl
  | remove item => simp only [Invocation.move]; cases s.removedItem k item <;> rfl
  | pop p =>
      have hs : s.evicted env = s := hs
      simp only [ScriptRun.popped, ScriptRun.prepared, hs, add_zero]
      rfl
  | prepareAck id item vt => exact zero_add _
  | _ => rfl

theorem entriesOut_eq (hs : s.evicted r.env = s) (hpurge : r.inv ≠ .purge) :
    r.entriesOut k cj s =
      (s.custody k).left (r.inv.move k cj r.env s) := by
  unfold ScriptRun.entriesOut
  obtain ⟨inv, env⟩ := r
  cases inv with
  | push a =>
      simp only [Invocation.move]
      split <;> rfl
  | finish a =>
      have hreply := finish_reply k cj s env a hs
      cases h : s.nacked.lookup a.ackID with
      | none =>
          have hentry : (s.custody k).entryOf a.ackID = 0 := Custody.entryOf_of_none h
          simp [ScriptRun.requeued, ScriptRun.finished, hreply, h, Invocation.move,
            Custody.left, hentry]
      | some item =>
          simp [ScriptRun.requeued, ScriptRun.finished, hreply, h, Invocation.move,
            Custody.left]
  | rawPop => simp only [Invocation.move]; cases s.rawHead k <;> rfl
  | remove item => simp only [Invocation.move]; cases s.removedItem k item <;> rfl
  | requeue vt => exact zero_add _
  | sweep owner hbt => exact zero_add _
  | release owner => exact zero_add _
  | purge => exact absurd rfl hpurge
  | _ => rfl

end Moves

/-! ## Counters and the queue's expiry -/

section Counters

variable {k : Kind} {cj : Cjson} {s : Store} {r : ScriptRun}

theorem PopCall.effect_frame (k : Kind) (env : Env) (p : PopCall) (s : Store) :
    (p.effect k env s).2.stats = s.stats ∧ (p.effect k env s).2.expiry = s.expiry ∧
      (p.effect k env s).2.seq = s.seq := by
  obtain ⟨_, _, _, _, _, _, _, _, h⟩ := s.pop_eq k env p.args p.ids p.slots
  rw [PopCall.effect, h]
  exact ⟨rfl, rfl, rfl⟩

/-- Without an expiration the queue key never expires. -/
theorem after_expiry (inv : Invocation) (env : Env) (hs : s.expiry = none)
    (hpush : ∀ a, inv = .push a → a.expiration ≤ 0) :
    (inv.after k cj env s).expiry = none := by
  cases inv with
  | push a =>
      have hle : ¬0 < a.expiration := not_lt.mpr (hpush a rfl)
      simp only [Invocation.after, Store.afterPush]
      split
      · exact hs
      · cases k <;> simp [Store.pushed, hle, hs]
  | rawPop =>
      simp only [Invocation.after, Store.rawPopped]
      split
      · exact hs
      · cases k <;> exact hs
  | pop p => exact (p.effect_frame k env s).2.1.trans hs
  | finish a =>
      simp only [Invocation.after, Store.afterFinish]
      split <;> exact hs
  | requeue vt => exact s.movedAll_expiry k cj _ hs
  | sweep owner hbt =>
      rw [Invocation.after, Store.swept_eq]
      exact s.movedAll_expiry k cj _ hs
  | release owner => exact s.movedAll_expiry k cj _ hs
  | remove item => exact (s.removed_frame k item).2.1.trans hs
  | purge => rfl
  | _ => exact hs

/-- The sequence moves on by at most what a script puts on the queue. -/
theorem after_seq_le (k : Kind) (cj : Cjson) (s : Store) (r : ScriptRun) :
    (r.inv.after k cj r.env s).seq ≤ s.seq + r.puts k cj s := by
  unfold ScriptRun.puts
  obtain ⟨inv, env⟩ := r
  cases inv with
  | push a =>
      have hreply := push_reply k cj s env a
      by_cases h : s.remembers env a = true
      · simp [Invocation.after, Store.afterPush, h]
      · rw [if_neg h] at hreply
        obtain ⟨r, hreply⟩ := hreply
        cases k <;>
          simp [Invocation.after, Store.afterPush, h, ScriptRun.pushed, hreply, Store.pushed]
  | rawPop =>
      simp only [Invocation.after, Store.rawPopped]
      split
      · exact Nat.le_add_right _ _
      · cases k <;> exact Nat.le_add_right _ _
  | pop p => exact (p.effect_frame k env s).2.2.le.trans (Nat.le_add_right _ _)
  | finish a =>
      simp only [Invocation.after, Store.afterFinish]
      split <;> exact Nat.le_add_right _ _
  | requeue vt =>
      refine (s.movedAll_seq_le k cj (s.requeueIDs env vt)).trans_eq ?_
      simp only [ScriptRun.pushed, ScriptRun.requeued, Multiset.card_zero, zero_add]
  | sweep owner hbt =>
      rw [Invocation.after, Store.swept_eq]
      refine (s.movedAll_seq_le k cj (s.sweptIDs k cj env owner.name hbt)).trans_eq ?_
      simp only [ScriptRun.pushed, ScriptRun.requeued, Multiset.card_zero, zero_add]
  | release owner =>
      refine (s.movedAll_seq_le k cj (s.pendingIDs env (ownedBy owner.name))).trans_eq ?_
      simp only [ScriptRun.pushed, ScriptRun.requeued, Multiset.card_zero, zero_add]
  | remove item => exact (s.removed_frame k item).2.2.le.trans (Nat.le_add_right _ _)
  | purge =>
      cases k <;> simp [Invocation.after, Store.purged]
  | _ => exact Nat.le_add_right _ _

/-- A script first finds out whether the queue key has expired. -/
theorem reply_evicted : r.reply k cj (s.evicted r.env) = r.reply k cj s := by
  rw [ScriptRun.reply, ScriptRun.exec, Store.evicted_evicted]
  rfl

/-- An expired queue key changes nothing of what a script puts on the queue. -/
theorem puts_evicted : r.puts k cj (s.evicted r.env) = r.puts k cj s := by
  have hpushed : r.pushed k cj (s.evicted r.env) = r.pushed k cj s := by
    rw [ScriptRun.pushed, reply_evicted]
    rfl
  have hcongr : ∀ ids, ((s.evicted r.env).custody k).entriesOf ids = (s.custody k).entriesOf ids :=
    fun ids => Custody.entriesOf_congr ids (s.evicted_nacked r.env)
  have hover : (s.evicted r.env).overdue r.env = s.overdue r.env := by
    rw [Store.overdue, Store.evicted_timeouts]
    rfl
  have hrequeued : r.requeued k cj (s.evicted r.env) = r.requeued k cj s := by
    obtain ⟨inv, env⟩ := r
    cases inv with
    | requeue vt =>
        simp only [ScriptRun.requeued, hcongr, Store.requeueIDs, hover, Store.evicted_nacked]
    | sweep owner hbt =>
        simp only [ScriptRun.requeued, hcongr, Store.sweptIDs, hover, Store.pendingIDs,
          Store.caughtUp, Store.movedAll_nacked, Store.evicted_nacked, Store.evicted_liveness]
    | release owner =>
        simp only [ScriptRun.requeued, hcongr, Store.pendingIDs, Store.evicted_nacked]
    | _ => rfl
  rw [ScriptRun.puts, ScriptRun.puts, hpushed, hrequeued]

/-- `:stats` counts a stored push and a finish that found its entry. -/
theorem after_stats (hs : s.evicted r.env = s) (hpurge : r.inv ≠ .purge) :
    (r.inv.after k cj r.env s).stats =
      ⟨s.stats.submitted + r.submitted k cj s,
        s.stats.completed + ScriptRun.finishedInto k cj .completed s r,
        s.stats.failed + ScriptRun.finishedInto k cj .failed s r⟩ := by
  unfold ScriptRun.submitted
  obtain ⟨inv, env⟩ := r
  cases inv with
  | push a =>
      have hreply := push_reply k cj s env a
      by_cases h : s.remembers env a = true
      · rw [if_pos h] at hreply
        simp [Invocation.after, Store.afterPush, h, ScriptRun.pushed, ScriptRun.finishedInto,
          hreply]
      · rw [if_neg h] at hreply
        obtain ⟨r, hreply⟩ := hreply
        cases k <;>
          simp [Invocation.after, Store.afterPush, h, ScriptRun.pushed, ScriptRun.finishedInto,
            hreply, Store.pushed]
  | rawPop =>
      simp only [Invocation.after, Store.rawPopped]
      split
      · rfl
      · cases k <;> rfl
  | pop p => exact (p.effect_frame k env s).1
  | finish a =>
      have hreply := finish_reply k cj s env a hs
      cases h : s.nacked.lookup a.ackID with
      | none =>
          simp [Invocation.after, Store.afterFinish, h, ScriptRun.pushed, ScriptRun.finishedInto,
            hreply]
      | some item =>
          cases hstate : a.state <;>
            simp [Invocation.after, Store.afterFinish, h, ScriptRun.pushed,
              ScriptRun.finishedInto, hreply, Store.finished, Stats.count, hstate]
  | requeue vt => exact s.movedAll_stats k cj _
  | sweep owner hbt =>
      simp only [Invocation.after, Store.swept_eq]
      exact s.movedAll_stats k cj _
  | release owner => exact s.movedAll_stats k cj _
  | remove item => exact (s.removed_frame k item).1
  | purge => exact absurd rfl hpurge
  | _ => rfl

end Counters

/-! ## Runs -/

/-- What a moment of a run did, nothing if no script ran. -/
def atMoment {α : Type} [Zero α] (k : Kind) (cj : Cjson) (u : ℕ → Option ScriptRun)
    (f : Store → ScriptRun → α) (n : ℕ) : α :=
  match u n with
  | none => 0
  | some r => f (storeAt k cj u n) r

/-- What `f` counts from moment `m` to moment `n`. -/
def countFrom (k : Kind) (cj : Cjson) (u : ℕ → Option ScriptRun) (m n : ℕ)
    (f : Store → ScriptRun → ℕ) : ℕ :=
  ∑ i ∈ Finset.Ico m n, atMoment k cj u f i

@[simp] theorem countFrom_self (k : Kind) (cj : Cjson) (u : ℕ → Option ScriptRun) (m : ℕ)
    (f : Store → ScriptRun → ℕ) : countFrom k cj u m m f = 0 := by
  rw [countFrom, Finset.Ico_self, Finset.sum_empty]

theorem countFrom_succ {k : Kind} {cj : Cjson} {u : ℕ → Option ScriptRun} {m n : ℕ}
    (hmn : m ≤ n) (f : Store → ScriptRun → ℕ) :
    countFrom k cj u m (n + 1) f = countFrom k cj u m n f + atMoment k cj u f n :=
  Finset.sum_Ico_succ_top hmn _

/-- Fewer than 2^53 pushes, those of requeues included. -/
def FewPuts (k : Kind) (cj : Cjson) (u : ℕ → Option ScriptRun) : Prop :=
  ∀ N, ∑ n ∈ Finset.range N, atMoment k cj u (ScriptRun.puts k cj) n < 2 ^ 53

/-- No expiration, no `Purge`, nothing made pending by hand over another
pending item, and fewer than 2^53 pushes, those of requeues included. -/
structure Undisturbed (k : Kind) (cj : Cjson) (u : ℕ → Option ScriptRun) : Prop where
  noExpiration : ∀ n env a, u n = some ⟨.push a, env⟩ → a.expiration ≤ 0
  noPurge : ∀ n env, u n ≠ some ⟨.purge, env⟩
  notPending : ∀ n env id item vt, u n = some ⟨.prepareAck id item vt, env⟩ →
    (storeAt k cj u n).nacked.lookup id = none ∨
      (storeAt k cj u n).nacked.lookup id = some item
  fewPuts : FewPuts k cj u

/-- What waits and what is pending before moment `N` is what was pushed or
prepared, less what was finished, popped raw or removed; every entry made
pending still is, or left `:nacked` through one finish or one requeue; and
`:stats` counts the pushes that stored an item and the finishes that found
their entry. -/
structure Conserved (k : Kind) (cj : Cjson) (u : ℕ → Option ScriptRun) (N : ℕ) : Prop where
  items : (storeAt k cj u N).waiting k +
      ((storeAt k cj u N).custody k).entries.map Prod.snd +
      ∑ n ∈ Finset.range N, atMoment k cj u (ScriptRun.itemsOut k cj) n =
    ∑ n ∈ Finset.range N, atMoment k cj u (ScriptRun.itemsIn k cj) n
  entries : ((storeAt k cj u N).custody k).entries +
      ∑ n ∈ Finset.range N, atMoment k cj u (ScriptRun.entriesOut k cj) n =
    ∑ n ∈ Finset.range N, atMoment k cj u (ScriptRun.entriesIn k) n
  stats : (storeAt k cj u N).stats =
    ⟨∑ n ∈ Finset.range N, atMoment k cj u (ScriptRun.submitted k cj) n,
      ∑ n ∈ Finset.range N, atMoment k cj u (ScriptRun.finishedInto k cj .completed) n,
      ∑ n ∈ Finset.range N, atMoment k cj u (ScriptRun.finishedInto k cj .failed) n⟩

section Runs

variable {k : Kind} {cj : Cjson} {u : ℕ → Option ScriptRun}

theorem SameBut_fields {s t : Store} (h : s.SameBut t) :
    t.custody k = s.custody k ∧ t.expiry = s.expiry ∧ t.seq = s.seq ∧ t.zset = s.zset ∧
      t.stats = s.stats := by
  obtain ⟨idle, jobs, completed, failed, rfl⟩ := h
  cases k <;> exact ⟨rfl, rfl, rfl, rfl, rfl⟩

theorem evicted_of_none {s : Store} (h : s.expiry = none) (env : Env) : s.evicted env = s := by
  simp [Store.evicted, h]

/-- The queue key has no expiry. -/
theorem Undisturbed.expiry (h : Undisturbed k cj u) (n : ℕ) :
    (storeAt k cj u n).expiry = none := by
  refine storeAt_invariant (I := fun s => s.expiry = none)
    (fun s t hst hs => (SameBut_fields (k := k) hst).2.1.trans hs) rfl (fun n r hr hs => ?_) n
  obtain ⟨inv, env⟩ := r
  rw [ScriptRun.after, evicted_of_none hs]
  refine after_expiry inv env hs fun a ha => ?_
  subst ha
  exact h.noExpiration n env a hr

/-- Sequence numbers are bounded by what was put on the queue. -/
theorem seq_le_puts (k : Kind) (cj : Cjson) (u : ℕ → Option ScriptRun) (n : ℕ) :
    (storeAt k cj u n).seq ≤ ∑ i ∈ Finset.range n, atMoment k cj u (ScriptRun.puts k cj) i := by
  induction n with
  | zero => exact le_rfl
  | succ n ih =>
      rw [Finset.sum_range_succ, storeAt_succ, atMoment]
      cases hr : u n with
      | none => exact ih.trans (Nat.le_add_right _ _)
      | some r =>
          have hafter := after_seq_le k cj ((storeAt k cj u n).evicted r.env) r
          rw [puts_evicted, Store.evicted_seq] at hafter
          rw [(SameBut_fields (k := k) (step_some k cj _ r)).2.2.1, ScriptRun.after]
          exact hafter.trans (Nat.add_le_add_right ih _)

theorem Sequenced.evicted {s : Store} (h : Sequenced s) (env : Env) :
    Sequenced (s.evicted env) := by
  unfold Store.evicted
  split
  · exact fun m hm => absurd hm List.not_mem_nil
  · exact h

/-- Members are numbered in every run. -/
theorem storeAt_sequenced (k : Kind) (cj : Cjson) (u : ℕ → Option ScriptRun) (n : ℕ) :
    Sequenced (storeAt k cj u n) := by
  refine storeAt_invariant (I := Sequenced) (fun s t hst hs => ?_)
    (fun m hm => absurd hm List.not_mem_nil) (fun n r _ hs => ?_) n
  · obtain ⟨_, _, _, _, rfl⟩ := hst
    exact hs
  · exact after_sequenced k cj r.env (Sequenced.evicted hs r.env) r.inv

theorem FewPuts.seq_after (h : FewPuts k cj u) {n : ℕ} {r : ScriptRun} (hr : u n = some r) :
    (r.after k cj (storeAt k cj u n)).seq ≤ 2 ^ 53 := by
  have hseq := (SameBut_fields (k := k) (step_some k cj (storeAt k cj u n) r)).2.2.1
  have hbound := (seq_le_puts k cj u (n + 1)).trans (h (n + 1)).le
  rwa [storeAt_succ, hr, hseq] at hbound

/-- Pushes at the first `m` moments alone are few. -/
theorem FewPuts.of_le {m : ℕ} (hm : m < 2 ^ 53)
    (h : ∀ n, atMoment k cj u (ScriptRun.puts k cj) n ≤ if n < m then 1 else 0) :
    FewPuts k cj u := fun N =>
  calc
    ∑ n ∈ Finset.range N, atMoment k cj u (ScriptRun.puts k cj) n ≤
        ∑ n ∈ Finset.range N, if n < m then 1 else 0 := Finset.sum_le_sum fun n _ => h n
    _ = ((Finset.range N).filter fun n => n < m).card := (Finset.card_filter _ _).symm
    _ ≤ (Finset.range m).card :=
        Finset.card_le_card fun _ hn => Finset.mem_range.mpr (Finset.mem_filter.mp hn).2
    _ = m := Finset.card_range m
    _ < 2 ^ 53 := hm

/-- Each script run is one move of the custody. -/
theorem Undisturbed.move (h : Undisturbed k cj u) {n : ℕ} {r : ScriptRun} (hr : u n = some r) :
    (storeAt k cj u (n + 1)).custody k =
      ((storeAt k cj u n).custody k).apply (r.inv.move k cj r.env (storeAt k cj u n)) := by
  have hcustody := (SameBut_fields (k := k) (step_some k cj (storeAt k cj u n) r)).1
  have hbound := h.fewPuts.seq_after hr
  rw [storeAt_succ, hr]
  rw [ScriptRun.after, evicted_of_none (h.expiry n)] at hcustody hbound
  exact hcustody.trans
    (after_custody k cj r.env (storeAt_sequenced k cj u n) r.inv hbound).1

theorem Undisturbed.legal (h : Undisturbed k cj u) {n : ℕ} {r : ScriptRun} (hr : u n = some r) :
    ((storeAt k cj u n).custody k).Legal (r.inv.move k cj r.env (storeAt k cj u n)) := by
  obtain ⟨inv, env⟩ := r
  refine move_legal k cj env _ inv fun id item vt hinv => ?_
  subst hinv
  exact h.notPending n env id item vt hr

theorem Undisturbed.not_purge (h : Undisturbed k cj u) {n : ℕ} {r : ScriptRun}
    (hr : u n = some r) : r.inv ≠ .purge := by
  obtain ⟨inv, env⟩ := r
  rintro rfl
  exact h.noPurge n env hr

/-- What is in custody: what came in, less what went out. -/
theorem Undisturbed.items (h : Undisturbed k cj u) (N : ℕ) :
    ((storeAt k cj u N).custody k).total +
        ∑ n ∈ Finset.range N, atMoment k cj u (ScriptRun.itemsOut k cj) n =
      ∑ n ∈ Finset.range N, atMoment k cj u (ScriptRun.itemsIn k cj) n := by
  refine (Trajectory.balance (fun s : Store => (s.custody k).total)
    (atMoment k cj u (ScriptRun.itemsIn k cj)) (atMoment k cj u (ScriptRun.itemsOut k cj)) N
    fun n _ => ?_).trans ?_
  · show ((storeAt k cj u (n + 1)).custody k).total + atMoment k cj u _ n =
      ((storeAt k cj u n).custody k).total + atMoment k cj u _ n
    cases hr : u n with
    | none => simp only [storeAt_succ, hr, step_none, atMoment]
    | some r =>
        have hevicted := evicted_of_none (h.expiry n) r.env
        simp only [atMoment, hr, itemsIn_eq hevicted, itemsOut_eq hevicted (h.not_purge hr)]
        rw [h.move hr]
        exact Custody.total_balance _ _ (h.legal hr)
  · have hempty : (Store.empty.custody k).total = 0 := by cases k <;> rfl
    rw [hempty, zero_add]

/-- Entries: each that was made is there, or left by one finish or requeue. -/
theorem Undisturbed.entries (h : Undisturbed k cj u) (N : ℕ) :
    ((storeAt k cj u N).custody k).entries +
        ∑ n ∈ Finset.range N, atMoment k cj u (ScriptRun.entriesOut k cj) n =
      ∑ n ∈ Finset.range N, atMoment k cj u (ScriptRun.entriesIn k) n := by
  refine (Trajectory.balance (fun s : Store => (s.custody k).entries)
    (atMoment k cj u (ScriptRun.entriesIn k)) (atMoment k cj u (ScriptRun.entriesOut k cj)) N
    fun n _ => ?_).trans ?_
  · show ((storeAt k cj u (n + 1)).custody k).entries + atMoment k cj u _ n =
      ((storeAt k cj u n).custody k).entries + atMoment k cj u _ n
    cases hr : u n with
    | none => simp only [storeAt_succ, hr, step_none, atMoment]
    | some r =>
        have hevicted := evicted_of_none (h.expiry n) r.env
        simp only [atMoment, hr, entriesIn_eq cj hevicted,
          entriesOut_eq hevicted (h.not_purge hr)]
        rw [h.move hr]
        exact Custody.entries_balance _ _ (h.legal hr)
  · have hempty : (Store.empty.custody k).entries = 0 := by cases k <;> rfl
    rw [hempty, zero_add]

/-- `:stats` counts what happened. -/
theorem Undisturbed.stats (h : Undisturbed k cj u) (N : ℕ) :
    (storeAt k cj u N).stats =
      ⟨∑ n ∈ Finset.range N, atMoment k cj u (ScriptRun.submitted k cj) n,
        ∑ n ∈ Finset.range N, atMoment k cj u (ScriptRun.finishedInto k cj .completed) n,
        ∑ n ∈ Finset.range N, atMoment k cj u (ScriptRun.finishedInto k cj .failed) n⟩ := by
  induction N with
  | zero => rfl
  | succ N ih =>
      simp only [Finset.sum_range_succ, storeAt_succ]
      cases hr : u N with
      | none => simp only [step_none, atMoment, hr, add_zero, ih]
      | some r =>
          have hevicted := evicted_of_none (h.expiry N) r.env
          have hstats := (SameBut_fields (k := k) (step_some k cj (storeAt k cj u N) r)).2.2.2.2
          rw [hstats, ScriptRun.after, hevicted, after_stats hevicted (h.not_purge hr), ih]
          simp only [atMoment, hr]

/-- No item is lost or duplicated. -/
theorem items_conserved (h : Undisturbed k cj u) (N : ℕ) : Conserved k cj u N :=
  ⟨h.items N, h.entries N, h.stats N⟩

end Runs

/-- An item pushed, popped under the first ack ID of an object, and
acknowledged. -/
def pushPopAck : ℕ → Option ScriptRun
  | 0 => some ⟨.push ⟨[97], 0, 0, false, none⟩, .plain 0 fun _ => 0⟩
  | 1 => some ⟨.pop ⟨⟨ownerA, 1, second, second, false⟩, .one⟩, .plain 1 fun _ => 0⟩
  | 2 => some ⟨.finish ⟨ackIDOf ownerA 1 1, .completed, [], 0, 0⟩, .plain 2 fun _ => 0⟩
  | _ => none

theorem pushPopAck_undisturbed : Undisturbed .fifo .none pushPopAck where
  noExpiration n env a h := by
    rcases n with _ | _ | _ | n <;> simp only [pushPopAck, Option.some.injEq,
      ScriptRun.mk.injEq, Invocation.push.injEq, reduceCtorEq, false_and] at h
    rw [← h.1]
  noPurge n env h := by
    rcases n with _ | _ | _ | n <;> simp [pushPopAck] at h
  notPending n env id item vt h := by
    rcases n with _ | _ | _ | n <;> simp [pushPopAck] at h
  fewPuts := by
    refine FewPuts.of_le (m := 1) (by decide) fun n => ?_
    rcases n with _ | _ | _ | n <;> simp [atMoment, pushPopAck, ScriptRun.puts,
      ScriptRun.pushed, ScriptRun.requeued]
    split <;> simp

theorem items_conserved_pushPopAck : Conserved .fifo .none pushPopAck 3 :=
  items_conserved pushPopAck_undisturbed 3

end Redisq.Model
