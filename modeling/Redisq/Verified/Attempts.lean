import Mathlib.Data.List.InsertIdx
import Redisq.Model.Inspect
import Redisq.Verified.Custody
import Redisq.Verified.Records

/-!
# Attempts, job by job

Beside the store goes a ledger: for each waiting and each pending job how
often it went back to the queue since it was enqueued.  The code has no such
thing; it counts by envelope id.

Where no two jobs share an envelope id at a time, the count kept for an id is
its job's, unless a job starts with what an earlier one left: a raw pop, a
`Remove` and the expiry of the queue key drop a job, but not its count.
-/

namespace Redisq.Model

/-! ## The ledger -/

/-- How often each job went back: waiting ones in the order of a FIFO queue,
or by member, and pending ones by ack ID. -/
structure Ledger where
  queue : List ℕ
  member : Bytes → ℕ
  pending : Hash ℕ

namespace Ledger

/-- No jobs. -/
def empty : Ledger := ⟨[], fun _ => 0, ∅⟩

/-- The waiting jobs, in the order of `Store.items`. -/
def waiting (k : Kind) (s : Store) (g : Ledger) : List ℕ :=
  match k with
  | .fifo => g.queue
  | .prio => s.zset.members.map g.member

/-- How often the job pending under `ack` went back. -/
def returns (g : Ledger) (ack : Bytes) : ℕ :=
  (g.pending.lookup ack).getD 0

/-- A new job. -/
def enqueued (k : Kind) (s : Store) (item : Bytes) (g : Ledger) : Ledger :=
  match k with
  | .fifo => { g with queue := g.queue ++ [0] }
  | .prio => { g with member := Function.update g.member (memberOf (s.seq + 1) item) 0 }

/-- A job of a FIFO queue leaves it; those of a priority queue leave with
their members. -/
def popped (k : Kind) (s : Store) (ids : List Bytes) (g : Ledger) : Ledger :=
  { g with
    queue := g.queue.drop ids.length
    pending := g.pending.insertAll (ids.zip ((g.waiting k s).take ids.length)) }

/-- The job pending under `id` goes back to the queue. -/
def moved (k : Kind) (s : Store) (id : Bytes) (g : Ledger) : Ledger :=
  match s.nacked.lookup id with
  | none => g
  | some v =>
      match k with
      | .fifo => { g with queue := (g.returns id + 1) :: g.queue }
      | .prio =>
          { g with
            member := Function.update g.member (memberOf (s.seq + 1) v) (g.returns id + 1) }

/-- Jobs go back to the queue, one after the other. -/
def movedAll (k : Kind) (cj : Cjson) : List Bytes → Store → Ledger → Ledger
  | [], _, g => g
  | id :: rest, s, g => movedAll k cj rest (s.moved k cj id) (g.moved k s id)

/-- What a script run does to the jobs. -/
def after (k : Kind) (cj : Cjson) (env : Env) (s : Store) (g : Ledger) : Invocation → Ledger
  | .push a => if s.remembers env a then g else g.enqueued k s a.item
  | .rawPop => if s.paused.isSome then g else { g with queue := g.queue.tail }
  | .pop p => if s.holds p.ids ∨ s.paused.isSome then g else g.popped k s p.ids
  -- the same item under the same ack ID is the same job
  | .prepareAck id item _ =>
      if s.nacked.lookup id = some item then g else { g with pending := g.pending.insert id 0 }
  | .requeue vt => g.movedAll k cj (s.requeueIDs env vt) s
  | .sweep owner hbt => g.movedAll k cj (s.sweptIDs k cj env owner.name hbt) s
  | .release owner => g.movedAll k cj (s.pendingIDs env (Model.ownedBy owner.name)) s
  | .remove item => { g with queue := g.queue.eraseIdx (s.list.idxOf item) }
  | .purge => .empty
  | _ => g

/-- The queue key may have expired. -/
def evicted (env : Env) (s : Store) (g : Ledger) : Ledger :=
  if s.expiry.any (fun expiry => expiry < env.nowms) = true then { g with queue := [] } else g

end Ledger

/-- The ledger before moment `n` of a run. -/
def ledgerAt (k : Kind) (cj : Cjson) (u : ℕ → Option ScriptRun) : ℕ → Ledger
  | 0 => .empty
  | n + 1 =>
      match u n with
      | none => ledgerAt k cj u n
      | some r =>
          let s := storeAt k cj u n
          Ledger.after k cj r.env (s.evicted r.env) ((ledgerAt k cj u n).evicted r.env s) r.inv

/-! ## One job per envelope id -/

section OneJobPerID

variable (k : Kind) (cj : Cjson) (s : Store)

/-- The envelope ids of the jobs that wait or are pending. -/
def Store.liveIDs : Multiset Bytes :=
  ((s.custody k).total.map (envid cj)).filter fun e => e ≠ []

/-- No two jobs that wait or are pending share an envelope id. -/
def OneJobPerID : Prop := (s.liveIDs k cj).Nodup

variable {k cj s} {t : Store}

theorem Store.waiting_eq : s.waiting k = ↑(s.items k) := by
  cases k with
  | fifo => rfl
  | prio => rw [Store.waiting, Store.items, SortedSet.members, List.map_map]; rfl

/-- Fewer jobs share no id either. -/
theorem OneJobPerID.of_le (h : OneJobPerID k cj s)
    (hle : (t.custody k).total ≤ (s.custody k).total) : OneJobPerID k cj t :=
  Multiset.nodup_of_le (Multiset.filter_le_filter _ (Multiset.map_le_map hle)) h

/-- All jobs but the one pending under `id`. -/
def Store.others (k : Kind) (s : Store) (id : Bytes) : Multiset Bytes :=
  s.waiting k + (⟨s.waiting k, s.nacked.erase id⟩ : Custody Bytes Bytes).entries.map Prod.snd

theorem Store.total_eq {id v : Bytes} (hid : s.nacked.lookup id = some v) :
    (s.custody k).total = v ::ₘ s.others k id := by
  have hentry : (s.custody k).entryOf id = {(id, v)} := Custody.entryOf_of_some hid
  rw [Custody.total, (s.custody k).entries_erase id, hentry, Multiset.map_add,
    Multiset.map_singleton, add_left_comm, Multiset.singleton_add]
  rfl

/-- None of them has its envelope id. -/
theorem OneJobPerID.others (h : OneJobPerID k cj s) {id v w : Bytes}
    (hid : s.nacked.lookup id = some v) (hv : envid cj v ≠ []) (hw : w ∈ s.others k id) :
    envid cj w ≠ envid cj v := by
  intro heq
  have hnodup : (s.liveIDs k cj).Nodup := h
  rw [Store.liveIDs, Store.total_eq hid, Multiset.map_cons,
    Multiset.filter_cons_of_pos (p := fun e => e ≠ []) _ hv] at hnodup
  refine (Multiset.nodup_cons.mp hnodup).1 (Multiset.mem_filter.mpr ⟨?_, hv⟩)
  exact Multiset.mem_map.mpr ⟨w, hw, heq⟩

theorem Store.mem_others_of_items {id w : Bytes} (hw : w ∈ s.items k) : w ∈ s.others k id := by
  refine Multiset.mem_add.mpr (Or.inl ?_)
  rw [Store.waiting_eq]
  exact hw

theorem Store.mem_others_of_pending {id id' w : Bytes} (hne : id' ≠ id)
    (hw : s.nacked.lookup id' = some w) : w ∈ s.others k id := by
  refine Multiset.mem_add.mpr (Or.inr (Multiset.mem_map.mpr ⟨(id', w), ?_, rfl⟩))
  refine Multiset.mem_map.mpr ⟨⟨id', w⟩, ?_, rfl⟩
  exact Finmap.lookup_eq_some_iff.mp ((Finmap.lookup_erase_ne hne).trans hw)

/-- A push to the front adds one item, at most. -/
theorem Store.repushed_waiting_le {id v : Bytes} (hseq : (s.repushed k id v).seq < 2 ^ 63) :
    (s.repushed k id v).waiting k ≤ v ::ₘ s.waiting k := by
  cases k with
  | fifo => exact le_of_eq (Multiset.cons_coe v s.list).symm
  | prio =>
      have hseq : s.seq + 1 < 2 ^ 63 := hseq
      have hperm := (s.zset.insert_perm (memberOf (s.seq + 1) v) ((s.prio.lookup id).getD 1)).map
        fun e => itemOf (SortedSet.member e)
      show ((_ : List Bytes) : Multiset Bytes) ≤ _
      rw [Store.repushed, Multiset.coe_eq_coe.mpr hperm, List.map_cons, SortedSet.member_toLex,
        itemOf_memberOf_of_lt hseq, ← Multiset.cons_coe]
      exact Multiset.cons_le_cons _ (Multiset.coe_le.mpr
        (List.filter_sublist.map _).subperm)

/-- A move back to the queue adds no job. -/
theorem Store.moved_total_le {id : Bytes} (hseq : (s.moved k cj id).seq < 2 ^ 63) :
    ((s.moved k cj id).custody k).total ≤ (s.custody k).total := by
  cases hid : s.nacked.lookup id with
  | none =>
      rw [Store.moved_of_none hid]
      cases k <;> exact le_rfl
  | some v =>
      rw [Store.moved_of_some hid] at hseq ⊢
      have hseq : (s.repushed k id v).seq < 2 ^ 63 := hseq
      rw [Store.total_eq hid]
      calc
        (_ : Custody Bytes Bytes).total =
            (s.repushed k id v).waiting k +
              (⟨s.waiting k, s.nacked.erase id⟩ : Custody Bytes Bytes).entries.map Prod.snd := by
          cases k <;> rfl
        _ ≤ v ::ₘ s.waiting k +
              (⟨s.waiting k, s.nacked.erase id⟩ : Custody Bytes Bytes).entries.map Prod.snd :=
          Multiset.add_le_add_right (Store.repushed_waiting_le hseq)
        _ = v ::ₘ s.others k id := Multiset.cons_add _ _ _

theorem OneJobPerID.moved (h : OneJobPerID k cj s) {id : Bytes}
    (hseq : (s.moved k cj id).seq < 2 ^ 63) : OneJobPerID k cj (s.moved k cj id) :=
  h.of_le (Store.moved_total_le hseq)

end OneJobPerID

/-! ## The counts that are kept are the jobs' -/

/-- The count kept for each job's envelope id says how often the job went
back. -/
structure Tallied (k : Kind) (cj : Cjson) (s : Store) (g : Ledger) : Prop where
  waiting : g.waiting k s = (s.items k).map (s.kept cj)
  pending : Finmap.Follows (s.kept cj) s.nacked g.pending

section Tallied

variable {k : Kind} {cj : Cjson} {s t : Store} {g g' : Ledger}

theorem Store.kept_congr (h : t.attempts = s.attempts) : t.kept cj = s.kept cj := by
  funext item
  rw [Store.kept, Store.kept, h]

theorem waiting_prio {f : Bytes → ℕ} :
    g.waiting .prio s = (s.items .prio).map f ↔
      ∀ m ∈ s.zset.members, g.member m = f (itemOf m) := by
  rw [Ledger.waiting, Store.items, List.map_map]
  exact List.map_inj_left

theorem Tallied.kept_returns (h : Tallied k cj s g) {id item : Bytes}
    (hid : s.nacked.lookup id = some item) : g.returns id = s.kept cj item := by
  rw [Ledger.returns, h.pending id item hid]
  rfl

theorem empty_tallied : Tallied k cj Store.empty Ledger.empty where
  waiting := by cases k <;> rfl
  pending _ _ h := nomatch h

/-- Jobs may leave the queue from its ends. -/
theorem Tallied.of_pending (h : Tallied k cj s g) (hattempts : t.attempts = s.attempts)
    (hnacked : t.nacked = s.nacked) (hpending : g'.pending = g.pending)
    (hwaiting : g'.waiting k t = (t.items k).map (s.kept cj)) : Tallied k cj t g' where
  waiting := by rw [Store.kept_congr hattempts]; exact hwaiting
  pending id item hid := by
    rw [Store.kept_congr hattempts, hpending]
    exact h.pending id item (hnacked ▸ hid)

theorem Tallied.of_same (h : Tallied k cj s g) (hattempts : t.attempts = s.attempts)
    (hnacked : t.nacked = s.nacked) (hlist : t.list = s.list) (hzset : t.zset = s.zset) :
    Tallied k cj t g := by
  refine h.of_pending hattempts hnacked rfl ?_
  have hwaiting := h.waiting
  cases k with
  | fifo =>
      rw [Store.items, hlist]
      exact hwaiting
  | prio =>
      rw [Ledger.waiting, Store.items, hzset]
      exact hwaiting

theorem Tallied.evicted (h : Tallied k cj s g) (env : Env) :
    Tallied k cj (s.evicted env) (g.evicted env s) := by
  unfold Store.evicted Ledger.evicted
  split
  · refine h.of_pending rfl rfl rfl ?_
    cases k <;> rfl
  · exact h

/-- A job that starts with nothing kept for its envelope id. -/
theorem Tallied.pushed (h : Tallied k cj s g) (env : Env) (a : PushArgs)
    (hkept : s.kept cj a.item = 0) (hseq : (s.afterPush k env a).seq < 2 ^ 63)
    (hnew : s.remembers env a = false) :
    Tallied k cj (s.afterPush k env a) (g.enqueued k s a.item) := by
  have hwaiting := h.waiting
  rw [Store.afterPush, if_neg (by simp [hnew])] at hseq ⊢
  cases k with
  | fifo =>
      refine h.of_pending rfl rfl rfl ?_
      show g.queue ++ [0] = (s.list ++ [a.item]).map (s.kept cj)
      rw [List.map_append, List.map_singleton, hkept]
      exact congrArg (· ++ [0]) hwaiting
  | prio =>
      have hseq : s.seq + 1 < 2 ^ 63 := hseq
      refine h.of_pending rfl rfl rfl (waiting_prio.mpr fun m hm => ?_)
      show Function.update g.member (memberOf (s.seq + 1) a.item) 0 m = _
      by_cases heq : m = memberOf (s.seq + 1) a.item
      · rw [heq, Function.update_self, itemOf_memberOf_of_lt hseq, hkept]
      · rw [Function.update_of_ne heq]
        exact waiting_prio.mp hwaiting m ((SortedSet.mem_members_insert.mp hm).resolve_left heq)

theorem Tallied.rawPopped (h : Tallied k cj s g) :
    Tallied k cj (s.rawPopped k)
      (if s.paused.isSome then g else { g with queue := g.queue.tail }) := by
  have hwaiting := h.waiting
  unfold Store.rawPopped
  split
  · exact h
  · cases k with
    | fifo =>
        refine h.of_pending rfl rfl rfl ?_
        show g.queue.tail = s.list.tail.map (s.kept cj)
        rw [List.map_tail]
        exact congrArg List.tail hwaiting
    | prio =>
        refine h.of_pending rfl rfl rfl (waiting_prio.mpr fun m hm => ?_)
        obtain ⟨e, he, rfl⟩ := List.mem_map.mp hm
        exact waiting_prio.mp hwaiting _ (List.mem_map_of_mem (List.mem_of_mem_drop he))

theorem Tallied.removed (h : Tallied k cj s g) (item : Bytes) :
    Tallied k cj (s.removed k item)
      { g with queue := g.queue.eraseIdx (s.list.idxOf item) } := by
  have hwaiting := h.waiting
  cases k with
  | fifo =>
      refine h.of_pending rfl rfl rfl ?_
      show g.queue.eraseIdx (s.list.idxOf item) = (s.list.erase item).map (s.kept cj)
      rw [List.erase_eq_eraseIdx_of_idxOf rfl, ← List.eraseIdx_map]
      exact congrArg (·.eraseIdx (s.list.idxOf item)) hwaiting
  | prio =>
      simp only [Store.removed]
      split
      · refine h.of_pending rfl rfl rfl (waiting_prio.mpr fun m hm => ?_)
        exact waiting_prio.mp hwaiting m (SortedSet.mem_members_erase.mp hm).1
      · exact h.of_pending rfl rfl rfl hwaiting

theorem Store.head_eq (ids : List Bytes) : s.head k ids = (s.items k).take ids.length := by
  cases k with
  | fifo => rfl
  | prio =>
      rw [Store.head, Store.items, SortedSet.members, List.map_map, ← List.map_take]
      rfl

/-- A pop that makes entries takes the head off the queue. -/
theorem Store.poppedFresh_queue (env : Env) (a : PopArgs) (ids : List Bytes) (slots : ℕ) :
    (s.poppedFresh k env a ids slots).2.list = (s.beheaded k ids).list ∧
      (s.poppedFresh k env a ids slots).2.zset = (s.beheaded k ids).zset ∧
      (s.poppedFresh k env a ids slots).2.attempts = s.attempts := by
  unfold Store.poppedFresh
  simp only
  split
  · next hnil =>
      rw [Store.beheaded_of_head_nil hnil]
      exact ⟨rfl, rfl, rfl⟩
  · cases k <;> exact ⟨rfl, rfl, rfl⟩

/-- And the jobs along. -/
theorem Tallied.popped (h : Tallied k cj s g) (env : Env) (p : PopCall)
    (hfresh : ¬(s.holds p.ids = true ∨ s.paused.isSome = true)) :
    Tallied k cj (p.effect k env s).2 (g.popped k s p.ids) := by
  have hwaiting := h.waiting
  obtain ⟨hheld, hpaused⟩ := not_or.mp hfresh
  have hpop : p.effect k env s = s.poppedFresh k env p.args p.ids p.slots := by
    rw [PopCall.effect, Store.pop, if_neg hheld, if_neg hpaused]
  have hnacked := p.effect_nacked k env s
  rw [Store.taken, if_neg hfresh] at hnacked
  rw [hpop] at hnacked ⊢
  obtain ⟨hlist, hzset, hattempts⟩ :=
    Store.poppedFresh_queue (k := k) (s := s) env p.args p.ids p.slots
  refine ⟨?_, fun id item hid => ?_⟩
  · rw [Store.kept_congr hattempts]
    cases k with
    | fifo =>
        rw [Store.items, hlist]
        show g.queue.drop p.ids.length = (s.list.drop p.ids.length).map (s.kept cj)
        rw [List.map_drop]
        exact congrArg (List.drop p.ids.length) hwaiting
    | prio =>
        refine waiting_prio.mpr fun m hm => ?_
        rw [hzset] at hm
        obtain ⟨e, he, rfl⟩ := List.mem_map.mp hm
        exact waiting_prio.mp hwaiting _ (List.mem_map_of_mem (List.mem_of_mem_drop he))
  · rw [Store.kept_congr hattempts]
    rw [hnacked] at hid
    have hcounts : (g.waiting k s).take p.ids.length = (s.head k p.ids).map (s.kept cj) := by
      rw [hwaiting, ← List.map_take, Store.head_eq]
    show (g.pending.insertAll _).lookup id = _
    rw [hcounts, List.zip_map_right]
    exact h.pending.insertAll (p.ids.zip (s.head k p.ids)) id item hid

/-- An entry made by hand is a new job, unless it was there. -/
theorem Tallied.prepared (h : Tallied k cj s g) (env : Env) (id item : Bytes) (vt : Time)
    (hkept : s.nacked.lookup id ≠ some item → s.kept cj item = 0) :
    Tallied k cj (s.prepared env id item vt)
      (if s.nacked.lookup id = some item then g
        else { g with pending := g.pending.insert id 0 }) := by
  have hwaiting := h.waiting
  refine ⟨?_, ?_⟩
  · cases k <;> split <;> exact hwaiting
  · show Finmap.Follows (s.kept cj) (s.nacked.insert id item) _
    split
    · next hsame =>
        rw [Finmap.insert_of_lookup_some hsame]
        exact h.pending
    · next hnew =>
        rw [← hkept hnew]
        exact h.pending.insert id item

/-- Where the counts of the jobs that stay are kept, a job may leave. -/
theorem Tallied.of_kept (h : Tallied k cj s g) (id : Bytes) (hlist : t.list = s.list)
    (hzset : t.zset = s.zset) (hnacked : t.nacked = s.nacked.erase id)
    (hkept : ∀ w ∈ s.others k id, t.kept cj w = s.kept cj w) : Tallied k cj t g := by
  have hwaiting := h.waiting
  have hitems : t.items k = s.items k := by
    cases k with
    | fifo => exact hlist
    | prio => rw [Store.items, Store.items, hzset]
  refine ⟨?_, fun id' w hw => ?_⟩
  · have hmap : (s.items k).map (t.kept cj) = (s.items k).map (s.kept cj) :=
      List.map_congr_left fun w hw => hkept w (Store.mem_others_of_items hw)
    rw [hitems, hmap, ← hwaiting]
    cases k with
    | fifo => rfl
    | prio => rw [Ledger.waiting, Ledger.waiting, hzset]
  · rw [hnacked] at hw
    have hne : id' ≠ id := by
      rintro rfl
      rw [Finmap.lookup_erase] at hw
      cases hw
    rw [Finmap.lookup_erase_ne hne] at hw
    rw [hkept w (Store.mem_others_of_pending hne hw)]
    exact h.pending id' w hw

/-- A count is dropped with its job. -/
theorem Tallied.afterFinish (h : Tallied k cj s g) (hids : OneJobPerID k cj s) (a : FinishArgs) :
    Tallied k cj (s.afterFinish cj a) g := by
  unfold Store.afterFinish
  split
  · exact h
  · next item hitem =>
      refine h.of_kept a.ackID rfl rfl rfl fun w hw => ?_
      show (if envid cj w ≠ [] then
        ((s.finished cj a item).attempts.lookup (envid cj w)).getD 0 else 0) = s.kept cj w
      by_cases hid : envid cj item = []
      · simp only [Store.finished, hid, ne_eq, not_true_eq_false, if_false]
        rfl
      · have hne := hids.others hitem hid hw
        simp only [Store.finished, hid, ne_eq, not_false_eq_true, if_true,
          Finmap.lookup_erase_ne hne]
        rfl

/-- A job that goes back with an envelope id is counted once more, and no
other. -/
theorem Tallied.moved (h : Tallied k cj s g) (hids : OneJobPerID k cj s) {id : Bytes}
    (hcounted : ∀ v, s.nacked.lookup id = some v → envid cj v ≠ [])
    (hseq : (s.moved k cj id).seq < 2 ^ 63) : Tallied k cj (s.moved k cj id) (g.moved k s id) := by
  cases hid : s.nacked.lookup id with
  | none =>
      rw [Store.moved_of_none hid, Ledger.moved, hid]
      exact h.of_same rfl rfl rfl rfl
  | some v =>
      have hv := hcounted v hid
      have hleft : Tallied k cj
          { s with nacked := s.nacked.erase id, attempts := attempted cj v s.attempts } g := by
        refine h.of_kept id rfl rfl rfl fun w hw => ?_
        have hne := hids.others hid hv hw
        simp only [Store.kept, attempted, hv, ne_eq, not_false_eq_true, if_true,
          Finmap.lookup_insert_of_ne _ hne]
      have hself : ({ s with
            nacked := s.nacked.erase id
            attempts := attempted cj v s.attempts } : Store).kept cj v = g.returns id + 1 := by
        rw [h.kept_returns hid]
        simp only [Store.kept, attempted, hv, ne_eq, not_false_eq_true, if_true,
          Finmap.lookup_insert]
        rfl
      have hwaiting := hleft.waiting
      rw [Store.moved_of_some hid] at hseq ⊢
      rw [Ledger.moved, hid]
      cases k with
      | fifo =>
          refine hleft.of_pending rfl rfl rfl ?_
          show (g.returns id + 1) :: g.queue = (v :: s.list).map _
          rw [List.map_cons, hself]
          exact congrArg (_ :: ·) hwaiting
      | prio =>
          have hseq : s.seq + 1 < 2 ^ 63 := hseq
          refine hleft.of_pending rfl rfl rfl (waiting_prio.mpr fun m hm => ?_)
          show Function.update g.member (memberOf (s.seq + 1) v) (g.returns id + 1) m = _
          by_cases heq : m = memberOf (s.seq + 1) v
          · rw [heq, Function.update_self, itemOf_memberOf_of_lt hseq, hself]
          · rw [Function.update_of_ne heq]
            exact waiting_prio.mp hwaiting m ((SortedSet.mem_members_insert.mp hm).resolve_left heq)

/-- No entry of `ids` is without an envelope id. -/
def AllCounted (cj : Cjson) (s : Store) (ids : List Bytes) : Prop :=
  ∀ id ∈ ids, ∀ v, s.nacked.lookup id = some v → envid cj v ≠ []

theorem Tallied.movedAll (ids : List Bytes) :
    ∀ {s : Store} {g : Ledger}, Tallied k cj s g → OneJobPerID k cj s → AllCounted cj s ids →
      (ids.foldl (Store.moved k cj) s).seq < 2 ^ 63 →
      Tallied k cj (ids.foldl (Store.moved k cj) s) (g.movedAll k cj ids s) := by
  induction ids with
  | nil => exact fun h _ _ _ => h
  | cons id rest ih =>
      intro s g h hids hcounted hseq
      rw [List.foldl_cons] at hseq ⊢
      have hfirst := (Store.seq_le_movedAll k cj rest (s.moved k cj id)).trans_lt hseq
      refine ih (h.moved hids (hcounted id List.mem_cons_self) hfirst) (hids.moved hfirst)
        (fun id' hid' v hv => ?_) hseq
      rw [s.moved_nacked] at hv
      have hne : id' ≠ id := by
        rintro rfl
        rw [Finmap.lookup_erase] at hv
        cases hv
      rw [Finmap.lookup_erase_ne hne] at hv
      exact hcounted id' (List.mem_cons_of_mem id hid') v hv

/-- What a script run must not do: start a job with what is kept of an earlier
one, or send one back that has no envelope id. -/
def Miscounts (k : Kind) (cj : Cjson) (env : Env) (s : Store) : Invocation → Prop
  | .push a => s.remembers env a = false ∧ s.kept cj a.item ≠ 0
  | .prepareAck id item _ => s.nacked.lookup id ≠ some item ∧ s.kept cj item ≠ 0
  | .requeue vt => ¬AllCounted cj s (s.requeueIDs env vt)
  | .sweep owner hbt => ¬AllCounted cj s (s.sweptIDs k cj env owner.name hbt)
  | .release owner => ¬AllCounted cj s (s.pendingIDs env (Model.ownedBy owner.name))
  | _ => False

/-- Every other script run keeps the tally. -/
theorem Tallied.after (h : Tallied k cj s g) (hids : OneJobPerID k cj s) (env : Env)
    (inv : Invocation) (hseq : (inv.after k cj env s).seq < 2 ^ 63)
    (hnot : ¬Miscounts k cj env s inv) :
    Tallied k cj (inv.after k cj env s) (g.after k cj env s inv) := by
  cases inv with
  | push a =>
      have hrepeat : s.remembers env a = true → s.afterPush k env a = s := fun hrem => by
        rw [Store.afterPush, if_pos hrem]
      simp only [Invocation.after, Ledger.after] at hseq ⊢
      split
      · next hrem =>
          rw [hrepeat hrem]
          exact h
      · next hrem =>
          have hnew : s.remembers env a = false := by simpa using hrem
          exact h.pushed env a (by_contra fun hkept => hnot ⟨hnew, hkept⟩) hseq hnew
  | rawPop => exact h.rawPopped
  | pop p =>
      simp only [Ledger.after]
      split
      · next hstays =>
          have hsame : ∀ t, (p.effect k env s).2 = t → t.attempts = s.attempts ∧
              t.nacked = s.nacked ∧ t.list = s.list ∧ t.zset = s.zset := by
            rintro t rfl
            unfold PopCall.effect Store.pop
            split
            · exact ⟨rfl, rfl, rfl, rfl⟩
            · next hheld =>
                rw [if_pos (hstays.resolve_left hheld)]
                exact ⟨rfl, rfl, rfl, rfl⟩
          obtain ⟨hattempts, hnacked, hlist, hzset⟩ := hsame _ rfl
          exact h.of_same hattempts hnacked hlist hzset
      · next hfresh => exact h.popped env p hfresh
  | prepareAck id item vt =>
      exact h.prepared env id item vt fun hnew => by_contra fun hkept => hnot ⟨hnew, hkept⟩
  | finish a => exact h.afterFinish hids a
  | requeue vt => exact h.movedAll _ hids (not_not.mp hnot) hseq
  | sweep owner hbt =>
      simp only [Invocation.after, Store.swept_eq] at hseq ⊢
      exact (h.movedAll _ hids (not_not.mp hnot) hseq).of_same rfl rfl rfl rfl
  | release owner =>
      simp only [Invocation.after, Store.released] at hseq ⊢
      exact (h.movedAll _ hids (not_not.mp hnot) hseq).of_same rfl rfl rfl rfl
  | remove item => exact h.removed item
  | purge =>
      constructor
      · cases k <;> rfl
      · intro id item hid
        cases hid
  | pause => exact h.of_same rfl rfl rfl rfl
  | resume => exact h.of_same rfl rfl rfl rfl
  | _ => exact h

end Tallied

/-! ## What `Jobs` shows -/

/-- `Jobs` shows each waiting job with its count, and each pending one with
one more. -/
structure PerJob (k : Kind) (cj : Cjson) (env : Env) (s : Store) (g : Ledger) : Prop where
  waiting : ∀ a b, ((jobsScript k cj env .pending a b).exec s).1 =
    .rows ((page ((s.items k).zip (g.waiting k s)) a b).map fun p => .waiting cj p.1 p.2)
  pending : ∀ a b, ((jobsScript k cj env .processing a b).exec s).1 =
    .rows ((page (s.acks env) a b).map fun ack => .pending cj s ack (g.returns ack))

section PerJob

variable {k : Kind} {cj : Cjson} {env : Env} {s t : Store} {g : Ledger}

theorem Store.mem_acks {ack : Bytes} : ack ∈ s.acks env ↔ ack ∈ s.nacked := by
  rw [Store.acks, (List.perm_insertionSort _ _).mem_iff, env.mem_hkeys, Finmap.mem_keys]

theorem Store.lookup_of_mem_acks {ack : Bytes} (h : ack ∈ s.acks env) :
    s.nacked.lookup ack = some ((s.nacked.lookup ack).getD []) := by
  obtain ⟨item, hitem⟩ := Finmap.mem_iff.mp (Store.mem_acks.mp h)
  rw [hitem]
  rfl

theorem Tallied.perJob (h : Tallied k cj s g) (env : Env) : PerJob k cj env s g where
  waiting a b := by
    rw [jobsScript_exec, h.waiting, ← List.map_prod_left_eq_zip, page_map, List.map_map]
    rfl
  pending a b := by
    rw [jobsScript_exec]
    refine congrArg JobsReply.rows (List.map_congr_left fun ack hack => ?_)
    have hmem : ack ∈ s.acks env := List.mem_of_mem_take (List.mem_of_mem_drop hack)
    rw [h.kept_returns (Store.lookup_of_mem_acks hmem)]

/-- What the rows show is what is kept. -/
theorem PerJob.counts (h : PerJob k cj env s g) :
    ∀ p ∈ (s.items k).zip (g.waiting k s), p.2 = s.kept cj p.1 := by
  have hrows := h.waiting 0 (s.items k).length
  have hshort : ((s.items k).zip (g.waiting k s)).length ≤ (s.items k).length + 1 := by
    rw [List.length_zip]
    omega
  rw [jobsScript_exec, page, List.drop_zero, List.take_of_length_le hshort] at hrows
  have hrows := JobsReply.rows.inj hrows
  rw [page_all] at hrows
  intro p hp
  have hrow : JobRow.waiting cj p.1 p.2 ∈
      (s.items k).map fun v => JobRow.waiting cj v (s.kept cj v) := by
    rw [hrows]
    exact List.mem_map.mpr ⟨p, hp, rfl⟩
  obtain ⟨v, _, hv⟩ := List.mem_map.mp hrow
  obtain ⟨-, hitem, -, hcount⟩ := JobRow.mk.inj hv
  rw [← hitem, hcount]

theorem PerJob.returns (h : PerJob k cj env s g) {ack item : Bytes}
    (hack : s.nacked.lookup ack = some item) : g.returns ack = s.kept cj item := by
  have hrows := h.pending 0 (s.acks env).length
  rw [jobsScript_exec] at hrows
  have hrows := JobsReply.rows.inj hrows
  rw [page_all] at hrows
  have hmem : ack ∈ s.acks env := Store.mem_acks.mpr (Finmap.mem_iff.mpr ⟨item, hack⟩)
  have hrow := List.map_inj_left.mp hrows ack hmem
  obtain ⟨-, -, -, hcount⟩ := JobRow.mk.inj hrow
  rw [hack] at hcount
  exact (Nat.succ.inj hcount).symm

/-! ### A miscounted job shows -/

/-- A waiting job that is not shown with its count. -/
def Misshown (k : Kind) (cj : Cjson) (s : Store) (g : Ledger) : Prop :=
  (∃ p ∈ (s.items k).zip (g.waiting k s), p.2 ≠ s.kept cj p.1) ∨
    ∃ ack item, s.nacked.lookup ack = some item ∧ g.returns ack ≠ s.kept cj item

theorem PerJob.not_misshown (h : PerJob k cj env s g) : ¬Misshown k cj s g := by
  rintro (⟨p, hp, hne⟩ | ⟨ack, item, hack, hne⟩)
  · exact hne (h.counts p hp)
  · exact hne (h.returns hack)

theorem mem_jobs_prio {p : Bytes × ℕ} :
    p ∈ (s.items .prio).zip (g.waiting .prio s) ↔
      ∃ m ∈ s.zset.members, (itemOf m, g.member m) = p := by
  rw [Store.items, Ledger.waiting, List.zip_map', List.mem_map]

/-- A waiting job without envelope id that went back before. -/
def Strayed (k : Kind) (cj : Cjson) (s : Store) (g : Ledger) : Prop :=
  ∃ p ∈ (s.items k).zip (g.waiting k s), envid cj p.1 = [] ∧ p.2 ≠ 0

theorem Strayed.moved (h : Strayed k cj s g) (id : Bytes) :
    Strayed k cj (s.moved k cj id) (g.moved k s id) := by
  obtain ⟨p, hp, hstray, hcount⟩ := h
  cases hid : s.nacked.lookup id with
  | none =>
      rw [Store.moved_of_none hid, Ledger.moved, hid]
      refine ⟨p, ?_, hstray, hcount⟩
      cases k <;> exact hp
  | some v =>
      rw [Store.moved_of_some hid, Ledger.moved, hid]
      cases k with
      | fifo => exact ⟨p, List.mem_cons_of_mem _ hp, hstray, hcount⟩
      | prio =>
          obtain ⟨m, hm, rfl⟩ := mem_jobs_prio.mp hp
          refine ⟨_, mem_jobs_prio.mpr ⟨m, SortedSet.mem_members_insert.mpr (Or.inr hm), rfl⟩,
            hstray, ?_⟩
          show Function.update g.member _ _ m ≠ 0
          by_cases heq : m = memberOf (s.seq + 1) v
          · rw [heq, Function.update_self]
            exact Nat.succ_ne_zero _
          · rw [Function.update_of_ne heq]
            exact hcount

theorem strayed_moved {id v : Bytes} (hid : s.nacked.lookup id = some v) (hv : envid cj v = [])
    (hseq : (s.moved k cj id).seq < 2 ^ 63) :
    Strayed k cj (s.moved k cj id) (g.moved k s id) := by
  rw [Store.moved_of_some hid] at hseq ⊢
  rw [Ledger.moved, hid]
  cases k with
  | fifo => exact ⟨(v, g.returns id + 1), List.mem_cons_self, hv, Nat.succ_ne_zero _⟩
  | prio =>
      have hseq : s.seq + 1 < 2 ^ 63 := hseq
      refine ⟨_, mem_jobs_prio.mpr
        ⟨memberOf (s.seq + 1) v, SortedSet.mem_members_insert.mpr (Or.inl rfl), rfl⟩, ?_, ?_⟩
      · rw [itemOf_memberOf_of_lt hseq]
        exact hv
      · show Function.update g.member _ _ _ ≠ 0
        rw [Function.update_self]
        exact Nat.succ_ne_zero _

theorem Strayed.movedAll (ids : List Bytes) :
    ∀ {s : Store} {g : Ledger}, Strayed k cj s g →
      Strayed k cj (ids.foldl (Store.moved k cj) s) (g.movedAll k cj ids s) := by
  induction ids with
  | nil => exact fun h => h
  | cons id rest ih => exact fun h => ih (h.moved id)

theorem strayed_movedAll (ids : List Bytes) :
    ∀ {s : Store} {g : Ledger}, ¬AllCounted cj s ids →
      (ids.foldl (Store.moved k cj) s).seq < 2 ^ 63 →
      Strayed k cj (ids.foldl (Store.moved k cj) s) (g.movedAll k cj ids s) := by
  induction ids with
  | nil => exact fun h _ => absurd (fun id hid => absurd hid List.not_mem_nil) h
  | cons id rest ih =>
      intro s g h hseq
      by_cases hfirst : ∀ v, s.nacked.lookup id = some v → envid cj v ≠ []
      · refine ih (fun hrest => h fun id' hid' v hv => ?_) hseq
        by_cases heq : id' = id
        · exact hfirst v (heq ▸ hv)
        · refine hrest id' ((List.mem_cons.mp hid').resolve_left heq) v ?_
          rw [s.moved_nacked, Finmap.lookup_erase_ne heq]
          exact hv
      · push Not at hfirst
        obtain ⟨v, hv, hstray⟩ := hfirst
        exact (strayed_moved hv hstray
          ((Store.seq_le_movedAll k cj rest (s.moved k cj id)).trans_lt hseq)).movedAll rest

theorem Strayed.misshown (h : Strayed k cj s g) : Misshown k cj s g := by
  obtain ⟨p, hp, hstray, hcount⟩ := h
  refine Or.inl ⟨p, hp, ?_⟩
  rw [Store.kept, if_neg (by simp [hstray])]
  exact hcount

/-- A job that is miscounted is shown so. -/
theorem Tallied.misshown (h : Tallied k cj s g) (env : Env) (inv : Invocation)
    (hseq : (inv.after k cj env s).seq < 2 ^ 63) (hmis : Miscounts k cj env s inv) :
    Misshown k cj (inv.after k cj env s) (g.after k cj env s inv) := by
  cases inv with
  | push a =>
      obtain ⟨hnew, hkept⟩ := hmis
      have hrem : ¬s.remembers env a = true := by simp [hnew]
      simp only [Invocation.after, Ledger.after, Store.afterPush, hrem] at hseq ⊢
      refine Or.inl ⟨(a.item, 0), ?_, ?_⟩
      · have hwaiting := h.waiting
        cases k with
        | fifo =>
            show _ ∈ (s.list ++ [a.item]).zip (g.queue ++ [0])
            rw [List.zip_append (by rw [show g.queue = _ from hwaiting, List.length_map]; rfl)]
            exact List.mem_append_right _ List.mem_cons_self
        | prio =>
            have hseq : s.seq + 1 < 2 ^ 63 := hseq
            refine mem_jobs_prio.mpr ⟨memberOf (s.seq + 1) a.item,
              SortedSet.mem_members_insert.mpr (Or.inl rfl), Prod.ext ?_ ?_⟩
            · exact itemOf_memberOf_of_lt hseq a.item
            · exact Function.update_self ..
      · have hattempts : ∀ d, ({ s.pushed k env a with dedup := d } : Store).kept cj =
            s.kept cj := fun d => Store.kept_congr (by cases k <;> rfl)
        simp only [Bool.false_eq_true, if_false, hattempts]
        exact hkept.symm
  | prepareAck id item vt =>
      obtain ⟨hnew, hkept⟩ := hmis
      refine Or.inr ⟨id, item, Finmap.lookup_insert _, ?_⟩
      simp only [Ledger.after, hnew, if_false, Ledger.returns, Finmap.lookup_insert]
      exact hkept.symm
  | requeue vt => exact (strayed_movedAll _ hmis hseq).misshown
  | sweep owner hbt =>
      simp only [Invocation.after, Store.swept_eq] at hseq ⊢
      have hstray := (strayed_movedAll (g := g) _ hmis hseq).misshown
      cases k <;> exact hstray
  | release owner =>
      simp only [Invocation.after, Store.released] at hseq ⊢
      have hstray := (strayed_movedAll (g := g) _ hmis hseq).misshown
      cases k <;> exact hstray
  | _ => exact hmis.elim

end PerJob

/-! ## Records -/

section Records

variable {s : Store} {id rec : Bytes}

theorem Records.lookup_of_trimmed {r : Records} {state : JobState} {keep age : ℤ} {now : ℕ}
    (h : (r.trimmed state keep age now).jobs.lookup id = some rec) :
    r.jobs.lookup id = some rec := by
  rw [Records.trimmed, Records.without, Finmap.lookup_eraseAll] at h
  split at h
  · cases h
  · exact h

/-- A record is the one a finish wrote, or older. -/
theorem Records.lookup_of_finished {r : Records} {env : Env} {a : FinishArgs} {id' rec' : Bytes}
    (h : (r.finished env a id' rec').jobs.lookup id = some rec) :
    (id = id' ∧ rec = rec') ∨ r.jobs.lookup id = some rec := by
  have hstored := Records.lookup_of_trimmed h
  by_cases heq : id = id'
  · subst heq
    unfold Records.stored at hstored
    simp only at hstored
    split at hstored
    · simp only [Records.jobs_set, Finmap.lookup_insert] at hstored
      exact Or.inl ⟨rfl, (Option.some.inj hstored).symm⟩
    · simp only [Records.jobs_set, Finmap.lookup_erase] at hstored
      cases hstored
  · unfold Records.stored at hstored
    simp only at hstored
    split at hstored
    · simp only [Records.jobs_set, Finmap.lookup_insert_of_ne _ heq] at hstored
      exact Or.inr hstored
    · simp only [Records.jobs_set, Finmap.lookup_erase_ne heq] at hstored
      exact Or.inr hstored

end Records

/-! ## Runs -/

section Runs

variable (k : Kind) (cj : Cjson) (u : ℕ → Option ScriptRun)

/-- At moment `n` a job starts with the count of an earlier one, or one
without envelope id goes back. -/
def MiscountsAt (n : ℕ) : Prop :=
  ∃ r, u n = some r ∧ Miscounts k cj r.env ((storeAt k cj u n).evicted r.env) r.inv

/-- A record that a finish left, with one attempt more than its job went back. -/
def Recorded (n : ℕ) (id rec : Bytes) : Prop :=
  ∃ m < n, ∃ a env item, u m = some ⟨.finish a, env⟩ ∧
    (storeAt k cj u m).nacked.lookup a.ackID = some item ∧ id = jobID cj a.ackID item ∧
    rec = jobRecord cj env a id item ((storeAt k cj u m).started.lookup a.ackID)
      (1 + (ledgerAt k cj u m).returns a.ackID)

/-- The attempts before moment `n`: every row of `Jobs` and every record says
how often that job itself went back. -/
structure AttemptsPerJob (n : ℕ) : Prop where
  rows : ∀ env, PerJob k cj env ((storeAt k cj u n).evicted env)
    ((ledgerAt k cj u n).evicted env (storeAt k cj u n))
  records : ∀ id rec, (storeAt k cj u n).jobs.lookup id = some rec → Recorded k cj u n id rec

variable {k cj u} {n : ℕ} {r : ScriptRun}

theorem ledgerAt_succ (hr : u n = some r) :
    ledgerAt k cj u (n + 1) =
      ((ledgerAt k cj u n).evicted r.env (storeAt k cj u n)).after k cj r.env
        ((storeAt k cj u n).evicted r.env) r.inv := by
  rw [ledgerAt, hr]

theorem ledgerAt_succ_none (hr : u n = none) :
    ledgerAt k cj u (n + 1) = ledgerAt k cj u n := by
  rw [ledgerAt, hr]

/-- An expired queue key leaves fewer jobs. -/
theorem OneJobPerID.evicted {s : Store} (h : OneJobPerID k cj s) (env : Env) :
    OneJobPerID k cj (s.evicted env) := by
  refine h.of_le ?_
  unfold Store.evicted
  split
  · refine Multiset.add_le_add_right ?_
    cases k <;> exact Multiset.zero_le _
  · exact le_rfl

theorem seq_after (hseq : ∀ n, (storeAt k cj u n).seq < 2 ^ 63) (hr : u n = some r) :
    (r.inv.after k cj r.env ((storeAt k cj u n).evicted r.env)).seq < 2 ^ 63 := by
  have hnext := hseq (n + 1)
  obtain ⟨_, _, _, _, h⟩ := step_some k cj (storeAt k cj u n) r
  rw [storeAt_succ, hr, h] at hnext
  exact hnext

/-- One moment keeps the tally. -/
theorem tallied_step (hseq : ∀ n, (storeAt k cj u n).seq < 2 ^ 63)
    (hids : OneJobPerID k cj (storeAt k cj u n))
    (h : Tallied k cj (storeAt k cj u n) (ledgerAt k cj u n)) (hnot : ¬MiscountsAt k cj u n) :
    Tallied k cj (storeAt k cj u (n + 1)) (ledgerAt k cj u (n + 1)) := by
  cases hr : u n with
  | none =>
      rw [storeAt_succ_none hr, ledgerAt_succ_none hr]
      exact h
  | some r =>
      rw [ledgerAt_succ hr]
      have hafter := (h.evicted r.env).after (hids.evicted r.env) r.env r.inv (seq_after hseq hr)
        fun hmis => hnot ⟨r, hr, hmis⟩
      obtain ⟨_, _, _, _, hsame⟩ := step_some k cj (storeAt k cj u n) r
      rw [storeAt_succ, hr, hsame]
      exact hafter.of_same rfl rfl rfl rfl

/-- A miscount shows at the next moment. -/
theorem misshown_step (hseq : ∀ n, (storeAt k cj u n).seq < 2 ^ 63)
    (h : Tallied k cj (storeAt k cj u n) (ledgerAt k cj u n)) (hmis : MiscountsAt k cj u n) :
    Misshown k cj (storeAt k cj u (n + 1)) (ledgerAt k cj u (n + 1)) := by
  obtain ⟨r, hr, hmis⟩ := hmis
  rw [ledgerAt_succ hr]
  have hshown := (h.evicted r.env).misshown r.env r.inv (seq_after hseq hr) hmis
  obtain ⟨_, _, _, _, hsame⟩ := step_some k cj (storeAt k cj u n) r
  rw [storeAt_succ, hr, hsame]
  cases k <;> exact hshown

/-- A server whose clock has not started sees no key expired. -/
theorem evicted_at_zero (s : Store) (g : Ledger) :
    s.evicted (.plain 0 fun _ => 0) = s ∧ g.evicted (.plain 0 fun _ => 0) s = g := by
  have hnone : ¬s.expiry.any (fun expiry => expiry < (Env.plain 0 fun _ => 0).nowms) = true := by
    cases s.expiry with
    | none => exact nofun
    | some t => simp [Env.nowms, Env.plain]
  exact ⟨if_neg hnone, if_neg hnone⟩

theorem AttemptsPerJob.not_misshown (h : AttemptsPerJob k cj u n) :
    ¬Misshown k cj (storeAt k cj u n) (ledgerAt k cj u n) := by
  have hrows := h.rows (.plain 0 fun _ => 0)
  obtain ⟨hstore, hledger⟩ := evicted_at_zero (storeAt k cj u n) (ledgerAt k cj u n)
  rw [hstore, hledger] at hrows
  exact hrows.not_misshown

/-- What a finish records. -/
theorem Tallied.recordOf {s : Store} {g : Ledger} (h : Tallied k cj s g) (env : Env)
    (a : FinishArgs) {item : Bytes} (hitem : s.nacked.lookup a.ackID = some item) :
    s.recordOf cj env a item =
      jobRecord cj env a (jobID cj a.ackID item) item (s.started.lookup a.ackID)
        (1 + g.returns a.ackID) := by
  rw [Store.recordOf, h.kept_returns hitem, Store.attemptsOf, Store.kept]
  congr 1
  split <;> rfl

theorem Recorded.mono {m : ℕ} (hmn : m ≤ n) {id rec : Bytes} (h : Recorded k cj u m id rec) :
    Recorded k cj u n id rec := by
  obtain ⟨i, hi, hrest⟩ := h
  exact ⟨i, hi.trans_le hmn, hrest⟩

theorem recorded_step (h : Tallied k cj (storeAt k cj u n) (ledgerAt k cj u n))
    (hrecorded : ∀ id rec, (storeAt k cj u n).jobs.lookup id = some rec →
      Recorded k cj u n id rec) (id rec : Bytes)
    (hrec : (storeAt k cj u (n + 1)).jobs.lookup id = some rec) :
    Recorded k cj u (n + 1) id rec := by
  have hold : (storeAt k cj u n).jobs.lookup id = some rec → Recorded k cj u (n + 1) id rec :=
    fun hbefore => (hrecorded id rec hbefore).mono (Nat.le_succ n)
  have hjobs : (storeAt k cj u (n + 1)).records.jobs.lookup id = some rec := hrec
  have hstep := storeAt_recordsStep k cj u n
  generalize (storeAt k cj u (n + 1)).records = r at hstep hjobs
  cases hstep with
  | same => exact hold hjobs
  | finishes a env item hr hitem =>
      obtain ⟨rfl, rfl⟩ | hbefore := Records.lookup_of_finished hjobs
      · exact ⟨n, Nat.lt_succ_self n, a, env, item, hr, hitem, rfl, h.recordOf env a hitem⟩
      · exact hold hbefore
  | trims kc ac kf af now =>
      exact hold (Records.lookup_of_trimmed (Records.lookup_of_trimmed hjobs))
  | purged => cases hjobs

/-- The attempts are each job's own all along a run exactly if no job starts
with the count of an earlier one, and none without envelope id goes back. -/
theorem attempts_per_job_iff (hseq : ∀ n, (storeAt k cj u n).seq < 2 ^ 63)
    (hids : ∀ n, OneJobPerID k cj (storeAt k cj u n)) :
    (∀ n, AttemptsPerJob k cj u n) ↔ ∀ n, ¬MiscountsAt k cj u n := by
  constructor
  · intro h
    have htallied : ∀ n, Tallied k cj (storeAt k cj u n) (ledgerAt k cj u n) := by
      intro n
      induction n with
      | zero => exact empty_tallied
      | succ n ih =>
          refine tallied_step hseq (hids n) ih fun hmis => ?_
          exact (h (n + 1)).not_misshown (misshown_step hseq ih hmis)
    exact fun n hmis => (h (n + 1)).not_misshown (misshown_step hseq (htallied n) hmis)
  · intro hnot n
    have hboth : ∀ n, Tallied k cj (storeAt k cj u n) (ledgerAt k cj u n) ∧
        ∀ id rec, (storeAt k cj u n).jobs.lookup id = some rec → Recorded k cj u n id rec := by
      intro n
      induction n with
      | zero =>
          constructor
          · exact empty_tallied
          · intro id rec hrec
            cases hrec
      | succ n ih =>
          exact ⟨tallied_step hseq (hids n) ih.1 (hnot n), recorded_step ih.1 ih.2⟩
    exact ⟨fun env => ((hboth n).1.evicted env).perJob env, (hboth n).2⟩

end Runs

/-! ## A job that goes back, and one that inherits -/

instance (k : Kind) (cj : Cjson) (s : Store) : Decidable (OneJobPerID k cj s) :=
  inferInstanceAs (Decidable (s.liveIDs k cj).Nodup)

/-- What holds of a run's first five moments and at the end. -/
theorem forall_of_five {u : ℕ → Option ScriptRun} (hrest : ∀ i, 5 ≤ i → u i = none)
    {P : Store → Prop} (h : ∀ n ≤ 5, P (storeAt .fifo oneEnvelope u n)) (n : ℕ) :
    P (storeAt .fifo oneEnvelope u n) := by
  obtain hn | hn := Nat.le_total n 5
  · exact h n hn
  · rw [storeAt_of_none hrest hn]
    exact h 5 le_rfl

/-- A job is popped, goes back, is popped again and acknowledged. -/
def retriedJob : ℕ → Option ScriptRun
  | 0 => some ⟨.push ⟨[88], 0, 0, false, none⟩, .plain 0 fun _ => 0⟩
  | 1 => some ⟨.pop ⟨⟨ownerA, 0, 0, 0, false⟩, .one⟩, .plain 1 fun _ => 0⟩
  | 2 => some ⟨.requeue 0, .plain 2 fun _ => 0⟩
  | 3 => some ⟨.pop ⟨⟨ownerA, 1, 0, 0, false⟩, .one⟩, .plain 3 fun _ => 0⟩
  | 4 => some ⟨.finish ⟨ackIDOf ownerA 1 1, .completed, [], 10, 1000⟩, .plain 4 fun _ => 0⟩
  | _ => none

theorem attempts_per_job_retriedJob : AttemptsPerJob .fifo oneEnvelope retriedJob 5 := by
  have hrest : ∀ i, 5 ≤ i → retriedJob i = none := fun i hi => by
    match i, hi with
    | i + 5, _ => rfl
  refine (attempts_per_job_iff (forall_of_five (P := fun s => s.seq < 2 ^ 63) hrest (by decide))
    (forall_of_five (P := OneJobPerID .fifo oneEnvelope) hrest (by decide))).mpr ?_ 5
  rintro n ⟨r, hr, hmis⟩
  match n, hr with
  | 0, rfl => exact absurd hmis.2 (by decide)
  | 1, rfl => exact hmis
  | 2, rfl =>
      refine hmis fun id hid v hv => ?_
      have hall : Store.requeueIDs (.plain 2 fun _ => 0) 0
          ((storeAt .fifo oneEnvelope retriedJob 2).evicted (.plain 2 fun _ => 0)) =
            [ackIDOf ownerA 0 1] := by decide
      have hitem : ((storeAt .fifo oneEnvelope retriedJob 2).evicted
          (.plain 2 fun _ => 0)).nacked.lookup (ackIDOf ownerA 0 1) = some [88] := by decide
      rw [hall] at hid
      rw [List.mem_singleton.mp hid, hitem] at hv
      rw [← Option.some.inj hv]
      decide
  | 3, rfl => exact hmis
  | 4, rfl => exact hmis

/-- A job goes back and is then taken by a raw pop; another job reuses its
envelope id. -/
def reusedID : ℕ → Option ScriptRun
  | 0 => some ⟨.push ⟨[88], 0, 0, false, none⟩, .plain 0 fun _ => 0⟩
  | 1 => some ⟨.pop ⟨⟨ownerA, 0, 0, 0, false⟩, .one⟩, .plain 1 fun _ => 0⟩
  | 2 => some ⟨.requeue 0, .plain 2 fun _ => 0⟩
  | 3 => some ⟨.rawPop, .plain 3 fun _ => 0⟩
  | 4 => some ⟨.push ⟨[88], 0, 0, false, none⟩, .plain 4 fun _ => 0⟩
  | _ => none

/-- It is shown with one attempt before it was ever popped. -/
theorem reusedID_inherits :
    (∀ n, (storeAt .fifo oneEnvelope reusedID n).seq < 2 ^ 63) ∧
      (∀ n, OneJobPerID .fifo oneEnvelope (storeAt .fifo oneEnvelope reusedID n)) ∧
      ¬AttemptsPerJob .fifo oneEnvelope reusedID 5 := by
  have hrest : ∀ i, 5 ≤ i → reusedID i = none := fun i hi => by
    match i, hi with
    | i + 5, _ => rfl
  refine ⟨forall_of_five (P := fun s => s.seq < 2 ^ 63) hrest (by decide),
    forall_of_five (P := OneJobPerID .fifo oneEnvelope) hrest (by decide), fun h => ?_⟩
  exact h.not_misshown (Or.inl ⟨([88], 0), by decide, by decide⟩)

end Redisq.Model
