import Redisq.Library.StableQueue
import Redisq.Verified.Conservation
import Redisq.Verified.Sidecars

/-!
# The priority queue is a stable priority queue

Members of the sorted set carry sequence numbers, so that equal items stay
apart and the set lists items of one priority as they came.  Read as a stable
priority queue (`Store.stableQueue`), the keys of a priority queue make its
steps, whatever bytes the items are, and a pop's reply is what the step hands
out (`prio_refines`).
-/

namespace Redisq.Model

open StableQueue (append ofList Takes TakesUpTo)

/-! ## The keys as a stable priority queue -/

/-- The priority and the item of an entry of the sorted set. -/
def entryOf (e : ℤ ×ₗ Bytes) : ℤ × Bytes :=
  (SortedSet.rank e, itemOf (SortedSet.member e))

/-- What the keys of a priority queue hold. -/
def Store.stableQueue (s : Store) : StableQueue Bytes ℤ Bytes where
  waiting := ofList (s.zset.entries.map entryOf)
  pending id := (s.nacked.lookup id).map fun v => (v, (s.prio.lookup id).getD 1)

/-- Only pending items have a priority kept. -/
def PrioPending (s : Store) : Prop :=
  ∀ id, s.nacked.lookup id = none → s.prio.lookup id = none

/-- What a script run does to the stable priority queue, with what its reply
hands out. -/
def ScriptRun.action (cj : Cjson) (s : Store) (r : ScriptRun) :
    StableQueue.Action Bytes ℤ Bytes :=
  match r.inv with
  | .push a => if s.remembers r.env a then .rest else .push a.priority a.item
  | .rawPop => if s.paused.isSome then .rest else .take (r.reply .prio cj s).items
  | .pop p =>
      if s.holds p.ids ∨ s.paused.isSome then .rest else .pop p.ids (r.reply .prio cj s).items
  | .prepareAck id item _ => .lodge id item
  | .finish a => .finish a.ackID
  | .requeue vt => .requeue ((Invocation.requeue vt).requeuedIDs .prio cj r.env s)
  | .sweep owner hbt => .requeue ((Invocation.sweep owner hbt).requeuedIDs .prio cj r.env s)
  | .release owner => .requeue ((Invocation.release owner).requeuedIDs .prio cj r.env s)
  | .purge => .clear
  | _ => .rest

/-! ## The sorted set -/

theorem entries_ordered (z : ZSet) : (z.entries.map entryOf).Pairwise fun e e' => e.1 ≤ e'.1 := by
  rw [List.pairwise_map]
  refine z.sorted.imp fun {e e'} h => ?_
  exact (Prod.Lex.le_iff'.mp h).1

/-- A push puts its item behind all of its priority. -/
theorem Sequenced.waiting_insert {s : Store} (hs : Sequenced s) (hseq : s.seq + 1 ≤ 2 ^ 53)
    (v : Bytes) (p : ℤ) :
    ofList ((s.zset.insert (memberOf (s.seq + 1) v) p).entries.map entryOf) =
      append (ofList (s.zset.entries.map entryOf)) p v := by
  obtain ⟨l₁, l₂, hold, hnew, hlater⟩ := SortedSet.insert_split (hs.notMem hseq v) p
  have hentry : entryOf (toLex (p, memberOf (s.seq + 1) v)) = (p, v) := by
    rw [entryOf, SortedSet.rank_toLex, SortedSet.member_toLex, itemOf_memberOf hseq]
  rw [hnew, List.map_append, List.map_cons, hentry, hold, List.map_append]
  refine StableQueue.ofList_insert v fun x hx hrank => ?_
  obtain ⟨e, he, rfl⟩ := List.mem_map.mp hx
  -- What comes later has the same priority only under a greater number.
  have hmember : memberOf (s.seq + 1) v ≤ SortedSet.member e :=
    (Prod.Lex.le_iff'.mp (hlater e he)).2 hrank.symm
  have hmem : SortedSet.member e ∈ s.zset.members :=
    List.mem_map_of_mem (hold ▸ List.mem_append_right l₁ he)
  obtain ⟨n, w, hn, heq⟩ := hs _ hmem
  rw [heq] at hmember
  exact absurd hmember (not_le.mpr (memberOf_lt hseq (Nat.lt_succ_of_le hn) w v))

/-! ## Requeues -/

/-- A requeue step puts one pending item back. -/
theorem Store.moved_stableQueue (cj : Cjson) {s : Store} (hs : Sequenced s) (id : Bytes)
    (hseq : (s.moved .prio cj id).seq ≤ 2 ^ 53) :
    (s.moved .prio cj id).stableQueue = s.stableQueue.requeueOne id := by
  cases h : s.nacked.lookup id with
  | none =>
      have hnone : s.stableQueue.pending id = none := by simp [Store.stableQueue, h]
      rw [Store.moved_of_none h, StableQueue.requeueOne, hnone]
      rfl
  | some v =>
      have hsome : s.stableQueue.pending id = some (v, (s.prio.lookup id).getD 1) := by
        simp [Store.stableQueue, h]
      rw [Store.moved_of_some h] at hseq ⊢
      rw [StableQueue.requeueOne, hsome]
      have hwaiting := hs.waiting_insert (v := v) (p := (s.prio.lookup id).getD 1) hseq
      simp only [Store.stableQueue, Store.repushed, StableQueue.mk.injEq]
      refine ⟨hwaiting, ?_⟩
      funext id'
      by_cases hid : id' = id
      · subst hid
        simp
      · rw [Finmap.lookup_erase_ne hid, Finmap.lookup_erase_ne hid, Function.update_of_ne hid]

theorem Store.movedAll_stableQueue (cj : Cjson) (ids : List Bytes) :
    ∀ {s : Store}, Sequenced s → (ids.foldl (Store.moved .prio cj) s).seq ≤ 2 ^ 53 →
      (ids.foldl (Store.moved .prio cj) s).stableQueue =
        ids.foldl StableQueue.requeueOne s.stableQueue := by
  induction ids with
  | nil => exact fun _ _ => rfl
  | cons id rest ih =>
      intro s hs hseq
      have hfirst := (Store.seq_le_movedAll .prio cj rest (s.moved .prio cj id)).trans hseq
      rw [List.foldl_cons, ih (Store.moved_custody .prio cj hs id fun _ => hfirst).2 hseq,
        Store.moved_stableQueue cj hs id hfirst, List.foldl_cons]

/-! ## Pops -/

/-- Entries made pending with their priorities. -/
theorem pend_insertAll (ids : List Bytes) (taken : List (ℤ × Bytes)) :
    ∀ nacked prio : Hash _,
      (fun id => ((nacked.insertAll (ids.zip (taken.map Prod.snd))).lookup id).map fun v : Bytes =>
          (v, ((prio.insertAll (ids.zip (taken.map Prod.fst))).lookup id).getD (1 : ℤ))) =
        StableQueue.pend
          (fun id => (nacked.lookup id).map fun v => (v, (prio.lookup id).getD 1))
          (ids.zip taken) := by
  induction ids generalizing taken with
  | nil => exact fun _ _ => rfl
  | cons id rest ih =>
      intro nacked prio
      cases taken with
      | nil => rfl
      | cons e taken =>
          obtain ⟨p, v⟩ := e
          simp only [List.map_cons, List.zip_cons_cons, Finmap.insertAll_cons]
          rw [ih taken, StableQueue.pend, StableQueue.pend, List.foldl_cons]
          congr 1
          funext id'
          by_cases hid : id' = id
          · subst hid
            simp
          · simp [hid, Finmap.lookup_insert_of_ne]

/-- What a pop leaves that finds none of its IDs held. -/
theorem Store.poppedFresh_stableQueue (env : Env) (a : PopArgs) (ids : List Bytes) (slots : ℕ)
    (s : Store) :
    (s.poppedFresh .prio env a ids slots).2.stableQueue =
      ⟨ofList ((s.zset.entries.map entryOf).drop ids.length),
        StableQueue.pend s.stableQueue.pending
          (ids.zip ((s.zset.entries.map entryOf).take ids.length))⟩ := by
  have hpend := pend_insertAll ids ((s.zset.entries.map entryOf).take ids.length) s.nacked s.prio
  by_cases hhead : s.head .prio ids = []
  · have htake : s.zset.entries.take ids.length = [] := List.map_eq_nil_iff.mp hhead
    have hdrop : s.zset.entries.drop ids.length = s.zset.entries := by
      conv_rhs => rw [← List.take_append_drop ids.length s.zset.entries, htake, List.nil_append]
    simp only [Store.poppedFresh, hhead, if_true, ← List.map_take, ← List.map_drop, htake, hdrop,
      List.map_nil, List.zip_nil_right]
    rfl
  · simp only [Store.poppedFresh, hhead, if_false]
    rw [Store.stableQueue, StableQueue.mk.injEq]
    refine ⟨?_, Eq.trans ?_ hpend⟩
    · rw [← List.map_drop]
      rfl
    · simp only [← List.map_take, List.map_map]
      rfl

/-! ## Every script makes a step -/

theorem withLiveness_stableQueue (s : Store) (l : Liveness) :
    (s.withLiveness l).stableQueue = s.stableQueue := rfl

/-- A raw pop's reply holds the head of the queue. -/
theorem rawPop_items (cj : Cjson) {s : Store} {env : Env} (hs : s.evicted env = s)
    (hpaused : ¬s.paused.isSome = true) :
    (ScriptRun.reply .prio cj s ⟨.rawPop, env⟩).items =
      ((s.zset.entries.map entryOf).take 1).map Prod.snd := by
  rw [rawPop_reply .prio cj s env hs, Store.rawHead, if_neg hpaused, Store.head]
  cases h : s.zset.entries with
  | nil => simp [Reply.items, hpaused]
  | cons e rest => rfl

/-- A script makes one step of the stable priority queue, and its reply is
what the step hands out. -/
theorem after_step (cj : Cjson) {env : Env} {s : Store} (hevicted : s.evicted env = s)
    (hs : Sequenced s) (hprio : PrioPending s) {inv : Invocation}
    (hremove : ∀ item, inv ≠ .remove item)
    (hseq : (inv.after .prio cj env s).seq ≤ 2 ^ 53) :
    StableQueue.Step 1 s.stableQueue (inv.after .prio cj env s).stableQueue
      (ScriptRun.action cj s ⟨inv, env⟩) := by
  cases inv with
  | push a =>
      simp only [ScriptRun.action, Invocation.after, Store.afterPush] at hseq ⊢
      split
      · rfl
      · next hnew =>
          rw [if_neg hnew] at hseq
          have hwaiting := hs.waiting_insert hseq a.item a.priority
          rw [StableQueue.Step, Store.stableQueue, StableQueue.mk.injEq]
          exact ⟨hwaiting, rfl⟩
  | rawPop =>
      simp only [ScriptRun.action, Invocation.after, Store.rawPopped]
      split
      · rfl
      · next hpaused =>
          refine ⟨(s.zset.entries.map entryOf).take 1, ?_, rawPop_items cj hevicted hpaused, rfl⟩
          have htakes := StableQueue.takesUpTo_ofList 1 (entries_ordered s.zset)
          rw [← List.map_drop] at htakes
          exact htakes
  | pop p =>
      simp only [ScriptRun.action, Invocation.after]
      split
      · next hrest =>
          change (p.effect .prio env s).2.stableQueue = s.stableQueue
          unfold PopCall.effect Store.pop
          split
          · rfl
          · next hfree =>
              rw [if_pos (hrest.resolve_left hfree)]
      · next hfresh =>
          have heffect : p.effect .prio env s = s.poppedFresh .prio env p.args p.ids p.slots := by
            rw [PopCall.effect, Store.pop, if_neg fun h => hfresh (Or.inl h),
              if_neg fun h => hfresh (Or.inr h)]
          rw [heffect, Store.poppedFresh_stableQueue]
          refine ⟨(s.zset.entries.map entryOf).take p.ids.length,
            StableQueue.takesUpTo_ofList _ (entries_ordered s.zset), ?_, rfl⟩
          change ((p.run .prio env).exec (s.evicted env)).1.items = _
          rw [hevicted, p.reply_items, heffect, ← List.map_take, List.map_map]
          rfl
  | prepareAck id item vt =>
      simp only [ScriptRun.action, Invocation.after, StableQueue.Step, Store.stableQueue,
        StableQueue.mk.injEq, Store.prepared]
      refine ⟨trivial, ?_⟩
      funext id'
      by_cases hid : id' = id
      · subst hid
        cases h : s.nacked.lookup id' with
        | none => simp [hprio id' h]
        | some v => simp
      · simp [hid, Finmap.lookup_insert_of_ne]
  | finish a =>
      simp only [ScriptRun.action, Invocation.after, StableQueue.Step, Store.afterFinish]
      cases h : s.nacked.lookup a.ackID with
      | none =>
          have hpending : s.stableQueue.pending a.ackID = none := by simp [Store.stableQueue, h]
          rw [← hpending, Function.update_eq_self]
      | some v =>
          simp only [Store.stableQueue, StableQueue.mk.injEq, Store.finished]
          refine ⟨trivial, ?_⟩
          funext id'
          by_cases hid : id' = a.ackID
          · subst hid
            simp
          · rw [Finmap.lookup_erase_ne hid, Finmap.lookup_erase_ne hid, Function.update_of_ne hid]
  | requeue vt => exact Store.movedAll_stableQueue cj _ hs hseq
  | sweep owner hbt =>
      simp only [ScriptRun.action, Invocation.after, Store.swept_eq] at hseq ⊢
      exact Store.movedAll_stableQueue cj _ hs hseq
  | release owner => exact Store.movedAll_stableQueue cj _ hs hseq
  | remove item => exact absurd rfl (hremove item)
  | purge => rfl
  | _ => rfl

/-! ## Runs -/

/-- No `Remove`, and fewer than 2^53 pushes, those of requeues included. -/
structure FewPushes (cj : Cjson) (u : ℕ → Option ScriptRun) : Prop where
  noRemove : ∀ n item env, u n ≠ some ⟨.remove item, env⟩
  fewPuts : FewPuts .prio cj u

/-- What moment `n` of a run does to the stable priority queue. -/
def actionAt (cj : Cjson) (u : ℕ → Option ScriptRun) (n : ℕ) : StableQueue.Action Bytes ℤ Bytes :=
  match u n with
  | none => .rest
  | some r => r.action cj ((storeAt .prio cj u n).evicted r.env)

/-- The script run at moment `n` finds the queue key expired. -/
def ExpiresAt (cj : Cjson) (u : ℕ → Option ScriptRun) (n : ℕ) : Prop :=
  ∃ r expiry, u n = some r ∧ (storeAt .prio cj u n).expiry = some expiry ∧ expiry < r.env.nowms

section Runs

variable {cj : Cjson} {u : ℕ → Option ScriptRun}

theorem storeAt_prioPending (cj : Cjson) (u : ℕ → Option ScriptRun) (n : ℕ) :
    PrioPending (storeAt .prio cj u n) := by
  intro id hid
  rw [← Finmap.lookup_eq_none.symm] at hid ⊢
  exact fun hin => hid ((storeAt_consistent .prio cj u n).prio id hin)

/-- An expired queue key loses what waits. -/
theorem evicted_stableQueue (env : Env) (s : Store) :
    (s.evicted env).stableQueue =
      if s.expiry.any (fun expiry => expiry < env.nowms) = true then s.stableQueue.lost
      else s.stableQueue := by
  unfold Store.evicted
  split
  · rfl
  · rfl

/-- A run of a priority queue is a run of a stable priority queue: pushes
append to their priority, pops hand out the heads of the lowest priorities,
byte for byte, and a requeue appends to the priority its item was popped at,
1 if it was made pending by hand. -/
theorem prio_refines (h : FewPushes cj u) :
    StableQueue.Run 1 (ExpiresAt cj u) (actionAt cj u)
      (fun n => (storeAt .prio cj u n).stableQueue) where
  start := rfl
  step n := by
    cases hr : u n with
    | none =>
        refine Or.inl ⟨?_, ?_⟩
        · rintro ⟨r, _, hr', _⟩
          rw [hr] at hr'
          cases hr'
        · rw [actionAt, hr, storeAt_succ_none hr]
          rfl
    | some r =>
        obtain ⟨inv, env⟩ := r
        have hprio : PrioPending ((storeAt .prio cj u n).evicted env) := by
          obtain ⟨_, _, _, heq⟩ := (storeAt .prio cj u n).evicted_eq env
          rw [heq]
          exact storeAt_prioPending cj u n
        have hstep := after_step cj (Store.evicted_evicted env (storeAt .prio cj u n))
          ((storeAt_sequenced .prio cj u n).evicted env) hprio
          (fun item hinv => h.noRemove n item env (hinv ▸ hr)) (h.fewPuts.seq_after hr)
        have hsame : (storeAt .prio cj u (n + 1)).stableQueue =
            (inv.after .prio cj env ((storeAt .prio cj u n).evicted env)).stableQueue := by
          obtain ⟨_, _, _, _, heq⟩ := step_some .prio cj (storeAt .prio cj u n) ⟨inv, env⟩
          rw [storeAt_succ, hr, heq]
          rfl
        rw [evicted_stableQueue, ← hsame] at hstep
        rw [actionAt, hr]
        by_cases hexpired :
            (storeAt .prio cj u n).expiry.any (fun expiry => expiry < env.nowms) = true
        · rw [if_pos hexpired] at hstep
          obtain ⟨expiry, hexpiry, hlt⟩ := (Option.any_eq_true _ _).mp hexpired
          exact Or.inr ⟨⟨_, expiry, hr, hexpiry, of_decide_eq_true hlt⟩, hstep⟩
        · rw [if_neg hexpired] at hstep
          refine Or.inl ⟨?_, hstep⟩
          rintro ⟨r, expiry, hr', hexpiry, hlt⟩
          rw [hr] at hr'
          cases hr'
          exact hexpired ((Option.any_eq_true _ _).mpr ⟨expiry, hexpiry, decide_eq_true hlt⟩)

end Runs

/-- Two items of different priority pushed, and one popped. -/
def pushPushPop : ℕ → Option ScriptRun
  | 0 => some ⟨.push ⟨[97], 0, 2, false, none⟩, .plain 0 fun _ => 0⟩
  | 1 => some ⟨.push ⟨[98], 0, 1, false, none⟩, .plain 1 fun _ => 0⟩
  | 2 => some ⟨.pop ⟨⟨ownerA, 1, second, second, false⟩, .one⟩, .plain 2 fun _ => 0⟩
  | _ => none

/-- The pop hands out the one of the lower priority. -/
example : ((actionAt .none pushPushPop 2) matches .pop _ [[98]]) = true := by decide

theorem pushPushPop_fewPushes : FewPushes .none pushPushPop where
  noRemove n item env h := by
    rcases n with _ | _ | _ | n <;> simp [pushPushPop] at h
  fewPuts := by
    refine FewPuts.of_le (m := 2) (by decide) fun n => ?_
    rcases n with _ | _ | _ | n <;> simp [atMoment, pushPushPop, ScriptRun.puts,
      ScriptRun.pushed, ScriptRun.requeued]
    · split <;> simp
    · split <;> simp

theorem prio_refines_pushPushPop :
    StableQueue.Run 1 (ExpiresAt .none pushPushPop) (actionAt .none pushPushPop)
      (fun n => (storeAt .prio .none pushPushPop n).stableQueue) :=
  prio_refines pushPushPop_fewPushes

end Redisq.Model
