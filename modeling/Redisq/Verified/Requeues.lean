import Redisq.Verified.Deadlines

/-!
# The two requeues agree

`RequeueNackedItems` drops an entry and then pushes its item; the sweep and
the release push first.  With a visibility timeout both go through the overdue
entries, earliest first, and what they move, what they leave and what they
count is the same (`requeues_agree`).
-/

namespace Redisq.Model

/-! ## The deadline step of the sweep -/

/-- The part of `tickBody` that requeues overdue entries. -/
def moveOverdue (k : Kind) (cj : Cjson) (env : Env) : Redis ℕ := do
  let overdue ← zrangeByScore .timeouts (fun d => d ≤ env.now) none
  requeueAll (move k cj) overdue

/-- It stands between the own heartbeat and the dead owners. -/
theorem sweep_eq (k : Kind) (cj : Cjson) (env : Env) (owner : Bytes) (hbt : Time) :
    sweep k cj env owner hbt = (do
      let paused ← existsPaused
      let (last, own) ← sweepSelf env owner hbt
      let n ← moveOverdue k cj env
      let dead ← findDead env last
      let m ← reap k cj env dead
      return ⟨n + m, !own.any fun own => decide (env.now ≤ own), paused⟩) := rfl

/-! ## What a requeue moves -/

/-- The entries that a requeue of a list of IDs moves, in order: of each turn
that counts, the ID and what was pending under it. -/
def movedBy (one : Bytes → Redis ℕ) : List Bytes → Store → List (Bytes × Bytes)
  | [], _ => []
  | id :: rest, s =>
      (if ((one id).exec s).1 = 0 then [] else (s.nacked.lookup id).toList.map fun v => (id, v)) ++
        movedBy one rest ((one id).exec s).2

/-- Steps that do the same move the same. -/
theorem movedBy_congr {one other : Bytes → Redis ℕ}
    (h : ∀ id s, (one id).exec s = (other id).exec s) (ids : List Bytes) (s : Store) :
    movedBy one ids s = movedBy other ids s := by
  induction ids generalizing s with
  | nil => rfl
  | cons id rest ih => rw [movedBy, movedBy, h, ih]

theorem move_eq_requeueOne (k : Kind) (cj : Cjson) (id : Bytes) (s : Store) :
    (move k cj id).exec s = (requeueOne k cj id).exec s := by
  rw [exec_move, exec_requeueOne]

/-- A requeue step leaves the other entries. -/
theorem Store.moved_lookup_of_ne (k : Kind) (cj : Cjson) (s : Store) {id id' : Bytes}
    (h : id' ≠ id) : (s.moved k cj id).nacked.lookup id' = s.nacked.lookup id' := by
  rw [s.moved_nacked, Finmap.lookup_erase_ne h]

/-- Of distinct IDs a requeue moves those that are pending, each once. -/
theorem movedBy_move (k : Kind) (cj : Cjson) {ids : List Bytes} (hnodup : ids.Nodup)
    (s : Store) :
    movedBy (move k cj) ids s =
      ids.flatMap fun id => (s.nacked.lookup id).toList.map fun v => (id, v) := by
  induction ids generalizing s with
  | nil => rfl
  | cons id rest ih =>
      obtain ⟨hid, hrest⟩ := List.nodup_cons.mp hnodup
      have hlater : (rest.flatMap fun id' =>
            ((s.moved k cj id).nacked.lookup id').toList.map fun v => (id', v)) =
          rest.flatMap fun id' => (s.nacked.lookup id').toList.map fun v => (id', v) := by
        refine List.flatMap_congr fun id' hmem => ?_
        have hne : id' ≠ id := by
          rintro rfl
          exact hid hmem
        rw [s.moved_lookup_of_ne k cj hne]
      rw [movedBy, List.flatMap_cons, exec_move, ih hrest, hlater]
      cases s.nacked.lookup id <;> rfl

theorem movedBy_ids (k : Kind) (cj : Cjson) {ids : List Bytes} (hnodup : ids.Nodup)
    (s : Store) :
    (movedBy (move k cj) ids s).map Prod.fst =
      ids.filter fun id => (s.nacked.lookup id).isSome := by
  rw [movedBy_move k cj hnodup]
  clear hnodup
  induction ids with
  | nil => rfl
  | cons id rest ih =>
      rw [List.flatMap_cons, List.map_append, ih, List.filter_cons]
      cases s.nacked.lookup id <;> rfl

theorem mem_movedBy (k : Kind) (cj : Cjson) {ids : List Bytes} (hnodup : ids.Nodup)
    {s : Store} {p : Bytes × Bytes} :
    p ∈ movedBy (move k cj) ids s ↔ p.1 ∈ ids ∧ s.nacked.lookup p.1 = some p.2 := by
  rw [movedBy_move k cj hnodup, List.mem_flatMap]
  constructor
  · rintro ⟨id, hid, hp⟩
    obtain ⟨v, hv, rfl⟩ := List.mem_map.mp hp
    exact ⟨hid, Option.mem_toList.mp hv⟩
  · rintro ⟨hid, hp⟩
    exact ⟨p.1, hid, List.mem_map.mpr ⟨p.2, Option.mem_toList.mpr hp, rfl⟩⟩

/-- The count of a requeue is what it moves. -/
theorem movedCount_eq_length (k : Kind) (cj : Cjson) (ids : List Bytes) (s : Store) :
    s.movedCount k cj ids = (movedBy (move k cj) ids s).length := by
  induction ids generalizing s with
  | nil => rfl
  | cons id rest ih =>
      rw [Store.movedCount, movedBy, List.length_append, exec_move, ih]
      cases s.nacked.lookup id <;> rfl

/-- The overdue IDs are distinct. -/
theorem Store.overdue_nodup (env : Env) (s : Store) : (s.overdue env).Nodup :=
  SortedSet.nodup_members _

theorem exec_requeueIDs (env : Env) {vt : Time} (hvt : 0 < vt) (s : Store) :
    (requeueIDs env vt).exec s = (s.overdue env, s) := by
  rw [requeueIDs, if_pos hvt]
  rfl

theorem exec_moveOverdue (k : Kind) (cj : Cjson) (env : Env) (s : Store) :
    (moveOverdue k cj env).exec s =
      (s.movedCount k cj (s.overdue env), s.caughtUp k cj env) := by
  have hids : (zrangeByScore .timeouts (fun d => d ≤ env.now) none).exec s =
      (s.overdue env, s) := rfl
  rw [moveOverdue, Script.exec_bind, hids, exec_requeueAll k cj fun id s => exec_move k cj id s]
  rfl

/-- `RequeueNackedItems` with a visibility timeout and the deadline step of
the sweep, on the same keys at the same time, whose deadlines all belong to
pending entries: they read the same IDs, move the
same entries in the same order, each overdue one once, and leave the same keys
and report the same number.  The sweep gets there with its own heartbeat and
the clock changed, which neither looks at. -/
theorem requeues_agree (k : Kind) (cj : Cjson) (env : Env) {vt : Time} (hvt : 0 < vt)
    (owner : Bytes) (hbt : Time) {s : Store} (hs : ∀ id ∈ s.timeouts.members, id ∈ s.nacked) :
    (requeueIDs env vt).exec s = (s.overdue env, s) ∧
      movedBy (requeueOne k cj) (s.overdue env) s = movedBy (move k cj) (s.overdue env) s ∧
      (movedBy (move k cj) (s.overdue env) s).map Prod.fst = s.overdue env ∧
      (∀ p ∈ movedBy (move k cj) (s.overdue env) s, s.nacked.lookup p.1 = some p.2) ∧
      ((requeue k cj env vt).exec s).1 = (s.overdue env).length ∧
      (requeue k cj env vt).exec s = (moveOverdue k cj env).exec s ∧
      (do let _ ← sweepSelf env owner hbt; moveOverdue k cj env).exec s =
        (((requeue k cj env vt).exec s).1,
          ((requeue k cj env vt).exec s).2.withLiveness (s.liveness.prepared env owner hbt)) := by
  have hnodup := s.overdue_nodup env
  have hpending : ∀ id ∈ s.overdue env, (s.nacked.lookup id).isSome = true := fun id hid => by
    obtain ⟨d, hd, _⟩ := mem_overdue.mp hid
    exact Finmap.lookup_isSome.mpr (hs id (SortedSet.mem_members_iff.mpr ⟨d, hd⟩))
  have hids : (movedBy (move k cj) (s.overdue env) s).map Prod.fst = s.overdue env := by
    rw [movedBy_ids k cj hnodup, List.filter_eq_self.mpr hpending]
  have hrequeue : (requeue k cj env vt).exec s = (moveOverdue k cj env).exec s := by
    rw [requeue_exec, exec_moveOverdue, Store.requeueIDs, if_pos hvt]
    rfl
  refine ⟨exec_requeueIDs env hvt s,
    movedBy_congr (fun id s => (move_eq_requeueOne k cj id s).symm) _ s, hids, ?_, ?_, hrequeue, ?_⟩
  · exact fun p hp => ((mem_movedBy k cj hnodup).mp hp).2
  · rw [hrequeue, exec_moveOverdue, movedCount_eq_length, ← List.length_map (f := Prod.fst), hids]
  · rw [hrequeue, Script.exec_bind, exec_sweepSelf, exec_moveOverdue, exec_moveOverdue,
      Store.movedCount_withLiveness, Store.overdue_withLiveness, Store.caughtUp, Store.caughtUp,
      Store.overdue_withLiveness, Store.movedAll_withLiveness]

/-- A priority queue with three entries, two of them overdue: the first of the
two has neither start time nor priority. -/
def lateEntries : Store :=
  { Store.empty with
    zset := (∅ : ZSet).insert (memberOf 1 [100]) 7
    nacked := (((∅ : Hash Bytes).insert [1] [97]).insert [2] [98]).insert [3] [99]
    timeouts := (((∅ : ZSet).insert [1] (2 * second)).insert [2] second).insert [3] (4 * second)
    started := (∅ : Hash ℕ).insert [1] 0
    prio := (∅ : Hash ℤ).insert [1] 5
    seq := 1 }

theorem requeues_agree_lateEntries :
    (movedBy (requeueOne .prio .none) [[2], [1]] lateEntries).map Prod.fst = [[2], [1]] ∧
      ((requeue .prio .none (.plain 3000000 fun _ => 0) second).exec lateEntries).1 = 2 ∧
      (requeue .prio .none (.plain 3000000 fun _ => 0) second).exec lateEntries =
        (moveOverdue .prio .none (.plain 3000000 fun _ => 0)).exec lateEntries := by
  have hpending : ∀ id ∈ lateEntries.timeouts.members, id ∈ lateEntries.nacked := by decide
  have hoverdue : lateEntries.overdue (.plain 3000000 fun _ => 0) = [[2], [1]] := by decide +kernel
  obtain ⟨_, hmoved, hids, _, hcount, hsame, _⟩ := requeues_agree .prio .none
    (.plain 3000000 fun _ => 0) (by decide : 0 < second) [65] second hpending
  rw [hoverdue] at hmoved hids hcount
  exact ⟨hmoved ▸ hids, hcount, hsame⟩

end Redisq.Model
