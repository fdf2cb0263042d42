import Redisq.Model.Pop

/-!
# One item or many

Three scripts pop with ack IDs.  They agree where they can be compared: the
lean script and the single pop do what the batch script does for one item
(`fast_paths_agree`), and the batch script does for many what as many single
pops in a row do (`batch_pop_is_single_pops`).
-/

namespace Redisq.Model

variable {k : Kind} {env : Env} {a : PopArgs} {s : Store} {id : Bytes} {ids : List Bytes}

/-! ## One item -/

/-- **The one-item fast paths equal the batch script.** -/
theorem fast_paths_agree (k : Kind) (env : Env) (a : PopArgs) (s : Store) :
    (∀ slots, (popOneLen k env a slots).exec s = (popBatch k env a 1 slots).exec s) ∧
      (popOne k env a).exec s =
        (((popBatch k env a 1 1).exec s).1.one, ((popBatch k env a 1 1).exec s).2) ∧
      (popOne k env a).exec s =
        (((popOneLen k env a 1).exec s).1.one, ((popOneLen k env a 1).exec s).2) := by
  have hids : ackIDs a.owner a.start 1 = [ackIDOf a.owner a.start 1] := rfl
  have hbatch : ∀ slots, (popBatch k env a 1 slots).exec s =
      s.pop k env a [ackIDOf a.owner a.start 1] slots := by
    intro slots
    rw [popBatch_exec k env a Nat.one_pos slots s, hids]
  have hlean : ∀ slots, (popOneLen k env a slots).exec s = (popBatch k env a 1 slots).exec s := by
    intro slots
    rw [hbatch, popOneLen_exec]
  refine ⟨hlean, ?_, ?_⟩
  · rw [hbatch, popOne_exec]
  · rw [hlean, hbatch, popOne_exec]

/-! ## Many items -/

/-- Single pops under the IDs in turn, until the queue is empty: the items
they hand out. -/
def popSingles (k : Kind) (env : Env) (a : PopArgs) : List Bytes → Redis (List Bytes)
  | [] => return []
  | id :: rest => do
      match ← popSingle k env a id with
      | .item v =>
          let items ← popSingles k env a rest
          return v :: items
      | _ => return []

/-- The store after a pop under IDs of which none is held. -/
def Store.served (k : Kind) (env : Env) (a : PopArgs) (ids : List Bytes) (s : Store) : Store :=
  if s.head k ids = [] then s
  else (s.beheaded k ids).pended env a (ids.zip (s.head k ids))

/-- With other consumers idle. -/
def Store.withIdle (idle : Finset Bytes) (s : Store) : Store :=
  { s with idle := idle }

theorem poppedFresh_eq (slots : ℕ) :
    s.poppedFresh k env a ids slots =
      (.popped ((s.served k env a ids).len k) (s.head k ids),
        (s.served k env a ids).joined k a slots (s.head k ids).length) := rfl

theorem head_withIdle (idle : Finset Bytes) : (s.withIdle idle).head k ids = s.head k ids := by
  cases k <;> rfl

theorem served_withIdle (idle : Finset Bytes) :
    (s.withIdle idle).served k env a ids = (s.served k env a ids).withIdle idle := by
  rw [Store.served, Store.served, head_withIdle]
  split
  · rfl
  · cases k <;> rfl

theorem beaten_beaten (heartbeats : ZSet) :
    beaten env a (beaten env a heartbeats) = beaten env a heartbeats := by
  unfold beaten
  split
  · exact SortedSet.insert_insert _ _ _ _
  · rfl

/-- Many items come off the queue as one and then the rest. -/
theorem head_cons (k : Kind) (env : Env) (a : PopArgs) (id : Bytes) (ids : List Bytes)
    (s : Store) :
    s.head k (id :: ids) = s.head k [id] ++ (s.served k env a [id]).head k ids := by
  cases k with
  | fifo =>
      cases hlist : s.list with
      | nil => simp [Store.head, Store.served, hlist]
      | cons v rest =>
          simp [Store.head, Store.served, Store.beheaded, Store.pended, hlist]
  | prio =>
      cases hentries : s.zset.entries with
      | nil => simp [Store.head, Store.served, hentries]
      | cons e rest =>
          simp [Store.head, Store.served, Store.beheaded, Store.pended, SortedSet.dropMin, hentries]

theorem timed_cons (dl : Time) (id : Bytes) (ids : List Bytes) (timeouts : ZSet) :
    timed dl ids (timed dl [id] timeouts) = timed dl (id :: ids) timeouts := by
  unfold timed
  split <;> rfl

/-- Entries made pending one by one. -/
theorem pended_cons (p : Bytes × Bytes) (ps : List (Bytes × Bytes)) (s : Store) :
    (s.pended env a [p]).pended env a ps = s.pended env a (p :: ps) := by
  have htimed := timed_cons (deadline env a.vt) p.1 (ps.map fun p => p.1) s.timeouts
  have hbeaten : beaten env a (beaten env a s.heartbeats) = beaten env a s.heartbeats :=
    beaten_beaten s.heartbeats
  simp only [Store.pended, List.map_cons, List.map_nil, htimed, hbeaten]
  rfl

theorem served_of_empty (hids : ids ≠ []) (h : s.len k = 0) : s.served k env a ids = s :=
  if_pos ((Store.head_eq_nil hids).mpr h)

/-- Nothing to take leaves the store as it is. -/
theorem served_eq (k : Kind) (env : Env) (a : PopArgs) (ids : List Bytes) (s : Store)
    (hbeat : beaten env a s.heartbeats = s.heartbeats) :
    s.served k env a ids = (s.beheaded k ids).pended env a (ids.zip (s.head k ids)) := by
  rw [Store.served]
  split
  · next hnil =>
      rw [hnil, List.zip_nil_right, Store.beheaded_of_head_nil hnil]
      have htimed : timed (deadline env a.vt) [] s.timeouts = s.timeouts := by
        unfold timed
        split <;> rfl
      simp only [Store.pended, List.map_nil, htimed, hbeat, Finmap.insertAll_nil]
  · rfl

theorem beheaded_pended (ps : List (Bytes × Bytes)) (s : Store) :
    (s.pended env a ps).beheaded k ids = (s.beheaded k ids).pended env a ps := by
  cases k <;> rfl

theorem beheaded_cons (h : s.len k ≠ 0) :
    (s.beheaded k [id]).beheaded k ids = s.beheaded k (id :: ids) := by
  cases k with
  | fifo =>
      simp only [Store.beheaded, List.drop_drop, List.length_cons, List.length_nil]
      rw [Nat.add_comm]
  | prio =>
      cases hentries : s.zset.entries with
      | nil => exact absurd (by simp [Store.len, hentries]) h
      | cons e rest =>
          have hdrop : (s.zset.dropMin 1).dropMin ids.length = s.zset.dropMin (ids.length + 1) := by
            rw [SortedSet.dropMin_dropMin, Nat.add_comm]
          have hrest : (s.zset.dropMin 1).entries = rest := by
            simp [SortedSet.dropMin, hentries]
          simp only [Store.beheaded, List.length_cons, List.length_nil, Nat.zero_add, hdrop, hrest,
            hentries, List.take_succ_cons, List.map_cons, List.zip_cons_cons,
            Finmap.insertAll_cons, List.take_zero, List.map_nil, List.zip_nil_right,
            Finmap.insertAll_nil]

/-- A pop of many is a pop of one and then of the rest. -/
theorem served_cons (id : Bytes) (ids : List Bytes) (s : Store) :
    s.served k env a (id :: ids) = (s.served k env a [id]).served k env a ids := by
  by_cases hempty : s.len k = 0
  · by_cases hids : ids = []
    · rw [hids, served_of_empty (by simp) hempty, Store.served]
      cases k <;> simp [Store.head]
    · rw [served_of_empty (by simp) hempty, served_of_empty (by simp) hempty,
        served_of_empty hids hempty]
  · have hone : s.head k [id] ≠ [] := fun h => hempty ((Store.head_eq_nil (by simp)).mp h)
    have hmany : s.head k (id :: ids) ≠ [] :=
      fun h => hempty ((Store.head_eq_nil (by simp)).mp h)
    have hbeat : beaten env a (s.served k env a [id]).heartbeats =
        (s.served k env a [id]).heartbeats := by
      rw [Store.served, if_neg hone]
      exact beaten_beaten _
    obtain ⟨v, hv⟩ : ∃ v, s.head k [id] = [v] := by
      have hlen := s.length_head_le k [id]
      exact List.length_eq_one_iff.mp
        (Nat.le_antisymm hlen (List.length_pos_iff.mpr hone))
    have hfirst : s.served k env a [id] = (s.beheaded k [id]).pended env a [(id, v)] := by
      rw [Store.served, if_neg hone, hv]
      rfl
    rw [served_eq k env a ids _ hbeat, Store.served, if_neg hmany, head_cons k env a,
      hv, List.singleton_append, List.zip_cons_cons, ← pended_cons, ← beheaded_cons hempty,
      ← beheaded_pended, hfirst]

/-- A single pop that finds nothing under its ID. -/
theorem exec_popSingle_fresh (k : Kind) (env : Env) (a : PopArgs) (hpaused : s.paused = none)
    (hfree : s.nacked.lookup id = none) :
    ∃ idle, (popSingle k env a id).exec s =
      ((match s.head k [id] with
        | [] => .empty
        | v :: _ => .item v), (s.served k env a [id]).withIdle idle) := by
  have hholds : s.holds [id] = false := by
    rw [Store.holds_one, hfree]
    rfl
  have hrunning : ¬s.paused.isSome = true := by
    rw [hpaused]
    exact Bool.false_ne_true
  rw [popSingle_exec, Store.pop, if_neg (by rw [hholds]; exact Bool.false_ne_true),
    if_neg hrunning, poppedFresh_eq]
  refine ⟨_, Prod.ext ?_ rfl⟩
  cases s.head k [id] <;> rfl

theorem served_paused (h : s.paused = none) : (s.served k env a ids).paused = none := by
  rw [Store.served]
  split
  · exact h
  · cases k <;> exact h

theorem served_one_free {id' : Bytes} (hne : id' ≠ id) (h : s.nacked.lookup id' = none) :
    (s.served k env a [id]).nacked.lookup id' = none := by
  rw [Store.served]
  split
  · exact h
  · have hnacked : (s.beheaded k [id]).nacked = s.nacked := by cases k <;> rfl
    have hnot : id' ∉ ([id].zip (s.head k [id])).map Prod.fst := by
      intro hmem
      obtain ⟨p, hp, rfl⟩ := List.mem_map.mp hmem
      exact hne (List.mem_singleton.mp (List.of_mem_zip hp).1)
    show ((s.beheaded k [id]).nacked.insertAll _).lookup id' = none
    rw [Finmap.lookup_insertAll_of_notMem hnot, hnacked, h]

/-- What single pops hand out and leave, while none of their IDs is held. -/
theorem exec_popSingles (k : Kind) (env : Env) (a : PopArgs) (ids : List Bytes)
    (hnodup : ids.Nodup) (s : Store) (hpaused : s.paused = none)
    (hfree : ∀ id ∈ ids, s.nacked.lookup id = none) :
    ∃ idle, (popSingles k env a ids).exec s =
      (s.head k ids, (s.served k env a ids).withIdle idle) := by
  induction ids generalizing s with
  | nil =>
      refine ⟨s.idle, ?_⟩
      have hhead : s.head k [] = [] := by cases k <;> simp [Store.head]
      rw [Store.served, if_pos hhead, hhead]
      rfl
  | cons id ids ih =>
      obtain ⟨hnotMem, hrest⟩ := List.nodup_cons.mp hnodup
      obtain ⟨idle, hone⟩ :=
        exec_popSingle_fresh k env a hpaused (hfree id List.mem_cons_self)
      rw [popSingles, Script.exec_bind, hone]
      cases hhead : s.head k [id] with
      | nil =>
          have hempty : s.len k = 0 := (Store.head_eq_nil (by simp)).mp hhead
          have hmany : s.head k (id :: ids) = [] := (Store.head_eq_nil (by simp)).mpr hempty
          rw [served_of_empty (by simp) hempty, served_of_empty (by simp) hempty, hmany]
          exact ⟨idle, rfl⟩
      | cons v tail =>
          have htail : tail = [] := by
            have hlen := s.length_head_le k [id]
            rw [hhead] at hlen
            exact List.length_eq_zero_iff.mp (by simpa using hlen)
          subst htail
          obtain ⟨idle', hmany⟩ := ih hrest ((s.served k env a [id]).withIdle idle)
            (served_paused hpaused) fun id' hid' =>
              served_one_free (fun heq => hnotMem (heq ▸ hid'))
                (hfree id' (List.mem_cons_of_mem id hid'))
          refine ⟨idle', ?_⟩
          show ((popSingles k env a ids >>= fun items => pure (v :: items)).exec _) = _
          rw [Script.exec_bind, hmany, Script.exec_pure, head_withIdle, served_withIdle,
            served_cons id ids s, head_cons k env a id ids s, hhead]
          rfl

/-- **A fresh batch pop equals repeated single pops.** -/
theorem batch_pop_is_single_pops (k : Kind) (env : Env) (a : PopArgs) (want slots : ℕ)
    (hwant : 0 < want) (s : Store) (hpaused : s.paused = none)
    (hfree : ∀ id ∈ ackIDs a.owner a.start want, s.nacked.lookup id = none) :
    ∃ items t idle,
      (popSingles k env a (ackIDs a.owner a.start want)).exec s = (items, t) ∧
      items.length = min want (s.len k) ∧
      (popBatch k env a want slots).exec s =
        (.popped (t.len k) items, t.withIdle idle) := by
  obtain ⟨idle, hsingles⟩ := exec_popSingles k env a (ackIDs a.owner a.start want)
    (ackIDs_nodup a.owner a.start want) s hpaused hfree
  have hholds : s.holds (ackIDs a.owner a.start want) = false := by
    refine Bool.eq_false_iff.mpr fun h => ?_
    obtain ⟨id, hid, hheld⟩ := List.any_eq_true.mp h
    rw [hfree id hid] at hheld
    cases hheld
  have hrunning : ¬s.paused.isSome = true := by
    rw [hpaused]
    exact Bool.false_ne_true
  have hlength : (s.head k (ackIDs a.owner a.start want)).length = min want (s.len k) := by
    cases k with
    | fifo => simp [Store.head, Store.len, length_ackIDs]
    | prio => simp [Store.head, Store.len, length_ackIDs]
  refine ⟨s.head k (ackIDs a.owner a.start want),
    (s.served k env a (ackIDs a.owner a.start want)).withIdle idle,
    ((s.served k env a (ackIDs a.owner a.start want)).joined k a slots
      (s.head k (ackIDs a.owner a.start want)).length).idle, hsingles, hlength, ?_⟩
  rw [popBatch_exec k env a hwant, Store.pop, if_neg (by rw [hholds]; exact Bool.false_ne_true),
    if_neg hrunning, poppedFresh_eq]
  cases k <;> rfl

/-- Two waiting items, popped at once or one by one. -/
theorem batch_pop_of_two_is_two_pops :
    ∃ items t idle,
      (popSingles .fifo (.plain 0 fun _ => 0) ⟨ownerA, 1, 0, 0, false⟩ (ackIDs ownerA 1 2)).exec
        { Store.empty with list := [[1], [2]] } = (items, t) ∧
      items.length = min 2 (Store.len .fifo { Store.empty with list := [[1], [2]] }) ∧
      (popBatch .fifo (.plain 0 fun _ => 0) ⟨ownerA, 1, 0, 0, false⟩ 2 5).exec
        { Store.empty with list := [[1], [2]] } = (.popped (t.len .fifo) items, t.withIdle idle) :=
  batch_pop_is_single_pops .fifo (.plain 0 fun _ => 0) ⟨ownerA, 1, 0, 0, false⟩ 2 5 (by decide)
    { Store.empty with list := [[1], [2]] } rfl fun _ _ => Finmap.lookup_empty _

end Redisq.Model
