import Redisq.Verified.FinishFaults
import Redisq.Verified.Interrupted

/-!
# Where RequeueNackedItems loses an item

The loop of `RequeueNackedItems` deletes an entry with the second command of
its turn and pushes the item two or five commands later.  A script that stops
in between has the item in neither place.  `requeue_keeps_items_iff` says
exactly when that is, counting commands.
-/

namespace Redisq.Model

open Script (Throughout Leaves)

variable {k : Kind} {cj : Cjson} {env : Env} {s t u : Store} {id v : Bytes}
  {ids before : List Bytes}

/-! ## Counting commands -/

/-- The commands of a turn: three if nothing is pending under the ID. -/
def turnLength (k : Kind) (cj : Cjson) : Option Bytes → ℕ
  | none => 3
  | some v =>
      (match k with
        | .fifo => 5
        | .prio => 8) + if envid cj v ≠ [] then 1 else 0

/-- The command of a turn that pushes the item. -/
def pushedAfter : Kind → ℕ
  | .fifo => 4
  | .prio => 7

/-- The commands of several turns. -/
def turns (k : Kind) (cj : Cjson) (s : Store) (ids : List Bytes) : ℕ :=
  (ids.map fun id => turnLength k cj (s.nacked.lookup id)).sum

/-- Entries not gone through count as before. -/
theorem turns_moved (h : id ∉ ids) : turns k cj (s.moved k cj id) ids = turns k cj s ids := by
  unfold turns
  congr 1
  refine List.map_congr_left fun id' hid' => ?_
  have hne : id' ≠ id := fun heq => h (heq ▸ hid')
  rw [s.moved_nacked, Finmap.lookup_erase_ne hne]

theorem size_requeuePush (k : Kind) (v id : Bytes) (s : Store) :
    (requeuePush k v id).size s + 3 = pushedAfter k := by
  cases k <;> rfl

theorem size_requeued (cj : Cjson) (v id : Bytes) (s : Store) :
    (requeued cj v id).size s = 1 + if envid cj v ≠ [] then 1 else 0 := by
  unfold requeued
  rw [Script.size_bind]
  split <;> rfl

/-- A turn from its fourth command on. -/
def turnRest (k : Kind) (cj : Cjson) (id : Bytes) : Option Bytes → Redis ℕ
  | some v => do
      requeuePush k v id
      requeued cj v id
      return 1
  | none => return 0

/-- The store after the first three commands of a turn. -/
def Store.dropped (id : Bytes) (s : Store) : Store :=
  { s with nacked := s.nacked.erase id, timeouts := s.timeouts.erase id }

theorem size_requeueOne (k : Kind) (cj : Cjson) (id : Bytes) (s : Store) :
    (requeueOne k cj id).size s = turnLength k cj (s.nacked.lookup id) := by
  have hrest : (requeueOne k cj id).size s =
      (turnRest k cj id (s.nacked.lookup id)).size (s.dropped id) + 3 := rfl
  rw [hrest]
  cases hid : s.nacked.lookup id with
  | none => rfl
  | some v =>
      have hpush := size_requeuePush k v id (s.dropped id)
      rw [turnRest, Script.size_bind, Script.size_bind, size_requeued, Script.size_pure]
      cases k <;> simp only [turnLength, pushedAfter] at hpush ⊢ <;> omega

/-- What a turn does to the items. -/
structure Store.SameItems (k : Kind) (s t : Store) : Prop where
  nacked : t.nacked = s.nacked
  waiting : t.waiting k = s.waiting k
  seq : t.seq = s.seq

theorem requeued_leaves (cj : Cjson) (v id : Bytes) :
    Leaves (fun s : Store => (s.nacked, s.waiting k, s.seq)) (requeued cj v id) := by
  refine .bind (Script.leaves_command fun _ => by cases k <;> rfl) fun _ => ?_
  refine .ite (Script.leaves_command fun _ => ?_) (Script.leaves_pure _)
  cases k <;> rfl

/-- A push that stops before its last command has pushed nothing. -/
theorem cut_requeuePush (k : Kind) (v id : Bytes) (s : Store) {n : ℕ}
    (hn : n + 3 < pushedAfter k) :
    ((requeuePush k v id).cut n s).nacked = s.nacked ∧
      ((requeuePush k v id).cut n s).waiting k = s.waiting k ∧
      s.seq ≤ ((requeuePush k v id).cut n s).seq := by
  cases k with
  | fifo =>
      have hzero : n = 0 := by
        have hn : n + 3 < 4 := hn
        omega
      subst hzero
      exact ⟨rfl, rfl, le_rfl⟩
  | prio =>
      have hn : n + 3 < 7 := hn
      match n with
      | 0 => exact ⟨rfl, rfl, le_rfl⟩
      | 1 => exact ⟨rfl, rfl, Nat.le_succ _⟩
      | 2 => exact ⟨rfl, rfl, Nat.le_succ _⟩
      | 3 => exact ⟨rfl, rfl, Nat.le_succ _⟩
      | n + 4 => omega

/-- Where a turn stops: before it deletes the entry, in the gap, or after the
push. -/
theorem cut_requeueOne (k : Kind) (cj : Cjson) (id : Bytes) (s : Store) (n : ℕ) :
    (n < 2 ∧ (requeueOne k cj id).cut n s = s) ∨
      (2 ≤ n ∧ n < pushedAfter k ∧
        ((requeueOne k cj id).cut n s).nacked = s.nacked.erase id ∧
        ((requeueOne k cj id).cut n s).waiting k = s.waiting k ∧
        s.seq ≤ ((requeueOne k cj id).cut n s).seq) ∨
      (pushedAfter k ≤ n ∧ (s.moved k cj id).SameItems k ((requeueOne k cj id).cut n s)) := by
  match n with
  | 0 => exact Or.inl ⟨by omega, Script.cut_zero _ s⟩
  | 1 => exact Or.inl ⟨by omega, rfl⟩
  | 2 =>
      refine Or.inr (Or.inl ⟨le_rfl, by cases k <;> decide, rfl, ?_, le_rfl⟩)
      cases k <;> rfl
  | n + 3 =>
      have hrest : (requeueOne k cj id).cut (n + 3) s =
          (turnRest k cj id (s.nacked.lookup id)).cut n (s.dropped id) := rfl
      have hdropped : (s.dropped id).waiting k = s.waiting k := by cases k <;> rfl
      rw [hrest]
      right
      by_cases hgap : n + 3 < pushedAfter k
      · refine Or.inl ⟨by omega, hgap, ?_⟩
        cases hid : s.nacked.lookup id with
        | none =>
            rw [turnRest, Script.cut_pure]
            exact ⟨rfl, hdropped, le_rfl⟩
        | some v =>
            have hpush := size_requeuePush k v id (s.dropped id)
            rw [turnRest, Script.cut_bind, if_pos (by omega)]
            obtain ⟨hnacked, hwaiting, hseq⟩ := cut_requeuePush k v id (s.dropped id) hgap
            exact ⟨hnacked, hwaiting.trans hdropped, hseq⟩
      · refine Or.inr ⟨by omega, ?_⟩
        cases hid : s.nacked.lookup id with
        | none =>
            rw [turnRest, Script.cut_pure, Store.moved_of_none hid]
            refine ⟨Finmap.erase_of_lookup_none hid, ?_, rfl⟩
            cases k <;> rfl
        | some v =>
            have hpush := size_requeuePush k v id (s.dropped id)
            have hsame : (s.moved k cj id).SameItems k ((s.dropped id).repushed k id v) := by
              rw [Store.moved_of_some hid]
              cases k <;> exact ⟨rfl, rfl, rfl⟩
            rw [turnRest, Script.cut_bind, exec_requeuePush]
            by_cases hlast : n ≤ (requeuePush k v id).size (s.dropped id)
            · rw [if_pos hlast, Script.cut_of_size_le (by omega), exec_requeuePush]
              exact hsame
            · rw [if_neg hlast]
              have hleaves : Leaves (fun s : Store => (s.nacked, s.waiting k, s.seq))
                  (requeued cj v id >>= fun _ => pure 1 : Redis ℕ) :=
                (requeued_leaves cj v id).bind fun _ => Script.leaves_pure _
              have hend := hleaves ((s.dropped id).repushed k id v)
                (n - (requeuePush k v id).size (s.dropped id))
              simp only [Prod.mk.injEq] at hend
              exact ⟨hend.1.trans hsame.nacked, hend.2.1.trans hsame.waiting,
                hend.2.2.trans hsame.seq⟩

/-! ## The loop -/

theorem turns_cons (id : Bytes) (ids : List Bytes) (s : Store) :
    turns k cj s (id :: ids) = turnLength k cj (s.nacked.lookup id) + turns k cj s ids := by
  rw [turns, List.map_cons, List.sum_cons, turns]

/-- A number of commands falls into the turn of one of the IDs, or after all
turns. -/
theorem turns_split (k : Kind) (cj : Cjson) (s : Store) (ids : List Bytes) (n : ℕ) :
    (∃ before id after m, ids = before ++ id :: after ∧ n = turns k cj s before + m ∧
        m ≤ turnLength k cj (s.nacked.lookup id)) ∨ turns k cj s ids ≤ n := by
  induction ids generalizing n with
  | nil => exact Or.inr (Nat.zero_le _)
  | cons id rest ih =>
      by_cases hfirst : n ≤ turnLength k cj (s.nacked.lookup id)
      · exact Or.inl ⟨[], id, rest, n, rfl, (Nat.zero_add n).symm, hfirst⟩
      · rcases ih (n - turnLength k cj (s.nacked.lookup id)) with
          ⟨before, id', after, m, rfl, hcount, hm⟩ | hcount
        · refine Or.inl ⟨id :: before, id', after, m, rfl, ?_, hm⟩
          rw [turns_cons]
          omega
        · right
          rw [turns_cons]
          omega

/-- The IDs of the first turns have been moved when the next turn begins. -/
theorem cut_requeueAll_turns (k : Kind) (cj : Cjson) (before rest : List Bytes)
    (hnodup : before.Nodup) :
    ∀ (s : Store) (m : ℕ),
      (requeueAll (requeueOne k cj) (before ++ rest)).cut (turns k cj s before + m) s =
        (requeueAll (requeueOne k cj) rest).cut m (before.foldl (Store.moved k cj) s) := by
  induction before with
  | nil =>
      intro s m
      rw [turns, List.map_nil, List.sum_nil, Nat.zero_add]
      rfl
  | cons id before ih =>
      intro s m
      obtain ⟨hnot, hrest⟩ := List.nodup_cons.mp hnodup
      have hcount : turns k cj s (id :: before) + m =
          (requeueOne k cj id).size s + (turns k cj (s.moved k cj id) before + m) := by
        rw [size_requeueOne, turns_moved hnot, turns_cons]
        omega
      rw [hcount, List.cons_append, requeueAll, Script.cut_bind_add, exec_requeueOne,
        Script.cut_bind_pure, ih hrest]
      rfl

/-- A turn is cut where the loop is. -/
theorem cut_requeueAll_turn (k : Kind) (cj : Cjson) (id : Bytes) (rest : List Bytes) (s : Store)
    {m : ℕ} (hm : m ≤ turnLength k cj (s.nacked.lookup id)) :
    (requeueAll (requeueOne k cj) (id :: rest)).cut m s = (requeueOne k cj id).cut m s := by
  rw [requeueAll, Script.cut_bind, size_requeueOne, if_pos hm]

/-- A requeue stops in the turn of one of its IDs, or after the last turn. -/
theorem cut_requeueAll (k : Kind) (cj : Cjson) (ids : List Bytes) (hnodup : ids.Nodup) (s : Store)
    (n : ℕ) :
    (∃ before id after m, ids = before ++ id :: after ∧ n = turns k cj s before + m ∧
      m ≤ turnLength k cj (s.nacked.lookup id) ∧
      (requeueAll (requeueOne k cj) ids).cut n s =
        (requeueOne k cj id).cut m (before.foldl (Store.moved k cj) s)) ∨
    (turns k cj s ids ≤ n ∧
      (requeueAll (requeueOne k cj) ids).cut n s = ids.foldl (Store.moved k cj) s) := by
  rcases turns_split k cj s ids n with ⟨before, id, after, m, rfl, rfl, hm⟩ | hall
  · obtain ⟨hbefore, _, hapart⟩ := List.nodup_append.mp hnodup
    have hnot : id ∉ before := fun hin => hapart id hin id List.mem_cons_self rfl
    refine Or.inl ⟨before, id, after, m, rfl, rfl, hm, ?_⟩
    rw [cut_requeueAll_turns k cj before (id :: after) hbefore]
    apply cut_requeueAll_turn
    rwa [(movedAll_apart k cj before s hnot).1]
  · refine Or.inr ⟨hall, ?_⟩
    obtain ⟨m, rfl⟩ := Nat.exists_eq_add_of_le hall
    have hcut := cut_requeueAll_turns k cj ids [] hnodup s m
    rw [List.append_nil] at hcut
    rw [hcut]
    exact Script.cut_pure 0 m _

theorem mem_waiting_prio : v ∈ s.waiting .prio ↔ ∃ m ∈ s.zset.members, itemOf m = v := by
  show v ∈ s.zset.entries.map (fun e => itemOf (SortedSet.member e)) ↔ _
  rw [List.mem_map]
  constructor
  · rintro ⟨e, he, hv⟩
    exact ⟨SortedSet.member e, List.mem_map_of_mem he, hv⟩
  · rintro ⟨m, hm, hv⟩
    obtain ⟨e, he, rfl⟩ := List.mem_map.mp hm
    exact ⟨e, he, hv⟩

theorem mem_waiting_moved (k : Kind) (cj : Cjson) (id : Bytes) (s : Store)
    (hseq : k = .prio → (s.moved k cj id).seq < 2 ^ 63) :
    v ∈ (s.moved k cj id).waiting k ↔ v ∈ s.waiting k ∨ s.nacked.lookup id = some v := by
  cases hid : s.nacked.lookup id with
  | none =>
      have hsame : (s.moved k cj id).waiting k = s.waiting k := by
        rw [Store.moved_of_none hid]
        cases k <;> rfl
      rw [hsame]
      simp
  | some w =>
      cases k with
      | fifo =>
          have hlist : (s.moved .fifo cj id).waiting .fifo = ↑(w :: s.list) := by
            rw [Store.moved_of_some hid]
            rfl
          rw [hlist, Multiset.mem_coe, List.mem_cons, or_comm, Option.some.injEq, eq_comm]
          rfl
      | prio =>
          have hbound := hseq rfl
          rw [s.moved_seq, hid] at hbound
          have hmember : itemOf (memberOf (s.seq + 1) w) = w := itemOf_memberOf_of_lt hbound w
          rw [mem_waiting_prio, mem_waiting_prio, Store.moved_of_some hid]
          show (∃ m ∈ (s.zset.insert (memberOf (s.seq + 1) w) _).members, itemOf m = v) ↔ _
          rw [Option.some.injEq]
          constructor
          · rintro ⟨m, hm, rfl⟩
            rcases SortedSet.mem_members_insert.mp hm with rfl | hold
            · exact Or.inr hmember.symm
            · exact Or.inl ⟨m, hold, rfl⟩
          · rintro (⟨m, hm, hv⟩ | rfl)
            · exact ⟨m, SortedSet.mem_members_insert.mpr (Or.inr hm), hv⟩
            · exact ⟨_, SortedSet.mem_members_insert.mpr (Or.inl rfl), hmember⟩

/-- The items in the queue after a requeue. -/
theorem mem_waiting_movedAll (k : Kind) (cj : Cjson) (ids : List Bytes) (hnodup : ids.Nodup) :
    ∀ s : Store, (k = .prio → (ids.foldl (Store.moved k cj) s).seq < 2 ^ 63) →
      (v ∈ (ids.foldl (Store.moved k cj) s).waiting k ↔
        v ∈ s.waiting k ∨ ∃ id ∈ ids, s.nacked.lookup id = some v) := by
  induction ids with
  | nil =>
      intro s _
      simp
  | cons id rest ih =>
      intro s hseq
      obtain ⟨hnot, hrest⟩ := List.nodup_cons.mp hnodup
      have hone : k = .prio → (s.moved k cj id).seq < 2 ^ 63 := fun hk =>
        (Store.seq_le_movedAll k cj rest (s.moved k cj id)).trans_lt (hseq hk)
      have hlater : (∃ id' ∈ rest, (s.moved k cj id).nacked.lookup id' = some v) ↔
          ∃ id' ∈ rest, s.nacked.lookup id' = some v := by
        refine exists_congr fun id' => and_congr_right fun hid' => ?_
        have hne : id' ≠ id := fun heq => hnot (heq ▸ hid')
        rw [s.moved_nacked, Finmap.lookup_erase_ne hne]
      rw [List.foldl_cons, ih hrest _ hseq, mem_waiting_moved k cj id s hone, hlater, or_assoc]
      refine or_congr_right ?_
      constructor
      · rintro (hhead | ⟨id', hid', hv⟩)
        · exact ⟨id, List.mem_cons_self, hhead⟩
        · exact ⟨id', List.mem_cons_of_mem id hid', hv⟩
      · rintro ⟨id', hid', hv⟩
        rcases List.mem_cons.mp hid' with rfl | hin
        · exact Or.inl hv
        · exact Or.inr ⟨id', hin, hv⟩

/-! ## What is lost -/

/-- A run of `n` commands stops in the turn of `id` between the deletion of
its entry, of item `v`, and the push. -/
def InGap (k : Kind) (cj : Cjson) (s : Store) (ids before : List Bytes) (id v : Bytes) (n : ℕ) :
    Prop :=
  (∃ after, ids = before ++ id :: after) ∧ s.nacked.lookup id = some v ∧
    turns k cj s before + 3 ≤ n ∧ n ≤ turns k cj s before + pushedAfter k

/-- The first command lists the IDs. -/
theorem cut_requeue (k : Kind) (cj : Cjson) (env : Env) (vt : Time) (s : Store) (n : ℕ) :
    (requeue k cj env vt).cut (n + 1) s =
      (requeueAll (requeueOne k cj) (s.requeueIDs env vt)).cut n s := by
  have hsize : (requeueIDs env vt).size s = 1 := by
    rw [requeueIDs]
    split <;> rfl
  have hids : (requeueIDs env vt).exec s = (s.requeueIDs env vt, s) := by
    rw [requeueIDs, Script.exec_ite, Store.requeueIDs]
    split <;> rfl
  have hcut := Script.cut_bind_add (requeueIDs env vt)
    (requeueAll (requeueOne k cj)) n s
  rw [hsize, hids, Nat.add_comm] at hcut
  exact hcut

theorem requeueIDs_nodup (env : Env) (vt : Time) (s : Store) : (s.requeueIDs env vt).Nodup := by
  unfold Store.requeueIDs
  split
  · exact SortedSet.nodup_members _
  · exact env.hkeys_nodup _

/-- Between two turns every item is pending or in the queue. -/
theorem movedAll_keeps (k : Kind) (cj : Cjson) {done : List Bytes} (hnodup : done.Nodup)
    (hseq : k = .prio → (done.foldl (Store.moved k cj) s).seq < 2 ^ 63)
    (hid : s.nacked.lookup id = some v) :
    (id ∉ done ∧ (done.foldl (Store.moved k cj) s).nacked.lookup id = some v) ∨
      v ∈ (done.foldl (Store.moved k cj) s).waiting k := by
  by_cases hin : id ∈ done
  · exact Or.inr ((mem_waiting_movedAll k cj done hnodup s hseq).mpr (Or.inr ⟨id, hin, hid⟩))
  · exact Or.inl ⟨hin, (movedAll_apart k cj done s hin).1.trans hid⟩

/-- In the gap of its turn, an item is kept only by an equal one. -/
theorem InGap.equal_item {n : ℕ} (hgap : InGap k cj s ids before id v (n + 1))
    (hnodup : ids.Nodup)
    (hseq : k = .prio → ((requeueAll (requeueOne k cj) ids).cut n s).seq < 2 ^ 63)
    (hkept : ((requeueAll (requeueOne k cj) ids).cut n s).nacked.lookup id = some v ∨
      v ∈ ((requeueAll (requeueOne k cj) ids).cut n s).waiting k) :
    v ∈ s.waiting k ∨ ∃ id' ∈ before, s.nacked.lookup id' = some v := by
  obtain ⟨⟨after, rfl⟩, hid, hstart, hend⟩ := hgap
  obtain ⟨m, rfl⟩ : ∃ m, n = turns k cj s before + m := ⟨n - turns k cj s before, by omega⟩
  obtain ⟨hbefore, _, hapart⟩ := List.nodup_append.mp hnodup
  have hnot : id ∉ before := fun hin => hapart id hin id List.mem_cons_self rfl
  have hpending : (before.foldl (Store.moved k cj) s).nacked.lookup id = some v :=
    (movedAll_apart k cj before s hnot).1.trans hid
  have hlength : m ≤ turnLength k cj ((before.foldl (Store.moved k cj) s).nacked.lookup id) := by
    rw [hpending]
    cases k <;> simp only [turnLength, pushedAfter] at hend ⊢ <;> omega
  rw [cut_requeueAll_turns k cj before (id :: after) hbefore,
    cut_requeueAll_turn k cj id after _ hlength] at hkept hseq
  rcases cut_requeueOne k cj id (before.foldl (Store.moved k cj) s) m with
    ⟨hearly, _⟩ | ⟨_, _, hnacked, hwaiting, hle⟩ | ⟨hlate, _⟩
  · omega
  · rcases hkept with hstill | hin
    · rw [hnacked, Finmap.lookup_erase] at hstill
      cases hstill
    · rw [hwaiting] at hin
      exact (mem_waiting_movedAll k cj before hbefore s fun hk => hle.trans_lt (hseq hk)).mp hin
  · omega

/-- Wherever the loop stops, an item is kept unless its turn is in the gap and
there is no equal one. -/
theorem kept_of_equal_items {n : ℕ} (hnodup : ids.Nodup)
    (hseq : k = .prio → ((requeueAll (requeueOne k cj) ids).cut n s).seq < 2 ^ 63)
    (hheld : ∀ before id v, InGap k cj s ids before id v (n + 1) →
      v ∈ s.waiting k ∨ ∃ id' ∈ before, s.nacked.lookup id' = some v)
    (hid : s.nacked.lookup id = some v) :
    ((requeueAll (requeueOne k cj) ids).cut n s).nacked.lookup id = some v ∨
      v ∈ ((requeueAll (requeueOne k cj) ids).cut n s).waiting k := by
  rcases cut_requeueAll k cj ids hnodup s n with
    ⟨before, id', after, m, hsplit, hcount, _, hcut⟩ | ⟨_, hcut⟩
  · rw [hcut] at hseq ⊢
    have hturn : (before ++ [id']).Nodup := by
      rw [hsplit, List.append_cons] at hnodup
      exact (List.nodup_append.mp hnodup).1
    have hbefore : before.Nodup := (List.nodup_append.mp hturn).1
    rcases cut_requeueOne k cj id' (before.foldl (Store.moved k cj) s) m with
      ⟨_, hsame⟩ | ⟨hearly, hlate, hnacked, hwaiting, hle⟩ | ⟨_, hsame⟩
    · rw [hsame] at hseq ⊢
      exact (movedAll_keeps k cj hbefore hseq hid).imp And.right fun hin => hin
    · have hbound : k = .prio → (before.foldl (Store.moved k cj) s).seq < 2 ^ 63 :=
        fun hk => hle.trans_lt (hseq hk)
      rw [hnacked, hwaiting]
      by_cases hself : id = id'
      · subst hself
        refine Or.inr ((mem_waiting_movedAll k cj before hbefore s hbound).mpr ?_)
        exact hheld before id v ⟨⟨after, hsplit⟩, hid, by omega, by omega⟩
      · rw [Finmap.lookup_erase_ne hself]
        exact (movedAll_keeps k cj hbefore hbound hid).imp And.right fun hin => hin
    · rw [hsame.nacked, hsame.waiting]
      rw [hsame.seq] at hseq
      have hfold : (before ++ [id']).foldl (Store.moved k cj) s =
          (before.foldl (Store.moved k cj) s).moved k cj id' := by
        rw [List.foldl_append]
        rfl
      rw [← hfold] at hseq ⊢
      exact (movedAll_keeps k cj hturn hseq hid).imp And.right fun hin => hin
  · rw [hcut] at hseq ⊢
    exact (movedAll_keeps k cj hnodup hseq hid).imp And.right fun hin => hin

/-- **RequeueNackedItems loses an item** exactly when it stops in the gap of a
turn, and no equal item is in the queue, from before or from an earlier turn.
The first command is the one that lists the IDs.  INCR refuses to go past
2^63 - 1. -/
theorem requeue_keeps_items_iff (k : Kind) (cj : Cjson) (env : Env) (vt : Time) (s : Store) (n : ℕ)
    (hseq : k = .prio → ((requeue k cj env vt).cut n s).seq < 2 ^ 63) :
    (∀ id v, s.nacked.lookup id = some v →
        ((requeue k cj env vt).cut n s).nacked.lookup id = some v ∨
          v ∈ ((requeue k cj env vt).cut n s).waiting k) ↔
      ∀ before id v, InGap k cj s (s.requeueIDs env vt) before id v n →
        v ∈ s.waiting k ∨ ∃ id' ∈ before, s.nacked.lookup id' = some v := by
  have hnodup := requeueIDs_nodup env vt s
  cases n with
  | zero =>
      constructor
      · rintro _ before id v ⟨_, _, hstart, _⟩
        omega
      · intro _ id v hid
        rw [Script.cut_zero]
        exact Or.inl hid
  | succ n =>
      rw [cut_requeue] at hseq ⊢
      constructor
      · intro hkept before id v hgap
        exact hgap.equal_item hnodup hseq (hkept id v hgap.2.1)
      · intro hheld id v hid
        exact kept_of_equal_items hnodup hseq hheld hid

/-- A requeue of a priority queue's only item, stopped after the ZREM of its
turn. -/
theorem requeue_stopped_after_zrem :
    ∃ id v, onePending.nacked.lookup id = some v ∧
      ((requeue .prio .none (.plain 0 fun _ => 0) 0).cut 4 onePending).nacked.lookup id ≠ some v ∧
        v ∉ ((requeue .prio .none (.plain 0 fun _ => 0) 0).cut 4 onePending).waiting .prio := by
  have hitem : onePending.nacked.lookup [1] = some [2] := Finmap.lookup_insert _
  have hids : onePending.requeueIDs (.plain 0 fun _ => 0) 0 = [[1]] := rfl
  by_contra hkept
  push Not at hkept
  have hgap := (requeue_keeps_items_iff .prio .none (.plain 0 fun _ => 0) 0 onePending 4
    fun _ => by decide).mp (fun id v hid => Classical.or_iff_not_imp_left.mpr (hkept id v hid))
    [] [1] [2] ⟨⟨[], hids⟩, hitem, by decide, by decide⟩
  rcases hgap with hin | ⟨id, hid, _⟩
  · exact absurd hin (Multiset.notMem_zero _)
  · cases hid

/-- With `:timeouts` of another type and no visibility timeout, a requeue of
the only item loses it. -/
theorem requeue_without_timeouts_loses :
    onePending.nacked.lookup [1] = some [2] ∧
      ((requeue .fifo .none (.plain 0 fun _ => 0) 0).attempt
        (Faults.of .timeouts).fails onePending).2.nacked.lookup [1] = none ∧
      [2] ∉ ((requeue .fifo .none (.plain 0 fun _ => 0) 0).attempt
        (Faults.of .timeouts).fails onePending).2.waiting .fifo := by
  refine ⟨Finmap.lookup_insert _, ?_, ?_⟩
  · exact Finmap.lookup_erase _ _
  · exact Multiset.notMem_zero _

end Redisq.Model
