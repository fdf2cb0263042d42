import Redisq.Model.Run

/-!
# A queue as a custody of items

What a queue is for, in the terms of `Library.Custody`: items wait, or are
held under an ack ID.  Each script is one move of the custody, `Invocation.move`,
and `custody_after` says that the scripts make exactly those moves.  The
table of held items needs no assumption (`after_nacked`); the bag of waiting
ones needs that members of a priority queue never merge, which holds as long
as sequence numbers are fresh (`Sequenced`).
-/

namespace Redisq.Model

open Custody (Move)

/-! ## The custody of a store -/

/-- The waiting items. -/
def Store.waiting (k : Kind) (s : Store) : Multiset Bytes :=
  match k with
  | .fifo => s.list
  | .prio => s.zset.entries.map fun e => itemOf (SortedSet.member e)

/-- Waiting items, and pending ones under their ack IDs. -/
def Store.custody (k : Kind) (s : Store) : Custody Bytes Bytes :=
  ⟨s.waiting k, s.nacked⟩

/-- The item a raw pop hands out. -/
def Store.rawHead (k : Kind) (s : Store) : Option Bytes :=
  if s.paused.isSome then none else (s.head k [[]]).head?

/-- The item a `Remove` takes out: in a priority queue not always the
argument, which may also be the very bytes of a member. -/
def Store.removedItem (k : Kind) (item : Bytes) (s : Store) : Option Bytes :=
  match k with
  | .fifo => if item ∈ s.list then some item else none
  | .prio =>
      (s.zset.members.find? fun m =>
        m = item ∨ (17 ≤ m.length ∧ m.head? = some 255 ∧ m.drop 17 = item)).map itemOf

/-- The entries a fresh pop makes. -/
def Store.taken (k : Kind) (ids : List Bytes) (s : Store) : List (Bytes × Bytes) :=
  if s.holds ids = true ∨ s.paused.isSome = true then [] else ids.zip (s.head k ids)

/-- An item withdrawn, if there is one. -/
def withdrawal : Option Bytes → Move Bytes Bytes
  | none => .rest
  | some v => .withdraw v

/-- The move an invocation makes. -/
def Invocation.move (k : Kind) (cj : Cjson) (env : Env) (s : Store) :
    Invocation → Move Bytes Bytes
  | .push a => if s.remembers env a then .rest else .deposit a.item
  | .rawPop => withdrawal (s.rawHead k)
  | .pop p => .take (s.taken k p.ids)
  | .prepareAck id item _ => .lodge id item
  | .finish a => .discharge a.ackID
  | .requeue vt => .giveBack (s.requeueIDs env vt)
  | .sweep owner hbt => .giveBack (s.sweptIDs k cj env owner.name hbt)
  | .release owner => .giveBack (s.pendingIDs env (ownedBy owner.name))
  | .remove item => withdrawal (s.removedItem k item)
  | .purge => .clear
  | _ => .rest

/-! ## Held items -/

theorem Store.moved_nacked (k : Kind) (cj : Cjson) (s : Store) (id : Bytes) :
    (s.moved k cj id).nacked = s.nacked.erase id := by
  unfold Store.moved
  split
  · next h => exact (Finmap.erase_of_lookup_none h).symm
  · rfl

theorem Store.movedAll_nacked (k : Kind) (cj : Cjson) (ids : List Bytes) (s : Store) :
    (ids.foldl (Store.moved k cj) s).nacked =
      ids.foldl (fun held id => held.erase id) s.nacked := by
  induction ids generalizing s with
  | nil => rfl
  | cons id rest ih => rw [List.foldl_cons, ih, s.moved_nacked, List.foldl_cons]

theorem giveBack_held (ids : List Bytes) (c : Custody Bytes Bytes) :
    (ids.foldl Custody.giveBackOne c).held =
      ids.foldl (fun held id => held.erase id) c.held := by
  induction ids generalizing c with
  | nil => rfl
  | cons id rest ih => rw [List.foldl_cons, ih, List.foldl_cons]; rfl

theorem Store.beheaded_nacked (k : Kind) (ids : List Bytes) (s : Store) :
    (s.beheaded k ids).nacked = s.nacked := by
  cases k <;> rfl

/-- An ack pop adds to the table what it takes off the queue. -/
theorem PopCall.effect_nacked (k : Kind) (env : Env) (p : PopCall) (s : Store) :
    (p.effect k env s).2.nacked = s.nacked.insertAll (s.taken k p.ids) := by
  unfold PopCall.effect Store.pop Store.taken
  by_cases hheld : s.holds p.ids = true
  · rw [if_pos hheld, if_pos (Or.inl hheld)]
    rfl
  · by_cases hpaused : s.paused.isSome = true
    · rw [if_neg hheld, if_pos hpaused, if_pos (Or.inr hpaused)]
      rfl
    · rw [if_neg hheld, if_neg hpaused, if_neg (by simp [hheld, hpaused])]
      simp only [Store.poppedFresh, Store.joined]
      split
      · next hnil => rw [hnil, List.zip_nil_right, Finmap.insertAll_nil]
      · rw [Store.pended, s.beheaded_nacked]

theorem Store.pushed_nacked (k : Kind) (env : Env) (a : PushArgs) (s : Store) :
    (s.pushed k env a).nacked = s.nacked := by
  cases k <;> rfl

/-- The scripts make their moves on the held items. -/
theorem after_nacked (k : Kind) (cj : Cjson) (env : Env) (s : Store) (inv : Invocation) :
    (inv.after k cj env s).nacked =
      ((s.custody k).apply (inv.move k cj env s)).held := by
  cases inv with
  | push a =>
      simp only [Invocation.after, Invocation.move, Store.afterPush]
      split
      · rfl
      · exact s.pushed_nacked k env a
  | rawPop =>
      simp only [Invocation.after, Invocation.move, Store.rawPopped]
      cases s.rawHead k <;> simp only [withdrawal, Custody.apply, Store.custody] <;> split <;>
        cases k <;> rfl
  | pop p => exact p.effect_nacked k env s
  | prepareAck id item vt => rfl
  | finish a =>
      simp only [Invocation.after, Invocation.move, Store.afterFinish, Custody.apply]
      split
      · next h => exact (Finmap.erase_of_lookup_none h).symm
      · rfl
  | requeue vt =>
      simp only [Invocation.after, Invocation.move, Custody.apply, Store.movedAll_nacked,
        giveBack_held, Store.custody]
  | sweep owner hbt =>
      simp only [Invocation.after, Invocation.move, Custody.apply, giveBack_held, Store.custody,
        Store.sweptIDs, List.foldl_append, ← Store.movedAll_nacked k cj]
      rfl
  | release owner =>
      simp only [Invocation.after, Invocation.move, Custody.apply, giveBack_held, Store.custody,
        ← Store.movedAll_nacked k cj]
      rfl
  | remove item =>
      simp only [Invocation.after, Invocation.move, Store.removed]
      cases s.removedItem k item <;> simp only [withdrawal, Custody.apply, Store.custody] <;>
        cases k <;> simp only [] <;> split <;> rfl
  | purge => rfl
  | pause => rfl
  | resume => rfl
  | _ => rfl

/-! ## Waiting items -/

/-- Members carry sequence numbers that were handed out. -/
def Sequenced (s : Store) : Prop :=
  ∀ m ∈ s.zset.members, ∃ n v, n ≤ s.seq ∧ m = memberOf n v

theorem Sequenced.mono {s t : Store} (hs : Sequenced s)
    (hmembers : ∀ m ∈ t.zset.members, m ∈ s.zset.members) (hseq : s.seq ≤ t.seq) :
    Sequenced t := by
  intro m hm
  obtain ⟨n, v, hn, rfl⟩ := hs m (hmembers m hm)
  exact ⟨n, v, hn.trans hseq, rfl⟩

/-- A member under the next number is new. -/
theorem Sequenced.notMem {s : Store} (hs : Sequenced s) (hseq : s.seq + 1 ≤ 2 ^ 53)
    (v : Bytes) : memberOf (s.seq + 1) v ∉ s.zset.members := by
  intro hm
  obtain ⟨n, w, hn, heq⟩ := hs _ hm
  have := (memberOf_injective hseq (hn.trans ((Nat.le_succ _).trans hseq)) heq).1
  omega

theorem Sequenced.insert {s t : Store} (hs : Sequenced s) (hseq : t.seq = s.seq + 1)
    {v : Bytes} {p : ℤ} (hzset : t.zset = s.zset.insert (memberOf (s.seq + 1) v) p) :
    Sequenced t := by
  intro m hm
  rw [hzset] at hm
  obtain ⟨e, he, rfl⟩ := List.mem_map.mp hm
  rcases SortedSet.mem_entries_insert.mp he with rfl | ⟨hmem, _⟩
  · exact ⟨s.seq + 1, v, hseq.ge, rfl⟩
  · obtain ⟨n, w, hn, heq⟩ := hs _ (List.mem_map_of_mem hmem)
    exact ⟨n, w, by omega, heq⟩

/-- A list's first element goes last in a bag. -/
theorem coe_cons_eq_add {α : Type} (a : α) (l : List α) :
    ((a :: l : List α) : Multiset α) = ↑l + {a} := by
  rw [← Multiset.cons_coe, add_comm, Multiset.singleton_add]

/-- The items of a sorted set after an insertion of a new member. -/
theorem waiting_insert {z : ZSet} {m : Bytes} (h : m ∉ z.members) (p : ℤ) :
    (((z.insert m p).entries.map fun e => itemOf (SortedSet.member e) : List Bytes) :
        Multiset Bytes) =
      ((z.entries.map fun e => itemOf (SortedSet.member e) : List Bytes) : Multiset Bytes) +
        {itemOf m} := by
  have hperm := (z.insert_perm m p).map fun e => itemOf (SortedSet.member e)
  rw [SortedSet.erase_eq_self h] at hperm
  rw [Multiset.coe_eq_coe.mpr hperm, List.map_cons, coe_cons_eq_add]
  rfl

/-- An item pushed back waits. -/
theorem Store.repushed_waiting (k : Kind) {s : Store} (hs : Sequenced s) (id v : Bytes)
    (hseq : k = .prio → (s.repushed k id v).seq ≤ 2 ^ 53) :
    (s.repushed k id v).waiting k = s.waiting k + {v} := by
  cases k with
  | fifo =>
      simp only [Store.repushed, Store.waiting, coe_cons_eq_add]
  | prio =>
      have hseq : s.seq + 1 ≤ 2 ^ 53 := hseq rfl
      simp only [Store.repushed, Store.waiting]
      rw [waiting_insert (hs.notMem hseq v), itemOf_memberOf hseq]

theorem Store.repushed_sequenced (k : Kind) {s : Store} (hs : Sequenced s) (id v : Bytes) :
    Sequenced (s.repushed k id v) := by
  cases k with
  | fifo => exact hs
  | prio => exact hs.insert rfl rfl

/-- An item pushed waits. -/
theorem Store.pushed_waiting (k : Kind) (env : Env) (a : PushArgs) {s : Store}
    (hs : Sequenced s) (hseq : (s.pushed k env a).seq ≤ 2 ^ 53) :
    (s.pushed k env a).waiting k = s.waiting k + {a.item} := by
  cases k with
  | fifo =>
      simp only [Store.pushed, Store.waiting]
      exact (Multiset.coe_add _ _).symm
  | prio =>
      have hseq : s.seq + 1 ≤ 2 ^ 53 := hseq
      simp only [Store.pushed, Store.waiting]
      rw [waiting_insert (hs.notMem hseq a.item), itemOf_memberOf hseq]

theorem Store.pushed_sequenced (k : Kind) (env : Env) (a : PushArgs) {s : Store}
    (hs : Sequenced s) : Sequenced (s.pushed k env a) := by
  cases k with
  | fifo => exact hs
  | prio => exact hs.insert rfl rfl

/-! ### Requeues -/

/-- How far the sequence moves on in a requeue. -/
theorem Store.moved_seq (k : Kind) (cj : Cjson) (s : Store) (id : Bytes) :
    (s.moved k cj id).seq =
      s.seq + if k = .prio ∧ (s.nacked.lookup id).isSome = true then 1 else 0 := by
  cases h : s.nacked.lookup id with
  | none => rw [Store.moved_of_none h]; simp
  | some v => rw [Store.moved_of_some h]; cases k <;> simp [Store.repushed]

theorem Store.seq_le_movedAll (k : Kind) (cj : Cjson) (ids : List Bytes) (s : Store) :
    s.seq ≤ (ids.foldl (Store.moved k cj) s).seq := by
  induction ids generalizing s with
  | nil => exact le_rfl
  | cons id rest ih =>
      refine le_trans ?_ (ih (s.moved k cj id))
      rw [s.moved_seq]
      exact Nat.le_add_right _ _

/-- A requeue hands out a number for each entry it moves, at most. -/
theorem Store.movedAll_seq_le (k : Kind) (cj : Cjson) (ids : List Bytes) (s : Store) :
    (ids.foldl (Store.moved k cj) s).seq ≤
      s.seq + Multiset.card ((s.custody k).entriesOf ids) := by
  induction ids generalizing s with
  | nil => exact Nat.le_add_right _ _
  | cons id rest ih =>
      have hrest : ((s.moved k cj id).custody k).entriesOf rest =
          ((s.custody k).giveBackOne id).entriesOf rest :=
        Custody.entriesOf_congr rest (s.moved_nacked k cj id)
      have hone : (s.moved k cj id).seq ≤
          s.seq + Multiset.card ((s.custody k).entryOf id) := by
        rw [s.moved_seq]
        cases h : s.nacked.lookup id with
        | none => simp
        | some v =>
            have hentry : (s.custody k).entryOf id = {(id, v)} := Custody.entryOf_of_some h
            rw [hentry, Multiset.card_singleton]
            split <;> omega
      have hall := ih (s.moved k cj id)
      rw [hrest] at hall
      rw [List.foldl_cons, Custody.entriesOf, Multiset.card_add]
      omega

/-- One step of a requeue gives one entry back. -/
theorem Store.moved_custody (k : Kind) (cj : Cjson) {s : Store} (hs : Sequenced s)
    (id : Bytes) (hseq : k = .prio → (s.moved k cj id).seq ≤ 2 ^ 53) :
    (s.moved k cj id).custody k = (s.custody k).giveBackOne id ∧
      Sequenced (s.moved k cj id) := by
  cases h : s.nacked.lookup id with
  | none =>
      have hentry : (s.custody k).entryOf id = 0 := Custody.entryOf_of_none h
      rw [Store.moved_of_none h]
      refine ⟨?_, hs⟩
      rw [Custody.giveBackOne, hentry, Multiset.map_zero, add_zero]
      simp only [Store.custody, Finmap.erase_of_lookup_none h]
      cases k <;> rfl
  | some v =>
      have hentry : (s.custody k).entryOf id = {(id, v)} := Custody.entryOf_of_some h
      rw [Store.moved_of_some h] at hseq ⊢
      have hwaiting := Store.repushed_waiting k hs id v hseq
      have hsequenced := Store.repushed_sequenced k hs id v
      refine ⟨?_, hsequenced⟩
      rw [Custody.giveBackOne, hentry, Multiset.map_singleton]
      simp only [Store.custody, ← hwaiting]
      cases k <;> rfl

/-- A requeue gives entries back, one after the other. -/
theorem Store.movedAll_custody (k : Kind) (cj : Cjson) (ids : List Bytes) :
    ∀ {s : Store}, Sequenced s → (k = .prio → (ids.foldl (Store.moved k cj) s).seq ≤ 2 ^ 53) →
      (ids.foldl (Store.moved k cj) s).custody k =
          ids.foldl Custody.giveBackOne (s.custody k) ∧
        Sequenced (ids.foldl (Store.moved k cj) s) := by
  induction ids with
  | nil => exact fun hs _ => ⟨rfl, hs⟩
  | cons id rest ih =>
      intro s hs hseq
      rw [List.foldl_cons] at hseq ⊢
      have hfirst := fun hk => (Store.seq_le_movedAll k cj rest (s.moved k cj id)).trans (hseq hk)
      obtain ⟨hcustody, hsequenced⟩ := Store.moved_custody k cj hs id hfirst
      obtain ⟨hrest, hrestSequenced⟩ := ih hsequenced hseq
      exact ⟨by rw [hrest, hcustody, List.foldl_cons], hrestSequenced⟩

/-! ### Pops and removals -/

/-- A pop takes the head off the waiting items. -/
theorem Store.beheaded_waiting (k : Kind) (ids : List Bytes) (s : Store) :
    (s.beheaded k ids).waiting k + ↑(s.head k ids) = s.waiting k := by
  cases k with
  | fifo =>
      simp only [Store.beheaded, Store.head, Store.waiting, Multiset.coe_add]
      exact Multiset.coe_eq_coe.mpr (List.perm_append_comm.trans
        (by rw [List.take_append_drop]))
  | prio =>
      simp only [Store.beheaded, Store.head, Store.waiting, Multiset.coe_add, SortedSet.dropMin,
        ← List.map_append]
      refine Multiset.coe_eq_coe.mpr (List.Perm.map _ ?_)
      exact List.perm_append_comm.trans (by rw [List.take_append_drop])

theorem PopCall.effect_waiting (k : Kind) (env : Env) (p : PopCall) (s : Store) :
    (p.effect k env s).2.waiting k + ↑((s.taken k p.ids).map Prod.snd) = s.waiting k := by
  unfold PopCall.effect Store.pop Store.taken
  by_cases hheld : s.holds p.ids = true
  · rw [if_pos hheld, if_pos (Or.inl hheld)]
    cases k <;> exact add_zero _
  · by_cases hpaused : s.paused.isSome = true
    · rw [if_neg hheld, if_pos hpaused, if_pos (Or.inr hpaused)]
      cases k <;> exact add_zero _
    · rw [if_neg hheld, if_neg hpaused, if_neg (by simp [hheld, hpaused]),
        List.map_snd_zip (s.length_head_le k p.ids)]
      simp only [Store.poppedFresh]
      split
      · next hnil =>
          rw [hnil]
          cases k <;> exact add_zero _
      · rw [← s.beheaded_waiting k p.ids]
        cases k <;> rfl

/-- What a raw pop and a removal take out, as a bag. -/
def bagOf : Option Bytes → Multiset Bytes
  | none => 0
  | some v => {v}

theorem Store.rawPopped_waiting (k : Kind) (s : Store) :
    (s.rawPopped k).waiting k + bagOf (s.rawHead k) = s.waiting k := by
  unfold Store.rawPopped Store.rawHead
  by_cases hpaused : s.paused.isSome = true
  · rw [if_pos hpaused, if_pos hpaused]
    exact add_zero _
  · rw [if_neg hpaused, if_neg hpaused]
    cases k with
    | fifo =>
        cases hlist : s.list <;>
          simp [Store.head, Store.waiting, bagOf, hlist, ← coe_cons_eq_add]
    | prio =>
        cases hzset : s.zset.entries <;>
          simp [Store.head, Store.waiting, bagOf, SortedSet.dropMin, hzset, ← coe_cons_eq_add]

theorem Store.removed_waiting (k : Kind) (item : Bytes) (s : Store) :
    (s.removed k item).waiting k + bagOf (s.removedItem k item) = s.waiting k := by
  cases k with
  | fifo =>
      simp only [Store.removed, Store.removedItem, Store.waiting]
      split
      · next hmem =>
          rw [Multiset.coe_eq_coe.mpr (List.perm_cons_erase hmem), bagOf, coe_cons_eq_add]
      · next hmem =>
          rw [List.erase_of_not_mem hmem]
          exact add_zero _
  | prio =>
      simp only [Store.removed, Store.removedItem, Store.waiting]
      cases hfind : s.zset.members.find? fun m =>
          m = item ∨ (17 ≤ m.length ∧ m.head? = some 255 ∧ m.drop 17 = item) with
      | none => simp [bagOf]
      | some m =>
          obtain ⟨e, he, rfl⟩ := List.mem_map.mp (List.mem_of_find?_eq_some hfind)
          have hperm := (SortedSet.erase_perm he).map fun e => itemOf (SortedSet.member e)
          simp only [Option.map_some, bagOf]
          rw [Multiset.coe_eq_coe.mpr hperm, List.map_cons, coe_cons_eq_add]

/-! ### Every script -/

theorem PopCall.effect_sequenced (k : Kind) (env : Env) (p : PopCall) {s : Store}
    (hs : Sequenced s) : Sequenced (p.effect k env s).2 := by
  unfold PopCall.effect Store.pop
  split
  · exact hs
  · split
    · exact hs
    · simp only [Store.poppedFresh, Store.joined]
      split
      · exact hs
      · cases k with
        | fifo => exact hs
        | prio =>
            exact hs.mono (fun m hm => List.map_subset _ (List.drop_subset _ _) hm) le_rfl

theorem Store.withLiveness_custody (k : Kind) (s : Store) (l : Liveness) :
    (s.withLiveness l).custody k = s.custody k := by
  cases k <;> rfl

theorem withdrawal_waiting {c : Custody Bytes Bytes} {v : Option Bytes} {w : Multiset Bytes}
    (h : w + bagOf v = c.waiting) : (c.apply (withdrawal v)).waiting = w := by
  cases v with
  | none => exact h.symm.trans (add_zero w)
  | some v => exact (eq_tsub_of_add_eq h).symm

/-- The members a `Remove` leaves. -/
theorem Store.removed_members (k : Kind) (item : Bytes) (s : Store) :
    ∀ m ∈ (s.removed k item).zset.members, m ∈ s.zset.members := by
  intro m hm
  cases k with
  | fifo => exact hm
  | prio =>
      simp only [Store.removed] at hm
      split at hm
      · obtain ⟨e, he, rfl⟩ := List.mem_map.mp hm
        exact List.mem_map_of_mem (SortedSet.mem_entries_erase.mp he).1
      · exact hm

theorem Store.removed_frame (k : Kind) (item : Bytes) (s : Store) :
    (s.removed k item).stats = s.stats ∧ (s.removed k item).expiry = s.expiry ∧
      (s.removed k item).seq = s.seq := by
  cases k with
  | fifo => exact ⟨rfl, rfl, rfl⟩
  | prio =>
      simp only [Store.removed]
      split <;> exact ⟨rfl, rfl, rfl⟩

/-- A script numbers the members it adds. -/
theorem after_sequenced (k : Kind) (cj : Cjson) (env : Env) {s : Store} (hs : Sequenced s)
    (inv : Invocation) : Sequenced (inv.after k cj env s) := by
  have hmoved : ∀ ids : List Bytes, Sequenced (ids.foldl (Store.moved k cj) s) := fun ids => by
    refine Store.movedAll_induction (fun t id ht => ?_) ids s hs
    cases hid : t.nacked.lookup id with
    | none =>
        rw [Store.moved_of_none hid]
        exact ht
    | some v =>
        rw [Store.moved_of_some hid]
        exact t.repushed_sequenced k ht id v
  cases inv with
  | push a =>
      simp only [Invocation.after, Store.afterPush]
      split
      · exact hs
      · exact s.pushed_sequenced k env a hs
  | rawPop =>
      simp only [Invocation.after, Store.rawPopped]
      split
      · exact hs
      · cases k with
        | fifo => exact hs
        | prio =>
            exact hs.mono (fun m hm => List.map_subset _ (List.drop_subset _ _) hm) le_rfl
  | pop p => exact p.effect_sequenced k env hs
  | finish a =>
      simp only [Invocation.after, Store.afterFinish]
      split <;> exact hs
  | requeue vt => exact hmoved _
  | sweep owner hbt =>
      rw [Invocation.after, Store.swept_eq]
      exact hmoved _
  | release owner => exact hmoved _
  | remove item => exact hs.mono (s.removed_members k item) (s.removed_frame k item).2.2.ge
  | purge => exact fun m hm => absurd hm List.not_mem_nil
  | _ => exact hs

/-- The scripts make their moves, and keep members apart. -/
theorem after_custody (k : Kind) (cj : Cjson) (env : Env) {s : Store} (hs : Sequenced s)
    (inv : Invocation) (hseq : (inv.after k cj env s).seq ≤ 2 ^ 53) :
    (inv.after k cj env s).custody k = (s.custody k).apply (inv.move k cj env s) ∧
      Sequenced (inv.after k cj env s) := by
  refine ⟨?_, after_sequenced k cj env hs inv⟩
  have held : ∀ {w : Multiset Bytes}, (inv.after k cj env s).waiting k = w →
      ((s.custody k).apply (inv.move k cj env s)).waiting = w →
      (inv.after k cj env s).custody k = (s.custody k).apply (inv.move k cj env s) := by
    intro w hafter hmove
    have hnacked := after_nacked k cj env s inv
    rw [Store.custody, hafter, hnacked, ← hmove]
  cases inv with
  | push a =>
      by_cases hrepeat : s.remembers env a = true
      · simp only [Invocation.after, Store.afterPush, Invocation.move, hrepeat, if_true]
        rfl
      · simp only [Invocation.after, Store.afterPush, hrepeat] at hseq
        refine held ?_ rfl
        simp only [Invocation.after, Store.afterPush, Invocation.move, hrepeat]
        refine Eq.trans ?_ (s.pushed_waiting k env a hs hseq)
        cases k <;> rfl
  | rawPop => exact held rfl (withdrawal_waiting (s.rawPopped_waiting k))
  | pop p =>
      refine held rfl ?_
      exact (eq_tsub_of_add_eq (p.effect_waiting k env s)).symm
  | prepareAck id item vt => cases k <;> rfl
  | finish a =>
      refine held ?_ rfl
      simp only [Invocation.after, Store.afterFinish]
      split
      · rfl
      · cases k <;> rfl
  | requeue vt => exact (Store.movedAll_custody k cj _ hs fun _ => hseq).1
  | sweep owner hbt =>
      rw [Invocation.after, Store.swept_eq] at hseq ⊢
      have h := Store.movedAll_custody k cj (s.sweptIDs k cj env owner.name hbt) hs fun _ => hseq
      rw [Store.withLiveness_custody, h.1]
      rfl
  | release owner =>
      have h := Store.movedAll_custody k cj (s.pendingIDs env (ownedBy owner.name)) hs fun _ => hseq
      rw [Invocation.after, Store.released, Store.withLiveness_custody, h.1]
      rfl
  | remove item => exact held rfl (withdrawal_waiting (s.removed_waiting k item))
  | purge => cases k <;> rfl
  | pause => cases k <;> rfl
  | resume => cases k <;> rfl
  | _ => rfl

/-! ### Legality -/

theorem map_fst_zip_sublist {α β : Type} (l : List α) (l' : List β) :
    ((l.zip l').map Prod.fst).Sublist l := by
  induction l generalizing l' with
  | nil => simp
  | cons a l ih =>
      cases l' with
      | nil => simp
      | cons b l' => exact (ih l').cons_cons a

theorem Store.holds_eq_false {s : Store} {ids : List Bytes} :
    s.holds ids = false ↔ ∀ id ∈ ids, s.nacked.lookup id = none := by
  simp [Store.holds]

theorem withdrawal_legal {c : Custody Bytes Bytes} {v : Option Bytes} {w : Multiset Bytes}
    (h : w + bagOf v = c.waiting) : c.Legal (withdrawal v) := by
  cases v with
  | none => trivial
  | some v =>
      have hmem : v ∈ c.waiting := h ▸ Multiset.mem_add.mpr (Or.inr (Multiset.mem_singleton_self v))
      exact hmem

/-- Every script's move is legal, as long as nothing is made pending by hand
over another pending item. -/
theorem move_legal (k : Kind) (cj : Cjson) (env : Env) (s : Store) (inv : Invocation)
    (hprepare : ∀ id item vt, inv = .prepareAck id item vt →
      s.nacked.lookup id = none ∨ s.nacked.lookup id = some item) :
    (s.custody k).Legal (inv.move k cj env s) := by
  cases inv with
  | push a =>
      simp only [Invocation.move]
      split <;> trivial
  | rawPop => exact withdrawal_legal (s.rawPopped_waiting k)
  | remove item => exact withdrawal_legal (s.removed_waiting k item)
  | pop p =>
      refine ⟨?_, ?_, ?_⟩
      · unfold Store.taken
        split
        · exact List.nodup_nil
        · exact (ackIDs_nodup _ _ _).sublist (map_fst_zip_sublist _ _)
      · intro id hid
        unfold Store.taken at hid
        split at hid
        · simp at hid
        · next hfree =>
            have hheld : s.holds p.ids = false := by
              rw [← Bool.not_eq_true]
              exact fun h => hfree (Or.inl h)
            have hmem := (map_fst_zip_sublist _ _).subset hid
            exact Finmap.lookup_eq_none.mp (Store.holds_eq_false.mp hheld id hmem)
      · exact (Multiset.le_add_left _ _).trans_eq (p.effect_waiting k env s)
  | prepareAck id item vt =>
      rcases hprepare id item vt rfl with hnone | hsome
      · exact Or.inl (Finmap.lookup_eq_none.mp hnone)
      · exact Or.inr hsome
  | _ => trivial

end Redisq.Model
