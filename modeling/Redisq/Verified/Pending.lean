import Redisq.Verified.Custody

/-!
# What becomes of a pending entry

A pop's reply hands out the entries that are pending once it has run
(`returned_pending`).  An entry that is pending after a script run was there
before, was just popped, or was made pending by hand (`pending_cases`); while
it is there, its deadline only moves back (`deadline_kept`).
-/

namespace Redisq.Model

/-! ## What a pop returns -/

/-- The items of a reply to a pop. -/
def Reply.items : Reply → List Bytes
  | .one (.item v) => [v]
  | .batch (.popped _ items) => items
  | _ => []

/-- The items a pop's reply hands out, each with its ack ID. -/
def PopCall.returned (p : PopCall) (reply : Reply) : List (Bytes × Bytes) :=
  p.ids.zip reply.items

/-- The entries a pop hands out: those it finds held, or those it takes. -/
def Store.handed (k : Kind) (p : PopCall) (s : Store) : List (Bytes × Bytes) :=
  if s.holds p.ids = true then s.leading p.ids else s.taken k p.ids

theorem Store.leading_zip (s : Store) (ids : List Bytes) :
    ids.zip ((s.leading ids).map fun p => p.2) = s.leading ids := by
  induction ids with
  | nil => rfl
  | cons id rest ih =>
      cases h : s.nacked.lookup id with
      | none => simp [Store.leading, h]
      | some v => simp [Store.leading, h, ih]

theorem Store.mem_leading {s : Store} {ids : List Bytes} {p : Bytes × Bytes}
    (h : p ∈ s.leading ids) : p.1 ∈ ids ∧ s.nacked.lookup p.1 = some p.2 := by
  induction ids with
  | nil => simp [Store.leading] at h
  | cons id rest ih =>
      cases hid : s.nacked.lookup id with
      | none => simp [Store.leading, hid] at h
      | some v =>
          simp only [Store.leading, hid, List.mem_cons] at h
          rcases h with rfl | hrest
          · exact ⟨List.mem_cons_self, hid⟩
          · exact ⟨List.mem_cons_of_mem _ (ih hrest).1, (ih hrest).2⟩

theorem Store.mem_taken {k : Kind} {s : Store} {ids : List Bytes} {p : Bytes × Bytes}
    (h : p ∈ s.taken k ids) :
    p.1 ∈ ids ∧ s.holds ids = false ∧ s.paused.isSome = false ∧
      p ∈ ids.zip (s.head k ids) := by
  unfold Store.taken at h
  split at h
  · simp at h
  · next hfree =>
      simp only [not_or, Bool.not_eq_true] at hfree
      exact ⟨(List.of_mem_zip (a := p.1) (b := p.2) h).1, hfree.1, hfree.2, h⟩

/-- The items of a batch reply. -/
def BatchReply.items : BatchReply → List Bytes
  | .popped _ items => items
  | .paused => []

theorem PopCall.effect_items (k : Kind) (env : Env) (p : PopCall) (s : Store) :
    p.ids.zip (p.effect k env s).1.items = s.handed k p := by
  unfold PopCall.effect Store.pop Store.handed Store.taken
  by_cases hheld : s.holds p.ids = true
  · simp only [hheld, if_true, Store.handedBack, BatchReply.items]
    exact s.leading_zip p.ids
  · by_cases hpaused : s.paused.isSome = true
    · simp only [hheld, hpaused, if_true, or_true, BatchReply.items, List.zip_nil_right,
        Bool.false_eq_true, if_false]
    · simp only [hheld, hpaused, Bool.false_eq_true, or_self, if_false, Store.poppedFresh,
        BatchReply.items]

theorem Store.length_leading_le (s : Store) (ids : List Bytes) :
    (s.leading ids).length ≤ ids.length := by
  rw [← s.leading_zip ids, List.length_zip]
  exact min_le_left _ _

/-- A pop's effect hands out at most as many items as it has IDs. -/
theorem PopCall.length_items_le (k : Kind) (env : Env) (p : PopCall) (s : Store) :
    (p.effect k env s).1.items.length ≤ p.want := by
  have hids : p.ids.length = p.want := length_ackIDs _ _ _
  rw [← hids]
  unfold PopCall.effect Store.pop
  split
  · rw [Store.handedBack, BatchReply.items, List.length_map]
    exact s.length_leading_le p.ids
  · split
    · exact Nat.zero_le _
    · exact s.length_head_le k p.ids

/-- The reply of a pop holds the items its effect says. -/
theorem PopCall.reply_items (k : Kind) (env : Env) (p : PopCall) (s : Store) :
    ((p.run k env).exec s).1.items = (p.effect k env s).1.items := by
  rw [popCall_exec]
  obtain ⟨args, script⟩ := p
  cases script with
  | one =>
      simp only []
      have hlen := PopCall.length_items_le k env ⟨args, .one⟩ s
      cases h : (PopCall.effect k env ⟨args, .one⟩ s).1 with
      | paused => rfl
      | popped len items =>
          rw [h] at hlen
          match items, hlen with
          | [], _ => rfl
          | [v], _ => rfl
  | oneLen slots =>
      simp only []
      cases (PopCall.effect k env ⟨args, .oneLen slots⟩ s).1 <;> rfl
  | batch want slots =>
      simp only []
      cases (PopCall.effect k env ⟨args, .batch want slots⟩ s).1 <;> rfl

/-- The reply hands out what the store says. -/
theorem PopCall.returned_eq (k : Kind) (env : Env) (p : PopCall) (s : Store) :
    p.returned ((p.run k env).exec s).1 = s.handed k p := by
  rw [PopCall.returned, p.reply_items, p.effect_items]

/-! ## Where a pending entry comes from -/

/-- The IDs a script run moves back to the queue, if they are pending. -/
def Invocation.requeuedIDs (k : Kind) (cj : Cjson) (env : Env) (s : Store) :
    Invocation → List Bytes
  | .requeue vt => s.requeueIDs env vt
  | .sweep owner hbt => s.sweptIDs k cj env owner.name hbt
  | .release owner => s.pendingIDs env (ownedBy owner.name)
  | _ => []

theorem move_given (k : Kind) (cj : Cjson) (env : Env) (s : Store) (inv : Invocation) :
    (inv.move k cj env s).given = inv.requeuedIDs k cj env s := by
  cases inv with
  | push a => simp only [Invocation.move]; split <;> rfl
  | rawPop => simp only [Invocation.move]; cases s.rawHead k <;> rfl
  | remove item => simp only [Invocation.move]; cases s.removedItem k item <;> rfl
  | _ => rfl

theorem move_eq_take {k : Kind} {cj : Cjson} {env : Env} {s : Store} {inv : Invocation}
    {ps : List (Bytes × Bytes)} (h : inv.move k cj env s = .take ps) :
    ∃ p, inv = .pop p ∧ ps = s.taken k p.ids := by
  cases inv with
  | push a =>
      simp only [Invocation.move] at h
      split at h <;> cases h
  | rawPop =>
      simp only [Invocation.move] at h
      cases hv : s.rawHead k <;> simp [hv, withdrawal] at h
  | remove item =>
      simp only [Invocation.move] at h
      cases hv : s.removedItem k item <;> simp [hv, withdrawal] at h
  | pop p => exact ⟨p, rfl, (Custody.Move.take.inj h).symm⟩
  | _ => cases h

theorem move_eq_lodge {k : Kind} {cj : Cjson} {env : Env} {s : Store} {inv : Invocation}
    {id item : Bytes} (h : inv.move k cj env s = .lodge id item) :
    ∃ vt, inv = .prepareAck id item vt := by
  cases inv with
  | push a =>
      simp only [Invocation.move] at h
      split at h <;> cases h
  | rawPop =>
      simp only [Invocation.move] at h
      cases hv : s.rawHead k <;> simp [hv, withdrawal] at h
  | remove item =>
      simp only [Invocation.move] at h
      cases hv : s.removedItem k item <;> simp [hv, withdrawal] at h
  | prepareAck id' item' vt =>
      obtain ⟨rfl, rfl⟩ := Custody.Move.lodge.inj h
      exact ⟨vt, rfl⟩
  | _ => cases h

/-- A pending entry was pending before and not moved, or a pop took it just
now, or it was made pending by hand. -/
theorem pending_cases {k : Kind} {cj : Cjson} {env : Env} {s : Store} {inv : Invocation}
    {a v : Bytes} (h : (inv.after k cj env s).nacked.lookup a = some v) :
    (s.nacked.lookup a = some v ∧ a ∉ inv.requeuedIDs k cj env s) ∨
      (∃ p, inv = .pop p ∧ (a, v) ∈ s.taken k p.ids) ∨
      ∃ vt, inv = .prepareAck a v vt := by
  rw [after_nacked] at h
  rcases Custody.lookup_apply_cases h with ⟨hs, hgiven⟩ | ⟨ps, hmove, hmem⟩ | hmove
  · exact Or.inl ⟨hs, move_given k cj env s inv ▸ hgiven⟩
  · obtain ⟨p, rfl, rfl⟩ := move_eq_take hmove
    exact Or.inr (Or.inl ⟨p, rfl, hmem⟩)
  · exact Or.inr (Or.inr (move_eq_lodge hmove))

/-- A pending entry stays as it is or goes, unless it is made pending by hand
once more. -/
theorem pending_kept {k : Kind} {cj : Cjson} {env : Env} {s : Store} {inv : Invocation}
    {a v : Bytes} (h : s.nacked.lookup a = some v)
    (hprepare : ∀ item vt, inv ≠ .prepareAck a item vt) :
    (inv.after k cj env s).nacked.lookup a = some v ∨
      (inv.after k cj env s).nacked.lookup a = none := by
  rw [after_nacked]
  refine Custody.lookup_apply_of_held (c := s.custody k) h (fun ps hps => ?_) fun item hitem => ?_
  · obtain ⟨p, rfl, rfl⟩ := move_eq_take hps
    intro hmem
    obtain ⟨q, hq, rfl⟩ := List.mem_map.mp hmem
    obtain ⟨hid, hfree, _⟩ := Store.mem_taken hq
    rw [Store.holds_eq_false.mp hfree q.1 hid] at h
    cases h
  · obtain ⟨vt, hinv⟩ := move_eq_lodge hitem
    exact hprepare item vt hinv

/-! ## Deadlines -/

theorem raised_le {dl d : Time} {z : ZSet} {a : Bytes} (id : Bytes) (h : z.score a = some d) :
    ∃ d', d ≤ d' ∧ (raised dl z id).score a = some d' := by
  unfold raised
  split
  · next hraise =>
      by_cases ha : a = id
      · subst ha
        rw [h, Option.all_some, decide_eq_true_eq] at hraise
        exact ⟨dl, hraise.2.le, SortedSet.score_insert_self _ _ _⟩
      · exact ⟨d, le_rfl, (SortedSet.score_insert_of_ne _ _ ha).trans h⟩
  · exact ⟨d, le_rfl, h⟩

theorem raisedAll_le {dl d : Time} {a : Bytes} (ps : List (Bytes × Bytes)) :
    ∀ {z : ZSet}, z.score a = some d →
      ∃ d', d ≤ d' ∧ (ps.foldl (fun z p => raised dl z p.1) z).score a = some d' := by
  induction ps generalizing d with
  | nil => exact fun h => ⟨d, le_rfl, h⟩
  | cons p rest ih =>
      intro z h
      obtain ⟨d₁, hle₁, h₁⟩ := raised_le p.1 h
      obtain ⟨d₂, hle₂, h₂⟩ := ih h₁
      exact ⟨d₂, hle₁.trans hle₂, h₂⟩

/-- A raised deadline is no earlier than the run's. -/
theorem raised_self {dl : Time} (hdl : 0 < dl) (z : ZSet) (a : Bytes) :
    ∃ d, dl ≤ d ∧ (raised dl z a).score a = some d := by
  unfold raised
  split
  · exact ⟨dl, le_rfl, SortedSet.score_insert_self _ _ _⟩
  · next hkeep =>
      cases h : z.score a with
      | none => simp [h, hdl] at hkeep
      | some d => exact ⟨d, by simpa [h, hdl] using hkeep, rfl⟩

theorem raisedAll_mem {dl : Time} (hdl : 0 < dl) {q : Bytes × Bytes} {ps : List (Bytes × Bytes)}
    (hq : q ∈ ps) :
    ∀ z : ZSet, ∃ d, dl ≤ d ∧ (ps.foldl (fun z p => raised dl z p.1) z).score q.1 = some d := by
  induction ps with
  | nil => simp at hq
  | cons p rest ih =>
      intro z
      rcases List.mem_cons.mp hq with rfl | hrest
      · obtain ⟨d₁, hle₁, h₁⟩ := raised_self hdl z q.1
        obtain ⟨d₂, hle₂, h₂⟩ := raisedAll_le rest h₁
        exact ⟨d₂, hle₁.trans hle₂, h₂⟩
      · exact ih hrest _

/-- The deadlines after an ack pop. -/
theorem PopCall.effect_timeouts (k : Kind) (env : Env) (p : PopCall) (s : Store) :
    (p.effect k env s).2.timeouts =
      if s.holds p.ids = true then
        (s.leading p.ids).foldl (fun z q => raised (deadline env p.args.vt) z q.1) s.timeouts
      else timed (deadline env p.args.vt) ((s.taken k p.ids).map fun q => q.1) s.timeouts := by
  have hnone : timed (deadline env p.args.vt) [] s.timeouts = s.timeouts := by simp [timed]
  unfold PopCall.effect Store.pop Store.taken
  by_cases hheld : s.holds p.ids = true
  · simp only [hheld, if_true, Store.handedBack, Store.joined]
  · by_cases hpaused : s.paused.isSome = true
    · simp only [hheld, hpaused, Bool.false_eq_true, if_false, if_true, or_true, List.map_nil,
        hnone]
    · simp only [hheld, hpaused, Bool.false_eq_true, if_false, or_self, Store.poppedFresh,
        Store.joined]
      split
      · next hnil => rw [hnil, List.zip_nil_right, List.map_nil, hnone]
      · cases k <;> rfl

theorem score_timed (dl : Time) (ids : List Bytes) (z : ZSet) (a : Bytes) :
    (timed dl ids z).score a = if 0 < dl ∧ a ∈ ids then some dl else z.score a := by
  unfold timed
  by_cases hdl : 0 < dl <;> by_cases ha : a ∈ ids <;>
    simp [hdl, ha, SortedSet.score_insertAll]

theorem Store.movedAll_timeouts (k : Kind) (cj : Cjson) (ids : List Bytes) (s : Store) :
    (ids.foldl (Store.moved k cj) s).timeouts = ids.foldl SortedSet.erase s.timeouts := by
  induction ids generalizing s with
  | nil => rfl
  | cons id rest ih =>
      have hone : (s.moved k cj id).timeouts = s.timeouts.erase id := by
        unfold Store.moved
        split <;> rfl
      rw [List.foldl_cons, ih, hone, List.foldl_cons]

/-- The deadlines after a requeue, by any of the three scripts. -/
theorem after_timeouts_requeue (k : Kind) (cj : Cjson) (env : Env) (s : Store)
    {inv : Invocation}
    (h : (∃ vt, inv = .requeue vt) ∨ (∃ owner hbt, inv = .sweep owner hbt) ∨
      ∃ owner, inv = .release owner) :
    (inv.after k cj env s).timeouts =
      (inv.requeuedIDs k cj env s).foldl SortedSet.erase s.timeouts := by
  rcases h with ⟨vt, rfl⟩ | ⟨owner, hbt, rfl⟩ | ⟨owner, rfl⟩
  · exact s.movedAll_timeouts k cj _
  · rw [Invocation.after, Store.swept_eq]
    exact s.movedAll_timeouts k cj _
  · exact s.movedAll_timeouts k cj _

/-- As long as an entry is pending and not made so by hand once more, its
deadline never moves forward. -/
theorem deadline_kept {k : Kind} {cj : Cjson} {env : Env} {s : Store} {inv : Invocation}
    {a : Bytes} {d : Time} (hbefore : (s.nacked.lookup a).isSome = true)
    (hafter : ((inv.after k cj env s).nacked.lookup a).isSome = true)
    (hprepare : ∀ item vt, inv ≠ .prepareAck a item vt) (hd : s.timeouts.score a = some d) :
    ∃ d', d ≤ d' ∧ (inv.after k cj env s).timeouts.score a = some d' := by
  obtain ⟨v, hv⟩ := Option.isSome_iff_exists.mp hafter
  have hkept : a ∉ inv.requeuedIDs k cj env s := by
    rcases pending_cases hv with ⟨_, hkept⟩ | ⟨p, rfl, _⟩ | ⟨vt, hinv⟩
    · exact hkept
    · exact List.not_mem_nil
    · exact absurd hinv (hprepare v vt)
  have hrequeue : ∀ {z : ZSet}, z = (inv.requeuedIDs k cj env s).foldl SortedSet.erase s.timeouts →
      ∃ d', d ≤ d' ∧ z.score a = some d' := fun hz =>
    ⟨d, le_rfl, by rw [hz, SortedSet.score_eraseAll, if_neg hkept, hd]⟩
  cases inv with
  | push b =>
      refine ⟨d, le_rfl, ?_⟩
      simp only [Invocation.after, Store.afterPush]
      split
      · exact hd
      · cases k <;> exact hd
  | rawPop =>
      refine ⟨d, le_rfl, ?_⟩
      simp only [Invocation.after, Store.rawPopped]
      split
      · exact hd
      · cases k <;> exact hd
  | pop p =>
      simp only [Invocation.after, p.effect_timeouts]
      split
      · exact raisedAll_le _ hd
      · next hfree =>
          rw [Bool.not_eq_true] at hfree
          refine ⟨d, le_rfl, ?_⟩
          rw [score_timed, if_neg, hd]
          rintro ⟨_, hmem⟩
          obtain ⟨q, hq, rfl⟩ := List.mem_map.mp hmem
          rw [Store.holds_eq_false.mp hfree q.1 (Store.mem_taken hq).1] at hbefore
          cases hbefore
  | prepareAck id item vt =>
      have hne : a ≠ id := by
        rintro rfl
        exact hprepare item vt rfl
      refine ⟨d, le_rfl, ?_⟩
      simp only [Invocation.after, Store.prepared]
      split
      · rw [SortedSet.score_insert_of_ne _ _ hne, hd]
      · exact hd
  | finish b =>
      have hne : a ≠ b.ackID := by
        rintro rfl
        rw [after_nacked] at hv
        simp only [Invocation.move, Custody.apply, Finmap.lookup_erase] at hv
        cases hv
      refine ⟨d, le_rfl, ?_⟩
      simp only [Invocation.after, Store.afterFinish]
      split
      · exact hd
      · rw [Store.finished, SortedSet.score_erase_of_ne _ hne, hd]
  | requeue vt => exact hrequeue (after_timeouts_requeue k cj env s (Or.inl ⟨vt, rfl⟩))
  | sweep owner hbt =>
      exact hrequeue (after_timeouts_requeue k cj env s (Or.inr (Or.inl ⟨owner, hbt, rfl⟩)))
  | release owner =>
      exact hrequeue (after_timeouts_requeue k cj env s (Or.inr (Or.inr ⟨owner, rfl⟩)))
  | remove item =>
      refine ⟨d, le_rfl, ?_⟩
      cases k with
      | fifo => exact hd
      | prio =>
          simp only [Invocation.after, Store.removed]
          split <;> exact hd
  | purge => cases hv
  | _ => exact ⟨d, le_rfl, hd⟩

/-- An entry that an ack pop hands out is pending after it, with a deadline
no earlier than the pop's. -/
theorem returned_pending {k : Kind} (env : Env) {p : PopCall} {s : Store} {a v : Bytes}
    (h : (a, v) ∈ s.handed k p) :
    (p.effect k env s).2.nacked.lookup a = some v ∧
      (0 < p.args.vt → ∃ d, deadline env p.args.vt ≤ d ∧
        (p.effect k env s).2.timeouts.score a = some d) := by
  rw [p.effect_nacked, p.effect_timeouts]
  unfold Store.handed at h
  split at h
  · next hheld =>
      have htaken : s.taken k p.ids = [] := by rw [Store.taken, if_pos (Or.inl hheld)]
      refine ⟨?_, fun hvt => ?_⟩
      · rw [htaken, Finmap.insertAll_nil]
        exact (Store.mem_leading h).2
      · rw [if_pos hheld]
        exact raisedAll_mem ((deadline_pos env).mpr hvt) h s.timeouts
  · next hfree =>
      have hnodup : ((s.taken k p.ids).map Prod.fst).Nodup := by
        unfold Store.taken
        split
        · exact List.nodup_nil
        · exact (ackIDs_nodup _ _ _).sublist (map_fst_zip_sublist _ _)
      refine ⟨Finmap.lookup_insertAll_of_mem hnodup h _, fun hvt => ?_⟩
      rw [if_neg hfree, score_timed, if_pos
        ⟨(deadline_pos env).mpr hvt, List.mem_map_of_mem (f := fun q : Bytes × Bytes => q.1) h⟩]
      exact ⟨_, le_rfl, rfl⟩

end Redisq.Model
