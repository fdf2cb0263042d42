import Redisq.Verified.Heartbeats

/-!
# The keys beside the pending hash

An ack pop, a hand-back, a finish and both requeues each touch several of the
keys that say something of pending entries: start times, deadlines and
priorities.  `Store.Consistent` is what holds between them after every script
run, and `Liveness.Marked` the same of the presence marks and the heartbeats.

A priority is kept per ack ID.  It is the score the entry had in the queue
when it was popped, for as long as the entry stays pending
(`sidecars_consistent`).
-/

namespace Redisq.Model

/-! ## Presence and heartbeats -/

/-- Only an owner with a heartbeat has a mark. -/
def Liveness.Marked (l : Liveness) : Prop :=
  ∀ o, l.heartbeats.score o = none → l.presence.score o = none

namespace Liveness

variable {env : Env} {l : Liveness} {sweeper : Bytes} {hbt : Time}

theorem Marked.renewed (h : l.Marked) : (l.renewed env sweeper hbt).Marked := by
  unfold Liveness.renewed
  split
  · next hown =>
      split
      · intro o ho
        by_cases heq : o = sweeper
        · rw [heq, SortedSet.score_insert_self] at ho
          cases ho
        · rw [SortedSet.score_insert_of_ne _ _ heq] at ho
          show (if _ then _ else _ : ZSet).score o = none
          split
          · rw [SortedSet.score_insert_of_ne _ _ heq]
            exact h o ho
          · exact h o ho
      · intro o ho
        show (l.presence.erase sweeper).score o = none
        rw [SortedSet.score_erase] at ho ⊢
        split
        · rfl
        · next hne =>
            rw [if_neg hne] at ho
            exact h o ho
  · exact h

theorem Marked.prepared (h : l.Marked) : (l.prepared env sweeper hbt).Marked := by
  refine Marked.renewed fun o ho => ?_
  rw [clocked_heartbeats, (score_shifted env l o).1, Option.map_eq_none_iff] at ho
  rw [clocked_presence, (score_shifted env l o).2, Option.map_eq_none_iff]
  exact h o ho

theorem Marked.without (h : l.Marked) (owners : List Bytes) : (l.without owners).Marked := by
  intro o ho
  simp only [Liveness.without, SortedSet.score_eraseAll] at ho ⊢
  split
  · rfl
  · next hnot =>
      rw [if_neg hnot] at ho
      exact h o ho

/-- A sweep drops an owner's heartbeat and mark together, and marks none
that has no heartbeat. -/
theorem Marked.swept (h : l.Marked) : (l.swept env sweeper hbt).Marked := by
  intro o ho
  by_cases hdead : o ∈ l.sweptDead env sweeper hbt
  · show (_ : ZSet).score o = none
    rw [Liveness.swept, Liveness.without, SortedSet.score_eraseAll, if_pos hdead]
  · obtain ⟨hheart, hmark⟩ := score_swept hdead
    rw [hheart] at ho
    rcases hmark with hsame | ⟨hsome, _⟩
    · rw [hsame]
      exact h.prepared o ho
    · rw [ho] at hsome
      cases hsome

theorem Marked.beaten (h : l.Marked) (env : Env) (a : PopArgs) :
    ({ l with heartbeats := Model.beaten env a l.heartbeats } : Liveness).Marked := by
  intro o ho
  refine h o ?_
  unfold Model.beaten at ho
  split at ho
  · by_cases heq : o = a.owner.name
    · simp only [heq, SortedSet.score_insert_self] at ho
      cases ho
    · rwa [SortedSet.score_insert_of_ne _ _ heq] at ho
  · exact ho

end Liveness

/-! ## Start times, deadlines and priorities -/

/-- The other keys say something of pending entries only, and of each when it
was started. -/
structure Store.Consistent (k : Kind) (s : Store) : Prop where
  started : ∀ a, a ∈ s.started ↔ a ∈ s.nacked
  timeouts : ∀ a, a ∈ s.timeouts.members → a ∈ s.nacked
  prio : ∀ a, a ∈ s.prio → a ∈ s.nacked
  noPrio : k = .fifo → s.prio = ∅

section Scripts

variable {k : Kind} {cj : Cjson} {env : Env} {s : Store}

theorem Store.empty_consistent (k : Kind) : Store.empty.Consistent k where
  started _ := Iff.rfl
  timeouts _ h := absurd h List.not_mem_nil
  prio _ h := h
  noPrio _ := rfl

/-- Both requeues take an entry out of every key. -/
theorem Store.Consistent.moved (h : s.Consistent k) (id : Bytes) :
    (s.moved k cj id).Consistent k := by
  cases hid : s.nacked.lookup id with
  | none =>
      rw [Store.moved_of_none hid]
      exact ⟨h.started, fun a ha => h.timeouts a (SortedSet.mem_members_erase.mp ha).1, h.prio,
        h.noPrio⟩
  | some v =>
      rw [Store.moved_of_some hid]
      refine ⟨fun a => ?_, fun a ha => ?_, fun a ha => ?_, fun hk => ?_⟩
      · simp only [Finmap.mem_erase, h.started a]
      · obtain ⟨hin, hne⟩ := SortedSet.mem_members_erase.mp ha
        exact Finmap.mem_erase.mpr ⟨hne, h.timeouts a hin⟩
      · cases k with
        | fifo =>
            rw [show (s.repushed .fifo id v).prio = s.prio from rfl, h.noPrio rfl] at ha
            exact absurd ha (Finmap.notMem_empty)
        | prio =>
            obtain ⟨hne, hin⟩ := Finmap.mem_erase.mp ha
            exact Finmap.mem_erase.mpr ⟨hne, h.prio a hin⟩
      · subst hk
        exact h.noPrio rfl

theorem Store.Consistent.movedAll (h : s.Consistent k) (ids : List Bytes) :
    (ids.foldl (Store.moved k cj) s).Consistent k :=
  Store.movedAll_induction (I := Store.Consistent k) (fun _ id ht => ht.moved id) ids s h

theorem Store.Consistent.withLiveness (h : s.Consistent k) (l : Liveness) :
    (s.withLiveness l).Consistent k :=
  ⟨h.started, h.timeouts, h.prio, h.noPrio⟩

/-- An entry made pending has its start time; its deadline and its score are
kept under the same ID. -/
theorem Store.Consistent.poppedFresh (h : s.Consistent k) (a : PopArgs) (ids : List Bytes)
    (slots : ℕ) : (s.poppedFresh k env a ids slots).2.Consistent k := by
  unfold Store.poppedFresh Store.joined
  simp only
  split
  · exact ⟨h.started, h.timeouts, h.prio, h.noPrio⟩
  · have hkeys : ∀ id, id ∈ (ids.zip (s.head k ids)).map Prod.fst ∨ id ∈ s.nacked →
        id ∈ s.nacked.insertAll (ids.zip (s.head k ids)) :=
      fun id hid => (Finmap.mem_insertAll _).mpr hid
    refine ⟨fun id => ?_, fun id hid => ?_, fun id hid => ?_, fun hk => ?_⟩
    · cases k <;>
        simp only [Store.pended, Store.beheaded, Finmap.mem_insertAll, List.map_map, h.started id]
      · exact Iff.rfl
      · exact Iff.rfl
    · have hold : id ∈ (ids.zip (s.head k ids)).map Prod.fst ∨ id ∈ s.timeouts.members := by
        obtain ⟨d, hd⟩ := SortedSet.mem_members_iff.mp hid
        have htimed : (timed (deadline env a.vt) ((ids.zip (s.head k ids)).map fun p => p.1)
            s.timeouts).score id = some d := by
          cases k <;> exact hd
        unfold timed at htimed
        split at htimed
        · rw [SortedSet.score_insertAll] at htimed
          split at htimed
          · next hin => exact Or.inl hin
          · exact Or.inr (SortedSet.mem_members_iff.mpr ⟨d, htimed⟩)
        · exact Or.inr (SortedSet.mem_members_iff.mpr ⟨d, htimed⟩)
      have hin := hkeys id (hold.imp_right (h.timeouts id))
      cases k <;> exact hin
    · cases k with
      | fifo => exact hkeys id (Or.inr (h.prio id hid))
      | prio =>
          refine hkeys id ?_
          rcases (Finmap.mem_insertAll _).mp hid with hnew | hold
          · left
            rw [List.zip_map_right, List.map_map] at hnew
            rw [Store.head, List.zip_map_right, List.map_map]
            exact hnew
          · exact Or.inr (h.prio id hold)
    · subst hk
      exact h.noPrio rfl

/-- A raise adds no deadline but the one it raises. -/
theorem mem_members_raised {dl : Time} {z : ZSet} {id m : Bytes}
    (h : m ∈ (raised dl z id).members) : m = id ∨ m ∈ z.members := by
  unfold raised at h
  split at h
  · exact SortedSet.mem_members_insert.mp h
  · exact Or.inr h

theorem mem_members_raisedAll {dl : Time} {m : Bytes} (run : List (Bytes × Bytes)) :
    ∀ {z : ZSet}, m ∈ (run.foldl (fun z p => raised dl z p.1) z).members →
      m ∈ run.map Prod.fst ∨ m ∈ z.members := by
  induction run with
  | nil => exact fun h => Or.inr h
  | cons p rest ih =>
      intro z h
      rw [List.map_cons, List.mem_cons]
      rcases ih h with hrest | hraised
      · exact Or.inl (Or.inr hrest)
      · exact (mem_members_raised hraised).imp_left Or.inl

/-- A hand-back raises deadlines of pending entries at most. -/
theorem Store.Consistent.handedBack (h : s.Consistent k) (a : PopArgs) (ids : List Bytes)
    (slots : ℕ) : (s.handedBack k env a ids slots).2.Consistent k := by
  refine ⟨h.started, fun id hid => ?_, h.prio, h.noPrio⟩
  rcases mem_members_raisedAll (s.leading ids) hid with hrun | hold
  · obtain ⟨p, hp, rfl⟩ := List.mem_map.mp hrun
    exact Finmap.mem_iff.mpr ⟨p.2, (Store.mem_leading hp).2⟩
  · exact h.timeouts id hold

/-- Every script keeps the keys consistent. -/
theorem Store.Consistent.after (h : s.Consistent k) (cj : Cjson) (env : Env)
    (inv : Invocation) : (inv.after k cj env s).Consistent k := by
  cases inv with
  | push a =>
      simp only [Invocation.after, Store.afterPush]
      split
      · exact h
      · cases k <;> exact ⟨h.started, h.timeouts, h.prio, h.noPrio⟩
  | rawPop =>
      simp only [Invocation.after, Store.rawPopped]
      split
      · exact h
      · cases k <;> exact ⟨h.started, h.timeouts, h.prio, h.noPrio⟩
  | pop p =>
      simp only [Invocation.after, PopCall.effect, Store.pop]
      split
      · exact h.handedBack p.args p.ids p.slots
      · split
        · exact h
        · exact h.poppedFresh p.args p.ids p.slots
  | prepareAck id item vt =>
      refine ⟨fun a => ?_, fun a ha => ?_, fun a ha => ?_, h.noPrio⟩
      · simp only [Invocation.after, Store.prepared, Finmap.mem_insert, h.started a]
      · refine Finmap.mem_insert.mpr ?_
        simp only [Invocation.after, Store.prepared] at ha
        split at ha
        · exact (SortedSet.mem_members_insert.mp ha).imp_right (h.timeouts a)
        · exact Or.inr (h.timeouts a ha)
      · exact Finmap.mem_insert.mpr (Or.inr (h.prio a ha))
  | finish a =>
      simp only [Invocation.after, Store.afterFinish]
      split
      · exact h
      · refine ⟨fun id => ?_, fun id hid => ?_, fun id hid => ?_, fun hk => ?_⟩
        · simp only [Store.finished, Finmap.mem_erase, h.started id]
        · obtain ⟨hin, hne⟩ := SortedSet.mem_members_erase.mp hid
          exact Finmap.mem_erase.mpr ⟨hne, h.timeouts id hin⟩
        · obtain ⟨hne, hin⟩ := Finmap.mem_erase.mp hid
          exact Finmap.mem_erase.mpr ⟨hne, h.prio id hin⟩
        · simp only [Store.finished, h.noPrio hk]
          exact Finmap.erase_of_lookup_none rfl
  | requeue vt => exact h.movedAll _
  | sweep owner hbt =>
      rw [Invocation.after, Store.swept_eq]
      exact (h.movedAll _).withLiveness _
  | release owner => exact (h.movedAll _).withLiveness _
  | remove item =>
      cases k with
      | fifo => exact ⟨h.started, h.timeouts, h.prio, h.noPrio⟩
      | prio =>
          simp only [Invocation.after, Store.removed]
          split
          · exact ⟨h.started, h.timeouts, h.prio, h.noPrio⟩
          · exact h
  | purge =>
      refine ⟨fun _ => Iff.rfl, fun _ ha => absurd ha List.not_mem_nil, fun a ha => ?_,
        fun hk => ?_⟩
      · cases k with
        | fifo =>
            rw [show (Invocation.purge.after .fifo cj env s).prio = s.prio from rfl,
              h.noPrio rfl] at ha
            exact ha
        | prio => exact ha
      · subst hk
        exact h.noPrio rfl
  | pause => exact ⟨h.started, h.timeouts, h.prio, h.noPrio⟩
  | resume => exact ⟨h.started, h.timeouts, h.prio, h.noPrio⟩
  | _ => exact h

/-- Every script keeps marks to owners with a heartbeat. -/
theorem after_marked (h : s.liveness.Marked) (cj : Cjson) (env : Env) (inv : Invocation) :
    (inv.after k cj env s).liveness.Marked := by
  rw [after_liveness]
  cases inv with
  | pop p =>
      simp only [Invocation.livenessAfter]
      split
      · exact h
      · exact h.beaten env p.args
  | sweep owner hbt => exact h.swept
  | release owner => exact h.without _
  | _ => exact h

/-! ## Priorities -/

/-- The scores with which a pop takes entries from a priority queue, each
with its ack ID. -/
def Store.takenScores (p : PopCall) (s : Store) : List (Bytes × ℤ) :=
  if s.holds p.ids = true ∨ s.paused.isSome = true then []
  else p.ids.zip ((s.zset.entries.take p.ids.length).map SortedSet.rank)

/-- A requeue keeps the scores of the entries it does not move. -/
theorem Store.movedAll_prio {a : Bytes} (ids : List Bytes) :
    ∀ {s : Store}, a ∉ ids →
      (ids.foldl (Store.moved .prio cj) s).prio.lookup a = s.prio.lookup a := by
  induction ids with
  | nil => exact fun _ => rfl
  | cons id rest ih =>
      intro s h
      obtain ⟨hne, hrest⟩ := not_or.mp (List.mem_cons.not.mp h)
      rw [List.foldl_cons, ih hrest]
      cases hid : s.nacked.lookup id with
      | none => rw [Store.moved_of_none hid]
      | some v =>
          rw [Store.moved_of_some hid]
          exact Finmap.lookup_erase_ne hne

/-- An entry that is pending after a requeue is not one that it moves. -/
theorem Store.notMem_of_movedAll {a : Bytes} {ids : List Bytes}
    (h : a ∈ (ids.foldl (Store.moved k cj) s).nacked) : a ∉ ids := by
  rw [Store.movedAll_nacked] at h
  exact (Finmap.mem_eraseAll.mp h).2

/-- The score of an entry stays as long as it is pending. -/
theorem after_prio {a : Bytes} (inv : Invocation) (hbefore : a ∈ s.nacked)
    (hafter : a ∈ (inv.after .prio cj env s).nacked) :
    (inv.after .prio cj env s).prio.lookup a = s.prio.lookup a := by
  cases inv with
  | push b =>
      simp only [Invocation.after, Store.afterPush]
      split <;> rfl
  | rawPop =>
      simp only [Invocation.after, Store.rawPopped]
      split <;> rfl
  | pop p =>
      simp only [Invocation.after, PopCall.effect, Store.pop]
      split
      · rfl
      · next hfree =>
          split
          · rfl
          · unfold Store.poppedFresh Store.joined
            simp only
            split
            · rfl
            · refine Finmap.lookup_insertAll_of_notMem ?_ _
              intro hin
              rw [List.zip_map_right, List.map_map] at hin
              have hid : a ∈ p.ids := by
                obtain ⟨q, hq, rfl⟩ := List.mem_map.mp hin
                exact (List.of_mem_zip hq).1
              refine hfree (List.any_eq_true.mpr ⟨a, hid, ?_⟩)
              obtain ⟨v, hv⟩ := Finmap.mem_iff.mp hbefore
              rw [hv]
              rfl
  | finish b =>
      simp only [Invocation.after, Store.afterFinish] at hafter ⊢
      split
      · rfl
      · next item hitem =>
          simp only [hitem] at hafter
          exact Finmap.lookup_erase_ne (Finmap.mem_erase.mp hafter).1
  | requeue vt => exact Store.movedAll_prio _ (Store.notMem_of_movedAll hafter)
  | sweep owner hbt =>
      rw [Invocation.after, Store.swept_eq] at hafter ⊢
      exact Store.movedAll_prio _ (Store.notMem_of_movedAll hafter)
  | release owner => exact Store.movedAll_prio _ (Store.notMem_of_movedAll hafter)
  | remove item =>
      simp only [Invocation.after, Store.removed]
      split <;> rfl
  | purge => exact absurd hafter Finmap.notMem_empty
  | _ => rfl

/-- A pop keeps the score of each entry it takes. -/
theorem effect_prio {p : PopCall} {a : Bytes} {score : ℤ} (h : (a, score) ∈ s.takenScores p) :
    (p.effect .prio env s).2.prio.lookup a = some score := by
  unfold Store.takenScores at h
  split at h
  · exact absurd h List.not_mem_nil
  · next hfree =>
      obtain ⟨hheld, hpaused⟩ := not_or.mp hfree
      have hnodup : ((p.ids.zip ((s.zset.entries.take p.ids.length).map
          SortedSet.rank)).map Prod.fst).Nodup :=
        (ackIDs_nodup _ _ _).sublist (map_fst_zip_sublist _ _)
      have hsome : s.head .prio p.ids ≠ [] := by
        intro hnil
        rw [Store.head, List.map_eq_nil_iff] at hnil
        rw [hnil] at h
        simp at h
      simp only [PopCall.effect, Store.pop, hheld, hpaused, if_false, Store.poppedFresh, hsome]
      exact Finmap.lookup_insertAll_of_mem hnodup h s.prio

end Scripts

/-! ## Runs -/

section Runs

variable {k : Kind} {cj : Cjson} {u : ℕ → Option ScriptRun} {n : ℕ}

theorem storeAt_consistent (k : Kind) (cj : Cjson) (u : ℕ → Option ScriptRun) (n : ℕ) :
    (storeAt k cj u n).Consistent k := by
  refine storeAt_invariant (I := Store.Consistent k) (fun s t hst h => ?_)
    (Store.empty_consistent k) (fun n r _ h => ?_) n
  · obtain ⟨_, _, _, _, rfl⟩ := hst
    exact ⟨h.started, h.timeouts, h.prio, h.noPrio⟩
  · refine Store.Consistent.after ?_ cj r.env r.inv
    obtain ⟨_, _, _, heq⟩ := (storeAt k cj u n).evicted_eq r.env
    rw [heq]
    exact ⟨h.started, h.timeouts, h.prio, h.noPrio⟩

theorem storeAt_marked (k : Kind) (cj : Cjson) (u : ℕ → Option ScriptRun) (n : ℕ) :
    (storeAt k cj u n).liveness.Marked := by
  refine storeAt_invariant (I := fun s => s.liveness.Marked) (fun s t hst h => ?_)
    (fun _ _ => rfl) (fun n r _ h => ?_) n
  · obtain ⟨_, _, _, _, rfl⟩ := hst
    exact h
  · refine after_marked ?_ cj r.env r.inv
    rw [Store.evicted_liveness]
    exact h

theorem storeAt_prio {r : ScriptRun} (hr : u n = some r) :
    (storeAt k cj u (n + 1)).prio = (r.after k cj (storeAt k cj u n)).prio := by
  obtain ⟨_, _, _, _, h⟩ := step_some k cj (storeAt k cj u n) r
  rw [storeAt_succ, hr, h]

/-- While an entry stays pending, its score does not change. -/
theorem storeAt_prio_kept {a : Bytes} (hbefore : a ∈ (storeAt .prio cj u n).nacked)
    (hafter : a ∈ (storeAt .prio cj u (n + 1)).nacked) :
    (storeAt .prio cj u (n + 1)).prio.lookup a = (storeAt .prio cj u n).prio.lookup a := by
  cases hr : u n with
  | none => rw [storeAt_succ_none hr]
  | some r =>
      rw [storeAt_nacked hr] at hafter
      rw [storeAt_prio hr]
      rw [← Store.evicted_nacked r.env] at hbefore
      refine (after_prio r.inv hbefore hafter).trans ?_
      obtain ⟨_, _, _, heq⟩ := (storeAt .prio cj u n).evicted_eq r.env
      rw [heq]

/-- In every state of every run, start times are those of the pending
entries, deadlines and priorities are of pending entries only, presence marks
are of owners with a heartbeat, and an entry that a priority queue's pop took
has its score as long as it has been pending since. -/
theorem sidecars_consistent (k : Kind) (cj : Cjson) (u : ℕ → Option ScriptRun) (n : ℕ) :
    (∀ a, a ∈ (storeAt k cj u n).started ↔ a ∈ (storeAt k cj u n).nacked) ∧
      (∀ a ∈ (storeAt k cj u n).timeouts.members, a ∈ (storeAt k cj u n).nacked) ∧
      (∀ a ∈ (storeAt k cj u n).prio, a ∈ (storeAt k cj u n).nacked) ∧
      (∀ o ∈ (storeAt k cj u n).presence.members, o ∈ (storeAt k cj u n).heartbeats.members) ∧
      (k = .prio → ∀ m p env a score, m < n → u m = some ⟨.pop p, env⟩ →
        (a, score) ∈ ((storeAt k cj u m).evicted env).takenScores p →
        (∀ i, m < i → i ≤ n → a ∈ (storeAt k cj u i).nacked) →
        (storeAt k cj u n).prio.lookup a = some score) := by
  have hconsistent := storeAt_consistent k cj u n
  refine ⟨hconsistent.started, hconsistent.timeouts, hconsistent.prio, ?_, ?_⟩
  · intro o ho
    have hmarked := storeAt_marked k cj u n o
    by_contra hnone
    rw [SortedSet.mem_members_iff] at ho
    obtain ⟨mark, hmark⟩ := ho
    have hpresence := hmarked (SortedSet.score_eq_none_iff.mpr hnone)
    rw [show (storeAt k cj u n).liveness.presence.score o = some mark from hmark] at hpresence
    cases hpresence
  · rintro rfl m p env a score hmn hr htaken hpending
    induction n, hmn using Nat.le_induction with
    | base =>
        rw [storeAt_prio hr]
        exact effect_prio htaken
    | succ n hmn ih =>
        rw [storeAt_prio_kept (hpending n hmn (Nat.le_succ n))
          (hpending (n + 1) (hmn.trans (Nat.le_succ n)) le_rfl)]
        exact ih (storeAt_consistent .prio cj u n) fun i hi hin =>
          hpending i hi (hin.trans (Nat.le_succ n))

end Runs

end Redisq.Model
