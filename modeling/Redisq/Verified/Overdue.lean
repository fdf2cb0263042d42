import Redisq.Verified.Deadlines

/-!
# No late requeue

The other side of `Verified.Deadlines`: while an entry is pending its deadline
is that of a pop that handed it out or of the call that made it pending
(`due_at`), so the first sweep past all of these moves it
(`no_late_requeue`).
-/

namespace Redisq.Model

/-- Whatever hands out the entry of `a` at moment `i`, or makes it pending,
gives it a deadline, of `d` at the latest. -/
structure DueBy (k : Kind) (cj : Cjson) (u : ℕ → Option ScriptRun) (a : Bytes) (d : Time)
    (i : ℕ) : Prop where
  pop : ∀ p env v, Returns k cj u i p env a v → 0 < p.args.vt ∧ deadline env p.args.vt ≤ d
  prepare : ∀ item vt env, u i = some ⟨.prepareAck a item vt, env⟩ →
    0 < vt ∧ deadline env vt ≤ d

/-- A pending entry has a deadline, of `d` at the latest. -/
def Store.Due (s : Store) (a : Bytes) (d : Time) : Prop :=
  (s.nacked.lookup a).isSome = true → ∃ d' ≤ d, s.timeouts.score a = some d'

section Steps

variable {k : Kind} {cj : Cjson} {env : Env} {s t : Store} {a : Bytes} {d : Time}

theorem Store.Due.of_same (h : s.Due a d) (hnacked : t.nacked.lookup a = s.nacked.lookup a)
    (htimeouts : t.timeouts.score a = s.timeouts.score a) : t.Due a d := by
  intro hpending
  rw [hnacked] at hpending
  rw [htimeouts]
  exact h hpending

theorem Store.Due.of_none (hnone : s.nacked.lookup a = none) : s.Due a d := by
  intro hpending
  rw [hnone] at hpending
  cases hpending

/-- A deadline that is raised is what it was, or the one it is raised to. -/
theorem raisedAll_score {dl : Time} (ps : List (Bytes × Bytes)) : ∀ z : ZSet,
    (ps.foldl (fun z p => raised dl z p.1) z).score a = z.score a ∨
      (0 < dl ∧ a ∈ ps.map Prod.fst ∧
        (ps.foldl (fun z p => raised dl z p.1) z).score a = some dl) := by
  induction ps with
  | nil => exact fun z => Or.inl rfl
  | cons p rest ih =>
      intro z
      rw [List.foldl_cons, List.map_cons]
      obtain hsame | ⟨hdl, hmem, hnew⟩ := ih (raised dl z p.1)
      · rw [hsame]
        unfold raised
        split
        · next hraise =>
            by_cases ha : a = p.1
            · subst ha
              exact Or.inr ⟨hraise.1, List.mem_cons_self, SortedSet.score_insert_self _ _ _⟩
            · exact Or.inl (SortedSet.score_insert_of_ne _ _ ha)
        · exact Or.inl rfl
      · exact Or.inr ⟨hdl, List.mem_cons_of_mem _ hmem, hnew⟩

/-- A pop that hands out the entry with a deadline of `d` at the latest. -/
theorem Store.Due.pop (h : s.Due a d) {p : PopCall}
    (hpop : ∀ v, (a, v) ∈ s.handed k p → 0 < p.args.vt ∧ deadline env p.args.vt ≤ d) :
    (p.effect k env s).2.Due a d := by
  intro hpending
  rw [p.effect_nacked] at hpending
  rw [p.effect_timeouts]
  split
  · next hheld =>
      rw [Store.taken, if_pos (Or.inl hheld), Finmap.insertAll_nil] at hpending
      obtain ⟨d', hle, hd'⟩ := h hpending
      obtain hsame | ⟨hdl, hmem, hnew⟩ :=
        @raisedAll_score a (deadline env p.args.vt) (s.leading p.ids) s.timeouts
      · exact ⟨d', hle, hsame.trans hd'⟩
      · obtain ⟨q, hq, rfl⟩ := List.mem_map.mp hmem
        obtain ⟨hvt, hdue⟩ := hpop q.2 (by rw [Store.handed, if_pos hheld]; exact hq)
        exact ⟨_, hdue, hnew⟩
  · next hfree =>
      rw [score_timed]
      by_cases hmem : a ∈ (s.taken k p.ids).map Prod.fst
      · obtain ⟨q, hq, rfl⟩ := List.mem_map.mp hmem
        obtain ⟨hvt, hdue⟩ := hpop q.2 (by rw [Store.handed, if_neg hfree]; exact hq)
        rw [if_pos ⟨(deadline_pos env).mpr hvt, hmem⟩]
        exact ⟨_, hdue, rfl⟩
      · rw [Finmap.lookup_insertAll_of_notMem hmem] at hpending
        rw [if_neg fun hboth => hmem hboth.2]
        exact h hpending

/-- Each script keeps the deadline in time. -/
theorem Store.Due.after (h : s.Due a d) {inv : Invocation}
    (hpop : ∀ p v, inv = .pop p → (a, v) ∈ s.handed k p →
      0 < p.args.vt ∧ deadline env p.args.vt ≤ d)
    (hprepare : ∀ item vt, inv = .prepareAck a item vt → 0 < vt ∧ deadline env vt ≤ d) :
    (inv.after k cj env s).Due a d := by
  have hrequeue : ((∃ vt, inv = .requeue vt) ∨ (∃ owner hbt, inv = .sweep owner hbt) ∨
      ∃ owner, inv = .release owner) → (inv.after k cj env s).Due a d := by
    intro hinv hpending
    obtain ⟨v, hv⟩ := Option.isSome_iff_exists.mp hpending
    rw [after_timeouts_requeue k cj env s hinv, SortedSet.score_eraseAll]
    rcases pending_cases hv with ⟨hbefore, hkept⟩ | ⟨p, rfl, -⟩ | ⟨vt, rfl⟩
    · rw [if_neg hkept]
      exact h (hbefore ▸ rfl)
    · simp at hinv
    · simp at hinv
  cases inv with
  | push b =>
      simp only [Invocation.after, Store.afterPush]
      split
      · exact h
      · cases k <;> exact h
  | rawPop =>
      simp only [Invocation.after, Store.rawPopped]
      split
      · exact h
      · cases k <;> exact h
  | pop p => exact h.pop fun v hv => hpop p v rfl hv
  | prepareAck id item vt =>
      by_cases hid : a = id
      · subst hid
        obtain ⟨hvt, hdue⟩ := hprepare item vt rfl
        intro _
        refine ⟨_, hdue, ?_⟩
        show (if 0 < deadline env vt then s.timeouts.insert a (deadline env vt)
          else s.timeouts).score a = _
        rw [if_pos ((deadline_pos env).mpr hvt), SortedSet.score_insert_self]
      · refine h.of_same (Finmap.lookup_insert_of_ne _ hid) ?_
        simp only [Invocation.after, Store.prepared]
        split
        · exact SortedSet.score_insert_of_ne _ _ hid
        · rfl
  | finish b =>
      simp only [Invocation.after, Store.afterFinish]
      split
      · exact h
      · by_cases hid : a = b.ackID
        · subst hid
          exact Store.Due.of_none (Finmap.lookup_erase _ _)
        · exact h.of_same (Finmap.lookup_erase_ne hid) (SortedSet.score_erase_of_ne _ hid)
  | requeue vt => exact hrequeue (Or.inl ⟨vt, rfl⟩)
  | sweep owner hbt => exact hrequeue (Or.inr (Or.inl ⟨owner, hbt, rfl⟩))
  | release owner => exact hrequeue (Or.inr (Or.inr ⟨owner, rfl⟩))
  | remove item =>
      cases k with
      | fifo => exact h
      | prio =>
          simp only [Invocation.after, Store.removed]
          split <;> exact h
  | purge => exact Store.Due.of_none rfl
  | _ => exact h

end Steps

section Runs

variable {k : Kind} {cj : Cjson} {u : ℕ → Option ScriptRun} {a : Bytes} {d : Time} {m : ℕ}

/-- The deadline of an entry is that of what handed it out or made it
pending. -/
theorem due_at (hdue : ∀ i < m, DueBy k cj u a d i) : (storeAt k cj u m).Due a d := by
  induction m with
  | zero => exact Store.Due.of_none rfl
  | succ m ih =>
      have hbefore := ih fun i hi => hdue i (by omega)
      cases hr : u m with
      | none => rw [storeAt_succ_none hr]; exact hbefore
      | some r =>
          obtain ⟨inv, env⟩ := r
          have hnow := hdue m (by omega)
          have hfound : ((storeAt k cj u m).evicted env).Due a d :=
            hbefore.of_same (by rw [Store.evicted_nacked]) (by rw [Store.evicted_timeouts])
          have hafter := @Store.Due.after k cj env _ a d hfound inv
            (fun p v hinv hv => ?_) (fun item vt hinv => hnow.prepare item vt env (hinv ▸ hr))
          · exact hafter.of_same (by rw [storeAt_nacked hr]; rfl) (by rw [storeAt_timeouts hr]; rfl)
          · subst hinv
            refine hnow.pop p env v ⟨hr, ?_⟩
            rw [ScriptRun.reply, ScriptRun.exec, Invocation.script, p.returned_eq]
            exact hv

/-- No late requeue.  If every pop that handed out the entry of `a` so far, and
every call that made it pending, gave it a deadline, of `d` at the latest, then
a sweep at `d` or later leaves it no longer pending, and so does a
`RequeueNackedItems` with a visibility timeout. -/
theorem no_late_requeue (hdue : ∀ i < m, DueBy k cj u a d i) {r : ScriptRun} (hr : u m = some r)
    (hrequeues : (∃ owner hbt, r.inv = .sweep owner hbt) ∨ ∃ vt > 0, r.inv = .requeue vt)
    (hlate : d ≤ r.env.now) : (storeAt k cj u (m + 1)).nacked.lookup a = none := by
  have hbefore := due_at hdue
  rw [storeAt_nacked hr, ScriptRun.after]
  by_contra hpending
  obtain ⟨v, hv⟩ := Option.ne_none_iff_exists'.mp hpending
  obtain ⟨inv, env⟩ := r
  rcases pending_cases hv with ⟨hheld, hkept⟩ | ⟨p, rfl, -⟩ | ⟨vt, rfl⟩
  · rw [Store.evicted_nacked] at hheld
    obtain ⟨d', hle, hd'⟩ := hbefore (hheld ▸ rfl)
    have hover : a ∈ ((storeAt k cj u m).evicted env).overdue env := by
      refine mem_overdue.mpr ⟨d', ?_, hle.trans hlate⟩
      rw [Store.evicted_timeouts]
      exact hd'
    apply hkept
    obtain ⟨owner, hbt, rfl⟩ | ⟨vt, hvt, rfl⟩ := hrequeues
    · exact List.mem_append_left _ hover
    · rw [Invocation.requeuedIDs, Store.requeueIDs, if_pos hvt]
      exact hover
  · simp at hrequeues
  · simp at hrequeues

end Runs

/-- A pop with ten seconds to work, and a sweep ten seconds later. -/
def sweptLate : ℕ → Option ScriptRun
  | 0 => some ⟨.push ⟨[97], 0, 0, false, none⟩, .plain 0 fun _ => 0⟩
  | 1 => some ⟨.pop ⟨⟨ownerA, 1, 10 * second, 0, false⟩, .one⟩, .plain 1 fun _ => 0⟩
  | 2 => some ⟨.sweep ownerB minHeartbeat, .plain 10000002 fun _ => 0⟩
  | _ => none

theorem no_late_requeue_sweptLate :
    (storeAt .fifo .none sweptLate 3).nacked.lookup (ackIDOf ownerA 1 1) = none := by
  refine no_late_requeue (d := deadline (.plain 1 fun _ => 0) (10 * second))
    (fun i hi => ⟨fun p env v h => ?_, ?_⟩)
    (rfl : sweptLate 2 = some ⟨.sweep ownerB minHeartbeat, .plain 10000002 fun _ => 0⟩)
    (Or.inl ⟨_, _, rfl⟩) (by decide)
  · have hr := h.1
    rcases i with _ | _ | _ | i <;> simp [sweptLate] at hr hi
    obtain ⟨rfl, rfl⟩ := hr
    exact ⟨by decide, by decide⟩
  · intro item vt env hr
    rcases i with _ | _ | _ | i <;> simp [sweptLate] at hr

end Redisq.Model
