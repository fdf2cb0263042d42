import Redisq.Verified.Deadlines
import Redisq.Verified.Once

/-!
# A job is leased

A job of a list queue that an ack pop hands out with a visibility timeout is
its consumer's until its deadline: nobody else is handed the job, and it is under no
other ack ID, before a script gives it back, and that is past the deadline, or
its owner's release, a sweep that takes its owner for dead, or a
`RequeueNackedItems` without a visibility timeout (`no_early_redelivery`).
-/

namespace Redisq.Model

section Runs

variable {cj : Cjson} {u : ℕ → Option ScriptRun} {l m n : ℕ} {r : ScriptRun} {p : PopCall}
  {env : Env} {a v : Bytes} {j : JobLine.Job ℕ Bytes}

/-- A held job stays under its ack ID, or is gone, unless it is given back. -/
theorem held_succ (hheld : (lineAt cj u l).held a = some j) (hr : u l = some r)
    (hkept : a ∉ r.inv.requeuedIDs .fifo cj r.env ((storeAt .fifo cj u l).evicted r.env))
    (hprepare : ∀ item vt, r.inv ≠ .prepareAck a item vt) :
    (lineAt cj u (l + 1)).held a = some j ∨ (lineAt cj u (l + 1)).Gone j.born := by
  have horderly := lineFound_orderly (lineAt_orderly cj u l) r.env (storeAt .fifo cj u l)
  have hlined := (lineAt_linedUp cj u l).found r.env
  rw [← Store.lineFound_held r.env (storeAt .fifo cj u l)] at hheld
  have hpending := hlined.pending a
  rw [hheld] at hpending
  rw [lineAt_succ hr]
  obtain ⟨inv, env⟩ := r
  cases inv with
  | push b =>
      simp only [Invocation.lineAfter]
      split <;> exact Or.inl hheld
  | rawPop =>
      simp only [Invocation.lineAfter]
      split <;> exact Or.inl hheld
  | pop p =>
      simp only [Invocation.lineAfter]
      split
      · exact Or.inl hheld
      · next hfresh =>
          -- a pop under an ID that is held is no fresh one
          have hnot : a ∉ p.ids := by
            intro hmem
            refine hfresh (Or.inl (List.any_eq_true.mpr ⟨a, hmem, ?_⟩))
            rw [hpending]
            rfl
          left
          rw [JobLine.callAll_held_of_notMem hnot]
          exact hheld
  | prepareAck id item vt =>
      have hne : a ≠ id := by
        rintro rfl
        exact hprepare item vt rfl
      exact Or.inl ((Function.update_of_ne hne _ _).trans hheld)
  | finish b =>
      by_cases hsame : a = b.ackID
      · subst hsame
        exact Or.inr (horderly.gone_close hheld)
      · exact Or.inl ((Function.update_of_ne hsame _ _).trans hheld)
  | requeue vt =>
      left
      exact (JobLine.giveBackAll_held_of_notMem hkept).trans hheld
  | sweep owner hbt =>
      left
      exact (JobLine.giveBackAll_held_of_notMem hkept).trans hheld
  | release owner =>
      left
      exact (JobLine.giveBackAll_held_of_notMem hkept).trans hheld
  | purge => exact Or.inr JobLine.From.empty
  | _ => exact Or.inl hheld

/-- After a moment at which a job is held, a script gives it back, or it stays
under its ack ID, or it is gone. -/
theorem held_until (hprepare : ∀ i item vt env, u i ≠ some ⟨.prepareAck a item vt, env⟩)
    (hheld : (lineAt cj u (n + 1)).held a = some j) (hnm : n < m) :
    (∃ l r, n < l ∧ l < m ∧ u l = some r ∧ (∀ i, n < i → i ≤ l → (lineAt cj u i).held a = some j) ∧
      a ∈ r.inv.requeuedIDs .fifo cj r.env ((storeAt .fifo cj u l).evicted r.env)) ∨
      (∀ i, n < i → i ≤ m → (lineAt cj u i).held a = some j) ∨ (lineAt cj u m).Gone j.born := by
  induction m, hnm using Nat.le_induction with
  | base =>
      right
      left
      intro i hni him
      obtain rfl : i = n + 1 := by omega
      exact hheld
  | succ m hnm ih =>
      obtain ⟨l, r, hnl, hlm, hback⟩ | hall | hgone := ih
      · exact Or.inl ⟨l, r, hnl, by omega, hback⟩
      · cases hr : u m with
        | none =>
            right
            left
            intro i hni him
            obtain hlt | rfl := Nat.lt_or_eq_of_le him
            · exact hall i hni (by omega)
            · rw [lineAt_succ_none hr]
              exact hall m hnm le_rfl
        | some r =>
            by_cases hback : a ∈ r.inv.requeuedIDs .fifo cj r.env
                ((storeAt .fifo cj u m).evicted r.env)
            · exact Or.inl ⟨m, r, hnm, by omega, hr, hall, hback⟩
            · have hnot : ∀ item vt, r.inv ≠ .prepareAck a item vt := by
                intro item vt hinv
                refine hprepare m item vt r.env ?_
                rw [hr, ← hinv]
              obtain hstill | hgone := held_succ (hall m hnm le_rfl) hr hback hnot
              · right
                left
                intro i hni him
                obtain hlt | rfl := Nat.lt_or_eq_of_le him
                · exact hall i hni (by omega)
                · exact hstill
              · exact Or.inr (Or.inr hgone)
      · have hborn := (lineAt_orderly cj u (n + 1)).heldPast a j hheld
        exact Or.inr (Or.inr (gone_for_good (by omega) hgone m.le_succ))

/-- A job that is held is handed out to nobody, and is under no other ack
ID. -/
theorem alone_of_held (hheld : (lineAt cj u m).held a = some j) :
    (∀ j' ∈ servedAt cj u m, j'.born ≠ j.born) ∧
      ∀ a' j', (lineAt cj u m).held a' = some j' → j'.born = j.born → a' = a := by
  have horderly := lineAt_orderly cj u m
  refine ⟨fun j' hj' hborn => ?_, fun a' j' hj' hborn => horderly.alone a' a j' j hj' hheld hborn⟩
  cases hr : u m with
  | none =>
      rw [servedAt, hr] at hj'
      cases hj'
  | some r =>
      have hfound := lineFound_orderly horderly r.env (storeAt .fifo cj u m)
      rw [← Store.lineFound_held r.env (storeAt .fifo cj u m)] at hheld
      rw [servedAt_some hr] at hj'
      exact hfound.elsewhere a j hheld (hborn ▸ List.mem_map_of_mem (List.mem_of_mem_take hj'))

/-- The script run at moment `l` may give back, by then or for its owner, what
the pop `p` handed out. -/
def EndsLease (cj : Cjson) (u : ℕ → Option ScriptRun) (l : ℕ) (r : ScriptRun) (p : PopCall)
    (env : Env) : Prop :=
  deadline env p.args.vt ≤ r.env.now ∨ IgnoresDeadline .fifo cj u l r p.args.owner

/-- The entry of a job that is held is pending. -/
theorem pending_of_held (hheld : (lineAt cj u m).held a = some j) : Pending .fifo cj u m a := by
  have hpending := (lineAt_linedUp cj u m).pending a
  rw [hheld] at hpending
  rw [Pending, hpending]
  rfl

/-- What gives the job back ends the lease. -/
theorem endsLease_of_mem (hprepare : ∀ i item vt env, u i ≠ some ⟨.prepareAck a item vt, env⟩)
    (h : Returns .fifo cj u n p env a v) (hvt : 0 < p.args.vt) (hnl : n < l)
    (hpending : ∀ i, n < i → i ≤ l → Pending .fifo cj u i a)
    (hback : a ∈ r.inv.requeuedIDs .fifo cj r.env ((storeAt .fifo cj u l).evicted r.env)) :
    EndsLease cj u l r p env := by
  by_cases hdue : deadline env p.args.vt ≤ r.env.now
  · exact Or.inl hdue
  · have hearly : r.env.now < deadline env p.args.vt := not_le.mp hdue
    obtain ⟨d, hle, hd⟩ := deadline_at hprepare h hvt hnl hpending
    obtain ⟨i, _, rfl⟩ := mem_ackIDs.mp h.mem_ids
    have hlate : ∀ d', ((storeAt .fifo cj u l).evicted r.env).timeouts.score
        (ackIDOf p.args.owner p.args.start (i + 1)) = some d' → r.env.now < d' := by
      intro d' hd'
      rw [Store.evicted_timeouts, hd] at hd'
      rw [← Option.some.inj hd']
      exact hearly.trans_le hle
    have hwhy := requeuedIDs_early hback hlate
    simp only [TakesForDead, Store.evicted_liveness] at hwhy
    exact Or.inr hwhy

/-- No early redelivery.  While nothing ends the lease, nobody is handed the
job that a pop with a visibility timeout handed out, and it is under no other
ack ID. -/
theorem no_early_redelivery (hapart : Apart u) (h : Returns .fifo cj u n p env a v)
    (hvt : 0 < p.args.vt) :
    ∃ j, (lineAt cj u (n + 1)).held a = some j ∧ j.item = v ∧ ∀ m, n < m →
      (∃ l r, n < l ∧ l < m ∧ MovesBack .fifo cj u l r a ∧ EndsLease cj u l r p env) ∨
        ((∀ j' ∈ servedAt cj u m, j'.born ≠ j.born) ∧
          ∀ a' j', (lineAt cj u m).held a' = some j' → j'.born = j.born → a' = a) := by
  have hprepare : ∀ i item vt env', u i ≠ some ⟨.prepareAck a item vt, env'⟩ :=
    fun i item vt env' hi => hapart n p env i a item vt env' h.1 hi h.mem_ids
  have hlookup := h.pending.1
  rw [(lineAt_linedUp cj u (n + 1)).pending a] at hlookup
  obtain ⟨j, hheld, hitem⟩ := Option.map_eq_some_iff.mp hlookup
  refine ⟨j, hheld, hitem, ?_⟩
  intro m hnm
  obtain ⟨l, r, hnl, hlm, hr, hall, hback⟩ | hall | hgone := held_until hprepare hheld hnm
  · left
    have hpending : ∀ i, n < i → i ≤ l → Pending .fifo cj u i a := by
      intro i hni hil
      exact pending_of_held (hall i hni hil)
    have hends := endsLease_of_mem hprepare h hvt hnl hpending hback
    exact ⟨l, r, hnl, hlm, ⟨hr, hpending l hnl le_rfl, hback⟩, hends⟩
  · right
    exact alone_of_held (hall m hnm le_rfl)
  · right
    constructor
    · exact not_served_of_gone hgone
    · intro a' j' hj' hborn
      exact absurd hborn (hgone.held a' j' hj')

end Runs

theorem no_early_redelivery_closedEarly :
    ∃ j, (lineAt .none closedEarly 2).held (ackIDOf ownerA 1 1) = some j ∧ j.item = [97] ∧
      ∀ m, 1 < m →
        (∃ l r, 1 < l ∧ l < m ∧ MovesBack .fifo .none closedEarly l r (ackIDOf ownerA 1 1) ∧
          EndsLease .none closedEarly l r ⟨⟨ownerA, 1, 10 * second, 0, false⟩, .one⟩
            (.plain 1 fun _ => 0)) ∨
          ((∀ j' ∈ servedAt .none closedEarly m, j'.born ≠ j.born) ∧
            ∀ a' j', (lineAt .none closedEarly m).held a' = some j' → j'.born = j.born →
              a' = ackIDOf ownerA 1 1) := by
  have hreturns : Returns .fifo .none closedEarly 1
      ⟨⟨ownerA, 1, 10 * second, 0, false⟩, .one⟩ (.plain 1 fun _ => 0)
      (ackIDOf ownerA 1 1) [97] := ⟨rfl, by decide⟩
  have hapart : Apart closedEarly := by
    intro i p env j id item vt env' _ hj
    rcases j with _ | _ | _ | j <;> simp [closedEarly] at hj
  exact no_early_redelivery hapart hreturns (by decide)

end Redisq.Model
