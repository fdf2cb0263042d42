import Redisq.Verified.FirstCome

/-!
# A job is completed at most once

Whatever the scripts of however many objects do, a job of a list queue that an
Acknowledge or a Reject found, or that a raw pop handed out, is gone for good:
no pop hands it out any more, no ack ID holds it, and nothing completes it
again (`completed_for_good`).
-/

namespace Redisq.Model

variable (cj : Cjson) (u : ℕ → Option ScriptRun)

/-- At moment `n` an Acknowledge or a Reject finds the job born at `i`, or a
raw pop hands it out. -/
def CompletedAt (i n : ℕ) : Prop :=
  (∃ a env job, u n = some ⟨.finish a, env⟩ ∧ (lineAt cj u n).held a.ackID = some job ∧
    job.born = i) ∨
  ∃ env, u n = some ⟨.rawPop, env⟩ ∧ ∃ job ∈ servedAt cj u n, job.born = i

variable {cj u} {i m n : ℕ}

/-- An Acknowledge or a Reject that says it found its entry completes the job
it holds. -/
theorem finish_completes {a : FinishArgs} {env : Env} (hr : u n = some ⟨.finish a, env⟩)
    (hfound : ScriptRun.reply .fifo cj (storeAt .fifo cj u n) ⟨.finish a, env⟩ = .found true) :
    ∃ i, CompletedAt cj u i n := by
  have hreply := finish_reply .fifo cj ((storeAt .fifo cj u n).evicted env) env a
    (Store.evicted_evicted env _)
  rw [reply_evicted (r := ⟨.finish a, env⟩), hfound, Reply.found.injEq, Store.evicted_nacked]
    at hreply
  rw [(lineAt_linedUp cj u n).pending a.ackID, Option.isSome_map] at hreply
  obtain ⟨job, hjob⟩ := Option.isSome_iff_exists.mp hreply.symm
  exact ⟨job.born, Or.inl ⟨a, env, job, hr, hjob, rfl⟩⟩

/-- Nothing brings back a job that is gone. -/
theorem gone_for_good (hi : i < m) (hgone : (lineAt cj u m).Gone i) (hmn : m ≤ n) :
    (lineAt cj u n).Gone i := by
  induction n, hmn using Nat.le_induction with
  | base => exact hgone
  | succ n hmn ih =>
      cases hr : u n with
      | none =>
          rw [lineAt_succ_none hr]
          exact ih
      | some r =>
          have hnew : n ≠ i := by omega
          rw [lineAt_succ hr]
          exact lineAfter_from (lineFound_from ih _ _) (fun _ _ => hnew) cj _ _

/-- Nobody is served who is gone. -/
theorem not_served_of_gone (h : (lineAt cj u n).Gone i) :
    ∀ j ∈ servedAt cj u n, j.born ≠ i := by
  intro j hj
  cases hr : u n with
  | none =>
      rw [servedAt, hr] at hj
      cases hj
  | some r =>
      rw [servedAt_some hr] at hj
      exact (lineFound_from h _ _).line j (List.mem_of_mem_take hj)

/-- A job that is completed is gone then. -/
theorem CompletedAt.gone (h : CompletedAt cj u i n) : (lineAt cj u (n + 1)).Gone i := by
  obtain ⟨a, env, job, hr, hjob, rfl⟩ | ⟨env, hr, job, hjob, rfl⟩ := h
  · rw [lineAt_succ hr]
    have hfound := lineFound_orderly (lineAt_orderly cj u n) env (storeAt .fifo cj u n)
    apply hfound.gone_close (i := a.ackID)
    rw [Store.lineFound_held]
    exact hjob
  · rw [servedAt_some hr] at hjob
    rw [lineAt_succ hr]
    have hfound := lineFound_orderly (lineAt_orderly cj u n) env (storeAt .fifo cj u n)
    simp only [Invocation.lineAfter, Invocation.calls] at hjob ⊢
    split
    · next hpaused =>
        rw [if_pos hpaused] at hjob
        cases hjob
    · next hpaused =>
        rw [if_neg hpaused] at hjob
        exact hfound.gone_serve hjob

theorem CompletedAt.lt (h : CompletedAt cj u i n) : i < n := by
  obtain ⟨a, env, job, hr, hjob, rfl⟩ | ⟨env, hr, job, hjob, rfl⟩ := h
  · exact (lineAt_orderly cj u n).heldPast a.ackID job hjob
  · rw [servedAt_some hr] at hjob
    exact (lineFound_orderly (lineAt_orderly cj u n) env _).past job (List.mem_of_mem_take hjob)

/-- A job that is completed is gone for good: no later pop hands it out, no
ack ID holds it, and nothing completes it again. -/
theorem completed_for_good (h : CompletedAt cj u i n) (hnm : n < m) :
    (lineAt cj u m).Gone i ∧ (∀ j ∈ servedAt cj u m, j.born ≠ i) ∧ ¬CompletedAt cj u i m := by
  have hborn := h.lt
  have hgone : (lineAt cj u m).Gone i := gone_for_good (by omega) h.gone hnm
  refine ⟨hgone, not_served_of_gone hgone, ?_⟩
  rintro (⟨a, env, job, hr, hjob, hborn⟩ | ⟨env, hr, job, hjob, hborn⟩)
  · exact hgone.held a.ackID job hjob hborn
  · exact not_served_of_gone hgone job hjob hborn

theorem completed_for_good_pushPopAck :
    (lineAt .none pushPopAck 5).Gone 0 ∧ (∀ j ∈ servedAt .none pushPopAck 5, j.born ≠ 0) ∧
      ¬CompletedAt .none pushPopAck 0 5 := by
  have hcompleted : CompletedAt .none pushPopAck 0 2 := Or.inl ⟨_, _, _, rfl, rfl, rfl⟩
  exact completed_for_good hcompleted (by decide)

end Redisq.Model
