import Redisq.Verified.Calls
import Redisq.Verified.Conservation
import Redisq.Verified.Deadlines

/-!
# What a pop hands out stays the consumer's

A pop that finds one of its ack IDs held pops nothing: so, as long as no pop
uses a reservation whose entries have all left, every ack ID is given to one
item only (`taken_once`), however often and however late copies of the pop
run and whichever calls reuse the reservation.  An entry that a call returned
is therefore that entry or none from then on, and an Acknowledge or a Reject
under its ack ID finishes it or does nothing (`returned_for_good`).
-/

namespace Redisq.Model

/-- The script run at moment `n` is a pop that takes `v` off the queue, under
ack ID `a`. -/
def Takes (k : Kind) (cj : Cjson) (u : ℕ → Option ScriptRun) (n : ℕ) (p : PopCall) (env : Env)
    (a v : Bytes) : Prop :=
  u n = some ⟨.pop p, env⟩ ∧ (a, v) ∈ ((storeAt k cj u n).evicted env).taken k p.ids

/-- No pop uses a reservation of which an earlier run popped entries that
have all left. -/
def Unspent (k : Kind) (cj : Cjson) (u : ℕ → Option ScriptRun) : Prop :=
  ∀ n m p p' env env', n < m → u n = some ⟨.pop p, env⟩ → u m = some ⟨.pop p', env'⟩ →
    p.args.owner = p'.args.owner → p.args.start = p'.args.start →
    ((storeAt k cj u n).evicted env).taken k p.ids ≠ [] →
    ∃ a v, Takes k cj u n p env a v ∧ Pending k cj u m a

/-- Pops under one reservation are after the same number of items. -/
def OneSize (u : ℕ → Option ScriptRun) : Prop :=
  ∀ n m p p' env env', u n = some ⟨.pop p, env⟩ → u m = some ⟨.pop p', env'⟩ →
    p.args.owner = p'.args.owner → p.args.start = p'.args.start → p.want = p'.want

theorem oneSize_scriptRuns (k : Kind) (cj : Cjson) (e : ℕ → Event) :
    OneSize (scriptRuns k cj e) := fun _ _ _ _ _ _ hn hm howner hstart =>
  pops_of_reservation k cj e hn hm howner hstart

section Runs

variable {k : Kind} {cj : Cjson} {u : ℕ → Option ScriptRun} {n m : ℕ} {p p' : PopCall}
  {env env' : Env} {a v v' : Bytes}

/-- Pops that share an ack ID share all of them. -/
theorem ids_eq_of_mem (hsize : OneSize u) (hn : u n = some ⟨.pop p, env⟩)
    (hm : u m = some ⟨.pop p', env'⟩) (ha : a ∈ p.ids) (ha' : a ∈ p'.ids) :
    p.args.owner = p'.args.owner ∧ p.args.start = p'.args.start ∧ p.ids = p'.ids := by
  obtain ⟨i, _, hi⟩ := mem_ackIDs.mp ha
  obtain ⟨i', _, hi'⟩ := mem_ackIDs.mp ha'
  obtain ⟨howner, hstart, _⟩ := ackIDOf_injective (hi.symm.trans hi')
  refine ⟨howner, hstart, ?_⟩
  rw [PopCall.ids, PopCall.ids, howner, hstart, hsize n m p p' env env' hn hm howner hstart]

theorem Takes.mem_ids (h : Takes k cj u n p env a v) : a ∈ p.ids :=
  (Store.mem_taken h.2).1

/-- An ack ID is given to an item once. -/
theorem taken_once (hsize : OneSize u) (hunspent : Unspent k cj u) (hnm : n < m)
    (h : Takes k cj u n p env a v) : ¬Takes k cj u m p' env' a v' := by
  intro h'
  obtain ⟨howner, hstart, hids⟩ := ids_eq_of_mem hsize h.1 h'.1 h.mem_ids h'.mem_ids
  obtain ⟨b, w, hb, hpending⟩ :=
    hunspent n m p p' env env' hnm h.1 h'.1 howner hstart (List.ne_nil_of_mem h.2)
  -- An entry of the first run is still pending: the second one pops nothing.
  have hfree := Store.holds_eq_false.mp (Store.mem_taken h'.2).2.1 b (hids ▸ hb.mem_ids)
  rw [Store.evicted_nacked] at hfree
  rw [Pending, hfree] at hpending
  cases hpending

/-- What is pending under an ack ID that is never made pending by hand was
taken by a pop. -/
theorem taken_of_pending (hprepare : ∀ i item vt env, u i ≠ some ⟨.prepareAck a item vt, env⟩)
    (h : (storeAt k cj u n).nacked.lookup a = some v) :
    ∃ i < n, ∃ p env, Takes k cj u i p env a v := by
  induction n with
  | zero => cases h
  | succ n ih =>
      have hearlier : (storeAt k cj u n).nacked.lookup a = some v →
          ∃ i < n + 1, ∃ p env, Takes k cj u i p env a v := fun h => by
        obtain ⟨i, hi, htakes⟩ := ih h
        exact ⟨i, Nat.lt_succ_of_lt hi, htakes⟩
      cases hr : u n with
      | none => exact hearlier (storeAt_succ_none hr ▸ h)
      | some r =>
          rw [storeAt_nacked hr] at h
          rcases pending_cases h with ⟨hbefore, _⟩ | ⟨p, hinv, hmem⟩ | ⟨vt, hinv⟩
          · exact hearlier (by rwa [Store.evicted_nacked] at hbefore)
          · exact ⟨n, Nat.lt_succ_self n, p, r.env, by rw [hr, ← hinv], hmem⟩
          · exact absurd (by rw [hr, ← hinv]) (hprepare n v vt r.env)

/-- One step: what a pop took stays as it is or goes, and nothing takes its
place. -/
theorem lookup_step (hsize : OneSize u) (hunspent : Unspent k cj u)
    (hprepare : ∀ i item vt env, u i ≠ some ⟨.prepareAck a item vt, env⟩) (hnm : n < m)
    (h : Takes k cj u n p env a v)
    (hm : (storeAt k cj u m).nacked.lookup a = some v ∨
      (storeAt k cj u m).nacked.lookup a = none) :
    (storeAt k cj u (m + 1)).nacked.lookup a = some v ∨
      (storeAt k cj u (m + 1)).nacked.lookup a = none := by
  cases hr : u m with
  | none => rwa [storeAt_succ_none hr]
  | some r =>
      rw [storeAt_nacked hr]
      rcases hm with hsome | hnone
      · exact pending_kept (by rwa [Store.evicted_nacked])
          fun item vt hinv => hprepare m item vt r.env (hinv ▸ hr)
      · refine Or.inr (Option.eq_none_iff_forall_ne_some.mpr fun w hw => ?_)
        rcases pending_cases hw with ⟨hbefore, _⟩ | ⟨p', hinv, hmem⟩ | ⟨vt, hinv⟩
        · rw [Store.evicted_nacked, hnone] at hbefore
          cases hbefore
        · exact taken_once hsize hunspent hnm h ⟨by rw [hr, ← hinv], hmem⟩
        · exact hprepare m w vt r.env (hinv ▸ hr)

/-- What a pop handed out, freshly or once more, is that item or none. -/
theorem Returns.lookup_of_lt (hsize : OneSize u) (hunspent : Unspent k cj u) (hapart : Apart u)
    (h : Returns k cj u n p env a v) (hnm : n < m) :
    (storeAt k cj u m).nacked.lookup a = some v ∨
      (storeAt k cj u m).nacked.lookup a = none := by
  have hprepare : ∀ i item vt env, u i ≠ some ⟨.prepareAck a item vt, env⟩ :=
    fun i item vt env' hi => hapart n p env i a item vt env' h.1 hi h.mem_ids
  obtain ⟨i, hin, p', env', htakes⟩ := taken_of_pending hprepare h.pending.1
  induction m, hnm using Nat.le_induction with
  | base => exact Or.inl h.pending.1
  | succ m hnm ih =>
      exact lookup_step hsize hunspent hprepare (by omega : i < m) htakes ih

/-- A finish that finds its entry works on the item of that entry; one that
does not find it changes nothing. -/
theorem finish_step {b : FinishArgs} (hm : u m = some ⟨.finish b, env⟩) :
    (∃ v, (storeAt k cj u m).nacked.lookup b.ackID = some v ∧
        (((storeAt k cj u m).evicted env).finished cj b v).SameBut (storeAt k cj u (m + 1))) ∨
      (storeAt k cj u m).nacked.lookup b.ackID = none ∧
        ScriptRun.reply k cj (storeAt k cj u m) ⟨.finish b, env⟩ = .found false ∧
        storeAt k cj u (m + 1) = (storeAt k cj u m).evicted env := by
  cases h : (storeAt k cj u m).nacked.lookup b.ackID with
  | some v =>
      refine Or.inl ⟨v, rfl, ?_⟩
      have hsame := step_some k cj (storeAt k cj u m) ⟨.finish b, env⟩
      rw [ScriptRun.after, Invocation.after, Store.afterFinish, Store.evicted_nacked, h] at hsame
      rw [storeAt_succ, hm]
      exact hsame
  | none =>
      have habsent := finishScript_exec_absent cj env b ((storeAt k cj u m).evicted env)
        (by rw [Store.evicted_nacked, h])
      refine Or.inr ⟨rfl, ?_, ?_⟩
      · simp only [ScriptRun.reply, ScriptRun.exec, Invocation.script, ↓Script.exec_bind, habsent,
          Script.exec_pure]
      · rw [storeAt_succ, hm]
        simp only [step, ScriptRun.exec, Invocation.script, ↓Script.exec_bind, habsent,
          Script.exec_pure]

end Runs

/-! ## Calls -/

/-- The items a pop call returns for a reply, each with its ack ID. -/
def Call.returned (call : Call) (reply : Reply) : List (Bytes × Bytes) :=
  match call.stage with
  | .popping r _ => (ackIDs call.owner r.start r.want).zip reply.items
  | _ => []

section Calls

variable {k : Kind} {cj : Cjson} {e : ℕ → Event} {m c j i : ℕ} {call : Call} {reply : Reply}
  {a v : Bytes}

/-- The reply a pop call reads is that of a run of its own pop. -/
theorem run_of_read {r : Reservation} (hcall : (worldAt k cj e m).calls c = some call)
    (hstage : call.stage = .popping r i) (hlog : (worldAt k cj e m).log[j]? = some (i, reply)) :
    ∃ n < m, ∃ vt hbt env, RunsAs k cj e n i j ⟨.pop (call.popCall r vt hbt), env⟩ ∧
      (call.popCall r vt hbt).ids = ackIDs call.owner r.start r.want ∧
      reply = ScriptRun.reply k cj (storeAt k cj (scriptRuns k cj e) n)
        ⟨.pop (call.popCall r vt hbt), env⟩ := by
  have hawaits : call.stage.awaits = some i := by
    rw [hstage]
    rfl
  obtain ⟨inv, hsent, hsends⟩ := waits_for_own k cj e hcall hawaits
  rw [Call.Sends, hstage] at hsends
  obtain ⟨vt, hbt, rfl⟩ := hsends
  obtain ⟨n, hnm, run, hruns, hreply⟩ := reply_of_run k cj e hlog
  obtain ⟨c', hsent'⟩ := hruns.2.2.2
  have hinv : run.inv = .pop (call.popCall r vt hbt) := by
    have hlater := sent_of_le k cj e hnm.le hsent'
    rw [hsent] at hlater
    exact (congrArg Sent.inv (Option.some.inj hlater)).symm
  obtain ⟨inv, env⟩ := run
  subst hinv
  have hfits : r.want ≤ call.kind.limit := by
    refine (worldAt_reserved k cj e m).fits c call hcall r.want ?_
    rw [hstage]
    rfl
  refine ⟨n, hnm, vt, hbt, env, hruns, ?_, hreply⟩
  rw [PopCall.ids, (Call.popCall_under hfits vt hbt).2.2]
  rfl

/-- What a call returns, a run of its own pop handed out. -/
theorem returns_of_read (hcall : (worldAt k cj e m).calls c = some call)
    (hlog : (worldAt k cj e m).log[j]? = some (i, reply)) (hawaits : call.stage.awaits = some i)
    (hmem : (a, v) ∈ call.returned reply) :
    ∃ n < m, ∃ p env, RunsAs k cj e n i j ⟨.pop p, env⟩ ∧
      Returns k cj (scriptRuns k cj e) n p env a v := by
  obtain ⟨r, hstage⟩ : ∃ r, call.stage = .popping r i := by
    unfold Call.returned at hmem
    split at hmem
    · next r i' hstage =>
        rw [hstage] at hawaits
        cases hawaits
        exact ⟨r, hstage⟩
    · exact absurd hmem List.not_mem_nil
  obtain ⟨n, hnm, vt, hbt, env, hruns, hids, hreply⟩ := run_of_read hcall hstage hlog
  refine ⟨n, hnm, _, env, hruns, hruns.2.2.1, ?_⟩
  rw [PopCall.returned, hids, ← hreply]
  rw [Call.returned, hstage] at hmem
  exact hmem

/-- What a pop call returns for a reply is pending right after the run that
gave the reply; from then on its ack ID holds that item or nothing; and an Acknowledge
or a Reject of it, at any later time, finishes that item or does nothing. -/
theorem returned_for_good (hunspent : Unspent k cj (scriptRuns k cj e))
    (hapart : Apart (scriptRuns k cj e)) (hcall : (worldAt k cj e m).calls c = some call)
    (hlog : (worldAt k cj e m).log[j]? = some (i, reply)) (hawaits : call.stage.awaits = some i)
    (hmem : (a, v) ∈ call.returned reply) :
    ∃ n < m, (∃ r, RunsAs k cj e n i j r) ∧
      (worldAt k cj e (n + 1)).store.nacked.lookup a = some v ∧
      (∀ l, n < l → (worldAt k cj e l).store.nacked.lookup a = some v ∨
        (worldAt k cj e l).store.nacked.lookup a = none) ∧
      ∀ l b env, n < l → scriptRuns k cj e l = some ⟨.finish b, env⟩ → b.ackID = a →
        (((worldAt k cj e l).store.evicted env).finished cj b v).SameBut
            (worldAt k cj e (l + 1)).store ∨
          ScriptRun.reply k cj (worldAt k cj e l).store ⟨.finish b, env⟩ = .found false ∧
            (worldAt k cj e (l + 1)).store = (worldAt k cj e l).store.evicted env := by
  obtain ⟨n, hnm, p, env, hruns, hreturns⟩ := returns_of_read hcall hlog hawaits hmem
  have hlookup := fun l (hnl : n < l) =>
    hreturns.lookup_of_lt (oneSize_scriptRuns k cj e) hunspent hapart hnl
  refine ⟨n, hnm, ⟨_, hruns⟩, ?_, ?_, ?_⟩
  · rw [worldAt_store]
    exact hreturns.pending.1
  · intro l hnl
    rw [worldAt_store]
    exact hlookup l hnl
  · rintro l b env' hnl hl rfl
    rw [worldAt_store, worldAt_store]
    rcases finish_step (k := k) hl with ⟨v', hv', hsame⟩ | ⟨_, habsent⟩
    · rcases hlookup l hnl with hsome | hnone
      · rw [hv'] at hsome
        cases hsome
        exact Or.inl hsame
      · rw [hv'] at hnone
        cases hnone
    · exact Or.inr habsent

end Calls

/-- A push; a pop call up to its reply; and a copy of the pop once more. -/
def popped : ℕ → Event
  | 0 => .issue (.push ⟨[97], 0, 0, false, none⟩)
  | 1 => .run 0 (.plain 0 fun _ => 0)
  | 2 => .start 0 ownerA false .dequeue
  | 3 => .proceed 0
  | 4 => .proceed 0
  | 5 => .proceed 0
  | 6 => .proceed 0
  | 7 => .run 1 (.plain 1 fun _ => 0)
  | 8 => .read 0 1
  | 9 => .run 1 (.plain 2 fun _ => 0)
  | _ => .fail 0

/-- The pop of that call. -/
def poppedCall : PopCall :=
  ⟨⟨ownerA, 1, 300 * second, 30 * second, false⟩, .one⟩

theorem popped_pops {n : ℕ} {p : PopCall} {env : Env}
    (h : scriptRuns .fifo .none popped n = some ⟨.pop p, env⟩) :
    p = poppedCall ∧ (n = 7 ∧ env = .plain 1 (fun _ => 0) ∨ n = 9 ∧ env = .plain 2 fun _ => 0) := by
  match n, h with
  | 7, h =>
      cases h
      exact ⟨rfl, Or.inl ⟨rfl, rfl⟩⟩
  | 9, h =>
      cases h
      exact ⟨rfl, Or.inr ⟨rfl, rfl⟩⟩

theorem returned_for_good_popped :
    ∃ n < 8, (∃ r, RunsAs .fifo .none popped n 1 1 r) ∧
      (worldAt .fifo .none popped (n + 1)).store.nacked.lookup (ackIDOf ownerA 1 1) =
        some [97] := by
  have hcall : (worldAt .fifo .none popped 8).calls 0 =
      some ⟨ownerA, false, .dequeue, .popping ⟨1, 1⟩ 1⟩ := by decide
  have hlog : (worldAt .fifo .none popped 8).log[1]? = some (1, .one (.item [97])) := rfl
  have hunspent : Unspent .fifo .none (scriptRuns .fifo .none popped) := by
    intro n m p p' env env' hnm hn hm _ _ _
    obtain ⟨rfl, ⟨rfl, rfl⟩ | ⟨rfl, rfl⟩⟩ := popped_pops hn
    · obtain ⟨_, ⟨rfl, _⟩ | ⟨rfl, _⟩⟩ := popped_pops hm
      · exact absurd hnm (lt_irrefl 7)
      · exact ⟨ackIDOf ownerA 1 1, [97], ⟨rfl, by decide⟩, by unfold Pending; decide⟩
    · obtain ⟨_, ⟨rfl, _⟩ | ⟨rfl, _⟩⟩ := popped_pops hm
      · exact absurd hnm (by decide)
      · exact absurd hnm (lt_irrefl 9)
  have hapart : Apart (scriptRuns .fifo .none popped) := by
    intro i p env j id item vt env' _ hj
    match j, hj with
    | 1, hj => cases hj
    | 7, hj => cases hj
    | 9, hj => cases hj
  obtain ⟨n, hn, hruns, hpending, _⟩ :=
    returned_for_good (a := ackIDOf ownerA 1 1) (v := [97]) hunspent hapart hcall hlog rfl
      (by decide)
  exact ⟨n, hn, hruns, hpending⟩

end Redisq.Model
