import Redisq.Verified.Reservations

/-!
# Calls, what they sent and what they read

What was sent keeps its number, and every reply in the log is the one some
run of the script with that number gave (`reply_of_run`).  A call that waits
for a reply waits for one to the script it sent itself (`waits_for_own`).
-/

namespace Redisq.Model

/-- The script whose reply a call waits for. -/
def Stage.awaits : Stage → Option ℕ
  | .popping _ i => some i
  | .requeueing i => some i
  | _ => none

/-- A call sends nothing but a wake any more. -/
def Stage.settled : Stage → Bool
  | .accounting _ _ => true
  | .sizing _ => true
  | .ended => true
  | _ => false

/-- A call that waits for a reply sent such a script. -/
def Call.Sends (call : Call) (inv : Invocation) : Prop :=
  match call.stage with
  | .popping r _ => ∃ vt hbt, inv = .pop (call.popCall r vt hbt)
  | .requeueing _ =>
      match call.kind with
      | .tick => ∃ hbt, inv = .sweep call.owner hbt
      | .requeue => ∃ vt, inv = .requeue vt
      | .close => inv = .release call.owner
      | _ => False
  | _ => False

/-! ## Turns -/

namespace Call

variable {q : QueueObject} {call : Call} {t : Turn} {next i : ℕ} {reply : Reply}

/-- A call that starts leaves its object as it is, or closes it. -/
theorem begin_object (q : QueueObject) (next : ℕ) (call : Call) :
    (call.begin q next).object = q ∨ (call.begin q next).object = { q with closed := true } := by
  unfold begin
  split
  · exact Or.inl rfl
  · exact Or.inl rfl
  · split
    · exact Or.inr rfl
    · exact Or.inr rfl
  · exact Or.inl rfl

theorem read_object (h : call.read q i reply = some t) : t.object = q := by
  unfold read at h
  split at h
  · split at h
    · cases h; rfl
    · cases h
  · split at h
    · cases h; rfl
    · cases h
  · cases h

theorem read_settled (h : call.read q i reply = some t) :
    t.stage.settled = true ∧ ∀ inv, t.sends = some inv → ∃ n, inv = .wakeIdle n := by
  unfold read at h
  split at h
  · split at h
    · cases h
      refine ⟨?_, fun _ hinv => by cases hinv⟩
      simp only []
      split <;> rfl
    · cases h
  · split at h
    · cases h
      refine ⟨rfl, fun inv hinv => ?_⟩
      simp only [] at hinv
      split at hinv
      · exact ⟨_, (Option.some.inj hinv).symm⟩
      · cases hinv
    · cases h
  · cases h

/-- A failure puts a reservation back at most. -/
theorem fail_object (h : call.fail q = some t) : t.object = q ∨ ∃ r, t.object = putBack r q := by
  unfold fail at h
  split at h
  · next r i hstage =>
      cases h
      exact Or.inr ⟨r, rfl⟩
  · cases h
    exact Or.inl rfl
  · cases h

theorem fail_settled (h : call.fail q = some t) : t.stage.settled = true ∧ t.sends = none := by
  unfold fail at h
  split at h
  · cases h; exact ⟨rfl, rfl⟩
  · cases h; exact ⟨rfl, rfl⟩
  · cases h

/-- A call comes to wait by sending. -/
def AwaitsSent (call : Call) (t : Turn) (next : ℕ) : Prop :=
  ∀ i, t.stage.awaits = some i →
    i = next ∧ ∃ inv, t.sends = some inv ∧ Sends { call with stage := t.stage } inv

theorem awaitsSent_of_none (h : t.stage.awaits = none) : call.AwaitsSent t next := by
  intro i hi
  rw [h] at hi
  cases hi

theorem begin_awaitsSent (q : QueueObject) (next : ℕ) (call : Call) :
    call.AwaitsSent (call.begin q next) next := by
  unfold begin
  cases hkind : call.kind with
  | tick =>
      intro i hi
      cases hi
      exact ⟨rfl, _, rfl, by simp [Sends, hkind]⟩
  | requeue =>
      intro i hi
      cases hi
      exact ⟨rfl, _, rfl, by simp [Sends, hkind]⟩
  | close =>
      simp only []
      split
      · exact awaitsSent_of_none rfl
      · intro i hi
        cases hi
        exact ⟨rfl, _, rfl, by simp [Sends, hkind]⟩
  | dequeue => exact awaitsSent_of_none rfl
  | dequeueBatch slots => exact awaitsSent_of_none rfl

theorem proceed_awaitsSent (h : call.proceed q next = some t) : call.AwaitsSent t next := by
  cases proceeds_of_proceed h with
  | pops r vt hstage =>
      intro i hi
      cases hi
      exact ⟨rfl, _, rfl, vt, q.hbt, rfl⟩
  | _ => exact awaitsSent_of_none rfl

theorem read_awaitsSent (h : call.read q i reply = some t) :
    call.AwaitsSent t next := by
  unfold read at h
  split at h
  · split at h
    · cases h
      refine awaitsSent_of_none ?_
      simp only []
      split <;> rfl
    · cases h
  · split at h
    · cases h
      exact awaitsSent_of_none rfl
    · cases h
  · cases h

theorem fail_awaitsSent (h : call.fail q = some t) : call.AwaitsSent t next := by
  unfold fail at h
  split at h
  · cases h
    exact awaitsSent_of_none rfl
  · cases h
    exact awaitsSent_of_none rfl
  · cases h

/-- A call reads replies to what it waits for only. -/
theorem awaits_of_read (h : call.read q i reply = some t) :
    call.stage.awaits = some i := by
  unfold read at h
  split at h
  · next r i' hstage =>
      split at h
      · next hi => rw [hstage, hi]; rfl
      · cases h
  · next i' hstage =>
      split at h
      · next hi => rw [hstage, hi]; rfl
      · cases h
  · cases h

end Call

/-! ## The world -/

namespace World

variable {w : World} {c : ℕ} {call : Call} {t : Turn} {ev : Event}

theorem Turns.awaitsSent (h : w.Turns ev c call t) : call.AwaitsSent t w.sent.length := by
  cases h with
  | begins c o consumer kind hnew hopen => exact Call.begin_awaitsSent _ _ _
  | proceeds c call t hcall h => exact Call.proceed_awaitsSent h
  | reads c j call i reply t hcall hlog h => exact Call.read_awaitsSent h
  | fails c call t hcall h => exact Call.fail_awaitsSent h

/-- What was sent keeps its number. -/
theorem sent_step (k : Kind) (cj : Cjson) (w : World) (ev : Event) {m : Sent} {i : ℕ}
    (hm : w.sent[i]? = some m) : (w.step k cj ev).sent[i]? = some m := by
  have happend : ∀ l : List Sent, (w.sent ++ l)[i]? = some m := fun l => by
    rw [List.getElem?_append_left (List.getElem?_eq_some_iff.mp hm).1, hm]
  have hchange := World.step_change k cj w ev
  generalize w.step k cj ev = w' at hchange ⊢
  cases hchange with
  | none => exact hm
  | set o f _ _ => exact hm
  | take c call t _ => exact happend _
  | issue inv _ => exact happend _
  | run i env m _ _ => exact hm

/-- A call that waits for a reply sent the script itself. -/
def Waits (w : World) : Prop :=
  ∀ c call i, w.calls c = some call → call.stage.awaits = some i →
    ∃ inv, w.sent[i]? = some ⟨some c, inv⟩ ∧ call.Sends inv

theorem Waits.step (k : Kind) (cj : Cjson) (hw : w.Waits) (ev : Event) :
    (w.step k cj ev).Waits := by
  have hchange := World.step_change k cj w ev
  have hkept := fun m i => sent_step k cj w ev (m := m) (i := i)
  generalize w.step k cj ev = w' at hchange hkept ⊢
  have hold : w'.calls = w.calls → w'.Waits := fun hcalls c call i hcall hawaits => by
    obtain ⟨inv, hsent, hsends⟩ := hw c call i (hcalls ▸ hcall) hawaits
    exact ⟨inv, hkept _ _ hsent, hsends⟩
  cases hchange with
  | none => exact hw
  | set o f _ _ => exact hold rfl
  | issue inv _ => exact hold rfl
  | run i env m _ _ => exact hold rfl
  | take c call t hturn =>
      intro c' call' i hcall hawaits
      by_cases hc : c' = c
      · subst hc
        rw [take_call_self] at hcall
        cases hcall
        obtain ⟨rfl, inv, hsent, hsends⟩ := hturn.awaitsSent i hawaits
        refine ⟨inv, ?_, hsends⟩
        simp [World.take, hsent]
      · rw [take_call_of_ne w call t hc] at hcall
        obtain ⟨inv, hsent, hsends⟩ := hw c' call' i hcall hawaits
        exact ⟨inv, hkept _ _ hsent, hsends⟩

end World

/-! ## Runs -/

section Runs

variable (k : Kind) (cj : Cjson) (e : ℕ → Event)

theorem sent_of_le {i j n : ℕ} {m : Sent} (hij : i ≤ j)
    (hm : (worldAt k cj e i).sent[n]? = some m) : (worldAt k cj e j).sent[n]? = some m := by
  induction j, hij using Nat.le_induction with
  | base => exact hm
  | succ j _ ih =>
      rw [worldAt_succ]
      exact World.sent_step k cj _ _ ih

/-- What a call waits for is a reply to a script it sent. -/
theorem waits_for_own {n c i : ℕ} {call : Call} (hcall : (worldAt k cj e n).calls c = some call)
    (hawaits : call.stage.awaits = some i) :
    ∃ inv, (worldAt k cj e n).sent[i]? = some ⟨some c, inv⟩ ∧ call.Sends inv := by
  have hwaits : (worldAt k cj e n).Waits :=
    Trajectory.invariant (I := World.Waits) (fun c call i h => by cases h)
      (fun n hn => hn.step k cj (e n)) n
  exact hwaits c call i hcall hawaits

/-- Event `n` runs script number `i`, which gives reply number `j`. -/
def RunsAs (n i j : ℕ) (r : ScriptRun) : Prop :=
  e n = .run i r.env ∧ (worldAt k cj e n).log.length = j ∧ scriptRuns k cj e n = some r ∧
    ∃ c, (worldAt k cj e n).sent[i]? = some ⟨c, r.inv⟩

theorem log_step (k : Kind) (cj : Cjson) (w : World) (ev : Event) :
    (w.step k cj ev).log = w.log ∨
      ∃ i env m, ev = .run i env ∧ w.sent[i]? = some m ∧
        (w.step k cj ev).log = w.log ++ [(i, ScriptRun.reply k cj w.store ⟨m.inv, env⟩)] := by
  have hchange := World.step_change k cj w ev
  generalize w.step k cj ev = w' at hchange ⊢
  cases hchange with
  | none => exact Or.inl rfl
  | set o f _ _ => exact Or.inl rfl
  | take c call t _ => exact Or.inl rfl
  | issue inv _ => exact Or.inl rfl
  | run i env m hm hev => exact Or.inr ⟨i, env, m, hev, hm, rfl⟩

/-- A reply in the log is that of a run. -/
theorem reply_of_run {m i j : ℕ} {reply : Reply}
    (h : (worldAt k cj e m).log[j]? = some (i, reply)) :
    ∃ n < m, ∃ r, RunsAs k cj e n i j r ∧
      reply = r.reply k cj (storeAt k cj (scriptRuns k cj e) n) := by
  induction m with
  | zero => cases h
  | succ m ih =>
      rw [worldAt_succ] at h
      have hearlier : (worldAt k cj e m).log[j]? = some (i, reply) → ∃ n < m + 1, ∃ r,
          RunsAs k cj e n i j r ∧ reply = r.reply k cj (storeAt k cj (scriptRuns k cj e) n) :=
        fun h => by
          obtain ⟨n, hn, r, hr⟩ := ih h
          exact ⟨n, Nat.lt_succ_of_lt hn, r, hr⟩
      rcases log_step k cj (worldAt k cj e m) (e m) with hsame | ⟨i', env, msg, hev, hmsg, hlog⟩
      · exact hearlier (hsame ▸ h)
      · rw [hlog, List.getElem?_append] at h
        split at h
        · exact hearlier h
        · next hlast =>
            obtain ⟨hj, heq⟩ : j = (worldAt k cj e m).log.length ∧
                (i', ScriptRun.reply k cj (worldAt k cj e m).store ⟨msg.inv, env⟩) =
                  (i, reply) := by
              rw [List.getElem?_singleton] at h
              split at h
              · exact ⟨by omega, Option.some.inj h⟩
              · cases h
            cases heq
            refine ⟨m, Nat.lt_succ_self m, ⟨msg.inv, env⟩, ⟨hev, hj.symm, ?_, msg.call, hmsg⟩, ?_⟩
            · rw [scriptRuns, hev, World.scriptRun, hmsg]
              rfl
            · rw [worldAt_store]

end Runs

end Redisq.Model
