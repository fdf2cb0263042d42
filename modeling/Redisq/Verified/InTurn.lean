import Redisq.Verified.Calls

/-!
# Pop calls one after another

When the pop calls of an object come one after another, a call pops under the
object's newest reservation or under one that a failed call left
(`newest_or_tookOver`); so do its scripts as long as they run while it waits
(`run_newest_or_tookOver`).  No pop is after more than `maxPop` items.
-/

namespace Redisq.Model

/-! ## Stages -/

/-- The calls that pop. -/
def CallKind.pops : CallKind → Bool
  | .dequeue => true
  | .dequeueBatch _ => true
  | _ => false

/-- What `reserve` returned to a call that has yet to get its reply. -/
def Stage.under : Stage → Option Reservation
  | .reserved r => some r
  | .timed r _ => some r
  | .popping r _ => some r
  | _ => none

theorem Stage.reservation_of_under {stage : Stage} {r : Reservation} (h : stage.under = some r) :
    stage.reservation = some r := by
  cases stage with
  | reserved r' => exact h
  | timed r' vt => exact h
  | popping r' i => exact h
  | _ => cases h

theorem Stage.want_of_under {stage : Stage} {r : Reservation} (h : stage.under = some r) :
    stage.want = some r.want := by
  cases stage with
  | reserved r' => cases h; rfl
  | timed r' vt => cases h; rfl
  | popping r' i => cases h; rfl
  | _ => cases h

theorem Stage.want_of_settled {stage : Stage} (h : stage.settled = true) : stage.want = none := by
  cases stage with
  | accounting taken remaining => rfl
  | sizing popLen => rfl
  | ended => rfl
  | _ => cases h

theorem CallKind.limit_le (kind : CallKind) : kind.limit ≤ maxPop := by
  cases kind with
  | dequeueBatch slots => exact min_le_right _ _
  | _ => exact one_le

/-! ## Turns -/

namespace Call

variable {q : QueueObject} {call : Call} {t : Turn} {next : ℕ} {r : Reservation}

theorem begin_under (q : QueueObject) (next : ℕ) (call : Call) :
    (call.begin q next).stage.under = none := by
  unfold begin
  split
  · rfl
  · rfl
  · split
    · rfl
    · rfl
  · rfl

theorem begin_want (h : (call.begin q next).stage.want ≠ none) : call.kind.pops = true := by
  unfold begin at h
  cases hkind : call.kind with
  | dequeue => rfl
  | dequeueBatch slots => rfl
  | tick =>
      rw [hkind] at h
      exact absurd rfl h
  | requeue =>
      rw [hkind] at h
      exact absurd rfl h
  | close =>
      simp only [hkind] at h
      split at h
      · exact absurd rfl h
      · exact absurd rfl h

theorem begin_sends_ne_pop (p : PopCall) : (call.begin q next).sends ≠ some (.pop p) := by
  unfold begin
  split
  · simp
  · simp
  · split
    · simp
    · simp
  · simp

theorem read_want {i : ℕ} {reply : Reply} (h : call.read q i reply = some t) :
    t.stage.want = none :=
  Stage.want_of_settled (read_settled h).1

theorem fail_want (h : call.fail q = some t) : t.stage.want = none :=
  Stage.want_of_settled (fail_settled h).1

theorem proceed_want (h : call.proceed q next = some t) (hwant : t.stage.want ≠ none) :
    call.stage.want ≠ none := by
  cases proceeds_of_proceed h with
  | counts taken remaining run popLen hstage => exact absurd rfl hwant
  | counted taken remaining run hstage => exact absurd rfl hwant
  | sizes popLen hstage => exact absurd rfl hwant
  | swapsNone _ hstage | swapsLarge _ _ hstage | swaps _ _ hstage | putsBack _ _ hstage
  | adds _ hstage | times _ hstage | pops _ _ hstage =>
      rw [hstage]
      exact Option.some_ne_none _

theorem proceed_ackSeq (h : call.proceed q next = some t) (hwant : call.stage.want = none) :
    t.object.ackSeq = q.ackSeq := by
  cases proceeds_of_proceed h with
  | adds want hstage =>
      rw [hstage] at hwant
      cases hwant
  | _ => rfl

theorem proceed_sends_pop (h : call.proceed q next = some t) {p : PopCall}
    (hp : t.sends = some (.pop p)) :
    ∃ r vt, call.stage = .timed r vt ∧ p = call.popCall r vt q.hbt := by
  cases proceeds_of_proceed h with
  | pops r vt hstage =>
      cases hp
      exact ⟨r, vt, hstage, rfl⟩
  | _ => cases hp

end Call

namespace World

variable {w : World} {c : ℕ} {call : Call} {t : Turn} {ev : Event} {o : Owner} {r : Reservation}

/-- How a call comes by the reservation it has after a turn. -/
inductive Obtains (w : World) (ev : Event) (c : ℕ) (call : Call) (t : Turn) (r : Reservation) :
    Prop
  | held (hcall : w.calls c = some call) (hstage : call.stage.under = some r)
      (hseq : t.object.ackSeq = (w.objects call.owner).ackSeq)
  | kept (want : ℕ+) (hev : ev = .proceed c) (hcall : w.calls c = some call)
      (hstage : call.stage = .swapping want)
      (hkept : (w.objects call.owner).retryPop = some r)
  | fresh (hseq : r.start = t.object.ackSeq)

theorem proceed_obtains (hcall : w.calls c = some call)
    (h : call.proceed (w.objects call.owner) w.sent.length = some t)
    (hr : t.stage.under = some r) : w.Obtains (.proceed c) c call t r := by
  cases Call.proceeds_of_proceed h with
  | swaps want r' hstage hkept hfits =>
      cases hr
      exact .kept want rfl hcall hstage hkept
  | adds want hstage =>
      cases hr
      exact .fresh rfl
  | times r' hstage =>
      refine .held hcall ?_ rfl
      rw [hstage]
      exact hr
  | pops r' vt hstage =>
      refine .held hcall ?_ rfl
      rw [hstage]
      exact hr
  | _ => cases hr

theorem Turns.obtains (h : w.Turns ev c call t) (hr : t.stage.under = some r) :
    w.Obtains ev c call t r := by
  have hwant := Stage.want_of_under hr
  cases h with
  | begins c o consumer kind hnew hopen =>
      rw [Call.begin_under] at hr
      cases hr
  | proceeds c call t hcall h => exact proceed_obtains hcall h hr
  | reads c j call i reply t hcall hlog h =>
      rw [Call.read_want h] at hwant
      cases hwant
  | fails c call t hcall h =>
      rw [Call.fail_want h] at hwant
      cases hwant

/-- A call that is about to pop was so before, or is a pop call that
starts. -/
theorem Turns.wants (h : w.Turns ev c call t) (hwant : t.stage.want ≠ none) :
    (w.calls c = some call ∧ call.stage.want ≠ none) ∨
      ∃ consumer, ev = .start c call.owner consumer call.kind ∧ call.kind.pops = true := by
  cases h with
  | begins c o consumer kind hnew hopen => exact Or.inr ⟨consumer, rfl, Call.begin_want hwant⟩
  | proceeds c call t hcall h => exact Or.inl ⟨hcall, Call.proceed_want h hwant⟩
  | reads c j call i reply t hcall hlog h => exact absurd (Call.read_want h) hwant
  | fails c call t hcall h => exact absurd (Call.fail_want h) hwant

/-- Only a call that is about to pop takes a number. -/
theorem Turns.ackSeq_eq (h : w.Turns ev c call t) (hwant : call.stage.want = none) :
    t.object.ackSeq = (w.objects call.owner).ackSeq := by
  cases h with
  | begins c o consumer kind hnew hopen =>
      rcases Call.begin_object (w.objects o) w.sent.length ⟨o, consumer, kind, .ended⟩ with h | h
      · rw [h]
      · rw [h]
  | proceeds c call t hcall h => exact Call.proceed_ackSeq h hwant
  | reads c j call i reply t hcall hlog h => rw [Call.read_object h]
  | fails c call t hcall h =>
      rcases Call.fail_object h with h | ⟨r, h⟩
      · rw [h]
      · rw [h]
        rfl

/-! ## How many items a pop is after -/

theorem Turns.sends_pop (h : w.Turns ev c call t) {p : PopCall} (hp : t.sends = some (.pop p)) :
    ∃ r vt, call.stage = .timed r vt ∧
      p = call.popCall r vt (w.objects call.owner).hbt := by
  cases h with
  | begins c o consumer kind hnew hopen => exact absurd hp (Call.begin_sends_ne_pop p)
  | proceeds c call t hcall h => exact Call.proceed_sends_pop h hp
  | reads c j call i reply t hcall hlog h =>
      obtain ⟨n, hwake⟩ := (Call.read_settled h).2 _ hp
      cases hwake
  | fails c call t hcall h =>
      rw [(Call.fail_settled h).2] at hp
      cases hp

/-- The pops that were sent are after at most `maxPop` items. -/
def Capped (w : World) : Prop :=
  ∀ m ∈ w.sent, ∀ p, m.inv = .pop p → p.want ≤ maxPop

theorem Turns.want_le (hw : w.Reserved) (h : w.Turns ev c call t) {p : PopCall}
    (hp : t.sends = some (.pop p)) : p.want ≤ maxPop := by
  obtain ⟨r, vt, hstage, rfl⟩ := h.sends_pop hp
  have hfits : r.want ≤ call.kind.limit := by
    apply fits_of_turnOf hw h
    rw [hstage]
    rfl
  obtain ⟨_, _, hwant⟩ := Call.popCall_under hfits vt (w.objects call.owner).hbt
  rw [hwant]
  exact PNat.coe_le_coe _ _ |>.mpr (hfits.trans call.kind.limit_le)

theorem Capped.step (k : Kind) (cj : Cjson) (hw : w.Reserved) (hcapped : w.Capped) (ev : Event) :
    (w.step k cj ev).Capped := by
  have hchange := World.step_change k cj w ev
  generalize w.step k cj ev = w' at hchange ⊢
  cases hchange with
  | none => exact hcapped
  | set o f _ _ => exact hcapped
  | run i env m _ _ => exact hcapped
  | take c call t h =>
      intro m hm p hp
      rcases List.mem_append.mp hm with hold | hnew
      · exact hcapped m hold p hp
      · obtain ⟨inv, hinv, rfl⟩ := Option.map_eq_some_iff.mp (Option.mem_toList.mp hnew)
        subst hp
        exact h.want_le hw hinv
  | issue inv h =>
      intro m hm p hp
      rcases List.mem_append.mp hm with hold | hnew
      · exact hcapped m hold p hp
      · rw [List.mem_singleton] at hnew
        subst hnew
        cases hp
        cases h

end World

section Runs

variable {k : Kind} {cj : Cjson} {e : ℕ → Event} {o : Owner}

theorem worldAt_capped (k : Kind) (cj : Cjson) (e : ℕ → Event) (n : ℕ) :
    (worldAt k cj e n).Capped := by
  induction n with
  | zero =>
      intro m hm
      cases hm
  | succ n ih =>
      rw [worldAt_succ]
      exact ih.step k cj (worldAt_reserved k cj e n) (e n)

/-- A pop that runs is after at most `maxPop` items. -/
theorem want_le_of_run {n : ℕ} {p : PopCall} {env : Env}
    (h : scriptRuns k cj e n = some ⟨.pop p, env⟩) : p.want ≤ maxPop := by
  obtain ⟨m, hm, hinv⟩ := sent_of_run k cj e h
  exact worldAt_capped k cj e n m hm p hinv

/-- A call was started. -/
theorem started_of_call {n c : ℕ} {call : Call} (h : (worldAt k cj e n).calls c = some call) :
    ∃ m < n, ∃ consumer, e m = .start c call.owner consumer call.kind := by
  induction n generalizing call with
  | zero => cases h
  | succ n ih =>
      have hbefore : ∀ call', (worldAt k cj e n).calls c = some call' → call'.owner = call.owner →
          call'.kind = call.kind → ∃ m < n + 1, ∃ consumer,
            e m = .start c call.owner consumer call.kind := by
        intro call' hcall howner hkind
        obtain ⟨m, hm, consumer, hev⟩ := ih hcall
        rw [howner, hkind] at hev
        exact ⟨m, Nat.lt_succ_of_lt hm, consumer, hev⟩
      rw [worldAt_succ] at h
      have hchange := World.step_change k cj (worldAt k cj e n) (e n)
      generalize (worldAt k cj e n).step k cj (e n) = w' at hchange h
      cases hchange with
      | none => exact hbefore call h rfl rfl
      | set o' f _ _ => exact hbefore call h rfl rfl
      | issue inv _ => exact hbefore call h rfl rfl
      | run i env m _ _ => exact hbefore call h rfl rfl
      | take c₀ call₀ t hturn =>
          by_cases hc : c = c₀
          · subst hc
            rw [World.take_call_self] at h
            cases h
            generalize hev : e n = ev at hturn
            cases hturn with
            | begins c o consumer kind hnew hopen =>
                exact ⟨n, n.lt_succ_self, consumer, hev⟩
            | proceeds c call t hcall _ => exact hbefore call₀ hcall rfl rfl
            | reads c j call i reply t hcall _ _ => exact hbefore call₀ hcall rfl rfl
            | fails c call t hcall _ => exact hbefore call₀ hcall rfl rfl
          · rw [World.take_call_of_ne _ call₀ t hc] at h
            exact hbefore call h rfl rfl

/-! ## One after another -/

/-- The pop calls of `o` come one after another: one starts when no other is
about to pop. -/
structure InTurn (k : Kind) (cj : Cjson) (e : ℕ → Event) (o : Owner) : Prop where
  starts : ∀ n c consumer kind, e n = .start c o consumer kind → kind.pops = true →
    ∀ c' call, (worldAt k cj e n).calls c' = some call → call.owner = o → call.stage.want = none

/-- The script run in event `n` is one that call `c` waits for. -/
def RunsFor (k : Kind) (cj : Cjson) (e : ℕ → Event) (n c : ℕ) : Prop :=
  ∃ i env m call, e n = .run i env ∧ (worldAt k cj e n).sent[i]? = some m ∧ m.call = some c ∧
    (worldAt k cj e n).calls c = some call ∧ call.stage.awaits = some i

/-- And no copy of their scripts runs after the call ended. -/
structure OnTime (k : Kind) (cj : Cjson) (e : ℕ → Event) (o : Owner) : Prop
    extends InTurn k cj e o where
  runs : ∀ n p env, scriptRuns k cj e n = some ⟨.pop p, env⟩ → p.args.owner = o →
    ∃ c, RunsFor k cj e n c

/-- Before moment `n`, call `c` of `o` took over reservation number `start`,
which a failed call had left. -/
def TookOver (k : Kind) (cj : Cjson) (e : ℕ → Event) (o : Owner) (n c start : ℕ) : Prop :=
  ∃ m < n, ∃ call want r, e m = .proceed c ∧ (worldAt k cj e m).calls c = some call ∧
    call.owner = o ∧ call.stage = .swapping want ∧
    ((worldAt k cj e m).objects o).retryPop = some r ∧ r.start = start

theorem TookOver.succ {n c start : ℕ} (h : TookOver k cj e o n c start) :
    TookOver k cj e o (n + 1) c start := by
  obtain ⟨m, hm, htook⟩ := h
  exact ⟨m, Nat.lt_succ_of_lt hm, htook⟩

/-- At most one call of `o` is about to pop. -/
def World.Alone (w : World) (o : Owner) : Prop :=
  ∀ c c' call call', w.calls c = some call → w.calls c' = some call' → call.owner = o →
    call'.owner = o → call.stage.want ≠ none → call'.stage.want ≠ none → c = c'

theorem InTurn.alone (h : InTurn k cj e o) (n : ℕ) : (worldAt k cj e n).Alone o := by
  induction n with
  | zero =>
      intro c c' call call' hcall
      cases hcall
  | succ n ih =>
      rw [worldAt_succ]
      have hchange := World.step_change k cj (worldAt k cj e n) (e n)
      generalize (worldAt k cj e n).step k cj (e n) = w' at hchange ⊢
      cases hchange with
      | none => exact ih
      | set o' f _ _ => exact ih
      | issue inv _ => exact ih
      | run i env m _ _ => exact ih
      | take c₀ call₀ t hturn =>
          -- of two calls, the one that takes the turn was about to pop before it
          have hbefore : ∀ c call, c ≠ c₀ → (worldAt k cj e n).calls c = some call →
              call.owner = o → call.stage.want ≠ none → call₀.owner = o →
              t.stage.want ≠ none → False := by
            intro c call hne hcall howner hwant howner₀ hwant₀
            rcases hturn.wants hwant₀ with ⟨hcall₀, hwas⟩ | ⟨consumer, hev, hpops⟩
            · exact hne (ih c c₀ call call₀ hcall hcall₀ howner howner₀ hwant hwas)
            · rw [howner₀] at hev
              exact hwant (h.starts n c₀ consumer call₀.kind hev hpops c call hcall howner)
          intro c c' call call' hcall hcall' howner howner' hwant hwant'
          by_contra hne
          by_cases hc : c = c₀
          · subst hc
            rw [World.take_call_self] at hcall
            rw [World.take_call_of_ne _ call₀ t (Ne.symm hne)] at hcall'
            cases hcall
            exact hbefore c' call' (Ne.symm hne) hcall' howner' hwant' howner hwant
          · rw [World.take_call_of_ne _ call₀ t hc] at hcall
            by_cases hc' : c' = c₀
            · subst hc'
              rw [World.take_call_self] at hcall'
              cases hcall'
              exact hbefore c call hc hcall howner hwant howner' hwant'
            · rw [World.take_call_of_ne _ call₀ t hc'] at hcall'
              exact hne (ih c c' call call' hcall hcall' howner howner' hwant hwant')

/-- A call pops under the newest reservation, or one it took over. -/
theorem newest_or_tookOver (h : InTurn k cj e o) {n c : ℕ} {call : Call} {r : Reservation}
    (hcall : (worldAt k cj e n).calls c = some call) (howner : call.owner = o)
    (hr : call.stage.under = some r) :
    r.start = ((worldAt k cj e n).objects o).ackSeq ∨ TookOver k cj e o n c r.start := by
  induction n generalizing call with
  | zero => cases hcall
  | succ n ih =>
      have halone := h.alone n
      rw [worldAt_succ] at hcall ⊢
      have hchange := World.step_change k cj (worldAt k cj e n) (e n)
      generalize (worldAt k cj e n).step k cj (e n) = w' at hchange hcall ⊢
      cases hchange with
      | none => exact (ih hcall howner hr).imp_right TookOver.succ
      | set o' f hseq _ =>
          rw [World.set_keeps _ o' o (·.ackSeq) hseq]
          exact (ih hcall howner hr).imp_right TookOver.succ
      | issue inv _ => exact (ih hcall howner hr).imp_right TookOver.succ
      | run i env m _ _ => exact (ih hcall howner hr).imp_right TookOver.succ
      | take c₀ call₀ t hturn =>
          by_cases hc : c = c₀
          · subst hc
            rw [World.take_call_self] at hcall
            cases hcall
            subst howner
            rw [World.take_object_self]
            cases hturn.obtains hr with
            | held hbefore hstage hseq =>
                rw [hseq]
                exact (ih hbefore rfl hstage).imp_right TookOver.succ
            | kept want hev hbefore hstage hkept =>
                exact Or.inr ⟨n, n.lt_succ_self, call₀, want, r, hev, hbefore, rfl, hstage, hkept,
                  rfl⟩
            | fresh hseq => exact Or.inl hseq
          · rw [World.take_call_of_ne _ call₀ t hc] at hcall
            have hsame : ((World.take (worldAt k cj e n) c₀ call₀ t).objects o).ackSeq =
                ((worldAt k cj e n).objects o).ackSeq := by
              refine World.take_keeps _ c₀ call₀ t o (·.ackSeq) fun ho => ?_
              -- a call that took a number would be about to pop beside this one
              have hwant : call₀.stage.want = none := by
                by_contra hwant
                have hbefore := hturn.orderly.1.resolve_left fun hover => by
                  rw [hover] at hwant
                  exact hwant rfl
                refine hc (halone c c₀ call call₀ hcall hbefore howner ho.symm ?_ hwant)
                rw [Stage.want_of_under hr]
                exact Option.some_ne_none _
              rw [ho]
              exact hturn.ackSeq_eq hwant
            rw [hsame]
            exact (ih hcall howner hr).imp_right TookOver.succ

/-- The pop of a call that waits for its reply. -/
theorem RunsFor.waiting {n c i : ℕ} {env : Env} {m : Sent} {p : PopCall} (h : RunsFor k cj e n c)
    (hev : e n = .run i env) (hsent : (worldAt k cj e n).sent[i]? = some m)
    (hinv : m.inv = .pop p) (howner : p.args.owner = o) :
    ∃ call r, m.call = some c ∧ (worldAt k cj e n).calls c = some call ∧ call.owner = o ∧
      call.stage = .popping r i ∧ p.args.start = r.start := by
  obtain ⟨i', env', m', call, hev', hsent', hc, hcall, hawaits⟩ := h
  cases hev.symm.trans hev'
  cases hsent.symm.trans hsent'
  obtain ⟨inv, hown, hsends⟩ := waits_for_own k cj e hcall hawaits
  obtain rfl : m = ⟨some c, inv⟩ := Option.some.inj (hsent.symm.trans hown)
  subst hinv
  refine ⟨call, ?_⟩
  cases hstage : call.stage with
  | popping r i' =>
      rw [Call.Sends, hstage] at hsends
      rw [hstage] at hawaits
      obtain ⟨vt, hbt, hp⟩ := hsends
      cases hp
      cases hawaits
      exact ⟨r, rfl, hcall, howner, rfl, rfl⟩
  | requeueing i' =>
      rw [Call.Sends, hstage] at hsends
      cases hkind : call.kind with
      | tick => simp [hkind] at hsends
      | requeue => simp [hkind] at hsends
      | close => simp [hkind] at hsends
      | dequeue => simp [hkind] at hsends
      | dequeueBatch slots => simp [hkind] at hsends
  | _ =>
      rw [hstage] at hawaits
      cases hawaits

/-- A pop that runs on time is that of a call that waits for its reply. -/
theorem OnTime.waiting (h : OnTime k cj e o) {n i : ℕ} {env : Env} {m : Sent} {p : PopCall}
    (hev : e n = .run i env) (hsent : (worldAt k cj e n).sent[i]? = some m)
    (hinv : m.inv = .pop p) (howner : p.args.owner = o) :
    ∃ c call r, m.call = some c ∧ (worldAt k cj e n).calls c = some call ∧ call.owner = o ∧
      call.stage = .popping r i ∧ p.args.start = r.start := by
  have hrun : scriptRuns k cj e n = some ⟨.pop p, env⟩ := by
    rw [scriptRuns, hev, World.scriptRun, hsent, ← hinv]
    rfl
  obtain ⟨c, hruns⟩ := h.runs n p env hrun howner
  exact ⟨c, hruns.waiting hev hsent hinv howner⟩

/-- A pop that runs for a call that waits is under the newest reservation, or
one that call took over. -/
theorem InTurn.run_newest_or_tookOver (h : InTurn k cj e o) {n c : ℕ} {env : Env} {p : PopCall}
    (hrun : scriptRuns k cj e n = some ⟨.pop p, env⟩) (howner : p.args.owner = o)
    (hruns : RunsFor k cj e n c) :
    p.args.start = ((worldAt k cj e n).objects o).ackSeq ∨
      TookOver k cj e o n c p.args.start := by
  obtain ⟨i, m, hev, hsent, hinv⟩ := event_of_run k cj e hrun
  obtain ⟨call, r, _, hcall, hcallOwner, hstage, hstart⟩ := hruns.waiting hev hsent hinv howner
  have hunder : call.stage.under = some r := by
    rw [hstage]
    rfl
  rw [hstart]
  exact newest_or_tookOver h hcall hcallOwner hunder

end Runs

end Redisq.Model
