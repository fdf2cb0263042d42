import Redisq.Verified.Calls

/-!
# Who is woken for requeued items

A sweep, a `Close` and a `RequeueNackedItems` put items back on the queue in
a script, and the callback of a distributed queue wakes idle consumers for
them once the call has the reply.  Four things come between: the reply may be
lost, `RequeueNackedItems` drops the count, the callback is set only when the
constructor's first sweep is over, and a stopped notification sends nothing.
`requeue_wakes_iff` says that nothing else does.
-/

namespace Redisq.Model

/-- A call waits for the reply to script `i`, or is past that. -/
def Stage.Past (i : ℕ) (stage : Stage) : Prop :=
  stage.awaits = some i ∨ stage.settled = true

/-! ## Turns -/

namespace Call

variable {q : QueueObject} {call : Call} {t : Turn} {next i n : ℕ} {reply : Reply}

theorem proceed_callback (h : call.proceed q next = some t) :
    t.object.onRequeue = q.onRequeue ∧ t.object.stopped = q.stopped := by
  cases proceeds_of_proceed h with
  | _ => exact ⟨rfl, rfl⟩

/-- A step of a call's own, past waiting, sends nothing; before it, what it
sends is a pop it then waits for. -/
theorem proceed_sends (h : call.proceed q next = some t) :
    (∀ i, call.stage.Past i → t.stage.settled = true ∧ t.sends = none) ∧
      ∀ inv, t.sends = some inv → (∃ p, inv = .pop p) ∧ t.stage.awaits = some next := by
  have hnot : ∀ stage, call.stage = stage → stage.awaits = none → stage.settled = false →
      ∀ i, ¬call.stage.Past i := by
    rintro stage hstage hawaits hsettled i hpast
    simp [Stage.Past, hstage, hawaits, hsettled] at hpast
  have hover : t.stage.settled = true → t.sends = none →
      (∀ i, call.stage.Past i → t.stage.settled = true ∧ t.sends = none) ∧
        ∀ inv, t.sends = some inv → (∃ p, inv = .pop p) ∧ t.stage.awaits = some next := by
    intro hsettled hnone
    refine ⟨fun _ _ => ⟨hsettled, hnone⟩, fun inv hinv => ?_⟩
    rw [hnone] at hinv
    cases hinv
  cases proceeds_of_proceed h with
  | counts taken remaining run popLen hstage => exact hover rfl rfl
  | counted taken remaining run hstage => exact hover rfl rfl
  | sizes popLen hstage => exact hover rfl rfl
  | pops r vt hstage =>
      refine ⟨fun i hpast => absurd hpast (hnot _ hstage rfl rfl i), fun inv hinv => ?_⟩
      cases hinv
      exact ⟨⟨_, rfl⟩, rfl⟩
  | swapsNone _ hstage | swapsLarge _ _ hstage | swaps _ _ hstage | putsBack _ _ hstage
  | adds _ hstage | times _ hstage =>
      refine ⟨fun i hpast => absurd hpast (hnot _ hstage rfl rfl i), fun inv hinv => ?_⟩
      cases hinv

/-- What a call sends at once it waits for, and it is not a wake. -/
theorem begin_sends {inv : Invocation} (h : (call.begin q next).sends = some inv) :
    (call.begin q next).stage.awaits = some next ∧ ∀ n, inv ≠ .wakeIdle n := by
  unfold begin at h ⊢
  cases hkind : call.kind with
  | tick =>
      rw [hkind] at h
      cases h
      exact ⟨rfl, by simp⟩
  | requeue =>
      rw [hkind] at h
      cases h
      exact ⟨rfl, by simp⟩
  | close =>
      simp only [hkind] at h ⊢
      split at h
      · cases h
      · next hpopped =>
          cases h
          rw [if_neg hpopped]
          exact ⟨rfl, by simp⟩
  | dequeue =>
      rw [hkind] at h
      cases h
  | dequeueBatch slots =>
      rw [hkind] at h
      cases h

/-- The wake of a call. -/
theorem read_wakes (h : call.read q i reply = some t) :
    t.sends = some (.wakeIdle n) ↔ (∃ i', call.stage = .requeueing i') ∧ call.kind.tells = true ∧
      q.onRequeue = true ∧ q.stopped = false ∧ 0 < n ∧ requeued reply = n := by
  unfold read at h
  split at h
  · next r i' hstage =>
      split at h
      · cases h
        simp [hstage]
      · cases h
  · next i' hstage =>
      split at h
      · cases h
        simp only [hstage]
        split
        · next hcond =>
            obtain ⟨htells, hset, hrunning, hpos⟩ := hcond
            rw [Bool.not_eq_true] at hrunning
            simp only [Option.some.injEq, Invocation.wakeIdle.injEq, htells, hset, hrunning,
              true_and, Stage.requeueing.injEq, exists_eq']
            constructor
            · rintro rfl
              exact ⟨hpos, rfl⟩
            · exact And.right
        · next hcond =>
            simp only [reduceCtorEq, false_iff]
            rintro ⟨_, htells, hset, hrunning, hpos, rfl⟩
            exact hcond ⟨htells, hset, by rw [hrunning]; decide, hpos⟩
      · cases h
  · cases h

end Call

namespace World

variable {w : World} {c i n : ℕ} {call : Call} {t : Turn} {ev : Event} {o : Owner}

theorem Turns.callback (h : w.Turns ev c call t) :
    t.object.onRequeue = (w.objects call.owner).onRequeue ∧
      t.object.stopped = (w.objects call.owner).stopped := by
  cases h with
  | begins c o consumer kind hnew hopen =>
      rcases Call.begin_object (w.objects o) w.sent.length ⟨o, consumer, kind, .ended⟩ with h | h
      · rw [h]
        exact ⟨rfl, rfl⟩
      · rw [h]
        exact ⟨rfl, rfl⟩
  | proceeds c call t hcall h => exact Call.proceed_callback h
  | reads c j call i reply t hcall hlog h =>
      rw [Call.read_object h]
      exact ⟨rfl, rfl⟩
  | fails c call t hcall h =>
      rcases Call.fail_object h with h | ⟨r, h⟩
      · rw [h]
        exact ⟨rfl, rfl⟩
      · rw [h]
        exact ⟨rfl, rfl⟩

/-- A callback that is set was set before or is just being set, and so a
notification that is stopped. -/
theorem callback_step (k : Kind) (cj : Cjson) (w : World) (ev : Event) (o : Owner) :
    (((w.step k cj ev).objects o).onRequeue = true ↔
        (w.objects o).onRequeue = true ∨ ev = .setOnRequeue o) ∧
      (((w.step k cj ev).objects o).stopped = true ↔
        (w.objects o).stopped = true ∨ ev = .stop o) := by
  have hturn : ((w.turn ev).objects o).onRequeue = (w.objects o).onRequeue ∧
      ((w.turn ev).objects o).stopped = (w.objects o).stopped := by
    unfold turn
    cases h : w.turnOf ev with
    | none => exact ⟨rfl, rfl⟩
    | some x =>
        obtain ⟨c, call, t⟩ := x
        have hcallback := (turns_of_turnOf h).callback
        exact ⟨w.take_keeps c call t o (·.onRequeue) fun ho => ho ▸ hcallback.1,
          w.take_keeps c call t o (·.stopped) fun ho => ho ▸ hcallback.2⟩
  have hset : ∀ o' f, (∀ q : QueueObject, (f q).onRequeue = q.onRequeue) →
      (∀ q : QueueObject, (f q).stopped = q.stopped) →
      ((w.set o' f).objects o).onRequeue = (w.objects o).onRequeue ∧
        ((w.set o' f).objects o).stopped = (w.objects o).stopped := fun o' f hset hstop =>
    ⟨w.set_keeps o' o (·.onRequeue) hset, w.set_keeps o' o (·.stopped) hstop⟩
  cases ev with
  | setVisibilityTimeout o' d =>
      simp [step, hset o' (fun q => { q with visibilityTimeout := d }) (fun _ => rfl) fun _ => rfl]
  | setHeartbeatTimeout o' d =>
      simp [step, hset o' (QueueObject.setHeartbeatTimeout d) (fun _ => rfl) fun _ => rfl]
  | setOnRequeue o' =>
      by_cases ho : o = o'
      · subst ho
        simp [step]
      · simp [step, set_of_ne w _ ho, Ne.symm ho]
  | stop o' =>
      by_cases ho : o = o'
      · subst ho
        simp [step]
      · simp [step, set_of_ne w _ ho, Ne.symm ho]
  | start c o' consumer kind => simp [step, hturn]
  | proceed c => simp [step, hturn]
  | read c j => simp [step, hturn]
  | fail c => simp [step, hturn]
  | issue inv =>
      simp only [step]
      split <;> simp
  | run i env =>
      simp only [step]
      split <;> simp

/-- A wake is sent by a call that reads a reply. -/
theorem wake_of_step (k : Kind) (cj : Cjson) (w : World) (ev : Event)
    (h : (w.step k cj ev).sent = w.sent ++ [⟨some c, .wakeIdle n⟩]) :
    ∃ j call i reply, ev = .read c j ∧ w.calls c = some call ∧ w.log[j]? = some (i, reply) ∧
      call.stage = .requeueing i ∧ call.kind.tells = true ∧
      (w.objects call.owner).onRequeue = true ∧ (w.objects call.owner).stopped = false ∧
      0 < n ∧ Call.requeued reply = n := by
  have hchange := World.step_change k cj w ev
  generalize w.step k cj ev = w' at hchange h
  cases hchange with
  | none => simp at h
  | set o f _ _ => simp [World.set] at h
  | issue inv _ => simp at h
  | run i env m _ _ => simp at h
  | take c' call t hturn =>
      obtain ⟨inv, hsends, hinv⟩ : ∃ inv, t.sends = some inv ∧
          (⟨some c', inv⟩ : Sent) = ⟨some c, .wakeIdle n⟩ := by
        have hnew := List.append_cancel_left h
        cases hsends : t.sends with
        | none => simp [hsends] at hnew
        | some inv => exact ⟨inv, rfl, by simpa [hsends] using hnew⟩
      cases hinv
      cases hturn with
      | begins c o consumer kind hnew hopen => exact absurd rfl ((Call.begin_sends hsends).2 n)
      | proceeds c call t hcall hproceed =>
          obtain ⟨⟨p, hp⟩, _⟩ := (Call.proceed_sends hproceed).2 _ hsends
          cases hp
      | reads c j call i reply t hcall hlog hread =>
          obtain ⟨⟨i', hstage⟩, hwake⟩ := (Call.read_wakes hread).mp hsends
          have hawaits := Call.awaits_of_read hread
          rw [hstage] at hawaits
          cases hawaits
          exact ⟨j, call, i, reply, rfl, hcall, hlog, hstage, hwake⟩
      | fails c call t hcall hfail =>
          rw [(Call.fail_settled hfail).2] at hsends
          cases hsends

/-- A call that sent a script, other than a wake, waits for its reply or is
past that. -/
def Past (w : World) : Prop :=
  ∀ i c inv, w.sent[i]? = some ⟨some c, inv⟩ → (∀ n, inv ≠ .wakeIdle n) →
    ∃ call, w.calls c = some call ∧ call.stage.Past i

/-- A call that takes a turn stays past what it sent. -/
theorem Turns.past (h : w.Turns ev c call t) (hcall : w.calls c = some call)
    (hpast : call.stage.Past i) : t.stage.Past i := by
  cases h with
  | begins c o consumer kind hnew hopen =>
      rw [hnew] at hcall
      cases hcall
  | proceeds c call t _ h => exact Or.inr ((Call.proceed_sends h).1 i hpast).1
  | reads c j call i reply t _ hlog h => exact Or.inr (Call.read_settled h).1
  | fails c call t _ h => exact Or.inr (Call.fail_settled h).1

theorem Turns.awaits_of_sends (h : w.Turns ev c call t) {inv : Invocation}
    (hsends : t.sends = some inv) (hwake : ∀ n, inv ≠ .wakeIdle n) :
    t.stage.awaits = some w.sent.length := by
  cases h with
  | begins c o consumer kind hnew hopen => exact (Call.begin_sends hsends).1
  | proceeds c call t _ h => exact ((Call.proceed_sends h).2 inv hsends).2
  | reads c j call i reply t _ hlog h =>
      obtain ⟨n, hn⟩ := (Call.read_settled h).2 inv hsends
      exact absurd hn (hwake n)
  | fails c call t _ h =>
      rw [(Call.fail_settled h).2] at hsends
      cases hsends

theorem Turns.calls (h : w.Turns ev c call t) : w.calls c = none ∨ w.calls c = some call := by
  cases h with
  | begins c o consumer kind hnew hopen => exact Or.inl hnew
  | proceeds c call t hcall h => exact Or.inr hcall
  | reads c j call i reply t hcall hlog h => exact Or.inr hcall
  | fails c call t hcall h => exact Or.inr hcall

theorem Past.step (k : Kind) (cj : Cjson) (hw : w.Past) (ev : Event) : (w.step k cj ev).Past := by
  have hchange := World.step_change k cj w ev
  generalize w.step k cj ev = w' at hchange ⊢
  cases hchange with
  | none => exact hw
  | set o f _ _ => exact hw
  | run i env m _ _ => exact hw
  | issue inv _ =>
      intro i c inv' hsent hwake
      rw [List.getElem?_append] at hsent
      split at hsent
      · exact hw i c inv' hsent hwake
      · rw [List.getElem?_singleton] at hsent
        split at hsent <;> cases hsent
  | take c' call t hturn =>
      intro i c inv hsent hwake
      have hold : w.sent[i]? = some ⟨some c, inv⟩ →
          ∃ call', (w.take c' call t).calls c = some call' ∧ call'.stage.Past i := fun h => by
        obtain ⟨call', hcall', hpast⟩ := hw i c inv h hwake
        by_cases hc : c = c'
        · subst hc
          refine ⟨_, take_call_self w c call t, ?_⟩
          rcases hturn.calls with hnone | hsome
          · rw [hnone] at hcall'
            cases hcall'
          · rw [hsome] at hcall'
            cases hcall'
            exact hturn.past hsome hpast
        · exact ⟨call', by rwa [take_call_of_ne w call t hc], hpast⟩
      simp only [World.take] at hsent
      rw [List.getElem?_append] at hsent
      split at hsent
      · exact hold hsent
      · next hlast =>
          cases hsends : t.sends with
          | none => simp [hsends] at hsent
          | some inv' =>
              simp only [hsends, Option.map_some, Option.toList_some] at hsent
              rw [List.getElem?_singleton] at hsent
              split at hsent
              · cases hsent
                have hi : i = w.sent.length := by omega
                exact ⟨_, take_call_self w c' call t,
                  Or.inl (hi ▸ hturn.awaits_of_sends hsends hwake)⟩
              · cases hsent

end World

/-! ## Runs -/

section Runs

variable (k : Kind) (cj : Cjson) (e : ℕ → Event)

/-- A call waits for the script it sent, and for no other. -/
theorem awaits_unique {m c i i' : ℕ} {call : Call} {inv : Invocation}
    (hcall : (worldAt k cj e m).calls c = some call) (hawaits : call.stage.awaits = some i')
    (hsent : (worldAt k cj e m).sent[i]? = some ⟨some c, inv⟩)
    (hwake : ∀ n, inv ≠ .wakeIdle n) : i' = i := by
  have hpast : (worldAt k cj e m).Past :=
    Trajectory.invariant (I := World.Past) (fun i c inv h => by cases h)
      (fun n hn => hn.step k cj (e n)) m
  obtain ⟨call', hcall', hi⟩ := hpast i c inv hsent hwake
  rw [hcall] at hcall'
  cases hcall'
  rcases hi with hi | hsettled
  · exact Option.some.inj (hawaits.symm.trans hi)
  · cases hstage : call.stage <;> simp [hstage, Stage.awaits, Stage.settled] at hawaits hsettled

/-- What one event switches on, and nothing off, is on from that event on. -/
theorem switched_iff {g : QueueObject → Bool} {ev : Event} {o : Owner}
    (hoff : g QueueObject.new = false)
    (hstep : ∀ w ev', g ((World.step k cj w ev').objects o) = true ↔
      g (w.objects o) = true ∨ ev' = ev) (m : ℕ) :
    g ((worldAt k cj e m).objects o) = true ↔ ∃ s < m, e s = ev := by
  induction m with
  | zero =>
      constructor
      · intro h
        exact absurd (hoff.symm.trans h) (by decide)
      · rintro ⟨s, hs, _⟩
        exact absurd hs (Nat.not_lt_zero s)
  | succ m ih =>
      rw [worldAt_succ, hstep, ih]
      constructor
      · rintro (⟨s, hs, hset⟩ | hset)
        · exact ⟨s, Nat.lt_succ_of_lt hs, hset⟩
        · exact ⟨m, Nat.lt_succ_self m, hset⟩
      · rintro ⟨s, hs, hset⟩
        rcases Nat.lt_succ_iff_lt_or_eq.mp hs with hlt | rfl
        · exact Or.inl ⟨s, hlt, hset⟩
        · exact Or.inr hset

/-- The callback is set from the event that sets it on. -/
theorem onRequeue_iff (m : ℕ) (o : Owner) :
    ((worldAt k cj e m).objects o).onRequeue = true ↔ ∃ s < m, e s = .setOnRequeue o :=
  switched_iff k cj e rfl (fun w ev => (w.callback_step k cj ev o).1) m

/-- Until it is stopped, a notification is not. -/
theorem stopped_iff (m : ℕ) (o : Owner) :
    ((worldAt k cj e m).objects o).stopped = false ↔ ∀ s < m, e s ≠ .stop o := by
  rw [← Bool.not_eq_true, not_congr
    (switched_iff k cj e (g := (·.stopped)) rfl (fun w ev => (w.callback_step k cj ev o).2) m)]
  push Not
  exact Iff.rfl

/-- Only the three requeues say that items went back. -/
theorem requeue_of_reply {s : Store} {r : ScriptRun} (h : 0 < Call.requeued (r.reply k cj s)) :
    (∃ vt, r.inv = .requeue vt) ∨ (∃ o hbt, r.inv = .sweep o hbt) ∨ ∃ o, r.inv = .release o := by
  obtain ⟨inv, env⟩ := r
  cases inv with
  | requeue vt => exact Or.inl ⟨vt, rfl⟩
  | sweep o hbt => exact Or.inr (Or.inl ⟨o, hbt, rfl⟩)
  | release o => exact Or.inr (Or.inr ⟨o, rfl⟩)
  | pop p =>
      simp only [ScriptRun.reply, ScriptRun.exec, Invocation.script, popCall_exec] at h
      split at h <;> exact absurd h (lt_irrefl 0)
  | _ =>
      simp only [ScriptRun.reply, ScriptRun.exec, Invocation.script, ↓Script.exec_bind,
        Script.exec_pure] at h
      exact absurd h (lt_irrefl 0)

/-- Script `i`, sent by call `c`, runs at event `m` and puts `n ≥ 1` items
back on the queue. -/
def PutsBack (m i c n : ℕ) (r : ScriptRun) : Prop :=
  (∃ j, RunsAs k cj e m i j r) ∧ (worldAt k cj e m).sent[i]? = some ⟨some c, r.inv⟩ ∧ 0 < n ∧
    Call.requeued (r.reply k cj (worldAt k cj e m).store) = n

/-- In event `l` call `c` sends a wake of up to `n` idle consumers. -/
def WakesAt (l c n : ℕ) : Prop :=
  (worldAt k cj e (l + 1)).sent = (worldAt k cj e l).sent ++ [⟨some c, .wakeIdle n⟩]

/-- In event `l` call `c` of an object of `o`'s gets a reply to script `i`
that says `n` items went back. -/
def GetsCount (l i c n : ℕ) (o : Owner) : Prop :=
  ∃ j call reply, e l = .read c j ∧ (worldAt k cj e l).calls c = some call ∧ call.owner = o ∧
    call.stage.awaits = some i ∧ (worldAt k cj e l).log[j]? = some (i, reply) ∧
    Call.requeued reply = n

/-- Every script run by which a call on `o` puts items back on the queue is
followed, in the same call, by a wake of up to as many consumers. -/
def EveryRequeueWakes (o : Owner) : Prop :=
  ∀ m i c n r call, PutsBack k cj e m i c n r → (worldAt k cj e m).calls c = some call →
    call.owner = o → ∃ l > m, WakesAt k cj e l c n

variable {k cj e} {m i c n : ℕ} {r : ScriptRun}

theorem PutsBack.ne_wakeIdle (h : PutsBack k cj e m i c n r) (n' : ℕ) : r.inv ≠ .wakeIdle n' := by
  obtain ⟨_, _, hpos, hn⟩ := h
  rcases requeue_of_reply k cj (hn ▸ hpos) with ⟨_, h⟩ | ⟨_, _, h⟩ | ⟨_, h⟩ <;> simp [h]

/-- A call that waits for the script that put items back waits in a sweep, a
`RequeueNackedItems` or a `Close`, whichever it is. -/
theorem PutsBack.stage (h : PutsBack k cj e m i c n r) {l : ℕ} (hml : m ≤ l) {call : Call}
    (hcall : (worldAt k cj e l).calls c = some call) (hawaits : call.stage.awaits = some i) :
    call.stage = .requeueing i ∧ (call.kind.tells = true ↔ ∀ vt, r.inv ≠ .requeue vt) := by
  obtain ⟨_, hsent, hpos, hn⟩ := h
  obtain ⟨inv, hsent', hsends⟩ := waits_for_own k cj e hcall hawaits
  have hlater := sent_of_le k cj e hml hsent
  rw [hsent'] at hlater
  cases hlater
  unfold Call.Sends at hsends
  cases hstage : call.stage with
  | popping res i' =>
      rw [hstage] at hsends
      obtain ⟨vt, hbt, hinv⟩ := hsends
      rcases requeue_of_reply k cj (hn ▸ hpos) with ⟨_, h⟩ | ⟨_, _, h⟩ | ⟨_, h⟩ <;>
        simp [h] at hinv
  | requeueing i' =>
      rw [hstage] at hawaits hsends
      cases hawaits
      refine ⟨rfl, ?_⟩
      cases hkind : call.kind with
      | tick =>
          simp only [hkind] at hsends
          obtain ⟨hbt, hinv⟩ := hsends
          simp [CallKind.tells, hinv]
      | requeue =>
          simp only [hkind] at hsends
          obtain ⟨vt, hinv⟩ := hsends
          simp [CallKind.tells, hinv]
      | close =>
          simp only [hkind] at hsends
          simp [CallKind.tells, hsends]
      | dequeue => simp [hkind] at hsends
      | dequeueBatch slots => simp [hkind] at hsends
  | _ => simp [hstage] at hsends

/-- A script run that puts items back on the queue is followed, in the same
call, by a wake of as many if and only if it is not that of a
`RequeueNackedItems`, the call gets the count in a reply, and by then the
object's callback is set and its notification not stopped. -/
theorem requeue_wakes_iff (h : PutsBack k cj e m i c n r) :
    (∃ l > m, WakesAt k cj e l c n) ↔
      (∀ vt, r.inv ≠ .requeue vt) ∧
        ∃ l > m, ∃ o, GetsCount k cj e l i c n o ∧ (∃ s < l, e s = .setOnRequeue o) ∧
          ∀ s < l, e s ≠ .stop o := by
  constructor
  · rintro ⟨l, hml, hwakes⟩
    obtain ⟨j, call, i', reply, hev, hcall, hlog, hstage, htells, hset, hrunning, _, hn⟩ :=
      World.wake_of_step k cj _ _ hwakes
    have hawaits : call.stage.awaits = some i' := by rw [hstage]; rfl
    obtain rfl : i' = i :=
      awaits_unique k cj e hcall hawaits (sent_of_le k cj e hml.le h.2.1) h.ne_wakeIdle
    exact ⟨(h.stage hml.le hcall hawaits).2.mp htells, l, hml, call.owner,
      ⟨j, call, reply, hev, hcall, rfl, hawaits, hlog, hn⟩, (onRequeue_iff k cj e l _).mp hset,
      (stopped_iff k cj e l _).mp hrunning⟩
  · rintro ⟨hnot, l, hml, o, ⟨j, call, reply, hev, hcall, rfl, hawaits, hlog, hn⟩, hset, hrunning⟩
    refine ⟨l, hml, ?_⟩
    obtain ⟨hstage, htells⟩ := h.stage hml.le hcall hawaits
    have hcallback := (onRequeue_iff k cj e l call.owner).mpr hset
    have hsends := (stopped_iff k cj e l call.owner).mpr hrunning
    have hpos : n ≠ 0 := h.2.2.1.ne'
    have hread : call.read ((worldAt k cj e l).objects call.owner) i reply =
        some ⟨(worldAt k cj e l).objects call.owner, .ended, some (.wakeIdle n)⟩ := by
      simp [Call.read, hstage, htells.mpr hnot, hcallback, hsends, hpos, hn]
    rw [WakesAt, worldAt_succ, hev]
    simp [World.step, World.turn, World.turnOf, hcall, hlog, hread, World.take]

/-! ## The constructor's first sweep -/

variable (k cj e) in
/-- Object `o` of a distributed queue is constructed: its first sweep is call
`c₀`, which is over when event `s` sets the callback. -/
structure Constructed (o : Owner) (c₀ s : ℕ) : Prop where
  set : e s = .setOnRequeue o
  first : ∀ s', e s' = .setOnRequeue o → s ≤ s'
  swept : (worldAt k cj e s).calls c₀ = some ⟨o, true, .tick, .ended⟩

/-- A call that is over stays over. -/
theorem World.over_step (w : World) (ev : Event) {c : ℕ} {call : Call}
    (hcall : w.calls c = some call) (hover : call.stage = .ended) :
    (w.step k cj ev).calls c = some call := by
  have hchange := World.step_change k cj w ev
  generalize w.step k cj ev = w' at hchange ⊢
  cases hchange with
  | none => exact hcall
  | set o f _ _ => exact hcall
  | issue inv _ => exact hcall
  | run i env m _ _ => exact hcall
  | take c' call' t hturn =>
      by_cases hc : c = c'
      · subst hc
        cases hturn with
        | begins c o consumer kind hnew hopen =>
            rw [hcall] at hnew
            cases hnew
        | proceeds c call' t hcall' h =>
            rw [hcall] at hcall'
            cases hcall'
            simp [Call.proceed, hover] at h
        | reads c j call' i reply t hcall' hlog h =>
            rw [hcall] at hcall'
            cases hcall'
            simp [Call.read, hover] at h
        | fails c call' t hcall' h =>
            rw [hcall] at hcall'
            cases hcall'
            simp [Call.fail, hover] at h
      · rwa [World.take_call_of_ne w call' t hc]

theorem over_of_le {l : ℕ} {call : Call} (hml : m ≤ l)
    (hcall : (worldAt k cj e m).calls c = some call) (hover : call.stage = .ended) :
    (worldAt k cj e l).calls c = some call := by
  induction l, hml using Nat.le_induction with
  | base => exact hcall
  | succ l _ ih =>
      rw [worldAt_succ]
      exact World.over_step _ _ ih hover

/-- Calls do not change hands. -/
theorem World.owner_step (k : Kind) (cj : Cjson) (w : World) (ev : Event) {c : ℕ} {call : Call}
    (hcall : w.calls c = some call) :
    ∃ call', (w.step k cj ev).calls c = some call' ∧ call'.owner = call.owner := by
  have hchange := World.step_change k cj w ev
  generalize w.step k cj ev = w' at hchange ⊢
  cases hchange with
  | none => exact ⟨call, hcall, rfl⟩
  | set o f _ _ => exact ⟨call, hcall, rfl⟩
  | issue inv _ => exact ⟨call, hcall, rfl⟩
  | run i env m _ _ => exact ⟨call, hcall, rfl⟩
  | take c' call' t hturn =>
      by_cases hc : c = c'
      · subst hc
        refine ⟨_, World.take_call_self w c call' t, ?_⟩
        rcases hturn.calls with hnone | hsome
        · rw [hcall] at hnone
          cases hnone
        · rw [hcall] at hsome
          cases hsome
          rfl
      · exact ⟨call, by rwa [World.take_call_of_ne w call' t hc], rfl⟩

theorem owner_of_le {l : ℕ} {call call' : Call} (hml : m ≤ l)
    (hcall : (worldAt k cj e m).calls c = some call)
    (hcall' : (worldAt k cj e l).calls c = some call') : call'.owner = call.owner := by
  obtain ⟨call'', hlater, howner⟩ :
      ∃ call'', (worldAt k cj e l).calls c = some call'' ∧ call''.owner = call.owner := by
    clear hcall'
    induction l, hml using Nat.le_induction with
    | base => exact ⟨call, hcall, rfl⟩
    | succ l _ ih =>
        obtain ⟨call'', hlater, howner⟩ := ih
        obtain ⟨later, hlast, hsame⟩ := World.owner_step k cj _ (e l) hlater
        exact ⟨later, by rw [worldAt_succ, hlast], hsame.trans howner⟩
  rw [hcall'] at hlater
  cases hlater
  exact howner

/-- However many items the constructor's first sweep requeues, it wakes
nobody. -/
theorem first_sweep_wakes_nobody {o : Owner} {c₀ s : ℕ} (h : Constructed k cj e o c₀ s)
    (l n : ℕ) : ¬WakesAt k cj e l c₀ n := by
  intro hwakes
  obtain ⟨j, call, i, reply, _, hcall, _, hstage, _, hset, _⟩ :=
    World.wake_of_step k cj (worldAt k cj e l) (e l) hwakes
  rcases Nat.lt_or_ge l s with hls | hsl
  · -- The callback is not set yet.
    obtain ⟨s', hs', hev⟩ := (onRequeue_iff k cj e l call.owner).mp hset
    rw [← owner_of_le hls.le hcall h.swept] at hev
    exact absurd (h.first s' hev) (by omega)
  · have hover := over_of_le hsl h.swept rfl
    rw [hcall] at hover
    cases hover
    cases hstage

end Runs

/-- A consumer pops an item and dies; the visibility timeout passes; a
process starts, and its first sweep requeues the item. -/
def restarted : ℕ → Event
  | 0 => .issue (.push ⟨[97], 0, 0, true, none⟩)
  | 1 => .run 0 (.plain 1 fun _ => 0)
  | 2 => .start 0 ownerA true .dequeue
  | 3 => .proceed 0
  | 4 => .proceed 0
  | 5 => .proceed 0
  | 6 => .proceed 0
  | 7 => .run 1 (.plain 2 fun _ => 0)
  | 8 => .start 1 ownerB true .tick
  | 9 => .run 2 (.plain 400000000 fun _ => 0)
  | 10 => .read 1 2
  | 11 => .setOnRequeue ownerB
  | _ => .fail 2

theorem restarted_constructed : Constructed .fifo .none restarted ownerB 1 11 where
  set := rfl
  first s' hs' := by
    match s', hs' with
    | 11, _ => exact le_rfl
  swept := by decide

theorem restarted_putsBack : PutsBack .fifo .none restarted 9 2 1 1
    ⟨.sweep ownerB (30 * second), .plain 400000000 fun _ => 0⟩ :=
  ⟨⟨2, rfl, rfl, rfl, some 1, rfl⟩, rfl, by decide, by decide⟩

theorem requeue_wakes_iff_restarted :
    (∃ l > 9, WakesAt .fifo .none restarted l 1 1) ↔
      (∀ vt, Invocation.sweep ownerB (30 * second) ≠ .requeue vt) ∧
        ∃ l > 9, ∃ o, GetsCount .fifo .none restarted l 2 1 1 o ∧
          (∃ s < l, restarted s = .setOnRequeue o) ∧ ∀ s < l, restarted s ≠ .stop o :=
  requeue_wakes_iff restarted_putsBack

/-- Nobody is woken for it. -/
theorem restarted_wakes_nobody : Constructed .fifo .none restarted ownerB 1 11 ∧
    ¬EveryRequeueWakes .fifo .none restarted ownerB := by
  refine ⟨restarted_constructed, fun hevery => ?_⟩
  obtain ⟨l, _, hwakes⟩ := hevery 9 2 1 1 _ ⟨ownerB, true, .tick, .requeueing 2⟩
    restarted_putsBack (by decide) rfl
  exact first_sweep_wakes_nobody restarted_constructed l 1 hwakes

end Redisq.Model
