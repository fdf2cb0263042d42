import Redisq.Model.Client

/-!
# One reservation, one size

Reservations pass from call to call: a failed pop leaves its own to a later
one, of whatever size.  However the steps of concurrent calls interleave, all
pops that are ever sent under one reservation ask for the same number of
items, so they carry the same ack IDs (`pops_of_reservation`).
-/

namespace Redisq.Model

/-! ## The keys of a world -/

section Store

variable (k : Kind) (cj : Cjson)

/-- Only a script that runs touches the keys. -/
theorem World.step_store (w : World) (ev : Event) :
    (w.step k cj ev).store = Model.step k cj w.store (w.scriptRun ev) := by
  have hturn : (w.turn ev).store = w.store := by
    unfold World.turn
    split <;> rfl
  cases ev with
  | run i env =>
      simp only [World.step, World.scriptRun]
      cases w.sent[i]? <;> rfl
  | issue inv =>
      simp only [World.step]
      split <;> rfl
  | setVisibilityTimeout o d => rfl
  | setHeartbeatTimeout o d => rfl
  | setOnRequeue o => rfl
  | stop o => rfl
  | start c o consumer kind => exact hturn
  | proceed c => exact hturn
  | read c j => exact hturn
  | fail c => exact hturn

/-- The keys of a world are those of the scripts that ran in it. -/
theorem worldAt_store (e : ℕ → Event) (n : ℕ) :
    (worldAt k cj e n).store = storeAt k cj (scriptRuns k cj e) n := by
  refine Trajectory.simulation (R := fun s (w : World) => w.store = s) rfl (fun n ih => ?_) n
  have hstep : ((worldAt k cj e n).step k cj (e n)).store =
      Model.step k cj (worldAt k cj e n).store (scriptRuns k cj e n) :=
    World.step_store k cj _ _
  rw [← ih]
  exact hstep

end Store

/-! ## The reservation of a call -/

/-- The reservation a call holds. -/
def Stage.reservation : Stage → Option Reservation
  | .puttingBack _ r => some r
  | .reserved r => some r
  | .timed r _ => some r
  | .popping r _ => some r
  | _ => none

/-- How many items a pop call is after. -/
def Stage.want : Stage → Option ℕ+
  | .swapping want => some want
  | .puttingBack want _ => some want
  | .adding want => some want
  | .reserved r => some r.want
  | .timed r _ => some r.want
  | .popping r _ => some r.want
  | _ => none

/-- A call in such a stage has room for what it is after. -/
def Stage.Fits (limit : ℕ+) (stage : Stage) : Prop :=
  ∀ want, stage.want = some want → want ≤ limit

/-- A pop of `o`'s under start `s` and of size `n`. -/
def PopCall.Under (p : PopCall) (o : Owner) (s n : ℕ) : Prop :=
  p.args.owner = o ∧ p.args.start = s ∧ p.want = n

/-- A turn has reservation `r` if the object keeps it or the call holds it
afterwards. -/
def Turn.Has (t : Turn) (r : Reservation) : Prop :=
  t.object.retryPop = some r ∨ t.stage.reservation = some r

/-- What turn `t` may do with the reservations of `call` and its object `q`. -/
structure Turn.Orderly (q : QueueObject) (call : Call) (t : Turn) : Prop where
  ackSeq_le : q.ackSeq ≤ t.object.ackSeq
  has : ∀ r, t.Has r → q.retryPop = some r ∨ call.stage.reservation = some r ∨
    (r.start = q.ackSeq + 1 ∧ t.object.ackSeq = q.ackSeq + 1 ∧ t.stage.reservation = some r ∧
      t.object.retryPop = q.retryPop)
  fits : call.stage.Fits call.kind.limit → t.stage.Fits call.kind.limit
  sends : ∀ p, call.stage.Fits call.kind.limit → t.sends = some (.pop p) →
    ∃ r, call.stage.reservation = some r ∧ p.Under call.owner r.start r.want

namespace Call

variable {q : QueueObject} {call : Call} {t : Turn} {next : ℕ}

theorem ask_le_limit (q : QueueObject) (kind : CallKind) : kind.ask q ≤ kind.limit := by
  cases kind with
  | dequeueBatch slots => exact min_le_left _ _
  | _ => exact le_rfl

/-- A turn that makes no reservation, and sends no pop. -/
theorem orderly_of_kept (hseq : t.object.ackSeq = q.ackSeq)
    (hkept : ∀ r, t.object.retryPop = some r →
      q.retryPop = some r ∨ call.stage.reservation = some r)
    (hheld : ∀ r, t.stage.reservation = some r →
      q.retryPop = some r ∨ call.stage.reservation = some r)
    (hfits : call.stage.Fits call.kind.limit → t.stage.Fits call.kind.limit)
    (hsends : ∀ p, t.sends ≠ some (.pop p)) : t.Orderly q call where
  ackSeq_le := hseq.ge
  has r hr := by
    rcases hr with hr | hr
    · exact (hkept r hr).imp_right Or.inl
    · exact (hheld r hr).imp_right Or.inl
  fits := hfits
  sends p _ hp := absurd hp (hsends p)

/-- A turn after which the call holds nothing. -/
theorem orderly_of_done (hseq : t.object.ackSeq = q.ackSeq)
    (hkept : ∀ r, t.object.retryPop = some r →
      q.retryPop = some r ∨ call.stage.reservation = some r)
    (hnone : t.stage.want = none) (hheld : t.stage.reservation = none)
    (hsends : ∀ p, t.sends ≠ some (.pop p)) : t.Orderly q call := by
  refine orderly_of_kept hseq hkept (fun r hr => ?_) (fun _ want hwant => ?_) hsends
  · rw [hheld] at hr
    cases hr
  · rw [hnone] at hwant
    cases hwant

theorem begin_orderly (q : QueueObject) (next : ℕ) (call : Call) :
    (call.begin q next).Orderly q call := by
  unfold begin
  cases hkind : call.kind with
  | tick => exact orderly_of_done rfl (fun _ => Or.inl) rfl rfl (by simp)
  | requeue => exact orderly_of_done rfl (fun _ => Or.inl) rfl rfl (by simp)
  | close =>
      simp only []
      split
      · exact orderly_of_done rfl (fun _ => Or.inl) rfl rfl (by simp)
      · exact orderly_of_done rfl (fun _ => Or.inl) rfl rfl (by simp)
  | dequeue =>
      refine orderly_of_kept rfl (fun _ => Or.inl) (fun r hr => by cases hr)
        (fun _ want hwant => ?_) (by simp)
      cases hwant
      rw [hkind]
      exact ask_le_limit q .dequeue
  | dequeueBatch slots =>
      refine orderly_of_kept rfl (fun _ => Or.inl) (fun r hr => by cases hr)
        (fun _ want hwant => ?_) (by simp)
      cases hwant
      rw [hkind]
      exact ask_le_limit q (.dequeueBatch slots)

/-- A pop is sent for as many items as were reserved. -/
theorem popCall_under {r : Reservation} (hfits : r.want ≤ call.kind.limit) (vt hbt : Time) :
    (call.popCall r vt hbt).Under call.owner r.start r.want := by
  refine ⟨rfl, rfl, ?_⟩
  have hone : r.want ≤ 1 → (r.want : ℕ) = 1 := fun h =>
    le_antisymm (PNat.coe_le_coe _ _ |>.mpr h) r.want.pos
  unfold popCall PopCall.want
  cases hkind : call.kind with
  | dequeueBatch slots =>
      simp only []
      by_cases hwant : r.want = 1
      · rw [if_pos hwant, hwant]
        rfl
      · rw [if_neg hwant]
  | _ => exact (hone (by rw [hkind] at hfits; exact hfits)).symm

theorem putBack_kept {r r' : Reservation} (h : (putBack r q).retryPop = some r') :
    q.retryPop = some r' ∨ r = r' := by
  simp only [putBack] at h
  split at h
  · exact Or.inr (Option.some.inj h)
  · exact Or.inl h

theorem proceed_orderly (h : call.proceed q next = some t) : t.Orderly q call := by
  cases proceeds_of_proceed h with
  | swapsNone want hstage hkept =>
      refine orderly_of_kept rfl (fun r hr => by cases hr) (fun r hr => by cases hr)
        (fun hfits want' hwant => hfits want' ?_) (by simp)
      rw [hstage]
      exact hwant
  -- The reservation the object kept is now the call's.
  | swapsLarge want r hstage hkept hlarge =>
      refine orderly_of_kept rfl (fun r hr => by cases hr) (fun r' hr => ?_)
        (fun hfits want' hwant => hfits want' ?_) (by simp)
      · exact Or.inl (hkept.trans hr)
      · rw [hstage]
        exact hwant
  | swaps want r hstage hkept hle =>
      refine orderly_of_kept rfl (fun r hr => by cases hr) (fun r' hr => ?_)
        (fun _ want' hwant => ?_) (by simp)
      · exact Or.inl (hkept.trans hr)
      · cases hwant
        exact hle
  | putsBack want r hstage =>
      refine orderly_of_kept rfl (fun r' hr => ?_) (fun r hr => by cases hr)
        (fun hfits want' hwant => hfits want' ?_) (by simp)
      · refine (putBack_kept hr).imp_right fun hr => ?_
        rw [hstage, ← hr]
        rfl
      · rw [hstage]
        exact hwant
  | adds want hstage =>
      refine ⟨Nat.le_succ _, fun r hr => ?_, fun hfits want' hwant => hfits want' ?_, ?_⟩
      · rcases hr with hr | hr
        · exact Or.inl hr
        · refine Or.inr (Or.inr ⟨?_, rfl, hr, rfl⟩)
          cases hr
          rfl
      · rw [hstage]
        exact hwant
      · intro p _ hp
        cases hp
  | times r hstage =>
      refine orderly_of_kept rfl (fun _ => Or.inl) (fun r' hr => Or.inr ?_)
        (fun hfits want' hwant => hfits want' ?_) (by simp)
      · rw [hstage]
        exact hr
      · rw [hstage]
        exact hwant
  | pops r vt hstage =>
      refine ⟨le_rfl, fun r' hr => ?_, fun hfits want' hwant => hfits want' ?_, ?_⟩
      · rw [hstage]
        exact hr.imp_right Or.inl
      · rw [hstage]
        exact hwant
      · intro p hfits hp
        cases hp
        refine ⟨r, by rw [hstage]; rfl, popCall_under (hfits r.want ?_) vt q.hbt⟩
        rw [hstage]
        rfl
  | counts taken remaining run popLen hstage =>
      exact orderly_of_done rfl (fun _ => Or.inl) rfl rfl (by simp)
  | counted taken remaining run hstage =>
      exact orderly_of_done rfl (fun _ => Or.inl) rfl rfl (by simp)
  | sizes popLen hstage => exact orderly_of_done rfl (fun _ => Or.inl) rfl rfl (by simp)

theorem read_orderly {i : ℕ} {reply : Reply} (h : call.read q i reply = some t) :
    t.Orderly q call := by
  unfold read at h
  split at h
  · split at h
    · cases h
      refine orderly_of_done rfl (fun _ => Or.inl) ?_ ?_ (by simp)
      · simp only []
        split <;> rfl
      · simp only []
        split <;> rfl
    · cases h
  · split at h
    · cases h
      refine orderly_of_done rfl (fun _ => Or.inl) rfl rfl fun p hp => ?_
      simp only [] at hp
      split at hp
      · cases hp
      · cases hp
    · cases h
  · cases h

theorem fail_orderly (h : call.fail q = some t) : t.Orderly q call := by
  unfold fail at h
  split at h
  · next r i hstage =>
      cases h
      refine orderly_of_done rfl (fun r' hr => ?_) rfl rfl (by simp)
      refine (putBack_kept hr).imp_right fun hr => ?_
      rw [hstage, ← hr]
      rfl
  · cases h
    exact orderly_of_done rfl (fun _ => Or.inl) rfl rfl (by simp)
  · cases h

end Call

/-! ## Who carries a reservation -/

namespace World

/-- A reservation of `o`, of start `s` and size `n`, is kept for a later call,
held by a call, or was sent with a pop. -/
inductive Carries (w : World) (o : Owner) (s n : ℕ) : Prop
  | kept (r : Reservation) (h : (w.objects o).retryPop = some r) (hs : r.start = s)
      (hn : (r.want : ℕ) = n)
  | held (c : ℕ) (call : Call) (r : Reservation) (h : w.calls c = some call)
      (howner : call.owner = o) (hstage : call.stage.reservation = some r) (hs : r.start = s)
      (hn : (r.want : ℕ) = n)
  | sent (m : Sent) (p : PopCall) (h : m ∈ w.sent) (hinv : m.inv = .pop p)
      (hp : p.Under o s n)

/-- Reservations are numbered, each number has one size, and calls fit. -/
structure Reserved (w : World) : Prop where
  numbered : ∀ o s n, w.Carries o s n → s ≤ (w.objects o).ackSeq
  sized : ∀ o s n n', w.Carries o s n → w.Carries o s n' → n = n'
  fits : ∀ c call, w.calls c = some call → call.stage.Fits call.kind.limit

variable {w w' : World} {o : Owner} {s n c : ℕ} {call : Call} {t : Turn} {ev : Event}

/-- The call of a turn is new or was there, and the turn is one of its own. -/
theorem Turns.orderly (h : w.Turns ev c call t) :
    (call.stage = .ended ∨ w.calls c = some call) ∧ t.Orderly (w.objects call.owner) call := by
  cases h with
  | begins c o consumer kind hnew hopen => exact ⟨Or.inl rfl, Call.begin_orderly _ _ _⟩
  | proceeds c call t hcall h => exact ⟨Or.inr hcall, Call.proceed_orderly h⟩
  | reads c j call i reply t hcall hlog h => exact ⟨Or.inr hcall, Call.read_orderly h⟩
  | fails c call t hcall h => exact ⟨Or.inr hcall, Call.fail_orderly h⟩

/-- A reservation the call of a turn held was there before it. -/
theorem carries_of_held (h : w.Turns ev c call t) {r : Reservation}
    (hr : call.stage.reservation = some r) : w.Carries call.owner r.start r.want := by
  rcases h.orderly.1 with hover | hcall
  · rw [hover] at hr
    cases hr
  · exact .held c call r hcall rfl hr rfl rfl

theorem fits_of_turnOf (hw : w.Reserved) (h : w.Turns ev c call t) :
    call.stage.Fits call.kind.limit := by
  rcases h.orderly.1 with hover | hcall
  · intro want hwant
    rw [hover] at hwant
    cases hwant
  · exact hw.fits c call hcall

/-- The reservation a turn makes. -/
def Makes (w : World) (call : Call) (t : Turn) (o : Owner) (s n : ℕ) : Prop :=
  call.owner = o ∧ s = (w.objects o).ackSeq + 1 ∧ t.object.ackSeq = s ∧
    ∃ r, t.stage.reservation = some r ∧ (r.want : ℕ) = n

/-- What is carried after a turn was carried before, or made by it. -/
theorem carries_take (hw : w.Reserved) (hturn : w.Turns ev c call t)
    (h : (w.take c call t).Carries o s n) : w.Carries o s n ∨ w.Makes call t o s n := by
  obtain ⟨hcall, hord⟩ := hturn.orderly
  have hhas : ∀ r, call.owner = o → t.Has r → r.start = s → (r.want : ℕ) = n →
      w.Carries o s n ∨ w.Makes call t o s n := by
    rintro r rfl hr rfl rfl
    rcases hord.has r hr with hkept | hheld | ⟨hstart, hseq, hstage, _⟩
    · exact Or.inl (.kept r hkept rfl rfl)
    · exact Or.inl (carries_of_held hturn hheld)
    · exact Or.inr ⟨rfl, hstart, hseq.trans hstart.symm, r, hstage, rfl⟩
  cases h with
  | kept r hr hs hn =>
      by_cases ho : call.owner = o
      · refine hhas r ho (Or.inl ?_) hs hn
        subst ho
        rwa [take_object_self] at hr
      · rw [take_object_of_ne w c t (Ne.symm ho)] at hr
        exact Or.inl (.kept r hr hs hn)
  | held c' call' r hr howner hstage hs hn =>
      by_cases hc : c' = c
      · subst hc
        rw [take_call_self] at hr
        cases hr
        exact hhas r howner (Or.inr hstage) hs hn
      · rw [take_call_of_ne w call t hc] at hr
        exact Or.inl (.held c' call' r hr howner hstage hs hn)
  | sent m p hm hinv hp =>
      rcases List.mem_append.mp hm with hold | hnew
      · exact Or.inl (.sent m p hold hinv hp)
      · obtain ⟨inv, hinv', rfl⟩ : ∃ inv, t.sends = some inv ∧ ⟨some c, inv⟩ = m :=
          Option.map_eq_some_iff.mp (Option.mem_toList.mp hnew)
        subst hinv
        obtain ⟨r, hr, hunder⟩ := hord.sends p (fits_of_turnOf hw hturn) hinv'
        obtain ⟨rfl, rfl, rfl⟩ := hp
        obtain ⟨howner, hstart, hwant⟩ := hunder
        rw [howner, hstart, hwant]
        exact Or.inl (carries_of_held hturn hr)

/-- What is carried after a change of another kind was carried before. -/
theorem carries_of_kept (hkept : ∀ o, (w'.objects o).retryPop = (w.objects o).retryPop)
    (hcalls : w'.calls = w.calls)
    (hsent : ∀ m ∈ w'.sent, ∀ p, m.inv = .pop p → m ∈ w.sent) (h : w'.Carries o s n) :
    w.Carries o s n := by
  cases h with
  | kept r h hs hn => exact .kept r ((hkept o).symm.trans h) hs hn
  | held c call r h howner hstage hs hn =>
      exact .held c call r (hcalls ▸ h) howner hstage hs hn
  | sent m p h hinv hp => exact .sent m p (hsent m h p hinv) hinv hp

/-- A change that makes no reservation keeps them in order. -/
theorem Reserved.of_kept (hw : w.Reserved)
    (hseq : ∀ o, (w'.objects o).ackSeq = (w.objects o).ackSeq)
    (hkept : ∀ o, (w'.objects o).retryPop = (w.objects o).retryPop) (hcalls : w'.calls = w.calls)
    (hsent : ∀ m ∈ w'.sent, ∀ p, m.inv = .pop p → m ∈ w.sent) : w'.Reserved where
  numbered o s n h := (hseq o).symm ▸ hw.numbered o s n (carries_of_kept hkept hcalls hsent h)
  sized o s n n' h h' :=
    hw.sized o s n n' (carries_of_kept hkept hcalls hsent h) (carries_of_kept hkept hcalls hsent h')
  fits c call h := hw.fits c call (hcalls ▸ h)

/-- So does a turn. -/
theorem Reserved.take (hw : w.Reserved) (hturn : w.Turns ev c call t) :
    (w.take c call t).Reserved where
  numbered o s n h := by
    have hle : (w.objects o).ackSeq ≤ ((w.take c call t).objects o).ackSeq := by
      by_cases ho : o = call.owner
      · subst ho
        rw [take_object_self]
        exact hturn.orderly.2.ackSeq_le
      · rw [take_object_of_ne w c t ho]
    rcases carries_take hw hturn h with hold | ⟨rfl, _, hseq, _⟩
    · exact (hw.numbered o s n hold).trans hle
    · rw [take_object_self]
      exact hseq.ge
  sized o s n n' h h' := by
    rcases carries_take hw hturn h with hold | ⟨rfl, hs, _, r, hr, rfl⟩ <;>
      rcases carries_take hw hturn h' with hold' | ⟨ho, hs', _, r', hr', rfl⟩
    · exact hw.sized o s n n' hold hold'
    · -- The new number is above every one carried before.
      exact absurd (hw.numbered _ _ _ hold) (by rw [hs']; exact Nat.not_succ_le_self _)
    · exact absurd (hw.numbered _ _ _ hold') (by rw [hs]; exact Nat.not_succ_le_self _)
    · rw [hr] at hr'
      cases hr'
      rfl
  fits c' call' h := by
    by_cases hc : c' = c
    · subst hc
      rw [take_call_self] at h
      cases h
      exact hturn.orderly.2.fits (fits_of_turnOf hw hturn)
    · rw [take_call_of_ne w call t hc] at h
      exact hw.fits c' call' h

theorem Reserved.step (k : Kind) (cj : Cjson) (hw : w.Reserved) (ev : Event) :
    (w.step k cj ev).Reserved := by
  have hchange := World.step_change k cj w ev
  generalize w.step k cj ev = w' at hchange ⊢
  cases hchange with
  | none => exact hw
  | set o f hseq hkept =>
      exact hw.of_kept (fun o' => w.set_keeps o o' (·.ackSeq) hseq)
        (fun o' => w.set_keeps o o' (·.retryPop) hkept) rfl fun _ hm _ _ => hm
  | take c call t h => exact hw.take h
  | issue inv h =>
      refine hw.of_kept (fun _ => rfl) (fun _ => rfl) rfl fun m hm p hp => ?_
      rcases List.mem_append.mp hm with hold | hnew
      · exact hold
      · rw [List.mem_singleton] at hnew
        subst hnew
        cases hp
        cases h
  | run i env m hm hev => exact hw.of_kept (fun _ => rfl) (fun _ => rfl) rfl fun _ hm _ _ => hm

theorem init_reserved : World.init.Reserved where
  numbered o s n h := by
    cases h with
    | kept r h => cases h
    | held c call r h => cases h
    | sent m p h => exact absurd h List.not_mem_nil
  sized o s n n' h := by
    cases h with
    | kept r h => cases h
    | held c call r h => cases h
    | sent m p h => exact absurd h List.not_mem_nil
  fits c call h := by cases h

/-- What was sent stays sent. -/
theorem mem_sent_step (k : Kind) (cj : Cjson) (w : World) (ev : Event) {m : Sent}
    (hm : m ∈ w.sent) : m ∈ (w.step k cj ev).sent := by
  have hchange := World.step_change k cj w ev
  generalize w.step k cj ev = w' at hchange ⊢
  cases hchange with
  | none => exact hm
  | set o f _ _ => exact hm
  | take c call t _ => exact List.mem_append_left _ hm
  | issue inv _ => exact List.mem_append_left _ hm
  | run i env m _ _ => exact hm

end World

/-! ## Runs -/

section Runs

variable (k : Kind) (cj : Cjson) (e : ℕ → Event)

theorem worldAt_reserved (n : ℕ) : (worldAt k cj e n).Reserved :=
  Trajectory.invariant (I := World.Reserved) World.init_reserved
    (fun n hn => hn.step k cj (e n)) n

theorem mem_sent_of_le {m : Sent} {i j : ℕ} (hij : i ≤ j)
    (hm : m ∈ (worldAt k cj e i).sent) : m ∈ (worldAt k cj e j).sent := by
  induction j, hij using Nat.le_induction with
  | base => exact hm
  | succ j _ ih =>
      rw [worldAt_succ]
      exact World.mem_sent_step k cj _ _ ih

/-- What runs is a copy of a script that was sent. -/
theorem event_of_run {n : ℕ} {r : ScriptRun} (hr : scriptRuns k cj e n = some r) :
    ∃ i m, e n = .run i r.env ∧ (worldAt k cj e n).sent[i]? = some m ∧ m.inv = r.inv := by
  unfold scriptRuns World.scriptRun at hr
  split at hr
  · next i env hev =>
      obtain ⟨m, hm, rfl⟩ := Option.map_eq_some_iff.mp hr
      exact ⟨i, m, hev, hm, rfl⟩
  · cases hr

/-- A script that runs was sent. -/
theorem sent_of_run {n : ℕ} {r : ScriptRun} (hr : scriptRuns k cj e n = some r) :
    ∃ m ∈ (worldAt k cj e n).sent, m.inv = r.inv := by
  obtain ⟨i, m, _, hm, hinv⟩ := event_of_run k cj e hr
  exact ⟨m, List.mem_of_getElem? hm, hinv⟩

/-- All pops that run under one reservation are after the same number of
items. -/
theorem pops_of_reservation {i j : ℕ} {p p' : PopCall} {env env' : Env}
    (hi : scriptRuns k cj e i = some ⟨.pop p, env⟩)
    (hj : scriptRuns k cj e j = some ⟨.pop p', env'⟩) (howner : p.args.owner = p'.args.owner)
    (hstart : p.args.start = p'.args.start) : p.want = p'.want := by
  obtain ⟨m, hm, hinv⟩ := sent_of_run k cj e hi
  obtain ⟨m', hm', hinv'⟩ := sent_of_run k cj e hj
  have hm := mem_sent_of_le k cj e (le_max_left i j) hm
  have hm' := mem_sent_of_le k cj e (le_max_right i j) hm'
  exact (worldAt_reserved k cj e (max i j)).sized _ _ _ _ (.sent m p hm hinv ⟨rfl, rfl, rfl⟩)
    (.sent m' p' hm' hinv' ⟨howner.symm, hstart.symm, rfl⟩)

end Runs

end Redisq.Model
