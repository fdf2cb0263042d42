import Redisq.Verified.Handover

/-!
# Stranded items

A pending entry comes back by its deadline or with its owner's heartbeat; one
that has neither is stranded.  If every pop carries a visibility timeout or a
heartbeat timeout, only one step strands an entry: a sweep that its owner
sent while the heartbeat was turned off and that runs after a pop with the
heartbeat on again (`none_stranded_iff`).  The two other paths that drop a
heartbeat, the sweep that takes an owner for dead and the release, move all of
the owner's entries first; this one moves none.
-/

namespace Redisq.Model

/-- The entry under `a` is one that a pop of `o`'s took, and has been there
since. -/
def MadeByPop (k : Kind) (cj : Cjson) (u : ℕ → Option ScriptRun) (n : ℕ) (o : Owner)
    (a : Bytes) : Prop :=
  ∃ i < n, ∃ p env v, p.args.owner = o ∧ Takes k cj u i p env a v ∧
    (∀ j, i < j → j ≤ n → Pending k cj u j a) ∧
    ∀ j, i < j → j < n → ∀ item vt env, u j ≠ some ⟨.prepareAck a item vt, env⟩

/-- An entry has a deadline, or its owner a heartbeat. -/
def Store.Tended (s : Store) (o : Owner) (a : Bytes) : Prop :=
  (s.timeouts.score a).isSome = true ∨ (s.heartbeats.score o.name).isSome = true

theorem Store.evicted_tended (env : Env) (s : Store) (o : Owner) (a : Bytes) :
    (s.evicted env).Tended o a ↔ s.Tended o a := by
  have hheart : (s.evicted env).heartbeats = s.heartbeats :=
    congrArg Liveness.heartbeats (s.evicted_liveness env)
  rw [Store.Tended, Store.Tended, Store.evicted_timeouts, hheart]

/-- No entry that a pop made is stranded. -/
def NoneStranded (k : Kind) (cj : Cjson) (u : ℕ → Option ScriptRun) (n : ℕ) : Prop :=
  ∀ o a, MadeByPop k cj u n o a → (storeAt k cj u n).Tended o a

/-- Every pop carries a visibility timeout or a heartbeat timeout. -/
def Guarded (u : ℕ → Option ScriptRun) : Prop :=
  ∀ n p env, u n = some ⟨.pop p, env⟩ → 0 < p.args.vt ∨ 0 < p.args.hbt

/-- A sweep of `o`'s with its heartbeat turned off runs while an entry that a
pop of `o`'s made has no deadline. -/
def StrandsAt (k : Kind) (cj : Cjson) (u : ℕ → Option ScriptRun) (n : ℕ) : Prop :=
  ∃ o a hbt env, u n = some ⟨.sweep o hbt, env⟩ ∧ hbt ≤ 0 ∧ MadeByPop k cj u n o a ∧
    (storeAt k cj u n).timeouts.score a = none

/-! ## Heartbeats -/

namespace Liveness

variable {env : Env} {l : Liveness} {o sweeper : Bytes} {hbt : Time}

/-- A sweep by another owner, or with the heartbeat on, prepares by keeping
the heartbeats there are. -/
theorem prepared_isSome (h : (l.heartbeats.score o).isSome = true)
    (hown : o = sweeper → 0 < hbt) :
    ((l.prepared env sweeper hbt).heartbeats.score o).isSome = true := by
  by_cases ho : o = sweeper
  · subst ho
    rw [prepared, (score_renewed_self _ (hown rfl)).1, clocked_heartbeats,
      (score_shifted env l o).1, Option.isSome_map, Option.isSome_map, h]
  · rw [(score_prepared_of_ne ho).1, Option.isSome_map, h]

/-- With its heartbeat turned off, an owner's own sweep drops it. -/
theorem prepared_self_off (env : Env) (l : Liveness) (o : Bytes) (hhbt : hbt ≤ 0) :
    (l.prepared env o hbt).heartbeats.score o = none := by
  unfold prepared renewed
  split
  · rw [if_neg (not_lt.mpr hhbt)]
    exact SortedSet.score_erase_self _ _
  · next hnone => simpa using hnone

/-- An owner without a heartbeat is not taken for dead. -/
theorem notMem_sweptDead_of_none
    (h : (l.prepared env sweeper hbt).heartbeats.score o = none) :
    o ∉ l.sweptDead env sweeper hbt := by
  intro hdead
  rcases (mem_sweptDead.mp hdead).2 with hlapsed | ⟨_, hlive, _⟩
  · obtain ⟨h', hscore, _⟩ := mem_lapsed_score hlapsed
    rw [h] at hscore
    cases hscore
  · obtain ⟨h', hscore, _⟩ := mem_live_score hlive
    rw [h] at hscore
    cases hscore

end Liveness

/-! ## One script -/

section Step

variable {k : Kind} {cj : Cjson} {env : Env} {s : Store} {inv : Invocation} {o : Owner}
  {start i : ℕ} {p : PopCall} {a v : Bytes}

theorem after_heartbeats (k : Kind) (cj : Cjson) (env : Env) (s : Store) (inv : Invocation) :
    (inv.after k cj env s).heartbeats = (inv.livenessAfter k env s).heartbeats :=
  congrArg Liveness.heartbeats (after_liveness k cj env s inv)

theorem mem_pendingIDs_of {f : Bytes → Bool} (h : (s.nacked.lookup a).isSome = true)
    (hf : f a = true) : a ∈ s.pendingIDs env f := by
  have hkeys := Finmap.mem_keys.mpr (Finmap.lookup_isSome.mp h)
  exact (List.mem_insertionSort _).mpr
    (List.mem_filter.mpr ⟨(env.mem_hkeys _ _).mpr hkeys, hf⟩)

/-- A sweep finds the entries that are not overdue where they were. -/
theorem Store.caughtUp_lookup (k : Kind) (cj : Cjson) (env : Env) (s : Store) {a : Bytes}
    (h : a ∉ s.overdue env) : (s.caughtUp k cj env).nacked.lookup a = s.nacked.lookup a := by
  have hheld : _ = (s.overdue env).foldl (fun held id => held.erase id) s.nacked :=
    giveBack_held (s.overdue env) (s.custody k)
  rw [Store.caughtUp, Store.movedAll_nacked, ← hheld, Custody.giveBack_lookup, if_neg h]
  rfl

/-- A pop leaves the heartbeats it finds. -/
theorem beaten_isSome (env : Env) (b : PopArgs) {z : ZSet} {m : Bytes}
    (h : (z.score m).isSome = true) : ((beaten env b z).score m).isSome = true := by
  unfold beaten
  split
  · by_cases hm : m = b.owner.name
    · subst hm
      rw [SortedSet.score_insert_self]
      rfl
    · rw [SortedSet.score_insert_of_ne _ _ hm]
      exact h
  · exact h

/-- A heartbeat stays for as long as an entry of its owner's does, but for
the owner's own sweeps with the heartbeat turned off. -/
theorem heartbeat_stays (h : (s.heartbeats.score o.name).isSome = true)
    (hkept : ackIDOf o start i ∉ inv.requeuedIDs k cj env s)
    (hpending : (s.nacked.lookup (ackIDOf o start i)).isSome = true)
    (hown : ∀ hbt ≤ 0, inv ≠ .sweep o hbt) :
    ((inv.after k cj env s).heartbeats.score o.name).isSome = true := by
  rw [after_heartbeats]
  cases inv with
  | pop p =>
      simp only [Invocation.livenessAfter]
      split
      · exact h
      · exact beaten_isSome env p.args h
  | sweep sweeper hbt =>
      -- Whoever is taken for dead has no entry left.
      have hdead : o.name ∉ s.liveness.sweptDead env sweeper.name hbt := fun hdead => by
        refine hkept (List.mem_append_right _ (mem_pendingIDs_of ?_ ?_))
        · rwa [s.caughtUp_lookup k cj env fun hover => hkept (List.mem_append_left _ hover)]
        · exact decide_eq_true (by rwa [ownerOf_ackIDOf])
      simp only [Invocation.livenessAfter]
      rw [(Liveness.score_swept hdead).1]
      refine Liveness.prepared_isSome h fun ho => not_le.mp fun hle => ?_
      exact hown hbt hle (by rw [Owner.ext ho])
  | release owner =>
      have hne : o.name ≠ owner.name := by
        intro ho
        have howned := (ownedBy_ackIDOf owner o start i).mpr (Owner.ext ho.symm)
        exact hkept (mem_pendingIDs_of hpending howned)
      simp only [Invocation.livenessAfter, Liveness.without, List.foldl_cons, List.foldl_nil]
      rw [SortedSet.score_erase_of_ne _ hne]
      exact h
  | _ => exact h

/-- An entry that is tended stays so for as long as it is pending. -/
theorem tended_stays (h : s.Tended o (ackIDOf o start i))
    (hbefore : (s.nacked.lookup (ackIDOf o start i)).isSome = true)
    (hafter : ((inv.after k cj env s).nacked.lookup (ackIDOf o start i)).isSome = true)
    (hprepare : ∀ item vt, inv ≠ .prepareAck (ackIDOf o start i) item vt)
    (hown : s.timeouts.score (ackIDOf o start i) = none → ∀ hbt ≤ 0, inv ≠ .sweep o hbt) :
    (inv.after k cj env s).Tended o (ackIDOf o start i) := by
  cases hd : s.timeouts.score (ackIDOf o start i) with
  | some d =>
      obtain ⟨d', _, hd'⟩ := deadline_kept hbefore hafter hprepare hd
      exact Or.inl (by rw [hd']; rfl)
  | none =>
      have hheart : (s.heartbeats.score o.name).isSome = true :=
        h.resolve_left (by rw [hd]; exact Bool.false_ne_true)
      refine Or.inr (heartbeat_stays hheart ?_ hbefore (hown hd))
      obtain ⟨v, hv⟩ := Option.isSome_iff_exists.mp hafter
      rcases pending_cases hv with ⟨_, hkept⟩ | ⟨p, rfl, _⟩ | ⟨vt, hinv⟩
      · exact hkept
      · exact List.not_mem_nil
      · exact absurd hinv (hprepare v vt)

/-- A pop tends to what it takes. -/
theorem tended_of_taken (hmem : (a, v) ∈ s.taken k p.ids)
    (hguarded : 0 < p.args.vt ∨ 0 < p.args.hbt) :
    ((p.effect k env s).2.nacked.lookup a).isSome = true ∧
      (p.effect k env s).2.Tended p.args.owner a := by
  have hfree := (Store.mem_taken hmem).2.1
  have hhanded : (a, v) ∈ s.handed k p := by
    rw [Store.handed, if_neg (by rw [hfree]; exact Bool.false_ne_true)]
    exact hmem
  obtain ⟨hpending, hdeadline⟩ := returned_pending env hhanded
  refine ⟨by rw [hpending]; rfl, ?_⟩
  rcases hguarded with hvt | hhbt
  · obtain ⟨d, _, hd⟩ := hdeadline hvt
    exact Or.inl (by rw [hd]; rfl)
  · refine Or.inr ?_
    have hheart := after_heartbeats k Cjson.none env s (.pop p)
    rw [Invocation.livenessAfter, if_neg (List.ne_nil_of_mem hhanded)] at hheart
    rw [show (p.effect k env s).2.heartbeats = _ from hheart]
    simp only [beaten, if_pos ((deadline_pos env).mpr hhbt), SortedSet.score_insert_self]
    rfl

/-- An owner's sweep with its heartbeat turned off leaves an entry without a
deadline where it is, and without either. -/
theorem sweep_off_strands (k : Kind) (cj : Cjson) (env : Env) {hbt : Time} (hhbt : hbt ≤ 0)
    (hpending : s.nacked.lookup (ackIDOf o start i) = some v)
    (hd : s.timeouts.score (ackIDOf o start i) = none) :
    ((Invocation.sweep o hbt).after k cj env s).nacked.lookup (ackIDOf o start i) = some v ∧
      ¬((Invocation.sweep o hbt).after k cj env s).Tended o (ackIDOf o start i) := by
  have hnone := Liveness.prepared_self_off env s.liveness o.name hhbt
  have hdead := Liveness.notMem_sweptDead_of_none hnone
  have hkept : ackIDOf o start i ∉ s.sweptIDs k cj env o.name hbt := by
    intro hmem
    rcases List.mem_append.mp hmem with hover | hown
    · obtain ⟨d, hscore, _⟩ := mem_overdue.mp hover
      rw [hd] at hscore
      cases hscore
    · have hin := of_decide_eq_true (mem_pendingIDs hown).2
      rw [ownerOf_ackIDOf] at hin
      exact hdead hin
  refine ⟨?_, ?_⟩
  · rw [after_nacked, Invocation.move, Custody.apply, Custody.giveBack_lookup, if_neg hkept]
    exact hpending
  · have htimeouts := after_timeouts_requeue k cj env s
      (Or.inr (Or.inl ⟨o, hbt, rfl⟩))
    rintro (hdeadline | hheart)
    · rw [htimeouts, SortedSet.score_eraseAll, Invocation.requeuedIDs, if_neg hkept, hd]
        at hdeadline
      cases hdeadline
    · rw [after_heartbeats, Invocation.livenessAfter, (Liveness.score_swept hdead).1, hnone]
        at hheart
      cases hheart

end Step

/-! ## Runs of scripts -/

section Runs

variable {k : Kind} {cj : Cjson} {u : ℕ → Option ScriptRun} {n : ℕ} {o : Owner} {a : Bytes}

theorem MadeByPop.pending (h : MadeByPop k cj u n o a) : Pending k cj u n a := by
  obtain ⟨i, hi, _, _, _, _, _, hpending, _⟩ := h
  exact hpending n hi le_rfl

theorem MadeByPop.exists_ackID (h : MadeByPop k cj u n o a) : ∃ start i, a = ackIDOf o start i := by
  obtain ⟨_, _, p, _, _, rfl, htakes, _⟩ := h
  obtain ⟨i, _, hi⟩ := mem_ackIDs.mp (Store.mem_taken htakes.2).1
  exact ⟨_, _, hi⟩

theorem MadeByPop.succ (h : MadeByPop k cj u n o a) (hpending : Pending k cj u (n + 1) a)
    (hprepare : ∀ item vt env, u n ≠ some ⟨.prepareAck a item vt, env⟩) :
    MadeByPop k cj u (n + 1) o a := by
  obtain ⟨i, hi, p, env, v, howner, htakes, hall, hnot⟩ := h
  refine ⟨i, Nat.lt_succ_of_lt hi, p, env, v, howner, htakes, fun j hij hjn => ?_,
    fun j hij hjn => ?_⟩
  · rcases Nat.le_succ_iff.mp hjn with hle | rfl
    · exact hall j hij hle
    · exact hpending
  · rcases Nat.lt_succ_iff_lt_or_eq.mp hjn with hlt | rfl
    · exact hnot j hij hlt
    · exact hprepare

/-- An entry that a pop made was just taken, or was there and was not made
pending by hand since. -/
theorem MadeByPop.cases_succ (h : MadeByPop k cj u (n + 1) o a) :
    (∃ p env v, p.args.owner = o ∧ Takes k cj u n p env a v) ∨
      MadeByPop k cj u n o a ∧ Pending k cj u (n + 1) a ∧
        ∀ item vt env, u n ≠ some ⟨.prepareAck a item vt, env⟩ := by
  obtain ⟨i, hi, p, env, v, howner, htakes, hall, hnot⟩ := h
  rcases Nat.lt_succ_iff_lt_or_eq.mp hi with hin | rfl
  · exact Or.inr ⟨⟨i, hin, p, env, v, howner, htakes,
      fun j hij hjn => hall j hij (Nat.le_succ_of_le hjn),
      fun j hij hjn => hnot j hij (Nat.lt_succ_of_lt hjn)⟩,
      hall (n + 1) (Nat.lt_succ_of_lt hin) le_rfl, hnot n hin (Nat.lt_succ_self n)⟩
  · exact Or.inl ⟨p, env, v, howner, htakes⟩

theorem storeAt_tended {r : ScriptRun} (hr : u n = some r) :
    (storeAt k cj u (n + 1)).Tended o a ↔ (r.after k cj (storeAt k cj u n)).Tended o a := by
  have hheart :
      (storeAt k cj u (n + 1)).heartbeats = (r.after k cj (storeAt k cj u n)).heartbeats :=
    congrArg Liveness.heartbeats (storeAt_liveness hr)
  rw [Store.Tended, Store.Tended, storeAt_timeouts hr, hheart]

/-- As long as no step strands an entry, none is stranded. -/
theorem none_stranded_of_lt (hguarded : Guarded u) (hnone : ∀ m < n, ¬StrandsAt k cj u m) :
    NoneStranded k cj u n := by
  induction n with
  | zero =>
      rintro o a ⟨i, hi, _⟩
      exact absurd hi (Nat.not_lt_zero i)
  | succ n ih =>
      intro o a hmade
      obtain ⟨start, idx, rfl⟩ := hmade.exists_ackID
      rcases hmade.cases_succ with ⟨p, env, v, rfl, htakes⟩ | ⟨hbefore, hpending, hprepare⟩
      · rw [storeAt_tended htakes.1]
        exact (tended_of_taken htakes.2 (hguarded n p env htakes.1)).2
      · have htended := ih (fun m hm => hnone m (Nat.lt_succ_of_lt hm)) o _ hbefore
        cases hr : u n with
        | none => rwa [storeAt_succ_none hr]
        | some r =>
            obtain ⟨inv, env⟩ := r
            rw [Pending, storeAt_nacked hr] at hpending
            rw [storeAt_tended hr]
            refine tended_stays (s := (storeAt k cj u n).evicted env)
              ((Store.evicted_tended _ _ _ _).mpr htended) ?_ hpending
              (fun item vt hinv => hprepare item vt env (hinv ▸ hr))
              fun hd hbt hhbt hinv => hnone n (Nat.lt_succ_self n)
                ⟨o, _, hbt, env, hinv ▸ hr, hhbt, hbefore, by rwa [Store.evicted_timeouts] at hd⟩
            rw [Store.evicted_nacked]
            exact hbefore.pending

/-- The step that strands an entry leaves it stranded. -/
theorem StrandsAt.stranded (h : StrandsAt k cj u n) : ¬NoneStranded k cj u (n + 1) := by
  obtain ⟨o, a, hbt, env, hr, hhbt, hmade, hd⟩ := h
  obtain ⟨start, idx, rfl⟩ := hmade.exists_ackID
  obtain ⟨v, hv⟩ := Option.isSome_iff_exists.mp hmade.pending
  obtain ⟨hpending, hnot⟩ := sweep_off_strands k cj env
    (s := (storeAt k cj u n).evicted env) hhbt (by rwa [Store.evicted_nacked])
    (by rwa [Store.evicted_timeouts])
  intro hnone
  refine hnot ((storeAt_tended hr).mp (hnone o _ (hmade.succ ?_ fun item vt env' h => ?_)))
  · rw [Pending, storeAt_nacked hr]
    exact Option.isSome_iff_exists.mpr ⟨v, hpending⟩
  · rw [hr] at h
    cases h

end Runs

/-! ## Runs of objects -/

/-- Every pop is sent with a visibility timeout, or with a heartbeat timeout
by an object that never turns its heartbeat off afterwards. -/
def StaysOn (k : Kind) (cj : Cjson) (e : ℕ → Event) : Prop :=
  ∀ n, ∀ m ∈ (worldAt k cj e n).sent, ∀ p, m.inv = .pop p → 0 < p.args.vt ∨
    0 < p.args.hbt ∧ ∀ l ≥ n, ∀ d, e l = .setHeartbeatTimeout p.args.owner d → 0 < d

section Objects

variable {k : Kind} {cj : Cjson} {e : ℕ → Event}

theorem StaysOn.guarded (h : StaysOn k cj e) : Guarded (scriptRuns k cj e) := by
  intro n p env hn
  obtain ⟨m, hm, hinv⟩ := sent_of_run k cj e hn
  exact (h n m hm p hinv).imp_right And.left

/-- No entry that a pop made is ever stranded if and only if no sweep that
its owner sent with the heartbeat turned off runs while an entry that a pop
of the owner's made has no deadline. -/
theorem none_stranded_iff (h : StaysOn k cj e) :
    (∀ n, NoneStranded k cj (scriptRuns k cj e) n) ↔
      ∀ n, ¬StrandsAt k cj (scriptRuns k cj e) n :=
  ⟨fun hnone n hstrands => hstrands.stranded (hnone (n + 1)),
    fun hnone _ => none_stranded_of_lt h.guarded fun m _ => hnone m⟩

end Objects

/-- An object without timeouts sends a sweep; its heartbeat is turned on; it
pops an item; and the sweep runs only then. -/
def lateSweep : ℕ → Event
  | 0 => .setVisibilityTimeout ownerA 0
  | 1 => .setHeartbeatTimeout ownerA 0
  | 2 => .start 0 ownerA false .tick
  | 3 => .setHeartbeatTimeout ownerA 30000000000
  | 4 => .issue (.push ⟨[97], 0, 0, false, none⟩)
  | 5 => .run 1 (.plain 1 fun _ => 0)
  | 6 => .start 1 ownerA false .dequeue
  | 7 => .proceed 1
  | 8 => .proceed 1
  | 9 => .proceed 1
  | 10 => .proceed 1
  | 11 => .run 2 (.plain 2 fun _ => 0)
  | 12 => .run 0 (.plain 3 fun _ => 0)
  | _ => .fail 2

/-- The pop of that object. -/
def lateSweepPop : PopCall :=
  ⟨⟨ownerA, 1, 0, 30 * second, false⟩, .one⟩

theorem lateSweep_sent {n : ℕ} {m : Sent} (hm : m ∈ (worldAt .fifo .none lateSweep n).sent)
    {p : PopCall} (hp : m.inv = .pop p) : 11 ≤ n ∧ p = lateSweepPop := by
  have hlast : ∀ l, worldAt .fifo .none lateSweep (13 + l) = worldAt .fifo .none lateSweep 13 :=
    fun l => by
      induction l with
      | zero => rfl
      | succ l ih =>
          have hev : lateSweep (13 + l) = .fail 2 := by rw [Nat.add_comm]; rfl
          rw [← Nat.add_assoc, worldAt_succ, ih, hev]
          rfl
  have hbefore : (worldAt .fifo .none lateSweep 10).sent =
      [⟨some 0, .sweep ownerA 0⟩, ⟨none, .push ⟨[97], 0, 0, false, none⟩⟩] := rfl
  have hafter : (worldAt .fifo .none lateSweep 13).sent =
      [⟨some 0, .sweep ownerA 0⟩, ⟨none, .push ⟨[97], 0, 0, false, none⟩⟩,
        ⟨some 1, .pop lateSweepPop⟩] := rfl
  constructor
  · by_contra hn
    have hm := mem_sent_of_le .fifo .none lateSweep (by omega : n ≤ 10) hm
    rw [hbefore] at hm
    simp only [List.mem_cons, List.not_mem_nil, or_false] at hm
    rcases hm with rfl | rfl <;> cases hp
  · have hm := mem_sent_of_le .fifo .none lateSweep (Nat.le_add_left n 13) hm
    rw [hlast, hafter] at hm
    simp only [List.mem_cons, List.not_mem_nil, or_false] at hm
    rcases hm with rfl | rfl | rfl <;> cases hp
    rfl

theorem lateSweep_staysOn : StaysOn .fifo .none lateSweep := by
  intro n m hm p hp
  obtain ⟨hn, rfl⟩ := lateSweep_sent hm hp
  refine Or.inr ⟨by decide, fun l hl d hev => ?_⟩
  have hl : 11 ≤ l := hn.trans hl
  match l, hl, hev with
  | 11, _, hev => cases hev
  | 12, _, hev => cases hev
  | l + 13, _, hev => cases hev

theorem none_stranded_iff_lateSweep :
    (∀ n, NoneStranded .fifo .none (scriptRuns .fifo .none lateSweep) n) ↔
      ∀ n, ¬StrandsAt .fifo .none (scriptRuns .fifo .none lateSweep) n :=
  none_stranded_iff lateSweep_staysOn

/-- Its item is stranded. -/
theorem lateSweep_strands : StaysOn .fifo .none lateSweep ∧
    ¬∀ n, NoneStranded .fifo .none (scriptRuns .fifo .none lateSweep) n := by
  refine ⟨lateSweep_staysOn, fun hnone => ?_⟩
  have hstrands : StrandsAt .fifo .none (scriptRuns .fifo .none lateSweep) 12 := by
    refine ⟨ownerA, ackIDOf ownerA 1 1, 0, .plain 3 fun _ => 0, rfl, le_rfl, ?_, by decide⟩
    refine ⟨11, by decide, lateSweepPop, .plain 2 fun _ => 0, [97], rfl, ⟨rfl, by decide⟩,
      fun j hj hj' => ?_, fun j hj hj' => by omega⟩
    obtain rfl : j = 12 := by omega
    unfold Pending
    decide
  exact hstrands.stranded (hnone 13)

end Redisq.Model
