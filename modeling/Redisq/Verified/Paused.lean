import Redisq.Verified.Pending

/-!
# A pause gates every pop

`:paused` is set by a Pause and dropped by a Resume only.  While it exists a
pop takes nothing: it refuses, and then changes no key at all, or it hands
back what is still pending under its ack IDs, which it does as if there were
no pause (`pause_gates_pops`).
-/

namespace Redisq.Model

/-! ## The key the pops read -/

/-- The ack pops count `:paused`, `:started` and `:heartbeats` from the end of
KEYS, the other keys from its start. -/
theorem popKeys_positions (k : Kind) :
    keyFromEnd (popKeys k) 2 = some .paused ∧ keyFromEnd (popKeys k) 1 = some .started ∧
      keyFromEnd (popKeys k) 0 = some .heartbeats ∧ keyAt (popKeys k) 1 = some .queue ∧
      keyAt (popKeys k) 2 = some .nacked ∧ keyAt (popKeys k) 3 = some .timeouts ∧
      keyAt (popKeys k) 4 = some .idle ∧ (k = .prio → keyAt (popKeys k) 5 = some .prio) := by
  cases k <;> decide

theorem rawKeys_positions : keyAt rawKeys 1 = some .queue ∧ keyAt rawKeys 2 = some .paused := by
  decide

/-! ## Who sets and drops it -/

section Scripts

variable {k : Kind} {cj : Cjson} {env : Env} {s : Store}

theorem Store.movedAll_paused (k : Kind) (cj : Cjson) (ids : List Bytes) (s : Store) :
    (ids.foldl (Store.moved k cj) s).paused = s.paused := by
  obtain ⟨_, _, _, _, _, _, _, _, _, h⟩ := s.movedAll_eq k cj ids
  rw [h]

theorem PopCall.effect_paused (k : Kind) (env : Env) (p : PopCall) (s : Store) :
    (p.effect k env s).2.paused = s.paused := by
  obtain ⟨_, _, _, _, _, _, _, _, h⟩ := s.pop_eq k env p.args p.ids p.slots
  rw [PopCall.effect, h]

/-- A script other than a Pause or a Resume leaves the key alone. -/
theorem after_paused (inv : Invocation) (hpause : inv ≠ .pause) (hresume : inv ≠ .resume) :
    (inv.after k cj env s).paused = s.paused := by
  cases inv with
  | push a =>
      simp only [Invocation.after, Store.afterPush]
      split
      · rfl
      · cases k <;> rfl
  | rawPop =>
      simp only [Invocation.after, Store.rawPopped]
      split
      · rfl
      · cases k <;> rfl
  | pop p => exact p.effect_paused k env s
  | finish a =>
      simp only [Invocation.after, Store.afterFinish]
      split <;> rfl
  | requeue vt => exact Store.movedAll_paused k cj _ s
  | sweep owner hbt =>
      rw [Invocation.after, Store.swept_eq]
      exact Store.movedAll_paused k cj _ s
  | release owner => exact Store.movedAll_paused k cj _ s
  | remove item =>
      cases k with
      | fifo => rfl
      | prio =>
          simp only [Invocation.after, Store.removed]
          split <;> rfl
  | pause => exact absurd rfl hpause
  | resume => exact absurd rfl hresume
  | _ => rfl

/-! ## Pops under a pause -/

/-- A pop of any kind. -/
def Invocation.isPop : Invocation → Bool
  | .rawPop => true
  | .pop _ => true
  | _ => false

/-- The reply of a pop refused for a pause. -/
def Reply.refuses : Reply → Bool
  | .one .paused => true
  | .batch .paused => true
  | _ => false

/-- The same keys without `:paused`. -/
def Store.unpaused (s : Store) : Store := { s with paused := none }

/-- A raw pop refuses, and changes nothing. -/
theorem rawPop_refused (k : Kind) (h : s.paused.isSome = true) :
    (rawPop k).exec s = (.paused, s) := by
  cases k <;>
    simp only [rawPop, listRawPop, zsetRawPop, ↓Script.exec_bind, ↓Script.exec_ite,
      exec_existsPaused, Script.exec_pure, h, if_true]

/-- The refusal is the reply `paused` of the effect. -/
theorem popCall_refuses {p : PopCall} :
    ((p.run k env).exec s).1.refuses = true ↔ (p.effect k env s).1 = .paused := by
  rw [popCall_exec]
  obtain ⟨args, script⟩ := p
  cases heffect : (PopCall.effect k env ⟨args, script⟩ s).1 with
  | paused => cases script <;> simp only [Reply.refuses, BatchReply.one]
  | popped size items =>
      cases script with
      | one => cases items <;> simp [Reply.refuses, BatchReply.one]
      | _ => simp [Reply.refuses]

/-- The guard of the hand-back stands before the check of the pause. -/
theorem PopCall.effect_refuses {p : PopCall} :
    (p.effect k env s).1 = .paused ↔ s.holds p.ids = false ∧ s.paused.isSome = true := by
  unfold PopCall.effect Store.pop
  by_cases hheld : s.holds p.ids = true
  · simp [hheld, Store.handedBack]
  · by_cases hpaused : s.paused.isSome = true
    · simp [hheld, hpaused]
    · simp [hheld, hpaused, Store.poppedFresh]

/-- An ack pop that refuses changes nothing. -/
theorem popCall_refused {p : PopCall} (h : (p.effect k env s).1 = .paused) :
    ((p.run k env).exec s).2 = s := by
  obtain ⟨hfree, hpaused⟩ := PopCall.effect_refuses.mp h
  rw [popCall_exec, PopCall.effect, Store.pop, hfree, if_neg Bool.false_ne_true, if_pos hpaused]

/-- An ack pop that finds an ID held does what it does without a pause. -/
theorem popCall_handsBack {p : PopCall} (hheld : s.holds p.ids = true) :
    (p.run k env).exec s =
      (((p.run k env).exec s.unpaused).1,
        { ((p.run k env).exec s.unpaused).2 with paused := s.paused }) := by
  have hheld' : s.unpaused.holds p.ids = true := hheld
  have hleading : ∀ ids, s.unpaused.leading ids = s.leading ids := by
    intro ids
    induction ids with
    | nil => rfl
    | cons id rest ih =>
        have hlookup : s.unpaused.nacked = s.nacked := rfl
        rw [Store.leading, Store.leading, hlookup, ih]
  have heffect : p.effect k env s =
      ((p.effect k env s.unpaused).1,
        { (p.effect k env s.unpaused).2 with paused := s.paused }) := by
    simp only [PopCall.effect, Store.pop, hheld, hheld', if_true, Store.handedBack, hleading]
    cases k <;> rfl
  rw [popCall_exec, popCall_exec, heffect]

/-- A hand-back takes nothing and adds no entry. -/
theorem popCall_keeps {p : PopCall} (hheld : s.holds p.ids = true) :
    ((p.run k env).exec s).2.list = s.list ∧ ((p.run k env).exec s).2.zset = s.zset ∧
      ((p.run k env).exec s).2.nacked = s.nacked := by
  rw [popCall_exec]
  simp only [PopCall.effect, Store.pop, hheld, if_true, Store.handedBack, Store.joined, and_self]

/-- A script that refuses changes no key. -/
theorem refused_unchanged {inv : Invocation}
    (h : ((inv.script k cj env).exec s).1.refuses = true) :
    ((inv.script k cj env).exec s).2 = s := by
  cases inv with
  | rawPop =>
      simp only [Invocation.script, ↓Script.exec_bind, Script.exec_pure] at h ⊢
      by_cases hpaused : s.paused.isSome = true
      · rw [rawPop_refused k hpaused]
      · exfalso
        cases k with
        | fifo =>
            cases hlist : s.list <;>
              simp [rawPop, listRawPop, lpop, hpaused, hlist, Reply.refuses] at h
        | prio =>
            cases hzset : s.zset.entries <;>
              simp [rawPop, zsetRawPop, zpopmin, hpaused, hzset, Reply.refuses] at h
  | pop p =>
      rw [Invocation.script] at h ⊢
      exact popCall_refused (popCall_refuses.mp h)
  | _ =>
      exfalso
      simp only [Invocation.script, ↓Script.exec_bind, Script.exec_pure, Reply.refuses] at h
      exact Bool.false_ne_true h

end Scripts

/-! ## Runs -/

section Runs

variable {k : Kind} {cj : Cjson} {u : ℕ → Option ScriptRun} {m n : ℕ}

theorem storeAt_paused {r : ScriptRun} (hr : u n = some r) :
    (storeAt k cj u (n + 1)).paused = (r.after k cj (storeAt k cj u n)).paused := by
  obtain ⟨_, _, _, _, h⟩ := step_some k cj (storeAt k cj u n) r
  rw [storeAt_succ, hr, h]

theorem Store.evicted_paused (env : Env) (s : Store) : (s.evicted env).paused = s.paused := by
  obtain ⟨_, _, _, h⟩ := s.evicted_eq env
  rw [h]

/-- From a Pause to the next Resume the key exists. -/
theorem paused_until {env : Env} (hpause : u m = some ⟨.pause, env⟩) (hmn : m < n)
    (hresume : ∀ i env', m < i → i < n → u i ≠ some ⟨.resume, env'⟩) :
    (storeAt k cj u n).paused.isSome = true := by
  induction n, hmn using Nat.le_induction with
  | base =>
      rw [storeAt_paused hpause]
      rfl
  | succ n hmn ih =>
      have hbefore := ih fun i env' hi hin => hresume i env' hi (hin.trans (Nat.lt_succ_self n))
      cases hr : u n with
      | none => rw [storeAt_succ_none hr]; exact hbefore
      | some r =>
          rw [storeAt_paused hr, ScriptRun.after]
          by_cases hagain : r.inv = .pause
          · rw [hagain]
            rfl
          · have hnot : r.inv ≠ .resume := fun heq =>
              hresume n r.env hmn (Nat.lt_succ_self n) (by rw [hr, ← heq])
            rw [after_paused r.inv hagain hnot, Store.evicted_paused]
            exact hbefore

/-- From a Pause to the next Resume a run of a pop takes nothing from the
queue and makes nothing pending.  It refuses and leaves every key as it finds
it, or it finds one of its IDs held and then replies and does just what it
would without the pause. -/
theorem pause_gates_pops (k : Kind) (cj : Cjson) (u : ℕ → Option ScriptRun) {env : Env}
    (hpause : u m = some ⟨.pause, env⟩) (hmn : m < n)
    (hresume : ∀ i env', m < i → i < n → u i ≠ some ⟨.resume, env'⟩) {r : ScriptRun}
    (hr : u n = some r) (hpop : r.inv.isPop = true) :
    ((storeAt k cj u (n + 1)).list = ((storeAt k cj u n).evicted r.env).list ∧
        (storeAt k cj u (n + 1)).zset = ((storeAt k cj u n).evicted r.env).zset ∧
        (storeAt k cj u (n + 1)).nacked = (storeAt k cj u n).nacked) ∧
      ((r.reply k cj (storeAt k cj u n)).refuses = true →
        storeAt k cj u (n + 1) = (storeAt k cj u n).evicted r.env) ∧
      ((r.reply k cj (storeAt k cj u n)).refuses = true ∨
        ∃ p, r.inv = .pop p ∧ (storeAt k cj u n).holds p.ids = true) ∧
      ∀ p, r.inv = .pop p → (storeAt k cj u n).holds p.ids = true →
        r.reply k cj (storeAt k cj u n) = r.reply k cj (storeAt k cj u n).unpaused ∧
          storeAt k cj u (n + 1) =
            { step k cj (storeAt k cj u n).unpaused (some r) with
              paused := (storeAt k cj u n).paused } := by
  have hpaused : ((storeAt k cj u n).evicted r.env).paused.isSome = true := by
    rw [Store.evicted_paused]
    exact paused_until hpause hmn hresume
  have hnext : storeAt k cj u (n + 1) =
      ((r.inv.script k cj r.env).exec ((storeAt k cj u n).evicted r.env)).2 := by
    rw [storeAt_succ, hr]
    rfl
  have hunpaused : (storeAt k cj u n).unpaused.evicted r.env =
      ((storeAt k cj u n).evicted r.env).unpaused := by
    unfold Store.evicted Store.unpaused
    split <;> rfl
  have hholds : ∀ ids, ((storeAt k cj u n).evicted r.env).holds ids =
      (storeAt k cj u n).holds ids := by
    intro ids
    simp only [Store.holds, Store.evicted_nacked]
  refine ⟨?_, fun href => ?_, ?_, fun p hp hheld => ?_⟩
  · rw [hnext, ← Store.evicted_nacked r.env (storeAt k cj u n)]
    cases hinv : r.inv with
    | rawPop =>
        simp only [Invocation.script, ↓Script.exec_bind, Script.exec_pure,
          rawPop_refused k hpaused, and_self]
    | pop p =>
        by_cases hheld : ((storeAt k cj u n).evicted r.env).holds p.ids = true
        · exact popCall_keeps hheld
        · have hrefuses : (p.effect k r.env ((storeAt k cj u n).evicted r.env)).1 = .paused :=
            PopCall.effect_refuses.mpr ⟨Bool.not_eq_true _ ▸ hheld, hpaused⟩
          have href := popCall_refused hrefuses
          rw [Invocation.script, href]
          exact ⟨rfl, rfl, rfl⟩
    | _ => rw [hinv] at hpop; cases hpop
  · rw [hnext]
    exact refused_unchanged href
  · cases hinv : r.inv with
    | rawPop =>
        left
        simp only [ScriptRun.reply, ScriptRun.exec, hinv, Invocation.script, ↓Script.exec_bind,
          Script.exec_pure, rawPop_refused k hpaused]
        rfl
    | pop p =>
        by_cases hheld : ((storeAt k cj u n).evicted r.env).holds p.ids = true
        · exact Or.inr ⟨p, rfl, by rw [← hholds]; exact hheld⟩
        · left
          simp only [ScriptRun.reply, ScriptRun.exec, hinv, Invocation.script]
          exact popCall_refuses.mpr
            (PopCall.effect_refuses.mpr ⟨Bool.not_eq_true _ ▸ hheld, hpaused⟩)
    | _ => rw [hinv] at hpop; cases hpop
  · have hheld' : ((storeAt k cj u n).evicted r.env).holds p.ids = true := by
      rw [hholds]
      exact hheld
    have hback : (p.run k r.env).exec ((storeAt k cj u n).evicted r.env) = _ :=
      popCall_handsBack hheld'
    refine ⟨?_, ?_⟩
    · simp only [ScriptRun.reply, ScriptRun.exec, hp, Invocation.script, hunpaused]
      rw [hback]
    · rw [hnext, hp, Invocation.script, hback, Store.evicted_paused]
      simp only [step, ScriptRun.exec, hp, Invocation.script, hunpaused]

end Runs

/-- A push, a Pause and a lean pop of a consumer. -/
def pausedPop : ℕ → Option ScriptRun
  | 0 => some ⟨.push ⟨[65], 0, 0, false, none⟩, .plain 1000 fun _ => 1⟩
  | 1 => some ⟨.pause, .plain 2000 fun _ => 1⟩
  | 2 => some ⟨.pop ⟨⟨ownerA, 0, 0, 0, true⟩, .oneLen 2⟩, .plain 3000 fun _ => 1⟩
  | _ => none

/-- It refuses, and the queue, the pending jobs and the idle set stay. -/
theorem pause_gates_pops_pausedPop :
    storeAt .fifo .none pausedPop 3 =
      (storeAt .fifo .none pausedPop 2).evicted (.plain 3000 fun _ => 1) :=
  (pause_gates_pops .fifo .none pausedPop (m := 1) (n := 2) rfl (by decide)
    (fun i _ hi hin => absurd (Nat.lt_of_lt_of_le hi (Nat.le_of_lt_succ hin)) (by omega)) rfl
    rfl).2.1 (by decide)

end Redisq.Model
