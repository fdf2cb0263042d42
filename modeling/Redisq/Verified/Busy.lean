import Redisq.Model.Objects
import Redisq.Verified.Idle

/-!
# Busy consumers in the idle set

A pop takes no consumer out of the idle set.  One that pops without having
been woken is in the set while it is busy, until a wake that it cannot use
draws it; and a nudge that read the idle flag before the pop, or the SADD of
an earlier raw miss, puts it back.  Without these a consumer whose slots a pop
filled stays out of the set until it looks for work in vain
(`busy_stays_out_iff`).
-/

namespace Redisq.Model

/-! ## Who joins -/

/-- A script puts consumer `c` in the idle set. -/
def Invocation.joins (k : Kind) (env : Env) (s : Store) (c : Bytes) : Invocation → Prop
  | .lenIdle consumer => consumer = c ∧ s.len k = 0
  | .pop p => p.args.consumerID = c ∧ (p.effect k env s).1.short p.slots = true
  | .nudge consumer idle => consumer = c ∧ idle = true ∧ s.len k = 0
  | .markIdle consumer => consumer = c
  | _ => False

section Scripts

variable {k : Kind} {env : Env} {s : Store} {inv : Invocation} {c : Bytes}

theorem joins_joined (hc : c ≠ []) (h : inv.joins k env s c) :
    c ∈ (inv.idleAfter k env s).2 := by
  cases inv with
  | lenIdle consumer =>
      obtain ⟨rfl, hlen⟩ := h
      show consumer ∈ if s.len k = 0 ∧ consumer ≠ [] then insert consumer s.idle else s.idle
      rw [if_pos ⟨hlen, hc⟩]
      exact Finset.mem_insert_self _ _
  | pop p =>
      obtain ⟨rfl, hshort⟩ := h
      show p.args.consumerID ∈ (p.effect k env s).2.idle
      rw [p.effect_idle, if_pos ⟨hc, hshort⟩]
      exact Finset.mem_insert_self _ _
  | nudge consumer idle =>
      obtain ⟨rfl, rfl, hlen⟩ := h
      show consumer ∈ if 0 < s.len k then _ else _
      rw [hlen, if_neg (lt_irrefl 0), if_pos rfl]
      exact Finset.mem_insert_self _ _
  | markIdle consumer =>
      cases h
      exact Finset.mem_insert_self _ _
  | _ => exact h.elim

/-- Nobody else joins. -/
theorem joins_of_joined (hout : c ∉ s.idle) (hin : c ∈ (inv.idleAfter k env s).2) :
    inv.joins k env s c := by
  have hwoken : ∀ count, c ∉ (s.woken env count).2 := fun count hmem =>
    hout ((wakeLoop_draw env _ count le_rfl).rest_subset hmem)
  cases inv with
  | push a =>
      simp only [Invocation.idleAfter] at hin
      split at hin
      · exact absurd hin (hwoken _)
      · exact absurd hin hout
  | pop p =>
      have hidle : c ∈ (p.effect k env s).2.idle := hin
      rw [p.effect_idle] at hidle
      split at hidle
      · next hjoins =>
          obtain heq | hmem := Finset.mem_insert.mp hidle
          · exact ⟨heq.symm, hjoins.2⟩
          · exact absurd hmem hout
      · exact absurd hidle hout
  | lenIdle consumer =>
      simp only [Invocation.idleAfter, quiet] at hin
      split at hin
      · next hjoins =>
          obtain heq | hmem := Finset.mem_insert.mp hin
          · exact ⟨heq.symm, hjoins.1⟩
          · exact absurd hmem hout
      · exact absurd hin hout
  | nudge consumer idle =>
      simp only [Invocation.idleAfter, quiet] at hin
      split at hin
      · exact absurd (Finset.mem_of_mem_erase hin) hout
      · next hlen =>
          split at hin
          · next hidle =>
              obtain heq | hmem := Finset.mem_insert.mp hin
              · exact ⟨heq.symm, hidle, by omega⟩
              · exact absurd hmem hout
          · exact absurd hin hout
  | wakeIdle count => exact absurd hin (hwoken count)
  | markIdle consumer =>
      obtain heq | hmem := Finset.mem_insert.mp hin
      · exact heq.symm
      · exact absurd hmem hout
  | leave consumer => exact absurd (Finset.mem_of_mem_erase hin) hout
  | resume =>
      simp only [Invocation.idleAfter] at hin
      split at hin
      · exact absurd hin (hwoken _)
      · exact absurd hin hout
  | _ => exact absurd hin hout

end Scripts

/-! ## Busy consumers -/

/-- A pop's reply hands out items and leaves none of the caller's slots. -/
def Reply.fills (slots : ℕ) : Reply → Bool
  | .one (.item _) => true
  | .batch (.popped _ items) => decide (items ≠ [] ∧ slots ≤ items.length)
  | _ => false

/-- A reply that shows the queue empty, and slots left. -/
def Reply.inVain (slots : ℕ) : Reply → Bool
  | .count n => decide (n = 0)
  | .one .empty => true
  | .batch r => r.short slots
  | _ => false

section Runs

variable (k : Kind) (cj : Cjson) (e : ℕ → Net.Event Owner Operation Env)

/-- The reply to the script that runs. -/
def replyAt (n : ℕ) (inv : Invocation) (env : Env) : Reply :=
  ScriptRun.reply k cj (keysAt k cj e n) ⟨inv, env⟩

/-- In event `n` an ack pop fills the slots of consumer `c`. -/
def FillsSlots (n : ℕ) (c : Owner) : Prop :=
  ∃ op p env, Asks k cj e n c op (.pop p) env ∧
    (replyAt k cj e n (.pop p) env).fills p.slots = true

/-- In event `n` a Len, a pop or a Subscribe of `c` finds no work. -/
def FindsNoWork (n : ℕ) (c : Owner) : Prop :=
  ∃ op inv env, Asks k cj e n c op inv env ∧
    match inv with
    | .lenIdle _ => (replyAt k cj e n inv env).inVain 0 = true
    | .rawPop => (replyAt k cj e n inv env).inVain 1 = true
    | .pop p => (replyAt k cj e n inv env).inVain p.slots = true
    | .markIdle _ => op = .subscribe
    | _ => False

/-- In event `n` a nudge that read the idle flag as set finds the queue empty,
or the SADD after a raw miss runs. -/
def Rejoins (n : ℕ) (c : Owner) : Prop :=
  ∃ op inv env, Asks k cj e n c op inv env ∧
    match inv with
    | .nudge _ idle => idle = true ∧ (replyAt k cj e n inv env).inVain 0 = true
    | .markIdle _ => op ≠ .subscribe
    | _ => False

/-- A consumer whose slots a pop filled is out of the idle set until it finds
no work. -/
def BusyStaysOut : Prop :=
  ∀ c m n, FillsSlots k cj e m c → m < n →
    (∀ i, m < i → i < n → ¬FindsNoWork k cj e i c) → c.name ∉ (keysAt k cj e n).idle

/-- A consumer that a pop leaves busy is not in the idle set then, and until
it finds no work nothing puts it back. -/
def LeftIdle : Prop :=
  ∀ c m, FillsSlots k cj e m c → c.name ∉ (keysAt k cj e m).idle ∧
    ∀ n, m < n → (∀ i, m < i → i < n → ¬FindsNoWork k cj e i c) → ¬Rejoins k cj e n c

end Runs

section Replies

variable {k : Kind} {env : Env} {s : Store} {p : PopCall}

/-- Whether a pop was in vain, from its reply. -/
theorem PopCall.reply_inVain :
    ((p.run k env).exec s).1.inVain p.slots = (p.effect k env s).1.short p.slots := by
  rw [popCall_exec]
  obtain ⟨args, script⟩ := p
  cases script with
  | one =>
      cases heffect : (PopCall.effect k env ⟨args, .one⟩ s).1 with
      | paused => rfl
      | popped size items =>
          cases items with
          | cons v rest => simp [BatchReply.one, Reply.inVain, BatchReply.short, PopCall.slots]
          | nil =>
              have hone : (PopCall.effect k env ⟨args, .one⟩ s).1 = .popped 0 [] :=
                Store.pop_one_empty (congrArg BatchReply.one heffect)
              obtain ⟨rfl, -⟩ := BatchReply.popped.inj (heffect.symm.trans hone)
              rfl
  | oneLen slots => rfl
  | batch want slots => rfl

/-- A pop that fills the caller's slots is not one in vain. -/
theorem PopCall.not_short_of_fills (h : ((p.run k env).exec s).1.fills p.slots = true) :
    (p.effect k env s).1.short p.slots = false := by
  rw [← PopCall.reply_inVain]
  cases hreply : ((p.run k env).exec s).1 with
  | one r =>
      rw [hreply] at h
      cases r with
      | item v => rfl
      | empty => cases h
      | paused => cases h
  | batch r =>
      rw [hreply] at h
      cases r with
      | popped size items =>
          have hslots : items ≠ [] ∧ p.slots ≤ items.length := of_decide_eq_true h
          exact decide_eq_false fun hshort => absurd hshort.2 (not_lt.mpr hslots.2)
      | paused => rfl
  | _ => rw [hreply] at h; cases h

end Replies

section Runs

variable {k : Kind} {cj : Cjson} {e : ℕ → Net.Event Owner Operation Env} {n : ℕ} {c o : Owner}
  {op : Operation} {inv : Invocation} {env : Env}

theorem keysAt_idle (h : Asks k cj e n o op inv env) :
    (keysAt k cj e (n + 1)).idle = (inv.idleAfter k env ((keysAt k cj e n).evicted env)).2 := by
  rw [keysAt_eq, keysAt_eq, storeAt_idle h.objectRuns]

theorem keysAt_unchanged (h : objectRuns k cj e n = none) :
    keysAt k cj e (n + 1) = keysAt k cj e n := by
  rw [keysAt_eq, keysAt_eq, storeAt_succ_none h]

/-- One script runs in an event, of one sender. -/
theorem Asks.unique {o' : Owner} {op' : Operation} {inv' : Invocation} {env' : Env}
    (h : Asks k cj e n o op inv env) (h' : Asks k cj e n o' op' inv' env') :
    o = o' ∧ op = op' ∧ inv = inv' ∧ env = env' := by
  have heq := Option.some.inj (h.symm.trans h')
  simp only [Prod.mk.injEq, Net.Message.mk.injEq] at heq
  exact ⟨heq.1.1, heq.1.2.1, heq.1.2.2, heq.2⟩

/-- A consumer joins by a script of its own. -/
theorem joined_by_own (hout : c.name ∉ (keysAt k cj e n).idle)
    (hin : c.name ∈ (keysAt k cj e (n + 1)).idle) :
    ∃ op inv env, Asks k cj e n c op inv env ∧
      inv.joins k env ((keysAt k cj e n).evicted env) c.name := by
  cases hr : objectRuns k cj e n with
  | none =>
      rw [keysAt_unchanged hr] at hin
      exact absurd hin hout
  | some r =>
      obtain ⟨o, op, hasks⟩ := asks_of_objectRuns hr
      rw [keysAt_idle hasks] at hin
      rw [← Store.evicted_idle r.env] at hout
      have hjoins := joins_of_joined hout hin
      have howner : o = c := by
        have howned := hasks.owned
        cases hinv : r.inv with
        | lenIdle id =>
            rw [hinv] at howned hjoins
            obtain rfl | rfl := howned
            · exact Owner.ext hjoins.1
            · exact absurd hjoins.1.symm c.nonempty
        | nudge id idle =>
            rw [hinv] at howned hjoins
            exact Owner.ext (howned.symm.trans hjoins.1)
        | markIdle id =>
            rw [hinv] at howned hjoins
            exact Owner.ext (howned.symm.trans hjoins)
        | pop p =>
            rw [hinv] at howned hjoins
            have hid := hjoins.1
            unfold PopArgs.consumerID at hid
            split at hid
            · exact howned.symm.trans (Owner.ext hid)
            · exact absurd hid.symm c.nonempty
        | _ => rw [hinv] at hjoins; exact hjoins.elim
      rw [howner] at hasks
      exact ⟨op, r.inv, r.env, hasks, hjoins⟩

/-- It joins because it found no work, or is put back. -/
theorem noWork_or_rejoins (h : Asks k cj e n c op inv env)
    (hjoins : inv.joins k env ((keysAt k cj e n).evicted env) c.name) :
    FindsNoWork k cj e n c ∨ Rejoins k cj e n c := by
  cases inv with
  | lenIdle id =>
      left
      refine ⟨op, _, env, h, ?_⟩
      simp only [replyAt, ScriptRun.reply, ScriptRun.exec, Invocation.script, ↓Script.exec_bind,
        Script.exec_pure, exec_lenIdle_reply, hjoins.2]
      rfl
  | pop p =>
      left
      refine ⟨op, _, env, h, ?_⟩
      simp only [replyAt, ScriptRun.reply, ScriptRun.exec, Invocation.script,
        PopCall.reply_inVain, hjoins.2]
  | nudge id idle =>
      right
      refine ⟨op, _, env, h, hjoins.2.1, ?_⟩
      simp only [replyAt, ScriptRun.reply, ScriptRun.exec, Invocation.script, ↓Script.exec_bind,
        Script.exec_pure, exec_nudge_reply, hjoins.2.2]
      rfl
  | markIdle id =>
      by_cases hop : op = .subscribe
      · exact Or.inl ⟨op, _, env, h, hop⟩
      · exact Or.inr ⟨op, _, env, h, hop⟩
  | _ => exact hjoins.elim

theorem rejoins_joined (h : Rejoins k cj e n c) : c.name ∈ (keysAt k cj e (n + 1)).idle := by
  obtain ⟨op, inv, env, hasks, hinv⟩ := h
  have howned := hasks.owned
  rw [keysAt_idle hasks]
  cases inv with
  | nudge id idle =>
      obtain ⟨rfl, hreply⟩ := hinv
      simp only [replyAt, ScriptRun.reply, ScriptRun.exec, Invocation.script, ↓Script.exec_bind,
        Script.exec_pure, exec_nudge_reply, Reply.inVain, decide_eq_true_eq] at hreply
      exact joins_joined c.nonempty ⟨howned, rfl, hreply⟩
  | markIdle id => exact joins_joined c.nonempty howned
  | _ => exact hinv.elim

/-- What puts a consumer back is no look for work. -/
theorem Rejoins.not_noWork (h : Rejoins k cj e n c) : ¬FindsNoWork k cj e n c := by
  obtain ⟨op, inv, env, hasks, hinv⟩ := h
  rintro ⟨op', inv', env', hasks', hinv'⟩
  obtain ⟨-, rfl, rfl, rfl⟩ := hasks.unique hasks'
  cases inv with
  | nudge id idle => exact hinv'
  | markIdle id => exact hinv hinv'
  | _ => exact hinv

/-- A pop that fills the slots leaves the idle set as it is. -/
theorem fills_idle (h : FillsSlots k cj e n c) :
    (keysAt k cj e (n + 1)).idle = (keysAt k cj e n).idle := by
  obtain ⟨op, p, env, hasks, hfills⟩ := h
  have hshort := PopCall.not_short_of_fills hfills
  rw [keysAt_idle hasks]
  show (p.effect k env _).2.idle = _
  rw [p.effect_idle, hshort, if_neg (by simp), Store.evicted_idle]

/-- A busy consumer stays out of the idle set in exactly the runs where no
pop fills the slots of a member, and none is put back while it is busy. -/
theorem busy_stays_out_iff (k : Kind) (cj : Cjson) (e : ℕ → Net.Event Owner Operation Env) :
    BusyStaysOut k cj e ↔ LeftIdle k cj e := by
  constructor
  · intro hbusy c m hfills
    constructor
    · rw [← fills_idle hfills]
      exact hbusy c m (m + 1) hfills m.lt_succ_self fun i hi hin => by omega
    · intro n hmn hlooks hrejoins
      refine hbusy c m (n + 1) hfills (by omega) (fun i hi hin => ?_) (rejoins_joined hrejoins)
      by_cases heq : i = n
      · rw [heq]
        exact hrejoins.not_noWork
      · exact hlooks i hi (by omega)
  · intro hleft c m n hfills hmn hlooks
    obtain ⟨hout, hrejoins⟩ := hleft c m hfills
    induction n, hmn using Nat.le_induction with
    | base => rwa [fills_idle hfills]
    | succ n hmn ih =>
        have hbefore := ih fun i hi hin => hlooks i hi (by omega)
        intro hin
        obtain ⟨op, inv, env, hasks, hjoins⟩ := joined_by_own hbefore hin
        obtain hlook | hback := noWork_or_rejoins hasks hjoins
        · exact hlooks n hmn n.lt_succ_self hlook
        · exact hrejoins n hmn (fun i hi hin => hlooks i hi (by omega)) hback

end Runs

/-! ## A pop without a wake -/

/-- Both objects subscribe.  An enqueue wakes the first, and the second one
pops the item. -/
def unwokenPop (n : ℕ) : Net.Event Owner Operation Env :=
  let env := Env.plain 1000 fun _ => 1
  [.start 0 ownerA .subscribe, .step 0, .step 0, .step 0, .step 0, .step 0, .run 0 env,
    .start 1 ownerB .subscribe, .step 1, .step 1, .step 1, .step 1, .step 1, .run 1 env,
    .start 2 ownerA (.other (.push ⟨[120], 0, 0, true, none⟩)), .step 2, .run 2 env,
    .start 3 ownerB (.dequeueWithAckId 1 0 0), .step 3, .step 3, .step 3, .step 3, .step 3,
    .step 3, .run 3 env].getD n (.step 0)

/-- The second object is busy, and in the idle set. -/
theorem unwokenPop_busy_in_idle_set : ¬BusyStaysOut .fifo .none unwokenPop := by
  intro hbusy
  have hfills : FillsSlots .fifo .none unwokenPop 24 ownerB :=
    ⟨.dequeueWithAckId 1 0 0, ⟨⟨ownerB, 1, 0, 0, true⟩, .one⟩, .plain 1000 fun _ => 1, rfl,
      by decide⟩
  refine hbusy ownerB 24 25 hfills (by decide) (fun i hi hin => by omega) ?_
  decide

end Redisq.Model
