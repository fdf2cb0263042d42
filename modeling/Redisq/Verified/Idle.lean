import Redisq.Library.Draw
import Redisq.Model.Effect

/-!
# The idle set drops nobody silently

A consumer that stays subscribed leaves the idle set by a signal: a wake
publishes to its channel, or its own nudge finds items and broadcasts.  A wake
for `count` items ends, signals no more than `count` consumers, and signals
exactly `count` unless it empties the set.  A look that finds the queue empty
joins the set in the same step, so that the consumer is in it or has been
signalled since (`idle_until_signalled`).
-/

namespace Redisq.Model

/-! ## Wakes -/

/-- How many consumers a script is to wake. -/
def Invocation.wakes (k : Kind) (env : Env) (s : Store) : Invocation → Option ℕ
  | .push a =>
      if s.remembers env a = false ∧ a.wake = true then some ((s.pushed k env a).len k) else none
  | .wakeIdle count => some count
  | .resume => if s.paused.isSome then some (s.len k) else none
  | _ => none

/-- The loop of `wakeFn` ends, within as many turns as the set has members. -/
theorem wakeLoop_draw (env : Env) (turns : ℕ) {idle : Finset Bytes} (count : ℕ)
    (hturns : idle.card ≤ turns) :
    Draw env.spop (fun id => 0 < env.subscribers id) idle count
      (wakeLoop env turns idle count).1 (wakeLoop env turns idle count).2 := by
  induction turns generalizing idle count with
  | zero =>
      have hempty : idle = ∅ := Finset.card_eq_zero.mp (Nat.le_zero.mp hturns)
      cases count with
      | zero => exact .enough idle
      | succ count => exact .empty ((env.spop_eq_none idle).mpr hempty)
  | succ turns ih =>
      cases count with
      | zero => exact .enough idle
      | succ count =>
          cases hspop : env.spop idle with
          | none =>
              have hloop : wakeLoop env (turns + 1) idle (count + 1) = ([], idle) := by
                simp [wakeLoop, hspop]
              rw [hloop]
              exact .empty hspop
          | some id =>
              have hcard : (idle.erase id).card ≤ turns := by
                rw [Finset.card_erase_of_mem (env.mem_of_spop idle id hspop)]
                omega
              by_cases hsubscribed : 0 < env.subscribers id
              · simp only [wakeLoop, hspop, hsubscribed, if_true, if_neg (Nat.succ_ne_zero count)]
                exact .kept hspop hsubscribed (ih _ hcard)
              · simp only [wakeLoop, hspop, hsubscribed, if_false, if_neg (Nat.succ_ne_zero count)]
                exact .passed hspop hsubscribed (ih _ hcard)

section Scripts

variable {k : Kind} {cj : Cjson} {env : Env} {s : Store} {inv : Invocation} {c : Bytes}

theorem idleAfter_of_wakes {count : ℕ} (h : inv.wakes k env s = some count) :
    inv.idleAfter k env s = s.woken env count := by
  cases inv with
  | push a =>
      simp only [Invocation.wakes, Option.ite_none_right_eq_some, Option.some.injEq] at h
      rw [Invocation.idleAfter, if_pos h.1, h.2]
  | wakeIdle n => rw [Invocation.idleAfter, Option.some.inj h]
  | resume =>
      simp only [Invocation.wakes, Option.ite_none_right_eq_some, Option.some.injEq] at h
      rw [Invocation.idleAfter, if_pos h.1, h.2]
  | _ => cases h

/-- The reply of a script that signalled so many consumers. -/
def Invocation.wakeReply (signalled : ℕ) : Invocation → Reply
  | .push _ => .pushed (some signalled)
  | .resume => .found true
  | _ => .count signalled

/-- Pushes and wakes reply how many consumers they signalled. -/
theorem wakes_reply {count : ℕ} (h : inv.wakes k env s = some count) :
    ((inv.script k cj env).exec s).1 = inv.wakeReply (s.woken env count).1.length := by
  cases inv with
  | push a =>
      simp only [Invocation.wakes, Option.ite_none_right_eq_some, Option.some.injEq] at h
      obtain ⟨⟨hrem, hwake⟩, rfl⟩ := h
      simp only [Invocation.script, ↓Script.exec_bind, Script.exec_pure, Invocation.wakeReply,
        push_exec k env a s hrem, (pushBody_exec k env a s).2 hwake]
  | wakeIdle n =>
      obtain rfl := Option.some.inj h
      rfl
  | resume =>
      simp only [Invocation.wakes, Option.ite_none_right_eq_some, Option.some.injEq] at h
      simp only [Invocation.script, resumeScript, delPaused, wake, ↓Script.exec_bind,
        Script.exec_command, ↓Script.exec_ite, Script.exec_pure, exec_lenCmd, h.1, if_true,
        Option.isSome_some, Invocation.wakeReply]
  | _ => cases h

/-- A script that wakes nobody takes out a member by its own nudge, which
finds items, or by its `leave`. -/
theorem idleAfter_of_not_wakes (h : inv.wakes k env s = none) (hc : c ∈ s.idle)
    (hout : c ∉ (inv.idleAfter k env s).2) :
    (∃ idle, inv = .nudge c idle ∧ 0 < s.len k) ∨ inv = .leave c := by
  cases inv with
  | push a =>
      have hquiet : ¬(s.remembers env a = false ∧ a.wake = true) := fun hwakes => by
        rw [Invocation.wakes, if_pos hwakes] at h
        cases h
      rw [Invocation.idleAfter, if_neg hquiet] at hout
      exact absurd hc hout
  | pop p =>
      have hkept : c ∈ (p.effect k env s).2.idle := by
        rw [p.effect_idle]
        split
        · exact Finset.mem_insert_of_mem hc
        · exact hc
      exact absurd hkept hout
  | lenIdle consumer =>
      simp only [Invocation.idleAfter, quiet] at hout
      split at hout
      · exact absurd (Finset.mem_insert_of_mem hc) hout
      · exact absurd hc hout
  | nudge consumer idle =>
      simp only [Invocation.idleAfter, quiet] at hout
      by_cases hlen : 0 < s.len k
      · rw [if_pos hlen] at hout
        by_cases heq : c = consumer
        · exact Or.inl ⟨idle, by rw [heq], hlen⟩
        · exact absurd (Finset.mem_erase.mpr ⟨heq, hc⟩) hout
      · rw [if_neg hlen] at hout
        split at hout
        · exact absurd (Finset.mem_insert_of_mem hc) hout
        · exact absurd hc hout
  | markIdle consumer => exact absurd (Finset.mem_insert_of_mem hc) hout
  | leave consumer =>
      right
      by_contra hne
      have hother : c ≠ consumer := fun heq => hne (by rw [heq])
      exact hout (Finset.mem_erase.mpr ⟨hother, hc⟩)
  | wakeIdle count => cases h
  | resume =>
      have hquiet : ¬s.paused.isSome = true := fun hpaused => by
        rw [Invocation.wakes, if_pos hpaused] at h
        cases h
      rw [Invocation.idleAfter, if_neg hquiet] at hout
      exact absurd hc hout
  | _ => exact absurd hc hout

@[simp] theorem exec_nudge_reply (k : Kind) (consumer : Bytes) (idle : Bool) (s : Store) :
    ((nudge k consumer idle).exec s).1 = s.len k := by
  simp only [nudge, ↓Script.exec_bind, ↓Script.exec_ite, Script.exec_pure, exec_lenCmd]
  split
  · rfl
  · split <;> rfl

@[simp] theorem exec_lenIdle_reply (k : Kind) (consumer : Bytes) (s : Store) :
    ((lenIdle k consumer).exec s).1 = s.len k := by
  simp only [lenIdle, ↓Script.exec_bind, ↓Script.exec_ite, Script.exec_pure, exec_lenCmd]
  split <;> rfl

/-- A single pop's miss is of an empty queue. -/
theorem Store.pop_one_empty {a : PopArgs} {id : Bytes} {slots : ℕ}
    (h : (s.pop k env a [id] slots).1.one = .empty) :
    (s.pop k env a [id] slots).1 = .popped 0 [] := by
  unfold Store.pop at h ⊢
  rw [Store.holds_one] at h ⊢
  cases hheld : s.nacked.lookup id with
  | some v => simp [hheld, Store.handedBack, Store.leading_one, BatchReply.one] at h
  | none =>
      simp only [hheld, Option.isSome_none, Bool.false_eq_true, if_false] at h ⊢
      split at h
      · cases h
      · next hpaused =>
          cases hhead : s.head k [id] with
          | nil =>
              have hlen : s.len k = 0 := (Store.head_eq_nil (by simp)).mp hhead
              simp only [if_neg hpaused, Store.poppedFresh, hhead, if_true, hlen]
          | cons v rest => simp [Store.poppedFresh, hhead, BatchReply.one] at h

/-- A reply that shows the queue empty and slots left. -/
theorem PopCall.effect_short {p : PopCall}
    (h : ((p.run k env).exec s).1 = .one .empty ∨
      ∃ items, ((p.run k env).exec s).1 = .batch (.popped 0 items) ∧ items.length < p.slots) :
    (p.effect k env s).1.short p.slots = true := by
  rw [popCall_exec] at h
  obtain ⟨args, script⟩ := p
  cases script with
  | one =>
      obtain h | ⟨items, h, _⟩ := h
      · have hone : (PopCall.effect k env ⟨args, .one⟩ s).1 = .popped 0 [] :=
          Store.pop_one_empty (Reply.one.inj h)
        rw [hone]
        rfl
      · cases h
  | oneLen slots =>
      obtain h | ⟨items, h, hslots⟩ := h
      · cases h
      · rw [Reply.batch.inj h]
        exact decide_eq_true ⟨rfl, hslots⟩
  | batch want slots =>
      obtain h | ⟨items, h, hslots⟩ := h
      · cases h
      · rw [Reply.batch.inj h]
        exact decide_eq_true ⟨rfl, hslots⟩

end Scripts

/-! ## Runs -/

/-- A script run signals a consumer: its wake publishes to the consumer's
channel, or it is the consumer's nudge, with a reply that makes it
broadcast. -/
def ScriptRun.Signals (k : Kind) (cj : Cjson) (s : Store) (r : ScriptRun) (c : Owner) : Prop :=
  c.name ∈ (r.inv.idleAfter k r.env (s.evicted r.env)).1 ∨
    ∃ idle waiting, r.inv = .nudge c.name idle ∧ r.reply k cj s = .count waiting ∧ 0 < waiting

/-- A consumer's Len or pop whose reply says that the queue is empty, and
that slots are left. -/
def ScriptRun.FindsEmpty (k : Kind) (cj : Cjson) (s : Store) (r : ScriptRun) (c : Owner) : Prop :=
  match r.inv with
  | .lenIdle consumer => consumer = c.name ∧ r.reply k cj s = .count 0
  | .pop p =>
      p.args.consumerID = c.name ∧
        (r.reply k cj s = .one .empty ∨
          ∃ items, r.reply k cj s = .batch (.popped 0 items) ∧ items.length < p.slots)
  | _ => False

/-- The consumer is subscribed while the script runs, and the script is not
part of its Close. -/
def ScriptRun.Keeps (c : Owner) (r : ScriptRun) : Prop :=
  0 < r.env.subscribers c.name ∧ r.inv ≠ .leave c.name

section Runs

variable {k : Kind} {cj : Cjson} {u : ℕ → Option ScriptRun} {c : Owner} {m n : ℕ}

theorem Store.evicted_idle (env : Env) (s : Store) : (s.evicted env).idle = s.idle := by
  obtain ⟨_, _, _, h⟩ := s.evicted_eq env
  rw [h]

theorem storeAt_idle {r : ScriptRun} (hr : u n = some r) :
    (storeAt k cj u (n + 1)).idle =
      (r.inv.idleAfter k r.env ((storeAt k cj u n).evicted r.env)).2 := by
  rw [storeAt_succ, hr]
  exact script_idle k cj r.env r.inv _

/-- One step that takes a consumer out of the set signals it. -/
theorem taken_signalled {r : ScriptRun} (hr : u n = some r) (hkeeps : r.Keeps c)
    (hc : c.name ∈ (storeAt k cj u n).idle) (hout : c.name ∉ (storeAt k cj u (n + 1)).idle) :
    r.Signals k cj (storeAt k cj u n) c := by
  rw [storeAt_idle hr] at hout
  rw [← Store.evicted_idle r.env] at hc
  cases hwakes : r.inv.wakes k r.env ((storeAt k cj u n).evicted r.env) with
  | some count =>
      left
      rw [idleAfter_of_wakes hwakes] at hout ⊢
      exact (wakeLoop_draw r.env _ count le_rfl).mem_of_taken hc hkeeps.1 hout
  | none =>
      right
      obtain ⟨idle, hnudge, hlen⟩ | hleave := idleAfter_of_not_wakes hwakes hc hout
      · refine ⟨idle, ((storeAt k cj u n).evicted r.env).len k, hnudge, ?_, hlen⟩
        simp only [ScriptRun.reply, ScriptRun.exec, hnudge, Invocation.script,
          ↓Script.exec_bind, Script.exec_pure, exec_nudge_reply]
      · exact absurd hleave hkeeps.2

/-- A look that finds the queue empty joins the set. -/
theorem findsEmpty_joins {r : ScriptRun} (hr : u n = some r)
    (h : r.FindsEmpty k cj (storeAt k cj u n) c) : c.name ∈ (storeAt k cj u (n + 1)).idle := by
  rw [storeAt_idle hr]
  unfold ScriptRun.FindsEmpty at h
  split at h
  · next consumer hinv =>
      obtain ⟨rfl, hreply⟩ := h
      have hlen : ((storeAt k cj u n).evicted r.env).len k = 0 := by
        simp only [ScriptRun.reply, ScriptRun.exec, hinv, Invocation.script,
          ↓Script.exec_bind, Script.exec_pure, exec_lenIdle_reply] at hreply
        exact Reply.count.inj hreply
      simp only [hinv, Invocation.idleAfter, quiet]
      rw [if_pos ⟨hlen, c.nonempty⟩]
      exact Finset.mem_insert_self _ _
  · next p hinv =>
      obtain ⟨hconsumer, hreply⟩ := h
      simp only [ScriptRun.reply, ScriptRun.exec, hinv, Invocation.script] at hreply
      simp only [hinv, Invocation.idleAfter, quiet]
      rw [p.effect_idle, hconsumer, if_pos ⟨c.nonempty, PopCall.effect_short hreply⟩]
      exact Finset.mem_insert_self _ _
  · exact absurd h id

/-- A member stays one until it is signalled. -/
theorem idle_or_signalled (hmn : m ≤ n) (hidle : c.name ∈ (storeAt k cj u m).idle)
    (hkeeps : ∀ i r, m ≤ i → i < n → u i = some r → r.Keeps c) :
    c.name ∈ (storeAt k cj u n).idle ∨
      ∃ i r, m ≤ i ∧ i < n ∧ u i = some r ∧ r.Signals k cj (storeAt k cj u i) c := by
  induction n, hmn using Nat.le_induction with
  | base => exact Or.inl hidle
  | succ n hmn ih =>
      obtain hin | ⟨i, r, hi, hin, hr, hsignals⟩ := ih fun i r hi hin => hkeeps i r hi (by omega)
      · by_cases hout : c.name ∈ (storeAt k cj u (n + 1)).idle
        · exact Or.inl hout
        · right
          cases hr : u n with
          | none =>
              rw [storeAt_succ_none hr] at hout
              exact absurd hin hout
          | some r =>
              have hsignals := taken_signalled hr (hkeeps n r hmn n.lt_succ_self hr) hin hout
              exact ⟨n, r, hmn, n.lt_succ_self, hr, hsignals⟩
      · exact Or.inr ⟨i, r, hi, by omega, hr, hsignals⟩

/-- A consumer that stays subscribed and does not close leaves the idle set
only by a script that signals it.  Every wake ends, signals at most as many
consumers as it has items for, all of them subscribed and no one twice, and
exactly as many if it leaves a member.  From a look that finds the queue
empty on, the consumer is in the set or has been signalled. -/
theorem idle_until_signalled (k : Kind) (cj : Cjson) (u : ℕ → Option ScriptRun) :
    (∀ n r c, u n = some r → r.Keeps c → c.name ∈ (storeAt k cj u n).idle →
      c.name ∉ (storeAt k cj u (n + 1)).idle → r.Signals k cj (storeAt k cj u n) c) ∧
    (∀ n r count, u n = some r →
      r.inv.wakes k r.env ((storeAt k cj u n).evicted r.env) = some count →
      ∃ signalled,
        (r.inv.idleAfter k r.env ((storeAt k cj u n).evicted r.env)).1 = signalled ∧
        r.reply k cj (storeAt k cj u n) = r.inv.wakeReply signalled.length ∧
        Draw r.env.spop (fun id => 0 < r.env.subscribers id) (storeAt k cj u n).idle count
          signalled (storeAt k cj u (n + 1)).idle ∧
        (∀ id ∈ signalled, 0 < r.env.subscribers id) ∧ signalled.Nodup ∧
        signalled.length ≤ count ∧
        (signalled.length = count ∨ (storeAt k cj u (n + 1)).idle = ∅)) ∧
    ∀ m n r c, m < n → u m = some r → r.FindsEmpty k cj (storeAt k cj u m) c →
      (∀ i r', m < i → i < n → u i = some r' → r'.Keeps c) →
      c.name ∈ (storeAt k cj u n).idle ∨
        ∃ i r', m < i ∧ i < n ∧ u i = some r' ∧ r'.Signals k cj (storeAt k cj u i) c := by
  refine ⟨fun n r c hr hkeeps hc hout => taken_signalled hr hkeeps hc hout, ?_, ?_⟩
  · intro n r count hr hwakes
    have hafter := idleAfter_of_wakes hwakes
    have hdraw : Draw r.env.spop (fun id => 0 < r.env.subscribers id) (storeAt k cj u n).idle
        count (r.inv.idleAfter k r.env ((storeAt k cj u n).evicted r.env)).1
        (storeAt k cj u (n + 1)).idle := by
      rw [storeAt_idle hr, hafter, ← Store.evicted_idle r.env]
      exact wakeLoop_draw r.env _ count le_rfl
    have hreply : r.reply k cj (storeAt k cj u n) = r.inv.wakeReply
        (r.inv.idleAfter k r.env ((storeAt k cj u n).evicted r.env)).1.length := by
      rw [hafter]
      exact wakes_reply hwakes
    exact ⟨_, rfl, hreply, hdraw, hdraw.accepts_of_mem, hdraw.nodup r.env.mem_of_spop,
      hdraw.length_le, hdraw.all_or_empty r.env.spop_eq_none⟩
  · intro m n r c hmn hr hempty hkeeps
    exact idle_or_signalled hmn (findsEmpty_joins hr hempty) hkeeps

end Runs

end Redisq.Model
