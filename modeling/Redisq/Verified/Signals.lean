import Redisq.Verified.Busy
import Redisq.Verified.Conservation

/-!
# No wake is lost

Between two moments at which the queue is empty, as many wakes go out as items
come in, unless everybody idle has been woken.  Three kinds of items have no
wake of their own in the script that stores them: those of plain pushes, those
of requeues, whose callers wake afterwards, and, for a consumer that joins the
idle set by SADD while items wait, those that were there already.  The nudge
is there for these.
-/

namespace Redisq.Model

/-! ## The queue's length -/

theorem Store.len_eq_card (k : Kind) (s : Store) : s.len k = Multiset.card (s.waiting k) := by
  cases k with
  | fifo => rfl
  | prio => exact (List.length_map _).symm

theorem Store.len_evicted_le (k : Kind) (env : Env) (s : Store) :
    (s.evicted env).len k ≤ s.len k := by
  unfold Store.evicted
  split
  · cases k <;> exact Nat.zero_le _
  · exact le_rfl

theorem Store.pushed_len_le (k : Kind) (env : Env) (a : PushArgs) (s : Store) :
    (s.pushed k env a).len k ≤ s.len k + 1 := by
  cases k with
  | fifo => exact (List.length_append).le
  | prio => exact SortedSet.length_insert_le _ _ _

theorem Store.pushed_len_pos (k : Kind) (env : Env) (a : PushArgs) (s : Store) :
    0 < (s.pushed k env a).len k := by
  cases k with
  | fifo =>
      show 0 < (s.list ++ [a.item]).length
      rw [List.length_append, List.length_singleton]
      omega
  | prio =>
      show 0 < (s.zset.insert (memberOf (s.seq + 1) a.item) a.priority).entries.length
      rw [(s.zset.insert_perm _ _).length_eq, List.length_cons]
      omega

theorem Store.repushed_len_le (k : Kind) (id v : Bytes) (s : Store) :
    (s.repushed k id v).len k ≤ s.len k + 1 := by
  cases k with
  | fifo => exact le_rfl
  | prio => exact SortedSet.length_insert_le _ _ _

theorem Store.moved_len_le (k : Kind) (cj : Cjson) (s : Store) (id : Bytes) :
    (s.moved k cj id).len k ≤ s.len k + Multiset.card ((s.custody k).entryOf id) := by
  cases h : s.nacked.lookup id with
  | none =>
      rw [Store.moved_of_none h]
      exact Nat.le_add_right _ _
  | some v =>
      have hentry : (s.custody k).entryOf id = {(id, v)} := Custody.entryOf_of_some h
      rw [Store.moved_of_some h, hentry, Multiset.card_singleton]
      exact s.repushed_len_le k id v

/-- A requeue adds one item to the queue for each entry it moves, at most. -/
theorem Store.movedAll_len_le (k : Kind) (cj : Cjson) (ids : List Bytes) (s : Store) :
    (ids.foldl (Store.moved k cj) s).len k ≤
      s.len k + Multiset.card ((s.custody k).entriesOf ids) := by
  induction ids generalizing s with
  | nil => exact Nat.le_add_right _ _
  | cons id rest ih =>
      have hrest : ((s.moved k cj id).custody k).entriesOf rest =
          ((s.custody k).giveBackOne id).entriesOf rest :=
        Custody.entriesOf_congr rest (s.moved_nacked k cj id)
      have hone := s.moved_len_le k cj id
      have hall := ih (s.moved k cj id)
      rw [hrest] at hall
      rw [List.foldl_cons, Custody.entriesOf, Multiset.card_add]
      omega

/-- How many items a script run takes off the queue. -/
def ScriptRun.takes (k : Kind) (cj : Cjson) (s : Store) (r : ScriptRun) : ℕ :=
  Multiset.card (r.takenOut k cj s) + Multiset.card (r.popped k s)

theorem bagOf_card_le (v : Option Bytes) : Multiset.card (bagOf v) ≤ 1 := by
  cases v <;> simp [bagOf]

/-- What a script leaves on the queue and takes off it was there or is put on
it. -/
theorem after_len_le (k : Kind) (cj : Cjson) {s : Store} {r : ScriptRun}
    (hs : s.evicted r.env = s) :
    (r.inv.after k cj r.env s).len k + r.takes k cj s ≤ s.len k + r.puts k cj s := by
  unfold ScriptRun.takes ScriptRun.puts
  obtain ⟨inv, env⟩ := r
  have hrequeued : ∀ ids : List Bytes, (ids.foldl (Store.moved k cj) s).len k + (0 + 0) ≤
      s.len k + (0 + Multiset.card ((s.custody k).entriesOf ids)) := fun ids => by
    have hlen := s.movedAll_len_le k cj ids
    omega
  cases inv with
  | push a =>
      have hreply := push_reply k cj s env a
      by_cases h : s.remembers env a = true
      · simp [Invocation.after, Store.afterPush, h, ScriptRun.takenOut, ScriptRun.popped]
      · rw [if_neg h] at hreply
        obtain ⟨r, hreply⟩ := hreply
        have hlen := s.pushed_len_le k env a
        have hsame : (s.afterPush k env a).len k = (s.pushed k env a).len k := by
          rw [Store.afterPush, if_neg h]
          cases k <;> rfl
        simp only [Invocation.after, hsame, ScriptRun.takenOut, ScriptRun.popped,
          ScriptRun.pushed, ScriptRun.requeued, hreply, Multiset.card_singleton,
          Multiset.card_zero]
        omega
  | rawPop =>
      have hreply := rawPop_reply k cj s env hs
      have hwaiting := congrArg Multiset.card (s.rawPopped_waiting k)
      rw [Multiset.card_add, ← Store.len_eq_card, ← Store.len_eq_card] at hwaiting
      have htaken : ScriptRun.takenOut k cj s ⟨.rawPop, env⟩ = bagOf (s.rawHead k) := by
        cases h : s.rawHead k with
        | none =>
            by_cases hpaused : s.paused.isSome = true <;>
              simp [ScriptRun.takenOut, hreply, h, hpaused, bagOf]
        | some v => simp [ScriptRun.takenOut, hreply, h, bagOf]
      rw [htaken]
      show (s.rawPopped k).len k + (_ + 0) ≤ _
      omega
  | pop p =>
      have hwaiting := congrArg Multiset.card (p.effect_waiting k env s)
      rw [Multiset.card_add, ← Store.len_eq_card, ← Store.len_eq_card, Multiset.coe_card,
        List.length_map] at hwaiting
      have hs : s.evicted env = s := hs
      simp only [ScriptRun.popped, hs, Multiset.coe_card]
      show (p.effect k env s).2.len k + (0 + _) ≤ _
      omega
  | remove item =>
      have hwaiting := congrArg Multiset.card (s.removed_waiting k item)
      rw [Multiset.card_add, ← Store.len_eq_card, ← Store.len_eq_card] at hwaiting
      have hs : s.evicted env = s := hs
      simp only [ScriptRun.takenOut, hs]
      show (s.removed k item).len k + (_ + 0) ≤ _
      omega
  | requeue vt => exact hrequeued _
  | sweep owner hbt =>
      simp only [Invocation.after, Store.swept_eq]
      exact hrequeued _
  | release owner => exact hrequeued _
  | finish a =>
      have hsame : (s.afterFinish cj a).len k = s.len k := by
        unfold Store.afterFinish
        split <;> cases k <;> rfl
      have hnone : ScriptRun.takenOut k cj s ⟨.finish a, env⟩ = 0 := rfl
      simp only [Invocation.after, hsame, hnone, ScriptRun.popped, Multiset.card_zero]
      omega
  | purge =>
      have hempty : (s.purged k).len k = 0 := by cases k <;> rfl
      have hnone : ScriptRun.takenOut k cj s ⟨.purge, env⟩ = 0 := rfl
      simp only [Invocation.after, hempty, hnone, ScriptRun.popped, Multiset.card_zero]
      omega
  | _ => cases k <;> exact Nat.le_add_right _ _

/-! ## What one script run does -/

/-- How many consumers a script run signals. -/
def ScriptRun.signals (k : Kind) (s : Store) (r : ScriptRun) : ℕ :=
  (r.inv.idleAfter k r.env (s.evicted r.env)).1.length

/-- How many items a script run puts on the queue without waking anybody: a
plain push its own, and a requeue all of them. -/
def ScriptRun.unwoken (k : Kind) (cj : Cjson) (s : Store) (r : ScriptRun) : ℕ :=
  match r.inv with
  | .push a => if a.wake then 0 else r.submitted k cj s
  | _ => r.puts k cj s

/-- How many consumers a caller asks to have woken for what it requeued. -/
def ScriptRun.asked (_ : Store) (r : ScriptRun) : ℕ :=
  match r.inv with
  | .wakeIdle count => count
  | _ => 0

section Steps

variable {k : Kind} {cj : Cjson} {u : ℕ → Option ScriptRun} {n : ℕ} {r : ScriptRun}

theorem SameBut_len {s t : Store} (h : s.SameBut t) : t.len k = s.len k := by
  obtain ⟨_, _, _, _, rfl⟩ := h
  cases k <;> rfl

theorem takes_evicted (s : Store) : r.takes k cj (s.evicted r.env) = r.takes k cj s := by
  have hpopped : r.popped k (s.evicted r.env) = r.popped k s := by
    simp only [ScriptRun.popped, Store.evicted_evicted]
  have htaken : r.takenOut k cj (s.evicted r.env) = r.takenOut k cj s := by
    simp only [ScriptRun.takenOut, reply_evicted, Store.evicted_evicted]
  rw [ScriptRun.takes, ScriptRun.takes, hpopped, htaken]

/-- What a moment of a run leaves on the queue and takes off it was there or
is put on it. -/
theorem storeAt_len_le (hr : u n = some r) :
    (storeAt k cj u (n + 1)).len k + r.takes k cj (storeAt k cj u n) ≤
      (storeAt k cj u n).len k + r.puts k cj (storeAt k cj u n) := by
  have hafter := after_len_le k cj (s := (storeAt k cj u n).evicted r.env) (r := r)
    (Store.evicted_evicted r.env _)
  have hsame := SameBut_len (k := k) (step_some k cj (storeAt k cj u n) r)
  have hevicted := Store.len_evicted_le k r.env (storeAt k cj u n)
  rw [takes_evicted, puts_evicted] at hafter
  rw [storeAt_succ, hr, hsame, ScriptRun.after]
  omega

/-- A push puts one item on the queue at most. -/
theorem puts_push (s : Store) (a : PushArgs) (env : Env) :
    ScriptRun.puts k cj s ⟨.push a, env⟩ = ScriptRun.submitted k cj s ⟨.push a, env⟩ ∧
      ScriptRun.submitted k cj s ⟨.push a, env⟩ ≤ 1 := by
  constructor
  · exact add_zero _
  · have hreply := push_reply k cj s env a
    unfold ScriptRun.submitted ScriptRun.pushed
    by_cases h : s.remembers env a = true
    · rw [if_pos h] at hreply
      simp [hreply]
    · rw [if_neg h] at hreply
      obtain ⟨r, hreply⟩ := hreply
      simp [hreply]

/-- A script that wakes nobody puts its items on the queue unwoken. -/
theorem puts_le_unwoken {s : Store}
    (h : r.inv.wakes k r.env (s.evicted r.env) = none) :
    r.puts k cj s + r.asked s ≤ r.unwoken k cj s := by
  obtain ⟨inv, env⟩ := r
  cases inv with
  | push a =>
      rw [(puts_push s a env).1]
      cases hwake : a.wake with
      | false => simp [ScriptRun.unwoken, ScriptRun.asked, hwake]
      | true =>
          have hrem : (s.evicted env).remembers env a = true := by
            by_contra hnew
            simp [Invocation.wakes, hwake, hnew] at h
          have hreply := push_reply k cj (s.evicted env) env a
          rw [if_pos hrem] at hreply
          have hreply : ScriptRun.reply k cj s ⟨.push a, env⟩ = .pushed none := by
            rw [← reply_evicted]
            exact hreply
          simp [ScriptRun.submitted, ScriptRun.pushed, ScriptRun.asked, hreply]
  | wakeIdle count => cases h
  | _ => exact le_rfl

/-- A script that wakes is after as many consumers as it puts on the queue or
is asked for. -/
theorem puts_le_wakes {s : Store} {count : ℕ}
    (h : r.inv.wakes k r.env (s.evicted r.env) = some count) :
    r.puts k cj s + r.asked s ≤ count := by
  obtain ⟨inv, env⟩ := r
  cases inv with
  | push a =>
      simp only [Invocation.wakes, Option.ite_none_right_eq_some, Option.some.injEq] at h
      have hpos := (s.evicted env).pushed_len_pos k env a
      have hone := @puts_push k cj s a env
      have hnone : ScriptRun.asked s ⟨.push a, env⟩ = 0 := rfl
      omega
  | wakeIdle n =>
      obtain rfl := Option.some.inj h
      exact (zero_add _).le
  | resume => exact Nat.zero_le _
  | _ => cases h

/-- A script run matches what it puts on the queue by signals, or leaves
nobody idle. -/
theorem signalled_or_drained (hr : u n = some r) :
    (storeAt k cj u (n + 1)).idle = ∅ ∨
      (storeAt k cj u (n + 1)).len k + r.takes k cj (storeAt k cj u n) +
          r.asked (storeAt k cj u n) ≤
        (storeAt k cj u n).len k + r.signals k (storeAt k cj u n) +
          r.unwoken k cj (storeAt k cj u n) := by
  have hlen := @storeAt_len_le k cj _ _ _ hr
  cases hwakes : r.inv.wakes k r.env ((storeAt k cj u n).evicted r.env) with
  | none =>
      have hunwoken := @puts_le_unwoken k cj _ _ hwakes
      right
      omega
  | some count =>
      have hputs := @puts_le_wakes k cj _ _ _ hwakes
      have hafter := idleAfter_of_wakes hwakes
      have hdraw := wakeLoop_draw r.env ((storeAt k cj u n).evicted r.env).idle.card count le_rfl
      obtain hcount | hdrained := hdraw.all_or_empty r.env.spop_eq_none
      · have hsignals : r.signals k (storeAt k cj u n) = count := by
          rw [ScriptRun.signals, hafter]
          exact hcount
        right
        omega
      · left
        rw [storeAt_idle hr, hafter]
        exact hdrained

/-- What a pop replies is the length it leaves. -/
theorem Store.pop_len {env : Env} {a : PopArgs} {ids : List Bytes} {slots size : ℕ}
    {items : List Bytes} {s : Store} (h : (s.pop k env a ids slots).1 = .popped size items) :
    (s.pop k env a ids slots).2.len k = size := by
  unfold Store.pop at h ⊢
  split at h
  · next hheld =>
      rw [if_pos hheld]
      obtain ⟨rfl, -⟩ := BatchReply.popped.inj h
      cases k <;> rfl
  · next hheld =>
      rw [if_neg hheld]
      split at h
      · cases h
      · next hpaused =>
          rw [if_neg hpaused]
          obtain ⟨rfl, -⟩ := BatchReply.popped.inj h
          cases k <;> rfl

/-- Who joins finds the queue empty, or joins by `markIdle`. -/
theorem joined_empty (hr : u n = some r) {c : Bytes} (hin : c ∈ (storeAt k cj u (n + 1)).idle)
    (hout : c ∉ (storeAt k cj u n).idle) :
    (storeAt k cj u (n + 1)).len k = 0 ∨ r.inv = .markIdle c := by
  have hsame := SameBut_len (k := k) (step_some k cj (storeAt k cj u n) r)
  rw [storeAt_idle hr] at hin
  rw [← Store.evicted_idle r.env] at hout
  have hjoins := joins_of_joined hout hin
  rw [storeAt_succ, hr, hsame, ScriptRun.after]
  obtain ⟨inv, env⟩ := r
  cases inv with
  | lenIdle consumer => exact Or.inl hjoins.2
  | nudge consumer idle => exact Or.inl hjoins.2.2
  | markIdle consumer => exact Or.inr (by rw [show consumer = c from hjoins])
  | pop p =>
      left
      have hshort := hjoins.2
      cases hreply : (p.effect k env ((storeAt k cj u n).evicted env)).1 with
      | paused => rw [hreply] at hshort; cases hshort
      | popped size items =>
          rw [hreply] at hshort
          have hsize := (of_decide_eq_true hshort).1
          exact (Store.pop_len hreply).trans hsize
  | _ => exact hjoins.elim

end Steps

/-! ## Runs -/

section Runs

variable (k : Kind) (cj : Cjson) (u : ℕ → Option ScriptRun)

/-- From here on wakes count: the queue is empty, or a `Resume` wakes for
what has waited. -/
def StartsAfresh (m : ℕ) : Prop :=
  (storeAt k cj u m).len k = 0 ∨
    ∃ env, u m = some ⟨.resume, env⟩ ∧ (storeAt k cj u m).paused.isSome = true

/-- A consumer joined by `markIdle` while items waited. -/
def JoinedLate (m n : ℕ) (c : Bytes) : Prop :=
  ∃ i env, m ≤ i ∧ i < n ∧ u i = some ⟨.markIdle c, env⟩ ∧ 0 < (storeAt k cj u (i + 1)).len k

/-- Everybody idle joined late, or there were as many signals as items came
in, those aside that nobody was woken for yet. -/
def Signalled (m n : ℕ) : Prop :=
  (∀ c ∈ (storeAt k cj u n).idle, JoinedLate k cj u m n c) ∨
    (storeAt k cj u n).len k + countFrom k cj u m n (ScriptRun.takes k cj) +
        countFrom k cj u m n ScriptRun.asked ≤
      countFrom k cj u m n (ScriptRun.signals k) + countFrom k cj u m n (ScriptRun.unwoken k cj)

end Runs

section Runs

variable {k : Kind} {cj : Cjson} {u : ℕ → Option ScriptRun} {m n : ℕ}

theorem JoinedLate.mono {c : Bytes} (h : JoinedLate k cj u m n c) :
    JoinedLate k cj u m (n + 1) c := by
  obtain ⟨i, env, hi, hin, hrest⟩ := h
  exact ⟨i, env, hi, by omega, hrest⟩

/-- One moment at which items wait. -/
theorem Signalled.succ (hmn : m ≤ n) (hwaits : 0 < (storeAt k cj u (n + 1)).len k)
    (h : Signalled k cj u m n) : Signalled k cj u m (n + 1) := by
  cases hr : u n with
  | none =>
      unfold Signalled at h ⊢
      simp only [countFrom_succ hmn, atMoment, hr, add_zero, storeAt_succ_none hr]
      exact h.imp (fun hlate c hc => (hlate c hc).mono) id
  | some r =>
      obtain hlate | hcounts := h
      · left
        intro c hc
        by_cases hin : c ∈ (storeAt k cj u n).idle
        · exact (hlate c hin).mono
        · obtain hempty | hmark := joined_empty hr hc hin
          · omega
          · obtain ⟨inv, env⟩ := r
            subst hmark
            exact ⟨n, env, hmn, n.lt_succ_self, hr, hwaits⟩
      · obtain hdrained | hstep := @signalled_or_drained k cj _ _ _ hr
        · left
          intro c hc
          rw [hdrained] at hc
          exact absurd hc (Finset.notMem_empty c)
        · right
          simp only [countFrom_succ hmn, atMoment, hr]
          omega

/-- A successful `Resume` has signalled for all that waits. -/
theorem signalled_resume {env : Env} (hr : u m = some ⟨.resume, env⟩)
    (hpaused : (storeAt k cj u m).paused.isSome = true) : Signalled k cj u m (m + 1) := by
  have hevicted : ((storeAt k cj u m).evicted env).paused.isSome = true := by
    obtain ⟨_, _, _, h⟩ := (storeAt k cj u m).evicted_eq env
    rw [h]
    exact hpaused
  have hwakes : Invocation.resume.wakes k env ((storeAt k cj u m).evicted env) =
      some (((storeAt k cj u m).evicted env).len k) := if_pos hevicted
  have hafter := idleAfter_of_wakes hwakes
  have hdraw := wakeLoop_draw env ((storeAt k cj u m).evicted env).idle.card
    (((storeAt k cj u m).evicted env).len k) le_rfl
  obtain hcount | hdrained := hdraw.all_or_empty env.spop_eq_none
  · right
    have hlen : (storeAt k cj u (m + 1)).len k = ((storeAt k cj u m).evicted env).len k := by
      rw [storeAt_succ, hr, SameBut_len (k := k) (step_some k cj (storeAt k cj u m) _)]
      cases k <;> rfl
    have hsignals : ScriptRun.signals k (storeAt k cj u m) ⟨.resume, env⟩ =
        ((storeAt k cj u m).evicted env).len k := by
      rw [ScriptRun.signals, hafter]
      exact hcount
    have htakes : ScriptRun.takes k cj (storeAt k cj u m) ⟨.resume, env⟩ = 0 := rfl
    have hasked : ScriptRun.asked (storeAt k cj u m) ⟨.resume, env⟩ = 0 := rfl
    simp only [countFrom_succ le_rfl, atMoment, hr, countFrom_self]
    omega
  · left
    intro c hc
    rw [storeAt_idle hr, hafter] at hc
    exact absurd (hdrained ▸ hc) (Finset.notMem_empty c)

/-- No wake is lost.  From a moment at which the queue is empty, or a `Resume`
wakes, as long as items wait, everybody idle joined by `markIdle` meanwhile,
or the signals since are as many as the items that wait and were taken since,
but for items of plain pushes and of requeues not woken for yet. -/
theorem backlog_signalled (k : Kind) (cj : Cjson) (u : ℕ → Option ScriptRun) {m n : ℕ}
    (hstart : StartsAfresh k cj u m) (hmn : m < n)
    (hwaits : ∀ i, m < i → i ≤ n → 0 < (storeAt k cj u i).len k) : Signalled k cj u m n := by
  have hfirst : Signalled k cj u m (m + 1) := by
    obtain hempty | ⟨env, hr, hpaused⟩ := hstart
    · refine Signalled.succ le_rfl (hwaits (m + 1) m.lt_succ_self hmn) (Or.inr ?_)
      simp only [hempty, countFrom_self]
      omega
    · exact signalled_resume hr hpaused
  induction n, (show m + 1 ≤ n from hmn) using Nat.le_induction with
  | base => exact hfirst
  | succ n hn ih =>
      have hbefore := ih hn fun i hi hin => hwaits i hi (by omega)
      exact hbefore.succ (by omega) (hwaits (n + 1) (by omega) le_rfl)

end Runs

/-- A consumer finds the queue empty, and a distributed push follows. -/
def emptyThenPush : ℕ → Option ScriptRun
  | 0 => some ⟨.lenIdle ownerA.name, .plain 0 fun _ => 1⟩
  | 1 => some ⟨.push ⟨[97], 0, 0, true, none⟩, .plain 1 fun _ => 1⟩
  | _ => none

theorem backlog_signalled_emptyThenPush : Signalled .fifo .none emptyThenPush 1 2 := by
  refine backlog_signalled .fifo .none emptyThenPush (Or.inl rfl) (by decide) fun i hi hin => ?_
  obtain rfl : i = 2 := by omega
  show 0 < (storeAt .fifo .none emptyThenPush 2).list.length
  decide

end Redisq.Model
