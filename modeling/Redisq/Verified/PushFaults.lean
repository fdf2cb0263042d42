import Redisq.Verified.PopFaults

/-!
# Pushes that fail

`EnqueueOnce` sets the id's key after the push, so that a push that fails
leaves the id free.  A push body is more than its push: it counts the job,
and a distributed queue's wakes consumers.  What fails there stops the script
between the push and the id: the item is stored, the id is free, and a retry
stores the item again.
-/

namespace Redisq.Model

open Script (Spared Blocked Leaves)

variable {k : Kind} {env : Env} {f : Faults} {a : PushArgs} {s t : Store}

/-! ## The parts of a push body -/

/-- The push proper: the queue's length, or the item's sequence number. -/
def pushFirst (k : Kind) (a : PushArgs) : Redis ℕ :=
  match k with
  | .fifo => rpush a.item
  | .prio => do
      let s ← incrSeq
      zaddQueue a.priority (memberOf s a.item)
      return s

/-- A body's last part: a distributed queue's wakes consumers. -/
def pushLast (k : Kind) (env : Env) (a : PushArgs) (r : ℕ) : Redis ℕ :=
  match k, a.wake with
  | .fifo, false => return 1
  | .fifo, true => do
      let woken ← wake env r
      return woken.length
  | .prio, false => return r
  | .prio, true => do
      let woken ← wake env (← lenCmd .prio)
      return woken.length

/-- What a body does after the push: expiry, count and wake. -/
def pushTail (k : Kind) (env : Env) (a : PushArgs) (r : ℕ) : Redis ℕ := do
  if 0 < a.expiration then pexpire env a.expiration
  hincrSubmitted
  pushLast k env a r

theorem pushBody_eq (k : Kind) (env : Env) (a : PushArgs) :
    pushBody k env a = pushFirst k a >>= pushTail k env a := by
  have htail : ∀ r, pushTail k env a r = (do
      if 0 < a.expiration then pexpire env a.expiration
      hincrSubmitted
      pushLast k env a r) := fun _ => rfl
  cases k <;> cases hw : a.wake <;> simp only [pushBody, hw]
  all_goals
    rw [funext htail]
    simp only [pushLast, hw]
    rfl

/-! ## What fails, and where -/

/-- Neither the queue nor the ids have changed. -/
structure NoTrace (k : Kind) (s t : Store) : Prop where
  waiting : t.waiting k = s.waiting k
  dedup : t.dedup = s.dedup

/-- The push proper goes through. -/
structure Faults.Pushable (f : Faults) (k : Kind) : Prop where
  queue : f.wrong .queue = false
  seq : k = .prio → f.wrong .seq = false

/-- What a body does after its push goes through. -/
structure Faults.Countable (f : Faults) (a : PushArgs) : Prop where
  stats : f.uncountable = false
  idle : a.wake = true → f.wrong .idle = false

theorem pushFirst_spared (h : f.Pushable k) : (pushFirst k a).Spared f.fails := by
  cases k with
  | fifo => exact Script.spared_command (Faults.passes h.queue rfl (by decide))
  | prio =>
      refine .bind (Script.spared_command (Faults.passes (h.seq rfl) rfl (by decide))) fun n => ?_
      refine .bind (Script.spared_command (Faults.passes h.queue rfl (by decide))) fun _ => ?_
      exact Script.spared_pure _

/-- A push proper that fails leaves no trace. -/
theorem pushFirst_stops (h : ¬f.Pushable k) (a : PushArgs) (s : Store) :
    ∃ t, (pushFirst k a).attempt f.fails s = (none, t) ∧ NoTrace k s t := by
  cases k with
  | fifo =>
      have hqueue : f.wrong .queue = true := by
        refine Bool.not_eq_false _ ▸ fun hqueue => h ⟨hqueue, fun hk => ?_⟩
        cases hk
      exact ⟨s, if_pos (Faults.stops hqueue rfl (by decide)), rfl, rfl⟩
  | prio =>
      by_cases hseq : f.wrong .seq = true
      · exact ⟨s, if_pos (Faults.stops hseq rfl (by decide)), rfl, rfl⟩
      · have hseq := Bool.eq_false_iff.mpr hseq
        have hqueue : f.wrong .queue = true :=
          Bool.not_eq_false _ ▸ fun hqueue => h ⟨hqueue, fun _ => hseq⟩
        refine ⟨{ s with seq := s.seq + 1 }, ?_, rfl, rfl⟩
        refine (if_neg (Bool.eq_false_iff.mp (Faults.passes hseq rfl (by decide)))).trans ?_
        exact if_pos (Faults.stops hqueue rfl (by decide))

theorem pushTail_spared (hqueue : f.wrong .queue = false) (h : f.Countable a) (r : ℕ) :
    (pushTail k env a r).Spared f.fails := by
  have hlast : (pushLast k env a r).Spared f.fails := by
    cases hwake : a.wake with
    | false =>
        cases k <;> simp only [pushLast, hwake]
        · exact Script.spared_pure _
        · exact Script.spared_pure _
    | true =>
        have hspop : f.fails ⟨.spop, .idle⟩ = false :=
          Faults.passes (h.idle hwake) rfl (by decide)
        cases k with
        | fifo =>
            simp only [pushLast, hwake]
            exact .bind (Script.spared_command hspop) fun _ => Script.spared_pure _
        | prio =>
            simp only [pushLast, hwake]
            refine .bind (Script.spared_command (Faults.passes hqueue rfl (by decide))) fun n => ?_
            exact .bind (Script.spared_command hspop) fun _ => Script.spared_pure _
  have hcount : f.fails ⟨.hincrby, .stats⟩ = false := f.fails_hincrby_stats.trans h.stats
  have hcounted : (hincrSubmitted >>= fun _ => pushLast k env a r).Spared f.fails :=
    .bind (Script.spared_command hcount) fun _ => hlast
  exact .ite (.bind (Script.spared_command (f.fails_untyped rfl)) fun _ => hcounted) hcounted

theorem pushTail_blocked (h : ¬f.Countable a) (r : ℕ) :
    (pushTail k env a r).Blocked f.fails := by
  have hcounted : (hincrSubmitted >>= fun _ => pushLast k env a r).Blocked f.fails := by
    by_cases hstats : f.uncountable = true
    · exact (Script.blocked_command (f.fails_hincrby_stats.trans hstats)).bind_left _
    · have hidle : a.wake = true ∧ f.wrong .idle = true := by
        by_contra hnot
        refine h ⟨Bool.eq_false_iff.mpr hstats, fun hwake => ?_⟩
        exact Bool.eq_false_iff.mpr fun hidle => hnot ⟨hwake, hidle⟩
      have hspop : f.fails ⟨.spop, .idle⟩ = true := Faults.stops hidle.2 rfl (by decide)
      refine .bind_right fun _ => ?_
      cases k with
      | fifo =>
          simp only [pushLast, hidle.1]
          exact (Script.blocked_command hspop).bind_left _
      | prio =>
          simp only [pushLast, hidle.1]
          exact .bind_right fun _ => (Script.blocked_command hspop).bind_left _
  exact .ite (.bind_right fun _ => hcounted) hcounted

/-- A store's traces of a push. -/
def Store.traces (k : Kind) (s : Store) : Multiset Bytes × Hash ℕ :=
  (s.waiting k, s.dedup)

theorem pushTail_leaves (k : Kind) (env : Env) (a : PushArgs) (r : ℕ) :
    Leaves (Store.traces k) (pushTail k env a r) := by
  have hwake : ∀ n, Leaves (Store.traces k) (wake env n) := by
    intro n
    exact Script.leaves_command fun _ => by cases k <;> rfl
  have hlast : Leaves (Store.traces k) (pushLast k env a r) := by
    unfold pushLast
    split
    · exact Script.leaves_pure _
    · exact .bind (hwake _) fun _ => Script.leaves_pure _
    · exact Script.leaves_pure _
    · refine .bind (leaves_read Ref.zset .zcard fun z => z.entries.length) fun n => ?_
      exact .bind (hwake _) fun _ => Script.leaves_pure _
  have hcounted : Leaves (Store.traces k) (hincrSubmitted >>= fun _ => pushLast k env a r) :=
    .bind (Script.leaves_command fun _ => by cases k <;> rfl) fun _ => hlast
  refine .ite (.bind (Script.leaves_command fun _ => ?_) fun _ => hcounted) hcounted
  cases k <;> rfl

/-! ## One call -/

theorem pushFirst_dedup (k : Kind) (a : PushArgs) (s : Store) :
    ((pushFirst k a).exec s).2.dedup = s.dedup := by
  cases k <;> rfl

/-- A member already there changes place at most. -/
theorem waiting_insert_of_mem {z : ZSet} {m : Bytes} (h : m ∈ z.members) (p : ℤ) :
    (((z.insert m p).entries.map fun e => itemOf (SortedSet.member e) : List Bytes) :
        Multiset Bytes) =
      ((z.entries.map fun e => itemOf (SortedSet.member e) : List Bytes) : Multiset Bytes) := by
  obtain ⟨e, he, rfl⟩ := List.mem_map.mp h
  have hnew := (z.insert_perm (SortedSet.member e) p).map fun e => itemOf (SortedSet.member e)
  have hold := (SortedSet.erase_perm he).map fun e => itemOf (SortedSet.member e)
  exact Multiset.coe_eq_coe.mpr (hnew.trans hold.symm)

/-- The push adds a waiting item, unless the very member is there. -/
theorem pushFirst_waiting_iff (k : Kind) (a : PushArgs) (s : Store) :
    ((pushFirst k a).exec s).2.waiting k = s.waiting k ↔
      k = .prio ∧ memberOf (s.seq + 1) a.item ∈ s.zset.members := by
  cases k with
  | fifo =>
      have hlonger : ((s.list ++ [a.item] : List Bytes) : Multiset Bytes) ≠ ↑s.list := by
        intro heq
        have hcard := congrArg Multiset.card heq
        simp at hcard
      exact ⟨fun h => absurd h hlonger, fun h => absurd h.1 (by decide)⟩
  | prio =>
      constructor
      · intro heq
        refine ⟨rfl, ?_⟩
        by_contra hnew
        have hcard := congrArg Multiset.card ((waiting_insert hnew a.priority).symm.trans heq)
        simp [Store.waiting] at hcard
      · rintro ⟨-, hold⟩
        exact waiting_insert_of_mem hold a.priority

/-- What follows a push: the id is taken. -/
def pushEnd (env : Env) (a : PushArgs) (r : ℕ) : Redis (Option ℕ) :=
  match a.id with
  | none => return some r
  | some (id, window) => do
      setDedup env id window
      return some r

theorem pushEnd_spared (r : ℕ) : (pushEnd env a r).Spared f.fails := by
  unfold pushEnd
  split
  · exact Script.spared_pure _
  · exact .bind (Script.spared_command (f.fails_untyped rfl)) fun _ => Script.spared_pure _

theorem attempt_push_repeat (h : s.remembers env a = true) :
    (push k env a).attempt f.fails s = (some none, s) := by
  cases hid : a.id with
  | none => simp [Store.remembers, hid] at h
  | some p =>
      have hexists : f.fails ⟨.exists, .dedup p.1⟩ = false := f.fails_untyped rfl
      simp only [Store.remembers, hid] at h
      simp only [push, hid, once, existsDedup, Script.attempt_command_bind, hexists,
        Bool.false_eq_true, if_false, h, if_true, Script.attempt_pure]

theorem attempt_push_new (h : s.remembers env a = false) :
    (push k env a).attempt f.fails s =
      (pushBody k env a >>= pushEnd env a).attempt f.fails s := by
  cases hid : a.id with
  | none =>
      have hend : pushEnd env a = fun r => pure (some r) := by
        funext r
        simp only [pushEnd, hid]
      rw [hend, push, hid]
  | some p =>
      have hend : pushEnd env a = fun r => setDedup env p.1 p.2 >>= fun _ => pure (some r) := by
        funext r
        simp only [pushEnd, hid]
      have hexists : f.fails ⟨.exists, .dedup p.1⟩ = false := f.fails_untyped rfl
      simp only [Store.remembers, hid] at h
      simp only [push, hid, once, existsDedup, Script.attempt_command_bind, hexists,
        Bool.false_eq_true, if_false, h, hend]

/-- A call that fails leaves no trace: it stops before its push, or it cannot
stop after it, or, in a state that no run comes to, a priority queue has the
very member it pushes. -/
def Faults.Clean (f : Faults) (k : Kind) (env : Env) (a : PushArgs) (s : Store) : Prop :=
  s.remembers env a = false → f.Pushable k →
    f.Countable a ∨ (k = .prio ∧ memberOf (s.seq + 1) a.item ∈ s.zset.members)

theorem pushBody_spared (hpush : f.Pushable k) (hcount : f.Countable a) :
    (pushBody k env a).Spared f.fails := by
  rw [pushBody_eq]
  exact (pushFirst_spared hpush).bind fun r => pushTail_spared hpush.queue hcount r

/-- A body that fails after its push has stored the item. -/
theorem attempt_pushBody_traces (hpush : f.Pushable k) (hcount : ¬f.Countable a) :
    ∃ t, (pushBody k env a).attempt f.fails s = (none, t) ∧
      t.traces k = ((pushFirst k a).exec s).2.traces k := by
  have hfirst := Script.attempt_of_spared (pushFirst_spared (a := a) hpush) s
  rw [pushBody_eq, Script.attempt_bind_of_some f.fails hfirst]
  refine ⟨_, Prod.ext (pushTail_blocked hcount _ _) rfl, ?_⟩
  exact (pushTail_leaves k env a _).attempt f.fails _

theorem push_clean_iff (k : Kind) (env : Env) (f : Faults) (a : PushArgs) (s : Store) :
    (((push k env a).attempt f.fails s).1 = none →
        NoTrace k s ((push k env a).attempt f.fails s).2) ↔ f.Clean k env a s := by
  by_cases hnew : s.remembers env a = false
  · rw [attempt_push_new hnew]
    by_cases hpush : f.Pushable k
    · by_cases hcount : f.Countable a
      · have hbody : (pushBody k env a).Spared f.fails := pushBody_spared hpush hcount
        have hend : ∀ r, (pushEnd env a r).Spared f.fails := fun r => pushEnd_spared r
        rw [Script.attempt_of_spared (hbody.bind hend)]
        constructor
        · exact fun _ _ _ => Or.inl hcount
        · exact fun _ h => absurd h (by simp)
      · obtain ⟨t, hstop, htraces⟩ : ∃ t, (pushBody k env a).attempt f.fails s = (none, t) ∧
            t.traces k = ((pushFirst k a).exec s).2.traces k :=
          attempt_pushBody_traces hpush hcount
        obtain ⟨hwaiting, hdedup⟩ := Prod.mk.inj htraces
        rw [Script.attempt_bind_of_none f.fails hstop]
        constructor
        · intro h _ _
          exact Or.inr ((pushFirst_waiting_iff k a s).mp (hwaiting ▸ (h rfl).waiting))
        · intro h _
          have hmember := (h hnew hpush).resolve_left hcount
          refine ⟨hwaiting.trans ((pushFirst_waiting_iff k a s).mpr hmember), ?_⟩
          exact hdedup.trans (pushFirst_dedup k a s)
    · obtain ⟨t, hstop, htrace⟩ := pushFirst_stops hpush a s
      have hbody : (pushBody k env a).attempt f.fails s = (none, t) := by
        rw [pushBody_eq, Script.attempt_bind_of_none f.fails hstop]
      rw [Script.attempt_bind_of_none f.fails hbody]
      constructor
      · exact fun _ _ h => absurd h hpush
      · exact fun _ _ => htrace
  · have hold : s.remembers env a = true := Bool.not_eq_false _ ▸ hnew
    rw [attempt_push_repeat hold]
    constructor
    · exact fun _ h => absurd h hnew
    · exact fun _ h => absurd h (by simp)

/-! ## Retries -/

/-- One of several calls with the same arguments: the server, what is wrong
with the keys, and the store it finds. -/
structure Retry where
  env : Env
  faults : Faults
  store : Store

namespace Retry

variable (k : Kind) (a : PushArgs) (c : Retry)

/-- The reply, if there is one, and what is left. -/
def result : Option (Option ℕ) × Store :=
  (push k c.env a).attempt c.faults.fails c.store

/-- The call stored the item. -/
def stored : Bool :=
  match (c.result k a).1 with
  | some (some _) => true
  | _ => false

/-- The next call: the clock has not gone back, and nothing else has touched
the id.  Anything may have happened to the other keys. -/
def Next (id : Bytes) (c c' : Retry) : Prop :=
  c.env.nowms ≤ c'.env.nowms ∧
    c'.store.dedup.lookup id = (c.result k a).2.dedup.lookup id

variable {k a c}

theorem result_repeat (hold : c.store.remembers c.env a = true) :
    c.result k a = (some none, c.store) :=
  attempt_push_repeat hold

theorem stored_pushes (h : c.stored k a = true) :
    ∃ idle, (c.result k a).2 =
      { c.store.pushed k c.env a with idle := idle, dedup := a.remember c.env c.store.dedup } := by
  have hnew : c.store.remembers c.env a = false := by
    refine Bool.eq_false_iff.mpr fun hold => ?_
    rw [stored, result_repeat hold] at h
    cases h
  cases hresult : (push k c.env a).attempt c.faults.fails c.store with
  | mk reply t =>
      cases reply with
      | none =>
          rw [stored, result, hresult] at h
          cases h
      | some reply =>
          have hexec := Script.attempt_eq_exec _ hresult
          rw [push_exec k c.env a c.store hnew] at hexec
          refine ⟨c.store.idlePushed k c.env a, ?_⟩
          rw [result, hresult, ← (Prod.mk.inj hexec).2]

/-- A call of an id that is not remembered fails or stores the item. -/
theorem result_new (hnew : c.store.remembers c.env a = false) :
    (c.result k a).1 = none ∨ c.stored k a = true := by
  cases hresult : (push k c.env a).attempt c.faults.fails c.store with
  | mk reply t =>
      cases reply with
      | none => exact Or.inl (congrArg Prod.fst hresult)
      | some reply =>
          have hexec := Script.attempt_eq_exec _ hresult
          rw [push_exec k c.env a c.store hnew] at hexec
          refine Or.inr ?_
          rw [stored, result, hresult, ← (Prod.mk.inj hexec).1]

/-- With nothing wrong there is a reply. -/
theorem result_mended (h : c.faults = .none) : (c.result k a).1 ≠ none := by
  rw [result, h, Script.attempt_of_spared (Script.spared_of_forall Faults.fails_none _)]
  exact Option.some_ne_none _

end Retry

section Retries

variable {id : Bytes} {window : ℕ}

/-- An id that nothing takes stays free. -/
theorem remembers_later {env' : Env} (hid : a.id = some (id, window))
    (hlater : env.nowms ≤ env'.nowms) (hsame : t.dedup.lookup id = s.dedup.lookup id)
    (h : s.remembers env a = false) : t.remembers env' a = false := by
  simp only [Store.remembers, hid, hsame] at h ⊢
  cases hexpiry : s.dedup.lookup id with
  | none => rfl
  | some expiry =>
      rw [hexpiry] at h
      simp only [Option.any_some, decide_eq_false_iff_not, not_le] at h ⊢
      omega

/-- While the id is remembered no call stores the item. -/
theorem none_stored (hid : a.id = some (id, window)) (calls : List Retry) :
    calls.IsChain (Retry.Next k a id) → ∀ expiry, (∀ c ∈ calls, c.env.nowms ≤ expiry) →
      (∀ c ∈ calls.head?, c.store.dedup.lookup id = some expiry) →
      calls.filter (Retry.stored k a) = [] := by
  induction calls with
  | nil => exact fun _ _ _ _ => rfl
  | cons c rest ih =>
      intro hnext expiry hbefore htaken
      have hlookup := htaken c rfl
      have hold : c.store.remembers c.env a = true := by
        simp [Store.remembers, hid, hlookup, hbefore c List.mem_cons_self]
      have hresult := Retry.result_repeat (k := k) hold
      have hnot : Retry.stored k a c = false := by
        rw [Retry.stored, hresult]
      rw [List.filter_cons_of_neg (by rw [hnot]; exact Bool.false_ne_true)]
      refine ih hnext.tail expiry (fun c' hc' => hbefore c' (List.mem_cons_of_mem c hc')) ?_
      intro c' hc'
      cases rest with
      | nil => cases hc'
      | cons c'' rest =>
          obtain rfl : c'' = c' := Option.some.inj hc'
          rw [(List.isChain_cons_cons.mp hnext).1.2, hresult]
          exact hlookup

/-- Of calls that leave no trace when they fail, one stores the item once
nothing is wrong any more. -/
theorem one_stored (hid : a.id = some (id, window)) (calls : List Retry) :
    calls.IsChain (Retry.Next k a id) →
      (∀ c ∈ calls, c.faults.Clean k c.env a c.store) →
      (∀ c ∈ calls, ∀ c' ∈ calls, c'.env.nowms ≤ c.env.nowms + window) →
      (∀ c ∈ calls.head?, c.store.remembers c.env a = false) →
      (∃ c ∈ calls, c.faults = .none) →
      (calls.filter (Retry.stored k a)).length = 1 := by
  induction calls with
  | nil =>
      rintro - - - - ⟨c, hc, -⟩
      cases hc
  | cons c rest ih =>
      intro hnext hclean hwithin hnew hmended
      have hfree := hnew c rfl
      rcases Retry.result_new (k := k) hfree with hnone | hstored
      · -- the call failed: the id is as free as before
        have hnot : Retry.stored k a c = false := by
          rw [Retry.stored, hnone]
        have htrace := (push_clean_iff k c.env c.faults a c.store).mpr
          (hclean c List.mem_cons_self) hnone
        rw [List.filter_cons_of_neg (by rw [hnot]; exact Bool.false_ne_true)]
        refine ih hnext.tail (fun c' hc' => hclean c' (List.mem_cons_of_mem c hc')) ?_ ?_ ?_
        · intro c' hc' c'' hc''
          exact hwithin c' (List.mem_cons_of_mem c hc') c'' (List.mem_cons_of_mem c hc'')
        · intro c' hc'
          cases rest with
          | nil => cases hc'
          | cons c'' rest =>
              obtain rfl : c'' = c' := Option.some.inj hc'
              obtain ⟨hlater, hlookup⟩ := (List.isChain_cons_cons.mp hnext).1
              have hsame : c''.store.dedup.lookup id = c.store.dedup.lookup id := by
                rw [hlookup]
                exact congrArg (Finmap.lookup id) htrace.dedup
              exact remembers_later hid hlater hsame hfree
        · obtain ⟨c', hc', hright⟩ := hmended
          rcases List.mem_cons.mp hc' with rfl | hrest
          · exact absurd hnone (Retry.result_mended hright)
          · exact ⟨c', hrest, hright⟩
      · -- the call stored the item: the id is taken until after the last call
        have hrest : rest.filter (Retry.stored k a) = [] := by
          refine none_stored hid rest hnext.tail (c.env.nowms + window) ?_ ?_
          · intro c' hc'
            exact hwithin c List.mem_cons_self c' (List.mem_cons_of_mem c hc')
          · intro c' hc'
            cases rest with
            | nil => cases hc'
            | cons c'' rest =>
                obtain rfl : c'' = c' := Option.some.inj hc'
                obtain ⟨idle, hpushed⟩ := c.stored_pushes hstored
                rw [(List.isChain_cons_cons.mp hnext).1.2, hpushed]
                simp only [PushArgs.remember, hid]
                exact Finmap.lookup_insert _
        rw [List.filter_cons_of_pos hstored, hrest]
        rfl

end Retries

/-- A call that does not store the item leaves the waiting items alone, if it
leaves no trace when it fails. -/
theorem unstored_waiting {c : Retry} (hclean : c.faults.Clean k c.env a c.store)
    (hnot : c.stored k a = false) : (c.result k a).2.waiting k = c.store.waiting k := by
  by_cases hnew : c.store.remembers c.env a = false
  · rcases Retry.result_new (k := k) hnew with hnone | hstored
    · exact ((push_clean_iff k c.env c.faults a c.store).mpr hclean hnone).waiting
    · exact absurd (hnot.symm.trans hstored) Bool.false_ne_true
  · rw [Retry.result_repeat (Bool.not_eq_false _ ▸ hnew)]

/-- **A failing EnqueueOnce leaves no trace** under `Faults.Clean`, and only
then; a row of calls that all meet it stores the item once. -/
theorem enqueue_once_clean_iff (k : Kind) (a : PushArgs) :
    (∀ (env : Env) (f : Faults) (s : Store), (((push k env a).attempt f.fails s).1 = none →
        NoTrace k s ((push k env a).attempt f.fails s).2) ↔ f.Clean k env a s) ∧
      ∀ (id : Bytes) (window : ℕ) (calls : List Retry), a.id = some (id, window) →
        calls.IsChain (Retry.Next k a id) →
        (∀ c ∈ calls, c.faults.Clean k c.env a c.store) →
        (∀ c ∈ calls, ∀ c' ∈ calls, c'.env.nowms ≤ c.env.nowms + window) →
        (∀ c ∈ calls.head?, c.store.remembers c.env a = false) →
        (∃ c ∈ calls, c.faults = .none) →
        (calls.filter (Retry.stored k a)).length = 1 ∧
          (∀ c ∈ calls, c.stored k a = true → ∃ idle, (c.result k a).2 =
            { c.store.pushed k c.env a with
              idle := idle, dedup := a.remember c.env c.store.dedup }) ∧
          ∀ c ∈ calls, c.stored k a = false →
            (c.result k a).2.waiting k = c.store.waiting k := by
  refine ⟨fun env f s => push_clean_iff k env f a s, ?_⟩
  intro id window calls hid hnext hclean hwithin hnew hmended
  refine ⟨one_stored hid calls hnext hclean hwithin hnew hmended,
    fun c _ hstored => c.stored_pushes hstored, ?_⟩
  exact fun c hc hnot => unstored_waiting (hclean c hc) hnot

/-- With `:stats` of another type, a call fails with its item stored and its
id free. -/
theorem enqueue_once_uncounted_is_stored :
    ((push .fifo (.plain 0 fun _ => 0) ⟨[1], 0, 0, false, some ([9], 1000)⟩).attempt
        (Faults.of .stats).fails Store.empty).1 = none ∧
      ((push .fifo (.plain 0 fun _ => 0) ⟨[1], 0, 0, false, some ([9], 1000)⟩).attempt
        (Faults.of .stats).fails Store.empty).2.waiting .fifo = {[1]} ∧
      ((push .fifo (.plain 0 fun _ => 0) ⟨[1], 0, 0, false, some ([9], 1000)⟩).attempt
        (Faults.of .stats).fails Store.empty).2.dedup.lookup [9] = none :=
  ⟨rfl, rfl, rfl⟩

end Redisq.Model
