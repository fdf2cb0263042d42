import Redisq.Verified.BatchOrder
import Redisq.Verified.Fairness
import Redisq.Verified.Priority

/-!
# A priority queue is overtaken by higher priorities only

An item on a priority queue is overtaken by items of a lower score only, pushed
or requeued: those of its own score that come later, requeued ones too, go
behind it.  So once more items have been handed out than were ahead of it when
it was pushed, and than came in with a lower score since, it has been handed
out too, if nothing dropped it (`handed_out_by_priority`).
-/

namespace Redisq.Model

/-- How many items a script run puts on a priority queue at a score below
`p`. -/
def ScriptRun.overtakes (cj : Cjson) (p : ℤ) (s : Store) (r : ScriptRun) : ℕ :=
  match r.inv with
  | .push a => if a.priority < p then r.submitted .prio cj s else 0
  | inv => ((inv.requeuedIDs .prio cj r.env s).filter fun id =>
      (s.nacked.lookup id).isSome && decide ((s.prio.lookup id).getD 1 < p)).length

section Steps

variable {cj : Cjson} {env : Env} {s : Store} {e : ℤ ×ₗ Bytes}

/-- A member under the next number goes behind all of its score. -/
theorem Sequenced.lt_next (hs : Sequenced s) (hseq : s.seq + 1 ≤ 2 ^ 53) (he : e ∈ s.zset.entries)
    {p : ℤ} (hp : SortedSet.rank e ≤ p) (v : Bytes) :
    e < toLex (p, memberOf (s.seq + 1) v) := by
  obtain ⟨q, w, hq, hmember⟩ := hs _ (List.mem_map_of_mem he)
  refine Prod.Lex.lt_iff'.mpr ⟨hp, fun _ => ?_⟩
  show SortedSet.member e < memberOf (s.seq + 1) v
  rw [hmember]
  exact memberOf_lt hseq (Nat.lt_succ_of_le hq) w v

/-- An insertion under the next number leaves `e`, and comes to be ahead of it
with a lower score only. -/
theorem Sequenced.ahead_insert (hs : Sequenced s) (hseq : s.seq + 1 ≤ 2 ^ 53)
    (he : e ∈ s.zset.entries) (p : ℤ) (v : Bytes) :
    e ∈ (s.zset.insert (memberOf (s.seq + 1) v) p).entries ∧
      (s.zset.insert (memberOf (s.seq + 1) v) p).ahead e ≤
        s.zset.ahead e + if p < SortedSet.rank e then 1 else 0 := by
  constructor
  · refine SortedSet.mem_entries_insert.mpr (Or.inr ⟨he, fun heq => ?_⟩)
    exact hs.notMem hseq v (heq ▸ List.mem_map_of_mem he)
  · split
    · exact SortedSet.ahead_insert_le_succ _ _ _ _
    · next hp =>
        exact SortedSet.ahead_insert_le (hs.lt_next hseq he (not_lt.mp hp) v).le

/-- What a requeue moves comes to be ahead with a lower score only. -/
theorem movedAll_ahead (ids : List Bytes) : ids.Nodup → ∀ {s : Store}, Sequenced s →
    (ids.foldl (Store.moved .prio cj) s).seq ≤ 2 ^ 53 → e ∈ s.zset.entries →
      e ∈ (ids.foldl (Store.moved .prio cj) s).zset.entries ∧
        (ids.foldl (Store.moved .prio cj) s).zset.ahead e ≤ s.zset.ahead e +
          (ids.filter fun id => (s.nacked.lookup id).isSome &&
            decide ((s.prio.lookup id).getD 1 < SortedSet.rank e)).length := by
  induction ids with
  | nil => exact fun _ _ _ _ he => ⟨he, le_rfl⟩
  | cons id rest ih =>
      intro hnodup s hs hseq he
      obtain ⟨hnot, hrest⟩ := List.nodup_cons.mp hnodup
      have hfirst : (s.moved .prio cj id).seq ≤ 2 ^ 53 :=
        (Store.seq_le_movedAll .prio cj rest (s.moved .prio cj id)).trans hseq
      have hsequenced := (Store.moved_custody .prio cj hs id fun _ => hfirst).2
      -- the other entries are pending under their scores as before
      have hsame : (rest.filter fun id' => ((s.moved .prio cj id).nacked.lookup id').isSome &&
          decide (((s.moved .prio cj id).prio.lookup id').getD 1 < SortedSet.rank e)) =
          rest.filter fun id' => (s.nacked.lookup id').isSome &&
            decide ((s.prio.lookup id').getD 1 < SortedSet.rank e) := by
        refine List.filter_congr fun id' hid' => ?_
        have hne : id' ≠ id := fun heq => hnot (heq ▸ hid')
        have hscore := @Store.movedAll_prio cj id' [id] s (by simpa using hne)
        rw [List.foldl_cons, List.foldl_nil] at hscore
        rw [hscore, Store.moved_nacked, Finmap.lookup_erase_ne hne]
      have hone : e ∈ (s.moved .prio cj id).zset.entries ∧
          (s.moved .prio cj id).zset.ahead e ≤ s.zset.ahead e +
            if (s.nacked.lookup id).isSome &&
              decide ((s.prio.lookup id).getD 1 < SortedSet.rank e) then 1 else 0 := by
        cases h : s.nacked.lookup id with
        | none =>
            rw [Store.moved_of_none h]
            exact ⟨he, Nat.le_add_right _ _⟩
        | some v =>
            rw [Store.moved_of_some h] at hfirst ⊢
            have hinsert := hs.ahead_insert hfirst he ((s.prio.lookup id).getD 1) v
            simp only [Option.isSome_some, Bool.true_and, decide_eq_true_eq]
            exact hinsert
      obtain ⟨hmem, hahead⟩ := ih hrest hsequenced hseq hone.1
      rw [hsame] at hahead
      refine ⟨hmem, ?_⟩
      rw [List.foldl_cons, List.filter_cons]
      have hone := hone.2
      split at hone
      · next hlow =>
          rw [if_pos hlow, List.length_cons]
          omega
      · next hlow =>
          rw [if_neg hlow]
          omega

/-- What a script run hands out was ahead of an entry that is not among it,
and only what it puts on the queue at a lower score comes to be ahead. -/
theorem after_ahead (hs : Sequenced s) {inv : Invocation}
    (hseq : (inv.after .prio cj env s).seq ≤ 2 ^ 53) (he : e ∈ s.zset.entries)
    (hserved : e ∉ s.zset.entries.take (inv.calls s)) (hpurge : inv ≠ .purge)
    (hkept : ∀ item, inv = .remove item → e ∈ (inv.after .prio cj env s).zset.entries) :
    e ∈ (inv.after .prio cj env s).zset.entries ∧
      (inv.after .prio cj env s).zset.ahead e + (s.zset.entries.take (inv.calls s)).length ≤
        s.zset.ahead e + ScriptRun.overtakes cj (SortedSet.rank e) s ⟨inv, env⟩ := by
  have hdropped : ∀ n, e ∉ s.zset.entries.take n →
      e ∈ (s.zset.dropMin n).entries ∧
        (s.zset.dropMin n).ahead e + (s.zset.entries.take n).length ≤ s.zset.ahead e + 0 := by
    intro n hout
    refine ⟨?_, (SortedSet.ahead_dropMin he hout).le⟩
    have he' := he
    rw [← List.take_append_drop n s.zset.entries, List.mem_append] at he'
    exact he'.resolve_left hout
  cases inv with
  | push a =>
      simp only [Invocation.after, Store.afterPush] at hseq ⊢
      split
      · exact ⟨he, Nat.le_add_right _ _⟩
      · next hnew =>
          rw [if_neg hnew] at hseq
          obtain ⟨hmem, hahead⟩ := hs.ahead_insert hseq he a.priority a.item
          refine ⟨hmem, hahead.trans (Nat.add_le_add_left ?_ _)⟩
          have hreply := push_reply .prio cj s env a
          rw [if_neg hnew] at hreply
          obtain ⟨count, hreply⟩ := hreply
          have hone : ScriptRun.submitted .prio cj s ⟨.push a, env⟩ = 1 := by
            simp [ScriptRun.submitted, ScriptRun.pushed, hreply]
          show _ ≤ if a.priority < SortedSet.rank e then
            ScriptRun.submitted .prio cj s ⟨.push a, env⟩ else 0
          rw [hone]
  | rawPop =>
      simp only [Invocation.after, Store.rawPopped, Invocation.calls] at hserved ⊢
      split
      · exact ⟨he, Nat.le_add_right _ _⟩
      · next hpaused =>
          rw [if_neg hpaused] at hserved
          exact hdropped 1 hserved
  | pop p =>
      simp only [Invocation.after, Invocation.calls] at hserved ⊢
      split
      · next hrest =>
          have hsame : (p.effect .prio env s).2.zset = s.zset := by
            unfold PopCall.effect Store.pop
            split
            · rfl
            · next hfree => rw [if_pos (hrest.resolve_left hfree)]
          rw [hsame]
          exact ⟨he, Nat.le_add_right _ _⟩
      · next hfresh =>
          have hbeheaded : (p.effect .prio env s).2.zset = s.zset.dropMin p.ids.length := by
            rw [PopCall.effect, Store.pop, if_neg fun hheld => hfresh (Or.inl hheld),
              if_neg fun hpaused => hfresh (Or.inr hpaused)]
            exact (Store.poppedFresh_queue env p.args p.ids p.slots).2.1
          rw [if_neg hfresh] at hserved
          rw [hbeheaded]
          exact hdropped _ hserved
  | requeue vt => exact movedAll_ahead _ (requeuedIDs_nodup .prio cj env (.requeue vt) s) hs hseq he
  | sweep owner hbt =>
      simp only [Invocation.after, Store.swept_eq] at hseq ⊢
      exact movedAll_ahead _ (requeuedIDs_nodup .prio cj env (.sweep owner hbt) s) hs hseq he
  | release owner =>
      exact movedAll_ahead _ (requeuedIDs_nodup .prio cj env (.release owner) s) hs hseq he
  | remove item =>
      refine ⟨hkept item rfl, ?_⟩
      simp only [Invocation.after, Store.removed]
      split
      · exact (s.zset.ahead_erase_le _ e).trans (Nat.le_add_right _ _)
      · exact Nat.le_add_right _ _
  | purge => exact absurd rfl hpurge
  | finish a =>
      simp only [Invocation.after, Store.afterFinish]
      split <;> exact ⟨he, Nat.le_add_right _ _⟩
  | _ => exact ⟨he, Nat.le_add_right _ _⟩

end Steps

section Runs

variable (cj : Cjson) (u : ℕ → Option ScriptRun)

/-- The push at moment `i` stored its item as `e`. -/
def StoredAs (i : ℕ) (e : ℤ ×ₗ Bytes) : Prop :=
  ∃ a env count, u i = some ⟨.push a, env⟩ ∧
    ScriptRun.reply .prio cj (storeAt .prio cj u i) ⟨.push a, env⟩ = .pushed (some count) ∧
    e = toLex (a.priority, memberOf ((storeAt .prio cj u i).seq + 1) a.item)

/-- At moment `m` a pop takes `e` off the queue, and its reply hands out the
item. -/
def TakenAt (m : ℕ) (e : ℤ ×ₗ Bytes) : Prop :=
  ∃ r, u m = some r ∧
    e ∈ (storeAt .prio cj u m).zset.entries.take (r.inv.calls (storeAt .prio cj u m)) ∧
    itemOf (SortedSet.member e) ∈ (r.reply .prio cj (storeAt .prio cj u m)).items

/-- At moment `m` the queue loses `e`: the queue key has expired, or it is
removed or purged. -/
def LostAt (m : ℕ) (e : ℤ ×ₗ Bytes) : Prop :=
  e ∈ (storeAt .prio cj u m).zset.entries ∧ ∃ r, u m = some r ∧
    ((storeAt .prio cj u m).expiry.any (fun expiry => expiry < r.env.nowms) = true ∨
      r.inv = .purge ∨
      ∃ item, r.inv = .remove item ∧ e ∉ (storeAt .prio cj u (m + 1)).zset.entries)

/-- How many items wait at a score of `p` at most. -/
def Store.waitingUpTo (p : ℤ) (s : Store) : ℕ :=
  s.zset.entries.countP fun e => decide (SortedSet.rank e ≤ p)

variable {cj u} {i m n : ℕ} {r : ScriptRun} {e : ℤ ×ₗ Bytes}

/-- What is pushed goes behind what waits, up to its score. -/
theorem StoredAs.ahead_le (h : StoredAs cj u i e) :
    e ∈ (storeAt .prio cj u (i + 1)).zset.entries ∧
      (storeAt .prio cj u (i + 1)).zset.ahead e ≤
        (storeAt .prio cj u i).waitingUpTo (SortedSet.rank e) := by
  obtain ⟨a, env, count, hr, hreply, rfl⟩ := h
  have hpush := push_reply .prio cj ((storeAt .prio cj u i).evicted env) env a
  rw [reply_evicted (r := ⟨.push a, env⟩), hreply] at hpush
  have hnew : ¬((storeAt .prio cj u i).evicted env).remembers env a = true := by
    intro hrem
    rw [if_pos hrem] at hpush
    cases hpush
  have hzset : (storeAt .prio cj u (i + 1)).zset =
      ((storeAt .prio cj u i).evicted env).zset.insert
        (memberOf ((storeAt .prio cj u i).seq + 1) a.item) a.priority := by
    obtain ⟨_, _, _, _, hsame⟩ := step_some .prio cj (storeAt .prio cj u i) ⟨.push a, env⟩
    rw [storeAt_succ, hr, hsame]
    simp only [ScriptRun.after, Invocation.after, Store.afterPush, if_neg hnew]
    rw [← Store.evicted_seq env (storeAt .prio cj u i)]
    rfl
  rw [hzset]
  refine ⟨SortedSet.mem_entries_insert.mpr (Or.inl rfl), ?_⟩
  refine (SortedSet.ahead_insert_le le_rfl).trans ?_
  rw [SortedSet.ahead, ← List.countP_eq_length_filter]
  have hsub : ((storeAt .prio cj u i).evicted env).zset.entries.Sublist
      (storeAt .prio cj u i).zset.entries := by
    unfold Store.evicted
    split
    · exact List.nil_sublist _
    · exact List.Sublist.refl _
  refine (hsub.countP_le).trans (List.countP_mono_left fun x _ hlt => ?_)
  have hle := (of_decide_eq_true hlt).le
  exact decide_eq_true (Prod.Lex.le_iff'.mp hle).1

/-- What a pop takes off a priority queue is in its reply. -/
theorem taken_handed {s : Store} (hevicted : s.evicted r.env = s)
    (htaken : e ∈ s.zset.entries.take (r.inv.calls s)) :
    itemOf (SortedSet.member e) ∈ (r.reply .prio cj s).items := by
  obtain ⟨inv, env⟩ := r
  cases inv with
  | rawPop =>
      simp only [Invocation.calls] at htaken
      split at htaken
      · cases htaken
      · next hpaused =>
          rw [rawPop_items cj hevicted hpaused, ← List.map_take, List.map_map]
          exact List.mem_map_of_mem htaken
  | pop p =>
      simp only [Invocation.calls] at htaken
      split at htaken
      · cases htaken
      · next hfresh =>
          show _ ∈ ((p.run .prio env).exec (s.evicted env)).1.items
          have hs : s.evicted env = s := hevicted
          rw [hs, p.reply_items, PopCall.effect, Store.pop,
            if_neg fun hheld => hfresh (Or.inl hheld),
            if_neg fun hpaused => hfresh (Or.inr hpaused)]
          exact List.mem_map_of_mem htaken
  | _ => cases htaken

/-- How far a waiting entry is from the head. -/
theorem entry_succ (h : FewPuts .prio cj u) (hr : u n = some r)
    (he : e ∈ (storeAt .prio cj u n).zset.entries) (htaken : ¬TakenAt cj u n e)
    (hlost : ¬LostAt cj u n e) :
    e ∈ (storeAt .prio cj u (n + 1)).zset.entries ∧
      (storeAt .prio cj u (n + 1)).zset.ahead e + r.handsOut .prio cj (storeAt .prio cj u n) ≤
        (storeAt .prio cj u n).zset.ahead e +
          r.overtakes cj (SortedSet.rank e) (storeAt .prio cj u n) := by
  have hlasting : ¬(storeAt .prio cj u n).expiry.any (fun expiry => expiry < r.env.nowms) = true :=
    fun hexpired => hlost ⟨he, r, hr, Or.inl hexpired⟩
  have hevicted : (storeAt .prio cj u n).evicted r.env = storeAt .prio cj u n := if_neg hlasting
  have hzset : (storeAt .prio cj u (n + 1)).zset =
      (r.inv.after .prio cj r.env (storeAt .prio cj u n)).zset := by
    obtain ⟨_, _, _, _, hsame⟩ := step_some .prio cj (storeAt .prio cj u n) r
    rw [storeAt_succ, hr, hsame, ScriptRun.after, hevicted]
  have hseq := h.seq_after hr
  rw [ScriptRun.after, hevicted] at hseq
  have hserved : e ∉ (storeAt .prio cj u n).zset.entries.take
      (r.inv.calls (storeAt .prio cj u n)) :=
    fun hmem => htaken ⟨r, hr, hmem, taken_handed hevicted hmem⟩
  have hstep := after_ahead (storeAt_sequenced .prio cj u n) hseq he hserved
    (fun hpurge => hlost ⟨he, r, hr, Or.inr (Or.inl hpurge)⟩) fun item hremove => by
      by_contra hgone
      rw [← hzset] at hgone
      exact hlost ⟨he, r, hr, Or.inr (Or.inr ⟨item, hremove, hgone⟩)⟩
  rw [hzset, handsOut_eq hevicted]
  rw [List.length_take] at hstep
  exact hstep

/-- An item of a priority queue is overtaken by items of a lower score only:
once more items have been handed out than waited up to its score when it was
pushed and than came in below its score since, it has been handed out, or
lost. -/
theorem handed_out_by_priority (h : FewPuts .prio cj u) (hi : StoredAs cj u i e) (hin : i < n)
    (hturn : (storeAt .prio cj u i).waitingUpTo (SortedSet.rank e) +
        countFrom .prio cj u (i + 1) n (ScriptRun.overtakes cj (SortedSet.rank e)) <
      countFrom .prio cj u (i + 1) n (ScriptRun.handsOut .prio cj)) :
    ∃ m, i < m ∧ m < n ∧ (TakenAt cj u m e ∨ LostAt cj u m e) := by
  by_contra hnever
  have hstill : ∀ m, i + 1 ≤ m → m ≤ n → e ∈ (storeAt .prio cj u m).zset.entries ∧
      (storeAt .prio cj u m).zset.ahead e +
          countFrom .prio cj u (i + 1) m (ScriptRun.handsOut .prio cj) ≤
        (storeAt .prio cj u i).waitingUpTo (SortedSet.rank e) +
          countFrom .prio cj u (i + 1) m (ScriptRun.overtakes cj (SortedSet.rank e)) := by
    intro m him
    induction m, him using Nat.le_induction with
    | base =>
        intro _
        rw [countFrom_self, countFrom_self]
        exact hi.ahead_le
    | succ m him ih =>
        intro hmn
        obtain ⟨hwaits, hahead⟩ := ih (by omega)
        rw [countFrom_succ him, countFrom_succ him]
        cases hr : u m with
        | none =>
            rw [storeAt_succ_none hr]
            simp only [atMoment, hr]
            exact ⟨hwaits, hahead⟩
        | some r =>
            have hstep := entry_succ h hr hwaits
              (fun htaken => hnever ⟨m, by omega, by omega, Or.inl htaken⟩)
              fun hlost => hnever ⟨m, by omega, by omega, Or.inr hlost⟩
            simp only [atMoment, hr]
            refine ⟨hstep.1, ?_⟩
            have hahead' := hstep.2
            omega
  obtain ⟨-, hahead⟩ := hstill n (by omega) le_rfl
  omega

end Runs

/-- The item pushed second has the lower score, so it is popped first. -/
theorem handed_out_by_priority_pushPushPop :
    ∃ m, 1 < m ∧ m < 3 ∧ (TakenAt .none pushPushPop m (toLex (1, memberOf 2 [98])) ∨
      LostAt .none pushPushPop m (toLex (1, memberOf 2 [98]))) := by
  have hstored : StoredAs .none pushPushPop 1 (toLex (1, memberOf 2 [98])) :=
    ⟨_, _, _, rfl, rfl, rfl⟩
  exact handed_out_by_priority pushPushPop_fewPushes.fewPuts hstored (by decide) (by decide)

end Redisq.Model
