import Mathlib.Data.List.ReduceOption
import Redisq.Model.Jobs
import Redisq.Verified.Priority
import Redisq.Verified.BatchSizing

/-!
# Jobs pages its lists

`Store.listing` is the list behind each Job State, in its order, and
`Store.fullList` the jobs it stands for, with a gap for each finished job
whose record is gone or does not parse.  A page is the part of that list from
the offset on, at most `limit` long, without its gaps: whatever the bounds are
on their way through a Lua number and a command, as long as their sum is an
`int` and Redis takes them for indices.
-/

namespace Redisq.Model

/-! ## Bounds on their way -/

/-- What is relied on of Redis: an index up to 2^52 it reads as it is, and one
that is larger, or far below 0, if it takes it, as one that is so too. -/
structure TakesIndices (index : ℤ → Option ℤ) : Prop where
  exact : ∀ n, 0 ≤ n → n ≤ 2 ^ 52 → index n = some n
  large : ∀ n m, 2 ^ 52 < n → index n = some m → 2 ^ 52 ≤ m
  below : ∀ n m, n < -2 ^ 52 → index n = some m → m ≤ -2 ^ 52

/-- A bound and what arrives of it: the same up to 2^52, or both beyond. -/
def Near (n m : ℤ) : Prop :=
  (n ≤ 2 ^ 52 ∧ m = n) ∨ (2 ^ 52 < n ∧ 2 ^ 52 ≤ m)

section Bounds

variable {n m m' : ℤ} {index : ℤ → Option ℤ}

/-- A large number is rounded to one that is large too. -/
theorem le_luaNumber {n : ℕ} (h : 2 ^ 53 ≤ n) : 2 ^ 53 ≤ luaNumber n := by
  unfold luaNumber
  split
  · exact h
  · have hlog : 53 ≤ Nat.log 2 n := (Nat.le_log_iff_pow_le (by decide) (by omega)).mpr h
    have hlead : 2 ^ Nat.log 2 n ≤ n := Nat.pow_log_le_self 2 (by omega)
    have hsplit : 2 ^ Nat.log 2 n = 2 ^ 52 * 2 ^ (Nat.log 2 n - 52) := by
      rw [← Nat.pow_add, show 52 + (Nat.log 2 n - 52) = Nat.log 2 n by omega]
    have hquotient : 2 ^ 52 ≤ n / 2 ^ (Nat.log 2 n - 52) := by
      rw [Nat.le_div_iff_mul_le (by positivity), ← hsplit]
      exact hlead
    have hspacing : 2 ^ 1 ≤ 2 ^ (Nat.log 2 n - 52) :=
      Nat.pow_le_pow_right (by decide) (by omega)
    calc 2 ^ 53 = 2 ^ 52 * 2 ^ 1 := by decide
      _ ≤ _ := Nat.mul_le_mul (by split <;> omega) hspacing

/-- A Lua number is exact up to 2^53, and large beyond. -/
theorem luaInt_cases (hn : 0 ≤ n) :
    (n ≤ 2 ^ 53 ∧ luaInt n = n) ∨ (2 ^ 53 < n ∧ 2 ^ 53 ≤ luaInt n) := by
  unfold luaInt
  rw [if_pos hn]
  by_cases hsmall : n ≤ 2 ^ 53
  · rw [luaNumber_of_le (by omega)]
    omega
  · have hlarge := le_luaNumber (n := n.toNat) (by omega)
    omega

/-- A bound survives being a Lua number. -/
theorem near_luaInt (hn : 0 ≤ n) : Near n (luaInt n) := by
  have h := luaInt_cases hn
  unfold Near
  omega

/-- And the way to a command. -/
theorem Near.read (hindex : TakesIndices index) (hn : 0 ≤ n) (h : Near n m)
    (hread : index m = some m') : Near n m' := by
  unfold Near at h ⊢
  by_cases hm : m ≤ 2 ^ 52
  · rw [hindex.exact m (by omega) hm] at hread
    have := Option.some.inj hread
    omega
  · have := hindex.large m m' (by omega) hread
    omega

/-- And a step of the loop. -/
theorem Near.succ (hn : 0 ≤ n) (h : Near n m) : Near n (luaInt (m + 1) - 1) := by
  have hnext := luaInt_cases (n := m + 1) (by unfold Near at h; omega)
  unfold Near at h ⊢
  omega

theorem Near.nonneg (hn : 0 ≤ n) (h : Near n m) : 0 ≤ m := by
  unfold Near at h
  omega

/-- Between two bounds that arrived stands the page. -/
theorem between {α : Type} {l : List α} {o limit a b : ℤ} (ho : 0 ≤ o) (hlimit : 0 < limit)
    (ha : Near o a) (hb : Near (o + limit - 1) b) (hl : l.length ≤ 2 ^ 52) :
    (l.take (b + 1).toNat).drop a.toNat = (l.drop o.toNat).take limit.toNat := by
  unfold Near at ha hb
  by_cases hfar : 2 ^ 52 < o
  · rw [List.drop_eq_nil_of_le (by rw [List.length_take]; omega),
      List.drop_eq_nil_of_le (by omega), List.take_nil]
  · have hao : a = o := by omega
    rw [hao, List.drop_take]
    by_cases hend : o + limit - 1 ≤ 2 ^ 52
    · rw [show (b + 1).toNat - o.toNat = limit.toNat by omega]
    · rw [List.take_of_length_le (by rw [List.length_drop]; omega),
        List.take_of_length_le (by rw [List.length_drop]; omega)]

theorem slice_eq {α : Type} {l : List α} {o limit a b : ℤ} (ho : 0 ≤ o) (hlimit : 0 < limit)
    (ha : Near o a) (hb : Near (o + limit - 1) b) (hl : l.length ≤ 2 ^ 52) :
    slice l a b = (l.drop o.toNat).take limit.toNat := by
  have hafter := ha.nonneg ho
  have hbefore := hb.nonneg (by omega)
  rw [← between ho hlimit ha hb hl, slice, if_neg (by omega), if_neg (by omega)]

theorem fromTo_eq {α : Type} {l : List α} {o limit a b : ℤ} (ho : 0 ≤ o) (hlimit : 0 < limit)
    (ha : Near o a) (hb : Near (o + limit - 1) b) (hl : l.length ≤ 2 ^ 52) :
    fromTo l (luaInt (a + 1)) (min (luaInt (b + 1)) l.length) =
      (l.drop o.toNat).take limit.toNat := by
  have hbefore := (hb.succ (by omega)).nonneg (by omega)
  rw [← between ho hlimit (ha.succ ho) (hb.succ (by omega)) hl, fromTo]
  congr 1
  rw [show luaInt (b + 1) - 1 + 1 = luaInt (b + 1) by omega]
  rcases le_total (luaInt (b + 1)) l.length with hle | hle
  · rw [min_eq_left hle]
  · rw [min_eq_right hle, List.take_of_length_le (by omega), List.take_of_length_le (by omega)]

/-- A sum of `int`s that is one. -/
theorem int64_eq (h : -2 ^ 63 ≤ n) (h' : n < 2 ^ 63) : int64 n = n :=
  Int.bmod_eq_of_le (by omega) (by omega)

end Bounds

/-! ## Lists -/

/-- The list behind a Job State: items, ack IDs or Job IDs. -/
def Store.listing (k : Kind) (env : Env) (state : JobList) (s : Store) : List Bytes :=
  match state with
  | .pending => s.items k
  | .processing => s.acks env
  | .finished state => (s.records.of state).members.reverse

/-- The job of an element: none for a finished one whose record is gone or
does not parse. -/
def Store.jobOf (cj : Cjson) (state : JobList) (s : Store) (m : Bytes) : Option Job :=
  match state with
  | .pending => some ((JobRow.waiting cj m (s.kept cj m)).job .pending)
  | .processing =>
      some ((JobRow.pending cj s m (s.kept cj ((s.nacked.lookup m).getD []))).job .processing)
  | .finished _ => ((s.records.jobs.lookup m).bind decodeRecord).map JobRecord.job

/-- The jobs of a Job State, in its order, with a gap for each that is not to
be had. -/
def Store.fullList (k : Kind) (cj : Cjson) (env : Env) (state : JobList) (s : Store) :
    List (Option Job) :=
  (s.listing k env state).map (s.jobOf cj state)

/-- The values that a page of finished jobs unpacks. -/
def unpacked (state : JobList) (page : List (Option Job)) : ℕ :=
  match state with
  | .finished _ => page.length
  | _ => 0

/-- An invocation that pops, under new IDs if under any. -/
def Invocation.PopsFresh (s : Store) : Invocation → Prop
  | .rawPop => True
  | .pop p => s.holds p.ids = false
  | _ => False

/-- Pops one after the other, and the items that they return. -/
inductive Popped (k : Kind) (cj : Cjson) : Store → List Bytes → Store → Prop
  | done (s : Store) : Popped k cj s [] s
  | pop {s s' : Store} {items : List Bytes} {inv : Invocation} {env : Env}
      (hinv : inv.PopsFresh s) (hrest : Popped k cj ((inv.script k cj env).exec s).2 items s') :
      Popped k cj s (((inv.script k cj env).exec s).1.items ++ items) s'

section Pops

variable {k : Kind} {cj : Cjson} {s s' : Store}

/-- A pop returns the head of the list and leaves the rest. -/
theorem items_of_pop (k : Kind) (cj : Cjson) {inv : Invocation} (hinv : inv.PopsFresh s)
    (env : Env) :
    s.items k = ((inv.script k cj env).exec s).1.items ++
      ((inv.script k cj env).exec s).2.items k := by
  cases inv with
  | rawPop =>
      simp only [Invocation.script, ↓Script.exec_bind, Script.exec_pure, rawPop_exec,
        Store.rawPopped]
      by_cases hpaused : s.paused.isSome = true
      · cases k <;> simp [rawPop, listRawPop, zsetRawPop, hpaused, Reply.items]
      · cases k with
        | fifo =>
            cases hlist : s.list <;>
              simp [rawPop, listRawPop, lpop, hpaused, hlist, Reply.items, Store.items]
        | prio =>
            cases hzset : s.zset.entries <;>
              simp [rawPop, zsetRawPop, zpopmin, hpaused, hzset, Reply.items, Store.items,
                SortedSet.members, SortedSet.dropMin]
  | pop p =>
      have hreply := p.reply_items k env s
      have hstore : ((p.run k env).exec s).2 = (p.effect k env s).2 := by
        rw [popCall_exec]
      show s.items k = ((p.run k env).exec s).1.items ++ ((p.run k env).exec s).2.items k
      rw [hreply, hstore]
      by_cases hpaused : s.paused = none
      · obtain ⟨hitems, hleft⟩ := PopCall.effect_fresh k env hinv hpaused
        rw [hitems, hleft]
        exact (List.take_append_drop _ _).symm
      · have hheld : (p.effect k env s) = (.paused, s) := by
          have hfree : s.holds p.ids = false := hinv
          rw [PopCall.effect, Store.pop, hfree, if_neg Bool.false_ne_true,
            if_pos (Option.isSome_iff_ne_none.mpr hpaused)]
        rw [hheld]
        rfl
  | _ => exact absurd hinv not_false

/-- What pops return, and what they leave, is the list. -/
theorem Popped.items_eq {items : List Bytes} (h : Popped k cj s items s') :
    s.items k = items ++ s'.items k := by
  induction h with
  | done s => rfl
  | pop hinv _ ih => rw [items_of_pop k cj hinv, ih, List.append_assoc]

/-- Unless the queue is paused a raw pop returns the first item. -/
theorem items_of_rawPop (k : Kind) (cj : Cjson) (env : Env) (hpaused : s.paused = none) :
    ((Invocation.rawPop.script k cj env).exec s).1.items = (s.items k).take 1 ∧
      ((Invocation.rawPop.script k cj env).exec s).2.paused = none := by
  simp only [Invocation.script, ↓Script.exec_bind, Script.exec_pure, rawPop_exec,
    Store.rawPopped]
  cases k with
  | fifo =>
      cases hlist : s.list <;>
        simp [rawPop, listRawPop, lpop, hpaused, hlist, Reply.items, Store.items]
  | prio =>
      cases hzset : s.zset.entries <;>
        simp [rawPop, zsetRawPop, zpopmin, hpaused, hzset, Reply.items, Store.items,
          SortedSet.members]

/-- So pops can return all of it. -/
theorem exists_popped (k : Kind) (cj : Cjson) (env : Env) (hpaused : s.paused = none) :
    ∃ s', Popped k cj s (s.items k) s' := by
  induction hitems : s.items k generalizing s with
  | nil => exact ⟨s, .done s⟩
  | cons item rest ih =>
      obtain ⟨hreply, hstill⟩ := items_of_rawPop k cj env hpaused
      have hfresh : Invocation.rawPop.PopsFresh s := trivial
      have hsplit := items_of_pop k cj hfresh env
      rw [hreply, hitems] at hsplit
      obtain ⟨s', hrest⟩ := ih hstill (List.cons.inj hsplit).2.symm
      refine ⟨s', ?_⟩
      have hpop := Popped.pop hfresh hrest
      rw [hreply, hitems] at hpop
      exact hpop

end Pops

/-- A list in the order its Job State promises: as pops return it, by ack ID,
or newest first. -/
def Store.InOrder (k : Kind) (cj : Cjson) (s : Store) : JobList → List Bytes → Prop
  | .pending, l =>
      (∀ items s', Popped k cj s items s' → items <+: l) ∧
        (s.paused = none → ∃ s', Popped k cj s l s')
  | .processing, l => l.Pairwise (· < ·) ∧ ∀ ack, ack ∈ l ↔ ack ∈ s.nacked
  | .finished state, l =>
      ∃ entries : List (ℤ ×ₗ Bytes), l = entries.map SortedSet.member ∧
        entries.Pairwise (· > ·) ∧ ∀ e, e ∈ entries ↔ e ∈ (s.records.of state).entries

theorem Store.listing_inOrder (k : Kind) (cj : Cjson) (env : Env) (state : JobList) (s : Store) :
    s.InOrder k cj state (s.listing k env state) := by
  cases state with
  | pending =>
      refine ⟨fun items s' h => ?_, exists_popped k cj env⟩
      rw [Store.listing, h.items_eq]
      exact List.prefix_append _ _
  | processing =>
      have hperm : (s.acks env).Perm (env.hkeys s.nacked.keys) := List.perm_insertionSort _ _
      constructor
      · have hnodup : (s.acks env).Nodup := hperm.nodup_iff.mpr (env.hkeys_nodup _)
        exact ((List.pairwise_insertionSort _ _).and hnodup).imp
          fun h => lt_of_le_of_ne h.1 h.2
      · intro ack
        show ack ∈ s.acks env ↔ _
        rw [hperm.mem_iff, env.mem_hkeys, Finmap.mem_keys]
  | finished state =>
      refine ⟨(s.records.of state).entries.reverse, List.map_reverse.symm, ?_, fun e => ?_⟩
      · rw [List.pairwise_reverse]
        exact ((s.records.of state).sorted.and (s.records.of state).nodup_entries).imp
          fun h => lt_of_le_of_ne h.1 h.2
      · exact List.mem_reverse

/-! ## Pages -/

section Pages

variable {index : ℤ → Option ℤ} {k : Kind} {cj : Cjson} {env : Env} {state : JobList}
  {s : Store} {o limit : ℤ}

theorem exec_waitingBetween (k : Kind) (a b : ℤ) (s : Store) :
    (waitingBetween k a b).exec s = (slice (s.items k) a b, s) := by
  cases k with
  | fifo => rfl
  | prio =>
      simp only [waitingBetween, zrange, ↓Script.exec_bind, exec_read, Script.exec_pure,
        Store.items]
      have hmap : (slice s.zset.members a b).map itemOf =
          slice (s.zset.members.map itemOf) a b := by
        simp only [slice, List.length_map, List.map_drop, List.map_take]
      rw [← hmap]
      rfl

/-- The reply that a page of a list gives. -/
def Store.replyOf (cj : Cjson) (state : JobList) (page : List Bytes) (s : Store) : JobsReply :=
  match state with
  | .pending => .rows (page.map fun v => .waiting cj v (s.kept cj v))
  | .processing =>
      .rows (page.map fun ack => .pending cj s ack (s.kept cj ((s.nacked.lookup ack).getD [])))
  | .finished _ => .records (page.map fun id => s.records.jobs.lookup id)

/-- Its jobs are those of the page that are to be had. -/
theorem jobs_replyOf (page : List Bytes) :
    (s.replyOf cj state page).jobs state = (page.map (s.jobOf cj state)).reduceOption := by
  show _ = List.filterMap id (page.map (s.jobOf cj state))
  rw [List.filterMap_map]
  cases state with
  | pending =>
      show (page.map _).map _ = page.filterMap _
      rw [List.map_map, ← List.filterMap_eq_map]
      rfl
  | processing =>
      show (page.map _).map _ = page.filterMap _
      rw [List.map_map, ← List.filterMap_eq_map]
      rfl
  | finished state =>
      show (finishedJobs (page.map _)).map _ = page.filterMap _
      rw [finishedJobs, List.filterMap_map, List.map_filterMap]
      rfl

/-- Redis takes the bounds for indices; the loop over ack IDs takes any. -/
def Indexed (index : ℤ → Option ℤ) (state : JobList) (o limit : ℤ) : Prop :=
  match state with
  | .processing => True
  | _ => (index (luaInt o)).isSome = true ∧ (index (luaInt (o + limit - 1))).isSome = true

/-- Without a gap up to its end a page is the same page of the jobs there
are. -/
theorem reduceOption_page {α : Type} (l : List (Option α)) (o n : ℕ)
    (h : ∀ j ∈ l.take (o + n), j.isSome = true) :
    ((l.drop o).take n).reduceOption = (l.reduceOption.drop o).take n := by
  induction l generalizing o n with
  | nil => rw [List.drop_nil, List.take_nil, List.reduceOption_nil, List.drop_nil, List.take_nil]
  | cons j rest ih =>
      cases hsum : o + n with
      | zero =>
          obtain ⟨rfl, rfl⟩ := Nat.add_eq_zero_iff.mp hsum
          rw [List.take_zero, List.take_zero, List.reduceOption_nil]
      | succ m =>
          rw [hsum, List.take_succ_cons] at h
          obtain ⟨x, rfl⟩ := Option.isSome_iff_exists.mp (h j List.mem_cons_self)
          have hrest : ∀ j ∈ rest.take m, j.isSome = true :=
            fun j hj => h j (List.mem_cons_of_mem _ hj)
          rw [List.reduceOption_cons_of_some]
          cases o with
          | zero =>
              have hn : n = m + 1 := by omega
              have hpage := ih 0 m (by rwa [Nat.zero_add])
              rw [List.drop_zero, List.drop_zero] at hpage
              rw [hn, List.drop_zero, List.drop_zero, List.take_succ_cons, List.take_succ_cons,
                List.reduceOption_cons_of_some, hpage]
          | succ o =>
              rw [List.drop_succ_cons, List.drop_succ_cons]
              exact ih o n (by rwa [show o + n = m by omega])

/-- The script replies with the page. -/
theorem pageScript_exec (hindex : TakesIndices index) (ho : 0 ≤ o) (hlimit : 0 < limit)
    (hindexed : Indexed index state o limit) (hsize : (s.listing k env state).length ≤ 2 ^ 32)
    (hfit : unpacked state (((s.fullList k cj env state).drop o.toNat).take limit.toNat) <
      unpackLimit) :
    (pageScript index k cj env state o (o + limit - 1)).exec s =
      (.ok (s.replyOf cj state (((s.listing k env state).drop o.toNat).take limit.toNat)), s) := by
  have hsmall : (s.listing k env state).length ≤ 2 ^ 52 := hsize.trans (by decide)
  have hstart := near_luaInt ho
  have hstop := near_luaInt (n := o + limit - 1) (by omega)
  have sliced : ∀ {a b : ℤ}, index (luaInt o) = some a → index (luaInt (o + limit - 1)) = some b →
      slice (s.listing k env state) a b =
        ((s.listing k env state).drop o.toNat).take limit.toNat := fun ha hb =>
    slice_eq ho hlimit (hstart.read hindex ho ha) (hstop.read hindex (by omega) hb) hsmall
  cases state with
  | finished state =>
      obtain ⟨a, ha⟩ := Option.isSome_iff_exists.mp hindexed.1
      obtain ⟨b, hb⟩ := Option.isSome_iff_exists.mp hindexed.2
      have hget : state.this.get s = s.records.of state := by
        cases state <;> rfl
      have hpage : slice (s.records.of state).members.reverse a b = _ := sliced ha hb
      have hlength : (((s.listing k env (.finished state)).drop o.toNat).take
          limit.toNat).length < unpackLimit := by
        have hmap : unpacked (.finished state) (((s.fullList k cj env (.finished state)).drop
            o.toNat).take limit.toNat) = (((s.listing k env (.finished state)).drop
              o.toNat).take limit.toNat).length := by
          rw [unpacked, Store.fullList, ← List.map_drop, ← List.map_take, List.length_map]
        exact hmap ▸ hfit
      simp only [pageScript, ha, hb, zrevrange, hmget, ↓Script.exec_bind, exec_read,
        ↓Script.exec_ite, Script.exec_pure, hget, hpage]
      split
      · next hnone => rw [hnone]; rfl
      · rfl
  | pending =>
      obtain ⟨a, ha⟩ := Option.isSome_iff_exists.mp hindexed.1
      obtain ⟨b, hb⟩ := Option.isSome_iff_exists.mp hindexed.2
      have hpage : slice (s.items k) a b = _ := sliced ha hb
      simp only [pageScript, ha, hb, ↓Script.exec_bind, exec_waitingBetween, hpage,
        exec_eachRow (fun v => exec_pendingRow cj v s), Script.exec_pure]
      rfl
  | processing =>
      have hpage : fromTo (s.acks env) _ _ = _ := fromTo_eq ho hlimit hstart hstop hsmall
      simp only [pageScript, hkeys, ↓Script.exec_bind, exec_read, Ref.nacked_get,
        exec_eachRow (fun v => exec_processingRow cj v s), Script.exec_pure]
      exact congrArg (fun page => (Except.ok (s.replyOf cj .processing page), s)) hpage

theorem Store.listed_eq (k : Kind) (cj : Cjson) (env : Env) (state : JobList) (a b : ℕ)
    (s : Store) :
    s.listed k cj env state a b = s.replyOf cj state (page (s.listing k env state) a b) := by
  cases state <;> rfl

/-- Between bounds of any size the script replies as it does between natural
numbers. -/
theorem pageScript_eq_jobsScript (hindex : TakesIndices index) (ho : 0 ≤ o) (hlimit : 0 < limit)
    (hindexed : Indexed index state o limit) (hsize : (s.listing k env state).length ≤ 2 ^ 32)
    (hfit : unpacked state (((s.fullList k cj env state).drop o.toNat).take limit.toNat) <
      unpackLimit) :
    (pageScript index k cj env state o (o + limit - 1)).exec s =
      (.ok ((jobsScript k cj env state o.toNat (o + limit - 1).toNat).exec s).1, s) := by
  have hbetween : page (s.listing k env state) o.toNat (o + limit - 1).toNat =
      ((s.listing k env state).drop o.toNat).take limit.toNat := by
    rw [page, List.drop_take]
    congr 1
    omega
  rw [pageScript_exec hindex ho hlimit hindexed hsize hfit, jobsScript_exec, Store.listed_eq,
    hbetween]

/-- A page without its gaps. -/
theorem jobs_exec {offset : ℤ} (hindex : TakesIndices index) (hlimit : 0 < limit)
    (hsum : max 0 offset + limit ≤ 2 ^ 63) (hindexed : Indexed index state (max 0 offset) limit)
    (hsize : (s.listing k env state).length ≤ 2 ^ 32)
    (hfit : unpacked state (((s.fullList k cj env state).drop (max 0 offset).toNat).take
      limit.toNat) < unpackLimit) :
    (jobs index k cj env state offset limit).exec s =
      (.ok (((s.fullList k cj env state).drop (max 0 offset).toNat).take
        limit.toNat).reduceOption, s) := by
  have hstop : int64 (max 0 offset + limit - 1) = max 0 offset + limit - 1 :=
    int64_eq (by omega) (by omega)
  have hscript : (pageScript index k cj env state (max 0 offset) (max 0 offset + limit - 1)).exec
      s = _ :=
    pageScript_exec hindex (by omega) hlimit hindexed hsize hfit
  simp only [jobs, show ¬limit ≤ 0 by omega, if_false, ↓Script.exec_bind, hstop, hscript,
    Script.exec_pure, Except.map, jobs_replyOf, Store.fullList, List.map_drop, List.map_take]

end Pages

/-- **Jobs pages exactly**: after the offset, at most `limit` elements of the
list of the Job State, which is in its order; those without a record are left
out of the page. -/
theorem jobs_page (index : ℤ → Option ℤ) (hindex : TakesIndices index) (k : Kind) (cj : Cjson)
    (env : Env) (state : JobList) (s : Store) (offset limit : ℤ) (hlimit : 0 < limit)
    (hsum : max 0 offset + limit ≤ 2 ^ 63)
    (hindexed : Indexed index state (max 0 offset) limit)
    (hsize : (s.listing k env state).length ≤ 2 ^ 32)
    (hfit : unpacked state (((s.fullList k cj env state).drop (max 0 offset).toNat).take
      limit.toNat) < unpackLimit) :
    (jobs index k cj env state offset limit).exec s =
        (.ok (((s.fullList k cj env state).drop (max 0 offset).toNat).take
          limit.toNat).reduceOption, s) ∧
      ((∀ j ∈ (s.fullList k cj env state).take ((max 0 offset).toNat + limit.toNat),
          j.isSome = true) →
        (((s.fullList k cj env state).drop (max 0 offset).toNat).take limit.toNat).reduceOption =
          ((s.fullList k cj env state).reduceOption.drop (max 0 offset).toNat).take limit.toNat) ∧
      s.InOrder k cj state (s.listing k env state) :=
  ⟨jobs_exec hindex hlimit hsum hindexed hsize hfit, reduceOption_page _ _ _,
    s.listing_inOrder k cj env state⟩

/-- Indices as they are read where numbers are printed with 17 digits: from
10^17 on with an exponent, which is no integer. -/
def printedIndex (n : ℤ) : Option ℤ :=
  if n.natAbs < 10 ^ 17 then some n else none

theorem eq_of_printedIndex {n m : ℤ} (h : printedIndex n = some m) : n = m := by
  unfold printedIndex at h
  split at h
  · exact Option.some.inj h
  · cases h

theorem printedIndex_takes : TakesIndices printedIndex where
  exact n hn hle := if_pos (by omega)
  large n m hn h := by
    have := eq_of_printedIndex h
    omega
  below n m hn h := by
    have := eq_of_printedIndex h
    omega

/-- Two completed jobs, the newer one without a record. -/
def gapped : Store :=
  { Store.empty with
    completed := (SortedSet.insert ∅ [97] 1).insert [98] 2
    jobs := (∅ : Hash Bytes).insert [97] (text "\x7b\x7d") }

/-- Three pending entries. -/
def threePending : Store :=
  { Store.empty with
    nacked := (((∅ : Hash Bytes).insert [97] [1]).insert [98] [2]).insert [99] [3] }

/-- The second page of one, of two, holds the job that has a record. -/
theorem jobs_page_gapped :
    ((jobs printedIndex .fifo oneEnvelope (Env.plain 0 fun _ => 0) (.finished .completed) 1
        1).exec gapped).1 = .ok [JobRecord.zero.job] ∧
      gapped.InOrder .fifo oneEnvelope (.finished .completed) [[98], [97]] := by
  have hpage := jobs_page printedIndex printedIndex_takes .fifo oneEnvelope
    (Env.plain 0 fun _ => 0) (.finished .completed) gapped 1 1 (by decide) (by decide)
    ⟨rfl, rfl⟩ (by decide) (by decide)
  exact ⟨congrArg Prod.fst hpage.1, hpage.2.2⟩

/-- The first page of one is empty, though there is a job to be had: its
member's record is gone.  And from the third of three pending entries on, with
the largest limit there is, `offset + limit - 1` wraps around, and the page is
empty. -/
theorem jobs_page_short :
    (((jobs printedIndex .fifo oneEnvelope (Env.plain 0 fun _ => 0) (.finished .completed) 0
          1).exec gapped).1 = .ok [] ∧
        ((gapped.fullList .fifo oneEnvelope (Env.plain 0 fun _ => 0)
          (.finished .completed)).reduceOption.drop 0).take 1 = [JobRecord.zero.job]) ∧
      ((jobs printedIndex .fifo oneEnvelope (Env.plain 0 fun _ => 0) .processing 2
          (2 ^ 63 - 1)).exec threePending).1 = .ok [] ∧
        (((threePending.fullList .fifo oneEnvelope (Env.plain 0 fun _ => 0)
          .processing).reduceOption.drop 2).take (2 ^ 63 - 1)).length = 1 := by
  refine ⟨⟨rfl, rfl⟩, rfl, ?_⟩
  have hlength : (threePending.fullList .fifo oneEnvelope (Env.plain 0 fun _ => 0)
      .processing).reduceOption.length = 3 := rfl
  rw [List.length_take, List.length_drop, hlength]
  rfl

end Redisq.Model
