import Redisq.Library.JobLine
import Redisq.Verified.Attempts
import Redisq.Verified.Conservation
import Redisq.Verified.Pending

/-!
# First come, first served

A list queue is a line of jobs (`lineAt`), each in one place, whatever the
scripts of however many objects do (`fifo_is_line`).  So the pushes are served
in their order: a job is handed out for the first time only when every job
that was pushed before it has been handed out, if nothing dropped it
(`first_come_first_served`).
-/

namespace Redisq.Model

/-! ## The line -/

/-- What a script run does to the line; a job it brings is born at `n`. -/
def Invocation.lineAfter (cj : Cjson) (env : Env) (s : Store) (n : ℕ)
    (q : JobLine Bytes ℕ Bytes) : Invocation → JobLine Bytes ℕ Bytes
  | .push a => if s.remembers env a then q else q.join n a.item
  | .rawPop => if s.paused.isSome then q else q.serve 1
  | .pop p => if s.holds p.ids ∨ s.paused.isSome then q else p.ids.foldl JobLine.callOne q
  | .prepareAck id item _ => q.lodge id n item
  | .finish a => q.close a.ackID
  | .requeue vt => (s.requeueIDs env vt).foldl JobLine.giveBack q
  | .sweep owner hbt => (s.sweptIDs .fifo cj env owner.name hbt).foldl JobLine.giveBack q
  | .release owner => (s.pendingIDs env (ownedBy owner.name)).foldl JobLine.giveBack q
  | .remove item => q.strike fun v => v = item
  | .purge => .empty
  | _ => q

/-- Nobody is in line any more if the queue key has expired. -/
def Store.lineFound (env : Env) (s : Store) (q : JobLine Bytes ℕ Bytes) : JobLine Bytes ℕ Bytes :=
  if s.expiry.any (fun expiry => expiry < env.nowms) = true then q.lost else q

theorem Store.lineFound_held (env : Env) (s : Store) (q : JobLine Bytes ℕ Bytes) :
    (s.lineFound env q).held = q.held := by
  unfold Store.lineFound
  split
  · rfl
  · rfl

/-- The line before moment `n` of a run. -/
def lineAt (cj : Cjson) (u : ℕ → Option ScriptRun) : ℕ → JobLine Bytes ℕ Bytes
  | 0 => .empty
  | n + 1 =>
      match u n with
      | none => lineAt cj u n
      | some r =>
          let s := storeAt .fifo cj u n
          r.inv.lineAfter cj r.env (s.evicted r.env) n (s.lineFound r.env (lineAt cj u n))

/-- How many jobs a pop takes off the line. -/
def Invocation.calls (s : Store) : Invocation → ℕ
  | .rawPop => if s.paused.isSome then 0 else 1
  | .pop p => if s.holds p.ids ∨ s.paused.isSome then 0 else p.ids.length
  | _ => 0

/-- The jobs handed out at moment `n`, off the line: not those handed back. -/
def servedAt (cj : Cjson) (u : ℕ → Option ScriptRun) (n : ℕ) : List (JobLine.Job ℕ Bytes) :=
  match u n with
  | none => []
  | some r =>
      let s := storeAt .fifo cj u n
      (s.lineFound r.env (lineAt cj u n)).line.take (r.inv.calls (s.evicted r.env))

/-- The jobs are the items of a list queue. -/
structure LinedUp (q : JobLine Bytes ℕ Bytes) (s : Store) : Prop where
  list : s.list = q.line.map JobLine.Job.item
  pending : ∀ id, s.nacked.lookup id = (q.held id).map JobLine.Job.item

section Steps

variable {cj : Cjson} {env : Env} {s t : Store} {q : JobLine Bytes ℕ Bytes}

theorem LinedUp.of_same (h : LinedUp q s) (hlist : t.list = s.list)
    (hnacked : t.nacked = s.nacked) : LinedUp q t :=
  ⟨hlist.trans h.list, fun id => by rw [hnacked]; exact h.pending id⟩

theorem LinedUp.found (h : LinedUp q s) (env : Env) :
    LinedUp (s.lineFound env q) (s.evicted env) := by
  unfold Store.lineFound Store.evicted
  split
  · exact ⟨rfl, h.pending⟩
  · exact h

/-- A lookup after an update of both tables. -/
theorem LinedUp.update {held : Bytes → Option (JobLine.Job ℕ Bytes)} {nacked : Hash Bytes}
    (h : ∀ id, nacked.lookup id = (held id).map JobLine.Job.item) (id : Bytes)
    (j : JobLine.Job ℕ Bytes) :
    ∀ id', (nacked.insert id j.item).lookup id' =
      (Function.update held id (some j) id').map JobLine.Job.item := by
  intro id'
  by_cases hid : id' = id
  · subst hid
    rw [Finmap.lookup_insert, Function.update_self]
    rfl
  · rw [Finmap.lookup_insert_of_ne _ hid, Function.update_of_ne hid]
    exact h id'

theorem LinedUp.clear {held : Bytes → Option (JobLine.Job ℕ Bytes)} {nacked : Hash Bytes}
    (h : ∀ id, nacked.lookup id = (held id).map JobLine.Job.item) (id : Bytes) :
    ∀ id', (nacked.erase id).lookup id' =
      (Function.update held id none id').map JobLine.Job.item := by
  intro id'
  by_cases hid : id' = id
  · subst hid
    rw [Finmap.lookup_erase, Function.update_self]
    rfl
  · rw [Finmap.lookup_erase_ne hid, Function.update_of_ne hid]
    exact h id'

/-- Calls make the items at the head pending. -/
theorem callAll_held (ids : List Bytes) : ∀ (q : JobLine Bytes ℕ Bytes) (nacked : Hash Bytes),
    (∀ id, nacked.lookup id = (q.held id).map JobLine.Job.item) →
      ∀ id, (nacked.insertAll (ids.zip ((q.line.map JobLine.Job.item).take ids.length))).lookup id =
        ((ids.foldl JobLine.callOne q).held id).map JobLine.Job.item := by
  induction ids with
  | nil => exact fun _ _ h => h
  | cons id rest ih =>
      intro q nacked h
      rw [List.foldl_cons, JobLine.callOne]
      split
      · next hline =>
          have hrest := ih q nacked h
          rw [hline, List.map_nil, List.take_nil, List.zip_nil_right] at hrest
          rw [hline, List.map_nil, List.take_nil, List.zip_nil_right]
          exact hrest
      · next j jobs hline =>
          rw [hline, List.map_cons, List.length_cons, List.take_succ_cons, List.zip_cons_cons,
            Finmap.insertAll_cons]
          exact ih ⟨jobs, _⟩ _ (LinedUp.update h id { j with called := true })

theorem LinedUp.moved (h : LinedUp q s) (id : Bytes) :
    LinedUp (q.giveBack id) (s.moved .fifo cj id) := by
  have hpending := h.pending id
  unfold JobLine.giveBack
  split
  · next hnone =>
      rw [hnone] at hpending
      rw [Store.moved_of_none hpending]
      exact ⟨h.list, h.pending⟩
  · next j hj =>
      rw [hj] at hpending
      rw [Store.moved_of_some hpending]
      exact ⟨congrArg (j.item :: ·) h.list, LinedUp.clear h.pending id⟩

theorem LinedUp.movedAll (ids : List Bytes) :
    ∀ {q : JobLine Bytes ℕ Bytes} {s : Store}, LinedUp q s →
      LinedUp (ids.foldl JobLine.giveBack q) (ids.foldl (Store.moved .fifo cj) s) := by
  induction ids with
  | nil => exact fun h => h
  | cons id rest ih => exact fun h => ih (h.moved id)

theorem map_eraseP_item (item : Bytes) (jobs : List (JobLine.Job ℕ Bytes)) :
    (jobs.map JobLine.Job.item).erase item =
      (jobs.eraseP fun j => decide (j.item = item)).map JobLine.Job.item := by
  induction jobs with
  | nil => rfl
  | cons j rest ih =>
      by_cases hj : j.item = item
      · rw [List.map_cons, hj, List.erase_cons_head, List.eraseP_cons_of_pos (by simpa using hj)]
      · rw [List.map_cons, List.erase_cons_tail (by simpa using hj),
          List.eraseP_cons_of_neg (by simpa using hj), ih, List.map_cons]

/-- A script does to the list what it does to the line. -/
theorem LinedUp.after (h : LinedUp q s) (n : ℕ) (inv : Invocation) :
    LinedUp (inv.lineAfter cj env s n q) (inv.after .fifo cj env s) := by
  cases inv with
  | push a =>
      simp only [Invocation.lineAfter, Invocation.after, Store.afterPush]
      split
      · exact h
      · refine ⟨?_, h.pending⟩
        show s.list ++ [a.item] = (q.line ++ [_]).map JobLine.Job.item
        rw [List.map_append, h.list]
        rfl
  | rawPop =>
      simp only [Invocation.lineAfter, Invocation.after, Store.rawPopped]
      split
      · exact h
      · refine ⟨?_, h.pending⟩
        show s.list.tail = (q.line.drop 1).map JobLine.Job.item
        rw [List.map_drop, ← h.list, List.drop_one]
  | pop p =>
      simp only [Invocation.lineAfter, Invocation.after]
      have hnacked := p.effect_nacked .fifo env s
      split
      · next hrest =>
          rw [Store.taken, if_pos hrest, Finmap.insertAll_nil] at hnacked
          refine h.of_same ?_ hnacked
          unfold PopCall.effect Store.pop
          split
          · rfl
          · next hfree => rw [if_pos (hrest.resolve_left hfree)]
      · next hfresh =>
          rw [Store.taken, if_neg hfresh, Store.head] at hnacked
          refine ⟨?_, fun id => ?_⟩
          · rw [JobLine.callAll_line, List.map_drop, ← h.list]
            rw [PopCall.effect, Store.pop, if_neg fun hheld => hfresh (Or.inl hheld),
              if_neg fun hpaused => hfresh (Or.inr hpaused)]
            exact (Store.poppedFresh_queue env p.args p.ids p.slots).1
          · rw [hnacked, h.list]
            exact callAll_held p.ids q s.nacked h.pending id
  | prepareAck id item vt => exact ⟨h.list, LinedUp.update h.pending id ⟨n, item, true⟩⟩
  | finish a =>
      simp only [Invocation.lineAfter, Invocation.after, Store.afterFinish]
      cases hitem : s.nacked.lookup a.ackID with
      | none =>
          refine ⟨h.list, fun id => ?_⟩
          have hclear := LinedUp.clear h.pending a.ackID id
          rwa [Finmap.erase_of_lookup_none hitem] at hclear
      | some item => exact ⟨h.list, LinedUp.clear h.pending a.ackID⟩
  | requeue vt => exact LinedUp.movedAll _ h
  | sweep owner hbt =>
      simp only [Invocation.lineAfter, Invocation.after, Store.swept_eq]
      exact (LinedUp.movedAll _ h).of_same rfl rfl
  | release owner => exact (LinedUp.movedAll _ h).of_same rfl rfl
  | remove item =>
      refine ⟨?_, h.pending⟩
      show s.list.erase item = (q.line.eraseP _).map JobLine.Job.item
      rw [h.list, map_eraseP_item]
  | purge => exact ⟨rfl, fun id => rfl⟩
  | _ => exact h.of_same rfl rfl

end Steps

/-! ## Runs -/

/-- The script run at moment `t` pushed the item, or made it pending by
hand. -/
def Brought (u : ℕ → Option ScriptRun) (t : ℕ) (v : Bytes) : Prop :=
  ∃ r, u t = some r ∧ ((∃ a : PushArgs, r.inv = .push a ∧ a.item = v) ∨
    ∃ id vt, r.inv = .prepareAck id v vt)

/-- A raw pop, or an ack pop that finds none of its IDs held. -/
def Invocation.Serves (s : Store) (inv : Invocation) : Prop :=
  inv = .rawPop ∨ ∃ p, inv = .pop p ∧ s.holds p.ids = false

/-- A list queue at moment `n` is a line of jobs: its items and its pending
entries are theirs, each job is what was brought when it was born and is in
one place, and a pop hands out the head of the line. -/
structure IsLine (cj : Cjson) (u : ℕ → Option ScriptRun) (n : ℕ) : Prop where
  linedUp : LinedUp (lineAt cj u n) (storeAt .fifo cj u n)
  orderly : (lineAt cj u n).Orderly n
  origin : (lineAt cj u n).From (Brought u)
  replies : ∀ r, u n = some r → r.inv.Serves (storeAt .fifo cj u n) →
    (r.reply .fifo cj (storeAt .fifo cj u n)).items = (servedAt cj u n).map JobLine.Job.item

section Runs

variable {cj : Cjson} {u : ℕ → Option ScriptRun} {n : ℕ} {r : ScriptRun}

theorem lineAt_succ_none (hr : u n = none) : lineAt cj u (n + 1) = lineAt cj u n := by
  rw [lineAt, hr]

theorem lineAt_succ (hr : u n = some r) :
    lineAt cj u (n + 1) =
      r.inv.lineAfter cj r.env ((storeAt .fifo cj u n).evicted r.env) n
        ((storeAt .fifo cj u n).lineFound r.env (lineAt cj u n)) := by
  rw [lineAt, hr]

theorem servedAt_some (hr : u n = some r) :
    servedAt cj u n =
      ((storeAt .fifo cj u n).lineFound r.env (lineAt cj u n)).line.take
        (r.inv.calls ((storeAt .fifo cj u n).evicted r.env)) := by
  rw [servedAt, hr]

theorem lineAt_linedUp (cj : Cjson) (u : ℕ → Option ScriptRun) (n : ℕ) :
    LinedUp (lineAt cj u n) (storeAt .fifo cj u n) := by
  induction n with
  | zero => exact ⟨rfl, fun id => rfl⟩
  | succ n ih =>
      cases hr : u n with
      | none => rw [lineAt_succ_none hr, storeAt_succ_none hr]; exact ih
      | some r =>
          have hafter := @LinedUp.after cj r.env _ _ (ih.found r.env) n r.inv
          rw [lineAt_succ hr]
          obtain ⟨_, _, _, _, hsame⟩ := step_some .fifo cj (storeAt .fifo cj u n) r
          rw [storeAt_succ, hr, hsame]
          exact hafter.of_same rfl rfl

theorem lineFound_orderly {q : JobLine Bytes ℕ Bytes} (h : q.Orderly n) (env : Env) (s : Store) :
    (s.lineFound env q).Orderly n := by
  unfold Store.lineFound
  split
  · exact h.lost
  · exact h

theorem lineAfter_orderly {q : JobLine Bytes ℕ Bytes} (h : q.Orderly n) (cj : Cjson) (env : Env)
    (s : Store) (inv : Invocation) : (inv.lineAfter cj env s n q).Orderly (n + 1) := by
  have hlater : n < n + 1 := n.lt_succ_self
  cases inv with
  | push a =>
      simp only [Invocation.lineAfter]
      split
      · exact h.mono hlater.le
      · exact h.join hlater
  | rawPop =>
      simp only [Invocation.lineAfter]
      split
      · exact h.mono hlater.le
      · exact (h.serve 1).mono hlater.le
  | pop p =>
      simp only [Invocation.lineAfter]
      split
      · exact h.mono hlater.le
      · exact (h.callAll p.ids).mono hlater.le
  | prepareAck id item vt => exact h.lodge hlater id
  | finish a => exact (h.close a.ackID).mono hlater.le
  | requeue vt => exact (h.giveBackAll _).mono hlater.le
  | sweep owner hbt => exact (h.giveBackAll _).mono hlater.le
  | release owner => exact (h.giveBackAll _).mono hlater.le
  | remove item => exact (h.strike fun v => decide (v = item)).mono hlater.le
  | purge => exact JobLine.Orderly.empty _
  | _ => exact h.mono hlater.le

theorem lineAt_orderly (cj : Cjson) (u : ℕ → Option ScriptRun) (n : ℕ) :
    (lineAt cj u n).Orderly n := by
  induction n with
  | zero => exact JobLine.Orderly.empty 0
  | succ n ih =>
      cases hr : u n with
      | none => rw [lineAt_succ_none hr]; exact ih.mono n.le_succ
      | some r =>
          rw [lineAt_succ hr]
          exact lineAfter_orderly (lineFound_orderly ih _ _) cj _ _ _

/-- A script brings what it pushes or makes pending by hand. -/
theorem lineAfter_from {brought : ℕ → Bytes → Prop} {q : JobLine Bytes ℕ Bytes}
    (h : q.From brought) {inv : Invocation}
    (hnew : ∀ v,
      (∃ a : PushArgs, inv = .push a ∧ a.item = v) ∨ (∃ id vt, inv = .prepareAck id v vt) →
      brought n v)
    (cj : Cjson) (env : Env) (s : Store) : (inv.lineAfter cj env s n q).From brought := by
  cases inv with
  | push a =>
      simp only [Invocation.lineAfter]
      split
      · exact h
      · exact h.join (hnew a.item (Or.inl ⟨a, rfl, rfl⟩))
  | rawPop =>
      simp only [Invocation.lineAfter]
      split
      · exact h
      · exact h.subset (List.drop_subset _ _)
  | pop p =>
      simp only [Invocation.lineAfter]
      split
      · exact h
      · exact h.callAll p.ids
  | prepareAck id item vt => exact h.lodge (hnew item (Or.inr ⟨id, vt, rfl⟩)) id
  | finish a => exact h.close a.ackID
  | requeue vt => exact h.giveBackAll _
  | sweep owner hbt => exact h.giveBackAll _
  | release owner => exact h.giveBackAll _
  | remove item => exact h.subset List.eraseP_subset
  | purge => exact JobLine.From.empty
  | _ => exact h

theorem lineFound_from {brought : ℕ → Bytes → Prop} {q : JobLine Bytes ℕ Bytes}
    (h : q.From brought) (env : Env) (s : Store) : (s.lineFound env q).From brought := by
  unfold Store.lineFound
  split
  · exact h.subset (List.nil_subset _)
  · exact h

theorem lineAt_from (cj : Cjson) (u : ℕ → Option ScriptRun) (n : ℕ) :
    (lineAt cj u n).From (Brought u) := by
  induction n with
  | zero => exact JobLine.From.empty
  | succ n ih =>
      cases hr : u n with
      | none => rw [lineAt_succ_none hr]; exact ih
      | some r =>
          rw [lineAt_succ hr]
          exact lineAfter_from (lineFound_from ih _ _) (fun v hv => ⟨r, hr, hv⟩) cj _ _

/-- What a pop's reply hands out is the head of the list. -/
theorem serves_items (cj : Cjson) {env : Env} {s : Store} {inv : Invocation}
    (hs : s.evicted env = s) (hserves : inv.Serves s) :
    (ScriptRun.reply .fifo cj s ⟨inv, env⟩).items = s.list.take (inv.calls s) := by
  obtain rfl | ⟨p, rfl, hfree⟩ := hserves
  · rw [rawPop_reply .fifo cj s env hs, Store.rawHead, Invocation.calls]
    by_cases hpaused : s.paused.isSome = true
    · simp [hpaused, Reply.items]
    · rw [if_neg hpaused, if_neg hpaused, if_neg hpaused, Store.head]
      cases s.list <;> rfl
  · show ((p.run .fifo env).exec (s.evicted env)).1.items = _
    rw [hs, p.reply_items, PopCall.effect, Store.pop, Invocation.calls, hfree]
    by_cases hpaused : s.paused.isSome = true
    · simp [hpaused, BatchReply.items]
    · simp [hpaused, BatchReply.items, Store.poppedFresh, Store.head]

/-- They are the items of the jobs it takes off the line. -/
theorem served_items (hr : u n = some r) (hserves : r.inv.Serves (storeAt .fifo cj u n)) :
    (r.reply .fifo cj (storeAt .fifo cj u n)).items = (servedAt cj u n).map JobLine.Job.item := by
  have hfound := (lineAt_linedUp cj u n).found r.env
  have hserves : r.inv.Serves ((storeAt .fifo cj u n).evicted r.env) := by
    refine hserves.imp_right fun ⟨p, hinv, hfree⟩ => ⟨p, hinv, ?_⟩
    rw [Store.holds, Store.evicted_nacked]
    exact hfree
  have hitems := serves_items cj (Store.evicted_evicted r.env (storeAt .fifo cj u n)) hserves
  rw [← reply_evicted, servedAt_some hr, List.map_take, ← hfound.list]
  exact hitems

/-- In every run of a list queue the queue is a line of jobs. -/
theorem fifo_is_line (cj : Cjson) (u : ℕ → Option ScriptRun) (n : ℕ) : IsLine cj u n where
  linedUp := lineAt_linedUp cj u n
  orderly := lineAt_orderly cj u n
  origin := lineAt_from cj u n
  replies _ hr hserves := served_items hr hserves

end Runs

/-! ## The order in which jobs are served -/

section Runs

variable (cj : Cjson) (u : ℕ → Option ScriptRun)

/-- The push at moment `i` stored its item. -/
def StoredAt (i : ℕ) : Prop :=
  ∃ a env count, u i = some ⟨.push a, env⟩ ∧
    ScriptRun.reply .fifo cj (storeAt .fifo cj u i) ⟨.push a, env⟩ = .pushed (some count)

/-- What was pushed at moment `i` is handed out for the first time at moment
`n`, in place `p` of what the pop hands out. -/
def FirstServed (i n p : ℕ) : Prop :=
  ∃ v, (servedAt cj u n)[p]? = some ⟨i, v, false⟩

/-- What was pushed at moment `i` leaves the line at moment `n` without being
handed out: the queue key has expired, or it is removed or purged. -/
def DroppedAt (i n : ℕ) : Prop :=
  (lineAt cj u n).Waits i ∧ ¬(lineAt cj u (n + 1)).Waits i ∧ ∃ r, u n = some r ∧
    ((storeAt .fifo cj u n).expiry.any (fun expiry => expiry < r.env.nowms) = true ∨
      (∃ item, r.inv = .remove item ∧ Brought u i item) ∨ r.inv = .purge)

variable {cj u} {i j n p : ℕ}

theorem StoredAt.waits (h : StoredAt cj u i) : (lineAt cj u (i + 1)).Waits i := by
  obtain ⟨a, env, count, hr, hreply⟩ := h
  rw [lineAt_succ hr]
  have hpush := push_reply .fifo cj ((storeAt .fifo cj u i).evicted env) env a
  rw [reply_evicted (r := ⟨.push a, env⟩), hreply] at hpush
  simp only [Invocation.lineAfter]
  split
  · next hrem =>
      rw [if_pos hrem] at hpush
      cases hpush
  · exact ⟨_, List.mem_append_right _ (List.mem_singleton_self _), rfl, rfl⟩

/-- A job waits for its first call until a pop hands it out or it is
dropped. -/
theorem waits_succ (hwaits : (lineAt cj u n).Waits i)
    (hserved : ¬∃ j ∈ servedAt cj u n, j.born = i ∧ j.called = false)
    (hdropped : ¬DroppedAt cj u i n) : (lineAt cj u (n + 1)).Waits i := by
  by_contra hgone
  cases hr : u n with
  | none =>
      rw [lineAt_succ_none hr] at hgone
      exact hgone hwaits
  | some r =>
      have hlasting :
          ¬(storeAt .fifo cj u n).expiry.any (fun expiry => expiry < r.env.nowms) = true :=
        fun hexpired => hdropped ⟨hwaits, hgone, r, hr, Or.inl hexpired⟩
      have hother := fun hwhy => hdropped ⟨hwaits, hgone, r, hr, Or.inr hwhy⟩
      have hfound : (storeAt .fifo cj u n).lineFound r.env (lineAt cj u n) = lineAt cj u n :=
        if_neg hlasting
      rw [servedAt_some hr, hfound] at hserved
      rw [lineAt_succ hr, hfound] at hgone
      obtain ⟨inv, env⟩ := r
      apply hgone
      cases inv with
      | push a =>
          simp only [Invocation.lineAfter]
          split
          · exact hwaits
          · exact hwaits.join n a.item
      | rawPop =>
          simp only [Invocation.lineAfter, Invocation.calls] at hserved ⊢
          split
          · exact hwaits
          · next hpaused =>
              rw [if_neg hpaused] at hserved
              exact hwaits.drop hserved rfl
      | pop p =>
          simp only [Invocation.lineAfter, Invocation.calls] at hserved ⊢
          split
          · exact hwaits
          · next hfresh =>
              rw [if_neg hfresh] at hserved
              exact hwaits.drop hserved (JobLine.callAll_line p.ids _)
      | requeue vt => exact hwaits.giveBackAll _
      | sweep owner hbt => exact hwaits.giveBackAll _
      | release owner => exact hwaits.giveBackAll _
      | remove item =>
          obtain ⟨j, hj, rfl, hnew⟩ := hwaits
          have hbrought := (lineAt_from cj u n).line j hj
          refine ⟨j, (List.mem_eraseP_of_neg ?_).mpr hj, rfl, hnew⟩
          intro heq
          have heq : j.item = item := of_decide_eq_true heq
          exact hother (Or.inl ⟨item, rfl, heq ▸ hbrought⟩)
      | purge => exact absurd (Or.inr rfl) hother
      | _ => exact hwaits

/-- First come, first served: what is handed out for the first time was pushed
after nothing that still waits for its first time.  What was pushed before it
was handed out before it, by an earlier pop or in an earlier place, or had
been dropped. -/
theorem first_come_first_served (hij : i < j) (hi : StoredAt cj u i)
    (hj : FirstServed cj u j n p) :
    ∃ m, i < m ∧ m ≤ n ∧ ((∃ p', FirstServed cj u i m p' ∧ (m < n ∨ p' < p)) ∨
      DroppedAt cj u i m) := by
  by_contra hnever
  have hwaits : ∀ m, i + 1 ≤ m → m ≤ n → (lineAt cj u m).Waits i := by
    intro m him
    induction m, him using Nat.le_induction with
    | base => exact fun _ => hi.waits
    | succ m him ih =>
        intro hmn
        refine waits_succ (ih (by omega)) ?_ ?_
        · rintro ⟨job, hjob, rfl, hnew⟩
          obtain ⟨p', hp'⟩ := List.mem_iff_getElem?.mp hjob
          refine hnever ⟨m, by omega, by omega, Or.inl ⟨p', ⟨job.item, ?_⟩, Or.inl (by omega)⟩⟩
          rw [hp', ← hnew]
        · intro hdropped
          exact hnever ⟨m, by omega, by omega, Or.inr hdropped⟩
  obtain ⟨w, hw⟩ := hj
  obtain ⟨r, hr⟩ : ∃ r, u n = some r := by
    cases hr : u n with
    | none => rw [servedAt, hr] at hw; cases hw
    | some r => exact ⟨r, rfl⟩
  -- the line is not lost, since it serves somebody
  have hfound : (storeAt .fifo cj u n).lineFound r.env (lineAt cj u n) = lineAt cj u n := by
    unfold Store.lineFound
    split
    · next hexpired =>
        rw [servedAt_some hr, Store.lineFound, if_pos hexpired, JobLine.lost, List.take_nil] at hw
        cases hw
    · rfl
  rw [servedAt_some hr, hfound, List.getElem?_take, Option.ite_none_right_eq_some] at hw
  obtain ⟨hp, hline⟩ := hw
  have hjn : j < n := (lineAt_orderly cj u n).past _ (List.mem_of_getElem? hline)
  obtain ⟨job, hjob, rfl, hnew⟩ := hwaits n (by omega) le_rfl
  obtain ⟨p', hp'⟩ := List.mem_iff_getElem?.mp hjob
  have hfirst := (lineAt_orderly cj u n).first_come hline hp' rfl hij
  refine hnever ⟨n, by omega, le_rfl, Or.inl ⟨p', ⟨job.item, ?_⟩, Or.inr hfirst⟩⟩
  rw [servedAt_some hr, hfound, List.getElem?_take_of_lt (by omega), hp', ← hnew]

end Runs

/-- Two pushes, and a batch pop that takes both. -/
def pushPushBatch : ℕ → Option ScriptRun
  | 0 => some ⟨.push ⟨[97], 0, 0, false, none⟩, .plain 0 fun _ => 0⟩
  | 1 => some ⟨.push ⟨[98], 0, 0, false, none⟩, .plain 1 fun _ => 0⟩
  | 2 => some ⟨.pop ⟨⟨ownerA, 1, second, second, false⟩, .batch 2 2⟩, .plain 2 fun _ => 0⟩
  | _ => none

theorem first_come_first_served_pushPushBatch :
    ∃ m, 0 < m ∧ m ≤ 2 ∧
      ((∃ p, FirstServed .none pushPushBatch 0 m p ∧ (m < 2 ∨ p < 1)) ∨
        DroppedAt .none pushPushBatch 0 m) :=
  first_come_first_served (i := 0) (j := 1) (n := 2) (p := 1) (by decide)
    ⟨_, _, _, rfl, rfl⟩ ⟨[98], rfl⟩

end Redisq.Model
