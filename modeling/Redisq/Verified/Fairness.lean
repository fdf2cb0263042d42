import Redisq.Verified.FirstCome
import Redisq.Verified.Signals

/-!
# Nobody starves

A job on a list queue is overtaken by requeued jobs only.  So once more items
have been handed out than waited when it was pushed, and than were requeued
since, it has been handed out too, if nothing dropped it
(`handed_out_in_turn`).
-/

namespace Redisq.Model

/-- How many items a script run hands out for the first time since they were
put on the queue: a raw pop's, and what an ack pop takes off the queue. -/
def ScriptRun.handsOut (k : Kind) (cj : Cjson) (s : Store) (r : ScriptRun) : ℕ :=
  match r.inv with
  | .rawPop => Multiset.card (r.takenOut k cj s)
  | .pop _ => Multiset.card (r.popped k s)
  | _ => 0

/-- How many entries it requeues. -/
def ScriptRun.returns (k : Kind) (cj : Cjson) (s : Store) (r : ScriptRun) : ℕ :=
  Multiset.card (r.requeued k cj s)

section Steps

variable {cj : Cjson} {env : Env} {s : Store} {q : JobLine Bytes ℕ Bytes} {i : ℕ}

/-- Each requeued entry is a job that goes ahead. -/
theorem ahead_giveBackAll (ids : List Bytes) (h : LinedUp q s) :
    (ids.foldl JobLine.giveBack q).ahead i ≤
      q.ahead i + Multiset.card ((s.custody .fifo).entriesOf ids) := by
  induction ids generalizing q s with
  | nil => exact Nat.le_add_right _ _
  | cons id rest ih =>
      have hrest : ((s.moved .fifo .none id).custody .fifo).entriesOf rest =
          ((s.custody .fifo).giveBackOne id).entriesOf rest :=
        Custody.entriesOf_congr rest (s.moved_nacked .fifo .none id)
      have hmoved : LinedUp (q.giveBack id) (s.moved .fifo .none id) := h.moved id
      have hall := ih hmoved
      have hone := @JobLine.ahead_giveBack_le Bytes ℕ Bytes _ q i _ id
      have hentry : (if (q.held id).isSome then 1 else 0) ≤
          Multiset.card ((s.custody .fifo).entryOf id) := by
        have hpending := h.pending id
        cases hheld : q.held id with
        | none => exact Nat.zero_le _
        | some j =>
            rw [hheld] at hpending
            have hentry : (s.custody .fifo).entryOf id = {(id, j.item)} :=
              Custody.entryOf_of_some hpending
            rw [hentry]
            exact le_rfl
      rw [hrest] at hall
      rw [List.foldl_cons, Custody.entriesOf, Multiset.card_add]
      omega

/-- Of those who were in line nobody still waits after the line was lost. -/
theorem not_waits_of_lost {n : ℕ} (h : q.Orderly n) (hin : i < n) (inv : Invocation) :
    ¬(inv.lineAfter cj env s n q.lost).Waits i := by
  rintro ⟨j, hj, rfl, hnew⟩
  have hempty : j ∉ q.lost.line := List.not_mem_nil
  have hback : ∀ ids : List Bytes, j ∉ (ids.foldl JobLine.giveBack q.lost).line := by
    intro ids hmem
    obtain hline | ⟨id, hheld⟩ := JobLine.mem_giveBackAll ids hmem
    · exact hempty hline
    · have hcalled := h.known id j hheld
      rw [hnew] at hcalled
      cases hcalled
  cases inv with
  | push a =>
      simp only [Invocation.lineAfter] at hj
      split at hj
      · exact hempty hj
      · obtain hold | hjoined := List.mem_append.mp hj
        · exact hempty hold
        · obtain rfl := List.mem_singleton.mp hjoined
          exact absurd hin (lt_irrefl n)
  | rawPop =>
      simp only [Invocation.lineAfter] at hj
      split at hj
      · exact hempty hj
      · exact hempty (List.mem_of_mem_drop hj)
  | pop p =>
      simp only [Invocation.lineAfter] at hj
      split at hj
      · exact hempty hj
      · rw [JobLine.callAll_line] at hj
        exact hempty (List.mem_of_mem_drop hj)
  | requeue vt => exact hback _ hj
  | sweep owner hbt => exact hback _ hj
  | release owner => exact hback _ hj
  | remove item =>
      have hsub : (q.lost.strike fun v => decide (v = item)).line ⊆ q.lost.line :=
        List.eraseP_subset
      exact hempty (hsub hj)
  | _ => exact hempty hj

/-- How far a waiting job is from the head after a script run: those taken off
the line were ahead of it, and only those given back come to be ahead. -/
theorem lineAfter_ahead (h : LinedUp q s) {n : ℕ} (horderly : q.Orderly n) {inv : Invocation}
    (hwaits : q.Waits i) (hafter : (inv.lineAfter cj env s n q).Waits i)
    (hnot : i ∉ (q.line.take (inv.calls s)).map JobLine.Job.born) :
    (inv.lineAfter cj env s n q).ahead i + (q.line.take (inv.calls s)).length ≤
      q.ahead i + ScriptRun.returns .fifo cj s ⟨inv, env⟩ := by
  have hback : ∀ ids : List Bytes, (ids.foldl JobLine.giveBack q).ahead i + 0 ≤
      q.ahead i + Multiset.card ((s.custody .fifo).entriesOf ids) :=
    fun ids => ahead_giveBackAll ids h
  cases inv with
  | push a =>
      simp only [Invocation.lineAfter]
      split
      · exact Nat.le_add_right _ _
      · show (q.join n a.item).ahead i + 0 ≤ q.ahead i + _
        rw [JobLine.ahead_join hwaits]
        exact Nat.le_add_right _ _
  | rawPop =>
      simp only [Invocation.lineAfter, Invocation.calls] at hnot ⊢
      split
      · exact Nat.le_add_right _ _
      · next hpaused =>
          rw [if_neg hpaused] at hnot
          have hdrop := JobLine.ahead_drop (r := q.serve 1) rfl hnot
          omega
  | pop p =>
      simp only [Invocation.lineAfter, Invocation.calls] at hnot ⊢
      split
      · exact Nat.le_add_right _ _
      · next hfresh =>
          rw [if_neg hfresh] at hnot
          have hdrop := JobLine.ahead_drop (JobLine.callAll_line p.ids q) hnot
          omega
  | requeue vt => exact hback _
  | sweep owner hbt => exact hback _
  | release owner => exact hback _
  | remove item =>
      have hless := JobLine.ahead_sublist_le (r := q.strike fun v => decide (v = item))
        List.eraseP_sublist horderly.apart hafter
      exact hless.trans (Nat.le_add_right _ _)
  | purge =>
      obtain ⟨j, hj, -⟩ := hafter
      cases hj
  | _ => exact Nat.le_add_right _ _

end Steps

section Runs

variable {k : Kind} {cj : Cjson} {u : ℕ → Option ScriptRun} {n : ℕ} {r : ScriptRun}

theorem takenOut_rawPop (k : Kind) (cj : Cjson) {s : Store} {env : Env}
    (hs : s.evicted env = s) :
    ScriptRun.takenOut k cj s ⟨.rawPop, env⟩ = bagOf (s.rawHead k) := by
  have hreply := rawPop_reply k cj s env hs
  cases h : s.rawHead k with
  | none =>
      by_cases hpaused : s.paused.isSome = true <;>
        simp [ScriptRun.takenOut, hreply, h, hpaused, bagOf]
  | some v => simp [ScriptRun.takenOut, hreply, h, bagOf]

theorem head_length (k : Kind) (ids : List Bytes) (s : Store) :
    (s.head k ids).length = min ids.length (s.len k) := by
  cases k with
  | fifo => exact List.length_take
  | prio =>
      show ((s.zset.entries.take ids.length).map _).length = _
      rw [List.length_map, List.length_take]
      rfl

/-- A pop hands out what it asks for, as far as there is. -/
theorem handsOut_eq {s : Store} (hs : s.evicted r.env = s) :
    r.handsOut k cj s = min (r.inv.calls s) (s.len k) := by
  obtain ⟨inv, env⟩ := r
  cases inv with
  | rawPop =>
      show Multiset.card (ScriptRun.takenOut k cj s ⟨.rawPop, env⟩) = _
      have hlength := head_length k [[]] s
      rw [takenOut_rawPop k cj hs, Store.rawHead, Invocation.calls]
      by_cases hpaused : s.paused.isSome = true
      · rw [if_pos hpaused, if_pos hpaused, Nat.zero_min]
        rfl
      · rw [if_neg hpaused, if_neg hpaused, ← List.length_singleton (a := ([] : Bytes)), ← hlength]
        cases hhead : s.head k [[]] with
        | nil => rfl
        | cons v rest =>
            rw [hhead, List.length_cons, List.length_singleton] at hlength
            have hrest : rest.length = 0 := by omega
            rw [List.length_eq_zero_iff.mp hrest]
            rfl
  | pop p =>
      show Multiset.card (ScriptRun.popped k s ⟨.pop p, env⟩) = _
      have hs : s.evicted env = s := hs
      simp only [ScriptRun.popped, hs, Multiset.coe_card, Store.taken, Invocation.calls]
      split
      · exact (Nat.zero_min _).symm
      · rw [List.length_zip, head_length]
        omega
  | _ => exact (Nat.zero_min _).symm

/-- How far a waiting job is from the head: what is handed out was ahead of
it, and only what is requeued comes to be ahead. -/
theorem ahead_succ {i : ℕ} (hr : u n = some r) (hi : i < n)
    (hwaits : (lineAt cj u n).Waits i)
    (hserved : ¬∃ j ∈ servedAt cj u n, j.born = i ∧ j.called = false)
    (hdropped : ¬DroppedAt cj u i n) :
    (lineAt cj u (n + 1)).ahead i + r.handsOut .fifo cj (storeAt .fifo cj u n) ≤
      (lineAt cj u n).ahead i + r.returns .fifo cj (storeAt .fifo cj u n) := by
  have hafter := waits_succ hwaits hserved hdropped
  have horderly := lineAt_orderly cj u n
  have hlined := lineAt_linedUp cj u n
  have hlasting :
      ¬(storeAt .fifo cj u n).expiry.any (fun expiry => expiry < r.env.nowms) = true := by
    intro hexpired
    rw [lineAt_succ hr, Store.lineFound, if_pos hexpired] at hafter
    exact not_waits_of_lost horderly hi r.inv hafter
  have hevicted : (storeAt .fifo cj u n).evicted r.env = storeAt .fifo cj u n := if_neg hlasting
  have hfound : (storeAt .fifo cj u n).lineFound r.env (lineAt cj u n) = lineAt cj u n :=
    if_neg hlasting
  have hlen : (storeAt .fifo cj u n).len .fifo = (lineAt cj u n).line.length := by
    show (storeAt .fifo cj u n).list.length = _
    rw [hlined.list, List.length_map]
  -- a job is in line once, so the waiting one is not served
  have hnot : i ∉ ((lineAt cj u n).line.take
      (r.inv.calls (storeAt .fifo cj u n))).map JobLine.Job.born := by
    intro hmem
    obtain ⟨j, hj, hborn⟩ := List.mem_map.mp hmem
    obtain ⟨j', hj', hborn', hnew⟩ := hwaits
    have hsame : j = j' := List.inj_on_of_nodup_map horderly.apart (List.mem_of_mem_take hj) hj'
      (hborn.trans hborn'.symm)
    subst hsame
    refine hserved ⟨j, ?_, hborn, hnew⟩
    rw [servedAt_some hr, hfound, hevicted]
    exact hj
  rw [lineAt_succ hr, hfound, hevicted] at hafter ⊢
  rw [handsOut_eq hevicted, hlen, ← List.length_take]
  exact lineAfter_ahead hlined horderly hwaits hafter hnot

/-- What was pushed has at most ahead of it what waited. -/
theorem StoredAt.ahead_le {i : ℕ} (h : StoredAt cj u i) :
    (lineAt cj u (i + 1)).ahead i ≤ (storeAt .fifo cj u i).len .fifo := by
  have hborn := h.waits.born_mem
  obtain ⟨a, env, count, hr, -⟩ := h
  have hlt := List.idxOf_lt_length_of_mem hborn
  have hlined := (lineAt_linedUp cj u i).found env
  have hfound := Store.len_evicted_le .fifo env (storeAt .fifo cj u i)
  have hlen : ((storeAt .fifo cj u i).evicted env).len .fifo =
      ((storeAt .fifo cj u i).lineFound env (lineAt cj u i)).line.length := by
    show ((storeAt .fifo cj u i).evicted env).list.length = _
    rw [hlined.list, List.length_map]
  have hline : (lineAt cj u (i + 1)).line.length ≤
      ((storeAt .fifo cj u i).lineFound env (lineAt cj u i)).line.length + 1 := by
    rw [lineAt_succ hr]
    simp only [Invocation.lineAfter]
    split
    · exact Nat.le_succ _
    · exact List.length_append.le
  rw [List.length_map] at hlt
  unfold JobLine.ahead
  omega

/-- Nobody starves: once more items have been handed out than waited when a
job was pushed and than were requeued since, that job has been handed out, or
was dropped. -/
theorem handed_out_in_turn {i : ℕ} (hi : StoredAt cj u i) (hin : i < n)
    (hturn : (storeAt .fifo cj u i).len .fifo +
        countFrom .fifo cj u (i + 1) n (ScriptRun.returns .fifo cj) <
      countFrom .fifo cj u (i + 1) n (ScriptRun.handsOut .fifo cj)) :
    ∃ m, i < m ∧ m < n ∧ ((∃ p, FirstServed cj u i m p) ∨ DroppedAt cj u i m) := by
  by_contra hnever
  have hstill : ∀ m, i + 1 ≤ m → m ≤ n → (lineAt cj u m).Waits i ∧
      (lineAt cj u m).ahead i + countFrom .fifo cj u (i + 1) m (ScriptRun.handsOut .fifo cj) ≤
        (storeAt .fifo cj u i).len .fifo +
          countFrom .fifo cj u (i + 1) m (ScriptRun.returns .fifo cj) := by
    intro m him
    induction m, him using Nat.le_induction with
    | base =>
        intro _
        rw [countFrom_self, countFrom_self]
        exact ⟨hi.waits, hi.ahead_le⟩
    | succ m him ih =>
        intro hmn
        obtain ⟨hwaits, hahead⟩ := ih (by omega)
        have hserved : ¬∃ j ∈ servedAt cj u m, j.born = i ∧ j.called = false := by
          rintro ⟨job, hjob, rfl, hnew⟩
          obtain ⟨p, hp⟩ := List.mem_iff_getElem?.mp hjob
          refine hnever ⟨m, by omega, by omega, Or.inl ⟨p, ⟨job.item, ?_⟩⟩⟩
          rw [hp, ← hnew]
        have hdropped : ¬DroppedAt cj u i m :=
          fun hdropped => hnever ⟨m, by omega, by omega, Or.inr hdropped⟩
        refine ⟨waits_succ hwaits hserved hdropped, ?_⟩
        rw [countFrom_succ him, countFrom_succ him]
        cases hr : u m with
        | none =>
            rw [lineAt_succ_none hr]
            simp only [atMoment, hr]
            exact hahead
        | some r =>
            have hstep := ahead_succ hr (by omega) hwaits hserved hdropped
            simp only [atMoment, hr]
            omega
  obtain ⟨-, hahead⟩ := hstill n (by omega) le_rfl
  omega

end Runs

/-- Two pushes, and a pop of two; the second one is handed out then. -/
theorem handed_out_in_turn_pushPushBatch :
    ∃ m, 1 < m ∧ m < 3 ∧ ((∃ p, FirstServed .none pushPushBatch 1 m p) ∨
      DroppedAt .none pushPushBatch 1 m) := by
  have hstored : StoredAt .none pushPushBatch 1 := ⟨_, _, _, rfl, rfl⟩
  exact handed_out_in_turn hstored (by decide) (by decide)

end Redisq.Model
