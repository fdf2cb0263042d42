import Redisq.Model.Faults
import Redisq.Verified.Custody

/-!
# Ack pops that fail

An ack pop takes an item out of the queue with one command and makes it
pending with a later one.  The guard in front has read `:nacked` by then, so
the command that makes the item pending does not fail, and whatever fails
after it leaves the item there.  A priority queue's pop writes `:prio` in
between, and no command has looked at that key: of another type, it takes
the items along.
-/

namespace Redisq.Model

variable {k : Kind} {env : Env} {f : Faults} {a : PopArgs} {s : Store} {id : Bytes}
  {ids : List Bytes}

/-! ## What the bookkeeping leaves alone -/

theorem leaves_read {α β γ : Type} {g : Store → γ} (r : Ref α) (cmd : Cmd) (h : α → β) :
    Script.Leaves g (r.read cmd h) :=
  Script.leaves_command fun _ => rfl

theorem leaves_write {α γ : Type} {g : Store → γ} (r : Ref α) (cmd : Cmd) (h : α → α)
    (hset : ∀ v s, g (r.set v s) = g s) : Script.Leaves g (r.write cmd h) :=
  Script.leaves_command fun _ => hset _ _

theorem custody_timeouts (v : ZSet) (s : Store) :
    (Ref.timeouts.set v s).custody k = s.custody k := by
  cases k <;> rfl

theorem custody_heartbeats (v : ZSet) (s : Store) :
    (Ref.heartbeats.set v s).custody k = s.custody k := by
  cases k <;> rfl

theorem custody_started (v : Hash ℕ) (s : Store) :
    (Ref.started.set v s).custody k = s.custody k := by
  cases k <;> rfl

theorem raiseDeadline_leaves (dl : Time) (id : Bytes) :
    Script.Leaves (Store.custody k) (raiseDeadline dl id) := by
  refine .ite (.bind (leaves_read _ _ _) fun d => .ite ?_ (Script.leaves_pure _))
    (Script.leaves_pure _)
  exact leaves_write _ _ _ custody_timeouts

theorem beat_leaves : Script.Leaves (Store.custody k) (beat env a) :=
  .ite (leaves_write _ _ _ custody_heartbeats) (Script.leaves_pure _)

theorem sadd_leaves (m : Bytes) : Script.Leaves (Store.custody k) (sadd m) :=
  Script.leaves_command fun _ => by cases k <;> rfl

theorem lenCmd_leaves : Script.Leaves (Store.custody k) (lenCmd k) := by
  cases k
  · exact leaves_read Ref.list .llen _
  · exact leaves_read Ref.zset .zcard fun z => z.entries.length

theorem batchReply_leaves (slots : ℕ) (items : List Bytes) :
    Script.Leaves (Store.custody k) (batchReply k a slots items) :=
  .bind lenCmd_leaves fun _ =>
    .ite (.bind (sadd_leaves _) fun _ => Script.leaves_pure _) (Script.leaves_pure _)

theorem handBack_leaves (dl : Time) :
    ∀ held : List (Bytes × Option Bytes), Script.Leaves (Store.custody k) (handBack dl held)
  | [] => Script.leaves_pure _
  | (_, none) :: _ => Script.leaves_pure _
  | (id, some _) :: rest =>
      .bind (raiseDeadline_leaves dl id) fun _ =>
        .bind (handBack_leaves dl rest) fun _ => Script.leaves_pure _

/-! ## The storages' pops -/

/-- A priority queue without its first items. -/
def Store.spilled (n : ℕ) (s : Store) : Store :=
  { s with zset := s.zset.dropMin n }

theorem spilled_of_empty (h : s.len .prio = 0) (n : ℕ) : s.spilled n = s := by
  have hnil : s.zset.entries = [] := List.length_eq_zero_iff.mp h
  have hzset : s.zset.dropMin n = s.zset := by
    apply SortedSet.ext
    show s.zset.entries.drop n = s.zset.entries
    rw [hnil, List.drop_nil]
  rw [Store.spilled, hzset]

theorem attempt_popBody_stops (hqueue : f.wrong .queue = true) (want : ℕ) :
    (popBody k want ids).attempt f.fails s = (none, s) := by
  cases k with
  | fifo =>
      exact attempt_read_wrong f Ref.list .lrange _ _ s (Faults.stops hqueue rfl (by decide))
  | prio => exact if_pos (Faults.stops hqueue rfl (by decide))

theorem attempt_popOneBody_stops (hqueue : f.wrong .queue = true) :
    (popOneBody k id).attempt f.fails s = (none, s) := by
  cases k with
  | fifo => exact if_pos (Faults.stops hqueue rfl (by decide))
  | prio => exact if_pos (Faults.stops hqueue rfl (by decide))

section Bodies

variable (hqueue : f.wrong .queue = false)
include hqueue

theorem popBody_spared (hprio : k = .prio → f.wrong .prio = false) (want : ℕ)
    (ids : List Bytes) : (popBody k want ids).Spared f.fails := by
  cases k with
  | fifo =>
      refine .bind (Script.spared_command (Faults.passes hqueue rfl (by decide))) fun items => ?_
      refine .ite (.bind (Script.spared_command ?_) fun _ => ?_) ?_
      · exact Faults.passes hqueue rfl (by decide)
      · exact Script.spared_pure _
      · exact Script.spared_pure _
  | prio =>
      have hset : f.fails ⟨.hset, .prio⟩ = false :=
        Faults.passes (hprio rfl) rfl (by decide)
      refine .bind (Script.spared_command (Faults.passes hqueue rfl (by decide))) fun r => ?_
      refine .ite (.bind (Script.spared_command hset) fun _ => ?_) ?_
      · exact Script.spared_pure _
      · exact Script.spared_pure _

theorem popOneBody_spared (hprio : k = .prio → f.wrong .prio = false) (id : Bytes) :
    (popOneBody k id).Spared f.fails := by
  cases k with
  | fifo => exact Script.spared_command (Faults.passes hqueue rfl (by decide))
  | prio =>
      have hset : f.fails ⟨.hset, .prio⟩ = false :=
        Faults.passes (hprio rfl) rfl (by decide)
      refine .bind (Script.spared_command (Faults.passes hqueue rfl (by decide))) fun r => ?_
      split
      · exact Script.spared_pure _
      · exact .bind (Script.spared_command hset) fun _ => Script.spared_pure _

/-- With `:prio` of another type the items are popped, and that is all. -/
theorem attempt_popBody_spills (hprio : f.wrong .prio = true) (hids : ids ≠ [])
    (hwaits : s.len .prio ≠ 0) :
    (popBody .prio ids.length ids).attempt f.fails s = (none, s.spilled ids.length) := by
  have hhead : s.head .prio ids ≠ [] := fun hnil => hwaits ((Store.head_eq_nil hids).mp hnil)
  have hset : f.fails ⟨.hset, .prio⟩ = true := Faults.stops hprio rfl (by decide)
  have hzpopmin : f.fails ⟨.zpopmin, .queue⟩ = false :=
    Faults.passes hqueue rfl (by decide)
  simp only [popBody, zsetPop, zpopmin, hsetAll, Script.attempt_command_bind,
    hzpopmin, Bool.false_eq_true, if_false, ↓Script.attempt_ite,
    List.map_map, gt_iff_lt, List.length_pos_iff]
  refine (if_pos hhead).trans ?_
  exact attempt_write_wrong f Ref.prio .hset _ _ _ hset

theorem attempt_popOneBody_spills (hprio : f.wrong .prio = true) (id : Bytes)
    (hwaits : s.len .prio ≠ 0) :
    (popOneBody .prio id).attempt f.fails s = (none, s.spilled 1) := by
  have hset : f.fails ⟨.hset, .prio⟩ = true := Faults.stops hprio rfl (by decide)
  have hzpopmin : f.fails ⟨.zpopmin, .queue⟩ = false :=
    Faults.passes hqueue rfl (by decide)
  simp only [popOneBody, zsetPopOne, zpopmin, Script.attempt_command_bind,
    hzpopmin, Bool.false_eq_true, if_false]
  cases hentries : s.zset.entries with
  | nil => exact absurd (List.length_eq_zero_iff.mpr hentries) hwaits
  | cons e rest => exact attempt_write_wrong f Ref.prio .hset _ _ _ hset

/-- Otherwise they are popped and their priorities kept. -/
theorem attempt_popBody (hids : ids ≠ [])
    (hsafe : k = .prio → f.wrong .prio = true → s.len k = 0) :
    (popBody k ids.length ids).attempt f.fails s = (some (s.head k ids), s.beheaded k ids) := by
  by_cases hprio : k = .prio ∧ f.wrong .prio = true
  · obtain ⟨rfl, hprio⟩ := hprio
    have hempty := hsafe rfl hprio
    have hnil : s.head .prio ids = [] := (Store.head_eq_nil hids).mpr hempty
    rw [Store.beheaded_of_head_nil hnil]
    have hzpopmin : f.fails ⟨.zpopmin, .queue⟩ = false :=
      Faults.passes hqueue rfl (by decide)
    simp only [popBody, zsetPop, zpopmin, hsetAll, Script.attempt_command_bind,
      hzpopmin, Bool.false_eq_true, if_false, ↓Script.attempt_ite,
      List.map_map, gt_iff_lt, List.length_pos_iff, Script.attempt_pure]
    refine (if_neg (not_not.mpr hnil)).trans ?_
    exact congrArg (Prod.mk (some _)) (spilled_of_empty hempty ids.length)
  · have hspared := popBody_spared hqueue
      (fun hk => Bool.eq_false_iff.mpr fun h => hprio ⟨hk, h⟩) ids.length ids
    rw [Script.attempt_of_spared hspared, exec_popBody k hids]

theorem attempt_popOneBody (id : Bytes)
    (hsafe : k = .prio → f.wrong .prio = true → s.len k = 0) :
    (popOneBody k id).attempt f.fails s =
      (some (s.head k [id]).head?, s.beheaded k [id]) := by
  by_cases hprio : k = .prio ∧ f.wrong .prio = true
  · obtain ⟨rfl, hprio⟩ := hprio
    have hempty := hsafe rfl hprio
    have hnil : s.head .prio [id] = [] := (Store.head_eq_nil (by simp)).mpr hempty
    have hentries : s.zset.entries = [] := List.length_eq_zero_iff.mp hempty
    rw [Store.beheaded_of_head_nil hnil, hnil]
    have hzpopmin : f.fails ⟨.zpopmin, .queue⟩ = false :=
      Faults.passes hqueue rfl (by decide)
    simp only [popOneBody, zsetPopOne, zpopmin, Script.attempt_command_bind,
      hzpopmin, Bool.false_eq_true, if_false, hentries]
    exact congrArg (Prod.mk (some none)) (spilled_of_empty hempty 1)
  · have hspared := popOneBody_spared hqueue
      (fun hk => Bool.eq_false_iff.mpr fun h => hprio ⟨hk, h⟩) id
    rw [Script.attempt_of_spared hspared, exec_popOneBody k id]

end Bodies

/-- The single pop and the lean one, which differ in their replies. -/
def popUnder {β : Type} (k : Kind) (env : Env) (a : PopArgs) (id : Bytes) (paused : β)
    (reply : Option Bytes → Redis β) : Redis β := do
  let dl := deadline env a.vt
  match ← hget .nacked id with
  | some held =>
      raiseDeadline dl id
      beat env a
      reply (some held)
  | none =>
      if ← existsPaused then return paused
      else
        match ← popOneBody k id with
        | none => reply none
        | some v =>
            hset .nacked id v
            if 0 < dl then zadd .timeouts dl id
            hset .started id env.nowms
            beat env a
            reply (some v)

theorem popOne_eq (k : Kind) (env : Env) (a : PopArgs) :
    popOne k env a = popUnder k env a (ackIDOf a.owner a.start 1) .paused fun v =>
      match v with
      | none => do
          if a.consumerID ≠ [] then sadd a.consumerID
          return .empty
      | some v => return .item v := rfl

theorem popOneLen_eq (k : Kind) (env : Env) (a : PopArgs) (slots : ℕ) :
    popOneLen k env a slots = popUnder k env a (ackIDOf a.owner a.start 1) .paused fun v =>
      batchReply k a slots v.toList := rfl

/-! ## A failing pop -/

/-- The pop of a priority queue's item that cannot keep its priority. -/
def Spills (k : Kind) (f : Faults) (ids : List Bytes) (s : Store) : Prop :=
  k = .prio ∧ f.wrong .prio = true ∧ f.wrong .queue = false ∧ f.wrong .nacked = false ∧
    s.holds ids = false ∧ s.paused = none ∧ s.len k ≠ 0

/-- What an attempt of a pop leaves: everything, or everything but the items
it spills. -/
def Outcome (k : Kind) (f : Faults) (ids : List Bytes) (s t : Store) : Prop :=
  (Spills k f ids s → t = s.spilled ids.length) ∧
    (¬Spills k f ids s → (t.custody k).total = (s.custody k).total)

/-- Items popped and made pending are all still there. -/
theorem total_pended (hnodup : ids.Nodup) (hfree : s.holds ids = false) {t : Store}
    (hwaiting : t.waiting k = (s.beheaded k ids).waiting k)
    (hnacked : t.nacked = s.nacked.insertAll (ids.zip (s.head k ids))) :
    (t.custody k).total = (s.custody k).total := by
  have hkeys : ((ids.zip (s.head k ids)).map Prod.fst).Nodup :=
    hnodup.sublist (map_fst_zip_sublist _ _)
  have hnew : ∀ id ∈ (ids.zip (s.head k ids)).map Prod.fst, id ∉ s.nacked := by
    intro id hid
    have hmem := (map_fst_zip_sublist _ _).subset hid
    exact Finmap.lookup_eq_none.mp (Store.holds_eq_false.mp hfree id hmem)
  have hentries := Custody.entries_insertAll (t.waiting k) (ids.zip (s.head k ids)) s.nacked
    hkeys hnew
  have hitems : (ids.zip (s.head k ids)).map Prod.snd = s.head k ids :=
    List.map_snd_zip (s.length_head_le k ids)
  rw [Store.custody, hnacked, Custody.total, hentries, Multiset.map_add, Multiset.map_coe, hitems,
    ← add_assoc, hwaiting, s.beheaded_waiting]
  rfl

/-- Nothing happened to the items, and nothing could be spilled. -/
theorem Outcome.same {t : Store} (hsafe : ¬Spills k f ids s)
    (ht : t.custody k = s.custody k) : Outcome k f ids s t := by
  refine ⟨fun h => absurd h hsafe, fun _ => ?_⟩
  rw [ht]

/-- No ID is held and the guard could see it: the rest of a pop is its
storage's pop, then bookkeeping that keeps every item. -/
theorem fresh_outcome {β γ : Type} {body : Redis γ} {r : γ} {paused : β} {tail : γ → Redis β}
    (hright : f.wrong .nacked = false) (hfree : s.holds ids = false)
    (hstops : f.wrong .queue = true → body.attempt f.fails s = (none, s))
    (hspilled : Spills k f ids s → body.attempt f.fails s = (none, s.spilled ids.length))
    (hpops : f.wrong .queue = false →
      (k = .prio → f.wrong .prio = true → s.len k = 0) →
      body.attempt f.fails s = (some r, s.beheaded k ids))
    (htail : ((((tail r).attempt f.fails (s.beheaded k ids)).2).custody k).total =
      (s.custody k).total) :
    Outcome k f ids s
      ((existsPaused >>= fun p => if p = true then pure paused else body >>= tail).attempt
        f.fails s).2 := by
  rw [attempt_existsPaused, Script.attempt_ite]
  by_cases hpaused : s.paused.isSome = true
  · rw [if_pos hpaused]
    refine .same (fun h => ?_) rfl
    rw [h.2.2.2.2.2.1] at hpaused
    cases hpaused
  · rw [if_neg hpaused]
    have hrunning : s.paused = none := Option.not_isSome_iff_eq_none.mp hpaused
    by_cases hqueue : f.wrong .queue = true
    · rw [Script.attempt_bind_of_none f.fails (hstops hqueue)]
      exact .same (fun h => absurd (h.2.2.1.symm.trans hqueue) (by decide)) rfl
    · have hqueue : f.wrong .queue = false := Bool.eq_false_iff.mpr hqueue
      by_cases hspills : Spills k f ids s
      · rw [Script.attempt_bind_of_none f.fails (hspilled hspills)]
        exact ⟨fun _ => rfl, fun h => absurd hspills h⟩
      · have hsafe : k = .prio → f.wrong .prio = true → s.len k = 0 := by
          intro hk hprio
          by_contra hwaits
          exact hspills ⟨hk, hprio, hqueue, hright, hfree, hrunning, hwaits⟩
        rw [Script.attempt_bind_of_some f.fails (hpops hqueue hsafe)]
        exact ⟨fun h => absurd h hspills, fun _ => htail⟩

theorem popUnder_outcome {β : Type} (k : Kind) (env : Env) (f : Faults) (a : PopArgs)
    (id : Bytes) (paused : β) (reply : Option Bytes → Redis β)
    (hreply : ∀ v, Script.Leaves (Store.custody k) (reply v)) (s : Store) :
    Outcome k f [id] s ((popUnder k env a id paused reply).attempt f.fails s).2 := by
  have hone : s.holds [id] = (s.nacked.lookup id).isSome := s.holds_one id
  by_cases hnacked : f.wrong .nacked = true
  · have hfails : f.fails ⟨.hget, .nacked⟩ = true := Faults.stops hnacked rfl (by decide)
    have hstop : (popUnder k env a id paused reply).attempt f.fails s = (none, s) :=
      attempt_read_wrong f Ref.nacked .hget _ _ s hfails
    rw [hstop]
    exact .same (fun h => absurd (h.2.2.2.1.symm.trans hnacked) (by decide)) rfl
  · have hright : f.wrong .nacked = false := Bool.eq_false_iff.mpr hnacked
    have hpass : f.fails ⟨.hget, .nacked⟩ = false := Faults.passes hright rfl (by decide)
    rw [popUnder, hget, attempt_read f Ref.nacked .hget _ _ s hpass, Ref.nacked_get]
    cases hheld : s.nacked.lookup id with
    | some held =>
        have hbusy : ¬Spills k f [id] s := by
          intro h
          have hfree := h.2.2.2.2.1
          rw [hone, hheld] at hfree
          cases hfree
        have hleaves : Script.Leaves (Store.custody k) (do
            raiseDeadline (deadline env a.vt) id
            beat env a
            reply (some held)) :=
          .bind (raiseDeadline_leaves _ _) fun _ => .bind beat_leaves fun _ => hreply _
        exact .same hbusy (hleaves.attempt f.fails s)
    | none =>
        have hfree : s.holds [id] = false := by
          rw [hone, hheld]
          rfl
        refine fresh_outcome hright hfree attempt_popOneBody_stops ?_
          (fun hqueue hsafe => attempt_popOneBody hqueue id hsafe) ?_
        · rintro ⟨rfl, hprio, hqueue, -, -, -, hwaits⟩
          exact attempt_popOneBody_spills hqueue hprio id hwaits
        · cases hhead : s.head k [id] with
          | nil =>
              rw [Store.beheaded_of_head_nil hhead]
              exact congrArg Custody.total ((hreply none).attempt f.fails s)
          | cons v rest =>
              have hrest : rest = [] := by
                have hlen := s.length_head_le k [id]
                rw [hhead] at hlen
                exact List.length_eq_zero_iff.mp (by simpa using hlen)
              have hlast : Script.Leaves (Store.custody k) (do
                  hset .started id env.nowms
                  beat env a
                  reply (some v)) :=
                .bind (leaves_write _ _ _ custody_started) fun _ =>
                  .bind beat_leaves fun _ => hreply _
              have hleaves : Script.Leaves (Store.custody k) (do
                  if 0 < deadline env a.vt then zadd .timeouts (deadline env a.vt) id
                  hset .started id env.nowms
                  beat env a
                  reply (some v)) :=
                .ite (.bind (leaves_write _ _ _ custody_timeouts) fun _ => hlast) hlast
              rw [List.head?_cons]
              simp only [hset]
              rw [attempt_write f Ref.nacked .hset _ _ _ (Faults.passes hright rfl (by decide))]
              refine (congrArg Custody.total (hleaves.attempt f.fails _)).trans ?_
              refine total_pended (List.nodup_singleton id) hfree ?_ ?_
              · cases k <;> rfl
              · rw [hhead, hrest]
                cases k <;> rfl

theorem popBatch_outcome (k : Kind) (env : Env) (f : Faults) (a : PopArgs) {want : ℕ}
    (hwant : 0 < want) (slots : ℕ) (s : Store) :
    Outcome k f (ackIDs a.owner a.start want) s
      ((popBatch k env a want slots).attempt f.fails s).2 := by
  have hlength : (ackIDs a.owner a.start want).length = want := length_ackIDs _ _ _
  have hids : ackIDs a.owner a.start want ≠ [] := by
    rw [Ne, ← List.length_eq_zero_iff, hlength]
    omega
  have hheld : (((ackIDs a.owner a.start want).map fun id => s.nacked.lookup id).any
      fun v => v.isSome) = s.holds (ackIDs a.owner a.start want) := by
    rw [List.any_map]
    rfl
  by_cases hnacked : f.wrong .nacked = true
  · have hfails : f.fails ⟨.hmget, .nacked⟩ = true := Faults.stops hnacked rfl (by decide)
    have hstop : (popBatch k env a want slots).attempt f.fails s = (none, s) :=
      attempt_read_wrong f Ref.nacked .hmget _ _ s hfails
    rw [hstop]
    exact .same (fun h => absurd (h.2.2.2.1.symm.trans hnacked) (by decide)) rfl
  · have hright : f.wrong .nacked = false := Bool.eq_false_iff.mpr hnacked
    simp only [popBatch, hmget]
    have hpass : f.fails ⟨.hmget, .nacked⟩ = false := Faults.passes hright rfl (by decide)
    rw [attempt_read f Ref.nacked .hmget _ _ s hpass, Ref.nacked_get, hheld, Script.attempt_ite]
    by_cases hholds : s.holds (ackIDs a.owner a.start want) = true
    · rw [if_pos hholds]
      have hbusy : ¬Spills k f (ackIDs a.owner a.start want) s := fun h =>
        absurd (h.2.2.2.2.1.symm.trans hholds) (by decide)
      refine .same hbusy (Script.Leaves.attempt (.bind (handBack_leaves _ _) fun items => ?_) _ s)
      exact .ite (.bind beat_leaves fun _ => batchReply_leaves _ _) (batchReply_leaves _ _)
    · rw [if_neg hholds]
      have hfree := Bool.eq_false_iff.mpr hholds
      refine fresh_outcome (r := s.head k (ackIDs a.owner a.start want)) hright hfree
        (fun hqueue => attempt_popBody_stops hqueue want) ?_ ?_ ?_
      · rintro ⟨rfl, hprio, hqueue, -, -, -, hwaits⟩
        have hpop := attempt_popBody_spills hqueue hprio hids hwaits
        rwa [hlength] at hpop ⊢
      · intro hqueue hsafe
        have hpop := attempt_popBody hqueue hids hsafe
        rwa [hlength] at hpop
      · rw [Script.attempt_ite]
        by_cases hhead : s.head k (ackIDs a.owner a.start want) = []
        · rw [if_neg (by rw [hhead]; exact lt_irrefl 0), Store.beheaded_of_head_nil hhead]
          exact congrArg Custody.total ((batchReply_leaves slots _).attempt f.fails s)
        · rw [if_pos (List.length_pos_iff.mpr hhead)]
          simp only [hsetAll]
          rw [attempt_write f Ref.nacked .hset _ _ _ (Faults.passes hright rfl (by decide))]
          refine (congrArg Custody.total (Script.Leaves.attempt ?_ f.fails _)).trans ?_
          · have hlast (now : List (Bytes × ℕ)) (items : List Bytes) :
                Script.Leaves (Store.custody k) (do
                  hsetAll .started now
                  beat env a
                  batchReply k a slots items) :=
              .bind (leaves_write _ _ _ custody_started) fun _ =>
                .bind beat_leaves fun _ => batchReply_leaves _ _
            exact .ite (.bind (leaves_write Ref.timeouts .zadd _ custody_timeouts)
              fun _ => hlast _ _) (hlast _ _)
          · refine total_pended (ackIDs_nodup _ _ _) hfree ?_ ?_
            · cases k <;> rfl
            · cases k <;> rfl

theorem run_outcome (k : Kind) (env : Env) (f : Faults) (p : PopCall) (s : Store) :
    Outcome k f p.ids s ((p.run k env).attempt f.fails s).2 := by
  obtain ⟨a, script⟩ := p
  cases script with
  | one =>
      have hreply : ∀ v : Option Bytes, Script.Leaves (Store.custody k) (match v with
          | none => do
              if a.consumerID ≠ [] then sadd a.consumerID
              return .empty
          | some v => return .item v : Redis OneReply) := by
        rintro (_ | v)
        · exact .ite (.bind (sadd_leaves _) fun _ => Script.leaves_pure _) (Script.leaves_pure _)
        · exact Script.leaves_pure _
      have hone := popUnder_outcome k env f a (ackIDOf a.owner a.start 1) .paused _ hreply s
      rw [← popOne_eq] at hone
      rw [PopCall.run, Script.attempt_bind_pure]
      exact hone
  | oneLen slots =>
      have hlean := popUnder_outcome k env f a (ackIDOf a.owner a.start 1) .paused
        (fun v => batchReply k a slots v.toList) (fun _ => batchReply_leaves _ _) s
      rw [← popOneLen_eq] at hlean
      rw [PopCall.run, Script.attempt_bind_pure]
      exact hlean
  | batch want slots =>
      rw [PopCall.run, Script.attempt_bind_pure]
      exact popBatch_outcome k env f a want.pos slots s

theorem PopCall.ids_ne_nil (p : PopCall) : p.ids ≠ [] := by
  have hwant : 0 < p.want := by
    obtain ⟨a, script⟩ := p
    cases script with
    | one => exact Nat.one_pos
    | oneLen slots => exact Nat.one_pos
    | batch want slots => exact want.pos
  rw [Ne, ← List.length_eq_zero_iff, PopCall.ids, length_ackIDs]
  omega

/-- What a pop spills is gone. -/
theorem total_spilled (ids : List Bytes) (s : Store) :
    ((s.spilled ids.length).custody .prio).total + ↑(s.head .prio ids) =
      (s.custody .prio).total := by
  have hwaiting : (s.spilled ids.length).waiting .prio + ↑(s.head .prio ids) =
      s.waiting .prio := s.beheaded_waiting .prio ids
  rw [Custody.total, Custody.total, add_right_comm]
  exact congrArg (fun w => w + (s.custody .prio).entries.map Prod.snd) hwaiting

/-- **A failing ack pop loses no item**, unless it is a priority queue's pop
that cannot keep the priorities of the items it took. -/
theorem ack_pop_keeps_items_iff (k : Kind) (env : Env) (f : Faults) (p : PopCall) (s : Store) :
    (s.custody k).total ≤ (((p.run k env).attempt f.fails s).2.custody k).total ↔
      ¬Spills k f p.ids s := by
  obtain ⟨hspilled, hkept⟩ := run_outcome k env f p s
  constructor
  · intro hle hspills
    have hall := hspills
    obtain ⟨rfl, -, -, -, -, -, hwaits⟩ := hall
    have hhead : s.head .prio p.ids ≠ [] := by
      intro hnil
      exact hwaits ((Store.head_eq_nil p.ids_ne_nil).mp hnil)
    rw [hspilled hspills, ← total_spilled p.ids s] at hle
    have hcard := Multiset.card_le_card hle
    rw [Multiset.card_add, Multiset.coe_card] at hcard
    have hpos := List.length_pos_iff.mpr hhead
    omega
  · intro hsafe
    exact (hkept hsafe).ge

/-- A priority queue with one item. -/
def oneWaiting : Store :=
  { Store.empty with zset := (∅ : ZSet).insert (memberOf 1 [1]) 1, seq := 1 }

theorem oneWaiting_waiting : oneWaiting.waiting .prio = {[1]} := by
  show ({itemOf (memberOf 1 [1])} : Multiset Bytes) = {[1]}
  rw [itemOf_memberOf (by norm_num)]

/-- With `:prio` of another type, a pop of the only item loses it. -/
theorem pop_without_priority_loses :
    [1] ∈ oneWaiting.waiting .prio ∧
      [1] ∉ (((PopCall.run .prio (.plain 0 fun _ => 0) ⟨⟨ownerA, 1, 0, 0, false⟩, .one⟩).attempt
        (Faults.of .prio).fails oneWaiting).2.custody .prio).total := by
  have hspills : Spills .prio (Faults.of .prio) [ackIDOf ownerA 1 1] oneWaiting := by
    refine ⟨rfl, rfl, rfl, rfl, ?_, rfl, Nat.one_ne_zero⟩
    rw [Store.holds_one]
    rfl
  have hlost := (run_outcome .prio (.plain 0 fun _ => 0) (Faults.of .prio)
    ⟨⟨ownerA, 1, 0, 0, false⟩, .one⟩ oneWaiting).1 hspills
  constructor
  · rw [oneWaiting_waiting]
    exact Multiset.mem_singleton_self _
  · rw [hlost]
    exact Multiset.notMem_zero _

end Redisq.Model
