import Redisq.Verified.Pending

/-!
# What scripts do to one owner's heartbeat

The heartbeats, their clock and the presence marks change in sweeps, releases
and pops alone (`after_liveness`).  Of a sweep this file says, for one owner,
what becomes of its heartbeat and mark at each stage, and when the sweep
takes it for dead (`mem_sweptDead`).
-/

namespace Redisq.Model

/-! ## Which scripts touch heartbeats -/

/-- The heartbeats, clock and marks after an invocation. -/
def Invocation.livenessAfter (k : Kind) (env : Env) (s : Store) : Invocation → Liveness
  | .pop p =>
      if s.handed k p = [] then s.liveness
      else { s.liveness with heartbeats := beaten env p.args s.heartbeats }
  | .sweep owner hbt => s.liveness.swept env owner.name hbt
  | .release owner => s.liveness.without [owner.name]
  | _ => s.liveness

theorem PopCall.effect_liveness (k : Kind) (env : Env) (p : PopCall) (s : Store) :
    (p.effect k env s).2.liveness =
      if s.handed k p = [] then s.liveness
      else { s.liveness with heartbeats := beaten env p.args s.heartbeats } := by
  unfold PopCall.effect Store.pop Store.handed Store.taken
  by_cases hheld : s.holds p.ids = true
  · simp only [hheld, if_true, Store.handedBack, Store.joined]
    split <;> rfl
  · by_cases hpaused : s.paused.isSome = true
    · simp only [hheld, hpaused, Bool.false_eq_true, if_false, if_true, or_true]
    · simp only [hheld, hpaused, Bool.false_eq_true, if_false, or_self, Store.poppedFresh,
        Store.joined]
      by_cases hnil : s.head k p.ids = []
      · simp only [hnil, List.zip_nil_right, if_true]
        rfl
      · have hids : p.ids ≠ [] := fun h => hnil (by
          rw [← List.length_eq_zero_iff, ← Nat.le_zero]
          exact (s.length_head_le k p.ids).trans_eq (by rw [h, List.length_nil]))
        have hzip : p.ids.zip (s.head k p.ids) ≠ [] := by
          rw [Ne, List.zip_eq_nil_iff, not_or]
          exact ⟨hids, hnil⟩
        simp only [hnil, hzip, if_false]
        cases k <;> rfl

theorem after_liveness (k : Kind) (cj : Cjson) (env : Env) (s : Store) (inv : Invocation) :
    (inv.after k cj env s).liveness = inv.livenessAfter k env s := by
  cases inv with
  | push a =>
      simp only [Invocation.after, Store.afterPush, Invocation.livenessAfter]
      split
      · rfl
      · cases k <;> rfl
  | rawPop =>
      simp only [Invocation.after, Store.rawPopped, Invocation.livenessAfter]
      split
      · rfl
      · cases k <;> rfl
  | pop p => exact p.effect_liveness k env s
  | finish a =>
      simp only [Invocation.after, Store.afterFinish, Invocation.livenessAfter]
      split <;> rfl
  | requeue vt => exact s.liveness_movedAll k cj _
  | sweep owner hbt => rfl
  | release owner => rfl
  | remove item =>
      cases k with
      | fifo => rfl
      | prio =>
          simp only [Invocation.after, Store.removed, Invocation.livenessAfter]
          split <;> rfl
  | _ => rfl

/-! ## The stages of a sweep -/

namespace Liveness

variable {env : Env} {l : Liveness} {o sweeper : Bytes} {hbt : Time}

/-- By how much a sweep moves heartbeats on. -/
def skipped (env : Env) (l : Liveness) : Time :=
  (l.gap env).getD 0

theorem skipped_nonneg (env : Env) (l : Liveness) : 0 ≤ l.skipped env := by
  unfold skipped
  cases h : l.gap env with
  | none => exact le_rfl
  | some gap =>
      have hgap : sweepGap < gap := by simpa using (Option.filter_eq_some_iff.mp h).2
      exact (by decide : (0 : Time) ≤ sweepGap).trans hgap.le

theorem score_movedOn (gap : Time) {ms : List Bytes} (hms : ms.Nodup) (z : ZSet) (m : Bytes) :
    (movedOn gap ms z).score m =
      if m ∈ ms then some ((z.score m).getD 0 + gap) else z.score m := by
  induction ms generalizing z with
  | nil => rfl
  | cons m' rest ih =>
      obtain ⟨hm', hrest⟩ := List.nodup_cons.mp hms
      rw [movedOn, List.foldl_cons]
      refine (ih hrest _).trans ?_
      by_cases hm : m = m'
      · subst hm
        simp [hm']
      · simp [hm, SortedSet.score_insert_of_ne _ _ hm]

/-- A shift moves every heartbeat on, and every mark that is not 0. -/
theorem score_shifted (env : Env) (l : Liveness) (o : Bytes) :
    (l.shifted env).heartbeats.score o =
        (l.heartbeats.score o).map (fun h => h + l.skipped env) ∧
      (l.shifted env).presence.score o =
        (l.presence.score o).map fun mark => if 0 < mark then mark + l.skipped env else mark := by
  unfold shifted skipped
  cases hgap : l.gap env with
  | none =>
      constructor
      · cases l.heartbeats.score o <;> simp
      · cases l.presence.score o <;> simp
  | some gap =>
      simp only [Option.getD_some]
      constructor
      · rw [score_movedOn gap l.heartbeats.nodup_members]
        cases h : l.heartbeats.score o with
        | none => simp [SortedSet.score_eq_none_iff.mp h]
        | some h' => simp [SortedSet.mem_members_iff.mpr ⟨h', h⟩]
      · rw [score_movedOn gap (SortedSet.nodup_members _)]
        have hmem : o ∈ (l.presence.filter fun e => decide (0 < SortedSet.rank e)).members ↔
            ∃ mark, l.presence.score o = some mark ∧ 0 < mark := by
          rw [SortedSet.mem_members_iff]
          exact exists_congr fun mark => SortedSet.score_filter.trans
            (and_congr_right fun _ => decide_eq_true_iff)
        cases h : l.presence.score o with
        | none => simp [hmem, h]
        | some mark => by_cases hmark : 0 < mark <;> simp [hmem, h, hmark]

theorem clocked_heartbeats (env : Env) (l : Liveness) :
    (l.clocked env).heartbeats = l.heartbeats := by
  unfold clocked
  split <;> rfl

theorem clocked_presence (env : Env) (l : Liveness) : (l.clocked env).presence = l.presence := by
  unfold clocked
  split <;> rfl

/-- A sweep renews its own heartbeat only. -/
theorem score_renewed_of_ne (hne : o ≠ sweeper) :
    (l.renewed env sweeper hbt).heartbeats.score o = l.heartbeats.score o ∧
      (l.renewed env sweeper hbt).presence.score o = l.presence.score o := by
  unfold renewed
  split
  · split
    · refine ⟨SortedSet.score_insert_of_ne _ _ hne, ?_⟩
      simp only []
      split
      · exact SortedSet.score_insert_of_ne _ _ hne
      · rfl
    · exact ⟨SortedSet.score_erase_of_ne _ hne, SortedSet.score_erase_of_ne _ hne⟩
  · exact ⟨rfl, rfl⟩

/-- Its own heartbeat, with a heartbeat timeout. -/
theorem score_renewed_self (env : Env) (hhbt : 0 < hbt) :
    (l.renewed env o hbt).heartbeats.score o =
        (l.heartbeats.score o).map (fun _ => later env hbt) ∧
      ((l.heartbeats.score o).isSome = true →
        (l.renewed env o hbt).presence.score o = (l.presence.score o).map fun _ => 0) ∧
      (l.heartbeats.score o = none → (l.renewed env o hbt).presence.score o =
        l.presence.score o) := by
  unfold renewed
  cases h : l.heartbeats.score o with
  | none =>
      rw [if_neg (by simp), h]
      exact ⟨rfl, fun h => absurd h (by simp), fun _ => rfl⟩
  | some h' =>
      rw [if_pos (by simp), if_pos hhbt]
      refine ⟨SortedSet.score_insert_self _ _ _, fun _ => ?_, fun h => absurd h (by simp)⟩
      cases hmark : l.presence.score o <;> simp [hmark]

/-- Before a sweep of another owner looks for the dead. -/
theorem score_prepared_of_ne (hne : o ≠ sweeper) :
    (l.prepared env sweeper hbt).heartbeats.score o =
        (l.heartbeats.score o).map (fun h => h + l.skipped env) ∧
      (l.prepared env sweeper hbt).presence.score o =
        (l.presence.score o).map fun mark => if 0 < mark then mark + l.skipped env else mark := by
  obtain ⟨hheart, hmark⟩ := score_renewed_of_ne (l := (l.shifted env).clocked env)
    hne
  rw [prepared, hheart, hmark, clocked_heartbeats, clocked_presence]
  exact score_shifted env l o

theorem mem_lapsed_score (h : o ∈ l.lapsed env) :
    ∃ h, l.heartbeats.score o = some h ∧ h ≤ env.now := by
  obtain ⟨h', hscore⟩ := SortedSet.mem_members_iff.mp (List.mem_of_mem_take h)
  obtain ⟨hs, hle⟩ := SortedSet.score_filter.mp hscore
  exact ⟨h', hs, of_decide_eq_true hle⟩

theorem mem_live_score (h : o ∈ l.live env) :
    ∃ h, l.heartbeats.score o = some h ∧ env.now ≤ h := by
  obtain ⟨h', hscore⟩ := SortedSet.mem_members_iff.mp (List.mem_of_mem_take h)
  obtain ⟨hs, hle⟩ := SortedSet.score_filter.mp hscore
  exact ⟨h', hs, of_decide_eq_true hle⟩

/-- An owner's heartbeat has run out. -/
def RanOut (env : Env) (l : Liveness) (o : Bytes) : Prop :=
  ∃ h, l.heartbeats.score o = some h ∧ h ≤ env.now

/-- No subscriber of an owner has been seen for the presence grace. -/
def Absent (env : Env) (l : Liveness) (o : Bytes) : Prop :=
  env.subscribers o = 0 ∧ ∃ mark, l.presence.score o = some mark ∧ mark ≠ 0 ∧
    presenceGrace ≤ env.now - mark

theorem gone_iff : l.gone env o = true ↔ l.Absent env o := by
  unfold gone Absent
  cases h : l.presence.score o <;> simp

/-- Whom a sweep takes for dead. -/
theorem mem_sweptDead :
    o ∈ l.sweptDead env sweeper hbt ↔
      l.clock.isSome = true ∧ (o ∈ (l.prepared env sweeper hbt).lapsed env ∨
        ticked env l.clock = true ∧ o ∈ (l.prepared env sweeper hbt).live env ∧
          (l.prepared env sweeper hbt).Absent env o) := by
  unfold sweptDead dead
  by_cases hclock : l.clock.isSome = true <;> by_cases htick : ticked env l.clock = true <;>
    simp [hclock, htick, gone_iff]

/-- A heartbeat that ran out, or nobody there. -/
theorem ranOut_or_absent (h : o ∈ l.sweptDead env sweeper hbt) :
    (l.prepared env sweeper hbt).RanOut env o ∨ (l.prepared env sweeper hbt).Absent env o :=
  (mem_sweptDead.mp h).2.imp mem_lapsed_score fun h => h.2.2

/-! ### After the counts -/

theorem looked_heartbeats (env : Env) (l : Liveness) (m : Bytes) :
    (l.looked env m).heartbeats = l.heartbeats := by
  unfold looked
  split <;> split <;> rfl

/-- Counts set the marks of those they count, to 0 or to the clock. -/
theorem lookedAll (env : Env) (o : Bytes) (ms : List Bytes) :
    ∀ l : Liveness, (ms.foldl (looked env) l).heartbeats = l.heartbeats ∧
      ((ms.foldl (looked env) l).presence.score o = l.presence.score o ∨
        o ∈ ms ∧ ∃ mark, (ms.foldl (looked env) l).presence.score o = some mark ∧
          (mark = 0 ∨ mark = env.now)) := by
  induction ms with
  | nil => exact fun l => ⟨rfl, Or.inl rfl⟩
  | cons m rest ih =>
      intro l
      obtain ⟨hheart, hmark⟩ := ih (l.looked env m)
      rw [List.foldl_cons]
      refine ⟨hheart.trans (l.looked_heartbeats env m), ?_⟩
      rcases hmark with hsame | ⟨hmem, hset⟩
      · rw [hsame]
        by_cases hm : o = m
        · subst hm
          unfold looked
          split
          · split
            · exact Or.inr ⟨List.mem_cons_self, 0, SortedSet.score_insert_self _ _ _, Or.inl rfl⟩
            · exact Or.inl rfl
          · split
            · exact Or.inr
                ⟨List.mem_cons_self, env.now, SortedSet.score_insert_self _ _ _, Or.inr rfl⟩
            · exact Or.inl rfl
        · refine Or.inl ?_
          unfold looked
          split
          · split
            · exact SortedSet.score_insert_of_ne _ _ hm
            · rfl
          · split
            · exact SortedSet.score_insert_of_ne _ _ hm
            · rfl
      · exact Or.inr ⟨List.mem_cons_of_mem _ hmem, hset⟩

/-- An owner that is not taken for dead keeps its heartbeat, and its mark
unless a count sets it. -/
theorem score_swept (hdead : o ∉ l.sweptDead env sweeper hbt) :
    (l.swept env sweeper hbt).heartbeats.score o =
        (l.prepared env sweeper hbt).heartbeats.score o ∧
      ((l.swept env sweeper hbt).presence.score o =
          (l.prepared env sweeper hbt).presence.score o ∨
        ((l.prepared env sweeper hbt).heartbeats.score o).isSome = true ∧
          ∃ mark, (l.swept env sweeper hbt).presence.score o = some mark ∧
            (mark = 0 ∨ mark = env.now)) := by
  obtain ⟨hheart, hmark⟩ := lookedAll env o ((l.prepared env sweeper hbt).live env)
    (l.prepared env sweeper hbt)
  unfold swept without counted
  simp only [SortedSet.score_eraseAll, if_neg hdead]
  split
  · rw [hheart]
    refine ⟨rfl, hmark.imp id fun ⟨hlive, hset⟩ => ⟨?_, hset⟩⟩
    obtain ⟨h, hscore, _⟩ := mem_live_score hlive
    rw [hscore]
    rfl
  · exact ⟨rfl, Or.inl rfl⟩

/-- The clock after a sweep. -/
theorem swept_clock (env : Env) (l : Liveness) (sweeper : Bytes) (hbt : Time) :
    (l.swept env sweeper hbt).clock =
      if ticked env l.clock = true then some env.now else l.clock := by
  have hlooked : ∀ (ms : List Bytes) (l : Liveness),
      (ms.foldl (looked env) l).clock = l.clock := fun ms => by
    induction ms with
    | nil => exact fun l => rfl
    | cons m rest ih =>
        intro l
        rw [List.foldl_cons, ih]
        unfold looked
        split <;> split <;> rfl
  have hshifted : (l.shifted env).clock = l.clock := by
    unfold shifted
    split <;> rfl
  have hprepared : (l.prepared env sweeper hbt).clock =
      if ticked env l.clock = true then some env.now else l.clock := by
    have hrenewed : ((l.shifted env).clocked env |>.renewed env sweeper hbt).clock =
        ((l.shifted env).clocked env).clock := by
      unfold renewed
      split
      · split <;> rfl
      · rfl
    rw [prepared, hrenewed, clocked, hshifted]
    split
    · rfl
    · exact hshifted
  rw [← hprepared]
  unfold swept without counted
  split
  · exact hlooked _ _
  · rfl

end Liveness

end Redisq.Model
