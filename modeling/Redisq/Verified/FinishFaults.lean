import Redisq.Verified.PopFaults

/-!
# Finishes that fail

A finish deletes the pending entry with its third command and goes on to
seven other keys.  A key of another type among those stops it after the entry
is gone: the job is neither pending nor counted nor recorded, and a repeat of
the call finds nothing and reports a success.
-/

namespace Redisq.Model

open Script (Spared Blocked Leaves)

variable {cj : Cjson} {env : Env} {f : Faults} {a : FinishArgs} {s t : Store} {item : Bytes}

/-! ## What a finish comes to after the deletion -/

/-- The finish script from the deletion of the entry's deadline on. -/
def finishRest (cj : Cjson) (env : Env) (a : FinishArgs) (item : Bytes) (started : Option ℕ) :
    Redis Bool := do
  zrem .timeouts a.ackID
  hdel .started a.ackID
  hdel .prio a.ackID
  let e := envid cj item
  let attempts ← takeAttempts e
  hincrFinished a.state
  keepRecord cj env a (if e ≠ [] then e else a.ackID) item started attempts
  return true

/-- A key of another type, or a counter that is no integer, among what a
finish of `item` comes to after it deleted the entry. -/
structure Faults.Spare (f : Faults) (cj : Cjson) (a : FinishArgs) (item : Bytes) : Prop where
  timeouts : f.wrong .timeouts = false
  prio : f.wrong .prio = false
  attempts : envid cj item ≠ [] → f.wrong .attempts = false
  stats : f.uncountable = false
  other : f.wrong a.state.other.key = false
  jobs : f.wrong .jobs = false
  this : f.wrong a.state.this.key = false

theorem this_key_ne (state : JobState) : state.this.key ≠ .stats := by
  cases state <;> decide

theorem other_key_ne (state : JobState) : state.other.key ≠ .stats := by
  cases state <;> decide

/-! ## No fault -/

theorem takeAttempts_spared {e : Bytes} (h : e ≠ [] → f.wrong .attempts = false) :
    (takeAttempts e).Spared f.fails := by
  by_cases he : e ≠ []
  · rw [takeAttempts, if_pos he]
    refine .bind (Script.spared_command (Faults.passes (h he) rfl (by decide))) fun _ => ?_
    refine .bind (Script.spared_command (Faults.passes (h he) rfl (by decide))) fun _ => ?_
    exact Script.spared_pure _
  · rw [takeAttempts, if_neg he]
    exact Script.spared_pure _

theorem trim_spared (state : JobState) (keep age : ℤ) (now : ℕ)
    (hthis : f.wrong state.this.key = false) (hjobs : f.wrong .jobs = false) :
    (trim state.this keep age now).Spared f.fails := by
  have hpass : ∀ cmd : Cmd, cmd.typed = true → f.fails ⟨cmd, state.this.key⟩ = false := by
    intro cmd hcmd
    exact Faults.passes hthis hcmd (this_key_ne state)
  have hgone : (trimGone state.this keep age now).Spared f.fails := by
    refine .ite (Script.spared_command (hpass .zrange rfl)) ?_
    refine .bind (Script.spared_command (hpass .zrangebyscore rfl)) fun old => ?_
    refine .bind (Script.spared_command (hpass .zcard rfl)) fun card => ?_
    refine .ite (.bind (Script.spared_command (hpass .zrange rfl)) fun most => ?_) ?_
    · exact Script.spared_pure _
    · exact Script.spared_pure _
  refine .bind hgone fun gone => .ite ?_ (Script.spared_pure _)
  refine .bind (Script.spared_command (hpass .zrem rfl)) fun _ => ?_
  exact Script.spared_command (Faults.passes hjobs rfl (by decide))

theorem storeRecord_spared (id : Bytes) (started : Option ℕ) (attempts : ℕ)
    (hthis : f.wrong a.state.this.key = false) (hjobs : f.wrong .jobs = false) :
    (storeRecord cj env a id item started attempts).Spared f.fails := by
  refine .ite (.bind (Script.spared_command ?_) fun _ => Script.spared_command ?_)
    (Script.spared_command ?_)
  · exact Faults.passes hjobs rfl (by decide)
  · exact Faults.passes hthis rfl (this_key_ne a.state)
  · exact Faults.passes hjobs rfl (by decide)

theorem finishRest_spared (h : f.Spare cj a item) (hstarted : f.wrong .started = false)
    (started : Option ℕ) : (finishRest cj env a item started).Spared f.fails := by
  have hcount : f.fails ⟨.hincrby, .stats⟩ = false := f.fails_hincrby_stats.trans h.stats
  refine .bind (Script.spared_command (Faults.passes h.timeouts rfl (by decide))) fun _ => ?_
  refine .bind (Script.spared_command (Faults.passes hstarted rfl (by decide))) fun _ => ?_
  refine .bind (Script.spared_command (Faults.passes h.prio rfl (by decide))) fun _ => ?_
  refine .bind (takeAttempts_spared h.attempts) fun attempts => ?_
  refine .bind (Script.spared_command hcount) fun _ => .bind ?_ fun _ => Script.spared_pure _
  refine .bind (Script.spared_command (Faults.passes h.other rfl (other_key_ne _))) fun _ => ?_
  exact .bind (storeRecord_spared _ _ _ h.this h.jobs) fun _ => trim_spared _ _ _ _ h.this h.jobs

/-! ## A fault -/

theorem takeAttempts_blocked {e : Bytes} (he : e ≠ []) (h : f.wrong .attempts = true) :
    (takeAttempts e).Blocked f.fails := by
  rw [takeAttempts, if_pos he]
  exact (Script.blocked_command (Faults.stops h rfl (by decide))).bind_left _

theorem trim_blocked (state : JobState) (keep age : ℤ) (now : ℕ)
    (hthis : f.wrong state.this.key = true) :
    (trim state.this keep age now).Blocked f.fails := by
  have hstop : ∀ cmd : Cmd, cmd.typed = true → f.fails ⟨cmd, state.this.key⟩ = true := by
    intro cmd hcmd
    exact Faults.stops hthis hcmd (this_key_ne state)
  refine Blocked.bind_left (.ite (Script.blocked_command (hstop .zrange rfl)) ?_) _
  exact (Script.blocked_command (hstop .zrangebyscore rfl)).bind_left _

theorem storeRecord_blocked (id : Bytes) (started : Option ℕ) (attempts : ℕ)
    (hjobs : f.wrong .jobs = true) :
    (storeRecord cj env a id item started attempts).Blocked f.fails := by
  refine .ite ((Script.blocked_command ?_).bind_left _) (Script.blocked_command ?_)
  · exact Faults.stops hjobs rfl (by decide)
  · exact Faults.stops hjobs rfl (by decide)

theorem finishRest_blocked_of_record {started : Option ℕ}
    (h : ∀ id attempts, (keepRecord cj env a id item started attempts).Blocked f.fails) :
    (finishRest cj env a item started).Blocked f.fails :=
  .bind_right fun _ => .bind_right fun _ => .bind_right fun _ => .bind_right fun _ =>
    .bind_right fun _ => (h _ _).bind_left _

/-- Whatever is wrong, the finish comes to it. -/
theorem finishRest_blocked (h : ¬f.Spare cj a item) (started : Option ℕ) :
    (finishRest cj env a item started).Blocked f.fails := by
  by_contra hopen
  apply h
  constructor
  · refine Bool.eq_false_iff.mpr fun hkey => hopen ?_
    exact (Script.blocked_command (Faults.stops hkey rfl (by decide))).bind_left _
  · refine Bool.eq_false_iff.mpr fun hkey => hopen (.bind_right fun _ => .bind_right fun _ => ?_)
    exact (Script.blocked_command (Faults.stops hkey rfl (by decide))).bind_left _
  · intro he
    refine Bool.eq_false_iff.mpr fun hkey => hopen ?_
    refine .bind_right fun _ => .bind_right fun _ => .bind_right fun _ => ?_
    exact (takeAttempts_blocked he hkey).bind_left _
  · refine Bool.eq_false_iff.mpr fun hkey => hopen ?_
    refine .bind_right fun _ => .bind_right fun _ => .bind_right fun _ => .bind_right fun _ => ?_
    exact (Script.blocked_command (f.fails_hincrby_stats.trans hkey)).bind_left _
  · refine Bool.eq_false_iff.mpr fun hkey => hopen (finishRest_blocked_of_record fun _ _ => ?_)
    exact (Script.blocked_command (Faults.stops hkey rfl (other_key_ne _))).bind_left _
  · refine Bool.eq_false_iff.mpr fun hkey => hopen (finishRest_blocked_of_record fun _ _ => ?_)
    exact .bind_right fun _ => (storeRecord_blocked _ _ _ hkey).bind_left _
  · refine Bool.eq_false_iff.mpr fun hkey => hopen (finishRest_blocked_of_record fun _ _ => ?_)
    exact .bind_right fun _ => .bind_right fun _ => trim_blocked a.state _ _ _ hkey

/-! ## All or nothing -/

/-- The entry a finish was for is as it was, and the finish can be repeated. -/
structure StillPending (cj : Cjson) (a : FinishArgs) (s t : Store) : Prop where
  entry : t.nacked.lookup a.ackID = s.nacked.lookup a.ackID
  deadline : t.timeouts.score a.ackID = s.timeouts.score a.ackID
  started : t.started.lookup a.ackID = s.started.lookup a.ackID
  priority : t.prio.lookup a.ackID = s.prio.lookup a.ackID
  attempts : t.attempts = s.attempts
  repeats : ∀ env, (finishScript cj env a).exec t = (finishScript cj env a).exec s

theorem StillPending.refl (cj : Cjson) (a : FinishArgs) (s : Store) : StillPending cj a s s :=
  ⟨rfl, rfl, rfl, rfl, rfl, fun _ => rfl⟩

theorem trim_leaves (state : JobState) (keep age : ℤ) (now : ℕ) :
    Leaves Store.nacked (trim state.this keep age now) := by
  have hthis : ∀ v s, (state.this.set v s).nacked = s.nacked := by
    intro v s
    cases state <;> rfl
  refine .bind (.ite (leaves_read _ _ _) (.bind (leaves_read _ _ _) fun old => ?_)) fun gone => ?_
  · refine .bind (leaves_read _ _ _) fun card => .ite ?_ (Script.leaves_pure _)
    exact .bind (leaves_read _ _ _) fun most => Script.leaves_pure _
  · refine .ite (.bind (leaves_write _ _ _ hthis) fun _ => ?_) (Script.leaves_pure _)
    exact leaves_write Ref.jobs _ _ fun _ _ => rfl

theorem keepRecord_leaves (id : Bytes) (started : Option ℕ) (attempts : ℕ) :
    Leaves Store.nacked (keepRecord cj env a id item started attempts) := by
  have hthis : ∀ v s, (a.state.this.set v s).nacked = s.nacked := by
    intro v s
    cases a.state <;> rfl
  have hother : ∀ v s, (a.state.other.set v s).nacked = s.nacked := by
    intro v s
    cases a.state <;> rfl
  refine .bind (leaves_write _ _ _ hother) fun _ => .bind ?_ fun _ => trim_leaves _ _ _ _
  refine .ite (.bind (leaves_write Ref.jobs _ _ fun _ _ => rfl) fun _ => ?_) ?_
  · exact leaves_write _ _ _ hthis
  · exact leaves_write Ref.jobs _ _ fun _ _ => rfl

theorem finishRest_leaves (item : Bytes) (started : Option ℕ) :
    Leaves Store.nacked (finishRest cj env a item started) := by
  refine .bind (leaves_write Ref.timeouts _ _ fun _ _ => rfl) fun _ => ?_
  refine .bind (leaves_write Ref.started _ _ fun _ _ => rfl) fun _ => ?_
  refine .bind (leaves_write Ref.prio _ _ fun _ _ => rfl) fun _ => .bind ?_ fun attempts => ?_
  · refine .ite (.bind (leaves_read Ref.attempts _ _) fun n => ?_) (Script.leaves_pure _)
    exact .bind (leaves_write Ref.attempts _ _ fun _ _ => rfl) fun _ => Script.leaves_pure _
  · refine .bind (Script.leaves_command fun _ => rfl) fun _ => ?_
    exact .bind (keepRecord_leaves _ _ _) fun _ => Script.leaves_pure _

/-- The part of a finish that comes before the deletion has nothing to lose. -/
theorem attempt_finishScript (cj : Cjson) (env : Env) (a : FinishArgs)
    (hnacked : f.wrong .nacked = false) (hstarted : f.wrong .started = false)
    (hitem : s.nacked.lookup a.ackID = some item) :
    (finishScript cj env a).attempt f.fails s =
      (finishRest cj env a item (s.started.lookup a.ackID)).attempt f.fails
        { s with nacked := s.nacked.erase a.ackID } := by
  have hread : f.fails ⟨.hget, .nacked⟩ = false := Faults.passes hnacked rfl (by decide)
  have hdelete : f.fails ⟨.hdel, .nacked⟩ = false := Faults.passes hnacked rfl (by decide)
  have hstart : f.fails ⟨.hget, .started⟩ = false := Faults.passes hstarted rfl (by decide)
  rw [finishScript, hget, attempt_read f Ref.nacked .hget _ _ s hread, Ref.nacked_get, hitem]
  refine (attempt_read f Ref.started .hget _ _ s hstart).trans ?_
  exact attempt_write f Ref.nacked .hdel _ _ s hdelete

/-- **Acknowledge and Reject are all or nothing**, unless a key that the
script comes to after the deletion is of another type. -/
theorem finish_all_or_nothing_iff (cj : Cjson) (env : Env) (f : Faults) (a : FinishArgs)
    (s : Store) :
    (((finishScript cj env a).attempt f.fails s).1 = none →
        StillPending cj a s ((finishScript cj env a).attempt f.fails s).2) ↔
      (f.wrong .nacked = false → f.wrong .started = false →
        ∀ item, s.nacked.lookup a.ackID = some item → f.Spare cj a item) := by
  constructor
  · intro hpending hnacked hstarted item hitem
    rw [attempt_finishScript cj env a hnacked hstarted hitem] at hpending
    by_contra hfault
    have hentry := (hpending (finishRest_blocked hfault _ _)).entry
    rw [Leaves.attempt (finishRest_leaves item _), hitem, Finmap.lookup_erase] at hentry
    cases hentry
  · intro hspare hnone
    by_cases hnacked : f.wrong .nacked = true
    · have hstop : (finishScript cj env a).attempt f.fails s = (none, s) :=
        attempt_read_wrong f Ref.nacked .hget _ _ s (Faults.stops hnacked rfl (by decide))
      rw [hstop]
      exact .refl cj a s
    · have hnacked := Bool.eq_false_iff.mpr hnacked
      have hread : f.fails ⟨.hget, .nacked⟩ = false := Faults.passes hnacked rfl (by decide)
      cases hitem : s.nacked.lookup a.ackID with
      | none =>
          rw [finishScript, hget, attempt_read f Ref.nacked .hget _ _ s hread, Ref.nacked_get,
            hitem]
          exact .refl cj a s
      | some item =>
          by_cases hstarted : f.wrong .started = true
          · have hstop : f.fails ⟨.hget, .started⟩ = true :=
              Faults.stops hstarted rfl (by decide)
            rw [finishScript, hget, attempt_read f Ref.nacked .hget _ _ s hread, Ref.nacked_get,
              hitem]
            have hend := attempt_read_wrong f Ref.started .hget (fun h => h.lookup a.ackID)
              (fun started => hdel .nacked a.ackID >>= fun _ =>
                finishRest cj env a item started) s hstop
            exact hend ▸ .refl cj a s
          · have hstarted := Bool.eq_false_iff.mpr hstarted
            rw [attempt_finishScript cj env a hnacked hstarted hitem, Script.attempt_of_spared
              (finishRest_spared (hspare hnacked hstarted item hitem) hstarted _)] at hnone
            cases hnone

/-- One pending entry. -/
def onePending : Store :=
  { Store.empty with nacked := (∅ : Hash Bytes).insert [1] [2] }

/-- With `:stats` of another type, an Acknowledge fails and the job is gone:
the call repeated, with nothing wrong any more, finds nothing and changes
nothing. -/
theorem acknowledge_uncounted_is_lost :
    ((finishScript .none (.plain 0 fun _ => 0) ⟨[1], .completed, [], 100, 1000⟩).attempt
        (Faults.of .stats).fails onePending).1 = none ∧
      ((finishScript .none (.plain 0 fun _ => 0) ⟨[1], .completed, [], 100, 1000⟩).attempt
        (Faults.of .stats).fails onePending).2.nacked.lookup [1] = none ∧
      ¬StillPending .none ⟨[1], .completed, [], 100, 1000⟩ onePending
        ((finishScript .none (.plain 0 fun _ => 0) ⟨[1], .completed, [], 100, 1000⟩).attempt
          (Faults.of .stats).fails onePending).2 := by
  have hitem : onePending.nacked.lookup [1] = some [2] := Finmap.lookup_insert _
  have hfault : ¬(Faults.of .stats).Spare .none ⟨[1], .completed, [], 100, 1000⟩ [2] :=
    fun h => Bool.noConfusion h.stats
  have hrun := attempt_finishScript (f := Faults.of .stats) .none (.plain 0 fun _ => 0)
    ⟨[1], .completed, [], 100, 1000⟩ rfl rfl hitem
  have hgone : ((finishScript .none (.plain 0 fun _ => 0)
      ⟨[1], .completed, [], 100, 1000⟩).attempt (Faults.of .stats).fails
        onePending).2.nacked.lookup [1] = none := by
    rw [hrun, Leaves.attempt (finishRest_leaves [2] _)]
    exact Finmap.lookup_erase _ _
  refine ⟨?_, hgone, fun h => ?_⟩
  · rw [hrun]
    exact finishRest_blocked hfault _ _
  · have hentry := h.entry
    rw [hgone, hitem] at hentry
    cases hentry

end Redisq.Model
