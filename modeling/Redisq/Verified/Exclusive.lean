import Redisq.Verified.Handover
import Redisq.Verified.InTurn

/-!
# A reservation has one holder

The retry slot is swapped out, filled if it is empty, and read, each in one
atomic step, by any number of calls at once.  Still a reservation is held by
one call or kept in the slot, never both (`World.Exclusive`).  A call that
gets its reply drops its reservation for good (`World.Spent`), so no ack ID is
ever returned twice (`reservations_exclusive`).
-/

namespace Redisq.Model

/-! ## Turns -/

namespace World

variable {w w' : World} {c : ℕ} {call : Call} {t : Turn} {ev : Event} {r r' : Reservation}

/-- Where a reservation comes from that the call of a turn holds, or its
object keeps, afterwards. -/
theorem Turns.has (h : w.Turns ev c call t) (hr : t.Has r) :
    (w.objects call.owner).retryPop = some r ∨
      (w.calls c = some call ∧ call.stage.reservation = some r) ∨
        r.start = (w.objects call.owner).ackSeq + 1 := by
  obtain ⟨hcall, horderly⟩ := h.orderly
  rcases horderly.has r hr with hkept | hheld | ⟨hfresh, _⟩
  · exact Or.inl hkept
  · refine Or.inr (Or.inl ⟨hcall.resolve_left fun hover => ?_, hheld⟩)
    rw [hover] at hheld
    cases hheld
  · exact Or.inr (Or.inr hfresh)

/-- After a turn that leaves a reservation in the slot and another with the
call, the first was in the slot before, and the second the call's or new. -/
theorem proceed_apart (h : call.proceed (w.objects call.owner) w.sent.length = some t)
    (hkept : t.object.retryPop = some r') (hheld : t.stage.reservation = some r) :
    (w.objects call.owner).retryPop = some r' ∧
      (call.stage.reservation = some r ∨ r.start = (w.objects call.owner).ackSeq + 1) := by
  cases Call.proceeds_of_proceed h with
  | swapsNone want hstage hnone => cases hheld
  | swapsLarge want r₀ hstage hslot hlarge => cases hkept
  | swaps want r₀ hstage hslot hfits => cases hkept
  | putsBack want r₀ hstage => cases hheld
  | adds want hstage =>
      cases hheld
      exact ⟨hkept, Or.inr rfl⟩
  | times r₀ hstage =>
      rw [hstage]
      exact ⟨hkept, Or.inl hheld⟩
  | pops r₀ vt hstage =>
      rw [hstage]
      exact ⟨hkept, Or.inl hheld⟩
  | counts taken remaining run popLen hstage => cases hheld
  | counted taken remaining run hstage => cases hheld
  | sizes popLen hstage => cases hheld

theorem Stage.reservation_of_settled {stage : Stage} (h : stage.settled = true) :
    stage.reservation = none := by
  cases stage with
  | accounting taken remaining => rfl
  | sizing popLen => rfl
  | ended => rfl
  | _ => cases h

theorem begin_reservation (q : QueueObject) (next : ℕ) (call : Call) :
    (call.begin q next).stage.reservation = none := by
  unfold Call.begin
  split
  · rfl
  · rfl
  · split
    · rfl
    · rfl
  · rfl

theorem Turns.apart (h : w.Turns ev c call t) (hkept : t.object.retryPop = some r')
    (hheld : t.stage.reservation = some r) :
    (w.objects call.owner).retryPop = some r' ∧
      ((w.calls c = some call ∧ call.stage.reservation = some r) ∨
        r.start = (w.objects call.owner).ackSeq + 1) := by
  cases h with
  | begins c o consumer kind hnew hopen =>
      rw [begin_reservation] at hheld
      cases hheld
  | proceeds c call t hcall h =>
      obtain ⟨hslot, hsource⟩ := proceed_apart h hkept hheld
      exact ⟨hslot, hsource.imp_left fun hr => ⟨hcall, hr⟩⟩
  | reads c j call i reply t hcall hlog h =>
      rw [Stage.reservation_of_settled (Call.read_settled h).1] at hheld
      cases hheld
  | fails c call t hcall h =>
      rw [Stage.reservation_of_settled (Call.fail_settled h).1] at hheld
      cases hheld

/-! ## One holder -/

theorem Turns.ackSeq_le_succ (h : w.Turns ev c call t) :
    t.object.ackSeq ≤ (w.objects call.owner).ackSeq + 1 := by
  cases h with
  | begins c o consumer kind hnew hopen =>
      rcases Call.begin_object (w.objects o) w.sent.length ⟨o, consumer, kind, .ended⟩ with h | h
      · rw [h]
        exact Nat.le_succ _
      · rw [h]
        exact Nat.le_succ _
  | proceeds c call t hcall h =>
      cases Call.proceeds_of_proceed h with
      | adds want hstage => exact le_rfl
      | _ => exact Nat.le_succ _
  | reads c j call i reply t hcall hlog h =>
      rw [Call.read_object h]
      exact Nat.le_succ _
  | fails c call t hcall h =>
      rcases Call.fail_object h with h | ⟨r, h⟩
      · rw [h]
        exact Nat.le_succ _
      · rw [h]
        exact Nat.le_succ _

/-- No reservation is held by two calls, and none that a call holds is kept
for a later one. -/
structure Exclusive (w : World) : Prop where
  held : ∀ c c' call call' r r', w.calls c = some call → w.calls c' = some call' →
    call.owner = call'.owner → call.stage.reservation = some r →
    call'.stage.reservation = some r' → r.start = r'.start → c = c'
  kept : ∀ c call r r', w.calls c = some call → call.stage.reservation = some r →
    (w.objects call.owner).retryPop = some r' → r.start ≠ r'.start

theorem held_le_ackSeq (hw : w.Reserved) (hcall : w.calls c = some call)
    (hr : call.stage.reservation = some r) : r.start ≤ (w.objects call.owner).ackSeq :=
  hw.numbered _ _ _ (.held c call r hcall rfl hr rfl rfl)

theorem kept_le_ackSeq (hw : w.Reserved) {o : Owner} (hr : (w.objects o).retryPop = some r) :
    r.start ≤ (w.objects o).ackSeq :=
  hw.numbered _ _ _ (.kept r hr rfl rfl)

/-- A turn of another call comes by no reservation that a call holds. -/
theorem Exclusive.start_ne (hex : w.Exclusive) (hw : w.Reserved) (hturn : w.Turns ev c call t)
    {c' : ℕ} {call' : Call} (hne : c' ≠ c) (hcall' : w.calls c' = some call')
    (howner : call'.owner = call.owner) (hr' : call'.stage.reservation = some r')
    (hr : t.Has r) : r'.start ≠ r.start := by
  intro heq
  rcases hturn.has hr with hkept | ⟨hcall, hheld⟩ | hfresh
  · rw [← howner] at hkept
    exact hex.kept c' call' r' r hcall' hr' hkept heq
  · exact hne (hex.held c' c call' call r' r hcall' hcall howner hr' hheld heq)
  · have hle := held_le_ackSeq hw hcall' hr'
    rw [howner] at hle
    omega

theorem Exclusive.take (hex : w.Exclusive) (hw : w.Reserved) (hturn : w.Turns ev c call t) :
    (w.take c call t).Exclusive where
  held c₁ c₂ call₁ call₂ r₁ r₂ hcall₁ hcall₂ howner hr₁ hr₂ heq := by
    by_cases hc₁ : c₁ = c
    · by_cases hc₂ : c₂ = c
      · rw [hc₁, hc₂]
      · subst hc₁
        rw [take_call_self] at hcall₁
        rw [take_call_of_ne w call t hc₂] at hcall₂
        cases hcall₁
        exact absurd heq.symm
          (hex.start_ne hw hturn hc₂ hcall₂ howner.symm hr₂ (Or.inr hr₁))
    · rw [take_call_of_ne w call t hc₁] at hcall₁
      by_cases hc₂ : c₂ = c
      · subst hc₂
        rw [take_call_self] at hcall₂
        cases hcall₂
        exact absurd heq (hex.start_ne hw hturn hc₁ hcall₁ howner hr₁ (Or.inr hr₂))
      · rw [take_call_of_ne w call t hc₂] at hcall₂
        exact hex.held c₁ c₂ call₁ call₂ r₁ r₂ hcall₁ hcall₂ howner hr₁ hr₂ heq
  kept c₁ call₁ r₁ r₂ hcall₁ hr₁ hr₂ := by
    by_cases hc₁ : c₁ = c
    · subst hc₁
      rw [take_call_self] at hcall₁
      cases hcall₁
      rw [take_object_self] at hr₂
      obtain ⟨hslot, ⟨hcall, hheld⟩ | hfresh⟩ := hturn.apart hr₂ hr₁
      · exact hex.kept c₁ call r₁ r₂ hcall hheld hslot
      · have hle := kept_le_ackSeq hw hslot
        omega
    · rw [take_call_of_ne w call t hc₁] at hcall₁
      by_cases howner : call₁.owner = call.owner
      · rw [howner, take_object_self] at hr₂
        exact hex.start_ne hw hturn hc₁ hcall₁ howner hr₁ (Or.inl hr₂)
      · rw [take_object_of_ne w c t howner] at hr₂
        exact hex.kept c₁ call₁ r₁ r₂ hcall₁ hr₁ hr₂

/-- What touches no reservation keeps them apart. -/
theorem Exclusive.of_kept (hex : w.Exclusive) (hcalls : w'.calls = w.calls)
    (hkept : ∀ o, (w'.objects o).retryPop = (w.objects o).retryPop) : w'.Exclusive where
  held c c' call call' r r' hcall hcall' :=
    hex.held c c' call call' r r' (hcalls ▸ hcall) (hcalls ▸ hcall')
  kept c call r r' hcall hr hr' :=
    hex.kept c call r r' (hcalls ▸ hcall) hr ((hkept call.owner).symm.trans hr')

theorem Exclusive.step (k : Kind) (cj : Cjson) (hex : w.Exclusive) (hw : w.Reserved)
    (ev : Event) : (w.step k cj ev).Exclusive := by
  have hchange := World.step_change k cj w ev
  generalize w.step k cj ev = w' at hchange ⊢
  cases hchange with
  | none => exact hex
  | set o f _ hkept => exact hex.of_kept rfl fun o' => w.set_keeps o o' (·.retryPop) hkept
  | take c call t h => exact hex.take hw h
  | issue inv _ => exact hex.of_kept rfl fun _ => rfl
  | run i env m _ _ => exact hex.of_kept rfl fun _ => rfl

/-! ## Spent reservations -/

/-- Reservation number `s` of `o` was made, and is neither held nor kept. -/
structure Spent (w : World) (o : Owner) (s : ℕ) : Prop where
  numbered : s ≤ (w.objects o).ackSeq
  unkept : ∀ r, (w.objects o).retryPop = some r → r.start ≠ s
  unheld : ∀ c call r, w.calls c = some call → call.owner = o →
    call.stage.reservation = some r → r.start ≠ s

theorem Spent.take {o : Owner} {s : ℕ} (h : w.Spent o s) (hturn : w.Turns ev c call t) :
    (w.take c call t).Spent o s := by
  have hhas : ∀ r, call.owner = o → t.Has r → r.start ≠ s := by
    rintro r rfl hr
    rcases hturn.has hr with hkept | ⟨hcall, hheld⟩ | hfresh
    · exact h.unkept r hkept
    · exact h.unheld c call r hcall rfl hheld
    · have hle := h.numbered
      omega
  refine ⟨?_, fun r hr => ?_, fun c' call' r hcall' howner hr => ?_⟩
  · by_cases ho : o = call.owner
    · subst ho
      rw [take_object_self]
      exact h.numbered.trans hturn.orderly.2.ackSeq_le
    · rw [take_object_of_ne w c t ho]
      exact h.numbered
  · by_cases ho : o = call.owner
    · subst ho
      rw [take_object_self] at hr
      exact hhas r rfl (Or.inl hr)
    · rw [take_object_of_ne w c t ho] at hr
      exact h.unkept r hr
  · by_cases hc : c' = c
    · subst hc
      rw [take_call_self] at hcall'
      cases hcall'
      exact hhas r howner (Or.inr hr)
    · rw [take_call_of_ne w call t hc] at hcall'
      exact h.unheld c' call' r hcall' howner hr

theorem Spent.step (k : Kind) (cj : Cjson) {o : Owner} {s : ℕ} (h : w.Spent o s) (ev : Event) :
    (w.step k cj ev).Spent o s := by
  have hchange := World.step_change k cj w ev
  generalize w.step k cj ev = w' at hchange ⊢
  cases hchange with
  | none => exact h
  | set o' f hseq hkept =>
      refine ⟨?_, fun r hr => h.unkept r ?_, h.unheld⟩
      · rw [w.set_keeps o' o (·.ackSeq) hseq]
        exact h.numbered
      · exact (w.set_keeps o' o (·.retryPop) hkept).symm.trans hr
  | take c call t hturn => exact h.take hturn
  | issue inv _ => exact ⟨h.numbered, h.unkept, h.unheld⟩
  | run i env m _ _ => exact ⟨h.numbered, h.unkept, h.unheld⟩

/-- A call that reads its reply drops its reservation. -/
theorem Exclusive.spent (hex : w.Exclusive) (hw : w.Reserved) (hcall : w.calls c = some call)
    (hr : call.stage.reservation = some r) (hobject : t.object = w.objects call.owner)
    (hdone : t.stage.reservation = none) : (w.take c call t).Spent call.owner r.start := by
  refine ⟨?_, fun r' hr' heq => ?_, fun c' call' r' hcall' howner hr' heq => ?_⟩
  · rw [take_object_self, hobject]
    exact held_le_ackSeq hw hcall hr
  · rw [take_object_self, hobject] at hr'
    exact hex.kept c call r r' hcall hr hr' heq.symm
  · by_cases hc : c' = c
    · subst hc
      rw [take_call_self] at hcall'
      cases hcall'
      rw [hdone] at hr'
      cases hr'
    · rw [take_call_of_ne w call t hc] at hcall'
      exact hc (hex.held c' c call' call r' r hcall' hcall howner hr' hr heq)

/-! ## What calls return -/

/-- The items a call returns in an event, each with its ack ID. -/
def returns (w : World) : Event → List (Bytes × Bytes)
  | .read c j =>
      match w.calls c, w.log[j]? with
      | some call, some (i, reply) =>
          if call.stage.awaits = some i then call.returned reply else []
      | _, _ => []
  | _ => []

/-- What is returned, a call returns that reads the reply to its pop. -/
theorem mem_returns {a v : Bytes} (h : (a, v) ∈ w.returns ev) :
    ∃ c j call r i reply, ev = .read c j ∧ w.calls c = some call ∧ call.stage = .popping r i ∧
      w.log[j]? = some (i, reply) ∧ (a, v) ∈ call.returned reply := by
  cases ev with
  | read c j =>
      simp only [returns] at h
      split at h
      · next call i reply hcall hlog =>
          split at h
          · next hawaits =>
              cases hstage : call.stage with
              | popping r i' =>
                  rw [hstage] at hawaits
                  cases hawaits
                  exact ⟨c, j, call, r, i, reply, rfl, hcall, hstage, hlog, h⟩
              | _ =>
                  rw [Call.returned, hstage] at h
                  exact absurd h List.not_mem_nil
          · exact absurd h List.not_mem_nil
      · exact absurd h List.not_mem_nil
  | _ => exact absurd h List.not_mem_nil

/-- Its reservation is spent by that. -/
theorem spent_of_read (k : Kind) (cj : Cjson) (hex : w.Exclusive) (hw : w.Reserved) {i j : ℕ}
    {reply : Reply} (hcall : w.calls c = some call) (hstage : call.stage = .popping r i)
    (hlog : w.log[j]? = some (i, reply)) :
    (w.step k cj (.read c j)).Spent call.owner r.start := by
  obtain ⟨t, ht⟩ : ∃ t, call.read (w.objects call.owner) i reply = some t := by
    simp only [Call.read, hstage, if_true]
    exact ⟨_, rfl⟩
  have hturn : w.turnOf (.read c j) = some (c, call, t) := by
    simp only [turnOf, hcall, hlog, ht, Option.bind_eq_bind, Option.bind_some, Option.pure_def]
  have hstep : w.step k cj (.read c j) = w.take c call t := by
    show w.turn (.read c j) = w.take c call t
    rw [turn, hturn]
  rw [hstep]
  refine hex.spent hw hcall ?_ (Call.read_object ht)
    (Stage.reservation_of_settled (Call.read_settled ht).1)
  rw [hstage]
  rfl

end World

/-- A pop's reply has at most as many items as it is after. -/
theorem PopCall.reply_length (k : Kind) (env : Env) (p : PopCall) (s : Store) :
    ((p.run k env).exec s).1.items.length ≤ p.want := by
  rw [p.reply_items]
  exact p.length_items_le k env s

/-! ## Runs -/

section Runs

variable {k : Kind} {cj : Cjson} {e : ℕ → Event}

theorem worldAt_exclusive (k : Kind) (cj : Cjson) (e : ℕ → Event) (n : ℕ) :
    (worldAt k cj e n).Exclusive := by
  induction n with
  | zero =>
      constructor
      · intro c c' call call' r r' hcall
        cases hcall
      · intro c call r r' hcall
        cases hcall
  | succ n ih =>
      rw [worldAt_succ]
      exact ih.step k cj (worldAt_reserved k cj e n) (e n)

/-- Every event makes one reservation at most. -/
theorem World.ackSeq_step (k : Kind) (cj : Cjson) (w : World) (ev : Event) (o : Owner) :
    ((w.step k cj ev).objects o).ackSeq ≤ (w.objects o).ackSeq + 1 := by
  have hchange := World.step_change k cj w ev
  generalize w.step k cj ev = w' at hchange ⊢
  cases hchange with
  | none => exact Nat.le_succ _
  | issue inv _ => exact Nat.le_succ _
  | run i env m _ _ => exact Nat.le_succ _
  | set o' f hseq _ =>
      rw [w.set_keeps o' o (·.ackSeq) hseq]
      exact Nat.le_succ _
  | take c call t hturn =>
      by_cases ho : o = call.owner
      · subst ho
        rw [take_object_self]
        exact hturn.ackSeq_le_succ
      · rw [take_object_of_ne w c t ho]
        exact Nat.le_succ _

/-- So there are no more reservations than events. -/
theorem ackSeq_le (k : Kind) (cj : Cjson) (e : ℕ → Event) (n : ℕ) (o : Owner) :
    ((worldAt k cj e n).objects o).ackSeq ≤ n := by
  induction n with
  | zero => exact le_rfl
  | succ n ih =>
      rw [worldAt_succ]
      exact ((worldAt k cj e n).ackSeq_step k cj (e n) o).trans (Nat.succ_le_succ ih)

/-- A reservation that is spent stays so. -/
theorem spent_of_le {o : Owner} {s n m : ℕ} (h : (worldAt k cj e n).Spent o s) (hnm : n ≤ m) :
    (worldAt k cj e m).Spent o s := by
  induction m, hnm using Nat.le_induction with
  | base => exact h
  | succ m _ ih =>
      rw [worldAt_succ]
      exact ih.step k cj (e m)

/-- The reply that a pop call reads has at most as many items as its
reservation is for. -/
theorem reply_fits {n c i j : ℕ} {call : Call} {r : Reservation} {reply : Reply}
    (hcall : (worldAt k cj e n).calls c = some call) (hstage : call.stage = .popping r i)
    (hlog : (worldAt k cj e n).log[j]? = some (i, reply)) : reply.items.length ≤ r.want := by
  obtain ⟨x, _, vt, hbt, env, _, hids, rfl⟩ := run_of_read hcall hstage hlog
  have hwant : (call.popCall r vt hbt).want = r.want := by
    rw [← length_ackIDs call.owner r.start r.want, ← hids, PopCall.ids, length_ackIDs]
  rw [ScriptRun.reply, ScriptRun.exec, Invocation.script, ← hwant]
  exact PopCall.reply_length k env _ _

/-- The pop calls of an object, any number of them at once and step by step
in any order: a reservation has one holder; one that a call gets is for at
least one item and for at most as many as the call has room for, and its
number, at most that of the events, is a `Uint64` for the first 2⁶⁴ of them;
the reply has no more items, so a batch call's fits its slots, the shorter of
its two buffers; and no ack ID is returned twice. -/
theorem reservations_exclusive (k : Kind) (cj : Cjson) (e : ℕ → Event) :
    (∀ n, (worldAt k cj e n).Exclusive) ∧
      (∀ n c call r, (worldAt k cj e n).calls c = some call → call.stage.under = some r →
        1 ≤ r.want ∧ r.want ≤ call.kind.limit ∧ r.start ≤ n) ∧
      (∀ (n c i j : ℕ) call r (reply : Reply), (worldAt k cj e n).calls c = some call →
        call.stage = .popping r i → (worldAt k cj e n).log[j]? = some (i, reply) →
        reply.items.length ≤ r.want ∧
          ∀ slots, call.kind = .dequeueBatch slots → reply.items.length ≤ slots) ∧
      (∀ n, (((worldAt k cj e n).returns (e n)).map Prod.fst).Nodup) ∧
      ∀ n m a v v', (a, v) ∈ (worldAt k cj e n).returns (e n) →
        (a, v') ∈ (worldAt k cj e m).returns (e m) → n = m := by
  have hfits : ∀ n c call r, (worldAt k cj e n).calls c = some call →
      call.stage.under = some r → r.want ≤ call.kind.limit := fun n c call r hcall hr =>
    (worldAt_reserved k cj e n).fits c call hcall r.want (Stage.want_of_under hr)
  have hnumbered : ∀ n c call r, (worldAt k cj e n).calls c = some call →
      call.stage.under = some r → r.start ≤ n := fun n c call r hcall hr =>
    (World.held_le_ackSeq (worldAt_reserved k cj e n) hcall
      (Stage.reservation_of_under hr)).trans (ackSeq_le k cj e n call.owner)
  -- an ID is returned under a reservation that nobody has from then on
  have honce : ∀ n m a v v', n < m → (a, v) ∈ (worldAt k cj e n).returns (e n) →
      (a, v') ∉ (worldAt k cj e m).returns (e m) := by
    intro n m a v v' hnm hn hm
    obtain ⟨c, j, call, r, i, reply, hev, hcall, hstage, hlog, hmem⟩ := World.mem_returns hn
    obtain ⟨c', j', call', r', i', reply', _, hcall', hstage', _, hmem'⟩ := World.mem_returns hm
    have hspent := World.spent_of_read k cj (worldAt_exclusive k cj e n)
      (worldAt_reserved k cj e n) hcall hstage hlog
    rw [← hev, ← worldAt_succ] at hspent
    rw [Call.returned, hstage] at hmem
    rw [Call.returned, hstage'] at hmem'
    obtain ⟨x, _, hx⟩ := mem_ackIDs.mp (List.of_mem_zip hmem).1
    obtain ⟨y, _, hy⟩ := mem_ackIDs.mp (List.of_mem_zip hmem').1
    obtain ⟨howner, hstart, _⟩ := ackIDOf_injective (hx.symm.trans hy)
    refine (spent_of_le hspent hnm).unheld c' call' r' hcall' howner.symm ?_ hstart.symm
    rw [hstage']
    rfl
  refine ⟨worldAt_exclusive k cj e, fun n c call r hcall hr =>
      ⟨one_le, hfits n c call r hcall hr, hnumbered n c call r hcall hr⟩,
    fun n c i j call r reply hcall hstage hlog => ?_, fun n => ?_, fun n m a v v' hn hm => ?_⟩
  · have hwant : r.want ≤ call.kind.limit := by
      refine hfits n c call r hcall ?_
      rw [hstage]
      rfl
    have hlength := reply_fits hcall hstage hlog
    refine ⟨hlength, fun slots hkind => hlength.trans (PNat.coe_le_coe _ _ |>.mpr ?_)⟩
    rw [hkind] at hwant
    exact hwant.trans (min_le_left _ _)
  · unfold World.returns
    split
    · split
      · split
        · unfold Call.returned
          split
          · exact (ackIDs_nodup _ _ _).sublist (map_fst_zip_sublist _ _)
          · exact List.nodup_nil
        · exact List.nodup_nil
      · exact List.nodup_nil
    · exact List.nodup_nil
  · rcases Nat.lt_trichotomy n m with hlt | heq | hgt
    · exact absurd hm (honce n m a v v' hlt hn)
    · exact heq
    · exact absurd hn (honce m n a v' v hgt hm)

end Runs

end Redisq.Model
