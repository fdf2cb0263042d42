import Redisq.Verified.Alive
import Redisq.Verified.BatchOrder
import Redisq.Verified.Interrupted
import Redisq.Verified.Requeues

/-!
# Reaping

A release, and a sweep that takes an owner for dead, put all of the owner's
entries back and forget the owner (`Reaped`).  They leave the entries of
everyone else alone.  What is forgotten stays so: only a pop of the owner's
own gives it a heartbeat again (`reaping_complete`).
-/

namespace Redisq.Model

/-! ## Telling owners by the start of an ID -/

/-- The sweep's match and the release's test find the same owner. -/
theorem ownerOf_eq_iff (o : Owner) (id : Bytes) :
    ownerOf id = o.name ↔ ownedBy o.name id = true := by
  unfold ownerOf ownedBy
  constructor
  · intro h
    by_cases hmem : colon ∈ id
    · rw [if_pos hmem] at h
      obtain ⟨start, rest, rfl, hfree⟩ := List.eq_append_cons_of_mem hmem
      rw [Separator.takeWhile_append hfree] at h
      subst h
      simp [List.take_append]
    · rw [if_neg hmem] at h
      exact absurd h.symm o.nonempty
  · intro h
    have hstart : o.name ++ [colon] <+: id := (of_decide_eq_true h) ▸ List.take_prefix _ _
    obtain ⟨rest, rfl⟩ := hstart
    rw [if_pos (by simp), List.append_assoc]
    exact Separator.takeWhile_append o.colonFree rest

theorem ownedBy_iff_prefix (owner id : Bytes) :
    ownedBy owner id = true ↔ owner ++ [colon] <+: id := by
  unfold ownedBy
  rw [decide_eq_true_eq, List.prefix_iff_eq_take, List.length_append, List.length_singleton,
    eq_comm]

/-! ## Reachable stores -/

section Reachable

variable {k : Kind} {cj : Cjson} {u : ℕ → Option ScriptRun}

/-- Only owners have heartbeats. -/
def Liveness.OfOwners (l : Liveness) : Prop :=
  ∀ m, (l.heartbeats.score m).isSome = true → ∃ o : Owner, o.name = m

/-- A name that has no heartbeat has none when a sweep looks for the dead. -/
theorem Liveness.prepared_none {env : Env} {l : Liveness} {m sweeper : Bytes} {hbt : Time}
    (h : l.heartbeats.score m = none) : (l.prepared env sweeper hbt).heartbeats.score m = none := by
  have hshifted : ((l.shifted env).clocked env).heartbeats.score m = none := by
    rw [Liveness.clocked_heartbeats, (Liveness.score_shifted env l m).1, h, Option.map_none]
  by_cases hself : m = sweeper
  · subst hself
    rw [Liveness.prepared, Liveness.renewed, hshifted, if_neg (by decide)]
    exact hshifted
  · exact (Liveness.score_renewed_of_ne hself).1.trans hshifted

theorem Liveness.OfOwners.swept {env : Env} {l : Liveness} {sweeper : Bytes} {hbt : Time}
    (h : l.OfOwners) : (l.swept env sweeper hbt).OfOwners := by
  intro m hm
  refine h m ?_
  by_contra hnone
  rw [Bool.not_eq_true, Option.isSome_eq_false_iff, Option.isNone_iff_eq_none] at hnone
  have hprepared : (l.prepared env sweeper hbt).heartbeats.score m = none :=
    Liveness.prepared_none hnone
  rw [(Liveness.score_swept (Liveness.notMem_sweptDead_of_none hprepared)).1, hprepared] at hm
  cases hm

theorem Liveness.OfOwners.without {l : Liveness} (h : l.OfOwners) (owners : List Bytes) :
    (l.without owners).OfOwners := by
  intro m hm
  rw [Liveness.without, SortedSet.score_eraseAll] at hm
  split at hm
  · cases hm
  · exact h m hm

theorem ofOwners_after {env : Env} {s : Store} {inv : Invocation} (h : s.liveness.OfOwners) :
    (inv.livenessAfter k env s).OfOwners := by
  cases inv with
  | pop p =>
      simp only [Invocation.livenessAfter]
      split
      · exact h
      · intro m hm
        by_cases howner : m = p.args.owner.name
        · exact ⟨p.args.owner, howner.symm⟩
        · rw [score_beaten_of_ne howner] at hm
          exact h m hm
  | sweep sweeper hbt => exact h.swept
  | release owner => exact h.without [owner.name]
  | _ => exact h

theorem heartbeats_ofOwners (k : Kind) (cj : Cjson) (u : ℕ → Option ScriptRun) (n : ℕ) :
    (storeAt k cj u n).liveness.OfOwners := by
  induction n with
  | zero =>
      intro m hm
      cases hm
  | succ n ih =>
      cases hr : u n with
      | none => rwa [storeAt_succ_none hr]
      | some r =>
          rw [storeAt_liveness hr, ScriptRun.after, after_liveness]
          refine ofOwners_after ?_
          rwa [Store.evicted_liveness]

/-- Whoever a sweep takes for dead is an owner. -/
theorem Liveness.OfOwners.dead {env : Env} {l : Liveness} {m sweeper : Bytes} {hbt : Time}
    (h : l.OfOwners) (hdead : m ∈ l.sweptDead env sweeper hbt) : ∃ o : Owner, o.name = m := by
  refine h m ?_
  by_contra hnone
  rw [Bool.not_eq_true, Option.isSome_eq_false_iff, Option.isNone_iff_eq_none] at hnone
  exact Liveness.notMem_sweptDead_of_none (Liveness.prepared_none hnone) hdead

end Reachable

/-! ## What a run that reaps does -/

/-- Whom a script run takes all entries from: the owner a release is for, and
those a sweep takes for dead. -/
def Invocation.reaps (env : Env) (s : Store) : Invocation → List Bytes
  | .release owner => [owner.name]
  | .sweep sweeper hbt => s.liveness.sweptDead env sweeper.name hbt
  | _ => []

/-- The deadline of an entry, if it has one, has not passed. -/
def Store.NotDue (env : Env) (s : Store) (id : Bytes) : Prop :=
  ∀ d, s.timeouts.score id = some d → env.now < d

/-- The entries `moved` went back to the queue, all of `o`'s among them and
each once; `o` is forgotten; and no entry that is not due went that is
another owner's, or whose ID starts like none of `owners`'. -/
structure Reaped (k : Kind) (env : Env) (owners : List Bytes) (o : Owner)
    (moved : List (Bytes × Bytes)) (s t : Store) : Prop where
  once : (moved.map Prod.fst).Nodup
  pending : ∀ p ∈ moved, s.nacked.lookup p.1 = some p.2
  gone : ∀ p ∈ moved, t.nacked.lookup p.1 = none
  complete : ∀ id v, s.nacked.lookup id = some v → ownedBy o.name id = true → (id, v) ∈ moved
  waiting : (k = .prio → t.seq ≤ 2 ^ 53) →
    t.waiting k = s.waiting k + ↑(moved.map Prod.snd)
  forgotten : t.heartbeats.score o.name = none ∧ t.presence.score o.name = none
  others : ∀ other : Owner, other.name ∉ owners → ∀ id, ownedBy other.name id = true →
    s.NotDue env id → Unmoved id s t
  byHand : ∀ id, (∀ owner ∈ owners, ¬owner ++ [colon] <+: id) → s.NotDue env id →
    Unmoved id s t

section Step

variable {k : Kind} {cj : Cjson} {env : Env} {s : Store} {inv : Invocation} {o : Owner}

/-- What a requeue moves are the entries it gives back. -/
theorem movedBy_eq_entriesOf (k : Kind) (cj : Cjson) (ids : List Bytes) (s : Store) :
    (movedBy (move k cj) ids s : Multiset (Bytes × Bytes)) = (s.custody k).entriesOf ids := by
  induction ids generalizing s with
  | nil => rfl
  | cons id rest ih =>
      have hrest : ((s.moved k cj id).custody k).entriesOf rest =
          ((s.custody k).giveBackOne id).entriesOf rest :=
        Custody.entriesOf_congr rest (s.moved_nacked k cj id)
      rw [movedBy, exec_move, ← Multiset.coe_add, ih, hrest, Custody.entriesOf]
      congr 1
      cases h : s.nacked.lookup id with
      | none => exact (Custody.entryOf_of_none (c := s.custody k) h).symm
      | some v => exact (Custody.entryOf_of_some (c := s.custody k) h).symm

/-- A run that reaps is one requeue, next to its effect on the heartbeats. -/
theorem reaps_after (k : Kind) (cj : Cjson) (ho : o.name ∈ inv.reaps env s) :
    inv.after k cj env s =
      ((inv.requeuedIDs k cj env s).foldl (Store.moved k cj) s).withLiveness
        (inv.livenessAfter k env s) := by
  cases inv with
  | sweep sweeper hbt => exact s.swept_eq k cj env sweeper.name hbt
  | release owner => rfl
  | _ => exact absurd ho List.not_mem_nil

/-- A run that reaps goes through the entries of those it reaps, and through
overdue ones. -/
theorem reaps_requeuedIDs {id : Bytes} (howners : s.liveness.OfOwners)
    (ho : o.name ∈ inv.reaps env s) (hdue : s.NotDue env id)
    (hid : id ∈ inv.requeuedIDs k cj env s) :
    ∃ owner : Owner, owner.name ∈ inv.reaps env s ∧ ownedBy owner.name id = true := by
  cases inv with
  | sweep sweeper hbt =>
      by_cases hdead : ownerOf id ∈ s.liveness.sweptDead env sweeper.name hbt
      · obtain ⟨owner, howner⟩ := howners.dead hdead
        exact ⟨owner, howner ▸ hdead, (ownerOf_eq_iff owner id).mp howner.symm⟩
      · exact absurd hid (notMem_sweptIDs hdue hdead)
  | release owner => exact ⟨owner, List.mem_singleton_self _, (mem_pendingIDs hid).2⟩
  | _ => exact absurd ho List.not_mem_nil

/-- It goes through all entries of those it reaps. -/
theorem mem_reaps_requeuedIDs {id : Bytes} (ho : o.name ∈ inv.reaps env s)
    (hpending : (s.nacked.lookup id).isSome = true) (howned : ownedBy o.name id = true) :
    id ∈ inv.requeuedIDs k cj env s := by
  cases inv with
  | sweep sweeper hbt =>
      by_cases hover : id ∈ s.overdue env
      · exact List.mem_append_left _ hover
      · refine List.mem_append_right _ (mem_pendingIDs_of ?_ ?_)
        · rwa [s.caughtUp_lookup k cj env hover]
        · rw [(ownerOf_eq_iff o id).mpr howned]
          exact decide_eq_true ho
  | release owner =>
      obtain rfl := Owner.ext (List.mem_singleton.mp ho)
      exact mem_pendingIDs_of hpending howned
  | _ => exact absurd ho List.not_mem_nil

theorem reaps_unmet (k : Kind) (ho : o.name ∈ inv.reaps env s) :
    (inv.livenessAfter k env s).Unmet o.name := by
  have hwithout : ∀ (l : Liveness) (owners : List Bytes), o.name ∈ owners →
      (l.without owners).Unmet o.name := fun l owners hmem => by
    constructor <;> rw [Liveness.without, SortedSet.score_eraseAll, if_pos hmem]
  cases inv with
  | sweep sweeper hbt => exact hwithout _ _ ho
  | release owner => exact hwithout _ _ ho
  | _ => exact absurd ho List.not_mem_nil

/-- One script that reaps. -/
theorem reaps_reaped (hs : Sequenced s) (howners : s.liveness.OfOwners)
    (ho : o.name ∈ inv.reaps env s) :
    Reaped k env (inv.reaps env s) o (movedBy (move k cj) (inv.requeuedIDs k cj env s) s) s
      (inv.after k cj env s) := by
  have hnodup := requeuedIDs_nodup k cj env inv s
  have hafter := reaps_after k cj ho
  have hnacked : (inv.after k cj env s).nacked =
      (inv.requeuedIDs k cj env s).foldl (fun held id => held.erase id) s.nacked := by
    rw [hafter]
    exact s.movedAll_nacked k cj _
  have hapart : ∀ id ∉ inv.requeuedIDs k cj env s, Unmoved id s (inv.after k cj env s) := by
    intro id hid
    rw [hafter]
    exact movedAll_apart k cj _ s hid
  refine ⟨?_, fun p hp => ((mem_movedBy k cj hnodup).mp hp).2, fun p hp => ?_,
    fun id v hid howned => ?_, fun hseq => ?_, ?_, fun other hother id hid hdue => ?_,
    fun id hid hdue => ?_⟩
  · rw [movedBy_ids k cj hnodup]
    exact hnodup.filter _
  · have hin := ((mem_movedBy k cj hnodup).mp hp).1
    rw [hnacked]
    exact Finmap.lookup_eq_none.mpr fun hkept => (Finmap.mem_eraseAll.mp hkept).2 hin
  · refine (mem_movedBy k cj hnodup).mpr ⟨?_, hid⟩
    exact mem_reaps_requeuedIDs ho (Option.isSome_of_eq_some hid) howned
  · rw [hafter] at hseq ⊢
    have hcustody := (Store.movedAll_custody k cj (inv.requeuedIDs k cj env s) hs hseq).1
    have hwaiting := Custody.giveBack_waiting (inv.requeuedIDs k cj env s) (s.custody k)
    rw [← hcustody, ← movedBy_eq_entriesOf k cj] at hwaiting
    cases k <;> exact hwaiting
  · have hunmet := reaps_unmet k ho
    rw [hafter]
    exact hunmet
  · refine hapart id fun hin => ?_
    obtain ⟨owner, howner, howned⟩ := reaps_requeuedIDs howners ho hdue hin
    have hsame : owner.name = other.name :=
      ((ownerOf_eq_iff owner id).mpr howned).symm.trans ((ownerOf_eq_iff other id).mpr hid)
    exact hother (hsame ▸ howner)
  · refine hapart id fun hin => ?_
    obtain ⟨owner, howner, howned⟩ := reaps_requeuedIDs howners ho hdue hin
    rw [ ownedBy_iff_prefix] at howned
    exact hid _ howner howned

/-- The idle set and the Job Records have no part in it. -/
theorem Reaped.sameBut {owners : List Bytes} {moved : List (Bytes × Bytes)} {t t' : Store}
    (h : Reaped k env owners o moved s t) (hsame : t.SameBut t') :
    Reaped k env owners o moved s t' := by
  obtain ⟨_, _, _, _, rfl⟩ := hsame
  refine ⟨h.once, h.pending, h.gone, h.complete, fun hseq => ?_, h.forgotten, h.others, h.byHand⟩
  have hwaiting := h.waiting hseq
  cases k <;> exact hwaiting

end Step

/-! ## Runs -/

section Runs

variable {u : ℕ → Option ScriptRun} {n : ℕ} {o : Owner}

/-- An owner without heartbeat and mark stays so until it pops. -/
theorem unmet_until (k : Kind) (cj : Cjson) (h : (storeAt k cj u n).liveness.Unmet o.name)
    {m : ℕ} (hm : n ≤ m)
    (hpop : ∀ j, n ≤ j → j < m → ∀ p env, u j = some ⟨.pop p, env⟩ → p.args.owner ≠ o) :
    (storeAt k cj u m).liveness.Unmet o.name := by
  induction m, hm using Nat.le_induction with
  | base => exact h
  | succ m hm ih =>
      refine unmet_step (hpop m hm (Nat.lt_succ_self m)) (ih fun j hnj hjm => ?_)
      exact hpop j hnj (Nat.lt_succ_of_lt hjm)

/-- **Reaping is complete and touches no one else**, in every run: the store
a script finds is the one before it, less an expired queue key. -/
theorem reaping_complete (k : Kind) (cj : Cjson) (u : ℕ → Option ScriptRun) {n : ℕ}
    {inv : Invocation} {env : Env} {o : Owner} (hr : u n = some ⟨inv, env⟩)
    (ho : o.name ∈ inv.reaps env (storeAt k cj u n)) :
    Reaped k env (inv.reaps env (storeAt k cj u n)) o
        (movedBy (move k cj) (inv.requeuedIDs k cj env ((storeAt k cj u n).evicted env))
          ((storeAt k cj u n).evicted env))
        ((storeAt k cj u n).evicted env) (storeAt k cj u (n + 1)) ∧
      ∀ m > n, (∀ j, n < j → j < m → ∀ p env', u j = some ⟨.pop p, env'⟩ → p.args.owner ≠ o) →
        (storeAt k cj u m).heartbeats.score o.name = none ∧
          (storeAt k cj u m).presence.score o.name = none := by
  have hevicted : inv.reaps env ((storeAt k cj u n).evicted env) =
      inv.reaps env (storeAt k cj u n) := by
    cases inv with
    | sweep sweeper hbt => rw [Invocation.reaps, Store.evicted_liveness]; rfl
    | _ => rfl
  have howners := heartbeats_ofOwners k cj u n
  rw [← Store.evicted_liveness env] at howners
  rw [← hevicted] at ho ⊢
  have hafter : Reaped k env (inv.reaps env ((storeAt k cj u n).evicted env)) o _ _
      (inv.after k cj env ((storeAt k cj u n).evicted env)) :=
    reaps_reaped (Sequenced.evicted (storeAt_sequenced k cj u n) env) howners ho
  have hreaped := hafter.sameBut (step_some k cj (storeAt k cj u n) ⟨inv, env⟩)
  rw [← hr] at hreaped
  have hunmet : (storeAt k cj u (n + 1)).liveness.Unmet o.name := hreaped.forgotten
  exact ⟨hreaped, fun m hm hpop => unmet_until k cj hunmet hm hpop⟩

end Runs

/-- An object pops an item and is closed. -/
def popThenClose : ℕ → Option ScriptRun
  | 0 => some ⟨.push ⟨[97], 0, 0, false, none⟩, .plain 1 fun _ => 0⟩
  | 1 => some ⟨.pop ⟨⟨ownerA, 1, 0, 30 * second, false⟩, .one⟩, .plain 2 fun _ => 0⟩
  | 2 => some ⟨.release ownerA, .plain 3 fun _ => 0⟩
  | _ => none

theorem reaping_complete_popThenClose :
    (storeAt .fifo .none popThenClose 3).nacked.lookup (ackIDOf ownerA 1 1) = none ∧
      (storeAt .fifo .none popThenClose 3).heartbeats.score ownerA.name = none := by
  obtain ⟨hreaped, _⟩ := reaping_complete .fifo .none popThenClose
    (rfl : popThenClose 2 = some ⟨.release ownerA, .plain 3 fun _ => 0⟩)
    (List.mem_singleton_self ownerA.name)
  have hmem := hreaped.complete (ackIDOf ownerA 1 1) [97] (by decide) (by decide)
  exact ⟨hreaped.gone _ hmem, hreaped.forgotten.1⟩

end Redisq.Model
