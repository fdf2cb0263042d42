import Redisq.Library.Abort
import Redisq.Verified.Sidecars
import Redisq.Verified.Stranded

/-!
# Sweeps and releases that stop half way

Any command of a sweep or a release may be the last one that runs.  Both move
entries one after the other, and a move pushes the item before it drops the
entry: wherever the script stops, it has moved some of its entries, the last
of which may be pending still (`Midway`), and left the others alone.
-/

namespace Redisq.Model

open Script (Throughout Leaves)

variable {k : Kind} {cj : Cjson} {env : Env} {s t u : Store} {id v : Bytes}
  {ids done : List Bytes}

/-! ## Where a requeue may stop -/

/-- What a requeue works on: the queue and the keys of the pending entries. -/
structure Shelf where
  list : List Bytes
  zset : ZSet
  nacked : Hash Bytes
  timeouts : ZSet
  prio : Hash ℤ
  started : Hash ℕ

def Store.shelf (s : Store) : Shelf :=
  ⟨s.list, s.zset, s.nacked, s.timeouts, s.prio, s.started⟩

/-- `t` is where a requeue of `ids` that began at `s` may stop: the queue has
the items of `done` back, all of whose entries are gone but for the last,
which may be pending still. -/
structure Midway (k : Kind) (cj : Cjson) (ids done : List Bytes) (s : Store) (t : Shelf) :
    Prop where
  begun : done <+: ids
  list : t.list = (done.foldl (Store.moved k cj) s).list
  zset : t.zset = (done.foldl (Store.moved k cj) s).zset
  nacked : ∃ before, (done = before ∨ ∃ id, done = before ++ [id]) ∧
    t.nacked = (before.foldl (Store.moved k cj) s).nacked
  deadline : ∀ id, id ∉ done ∨ id ∈ t.nacked → t.timeouts.score id = s.timeouts.score id
  prio : ∀ id ∉ done, t.prio.lookup id = s.prio.lookup id
  started : ∀ id ∉ done, t.started.lookup id = s.started.lookup id

/-! ## One turn -/

/-- A requeue leaves the entries alone that it does not go through. -/
theorem movedAll_apart (k : Kind) (cj : Cjson) (ids : List Bytes) (s : Store) (h : id ∉ ids) :
    (ids.foldl (Store.moved k cj) s).nacked.lookup id = s.nacked.lookup id ∧
      (ids.foldl (Store.moved k cj) s).timeouts.score id = s.timeouts.score id ∧
      (ids.foldl (Store.moved k cj) s).prio.lookup id = s.prio.lookup id ∧
      (ids.foldl (Store.moved k cj) s).started.lookup id = s.started.lookup id := by
  induction ids generalizing s with
  | nil => exact ⟨rfl, rfl, rfl, rfl⟩
  | cons id' rest ih =>
      obtain ⟨hne, hrest⟩ := not_or.mp (List.mem_cons.not.mp h)
      obtain ⟨hnacked, htimeouts, hprio, hstarted⟩ := ih (s.moved k cj id') hrest
      rw [List.foldl_cons, hnacked, htimeouts, hprio, hstarted]
      cases hid : s.nacked.lookup id' with
      | none =>
          rw [Store.moved_of_none hid]
          exact ⟨rfl, SortedSet.score_erase_of_ne _ hne, rfl, rfl⟩
      | some v =>
          rw [Store.moved_of_some hid]
          refine ⟨Finmap.lookup_erase_ne hne, SortedSet.score_erase_of_ne _ hne, ?_,
            Finmap.lookup_erase_ne hne⟩
          cases k
          · rfl
          · exact Finmap.lookup_erase_ne hne

/-- Before the push of a turn, or after all of it. -/
theorem Midway.between (hbegun : done <+: ids)
    (hlist : t.list = (done.foldl (Store.moved k cj) s).list)
    (hzset : t.zset = (done.foldl (Store.moved k cj) s).zset)
    (hnacked : t.nacked = (done.foldl (Store.moved k cj) s).nacked)
    (htimeouts : ∀ id ∉ done, t.timeouts.score id =
      (done.foldl (Store.moved k cj) s).timeouts.score id)
    (hprio : ∀ id ∉ done, t.prio.lookup id = (done.foldl (Store.moved k cj) s).prio.lookup id)
    (hstarted : ∀ id ∉ done,
      t.started.lookup id = (done.foldl (Store.moved k cj) s).started.lookup id) :
    Midway k cj ids done s t.shelf where
  begun := hbegun
  list := hlist
  zset := hzset
  nacked := ⟨done, Or.inl rfl, hnacked⟩
  deadline id hid := by
    have hnot : id ∉ done := by
      rcases hid with hnot | hmem
      · exact hnot
      · have hstill : id ∈ (done.foldl (Store.moved k cj) s).nacked := hnacked ▸ hmem
        exact Store.notMem_of_movedAll hstill
    exact (htimeouts id hnot).trans (movedAll_apart k cj done s hnot).2.1
  prio id hid := (hprio id hid).trans (movedAll_apart k cj done s hid).2.2.1
  started id hid := (hstarted id hid).trans (movedAll_apart k cj done s hid).2.2.2

/-- After the push of a turn, the entry in or out. -/
theorem Midway.during (hbegun : done ++ [id] <+: ids)
    (hid : (done.foldl (Store.moved k cj) s).nacked.lookup id = some v)
    (hlist : t.list = ((done.foldl (Store.moved k cj) s).repushed k id v).list)
    (hzset : t.zset = ((done.foldl (Store.moved k cj) s).repushed k id v).zset)
    (hnacked : t.nacked = (done.foldl (Store.moved k cj) s).nacked ∨
      t.nacked = (done.foldl (Store.moved k cj) s).nacked.erase id)
    (htimeouts : ∀ j, j ≠ id ∨ j ∈ t.nacked → t.timeouts.score j =
      (done.foldl (Store.moved k cj) s).timeouts.score j)
    (hprio : ∀ j ≠ id, t.prio.lookup j = (done.foldl (Store.moved k cj) s).prio.lookup j)
    (hstarted : ∀ j ≠ id,
      t.started.lookup j = (done.foldl (Store.moved k cj) s).started.lookup j) :
    Midway k cj ids (done ++ [id]) s t.shelf := by
  have hmoved : (done ++ [id]).foldl (Store.moved k cj) s =
      (done.foldl (Store.moved k cj) s).moved k cj id := by
    rw [List.foldl_append]
    rfl
  have hapart : ∀ j, j ∉ done ++ [id] → j ∉ done ∧ j ≠ id := by
    intro j hj
    simpa only [List.mem_append, List.mem_singleton, not_or] using hj
  refine ⟨hbegun, ?_, ?_, ?_, ?_, ?_, ?_⟩
  · rw [hmoved, Store.moved_of_some hid]
    exact hlist
  · rw [hmoved, Store.moved_of_some hid]
    exact hzset
  · rcases hnacked with hin | hout
    · exact ⟨done, Or.inr ⟨id, rfl⟩, hin⟩
    · refine ⟨done ++ [id], Or.inl rfl, ?_⟩
      rw [hmoved, Store.moved_of_some hid]
      exact hout
  · intro j hj
    have hnot : j ∉ done := by
      rcases hj with hnot | hmem
      · exact (hapart j hnot).1
      · have hstill : j ∈ (done.foldl (Store.moved k cj) s).nacked := by
          have hmem : j ∈ t.nacked := hmem
          rcases hnacked with hin | hout
          · rwa [hin] at hmem
          · rw [hout] at hmem
            exact (Finmap.mem_erase.mp hmem).2
        exact Store.notMem_of_movedAll hstill
    exact (htimeouts j (hj.imp (fun h => (hapart j h).2) fun h => h)).trans
      (movedAll_apart k cj done s hnot).2.1
  · intro j hj
    exact (hprio j (hapart j hj).2).trans (movedAll_apart k cj done s (hapart j hj).1).2.2.1
  · intro j hj
    exact (hstarted j (hapart j hj).2).trans (movedAll_apart k cj done s (hapart j hj).1).2.2.2

/-- Where a script may stop that requeues `ids`. -/
def Stopped (k : Kind) (cj : Cjson) (ids : List Bytes) (s t : Store) : Prop :=
  ∃ done, Midway k cj ids done s t.shelf

/-- The store a turn begins with, the heartbeats aside. -/
structure Begins (k : Kind) (cj : Cjson) (done : List Bytes) (s u : Store) : Prop where
  shelf : u.shelf = (done.foldl (Store.moved k cj) s).shelf
  seq : u.seq = (done.foldl (Store.moved k cj) s).seq

section Turn

variable (hbegins : Begins k cj done s u) (hbegun : done ++ [id] <+: ids)
include hbegins

theorem Begins.stopped (hbegun : done <+: ids) (ht : t.shelf = u.shelf) :
    Stopped k cj ids s t := by
  have hsame := ht.trans hbegins.shelf
  refine ⟨done, Midway.between hbegun (congrArg Shelf.list hsame) (congrArg Shelf.zset hsame)
    (congrArg Shelf.nacked hsame) ?_ ?_ ?_⟩
  · exact fun j _ => congrArg (fun r : Shelf => r.timeouts.score j) hsame
  · exact fun j _ => congrArg (fun r : Shelf => r.prio.lookup j) hsame
  · exact fun j _ => congrArg (fun r : Shelf => r.started.lookup j) hsame

/-- The item is pushed, and the entry in or out. -/
theorem Begins.stopped_during (hbegun : done ++ [id] <+: ids) (hid : u.nacked.lookup id = some v)
    (hlist : t.list = (u.repushed k id v).list) (hzset : t.zset = (u.repushed k id v).zset)
    (hnacked : t.nacked = u.nacked ∧ t.timeouts = u.timeouts ∨
      t.nacked = u.nacked.erase id ∧ (t.timeouts = u.timeouts ∨ t.timeouts = u.timeouts.erase id))
    (hprio : ∀ j ≠ id, t.prio.lookup j = u.prio.lookup j)
    (hstarted : ∀ j ≠ id, t.started.lookup j = u.started.lookup j) :
    Stopped k cj ids s t := by
  have hlist' := congrArg Shelf.list hbegins.shelf
  have hzset' := congrArg Shelf.zset hbegins.shelf
  have hnacked' := congrArg Shelf.nacked hbegins.shelf
  have htimeouts' := congrArg Shelf.timeouts hbegins.shelf
  have hprio' := congrArg Shelf.prio hbegins.shelf
  have hstarted' := congrArg Shelf.started hbegins.shelf
  simp only [Store.shelf] at hlist' hzset' hnacked' htimeouts' hprio' hstarted'
  refine ⟨done ++ [id], Midway.during (v := v) hbegun ?_ ?_ ?_ ?_ ?_ ?_ ?_⟩
  · rw [← hnacked']
    exact hid
  · rw [hlist]
    cases k
    · simp only [Store.repushed, hlist']
    · exact hlist'
  · rw [hzset]
    cases k
    · exact hzset'
    · simp only [Store.repushed, hzset', hbegins.seq, hprio']
  · rw [← hnacked']
    exact hnacked.imp And.left And.left
  · intro j hj
    rw [← htimeouts']
    rcases hnacked with ⟨-, hsame⟩ | ⟨hout, hsame | herased⟩
    · rw [hsame]
    · rw [hsame]
    · have hne : j ≠ id := by
        rcases hj with hne | hmem
        · exact hne
        · rw [hout] at hmem
          exact (Finmap.mem_erase.mp hmem).1
      rw [herased, SortedSet.score_erase_of_ne _ hne]
  · rw [← hprio']
    exact hprio
  · rw [← hstarted']
    exact hstarted

/-- After a turn the next one begins. -/
theorem Begins.next (id : Bytes) : Begins k cj (done ++ [id]) s (u.moved k cj id) := by
  obtain ⟨hshelf, hseq⟩ := hbegins
  rw [Store.shelf, Store.shelf, Shelf.mk.injEq] at hshelf
  obtain ⟨hlist, hzset, hnacked, htimeouts, hprio, hstarted⟩ := hshelf
  have hmoved : (done ++ [id]).foldl (Store.moved k cj) s =
      (done.foldl (Store.moved k cj) s).moved k cj id := by
    rw [List.foldl_append]
    rfl
  constructor
  · rw [hmoved]
    cases hid : u.nacked.lookup id with
    | none =>
        rw [Store.moved_of_none hid, Store.moved_of_none (hnacked ▸ hid)]
        simp only [Store.shelf, hlist, hzset, hnacked, htimeouts, hprio, hstarted]
    | some v =>
        rw [Store.moved_of_some hid, Store.moved_of_some (hnacked ▸ hid)]
        cases k <;>
          simp only [Store.shelf, Store.repushed, hlist, hzset, hnacked, htimeouts, hprio,
            hstarted, hseq]
  · rw [hmoved, Store.moved_seq, Store.moved_seq, hseq, hnacked]

/-- One turn pushes before it drops. -/
theorem Begins.move_throughout (hbegun : done ++ [id] <+: ids) :
    Throughout (Stopped k cj ids s) (move k cj id) u := by
  have hdone : done <+: ids := (List.prefix_append done [id]).trans hbegun
  have hstart : Stopped k cj ids s u := hbegins.stopped hdone rfl
  have hend : Stopped k cj ids s (u.moved k cj id) := (hbegins.next id).stopped hbegun rfl
  cases hid : u.nacked.lookup id with
  | none =>
      rw [Store.moved_of_none hid] at hend
      simp only [move, hget, zrem, ↓Script.throughout_bind, Ref.read, Ref.write,
        Script.throughout_command, Script.exec_command, Ref.nacked_get, hid,
        Script.throughout_pure]
      exact ⟨⟨hstart, hstart⟩, ⟨hstart, hend⟩, hend⟩
  | some v =>
      have hprio : ∀ j ≠ id, (u.repushed k id v).prio.lookup j = u.prio.lookup j := by
        intro j hj
        cases k
        · rfl
        · exact Finmap.lookup_erase_ne hj
      have hkept : (u.repushed k id v).nacked = u.nacked ∧
          (u.repushed k id v).timeouts = u.timeouts ∧
          (u.repushed k id v).started = u.started := by
        cases k <;> exact ⟨rfl, rfl, rfl⟩
      have hin : Stopped k cj ids s (u.repushed k id v) :=
        hbegins.stopped_during hbegun hid rfl rfl (Or.inl ⟨hkept.1, hkept.2.1⟩) hprio
          fun j _ => by rw [hkept.2.2]
      have hpushed : Throughout (Stopped k cj ids s) (repush k v id) u := by
        cases k with
        | fifo => exact Script.throughout_command.mpr ⟨hstart, hin⟩
        | prio =>
            have hincr : Stopped .prio cj ids s { u with seq := u.seq + 1 } :=
              hbegins.stopped hdone rfl
            have hadded : Stopped .prio cj ids s
                { u.repushed .prio id v with prio := u.prio } :=
              hbegins.stopped_during hbegun hid rfl rfl (Or.inl ⟨rfl, rfl⟩) (fun _ _ => rfl)
                fun _ _ => rfl
            simp only [repush, zsetRepush, incrSeq, hget, zaddQueue, hdel, ↓Script.throughout_bind,
              Ref.read, Ref.write, Script.throughout_command, Script.exec_command]
            exact ⟨⟨hstart, hincr⟩, ⟨hincr, hincr⟩, ⟨hincr, hadded⟩, hadded, hin⟩
      -- the entry is out, and what is left of it goes
      have hout : ∀ (started : Hash ℕ) (attempts : Hash ℕ) (timeouts : ZSet),
          (started = u.started ∨ started = u.started.erase id) →
          (timeouts = u.timeouts ∨ timeouts = u.timeouts.erase id) →
          Stopped k cj ids s { u.repushed k id v with
            nacked := u.nacked.erase id, started := started, attempts := attempts,
            timeouts := timeouts } := by
        intro started attempts timeouts hstarted htimeouts
        refine hbegins.stopped_during hbegun hid rfl rfl (Or.inr ⟨rfl, htimeouts⟩) hprio ?_
        intro j hj
        rcases hstarted with rfl | rfl
        · rfl
        · exact Finmap.lookup_erase_ne hj
      refine Script.throughout_bind.mpr ⟨Script.throughout_command.mpr ⟨hstart, hstart⟩, ?_⟩
      rw [show (hget Ref.nacked id).exec u = (u.nacked.lookup id, u) from rfl, hid]
      refine Script.throughout_bind.mpr ⟨hpushed, ?_⟩
      rw [exec_repush]
      have hdelete : (hdel Ref.nacked id).exec (u.repushed k id v) =
          ((), { u.repushed k id v with
            nacked := u.nacked.erase id, started := u.started, attempts := u.attempts,
            timeouts := u.timeouts }) := by
        cases k <;> rfl
      have hdropped := hout u.started u.attempts u.timeouts (Or.inl rfl) (Or.inl rfl)
      refine Script.throughout_bind.mpr ⟨Script.throughout_command.mpr ⟨hin, ?_⟩, ?_⟩
      · exact congrArg Prod.snd hdelete ▸ hdropped
      rw [hdelete]
      refine Script.throughout_bind.mpr ⟨Script.throughout_bind.mpr ⟨?_, ?_⟩, ?_⟩
      · exact Script.throughout_command.mpr
          ⟨hdropped, hout _ _ _ (Or.inr rfl) (Or.inl rfl)⟩
      · refine Script.throughout_ite.mpr ⟨fun _ => ?_, fun _ => ?_⟩
        · exact Script.throughout_command.mpr
            ⟨hout _ _ _ (Or.inr rfl) (Or.inl rfl), hout _ _ _ (Or.inr rfl) (Or.inl rfl)⟩
        · exact Script.throughout_pure.mpr (hout _ _ _ (Or.inr rfl) (Or.inl rfl))
      · rw [exec_requeued]
        refine Script.throughout_bind.mpr ⟨Script.throughout_command.mpr ⟨?_, ?_⟩, ?_⟩
        · exact hout _ _ _ (Or.inr rfl) (Or.inl rfl)
        · exact hout _ _ _ (Or.inr rfl) (Or.inr rfl)
        · exact Script.throughout_pure.mpr (hout _ _ _ (Or.inr rfl) (Or.inr rfl))

end Turn

/-! ## The loops -/

theorem requeueAll_throughout (rest : List Bytes) :
    ∀ (done : List Bytes) (u : Store), Begins k cj done s u → done ++ rest <+: ids →
      Throughout (Stopped k cj ids s) (requeueAll (move k cj) rest) u := by
  induction rest with
  | nil =>
      intro done u hbegins hbegun
      rw [List.append_nil] at hbegun
      exact Script.throughout_pure.mpr (hbegins.stopped hbegun rfl)
  | cons id rest ih =>
      intro done u hbegins hbegun
      have hnext : (done ++ [id]) ++ rest <+: ids := by
        rwa [List.append_assoc]
      have hturn : done ++ [id] <+: ids := (List.prefix_append _ rest).trans hnext
      have hrest := ih (done ++ [id]) (u.moved k cj id) (hbegins.next id) hnext
      refine Script.throughout_bind.mpr ⟨hbegins.move_throughout hturn, ?_⟩
      rw [exec_move]
      exact Script.throughout_bind.mpr ⟨hrest, Script.throughout_pure.mpr hrest.finish⟩

theorem Begins.requeued (hbegins : Begins k cj done s u) (rest : List Bytes) :
    Begins k cj (done ++ rest) s (rest.foldl (Store.moved k cj) u) := by
  induction rest generalizing done u with
  | nil =>
      rw [List.append_nil]
      exact hbegins
  | cons id rest ih =>
      have hrest := ih (hbegins.next id)
      rwa [List.append_assoc] at hrest

/-- What a requeue depends on. -/
def Store.basis (s : Store) : Shelf × ℕ :=
  (s.shelf, s.seq)

theorem Begins.of_basis (hbegins : Begins k cj done s u) (ht : t.basis = u.basis) :
    Begins k cj done s t :=
  ⟨(congrArg Prod.fst ht).trans hbegins.shelf, (congrArg Prod.snd ht).trans hbegins.seq⟩

/-- A script that touches no item may stop anywhere. -/
theorem Begins.leaves {α : Type} {x : Redis α} (hbegins : Begins k cj done s u)
    (hx : Leaves Store.basis x) (hbegun : done <+: ids) :
    Throughout (Stopped k cj ids s) x u := by
  refine (hx u).mono fun t ht => ?_
  exact (hbegins.of_basis ht).stopped hbegun rfl

section Basis

theorem leaves_basis_read {α β : Type} (r : Ref α) (cmd : Cmd) (f : α → β) :
    Leaves Store.basis (r.read cmd f) :=
  Script.leaves_command fun _ => rfl

theorem leaves_heartbeats (cmd : Cmd) (f : ZSet → ZSet) :
    Leaves Store.basis (Ref.heartbeats.write cmd f) :=
  Script.leaves_command fun _ => rfl

theorem leaves_presence (cmd : Cmd) (f : ZSet → ZSet) :
    Leaves Store.basis (Ref.presence.write cmd f) :=
  Script.leaves_command fun _ => rfl

theorem skipGap_leaves (env : Env) (last : Option Time) :
    Leaves Store.basis (skipGap env last) := by
  unfold skipGap
  split
  · refine .ite ?_ (Script.leaves_pure _)
    refine .bind (leaves_basis_read _ _ _) fun owners => ?_
    refine .bind (.each fun m => leaves_heartbeats _ _) fun _ => ?_
    exact .bind (leaves_basis_read _ _ _) fun marked => .each fun m => leaves_presence _ _
  · exact Script.leaves_pure _

theorem dropOwner_leaves (m : Bytes) : Leaves Store.basis (dropOwner m) :=
  .bind (leaves_heartbeats _ _) fun _ => leaves_presence _ _

theorem renew_leaves (env : Env) (owner : Bytes) (hbt : Time) (own : Option Time) :
    Leaves Store.basis (renew env owner hbt own) := by
  refine .ite (.ite ?_ (dropOwner_leaves owner)) (Script.leaves_pure _)
  exact .bind (leaves_heartbeats _ _) fun _ => leaves_presence _ _

theorem sweepSelf_leaves (env : Env) (owner : Bytes) (hbt : Time) :
    Leaves Store.basis (sweepSelf env owner hbt) := by
  refine .bind (Script.leaves_command fun _ => rfl) fun last => ?_
  refine .bind (skipGap_leaves env last) fun _ => .bind ?_ fun _ => ?_
  · exact .ite (Script.leaves_command fun _ => rfl) (Script.leaves_pure _)
  · refine .bind (leaves_basis_read _ _ _) fun own => ?_
    exact .bind (renew_leaves _ _ _ _) fun _ => Script.leaves_pure _

theorem look_leaves (env : Env) (m : Bytes) : Leaves Store.basis (look env m) := by
  refine .bind (leaves_basis_read _ _ _) fun mark => .ite (.ite ?_ (Script.leaves_pure _))
    (.ite ?_ (Script.leaves_pure _))
  · exact .bind (leaves_presence _ _) fun _ => Script.leaves_pure _
  · exact .bind (leaves_presence _ _) fun _ => Script.leaves_pure _

theorem lookAround_leaves (env : Env) (ms : List Bytes) :
    Leaves Store.basis (lookAround env ms) := by
  induction ms with
  | nil => exact Script.leaves_pure _
  | cons m rest ih =>
      exact .bind (look_leaves env m) fun gone => .bind ih fun others => Script.leaves_pure _

theorem findDead_leaves (env : Env) (last : Option Time) :
    Leaves Store.basis (findDead env last) := by
  refine .ite (.bind (leaves_basis_read _ _ _) fun dead => .ite ?_ (Script.leaves_pure _))
    (Script.leaves_pure _)
  refine .bind (leaves_basis_read _ _ _) fun live => ?_
  exact .bind (lookAround_leaves env live) fun gone => Script.leaves_pure _

end Basis

theorem release_throughout (k : Kind) (cj : Cjson) (env : Env) (owner : Bytes) (s : Store) :
    Throughout (Stopped k cj (s.pendingIDs env (ownedBy owner)) s) (release k cj env owner) s := by
  have hbegins : Begins k cj [] s s := ⟨rfl, rfl⟩
  refine Script.throughout_bind.mpr ⟨?_, ?_⟩
  · exact hbegins.leaves (.bind (leaves_basis_read _ _ _) fun ids => Script.leaves_pure _)
      List.nil_prefix
  · rw [exec_pendingIDs]
    refine Script.throughout_bind.mpr
      ⟨requeueAll_throughout _ [] s hbegins List.prefix_rfl, ?_⟩
    rw [exec_requeueAll k cj fun id s => exec_move k cj id s]
    refine (hbegins.requeued _).leaves ?_ List.prefix_rfl
    exact .bind (dropOwner_leaves owner) fun _ => Script.leaves_pure _

theorem sweep_throughout (k : Kind) (cj : Cjson) (env : Env) (owner : Bytes) (hbt : Time)
    (s : Store) :
    Throughout (Stopped k cj (s.sweptIDs k cj env owner hbt) s) (sweep k cj env owner hbt) s := by
  have hbegins : Begins k cj [] s s := ⟨rfl, rfl⟩
  have hoverdue : s.overdue env <+: s.sweptIDs k cj env owner hbt := List.prefix_append _ _
  refine Script.throughout_bind.mpr ⟨?_, ?_⟩
  · exact hbegins.leaves (Script.leaves_command fun _ => rfl) List.nil_prefix
  rw [exec_existsPaused]
  refine Script.throughout_bind.mpr ⟨?_, ?_⟩
  · exact hbegins.leaves (sweepSelf_leaves env owner hbt) List.nil_prefix
  rw [exec_sweepSelf]
  -- the overdue entries
  have hself : Begins k cj [] s (s.withLiveness (s.liveness.prepared env owner hbt)) :=
    hbegins.of_basis rfl
  refine Script.throughout_bind.mpr ⟨?_, ?_⟩
  · exact hself.leaves (leaves_basis_read _ _ _) List.nil_prefix
  have hread : (zrangeByScore .timeouts (fun d => d ≤ env.now) none).exec
      (s.withLiveness (s.liveness.prepared env owner hbt)) =
        (s.overdue env, s.withLiveness (s.liveness.prepared env owner hbt)) := rfl
  rw [hread]
  refine Script.throughout_bind.mpr ⟨requeueAll_throughout _ [] _ hself hoverdue, ?_⟩
  rw [exec_requeueAll k cj fun id s => exec_move k cj id s]
  have hcaught := hself.requeued (s.overdue env)
  rw [Store.movedAll_withLiveness] at hcaught ⊢
  -- the dead owners' entries
  refine Script.throughout_bind.mpr ⟨?_, ?_⟩
  · exact hcaught.leaves (findDead_leaves env s.clock) hoverdue
  have hdead : (findDead env s.clock).exec
      ((s.caughtUp k cj env).withLiveness (s.liveness.prepared env owner hbt)) =
        (s.liveness.sweptDead env owner hbt, (s.caughtUp k cj env).withLiveness
          (s.liveness.counted env (s.liveness.prepared env owner hbt))) :=
    exec_findDead env s.liveness _
  have hfound : Begins k cj (s.overdue env) s ((s.caughtUp k cj env).withLiveness
      (s.liveness.counted env (s.liveness.prepared env owner hbt))) :=
    hcaught.of_basis rfl
  rw [Store.caughtUp] at hdead hfound
  rw [hdead]
  have hall : s.overdue env ++ (s.caughtUp k cj env).pendingIDs env (fun id =>
      ownerOf id ∈ s.liveness.sweptDead env owner hbt) <+: s.sweptIDs k cj env owner hbt :=
    List.prefix_rfl
  have hreap : Throughout (Stopped k cj (s.sweptIDs k cj env owner hbt) s)
      (reap k cj env (s.liveness.sweptDead env owner hbt))
      (((s.overdue env).foldl (Store.moved k cj) s).withLiveness
        (s.liveness.counted env (s.liveness.prepared env owner hbt))) := by
    refine Script.throughout_ite.mpr ⟨fun _ => ?_, fun _ => ?_⟩
    · exact Script.throughout_pure.mpr (hfound.stopped hoverdue rfl)
    · refine Script.throughout_bind.mpr ⟨?_, ?_⟩
      · exact hfound.leaves (.bind (leaves_basis_read _ _ _) fun ids => Script.leaves_pure _)
          hoverdue
      rw [exec_pendingIDs]
      refine Script.throughout_bind.mpr ⟨requeueAll_throughout _ _ _ hfound hall, ?_⟩
      rw [exec_requeueAll k cj fun id s => exec_move k cj id s]
      refine (hfound.requeued _).leaves ?_ hall
      exact .bind (.each dropOwner_leaves) fun _ => Script.leaves_pure _
  exact Script.throughout_bind.mpr ⟨hreap, Script.throughout_pure.mpr hreap.finish⟩

/-! ## What a stop leaves -/

/-- The queue holds the item, in a priority queue under some sequence number. -/
def Store.waits (k : Kind) (v : Bytes) (s : Store) : Prop :=
  match k with
  | .fifo => v ∈ s.list
  | .prio => ∃ n, memberOf n v ∈ s.zset.members

/-- The entry of `id` is as it was. -/
def Unmoved (id : Bytes) (s t : Store) : Prop :=
  t.nacked.lookup id = s.nacked.lookup id ∧ t.timeouts.score id = s.timeouts.score id ∧
    t.prio.lookup id = s.prio.lookup id ∧ t.started.lookup id = s.started.lookup id

/-- Every entry is pending or in the queue: the queue has the items of some
entries back, in the order of `ids`, and of those at most one entry is pending
still. -/
structure NothingLost (k : Kind) (cj : Cjson) (ids : List Bytes) (s t : Store) : Prop where
  kept : ∀ id v, s.nacked.lookup id = some v → t.nacked.lookup id = some v ∨ t.waits k v
  once : ∃ done both, done <+: ids ∧ t.list = (done.foldl (Store.moved k cj) s).list ∧
    t.zset = (done.foldl (Store.moved k cj) s).zset ∧ (∀ id ∉ done, Unmoved id s t) ∧
      ∀ id ∈ done, id ∈ t.nacked → id = both
  apart : ∀ id ∉ ids, Unmoved id s t

/-- The item is in the queue, and no longer pending. -/
def Requeued (k : Kind) (id v : Bytes) (t : Store) : Prop :=
  t.nacked.lookup id = none ∧ t.waits k v

theorem moved_waits (k : Kind) (cj : Cjson) (id : Bytes) (h : s.waits k v) :
    (s.moved k cj id).waits k v := by
  cases hid : s.nacked.lookup id with
  | none =>
      rw [Store.moved_of_none hid]
      cases k <;> exact h
  | some w =>
      rw [Store.moved_of_some hid]
      cases k with
      | fifo => exact List.mem_cons_of_mem w h
      | prio =>
          obtain ⟨n, hn⟩ := h
          exact ⟨n, SortedSet.mem_members_insert.mpr (Or.inr hn)⟩

theorem movedAll_waits_of_waits (k : Kind) (cj : Cjson) (ids : List Bytes) :
    ∀ s : Store, s.waits k v → (ids.foldl (Store.moved k cj) s).waits k v :=
  Store.movedAll_induction (fun _ id h => moved_waits k cj id h) ids

/-- A requeue puts the items of the entries it goes through in the queue. -/
theorem movedAll_requeued (k : Kind) (cj : Cjson) (hid : id ∈ ids)
    (h : s.nacked.lookup id = some v) :
    Requeued k id v (ids.foldl (Store.moved k cj) s) := by
  constructor
  · rw [Store.movedAll_nacked]
    exact Finmap.lookup_eq_none.mpr fun hmem => (Finmap.mem_eraseAll.mp hmem).2 hid
  · induction ids generalizing s with
    | nil => cases hid
    | cons id' rest ih =>
        rw [List.foldl_cons]
        by_cases heq : id = id'
        · subst heq
          refine movedAll_waits_of_waits k cj rest _ ?_
          rw [Store.moved_of_some h]
          cases k with
          | fifo => exact List.mem_cons_self
          | prio => exact ⟨s.seq + 1, SortedSet.mem_members_insert.mpr (Or.inl rfl)⟩
        · refine ih (List.mem_of_ne_of_mem heq hid) ?_
          rw [s.moved_nacked, Finmap.lookup_erase_ne heq]
          exact h

theorem Stopped.nothingLost (h : Stopped k cj ids s t) : NothingLost k cj ids s t := by
  obtain ⟨done, hmid⟩ := h
  obtain ⟨before, hbefore, hnacked⟩ := hmid.nacked
  have hnacked : t.nacked = (before.foldl (Store.moved k cj) s).nacked := hnacked
  have hsub : ∀ id ∈ before, id ∈ done := by
    intro id hid
    rcases hbefore with rfl | ⟨last, rfl⟩
    · exact hid
    · exact List.mem_append_left _ hid
  have hunmoved : ∀ id ∉ done, Unmoved id s t := by
    intro id hid
    refine ⟨?_, hmid.deadline id (Or.inl hid), hmid.prio id hid, hmid.started id hid⟩
    rw [hnacked]
    exact (movedAll_apart k cj before s fun hin => hid (hsub id hin)).1
  refine ⟨?_, ?_, fun id hid => hunmoved id fun hin => hid (hmid.begun.subset hin)⟩
  · intro id v hpending
    by_cases hid : id ∈ done
    · have hwaits := (movedAll_requeued k cj hid hpending).2
      refine Or.inr ?_
      cases k with
      | fifo => exact (congrArg (fun l => v ∈ l) hmid.list).mpr hwaits
      | prio =>
          obtain ⟨n, hn⟩ := hwaits
          exact ⟨n, (congrArg (fun z : ZSet => memberOf n v ∈ z.members) hmid.zset).mpr hn⟩
    · exact Or.inl ((hunmoved id hid).1.trans hpending)
  · have hgone : ∀ id ∈ t.nacked, id ∉ before := by
      intro id hid
      rw [hnacked] at hid
      exact Store.notMem_of_movedAll hid
    rcases hbefore with rfl | ⟨last, rfl⟩
    · exact ⟨done, [], hmid.begun, hmid.list, hmid.zset, hunmoved,
        fun id hid hpending => absurd hid (hgone id hpending)⟩
    · refine ⟨before ++ [last], last, hmid.begun, hmid.list, hmid.zset, hunmoved, ?_⟩
      intro id hid hpending
      rcases List.mem_append.mp hid with hin | hlast
      · exact absurd hin (hgone id hpending)
      · exact List.mem_singleton.mp hlast

/-- Entries that are pending still have their deadline. -/
theorem Stopped.deadline (h : Stopped k cj ids s t) (hid : t.nacked.lookup id = some v) :
    t.timeouts.score id = s.timeouts.score id := by
  obtain ⟨done, hmid⟩ := h
  exact hmid.deadline id (Or.inr (Finmap.mem_of_lookup_eq_some hid))

/-- The sweep goes through entries past their deadline and of owners it takes
for dead alone. -/
theorem notMem_sweptIDs {owner : Bytes} {hbt : Time}
    (hearly : ∀ d, s.timeouts.score id = some d → env.now < d)
    (halive : ownerOf id ∉ s.liveness.sweptDead env owner hbt) :
    id ∉ s.sweptIDs k cj env owner hbt := by
  intro hmem
  rcases List.mem_append.mp hmem with hover | hdead
  · obtain ⟨d, hd, hle⟩ := mem_overdue.mp hover
    exact absurd (hearly d hd) (not_lt.mpr hle)
  · exact halive (of_decide_eq_true (mem_pendingIDs hdead).2)

/-- A later sweep requeues what is past its deadline. -/
theorem sweep_requeues (k : Kind) (cj : Cjson) {env : Env} (owner : Bytes) (hbt : Time) {d : Time}
    (hid : t.nacked.lookup id = some v) (hscore : t.timeouts.score id = some d)
    (hover : d ≤ env.now) : Requeued k id v ((sweep k cj env owner hbt).exec t).2 := by
  have hmem : id ∈ t.overdue env := mem_overdue.mpr ⟨d, hscore, hover⟩
  have hmoved := movedAll_requeued k cj
    (List.mem_append_left (t.caughtUp k cj env |>.pendingIDs env fun id =>
      ownerOf id ∈ t.liveness.sweptDead env owner hbt) hmem) hid
  rw [sweep_exec]
  show Requeued k id v (t.swept k cj env owner hbt)
  rw [Store.swept_eq]
  cases k <;> exact hmoved

/-- A later release requeues what is the owner's. -/
theorem release_requeues (k : Kind) (cj : Cjson) (env : Env) {owner : Bytes}
    (hid : t.nacked.lookup id = some v) (howned : ownedBy owner id = true) :
    Requeued k id v ((release k cj env owner).exec t).2 := by
  have hmem : id ∈ t.pendingIDs env (ownedBy owner) :=
    mem_pendingIDs_of (Option.isSome_of_eq_some hid) howned
  have hmoved := movedAll_requeued k cj hmem hid
  rw [release_exec]
  cases k <;> exact hmoved

/-- **The sweep and the release may stop anywhere**: nothing is lost, at most
one item is in both places, the other entries stay as they are, and a later
run requeues what is left. -/
theorem interrupted_requeues_safe (k : Kind) (cj : Cjson) (env : Env) (owner : Bytes) (hbt : Time)
    (s : Store) (n : ℕ) :
    (NothingLost k cj (s.sweptIDs k cj env owner hbt) s ((sweep k cj env owner hbt).cut n s) ∧
      (∀ id, (∀ d, s.timeouts.score id = some d → env.now < d) →
        ownerOf id ∉ s.liveness.sweptDead env owner hbt →
        Unmoved id s ((sweep k cj env owner hbt).cut n s)) ∧
      ∀ env' owner' hbt' id v d,
        ((sweep k cj env owner hbt).cut n s).nacked.lookup id = some v →
        s.timeouts.score id = some d → d ≤ env'.now →
        Requeued k id v
          ((sweep k cj env' owner' hbt').exec ((sweep k cj env owner hbt).cut n s)).2) ∧
    NothingLost k cj (s.pendingIDs env (ownedBy owner)) s ((release k cj env owner).cut n s) ∧
      (∀ id, ownedBy owner id = false → Unmoved id s ((release k cj env owner).cut n s)) ∧
      ∀ env' id v, ((release k cj env owner).cut n s).nacked.lookup id = some v →
        ownedBy owner id = true →
        Requeued k id v ((release k cj env' owner).exec ((release k cj env owner).cut n s)).2 := by
  have hsweep := sweep_throughout k cj env owner hbt s n
  have hrelease := release_throughout k cj env owner s n
  refine ⟨⟨hsweep.nothingLost, ?_, ?_⟩, hrelease.nothingLost, ?_, ?_⟩
  · intro id hearly halive
    exact hsweep.nothingLost.apart id (notMem_sweptIDs hearly halive)
  · intro env' owner' hbt' id v d hid hscore hover
    exact sweep_requeues k cj owner' hbt' hid ((hsweep.deadline hid).trans hscore) hover
  · intro id hother
    refine hrelease.nothingLost.apart id fun hmem => ?_
    exact absurd ((mem_pendingIDs hmem).2.symm.trans hother) (by decide)
  · intro env' id v hid howned
    exact release_requeues k cj env' hid howned

end Redisq.Model
