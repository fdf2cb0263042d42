import Redisq.Model.Inspect
import Redisq.Verified.BatchOrder
import Redisq.Verified.Handover
import Redisq.Verified.InTurn
import Redisq.Verified.Priority
import Redisq.Verified.Stranded

/-!
# Ack IDs and the order of pops

Ack IDs sort by reservation and then by index.  A pop under a new reservation
takes the number after all others, so its IDs sort after those of every entry
that is pending.  A pop under an older one may not: with an entry of a later
one pending, its items come out of order, and that is the only way they do.
When calls come in turn, such a pop is under a reservation that a failed call
left, or runs when its own call is over (`hand_out_order_iff`).
-/

namespace Redisq.Model

/-! ## The pop of an entry -/

/-- The script run at moment `n` is a pop that takes `v` off the queue as its
item `i`, from 0, under ack ID `a`. -/
def PopsAt (k : Kind) (cj : Cjson) (u : ℕ → Option ScriptRun) (n i : ℕ) (a v : Bytes) : Prop :=
  ∃ p env, u n = some ⟨.pop p, env⟩ ∧
    (((storeAt k cj u n).evicted env).taken k p.ids)[i]? = some (a, v)

/-- The entry pending under `a` at moment `N` was popped at moment `n`, as
item `i` of its pop. -/
structure PoppedAs (k : Kind) (cj : Cjson) (u : ℕ → Option ScriptRun) (N : ℕ) (a : Bytes)
    (n i : ℕ) : Prop where
  earlier : n < N
  pops : ∃ v, PopsAt k cj u n i a v
  since : ∀ m, n < m → m ≤ N → Pending k cj u m a

/-- Of two entries pending at moment `N` that were popped, the first was
popped first. -/
def PoppedBefore (k : Kind) (cj : Cjson) (u : ℕ → Option ScriptRun) (N : ℕ) (a b : Bytes) : Prop :=
  ∀ n i m j, PoppedAs k cj u N a n i → PoppedAs k cj u N b m j → n < m ∨ n = m ∧ i < j

/-- The entries that pops of `o` left pending at moment `N` sort by ack ID as
they were popped. -/
def InPopOrder (k : Kind) (cj : Cjson) (u : ℕ → Option ScriptRun) (o : Owner) (N : ℕ) : Prop :=
  ∀ a b n i m j, ownedBy o.name a = true → ownedBy o.name b = true →
    PoppedAs k cj u N a n i → PoppedAs k cj u N b m j → (a < b ↔ n < m ∨ n = m ∧ i < j)

/-- The script run at moment `n` is pop `p` of `o`, which takes items off the
queue while an entry popped under a later reservation is pending. -/
def Overtakes (k : Kind) (cj : Cjson) (u : ℕ → Option ScriptRun) (o : Owner) (n : ℕ) (p : PopCall) :
    Prop :=
  p.args.owner = o ∧
    (∃ env, u n = some ⟨.pop p, env⟩ ∧ ((storeAt k cj u n).evicted env).taken k p.ids ≠ []) ∧
    ∃ a m i p' env', PoppedAs k cj u n a m i ∧ u m = some ⟨.pop p', env'⟩ ∧
      p'.args.owner = o ∧ p.args.start < p'.args.start

/-- What the pops of `o` ask for fits the texts of ack IDs. -/
structure Regular (u : ℕ → Option ScriptRun) (o : Owner) : Prop where
  sized : OneSize u
  starts : ∀ n p env, u n = some ⟨.pop p, env⟩ → p.args.owner = o → p.args.start < 10 ^ 20
  wants : ∀ n p env, u n = some ⟨.pop p, env⟩ → p.args.owner = o → p.want < 10 ^ 4

section Runs

variable {k : Kind} {cj : Cjson} {u : ℕ → Option ScriptRun} {o : Owner} {n m i j N : ℕ}
  {a b v : Bytes} {p : PopCall} {env : Env}

theorem id_of_taken {s : Store} (h : (s.taken k p.ids)[i]? = some (a, v)) :
    i < p.want ∧ a = ackIDOf p.args.owner p.args.start (i + 1) := by
  have hzip : (p.ids.zip (s.head k p.ids))[i]? = some (a, v) := by
    unfold Store.taken at h
    split at h
    · cases h
    · exact h
  have hid : p.ids[i]? = some a := (List.getElem?_zip_eq_some.mp hzip).1
  have hlt : i < p.want := by
    have hlen := (List.getElem?_eq_some_iff.mp hid).1
    rwa [PopCall.ids, length_ackIDs] at hlen
  refine ⟨hlt, ?_⟩
  rw [PopCall.ids, ackIDs, List.getElem?_map, List.getElem?_range hlt] at hid
  exact (Option.some.inj hid).symm

/-- An entry of `o` was popped under a reservation of `o`. -/
theorem PopsAt.id (h : PopsAt k cj u n i a v) (ha : ownedBy o.name a = true) :
    ∃ p env, u n = some ⟨.pop p, env⟩ ∧ p.args.owner = o ∧ i < p.want ∧
      a = ackIDOf o p.args.start (i + 1) ∧
      (((storeAt k cj u n).evicted env).taken k p.ids)[i]? = some (a, v) := by
  obtain ⟨p, env, hu, htaken⟩ := h
  obtain ⟨hlt, rfl⟩ := id_of_taken htaken
  obtain rfl := (ownedBy_ackIDOf o p.args.owner p.args.start (i + 1)).mp ha
  exact ⟨p, env, hu, rfl, hlt, rfl, htaken⟩

/-- A pop takes what was not pending. -/
theorem PopsAt.free (h : PopsAt k cj u n i a v) : ¬Pending k cj u n a := by
  obtain ⟨p, env, _, htaken⟩ := h
  obtain ⟨hid, hfree, _⟩ := Store.mem_taken (List.mem_of_getElem? htaken)
  have hnone := Store.holds_eq_false.mp hfree a hid
  rw [Store.evicted_nacked] at hnone
  rw [Pending, hnone]
  exact Bool.false_ne_true

/-- An entry has one pop. -/
theorem PoppedAs.unique (h : PoppedAs k cj u N a n i) (h' : PoppedAs k cj u N a m j) :
    n = m ∧ i = j := by
  have hle : ∀ {n i m j}, PoppedAs k cj u N a n i → PoppedAs k cj u N a m j → m ≤ n := by
    intro n i m j h h'
    by_contra hlt
    obtain ⟨v, hpops⟩ := h'.pops
    exact hpops.free (h.since m (not_le.mp hlt) h'.earlier.le)
  obtain rfl : n = m := le_antisymm (hle h' h) (hle h h')
  refine ⟨rfl, ?_⟩
  obtain ⟨v, p, env, hu, htaken⟩ := h.pops
  obtain ⟨v', p', env', hu', htaken'⟩ := h'.pops
  cases hu.symm.trans hu'
  obtain ⟨_, hi⟩ := id_of_taken htaken
  obtain ⟨_, hj⟩ := id_of_taken htaken'
  exact Nat.succ.inj (ackIDOf_injective (hi.symm.trans hj)).2.2

/-- An entry was popped, or made pending by hand. -/
theorem popped_of_pending (h : Pending k cj u N a) :
    (∃ n i, PoppedAs k cj u N a n i) ∨
      ∃ n < N, ∃ item vt env, u n = some ⟨.prepareAck a item vt, env⟩ := by
  induction N with
  | zero => cases h
  | succ N ih =>
      have hearlier : Pending k cj u N a → (∃ n i, PoppedAs k cj u (N + 1) a n i) ∨
          ∃ n < N + 1, ∃ item vt env, u n = some ⟨.prepareAck a item vt, env⟩ := by
        intro hbefore
        rcases ih hbefore with ⟨n, i, hpopped⟩ | ⟨n, hn, hhand⟩
        · refine Or.inl ⟨n, i, hpopped.earlier.trans N.lt_succ_self, hpopped.pops, ?_⟩
          intro m hnm hm
          rcases Nat.le_succ_iff.mp hm with hle | rfl
          · exact hpopped.since m hnm hle
          · exact h
        · exact Or.inr ⟨n, Nat.lt_succ_of_lt hn, hhand⟩
      cases hr : u N with
      | none =>
          apply hearlier
          rwa [Pending, storeAt_succ_none hr] at h
      | some r =>
          obtain ⟨v, hv⟩ := Option.isSome_iff_exists.mp h
          rw [storeAt_nacked hr] at hv
          rcases pending_cases hv with ⟨hbefore, _⟩ | ⟨p, hinv, hmem⟩ | ⟨vt, hinv⟩
          · rw [Store.evicted_nacked] at hbefore
            exact hearlier (Option.isSome_of_eq_some hbefore)
          · obtain ⟨i, hi⟩ := List.mem_iff_getElem?.mp hmem
            refine Or.inl ⟨N, i, N.lt_succ_self, ⟨v, p, r.env, by rw [hr, ← hinv], hi⟩, ?_⟩
            intro m hNm hm
            obtain rfl : m = N + 1 := by omega
            exact h
          · exact Or.inr ⟨N, N.lt_succ_self, v, vt, r.env, by rw [hr, ← hinv]⟩

/-! ## The order -/

/-- Unless a pop overtakes, what was popped first has the smaller ID. -/
theorem Regular.lt_of_before (hu : Regular u o) (hnone : ∀ n p, ¬Overtakes k cj u o n p)
    (ha : ownedBy o.name a = true) (hb : ownedBy o.name b = true)
    (hpopa : PoppedAs k cj u N a n i) (hpopb : PoppedAs k cj u N b m j)
    (horder : n < m ∨ n = m ∧ i < j) : a < b := by
  obtain ⟨v, hpopsa⟩ := hpopa.pops
  obtain ⟨w, hpopsb⟩ := hpopb.pops
  obtain ⟨p, env, hn, howner, hi, rfl, _⟩ := hpopsa.id ha
  obtain ⟨p', env', hm, howner', hj, rfl, htaken⟩ := hpopsb.id hb
  rcases horder with hlt | ⟨rfl, hij⟩
  · -- the first entry was pending when the second was popped
    have hpending : PoppedAs k cj u m (ackIDOf o p.args.start (i + 1)) n i := by
      refine ⟨hlt, ⟨v, hpopsa⟩, ?_⟩
      intro l hnl hlm
      exact hpopa.since l hnl (hlm.trans hpopb.earlier.le)
    have hle : p.args.start ≤ p'.args.start := by
      by_contra hlater
      refine hnone m p' ⟨howner', ⟨env', hm, ?_⟩, _, n, i, p, env, hpending, hn, howner, ?_⟩
      · exact List.ne_nil_of_mem (List.mem_of_getElem? htaken)
      · omega
    have hne : p.args.start ≠ p'.args.start := by
      intro heq
      have hwant : p.want = p'.want :=
        hu.sized n m p p' env env' hn hm (howner.trans howner'.symm) heq
      have hid : ackIDOf o p.args.start (i + 1) ∈ p'.ids := by
        rw [PopCall.ids, howner', ← heq, ← hwant]
        exact mem_ackIDs.mpr ⟨i, hi, rfl⟩
      have hfree := Store.holds_eq_false.mp
        (Store.mem_taken (List.mem_of_getElem? htaken)).2.1 _ hid
      have hheld : Pending k cj u m (ackIDOf o p.args.start (i + 1)) :=
        hpending.since m hlt le_rfl
      rw [Store.evicted_nacked] at hfree
      rw [Pending, hfree] at hheld
      cases hheld
    have hstart : p.args.start < p'.args.start := by omega
    exact ackIDOf_lt_of_start hstart (hu.starts m p' env' hm howner') _ _
  · cases hn.symm.trans hm
    have hwant := hu.wants n p env hn howner
    apply ackIDOf_lt_of_index
    · omega
    · omega

theorem Regular.inPopOrder (hu : Regular u o) (hnone : ∀ n p, ¬Overtakes k cj u o n p) (N : ℕ) :
    InPopOrder k cj u o N := by
  intro a b n i m j ha hb hpopa hpopb
  constructor
  · intro hlt
    by_contra hnot
    have hback : (m < n ∨ m = n ∧ j < i) ∨ m = n ∧ j = i := by omega
    rcases hback with hback | ⟨rfl, rfl⟩
    · exact absurd hlt (hu.lt_of_before hnone hb ha hpopb hpopa hback).not_gt
    · -- one pop gives an ID to one item
      obtain ⟨v, hpopsa⟩ := hpopa.pops
      obtain ⟨w, hpopsb⟩ := hpopb.pops
      obtain ⟨p, env, hn, _, _, rfl, _⟩ := hpopsa.id ha
      obtain ⟨p', env', hm, _, _, rfl, _⟩ := hpopsb.id hb
      cases hn.symm.trans hm
      exact absurd hlt (lt_irrefl _)
  · exact hu.lt_of_before hnone ha hb hpopa hpopb

/-- A pop leaves other entries pending. -/
theorem pending_popped (hn : u n = some ⟨.pop p, env⟩) (h : Pending k cj u n a) :
    Pending k cj u (n + 1) a := by
  have hold : a ∈ ((storeAt k cj u n).evicted env).nacked := by
    rw [Store.evicted_nacked]
    exact Finmap.lookup_isSome.mp h
  rw [Pending, storeAt_nacked hn, ScriptRun.after, after_nacked]
  exact Finmap.lookup_isSome.mpr ((Finmap.mem_insertAll _).mpr (Or.inr hold))

theorem PoppedAs.popped (h : PoppedAs k cj u n a m i) (hn : u n = some ⟨.pop p, env⟩) :
    PoppedAs k cj u (n + 1) a m i := by
  refine ⟨h.earlier.trans n.lt_succ_self, h.pops, ?_⟩
  intro l hml hl
  rcases Nat.le_succ_iff.mp hl with hle | rfl
  · exact h.since l hml hle
  · exact pending_popped hn (h.since n h.earlier le_rfl)

theorem PoppedAs.rest (h : PoppedAs k cj u n a m i) (hn : u n = none) :
    PoppedAs k cj u (n + 1) a m i := by
  refine ⟨h.earlier.trans n.lt_succ_self, h.pops, ?_⟩
  intro l hml hl
  rcases Nat.le_succ_iff.mp hl with hle | rfl
  · exact h.since l hml hle
  · rw [Pending, storeAt_succ_none hn]
    exact h.since n h.earlier le_rfl

/-- What a pop takes is pending after it. -/
theorem PopsAt.poppedAs (h : PopsAt k cj u n i a v) : PoppedAs k cj u (n + 1) a n i := by
  refine ⟨n.lt_succ_self, ⟨v, h⟩, ?_⟩
  intro l hnl hl
  obtain rfl : l = n + 1 := by omega
  obtain ⟨p, env, hn, htaken⟩ := h
  rw [Pending, storeAt_nacked hn, ScriptRun.after, after_nacked]
  refine Finmap.lookup_isSome.mpr ((Finmap.mem_insertAll _).mpr (Or.inl ?_))
  exact List.mem_map_of_mem (List.mem_of_getElem? htaken)

/-- A pop that overtakes puts an entry out of order. -/
theorem Regular.not_inPopOrder (hu : Regular u o) (h : Overtakes k cj u o n p) :
    ¬InPopOrder k cj u o (n + 1) := by
  obtain ⟨howner, ⟨env, hn, htaken⟩, b, m, i, p', env', hpopb, hm, howner', hlater⟩ := h
  obtain ⟨e, he⟩ := List.exists_mem_of_ne_nil _ htaken
  obtain ⟨j, hj⟩ := List.mem_iff_getElem?.mp he
  have hpopa : PoppedAs k cj u (n + 1) e.1 n j := PopsAt.poppedAs ⟨p, env, hn, hj⟩
  -- its ID sorts before that of the entry, which was popped before
  have hid : e.1 = ackIDOf o p.args.start (j + 1) := by
    rw [(id_of_taken hj).2, howner]
  have hid' : b = ackIDOf o p'.args.start (i + 1) := by
    obtain ⟨v, q, env'', hq, htakenb⟩ := hpopb.pops
    cases hm.symm.trans hq
    rw [(id_of_taken htakenb).2, howner']
  have hlt : e.1 < b := by
    rw [hid, hid']
    exact ackIDOf_lt_of_start hlater (hu.starts m p' env' hm howner') _ _
  intro horder
  have howned : ∀ start i, ownedBy o.name (ackIDOf o start i) = true := by
    intro start i
    exact (ownedBy_ackIDOf _ _ _ _).mpr rfl
  have hbefore := (horder e.1 b n j m i (hid ▸ howned _ _) (hid' ▸ howned _ _) hpopa
    (hpopb.popped hn)).mp hlt
  have hfirst := hpopb.earlier
  omega

/-! ## What goes by the order -/

theorem InPopOrder.pairwise (h : InPopOrder k cj u o N) {acks : List Bytes}
    (hsorted : acks.Pairwise (· ≤ ·)) (hnodup : acks.Nodup)
    (hown : ∀ a ∈ acks, ownedBy o.name a = true) :
    acks.Pairwise (PoppedBefore k cj u N) := by
  have hlt : acks.Pairwise (· < ·) :=
    hsorted.imp₂ (fun _ _ hle hne => lt_of_le_of_ne hle hne) hnodup
  refine hlt.imp_of_mem fun {a b} ha hb hab => ?_
  intro n i m j hpopa hpopb
  exact (h a b n i m j (hown a ha) (hown b hb) hpopa hpopb).mp hab

/-- A page of processing jobs lists the entries of `o` in the order of their
pops. -/
def ListsInOrder (k : Kind) (cj : Cjson) (u : ℕ → Option ScriptRun) (o : Owner) (N : ℕ) : Prop :=
  ∀ env x y, ∃ acks : List Bytes,
    ((jobsScript k cj env .processing x y).exec (storeAt k cj u N)).1 =
        .rows (acks.map fun a => .pending cj (storeAt k cj u N) a
          ((storeAt k cj u N).kept cj (((storeAt k cj u N).nacked.lookup a).getD []))) ∧
      (acks.filter (ownedBy o.name)).Pairwise (PoppedBefore k cj u N)

/-- A release of `o` puts its entries back in the order of their pops: the
items of each priority come last in it, in that order. -/
def ReleasesInOrder (k : Kind) (cj : Cjson) (u : ℕ → Option ScriptRun) (o : Owner) (N : ℕ) :
    Prop :=
  ∀ env, u N = some ⟨.release o, env⟩ → ∃ acks : List Bytes,
    (∀ a, a ∈ acks ↔ Pending k cj u N a ∧ ownedBy o.name a = true) ∧
      acks.Pairwise (PoppedBefore k cj u N) ∧
      ∀ q, (storeAt k cj u (N + 1)).stableQueue.waiting q =
        ((storeAt k cj u N).evicted env).stableQueue.waiting q ++
          (storeAt k cj u N).stableQueue.pendingAt q acks

theorem InPopOrder.lists (h : InPopOrder k cj u o N) : ListsInOrder k cj u o N := by
  intro env x y
  have hpage : (page ((storeAt k cj u N).acks env) x y).Sublist ((storeAt k cj u N).acks env) :=
    (List.drop_sublist _ _).trans (List.take_sublist _ _)
  have hall : ((page ((storeAt k cj u N).acks env) x y).filter (ownedBy o.name)).Sublist
      ((storeAt k cj u N).acks env) := List.filter_sublist.trans hpage
  refine ⟨page ((storeAt k cj u N).acks env) x y, ?_, ?_⟩
  · rw [jobsScript_exec]
    rfl
  · refine h.pairwise ((List.pairwise_insertionSort _ _).sublist hall) ?_ ?_
    · refine hall.nodup ?_
      exact (List.perm_insertionSort _ _).nodup_iff.mpr (env.hkeys_nodup _)
    · intro a ha
      exact (List.mem_filter.mp ha).2

theorem InPopOrder.releases (h : InPopOrder .prio cj u o N) (hfew : FewPuts .prio cj u) :
    ReleasesInOrder .prio cj u o N := by
  intro env hr
  have hids := pendingIDs_nodup env (ownedBy o.name) ((storeAt .prio cj u N).evicted env)
  refine ⟨((storeAt .prio cj u N).evicted env).pendingIDs env (ownedBy o.name), ?_, ?_, ?_⟩
  · intro a
    constructor
    · intro ha
      obtain ⟨hmem, hown⟩ := mem_pendingIDs ha
      rw [Store.evicted_nacked] at hmem
      exact ⟨Finmap.lookup_isSome.mpr (Finmap.mem_keys.mp hmem), hown⟩
    · rintro ⟨hpending, hown⟩
      refine mem_pendingIDs_of ?_ hown
      rw [Store.evicted_nacked]
      exact hpending
  · refine h.pairwise (pendingIDs_sorted env _ _) hids ?_
    intro a ha
    exact (mem_pendingIDs ha).2
  · intro q
    have hseq := hfew.seq_after hr
    have hmoved := Store.movedAll_stableQueue cj
      (((storeAt .prio cj u N).evicted env).pendingIDs env (ownedBy o.name))
      ((storeAt_sequenced .prio cj u N).evicted env) hseq
    have hsame : (storeAt .prio cj u (N + 1)).stableQueue =
        (((storeAt .prio cj u N).evicted env).released .prio cj env o.name).stableQueue := by
      obtain ⟨_, _, _, _, heq⟩ := step_some .prio cj (storeAt .prio cj u N) ⟨.release o, env⟩
      rw [storeAt_succ, hr, heq]
      rfl
    rw [hsame, Store.released, withLiveness_stableQueue, hmoved,
      StableQueue.requeueAll_waiting hids]
    congr 1
    obtain ⟨_, _, _, heq⟩ := (storeAt .prio cj u N).evicted_eq env
    rw [heq]
    rfl

/-- Ack IDs, the pages of processing jobs and what a release of a priority
queue puts back go by the order of the pops. -/
structure HandOutOrder (k : Kind) (cj : Cjson) (u : ℕ → Option ScriptRun) (o : Owner) (N : ℕ) :
    Prop where
  ids : InPopOrder k cj u o N
  lists : ListsInOrder k cj u o N
  releases : k = .prio → FewPuts .prio cj u → ReleasesInOrder k cj u o N

theorem InPopOrder.handOutOrder (h : InPopOrder k cj u o N) : HandOutOrder k cj u o N where
  ids := h
  lists := h.lists
  releases hprio hfew := by
    subst hprio
    exact h.releases hfew

end Runs

/-! ## Calls in turn -/

section Calls

variable {k : Kind} {cj : Cjson} {e : ℕ → Event} {o : Owner} {n : ℕ} {p : PopCall}

/-- Of calls in turn, only one that took over a reservation overtakes while it
waits. -/
theorem InTurn.tookOver (hturn : InTurn k cj e o) (h : Overtakes k cj (scriptRuns k cj e) o n p)
    {c : ℕ} (hruns : RunsFor k cj e n c) : TookOver k cj e o n c p.args.start := by
  obtain ⟨howner, ⟨env, hn, _⟩, a, m, j, p', env', hpopped, hm, howner', hlater⟩ := h
  -- the later reservation is at most the newest
  have hnewest : p'.args.start ≤ ((worldAt k cj e n).objects o).ackSeq := by
    obtain ⟨msg', hmsg', hinv'⟩ := sent_of_run k cj e hm
    exact (worldAt_reserved k cj e n).numbered o _ _ (.sent msg' p'
      (mem_sent_of_le k cj e hpopped.earlier.le hmsg') hinv' ⟨howner', rfl, rfl⟩)
  refine (hturn.run_newest_or_tookOver hn howner hruns).resolve_left fun hnew => ?_
  omega

theorem regular_scriptRuns (hstarts : ∀ n p env, scriptRuns k cj e n = some ⟨.pop p, env⟩ →
    p.args.owner = o → p.args.start < 2 ^ 64) : Regular (scriptRuns k cj e) o where
  sized := oneSize_scriptRuns k cj e
  starts n p env hn howner := (hstarts n p env hn howner).trans (by decide)
  wants n p env hn _ := (want_le_of_run hn).trans_lt (by decide)

/-- **Ack IDs sort in pop order** in a run, and so do pages of jobs and
releases, exactly when no pop overtakes.  Of calls in turn, one whose pop does
took its reservation over from a failed call, or was over when its script
ran. -/
theorem hand_out_order_iff (k : Kind) (cj : Cjson) (e : ℕ → Event) (o : Owner)
    (hstarts : ∀ n p env, scriptRuns k cj e n = some ⟨.pop p, env⟩ → p.args.owner = o →
      p.args.start < 2 ^ 64) :
    ((∀ N, HandOutOrder k cj (scriptRuns k cj e) o N) ↔
        ∀ n p, ¬Overtakes k cj (scriptRuns k cj e) o n p) ∧
      (InTurn k cj e o → ∀ n p, Overtakes k cj (scriptRuns k cj e) o n p →
        (∃ c, RunsFor k cj e n c ∧ TookOver k cj e o n c p.args.start) ∨
          ∀ c, ¬RunsFor k cj e n c) := by
  have hregular := regular_scriptRuns hstarts
  refine ⟨⟨?_, ?_⟩, ?_⟩
  · intro horder n p hovertakes
    exact hregular.not_inPopOrder hovertakes (horder (n + 1)).ids
  · intro hnone N
    exact (hregular.inPopOrder hnone N).handOutOrder
  · intro hturn n p hovertakes
    by_cases hruns : ∃ c, RunsFor k cj e n c
    · obtain ⟨c, hc⟩ := hruns
      exact Or.inl ⟨c, hc, hturn.tookOver hovertakes hc⟩
    · exact Or.inr (not_exists.mp hruns)

end Calls

/-- Two items are pushed.  A pop of both fails before its script runs, another
call pops one, and a third takes over what the failed call left and pops the
other; then the object is closed. -/
def retried : ℕ → Event
  | 0 => .issue (.push ⟨[97], 0, 0, false, none⟩)
  | 1 => .run 0 (.plain 0 fun _ => 0)
  | 2 => .issue (.push ⟨[98], 0, 0, false, none⟩)
  | 3 => .run 1 (.plain 1 fun _ => 0)
  | 4 => .start 0 ownerA false (.dequeueBatch 2)
  | 5 => .proceed 0
  | 6 => .proceed 0
  | 7 => .proceed 0
  | 8 => .proceed 0
  | 9 => .fail 0
  | 10 => .start 1 ownerA false .dequeue
  | 11 => .proceed 1
  | 12 => .proceed 1
  | 13 => .proceed 1
  | 14 => .proceed 1
  | 15 => .proceed 1
  | 16 => .run 3 (.plain 2 fun _ => 0)
  | 17 => .read 1 2
  | 18 => .start 2 ownerA false (.dequeueBatch 2)
  | 19 => .proceed 2
  | 20 => .proceed 2
  | 21 => .proceed 2
  | 22 => .run 4 (.plain 3 fun _ => 0)
  | 23 => .read 2 3
  | 24 => .start 3 ownerA false .close
  | 25 => .run 5 (.plain 4 fun _ => 0)
  | _ => .fail 0

theorem retried_starts {n c : ℕ} {o : Owner} {consumer : Bool} {kind : CallKind}
    (h : retried n = .start c o consumer kind) :
    n = 4 ∧ c = 0 ∨ n = 10 ∧ c = 1 ∨ n = 18 ∧ c = 2 ∨ n = 24 ∧ kind = .close := by
  match n, h with
  | 4, h => cases h; exact Or.inl ⟨rfl, rfl⟩
  | 10, h => cases h; exact Or.inr (Or.inl ⟨rfl, rfl⟩)
  | 18, h => cases h; exact Or.inr (Or.inr (Or.inl ⟨rfl, rfl⟩))
  | 24, h => cases h; exact Or.inr (Or.inr (Or.inr ⟨rfl, rfl⟩))
  | n + 26, h => cases h

theorem retried_pops {n : ℕ} {p : PopCall} {env : Env}
    (h : scriptRuns .prio .none retried n = some ⟨.pop p, env⟩) :
    n = 16 ∧ p.args.start = 2 ∨ n = 22 ∧ p.args.start = 1 := by
  match n, h with
  | 16, h => cases h; exact Or.inl ⟨rfl, rfl⟩
  | 22, h => cases h; exact Or.inr ⟨rfl, rfl⟩
  | n + 26, h => cases h

/-- The first two calls of that run have ended when the next one starts, and
each script runs while its call waits. -/
theorem retried_onTime : OnTime .prio .none retried ownerA where
  starts n c consumer kind hev hpops c' call hcall howner := by
    obtain ⟨m, hm, consumer', hstart⟩ := started_of_call hcall
    have hlater := retried_starts hev
    have hearlier := retried_starts hstart
    rcases hlater with ⟨rfl, _⟩ | ⟨rfl, _⟩ | ⟨rfl, _⟩ | ⟨_, rfl⟩
    · omega
    · obtain rfl : c' = 0 := by omega
      obtain rfl := Option.some.inj hcall
      rfl
    · obtain rfl | rfl : c' = 0 ∨ c' = 1 := by omega
      · obtain rfl := Option.some.inj hcall
        rfl
      · obtain rfl := Option.some.inj hcall
        rfl
    · cases hpops
  runs n p env hrun howner := by
    rcases retried_pops hrun with ⟨rfl, _⟩ | ⟨rfl, _⟩
    · exact ⟨1, 3, _, _, _, rfl, rfl, rfl, rfl, rfl⟩
    · exact ⟨2, 4, _, _, _, rfl, rfl, rfl, rfl, rfl⟩

/-- The item popped first is put back last. -/
theorem retried_batch_out_of_order :
    OnTime .prio .none retried ownerA ∧
      (worldAt .prio .none retried 17).log[2]? = some (3, .one (.item [97])) ∧
      (worldAt .prio .none retried 23).log[3]? = some (4, .batch (.popped 0 [[98]])) ∧
      (worldAt .prio .none retried 26).store.stableQueue.waiting 0 = [[98], [97]] ∧
      ¬HandOutOrder .prio .none (scriptRuns .prio .none retried) ownerA 23 := by
  refine ⟨retried_onTime, rfl, rfl, by decide, ?_⟩
  intro horder
  have hsecond : PopsAt .prio .none (scriptRuns .prio .none retried) 22 0
      (ackIDOf ownerA 1 1) [98] :=
    ⟨⟨⟨ownerA, 1, 300 * second, 30 * second, false⟩, .batch 2 2⟩, .plain 3 fun _ => 0, rfl,
      by decide⟩
  have hfirst : PopsAt .prio .none (scriptRuns .prio .none retried) 16 0
      (ackIDOf ownerA 2 1) [97] :=
    ⟨⟨⟨ownerA, 2, 300 * second, 30 * second, false⟩, .one⟩, .plain 2 fun _ => 0, rfl, by decide⟩
  have hpending : PoppedAs .prio .none (scriptRuns .prio .none retried) 23
      (ackIDOf ownerA 2 1) 16 0 := by
    obtain ⟨p, env, hpop, _⟩ := hsecond
    exact (((((hfirst.poppedAs.rest rfl).rest rfl).rest rfl).rest rfl).rest rfl).popped hpop
  have hbefore := (horder.ids _ _ 22 0 16 0 rfl rfl hsecond.poppedAs hpending).mp (by decide)
  omega

theorem hand_out_order_iff_retried :
    (∀ N, HandOutOrder .prio .none (scriptRuns .prio .none retried) ownerA N) ↔
      ∀ n p, ¬Overtakes .prio .none (scriptRuns .prio .none retried) ownerA n p := by
  refine (hand_out_order_iff .prio .none retried ownerA ?_).1
  intro n p env hn _
  rcases retried_pops hn with ⟨_, hstart⟩ | ⟨_, hstart⟩
  · omega
  · omega

end Redisq.Model
