import Redisq.Model.Client
import Redisq.Verified.FastPath
import Redisq.Verified.Sidecars
import Redisq.Verified.Stranded

/-!
# A batch that goes back to a list

A requeue pushes item after item to the front of the list, in the order of
their ack IDs, which for a batch is the order it was handed out in.  The item
pushed last is handed out first: a batch comes back in reverse
(`requeued_batch_in_order_iff`).
-/

namespace Redisq.Model

variable {cj : Cjson} {env : Env} {s : Store} {inv : Invocation} {p : PopCall} {id : Bytes}
  {ids items : List Bytes} {dl : Option Time}

/-! ## What the list holds -/

/-- The entries that a requeue of `ids` moves, the last one first. -/
def Store.putBack (ids : List Bytes) (s : Store) : List (Bytes × Bytes) :=
  ids.reverse.filterMap fun id => (s.nacked.lookup id).map fun v => (id, v)

/-- What the pops after a requeue of `ids` hand out, in order: each item with
the ack ID it was pending under, or none if it was waiting. -/
def Store.handout (ids : List Bytes) (s : Store) : List (Option Bytes × Bytes) :=
  (s.putBack ids).map (fun e => (some e.1, e.2)) ++ s.list.map fun v => (none, v)

theorem putBack_cons (id : Bytes) (ids : List Bytes) (s : Store) :
    s.putBack (id :: ids) = s.putBack ids ++ s.putBack [id] := by
  simp only [Store.putBack, List.reverse_cons, List.filterMap_append, List.reverse_nil,
    List.nil_append]

theorem putBack_moved (h : id ∉ ids) : (s.moved .fifo cj id).putBack ids = s.putBack ids := by
  refine List.filterMap_congr fun id' hid' => ?_
  have hne : id' ≠ id := fun heq => h (heq ▸ List.mem_reverse.mp hid')
  rw [s.moved_nacked, Finmap.lookup_erase_ne hne]

theorem moved_list (cj : Cjson) (id : Bytes) (s : Store) :
    (s.moved .fifo cj id).list = (s.putBack [id]).map Prod.snd ++ s.list := by
  cases hid : s.nacked.lookup id with
  | none =>
      have hnone : s.putBack [id] = [] := by simp [Store.putBack, hid]
      rw [Store.moved_of_none hid, hnone]
      rfl
  | some v =>
      have hone : s.putBack [id] = [(id, v)] := by simp [Store.putBack, hid]
      rw [Store.moved_of_some hid, hone]
      rfl

/-- A requeue leaves what was waiting behind the items it puts back. -/
theorem movedAll_list (cj : Cjson) (ids : List Bytes) (hnodup : ids.Nodup) (s : Store) :
    (ids.foldl (Store.moved .fifo cj) s).list = (s.putBack ids).map Prod.snd ++ s.list := by
  induction ids generalizing s with
  | nil => rfl
  | cons id rest ih =>
      obtain ⟨hnot, hrest⟩ := List.nodup_cons.mp hnodup
      rw [List.foldl_cons, ih hrest, moved_list, putBack_moved hnot, putBack_cons id rest,
        List.map_append, List.append_assoc]

theorem handout_items (ids : List Bytes) (s : Store) :
    (s.handout ids).map Prod.snd = (s.putBack ids).map Prod.snd ++ s.list := by
  rw [Store.handout, List.map_append, List.map_map, List.map_map]
  congr 1
  exact List.map_id _

/-! ## The entries a requeue goes through -/

theorem pendingIDs_nodup (env : Env) (f : Bytes → Bool) (s : Store) :
    (s.pendingIDs env f).Nodup :=
  (List.perm_insertionSort _ _).nodup_iff.mpr ((env.hkeys_nodup _).filter f)

theorem requeuedIDs_nodup (k : Kind) (cj : Cjson) (env : Env) (inv : Invocation) (s : Store) :
    (inv.requeuedIDs k cj env s).Nodup := by
  cases inv with
  | requeue vt =>
      rw [Invocation.requeuedIDs, Store.requeueIDs]
      split
      · exact SortedSet.nodup_members _
      · exact env.hkeys_nodup _
  | sweep owner hbt =>
      refine List.nodup_append.mpr ⟨SortedSet.nodup_members _, pendingIDs_nodup env _ _, ?_⟩
      rintro id hover id' hdead rfl
      have hheld := Finmap.mem_keys.mp (mem_pendingIDs hdead).1
      exact Store.notMem_of_movedAll hheld hover
  | release owner => exact pendingIDs_nodup env _ _
  | _ => exact List.nodup_nil

/-! ## The batch -/

/-- `items` are pending as a batch that `p` popped, all with deadline `dl`. -/
structure BatchPending (p : PopCall) (items : List Bytes) (dl : Option Time) (s : Store) :
    Prop where
  few : items.length ≤ maxPop
  entries : ∀ i v, items[i]? = some v →
    s.nacked.lookup (ackIDOf p.args.owner p.args.start (i + 1)) = some v
  deadline : ∀ id ∈ ackIDs p.args.owner p.args.start items.length, s.timeouts.score id = dl

/-- The scripts that requeue a batch of `p`: its deadline has passed, or its
owner leaves. -/
def Invocation.PutsBack (env : Env) (p : PopCall) (dl : Option Time) : Invocation → Prop
  | .requeue vt => 0 < vt ∧ ∃ d, dl = some d ∧ d ≤ env.now
  | .sweep _ _ => ∃ d, dl = some d ∧ d ≤ env.now
  | .release owner => owner = p.args.owner
  | _ => False

/-- The items pending under `ids` come in this order, and before all that was
waiting. -/
def KeepsOrder (ids items : List Bytes) (out : List (Option Bytes × Bytes)) : Prop :=
  (out.filter fun e => e.1 ∈ ids.map some).map Prod.snd = items ∧
    out.Pairwise fun e e' => e.1 = none → e'.1 ∉ ids.map some

theorem after_list (cj : Cjson) (s : Store) (hback : inv.PutsBack env p dl) :
    (inv.after .fifo cj env s).list =
      (s.handout (inv.requeuedIDs .fifo cj env s)).map Prod.snd := by
  have hlist := movedAll_list cj _ (requeuedIDs_nodup .fifo cj env inv s) s
  rw [handout_items, ← hlist]
  cases inv with
  | requeue vt => rfl
  | sweep owner hbt =>
      rw [Invocation.after, Store.swept_eq]
      rfl
  | release owner => rfl
  | _ => exact hback.elim

/-- A call that finds none of its ack IDs held pops such a batch. -/
theorem batchPending_popped (hcap : p.want ≤ maxPop) (hfree : s.holds p.ids = false)
    (hpaused : s.paused = none) (hvt : 0 < deadline env p.args.vt) :
    BatchPending p (s.list.take p.want) (some (deadline env p.args.vt))
      (p.effect .fifo env s).2 := by
  have hlen : p.ids.length = p.want := length_ackIDs _ _ _
  have heffect : (p.effect .fifo env s).2.nacked =
        s.nacked.insertAll (p.ids.zip (s.list.take p.want)) ∧
      (p.effect .fifo env s).2.timeouts =
        timed (deadline env p.args.vt)
          ((p.ids.zip (s.list.take p.want)).map Prod.fst) s.timeouts := by
    rw [PopCall.effect, Store.pop, if_neg (by rw [hfree]; exact Bool.false_ne_true),
      if_neg (by rw [hpaused]; exact Bool.false_ne_true), Store.poppedFresh, Store.head, hlen]
    by_cases hnil : s.list.take p.want = []
    · simp only [hnil, if_true, List.zip_nil_right, List.map_nil]
      exact ⟨rfl, (ite_self _).symm⟩
    · simp only [hnil, if_false]
      exact ⟨rfl, rfl⟩
  have htake : (s.list.take p.want).length ≤ p.want := List.length_take_le _ _
  have hkeys : (p.ids.zip (s.list.take p.want)).map Prod.fst =
      ackIDs p.args.owner p.args.start (s.list.take p.want).length := by
    have hle : (s.list.take p.want).length ≤ p.ids.length := hlen ▸ htake
    rw [List.zip_eq_zip_take_min, Nat.min_eq_right hle, List.take_length, List.map_fst_zip,
      PopCall.ids, ackIDs, ← List.map_take, List.take_range, Nat.min_eq_left htake, ackIDs]
    rw [List.length_take, Nat.min_eq_left hle]
  refine ⟨htake.trans hcap, ?_, ?_⟩
  · intro i v hi
    have hpair : (ackIDOf p.args.owner p.args.start (i + 1), v) ∈
        p.ids.zip (s.list.take p.want) := by
      have hlt : i < p.want := (List.getElem?_eq_some_iff.mp hi).1.trans_le htake
      refine List.mem_of_getElem? (i := i) ?_
      have hid : p.ids[i]? = some (ackIDOf p.args.owner p.args.start (i + 1)) := by
        rw [PopCall.ids, ackIDs, List.getElem?_map, List.getElem?_range hlt]
        rfl
      exact List.getElem?_zip_eq_some.mpr ⟨hid, hi⟩
    rw [heffect.1]
    refine Finmap.lookup_insertAll_of_mem ?_ hpair _
    rw [hkeys]
    exact ackIDs_nodup _ _ _
  · intro id hid
    rw [heffect.2, timed, if_pos hvt, SortedSet.score_insertAll, hkeys, if_pos hid]

theorem BatchPending.lookup (h : BatchPending p items dl s) :
    (ackIDs p.args.owner p.args.start items.length).map s.nacked.lookup = items.map some := by
  refine List.ext_getElem? fun i => ?_
  rw [ackIDs, List.map_map, List.getElem?_map, List.getElem?_map]
  cases hi : items[i]? with
  | none =>
      have hlen : items.length ≤ i := List.getElem?_eq_none_iff.mp hi
      rw [List.getElem?_eq_none_iff.mpr (by simpa using hlen)]
      rfl
  | some v =>
      have hlen : i < items.length := (List.getElem?_eq_some_iff.mp hi).1
      rw [List.getElem?_range hlen]
      exact congrArg some (h.entries i v hi)

theorem BatchPending.held (h : BatchPending p items dl s)
    (hid : id ∈ ackIDs p.args.owner p.args.start items.length) :
    (s.nacked.lookup id).isSome = true := by
  have hmem : s.nacked.lookup id ∈ items.map some := h.lookup ▸ List.mem_map_of_mem hid
  obtain ⟨v, _, hv⟩ := List.mem_map.mp hmem
  rw [← hv]
  rfl

theorem BatchPending.sorted (h : BatchPending p items dl s) :
    (ackIDs p.args.owner p.args.start items.length).Pairwise (· < ·) := by
  refine ackIDs_sorted _ _ (h.few.trans_lt ?_)
  decide

/-- Put back in the order of its IDs, a batch is there in reverse. -/
theorem BatchPending.putBack (h : BatchPending p items dl s) :
    (s.putBack (ackIDs p.args.owner p.args.start items.length)).map Prod.snd = items.reverse := by
  have hsnd : ∀ ids, (s.putBack ids).map Prod.snd =
      (ids.map s.nacked.lookup).reverse.filterMap id := by
    intro ids
    rw [Store.putBack, List.map_filterMap, ← List.map_reverse, List.filterMap_map]
    refine List.filterMap_congr fun id _ => ?_
    show ((s.nacked.lookup id).map fun v => (id, v)).map Prod.snd = s.nacked.lookup id
    cases s.nacked.lookup id <;> rfl
  rw [hsnd, h.lookup, ← List.map_reverse, List.filterMap_map]
  exact List.filterMap_some

/-! ## The batch among other entries -/

/-- Deadlines alike sort by ack ID. -/
theorem overdue_sorted (hids : ∀ id ∈ ids, s.timeouts.score id = dl) :
    ((s.overdue env).filter (· ∈ ids)).Pairwise (· ≤ ·) := by
  unfold Store.overdue SortedSet.members
  rw [List.filter_map, List.pairwise_map]
  refine ((SortedSet.sorted _).filter _).imp_of_mem fun {e e'} he he' hle => ?_
  have hrank : ∀ e ∈ (s.timeouts.filter fun e =>
      decide (SortedSet.rank e ≤ env.now)).entries.filter
        ((fun id => decide (id ∈ ids)) ∘ SortedSet.member), some (SortedSet.rank e) = dl := by
    intro e he
    obtain ⟨hentry, hin⟩ := List.mem_filter.mp he
    rw [← hids (SortedSet.member e) (of_decide_eq_true hin)]
    exact (SortedSet.score_eq_some_iff.mpr (List.mem_filter.mp hentry).1).symm
  have hsame : SortedSet.rank e = SortedSet.rank e' :=
    Option.some.inj ((hrank e he).trans (hrank e' he').symm)
  exact (Prod.Lex.le_iff'.mp hle).2 hsame

theorem pendingIDs_sorted (env : Env) (f : Bytes → Bool) (s : Store) :
    (s.pendingIDs env f).Pairwise (· ≤ ·) :=
  List.pairwise_insertionSort _ _

/-- Whatever else a requeue goes through, it goes through the batch in the
order of its IDs. -/
theorem requeuedIDs_filter (hbatch : BatchPending p items dl s) (hback : inv.PutsBack env p dl) :
    (inv.requeuedIDs .fifo cj env s).filter
        (· ∈ ackIDs p.args.owner p.args.start items.length) =
      ackIDs p.args.owner p.args.start items.length := by
  have hnodup := requeuedIDs_nodup .fifo cj env inv s
  have hover : ∀ d, dl = some d → d ≤ env.now →
      ∀ id ∈ ackIDs p.args.owner p.args.start items.length, id ∈ s.overdue env :=
    fun d hd hle id hid => mem_overdue.mpr ⟨d, (hbatch.deadline id hid).trans hd, hle⟩
  -- all of the batch is gone through, in the order of the IDs
  have hall : (∀ id ∈ ackIDs p.args.owner p.args.start items.length,
        id ∈ inv.requeuedIDs .fifo cj env s) ∧
      ((inv.requeuedIDs .fifo cj env s).filter
        (· ∈ ackIDs p.args.owner p.args.start items.length)).Pairwise (· ≤ ·) := by
    cases inv with
    | requeue vt =>
        obtain ⟨hvt, d, hd, hle⟩ := hback
        rw [Invocation.requeuedIDs, Store.requeueIDs, if_pos hvt]
        exact ⟨hover d hd hle, overdue_sorted hbatch.deadline⟩
    | sweep owner hbt =>
        obtain ⟨d, hd, hle⟩ := hback
        refine ⟨fun id hid => List.mem_append_left _ (hover d hd hle id hid), ?_⟩
        rw [Invocation.requeuedIDs, Store.sweptIDs, List.filter_append]
        have hnone : ((s.caughtUp .fifo cj env).pendingIDs env fun id =>
            ownerOf id ∈ s.liveness.sweptDead env owner.name hbt).filter
              (· ∈ ackIDs p.args.owner p.args.start items.length) = [] := by
          refine List.filter_eq_nil_iff.mpr fun id hid hin => ?_
          have hheld := Finmap.mem_keys.mp (mem_pendingIDs hid).1
          exact Store.notMem_of_movedAll hheld (hover d hd hle id (of_decide_eq_true hin))
        rw [hnone, List.append_nil]
        exact overdue_sorted hbatch.deadline
    | release owner =>
        have howner : owner = p.args.owner := hback
        subst howner
        refine ⟨fun id hid => mem_pendingIDs_of (hbatch.held hid) ?_, ?_⟩
        · obtain ⟨i, _, rfl⟩ := mem_ackIDs.mp hid
          exact (ownedBy_ackIDOf _ _ _ _).mpr rfl
        · exact (pendingIDs_sorted env _ s).filter _
    | _ => exact hback.elim
  refine List.Perm.eq_of_pairwise (fun _ _ _ _ hle hge => le_antisymm hle hge) hall.2
    (hbatch.sorted.imp fun h => h.le) ?_
  refine (List.perm_ext_iff_of_nodup (hnodup.filter _) (ackIDs_nodup _ _ _)).mpr fun id => ?_
  rw [List.mem_filter, decide_eq_true_eq]
  exact ⟨fun h => h.2, fun h => ⟨hall.1 id h, h⟩⟩

/-! ## The order -/

theorem putBack_filter (ids ids' : List Bytes) (s : Store) :
    (s.putBack ids').filter (fun e => e.1 ∈ ids) = s.putBack (ids'.filter (· ∈ ids)) := by
  unfold Store.putBack
  rw [List.filter_filterMap, ← List.filter_reverse, List.filterMap_filter]
  refine List.filterMap_congr fun id _ => ?_
  cases s.nacked.lookup id with
  | none => simp
  | some v => by_cases hid : id ∈ ids <;> simp [hid]

theorem handout_filter (ids ids' : List Bytes) (s : Store) :
    ((s.handout ids').filter fun e => e.1 ∈ ids.map some).map Prod.snd =
      (s.putBack (ids'.filter (· ∈ ids))).map Prod.snd := by
  have hwaiting : (s.list.map fun v => ((none : Option Bytes), v)).filter
      (fun e => e.1 ∈ ids.map some) = [] := by
    refine List.filter_eq_nil_iff.mpr fun e he hin => ?_
    obtain ⟨v, _, rfl⟩ := List.mem_map.mp he
    simp at hin
  have hback : ((s.putBack ids').map fun e => (some e.1, e.2)).filter
      (fun e => e.1 ∈ ids.map some) =
        ((s.putBack ids').filter fun e => e.1 ∈ ids).map fun e => (some e.1, e.2) := by
    rw [List.filter_map]
    congr 1
    refine List.filter_congr fun e _ => ?_
    simp
  rw [Store.handout, List.filter_append, hwaiting, List.append_nil, hback, putBack_filter,
    List.map_map]
  rfl

theorem handout_front (ids ids' : List Bytes) (s : Store) :
    (s.handout ids').Pairwise fun e e' => e.1 = none → e'.1 ∉ ids.map some := by
  rw [Store.handout, List.pairwise_append]
  refine ⟨?_, ?_, ?_⟩
  · rw [List.pairwise_map]
    refine List.pairwise_of_forall fun e e' hnone => ?_
    cases hnone
  · rw [List.pairwise_map]
    refine List.pairwise_of_forall fun v v' _ hin => ?_
    obtain ⟨id, _, hid⟩ := List.mem_map.mp hin
    cases hid
  · intro e he e' _ hnone
    obtain ⟨entry, _, rfl⟩ := List.mem_map.mp he
    cases hnone

/-- **A batch that goes back to a list** is handed out again in the order it
had exactly when it reads the same backwards. -/
theorem requeued_batch_in_order_iff (cj : Cjson) (env : Env) (inv : Invocation) (p : PopCall)
    (items : List Bytes) (dl : Option Time) (s : Store) (hbatch : BatchPending p items dl s)
    (hback : inv.PutsBack env p dl) :
    (∀ env' a ids, ids.Nodup → (inv.after .fifo cj env s).paused = none →
      (∀ id ∈ ids, (inv.after .fifo cj env s).nacked.lookup id = none) →
      ((popSingles .fifo env' a ids).exec (inv.after .fifo cj env s)).1 =
        ((s.handout (inv.requeuedIDs .fifo cj env s)).map Prod.snd).take ids.length) ∧
    (KeepsOrder (ackIDs p.args.owner p.args.start items.length) items
        (s.handout (inv.requeuedIDs .fifo cj env s)) ↔ items = items.reverse) := by
  constructor
  · intro env' a ids hids hpaused hfree
    obtain ⟨idle, hpops⟩ := exec_popSingles .fifo env' a ids hids _ hpaused hfree
    rw [hpops, ← after_list cj s hback]
    rfl
  · have horder := handout_filter (ackIDs p.args.owner p.args.start items.length)
      (inv.requeuedIDs .fifo cj env s) s
    rw [requeuedIDs_filter hbatch hback, hbatch.putBack] at horder
    rw [KeepsOrder, horder]
    constructor
    · exact fun h => h.1.symm
    · exact fun h => ⟨h.symm, handout_front _ _ s⟩

/-- A list of two items. -/
def twoWaiting : Store :=
  { Store.empty with list := [[1], [2]] }

/-- A pop of two items, for a second. -/
def pairPop : PopCall :=
  ⟨⟨ownerA, 1, second, 0, false⟩, .batch 2 2⟩

/-- The store after it. -/
def pairPopped : Store :=
  (pairPop.effect .fifo (.plain 0 fun _ => 0) twoWaiting).2

/-- Popped as a batch, requeued and popped one by one, the two come back in
reverse. -/
theorem popped_pair_comes_back_reversed :
    (pairPop.effect .fifo (.plain 0 fun _ => 0) twoWaiting).1 = .popped 0 [[1], [2]] ∧
      ((popSingles .fifo (.plain 1000000 fun _ => 0) ⟨ownerA, 2, second, 0, false⟩
        (ackIDs ownerA 2 2)).exec
          ((requeue .fifo .none (.plain 1000000 fun _ => 0) second).exec pairPopped).2).1 =
        [[2], [1]] := by
  constructor
  · rfl
  · decide

/-- The order of that batch, past its deadline. -/
theorem requeued_pair_in_order_iff :
    KeepsOrder (ackIDs ownerA 1 2) [[1], [2]]
        (pairPopped.handout ((Invocation.requeue second).requeuedIDs .fifo .none
          (.plain 1000000 fun _ => 0) pairPopped)) ↔
      [[1], [2]] = ([[1], [2]] : List Bytes).reverse := by
  have hcap : pairPop.want ≤ maxPop := by decide
  have hvt : 0 < deadline (.plain 0 fun _ => 0) pairPop.args.vt := by decide
  have hbatch : BatchPending pairPop [[1], [2]] (some second) pairPopped :=
    batchPending_popped (s := twoWaiting) hcap rfl rfl hvt
  exact (requeued_batch_in_order_iff .none (.plain 1000000 fun _ => 0) (.requeue second) pairPop
    [[1], [2]] (some second) pairPopped hbatch ⟨by decide, second, rfl, by decide⟩).2

end Redisq.Model
