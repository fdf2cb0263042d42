import Redisq.Library.Guess
import Redisq.Verified.Attempts
import Redisq.Verified.Handover
import Redisq.Verified.InTurn
import Redisq.Verified.Paused

/-!
# How batch calls are sized

One consumer makes batch calls, one after another, as long as a call says that
items remain.  A call's two counters are a guess of the queue's length
(`Guess`), and a call is a round of taking by it (`guesses_batchCalls`).  So
the guess costs at most one call, and a burst like the last one takes one call
(`batch_sizing`).
-/

namespace Redisq.Model

/-! ## A call from start to end -/

namespace World

/-- The world while call `c` is on, its object in state `q`. -/
def during (w : World) (c : ℕ) (call : Call) (q : QueueObject) : World :=
  { w with
    objects := Function.update w.objects call.owner q
    calls := Function.update w.calls c (some call) }

/-- A batch call with `slots` free slots, when nothing comes between its
steps. -/
def batchEvents (w : World) (c : ℕ) (o : Owner) (consumer : Bool) (slots : ℕ+) (env : Env) :
    List Event :=
  [.start c o consumer (.dequeueBatch slots), .proceed c, .proceed c, .proceed c, .proceed c,
    .run w.sent.length env, .read c w.log.length, .proceed c, .proceed c]

/-- What it makes of the world. -/
def dequeueBatch (k : Kind) (cj : Cjson) (c : ℕ) (o : Owner) (consumer : Bool) (slots : ℕ+)
    (env : Env) (w : World) : World :=
  (w.batchEvents c o consumer slots env).foldl (World.step k cj) w

/-- The call gets `items` and hears that `remaining` items are left. -/
def Took (w w' : World) (items : List Bytes) (remaining : ℕ) : Prop :=
  w'.log = w.log ++ [(w.sent.length, .batch (.popped remaining items))]

/-- The next batch call of `o` runs undisturbed: `o` is open and keeps no
failed reservation, nothing is pending under IDs that are not reserved yet,
the queue is not paused and its key does not expire, and the calls from number
`c` on are new. -/
structure Ready (w : World) (o : Owner) (c : ℕ) (env : ℕ → Env) : Prop where
  opened : (w.objects o).closed = false
  unkept : (w.objects o).retryPop = none
  unused : ∀ start i, (w.objects o).ackSeq < start →
    w.store.nacked.lookup (ackIDOf o start i) = none
  unpaused : w.store.paused = none
  lasting : ∀ i, w.store.expiry.any (fun expiry => expiry < (env i).nowms) = false
  new : ∀ c' ≥ c, w.calls c' = none

end World

/-- The counters a batch call is sized by. -/
def QueueObject.guess (q : QueueObject) : Guess := ⟨q.popLen, q.popRun⟩

/-- The object after a batch call that took `taken` items and left
`remaining`. -/
def QueueObject.counted (taken remaining : ℕ) (q : QueueObject) : QueueObject :=
  { q with
    ackSeq := q.ackSeq + 1
    popLen := (q.guess.after taken remaining).len
    popRun := (q.guess.after taken remaining).run }

theorem CallKind.ask_coe (q : QueueObject) (slots : ℕ+) :
    (CallKind.ask q (.dequeueBatch slots) : ℕ) =
      q.guess.want (CallKind.limit (.dequeueBatch slots)) := by
  have hmin : ∀ a b : ℕ+, ((min a b : ℕ+) : ℕ) = min (a : ℕ) (b : ℕ) := fun _ _ => rfl
  have hmax : ∀ a b : ℕ+, ((max a b : ℕ+) : ℕ) = max (a : ℕ) (b : ℕ) := fun _ _ => rfl
  have hlen : max 1 ((q.popLen.toPNat' : ℕ+) : ℕ) = max 1 q.popLen := by
    rw [Nat.toPNat'_coe]
    split <;> omega
  rw [CallKind.ask, hmin, hmax, Guess.want]
  show min _ (max 1 ((q.popLen.toPNat' : ℕ+) : ℕ)) = min _ (max 1 q.popLen)
  rw [hlen]
  rfl

/-! ## The pop of a batch call -/

section Pop

variable {k : Kind} {env : Env} {s : Store} {p : PopCall}

theorem Store.len_eq (k : Kind) (s : Store) : s.len k = (s.items k).length := by
  cases k with
  | fifo => rfl
  | prio => simp [Store.len, Store.items, SortedSet.members]

/-- A pop of new IDs, of a queue that is not paused, takes from the head. -/
theorem PopCall.effect_fresh (k : Kind) (env : Env) (hfree : s.holds p.ids = false)
    (hpaused : s.paused = none) :
    (p.effect k env s).1 =
        .popped ((s.items k).length - p.want) ((s.items k).take p.want) ∧
      (p.effect k env s).2.items k = (s.items k).drop p.want := by
  have hlength : p.ids.length = p.want := length_ackIDs _ _ _
  have heffect : p.effect k env s = s.poppedFresh k env p.args p.ids p.slots := by
    rw [PopCall.effect, Store.pop, if_neg, if_neg]
    · simp [hpaused]
    · simp [hfree]
  obtain ⟨hlist, hzset, _⟩ := Store.poppedFresh_queue (k := k) (s := s) env p.args p.ids p.slots
  have hitems : (p.effect k env s).2.items k = (s.items k).drop p.want := by
    rw [heffect, ← hlength]
    cases k with
    | fifo => rw [Store.items, hlist]; rfl
    | prio =>
        rw [Store.items, hzset, Store.items, SortedSet.members, SortedSet.members, ← List.map_drop,
          ← List.map_drop]
        rfl
  refine ⟨?_, hitems⟩
  have hlen : (p.effect k env s).2.len k = (s.items k).length - p.want := by
    rw [Store.len_eq, hitems, List.length_drop]
  rw [← hlen, heffect, Store.poppedFresh, Store.head_eq, hlength]
  rfl

theorem Store.evicted_of_lasting (h : s.expiry.any (fun expiry => expiry < env.nowms) = false) :
    s.evicted env = s := by
  rw [Store.evicted, if_neg]
  simp [h]

end Pop

namespace World

variable {k : Kind} {cj : Cjson} {w : World} {c : ℕ} {call : Call} {q : QueueObject} {t : Turn}
  {ev : Event}

/-! ## The steps of a call -/

@[simp] theorem during_object (w : World) (c : ℕ) (call : Call) (q : QueueObject) :
    (w.during c call q).objects call.owner = q := Function.update_self ..

@[simp] theorem during_call (w : World) (c : ℕ) (call : Call) (q : QueueObject) :
    (w.during c call q).calls c = some call := Function.update_self ..

/-- A turn of the call that is on. -/
theorem take_during (w : World) (c : ℕ) (call : Call) (q : QueueObject) (t : Turn) :
    (w.during c call q).take c call t =
      { w with sent := w.sent ++ (t.sends.map fun inv => (⟨some c, inv⟩ : Sent)).toList }.during c
        { call with stage := t.stage } t.object := by
  simp [take, during]

theorem proceed_during (k : Kind) (cj : Cjson) (h : call.proceed q w.sent.length = some t) :
    (w.during c call q).step k cj (.proceed c) =
      { w with sent := w.sent ++ (t.sends.map fun inv => (⟨some c, inv⟩ : Sent)).toList }.during c
        { call with stage := t.stage } t.object := by
  have hturn : (w.during c call q).turnOf (.proceed c) = some (c, call, t) := by
    have hproceed : call.proceed ((w.during c call q).objects call.owner)
        (w.during c call q).sent.length = some t := by
      rw [during_object]
      exact h
    simp only [turnOf, during_call, hproceed, Option.bind_eq_bind, Option.bind_some,
      Option.pure_def]
  show (w.during c call q).turn (.proceed c) = _
  rw [turn, hturn]
  exact take_during w c call q t

/-- A step of its own that sends nothing. -/
theorem proceed_during_quiet (k : Kind) (cj : Cjson) {stage : Stage} {q' : QueueObject}
    (h : call.proceed q w.sent.length = some ⟨q', stage, none⟩) :
    (w.during c call q).step k cj (.proceed c) = w.during c { call with stage := stage } q' := by
  rw [proceed_during k cj h]
  simp

theorem proceed_during_none (k : Kind) (cj : Cjson) (h : call.proceed q w.sent.length = none) :
    (w.during c call q).step k cj (.proceed c) = w.during c call q := by
  have hturn : (w.during c call q).turnOf (.proceed c) = none := by
    have hproceed : call.proceed ((w.during c call q).objects call.owner)
        (w.during c call q).sent.length = none := by
      rw [during_object]
      exact h
    simp only [turnOf, during_call, hproceed, Option.bind_eq_bind, Option.bind_some,
      Option.bind_none]
  show (w.during c call q).turn (.proceed c) = _
  rw [turn, hturn]

theorem read_during (k : Kind) (cj : Cjson) {i j : ℕ} {reply : Reply} {stage : Stage}
    (hlog : w.log[j]? = some (i, reply)) (h : call.read q i reply = some ⟨q, stage, none⟩) :
    (w.during c call q).step k cj (.read c j) = w.during c { call with stage := stage } q := by
  have hturn : (w.during c call q).turnOf (.read c j) = some (c, call, ⟨q, stage, none⟩) := by
    have hread : call.read ((w.during c call q).objects call.owner) i reply =
        some ⟨q, stage, none⟩ := by
      rw [during_object]
      exact h
    have hlog' : (w.during c call q).log[j]? = some (i, reply) := hlog
    simp only [turnOf, during_call, hlog', hread, Option.bind_eq_bind, Option.bind_some,
      Option.pure_def]
  show (w.during c call q).turn (.read c j) = _
  rw [turn, hturn]
  exact (take_during w c call q _).trans (by simp)

theorem start_during (k : Kind) (cj : Cjson) (call : Call)
    (hopen : (w.objects call.owner).closed = false)
    (hnew : w.calls c = none) {stage : Stage}
    (h : Call.begin (w.objects call.owner) w.sent.length
      ⟨call.owner, call.consumer, call.kind, .ended⟩ = ⟨w.objects call.owner, stage, none⟩) :
    w.step k cj (.start c call.owner call.consumer call.kind) =
      w.during c { call with stage := stage } (w.objects call.owner) := by
  have hturn : w.turnOf (.start c call.owner call.consumer call.kind) =
      some (c, ⟨call.owner, call.consumer, call.kind, .ended⟩,
        ⟨w.objects call.owner, stage, none⟩) := by
    simp only [turnOf, hopen, hnew, Option.isSome_none, Bool.false_eq_true, or_self, if_false, h]
  show w.turn _ = _
  rw [turn, hturn]
  simp [take, during]

/-! ## The call -/

section Call

variable {o : Owner} {consumer : Bool} {slots : ℕ+} {env : Env} {envs : ℕ → Env}

/-- The pop a batch call of object `q` sends. -/
def batchPop (o : Owner) (consumer : Bool) (slots : ℕ+) (q : QueueObject) : PopCall :=
  Call.popCall ⟨q.ackSeq + 1, CallKind.ask q (.dequeueBatch slots)⟩ q.vt q.hbt
    ⟨o, consumer, .dequeueBatch slots, .ended⟩

theorem batchPop_want (o : Owner) (consumer : Bool) (slots : ℕ+) (q : QueueObject) :
    (batchPop o consumer slots q).want = q.guess.want (CallKind.limit (.dequeueBatch slots)) := by
  rw [← CallKind.ask_coe]
  exact (Call.popCall_under (Call.ask_le_limit q (.dequeueBatch slots)) q.vt q.hbt).2.2

/-- Its reply is that of the batch pop, however many items it is for. -/
theorem batchPop_exec (k : Kind) (env : Env) (o : Owner) (consumer : Bool) (slots : ℕ+)
    (q : QueueObject) (s : Store) :
    ((batchPop o consumer slots q).run k env).exec s =
      (.batch ((batchPop o consumer slots q).effect k env s).1,
        ((batchPop o consumer slots q).effect k env s).2) := by
  rw [popCall_exec]
  simp only [batchPop, Call.popCall]
  by_cases hone : CallKind.ask q (.dequeueBatch slots) = 1
  · simp only [hone, if_true]
  · simp only [hone, if_false]

/-- The world after the pop of call `c` was sent and ran. -/
def ranPop (w : World) (c : ℕ) (p : PopCall) (reply : Reply) (s : Store) : World :=
  { w with
    sent := w.sent ++ [⟨some c, .pop p⟩]
    log := w.log ++ [(w.sent.length, reply)]
    store := s }

/-- A batch call of an object that is ready, from start to end. -/
theorem dequeueBatch_eq (k : Kind) (cj : Cjson) (consumer : Bool) (slots : ℕ+)
    (h : w.Ready o c envs) (i : ℕ) {items : List Bytes} {remaining : ℕ} {s : Store}
    (hexec : ScriptRun.exec k cj ⟨.pop (batchPop o consumer slots (w.objects o)), envs i⟩ w.store =
      (.batch (.popped remaining items), s)) :
    w.dequeueBatch k cj c o consumer slots (envs i) =
      (w.ranPop c (batchPop o consumer slots (w.objects o))
        (.batch (.popped remaining items)) s).during c
        ⟨o, consumer, .dequeueBatch slots, .ended⟩
        ((w.objects o).counted items.length remaining) := by
  generalize hq : w.objects o = q at hexec ⊢
  have hslot : q.retryPop = none := hq ▸ h.unkept
  let want := CallKind.ask q (.dequeueBatch slots)
  let call := fun stage : Stage => (⟨o, consumer, .dequeueBatch slots, stage⟩ : Call)
  let r : Reservation := ⟨q.ackSeq + 1, want⟩
  let q' : QueueObject := { q with ackSeq := q.ackSeq + 1 }
  let p := batchPop o consumer slots q
  let w₁ : World := { w with sent := w.sent ++ [⟨some c, .pop p⟩] }
  let w₂ := w.ranPop c p (.batch (.popped remaining items)) s
  have hstart : w.step k cj (.start c o consumer (.dequeueBatch slots)) =
      w.during c (call (.swapping want)) q := by
    have hstep := start_during k cj (call .ended) h.opened (h.new c le_rfl) rfl
    rw [hq] at hstep
    exact hstep
  have hswap : (w.during c (call (.swapping want)) q).step k cj (.proceed c) =
      w.during c (call (.adding want)) q := by
    refine proceed_during_quiet k cj ?_
    have hsame : { q with retryPop := none } = q := by
      rw [← hslot]
    simp only [Call.proceed, call, hslot]
    rw [hsame]
  have hadd : (w.during c (call (.adding want)) q).step k cj (.proceed c) =
      w.during c (call (.reserved r)) q' := proceed_during_quiet k cj rfl
  have htime : (w.during c (call (.reserved r)) q').step k cj (.proceed c) =
      w.during c (call (.timed r q'.vt)) q' := proceed_during_quiet k cj rfl
  have hsend : (w.during c (call (.timed r q'.vt)) q').step k cj (.proceed c) =
      w₁.during c (call (.popping r w.sent.length)) q' := by
    have hproceed : (call (.timed r q'.vt)).proceed q' w.sent.length =
        some ⟨q', .popping r w.sent.length, some (.pop p)⟩ := rfl
    exact proceed_during k cj hproceed
  have hrun : (w₁.during c (call (.popping r w.sent.length)) q').step k cj
      (.run w.sent.length (envs i)) = w₂.during c (call (.popping r w.sent.length)) q' := by
    have hsent : (w₁.during c (call (.popping r w.sent.length)) q').sent[w.sent.length]? =
        some ⟨some c, .pop p⟩ := List.getElem?_concat_length
    have hstore : (w₁.during c (call (.popping r w.sent.length)) q').store = w.store := rfl
    simp only [step, hsent, hstore, ScriptRun.reply, Model.step]
    rw [hexec]
    rfl
  have hread : (w₂.during c (call (.popping r w.sent.length)) q').step k cj
      (.read c w.log.length) = w₂.during c (call (.accounting items.length remaining)) q' := by
    have hlog : w₂.log[w.log.length]? =
        some (w.sent.length, .batch (.popped remaining items)) := List.getElem?_concat_length
    apply read_during k cj hlog
    simp [Call.read, call]
  simp only [dequeueBatch, batchEvents, List.foldl_cons, List.foldl_nil, hstart, hswap, hadd,
    htime, hsend, hrun, hread]
  -- what the reply says is stored in one or two steps
  have hdone : ∀ q'' : QueueObject, (w₂.during c (call .ended) q'').step k cj (.proceed c) =
      w₂.during c (call .ended) q'' := fun q'' => proceed_during_none k cj rfl
  have hsize : ∀ (q'' : QueueObject) len, (w₂.during c (call (.sizing len)) q'').step k cj
      (.proceed c) = w₂.during c (call .ended) { q'' with popLen := len } := fun q'' len =>
    proceed_during_quiet k cj rfl
  by_cases hleft : 0 < remaining
  · have hcount : (w₂.during c (call (.accounting items.length remaining)) q').step k cj
        (.proceed c) = w₂.during c (call (.sizing remaining))
          { q' with popRun := q'.popRun + items.length } := by
      refine proceed_during_quiet k cj ?_
      simp only [Call.proceed, call, if_pos hleft]
    rw [hcount, hsize, QueueObject.counted, Guess.after, if_pos hleft]
    rfl
  · by_cases hrun : 0 < q'.popRun + items.length
    · have hcount : (w₂.during c (call (.accounting items.length remaining)) q').step k cj
          (.proceed c) = w₂.during c (call (.sizing (q'.popRun + items.length)))
            { q' with popRun := 0 } := by
        refine proceed_during_quiet k cj ?_
        simp only [Call.proceed, call, if_neg hleft, if_pos hrun]
      rw [hcount, hsize, QueueObject.counted, Guess.after, if_neg hleft]
      rw [if_pos (show 0 < q.guess.run + items.length from hrun)]
      rfl
    · have hcount : (w₂.during c (call (.accounting items.length remaining)) q').step k cj
          (.proceed c) = w₂.during c (call .ended) { q' with popRun := 0 } := by
        refine proceed_during_quiet k cj ?_
        simp only [Call.proceed, call, if_neg hleft, if_neg hrun]
      rw [hcount, hdone, QueueObject.counted, Guess.after, if_neg hleft]
      rw [if_neg (show ¬0 < q.guess.run + items.length from hrun)]
      rfl

/-- What a ready object's batch call makes of the world: it takes the items it
is after from the head, and leaves the object ready for the next call. -/
structure Served (k : Kind) (w w' : World) (o : Owner) (c : ℕ) (slots : ℕ+) (envs : ℕ → Env) :
    Prop where
  ready : w'.Ready o (c + 1) envs
  took : w.Took w'
    ((w.store.items k).take ((w.objects o).guess.want (CallKind.limit (.dequeueBatch slots))))
    (w'.store.len k)
  left : w'.store.items k = (w.store.items k).drop
    ((w.objects o).guess.want (CallKind.limit (.dequeueBatch slots)))
  guess : ((w'.objects o).guess, w'.store.len k) =
    Guess.round (CallKind.limit (.dequeueBatch slots)) ((w.objects o).guess, w.store.len k)

theorem Ready.holds (h : w.Ready o c envs) :
    w.store.holds (batchPop o consumer slots (w.objects o)).ids = false := by
  refine Store.holds_eq_false.mpr fun a ha => ?_
  obtain ⟨j, _, rfl⟩ := mem_ackIDs.mp ha
  exact h.unused _ _ (Nat.lt_succ_self _)

theorem Ready.served (k : Kind) (cj : Cjson) (consumer : Bool) (slots : ℕ+)
    (h : w.Ready o c envs) (i : ℕ) :
    w.Served k (w.dequeueBatch k cj c o consumer slots (envs i)) o c slots envs := by
  let p := batchPop o consumer slots (w.objects o)
  let want := (w.objects o).guess.want (CallKind.limit (.dequeueBatch slots))
  have hwant : p.want = want := batchPop_want o consumer slots (w.objects o)
  have heffect := p.effect_fresh k (envs i) h.holds h.unpaused
  rw [hwant] at heffect
  have hlen : (p.effect k (envs i) w.store).2.len k = (w.store.items k).length - want := by
    rw [Store.len_eq, heffect.2, List.length_drop]
  have hexec : ScriptRun.exec k cj ⟨.pop p, envs i⟩ w.store =
      (.batch (.popped ((w.store.items k).length - want) ((w.store.items k).take want)),
        (p.effect k (envs i) w.store).2) := by
    rw [ScriptRun.exec, Store.evicted_of_lasting (h.lasting i), Invocation.script, batchPop_exec,
      heffect.1]
  rw [dequeueBatch_eq k cj consumer slots h i hexec, ← hlen]
  refine ⟨⟨?_, ?_, ?_, ?_, ?_, ?_⟩, rfl, heffect.2, ?_⟩
  · rw [during_object]
    exact h.opened
  · rw [during_object]
    exact h.unkept
  · intro start j hstart
    rw [during_object] at hstart
    have hlater : (w.objects o).ackSeq + 1 < start := hstart
    show (p.effect k (envs i) w.store).2.nacked.lookup _ = none
    rw [p.effect_nacked, Finmap.lookup_insertAll_of_notMem]
    · exact h.unused start j (by omega)
    · intro hmem
      obtain ⟨⟨a, v⟩, hq, rfl⟩ := List.mem_map.mp hmem
      obtain ⟨j', _, hid⟩ := mem_ackIDs.mp (Store.mem_taken hq).1
      have heq := (ackIDOf_injective hid).2.1
      have hstart' : p.args.start = (w.objects o).ackSeq + 1 := rfl
      omega
  · exact (p.effect_paused k (envs i) w.store).trans h.unpaused
  · intro j
    have hexpiry := (p.effect_frame k (envs i) w.store).2.1
    show (p.effect k (envs i) w.store).2.expiry.any _ = false
    rw [hexpiry]
    exact h.lasting j
  · intro c' hc'
    have hne : c' ≠ c := by omega
    show Function.update w.calls c _ c' = none
    rw [Function.update_of_ne hne]
    exact h.new c' (by omega)
  · rw [during_object]
    show (_, (p.effect k (envs i) w.store).2.len k) = _
    rw [Guess.round, hlen, Store.len_eq, List.length_take]
    rfl

/-! ## One call after another -/

/-- `i` batch calls, the first of them number `c`. -/
def batchCalls (k : Kind) (cj : Cjson) (c : ℕ) (o : Owner) (consumer : Bool) (slots : ℕ+)
    (envs : ℕ → Env) (w : World) : ℕ → World
  | 0 => w
  | i + 1 =>
      (batchCalls k cj c o consumer slots envs w i).dequeueBatch k cj (c + i) o consumer slots
        (envs i)

/-- The items the call on world `w` is after. -/
def headOf (k : Kind) (o : Owner) (slots : ℕ+) (w : World) : List Bytes :=
  (w.store.items k).take ((w.objects o).guess.want (CallKind.limit (.dequeueBatch slots)))

theorem Ready.batchCalls (k : Kind) (cj : Cjson) (consumer : Bool) (slots : ℕ+)
    (h : w.Ready o c envs) (i : ℕ) :
    (w.batchCalls k cj c o consumer slots envs i).Ready o (c + i) envs := by
  induction i with
  | zero => exact h
  | succ i ih => exact (ih.served k cj consumer slots i).ready

/-- Each call is a round by the guess that the last one left. -/
theorem guesses_batchCalls (k : Kind) (cj : Cjson) (consumer : Bool) (slots : ℕ+)
    (h : w.Ready o c envs) (i : ℕ) :
    (((w.batchCalls k cj c o consumer slots envs i).objects o).guess,
        (w.batchCalls k cj c o consumer slots envs i).store.len k) =
      (Guess.round (CallKind.limit (.dequeueBatch slots)))^[i]
        ((w.objects o).guess, w.store.len k) := by
  induction i with
  | zero => rfl
  | succ i ih =>
      rw [Function.iterate_succ_apply', ← ih]
      exact ((h.batchCalls k cj consumer slots i).served k cj consumer slots i).guess

/-- What the calls took and what is left is the queue. -/
theorem items_batchCalls (k : Kind) (cj : Cjson) (consumer : Bool) (slots : ℕ+)
    (h : w.Ready o c envs) (n : ℕ) :
    ((List.range n).flatMap fun i =>
        (w.batchCalls k cj c o consumer slots envs i).headOf k o slots) ++
      (w.batchCalls k cj c o consumer slots envs n).store.items k = w.store.items k := by
  induction n with
  | zero => rfl
  | succ n ih =>
      have hleft := ((h.batchCalls k cj consumer slots n).served k cj consumer slots n).left
      rw [List.range_succ, List.flatMap_append, List.flatMap_singleton, List.append_assoc]
      rw [← ih]
      congr 1
      show (w.batchCalls k cj c o consumer slots envs n).headOf k o slots ++
        ((w.batchCalls k cj c o consumer slots envs n).dequeueBatch k cj (c + n) o consumer slots
          (envs n)).store.items k = _
      rw [hleft]
      exact List.take_append_drop _ _

theorem headOf_ne_nil (h : 0 < w.store.len k) : w.headOf k o slots ≠ [] := by
  have hwant := (w.objects o).guess.want_pos (CallKind.limit (.dequeueBatch slots)).pos
  rw [Store.len_eq] at h
  intro hnil
  have hlength := congrArg List.length hnil
  rw [headOf, List.length_take, List.length_nil] at hlength
  omega

/-- **A guess costs one call at most.**  Object `o` makes batch calls on a
queue that nothing else changes, whatever its counters are.  The calls until
one says that nothing remains are at most one more than it takes to get all
items but one; each takes an item or more, and together they take the queue in
order.  If no item was counted before, a later burst of up to as many items is
taken in one call, however often the empty queue was looked at. -/
theorem batch_sizing (k : Kind) (cj : Cjson) (consumer : Bool) (slots : ℕ+)
    (h : w.Ready o c envs) (hitems : 0 < w.store.len k) :
    ∃ n, 0 < n ∧
      n ≤ 1 + (w.store.len k - 1) ⌈/⌉ (CallKind.limit (.dequeueBatch slots) : ℕ) ∧
      (∀ i, (w.batchCalls k cj c o consumer slots envs i).Took
        (w.batchCalls k cj c o consumer slots envs (i + 1))
        ((w.batchCalls k cj c o consumer slots envs i).headOf k o slots)
        ((w.batchCalls k cj c o consumer slots envs (i + 1)).store.len k)) ∧
      (∀ i < n, (w.batchCalls k cj c o consumer slots envs i).headOf k o slots ≠ []) ∧
      (∀ i, 0 < (w.batchCalls k cj c o consumer slots envs i).store.len k ↔ i < n) ∧
      ((List.range n).flatMap fun i =>
        (w.batchCalls k cj c o consumer slots envs i).headOf k o slots) = w.store.items k ∧
      ((w.objects o).popRun = 0 → ∀ m ≥ n, ∀ (w' : World) (c' : ℕ) (envs' : ℕ → Env),
        w'.Ready o c' envs' →
        (w'.objects o).guess = ((w.batchCalls k cj c o consumer slots envs m).objects o).guess →
        w'.store.len k ≤ min (w.store.len k) (CallKind.limit (.dequeueBatch slots)) →
        w'.Took (w'.dequeueBatch k cj c' o consumer slots (envs' 0)) (w'.store.items k) 0) := by
  let limit : ℕ := CallKind.limit (.dequeueBatch slots)
  have hlimit : 0 < limit := (CallKind.limit (.dequeueBatch slots)).pos
  have hguesses := guesses_batchCalls k cj consumer slots h
  have hleft : ∀ i, 0 < (w.batchCalls k cj c o consumer slots envs i).store.len k ↔
      i < Guess.rounds limit ((w.objects o).guess, w.store.len k) := by
    intro i
    have hzero := Guess.left_eq_zero_iff (i := i) hlimit
      (show 0 < (((w.objects o).guess, w.store.len k) : Guess × ℕ).2 from hitems)
    rw [← hguesses i] at hzero
    rw [Nat.pos_iff_ne_zero, Ne, hzero, not_le]
  refine ⟨Guess.rounds limit ((w.objects o).guess, w.store.len k), ?_, ?_, ?_, ?_, hleft, ?_, ?_⟩
  · exact (hleft 0).mp hitems
  · exact Guess.rounds_le hlimit _
  · intro i
    exact ((h.batchCalls k cj consumer slots i).served k cj consumer slots i).took
  · intro i hi
    exact headOf_ne_nil ((hleft i).mpr hi)
  · have hempty : (w.batchCalls k cj c o consumer slots envs
        (Guess.rounds limit ((w.objects o).guess, w.store.len k))).store.items k = [] := by
      rw [← List.length_eq_zero_iff, ← Store.len_eq]
      by_contra hpos
      exact lt_irrefl _ ((hleft _).mp (Nat.pos_of_ne_zero hpos))
    have hall := items_batchCalls k cj consumer slots h
      (Guess.rounds limit ((w.objects o).guess, w.store.len k))
    rw [hempty, List.append_nil] at hall
    exact hall
  · intro hrun m hm w' c' envs' hready hguess hburst
    have hdrained : ((w.batchCalls k cj c o consumer slots envs m).objects o).guess =
        ⟨(w.objects o).popRun + w.store.len k, 0⟩ :=
      congrArg Prod.fst ((hguesses m).trans (Guess.drained hlimit hitems hm))
    have hlen : (w'.objects o).guess.len = w.store.len k := by
      rw [hguess, hdrained, hrun, Nat.zero_add]
    have hwant : w'.store.len k ≤ (w'.objects o).guess.want limit := by
      rw [Guess.want, hlen]
      exact le_min (hburst.trans (min_le_right _ _))
        ((hburst.trans (min_le_left _ _)).trans (le_max_right _ _))
    have hserved := hready.served k cj consumer slots 0
    have htook := hserved.took
    rw [Store.len_eq] at hwant
    rw [Store.len_eq, hserved.left, List.take_of_length_le hwant,
      List.drop_of_length_le hwant] at htook
    exact htook

end Call

end World

/-- In a run nothing is pending under IDs that are not reserved yet, unless
it was made pending by hand. -/
theorem worldAt_unused {k : Kind} {cj : Cjson} {e : ℕ → Event} {o : Owner} {start i : ℕ} (n : ℕ)
    (hprepare : ∀ m item vt env,
      scriptRuns k cj e m ≠ some ⟨.prepareAck (ackIDOf o start i) item vt, env⟩)
    (hstart : ((worldAt k cj e n).objects o).ackSeq < start) :
    (worldAt k cj e n).store.nacked.lookup (ackIDOf o start i) = none := by
  rw [worldAt_store]
  refine Option.eq_none_iff_forall_ne_some.mpr fun v hv => ?_
  obtain ⟨m, hmn, p, env, htakes⟩ := taken_of_pending hprepare hv
  obtain ⟨_, _, hid⟩ := mem_ackIDs.mp htakes.mem_ids
  obtain ⟨howner, hstart', _⟩ := ackIDOf_injective hid
  obtain ⟨msg, hmsg, hinv⟩ := sent_of_run k cj e htakes.1
  have hmsg' := mem_sent_of_le k cj e hmn.le hmsg
  have hle := (worldAt_reserved k cj e n).numbered o start _
    (.sent msg p hmsg' hinv ⟨howner.symm, hstart'.symm, rfl⟩)
  omega

/-- A queue of three items, and an object that expects one. -/
def threeItems : World :=
  { World.init with
    objects := fun _ => { QueueObject.new with popLen := 0 }
    store := { Store.empty with list := [[97], [98], [99]] } }

theorem batch_sizing_threeItems :
    ∃ n, n ≤ 2 ∧ ((List.range n).flatMap fun i =>
      (threeItems.batchCalls .fifo .none 0 ownerA false 2 (fun _ => .plain 0 fun _ => 0) i).headOf
        .fifo ownerA 2) = [[97], [98], [99]] := by
  have hready : threeItems.Ready ownerA 0 fun _ => .plain 0 fun _ => 0 := by
    refine ⟨rfl, rfl, fun _ _ _ => ?_, rfl, fun _ => rfl, fun _ _ => rfl⟩
    exact Finmap.lookup_empty _
  obtain ⟨n, _, hn, _, _, _, hall, _⟩ :=
    World.batch_sizing .fifo .none false 2 hready (by decide)
  exact ⟨n, hn, hall⟩

end Redisq.Model
