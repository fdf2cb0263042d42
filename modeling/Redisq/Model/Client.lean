import Mathlib.Data.PNat.Basic
import Redisq.Model.Run

/-!
# Queue objects and their calls

The Go side: queue objects of one key, in any number of processes, and the
calls on them.  A call goes step by step, one atomic operation of the source
a step, and steps of different calls interleave in any way.  What a call
sends stays sent: a copy of it may run at any later moment, also after the
call failed or the object was closed.  A call that waits for a reply gets one
of some copy that ran, or an error.

Object settings and the steps of the pops are as in `reserve`, `dequeueOne`
and `dequeueBatch`; the other calls send one script each.  Scripts that read
nothing of the object beyond their arguments are sent by `issue`.
-/

namespace Redisq.Model

/-! ## Objects -/

/-- `reservation`: the ack IDs 1 to `want` under `start`, a `Uint64` that does
not wrap here. -/
structure Reservation where
  start : ℕ
  want : ℕ+
deriving DecidableEq

/-- What a queue object keeps: its settings, the reservations, how its batch
pops are sized, the requeue callback, which is that of its notification,
whether that is stopped, and whether the object is closed.  Go's `ackSeq` is a
`Uint64` and wraps after 2⁶⁴ reservations; here it does not. -/
structure QueueObject where
  visibilityTimeout : Duration
  heartbeatTimeout : Duration
  ackSeq : ℕ
  retryPop : Option Reservation
  popLen : ℕ
  popRun : ℕ
  onRequeue : Bool
  stopped : Bool
  closed : Bool
deriving DecidableEq

/-- `maxPop`. -/
def maxPop : ℕ+ := 1000

/-- `newQueueBase`. -/
def QueueObject.new : QueueObject where
  visibilityTimeout := 300 * 1000000000
  heartbeatTimeout := 30 * 1000000000
  ackSeq := 0
  retryPop := none
  popLen := maxPop
  popRun := 0
  onRequeue := false
  stopped := false
  closed := false

/-- `vt()`. -/
def QueueObject.vt (q : QueueObject) : Time := seconds (max 0 q.visibilityTimeout)

/-- `hbt()`. -/
def QueueObject.hbt (q : QueueObject) : Time := seconds (max 0 q.heartbeatTimeout)

/-- `SetHeartbeatTimeout`, with five seconds for `minHeartbeat`. -/
def QueueObject.setHeartbeatTimeout (d : Duration) (q : QueueObject) : QueueObject :=
  { q with heartbeatTimeout := if 0 < d then max d 5000000000 else d }

/-! ## Calls -/

/-- The calls on a queue object that read its state: the pops, with the
caller's free slots, one run of the sweep, `RequeueNackedItems` and `Close`. -/
inductive CallKind
  | dequeue
  | dequeueBatch (slots : ℕ+)
  | tick
  | requeue
  | close
deriving DecidableEq

/-- Up to how many items a pop call can take. -/
def CallKind.limit : CallKind → ℕ+
  | .dequeueBatch slots => min slots maxPop
  | _ => 1

/-- How many items a pop call asks for. -/
def CallKind.ask (q : QueueObject) : CallKind → ℕ+
  | .dequeueBatch slots => min (min slots maxPop) (max 1 q.popLen.toPNat')
  | _ => 1

/-- Whether a call tells the callback how many items went back: the sweep and
`Close` do, `RequeueNackedItems` drops the number. -/
def CallKind.tells : CallKind → Bool
  | .tick => true
  | .close => true
  | _ => false

/-- Where a call is: in `reserve`, reading its arguments, waiting for a reply
to what it sent, or storing what the reply says about the queue's length. -/
inductive Stage
  | swapping (want : ℕ+)
  | puttingBack (want : ℕ+) (r : Reservation)
  | adding (want : ℕ+)
  | reserved (r : Reservation)
  | timed (r : Reservation) (vt : Time)
  | popping (r : Reservation) (sent : ℕ)
  | accounting (taken remaining : ℕ)
  | sizing (popLen : ℕ)
  | requeueing (sent : ℕ)
  | ended
deriving DecidableEq

/-- A call on object `owner`, by a consumer of a distributed queue or not. -/
structure Call where
  owner : Owner
  consumer : Bool
  kind : CallKind
  stage : Stage
deriving DecidableEq

/-- A script that was sent, by which call if by one of the above. -/
structure Sent where
  call : Option ℕ
  inv : Invocation

/-! ## The steps of a call -/

/-- What one step of a call does: to its object and to the call's stage, and
what script it sends, if any. -/
structure Turn where
  object : QueueObject
  stage : Stage
  sends : Option Invocation

namespace Call

/-- The first step: a sweep, a requeue and a `Close` send their script, which
will be number `next`; but a `Close` of an object that never popped has
nothing to release. -/
def begin (q : QueueObject) (next : ℕ) (call : Call) : Turn :=
  match call.kind with
  | .tick => ⟨q, .requeueing next, some (.sweep call.owner q.hbt)⟩
  | .requeue => ⟨q, .requeueing next, some (.requeue q.vt)⟩
  | .close =>
      if q.ackSeq = 0 then ⟨{ q with closed := true }, .ended, none⟩
      else ⟨{ q with closed := true }, .requeueing next, some (.release call.owner)⟩
  | kind => ⟨q, .swapping (kind.ask q), none⟩

/-- The script of a pop with reservation `r`. -/
def popCall (r : Reservation) (vt hbt : Time) (call : Call) : PopCall where
  args := ⟨call.owner, r.start, vt, hbt, call.consumer⟩
  script :=
    match call.kind with
    | .dequeueBatch slots => if r.want = 1 then .oneLen slots else .batch r.want slots
    | _ => .one

/-- A reservation put back, unless another one is kept already. -/
def putBack (r : Reservation) (q : QueueObject) : QueueObject :=
  { q with retryPop := if q.retryPop = none then some r else q.retryPop }

/-- The next step of its own: in `reserve`, on to sending the pop, and after
the reply of a batch. -/
def proceed (q : QueueObject) (next : ℕ) (call : Call) : Option Turn :=
  match call.stage with
  | .swapping want =>
      some ⟨{ q with retryPop := none },
        match q.retryPop with
        | none => .adding want
        | some r => if call.kind.limit < r.want then .puttingBack want r else .reserved r,
        none⟩
  | .puttingBack want r => some ⟨putBack r q, .adding want, none⟩
  | .adding want =>
      some ⟨{ q with ackSeq := q.ackSeq + 1 }, .reserved ⟨q.ackSeq + 1, want⟩, none⟩
  | .reserved r => some ⟨q, .timed r q.vt, none⟩
  | .timed r vt => some ⟨q, .popping r next, some (.pop (call.popCall r vt q.hbt))⟩
  | .accounting taken remaining =>
      if 0 < remaining then
        some ⟨{ q with popRun := q.popRun + taken }, .sizing remaining, none⟩
      else
        some ⟨{ q with popRun := 0 },
          if 0 < q.popRun + taken then .sizing (q.popRun + taken) else .ended, none⟩
  | .sizing popLen => some ⟨{ q with popLen := popLen }, .ended, none⟩
  | _ => none

/-- How many items the reply says went back to the queue. -/
def requeued : Reply → ℕ
  | .moved n => n
  | .swept r => r.moved
  | _ => 0

/-- It reads a reply to script `sent`, if that is what it waits for.  The
callback of a distributed queue then wakes up to as many idle consumers as
items went back.  It is the notification's `wake`, under the notification's
context: once that is stopped it sends nothing.  The step stands at the moment
the wake is sent, or would be. -/
def read (q : QueueObject) (sent : ℕ) (reply : Reply) (call : Call) : Option Turn :=
  match call.stage with
  | .popping _ i =>
      if sent = i then
        some ⟨q,
          match reply with
          | .batch (.popped remaining items) => .accounting items.length remaining
          | _ => .ended,
          none⟩
      else none
  | .requeueing i =>
      if sent = i then
        some ⟨q, .ended,
          if call.kind.tells ∧ q.onRequeue ∧ ¬q.stopped ∧ 0 < requeued reply then
            some (.wakeIdle (requeued reply))
          else none⟩
      else none
  | _ => none

/-- It gets an error: a pop keeps its reservation for a later call. -/
def fail (q : QueueObject) (call : Call) : Option Turn :=
  match call.stage with
  | .popping r _ => some ⟨putBack r q, .ended, none⟩
  | .requeueing _ => some ⟨q, .ended, none⟩
  | _ => none

end Call

/-! ## The world -/

/-- The queue objects by ack ID prefix, the calls, what was sent, which of it
ran with what reply, and the keys. -/
structure World where
  objects : Owner → QueueObject
  calls : ℕ → Option Call
  sent : List Sent
  log : List (ℕ × Reply)
  store : Store

/-- Nothing has happened yet. -/
def World.init : World where
  objects _ := .new
  calls _ := none
  sent := []
  log := []
  store := .empty

/-- What may happen next: a setting changes, the notification of an object is
stopped (`Notification.Stop`, with which `Close` ends), a call starts, takes
its next step, reads the reply of run `j` or gets an error, a script is sent,
or a copy of what was sent runs. -/
inductive Event
  | setVisibilityTimeout (o : Owner) (d : Duration)
  | setHeartbeatTimeout (o : Owner) (d : Duration)
  | setOnRequeue (o : Owner)
  | stop (o : Owner)
  | start (c : ℕ) (o : Owner) (consumer : Bool) (kind : CallKind)
  | proceed (c : ℕ)
  | read (c j : ℕ)
  | fail (c : ℕ)
  | issue (inv : Invocation)
  | run (i : ℕ) (env : Env)

/-- Scripts that read nothing of an object but their arguments. -/
def Invocation.standalone : Invocation → Bool
  | .pop _ => false
  | .requeue _ => false
  | .sweep _ _ => false
  | .release _ => false
  | .wakeIdle _ => false
  | _ => true

namespace World

/-- The settings of an object change. -/
def set (w : World) (o : Owner) (f : QueueObject → QueueObject) : World :=
  { w with objects := Function.update w.objects o (f (w.objects o)) }

@[simp] theorem set_self (w : World) (o : Owner) (f : QueueObject → QueueObject) :
    (w.set o f).objects o = f (w.objects o) := by
  simp [set]

@[simp] theorem set_of_ne (w : World) {o o' : Owner} (f : QueueObject → QueueObject)
    (ho : o' ≠ o) : (w.set o f).objects o' = w.objects o' := by
  simp [set, ho]

/-- What a setting leaves alone stays as it is, for every object. -/
theorem set_keeps {α : Type} (w : World) (o o' : Owner) {f : QueueObject → QueueObject}
    (g : QueueObject → α) (hg : ∀ q, g (f q) = g q) :
    g ((w.set o f).objects o') = g (w.objects o') := by
  by_cases ho : o' = o
  · subst ho
    rw [set_self, hg]
  · rw [set_of_ne w f ho]

/-- The step of a call in an event: a call that starts is new, and its object
is not closed. -/
def turnOf (w : World) : Event → Option (ℕ × Call × Turn)
  | .start c o consumer kind =>
      if (w.objects o).closed ∨ (w.calls c).isSome then none
      else
        let call : Call := ⟨o, consumer, kind, .ended⟩
        some (c, call, call.begin (w.objects o) w.sent.length)
  | .proceed c => do
      let call ← w.calls c
      let t ← call.proceed (w.objects call.owner) w.sent.length
      return (c, call, t)
  | .read c j => do
      let call ← w.calls c
      let (i, reply) ← w.log[j]?
      let t ← call.read (w.objects call.owner) i reply
      return (c, call, t)
  | .fail c => do
      let call ← w.calls c
      let t ← call.fail (w.objects call.owner)
      return (c, call, t)
  | _ => none

/-- What a step of a call makes of the world. -/
def take (w : World) (c : ℕ) (call : Call) (t : Turn) : World :=
  { w with
    objects := Function.update w.objects call.owner t.object
    calls := Function.update w.calls c (some { call with stage := t.stage })
    sent := w.sent ++ (t.sends.map fun inv => ⟨some c, inv⟩).toList }

@[simp] theorem take_object_self (w : World) (c : ℕ) (call : Call) (t : Turn) :
    (w.take c call t).objects call.owner = t.object := by
  simp [take]

@[simp] theorem take_object_of_ne (w : World) (c : ℕ) {call : Call} (t : Turn) {o : Owner}
    (ho : o ≠ call.owner) : (w.take c call t).objects o = w.objects o := by
  simp [take, ho]

/-- What a turn leaves alone stays as it is, for every object. -/
theorem take_keeps {α : Type} (w : World) (c : ℕ) (call : Call) (t : Turn) (o : Owner)
    (g : QueueObject → α) (hg : o = call.owner → g t.object = g (w.objects o)) :
    g ((w.take c call t).objects o) = g (w.objects o) := by
  by_cases ho : o = call.owner
  · rw [← hg ho, ho, take_object_self]
  · rw [take_object_of_ne w c t ho]

@[simp] theorem take_call_self (w : World) (c : ℕ) (call : Call) (t : Turn) :
    (w.take c call t).calls c = some { call with stage := t.stage } := by
  simp [take]

@[simp] theorem take_call_of_ne (w : World) {c c' : ℕ} (call : Call) (t : Turn) (hc : c' ≠ c) :
    (w.take c call t).calls c' = w.calls c' := by
  simp [take, hc]

/-- The script that runs in an event, if one does. -/
def scriptRun (w : World) : Event → Option ScriptRun
  | .run i env => w.sent[i]?.map fun m => ⟨m.inv, env⟩
  | _ => none

/-- The step of a call, if it can take one. -/
def turn (w : World) (ev : Event) : World :=
  match w.turnOf ev with
  | none => w
  | some (c, call, t) => w.take c call t

/-- What an event makes of the world. -/
def step (k : Kind) (cj : Cjson) (w : World) (ev : Event) : World :=
  match ev with
  | .setVisibilityTimeout o d => w.set o fun q => { q with visibilityTimeout := d }
  | .setHeartbeatTimeout o d => w.set o (QueueObject.setHeartbeatTimeout d)
  | .setOnRequeue o => w.set o fun q => { q with onRequeue := true }
  | .stop o => w.set o fun q => { q with stopped := true }
  | .issue inv => if inv.standalone then { w with sent := w.sent ++ [⟨none, inv⟩] } else w
  | .run i env =>
      match w.sent[i]? with
      | none => w
      | some m =>
          { w with
            log := w.log ++ [(i, ScriptRun.reply k cj w.store ⟨m.inv, env⟩)]
            store := Model.step k cj w.store (some ⟨m.inv, env⟩) }
  | ev => w.turn ev

end World

/-! ## Runs -/

/-- The world before event `n`. -/
def worldAt (k : Kind) (cj : Cjson) (e : ℕ → Event) (n : ℕ) : World :=
  Trajectory.state (World.step k cj) World.init e n

/-- The scripts that run, event by event. -/
def scriptRuns (k : Kind) (cj : Cjson) (e : ℕ → Event) (n : ℕ) : Option ScriptRun :=
  (worldAt k cj e n).scriptRun (e n)

theorem worldAt_succ (k : Kind) (cj : Cjson) (e : ℕ → Event) (n : ℕ) :
    worldAt k cj e (n + 1) = (worldAt k cj e n).step k cj (e n) := rfl

/-- The steps of a call's own, one by one. -/
inductive Call.Proceeds (q : QueueObject) (next : ℕ) (call : Call) : Turn → Prop
  | swapsNone (want : ℕ+) (hstage : call.stage = .swapping want) (hkept : q.retryPop = none) :
      Proceeds q next call ⟨{ q with retryPop := none }, .adding want, none⟩
  | swapsLarge (want : ℕ+) (r : Reservation) (hstage : call.stage = .swapping want)
      (hkept : q.retryPop = some r) (hlarge : call.kind.limit < r.want) :
      Proceeds q next call ⟨{ q with retryPop := none }, .puttingBack want r, none⟩
  | swaps (want : ℕ+) (r : Reservation) (hstage : call.stage = .swapping want)
      (hkept : q.retryPop = some r) (hfits : r.want ≤ call.kind.limit) :
      Proceeds q next call ⟨{ q with retryPop := none }, .reserved r, none⟩
  | putsBack (want : ℕ+) (r : Reservation) (hstage : call.stage = .puttingBack want r) :
      Proceeds q next call ⟨putBack r q, .adding want, none⟩
  | adds (want : ℕ+) (hstage : call.stage = .adding want) :
      Proceeds q next call
        ⟨{ q with ackSeq := q.ackSeq + 1 }, .reserved ⟨q.ackSeq + 1, want⟩, none⟩
  | times (r : Reservation) (hstage : call.stage = .reserved r) :
      Proceeds q next call ⟨q, .timed r q.vt, none⟩
  | pops (r : Reservation) (vt : Time) (hstage : call.stage = .timed r vt) :
      Proceeds q next call ⟨q, .popping r next, some (.pop (call.popCall r vt q.hbt))⟩
  | counts (taken remaining run popLen : ℕ) (hstage : call.stage = .accounting taken remaining) :
      Proceeds q next call ⟨{ q with popRun := run }, .sizing popLen, none⟩
  | counted (taken remaining run : ℕ) (hstage : call.stage = .accounting taken remaining) :
      Proceeds q next call ⟨{ q with popRun := run }, .ended, none⟩
  | sizes (popLen : ℕ) (hstage : call.stage = .sizing popLen) :
      Proceeds q next call ⟨{ q with popLen := popLen }, .ended, none⟩

theorem Call.proceeds_of_proceed {q : QueueObject} {next : ℕ} {call : Call} {t : Turn}
    (h : call.proceed q next = some t) : call.Proceeds q next t := by
  unfold proceed at h
  split at h
  · next want hstage =>
      cases h
      cases hkept : q.retryPop with
      | none => exact .swapsNone want hstage hkept
      | some r =>
          simp only []
          split
          · next hlarge => exact .swapsLarge want r hstage hkept hlarge
          · next hfits => exact .swaps want r hstage hkept (not_lt.mp hfits)
  · next want r hstage =>
      cases h
      exact .putsBack want r hstage
  · next want hstage =>
      cases h
      exact .adds want hstage
  · next r hstage =>
      cases h
      exact .times r hstage
  · next r vt hstage =>
      cases h
      exact .pops r vt hstage
  · next taken remaining hstage =>
      split at h
      · cases h
        exact .counts taken remaining _ _ hstage
      · cases h
        split
        · exact .counts taken remaining _ _ hstage
        · exact .counted taken remaining _ hstage
  · next popLen hstage =>
      cases h
      exact .sizes popLen hstage
  · cases h

/-- A step of call `c`, in an event. -/
inductive World.Turns (w : World) : Event → ℕ → Call → Turn → Prop
  | begins (c : ℕ) (o : Owner) (consumer : Bool) (kind : CallKind) (hnew : w.calls c = none)
      (hopen : (w.objects o).closed = false) :
      Turns w (.start c o consumer kind) c ⟨o, consumer, kind, .ended⟩
        (Call.begin (w.objects o) w.sent.length ⟨o, consumer, kind, .ended⟩)
  | proceeds (c : ℕ) (call : Call) (t : Turn) (hcall : w.calls c = some call)
      (h : call.proceed (w.objects call.owner) w.sent.length = some t) :
      Turns w (.proceed c) c call t
  | reads (c j : ℕ) (call : Call) (i : ℕ) (reply : Reply) (t : Turn)
      (hcall : w.calls c = some call) (hlog : w.log[j]? = some (i, reply))
      (h : call.read (w.objects call.owner) i reply = some t) : Turns w (.read c j) c call t
  | fails (c : ℕ) (call : Call) (t : Turn) (hcall : w.calls c = some call)
      (h : call.fail (w.objects call.owner) = some t) : Turns w (.fail c) c call t

theorem World.turns_of_turnOf {w : World} {ev : Event} {c : ℕ} {call : Call} {t : Turn}
    (h : w.turnOf ev = some (c, call, t)) : w.Turns ev c call t := by
  cases ev with
  | start c' o' consumer kind =>
      simp only [turnOf] at h
      split at h
      · cases h
      · next hfree =>
          cases h
          simp only [not_or, Bool.not_eq_true, Option.isSome_eq_false_iff,
            Option.isNone_iff_eq_none] at hfree
          exact .begins c o' consumer kind hfree.2 hfree.1
  | proceed c' =>
      simp only [turnOf, Option.bind_eq_bind, Option.bind_eq_some_iff, Option.pure_def,
        Option.some.injEq] at h
      obtain ⟨call', hcall, t', ht, heq⟩ := h
      cases heq
      exact .proceeds c call t hcall ht
  | read c' j =>
      simp only [turnOf, Option.bind_eq_bind, Option.bind_eq_some_iff, Option.pure_def,
        Option.some.injEq] at h
      obtain ⟨call', hcall, ⟨i, reply⟩, hlog, t', ht, heq⟩ := h
      cases heq
      exact .reads c j call i reply t hcall hlog ht
  | fail c' =>
      simp only [turnOf, Option.bind_eq_bind, Option.bind_eq_some_iff, Option.pure_def,
        Option.some.injEq] at h
      obtain ⟨call', hcall, t', ht, heq⟩ := h
      cases heq
      exact .fails c call t hcall ht
  | setVisibilityTimeout o d => cases h
  | setHeartbeatTimeout o d => cases h
  | setOnRequeue o => cases h
  | stop o => cases h
  | issue inv => cases h
  | run i env => cases h

/-- A world changes in one of five ways. -/
inductive World.Change (k : Kind) (cj : Cjson) (w : World) (ev : Event) : World → Prop
  | none : Change k cj w ev w
  | set (o : Owner) (f : QueueObject → QueueObject) (hseq : ∀ q, (f q).ackSeq = q.ackSeq)
      (hkept : ∀ q, (f q).retryPop = q.retryPop) : Change k cj w ev (w.set o f)
  | take (c : ℕ) (call : Call) (t : Turn) (h : w.Turns ev c call t) :
      Change k cj w ev (w.take c call t)
  | issue (inv : Invocation) (h : inv.standalone = true) :
      Change k cj w ev { w with sent := w.sent ++ [⟨Option.none, inv⟩] }
  | run (i : ℕ) (env : Env) (m : Sent) (h : w.sent[i]? = some m) (hev : ev = .run i env) :
      Change k cj w ev
        { w with
          log := w.log ++ [(i, ScriptRun.reply k cj w.store ⟨m.inv, env⟩)]
          store := Model.step k cj w.store (some ⟨m.inv, env⟩) }

theorem World.step_change (k : Kind) (cj : Cjson) (w : World) (ev : Event) :
    Change k cj w ev (w.step k cj ev) := by
  have hturn : Change k cj w ev (w.turn ev) := by
    unfold turn
    cases h : w.turnOf ev with
    | none => exact .none
    | some x => exact .take x.1 x.2.1 x.2.2 (World.turns_of_turnOf h)
  cases ev with
  | setVisibilityTimeout o d =>
      exact .set o (fun q => { q with visibilityTimeout := d }) (fun _ => rfl) fun _ => rfl
  | setHeartbeatTimeout o d => exact .set o _ (fun _ => rfl) fun _ => rfl
  | setOnRequeue o =>
      exact .set o (fun q => { q with onRequeue := true }) (fun _ => rfl) fun _ => rfl
  | stop o => exact .set o (fun q => { q with stopped := true }) (fun _ => rfl) fun _ => rfl
  | issue inv =>
      simp only [step]
      split
      · next h => exact .issue inv h
      · exact .none
  | run i env =>
      simp only [step]
      split
      · exact .none
      · next m h => exact .run i env m h rfl
  | start c o consumer kind => exact hturn
  | proceed c => exact hturn
  | read c j => exact hturn
  | fail c => exact hturn

end Redisq.Model
