import Redisq.Library.Process
import Redisq.Model.Run

/-!
# Distributed queue objects

What the objects of a distributed queue keep in their own memory for the idle
set and the pause, and the code of their operations, cut at its atomic
operations.  `observe` takes its check and its set as one.  What a reservation
is made of is left to the operation's argument; `Model.Client` has `reserve`
itself.
-/

namespace Redisq.Model

/-- Whether the object is a consumer, whether its own last look found no work
for it, the pause as it last saw it with the generation, whether it popped
once, and whether its queue's and its notification's contexts are done. -/
structure Memory where
  consumer : Bool
  idle : Bool
  paused : Bool
  gen : ℕ
  popped : Bool
  closed : Bool
  stopped : Bool
deriving DecidableEq

/-- A new object. -/
def Memory.new : Memory where
  consumer := false
  idle := false
  paused := false
  gen := 0
  popped := false
  closed := false
  stopped := false

/-- An object's code. -/
abbrev Code := Process Memory Invocation Reply

namespace Code

open Process

/-- A request under a context: none is sent once it is done. -/
def sendUnder (done : Memory → Bool) (inv : Invocation) : Code (Option Reply) := do
  if ← load done then return none
  send inv

/-- `observe`: what Redis told, unless the generation moved on. -/
def observe (g : ℕ) (p : Bool) : Code Unit :=
  store fun m => if m.gen = g then { m with paused := p } else m

/-- `markIdle`. -/
def markIdle (o : Owner) : Code Unit := do
  if ← load Memory.consumer then
    store fun m => { m with idle := true }
    let _ ← sendUnder Memory.stopped (.markIdle o.name)

/-- `Subscribe`. -/
def subscribe (o : Owner) : Code Unit := do
  store fun m => { m with consumer := true }
  markIdle o

/-- `Notification.len`. -/
def len (o : Owner) : Code Unit := do
  let consumer ← load Memory.consumer
  let id := if consumer then o.name else []
  match ← sendUnder Memory.stopped (.lenIdle id) with
  | some (.count 0) => if id ≠ [] then store fun m => { m with idle := true }
  | _ => pure ()

/-- One turn of `nudgeLoop`. -/
def nudge (o : Owner) : Code Unit := do
  if ← load Memory.consumer then
    let idle ← load Memory.idle
    let _ ← sendUnder Memory.stopped (.nudge o.name idle)

/-- `wake`. -/
def wake (count : ℕ) : Code Unit := do
  let _ ← sendUnder Memory.stopped (.wakeIdle count)

/-- `requeued`, with `wake` for the callback. -/
def requeued (count : ℕ) : Code Unit :=
  if 0 < count then wake count else pure ()

/-- `Dequeue`. -/
def dequeue (o : Owner) : Code Unit := do
  let g ← load Memory.gen
  match ← sendUnder Memory.closed .rawPop with
  | some (.one (.item _)) => store fun m => { m with idle := false }
  | reply =>
      if reply matches some (.one .paused) then observe g true
      if !(← load Memory.paused) then markIdle o

/-- `q.idle.Store(short && !q.Paused())`. -/
def storeIdle (short : Bool) : Code Unit :=
  if short then do
    let paused ← load Memory.paused
    store fun m => { m with idle := !paused }
  else store fun m => { m with idle := false }

/-- `reserve`, as far as `release` looks at it. -/
def reserve : Code Unit :=
  store fun m => { m with popped := true }

/-- `DequeueWithAckId`, with reservation `start`. -/
def dequeueWithAckId (o : Owner) (start : ℕ) (vt hbt : Time) : Code Unit := do
  let consumer ← load Memory.consumer
  if ← load Memory.closed then storeIdle true
  else
    reserve
    let g ← load Memory.gen
    match ← sendUnder Memory.closed (.pop ⟨⟨o, start, vt, hbt, consumer⟩, .one⟩) with
    | some (.one (.item _)) => storeIdle false
    | reply =>
        if reply matches some (.one .paused) then observe g true
        storeIdle true

/-- `DequeueBatchWithAckIds`, with reservation `start` of `want` IDs. -/
def dequeueBatch (o : Owner) (slots : ℕ) (start : ℕ) (want : ℕ+) (vt hbt : Time) :
    Code Unit := do
  let consumer ← load Memory.consumer
  if slots = 0 then storeIdle false
  else if ← load Memory.closed then return
  else
    reserve
    let g ← load Memory.gen
    let script := if want = 1 then .oneLen slots else .batch want slots
    match ← sendUnder Memory.closed (.pop ⟨⟨o, start, vt, hbt, consumer⟩, script⟩) with
    | some (.batch (.popped remaining items)) =>
        storeIdle (remaining = 0 ∧ items.length < slots)
    | some (.batch .paused) =>
        observe g true
        storeIdle true
    | _ => return

/-- `tick`. -/
def tick (o : Owner) (hbt : Time) : Code Unit := do
  let g ← load Memory.gen
  match ← sendUnder Memory.closed (.sweep o hbt) with
  | some (.swept reply) =>
      observe g reply.paused
      requeued reply.moved
  | _ => return

/-- `Pause` and `Resume`: the script, and then the object's own copy. -/
def setPause (inv : Invocation) (p : Bool) : Code Unit := do
  match ← sendUnder Memory.closed inv with
  | none => return
  | some _ =>
      store fun m => { m with gen := m.gen + 1 }
      store fun m => { m with paused := p }

/-- `control` on "resumed". -/
def controlResumed : Code Unit := do
  store fun m => { m with gen := m.gen + 1 }
  store fun m => { m with paused := false }

/-- `control` on "paused:", the kick of the pause loop aside. -/
def controlPaused : Code Unit :=
  store fun m => { m with gen := m.gen + 1 }

/-- `leave`. -/
def leave (o : Owner) : Code Unit := do
  store fun m => { m with consumer := false }
  let _ ← send (.leave o.name)

/-- `release`. -/
def release (o : Owner) : Code Unit := do
  if ← load Memory.popped then
    match ← send (.release o) with
    | some (.moved n) => requeued n
    | _ => pure ()

/-- `Close`: `leave`, `Queue.Close` once, and `Stop`. -/
def close (o : Owner) : Code Unit := do
  leave o
  let again ← swap fun m => (m.closed, { m with closed := true })
  if !again then release o
  leave o
  store fun m => { m with stopped := true }

end Code

/-- The operations on an object.  `pauseLoop` is the loop's own store of what
it read, at any time; `other` is a script of any caller that looks at no
consumer. -/
inductive Operation
  | subscribe
  | len
  | nudge
  | dequeue
  | dequeueWithAckId (start : ℕ) (vt hbt : Time)
  | dequeueBatch (slots start : ℕ) (want : ℕ+) (vt hbt : Time)
  | tick (hbt : Time)
  | pause
  | resume
  | controlResumed
  | controlPaused
  | pauseLoop (p : Bool)
  | close
  | other (inv : Invocation)

/-- Scripts of callers that are no consumers. -/
def Invocation.bystander : Invocation → Bool
  | .push _ => true
  | .prepareAck _ _ _ => true
  | .finish _ => true
  | .requeue _ => true
  | .remove _ => true
  | .purge => true
  | .trim _ _ _ _ => true
  | _ => false

/-- The code of an operation. -/
def Operation.code (o : Owner) : Operation → Code Unit
  | .subscribe => Code.subscribe o
  | .len => Code.len o
  | .nudge => Code.nudge o
  | .dequeue => Code.dequeue o
  | .dequeueWithAckId start vt hbt => Code.dequeueWithAckId o start vt hbt
  | .dequeueBatch slots start want vt hbt => Code.dequeueBatch o slots start want vt hbt
  | .tick hbt => Code.tick o hbt
  | .pause => Code.setPause .pause true
  | .resume => Code.setPause .resume false
  | .controlResumed => Code.controlResumed
  | .controlPaused => Code.controlPaused
  | .pauseLoop p => Process.store fun m => { m with paused := p }
  | .close => Code.close o
  | .other inv => if inv.bystander then do let _ ← Process.send inv else pure ()

/-- The objects' code, and the keys of the queue for the server. -/
def rules (k : Kind) (cj : Cjson) :
    Net.Rules Owner Operation Memory Invocation Reply Store Env where
  code o op := op.code o
  serve env inv s := ScriptRun.exec k cj ⟨inv, env⟩ s

/-! ## Runs -/

/-- Nothing has happened yet. -/
def noObjects : Net Owner Operation Memory Invocation Reply Store where
  memory _ := .new
  tasks _ := none
  sent := []
  log := []
  server := .empty

section Runs

variable (k : Kind) (cj : Cjson) (e : ℕ → Net.Event Owner Operation Env) (n : ℕ)

/-- The objects and the keys before event `n`. -/
def objectsAt : Net Owner Operation Memory Invocation Reply Store :=
  Net.state (rules k cj) noObjects e n

/-- The keys before event `n`. -/
def keysAt : Store :=
  (objectsAt k cj e n).server

/-- The script that runs in event `n`, if one does. -/
def objectRuns : Option ScriptRun :=
  (Net.runs (rules k cj) noObjects e n).map fun r => ⟨r.1.request, r.2⟩

/-- In event `n` the server runs `inv`, which `o` sent in operation `op`. -/
def Asks (n : ℕ) (o : Owner) (op : Operation) (inv : Invocation) (env : Env) : Prop :=
  Net.runs (rules k cj) noObjects e n = some (⟨o, op, inv⟩, env)

end Runs

section Runs

variable {k : Kind} {cj : Cjson} {e : ℕ → Net.Event Owner Operation Env} {n : ℕ} {o : Owner}
  {op : Operation} {inv : Invocation} {env : Env}

/-- The keys are those of the scripts that ran. -/
theorem keysAt_eq : keysAt k cj e n = storeAt k cj (objectRuns k cj e) n := by
  induction n with
  | zero => rfl
  | succ n ih =>
      have hserver : keysAt k cj e (n + 1) =
          Net.servedBy (rules k cj) (keysAt k cj e n) (Net.runs (rules k cj) noObjects e n) :=
        (Net.state_succ (rules k cj) noObjects e n).server
      rw [hserver, ih, storeAt_succ]
      unfold objectRuns Net.servedBy
      cases Net.runs (rules k cj) noObjects e n <;> rfl

theorem Asks.objectRuns (h : Asks k cj e n o op inv env) :
    objectRuns k cj e n = some ⟨inv, env⟩ := by
  rw [Model.objectRuns, h]
  rfl

theorem asks_of_objectRuns {r : ScriptRun} (h : objectRuns k cj e n = some r) :
    ∃ o op, Asks k cj e n o op r.inv r.env := by
  rw [objectRuns, Option.map_eq_some_iff] at h
  obtain ⟨⟨⟨o, op, inv⟩, env⟩, hruns, rfl⟩ := h
  exact ⟨o, op, hruns⟩

end Runs

/-! ## What objects do -/

/-- A request in an object's own name. -/
def Invocation.inNameOf (o : Owner) : Invocation → Prop
  | .lenIdle id => id = o.name ∨ id = []
  | .nudge id _ => id = o.name
  | .markIdle id => id = o.name
  | .leave id => id = o.name
  | .pop p => p.args.owner = o
  | .wakeIdle count => 0 < count
  | _ => True

/-- The generation never goes back. -/
def Memory.Before (m m' : Memory) : Prop :=
  m.gen ≤ m'.gen

/-- Code that moves the generation on at most, and asks in its object's own
name. -/
abbrev Sound {α : Type} (o : Owner) (x : Process Memory Invocation Reply α) : Prop :=
  x.Within Memory.Before (Invocation.inNameOf o)

section Sound

open Process

variable {o : Owner}

theorem Memory.before_refl (m : Memory) : m.Before m :=
  le_refl m.gen

theorem sound_load {α : Type} (f : Memory → α) :
    Sound o (load f : Process Memory Invocation Reply α) :=
  within_load Memory.before_refl f

theorem sound_store {f : Memory → Memory} (h : ∀ m, m.gen ≤ (f m).gen) :
    Sound o (store f : Code Unit) :=
  within_store h

theorem sendUnder_sound {done : Memory → Bool} {inv : Invocation} (h : inv.inNameOf o) :
    Sound o (Code.sendUnder done inv) :=
  Within.bind (sound_load _) fun _ => Within.ite (within_pure _) (within_send h)

theorem requeued_sound (count : ℕ) : Sound o (Code.requeued count) := by
  unfold Code.requeued
  split
  · next hcount => exact Within.bind (sendUnder_sound hcount) fun _ => within_pure _
  · exact within_pure _

theorem markIdle_sound : Sound o (Code.markIdle o) := by
  refine Within.bind (sound_load _) fun consumer => Within.ite ?_ (within_pure _)
  refine Within.bind (sound_store fun _ => le_rfl) fun _ => ?_
  exact Within.bind (sendUnder_sound rfl) fun _ => within_pure _

theorem storeIdle_sound (short : Bool) : Sound o (Code.storeIdle short) := by
  unfold Code.storeIdle
  split
  · exact Within.bind (sound_load _) fun _ => sound_store fun _ => le_rfl
  · exact sound_store fun _ => le_rfl

theorem observe_sound (g : ℕ) (p : Bool) : Sound o (Code.observe g p) := by
  refine sound_store fun m => ?_
  split <;> exact le_rfl

theorem leave_sound : Sound o (Code.leave o) := by
  refine Within.bind (sound_store fun _ => le_rfl) fun _ => ?_
  exact Within.bind (within_send rfl) fun _ => within_pure _

theorem len_sound : Sound o (Code.len o) := by
  refine Within.bind (sound_load _) fun consumer => ?_
  refine Within.bind (sendUnder_sound ?_) fun reply => ?_
  · cases consumer
    · exact Or.inr rfl
    · exact Or.inl rfl
  · split
    · exact Within.ite (sound_store fun _ => le_rfl) (within_pure _)
    · exact within_pure _

theorem nudge_sound : Sound o (Code.nudge o) := by
  refine Within.bind (sound_load _) fun consumer => Within.ite ?_ (within_pure _)
  refine Within.bind (sound_load _) fun idle => ?_
  exact Within.bind (sendUnder_sound rfl) fun _ => within_pure _

theorem dequeue_sound : Sound o (Code.dequeue o) := by
  refine Within.bind (sound_load _) fun g => ?_
  refine Within.bind (sendUnder_sound trivial) fun reply => ?_
  have hmiss : Sound o (do if !(← load Memory.paused) then Code.markIdle o : Code Unit) :=
    Within.bind (sound_load _) fun paused => Within.ite markIdle_sound (within_pure _)
  split
  · exact sound_store fun _ => le_rfl
  · exact Within.ite (Within.bind (observe_sound _ _) fun _ => hmiss) hmiss

theorem dequeueWithAckId_sound (start : ℕ) (vt hbt : Time) :
    Sound o (Code.dequeueWithAckId o start vt hbt) := by
  refine Within.bind (sound_load _) fun consumer => Within.bind (sound_load _) fun closed => ?_
  refine Within.ite (storeIdle_sound _) ?_
  refine Within.bind (sound_store fun _ => le_rfl) fun _ => ?_
  refine Within.bind (sound_load _) fun g => Within.bind (sendUnder_sound rfl) fun reply => ?_
  split
  · exact storeIdle_sound _
  · exact Within.ite (Within.bind (observe_sound _ _) fun _ => storeIdle_sound _)
      (storeIdle_sound _)

theorem dequeueBatch_sound (slots start : ℕ) (want : ℕ+) (vt hbt : Time) :
    Sound o (Code.dequeueBatch o slots start want vt hbt) := by
  refine Within.bind (sound_load _) fun consumer => Within.ite (storeIdle_sound _) ?_
  refine Within.bind (sound_load _) fun closed => Within.ite (within_pure _) ?_
  refine Within.bind (sound_store fun _ => le_rfl) fun _ => ?_
  refine Within.bind (sound_load _) fun g => Within.bind (sendUnder_sound rfl) fun reply => ?_
  split
  · exact storeIdle_sound _
  · exact Within.bind (observe_sound _ _) fun _ => storeIdle_sound _
  · exact within_pure _

theorem tick_sound (hbt : Time) : Sound o (Code.tick o hbt) := by
  refine Within.bind (sound_load _) fun g => ?_
  refine Within.bind (sendUnder_sound trivial) fun reply => ?_
  split
  · exact Within.bind (observe_sound _ _) fun _ => requeued_sound _
  · exact within_pure _

theorem setPause_sound {inv : Invocation} (p : Bool) (h : inv.inNameOf o) :
    Sound o (Code.setPause inv p) := by
  refine Within.bind (sendUnder_sound h) fun reply => ?_
  split
  · exact within_pure _
  · exact Within.bind (sound_store fun m => Nat.le_succ m.gen) fun _ =>
      sound_store fun _ => le_rfl

theorem release_sound : Sound o (Code.release o) := by
  refine Within.bind (sound_load _) fun popped => Within.ite ?_ (within_pure _)
  refine Within.bind (within_send trivial) fun reply => ?_
  split
  · exact requeued_sound _
  · exact within_pure _

theorem close_sound : Sound o (Code.close o) := by
  have hstop : Sound o (do Code.leave o; store fun m => { m with stopped := true } : Code Unit) :=
    Within.bind leave_sound fun _ => sound_store fun _ => le_rfl
  refine Within.bind leave_sound fun _ => ?_
  refine Within.bind (within_swap fun _ => le_refl _) fun again => ?_
  exact Within.ite (Within.bind release_sound fun _ => hstop) hstop

theorem code_sound (o : Owner) (op : Operation) : Sound o (op.code o) := by
  cases op with
  | subscribe => exact Within.bind (sound_store fun _ => le_rfl) fun _ => markIdle_sound
  | len => exact len_sound
  | nudge => exact nudge_sound
  | dequeue => exact dequeue_sound
  | dequeueWithAckId start vt hbt => exact dequeueWithAckId_sound start vt hbt
  | dequeueBatch slots start want vt hbt => exact dequeueBatch_sound slots start want vt hbt
  | tick hbt => exact tick_sound hbt
  | pause => exact setPause_sound true trivial
  | resume => exact setPause_sound false trivial
  | controlResumed =>
      exact Within.bind (sound_store fun m => Nat.le_succ m.gen) fun _ =>
        sound_store fun _ => le_rfl
  | controlPaused => exact sound_store fun m => Nat.le_succ m.gen
  | pauseLoop p => exact sound_store fun _ => le_rfl
  | close => exact close_sound
  | other inv =>
      show Sound o (if inv.bystander then _ else _ : Code Unit)
      split
      · next hbystander =>
          refine Within.bind (within_send ?_) fun _ => within_pure _
          cases inv with
          | pop p => cases hbystander
          | lenIdle consumer => cases hbystander
          | nudge consumer idle => cases hbystander
          | wakeIdle count => cases hbystander
          | markIdle consumer => cases hbystander
          | leave consumer => cases hbystander
          | _ => trivial
      · exact within_pure _

end Sound

section Runs

variable {k : Kind} {cj : Cjson} {e : ℕ → Net.Event Owner Operation Env} {n : ℕ}

/-- What an object sent, it sent in its own name. -/
theorem Asks.owned {o : Owner} {op : Operation} {inv : Invocation} {env : Env}
    (h : Asks k cj e n o op inv env) : inv.inNameOf o := by
  unfold Asks Net.runs Net.running at h
  split at h
  · obtain ⟨m, hm, heq⟩ := Option.map_eq_some_iff.mp h
    obtain ⟨rfl, -⟩ := Prod.mk.inj heq
    exact Net.state_sent (P := fun o _ => Invocation.inNameOf o) code_sound (fun _ => rfl) rfl n _
      (List.mem_of_getElem? hm)
  · cases h

theorem objectsAt_gen (k : Kind) (cj : Cjson) (e : ℕ → Net.Event Owner Operation Env) (n : ℕ)
    (o : Owner) :
    ((objectsAt k cj e n).memory o).Before ((objectsAt k cj e (n + 1)).memory o) :=
  Net.state_memory (P := fun o _ => Invocation.inNameOf o) code_sound (fun _ => rfl)
    Memory.before_refl n o

end Runs

end Redisq.Model
