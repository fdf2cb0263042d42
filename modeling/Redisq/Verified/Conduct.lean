import Redisq.Library.Contract
import Redisq.Verified.Stale

/-!
# What an object does

For every operation on an object at once: what it may do to the object's
memory (`Operation.Does`), and what the object asks for, as far as the flags
it looks at first allow it (`Invocation.AskedUnder`).  A contract that admits
this much is met by the operation's code (`code_meets`).
-/

namespace Redisq.Model

open Process

/-- What an operation does to the memory. -/
inductive Operation.Does : Operation → Memory → Memory → Prop
  | reads (op : Operation) (m : Memory) : Does op m m
  | idles (op : Operation) (m : Memory) (idle : Bool) : Does op m { m with idle := idle }
  | pops (op : Operation) (m : Memory) : Does op m { m with popped := true }
  | observes (op : Operation) (m : Memory) (p : Bool) (hop : op.observes = true) :
      Does op m { m with paused := p }
  | learns (op : Operation) (m : Memory) (hop : op.sets = true ∨ op.controls = true) :
      Does op m { m with gen := m.gen + 1 }
  | sets (op : Operation) (m : Memory) (p : Bool) (hop : op.sets = true ∨ op = .controlResumed) :
      Does op m { m with paused := p }
  | rechecks (m : Memory) (p : Bool) : Does (.pauseLoop p) m { m with paused := p }
  | subscribes (m : Memory) : Does .subscribe m { m with consumer := true }
  | leaves (m : Memory) : Does .close m { m with consumer := false }
  | closes (m : Memory) : Does .close m { m with closed := true }
  | stops (m : Memory) : Does .close m { m with stopped := true }

/-- What an object asks for, if its memory is as `I` says whenever it looks. -/
def Invocation.AskedUnder (o : Owner) (I : Memory → Prop) : Invocation → Prop
  | .lenIdle id =>
      (id = [] ∨ id = o.name ∧ ∃ m, I m ∧ m.consumer = true) ∧ ∃ m, I m ∧ m.stopped = false
  | .nudge id _ =>
      (id = o.name ∧ ∃ m, I m ∧ m.consumer = true) ∧ ∃ m, I m ∧ m.stopped = false
  | .markIdle id =>
      (id = o.name ∧ ∃ m, I m ∧ m.consumer = true) ∧ ∃ m, I m ∧ m.stopped = false
  | .wakeIdle _ => ∃ m, I m ∧ m.stopped = false
  | .pop p =>
      (p.args.owner = o ∧ (p.args.consumer = true → ∃ m, I m ∧ m.consumer = true)) ∧
        ∃ m, I m ∧ m.closed = false
  | .rawPop => ∃ m, I m ∧ m.closed = false
  | .sweep owner _ => owner = o ∧ ∃ m, I m ∧ m.closed = false
  | .pause => ∃ m, I m ∧ m.closed = false
  | .resume => ∃ m, I m ∧ m.closed = false
  | .release owner => owner = o ∧ ∃ m, I m ∧ m.closed = false
  | .leave id => id = o.name
  | inv => inv.bystander = true

section Code

variable {C : Contract Memory Invocation Reply} {o : Owner} {op : Operation}

/-- A request under a context: no answer comes back once it is done. -/
theorem sendUnder_meets {done : Memory → Bool} {inv : Invocation}
    (hrefl : ∀ m, C.inv m → C.act m m)
    (hask : (∃ m, C.inv m ∧ done m = false) → C.ask inv) :
    (Code.sendUnder done inv).Meets C fun reply =>
      (reply = none ∧ ∃ m, C.inv m ∧ done m = true) ∨ C.answer inv reply := by
  refine meets_load fun m hm => ⟨hrefl m hm, ?_⟩
  cases hdone : done m with
  | true => exact Or.inl ⟨rfl, m, hm, hdone⟩
  | false => exact ⟨hask ⟨m, hm, hdone⟩, fun reply hreply => Or.inr hreply⟩

variable (C) in
/-- Code that meets a contract, whatever it returns. -/
abbrev Obeys {α : Type} (x : Code α) : Prop :=
  x.Meets C fun _ => True

theorem Obeys.bind {α β : Type} {x : Code α} {f : α → Code β} (hx : Obeys C x)
    (hf : ∀ a, Obeys C (f a)) : Obeys C (x >>= f) :=
  Meets.bind hx fun a _ => hf a

section Parts

variable (hdoes : ∀ m m', C.inv m → op.Does m m' → C.act m m')
include hdoes

theorem obeys_store {f : Memory → Memory} (h : ∀ m, op.Does m (f m)) : Obeys C (store f) :=
  fun m hm => ⟨hdoes m _ hm (h m), fun _ => trivial⟩

theorem obeys_load {α : Type} (f : Memory → α) : Obeys C (load f) :=
  fun m hm => ⟨hdoes m m hm (.reads op m), fun _ => trivial⟩

theorem obeys_sendUnder {done : Memory → Bool} {inv : Invocation}
    (hask : (∃ m, C.inv m ∧ done m = false) → C.ask inv) : Obeys C (Code.sendUnder done inv) :=
  (sendUnder_meets (fun m hm => hdoes m m hm (.reads op m)) hask).imp fun _ _ => trivial

theorem obeys_observe (hop : op.observes = true) (g : ℕ) (p : Bool) :
    Obeys C (Code.observe g p) := by
  refine obeys_store hdoes fun m => ?_
  split
  · exact .observes op m p hop
  · exact .reads op m

theorem obeys_storeIdle (short : Bool) : Obeys C (Code.storeIdle short) := by
  unfold Code.storeIdle
  refine Meets.ite (fun _ => ?_) fun _ => obeys_store hdoes fun m => .idles op m false
  exact Obeys.bind (obeys_load hdoes _) fun paused =>
    obeys_store hdoes fun m => .idles op m !paused

theorem obeys_setPause (hop : op.sets = true) {inv : Invocation} (p : Bool)
    (hask : (∃ m, C.inv m ∧ m.closed = false) → C.ask inv) : Obeys C (Code.setPause inv p) := by
  refine Obeys.bind (obeys_sendUnder hdoes hask) fun reply => ?_
  split
  · trivial
  · exact Obeys.bind (obeys_store hdoes fun m => .learns op m (Or.inl hop)) fun _ =>
      obeys_store hdoes fun m => .sets op m p (Or.inl hop)

theorem obeys_requeued (hask : ∀ count, (∃ m, C.inv m ∧ m.stopped = false) →
    C.ask (.wakeIdle count)) (count : ℕ) : Obeys C (Code.requeued count) :=
  Meets.ite (fun _ => Obeys.bind (obeys_sendUnder hdoes (hask count)) fun _ => trivial)
    fun _ => trivial

end Parts

section Parts

variable (hdoes : ∀ m m', C.inv m → op.Does m m' → C.act m m')
  (hasks : ∀ inv, inv.AskedUnder o C.inv → C.ask inv)
include hdoes hasks

theorem obeys_markIdle : Obeys C (Code.markIdle o) := by
  refine meets_load fun m hm => ⟨hdoes m m hm (.reads op m), Meets.ite (fun hconsumer => ?_)
    fun _ => trivial⟩
  refine Obeys.bind (obeys_store hdoes fun m => .idles op m true) fun _ => ?_
  exact Obeys.bind (obeys_sendUnder hdoes fun hopen =>
    hasks _ ⟨⟨rfl, m, hm, hconsumer⟩, hopen⟩) fun _ => trivial

theorem obeys_len : Obeys C (Code.len o) := by
  refine meets_load fun m hm => ⟨hdoes m m hm (.reads op m), ?_⟩
  refine Obeys.bind (obeys_sendUnder hdoes fun hopen => hasks _ ⟨?_, hopen⟩) fun reply => ?_
  · cases hconsumer : m.consumer with
    | true => exact Or.inr ⟨rfl, m, hm, hconsumer⟩
    | false => exact Or.inl rfl
  · split
    · exact Meets.ite (fun _ => obeys_store hdoes fun m => .idles op m true) fun _ => trivial
    · trivial

theorem obeys_nudge : Obeys C (Code.nudge o) := by
  refine meets_load fun m hm => ⟨hdoes m m hm (.reads op m), Meets.ite (fun hconsumer => ?_)
    fun _ => trivial⟩
  refine Obeys.bind (obeys_load hdoes _) fun idle => ?_
  exact Obeys.bind (obeys_sendUnder hdoes fun hopen =>
    hasks _ ⟨⟨rfl, m, hm, hconsumer⟩, hopen⟩) fun _ => trivial

theorem obeys_dequeue (hop : op.observes = true) : Obeys C (Code.dequeue o) := by
  refine Obeys.bind (obeys_load hdoes _) fun g => ?_
  refine Obeys.bind (obeys_sendUnder hdoes fun hopen => hasks _ hopen) fun reply => ?_
  have hmiss : Obeys C (do if !(← load Memory.paused) then Code.markIdle o : Code Unit) :=
    Obeys.bind (obeys_load hdoes _) fun _ =>
      Meets.ite (fun _ => obeys_markIdle hdoes hasks) fun _ => trivial
  split
  · exact obeys_store hdoes fun m => .idles op m false
  · exact Meets.ite (fun _ => Obeys.bind (obeys_observe hdoes hop g true) fun _ => hmiss)
      fun _ => hmiss

theorem obeys_dequeueWithAckId (hop : op.observes = true) (start : ℕ) (vt hbt : Time) :
    Obeys C (Code.dequeueWithAckId o start vt hbt) := by
  refine meets_load fun m hm => ⟨hdoes m m hm (.reads op m), ?_⟩
  refine Obeys.bind (obeys_load hdoes _) fun closed => Meets.ite
    (fun _ => obeys_storeIdle hdoes true) fun _ => ?_
  refine Obeys.bind (obeys_store hdoes fun m => .pops op m) fun _ => ?_
  refine Obeys.bind (obeys_load hdoes _) fun g => ?_
  refine Obeys.bind (obeys_sendUnder hdoes fun hopen =>
    hasks _ ⟨⟨rfl, fun hconsumer => ⟨m, hm, hconsumer⟩⟩, hopen⟩) fun reply => ?_
  split
  · exact obeys_storeIdle hdoes false
  · exact Meets.ite (fun _ => Obeys.bind (obeys_observe hdoes hop g true) fun _ =>
      obeys_storeIdle hdoes true) fun _ => obeys_storeIdle hdoes true

theorem obeys_dequeueBatch (hop : op.observes = true) (slots start : ℕ) (want : ℕ+)
    (vt hbt : Time) : Obeys C (Code.dequeueBatch o slots start want vt hbt) := by
  refine meets_load fun m hm => ⟨hdoes m m hm (.reads op m), ?_⟩
  refine Meets.ite (fun _ => obeys_storeIdle hdoes false) fun _ => ?_
  refine Obeys.bind (obeys_load hdoes _) fun closed => Meets.ite (fun _ => trivial) fun _ => ?_
  refine Obeys.bind (obeys_store hdoes fun m => .pops op m) fun _ => ?_
  refine Obeys.bind (obeys_load hdoes _) fun g => ?_
  refine Obeys.bind (obeys_sendUnder hdoes fun hopen =>
    hasks _ ⟨⟨rfl, fun hconsumer => ⟨m, hm, hconsumer⟩⟩, hopen⟩) fun reply => ?_
  split
  · exact obeys_storeIdle hdoes _
  · exact Obeys.bind (obeys_observe hdoes hop g true) fun _ => obeys_storeIdle hdoes true
  · trivial

theorem obeys_tick (hop : op.observes = true) (hbt : Time) : Obeys C (Code.tick o hbt) := by
  refine Obeys.bind (obeys_load hdoes _) fun g => ?_
  refine Obeys.bind (obeys_sendUnder hdoes fun hopen => hasks _ ⟨rfl, hopen⟩) fun reply => ?_
  split
  · exact Obeys.bind (obeys_observe hdoes hop g _) fun _ =>
      obeys_requeued hdoes (fun _ hopen => hasks _ hopen) _
  · trivial

end Parts

section Close

variable (hdoes : ∀ m m', C.inv m → Operation.close.Does m m' → C.act m m')
  (hasks : ∀ inv, inv.AskedUnder o C.inv → C.ask inv)
include hdoes hasks

theorem obeys_leave : Obeys C (Code.leave o) := by
  refine Obeys.bind (obeys_store hdoes fun m => .leaves m) fun _ => ?_
  exact meets_send (hasks _ rfl) fun _ _ => trivial

theorem obeys_release (hopen : ∃ m, C.inv m ∧ m.closed = false) : Obeys C (Code.release o) := by
  refine Obeys.bind (obeys_load hdoes _) fun popped => Meets.ite (fun _ => ?_) fun _ => trivial
  refine meets_send (hasks _ ⟨rfl, hopen⟩) fun reply _ => ?_
  split
  · exact obeys_requeued hdoes (fun _ hopen => hasks _ hopen) _
  · trivial

theorem obeys_close : Obeys C (Code.close o) := by
  have hstop : Obeys C (do Code.leave o; store fun m => { m with stopped := true } : Code Unit) :=
    Obeys.bind (obeys_leave hdoes hasks) fun _ => obeys_store hdoes fun m => .stops m
  refine Obeys.bind (obeys_leave hdoes hasks) fun _ => ?_
  refine fun m hm => ⟨hdoes m _ hm (.closes m), fun _ => ?_⟩
  show Obeys C (Process.bind (done m.closed) _)
  cases hclosed : m.closed with
  | true => exact hstop
  | false =>
      have hreleased := Obeys.bind (obeys_release hdoes hasks ⟨m, hm, hclosed⟩) fun _ => hstop
      exact hreleased

end Close

/-- The code of an operation meets a contract that admits what it does. -/
theorem code_meets (hdoes : ∀ m m', C.inv m → op.Does m m' → C.act m m')
    (hasks : ∀ inv, inv.AskedUnder o C.inv → C.ask inv) (hends : C.ends) :
    (op.code o).Fulfils C := by
  suffices hobeys : Obeys C (op.code o) from hobeys.imp fun _ _ => hends
  cases op with
  | subscribe =>
      exact Obeys.bind (obeys_store hdoes fun m => .subscribes m) fun _ =>
        obeys_markIdle hdoes hasks
  | len => exact obeys_len hdoes hasks
  | nudge => exact obeys_nudge hdoes hasks
  | dequeue => exact obeys_dequeue hdoes hasks rfl
  | dequeueWithAckId start vt hbt => exact obeys_dequeueWithAckId hdoes hasks rfl start vt hbt
  | dequeueBatch slots start want vt hbt =>
      exact obeys_dequeueBatch hdoes hasks rfl slots start want vt hbt
  | tick hbt => exact obeys_tick hdoes hasks rfl hbt
  | pause => exact obeys_setPause hdoes rfl true fun hopen => hasks _ hopen
  | resume => exact obeys_setPause hdoes rfl false fun hopen => hasks _ hopen
  | controlResumed =>
      exact Obeys.bind (obeys_store hdoes fun m => .learns _ m (Or.inr rfl)) fun _ =>
        obeys_store hdoes fun m => .sets _ m false (Or.inr rfl)
  | controlPaused => exact obeys_store hdoes fun m => .learns _ m (Or.inr rfl)
  | pauseLoop p => exact obeys_store hdoes fun m => .rechecks m p
  | close => exact obeys_close hdoes hasks
  | other inv =>
      refine Meets.ite (fun hbystander => ?_) fun _ => trivial
      refine meets_send (hasks _ ?_) fun _ _ => trivial
      cases inv <;> first | exact hbystander | cases hbystander

end Code

/-- What runs was sent. -/
theorem Asks.sent {k : Kind} {cj : Cjson} {e : ℕ → Net.Event Owner Operation Env} {n : ℕ}
    {o : Owner} {op : Operation} {inv : Invocation} {env : Env} (h : Asks k cj e n o op inv env) :
    ∃ i : ℕ, (objectsAt k cj e n).sent[i]? = some ⟨o, op, inv⟩ := by
  unfold Asks Net.runs Net.running at h
  split at h
  · next i _ _ =>
      obtain ⟨r, hr, heq⟩ := Option.map_eq_some_iff.mp h
      obtain ⟨rfl, -⟩ := Prod.mk.inj heq
      exact ⟨i, hr⟩
  · cases h

end Redisq.Model
