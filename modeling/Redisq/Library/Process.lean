import Redisq.Library.Trajectory
import Mathlib.Logic.Function.Basic

/-!
# Processes that share memory and ask a server

A process is code cut at its atomic operations: it reads and writes a memory
that other processes share (`act`), or sends a request and waits for the reply
or an error (`call`).  In a `Net` any number of processes take their
operations in any order.  The server runs what was sent, each request in one
step; a copy of a request may run late, more than once or never.
-/

/-- Code over a memory `σ` that sends requests `ρ` and gets replies `π`. -/
inductive Process (σ ρ π α : Type) : Type 1
  | done (a : α)
  | act {β : Type} (effect : σ → β × σ) (next : β → Process σ ρ π α)
  | call (request : ρ) (next : Option π → Process σ ρ π α)

namespace Process

variable {σ ρ π α β : Type}

/-- Go on with what `x` returns. -/
def bind : Process σ ρ π α → (α → Process σ ρ π β) → Process σ ρ π β
  | .done a, f => f a
  | .act effect next, f => .act effect fun b => (next b).bind f
  | .call request next, f => .call request fun reply => (next reply).bind f

instance : Monad (Process σ ρ π) where
  pure := .done
  bind := bind

/-- Read from the memory. -/
def load (f : σ → α) : Process σ ρ π α :=
  .act (fun m => (f m, m)) .done

/-- Write to the memory. -/
def store (f : σ → σ) : Process σ ρ π Unit :=
  .act (fun m => ((), f m)) .done

/-- Read and write in one operation. -/
def swap (effect : σ → α × σ) : Process σ ρ π α :=
  .act effect .done

/-- Send a request; `none` is an error, or no reply. -/
def send (request : ρ) : Process σ ρ π (Option π) :=
  .call request .done

/-- Every operation on the memory is as `R` says, and every request as `P`
says. -/
def Within (R : σ → σ → Prop) (P : ρ → Prop) : Process σ ρ π α → Prop
  | .done _ => True
  | .act effect next => (∀ m, R m (effect m).2) ∧ ∀ b, (next b).Within R P
  | .call request next => P request ∧ ∀ reply, (next reply).Within R P

section Within

variable {R : σ → σ → Prop} {P : ρ → Prop}

theorem within_pure (a : α) : (pure a : Process σ ρ π α).Within R P := trivial

theorem within_load (hR : ∀ m, R m m) (f : σ → α) : (load f : Process σ ρ π α).Within R P :=
  ⟨hR, fun _ => trivial⟩

theorem within_store {f : σ → σ} (hR : ∀ m, R m (f m)) :
    (store f : Process σ ρ π Unit).Within R P :=
  ⟨hR, fun _ => trivial⟩

theorem within_swap {effect : σ → α × σ} (hR : ∀ m, R m (effect m).2) :
    (swap effect : Process σ ρ π α).Within R P :=
  ⟨hR, fun _ => trivial⟩

theorem within_send {request : ρ} (hP : P request) :
    (send request : Process σ ρ π (Option π)).Within R P :=
  ⟨hP, fun _ => trivial⟩

theorem Within.bind {x : Process σ ρ π α} {f : α → Process σ ρ π β} (hx : x.Within R P)
    (hf : ∀ a, (f a).Within R P) : (x >>= f).Within R P := by
  induction x with
  | done a => exact hf a
  | act effect next ih => exact ⟨hx.1, fun b => ih b (hx.2 b)⟩
  | call request next ih => exact ⟨hx.1, fun reply => ih reply (hx.2 reply)⟩

theorem Within.ite {p : Prop} [Decidable p] {x y : Process σ ρ π α} (hx : x.Within R P)
    (hy : y.Within R P) : (if p then x else y).Within R P := by
  split
  · exact hx
  · exact hy

end Within

end Process

/-- Where a process is. -/
inductive Process.Point (σ ρ π : Type) : Type 1
  | ready (rest : Process σ ρ π Unit)
  | waiting (sent : ℕ) (next : Option π → Process σ ρ π Unit)

/-- A process that runs operation `op` on the memory of `owner`. -/
structure Net.Task (ι κ σ ρ π : Type) : Type 1 where
  owner : ι
  op : κ
  point : Process.Point σ ρ π

/-- A request, by whom it was sent and in which operation. -/
structure Net.Message (ι κ ρ : Type) where
  owner : ι
  op : κ
  request : ρ

/-- The memories, the processes, what was sent, which of it ran with what
reply, and the server. -/
structure Net (ι κ σ ρ π τ : Type) : Type 1 where
  memory : ι → σ
  tasks : ℕ → Option (Net.Task ι κ σ ρ π)
  sent : List (Net.Message ι κ ρ)
  log : List (ℕ × π)
  server : τ

/-- A process starts, takes its next operation, reads the reply of a run or
gets an error, or the server runs what was sent, in circumstances `ε`. -/
inductive Net.Event (ι κ ε : Type)
  | start (c : ℕ) (owner : ι) (op : κ)
  | step (c : ℕ)
  | read (c j : ℕ)
  | fail (c : ℕ)
  | run (i : ℕ) (env : ε)

/-- What the processes of an operation do, and how the server answers. -/
structure Net.Rules (ι κ σ ρ π τ ε : Type) : Type 1 where
  code : ι → κ → Process σ ρ π Unit
  serve : ε → ρ → τ → π × τ

namespace Net

variable {ι κ σ ρ π τ ε : Type} [DecidableEq ι]

/-- Process `c` is at another point. -/
def move (net : Net ι κ σ ρ π τ) (c : ℕ) (t : Task ι κ σ ρ π) (p : Process.Point σ ρ π) :
    Net ι κ σ ρ π τ :=
  { net with tasks := Function.update net.tasks c (some { t with point := p }) }

/-- Its operation on the memory. -/
def act {β : Type} (net : Net ι κ σ ρ π τ) (c : ℕ) (t : Task ι κ σ ρ π) (effect : σ → β × σ)
    (next : β → Process σ ρ π Unit) : Net ι κ σ ρ π τ :=
  { net.move c t (.ready (next (effect (net.memory t.owner)).1)) with
    memory := Function.update net.memory t.owner (effect (net.memory t.owner)).2 }

/-- It sends a request. -/
def send (net : Net ι κ σ ρ π τ) (c : ℕ) (t : Task ι κ σ ρ π) (request : ρ)
    (next : Option π → Process σ ρ π Unit) : Net ι κ σ ρ π τ :=
  { net.move c t (.waiting net.sent.length next) with
    sent := net.sent ++ [⟨t.owner, t.op, request⟩] }

/-- The server runs request `i`. -/
def serve (rules : Rules ι κ σ ρ π τ ε) (net : Net ι κ σ ρ π τ) (i : ℕ) (env : ε) (request : ρ) :
    Net ι κ σ ρ π τ :=
  { net with
    log := net.log ++ [(i, (rules.serve env request net.server).1)]
    server := (rules.serve env request net.server).2 }

/-- The request that runs in an event, with who sent it. -/
def running (net : Net ι κ σ ρ π τ) : Event ι κ ε → Option (Message ι κ ρ × ε)
  | .run i env => net.sent[i]?.map fun m => (m, env)
  | _ => none

/-- What an event makes of the net. -/
def step (rules : Rules ι κ σ ρ π τ ε) (net : Net ι κ σ ρ π τ) (ev : Event ι κ ε) :
    Net ι κ σ ρ π τ :=
  match ev with
  | .start c owner op =>
      match net.tasks c with
      | none => net.move c ⟨owner, op, .ready (.done ())⟩ (.ready (rules.code owner op))
      | some _ => net
  | .step c =>
      match net.tasks c with
      | some ⟨owner, op, .ready (.act effect next)⟩ =>
          net.act c ⟨owner, op, .ready (.act effect next)⟩ effect next
      | some ⟨owner, op, .ready (.call request next)⟩ =>
          net.send c ⟨owner, op, .ready (.call request next)⟩ request next
      | _ => net
  | .read c j =>
      match net.tasks c, net.log[j]? with
      | some ⟨owner, op, .waiting sent next⟩, some (i, reply) =>
          if sent = i then
            net.move c ⟨owner, op, .waiting sent next⟩ (.ready (next (some reply)))
          else net
      | _, _ => net
  | .fail c =>
      match net.tasks c with
      | some ⟨owner, op, .waiting sent next⟩ =>
          net.move c ⟨owner, op, .waiting sent next⟩ (.ready (next none))
      | _ => net
  | .run i env =>
      match net.sent[i]? with
      | none => net
      | some m => net.serve rules i env m.request

/-- An answer that process `c`, waiting for one to request `i`, gets. -/
def Answers (net : Net ι κ σ ρ π τ) (ev : Event ι κ ε) (c i : ℕ) (reply : Option π) : Prop :=
  match reply with
  | none => ev = .fail c
  | some r => ∃ j, ev = .read c j ∧ net.log[j]? = some (i, r)

/-- The ways in which an event changes a net. -/
inductive Change (rules : Rules ι κ σ ρ π τ ε) (net : Net ι κ σ ρ π τ) (ev : Event ι κ ε) :
    Net ι κ σ ρ π τ → Prop
  | stays (hrun : net.running ev = none) : Change rules net ev net
  | started (c : ℕ) (owner : ι) (op : κ) (hev : ev = .start c owner op)
      (hnew : net.tasks c = none) :
      Change rules net ev
        (net.move c ⟨owner, op, .ready (.done ())⟩ (.ready (rules.code owner op)))
  | acted {β : Type} (c : ℕ) (t : Task ι κ σ ρ π) (effect : σ → β × σ)
      (next : β → Process σ ρ π Unit) (hev : ev = .step c) (ht : net.tasks c = some t)
      (hpoint : t.point = .ready (.act effect next)) :
      Change rules net ev (net.act c t effect next)
  | sends (c : ℕ) (t : Task ι κ σ ρ π) (request : ρ) (next : Option π → Process σ ρ π Unit)
      (hev : ev = .step c) (ht : net.tasks c = some t)
      (hpoint : t.point = .ready (.call request next)) :
      Change rules net ev (net.send c t request next)
  | answered (c : ℕ) (t : Task ι κ σ ρ π) (i : ℕ) (next : Option π → Process σ ρ π Unit)
      (reply : Option π) (ht : net.tasks c = some t) (hpoint : t.point = .waiting i next)
      (hanswers : net.Answers ev c i reply) :
      Change rules net ev (net.move c t (.ready (next reply)))
  | served (i : ℕ) (env : ε) (m : Message ι κ ρ) (hev : ev = .run i env)
      (hm : net.sent[i]? = some m) : Change rules net ev (net.serve rules i env m.request)

theorem step_change (rules : Rules ι κ σ ρ π τ ε) (net : Net ι κ σ ρ π τ) (ev : Event ι κ ε) :
    Change rules net ev (net.step rules ev) := by
  cases ev with
  | start c owner op =>
      simp only [step]
      split
      · next hnew => exact .started c owner op rfl hnew
      · exact .stays rfl
  | step c =>
      simp only [step]
      split
      · next ht => exact .acted c _ _ _ rfl ht rfl
      · next ht => exact .sends c _ _ _ rfl ht rfl
      · exact .stays rfl
  | read c j =>
      simp only [step]
      split
      · next ht hlog =>
          split
          · next hi => exact .answered c _ _ _ _ ht rfl ⟨j, rfl, by rw [hlog, hi]⟩
          · exact .stays rfl
      · exact .stays rfl
  | fail c =>
      simp only [step]
      split
      · next ht => exact .answered c _ _ _ _ ht rfl rfl
      · exact .stays rfl
  | run i env =>
      simp only [step]
      split
      · next hm => exact .stays (by rw [running, hm]; rfl)
      · next m hm => exact .served i env m rfl hm

/-- The net before event `n`. -/
def state (rules : Rules ι κ σ ρ π τ ε) (init : Net ι κ σ ρ π τ) (e : ℕ → Event ι κ ε) (n : ℕ) :
    Net ι κ σ ρ π τ :=
  Trajectory.state (step rules) init e n

/-- What runs in event `n`. -/
def runs (rules : Rules ι κ σ ρ π τ ε) (init : Net ι κ σ ρ π τ) (e : ℕ → Event ι κ ε) (n : ℕ) :
    Option (Message ι κ ρ × ε) :=
  (state rules init e n).running (e n)

section Steps

variable {rules : Rules ι κ σ ρ π τ ε} {net net' : Net ι κ σ ρ π τ} {ev : Event ι κ ε} {c c' : ℕ}
  {t t' : Task ι κ σ ρ π} {p : Process.Point σ ρ π}

omit [DecidableEq ι] in
@[simp] theorem move_self : (net.move c t p).tasks c = some { t with point := p } := by
  simp [move]

omit [DecidableEq ι] in
@[simp] theorem move_of_ne (hc : c' ≠ c) : (net.move c t p).tasks c' = net.tasks c' := by
  simp [move, hc]

@[simp] theorem act_memory_self {β : Type} {effect : σ → β × σ}
    {next : β → Process σ ρ π Unit} :
    (net.act c t effect next).memory t.owner = (effect (net.memory t.owner)).2 := by
  simp [act]

@[simp] theorem act_memory_of_ne {β : Type} {effect : σ → β × σ}
    {next : β → Process σ ρ π Unit} {o : ι} (ho : o ≠ t.owner) :
    (net.act c t effect next).memory o = net.memory o := by
  simp [act, move, ho]

/-- What the server makes of a request that runs. -/
def servedBy (rules : Rules ι κ σ ρ π τ ε) (server : τ) (r : Option (Message ι κ ρ × ε)) : τ :=
  match r with
  | none => server
  | some (m, env) => (rules.serve env m.request server).2

/-- Only requests that run change the server. -/
theorem Change.server (h : Change rules net ev net') :
    net'.server = servedBy rules net.server (net.running ev) := by
  cases h with
  | stays hrun => rw [hrun]; rfl
  | started c owner op hev => rw [hev]; rfl
  | acted c t effect next hev => rw [hev]; rfl
  | sends c t request next hev => rw [hev]; rfl
  | answered c t i next reply ht hpoint hanswers =>
      cases reply with
      | none => rw [show ev = .fail c from hanswers]; rfl
      | some r =>
          obtain ⟨j, rfl, -⟩ := hanswers
          rfl
  | served i env m hev hm => rw [hev, running, hm]; rfl

/-! ### What processes may still do -/

/-- `P` holds of the code that is left, or `Q` of what is done with the
answer that is waited for. -/
def Task.Left (P : Process σ ρ π Unit → Prop) (Q : (Option π → Process σ ρ π Unit) → Prop)
    (t : Task ι κ σ ρ π) : Prop :=
  match t.point with
  | .ready rest => P rest
  | .waiting _ next => Q next

/-- Properties of code over the memory it finds.  Its own operations hand them
on, and so does what others do to the memory, which is as `R` says. -/
structure Inherited (R : σ → σ → Prop) (P : σ → Process σ ρ π Unit → Prop)
    (Q : σ → (Option π → Process σ ρ π Unit) → Prop) : Prop where
  act : ∀ {β : Type} (m : σ) (effect : σ → β × σ) next, R m (effect m).2 →
    P m (.act effect next) → P (effect m).2 (next (effect m).1)
  call : ∀ m request next, P m (.call request next) → Q m next
  answer : ∀ m next, Q m next → ∀ reply, P m (next reply)
  ready : ∀ m m' rest, R m m' → P m rest → P m' rest
  waiting : ∀ m m' next, R m m' → Q m next → Q m' next

/-- A property of some operations only. -/
theorem Inherited.imp {R : σ → σ → Prop} {P : σ → Process σ ρ π Unit → Prop}
    {Q : σ → (Option π → Process σ ρ π Unit) → Prop} (p : Prop) (h : Inherited R P Q) :
    Inherited R (fun m rest => p → P m rest) (fun m next => p → Q m next) where
  act m effect next hm hrest hp := h.act m effect next hm (hrest hp)
  call m request next hrest hp := h.call m request next (hrest hp)
  answer m next hnext reply hp := h.answer m next (hnext hp) reply
  ready m m' rest hm hrest hp := h.ready m m' rest hm (hrest hp)
  waiting m m' next hm hnext hp := h.waiting m m' next hm (hnext hp)

/-- A process stays, with less left. -/
theorem Change.task {R : σ → σ → Prop} {P : σ → Process σ ρ π Unit → Prop}
    {Q : σ → (Option π → Process σ ρ π Unit) → Prop} (hP : Inherited R P Q)
    (h : Change rules net ev net') (ht : net.tasks c = some t)
    (hleft : t.Left (P (net.memory t.owner)) (Q (net.memory t.owner)))
    (hR : R (net.memory t.owner) (net'.memory t.owner)) :
    ∃ t', net'.tasks c = some t' ∧ t'.owner = t.owner ∧ t'.op = t.op ∧
      t'.Left (P (net'.memory t.owner)) (Q (net'.memory t.owner)) := by
  have hstays : t.Left (P (net'.memory t.owner)) (Q (net'.memory t.owner)) := by
    unfold Task.Left at hleft ⊢
    split
    · next hpoint =>
        rw [hpoint] at hleft
        exact hP.ready _ _ _ hR hleft
    · next hpoint =>
        rw [hpoint] at hleft
        exact hP.waiting _ _ _ hR hleft
  cases h with
  | stays => exact ⟨t, ht, rfl, rfl, hstays⟩
  | started c' owner op hev hnew =>
      have hne : c ≠ c' := fun heq => by
        rw [heq, hnew] at ht
        cases ht
      exact ⟨t, (move_of_ne hne).trans ht, rfl, rfl, hstays⟩
  | acted c' t' effect next hev ht' hpoint =>
      by_cases heq : c = c'
      · obtain rfl := heq
        obtain rfl := Option.some.inj (ht.symm.trans ht')
        rw [Task.Left, hpoint] at hleft
        refine ⟨_, move_self, rfl, rfl, ?_⟩
        rw [act_memory_self] at hR ⊢
        exact hP.act _ _ _ hR hleft
      · exact ⟨t, (move_of_ne heq).trans ht, rfl, rfl, hstays⟩
  | sends c' t' request next hev ht' hpoint =>
      by_cases heq : c = c'
      · obtain rfl := heq
        obtain rfl := Option.some.inj (ht.symm.trans ht')
        rw [Task.Left, hpoint] at hleft
        exact ⟨_, move_self, rfl, rfl, hP.call _ _ _ hleft⟩
      · exact ⟨t, (move_of_ne heq).trans ht, rfl, rfl, hstays⟩
  | answered c' t' i next reply ht' hpoint hanswers =>
      by_cases heq : c = c'
      · obtain rfl := heq
        obtain rfl := Option.some.inj (ht.symm.trans ht')
        rw [Task.Left, hpoint] at hleft
        exact ⟨_, move_self, rfl, rfl, hP.answer _ _ hleft reply⟩
      · exact ⟨t, (move_of_ne heq).trans ht, rfl, rfl, hstays⟩
  | served i env m hev hm => exact ⟨t, ht, rfl, rfl, hstays⟩

/-- A process is there from its start. -/
theorem Change.begun (h : Change rules net ev net') (hnew : net.tasks c = none)
    (ht : net'.tasks c = some t) :
    ev = .start c t.owner t.op ∧ t.point = .ready (rules.code t.owner t.op) := by
  have hgone : ∀ {t' : Task ι κ σ ρ π} {c'}, net.tasks c' = some t' → c ≠ c' :=
    fun ht' heq => by
      rw [← heq, hnew] at ht'
      cases ht'
  have hstill : net.tasks c ≠ some t := fun hsome => by
    rw [hnew] at hsome
    cases hsome
  cases h with
  | stays => exact absurd ht hstill
  | started c' owner op hev hnew' =>
      by_cases heq : c = c'
      · obtain rfl := heq
        obtain rfl := Option.some.inj (move_self.symm.trans ht)
        exact ⟨hev, rfl⟩
      · exact absurd ((move_of_ne heq).symm.trans ht) hstill
  | acted c' t' effect next hev ht' => exact absurd ((move_of_ne (hgone ht')).symm.trans ht) hstill
  | sends c' t' request next hev ht' =>
      exact absurd ((move_of_ne (hgone ht')).symm.trans ht) hstill
  | answered c' t' i next reply ht' =>
      exact absurd ((move_of_ne (hgone ht')).symm.trans ht) hstill
  | served => exact absurd ht hstill

/-- What is sent comes from what was left to do. -/
theorem Change.sent (h : Change rules net ev net') :
    net'.sent = net.sent ∨
      ∃ c t request next, net.tasks c = some t ∧ t.point = .ready (.call request next) ∧
        net'.sent = net.sent ++ [⟨t.owner, t.op, request⟩] := by
  cases h with
  | sends c t request next hev ht hpoint =>
      exact Or.inr ⟨c, t, request, next, ht, hpoint, rfl⟩
  | _ => exact Or.inl rfl

/-- A process that waits for an answer to a request sent before has waited
before. -/
theorem Change.waited (h : Change rules net ev net') (ht : net'.tasks c = some t) {i : ℕ}
    {next : Option π → Process σ ρ π Unit} (hpoint : t.point = .waiting i next)
    (hi : i < net.sent.length) : net.tasks c = some t := by
  cases h with
  | stays => exact ht
  | started c' owner op hev hnew =>
      by_cases heq : c = c'
      · obtain rfl := heq
        obtain rfl := Option.some.inj (move_self.symm.trans ht)
        cases hpoint
      · exact (move_of_ne heq).symm.trans ht
  | acted c' t' effect next' hev ht' hpoint' =>
      by_cases heq : c = c'
      · obtain rfl := heq
        have hready : (net.act c t' effect next').tasks c = _ := move_self
        obtain rfl := Option.some.inj (hready.symm.trans ht)
        cases hpoint
      · exact (move_of_ne heq).symm.trans ht
  | sends c' t' request next' hev ht' hpoint' =>
      by_cases heq : c = c'
      · obtain rfl := heq
        have hwaiting : (net.send c t' request next').tasks c = _ := move_self
        obtain rfl := Option.some.inj (hwaiting.symm.trans ht)
        cases hpoint
        exact absurd hi (lt_irrefl _)
      · exact (move_of_ne heq).symm.trans ht
  | answered c' t' j next' reply ht' hpoint' =>
      by_cases heq : c = c'
      · obtain rfl := heq
        obtain rfl := Option.some.inj (move_self.symm.trans ht)
        cases hpoint
      · exact (move_of_ne heq).symm.trans ht
  | served => exact ht

/-- What ran with what reply is remembered. -/
theorem Change.log (h : Change rules net ev net') : net.log <+: net'.log := by
  cases h with
  | served i env m => exact List.prefix_append _ _
  | _ => exact List.prefix_rfl

/-- A memory changes by an operation of a process of its owner. -/
theorem Change.memory {R : σ → σ → Prop} {P : ι → κ → ρ → Prop} (h : Change rules net ev net')
    {o : ι} (hrefl : ∀ m, R m m)
    (hwithin : ∀ c t, ev = .step c → net.tasks c = some t → t.owner = o →
      t.Left (Process.Within R (P t.owner t.op)) fun _ => True) :
    R (net.memory o) (net'.memory o) := by
  cases h with
  | acted c t effect next hev ht hpoint =>
      by_cases ho : o = t.owner
      · have hleft := hwithin c t hev ht ho.symm
        rw [Task.Left, hpoint] at hleft
        rw [ho, act_memory_self]
        exact hleft.1 _
      · rw [act_memory_of_ne ho]
        exact hrefl _
  | _ => exact hrefl _

end Steps

/-! ### Runs -/

section Runs

variable {rules : Rules ι κ σ ρ π τ ε} {init : Net ι κ σ ρ π τ} {e : ℕ → Event ι κ ε} {m n : ℕ}
  {c : ℕ} {t : Task ι κ σ ρ π} {R : σ → σ → Prop}

variable (rules init e) in
theorem state_succ (n : ℕ) :
    Change rules (state rules init e n) (e n) (state rules init e (n + 1)) :=
  step_change rules (state rules init e n) (e n)

variable (rules init e) in
theorem state_log (hmn : m ≤ n) : (state rules init e m).log <+: (state rules init e n).log := by
  induction n, hmn using Nat.le_induction with
  | base => exact List.prefix_rfl
  | succ n hmn ih => exact ih.trans (state_succ rules init e n).log

/-- The reply of a run is found where the log ended then. -/
theorem state_logged {i : ℕ} {env : ε} (hrun : e m = .run i env)
    (hi : i < (state rules init e m).sent.length) (hmn : m < n) :
    ∃ reply, (state rules init e n).log[(state rules init e m).log.length]? = some (i, reply) := by
  have hnext : state rules init e (m + 1) =
      (state rules init e m).serve rules i env (state rules init e m).sent[i].request := by
    show step rules (state rules init e m) (e m) = _
    rw [hrun]
    simp only [step, List.getElem?_eq_getElem hi]
  obtain ⟨later, hlater⟩ := state_log rules init e hmn
  refine ⟨(rules.serve env (state rules init e m).sent[i].request
    (state rules init e m).server).1, ?_⟩
  rw [← hlater, hnext]
  simp [serve]

/-- A process that waits for an answer has waited since the request was
sent. -/
theorem state_waited (hmn : m ≤ n) (ht : (state rules init e n).tasks c = some t) {i : ℕ}
    {next : Option π → Process σ ρ π Unit} (hpoint : t.point = .waiting i next)
    (hi : i < (state rules init e m).sent.length) : (state rules init e m).tasks c = some t := by
  induction n, hmn using Nat.le_induction with
  | base => exact ht
  | succ n hmn ih =>
      have hsent : ∀ n, (state rules init e n).sent.length ≤
          (state rules init e (n + 1)).sent.length := fun n => by
        obtain hsame | ⟨_, _, _, _, _, _, hmore⟩ :=
          (state_succ rules init e n).sent
        · rw [hsame]
        · rw [hmore, List.length_append]
          exact Nat.le_add_right _ _
      have hlater : i < (state rules init e n).sent.length :=
        hi.trans_le (monotone_nat_of_le_succ hsent hmn)
      exact ih ((state_succ rules init e n).waited ht hpoint hlater)

section Left

variable {P : σ → Process σ ρ π Unit → Prop} {Q : σ → (Option π → Process σ ρ π Unit) → Prop}

/-- From a moment on, what is left is as it was then. -/
theorem state_left_from (hP : Inherited R P Q)
    (hR : ∀ n o, R ((state rules init e n).memory o) ((state rules init e (n + 1)).memory o))
    (hmn : m ≤ n) (ht : (state rules init e m).tasks c = some t)
    (hleft : t.Left (P ((state rules init e m).memory t.owner))
      (Q ((state rules init e m).memory t.owner))) :
    ∃ t', (state rules init e n).tasks c = some t' ∧ t'.owner = t.owner ∧ t'.op = t.op ∧
      t'.Left (P ((state rules init e n).memory t.owner))
        (Q ((state rules init e n).memory t.owner)) := by
  induction n, hmn using Nat.le_induction with
  | base => exact ⟨t, ht, rfl, rfl, hleft⟩
  | succ n hmn ih =>
      obtain ⟨t₁, ht₁, howner₁, hop₁, hleft₁⟩ := ih
      rw [← howner₁] at hleft₁
      obtain ⟨t₂, ht₂, howner₂, hop₂, hleft₂⟩ :=
        (state_succ rules init e n).task hP ht₁ hleft₁ (hR n _)
      rw [howner₁] at hleft₂
      exact ⟨t₂, ht₂, howner₂.trans howner₁, hop₂.trans hop₁, hleft₂⟩

end Left

/-- A process keeps its owner and its operation. -/
theorem state_stays (hmn : m ≤ n) (ht : (state rules init e m).tasks c = some t) :
    ∃ t', (state rules init e n).tasks c = some t' ∧ t'.owner = t.owner ∧ t'.op = t.op := by
  have htrivial : Inherited (fun _ _ : σ => True) (fun _ (_ : Process σ ρ π Unit) => True)
      fun _ _ => True :=
    ⟨fun _ _ _ _ _ => trivial, fun _ _ _ _ => trivial, fun _ _ _ _ => trivial,
      fun _ _ _ _ _ => trivial, fun _ _ _ _ _ => trivial⟩
  have hleft : t.Left (fun _ => True) fun _ => True := by
    unfold Task.Left
    split <;> trivial
  obtain ⟨t', ht', howner, hop, -⟩ :=
    state_left_from htrivial (fun _ _ => trivial) hmn ht hleft
  exact ⟨t', ht', howner, hop⟩

/-- What is left of a process is as the codes are when processes start. -/
theorem state_left {P : ι → κ → σ → Process σ ρ π Unit → Prop}
    {Q : ι → κ → σ → (Option π → Process σ ρ π Unit) → Prop}
    (hP : ∀ o op, Inherited R (P o op) (Q o op))
    (hR : ∀ n o, R ((state rules init e n).memory o) ((state rules init e (n + 1)).memory o))
    (hcode : ∀ i o op, m ≤ i → P o op ((state rules init e i).memory o) (rules.code o op))
    (hnew : (state rules init e m).tasks c = none) (hmn : m ≤ n)
    (ht : (state rules init e n).tasks c = some t) :
    t.Left (P t.owner t.op ((state rules init e n).memory t.owner))
      (Q t.owner t.op ((state rules init e n).memory t.owner)) := by
  induction n, hmn using Nat.le_induction generalizing t with
  | base =>
      rw [hnew] at ht
      cases ht
  | succ n hmn ih =>
      cases hbefore : (state rules init e n).tasks c with
      | none =>
          have hpoint := ((state_succ rules init e n).begun hbefore ht).2
          rw [Task.Left, hpoint]
          exact hcode _ _ _ (by omega)
      | some t₀ =>
          obtain ⟨t', ht', howner, hop, hleft⟩ :=
            (state_succ rules init e n).task (hP t₀.owner t₀.op) hbefore (ih hbefore) (hR n _)
          obtain rfl := Option.some.inj (ht'.symm.trans ht)
          rw [howner, hop]
          exact hleft

theorem within_inherited {S : σ → σ → Prop} {P : ρ → Prop} :
    Inherited (fun _ _ => True) (fun _ => Process.Within S P)
      (fun _ (next : Option π → Process σ ρ π Unit) => ∀ reply, (next reply).Within S P) where
  act _ _ _ _ h := h.2 _
  call _ _ _ h := h.2
  answer _ _ h := h
  ready _ _ _ _ h := h
  waiting _ _ _ _ h := h

section Within

variable {P : ι → κ → ρ → Prop} (hcode : ∀ o op, (rules.code o op).Within R (P o op))
  (hinit : ∀ c, init.tasks c = none)
include hcode hinit

/-- Every memory changes as the codes say. -/
theorem state_memory (hrefl : ∀ m, R m m) (n : ℕ) (o : ι) :
    R ((state rules init e n).memory o) ((state rules init e (n + 1)).memory o) := by
  refine (state_succ rules init e n).memory (P := P) hrefl fun c t _ ht _ => ?_
  have hleft := state_left (m := 0) (fun _ _ => within_inherited) (fun _ _ => trivial)
    (fun _ o op _ => hcode o op) (hinit c) (Nat.zero_le n) ht
  unfold Task.Left at hleft ⊢
  split
  · next hpoint =>
      rw [hpoint] at hleft
      exact hleft
  · trivial

/-- What was sent is what the codes send. -/
theorem state_sent (hsent : init.sent = []) (n : ℕ) :
    ∀ m ∈ (state rules init e n).sent, P m.owner m.op m.request := by
  induction n with
  | zero =>
      intro m hm
      rw [show (state rules init e 0).sent = [] from hsent] at hm
      cases hm
  | succ n ih =>
      intro m hm
      obtain hsame | ⟨c, t, request, next, ht, hpoint, hmore⟩ :=
        (state_succ rules init e n).sent
      · rw [hsame] at hm
        exact ih m hm
      · rw [hmore] at hm
        obtain hm | hm := List.mem_append.mp hm
        · exact ih m hm
        · have hleft := state_left (m := 0) (fun _ _ => within_inherited) (fun _ _ => trivial)
            (fun _ o op _ => hcode o op) (hinit c) (Nat.zero_le n) ht
          rw [Task.Left, hpoint] at hleft
          rw [List.mem_singleton.mp hm]
          exact hleft.1

end Within

end Runs

end Net
