import Redisq.Model.Objects

/-!
# Stale replies

A pop or a sweep reads the generation before it asks, and takes over what the
reply says of the pause only if the generation is still the same.  A Pause, a
Resume or a control message that the object got to know after the script ran
has moved it on, so that the reply changes nothing (`stale_reply_ignored`).
-/

namespace Redisq.Model

open Process

/-- A pop or a sweep. -/
def Operation.observes : Operation → Bool
  | .dequeue => true
  | .dequeueWithAckId _ _ _ => true
  | .dequeueBatch _ _ _ _ _ => true
  | .tick _ => true
  | _ => false

/-- Once the generation is past `g`, the code leaves the pause as it is. -/
abbrev Stale (g : ℕ) {α : Type} (x : Process Memory Invocation Reply α) : Prop :=
  x.Within (fun m m' => g < m.gen → m'.paused = m.paused) fun _ => True

/-- The code leaves the pause as it is until it asks, and with the answer once
the generation is past what it was at the time of asking; `g` bounds the
generation from below. -/
def Watchful {α : Type} : Process Memory Invocation Reply α → ℕ → Prop
  | .done _, _ => True
  | .act effect next, g =>
      ∀ m, g ≤ m.gen → (effect m).2.paused = m.paused ∧ Watchful (next (effect m).1) m.gen
  | .call _ next, g => ∀ reply, Stale g (next reply)

section Code

variable {α β : Type} {g : ℕ}

theorem Stale.mono {g' : ℕ} (hg : g ≤ g') {x : Process Memory Invocation Reply α}
    (h : Stale g x) : Stale g' x := by
  induction x with
  | done a => trivial
  | act effect next ih =>
      exact ⟨fun m hm => h.1 m (hg.trans_lt hm), fun b => ih b (h.2 b)⟩
  | call request next ih => exact ⟨trivial, fun reply => ih reply (h.2 reply)⟩

theorem Watchful.mono {g' : ℕ} (hg : g ≤ g') {x : Process Memory Invocation Reply α}
    (h : Watchful x g) : Watchful x g' := by
  cases x with
  | done a => trivial
  | act effect next => exact fun m hm => h m (hg.trans hm)
  | call request next => exact fun reply => (h reply).mono hg

theorem stale_load (f : Memory → α) : Stale g (load f : Process Memory Invocation Reply α) :=
  within_load (fun _ _ => rfl) f

theorem stale_store {f : Memory → Memory} (h : ∀ m, (f m).paused = m.paused) :
    Stale g (store f : Code Unit) :=
  within_store fun m _ => h m

/-- An observation is stale once the generation has moved on. -/
theorem stale_observe {g₀ : ℕ} (hg : g₀ ≤ g) (p : Bool) : Stale g (Code.observe g₀ p) := by
  refine within_store fun m hm => ?_
  rw [if_neg (hg.trans_lt hm).ne']

theorem stale_sendUnder (done : Memory → Bool) (inv : Invocation) :
    Stale g (Code.sendUnder done inv) :=
  Within.bind (stale_load _) fun _ => Within.ite (within_pure _) (within_send trivial)

theorem stale_requeued (count : ℕ) : Stale g (Code.requeued count) :=
  Within.ite (Within.bind (stale_sendUnder _ _) fun _ => within_pure _) (within_pure _)

theorem stale_markIdle (o : Owner) : Stale g (Code.markIdle o) := by
  refine Within.bind (stale_load _) fun consumer => Within.ite ?_ (within_pure _)
  refine Within.bind (stale_store fun _ => rfl) fun _ => ?_
  exact Within.bind (stale_sendUnder _ _) fun _ => within_pure _

theorem stale_storeIdle (short : Bool) : Stale g (Code.storeIdle short) := by
  unfold Code.storeIdle
  split
  · exact Within.bind (stale_load _) fun _ => stale_store fun _ => rfl
  · exact stale_store fun _ => rfl

theorem watchful_load {f : Memory → α} {next : α → Code β}
    (h : ∀ m, g ≤ m.gen → Watchful (next (f m)) m.gen) : Watchful (load f >>= next) g :=
  fun m hm => ⟨rfl, h m hm⟩

theorem watchful_store {f : Memory → Memory} {next : Unit → Code β}
    (hpaused : ∀ m, (f m).paused = m.paused)
    (h : ∀ g', g ≤ g' → Watchful (next ()) g') : Watchful (store f >>= next) g :=
  fun m hm => ⟨hpaused m, h m.gen hm⟩

/-- Code that ends without asking is watchful if it leaves the pause alone. -/
theorem watchful_storeIdle (short : Bool) : Watchful (Code.storeIdle short) g := by
  unfold Code.storeIdle
  split
  · exact watchful_load fun m _ m' _ => ⟨rfl, trivial⟩
  · exact fun m _ => ⟨rfl, trivial⟩

theorem watchful_sendUnder {done : Memory → Bool} {inv : Invocation}
    {next : Option Reply → Code β} (hnone : ∀ g', g ≤ g' → Watchful (next none) g')
    (h : ∀ g', g ≤ g' → ∀ reply, Stale g' (next reply)) :
    Watchful (Code.sendUnder done inv >>= next) g := by
  intro m hm
  refine ⟨rfl, ?_⟩
  show Watchful (Process.bind (if done m = true then pure none else send inv) next) m.gen
  split
  · exact hnone m.gen hm
  · exact h m.gen hm

theorem watchful_markIdle (o : Owner) : Watchful (Code.markIdle o) g := by
  refine watchful_load fun m hm => ?_
  split
  · refine watchful_store (fun _ => rfl) fun g' _ => ?_
    exact watchful_sendUnder (fun _ _ => trivial) fun _ _ _ => within_pure _
  · trivial

end Code

/-- The generation is read before the script is sent. -/
theorem observes_watchful {op : Operation} (h : op.observes = true) (o : Owner) (g : ℕ) :
    Watchful (op.code o) g := by
  cases op with
  | dequeue =>
      refine watchful_load fun m _ => watchful_sendUnder (fun g' _ => ?_) fun g' hg reply => ?_
      · refine watchful_load fun m' _ => ?_
        split
        · exact watchful_markIdle o
        · trivial
      · have hmiss : Stale g'
            (do if !(← load Memory.paused) then Code.markIdle o : Code Unit) :=
          Within.bind (stale_load _) fun _ => Within.ite (stale_markIdle o) (within_pure _)
        split
        · exact stale_store fun _ => rfl
        · exact Within.ite (Within.bind (stale_observe hg _) fun _ => hmiss) hmiss
  | dequeueWithAckId start vt hbt =>
      refine watchful_load fun _ _ => watchful_load fun closed _ => ?_
      split
      · exact watchful_storeIdle true
      · refine watchful_store (fun _ => rfl) fun _ _ => watchful_load fun m _ => ?_
        refine watchful_sendUnder (fun g' _ => watchful_storeIdle true) fun g' hg reply => ?_
        split
        · exact stale_storeIdle _
        · exact Within.ite (Within.bind (stale_observe hg _) fun _ => stale_storeIdle _)
            (stale_storeIdle _)
  | dequeueBatch slots start want vt hbt =>
      refine watchful_load fun _ _ => ?_
      split
      · exact watchful_storeIdle false
      · refine watchful_load fun closed _ => ?_
        split
        · trivial
        · refine watchful_store (fun _ => rfl) fun _ _ => watchful_load fun m _ => ?_
          refine watchful_sendUnder (fun _ _ => trivial) fun g' hg reply => ?_
          split
          · exact stale_storeIdle _
          · exact Within.bind (stale_observe hg _) fun _ => stale_storeIdle _
          · exact within_pure _
  | tick hbt =>
      refine watchful_load fun m _ => watchful_sendUnder (fun _ _ => trivial) fun g' hg reply => ?_
      split
      · exact Within.bind (stale_observe hg _) fun _ => stale_requeued _
      · exact within_pure _
  | _ => cases h

/-! ## Pauses and control messages -/

/-- Past generation `g` by the time the code ends. -/
def Raises {α : Type} : Process Memory Invocation Reply α → ℕ → Prop
  | .done _, _ => False
  | .act effect next, g => ∀ m, g ≤ m.gen → g < (effect m).2.gen ∨ Raises (next (effect m).1) g
  | .call _ next, g => ∀ reply, Raises (next reply) g

/-- Any answer but an error makes the code move the generation on. -/
def AnswerRaises {α : Type} : Process Memory Invocation Reply α → Prop
  | .done _ => True
  | .act _ next => ∀ b, AnswerRaises (next b)
  | .call _ next =>
      (∀ reply g, Raises (next (some reply)) g) ∧ ∀ reply, AnswerRaises (next reply)

/-- A Pause or a Resume. -/
def Operation.sets : Operation → Bool
  | .pause => true
  | .resume => true
  | _ => false

/-- The handling of a control message. -/
def Operation.controls : Operation → Bool
  | .controlResumed => true
  | .controlPaused => true
  | _ => false

theorem controls_raise {op : Operation} (h : op.controls = true) (o : Owner) (g : ℕ) :
    Raises (op.code o) g := by
  cases op with
  | controlResumed => exact fun m hm => Or.inl (Nat.lt_succ_of_le hm)
  | controlPaused => exact fun m hm => Or.inl (Nat.lt_succ_of_le hm)
  | _ => cases h

theorem setPause_raises (inv : Invocation) (p : Bool) : AnswerRaises (Code.setPause inv p) := by
  intro stopped
  show AnswerRaises (Process.bind (if stopped = true then pure none else send inv) _)
  split
  · trivial
  · refine ⟨fun reply g m hm => Or.inl (Nat.lt_succ_of_le hm), fun reply => ?_⟩
    cases reply with
    | none => trivial
    | some reply => exact fun _ _ => trivial

theorem sets_raise {op : Operation} (h : op.sets = true) (o : Owner) :
    AnswerRaises (op.code o) := by
  cases op with
  | pause => exact setPause_raises _ _
  | resume => exact setPause_raises _ _
  | _ => cases h

/-! ## What the rules of a net make of it -/

theorem watchful_inherited :
    Net.Inherited Memory.Before (fun m rest => Watchful rest m.gen ∨ Stale m.gen rest)
      (fun m next => ∀ reply, Stale m.gen (next reply)) where
  act m effect next hm h := by
    obtain hwatchful | hstale := h
    · exact Or.inl ((hwatchful m le_rfl).2.mono hm)
    · exact Or.inr (Stale.mono hm (hstale.2 _))
  call m request next h := by
    obtain hwatchful | hstale := h
    · exact hwatchful
    · exact hstale.2
  answer m next h reply := Or.inr (h reply)
  ready m m' rest hm h := h.imp (Watchful.mono hm) (Stale.mono hm)
  waiting m m' next hm h reply := (h reply).mono hm

theorem raises_inherited (g : ℕ) :
    Net.Inherited Memory.Before (fun m rest => g ≤ m.gen ∧ (g < m.gen ∨ Raises rest g))
      (fun m next => g ≤ m.gen ∧ ∀ reply, g < m.gen ∨ Raises (next reply) g) where
  act m effect next hm h := by
    refine ⟨h.1.trans hm, ?_⟩
    obtain hpast | hraises := h.2
    · exact Or.inl (hpast.trans_le hm)
    · exact hraises m h.1
  call m request next h := ⟨h.1, fun reply => h.2.imp id fun hraises => hraises reply⟩
  answer m next h reply := ⟨h.1, h.2 reply⟩
  ready m m' rest hm h := ⟨h.1.trans hm, h.2.imp (fun hpast => hpast.trans_le hm) id⟩
  waiting m m' next hm h :=
    ⟨h.1.trans hm, fun reply => (h.2 reply).imp (fun hpast => hpast.trans_le hm) id⟩

theorem answerRaises_inherited :
    Net.Inherited Memory.Before (fun _ rest => AnswerRaises rest)
      (fun _ next =>
        (∀ reply g, Raises (next (some reply)) g) ∧ ∀ reply, AnswerRaises (next reply)) where
  act _ _ _ _ h := h _
  call _ _ _ h := h
  answer _ _ h reply := h.2 reply
  ready _ _ _ _ h := h
  waiting _ _ _ _ h := h

/-! ## Runs -/

section Runs

variable (k : Kind) (cj : Cjson) (e : ℕ → Net.Event Owner Operation Env)

/-- In event `q` call `c` of object `o`, a pop or a sweep, reads the reply of
the script that ran in event `r`. -/
def ReadsReplyOf (o : Owner) (c r q : ℕ) : Prop :=
  ∃ t i next env, (objectsAt k cj e q).tasks c = some t ∧ t.owner = o ∧
    t.op.observes = true ∧ t.point = .waiting i next ∧ r < q ∧ e r = .run i env ∧
    i < (objectsAt k cj e r).sent.length ∧ e q = .read c (objectsAt k cj e r).log.length

/-- Between events `r` and `n` object `o` completes a Pause or a Resume that
reads its reply after `r`, or the handling of a control message that begins
after `r`. -/
def LearnsSince (o : Owner) (r n : ℕ) : Prop :=
  ∃ c t, (objectsAt k cj e n).tasks c = some t ∧ t.owner = o ∧ t.point = .ready (.done ()) ∧
    ((t.op.controls = true ∧ (objectsAt k cj e r).tasks c = none) ∨
      (t.op.sets = true ∧ ∃ q i next t' reply, r < q ∧ q < n ∧
        (objectsAt k cj e q).tasks c = some t' ∧ t'.point = .waiting i next ∧
        (objectsAt k cj e q).Answers (e q) c i (some reply)))

end Runs

section Runs

variable {k : Kind} {cj : Cjson} {e : ℕ → Net.Event Owner Operation Env} {o : Owner}
  {c m n q r : ℕ}

theorem gen_mono (o : Owner) (hmn : m ≤ n) :
    ((objectsAt k cj e m).memory o).gen ≤ ((objectsAt k cj e n).memory o).gen :=
  monotone_nat_of_le_succ (fun n => objectsAt_gen k cj e n o) hmn

theorem answered_next {t : Net.Task Owner Operation Memory Invocation Reply} {i : ℕ}
    {next : Option Reply → Code Unit} {reply : Reply}
    (ht : (objectsAt k cj e q).tasks c = some t) (hpoint : t.point = .waiting i next)
    (hanswers : (objectsAt k cj e q).Answers (e q) c i (some reply)) :
    (objectsAt k cj e (q + 1)).tasks c = some { t with point := .ready (next (some reply)) } := by
  obtain ⟨j, hev, hlog⟩ := hanswers
  obtain ⟨owner, op, point⟩ := t
  obtain rfl : point = .waiting i next := hpoint
  have hnext : objectsAt k cj e (q + 1) = Net.step (rules k cj) (objectsAt k cj e q) (e q) := rfl
  rw [hnext, hev]
  simp only [Net.step, ht, hlog, if_true]
  exact Net.move_self

/-- A control message handled since moves the generation on. -/
theorem controls_gen {t : Net.Task Owner Operation Memory Invocation Reply}
    (ht : (objectsAt k cj e n).tasks c = some t) (hdone : t.point = .ready (.done ()))
    (hop : t.op.controls = true) (hrn : r ≤ n) (hnew : (objectsAt k cj e r).tasks c = none) :
    ((objectsAt k cj e r).memory t.owner).gen < ((objectsAt k cj e n).memory t.owner).gen := by
  have hleft := Net.state_left
    (fun o op => (raises_inherited ((objectsAt k cj e r).memory o).gen).imp (op.controls = true))
    (objectsAt_gen k cj e)
    (fun i o op hri hcontrols => ⟨gen_mono o hri, Or.inr (controls_raise hcontrols o _)⟩)
    hnew hrn ht
  rw [Net.Task.Left, hdone] at hleft
  exact (hleft hop).2.resolve_right id

/-- A Pause or a Resume that ends after its answer moves the generation on. -/
theorem sets_gen {t t' : Net.Task Owner Operation Memory Invocation Reply} {i : ℕ}
    {next : Option Reply → Code Unit} {reply : Reply}
    (ht : (objectsAt k cj e n).tasks c = some t) (hdone : t.point = .ready (.done ()))
    (hop : t.op.sets = true) (hqn : q < n) (ht' : (objectsAt k cj e q).tasks c = some t')
    (hpoint : t'.point = .waiting i next)
    (hanswers : (objectsAt k cj e q).Answers (e q) c i (some reply)) :
    ((objectsAt k cj e q).memory t.owner).gen < ((objectsAt k cj e n).memory t.owner).gen := by
  obtain ⟨t₁, ht₁, howner, hsame⟩ := Net.state_stays hqn.le ht'
  obtain rfl := Option.some.inj (ht₁.symm.trans ht)
  have hraises : ∀ g, Raises (next (some reply)) g := by
    have hleft := Net.state_left (m := 0)
      (fun _ op => answerRaises_inherited.imp (op.sets = true)) (objectsAt_gen k cj e)
      (fun _ o _ _ hsets => sets_raise hsets o) rfl (Nat.zero_le q) ht'
    rw [Net.Task.Left, hpoint] at hleft
    exact (hleft (hsame ▸ hop)).1 reply
  obtain ⟨t₂, ht₂, -, -, hleft⟩ := Net.state_left_from
    (raises_inherited ((objectsAt k cj e q).memory t'.owner).gen) (objectsAt_gen k cj e) hqn
    (answered_next ht' hpoint hanswers)
    ⟨gen_mono t'.owner q.le_succ, Or.inr (hraises _)⟩
  obtain rfl := Option.some.inj (ht₂.symm.trans ht)
  rw [Net.Task.Left, hdone] at hleft
  rw [howner]
  exact hleft.2.resolve_right id

/-- The generation is past what it was. -/
theorem learnsSince_gen (h : LearnsSince k cj e o r n) (hrn : r ≤ n) :
    ((objectsAt k cj e r).memory o).gen < ((objectsAt k cj e n).memory o).gen := by
  obtain ⟨c, t, ht, rfl, hdone, ⟨hop, hnew⟩ | ⟨hop, q, i, next, t', reply, hrq, hqn, ht', hpoint,
    hanswers⟩⟩ := h
  · exact controls_gen ht hdone hop hrn hnew
  · exact (gen_mono t.owner hrq.le).trans_lt (sets_gen ht hdone hop hqn ht' hpoint hanswers)

/-- What is left after the reply of a script is stale once the generation is
past what it was when the script ran. -/
theorem reply_stale (h : ReadsReplyOf k cj e o c r q) (hqn : q < n) :
    ∃ t, (objectsAt k cj e n).tasks c = some t ∧
      t.Left (Stale ((objectsAt k cj e r).memory o).gen)
        fun next => ∀ reply, Stale ((objectsAt k cj e r).memory o).gen (next reply) := by
  obtain ⟨t, i, next, env, ht, rfl, hop, hpoint, hrq, hrun, hi, hread⟩ := h
  have hwaited := Net.state_waited hrq.le ht hpoint hi
  have hstale : ∀ reply, Stale ((objectsAt k cj e r).memory t.owner).gen (next reply) := by
    have hleft := Net.state_left (m := 0)
      (fun _ op => watchful_inherited.imp (op.observes = true)) (objectsAt_gen k cj e)
      (fun _ o _ _ hobserves => Or.inl (observes_watchful hobserves o _)) rfl (Nat.zero_le r)
      hwaited
    rw [Net.Task.Left, hpoint] at hleft
    exact hleft hop
  obtain ⟨reply, hlogged⟩ := Net.state_logged hrun hi hrq
  obtain ⟨t', ht', -, -, hleft⟩ := Net.state_left_from Net.within_inherited (fun _ _ => trivial)
    hqn (answered_next ht hpoint ⟨_, hread, hlogged⟩) (hstale (some reply))
  exact ⟨t', ht', hleft⟩

/-- A step of a pop or a sweep after it read its reply leaves the pause as it
is, if since the script ran its object completed a Pause or a Resume or
handled a control message. -/
theorem stale_reply_ignored (k : Kind) (cj : Cjson) (e : ℕ → Net.Event Owner Operation Env)
    (hread : ReadsReplyOf k cj e o c r q) (hqn : q < n) (hstep : e n = .step c)
    (hlearns : LearnsSince k cj e o r n) :
    ((objectsAt k cj e (n + 1)).memory o).paused = ((objectsAt k cj e n).memory o).paused := by
  obtain ⟨t, ht, hleft⟩ := reply_stale hread hqn
  obtain ⟨_, _, _, _, _, _, _, _, hrq, _⟩ := hread
  refine (Net.state_succ (rules k cj) noObjects e n).memory (P := fun _ _ _ => True)
    (R := fun m m' : Memory => ((objectsAt k cj e r).memory o).gen < m.gen → m'.paused = m.paused)
    (fun _ _ => rfl) (fun c' t' hev ht' _ => ?_) (learnsSince_gen hlearns (hrq.le.trans hqn.le))
  obtain rfl : c' = c := by
    rw [hstep] at hev
    cases hev
    rfl
  obtain rfl := Option.some.inj (ht.symm.trans ht')
  unfold Net.Task.Left at hleft ⊢
  split
  · next hpoint =>
      rw [hpoint] at hleft
      exact hleft
  · trivial

end Runs

/-- A sweep's script runs, then the object's Pause from start to end, and then
the sweep observes that there was no pause. -/
def staleSweep (n : ℕ) : Net.Event Owner Operation Env :=
  let env := Env.plain 1000 fun _ => 0
  [.start 0 ownerA (.tick 0), .step 0, .step 0, .step 0, .run 0 env,
    .start 1 ownerA .pause, .step 1, .step 1, .run 1 env, .read 1 1, .step 1, .step 1,
    .read 0 0, .step 0].getD n (.step 1)

/-- The object stays paused. -/
theorem stale_reply_ignored_staleSweep :
    ((objectsAt .fifo .none staleSweep 14).memory ownerA).paused = true := by
  have hread : ReadsReplyOf .fifo .none staleSweep ownerA 0 4 12 :=
    ⟨_, 0, _, .plain 1000 fun _ => 0, rfl, rfl, rfl, rfl, by decide, rfl, by decide, rfl⟩
  have hlearns : LearnsSince .fifo .none staleSweep ownerA 4 13 :=
    ⟨1, _, rfl, rfl, rfl, Or.inr ⟨rfl, 9, 1, _, _, .found true, by decide, by decide, rfl, rfl,
      1, rfl, rfl⟩⟩
  rw [stale_reply_ignored .fifo .none staleSweep hread (by decide) rfl hlearns]
  decide

end Redisq.Model
