import Mathlib.Tactic.IntervalCases
import Redisq.Verified.Busy
import Redisq.Verified.Closed
import Redisq.Verified.Conservation
import Redisq.Verified.Paused

/-!
# A sweep corrects what an object knows of the pause

A message on the control channel can be lost, and replies can come late, so
that an object's own copy of the pause is wrong.  Once the pause stays as it
is, and the calls that were at work when it last changed are over, the
object's next sweep that gets its reply sets the copy right, and it stays
right (`sweep_corrects_pause`).
-/

namespace Redisq.Model

open Process

/-! ## What replies say -/

/-- What the reply says of the pause, if anything, is `b`. -/
def Reply.Tells (b : Bool) (inv : Invocation) (r : Reply) : Prop :=
  (r.refuses = true → b = true) ∧
    ∀ owner hbt, inv = .sweep owner hbt → ∃ reply, r = .swept reply ∧ reply.paused = b

/-- It says what the key says. -/
theorem exec_tells (k : Kind) (cj : Cjson) (inv : Invocation) (env : Env) (s : Store) :
    Reply.Tells s.paused.isSome inv (ScriptRun.exec k cj ⟨inv, env⟩ s).1 := by
  rw [← Store.evicted_paused env s]
  constructor
  · intro hrefuses
    cases inv with
    | rawPop =>
        by_contra hunpaused
        have hreply := rawPop_reply k cj (s.evicted env) env (Store.evicted_evicted env s)
        unfold ScriptRun.reply ScriptRun.exec at hreply
        rw [Store.evicted_evicted] at hreply
        unfold ScriptRun.exec at hrefuses
        rw [hreply, if_neg hunpaused] at hrefuses
        split at hrefuses <;> cases hrefuses
    | pop p => exact (PopCall.effect_refuses.mp (popCall_refuses.mp hrefuses)).2
    | _ =>
        simp only [ScriptRun.exec, Invocation.script, ↓Script.exec_bind,
          Script.exec_pure] at hrefuses
        cases hrefuses
  · rintro owner hbt rfl
    refine ⟨(s.evicted env).sweepReply k cj env owner.name hbt, ?_, rfl⟩
    simp only [ScriptRun.exec, Invocation.script, ↓Script.exec_bind, Script.exec_pure, sweep_exec]

/-! ## The contracts -/

/-- The pause stays as it is, and the replies say so: the generation stays, and
nothing but `b` is stored. -/
def steady (b : Bool) : Contract Memory Invocation Reply where
  inv _ := True
  act m m' := m'.gen = m.gen ∧ (m'.paused = m.paused ∨ m'.paused = b)
  ask _ := True
  answer inv reply := ∀ r, reply = some r → r.Tells b inv
  ends := True

/-- The copy is wrong all along in spite of a sweep that gets its reply: it
never ends. -/
def unseen (b : Bool) (g : ℕ) : Contract Memory Invocation Reply where
  inv m := m.gen = g ∧ m.closed = false ∧ m.paused ≠ b
  act _ _ := True
  ask _ := True
  answer inv reply := ∃ r, reply = some r ∧ r.Tells b inv
  ends := False

/-- No Pause, Resume or control message, and the pause loop stores nothing but
`b`. -/
def Operation.Calm (b : Bool) (op : Operation) : Prop :=
  op.sets = false ∧ op.controls = false ∧ ∀ p, op = .pauseLoop p → p = b

section Codes

variable {b : Bool} {o : Owner} {op : Operation}

/-- Operations that take nothing over from a reply. -/
theorem steady_does (h : op.Calm b) (hop : op.observes = false) {m m' : Memory}
    (hdoes : op.Does m m') : (steady b).act m m' := by
  obtain ⟨hsets, hcontrols, hloop⟩ := h
  cases hdoes with
  | observes _ _ p hobserves =>
      rw [hop] at hobserves
      cases hobserves
  | learns _ _ hlearns =>
      rw [hsets, hcontrols] at hlearns
      obtain hno | hno := hlearns <;> cases hno
  | sets _ _ p hmay =>
      obtain hno | rfl := hmay
      · rw [hsets] at hno
        cases hno
      · cases hcontrols
  | rechecks _ p => exact ⟨rfl, Or.inr (hloop p rfl)⟩
  | _ => exact ⟨rfl, Or.inl rfl⟩

theorem steady_len {m m' : Memory} (_ : (steady b).inv m) (h : Operation.len.Does m m') :
    (steady b).act m m' :=
  steady_does ⟨rfl, rfl, fun _ hloop => by cases hloop⟩ rfl h

theorem steady_load {α : Type} (f : Memory → α) : Obeys (steady b) (load f) :=
  obeys_load (fun _ _ => steady_len) f

/-- An observation of `b`. -/
theorem steady_observe (g : ℕ) {p : Bool} (hp : p = b) : Obeys (steady b) (Code.observe g p) := by
  intro m _
  refine ⟨?_, fun _ => trivial⟩
  show (steady b).act m (if m.gen = g then { m with paused := p } else m)
  split
  · exact ⟨rfl, Or.inr hp⟩
  · exact ⟨rfl, Or.inl rfl⟩

/-- A request, whose reply says `b`. -/
theorem steady_sendUnder {done : Memory → Bool} {inv : Invocation} :
    (Code.sendUnder done inv).Meets (steady b) fun reply =>
      ∀ r, reply = some r → r.Tells b inv := by
  have hsent := @sendUnder_meets (steady b) done inv (fun _ _ => ⟨rfl, Or.inl rfl⟩) fun _ => trivial
  refine hsent.imp fun reply h => ?_
  obtain ⟨rfl, -⟩ | htells := h
  · intro r hr
    cases hr
  · exact htells

theorem steady_storeIdle (short : Bool) : Obeys (steady b) (Code.storeIdle short) :=
  obeys_storeIdle (fun _ _ => steady_len) short

/-- A pop that was refused saw the pause. -/
theorem Reply.Tells.of_refused {inv : Invocation} {r : Reply} (h : r.Tells b inv)
    (hrefuses : r.refuses = true) : true = b :=
  (h.1 hrefuses).symm

/-- An operation that looks at the pause in its reply. -/
theorem steady_observer (h : op.observes = true) : (op.code o).Fulfils (steady b) := by
  have hpops : Obeys (steady b) (store fun m => { m with popped := true } : Code Unit) :=
    obeys_store (fun _ _ => steady_len) fun m => .pops .len m
  cases op with
  | dequeue =>
      refine Obeys.bind (steady_load _) fun g => Meets.bind steady_sendUnder fun reply htells => ?_
      have hmiss : Obeys (steady b)
          (do if !(← load Memory.paused) then Code.markIdle o : Code Unit) :=
        Obeys.bind (steady_load _) fun _ => Meets.ite
          (fun _ => obeys_markIdle (fun _ _ => steady_len) fun _ _ => trivial) fun _ => trivial
      split
      · exact obeys_store (fun _ _ => steady_len) fun m => .idles .len m false
      · refine Meets.ite (fun hpaused => ?_) fun _ => hmiss
        split at hpaused
        · exact Obeys.bind (steady_observe g ((htells _ rfl).of_refused rfl)) fun _ => hmiss
        · cases hpaused
  | dequeueWithAckId start vt hbt =>
      refine Obeys.bind (steady_load _) fun consumer => Obeys.bind (steady_load _) fun closed => ?_
      refine Meets.ite (fun _ => steady_storeIdle true) fun _ => Obeys.bind hpops fun _ => ?_
      refine Obeys.bind (steady_load _) fun g => Meets.bind steady_sendUnder fun reply htells => ?_
      split
      · exact steady_storeIdle false
      · refine Meets.ite (fun hpaused => ?_) fun _ => steady_storeIdle true
        split at hpaused
        · exact Obeys.bind (steady_observe g ((htells _ rfl).of_refused rfl)) fun _ =>
            steady_storeIdle true
        · cases hpaused
  | dequeueBatch slots start want vt hbt =>
      refine Obeys.bind (steady_load _) fun consumer => ?_
      refine Meets.ite (fun _ => steady_storeIdle false) fun _ => ?_
      refine Obeys.bind (steady_load _) fun closed => Meets.ite (fun _ => trivial) fun _ => ?_
      refine Obeys.bind hpops fun _ => ?_
      refine Obeys.bind (steady_load _) fun g => Meets.bind steady_sendUnder fun reply htells => ?_
      split
      · exact steady_storeIdle _
      · exact Obeys.bind (steady_observe g ((htells _ rfl).of_refused rfl)) fun _ =>
          steady_storeIdle true
      · trivial
  | tick hbt =>
      refine Obeys.bind (steady_load _) fun g => Meets.bind steady_sendUnder fun reply htells => ?_
      split
      · next swept =>
          obtain ⟨reply', heq, hpaused⟩ := (htells _ rfl).2 o hbt rfl
          obtain rfl : swept = reply' := by
            cases heq
            rfl
          exact Obeys.bind (steady_observe g hpaused) fun _ =>
            obeys_requeued (fun _ _ => steady_len) (fun _ _ => trivial) _
      · trivial
  | _ => cases h

theorem steady_code (h : op.Calm b) : (op.code o).Fulfils (steady b) := by
  cases hop : op.observes with
  | true => exact steady_observer hop
  | false => exact code_meets (fun _ _ _ => steady_does h hop) (fun _ _ => trivial) trivial

/-- A sweep that gets its reply stores `b`. -/
theorem unseen_tick (b : Bool) (g : ℕ) (o : Owner) (hbt : Time) :
    (Code.tick o hbt).Fulfils (unseen b g) := by
  refine meets_load fun m hm => ⟨trivial, ?_⟩
  have hsent := @sendUnder_meets (unseen b g) Memory.closed (.sweep o hbt) (fun _ _ => trivial)
    fun _ => trivial
  refine Meets.bind hsent fun reply hreply => ?_
  obtain ⟨-, m', hm', hclosed⟩ | ⟨r, rfl, htells⟩ := hreply
  · rw [hm'.2.1] at hclosed
    cases hclosed
  · obtain ⟨reply, rfl, hpaused⟩ := htells.2 o hbt rfl
    -- the copy is `b` from here on, which it never is
    intro m' hm'
    refine ⟨trivial, fun hafter => absurd ?_ hafter.2.2⟩
    show (if m'.gen = m.gen then { m' with paused := reply.paused } else m').paused = b
    rw [if_pos (hm'.1.trans hm.1.symm)]
    exact hpaused

end Codes

/-! ## Runs -/

section Runs

variable {k : Kind} {cj : Cjson} {e : ℕ → Net.Event Owner Operation Env}

/-- From event `l` on the queue stays paused, or stays not paused, as `b`
says; by event `m` the calls on `o` that were at work then are over, and from
`m` on nothing changes the copy but what reads the key. -/
structure SteadySince (k : Kind) (cj : Cjson) (e : ℕ → Net.Event Owner Operation Env) (o : Owner)
    (b : Bool) (l m : ℕ) : Prop where
  key : ∀ i, l ≤ i → (keysAt k cj e i).paused.isSome = b
  le : l ≤ m
  settled : ∀ c t, (objectsAt k cj e m).tasks c = some t → t.owner = o →
    t.point = .ready (.done ()) ∨ t.op.Calm b ∧ (objectsAt k cj e l).tasks c = none
  calm : ∀ i c op, m ≤ i → e i = .start c o op → op.Calm b

variable {o : Owner} {b : Bool} {c l m n s : ℕ}

/-- What is answered since says `b`. -/
theorem SteadySince.answers (h : SteadySince k cj e o b l m) {i j : ℕ} {r : Reply}
    {request : Net.Message Owner Operation Invocation} (hlm : l ≤ s)
    (hj : (objectsAt k cj e s).sent.length ≤ j)
    (hrequest : (objectsAt k cj e n).sent[j]? = some request)
    (hread : (objectsAt k cj e n).log[i]? = some (j, r)) : r.Tells b request.request := by
  obtain ⟨l', env, hsl, -, -, rfl⟩ :=
    Net.state_answered rfl hj hrequest (List.mem_of_getElem? hread)
  rw [← h.key l' (hlm.trans hsl)]
  exact exec_tells k cj _ env _

theorem SteadySince.allowed (h : SteadySince k cj e o b l m) (c : ℕ) :
    Net.AnswersAllowed (steady b) (rules k cj) noObjects e l n c := by
  intro i t j next reply request _ _ _ _ hj hrequest hanswers r hr
  subst hr
  obtain ⟨j', -, hlog⟩ := hanswers
  exact h.answers le_rfl hj hrequest hlog

/-- A call that is at work is calm, and started since. -/
theorem SteadySince.keeps (h : SteadySince k cj e o b l m) (hmn : m ≤ n)
    {t : Net.Task Owner Operation Memory Invocation Reply}
    (ht : (objectsAt k cj e n).tasks c = some t) (ho : t.owner = o) :
    t.Keeps (steady b) (objectsAt k cj e l).sent.length (objectsAt k cj e n).sent := by
  have hcalm : t.op.Calm b → (objectsAt k cj e l).tasks c = none →
      t.Keeps (steady b) (objectsAt k cj e l).sent.length (objectsAt k cj e n).sent :=
    fun hop hnew => Net.state_keeps hnew (h.le.trans hmn) ht (steady_code hop)
      (fun _ _ _ => trivial) (h.allowed c)
  cases hbefore : (objectsAt k cj e m).tasks c with
  | none =>
      obtain ⟨i, hmi, -, hi⟩ := Net.state_begun hbefore hmn ht
      refine hcalm (h.calm i c t.op hmi (ho ▸ hi)) ?_
      by_contra hthere
      obtain ⟨t', ht'⟩ := Option.ne_none_iff_exists'.mp hthere
      obtain ⟨t'', ht'', -⟩ := Net.state_stays h.le ht'
      exact absurd (ht''.symm.trans hbefore) (by simp)
  | some t₀ =>
      obtain ⟨t', ht', howner, hop⟩ := Net.state_stays hmn hbefore
      obtain rfl := Option.some.inj (ht'.symm.trans ht)
      obtain hover | ⟨hcalm', hnew⟩ := h.settled c t₀ hbefore (howner ▸ ho)
      · obtain ⟨t'', ht'', hdone⟩ := Net.state_over hmn hbefore hover
        obtain rfl := Option.some.inj (ht''.symm.trans ht)
        rw [Net.Task.Keeps, hdone]
        trivial
      · exact hcalm (hop ▸ hcalm') hnew

theorem SteadySince.acts (h : SteadySince k cj e o b l m) (hmn : m ≤ n) :
    (steady b).act ((objectsAt k cj e n).memory o) ((objectsAt k cj e (n + 1)).memory o) := by
  refine (Net.state_succ (rules k cj) noObjects e n).acts (C := steady b) trivial
    (fun _ _ => ⟨rfl, Or.inl rfl⟩) fun c t _ ht ho => ⟨(objectsAt k cj e l).sent.length, ?_⟩
  exact h.keeps hmn ht ho

theorem SteadySince.gen (h : SteadySince k cj e o b l m) (hmn : m ≤ n) :
    ((objectsAt k cj e n).memory o).gen = ((objectsAt k cj e m).memory o).gen := by
  induction n, hmn using Nat.le_induction with
  | base => rfl
  | succ n hmn ih => exact (h.acts hmn).1.trans ih

/-- A copy that is right stays right. -/
theorem SteadySince.stays (h : SteadySince k cj e o b l m) (hms : m ≤ s) (hsn : s ≤ n)
    (hs : ((objectsAt k cj e s).memory o).paused = b) :
    ((objectsAt k cj e n).memory o).paused = b := by
  induction n, hsn using Nat.le_induction with
  | base => exact hs
  | succ n hsn ih =>
      obtain hsame | hset := (h.acts (hms.trans hsn)).2
      · rw [hsame, ih]
      · exact hset

/-- The next sweep of an open object that gets its replies sets the copy
right, and it stays right. -/
theorem sweep_corrects_pause (h : SteadySince k cj e o b l m) {hbt : Time} (hms : m ≤ s)
    (hstart : e s = .start c o (.tick hbt)) (hnew : (objectsAt k cj e s).tasks c = none)
    (hsn : s < n) (hfine : ∀ i, s < i → i < n → e i ≠ .fail c)
    (hover : ∃ t, (objectsAt k cj e n).tasks c = some t ∧ t.point = .ready (.done ()))
    (hopen : ((objectsAt k cj e n).memory o).closed = false) :
    ∀ i, n ≤ i → ((objectsAt k cj e i).memory o).paused = b := by
  intro i hni
  refine h.stays (hms.trans hsn.le) hni ?_
  by_contra hwrong
  obtain ⟨t, ht, hdone⟩ := hover
  obtain ⟨t', ht', howner, hop⟩ : ∃ t', (objectsAt k cj e (s + 1)).tasks c = some t' ∧
      t'.owner = o ∧ t'.op = .tick hbt := by
    have hnext : objectsAt k cj e (s + 1) = Net.step (rules k cj) (objectsAt k cj e s) (e s) := rfl
    rw [hnext, hstart]
    simp only [Net.step, hnew]
    exact ⟨_, Net.move_self, rfl, rfl⟩
  obtain ⟨t'', ht'', howner', hop'⟩ := Net.state_stays (show s + 1 ≤ n from hsn) ht'
  obtain rfl := Option.some.inj (ht''.symm.trans ht)
  have ho : t''.owner = o := howner'.trans howner
  have hkeeps := Net.state_keeps (C := unseen b ((objectsAt k cj e m).memory o).gen) hnew hsn.le ht
    (by rw [hop'.trans hop]; exact unseen_tick b _ _ hbt) (fun i hsi hin => ?_) ?_
  · rw [Net.Task.Keeps, hdone] at hkeeps
    exact hkeeps
  · rw [ho]
    refine ⟨h.gen (hms.trans hsi), ?_, fun hright => hwrong (h.stays (hms.trans hsi) hin hright)⟩
    by_contra hclosed
    have hlater := (@contexts_mono k cj e i n o hin).1 (Bool.eq_true_of_not_eq_false hclosed)
    rw [hlater] at hopen
    cases hopen
  · intro i t j next reply request hsi hin ht _ hj hrequest hanswers
    cases reply with
    | none =>
        refine absurd hanswers (hfine i ?_ hin)
        refine lt_of_le_of_ne hsi fun heq => ?_
        subst heq
        exact absurd (hnew.symm.trans ht) (by simp)
    | some r =>
        obtain ⟨j', -, hlog⟩ := hanswers
        exact ⟨r, rfl, h.answers (h.le.trans hms) hj hrequest hlog⟩

end Runs

/-- One object pauses the queue, the other hears nothing of it, and sweeps. -/
def pausedElsewhere (n : ℕ) : Net.Event Owner Operation Env :=
  [.start 0 ownerB .pause, .step 0, .step 0, .run 0 (.plain 0 fun _ => 0),
    .start 1 ownerA (.tick 0), .step 1, .step 1, .step 1, .run 1 (.plain 0 fun _ => 0), .read 1 1,
    .step 1].getD n (.step 0)

theorem sweep_corrects_pause_pausedElsewhere :
    ((objectsAt .fifo .none pausedElsewhere 20).memory ownerA).paused = true := by
  have hquiet : ∀ i, 11 ≤ i → pausedElsewhere i = .step 0 := by
    intro i hi
    obtain ⟨j, rfl⟩ := Nat.exists_eq_add_of_le' hi
    rfl
  have hkey : ∀ i, 4 ≤ i → (keysAt .fifo .none pausedElsewhere i).paused.isSome = true := by
    intro i hi
    induction i, hi using Nat.le_induction with
    | base => decide
    | succ i hi ih =>
        by_cases hlate : 11 ≤ i
        · have hruns : objectRuns .fifo .none pausedElsewhere i = none := by
            unfold objectRuns Net.runs
            rw [hquiet i hlate]
            rfl
          rw [keysAt_unchanged hruns]
          exact ih
        · interval_cases i <;> decide
  have hsteady : SteadySince .fifo .none pausedElsewhere ownerA true 4 4 :=
    { key := hkey
      le := le_rfl
      settled := fun c t ht howner => by
        cases c with
        | zero =>
            obtain rfl := Option.some.inj ht
            exact absurd howner (by decide)
        | succ c =>
            have hnone : none = some t := ht
            cases hnone
      calm := fun i c op hi hstart => by
        by_cases hlate : 11 ≤ i
        · rw [hquiet i hlate] at hstart
          cases hstart
        · interval_cases i <;> cases hstart
          exact ⟨rfl, rfl, fun _ hloop => by cases hloop⟩ }
  refine sweep_corrects_pause hsteady (s := 4) (n := 11) (c := 1) le_rfl rfl rfl (by decide) ?_
    ⟨_, rfl, rfl⟩ (by decide) 20 (by decide)
  intro i hsi hin
  interval_cases i <;> intro hfail <;> cases hfail

end Redisq.Model
