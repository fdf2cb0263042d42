import Redisq.Verified.Conduct

/-!
# Closed objects

`Close` ends with both contexts done, whatever else is called on the object
meanwhile (`close_over`).  From then on nothing that is called on it sends
anything but the `leave` of another `Close` and what bystanders send
(`closed_object_silent`); only what was sent before may still run.
-/

namespace Redisq.Model

open Process

/-! ## How a Close ends -/

/-- A context is not done, at no moment; the code then never ends. -/
def undone (done : Memory → Bool) : Contract Memory Invocation Reply where
  inv m := done m = false
  act _ _ := True
  ask _ := True
  answer _ _ := True
  ends := False

section Codes

variable {o : Owner} {done : Memory → Bool}

theorem leave_undone : Obeys (undone done) (Code.leave o) :=
  obeys_leave (fun _ _ _ _ => trivial) fun _ _ => trivial

/-- It never gets past the end of the queue's context. -/
theorem close_not_unclosed : (Code.close o).Fulfils (undone Memory.closed) := by
  refine Meets.bind leave_undone fun _ _ => ?_
  exact fun m _ => ⟨trivial, fun hopen => by cases hopen⟩

/-- Nor past the end of the notification's. -/
theorem close_not_unstopped : (Code.close o).Fulfils (undone Memory.stopped) := by
  have hstop : Fulfils (undone Memory.stopped)
      (do Code.leave o; store fun m => { m with stopped := true } : Code Unit) :=
    Meets.bind leave_undone fun _ _ => fun m _ => ⟨trivial, fun hopen => by cases hopen⟩
  refine Meets.bind leave_undone fun _ _ => fun m hm => ⟨trivial, fun _ => ?_⟩
  show Meets (undone Memory.stopped) _ (Process.bind (done m.closed) _)
  cases hclosed : m.closed with
  | true => exact hstop
  | false =>
      have hrelease : Obeys (undone Memory.stopped) (Code.release o) :=
        obeys_release (fun _ _ _ _ => trivial) (fun _ _ => trivial) ⟨m, hm, hclosed⟩
      have hboth := Meets.bind hrelease fun _ _ => hstop
      exact hboth

/-- A context that is done stays done. -/
def Memory.NoMoreOpen (m m' : Memory) : Prop :=
  (m.closed = true → m'.closed = true) ∧ (m.stopped = true → m'.stopped = true)

/-- What any code does to the contexts. -/
def conduct : Contract Memory Invocation Reply where
  inv _ := True
  act := Memory.NoMoreOpen
  ask _ := True
  answer _ _ := True
  ends := True

theorem Operation.Does.noMoreOpen {op : Operation} {m m' : Memory} (h : op.Does m m') :
    m.NoMoreOpen m' := by
  cases h with
  | closes => exact ⟨fun _ => rfl, id⟩
  | stops => exact ⟨id, fun _ => rfl⟩
  | _ => exact ⟨id, id⟩

/-- What is called on a closed object. -/
def closed (o : Owner) : Contract Memory Invocation Reply where
  inv m := m.closed = true ∧ m.stopped = true
  act _ _ := True
  ask inv := inv = .leave o.name ∨ inv.bystander = true
  answer _ _ := True
  ends := True

theorem closed_code (op : Operation) : (op.code o).Fulfils (closed o) := by
  have hopen : ¬∃ m : Memory, (m.closed = true ∧ m.stopped = true) ∧ m.closed = false := by
    rintro ⟨m, ⟨hdone, -⟩, hopen⟩
    rw [hdone] at hopen
    cases hopen
  have hrunning : ¬∃ m : Memory, (m.closed = true ∧ m.stopped = true) ∧ m.stopped = false := by
    rintro ⟨m, ⟨-, hdone⟩, hrunning⟩
    rw [hdone] at hrunning
    cases hrunning
  refine code_meets (fun _ _ _ _ => trivial) (fun inv hasked => ?_) trivial
  cases inv with
  | lenIdle id => exact absurd hasked.2 hrunning
  | nudge id idle => exact absurd hasked.2 hrunning
  | markIdle id => exact absurd hasked.2 hrunning
  | wakeIdle count => exact absurd hasked hrunning
  | pop p => exact absurd hasked.2 hopen
  | rawPop => exact absurd hasked hopen
  | sweep owner hbt => exact absurd hasked.2 hopen
  | pause => exact absurd hasked hopen
  | resume => exact absurd hasked hopen
  | release owner => exact absurd hasked.2 hopen
  | leave id => exact Or.inl (congrArg Invocation.leave hasked)
  | _ => exact Or.inr hasked

end Codes

/-! ## Runs -/

section Runs

variable {k : Kind} {cj : Cjson} {e : ℕ → Net.Event Owner Operation Env} {m n c : ℕ} {o : Owner}

theorem contexts_step (n : ℕ) (o : Owner) :
    ((objectsAt k cj e n).memory o).NoMoreOpen ((objectsAt k cj e (n + 1)).memory o) := by
  refine (Net.state_succ (rules k cj) noObjects e n).acts (C := conduct) trivial
    (fun _ _ => ⟨id, id⟩) fun c t _ ht _ => ⟨0, ?_⟩
  exact Net.state_keeps (m := 0) rfl (Nat.zero_le n) ht
    (code_meets (fun _ _ _ hdoes => hdoes.noMoreOpen) (fun _ _ => trivial) trivial)
    (fun _ _ _ => trivial) fun _ _ _ _ _ _ _ _ _ _ _ _ _ => trivial

theorem contexts_mono (o : Owner) (hmn : m ≤ n) :
    ((objectsAt k cj e m).memory o).NoMoreOpen ((objectsAt k cj e n).memory o) := by
  induction n, hmn using Nat.le_induction with
  | base => exact ⟨id, id⟩
  | succ n hmn ih =>
      have hstep := @contexts_step k cj e n o
      exact ⟨fun h => hstep.1 (ih.1 h), fun h => hstep.2 (ih.2 h)⟩

/-- `o`'s `Close` in process `c` is over before event `n`. -/
def ClosedBy (k : Kind) (cj : Cjson) (e : ℕ → Net.Event Owner Operation Env) (o : Owner)
    (c n : ℕ) : Prop :=
  ∃ t, (objectsAt k cj e n).tasks c = some t ∧ t.owner = o ∧ t.op = .close ∧
    t.point = .ready (.done ())

/-- Both contexts are done when a `Close` is over. -/
theorem close_over (h : ClosedBy k cj e o c n) :
    ((objectsAt k cj e n).memory o).closed = true ∧
      ((objectsAt k cj e n).memory o).stopped = true := by
  obtain ⟨t, ht, rfl, hop, hover⟩ := h
  have hends : ∀ done : Memory → Bool, (Code.close t.owner).Fulfils (undone done) →
      (∀ l ≤ n, done ((objectsAt k cj e n).memory t.owner) = false →
        done ((objectsAt k cj e l).memory t.owner) = false) →
      done ((objectsAt k cj e n).memory t.owner) = true := by
    intro done hcode hbefore
    by_contra hopen
    have hkeeps := Net.state_keeps (m := 0) (C := undone done) rfl (Nat.zero_le n) ht
      (by rw [hop]; exact hcode)
      (fun l _ hln => hbefore l hln (Bool.eq_false_of_not_eq_true hopen))
      fun _ _ _ _ _ _ _ _ _ _ _ _ _ => trivial
    rw [Net.Task.Keeps, hover] at hkeeps
    exact hkeeps
  constructor
  · refine hends Memory.closed close_not_unclosed fun l hln hopen => ?_
    by_contra hclosed
    rw [(contexts_mono t.owner hln).1 (Bool.eq_true_of_not_eq_false hclosed)] at hopen
    cases hopen
  · refine hends Memory.stopped close_not_unstopped fun l hln hrunning => ?_
    by_contra hstopped
    rw [(contexts_mono t.owner hln).2 (Bool.eq_true_of_not_eq_false hstopped)] at hrunning
    cases hrunning

/-- No call on `o` is at work before event `m`. -/
def AllOver (k : Kind) (cj : Cjson) (e : ℕ → Net.Event Owner Operation Env) (o : Owner)
    (m : ℕ) : Prop :=
  ∀ c t, (objectsAt k cj e m).tasks c = some t → t.owner = o → t.point = .ready (.done ())

/-- Once a `Close` is over and no call is at work, whatever is called on the
object sends nothing but a `leave`: no pop, and of what requeues neither the
sweep nor the release.  Bystanders are set aside, and `requeue`, for which the
source looks at the context too, is modelled as one of them. -/
theorem closed_object_silent (hclosed : ClosedBy k cj e o c m) (hover : AllOver k cj e o m)
    (hmn : m ≤ n) :
    ∀ i r, (objectsAt k cj e m).sent.length ≤ i → (objectsAt k cj e n).sent[i]? = some r →
      r.owner = o → r.request = .leave o.name ∨ r.request.bystander = true := by
  have hdone := close_over hclosed
  refine Net.state_asks (C := closed o) hover (fun _ _ op _ _ _ => closed_code op) trivial
    (fun i hmi _ => ?_) (fun _ _ _ _ _ _ _ _ _ _ _ _ _ _ => trivial) hmn
  have hlater := @contexts_mono k cj e m i o hmi
  exact ⟨hlater.1 hdone.1, hlater.2 hdone.2⟩

end Runs

/-- An object is closed, and then a pop and another Close are called on it. -/
def closesTwice (n : ℕ) : Net.Event Owner Operation Env :=
  [.start 0 ownerA .close, .step 0, .step 0, .fail 0, .step 0, .step 0, .step 0, .step 0, .fail 0,
    .step 0, .start 1 ownerA .dequeue, .step 1, .step 1, .step 1, .step 1,
    .start 2 ownerA .close, .step 2, .step 2].getD n (.step 0)

theorem closed_object_silent_closesTwice :
    Invocation.leave ownerA.name = .leave ownerA.name ∨
      (Invocation.leave ownerA.name).bystander = true := by
  have hclosed : ClosedBy .fifo .none closesTwice ownerA 0 10 := ⟨_, rfl, rfl, rfl, rfl⟩
  have hover : AllOver .fifo .none closesTwice ownerA 10 := by
    intro c t ht _
    cases c with
    | zero =>
        obtain rfl := Option.some.inj ht
        rfl
    | succ c =>
        have hnone : none = some t := ht
        cases hnone
  -- what the second Close sends
  have hsent : (objectsAt .fifo .none closesTwice 18).sent[2]? =
      some ⟨ownerA, .close, .leave ownerA.name⟩ := rfl
  exact closed_object_silent hclosed hover (by decide) 2 _ le_rfl hsent rfl

end Redisq.Model
