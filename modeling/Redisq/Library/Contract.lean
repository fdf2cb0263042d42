import Redisq.Library.Process

/-!
# Contracts of processes

What is promised of code in a net, as long as what it relies on holds: what
its owner's memory is like at every moment, and how its requests are answered.
It promises what it does to the memory, what it asks, and what holds when it
ends.  Whoever meets a contract at the start keeps it (`state_keeps`).
-/

/-- What code relies on, `inv` and `answer`, and what it promises. -/
structure Contract (σ ρ π : Type) where
  inv : σ → Prop
  act : σ → σ → Prop
  ask : ρ → Prop
  answer : ρ → Option π → Prop
  ends : Prop

namespace Process

variable {σ ρ π α β : Type} {C : Contract σ ρ π}

/-- The code meets the contract, and ends with a result as `post` says. -/
def Meets (C : Contract σ ρ π) (post : α → Prop) : Process σ ρ π α → Prop
  | .done a => post a
  | .act effect next => ∀ m, C.inv m →
      C.act m (effect m).2 ∧ (C.inv (effect m).2 → (next (effect m).1).Meets C post)
  | .call request next =>
      C.ask request ∧ ∀ reply, C.answer request reply → (next reply).Meets C post

/-- Code as a whole process. -/
abbrev Fulfils (C : Contract σ ρ π) (x : Process σ ρ π Unit) : Prop :=
  x.Meets C fun _ => C.ends

section Rules

variable {post : β → Prop}

theorem Meets.bind {mid : α → Prop} {x : Process σ ρ π α} {f : α → Process σ ρ π β}
    (hx : x.Meets C mid) (hf : ∀ a, mid a → (f a).Meets C post) : (x >>= f).Meets C post := by
  induction x with
  | done a => exact hf a hx
  | act effect next ih =>
      intro m hm
      exact ⟨(hx m hm).1, fun hafter => ih _ ((hx m hm).2 hafter)⟩
  | call request next ih => exact ⟨hx.1, fun reply hreply => ih reply (hx.2 reply hreply)⟩

theorem Meets.imp {post' : β → Prop} {x : Process σ ρ π β} (hx : x.Meets C post)
    (h : ∀ b, post b → post' b) : x.Meets C post' := by
  induction x with
  | done b => exact h b hx
  | act effect next ih =>
      intro m hm
      exact ⟨(hx m hm).1, fun hafter => ih _ ((hx m hm).2 hafter)⟩
  | call request next ih => exact ⟨hx.1, fun reply hreply => ih reply (hx.2 reply hreply)⟩

theorem Meets.ite {p : Prop} [Decidable p] {x y : Process σ ρ π β} (hx : p → x.Meets C post)
    (hy : ¬p → y.Meets C post) : (if p then x else y).Meets C post := by
  split
  · next hp => exact hx hp
  · next hp => exact hy hp

theorem meets_load {f : σ → α} {next : α → Process σ ρ π β}
    (h : ∀ m, C.inv m → C.act m m ∧ (next (f m)).Meets C post) :
    (load f >>= next).Meets C post :=
  fun m hm => ⟨(h m hm).1, fun _ => (h m hm).2⟩

theorem meets_store {f : σ → σ} {next : Unit → Process σ ρ π β}
    (hact : ∀ m, C.inv m → C.act m (f m))
    (h : (∃ m, C.inv m ∧ C.inv (f m)) → (next ()).Meets C post) :
    (store f >>= next).Meets C post :=
  fun m hm => ⟨hact m hm, fun hafter => h ⟨m, hm, hafter⟩⟩

theorem meets_send {request : ρ} {next : Option π → Process σ ρ π β} (hask : C.ask request)
    (h : ∀ reply, C.answer request reply → (next reply).Meets C post) :
    (send request >>= next).Meets C post :=
  ⟨hask, h⟩

end Rules

end Process

namespace Net

variable {ι κ σ ρ π τ ε : Type} [DecidableEq ι]

/-- A process that still meets its contract; what it waits for was sent as
request `since` or later. -/
def Task.Keeps (C : Contract σ ρ π) (since : ℕ) (sent : List (Message ι κ ρ))
    (t : Task ι κ σ ρ π) : Prop :=
  match t.point with
  | .ready rest => rest.Fulfils C
  | .waiting i next => ∃ m, sent[i]? = some m ∧ since ≤ i ∧
      ∀ reply, C.answer m.request reply → (next reply).Fulfils C

section Steps

variable {C : Contract σ ρ π} {rules : Rules ι κ σ ρ π τ ε} {net net' : Net ι κ σ ρ π τ}
  {ev : Event ι κ ε} {c since : ℕ} {t : Task ι κ σ ρ π}

theorem Change.sent_grows (h : Change rules net ev net') : net.sent <+: net'.sent := by
  obtain hsame | ⟨_, _, _, _, _, _, hmore⟩ := h.sent
  · rw [hsame]
  · rw [hmore]
    exact List.prefix_append _ _

omit [DecidableEq ι] in
theorem Task.Keeps.later {sent sent' : List (Message ι κ ρ)} (h : t.Keeps C since sent)
    (hsent : sent <+: sent') : t.Keeps C since sent' := by
  unfold Task.Keeps at h ⊢
  split
  · next hpoint =>
      rw [hpoint] at h
      exact h
  · next hpoint =>
      rw [hpoint] at h
      obtain ⟨m, hm, hi, hnext⟩ := h
      obtain ⟨later, rfl⟩ := hsent
      refine ⟨m, ?_, hi, hnext⟩
      rw [List.getElem?_append_left (List.getElem?_eq_some_iff.mp hm).1, hm]

/-- A process stays, and keeps its contract. -/
theorem Change.keeps (h : Change rules net ev net') (hsince : since ≤ net.sent.length)
    (ht : net.tasks c = some t) (hkeeps : t.Keeps C since net.sent)
    (hinv : C.inv (net.memory t.owner)) (hinv' : C.inv (net'.memory t.owner))
    (hanswer : ∀ i next reply m, t.point = .waiting i next → since ≤ i →
      net.sent[i]? = some m → net.Answers ev c i reply → C.answer m.request reply) :
    ∃ t', net'.tasks c = some t' ∧ t'.owner = t.owner ∧ t'.op = t.op ∧
      t'.Keeps C since net'.sent := by
  have hstays : t.Keeps C since net'.sent := hkeeps.later h.sent_grows
  cases h with
  | stays => exact ⟨t, ht, rfl, rfl, hstays⟩
  | started c' owner op hev hnew =>
      have hne : c ≠ c' := fun heq => by
        rw [heq, hnew] at ht
        cases ht
      exact ⟨t, (move_of_ne hne).trans ht, rfl, rfl, hstays⟩
  | acted c' t' effect next hev ht' hpoint =>
      by_cases heq : c = c'
      · obtain rfl := heq
        obtain rfl := Option.some.inj (ht.symm.trans ht')
        rw [Task.Keeps, hpoint] at hkeeps
        rw [act_memory_self] at hinv'
        exact ⟨_, move_self, rfl, rfl, (hkeeps _ hinv).2 hinv'⟩
      · exact ⟨t, (move_of_ne heq).trans ht, rfl, rfl, hstays⟩
  | sends c' t' request next hev ht' hpoint =>
      by_cases heq : c = c'
      · obtain rfl := heq
        obtain rfl := Option.some.inj (ht.symm.trans ht')
        rw [Task.Keeps, hpoint] at hkeeps
        refine ⟨_, move_self, rfl, rfl, ⟨t.owner, t.op, request⟩, ?_, hsince, hkeeps.2⟩
        exact List.getElem?_concat_length
      · exact ⟨t, (move_of_ne heq).trans ht, rfl, rfl, hstays⟩
  | answered c' t' i next reply ht' hpoint hanswers =>
      by_cases heq : c = c'
      · obtain rfl := heq
        obtain rfl := Option.some.inj (ht.symm.trans ht')
        rw [Task.Keeps, hpoint] at hkeeps
        obtain ⟨m, hm, hi, hnext⟩ := hkeeps
        exact ⟨_, move_self, rfl, rfl, hnext reply (hanswer i next reply m hpoint hi hm hanswers)⟩
      · exact ⟨t, (move_of_ne heq).trans ht, rfl, rfl, hstays⟩
  | served i env m hev hm => exact ⟨t, ht, rfl, rfl, hstays⟩

/-- What a process does to the memory of its owner. -/
theorem Change.acts (h : Change rules net ev net') {o : ι} (hinv : C.inv (net.memory o))
    (hrefl : ∀ m, C.inv m → C.act m m)
    (hkeeps : ∀ c t, ev = .step c → net.tasks c = some t → t.owner = o →
      ∃ since, t.Keeps C since net.sent) :
    C.act (net.memory o) (net'.memory o) := by
  cases h with
  | acted c t effect next hev ht hpoint =>
      by_cases ho : o = t.owner
      · obtain ⟨since, hmeets⟩ := hkeeps c t hev ht ho.symm
        rw [Task.Keeps, hpoint] at hmeets
        subst ho
        rw [act_memory_self]
        exact (hmeets _ hinv).1
      · rw [act_memory_of_ne ho]
        exact hrefl _ hinv
  | _ => exact hrefl _ hinv

/-- What is new in the log the server just answered. -/
theorem Change.logged (h : Change rules net ev net') {i : ℕ} {r : π} (hr : (i, r) ∈ net'.log) :
    (i, r) ∈ net.log ∨ ∃ env m, ev = .run i env ∧ net.sent[i]? = some m ∧
      r = (rules.serve env m.request net.server).1 := by
  cases h with
  | served j env m hev hm =>
      obtain hold | hnew := List.mem_append.mp hr
      · exact Or.inl hold
      · obtain ⟨rfl, rfl⟩ := Prod.mk.inj (List.mem_singleton.mp hnew)
        exact Or.inr ⟨env, m, hev, hm, rfl⟩
  | _ => exact Or.inl hr

end Steps

section Runs

variable {C : Contract σ ρ π} {rules : Rules ι κ σ ρ π τ ε} {init : Net ι κ σ ρ π τ}
  {e : ℕ → Event ι κ ε} {m n c : ℕ} {t : Task ι κ σ ρ π}

variable (rules init e) in
theorem state_sent_grows (hmn : m ≤ n) :
    (state rules init e m).sent <+: (state rules init e n).sent := by
  induction n, hmn using Nat.le_induction with
  | base => exact List.prefix_rfl
  | succ n hmn ih => exact ih.trans (state_succ rules init e n).sent_grows

/-- What a process may be answered from moment `m` on, until moment `n`. -/
def AnswersAllowed (C : Contract σ ρ π) (rules : Rules ι κ σ ρ π τ ε) (init : Net ι κ σ ρ π τ)
    (e : ℕ → Event ι κ ε) (m n c : ℕ) : Prop :=
  ∀ l t i next reply r, m ≤ l → l < n → (state rules init e l).tasks c = some t →
    t.point = .waiting i next → (state rules init e m).sent.length ≤ i →
    (state rules init e l).sent[i]? = some r → (state rules init e l).Answers (e l) c i reply →
    C.answer r.request reply

/-- A process that started since meets its contract still, if its code did and
what it relies on held at every moment. -/
theorem state_keeps (hnew : (state rules init e m).tasks c = none) (hmn : m ≤ n)
    (ht : (state rules init e n).tasks c = some t) (hcode : (rules.code t.owner t.op).Fulfils C)
    (hinv : ∀ l, m ≤ l → l ≤ n → C.inv ((state rules init e l).memory t.owner))
    (hanswer : AnswersAllowed C rules init e m n c) :
    t.Keeps C (state rules init e m).sent.length (state rules init e n).sent := by
  induction n, hmn using Nat.le_induction generalizing t with
  | base =>
      rw [hnew] at ht
      cases ht
  | succ n hmn ih =>
      cases hbefore : (state rules init e n).tasks c with
      | none =>
          have hpoint := ((state_succ rules init e n).begun hbefore ht).2
          rw [Task.Keeps, hpoint]
          exact hcode
      | some t₀ =>
          obtain ⟨t', ht', howner, hop⟩ := state_stays n.le_succ hbefore
          obtain rfl := Option.some.inj (ht'.symm.trans ht)
          rw [howner, hop] at hcode
          rw [howner] at hinv
          have hkeeps := ih hbefore hcode (fun l hml hln => hinv l hml (by omega))
            fun l t i next reply r hml hln => hanswer l t i next reply r hml (by omega)
          obtain ⟨t₁, ht₁, -, -, hafter⟩ := (state_succ rules init e n).keeps
            (state_sent_grows rules init e hmn).length_le hbefore hkeeps
            (hinv n hmn n.le_succ) (hinv (n + 1) (by omega) le_rfl)
            fun i next reply r hpoint hi hr hanswers =>
              hanswer n t₀ i next reply r hmn n.lt_succ_self hbefore hpoint hi hr hanswers
          obtain rfl := Option.some.inj (ht₁.symm.trans ht)
          exact hafter

/-- A process that was not there started since. -/
theorem state_begun (hnew : (state rules init e m).tasks c = none) (hmn : m ≤ n)
    (ht : (state rules init e n).tasks c = some t) :
    ∃ l, m ≤ l ∧ l < n ∧ e l = .start c t.owner t.op := by
  induction n, hmn using Nat.le_induction generalizing t with
  | base =>
      rw [hnew] at ht
      cases ht
  | succ n hmn ih =>
      cases hbefore : (state rules init e n).tasks c with
      | none =>
          exact ⟨n, hmn, n.lt_succ_self, ((state_succ rules init e n).begun hbefore ht).1⟩
      | some t₀ =>
          obtain ⟨t', ht', howner, hop⟩ := state_stays n.le_succ hbefore
          obtain rfl := Option.some.inj (ht'.symm.trans ht)
          rw [howner, hop]
          obtain ⟨l, hml, hln, hl⟩ := ih hbefore
          exact ⟨l, hml, by omega, hl⟩

/-- A process that is over stays so. -/
theorem state_over (hmn : m ≤ n) (ht : (state rules init e m).tasks c = some t)
    (hover : t.point = .ready (.done ())) :
    ∃ t', (state rules init e n).tasks c = some t' ∧ t'.point = .ready (.done ()) := by
  have hinherited : Inherited (fun _ _ : σ => True)
      (fun _ (rest : Process σ ρ π Unit) => rest = .done ()) fun _ _ => False :=
    ⟨fun _ _ _ _ h => (by cases h), fun _ _ _ h => (by cases h), fun _ _ h => h.elim,
      fun _ _ _ _ h => h, fun _ _ _ _ h => h⟩
  have hleft : t.Left (fun rest => rest = .done ()) fun _ => False := by
    rw [Task.Left, hover]
  obtain ⟨t', ht', -, -, hleft'⟩ := state_left_from hinherited (fun _ _ => trivial) hmn ht hleft
  refine ⟨t', ht', ?_⟩
  unfold Task.Left at hleft'
  split at hleft'
  · next hpoint => rw [hpoint, hleft']
  · exact hleft'.elim

section Owner

variable {o : ι} (hover : ∀ c t, (state rules init e m).tasks c = some t → t.owner = o →
    t.point = .ready (.done ()))
  (hcode : ∀ l c op, m ≤ l → l < n → e l = .start c o op → (rules.code o op).Fulfils C)
  (hends : C.ends)
include hover hcode hends

/-- Every process of an owner keeps the contract that the codes it started
since meet, if none was at work then. -/
theorem state_keeps_owner {l : ℕ} (hml : m ≤ l) (hln : l ≤ n)
    (hinv : ∀ i, m ≤ i → i ≤ l → C.inv ((state rules init e i).memory o))
    (hanswer : ∀ c, AnswersAllowed C rules init e m l c)
    (ht : (state rules init e l).tasks c = some t) (ho : t.owner = o) :
    t.Keeps C (state rules init e m).sent.length (state rules init e l).sent := by
  cases hbefore : (state rules init e m).tasks c with
  | none =>
      obtain ⟨i, hmi, hil, hi⟩ := state_begun hbefore hml ht
      subst ho
      exact state_keeps hbefore hml ht (hcode i c t.op hmi (by omega) hi) hinv (hanswer c)
  | some t₀ =>
      obtain ⟨t', ht', howner, -⟩ := state_stays hml hbefore
      obtain rfl := Option.some.inj (ht'.symm.trans ht)
      obtain ⟨t'', ht'', hdone⟩ := state_over hml hbefore (hover c t₀ hbefore (howner ▸ ho))
      obtain rfl := Option.some.inj (ht''.symm.trans ht)
      rw [Task.Keeps, hdone]
      exact hends

/-- What the processes of an owner keep up themselves holds all along. -/
theorem state_inv (hm : C.inv ((state rules init e m).memory o)) (hrefl : ∀ m, C.inv m → C.act m m)
    (hact : ∀ m m', C.inv m → C.act m m' → C.inv m')
    (hanswer : ∀ c, AnswersAllowed C rules init e m n c) {l : ℕ} (hml : m ≤ l) (hln : l ≤ n) :
    ∀ i, m ≤ i → i ≤ l → C.inv ((state rules init e i).memory o) := by
  induction l, hml using Nat.le_induction with
  | base =>
      intro i hmi him
      rw [show i = m by omega]
      exact hm
  | succ l hml ih =>
      have hbefore := ih (by omega)
      intro i hmi hil
      by_cases hi : i ≤ l
      · exact hbefore i hmi hi
      · rw [show i = l + 1 by omega]
        refine hact _ _ (hbefore l hml le_rfl) ((state_succ rules init e l).acts
          (hbefore l hml le_rfl) hrefl fun c t _ ht ho =>
            ⟨(state rules init e m).sent.length, ?_⟩)
        exact state_keeps_owner hover hcode hends hml (by omega) hbefore
          (fun c l' t' i' next reply r hml' hl' =>
            hanswer c l' t' i' next reply r hml' (by omega)) ht ho

/-- What an owner sent since is what its processes ask. -/
theorem state_asks (hinv : ∀ i, m ≤ i → i ≤ n → C.inv ((state rules init e i).memory o))
    (hanswer : ∀ c, AnswersAllowed C rules init e m n c) (hmn : m ≤ n) :
    ∀ i r, (state rules init e m).sent.length ≤ i → (state rules init e n).sent[i]? = some r →
      r.owner = o → C.ask r.request := by
  have hall : ∀ l, m ≤ l → l ≤ n → ∀ i r, (state rules init e m).sent.length ≤ i →
      (state rules init e l).sent[i]? = some r → r.owner = o → C.ask r.request := by
    intro l hml
    induction l, hml using Nat.le_induction with
    | base =>
        intro _ i r hi hr
        exact absurd (List.getElem?_eq_some_iff.mp hr).1 (by omega)
    | succ l hml ih =>
        intro hln i r hi hr ho
        obtain hsame | ⟨c, t, request, next, ht, hpoint, hmore⟩ := (state_succ rules init e l).sent
        · rw [hsame] at hr
          exact ih (by omega) i r hi hr ho
        · rw [hmore] at hr
          by_cases hold : i < (state rules init e l).sent.length
          · rw [List.getElem?_append_left hold] at hr
            exact ih (by omega) i r hi hr ho
          · rw [List.getElem?_append_right (by omega)] at hr
            obtain rfl := List.mem_singleton.mp (List.mem_of_getElem? hr)
            have hkeeps := state_keeps_owner hover hcode hends hml (by omega)
              (fun i hmi hil => hinv i hmi (by omega)) (fun c l' t' i' next reply r hml' hl' =>
                hanswer c l' t' i' next reply r hml' (by omega)) ht ho
            rw [Task.Keeps, hpoint] at hkeeps
            exact hkeeps.1
  exact hall n hmn le_rfl

end Owner

/-- What is in the log the server answered. -/
theorem state_ran (hlog : init.log = []) {i : ℕ} {r : π}
    (hr : (i, r) ∈ (state rules init e n).log) :
    ∃ l env request, l < n ∧ e l = .run i env ∧
      (state rules init e l).sent[i]? = some request ∧
      r = (rules.serve env request.request (state rules init e l).server).1 := by
  induction n with
  | zero =>
      rw [show (state rules init e 0).log = [] from hlog] at hr
      cases hr
  | succ n ih =>
      obtain hold | ⟨env, request, hev, hrequest, rfl⟩ := (state_succ rules init e n).logged hr
      · obtain ⟨l, env, request, hln, hl⟩ := ih hold
        exact ⟨l, env, request, by omega, hl⟩
      · exact ⟨n, env, request, n.lt_succ_self, hev, hrequest, rfl⟩

/-- An answer to a request that was sent since is the server's of a moment
since. -/
theorem state_answered (hlog : init.log = []) {i : ℕ} {r : π}
    {request : Message ι κ ρ} (hi : (state rules init e m).sent.length ≤ i)
    (hrequest : (state rules init e n).sent[i]? = some request)
    (hr : (i, r) ∈ (state rules init e n).log) :
    ∃ l env, m ≤ l ∧ l < n ∧ runs rules init e l = some (request, env) ∧
      r = (rules.serve env request.request (state rules init e l).server).1 := by
  obtain ⟨l, env, request', hln, hev, hrequest', rfl⟩ := state_ran hlog hr
  have hlong : i < (state rules init e l).sent.length :=
    (List.getElem?_eq_some_iff.mp hrequest').1
  obtain ⟨later, hlater⟩ := state_sent_grows rules init e hln.le
  have hsame : request' = request := by
    rw [← hlater, List.getElem?_append_left hlong, hrequest'] at hrequest
    exact Option.some.inj hrequest
  subst hsame
  refine ⟨l, env, ?_, hln, ?_, rfl⟩
  · by_contra hml
    have hshort := (state_sent_grows rules init e (show l ≤ m by omega)).length_le
    omega
  · rw [runs, hev, running, hrequest']
    rfl

end Runs

end Net
