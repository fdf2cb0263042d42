import Redisq.Verified.Conduct
import Redisq.Verified.Leaving

/-!
# Who is woken

An object is a consumer once `Subscribe` is called.  Nothing that is called on
an object that is none, in whatever interleaving, puts it in the idle set: so
every member of the set is an object on which `Subscribe` was called
(`idle_members_subscribed`), and a wake goes to nobody else.
-/

namespace Redisq.Model

/-- Nobody joins without a name. -/
theorem joins_nonempty {o : Owner} {k : Kind} {env : Env} {s : Store} {inv : Invocation}
    {id : Bytes}
    (howned : inv.inNameOf o) (hout : id ∉ s.idle) (hin : id ∈ (inv.idleAfter k env s).2) :
    id ≠ [] := by
  have hjoins := joins_of_joined hout hin
  rintro rfl
  cases inv with
  | lenIdle consumer =>
      obtain ⟨rfl, -⟩ := hjoins
      have hidle : [] ∈ if s.len k = 0 ∧ ([] : Bytes) ≠ [] then insert [] s.idle else s.idle := hin
      rw [if_neg fun hboth => hboth.2 rfl] at hidle
      exact hout hidle
  | nudge consumer idle => exact o.nonempty (howned.symm.trans hjoins.1)
  | markIdle consumer => exact o.nonempty (howned.symm.trans hjoins)
  | pop p =>
      have hidle : [] ∈ (p.effect k env s).2.idle := hin
      rw [p.effect_idle, if_neg fun hboth => hboth.1 hjoins.1] at hidle
      exact hout hidle
  | _ => exact hjoins

/-! ## Producers -/

/-- The script puts `c` in the idle set in no state. -/
def Invocation.passesBy (c : Bytes) : Invocation → Prop
  | .lenIdle id => id ≠ c
  | .nudge id _ => id ≠ c
  | .markIdle id => id ≠ c
  | .pop p => p.args.consumerID ≠ c
  | _ => True

theorem Invocation.passesBy.not_joins {c : Bytes} {inv : Invocation} (h : inv.passesBy c)
    (k : Kind) (env : Env) (s : Store) : ¬inv.joins k env s c := by
  intro hjoins
  cases inv with
  | lenIdle id => exact h hjoins.1
  | nudge id idle => exact h hjoins.1
  | markIdle id => exact h hjoins
  | pop p => exact h hjoins.1
  | _ => exact hjoins

/-- What an object does that is no consumer. -/
def producer (o : Owner) : Contract Memory Invocation Reply where
  inv m := m.consumer = false
  act _ m' := m'.consumer = false
  ask inv := inv.passesBy o.name
  answer _ _ := True
  ends := True

/-- Whatever is called on it but `Subscribe`. -/
theorem producer_code {o : Owner} {op : Operation} (h : op ≠ .subscribe) :
    (op.code o).Fulfils (producer o) := by
  have hno : ¬∃ m : Memory, m.consumer = false ∧ m.consumer = true := by
    rintro ⟨m, hno, hyes⟩
    rw [hno] at hyes
    cases hyes
  refine code_meets (fun m m' hm hdoes => ?_) (fun inv hasked => ?_) trivial
  · cases hdoes with
    | subscribes => exact absurd rfl h
    | leaves => exact rfl
    | _ => exact hm
  · cases inv with
    | lenIdle id =>
        obtain rfl | ⟨-, hconsumer⟩ := hasked.1
        · exact o.nonempty.symm
        · exact absurd hconsumer hno
    | nudge id idle => exact absurd hasked.1.2 hno
    | markIdle id => exact absurd hasked.1.2 hno
    | pop p =>
        have hconsumer : p.args.consumer = false := by
          by_contra hconsumer
          exact hno (hasked.1.2 (Bool.eq_true_of_not_eq_false hconsumer))
        show p.args.consumerID ≠ o.name
        rw [PopArgs.consumerID, hconsumer]
        exact o.nonempty.symm
    | _ => trivial

/-! ## Members of the idle set -/

section Runs

variable {k : Kind} {cj : Cjson} {e : ℕ → Net.Event Owner Operation Env} {n : ℕ} {o : Owner}

theorem producer_answers (m c : ℕ) :
    Net.AnswersAllowed (producer o) (rules k cj) noObjects e m n c :=
  fun _ _ _ _ _ _ _ _ _ _ _ _ _ => trivial

/-- What an object asks on which `Subscribe` was not called. -/
theorem asks_passesBy {op : Operation} {inv : Invocation} {env : Env}
    (hnever : ∀ i c, i < n → e i ≠ .start c o .subscribe) (h : Asks k cj e n o op inv env) :
    inv.passesBy o.name := by
  have hover : ∀ c t, (Net.state (rules k cj) noObjects e 0).tasks c = some t → t.owner = o →
      t.point = .ready (.done ()) := by
    intro c t ht
    cases ht
  have hcode : ∀ l c op, 0 ≤ l → l < n → e l = .start c o op →
      ((rules k cj).code o op).Fulfils (producer o) := by
    intro l c op _ hl hstart
    refine producer_code fun heq => hnever l c hl ?_
    rw [hstart, heq]
  have hinv := Net.state_inv hover hcode trivial rfl (fun _ hm => hm)
    (fun _ _ _ hact => hact) (producer_answers 0) (Nat.zero_le n) le_rfl
  obtain ⟨i, hi⟩ := h.sent
  exact Net.state_asks hover hcode trivial hinv (producer_answers 0) (Nat.zero_le n) i _
    (Nat.zero_le _) hi rfl

/-- Every member of the idle set is an object. -/
theorem member_named {id : Bytes} (h : id ∈ (keysAt k cj e n).idle) : ∃ o : Owner, o.name = id := by
  induction n with
  | zero => exact absurd h (Finset.notMem_empty _)
  | succ n ih =>
      by_cases hbefore : id ∈ (keysAt k cj e n).idle
      · exact ih hbefore
      · cases hr : objectRuns k cj e n with
        | none =>
            rw [keysAt_unchanged hr] at h
            exact absurd h hbefore
        | some r =>
            obtain ⟨o, op, hasks⟩ := asks_of_objectRuns hr
            have howned := hasks.owned
            rw [keysAt_idle hasks] at h
            rw [← Store.evicted_idle r.env] at hbefore
            have hjoins := joins_of_joined hbefore h
            have hid : id ≠ [] := joins_nonempty howned hbefore h
            cases hinv : r.inv with
            | lenIdle consumer =>
                rw [hinv] at howned hjoins
                obtain rfl | rfl := howned
                · exact ⟨o, hjoins.1⟩
                · exact absurd hjoins.1.symm hid
            | nudge consumer idle =>
                rw [hinv] at howned hjoins
                exact ⟨o, howned.symm.trans hjoins.1⟩
            | markIdle consumer =>
                rw [hinv] at howned hjoins
                exact ⟨o, howned.symm.trans hjoins⟩
            | pop p =>
                rw [hinv] at hjoins
                have hconsumer := hjoins.1
                unfold PopArgs.consumerID at hconsumer
                split at hconsumer
                · exact ⟨p.args.owner, hconsumer⟩
                · exact absurd hconsumer.symm hid
            | _ => rw [hinv] at hjoins; exact hjoins.elim

/-- Every member of the idle set is an object on which `Subscribe` was called
before. -/
theorem idle_members_subscribed {id : Bytes} (h : id ∈ (keysAt k cj e n).idle) :
    ∃ o : Owner, o.name = id ∧ ∃ i c, i < n ∧ e i = .start c o .subscribe := by
  obtain ⟨o, rfl⟩ := member_named h
  refine ⟨o, rfl, ?_⟩
  obtain ⟨j, hj, ⟨op, inv, env, hasks, hjoins⟩, -⟩ := mem_idle_iff.mp h
  by_contra hnever
  refine (asks_passesBy (fun i c hi hstart => ?_) hasks).not_joins k env _ hjoins
  exact hnever ⟨i, c, by omega, hstart⟩

end Runs

/-- An object becomes a consumer, and joins the idle set. -/
def subscribes (n : ℕ) : Net.Event Owner Operation Env :=
  [.start 0 ownerA .subscribe, .step 0, .step 0, .step 0, .step 0, .step 0,
    .run 0 (.plain 0 fun _ => 0)].getD n (.step 0)

theorem idle_members_subscribed_subscribes :
    ∃ o : Owner, o.name = ownerA.name ∧ ∃ i c, i < 7 ∧ subscribes i = .start c o .subscribe :=
  @idle_members_subscribed .fifo .none subscribes 7 ownerA.name (by decide)

end Redisq.Model
