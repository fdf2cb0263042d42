import Redisq.Verified.Busy

/-!
# Whom a closing object wakes

A Close takes its object out of the idle set before it wakes a consumer for
the items it gave back.  A script that the object sent before, a nudge, a Len
or a pop, can run in between, find the queue empty and put the object back;
the wake may then draw it, still subscribed.  Nothing else makes the wake
reach the closing object (`close_wakes_another_iff`).
-/

namespace Redisq.Model

/-! ## The history of a member -/

section Runs

variable (k : Kind) (cj : Cjson) (e : ℕ → Net.Event Owner Operation Env)

/-- In event `n` a script of `o`'s own puts it in the idle set. -/
def JoinsIdle (n : ℕ) (o : Owner) : Prop :=
  ∃ op inv env, Asks k cj e n o op inv env ∧
    inv.joins k env ((keysAt k cj e n).evicted env) o.name

/-- In event `n` it is taken out. -/
def LeavesIdle (n : ℕ) (o : Owner) : Prop :=
  o.name ∈ (keysAt k cj e n).idle ∧ o.name ∉ (keysAt k cj e (n + 1)).idle

/-- A script of `o`'s own has put it in the idle set before event `n`, and it
was not taken out since. -/
def BackInIdle (n : ℕ) (o : Owner) : Prop :=
  ∃ j < n, JoinsIdle k cj e j o ∧ ∀ i, j < i → i < n → ¬LeavesIdle k cj e i o

/-- Another consumer than `o` is in the set, and subscribed. -/
def OtherIdle (n : ℕ) (o : Owner) (env : Env) : Prop :=
  ∃ d : Owner, d ≠ o ∧ d.name ∈ (keysAt k cj e n).idle ∧ 0 < env.subscribers d.name

/-- The wake of a Close never reaches the closing object while another
consumer that is subscribed is in the idle set, whichever members it draws. -/
def CloseWakesAnother : Prop :=
  ∀ n o count env env', Asks k cj e n o .close (.wakeIdle count) env →
    env'.subscribers = env.subscribers → OtherIdle k cj e n o env →
    o.name ∉ ((keysAt k cj e n).woken env' count).1

end Runs

section Runs

variable {k : Kind} {cj : Cjson} {e : ℕ → Net.Event Owner Operation Env} {n : ℕ} {o : Owner}

theorem joinsIdle_joined (h : JoinsIdle k cj e n o) :
    o.name ∈ (keysAt k cj e (n + 1)).idle := by
  obtain ⟨op, inv, env, hasks, hjoins⟩ := h
  rw [keysAt_idle hasks]
  exact joins_joined o.nonempty hjoins

/-- An object is in the set if it is back in it. -/
theorem mem_idle_iff : o.name ∈ (keysAt k cj e n).idle ↔ BackInIdle k cj e n o := by
  constructor
  · intro hin
    induction n with
    | zero => exact absurd hin (Finset.notMem_empty _)
    | succ n ih =>
        by_cases hbefore : o.name ∈ (keysAt k cj e n).idle
        · obtain ⟨j, hj, hjoins, hstays⟩ := ih hbefore
          refine ⟨j, by omega, hjoins, fun i hi hin' => ?_⟩
          by_cases heq : i = n
          · rw [heq]
            exact fun hleaves => hleaves.2 hin
          · exact hstays i hi (by omega)
        · exact ⟨n, n.lt_succ_self, joined_by_own hbefore hin, fun i hi hin' => by omega⟩
  · rintro ⟨j, hj, hjoins, hstays⟩
    induction n, hj using Nat.le_induction with
    | base => exact joinsIdle_joined hjoins
    | succ n hj ih =>
        have hbefore := ih fun i hi hin => hstays i hi (by omega)
        by_contra hout
        exact hstays n hj n.lt_succ_self ⟨hbefore, hout⟩

end Runs

/-! ## The wake -/

/-- A server that draws `c` first. -/
def Env.drawing (c : Bytes) (env : Env) : Env :=
  { env with
    spop := fun members => if c ∈ members then some c else env.spop members
    spop_eq_none := fun members => by
      split
      · next hc =>
          exact ⟨fun h => (nomatch h), fun h => absurd (h ▸ hc) (Finset.notMem_empty c)⟩
      · exact env.spop_eq_none members
    mem_of_spop := fun members m h => by
      split at h
      · next hc => exact Option.some.inj h ▸ hc
      · exact env.mem_of_spop members m h }

/-- A wake reaches members only. -/
theorem woken_mem {env : Env} {s : Store} {count : ℕ} {c : Bytes}
    (h : c ∈ (s.woken env count).1) : c ∈ s.idle ∧ 0 < env.subscribers c :=
  have hdraw := wakeLoop_draw env _ count (le_refl s.idle.card)
  ⟨hdraw.mem_of_kept env.mem_of_spop c h, hdraw.accepts_of_mem c h⟩

/-- It reaches the member it draws first. -/
theorem woken_drawing {env : Env} {s : Store} {count : ℕ} {c : Bytes} (hcount : 0 < count)
    (hc : c ∈ s.idle) (hsubscribed : 0 < env.subscribers c) :
    c ∈ (s.woken (env.drawing c) count).1 := by
  obtain ⟨count, rfl⟩ := Nat.exists_eq_succ_of_ne_zero hcount.ne'
  obtain ⟨turns, hturns⟩ := Nat.exists_eq_succ_of_ne_zero (Finset.card_ne_zero_of_mem hc)
  have hspop : (env.drawing c).spop s.idle = some c := if_pos hc
  have hdrawn : 0 < (env.drawing c).subscribers c := hsubscribed
  rw [Store.woken, hturns, wakeLoop, if_neg (Nat.succ_ne_zero count), hspop]
  simp only [hdrawn, if_true]
  exact List.mem_cons_self

/-- The wakes of Closes pass the closing object by in exactly the runs where
no script of the object's own has put it back in the idle set when its wake
runs, another consumer being there and it being subscribed still. -/
theorem close_wakes_another_iff (k : Kind) (cj : Cjson)
    (e : ℕ → Net.Event Owner Operation Env) :
    CloseWakesAnother k cj e ↔
      ∀ n o count env, Asks k cj e n o .close (.wakeIdle count) env →
        0 < env.subscribers o.name → OtherIdle k cj e n o env → ¬BackInIdle k cj e n o := by
  constructor
  · intro hanother n o count env hwake hsubscribed hother hback
    have hin := mem_idle_iff.mpr hback
    exact hanother n o count env (env.drawing o.name) hwake rfl hother
      (woken_drawing hwake.owned hin hsubscribed)
  · intro hnever n o count env env' hwake hsubscribers hother hwoken
    obtain ⟨hin, hsubscribed⟩ := woken_mem hwoken
    rw [hsubscribers] at hsubscribed
    exact hnever n o count env hwake hsubscribed hother (mem_idle_iff.mp hin)

/-- An object pops the only item.  A nudge of its own, which read the idle
flag before the pop returned, runs after the SREM of its Close. -/
def lateNudge (n : ℕ) : Net.Event Owner Operation Env :=
  let env := Env.plain 1000 fun _ => 1
  [.start 0 ownerA .subscribe, .step 0, .step 0, .step 0, .step 0, .step 0, .run 0 env,
    .start 1 ownerB (.other (.push ⟨[120], 0, 0, true, none⟩)), .step 1, .run 1 env,
    .start 2 ownerA (.dequeueWithAckId 1 0 0), .step 2, .step 2, .step 2, .step 2, .step 2,
    .step 2, .run 2 env,
    .start 3 ownerA .nudge, .step 3, .step 3, .step 3, .step 3, .read 2 2, .step 2,
    .start 4 ownerB .subscribe, .step 4, .step 4, .step 4, .step 4, .step 4, .run 4 env,
    .start 5 ownerA .close, .step 5, .step 5, .run 5 env, .read 5 4, .run 3 env,
    .step 5, .step 5, .step 5, .run 6 env, .read 5 6, .step 5, .step 5, .run 7 env].getD n
      (.step 0)

/-- Its wake goes to the closing object. -/
theorem lateNudge_wakes_itself : ¬CloseWakesAnother .fifo .none lateNudge := by
  intro hanother
  refine hanother 45 ownerA 1 (.plain 1000 fun _ => 1) (.plain 1000 fun _ => 1) rfl rfl
    ⟨ownerB, by decide, by decide, by decide⟩ ?_
  decide

end Redisq.Model
