import Redisq.Model.Command

/-!
# The idle set

A distributed consumer that found the queue empty is a member of the idle
set.  A wake takes members out and signals those that are still subscribed;
the other scripts here put a consumer in or take it out.  All of them touch
the idle set alone.
-/

namespace Redisq.Model

/-- The loop of `wakeFn`: the members signalled, and the set it leaves.
Every turn takes a member out, so the set's size bounds the turns. -/
def wakeLoop (env : Env) : ℕ → Finset Bytes → ℕ → List Bytes × Finset Bytes
  | 0, idle, _ => ([], idle)
  | turns + 1, idle, count =>
      if count = 0 then ([], idle)
      else
        match env.spop idle with
        | none => ([], idle)
        | some id =>
            if 0 < env.subscribers id then
              let rest := wakeLoop env turns (idle.erase id) (count - 1)
              (id :: rest.1, rest.2)
            else wakeLoop env turns (idle.erase id) count

/-- `wake(idle, prefix, count)`: the consumers signalled.  It is one node
since only its first SPOP can find a key of another type. -/
@[simp] def wake (env : Env) (count : ℕ) : Redis (List Bytes) :=
  .command ⟨.spop, .idle⟩ fun s =>
    let woken := wakeLoop env s.idle.card s.idle count
    (woken.1, { s with idle := woken.2 })

/-- `lenIdle`: the queue length; a consumer that finds it 0 joins. -/
def lenIdle (k : Kind) (consumer : Bytes) : Redis ℕ := do
  let n ← lenCmd k
  if n = 0 ∧ consumer ≠ [] then sadd consumer
  return n

/-- `nudge`: with items waiting the consumer leaves, with none an idle one
joins. -/
def nudge (k : Kind) (consumer : Bytes) (idle : Bool) : Redis ℕ := do
  let n ← lenCmd k
  if 0 < n then srem consumer
  else if idle then sadd consumer
  return n

/-- `pauseScript`: whether it set the key. -/
def pauseScript (env : Env) : Redis Bool :=
  setPausedNX env.nowms

/-- `resumeScript`: the consumers woken, when it dropped the key. -/
def resumeScript (k : Kind) (env : Env) : Redis (Option (List Bytes)) := do
  if ← delPaused then
    let woken ← wake env (← lenCmd k)
    return some woken
  else return none

/-! ## Effect -/

/-- A wake of up to `count` members of the idle set: those signalled, and the
set it leaves. -/
def Store.woken (env : Env) (count : ℕ) (s : Store) : List Bytes × Finset Bytes :=
  wakeLoop env s.idle.card s.idle count

/-! ## What they leave alone -/

/-- A script that changes the idle set at most. -/
def OnlyIdle {α : Type} (x : Redis α) : Prop :=
  ∀ s, ∃ idle, (x.exec s).2 = { s with idle := idle }

theorem lenIdle_onlyIdle (k : Kind) (consumer : Bytes) : OnlyIdle (lenIdle k consumer) := by
  intro s
  simp only [lenIdle, ↓Script.exec_bind, ↓Script.exec_ite, Script.exec_pure, exec_lenCmd]
  split
  · exact ⟨_, rfl⟩
  · exact ⟨s.idle, rfl⟩

theorem nudge_onlyIdle (k : Kind) (consumer : Bytes) (idle : Bool) :
    OnlyIdle (nudge k consumer idle) := by
  intro s
  simp only [nudge, ↓Script.exec_bind, ↓Script.exec_ite, Script.exec_pure, exec_lenCmd]
  split
  · exact ⟨_, rfl⟩
  · split
    · exact ⟨_, rfl⟩
    · exact ⟨s.idle, rfl⟩

theorem resumeScript_exec (k : Kind) (env : Env) (s : Store) :
    ∃ idle, ((resumeScript k env).exec s).2 = { s with paused := none, idle := idle } := by
  simp only [resumeScript, delPaused, wake, ↓Script.exec_bind, Script.exec_command,
    ↓Script.exec_ite, Script.exec_pure, exec_lenCmd]
  split
  · exact ⟨_, rfl⟩
  · exact ⟨s.idle, rfl⟩

end Redisq.Model
