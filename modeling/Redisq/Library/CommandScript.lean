import Mathlib.Logic.Basic

/-!
# Scripts: programs made of commands on a shared store

A script is a tree of commands.  A command carries a label `ω` (which command
it is, and on what), an effect that reads and writes the whole store `σ`, and
the rest of the script as a function of its reply.  `exec` runs a script with
every command succeeding.  The label plays no part in `exec`; it is there for
semantics in which a command may fail.
-/

/-- A script over stores `σ` with commands labelled by `ω`. -/
inductive Script (ω σ α : Type) : Type 1
  | done (a : α)
  | call {β : Type} (op : ω) (effect : σ → β × σ) (next : β → Script ω σ α)

namespace Script

variable {ω σ α β γ : Type}

/-- Run `x`, then the script its reply selects. -/
def bind : Script ω σ α → (α → Script ω σ β) → Script ω σ β
  | .done a, f => f a
  | .call op effect next, f => .call op effect fun b => (next b).bind f

instance : Monad (Script ω σ) where
  pure := .done
  bind := bind

/-- The script of a single command. -/
def command (op : ω) (effect : σ → α × σ) : Script ω σ α :=
  .call op effect .done

/-- Run a script from a store: its reply and the store it leaves. -/
def exec : Script ω σ α → σ → α × σ
  | .done a, s => (a, s)
  | .call _ effect next, s => (next (effect s).1).exec (effect s).2

@[simp] theorem exec_pure (a : α) (s : σ) :
    (pure a : Script ω σ α).exec s = (a, s) := rfl

@[simp] theorem exec_command (op : ω) (effect : σ → α × σ) (s : σ) :
    (command op effect).exec s = effect s := rfl

@[simp ↓] theorem exec_bind (x : Script ω σ α) (f : α → Script ω σ β) (s : σ) :
    (x >>= f).exec s = (f (x.exec s).1).exec (x.exec s).2 := by
  induction x generalizing s with
  | done a => rfl
  | call op effect next ih => exact ih (effect s).1 (effect s).2

@[simp ↓] theorem exec_ite (p : Prop) [Decidable p] (x y : Script ω σ α) (s : σ) :
    (if p then x else y).exec s = if p then x.exec s else y.exec s := by
  split <;> rfl

/-- Run a script for each element, in order. -/
def each (l : List α) (f : α → Script ω σ PUnit) : Script ω σ PUnit :=
  match l with
  | [] => pure ⟨⟩
  | a :: rest => f a >>= fun _ => each rest f

@[simp] theorem exec_each (l : List α) (f : α → Script ω σ PUnit) (s : σ) :
    (each l f).exec s = (⟨⟩, l.foldl (fun s a => ((f a).exec s).2) s) := by
  induction l generalizing s with
  | nil => rfl
  | cons a rest ih => simp only [each, exec_bind, ih, List.foldl_cons]

end Script
