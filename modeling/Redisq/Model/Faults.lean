import Redisq.Library.Abort
import Redisq.Model.Invocation

/-!
# Keys of the wrong type

A key may hold a value that is not of the type a script takes it for.  Most
commands then fail and abort the script, which keeps its earlier writes.
HINCRBY of a `:stats` field fails as well when the field is no integer.

What the store says of a key of another type means nothing: no command that
reads it succeeds.
-/

namespace Redisq.Model

/-- Commands that fail on a key of another type: all but DEL, EXISTS, PEXPIRE
and SET. -/
def Cmd.typed : Cmd → Bool
  | .del => false
  | .exists => false
  | .pexpire => false
  | .set => false
  | _ => true

/-- What is wrong with a queue's keys: which of them hold a value of another
type, and whether the field of `:stats` that a script counts in is no
integer. -/
structure Faults where
  wrong : Key → Bool
  garbled : Bool

namespace Faults

/-- Nothing is wrong. -/
def none : Faults := ⟨fun _ => false, false⟩

/-- A key of another type. -/
def of (key : Key) : Faults := ⟨fun other => other = key, false⟩

/-- Whether a command fails. -/
def fails (f : Faults) (op : Op) : Bool :=
  (op.cmd.typed && f.wrong op.key) || (decide (op = ⟨.hincrby, .stats⟩) && f.garbled)

/-- The counters cannot be counted in. -/
def uncountable (f : Faults) : Bool :=
  f.wrong .stats || f.garbled

variable (f : Faults)

theorem fails_none (op : Op) : none.fails op = false := by
  simp [fails, none]

theorem fails_typed {cmd : Cmd} {key : Key} (hcmd : cmd.typed = true) (hkey : key ≠ .stats) :
    f.fails ⟨cmd, key⟩ = f.wrong key := by
  have hop : (⟨cmd, key⟩ : Op) ≠ ⟨.hincrby, .stats⟩ := fun h => hkey (congrArg Op.key h)
  simp [fails, hcmd, hop]

theorem passes {f : Faults} {cmd : Cmd} {key : Key} (h : f.wrong key = false)
    (hcmd : cmd.typed = true) (hkey : key ≠ .stats) : f.fails ⟨cmd, key⟩ = false :=
  (f.fails_typed hcmd hkey).trans h

theorem stops {f : Faults} {cmd : Cmd} {key : Key} (h : f.wrong key = true)
    (hcmd : cmd.typed = true) (hkey : key ≠ .stats) : f.fails ⟨cmd, key⟩ = true :=
  (f.fails_typed hcmd hkey).trans h

theorem fails_untyped {cmd : Cmd} {key : Key} (hcmd : cmd.typed = false) :
    f.fails ⟨cmd, key⟩ = false := by
  have hop : (⟨cmd, key⟩ : Op) ≠ ⟨.hincrby, .stats⟩ := by
    intro h
    have hname : cmd = .hincrby := congrArg Op.cmd h
    rw [hname] at hcmd
    cases hcmd
  simp [fails, hcmd, hop]

theorem fails_hincrby_stats : f.fails ⟨.hincrby, .stats⟩ = f.uncountable := by
  simp [fails, uncountable, Cmd.typed]

end Faults

/-! ## One command after the other -/

section Commands

variable {α β γ : Type} (f : Faults) (r : Ref α) (cmd : Cmd)

/-- A read of a key that has its type. -/
theorem attempt_read (g : α → β) (next : β → Redis γ) (s : Store)
    (h : f.fails ⟨cmd, r.key⟩ = false) :
    (r.read cmd g >>= next).attempt f.fails s = (next (g (r.get s))).attempt f.fails s := by
  show (if f.fails ⟨cmd, r.key⟩ = true then _ else _) = _
  rw [h]
  rfl

/-- A write of a key that has its type. -/
theorem attempt_write (g : α → α) (next : Unit → Redis γ) (s : Store)
    (h : f.fails ⟨cmd, r.key⟩ = false) :
    (r.write cmd g >>= next).attempt f.fails s =
      (next ()).attempt f.fails (r.set (g (r.get s)) s) := by
  show (if f.fails ⟨cmd, r.key⟩ = true then _ else _) = _
  rw [h]
  rfl

/-- A read of a key that has not. -/
theorem attempt_read_wrong (g : α → β) (next : β → Redis γ) (s : Store)
    (h : f.fails ⟨cmd, r.key⟩ = true) :
    (r.read cmd g >>= next).attempt f.fails s = (none, s) := by
  show (if f.fails ⟨cmd, r.key⟩ = true then _ else _) = _
  rw [h]
  rfl

/-- A write of a key that has not. -/
theorem attempt_write_wrong (g : α → α) (next : Unit → Redis γ) (s : Store)
    (h : f.fails ⟨cmd, r.key⟩ = true) :
    (r.write cmd g >>= next).attempt f.fails s = (none, s) := by
  show (if f.fails ⟨cmd, r.key⟩ = true then _ else _) = _
  rw [h]
  rfl

/-- EXISTS of `:paused` never fails. -/
theorem attempt_existsPaused (next : Bool → Redis γ) (s : Store) :
    (existsPaused >>= next).attempt f.fails s =
      (next s.paused.isSome).attempt f.fails s := by
  show (if f.fails ⟨.exists, .paused⟩ = true then _ else _) = _
  rw [f.fails_untyped rfl]
  rfl

end Commands

end Redisq.Model
