import Mathlib.Data.Finset.Basic
import Mathlib.Logic.Function.Basic
import Redisq.Library.Trajectory

/-!
# The pause loop and its hooks

One queue object's copy of the pause, the calls that change it and the loop
that tells the hooks, one atomic or channel operation a step.  Any number of
calls are under way; their operations and the loop's come in any order.  What
other processes do shows in the key alone.
-/

namespace Redisq.Model

/-- A call on the object, before its next operation.  `announcing` is a Pause
or a Resume whose script ran, or the message "resumed"; `noting` is a "paused:"
message; `looking` is a pop or a sweep; and `swapping` on is `setPaused`. -/
inductive PauseCall
  | announcing (p : Bool)
  | noting
  | flagging
  | looking (sweep : Bool)
  | asking (sweep : Bool) (g : ℕ)
  | observing (g : ℕ) (p : Bool)
  | swapping (p : Bool)
  | starting
  | kicking
deriving DecidableEq

/-- `pauseLoop`, before its next operation: not started yet, in its select, at
`recheck.Swap`, at the first `gen.Load`, at the EXISTS, at the second
`gen.Load`, at `paused.Store`, at `paused.Load`, listing the hooks and calling
them; `ended` once it saw its context done. -/
inductive LoopPoint
  | off
  | waiting
  | unflagging
  | reading
  | asking (g : ℕ)
  | comparing (g : ℕ) (n : Bool)
  | storing (n : Bool)
  | loading
  | listing (now : Bool)
  | calling (now : Bool) (fns : List ℕ)
  | ended
deriving DecidableEq

/-- Whether `:paused` exists; `paused`, and the fields of `pauseHooks`; where
the loop is, and what it last told; the hooks ever registered; what each hook
was called with, the latest first; and the calls. -/
structure PauseWorld where
  key : Bool
  paused : Bool
  gen : ℕ
  recheck : Bool
  kick : Bool
  loop : LoopPoint
  told : Bool
  hooks : Finset ℕ
  known : Finset ℕ
  seen : ℕ → List Bool
  calls : ℕ → Option PauseCall

/-- A new object, on a queue that may be paused. -/
def PauseWorld.init (key : Bool) : PauseWorld where
  key := key
  paused := false
  gen := 0
  recheck := false
  kick := false
  loop := .off
  told := false
  hooks := ∅
  known := ∅
  seen _ := []
  calls _ := none

/-- What happens next: the key is set or dropped; a call starts, takes its
next operation or gets an error; the loop takes its next operation, gets an
error, lists the hooks in some order or finds its context done; a hook is
registered or cancelled. -/
inductive PauseEvent
  | change (key : Bool)
  | start (c : ℕ) (call : PauseCall)
  | step (c : ℕ)
  | fail (c : ℕ)
  | loop
  | loopFails
  | list (fns : List ℕ)
  | close
  | register (h : ℕ)
  | cancel (h : ℕ)

/-- Where calls begin. -/
def PauseCall.first : PauseCall → Bool
  | .announcing _ => true
  | .noting => true
  | .looking _ => true
  | .swapping _ => true
  | _ => false

namespace PauseWorld

/-- The next operation of a call, and where it is then. -/
def advance (w : PauseWorld) : PauseCall → PauseWorld × Option PauseCall
  | .announcing p => ({ w with gen := w.gen + 1 }, some (.swapping p))
  | .noting => ({ w with gen := w.gen + 1 }, some .flagging)
  | .flagging => ({ w with recheck := true }, some .starting)
  | .looking sweep => (w, some (.asking sweep w.gen))
  | .asking sweep g =>
      -- a sweep tells whether the key exists, a pop only that it was refused
      (w, if sweep ∨ w.key then some (.observing g w.key) else none)
  | .observing g p => (w, if w.gen = g then some (.swapping p) else none)
  | .swapping p => ({ w with paused := p }, if w.paused ≠ p then some .starting else none)
  | .starting =>
      ({ w with loop := if w.loop = .off then .waiting else w.loop }, some .kicking)
  | .kicking => ({ w with kick := true }, none)

/-- The loop's next operation. -/
def loopStep (w : PauseWorld) : PauseWorld :=
  match w.loop with
  | .waiting => if w.kick then { w with kick := false, loop := .unflagging } else w
  | .unflagging => { w with recheck := false, loop := if w.recheck then .reading else .loading }
  | .reading => { w with loop := .asking w.gen }
  | .asking g => { w with loop := .comparing g w.key }
  | .comparing g n => { w with loop := if w.gen = g then .storing n else .loading }
  | .storing n => { w with paused := n, loop := .loading }
  | .loading =>
      if w.paused = w.told then { w with loop := .waiting }
      else { w with told := w.paused, loop := .listing w.paused }
  | .calling _ [] => { w with loop := .waiting }
  | .calling now (h :: fns) =>
      { w with seen := Function.update w.seen h (now :: w.seen h), loop := .calling now fns }
  | _ => w

/-- What an event makes of the world. -/
def step (w : PauseWorld) : PauseEvent → PauseWorld
  | .change key => { w with key := key }
  | .start c call =>
      if w.calls c = none ∧ call.first = true then
        { w with calls := Function.update w.calls c (some call) }
      else w
  | .step c =>
      match w.calls c with
      | none => w
      | some call =>
          { (w.advance call).1 with calls := Function.update w.calls c (w.advance call).2 }
  | .fail c =>
      match w.calls c with
      | some (.asking _ _) => { w with calls := Function.update w.calls c none }
      | _ => w
  | .loop => w.loopStep
  | .loopFails =>
      match w.loop with
      | .asking _ => { w with loop := .loading }
      | _ => w
  | .list fns =>
      match w.loop with
      | .listing now =>
          if fns.Nodup ∧ fns.toFinset = w.hooks then { w with loop := .calling now fns } else w
      | _ => w
  | .close => if w.loop = .waiting then { w with loop := .ended } else w
  | .register h =>
      if h ∈ w.known then w
      else { w with hooks := insert h w.hooks, known := insert h w.known }
  | .cancel h => { w with hooks := w.hooks.erase h }

/-- The ways in which the loop moves on. -/
inductive LoopTurn (w : PauseWorld) : PauseWorld → Prop
  | kicked (hloop : w.loop = .waiting) (hkick : w.kick = true) :
      LoopTurn w { w with kick := false, loop := .unflagging }
  | unflagged (hloop : w.loop = .unflagging) :
      LoopTurn w { w with recheck := false, loop := if w.recheck then .reading else .loading }
  | read (hloop : w.loop = .reading) : LoopTurn w { w with loop := .asking w.gen }
  | asked (g : ℕ) (hloop : w.loop = .asking g) : LoopTurn w { w with loop := .comparing g w.key }
  | failed (g : ℕ) (hloop : w.loop = .asking g) : LoopTurn w { w with loop := .loading }
  | compared (g : ℕ) (n : Bool) (hloop : w.loop = .comparing g n) :
      LoopTurn w { w with loop := if w.gen = g then .storing n else .loading }
  | stored (n : Bool) (hloop : w.loop = .storing n) :
      LoopTurn w { w with paused := n, loop := .loading }
  | agrees (hloop : w.loop = .loading) (heq : w.paused = w.told) :
      LoopTurn w { w with loop := .waiting }
  | tells (hloop : w.loop = .loading) (hne : w.paused ≠ w.told) :
      LoopTurn w { w with told := w.paused, loop := .listing w.paused }
  | lists (now : Bool) (fns : List ℕ) (hloop : w.loop = .listing now) (hnodup : fns.Nodup)
      (hfns : fns.toFinset = w.hooks) : LoopTurn w { w with loop := .calling now fns }
  | calls (now : Bool) (h : ℕ) (fns : List ℕ) (hloop : w.loop = .calling now (h :: fns)) :
      LoopTurn w
        { w with seen := Function.update w.seen h (now :: w.seen h), loop := .calling now fns }
  | returns (now : Bool) (hloop : w.loop = .calling now []) :
      LoopTurn w { w with loop := .waiting }
  | ends (hloop : w.loop = .waiting) : LoopTurn w { w with loop := .ended }

/-- The ways in which an event changes the world. -/
inductive Change (w : PauseWorld) (ev : PauseEvent) : PauseWorld → Prop
  | stays : Change w ev w
  | changes (key : Bool) (hev : ev = .change key) : Change w ev { w with key := key }
  | starts (c : ℕ) (call : PauseCall) (hev : ev = .start c call) (hnew : w.calls c = none)
      (hfirst : call.first = true) :
      Change w ev { w with calls := Function.update w.calls c (some call) }
  | advances (c : ℕ) (call : PauseCall) (hev : ev = .step c) (hcall : w.calls c = some call) :
      Change w ev
        { (w.advance call).1 with calls := Function.update w.calls c (w.advance call).2 }
  | fails (c : ℕ) (sweep : Bool) (g : ℕ) (hev : ev = .fail c)
      (hcall : w.calls c = some (.asking sweep g)) :
      Change w ev { w with calls := Function.update w.calls c none }
  | turns (w' : PauseWorld) (hturn : w.LoopTurn w') : Change w ev w'
  | registers (h : ℕ) (hev : ev = .register h) (hnew : h ∉ w.known) :
      Change w ev { w with hooks := insert h w.hooks, known := insert h w.known }
  | cancels (h : ℕ) (hev : ev = .cancel h) : Change w ev { w with hooks := w.hooks.erase h }

theorem loopStep_change (w : PauseWorld) (ev : PauseEvent) : w.Change ev w.loopStep := by
  unfold loopStep
  split
  · next hloop =>
      split
      · next hkick => exact .turns _ (.kicked hloop hkick)
      · exact .stays
  · next hloop => exact .turns _ (.unflagged hloop)
  · next hloop => exact .turns _ (.read hloop)
  · next g hloop => exact .turns _ (.asked g hloop)
  · next g n hloop => exact .turns _ (.compared g n hloop)
  · next n hloop => exact .turns _ (.stored n hloop)
  · next hloop =>
      split
      · next heq => exact .turns _ (.agrees hloop heq)
      · next hne => exact .turns _ (.tells hloop hne)
  · next now hloop => exact .turns _ (.returns now hloop)
  · next now h fns hloop => exact .turns _ (.calls now h fns hloop)
  · exact .stays

theorem step_change (w : PauseWorld) (ev : PauseEvent) : w.Change ev (w.step ev) := by
  cases ev with
  | change key => exact .changes key rfl
  | start c call =>
      simp only [step]
      split
      · next h => exact .starts c call rfl h.1 h.2
      · exact .stays
  | step c =>
      simp only [step]
      split
      · exact .stays
      · next call hcall => exact .advances c call rfl hcall
  | fail c =>
      simp only [step]
      split
      · next sweep g hcall => exact .fails c sweep g rfl hcall
      · exact .stays
  | loop => exact w.loopStep_change _
  | loopFails =>
      simp only [step]
      split
      · next g hloop => exact .turns _ (.failed g hloop)
      · exact .stays
  | list fns =>
      simp only [step]
      split
      · next now hloop =>
          split
          · next h => exact .turns _ (.lists now fns hloop h.1 h.2)
          · exact .stays
      · exact .stays
  | close =>
      simp only [step]
      split
      · next hloop => exact .turns _ (.ends hloop)
      · exact .stays
  | register h =>
      simp only [step]
      split
      · exact .stays
      · next hnew => exact .registers h rfl hnew
  | cancel h => exact .cancels h rfl

end PauseWorld

/-- The world before event `n`, from a new object. -/
def pauseAt (key : Bool) (e : ℕ → PauseEvent) (n : ℕ) : PauseWorld :=
  Trajectory.state PauseWorld.step (.init key) e n

theorem pauseAt_succ (key : Bool) (e : ℕ → PauseEvent) (n : ℕ) :
    (pauseAt key e n).Change (e n) (pauseAt key e (n + 1)) :=
  PauseWorld.step_change (pauseAt key e n) (e n)

end Redisq.Model
