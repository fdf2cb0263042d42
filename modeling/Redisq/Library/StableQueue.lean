import Mathlib.Data.List.Sort
import Mathlib.Logic.Function.Basic
import Mathlib.Order.Lattice

/-!
# Stable priority queues

Items wait first in, first out under each priority, and the head of the
lowest priority at which anything waits goes next.  Items that were popped
are pending under an id, with their priority, and go back to the end of it
when they are requeued.

The queue is a function from priorities to lists, and a step of it a relation
that its action labels with what it hands out.  An implementation is likely
to hold one list in the order of priority; `ofList` reads it as a queue:
taking its first elements takes the heads (`takesUpTo_ofList`), and inserting
one behind all of its priority appends it (`ofList_insert`).
-/

/-- Waiting items by priority, and pending ones by id. -/
structure StableQueue (ι π α : Type*) where
  waiting : π → List α
  pending : ι → Option (α × π)

namespace StableQueue

variable {ι π α : Type*}

/-! ## Waiting items -/

/-- `a` goes to the end of priority `p`. -/
def append [DecidableEq π] (w : π → List α) (p : π) (a : α) : π → List α :=
  Function.update w p (w p ++ [a])

/-- Each time the head of the lowest priority at which anything waits is
taken off. -/
inductive Takes [LinearOrder π] : (π → List α) → List (π × α) → (π → List α) → Prop
  | nil (w : π → List α) : Takes w [] w
  | cons {w w' : π → List α} {p : π} {a : α} {rest : List α} {out : List (π × α)}
      (hhead : w p = a :: rest) (hlowest : ∀ p' < p, w p' = [])
      (htail : Takes (Function.update w p rest) out w') : Takes w ((p, a) :: out) w'

/-- `n` items are taken, or all if there are fewer. -/
def TakesUpTo [LinearOrder π] (n : ℕ) (w : π → List α) (out : List (π × α))
    (w' : π → List α) : Prop :=
  Takes w out w' ∧ out.length ≤ n ∧ (out.length < n → ∀ p, w' p = [])

/-! ## Steps -/

/-- What happens to a queue, with what it hands out. -/
inductive Action (ι π α : Type*)
  | push (p : π) (a : α)
  | take (out : List α)
  | pop (ids : List ι) (out : List α)
  | lodge (i : ι) (a : α)
  | finish (i : ι)
  | requeue (ids : List ι)
  | clear
  | rest

/-- Nothing waits and nothing is pending. -/
def empty : StableQueue ι π α := ⟨fun _ => [], fun _ => none⟩

/-- Nothing waits any more. -/
def lost (q : StableQueue ι π α) : StableQueue ι π α := ⟨fun _ => [], q.pending⟩

section Steps

variable [DecidableEq ι] [LinearOrder π]

/-- Items made pending. -/
def pend (pending : ι → Option (α × π)) (taken : List (ι × (π × α))) : ι → Option (α × π) :=
  taken.foldl (fun f e => Function.update f e.1 (some (e.2.2, e.2.1))) pending

/-- A pending item goes back to the end of its priority. -/
def requeueOne (q : StableQueue ι π α) (i : ι) : StableQueue ι π α :=
  match q.pending i with
  | none => q
  | some (a, p) => ⟨append q.waiting p a, Function.update q.pending i none⟩

/-- The steps.  An item that becomes pending without having waited gets
priority `one`, unless one was pending under its id. -/
def Step (one : π) (q q' : StableQueue ι π α) : Action ι π α → Prop
  | .push p a => q' = ⟨append q.waiting p a, q.pending⟩
  | .take out => ∃ taken, TakesUpTo 1 q.waiting taken q'.waiting ∧ out = taken.map Prod.snd ∧
      q'.pending = q.pending
  | .pop ids out => ∃ taken, TakesUpTo ids.length q.waiting taken q'.waiting ∧
      out = taken.map Prod.snd ∧ q'.pending = pend q.pending (ids.zip taken)
  | .lodge i a => q' =
      ⟨q.waiting, Function.update q.pending i (some (a, ((q.pending i).map Prod.snd).getD one))⟩
  | .finish i => q' = ⟨q.waiting, Function.update q.pending i none⟩
  | .requeue ids => q' = ids.foldl requeueOne q
  | .clear => q' = empty
  | .rest => q' = q

/-- A run from the empty queue; where `loses` says so, all that waits is lost
before the step. -/
structure Run (one : π) (loses : ℕ → Prop) (act : ℕ → Action ι π α)
    (q : ℕ → StableQueue ι π α) : Prop where
  start : q 0 = empty
  step : ∀ n, (¬loses n ∧ Step one (q n) (q (n + 1)) (act n)) ∨
    (loses n ∧ Step one (q n).lost (q (n + 1)) (act n))

end Steps

/-! ## Requeues -/

section Requeues

variable [DecidableEq ι] [LinearOrder π] {ids : List ι}

/-- The items pending under `ids` that were popped at priority `p`. -/
def pendingAt (q : StableQueue ι π α) (p : π) (ids : List ι) : List α :=
  ids.filterMap fun i => (q.pending i).bind fun e => if e.2 = p then some e.1 else none

theorem requeueOne_pending (q : StableQueue ι π α) (i : ι) :
    (q.requeueOne i).pending = Function.update q.pending i none := by
  unfold requeueOne
  split
  · next hnone => rw [← hnone, Function.update_eq_self]
  · rfl

theorem requeueOne_waiting (q : StableQueue ι π α) (i : ι) (p : π) :
    (q.requeueOne i).waiting p = q.waiting p ++ q.pendingAt p [i] := by
  unfold requeueOne pendingAt
  cases h : q.pending i with
  | none => simp [h]
  | some e =>
      simp only [append, List.filterMap_cons, List.filterMap_nil, h, Option.bind_some]
      by_cases hp : e.2 = p
      · subst hp
        simp
      · simp [hp, Function.update_of_ne (Ne.symm hp)]

/-- A requeue appends to each priority its items, in the order of the ids. -/
theorem requeueAll_waiting (hids : ids.Nodup) (q : StableQueue ι π α) (p : π) :
    (ids.foldl requeueOne q).waiting p = q.waiting p ++ q.pendingAt p ids := by
  induction ids generalizing q with
  | nil => exact (List.append_nil _).symm
  | cons i rest ih =>
      obtain ⟨hnot, hrest⟩ := List.nodup_cons.mp hids
      have hsame : (q.requeueOne i).pendingAt p rest = q.pendingAt p rest := by
        refine List.filterMap_congr fun i' hi' => ?_
        have hne : i' ≠ i := by
          rintro rfl
          exact hnot hi'
        rw [requeueOne_pending, Function.update_of_ne hne]
      have hcons : q.pendingAt p (i :: rest) = q.pendingAt p [i] ++ q.pendingAt p rest :=
        List.filterMap_append (l := [i])
      rw [List.foldl_cons, ih hrest, requeueOne_waiting, hsame, hcons, List.append_assoc]

end Requeues

/-! ## One list -/

section OfList

variable [LinearOrder π]

/-- The queue that a list in the order of priority holds. -/
def ofList (l : List (π × α)) (p : π) : List α :=
  (l.filter fun e => e.1 = p).map Prod.snd

theorem ofList_cons (p : π) (a : α) (l : List (π × α)) :
    ofList ((p, a) :: l) = Function.update (ofList l) p (a :: ofList l p) := by
  funext p'
  by_cases hp : p' = p
  · subst hp
    simp [ofList]
  · simp [ofList, hp, Ne.symm hp]

/-- An element inserted behind all of its priority. -/
theorem ofList_insert {l₁ l₂ : List (π × α)} {p : π} (a : α) (h : ∀ e ∈ l₂, e.1 ≠ p) :
    ofList (l₁ ++ (p, a) :: l₂) = append (ofList (l₁ ++ l₂)) p a := by
  have hnone : l₂.filter (fun e => decide (e.1 = p)) = [] :=
    List.filter_eq_nil_iff.mpr fun e he => by simpa using h e he
  funext p'
  unfold append
  by_cases hp : p' = p
  · subst hp
    simp [ofList, hnone]
  · simp [ofList, hp, Ne.symm hp]

/-- The first elements of a list in order are the heads. -/
theorem takes_ofList (n : ℕ) {l : List (π × α)} (h : l.Pairwise fun e e' => e.1 ≤ e'.1) :
    Takes (ofList l) (l.take n) (ofList (l.drop n)) := by
  induction n generalizing l with
  | zero => exact .nil _
  | succ n ih =>
      cases l with
      | nil => exact .nil _
      | cons e l =>
          obtain ⟨p, a⟩ := e
          obtain ⟨hle, hrest⟩ := List.pairwise_cons.mp h
          rw [ofList_cons]
          refine .cons (Function.update_self ..) (fun p' hp' => ?_) ?_
          · rw [Function.update_of_ne hp'.ne, ofList, List.map_eq_nil_iff, List.filter_eq_nil_iff]
            intro e he
            simpa using (hp'.trans_le (hle e he)).ne'
          · rw [Function.update_idem, Function.update_eq_self]
            exact ih hrest

theorem takesUpTo_ofList (n : ℕ) {l : List (π × α)} (h : l.Pairwise fun e e' => e.1 ≤ e'.1) :
    TakesUpTo n (ofList l) (l.take n) (ofList (l.drop n)) := by
  refine ⟨takes_ofList n h, List.length_take_le n l, fun hshort p => ?_⟩
  rw [List.length_take] at hshort
  rw [List.drop_of_length_le (by omega)]
  rfl

end OfList

end StableQueue
