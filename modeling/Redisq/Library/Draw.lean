import Mathlib.Data.Finset.Card

/-!
# Drawing members of a set

A loop draws members of a set, one a turn, until it has kept `count` of them
or the set is empty.  A member drawn is out of the set; it is kept if the loop
accepts it.  `Draw` relates the loop's start to what its terminating runs keep
and leave.
-/

variable {α : Type*} [DecidableEq α]

/-- A loop's run from `s` with `count` members to keep: those kept, in order,
and the set left.  `pick` is the member that a turn draws. -/
inductive Draw (pick : Finset α → Option α) (accepts : α → Prop) :
    Finset α → ℕ → List α → Finset α → Prop
  | enough (s : Finset α) : Draw pick accepts s 0 [] s
  | empty {s : Finset α} {count : ℕ} (hpick : pick s = none) :
      Draw pick accepts s (count + 1) [] s
  | kept {s rest : Finset α} {count : ℕ} {a : α} {out : List α} (hpick : pick s = some a)
      (haccepts : accepts a) (hrun : Draw pick accepts (s.erase a) count out rest) :
      Draw pick accepts s (count + 1) (a :: out) rest
  | passed {s rest : Finset α} {count : ℕ} {a : α} {out : List α} (hpick : pick s = some a)
      (haccepts : ¬accepts a) (hrun : Draw pick accepts (s.erase a) (count + 1) out rest) :
      Draw pick accepts s (count + 1) out rest

namespace Draw

variable {pick : Finset α → Option α} {accepts : α → Prop} {s rest rest' : Finset α} {count : ℕ}
  {out out' : List α}

theorem length_le (h : Draw pick accepts s count out rest) : out.length ≤ count := by
  induction h with
  | enough => exact le_rfl
  | empty => exact Nat.zero_le _
  | kept _ _ _ ih => exact Nat.succ_le_succ ih
  | passed _ _ _ ih => exact ih

theorem accepts_of_mem (h : Draw pick accepts s count out rest) : ∀ a ∈ out, accepts a := by
  induction h with
  | enough => simp
  | empty => simp
  | kept _ haccepts _ ih =>
      intro b hb
      cases hb with
      | head => exact haccepts
      | tail _ hb => exact ih b hb
  | passed _ _ _ ih => exact ih

theorem rest_subset (h : Draw pick accepts s count out rest) : rest ⊆ s := by
  induction h with
  | enough => exact Finset.Subset.refl _
  | empty => exact Finset.Subset.refl _
  | kept _ _ _ ih => exact ih.trans (Finset.erase_subset _ _)
  | passed _ _ _ ih => exact ih.trans (Finset.erase_subset _ _)

/-- Whom the loop draws and accepts it keeps. -/
theorem mem_of_taken (h : Draw pick accepts s count out rest) {c : α} (hc : c ∈ s)
    (haccepts : accepts c) (hrest : c ∉ rest) : c ∈ out := by
  induction h with
  | enough => exact absurd hc hrest
  | empty => exact absurd hc hrest
  | @kept _ _ _ a _ _ _ _ ih =>
      by_cases heq : c = a
      · rw [heq]
        exact List.mem_cons_self
      · exact List.mem_cons_of_mem _ (ih (Finset.mem_erase.mpr ⟨heq, hc⟩) hrest)
  | @passed _ _ _ a _ _ hpassed _ ih =>
      have hne : c ≠ a := fun heq => hpassed (heq ▸ haccepts)
      exact ih (Finset.mem_erase.mpr ⟨hne, hc⟩) hrest

/-- Members kept were in the set. -/
theorem mem_of_kept (hmem : ∀ t a, pick t = some a → a ∈ t)
    (h : Draw pick accepts s count out rest) : ∀ a ∈ out, a ∈ s := by
  induction h with
  | enough => simp
  | empty => simp
  | kept hpick _ _ ih =>
      intro b hb
      cases hb with
      | head => exact hmem _ _ hpick
      | tail _ hb => exact Finset.mem_of_mem_erase (ih b hb)
  | passed _ _ _ ih => exact fun b hb => Finset.mem_of_mem_erase (ih b hb)

/-- No member is kept twice. -/
theorem nodup (hmem : ∀ t a, pick t = some a → a ∈ t)
    (h : Draw pick accepts s count out rest) : out.Nodup := by
  induction h with
  | enough => exact List.nodup_nil
  | empty => exact List.nodup_nil
  | kept _ _ hrun ih =>
      have hnot := fun ha => Finset.notMem_erase _ _ (hrun.mem_of_kept hmem _ ha)
      exact List.nodup_cons.mpr ⟨hnot, ih⟩
  | passed _ _ _ ih => exact ih

/-- The loop keeps as many as it is after, or leaves nobody. -/
theorem all_or_empty (hnone : ∀ t, pick t = none ↔ t = ∅)
    (h : Draw pick accepts s count out rest) : out.length = count ∨ rest = ∅ := by
  induction h with
  | enough => exact Or.inl rfl
  | empty hpick => exact Or.inr ((hnone _).mp hpick)
  | kept _ _ _ ih => exact ih.imp (congrArg Nat.succ) id
  | passed _ _ _ ih => exact ih

end Draw
