import Mathlib.Data.List.Basic

/-!
# Texts split at their first separator

A text that joins parts with a separator none of the parts holds determines
the parts: from the front, where the separator first occurs.  The part before
it is what a shortest match up to the separator finds (`shortest_eq`).
-/

namespace Separator

variable {α : Type*}

/-- Two texts that agree agree on what stands before and after the first
separator. -/
theorem split_first {a : α} {x y : List α} (hx : a ∉ x) (hy : a ∉ y) {z w : List α}
    (h : x ++ a :: z = y ++ a :: w) : x = y ∧ z = w := by
  induction x generalizing y with
  | nil =>
      cases y with
      | nil => exact ⟨rfl, (List.cons.inj h).2⟩
      | cons b y => exact absurd (List.cons.inj h).1 fun hab => hy (by simp [hab])
  | cons b x ih =>
      cases y with
      | nil => exact absurd (List.cons.inj h).1 fun hba => hx (by simp [hba])
      | cons c y =>
          obtain ⟨hbc, hrest⟩ := List.cons.inj h
          obtain ⟨hxy, hzw⟩ := ih (fun hm => hx (List.mem_cons_of_mem _ hm))
            (fun hm => hy (List.mem_cons_of_mem _ hm)) hrest
          exact ⟨by rw [hbc, hxy], hzw⟩

/-- What stands before a separator that comes first. -/
theorem takeWhile_append [DecidableEq α] {a : α} {x : List α} (hx : a ∉ x) (y : List α) :
    (x ++ a :: y).takeWhile (fun b => b ≠ a) = x := by
  rw [List.takeWhile_append_of_pos]
  · simp
  · intro b hb
    simp only [decide_eq_true_eq]
    rintro rfl
    exact hx hb

/-- The shortest match up to a separator, tried one place further at a time. -/
def shortest [DecidableEq α] (a : α) : List α → Option (List α)
  | [] => none
  | b :: rest => if b = a then some [] else (shortest a rest).map (b :: ·)

theorem shortest_eq [DecidableEq α] (a : α) (t : List α) :
    shortest a t = if a ∈ t then some (t.takeWhile fun b => b ≠ a) else none := by
  induction t with
  | nil => rfl
  | cons b rest ih =>
      by_cases h : b = a
      · simp [shortest, h]
      · have hne : a ≠ b := Ne.symm h
        by_cases hmem : a ∈ rest <;> simp [shortest, h, hne, ih, hmem]

end Separator
