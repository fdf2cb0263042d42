import Redisq.Library.SortedSet

/-!
# Maps that forget what is old

A table keeps, for each key, the last value reported and when; what is older
than a cut is not shown.  A sorted set of report times may stand for a table
as long as it has every time from the cut on and no time of its own (`Keeps`):
it may drop old entries at any moment, in any number, or not at all, and still
its entries from the cut on list what the table shows (`Keeps.lists`).
-/

namespace Horizon

variable {ι α τ : Type*}

/-- The last report of each key: its value and its time. -/
abbrev Table (ι α τ : Type*) := ι → Option (α × τ)

section Table

variable [LinearOrder ι]

/-- A report. -/
def Table.report (m : Table ι α τ) (i : ι) (a : α) (t : τ) : Table ι α τ :=
  Function.update m i (some (a, t))

/-- A key taken out. -/
def Table.remove (m : Table ι α τ) (i : ι) : Table ι α τ :=
  Function.update m i none

theorem Table.report_self (m : Table ι α τ) (i : ι) (a : α) (t : τ) :
    m.report i a t i = some (a, t) :=
  Function.update_self i _ m

theorem Table.report_of_ne (m : Table ι α τ) {i j : ι} (a : α) (t : τ) (h : j ≠ i) :
    m.report i a t j = m j :=
  Function.update_of_ne h _ m

theorem Table.remove_self (m : Table ι α τ) (i : ι) : m.remove i i = none :=
  Function.update_self i _ m

theorem Table.remove_of_ne (m : Table ι α τ) {i j : ι} (h : j ≠ i) : m.remove i j = m j :=
  Function.update_of_ne h _ m

end Table

variable [LinearOrder ι] [LinearOrder τ]

/-- `out` lists what is reported from `cut` on, each key once, by time and
then by key. -/
structure Lists (cut : τ) (m : Table ι α τ) (out : List (ι × α × τ)) : Prop where
  sorted : out.Pairwise fun e e' => e.2.2 < e'.2.2 ∨ e.2.2 = e'.2.2 ∧ e.1 < e'.1
  mem : ∀ i a t, (i, a, t) ∈ out ↔ m i = some (a, t) ∧ cut ≤ t

/-- The set has the report times from `cut` on, and no others than the
table's. -/
structure Keeps (cut : τ) (m : Table ι α τ) (z : SortedSet ι τ) : Prop where
  sound : ∀ i t, z.score i = some t → ∃ a, m i = some (a, t)
  complete : ∀ i a t, m i = some (a, t) → cut ≤ t → z.score i = some t

variable {cut cut' : τ} {m : Table ι α τ} {z : SortedSet ι τ}

/-! ## What keeps the times -/

/-- The cut may move on. -/
theorem Keeps.later (h : Keeps cut m z) (hcut : cut ≤ cut') : Keeps cut' m z :=
  ⟨h.sound, fun i a t hi ht => h.complete i a t hi (hcut.trans ht)⟩

theorem Keeps.report (h : Keeps cut m z) (i : ι) (a : α) (t : τ) :
    Keeps cut (m.report i a t) (z.insert i t) := by
  constructor
  · intro j t' hj
    by_cases hji : j = i
    · subst hji
      rw [SortedSet.score_insert_self] at hj
      exact ⟨a, Option.some.inj hj ▸ m.report_self j a t⟩
    · rw [SortedSet.score_insert_of_ne z t hji] at hj
      rw [m.report_of_ne a t hji]
      exact h.sound j t' hj
  · intro j b t' hj ht'
    by_cases hji : j = i
    · subst hji
      rw [m.report_self, Option.some.injEq, Prod.mk.injEq] at hj
      rw [SortedSet.score_insert_self, hj.2]
    · rw [m.report_of_ne a t hji] at hj
      rw [SortedSet.score_insert_of_ne z t hji]
      exact h.complete j b t' hj ht'

theorem Keeps.remove (h : Keeps cut m z) (i : ι) : Keeps cut (m.remove i) (z.erase i) := by
  constructor
  · intro j t hj
    have hji : j ≠ i := by
      rintro rfl
      rw [SortedSet.score_erase_self] at hj
      cases hj
    rw [SortedSet.score_erase_of_ne z hji] at hj
    rw [m.remove_of_ne hji]
    exact h.sound j t hj
  · intro j a t hj ht
    have hji : j ≠ i := by
      rintro rfl
      rw [m.remove_self] at hj
      cases hj
    rw [m.remove_of_ne hji] at hj
    rw [SortedSet.score_erase_of_ne z hji]
    exact h.complete j a t hj ht

/-- Times before the cut may be dropped. -/
theorem Keeps.prune (h : Keeps cut m z) {old : List ι}
    (hold : ∀ i ∈ old, ∀ t, z.score i = some t → t < cut) :
    Keeps cut m (old.foldl SortedSet.erase z) := by
  constructor
  · intro i t hi
    rw [SortedSet.score_eraseAll] at hi
    split at hi
    · cases hi
    · exact h.sound i t hi
  · intro i a t hi ht
    have hscore := h.complete i a t hi ht
    have hkept : i ∉ old := fun hin => absurd (hold i hin t hscore) (not_lt.mpr ht)
    rw [SortedSet.score_eraseAll, if_neg hkept, hscore]

/-- Once every report is before the cut, the set may be lost. -/
theorem keeps_of_old (h : ∀ i a t, m i = some (a, t) → t < cut) : Keeps cut m ∅ := by
  constructor
  · intro i t hi
    rw [SortedSet.score_empty] at hi
    cases hi
  · intro i a t hi ht
    exact absurd (h i a t hi) (not_lt.mpr ht)

/-! ## What is shown -/

/-- The entries of the set from the cut on, with their values. -/
def shown (cut : τ) (m : Table ι α τ) (z : SortedSet ι τ) : List (ι × α × τ) :=
  (z.entries.filter fun e => decide (cut ≤ SortedSet.rank e)).filterMap fun e =>
    (m (SortedSet.member e)).map fun p => (SortedSet.member e, p.1, SortedSet.rank e)

/-- **The set lists the table.** -/
theorem Keeps.lists (h : Keeps cut m z) : Lists cut m (shown cut m z) := by
  constructor
  · have hstrict : z.entries.Pairwise (· < ·) :=
      (z.sorted.and z.nodup_entries).imp fun h => lt_of_le_of_ne h.1 h.2
    refine (hstrict.filter _).filterMap _ ?_
    intro e e' hlt p hp p' hp'
    obtain ⟨q, _, rfl⟩ := Option.map_eq_some_iff.mp hp
    obtain ⟨q', _, rfl⟩ := Option.map_eq_some_iff.mp hp'
    exact Prod.Lex.lt_iff.mp hlt
  · intro i a t
    rw [shown, List.mem_filterMap]
    constructor
    · rintro ⟨e, he, hmap⟩
      obtain ⟨hin, hcut⟩ := List.mem_filter.mp he
      obtain ⟨p, hp, hentry⟩ := Option.map_eq_some_iff.mp hmap
      obtain ⟨rfl, rfl, rfl⟩ : SortedSet.member e = i ∧ p.1 = a ∧ SortedSet.rank e = t := by
        simpa only [Prod.mk.injEq] using hentry
      obtain ⟨b, hb⟩ := h.sound _ _ (SortedSet.score_eq_some_iff.mpr hin)
      obtain rfl : p = (b, SortedSet.rank e) := Option.some.inj (hp.symm.trans hb)
      exact ⟨hb, of_decide_eq_true hcut⟩
    · rintro ⟨hm, ht⟩
      have hin : toLex (t, i) ∈ z.entries :=
        SortedSet.score_eq_some_iff.mp (h.complete i a t hm ht)
      refine ⟨toLex (t, i), List.mem_filter.mpr ⟨hin, decide_eq_true ht⟩, ?_⟩
      rw [SortedSet.member_toLex, SortedSet.rank_toLex, hm]
      rfl

end Horizon
