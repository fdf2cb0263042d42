import Redisq.Verified.Records

/-!
# What a trim takes

`allowed` says what retention keeps of a Job State: with nothing to keep, or
for no time, nothing; else those of the newest `keep` that are younger than
`age`.  A trim reads two overlapping runs of the lowest members, each cut at a
thousand, so one trim takes `trimCount` of the lowest members, and trims one
after the other end in what retention allows.
-/

namespace Redisq.Model

/-! ## What retention allows -/

/-- How many members are at least `age` old. -/
def outdated (z : ZSet) (age : ℤ) (now : ℕ) : ℕ :=
  (z.filter fun e => decide (SortedSet.rank e ≤ now - age)).entries.length

/-- The newest `keep` members. -/
def newest (z : ZSet) (keep : ℤ) : ZSet :=
  z.dropMin ((z.entries.length : ℤ) - keep).toNat

/-- What retention keeps of a Job State. -/
def allowed (z : ZSet) (keep age : ℤ) (now : ℕ) : ZSet :=
  if keep ≤ 0 ∨ age ≤ 0 then ∅
  else (newest z keep).filter fun e => decide (now - age < SortedSet.rank e)

/-- How many members are in excess of it. -/
def excess (z : ZSet) (keep age : ℤ) (now : ℕ) : ℕ :=
  if keep ≤ 0 ∨ age ≤ 0 then z.entries.length
  else max (outdated z age now) ((z.entries.length : ℤ) - keep).toNat

/-- How many members one trim takes: up to a thousand of the old ones or of
those that are too many, whichever are more. -/
def trimCount (z : ZSet) (keep age : ℤ) (now : ℕ) : ℕ :=
  if 0 < keep ∧ 0 < age then
    max (min (outdated z age now) 1000)
      (min (max 0 ((z.entries.length : ℤ) - keep)) 1000).toNat
  else min z.entries.length 1000

section Counts

variable {z : ZSet} {keep age : ℤ} {now : ℕ}

theorem outdated_le : outdated z age now ≤ z.entries.length :=
  List.length_filter_le _ _

/-- An entry is old if it is among the lowest ones. -/
theorem take_outdated :
    (z.filter fun e => decide (SortedSet.rank e ≤ now - age)).entries =
      z.entries.take (outdated z age now) :=
  SortedSet.filter_eq_take z.sorted _

/-- The entries behind the old ones are young. -/
theorem young_of_drop {e : ℤ ×ₗ Bytes} (h : e ∈ z.entries.drop (outdated z age now)) :
    now - age < SortedSet.rank e := by
  by_contra hold
  have hin : e ∈ z.entries.take (outdated z age now) := by
    rw [← take_outdated]
    exact List.mem_filter.mpr ⟨List.mem_of_mem_drop h, by simpa using hold⟩
  have hnodup := z.nodup_entries
  rw [← List.take_append_drop (outdated z age now) z.entries] at hnodup
  exact (List.nodup_append.mp hnodup).2.2 e hin e h rfl

/-- The entries before them are old. -/
theorem old_of_take {e : ℤ ×ₗ Bytes} (h : e ∈ z.entries.take (outdated z age now)) :
    SortedSet.rank e ≤ now - age := by
  rw [← take_outdated] at h
  simpa using (List.mem_filter.mp h).2

/-- A trim takes at most a thousand of the excess, and all of a smaller one. -/
theorem trimCount_eq : trimCount z keep age now = min (excess z keep age now) 1000 := by
  unfold trimCount excess
  by_cases hoff : keep ≤ 0 ∨ age ≤ 0
  · rw [if_neg (by omega), if_pos hoff]
  · rw [if_pos (by omega), if_neg hoff]
    omega

/-- What is allowed is what is left without the excess. -/
theorem allowed_eq : allowed z keep age now = z.dropMin (excess z keep age now) := by
  unfold allowed excess
  by_cases hoff : keep ≤ 0 ∨ age ≤ 0
  · rw [if_pos hoff, if_pos hoff]
    exact SortedSet.ext (List.drop_length).symm
  · rw [if_neg hoff, if_neg hoff]
    refine SortedSet.ext_mem fun e => ?_
    have hmax : e ∈ (z.dropMin (max (outdated z age now)
        ((z.entries.length : ℤ) - keep).toNat)).entries ↔
        e ∈ z.entries.drop (outdated z age now) ∧
          e ∈ z.entries.drop ((z.entries.length : ℤ) - keep).toNat := by
      show e ∈ z.entries.drop _ ↔ _
      rcases le_total (outdated z age now) ((z.entries.length : ℤ) - keep).toNat with hle | hle
      · rw [max_eq_right hle]
        exact ⟨fun h => ⟨(List.drop_subset_drop_left _ hle) h, h⟩, And.right⟩
      · rw [max_eq_left hle]
        exact ⟨fun h => ⟨h, (List.drop_subset_drop_left _ hle) h⟩, And.left⟩
    rw [hmax]
    constructor
    · intro h
      obtain ⟨hnew, hyoung⟩ := List.mem_filter.mp h
      refine ⟨?_, hnew⟩
      have hin : e ∈ z.entries := List.mem_of_mem_drop hnew
      rw [← List.take_append_drop (outdated z age now) z.entries, List.mem_append] at hin
      rcases hin with hold | hdrop
      · exact absurd (old_of_take hold) (not_le.mpr (by simpa using hyoung))
      · exact hdrop
    · rintro ⟨hyoung, hnew⟩
      exact List.mem_filter.mpr ⟨hnew, by simpa using young_of_drop hyoung⟩

/-- The list a trim builds, one run after the other, is that many of the
lowest members, some of them twice. -/
theorem mem_dropped {m : Bytes} :
    m ∈ dropped z keep age now ↔ m ∈ z.members.take (trimCount z keep age now) := by
  unfold dropped trimCount
  by_cases hoff : keep ≤ 0 ∨ age ≤ 0
  · rw [if_pos hoff, if_neg (by omega), List.take_eq_take_min, SortedSet.members,
      List.length_map, Nat.min_comm]
  · rw [if_neg hoff, if_pos (by omega), SortedSet.members_filter, List.take_take, List.mem_append]
    have hmost : (min ((z.entries.length : ℤ) - keep) 1000).toNat =
        (min (max 0 ((z.entries.length : ℤ) - keep)) 1000).toNat := by
      omega
    rw [hmost, Nat.min_comm]
    show m ∈ z.members.take (min (outdated z age now) 1000) ∨ _ ↔ _
    rcases le_total (min (outdated z age now) 1000)
      (min (max 0 ((z.entries.length : ℤ) - keep)) 1000).toNat with hle | hle
    · rw [max_eq_right hle]
      exact ⟨fun h => h.elim (fun h => List.take_subset_take_left _ hle h) id, Or.inr⟩
    · rw [max_eq_left hle]
      exact ⟨fun h => h.elim id fun h => List.take_subset_take_left _ hle h, Or.inl⟩

/-- Without some of the lowest members there are as many old ones less. -/
theorem outdated_dropMin (k : ℕ) : outdated (z.dropMin k) age now = outdated z age now - k := by
  have hsplit : (z.dropMin k).entries = (z.entries.take (outdated z age now)).drop k ++
      (z.entries.drop (outdated z age now)).drop (k - outdated z age now) := by
    have hlength : (z.entries.take (outdated z age now)).length = outdated z age now :=
      List.length_take_of_le outdated_le
    calc (z.dropMin k).entries
        = (z.entries.take (outdated z age now) ++ z.entries.drop (outdated z age now)).drop k := by
          rw [List.take_append_drop]
          rfl
      _ = _ := by rw [List.drop_append, hlength]
  have hold : ((z.entries.take (outdated z age now)).drop k).filter
      (fun e => decide (SortedSet.rank e ≤ now - age)) =
        (z.entries.take (outdated z age now)).drop k :=
    List.filter_eq_self.mpr fun e he => by simpa using old_of_take (List.mem_of_mem_drop he)
  have hyoung : ((z.entries.drop (outdated z age now)).drop (k - outdated z age now)).filter
      (fun e => decide (SortedSet.rank e ≤ now - age)) = [] :=
    List.filter_eq_nil_iff.mpr fun e he => by simpa using young_of_drop (List.mem_of_mem_drop he)
  show ((z.dropMin k).entries.filter _).length = _
  rw [hsplit, List.filter_append, hold, hyoung, List.append_nil, List.length_drop,
    List.length_take_of_le outdated_le]

theorem excess_le : excess z keep age now ≤ z.entries.length := by
  unfold excess
  split
  · exact le_rfl
  · have : outdated z age now ≤ z.entries.length := outdated_le
    omega

/-- And the excess is that much smaller. -/
theorem excess_dropMin {k : ℕ} (hk : k ≤ excess z keep age now) :
    excess (z.dropMin k) keep age now = excess z keep age now - k := by
  have hlength : (z.dropMin k).entries.length = z.entries.length - k := List.length_drop
  have hle := hk.trans excess_le
  unfold excess at hk ⊢
  rw [outdated_dropMin, hlength]
  by_cases hoff : keep ≤ 0 ∨ age ≤ 0
  · rw [if_pos hoff, if_pos hoff]
  · rw [if_neg hoff, if_neg hoff]
    omega

end Counts

/-! ## Trims -/

/-- The lowest `k` members of a Job State are gone, with their records, and
nothing else is. -/
structure Lowered (state : JobState) (k : ℕ) (s s' : Store) : Prop where
  set : s'.records.of state = (s.records.of state).dropMin k
  other : s'.records.of state.opposite = s.records.of state.opposite
  records : ∀ id, s'.records.jobs.lookup id =
    if id ∈ (s.records.of state).members.take k then none else s.records.jobs.lookup id
  rest : s' = s.withRecords s'.records

/-- One trim after the other. -/
def trims (state : JobState) (keep age : ℤ) (now : ℕ) : ℕ → Store → Store
  | 0, s => s
  | n + 1, s => trims state keep age now n ((trim state.this keep age now).exec s).2

section Trims

variable {state : JobState} {keep age : ℤ} {now : ℕ} {k k' : ℕ} {s s' s'' : Store}

theorem Lowered.refl (state : JobState) (s : Store) : Lowered state 0 s s where
  set := rfl
  other := rfl
  records := fun id => by rw [List.take_zero, if_neg List.not_mem_nil]
  rest := rfl

theorem Lowered.trans (h : Lowered state k s s') (h' : Lowered state k' s' s'') :
    Lowered state (k + k') s s'' where
  set := by rw [h'.set, h.set, SortedSet.dropMin_dropMin]
  other := h'.other.trans h.other
  records := by
    intro id
    rw [h'.records, h.records, h.set]
    simp only [SortedSet.members_dropMin, List.take_add, List.mem_append]
    by_cases hfirst : id ∈ (s.records.of state).members.take k
    · simp only [hfirst, true_or, if_true]
      split <;> rfl
    · simp only [hfirst, if_false, false_or]
  rest := by
    rw [h'.rest, h.rest]
    rfl

/-- One trim takes `trimCount` of the lowest members. -/
theorem trim_lowered (state : JobState) (keep age : ℤ) (now : ℕ) (s : Store) :
    Lowered state (trimCount (s.records.of state) keep age now) s
      ((trim state.this keep age now).exec s).2 := by
  rw [exec_trim]
  constructor
  · show ((s.records.trimmed state keep age now).of state) = _
    rw [Records.trimmed, Records.without, Records.of_with_jobs, Records.of_set_self,
      ← SortedSet.eraseAll_take]
    refine SortedSet.ext_mem fun e => ?_
    rw [SortedSet.mem_entries_eraseAll, SortedSet.mem_entries_eraseAll, mem_dropped]
  · exact Records.of_opposite_without _
  · intro id
    show (s.records.trimmed state keep age now).jobs.lookup id = _
    rw [Records.trimmed, Records.without, Finmap.lookup_eraseAll]
    simp only [mem_dropped]
  · rfl

/-- So `n` trims take a thousand times as many, or the excess. -/
theorem trims_lowered (n : ℕ) (s : Store) :
    Lowered state (min (excess (s.records.of state) keep age now) (1000 * n)) s
      (trims state keep age now n s) := by
  induction n generalizing s with
  | zero =>
      rw [Nat.mul_zero, Nat.min_zero]
      exact Lowered.refl state s
  | succ n ih =>
      have hfirst := trim_lowered state keep age now s
      have hrest := ih ((trim state.this keep age now).exec s).2
      rw [trimCount_eq] at hfirst
      rw [hfirst.set, excess_dropMin (Nat.min_le_left _ _)] at hrest
      have hsum := hfirst.trans hrest
      rw [show min (excess (s.records.of state) keep age now) 1000 +
          min (excess (s.records.of state) keep age now -
            min (excess (s.records.of state) keep age now) 1000) (1000 * n) =
          min (excess (s.records.of state) keep age now) (1000 * (n + 1)) by omega] at hsum
      exact hsum

end Trims

/-- **A trim keeps what retention allows.**  One trim takes `trimCount` of the
lowest members with their records, and nothing else.  None of these is one of
the newest `keep` and younger than `age`, unless `age` is 0, which keeps none,
and its finish lies ahead of the clock.  Trims with nothing added in between
take a thousand of the excess each, until what is allowed is left. -/
theorem trim_exact (state : JobState) (keep age : ℤ) (now : ℕ) (s : Store) :
    Lowered state (trimCount (s.records.of state) keep age now) s
        ((trim state.this keep age now).exec s).2 ∧
      (∀ e ∈ (newest (s.records.of state) keep).entries, now - age < SortedSet.rank e →
        (0 < age ∨ SortedSet.rank e ≤ now) →
          e ∈ (((trim state.this keep age now).exec s).2.records.of state).entries) ∧
      Lowered state (excess (s.records.of state) keep age now) s
        (trims state keep age now ((excess (s.records.of state) keep age now + 999) / 1000) s) ∧
      (trims state keep age now ((excess (s.records.of state) keep age now + 999) / 1000)
        s).records.of state = allowed (s.records.of state) keep age now := by
  have hone := trim_lowered state keep age now s
  have hall : Lowered state _ s (trims state keep age now
      ((excess (s.records.of state) keep age now + 999) / 1000) s) := trims_lowered _ s
  rw [Nat.min_eq_left (by omega)] at hall
  refine ⟨hone, fun e hnew hyoung hage => ?_, hall, ?_⟩
  · rw [hone.set, trimCount_eq]
    have hkept : e ∈ (allowed (s.records.of state) keep age now).entries := by
      unfold allowed
      by_cases hoff : keep ≤ 0 ∨ age ≤ 0
      · -- nothing is among the newest 0, or younger than 0
        exfalso
        rcases hoff with hkeep | hzero
        · have hnone : (newest (s.records.of state) keep).entries = [] :=
            List.drop_eq_nil_of_le (by omega)
          rw [hnone] at hnew
          exact List.not_mem_nil hnew
        · omega
      · rw [if_neg hoff]
        exact List.mem_filter.mpr ⟨hnew, by simpa using hyoung⟩
    rw [allowed_eq] at hkept
    exact List.drop_subset_drop_left _ (Nat.min_le_left _ _) hkept
  · rw [hall.set, allowed_eq]

/-- One job that finished 5 ms ahead of the clock. -/
def finishedAhead : Store :=
  { Store.empty with completed := SortedSet.insert ∅ [74] 5 }

/-- With a longest age of 0 its member goes, though it is the newest. -/
theorem trim_finishedAhead :
    toLex (5, [74]) ∈ (newest (finishedAhead.records.of .completed) 1).entries ∧
      ((0 : ℕ) : ℤ) - 0 < SortedSet.rank (toLex ((5 : ℤ), ([74] : Bytes))) ∧
      toLex (5, [74]) ∉ (((trim JobState.completed.this 1 0 0).exec
        finishedAhead).2.records.of .completed).entries := by
  refine ⟨?_, by decide, ?_⟩
  · exact List.mem_singleton.mpr rfl
  · rw [(trim_lowered .completed 1 0 0 finishedAhead).set]
    exact List.not_mem_nil

end Redisq.Model
