import Mathlib.Data.List.Dedup
import Mathlib.Data.List.Sort
import Mathlib.Data.Prod.Lex
import Mathlib.Order.Lattice

/-!
# Sets sorted by score

A sorted set holds distinct members, each with a score, in the order of
(score, member).  The order and the distinctness are fields, so every
operation below returns a well-formed set.  Reads by member (`score`) are
specified by membership of the entry (`score_eq_some_iff`), and the effect of
an update on them by one lemma for the updated member and one for the others.
-/

/-- Distinct members with scores, in (score, member) order. -/
structure SortedSet (ι σ : Type*) [LinearOrder ι] [LinearOrder σ] where
  entries : List (σ ×ₗ ι)
  sorted : entries.Pairwise (· ≤ ·)
  distinct : (entries.map fun e => (ofLex e).2).Nodup

namespace SortedSet

section Entry

variable {ι σ : Type*}

/-- The member of an entry. -/
def member (e : σ ×ₗ ι) : ι := (ofLex e).2

/-- The score of an entry. -/
def rank (e : σ ×ₗ ι) : σ := (ofLex e).1

@[simp] theorem member_toLex (s : σ) (m : ι) : member (toLex (s, m)) = m := rfl

@[simp] theorem rank_toLex (s : σ) (m : ι) : rank (toLex (s, m)) = s := rfl

end Entry

variable {ι σ : Type*} [LinearOrder ι] [LinearOrder σ]

@[ext] theorem ext {z z' : SortedSet ι σ} (h : z.entries = z'.entries) : z = z' := by
  cases z
  cases z'
  cases h
  rfl

/-! ## Operations -/

/-- No members. -/
def empty : SortedSet ι σ := ⟨[], List.Pairwise.nil, List.nodup_nil⟩

instance : EmptyCollection (SortedSet ι σ) := ⟨empty⟩

@[simp] theorem entries_empty : (∅ : SortedSet ι σ).entries = [] := rfl

/-- The members, lowest first. -/
def members (z : SortedSet ι σ) : List ι := z.entries.map member

theorem nodup_members (z : SortedSet ι σ) : z.members.Nodup := z.distinct

/-- Keep the entries `p` accepts. -/
def filter (p : σ ×ₗ ι → Bool) (z : SortedSet ι σ) : SortedSet ι σ where
  entries := z.entries.filter p
  sorted := z.sorted.filter p
  distinct := z.distinct.sublist (List.filter_sublist.map _)

/-- Remove member `m`. -/
def erase (z : SortedSet ι σ) (m : ι) : SortedSet ι σ :=
  z.filter fun e => member e ≠ m

/-- Set the score of `m`, adding it if it is not there. -/
def insert (z : SortedSet ι σ) (m : ι) (s : σ) : SortedSet ι σ where
  entries := (z.erase m).entries.orderedInsert (· ≤ ·) (toLex (s, m))
  sorted := List.Pairwise.orderedInsert _ _ (z.erase m).sorted
  distinct := by
    have hperm := (List.perm_orderedInsert (· ≤ ·) (toLex (s, m))
      (z.erase m).entries).map fun e : σ ×ₗ ι => (ofLex e).2
    refine hperm.nodup_iff.mpr (List.nodup_cons.mpr ⟨?_, (z.erase m).distinct⟩)
    intro hmem
    obtain ⟨e, he, hem⟩ := List.mem_map.mp hmem
    have hne := (List.mem_filter.mp he).2
    simp only [decide_not, Bool.not_eq_eq_eq_not, Bool.not_true, decide_eq_false_iff_not] at hne
    exact hne hem

/-- Drop the `n` lowest entries. -/
def dropMin (z : SortedSet ι σ) (n : ℕ) : SortedSet ι σ where
  entries := z.entries.drop n
  sorted := z.sorted.sublist (List.drop_sublist n _)
  distinct := z.distinct.sublist ((List.drop_sublist n _).map _)

/-- The score of `m`, if it is a member. -/
def score (z : SortedSet ι σ) (m : ι) : Option σ :=
  (z.entries.find? fun e => member e = m).map rank

/-! ## Entries after an update -/

theorem mem_entries_erase {z : SortedSet ι σ} {m : ι} {e : σ ×ₗ ι} :
    e ∈ (z.erase m).entries ↔ e ∈ z.entries ∧ member e ≠ m := by
  simp [erase, filter]

theorem mem_entries_insert {z : SortedSet ι σ} {m : ι} {s : σ} {e : σ ×ₗ ι} :
    e ∈ (z.insert m s).entries ↔
      e = toLex (s, m) ∨ (e ∈ z.entries ∧ member e ≠ m) := by
  rw [insert, List.mem_orderedInsert, mem_entries_erase]

theorem insert_perm (z : SortedSet ι σ) (m : ι) (s : σ) :
    (z.insert m s).entries.Perm (toLex (s, m) :: (z.erase m).entries) :=
  List.perm_orderedInsert _ _ _

theorem length_insert_le (z : SortedSet ι σ) (m : ι) (s : σ) :
    (z.insert m s).entries.length ≤ z.entries.length + 1 := by
  have herase : (z.erase m).entries.length ≤ z.entries.length := List.length_filter_le _ _
  rw [(z.insert_perm m s).length_eq, List.length_cons]
  omega

/-- A set is its entries, in whatever order they were put in. -/
theorem ext_mem {z z' : SortedSet ι σ} (h : ∀ e, e ∈ z.entries ↔ e ∈ z'.entries) : z = z' :=
  SortedSet.ext (List.Perm.eq_of_pairwise (fun _ _ _ _ hle hge => le_antisymm hle hge) z.sorted
    z'.sorted ((List.perm_ext_iff_of_nodup (List.Nodup.of_map _ z.distinct)
      (List.Nodup.of_map _ z'.distinct)).mpr h))

/-- A score set twice is set once. -/
@[simp] theorem insert_insert (z : SortedSet ι σ) (m : ι) (s s' : σ) :
    (z.insert m s).insert m s' = z.insert m s' := by
  refine ext_mem fun e => ?_
  simp only [mem_entries_insert]
  constructor
  · rintro (h | ⟨rfl | h, hne⟩)
    · exact Or.inl h
    · exact absurd rfl hne
    · exact Or.inr h
  · rintro (h | h)
    · exact Or.inl h
    · exact Or.inr ⟨Or.inr h, h.2⟩

/-- Erasing a member that is not there changes nothing. -/
theorem erase_eq_self {z : SortedSet ι σ} {m : ι} (h : m ∉ z.members) :
    z.erase m = z := by
  refine SortedSet.ext (List.filter_eq_self.mpr fun e he => ?_)
  simp only [decide_not, Bool.not_eq_eq_eq_not, Bool.not_true, decide_eq_false_iff_not]
  rintro rfl
  exact h (List.mem_map_of_mem he)

/-- A new member goes in ahead of the entries above it. -/
theorem insert_split {z : SortedSet ι σ} {m : ι} (h : m ∉ z.members) (s : σ) :
    ∃ l₁ l₂, z.entries = l₁ ++ l₂ ∧ (z.insert m s).entries = l₁ ++ toLex (s, m) :: l₂ ∧
      ∀ e ∈ l₂, toLex (s, m) ≤ e := by
  have hentries : (z.insert m s).entries =
      (z.entries.takeWhile fun e => ¬toLex (s, m) ≤ e) ++
        toLex (s, m) :: z.entries.dropWhile fun e => ¬toLex (s, m) ≤ e := by
    rw [← List.orderedInsert_eq_take_drop]
    change (z.erase m).entries.orderedInsert (· ≤ ·) (toLex (s, m)) = _
    rw [erase_eq_self h]
  have hsorted := (z.insert m s).sorted
  rw [hentries] at hsorted
  exact ⟨_, _, List.takeWhile_append_dropWhile.symm, hentries,
    (List.pairwise_cons.mp (List.pairwise_append.mp hsorted).2.1).1⟩

theorem nodup_entries (z : SortedSet ι σ) : z.entries.Nodup :=
  List.Nodup.of_map _ z.distinct

/-- An entry, and the set without its member, make up the set. -/
theorem erase_perm {z : SortedSet ι σ} {e : σ ×ₗ ι} (h : e ∈ z.entries) :
    z.entries.Perm (e :: (z.erase (member e)).entries) := by
  have hrest : (z.erase (member e)).entries = z.entries.erase e := by
    rw [z.nodup_entries.erase_eq_filter]
    refine List.filter_congr fun e' he' => ?_
    have hiff : member e' = member e ↔ e' = e :=
      ⟨fun heq => List.inj_on_of_nodup_map z.distinct he' h heq, congrArg member⟩
    simp only [ne_eq, hiff, bne, decide_not, beq_eq_decide]
  rw [hrest]
  exact List.perm_cons_erase h

/-- Without an entry's member a set is without the entry. -/
theorem entries_erase {z : SortedSet ι σ} {l₁ l₂ : List (σ ×ₗ ι)} {e : σ ×ₗ ι}
    (h : z.entries = l₁ ++ e :: l₂) : (z.erase (member e)).entries = l₁ ++ l₂ := by
  have hdistinct := z.distinct
  rw [h, List.map_append, List.map_cons, List.nodup_middle, List.nodup_cons, ← List.map_append]
    at hdistinct
  have hkept : (l₁ ++ l₂).filter (fun e' => member e' ≠ member e) = l₁ ++ l₂ := by
    refine List.filter_eq_self.mpr fun e' he' => ?_
    have hne : member e' ≠ member e := fun heq =>
      hdistinct.1 (List.mem_map.mpr ⟨e', he', heq⟩)
    simpa using hne
  show z.entries.filter (fun e' => member e' ≠ member e) = _
  rw [h, List.filter_append, List.filter_cons_of_neg (by simp), ← List.filter_append, hkept]

/-! ## Scores -/

/-- A member has one score: the one it is listed with. -/
theorem score_eq_some_iff {z : SortedSet ι σ} {m : ι} {s : σ} :
    z.score m = some s ↔ toLex (s, m) ∈ z.entries := by
  constructor
  · intro h
    obtain ⟨e, he, hs⟩ := Option.map_eq_some_iff.mp h
    have hm : member e = m := by simpa using List.find?_some he
    rw [← hs, ← hm]
    exact List.mem_of_find?_eq_some he
  · intro h
    obtain ⟨e, he⟩ : ∃ e, z.entries.find? (fun e => member e = m) = some e := by
      rw [← Option.isSome_iff_exists, List.find?_isSome]
      exact ⟨_, h, by simp⟩
    have hm : member e = m := by simpa using List.find?_some he
    have heq : e = toLex (s, m) :=
      List.inj_on_of_nodup_map z.distinct (List.mem_of_find?_eq_some he) h hm
    rw [score, he, heq]
    rfl

theorem score_eq_none_iff {z : SortedSet ι σ} {m : ι} :
    z.score m = none ↔ m ∉ z.members := by
  rw [Option.eq_none_iff_forall_ne_some]
  constructor
  · intro h hm
    obtain ⟨e, he, rfl⟩ := List.mem_map.mp hm
    exact h (rank e) (score_eq_some_iff.mpr he)
  · intro h s hs
    exact h (List.mem_map.mpr ⟨_, score_eq_some_iff.mp hs, rfl⟩)

theorem mem_members_iff {z : SortedSet ι σ} {m : ι} :
    m ∈ z.members ↔ ∃ s, z.score m = some s := by
  rw [← Option.isSome_iff_exists, Option.isSome_iff_ne_none, Ne, score_eq_none_iff, not_not]

@[simp] theorem score_empty (m : ι) : (∅ : SortedSet ι σ).score m = none := rfl

@[simp] theorem score_insert_self (z : SortedSet ι σ) (m : ι) (s : σ) :
    (z.insert m s).score m = some s :=
  score_eq_some_iff.mpr (mem_entries_insert.mpr (Or.inl rfl))

theorem score_insert_of_ne (z : SortedSet ι σ) {m m' : ι} (s : σ) (h : m' ≠ m) :
    (z.insert m s).score m' = z.score m' := by
  ext t
  simp only [score_eq_some_iff, mem_entries_insert, member_toLex]
  constructor
  · rintro (heq | ⟨hmem, _⟩)
    · exact absurd (congrArg member heq) h
    · exact hmem
  · intro hmem
    exact Or.inr ⟨hmem, h⟩

theorem score_insert (z : SortedSet ι σ) (m m' : ι) (s : σ) :
    (z.insert m s).score m' = if m' = m then some s else z.score m' := by
  by_cases h : m' = m
  · subst h
    simp
  · rw [if_neg h, score_insert_of_ne z s h]

theorem score_filter {z : SortedSet ι σ} {p : σ ×ₗ ι → Bool} {m : ι} {s : σ} :
    (z.filter p).score m = some s ↔ z.score m = some s ∧ p (toLex (s, m)) = true := by
  simp only [score_eq_some_iff, filter, List.mem_filter]

@[simp] theorem score_erase_self (z : SortedSet ι σ) (m : ι) :
    (z.erase m).score m = none := by
  rw [Option.eq_none_iff_forall_ne_some]
  intro s hs
  exact (mem_entries_erase.mp (score_eq_some_iff.mp hs)).2 rfl

theorem score_erase_of_ne (z : SortedSet ι σ) {m m' : ι} (h : m' ≠ m) :
    (z.erase m).score m' = z.score m' := by
  ext t
  simp only [score_eq_some_iff, mem_entries_erase, member_toLex]
  exact ⟨fun hmem => hmem.1, fun hmem => ⟨hmem, h⟩⟩

theorem score_erase (z : SortedSet ι σ) (m m' : ι) :
    (z.erase m).score m' = if m' = m then none else z.score m' := by
  by_cases h : m' = m
  · subst h
    simp
  · rw [if_neg h, score_erase_of_ne z h]

/-! ## Updates of several members -/

theorem score_insertAll (ms : List ι) (s : σ) (m : ι) (z : SortedSet ι σ) :
    (ms.foldl (fun z m => z.insert m s) z).score m = if m ∈ ms then some s else z.score m := by
  induction ms generalizing z with
  | nil => rfl
  | cons m' rest ih =>
      rw [List.foldl_cons, ih, score_insert]
      by_cases hrest : m ∈ rest <;> by_cases hm : m = m' <;> simp [hrest, hm]

theorem score_eraseAll (ms : List ι) (m : ι) (z : SortedSet ι σ) :
    (ms.foldl erase z).score m = if m ∈ ms then none else z.score m := by
  induction ms generalizing z with
  | nil => rfl
  | cons m' rest ih =>
      rw [List.foldl_cons, ih, score_erase]
      by_cases hrest : m ∈ rest <;> by_cases hm : m = m' <;> simp [hrest, hm]

/-! ## Members after an update -/

theorem mem_members_erase {z : SortedSet ι σ} {m m' : ι} :
    m' ∈ (z.erase m).members ↔ m' ∈ z.members ∧ m' ≠ m := by
  rw [mem_members_iff, mem_members_iff, score_erase]
  by_cases h : m' = m <;> simp [h]

theorem mem_members_insert {z : SortedSet ι σ} {m m' : ι} {s : σ} :
    m' ∈ (z.insert m s).members ↔ m' = m ∨ m' ∈ z.members := by
  rw [mem_members_iff, mem_members_iff, score_insert]
  by_cases h : m' = m <;> simp [h]

theorem mem_members_eraseAll {z : SortedSet ι σ} {ms : List ι} {m : ι} :
    m ∈ (ms.foldl erase z).members ↔ m ∈ z.members ∧ m ∉ ms := by
  rw [mem_members_iff, mem_members_iff, score_eraseAll]
  by_cases h : m ∈ ms <;> simp [h]

/-- Fewer members are no more entries. -/
theorem length_le_of_subset {z w : SortedSet ι σ} (h : z.members ⊆ w.members) :
    z.entries.length ≤ w.entries.length := by
  have hlength := (List.subperm_of_subset z.nodup_members h).length_le
  rwa [members, members, List.length_map, List.length_map] at hlength

/-- A member with a score above all others is the last one. -/
theorem members_insert_last {z : SortedSet ι σ} {m : ι} {s : σ} (hm : m ∉ z.members)
    (hs : ∀ e ∈ z.entries, rank e < s) : (z.insert m s).members = z.members ++ [m] := by
  obtain ⟨l₁, l₂, hold, hnew, habove⟩ := insert_split hm s
  have hnil : l₂ = [] := by
    rw [List.eq_nil_iff_forall_not_mem]
    intro e he
    have hlt : rank e < s := hs e (by rw [hold]; exact List.mem_append_right _ he)
    have hle : s ≤ rank e := Prod.Lex.monotone_fst _ _ (habove e he)
    exact absurd hlt (not_lt.mpr hle)
  rw [members, members, hnew, hold, hnil, List.append_nil, List.map_append]
  rfl

/-! ## The lowest entries -/

/-- The entries a lower set of scores accepts come first. -/
theorem filter_eq_take {l : List (σ ×ₗ ι)} (hl : l.Pairwise (· ≤ ·)) (t : σ) :
    l.filter (fun e => decide (rank e ≤ t)) =
      l.take (l.filter fun e => decide (rank e ≤ t)).length := by
  induction l with
  | nil => rfl
  | cons e rest ih =>
      obtain ⟨hle, hrest⟩ := List.pairwise_cons.mp hl
      by_cases he : rank e ≤ t
      · rw [List.filter_cons_of_pos (by simpa using he), List.length_cons, List.take_succ_cons,
          ← ih hrest]
      · have hnone : rest.filter (fun e => decide (rank e ≤ t)) = [] := by
          refine List.filter_eq_nil_iff.mpr fun e' he' => ?_
          have hmono : rank e ≤ rank e' := Prod.Lex.monotone_fst _ _ (hle e' he')
          simpa using lt_of_lt_of_le (not_le.mp he) hmono
        rw [List.filter_cons_of_neg (by simpa using he), hnone]
        rfl

/-- The members up to a score are the lowest ones. -/
theorem members_filter (z : SortedSet ι σ) (t : σ) :
    (z.filter fun e => decide (rank e ≤ t)).members =
      z.members.take (z.filter fun e => decide (rank e ≤ t)).entries.length := by
  rw [members, members, ← List.map_take]
  exact congrArg _ (filter_eq_take z.sorted t)

theorem mem_entries_eraseAll {ms : List ι} {z : SortedSet ι σ} {e : σ ×ₗ ι} :
    e ∈ (ms.foldl erase z).entries ↔ e ∈ z.entries ∧ member e ∉ ms := by
  have he : e = toLex (rank e, member e) := rfl
  rw [he, ← score_eq_some_iff, ← score_eq_some_iff, score_eraseAll, member_toLex]
  by_cases h : member e ∈ ms <;> simp [h]

/-- What is removed twice is removed once. -/
theorem eraseAll_dedup [DecidableEq ι] (ms : List ι) (z : SortedSet ι σ) :
    ms.dedup.foldl erase z = ms.foldl erase z :=
  ext_mem fun e => by rw [mem_entries_eraseAll, mem_entries_eraseAll, List.mem_dedup]

/-- Without its `n` lowest members a set is without its `n` lowest entries. -/
theorem eraseAll_take (z : SortedSet ι σ) (n : ℕ) :
    (z.members.take n).foldl erase z = z.dropMin n := by
  refine ext_mem fun e => ?_
  have hsplit := z.nodup_members
  rw [← List.take_append_drop n z.members, List.nodup_append] at hsplit
  obtain ⟨-, -, happart⟩ := hsplit
  rw [mem_entries_eraseAll]
  constructor
  · rintro ⟨he, hnot⟩
    rw [← List.take_append_drop n z.entries, List.mem_append] at he
    rcases he with hlow | hrest
    · exact absurd (by rw [members, ← List.map_take]; exact List.mem_map_of_mem hlow) hnot
    · exact hrest
  · intro hrest
    refine ⟨List.mem_of_mem_drop hrest, fun hlow => ?_⟩
    have hdrop : member e ∈ z.members.drop n := by
      rw [members, ← List.map_drop]
      exact List.mem_map_of_mem hrest
    exact happart _ hlow _ hdrop rfl

@[simp] theorem members_dropMin (z : SortedSet ι σ) (n : ℕ) :
    (z.dropMin n).members = z.members.drop n := List.map_drop

theorem dropMin_dropMin (z : SortedSet ι σ) (m n : ℕ) :
    (z.dropMin m).dropMin n = z.dropMin (m + n) :=
  SortedSet.ext (List.drop_drop ..)

/-! ## What is ahead of an entry -/

/-- How many entries come before `e`. -/
def ahead (z : SortedSet ι σ) (e : σ ×ₗ ι) : ℕ :=
  (z.entries.filter fun x => decide (x < e)).length

variable {z : SortedSet ι σ} {e x : σ ×ₗ ι}

theorem ahead_lt_length (he : e ∈ z.entries) : z.ahead e < z.entries.length := by
  refine lt_of_le_of_ne (List.length_filter_le _ _) fun hall => ?_
  have htrue := List.length_filter_eq_length_iff.mp hall e he
  exact absurd (of_decide_eq_true htrue) (lt_irrefl e)

theorem ahead_erase_le (z : SortedSet ι σ) (m : ι) (e : σ ×ₗ ι) :
    (z.erase m).ahead e ≤ z.ahead e :=
  List.Sublist.length_le (List.Sublist.filter _ List.filter_sublist)

/-- One entry less is ahead without one of those ahead. -/
theorem ahead_erase_lt (hx : x ∈ z.entries) (hlt : x < e) :
    (z.erase (member x)).ahead e + 1 = z.ahead e := by
  have hperm := ((erase_perm hx).filter fun x => decide (x < e)).length_eq
  rw [List.filter_cons_of_pos (by simpa using hlt), List.length_cons] at hperm
  exact hperm.symm

theorem ahead_eraseAll_le (ms : List ι) (e : σ ×ₗ ι) :
    ∀ z : SortedSet ι σ, (ms.foldl erase z).ahead e ≤ z.ahead e := by
  induction ms with
  | nil => exact fun z => le_rfl
  | cons m rest ih => exact fun z => (ih (z.erase m)).trans (z.ahead_erase_le m e)

/-- As many entries less are ahead as of those ahead are taken out. -/
theorem ahead_eraseAll (ms : List ι) (hms : ms.Nodup) :
    ∀ z : SortedSet ι σ, (∀ m ∈ ms, ∃ x ∈ z.entries, member x = m ∧ x < e) →
      (ms.foldl erase z).ahead e + ms.length ≤ z.ahead e := by
  induction ms with
  | nil => exact fun z _ => le_rfl
  | cons m rest ih =>
      intro z hahead
      obtain ⟨hm, hrest⟩ := List.nodup_cons.mp hms
      obtain ⟨x, hx, rfl, hlt⟩ := hahead m List.mem_cons_self
      have hone := ahead_erase_lt hx hlt
      have hothers := ih hrest (z.erase (member x)) fun m' hm' => by
        obtain ⟨x', hx', rfl, hlt'⟩ := hahead m' (List.mem_cons_of_mem _ hm')
        exact ⟨x', mem_entries_erase.mpr ⟨hx', fun heq => hm (heq ▸ hm')⟩, rfl, hlt'⟩
      rw [List.foldl_cons, List.length_cons]
      omega

/-- A new entry that is not ahead leaves no more ahead. -/
theorem ahead_insert_le {m : ι} {s : σ} (h : e ≤ toLex (s, m)) :
    (z.insert m s).ahead e ≤ z.ahead e := by
  have hperm := ((z.insert_perm m s).filter fun x => decide (x < e)).length_eq
  rw [List.filter_cons_of_neg (by simpa using h)] at hperm
  exact hperm.le.trans (z.ahead_erase_le m e)

/-- One entry more is ahead at most after an insertion. -/
theorem ahead_insert_le_succ (z : SortedSet ι σ) (m : ι) (s : σ) (e : σ ×ₗ ι) :
    (z.insert m s).ahead e ≤ z.ahead e + 1 := by
  have hperm := ((z.insert_perm m s).filter fun x => decide (x < e)).length_eq
  have herase := z.ahead_erase_le m e
  rw [List.filter_cons] at hperm
  unfold ahead at herase ⊢
  split at hperm
  · rw [List.length_cons] at hperm
    omega
  · omega

/-- The lowest entries were ahead of whatever is not among them. -/
theorem ahead_dropMin (he : e ∈ z.entries) {n : ℕ} (hout : e ∉ z.entries.take n) :
    (z.dropMin n).ahead e + (z.entries.take n).length = z.ahead e := by
  have hsplit : z.entries.take n ++ z.entries.drop n = z.entries := List.take_append_drop _ _
  have hsorted := z.sorted
  rw [← hsplit] at he hsorted
  have hrest : e ∈ z.entries.drop n := (List.mem_append.mp he).resolve_left hout
  have hbefore : ∀ x ∈ z.entries.take n, decide (x < e) = true := by
    intro x hx
    refine decide_eq_true (lt_of_le_of_ne ((List.pairwise_append.mp hsorted).2.2 x hx e hrest) ?_)
    rintro rfl
    exact hout hx
  have hfilter : z.entries.filter (fun x => decide (x < e)) =
      z.entries.take n ++ (z.entries.drop n).filter fun x => decide (x < e) := by
    conv_lhs => rw [← hsplit, List.filter_append, List.filter_eq_self.mpr hbefore]
  unfold ahead
  rw [hfilter, List.length_append]
  exact Nat.add_comm _ _

/-- Among the lowest members, or behind all of them. -/
theorem ahead_of_notMem_take (he : e ∈ z.entries) {n : ℕ} (hout : member e ∉ z.members.take n) :
    (z.members.take n).length = n ∧
      ∀ m ∈ z.members.take n, ∃ x ∈ z.entries, member x = m ∧ x < e := by
  obtain ⟨i, hi, hget⟩ := List.getElem_of_mem he
  have hlength : z.members.length = z.entries.length := List.length_map _
  have hni : n ≤ i := by
    by_contra hlt
    refine hout (List.mem_take_iff_getElem.mpr ⟨i, by omega, ?_⟩)
    simp only [members, List.getElem_map, hget]
  refine ⟨by rw [List.length_take]; omega, fun m hm => ?_⟩
  obtain ⟨j, hj, rfl⟩ := List.mem_take_iff_getElem.mp hm
  have hji : j < i := by omega
  have hle : z.entries[j] ≤ z.entries[i] := List.pairwise_iff_getElem.mp z.sorted j i _ _ hji
  have hne : z.entries[j] ≠ z.entries[i] := fun heq =>
    absurd ((List.Nodup.getElem_inj_iff z.nodup_entries).mp heq) (by omega)
  refine ⟨z.entries[j], List.getElem_mem _, ?_, hget ▸ lt_of_le_of_ne hle hne⟩
  simp only [members, List.getElem_map]

/-! ## How many entries have a score at least -/

/-- How many entries have a score of `t` at least. -/
def since (z : SortedSet ι σ) (t : σ) : ℕ :=
  z.entries.countP fun e => decide (t ≤ rank e)

theorem since_erase_le (z : SortedSet ι σ) (m : ι) (t : σ) : (z.erase m).since t ≤ z.since t :=
  List.filter_sublist.countP_le

theorem since_eraseAll_le (ms : List ι) (t : σ) :
    ∀ z : SortedSet ι σ, (ms.foldl erase z).since t ≤ z.since t := by
  induction ms with
  | nil => exact fun z => le_rfl
  | cons m rest ih => exact fun z => (ih (z.erase m)).trans (z.since_erase_le m t)

/-- An insertion counts if its score does. -/
theorem since_insert_le (z : SortedSet ι σ) (m : ι) (s t : σ) :
    (z.insert m s).since t ≤ z.since t + if t ≤ s then 1 else 0 := by
  have hperm := (z.insert_perm m s).countP_eq fun e => decide (t ≤ rank e)
  have herase := z.since_erase_le m t
  rw [List.countP_cons] at hperm
  unfold since at herase ⊢
  simp only [decide_eq_true_eq] at hperm
  rw [hperm]
  exact Nat.add_le_add_right herase _

/-- An entry is not among the lowest `n` if the entries with its score at
least make up the rest at most. -/
theorem notMem_take_of_since {n : ℕ} (h : n + z.since (rank e) ≤ z.entries.length) :
    e ∉ z.entries.take n := by
  intro hlow
  have hsplit : z.entries.take n ++ z.entries.drop n = z.entries := List.take_append_drop _ _
  have hsorted := z.sorted
  rw [← hsplit] at hsorted
  have hbehind : ∀ x ∈ z.entries.drop n, decide (rank e ≤ rank x) = true := by
    intro x hx
    have hle := (List.pairwise_append.mp hsorted).2.2 e hlow x hx
    exact decide_eq_true (Prod.Lex.le_iff'.mp hle).1
  have hcount : z.since (rank e) = (z.entries.take n).countP (fun x => decide (rank e ≤ rank x)) +
      (z.entries.drop n).length := by
    unfold since
    conv_lhs => rw [← hsplit, List.countP_append, List.countP_eq_length.mpr hbehind]
  have hself : 0 < (z.entries.take n).countP fun x => decide (rank e ≤ rank x) :=
    List.countP_pos_iff.mpr ⟨e, hlow, decide_eq_true le_rfl⟩
  rw [List.length_drop] at hcount
  omega

end SortedSet
