import Mathlib.Data.Finmap
import Mathlib.Algebra.Order.Group.Multiset
import Mathlib.Tactic.Abel

/-!
# Custody: things that wait or are held under an id

A custody has a bag of waiting things and a table of things held under an
id.  A move takes things from one side to the other, lets one in or lets one
out.  Every legal move balances twice: the held entries against what entered
and left the table (`entries_balance`), and everything in custody against
what came in and went out (`total_balance`).
-/

namespace Finmap

variable {ι : Type*} {α : Type*} [DecidableEq ι]

/-- The table without `i`, and `i`'s entry, make up the table. -/
theorem entries_erase_of_lookup {t : Finmap fun _ : ι => α} {i : ι} {a : α}
    (h : t.lookup i = some a) : t.entries = ⟨i, a⟩ ::ₘ (t.erase i).entries := by
  have hback : (t.erase i).insert i a = t := by
    refine ext_lookup fun j => ?_
    by_cases hj : j = i
    · subst hj
      rw [lookup_insert, h]
    · rw [lookup_insert_of_ne _ hj, lookup_erase_ne hj]
  rw [← entries_insert_of_notMem notMem_erase_self, hback]

/-- Erasing an id that is not there changes nothing. -/
theorem erase_of_lookup_none {t : Finmap fun _ : ι => α} {i : ι}
    (h : t.lookup i = none) : t.erase i = t := by
  refine ext_lookup fun j => ?_
  by_cases hj : j = i
  · subst hj
    rw [lookup_erase, h]
  · rw [lookup_erase_ne hj]

/-- Writing an entry that is already there changes nothing. -/
theorem insert_of_lookup_some {t : Finmap fun _ : ι => α} {i : ι} {a : α}
    (h : t.lookup i = some a) : t.insert i a = t := by
  refine ext_lookup fun j => ?_
  by_cases hj : j = i
  · subst hj
    rw [lookup_insert, h]
  · rw [lookup_insert_of_ne _ hj]

theorem lookup_eraseAll (is : List ι) (j : ι) :
    ∀ t : Finmap fun _ : ι => α,
      (is.foldl (fun t i => t.erase i) t).lookup j = if j ∈ is then none else t.lookup j := by
  induction is with
  | nil => intro t; rfl
  | cons i rest ih =>
      intro t
      rw [List.foldl_cons, ih]
      by_cases hrest : j ∈ rest
      · rw [if_pos hrest, if_pos (List.mem_cons_of_mem i hrest)]
      · by_cases hj : j = i
        · subst hj
          rw [if_neg hrest, if_pos List.mem_cons_self, lookup_erase]
        · rw [if_neg hrest, if_neg (List.not_mem_cons_of_ne_of_not_mem hj hrest),
            lookup_erase_ne hj]

theorem mem_eraseAll {is : List ι} {j : ι} {t : Finmap fun _ : ι => α} :
    j ∈ is.foldl (fun t i => t.erase i) t ↔ j ∈ t ∧ j ∉ is := by
  rw [← lookup_isSome, lookup_eraseAll, ← lookup_isSome]
  by_cases h : j ∈ is <;> simp [h]

/-- Write every pair of a list, in order. -/
def insertAll (t : Finmap fun _ : ι => α) (ps : List (ι × α)) : Finmap fun _ : ι => α :=
  ps.foldl (fun t p => t.insert p.1 p.2) t

@[simp] theorem insertAll_nil (t : Finmap fun _ : ι => α) : t.insertAll [] = t := rfl

@[simp] theorem insertAll_cons (t : Finmap fun _ : ι => α) (p : ι × α) (ps : List (ι × α)) :
    t.insertAll (p :: ps) = (t.insert p.1 p.2).insertAll ps := rfl

theorem lookup_insertAll_of_notMem {ps : List (ι × α)} {i : ι} (h : i ∉ ps.map Prod.fst) :
    ∀ t : Finmap fun _ : ι => α, (t.insertAll ps).lookup i = t.lookup i := by
  induction ps with
  | nil => intro t; rfl
  | cons p ps ih =>
      intro t
      simp only [List.map_cons, List.mem_cons, not_or] at h
      rw [insertAll_cons, ih h.2, lookup_insert_of_ne _ h.1]

theorem lookup_insertAll_of_mem {ps : List (ι × α)} {p : ι × α}
    (hnodup : (ps.map Prod.fst).Nodup) (h : p ∈ ps) :
    ∀ t : Finmap fun _ : ι => α, (t.insertAll ps).lookup p.1 = some p.2 := by
  induction ps with
  | nil => simp at h
  | cons q ps ih =>
      intro t
      simp only [List.map_cons, List.nodup_cons] at hnodup
      rcases List.mem_cons.mp h with rfl | hmem
      · rw [insertAll_cons, lookup_insertAll_of_notMem hnodup.1, lookup_insert]
      · exact ih hnodup.2 hmem _

theorem mem_of_lookup_insertAll {ps : List (ι × α)} {i : ι} {a : α}
    (h : i ∈ ps.map Prod.fst) :
    ∀ t : Finmap fun _ : ι => α, (t.insertAll ps).lookup i = some a → (i, a) ∈ ps := by
  induction ps with
  | nil => simp at h
  | cons p ps ih =>
      intro t ha
      by_cases hmem : i ∈ ps.map Prod.fst
      · exact List.mem_cons_of_mem _ (ih hmem _ ha)
      · obtain rfl : i = p.1 := by simpa [hmem] using h
        rw [insertAll_cons, lookup_insertAll_of_notMem hmem, lookup_insert] at ha
        rw [← Option.some.inj ha]
        exact List.mem_cons_self

theorem mem_insertAll {ps : List (ι × α)} {i : ι} :
    ∀ t : Finmap fun _ : ι => α, i ∈ t.insertAll ps ↔ i ∈ ps.map Prod.fst ∨ i ∈ t := by
  induction ps with
  | nil => intro t; simp
  | cons p ps ih =>
      intro t
      rw [insertAll_cons, ih, mem_insert, List.map_cons, List.mem_cons]
      tauto

/-- A table that follows another through `f`. -/
def Follows {β : Type*} (f : α → β) (t : Finmap fun _ : ι => α) (t' : Finmap fun _ : ι => β) :
    Prop :=
  ∀ i a, t.lookup i = some a → t'.lookup i = some (f a)

theorem Follows.insert {β : Type*} {f : α → β} {t : Finmap fun _ : ι => α}
    {t' : Finmap fun _ : ι => β} (h : Follows f t t') (i : ι) (a : α) :
    Follows f (t.insert i a) (t'.insert i (f a)) := by
  intro j b hj
  by_cases heq : j = i
  · subst heq
    rw [lookup_insert] at hj ⊢
    rw [Option.some.inj hj]
  · rw [lookup_insert_of_ne _ heq] at hj ⊢
    exact h j b hj

theorem Follows.insertAll {β : Type*} {f : α → β} (ps : List (ι × α)) :
    ∀ {t : Finmap fun _ : ι => α} {t' : Finmap fun _ : ι => β}, Follows f t t' →
      Follows f (t.insertAll ps) (t'.insertAll (ps.map fun p => (p.1, f p.2))) := by
  induction ps with
  | nil => exact fun h => h
  | cons p ps ih => exact fun h => ih (h.insert p.1 p.2)

end Finmap

/-- Waiting things, and things held under an id. -/
structure Custody (ι α : Type*) where
  waiting : Multiset α
  held : Finmap fun _ : ι => α

namespace Custody

variable {ι α : Type*}

/-- The held entries, each with its id. -/
def entries (c : Custody ι α) : Multiset (ι × α) :=
  c.held.entries.map fun e => (e.1, e.2)

/-- Everything in custody. -/
def total (c : Custody ι α) : Multiset α :=
  c.waiting + c.entries.map Prod.snd

/-- What one step may do. -/
inductive Move (ι α : Type*)
  | rest
  | deposit (a : α)
  | withdraw (a : α)
  | take (ps : List (ι × α))
  | giveBack (is : List ι)
  | lodge (i : ι) (a : α)
  | discharge (i : ι)
  | clear

/-- The ids a move gives back. -/
def Move.given : Move ι α → List ι
  | .giveBack is => is
  | _ => []

variable [DecidableEq ι]

/-- The entry held under `i`, if any. -/
def entryOf (c : Custody ι α) (i : ι) : Multiset (ι × α) :=
  match c.held.lookup i with
  | none => 0
  | some a => {(i, a)}

/-- The thing held under `i` goes back to waiting. -/
def giveBackOne (c : Custody ι α) (i : ι) : Custody ι α :=
  ⟨c.waiting + (c.entryOf i).map Prod.snd, c.held.erase i⟩

/-- The entries that giving back a list of ids, one after the other, moves. -/
def entriesOf : Custody ι α → List ι → Multiset (ι × α)
  | _, [] => 0
  | c, i :: is => c.entryOf i + (c.giveBackOne i).entriesOf is

variable [DecidableEq α]

/-- The effect of a move. -/
def apply (c : Custody ι α) : Move ι α → Custody ι α
  | .rest => c
  | .deposit a => ⟨c.waiting + {a}, c.held⟩
  | .withdraw a => ⟨c.waiting - {a}, c.held⟩
  | .take ps => ⟨c.waiting - ↑(ps.map Prod.snd), c.held.insertAll ps⟩
  | .giveBack is => is.foldl giveBackOne c
  | .lodge i a => ⟨c.waiting, c.held.insert i a⟩
  | .discharge i => ⟨c.waiting, c.held.erase i⟩
  | .clear => ⟨0, ∅⟩

/-- Taken ids are new and distinct and their things wait; a lodged id is new,
or holds that very thing already. -/
def Legal (c : Custody ι α) : Move ι α → Prop
  | .withdraw a => a ∈ c.waiting
  | .take ps => (ps.map Prod.fst).Nodup ∧ (∀ i ∈ ps.map Prod.fst, i ∉ c.held) ∧
      (↑(ps.map Prod.snd) : Multiset α) ≤ c.waiting
  | .lodge i a => i ∉ c.held ∨ c.held.lookup i = some a
  | _ => True

/-- The entries a move adds to the table. -/
def entered (c : Custody ι α) : Move ι α → Multiset (ι × α)
  | .take ps => ↑ps
  | .lodge i a => if i ∈ c.held then 0 else {(i, a)}
  | _ => 0

/-- The entries a move takes off the table. -/
def left (c : Custody ι α) : Move ι α → Multiset (ι × α)
  | .giveBack is => c.entriesOf is
  | .discharge i => c.entryOf i
  | .clear => c.entries
  | _ => 0

/-- What a move lets into custody. -/
def paidIn (c : Custody ι α) : Move ι α → Multiset α
  | .deposit a => {a}
  | .lodge i a => if i ∈ c.held then 0 else {a}
  | _ => 0

/-- What a move lets out of custody. -/
def paidOut (c : Custody ι α) : Move ι α → Multiset α
  | .withdraw a => {a}
  | .discharge i => (c.entryOf i).map Prod.snd
  | .clear => c.total
  | _ => 0

/-! ## The table after a move -/

section Table

omit [DecidableEq α]

@[simp] theorem entryOf_of_none {c : Custody ι α} {i : ι} (h : c.held.lookup i = none) :
    c.entryOf i = 0 := by
  simp only [entryOf, h]

@[simp] theorem entryOf_of_some {c : Custody ι α} {i : ι} {a : α}
    (h : c.held.lookup i = some a) : c.entryOf i = {(i, a)} := by
  simp only [entryOf, h]

theorem entries_erase (c : Custody ι α) (i : ι) :
    c.entries = c.entryOf i + (⟨c.waiting, c.held.erase i⟩ : Custody ι α).entries := by
  cases h : c.held.lookup i with
  | none => rw [entryOf_of_none h, zero_add, Finmap.erase_of_lookup_none h]
  | some a =>
      rw [entryOf_of_some h, entries, Finmap.entries_erase_of_lookup h,
        Multiset.map_cons, ← Multiset.singleton_add]
      rfl

theorem entries_insert (c : Custody ι α) {i : ι} (a : α) (h : i ∉ c.held) :
    (⟨c.waiting, c.held.insert i a⟩ : Custody ι α).entries = {(i, a)} + c.entries := by
  rw [entries, Finmap.entries_insert_of_notMem h, Multiset.map_cons,
    ← Multiset.singleton_add]
  rfl

theorem entries_insertAll (w : Multiset α) (ps : List (ι × α)) :
    ∀ t : Finmap fun _ : ι => α, (ps.map Prod.fst).Nodup →
      (∀ i ∈ ps.map Prod.fst, i ∉ t) →
      (⟨w, t.insertAll ps⟩ : Custody ι α).entries = ↑ps + (⟨w, t⟩ : Custody ι α).entries := by
  induction ps with
  | nil => intro t _ _; rw [Finmap.insertAll_nil, Multiset.coe_nil, zero_add]
  | cons p ps ih =>
      intro t hnodup hnew
      simp only [List.map_cons, List.nodup_cons] at hnodup
      have hhead : p.1 ∉ t := hnew p.1 (by simp)
      have htail : ∀ i ∈ ps.map Prod.fst, i ∉ t.insert p.1 p.2 := by
        intro i hi hmem
        rcases Finmap.mem_insert.mp hmem with rfl | hmem
        · exact hnodup.1 hi
        · exact hnew i (List.mem_cons_of_mem _ hi) hmem
      rw [Finmap.insertAll_cons, ih _ hnodup.2 htail,
        entries_insert ⟨w, t⟩ p.2 hhead, ← Multiset.cons_coe,
        ← Multiset.singleton_add, add_left_comm, add_assoc]

/-- Which entries are given back depends on the table alone. -/
theorem entriesOf_congr (is : List ι) :
    ∀ {c c' : Custody ι α}, c.held = c'.held → c.entriesOf is = c'.entriesOf is := by
  induction is with
  | nil => intro c c' _; rfl
  | cons i is ih =>
      intro c c' h
      have hentry : c.entryOf i = c'.entryOf i := by rw [entryOf, entryOf, h]
      have hrest : (c.giveBackOne i).held = (c'.giveBackOne i).held := by
        rw [giveBackOne, giveBackOne, h]
      rw [entriesOf, entriesOf, hentry, ih hrest]

theorem giveBack_entries (is : List ι) :
    ∀ c : Custody ι α, (is.foldl giveBackOne c).entries + c.entriesOf is = c.entries := by
  induction is with
  | nil => intro c; rw [List.foldl_nil, entriesOf, add_zero]
  | cons i is ih =>
      intro c
      rw [List.foldl_cons, entriesOf, add_left_comm, ih, c.entries_erase i]
      rfl

theorem giveBack_waiting (is : List ι) :
    ∀ c : Custody ι α,
      (is.foldl giveBackOne c).waiting = c.waiting + (c.entriesOf is).map Prod.snd := by
  induction is with
  | nil => intro c; rw [List.foldl_nil, entriesOf, Multiset.map_zero, add_zero]
  | cons i is ih =>
      intro c
      rw [List.foldl_cons, ih, entriesOf, Multiset.map_add, ← add_assoc]
      rfl

theorem giveBack_lookup (is : List ι) (j : ι) :
    ∀ c : Custody ι α, (is.foldl giveBackOne c).held.lookup j =
      if j ∈ is then none else c.held.lookup j := by
  induction is with
  | nil => intro c; rfl
  | cons i is ih =>
      intro c
      rw [List.foldl_cons, ih]
      by_cases hj : j ∈ is
      · rw [if_pos hj, if_pos (List.mem_cons_of_mem _ hj)]
      · rw [if_neg hj]
        by_cases hji : j = i
        · subst hji
          rw [if_pos List.mem_cons_self]
          exact Finmap.lookup_erase _ _
        · rw [if_neg (by simp [hji, hj])]
          exact Finmap.lookup_erase_ne hji

end Table

/-- An entry that is held after a move was held before, taken or lodged. -/
theorem lookup_apply_cases {c : Custody ι α} {m : Move ι α} {i : ι} {a : α}
    (h : (c.apply m).held.lookup i = some a) :
    (c.held.lookup i = some a ∧ i ∉ m.given) ∨ (∃ ps, m = .take ps ∧ (i, a) ∈ ps) ∨
      m = .lodge i a := by
  cases m with
  | take ps =>
      by_cases hmem : i ∈ ps.map Prod.fst
      · refine Or.inr (Or.inl ⟨ps, rfl, Finmap.mem_of_lookup_insertAll hmem c.held h⟩)
      · rw [apply, Finmap.lookup_insertAll_of_notMem hmem] at h
        exact Or.inl ⟨h, List.not_mem_nil⟩
  | giveBack is =>
      rw [apply, giveBack_lookup] at h
      split at h
      · cases h
      · next hnot => exact Or.inl ⟨h, hnot⟩
  | lodge j b =>
      by_cases hj : i = j
      · subst hj
        rw [apply, Finmap.lookup_insert] at h
        exact Or.inr (Or.inr (by rw [Option.some.inj h]))
      · rw [apply, Finmap.lookup_insert_of_ne _ hj] at h
        exact Or.inl ⟨h, List.not_mem_nil⟩
  | discharge j =>
      by_cases hj : i = j
      · subst hj
        rw [apply, Finmap.lookup_erase] at h
        cases h
      · rw [apply, Finmap.lookup_erase_ne hj] at h
        exact Or.inl ⟨h, List.not_mem_nil⟩
  | clear => cases h
  | _ => exact Or.inl ⟨h, List.not_mem_nil⟩

/-- An entry that is neither taken nor lodged anew stays as it is, or goes. -/
theorem lookup_apply_of_held {c : Custody ι α} {m : Move ι α} {i : ι} {a : α}
    (h : c.held.lookup i = some a) (htake : ∀ ps, m = .take ps → i ∉ ps.map Prod.fst)
    (hlodge : ∀ b, m ≠ .lodge i b) :
    (c.apply m).held.lookup i = some a ∨ (c.apply m).held.lookup i = none := by
  cases hafter : (c.apply m).held.lookup i with
  | none => exact Or.inr rfl
  | some b =>
      refine Or.inl ?_
      rcases lookup_apply_cases hafter with ⟨hb, _⟩ | ⟨ps, rfl, hmem⟩ | hb
      · rw [← hb, h]
      · exact absurd (List.mem_map_of_mem (f := Prod.fst) hmem) (htake ps rfl)
      · exact absurd hb (hlodge b)

/-! ## Balances -/

/-- The entries of the table: kept and left make up before and entered. -/
theorem entries_balance (c : Custody ι α) (m : Move ι α) (h : c.Legal m) :
    (c.apply m).entries + c.left m = c.entries + c.entered m := by
  cases m with
  | rest => rfl
  | deposit a => rfl
  | withdraw a => rfl
  | take ps =>
      obtain ⟨hnodup, hnew, _⟩ := h
      simp only [left, entered, add_zero]
      rw [add_comm c.entries]
      exact entries_insertAll _ ps c.held hnodup hnew
  | giveBack is =>
      simp only [left, entered, add_zero]
      exact giveBack_entries is c
  | lodge i a =>
      simp only [left, entered, add_zero]
      rcases h with hnew | hsame
      · rw [if_neg hnew, add_comm c.entries]
        exact entries_insert c a hnew
      · rw [if_pos (Finmap.mem_of_lookup_eq_some hsame), add_zero, apply,
          Finmap.insert_of_lookup_some hsame]
  | discharge i =>
      simp only [left, entered, add_zero]
      rw [add_comm]
      exact (c.entries_erase i).symm
  | clear =>
      simp only [left, entered, add_zero]
      exact zero_add _

/-- What a move adds to the waiting bag and takes out of it. -/
theorem waiting_balance (c : Custody ι α) (m : Move ι α) (h : c.Legal m) :
    (c.apply m).waiting + c.paidOut m + (c.entered m).map Prod.snd =
      c.waiting + c.paidIn m + (c.left m).map Prod.snd := by
  cases m with
  | rest => rfl
  | deposit a =>
      simp only [apply, paidOut, paidIn, entered, left, Multiset.map_zero, add_zero]
  | withdraw a =>
      simp only [apply, paidOut, paidIn, entered, left, Multiset.map_zero, add_zero]
      exact Multiset.sub_add_cancel (Multiset.singleton_le.mpr h)
  | take ps =>
      simp only [apply, paidOut, paidIn, entered, left, Multiset.map_zero, add_zero,
        Multiset.map_coe]
      exact Multiset.sub_add_cancel h.2.2
  | giveBack is =>
      simp only [apply, paidOut, paidIn, entered, left, Multiset.map_zero, add_zero]
      exact giveBack_waiting is c
  | lodge i a =>
      simp only [apply, paidOut, paidIn, entered, left, Multiset.map_zero, add_zero]
      split <;> simp
  | discharge i =>
      simp only [apply, paidOut, paidIn, entered, left, Multiset.map_zero, add_zero]
  | clear =>
      simp only [apply, paidOut, paidIn, entered, left, Multiset.map_zero, add_zero, total,
        zero_add]

/-- Everything in custody: kept and paid out make up before and paid in. -/
theorem total_balance (c : Custody ι α) (m : Move ι α) (h : c.Legal m) :
    (c.apply m).total + c.paidOut m = c.total + c.paidIn m := by
  have hentries := congrArg (Multiset.map Prod.snd) (entries_balance c m h)
  have hwaiting := waiting_balance c m h
  rw [Multiset.map_add, Multiset.map_add] at hentries
  refine add_right_cancel (b := (c.entered m).map Prod.snd + (c.left m).map Prod.snd) ?_
  calc
    (c.apply m).total + c.paidOut m +
          ((c.entered m).map Prod.snd + (c.left m).map Prod.snd) =
        (c.apply m).waiting + c.paidOut m + (c.entered m).map Prod.snd +
          ((c.apply m).entries.map Prod.snd + (c.left m).map Prod.snd) := by
      rw [total]
      abel
    _ = c.total + c.paidIn m +
          ((c.entered m).map Prod.snd + (c.left m).map Prod.snd) := by
      rw [hwaiting, hentries, total]
      abel

end Custody
