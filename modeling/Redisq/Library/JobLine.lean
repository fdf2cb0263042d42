import Mathlib.Data.List.Nodup
import Mathlib.Logic.Function.Basic
import Mathlib.Order.Lattice

/-!
# Jobs in line

A queue of jobs, each known by when it was born.  New jobs join at the end of
the line.  A job called from the head is held under an id, and goes back to
the head if it is given back.  So the jobs in line that were never called come
last, oldest first, and each job is in one place (`Orderly`): whoever is
called for the first time is older than all who still wait for their first
call (`Orderly.first_come`).
-/

namespace JobLine

/-- A job: when it was born, what it holds, and whether it was ever called. -/
structure Job (τ α : Type*) where
  born : τ
  item : α
  called : Bool

end JobLine

/-- Jobs in line, and jobs held under ids. -/
structure JobLine (ι τ α : Type*) where
  line : List (JobLine.Job τ α)
  held : ι → Option (JobLine.Job τ α)

namespace JobLine

variable {ι τ α : Type*}

/-! ## What happens to a line -/

/-- Nobody is there. -/
def empty : JobLine ι τ α := ⟨[], fun _ => none⟩

/-- Nobody is in line any more. -/
def lost (q : JobLine ι τ α) : JobLine ι τ α := ⟨[], q.held⟩

/-- A new job joins the line. -/
def join (t : τ) (a : α) (q : JobLine ι τ α) : JobLine ι τ α :=
  ⟨q.line ++ [⟨t, a, false⟩], q.held⟩

/-- The first `n` leave for good. -/
def serve (n : ℕ) (q : JobLine ι τ α) : JobLine ι τ α :=
  ⟨q.line.drop n, q.held⟩

/-- The first job in line that holds such an item is struck out. -/
def strike (p : α → Bool) (q : JobLine ι τ α) : JobLine ι τ α :=
  ⟨q.line.eraseP fun j => p j.item, q.held⟩

section Held

variable [DecidableEq ι]

/-- The first job in line is called, and held under `i`. -/
def callOne (q : JobLine ι τ α) (i : ι) : JobLine ι τ α :=
  match q.line with
  | [] => q
  | j :: rest => ⟨rest, Function.update q.held i (some { j with called := true })⟩

/-- A new job is held under `i` without having been in line. -/
def lodge (i : ι) (t : τ) (a : α) (q : JobLine ι τ α) : JobLine ι τ α :=
  ⟨q.line, Function.update q.held i (some ⟨t, a, true⟩)⟩

/-- The job held under `i` is done. -/
def close (i : ι) (q : JobLine ι τ α) : JobLine ι τ α :=
  ⟨q.line, Function.update q.held i none⟩

/-- The job held under `i` goes back to the head of the line. -/
def giveBack (q : JobLine ι τ α) (i : ι) : JobLine ι τ α :=
  match q.held i with
  | none => q
  | some j => ⟨j :: q.line, Function.update q.held i none⟩

end Held

/-! ## Order -/

/-- Every job is in one place and was born before `now`, those held were
called, and after a job that was never called come younger ones that were not
called either. -/
structure Orderly [LT τ] (q : JobLine ι τ α) (now : τ) : Prop where
  past : ∀ j ∈ q.line, j.born < now
  heldPast : ∀ i j, q.held i = some j → j.born < now
  apart : (q.line.map Job.born).Nodup
  alone : ∀ i i' j j', q.held i = some j → q.held i' = some j' → j.born = j'.born → i = i'
  elsewhere : ∀ i j, q.held i = some j → j.born ∉ q.line.map Job.born
  known : ∀ i j, q.held i = some j → j.called = true
  inOrder : q.line.Pairwise fun j j' => j.called = false → j'.called = false ∧ j.born < j'.born

section Order

variable [LinearOrder τ] {q : JobLine ι τ α} {now later t : τ} {a : α}

theorem Orderly.empty (now : τ) : (empty : JobLine ι τ α).Orderly now where
  past := by simp [JobLine.empty]
  heldPast := by simp [JobLine.empty]
  apart := List.nodup_nil
  alone := by simp [JobLine.empty]
  elsewhere := by simp [JobLine.empty]
  known := by simp [JobLine.empty]
  inOrder := List.Pairwise.nil

theorem Orderly.mono (h : q.Orderly now) (hle : now ≤ later) : q.Orderly later :=
  { h with
    past := fun j hj => (h.past j hj).trans_le hle
    heldPast := fun i j hj => (h.heldPast i j hj).trans_le hle }

/-- Fewer in line are in order. -/
theorem Orderly.sublist (h : q.Orderly now) {line : List (Job τ α)} (hline : line.Sublist q.line) :
    (⟨line, q.held⟩ : JobLine ι τ α).Orderly now where
  past j hj := h.past j (hline.subset hj)
  heldPast := h.heldPast
  apart := h.apart.sublist (hline.map _)
  alone := h.alone
  elsewhere i j hj hmem := h.elsewhere i j hj ((hline.map _).subset hmem)
  known := h.known
  inOrder := h.inOrder.sublist hline

theorem Orderly.lost (h : q.Orderly now) : q.lost.Orderly now :=
  h.sublist (List.nil_sublist _)

theorem Orderly.serve (h : q.Orderly now) (n : ℕ) : (q.serve n).Orderly now :=
  h.sublist (List.drop_sublist _ _)

theorem Orderly.strike (h : q.Orderly now) (p : α → Bool) : (q.strike p).Orderly now :=
  h.sublist List.eraseP_sublist

/-- Whoever joins is the youngest. -/
theorem Orderly.join (h : q.Orderly now) (hlater : now < later) :
    (q.join now a).Orderly later where
  past j hj := by
    rcases List.mem_append.mp hj with hold | hnew
    · exact (h.past j hold).trans hlater
    · obtain rfl := List.mem_singleton.mp hnew
      exact hlater
  heldPast i j hj := (h.heldPast i j hj).trans hlater
  apart := by
    have hnew : now ∉ q.line.map Job.born := by
      intro hmem
      obtain ⟨j, hj, hborn⟩ := List.mem_map.mp hmem
      exact absurd (hborn ▸ h.past j hj) (lt_irrefl _)
    have hsplit : ((q.join now a).line.map Job.born) = q.line.map Job.born ++ [now] :=
      List.map_append
    rw [hsplit]
    exact h.apart.append (List.nodup_singleton _) (List.disjoint_singleton.mpr hnew)
  alone := h.alone
  elsewhere i j hj hmem := by
    obtain ⟨j', hj', hborn⟩ := List.mem_map.mp hmem
    rcases List.mem_append.mp hj' with hold | hnew
    · exact h.elsewhere i j hj (hborn ▸ List.mem_map_of_mem hold)
    · obtain rfl := List.mem_singleton.mp hnew
      exact absurd (hborn ▸ h.heldPast i j hj) (lt_irrefl _)
  known := h.known
  inOrder := by
    refine List.pairwise_append.mpr ⟨h.inOrder, List.pairwise_singleton _ _, ?_⟩
    intro j hj j' hj' _
    obtain rfl := List.mem_singleton.mp hj'
    exact ⟨rfl, h.past j hj⟩

variable [DecidableEq ι]

omit [LinearOrder τ] in
/-- Who is held after an update is new, or was held before. -/
theorem held_update {held : ι → Option (Job τ α)} {i i' : ι} {v : Option (Job τ α)} {j : Job τ α}
    (h : Function.update held i v i' = some j) : (i' = i ∧ v = some j) ∨ held i' = some j := by
  by_cases hi : i' = i
  · subst hi
    rw [Function.update_self] at h
    exact Or.inl ⟨rfl, h⟩
  · rw [Function.update_of_ne hi] at h
    exact Or.inr h

/-- A called job that is nowhere can be held. -/
theorem Orderly.hold (h : q.Orderly now) {j : Job τ α} (hpast : j.born < now)
    (hcalled : j.called = true) (hline : j.born ∉ q.line.map Job.born)
    (hheld : ∀ i' j', q.held i' = some j' → j'.born ≠ j.born) (i : ι) :
    (⟨q.line, Function.update q.held i (some j)⟩ : JobLine ι τ α).Orderly now where
  past := h.past
  heldPast i' j' hj' := by
    obtain ⟨-, hnew⟩ | hold := held_update hj'
    · obtain rfl := Option.some.inj hnew
      exact hpast
    · exact h.heldPast i' j' hold
  apart := h.apart
  alone i₁ i₂ j₁ j₂ h₁ h₂ heq := by
    obtain ⟨rfl, hnew₁⟩ | hold₁ := held_update h₁ <;>
      obtain ⟨rfl, hnew₂⟩ | hold₂ := held_update h₂
    · rfl
    · obtain rfl := Option.some.inj hnew₁
      exact absurd heq.symm (hheld i₂ j₂ hold₂)
    · obtain rfl := Option.some.inj hnew₂
      exact absurd heq (hheld i₁ j₁ hold₁)
    · exact h.alone i₁ i₂ j₁ j₂ hold₁ hold₂ heq
  elsewhere i' j' hj' := by
    obtain ⟨-, hnew⟩ | hold := held_update hj'
    · obtain rfl := Option.some.inj hnew
      exact hline
    · exact h.elsewhere i' j' hold
  known i' j' hj' := by
    obtain ⟨-, hnew⟩ | hold := held_update hj'
    · obtain rfl := Option.some.inj hnew
      exact hcalled
    · exact h.known i' j' hold
  inOrder := h.inOrder

/-- The head of the line is called. -/
theorem Orderly.callOne (h : q.Orderly now) (i : ι) : (q.callOne i).Orderly now := by
  unfold JobLine.callOne
  split
  · exact h
  · next j rest hline =>
      have hj : j ∈ q.line := hline ▸ List.mem_cons_self
      have happart := h.apart
      rw [hline, List.map_cons] at happart
      have hrest := h.sublist (hline ▸ List.sublist_cons_self j rest)
      refine hrest.hold (j := { j with called := true }) (h.past j hj) rfl
        (List.nodup_cons.mp happart).1 ?_ i
      intro i' j' hj' hborn
      have hsame : j'.born = j.born := hborn
      exact h.elsewhere i' j' hj' (hsame ▸ List.mem_map_of_mem hj)

theorem Orderly.callAll (ids : List ι) (h : q.Orderly now) :
    (ids.foldl JobLine.callOne q).Orderly now := by
  induction ids generalizing q with
  | nil => exact h
  | cons i rest ih => exact ih (h.callOne i)

/-- A new job is held. -/
theorem Orderly.lodge (h : q.Orderly now) (hlater : now < later) (i : ι) :
    (q.lodge i now a).Orderly later := by
  refine (h.mono hlater.le).hold hlater rfl ?_ ?_ i
  · intro hmem
    obtain ⟨j, hj, hborn⟩ := List.mem_map.mp hmem
    exact absurd hborn (h.past j hj).ne
  · intro i' j' hj'
    exact (h.heldPast i' j' hj').ne

theorem Orderly.close (h : q.Orderly now) (i : ι) : (q.close i).Orderly now := by
  have hold : ∀ {i' j'}, (q.close i).held i' = some j' → q.held i' = some j' := fun hj' =>
    (held_update hj').resolve_left fun hnew => by cases hnew.2
  exact ⟨h.past, fun i' j' hj' => h.heldPast i' j' (hold hj'), h.apart,
    fun i₁ i₂ j₁ j₂ h₁ h₂ => h.alone i₁ i₂ j₁ j₂ (hold h₁) (hold h₂),
    fun i' j' hj' => h.elsewhere i' j' (hold hj'), fun i' j' hj' => h.known i' j' (hold hj'),
    h.inOrder⟩

/-- Whoever is given back was called. -/
theorem Orderly.giveBack (h : q.Orderly now) (i : ι) : (q.giveBack i).Orderly now := by
  unfold JobLine.giveBack
  split
  · exact h
  · next j hj =>
      have hclosed := h.close i
      refine ⟨?_, hclosed.heldPast, ?_, hclosed.alone, ?_, hclosed.known, ?_⟩
      · intro j' hj'
        rcases List.mem_cons.mp hj' with rfl | hrest
        · exact h.heldPast i j' hj
        · exact h.past j' hrest
      · exact List.nodup_cons.mpr ⟨h.elsewhere i j hj, h.apart⟩
      · intro i' j' hj' hmem
        rcases List.mem_cons.mp hmem with hborn | hrest
        · obtain ⟨hi, hnew⟩ | hold := held_update hj'
          · cases hnew
          · obtain rfl := h.alone i' i j' j hold hj hborn
            have hnone : Function.update q.held i' none i' = some j' := hj'
            rw [Function.update_self] at hnone
            cases hnone
        · exact hclosed.elsewhere i' j' hj' hrest
      · refine List.pairwise_cons.mpr ⟨fun j' _ hnot => ?_, h.inOrder⟩
        rw [h.known i j hj] at hnot
        cases hnot

theorem Orderly.giveBackAll (ids : List ι) (h : q.Orderly now) :
    (ids.foldl JobLine.giveBack q).Orderly now := by
  induction ids generalizing q with
  | nil => exact h
  | cons i rest ih => exact ih (h.giveBack i)

end Order

/-! ## Who comes first -/

/-- Of those who wait for their first call, the older come first. -/
theorem Orderly.first_come [LinearOrder τ] {q : JobLine ι τ α} {now : τ} (h : q.Orderly now)
    {m n : ℕ} {j j' : Job τ α} (hj : q.line[m]? = some j) (hj' : q.line[n]? = some j')
    (hnew : j.called = false) (hborn : j'.born < j.born) : n < m := by
  obtain ⟨hm, rfl⟩ := List.getElem?_eq_some_iff.mp hj
  obtain ⟨hn, rfl⟩ := List.getElem?_eq_some_iff.mp hj'
  rcases lt_trichotomy n m with hlt | heq | hgt
  · exact hlt
  · subst heq
    exact absurd hborn (lt_irrefl _)
  · exact absurd hborn (List.pairwise_iff_getElem.mp h.inOrder m n hm hn hgt hnew).2.not_gt

/-- The job born at `t` is in line and was never called. -/
def Waits (q : JobLine ι τ α) (t : τ) : Prop :=
  ∃ j ∈ q.line, j.born = t ∧ j.called = false

theorem callAll_line [DecidableEq ι] (ids : List ι) (q : JobLine ι τ α) :
    (ids.foldl callOne q).line = q.line.drop ids.length := by
  induction ids generalizing q with
  | nil => rfl
  | cons i rest ih =>
      rw [List.foldl_cons, ih, callOne]
      split
      · next hline => rw [hline, List.drop_nil, List.drop_nil]
      · next hline => rw [hline, List.length_cons, List.drop_succ_cons]

/-! ## Where jobs come from -/

/-- Every job is one that was brought when it was born. -/
structure From (q : JobLine ι τ α) (brought : τ → α → Prop) : Prop where
  line : ∀ j ∈ q.line, brought j.born j.item
  held : ∀ i j, q.held i = some j → brought j.born j.item

section From

variable {q : JobLine ι τ α} {brought : τ → α → Prop} {t : τ} {a : α}

theorem From.empty : (empty : JobLine ι τ α).From brought where
  line := by simp [JobLine.empty]
  held := by simp [JobLine.empty]

theorem From.subset (h : q.From brought) {line : List (Job τ α)} (hline : line ⊆ q.line) :
    (⟨line, q.held⟩ : JobLine ι τ α).From brought :=
  ⟨fun j hj => h.line j (hline hj), h.held⟩

theorem From.join (h : q.From brought) (hnew : brought t a) : (q.join t a).From brought where
  line j hj := by
    rcases List.mem_append.mp hj with hold | hjoined
    · exact h.line j hold
    · obtain rfl := List.mem_singleton.mp hjoined
      exact hnew
  held := h.held

variable [DecidableEq ι]

theorem From.update (h : q.From brought) {v : Option (Job τ α)}
    (hnew : ∀ j, v = some j → brought j.born j.item) (i : ι) :
    (⟨q.line, Function.update q.held i v⟩ : JobLine ι τ α).From brought where
  line := h.line
  held i' j hj := by
    obtain ⟨-, hv⟩ | hold := held_update hj
    · exact hnew j hv
    · exact h.held i' j hold

theorem From.lodge (h : q.From brought) (hnew : brought t a) (i : ι) :
    (q.lodge i t a).From brought :=
  h.update (fun j hj => by obtain rfl := Option.some.inj hj; exact hnew) i

theorem From.close (h : q.From brought) (i : ι) : (q.close i).From brought :=
  h.update (fun j hj => by cases hj) i

theorem From.callAll (ids : List ι) (h : q.From brought) :
    (ids.foldl callOne q).From brought := by
  induction ids generalizing q with
  | nil => exact h
  | cons i rest ih =>
      refine ih ?_
      unfold callOne
      split
      · exact h
      · next j jobs hline =>
          have hjob := h.line j (hline ▸ List.mem_cons_self)
          have hjobs := h.subset (hline ▸ List.subset_cons_self j jobs)
          exact hjobs.update (fun j' hj' => by obtain rfl := Option.some.inj hj'; exact hjob) i

theorem From.giveBackAll (ids : List ι) (h : q.From brought) :
    (ids.foldl giveBack q).From brought := by
  induction ids generalizing q with
  | nil => exact h
  | cons i rest ih =>
      refine ih ?_
      unfold giveBack
      split
      · exact h
      · next j hj =>
          refine ⟨fun j' hj' => ?_, (h.close i).held⟩
          rcases List.mem_cons.mp hj' with rfl | hold
          · exact h.held i j' hj
          · exact h.line j' hold

end From

/-! ## Who goes on waiting -/

section Waits

variable {q : JobLine ι τ α} {t : τ}

theorem Waits.born_mem (h : q.Waits t) : t ∈ q.line.map Job.born := by
  obtain ⟨j, hj, rfl, -⟩ := h
  exact List.mem_map_of_mem hj

theorem Waits.join (h : q.Waits t) (t' : τ) (a : α) : (q.join t' a).Waits t := by
  obtain ⟨j, hj, hrest⟩ := h
  exact ⟨j, List.mem_append_left _ hj, hrest⟩

/-- Whoever is not among the first `n` goes on waiting. -/
theorem Waits.drop (h : q.Waits t) {n : ℕ}
    (hnot : ¬∃ j ∈ q.line.take n, j.born = t ∧ j.called = false)
    {q' : JobLine ι τ α} (hline : q'.line = q.line.drop n) : q'.Waits t := by
  obtain ⟨j, hj, hrest⟩ := h
  rw [← List.take_append_drop n q.line, List.mem_append] at hj
  refine ⟨j, ?_, hrest⟩
  rw [hline]
  exact hj.resolve_left fun hfirst => hnot ⟨j, hfirst, hrest⟩

theorem Waits.giveBackAll [DecidableEq ι] (ids : List ι) (h : q.Waits t) :
    (ids.foldl giveBack q).Waits t := by
  induction ids generalizing q with
  | nil => exact h
  | cons i rest ih =>
      refine ih ?_
      unfold giveBack
      split
      · exact h
      · obtain ⟨j, hj, hrest⟩ := h
        exact ⟨j, List.mem_cons_of_mem _ hj, hrest⟩

/-- Whoever is in line after jobs were given back was in line, or was held. -/
theorem mem_giveBackAll [DecidableEq ι] {j : Job τ α} (ids : List ι) {q : JobLine ι τ α}
    (h : j ∈ (ids.foldl giveBack q).line) : j ∈ q.line ∨ ∃ i, q.held i = some j := by
  induction ids generalizing q with
  | nil => exact Or.inl h
  | cons i rest ih =>
      have hone := ih h
      unfold giveBack at hone
      split at hone
      · exact hone
      · next j' hj' =>
          obtain hline | ⟨i', hheld⟩ := hone
          · obtain rfl | hold := List.mem_cons.mp hline
            · exact Or.inr ⟨i, hj'⟩
            · exact Or.inl hold
          · exact Or.inr ⟨i', (held_update hheld).resolve_left fun hnew => by cases hnew.2⟩

end Waits

/-! ## How far from the head -/

section Ahead

variable [DecidableEq τ]

/-- How many jobs are in line ahead of the one born at `t`. -/
def ahead (q : JobLine ι τ α) (t : τ) : ℕ :=
  (q.line.map Job.born).idxOf t

variable {q : JobLine ι τ α} {t : τ}

theorem ahead_join (h : q.Waits t) (t' : τ) (a : α) : (q.join t' a).ahead t = q.ahead t := by
  have hsplit : (q.join t' a).line.map Job.born = q.line.map Job.born ++ [t'] := List.map_append
  rw [ahead, hsplit, List.idxOf_append_of_mem h.born_mem, ahead]

/-- Those who are taken off the head were ahead. -/
theorem ahead_drop {r : JobLine ι τ α} {n : ℕ} (hline : r.line = q.line.drop n)
    (hnot : t ∉ (q.line.take n).map Job.born) :
    r.ahead t + (q.line.take n).length = q.ahead t := by
  have hsplit : q.line.map Job.born =
      (q.line.take n).map Job.born ++ r.line.map Job.born := by
    rw [hline, ← List.map_append, List.take_append_drop]
  rw [ahead, ahead, hsplit, List.idxOf_append_of_notMem hnot, List.length_map]
  omega

/-- Nobody comes to be ahead when one is struck out. -/
theorem idxOf_sublist_le {l l' : List τ} (h : l'.Sublist l) (hl : l.Nodup) (ht : t ∈ l') :
    l'.idxOf t ≤ l.idxOf t := by
  induction h with
  | slnil => exact le_rfl
  | @cons l' l a hsub ih =>
      have hne : a ≠ t := by
        rintro rfl
        exact (List.nodup_cons.mp hl).1 (hsub.subset ht)
      have hle := ih (List.nodup_cons.mp hl).2 ht
      rw [List.idxOf_cons_ne _ hne]
      omega
  | @cons_cons l' l a hsub ih =>
      by_cases ha : a = t
      · rw [List.idxOf_cons_eq _ ha]
        exact Nat.zero_le _
      · have ht' : t ∈ l' := (List.mem_cons.mp ht).resolve_left fun heq => ha heq.symm
        have hle := ih (List.nodup_cons.mp hl).2 ht'
        rw [List.idxOf_cons_ne _ ha, List.idxOf_cons_ne _ ha]
        omega

theorem ahead_sublist_le {r : JobLine ι τ α} (hline : r.line.Sublist q.line)
    (hq : (q.line.map Job.born).Nodup) (h : r.Waits t) : r.ahead t ≤ q.ahead t :=
  idxOf_sublist_le (hline.map _) hq h.born_mem

/-- Whoever is given back comes to be ahead. -/
theorem ahead_giveBack_le [DecidableEq ι] (i : ι) :
    (q.giveBack i).ahead t ≤ q.ahead t + if (q.held i).isSome then 1 else 0 := by
  unfold giveBack
  split
  · exact Nat.le_add_right _ _
  · next j hj =>
      rw [hj]
      show (j.born :: q.line.map Job.born).idxOf t ≤ (q.line.map Job.born).idxOf t + 1
      by_cases hborn : j.born = t
      · rw [List.idxOf_cons_eq _ hborn]
        exact Nat.zero_le _
      · rw [List.idxOf_cons_ne _ hborn]

end Ahead

/-! ## Who is held under an id -/

section Held

variable [DecidableEq ι] {q : JobLine ι τ α} {i : ι}

theorem callAll_held_of_notMem {ids : List ι} (h : i ∉ ids) :
    (ids.foldl callOne q).held i = q.held i := by
  induction ids generalizing q with
  | nil => rfl
  | cons i' rest ih =>
      obtain ⟨hne, hrest⟩ := not_or.mp (List.mem_cons.not.mp h)
      rw [List.foldl_cons, ih hrest, callOne]
      split
      · rfl
      · exact Function.update_of_ne hne _ _

theorem giveBackAll_held_of_notMem {ids : List ι} (h : i ∉ ids) :
    (ids.foldl giveBack q).held i = q.held i := by
  induction ids generalizing q with
  | nil => rfl
  | cons i' rest ih =>
      obtain ⟨hne, hrest⟩ := not_or.mp (List.mem_cons.not.mp h)
      rw [List.foldl_cons, ih hrest, giveBack]
      split
      · rfl
      · exact Function.update_of_ne hne _ _

end Held

/-! ## Who is gone -/

/-- The job born at `t` is neither in line nor held. -/
def Gone (q : JobLine ι τ α) (t : τ) : Prop :=
  q.From fun t' _ => t' ≠ t

/-- A job that is held is gone once it is done. -/
theorem Orderly.gone_close [LT τ] [DecidableEq ι] {q : JobLine ι τ α} {now : τ} (h : q.Orderly now)
    {i : ι} {j : Job τ α} (hj : q.held i = some j) : (q.close i).Gone j.born where
  line j' hj' hborn := h.elsewhere i j hj (hborn ▸ List.mem_map_of_mem hj')
  held i' j' hj' hborn := by
    obtain ⟨-, hnew⟩ | hold := held_update hj'
    · cases hnew
    · obtain rfl := h.alone i' i j' j hold hj hborn
      have hnone : Function.update q.held i' none i' = some j' := hj'
      rw [Function.update_self] at hnone
      cases hnone

/-- A job that leaves the line for good is gone. -/
theorem Orderly.gone_serve [LT τ] {q : JobLine ι τ α} {now : τ} (h : q.Orderly now) {n : ℕ}
    {j : Job τ α} (hj : j ∈ q.line.take n) : (q.serve n).Gone j.born where
  line j' hj' hborn := by
    have happart := List.disjoint_take_drop h.apart le_rfl (m := n)
    rw [← List.map_take, ← List.map_drop] at happart
    exact happart (List.mem_map_of_mem hj) (hborn ▸ List.mem_map_of_mem hj')
  held i j' hj' hborn :=
    h.elsewhere i j' hj' (hborn ▸ List.mem_map_of_mem (List.mem_of_mem_take hj))

end JobLine
