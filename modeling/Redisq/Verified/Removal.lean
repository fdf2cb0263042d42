import Redisq.Verified.Priority

/-!
# What Remove takes out of a priority queue

The scan of `Remove` stops at the first member that holds the item or is, byte
for byte, the item itself.  The latter is meant for members without a prefix;
of members that have one it takes out an item that is not its argument.
`Remove` deletes the first occurrence of its item, and nothing else, exactly
if it is not such a member that it comes to first (`remove_iff`).
-/

namespace Redisq.Model

/-! ## First matches -/

section Lists

variable {α β : Type} {p : α → Bool} {r : β → Bool} {f : α → β}

/-- What is kept out of a list is not at its head. -/
theorem ne_cons_eraseP (l : List β) (b : β) (hb : r b = false) : l ≠ b :: l.eraseP r := by
  induction l generalizing b with
  | nil => exact fun h => absurd h (List.cons_ne_nil b _).symm
  | cons c rest ih =>
      intro h
      by_cases hc : r c = true
      · rw [List.eraseP_cons_of_pos hc] at h
        rw [(List.cons.inj h).1, hb] at hc
        cases hc
      · rw [List.eraseP_cons_of_neg hc] at h
        exact ih c (by simpa using hc) (List.cons.inj h).2

/-- Erasing the first of a wider choice is erasing the first of the narrower
one, unless one that is only in the wider comes first. -/
theorem map_eraseP_eq_iff (l : List α) (hwide : ∀ a ∈ l, r (f a) = true → p a = true) :
    (l.eraseP p).map f = (l.map f).eraseP r ↔
      ¬∃ l₁ a l₂, l = l₁ ++ a :: l₂ ∧ p a = true ∧ r (f a) = false ∧ ∀ b ∈ l₁, p b = false := by
  constructor
  · rintro heq ⟨l₁, a, l₂, rfl, hp, hr, hbefore⟩
    have hnone : ∀ b ∈ l₁.map f, ¬r b = true := by
      intro b hb hrb
      obtain ⟨a', ha', rfl⟩ := List.mem_map.mp hb
      have := hwide a' (List.mem_append_left _ ha') hrb
      rw [hbefore a' ha'] at this
      cases this
    rw [List.eraseP_append_right _ (fun b hb => by rw [hbefore b hb]; exact Bool.false_ne_true),
      List.eraseP_cons_of_pos hp, List.map_append, List.map_append,
      List.eraseP_append_right _ hnone, List.map_cons,
      List.eraseP_cons_of_neg (by rw [hr]; exact Bool.false_ne_true)] at heq
    exact ne_cons_eraseP (l₂.map f) (f a) hr (List.append_cancel_left heq)
  · intro hnot
    induction l with
    | nil => rfl
    | cons c rest ih =>
        by_cases hp : p c = true
        · have hr : r (f c) = true := by
            by_contra hr
            have hnone : ∀ b ∈ [], p b = false := fun b hb => absurd hb List.not_mem_nil
            exact hnot ⟨[], c, rest, rfl, hp, by simpa using hr, hnone⟩
          rw [List.map_cons, List.eraseP_cons_of_pos hp, List.eraseP_cons_of_pos hr]
        · have hr : ¬r (f c) = true := fun hr => hp (hwide c List.mem_cons_self hr)
          rw [List.map_cons, List.eraseP_cons_of_neg hp, List.eraseP_cons_of_neg hr, List.map_cons]
          congr 1
          refine ih (fun a ha => hwide a (List.mem_cons_of_mem c ha)) ?_
          rintro ⟨l₁, a, l₂, rfl, hpa, hra, hbefore⟩
          refine hnot ⟨c :: l₁, a, l₂, rfl, hpa, hra, fun b hb => ?_⟩
          rcases List.mem_cons.mp hb with rfl | hb
          · simpa using hp
          · exact hbefore b hb

end Lists

/-! ## The scan -/

/-- What is handed out, in order: priorities and items. -/
def Store.inLine (s : Store) : List (ℤ × Bytes) :=
  s.zset.entries.map entryOf

/-- The item is, byte for byte, the member of another item, and none that is
equal to it is handed out before that one. -/
def Store.Impersonates (item : Bytes) (s : Store) : Prop :=
  ∃ l₁ e l₂, s.zset.entries = l₁ ++ e :: l₂ ∧ SortedSet.member e = item ∧
    ∀ e' ∈ l₁, itemOf (SortedSet.member e') ≠ item

/-- A member that the scan accepts. -/
def accepted (item m : Bytes) : Bool :=
  m = item ∨ (17 ≤ m.length ∧ m.head? = some 255 ∧ m.drop 17 = item)

section Scan

variable {s : Store} {item : Bytes}

/-- The scan takes out the first entry that it accepts, and leaves the rest as
it is. -/
theorem remove_entries (item : Bytes) (s : Store) :
    ((remove .prio item).exec s).2.zset.entries =
        s.zset.entries.eraseP (fun e => accepted item (SortedSet.member e)) ∧
      ((remove .prio item).exec s).2 =
        { s with zset := ((remove .prio item).exec s).2.zset } := by
  rw [remove_exec]
  have hfind : (s.zset.members.find? fun m =>
      m = item ∨ (17 ≤ m.length ∧ m.head? = some 255 ∧ m.drop 17 = item)) =
        (s.zset.entries.find? fun e => accepted item (SortedSet.member e)).map
          SortedSet.member := by
    rw [SortedSet.members, List.find?_map]
    rfl
  simp only [Store.removed, hfind]
  cases h : s.zset.entries.find? fun e => accepted item (SortedSet.member e) with
  | none =>
      refine ⟨?_, rfl⟩
      rw [List.find?_eq_none] at h
      exact (List.eraseP_of_forall_not h).symm
  | some e =>
      refine ⟨?_, rfl⟩
      obtain ⟨hp, l₁, l₂, hsplit, hbefore⟩ := List.find?_eq_some_iff_append.mp h
      have herase : s.zset.entries.eraseP (fun e => accepted item (SortedSet.member e)) =
          l₁ ++ l₂ := by
        rw [hsplit, List.eraseP_append_right _ (fun b hb => by simpa using hbefore b hb)]
        exact congrArg (l₁ ++ ·) (List.eraseP_cons_of_pos hp)
      rw [herase]
      exact SortedSet.entries_erase hsplit

/-- A number's width is 16 at least. -/
theorem memberOf_prefixed (n : ℕ) (v : Bytes) :
    17 ≤ (memberOf n v).length ∧ (memberOf n v).head? = some 255 := by
  refine ⟨?_, rfl⟩
  rw [memberOf, List.length_cons, List.length_append, hex16, Digits.padded, Digits.length_fixed]
  omega

/-- A member with a number in front gives up what stands behind it. -/
theorem accepted_memberOf (n : ℕ) (v : Bytes) :
    accepted item (memberOf n v) = true ↔
      memberOf n v = item ∨ itemOf (memberOf n v) = item := by
  simp only [accepted, itemOf, memberOf_prefixed n v, and_self, true_and, if_true,
    decide_eq_true_eq]

/-- What is behind the number is not all of it. -/
theorem itemOf_memberOf_ne (n : ℕ) (v : Bytes) : itemOf (memberOf n v) ≠ memberOf n v := by
  intro h
  have hlength := (memberOf_prefixed n v).1
  rw [itemOf, if_pos (memberOf_prefixed n v)] at h
  have hless := congrArg List.length h
  rw [List.length_drop] at hless
  omega

/-- Among numbered members the scan goes wrong exactly if it comes to one that
is the item itself. -/
theorem Sequenced.inLine_remove_iff (hs : Sequenced s) :
    ((remove .prio item).exec s).2.inLine = s.inLine.eraseP (fun e => e.2 = item) ↔
      ¬s.Impersonates item := by
  have numbered : ∀ e ∈ s.zset.entries, ∃ n v, SortedSet.member e = memberOf n v := by
    intro e he
    obtain ⟨n, v, -, h⟩ := hs _ (List.mem_map_of_mem he)
    exact ⟨n, v, h⟩
  have hwide : ∀ e ∈ s.zset.entries, decide ((entryOf e).2 = item) = true →
      accepted item (SortedSet.member e) = true := by
    intro e he hitem
    obtain ⟨n, v, hmember⟩ := numbered e he
    rw [hmember, accepted_memberOf, ← hmember]
    exact Or.inr (of_decide_eq_true hitem)
  rw [Store.inLine, (remove_entries item s).1, Store.inLine, map_eraseP_eq_iff _ hwide, not_iff_not]
  constructor
  · rintro ⟨l₁, e, l₂, hsplit, haccepted, hother, hbefore⟩
    obtain ⟨n, v, hmember⟩ := numbered e (by rw [hsplit]; simp)
    refine ⟨l₁, e, l₂, hsplit, ?_, fun e' he' heq => ?_⟩
    · rw [hmember, accepted_memberOf, ← hmember] at haccepted
      exact haccepted.resolve_right (of_decide_eq_false hother)
    · have hin := hwide e' (by rw [hsplit]; exact List.mem_append_left _ he') (decide_eq_true heq)
      rw [hbefore e' he'] at hin
      cases hin
  · rintro ⟨l₁, e, l₂, hsplit, hself, hbefore⟩
    obtain ⟨n, v, hmember⟩ := numbered e (by rw [hsplit]; simp)
    refine ⟨l₁, e, l₂, hsplit, ?_, decide_eq_false ?_, fun e' he' => ?_⟩
    · rw [hmember, accepted_memberOf, ← hmember]
      exact Or.inl hself
    · show itemOf (SortedSet.member e) ≠ item
      rw [← hself, hmember]
      exact itemOf_memberOf_ne n v
    · obtain ⟨n', v', hmember'⟩ := numbered e' (by rw [hsplit]; exact List.mem_append_left _ he')
      have hnot : ¬accepted item (SortedSet.member e') = true := by
        rw [hmember', accepted_memberOf, ← hmember']
        rintro (hsame | hitem)
        · -- no two entries have one member
          have hdistinct := s.zset.distinct
          rw [hsplit, List.map_append, List.map_cons] at hdistinct
          exact (List.nodup_append.mp hdistinct).2.2 _ (List.mem_map_of_mem he') _
            List.mem_cons_self (hsame.trans hself.symm)
        · exact hbefore e' he' hitem
      simpa using hnot

end Scan

/-- **Remove takes out its item and nothing else** unless it comes first to an
item whose member it is: in any run, with the queue as it is at that moment. -/
theorem remove_iff (cj : Cjson) (u : ℕ → Option ScriptRun) (n : ℕ) (env : Env) (item : Bytes) :
    (((remove .prio item).exec ((storeAt .prio cj u n).evicted env)).2.inLine =
        ((storeAt .prio cj u n).evicted env).inLine.eraseP (fun e => e.2 = item) ∧
      ((remove .prio item).exec ((storeAt .prio cj u n).evicted env)).2 =
        { (storeAt .prio cj u n).evicted env with
          zset := ((remove .prio item).exec ((storeAt .prio cj u n).evicted env)).2.zset }) ↔
      ¬((storeAt .prio cj u n).evicted env).Impersonates item := by
  rw [← (Sequenced.evicted (storeAt_sequenced .prio cj u n) env).inLine_remove_iff]
  exact and_iff_left (remove_entries item _).2

/-- A push of one item. -/
def onePushed : ℕ → Option ScriptRun
  | 0 => some ⟨.push ⟨[97], 0, 1, false, none⟩, Env.plain 0 fun _ => 0⟩
  | _ => none

/-- `Remove` of its member, an item that does not wait, takes it out. -/
theorem remove_member_taken :
    ((storeAt .prio .none onePushed 1).inLine = [(1, [97])] ∧
      (storeAt .prio .none onePushed 1).inLine.eraseP (fun e => e.2 = memberOf 1 [97]) =
        [(1, [97])]) ∧
      ((remove .prio (memberOf 1 [97])).exec (storeAt .prio .none onePushed 1)).2.inLine = [] := by
  refine ⟨⟨rfl, rfl⟩, rfl⟩

end Redisq.Model
