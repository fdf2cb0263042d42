import Redisq.Library.Json.Value

/-!
# The members of an object

What `members` makes of any object that a dialect reads, not only of one put
together from its members.  White space around the object, and how deep values
may nest, change nothing (`members_trim`, `members_nested`).  Its keys are
strings (`keys_of_members`), and its values are less than the whole
(`weight_of_members`).
-/

namespace Json

variable {D d : Dialect} {r r₁ r₂ : Reader} {b : Byte} {part t : Text}

/-! ## White space around a text -/

theorem accepts_eq_any : d.accepts t = (d.run Reader.first t).any d.complete := by
  rw [Dialect.accepts]
  cases d.run Reader.first t <;> rfl

/-- A text splits just if it is one value. -/
theorem isSome_split : (d.split r part t).isSome = (d.run r t).any d.complete := by
  induction t generalizing r part with
  | nil =>
      rw [Dialect.split, run_nil, Option.any_some]
      cases d.complete r <;> rfl
  | cons b t ih =>
      rw [Dialect.split, run_cons]
      cases d.step r b with
      | none => rfl
      | some r' =>
          rw [Option.bind_some, Option.bind_some]
          split
          · rw [Option.isSome_map, ih]
          · rw [ih]

theorem accepts_eq_split : d.accepts t = (d.split Reader.first [] t).isSome := by
  rw [isSome_split, accepts_eq_any]

/-- White space behind a text neither completes it nor spoils it. -/
theorem complete_space (hb : isSpace b = true) : (d.step r b).any d.complete = d.complete r := by
  obtain ⟨place, frames⟩ := r
  have hdelimiter : isDelimiter b = true := by simp [isDelimiter, hb]
  have hplain : b ≠ 34 ∧ b ≠ 92 ∧ b ≠ 93 ∧ b ≠ 117 ∧ isHex b = false := by
    obtain rfl | rfl | rfl | rfl := of_decide_eq_true hb <;> decide
  obtain ⟨hquote, hescape, hclose, hunicode, hhex⟩ := hplain
  have hshort : b ∉ [34, 92, 47, 98, 102, 110, 114, 116] := by
    obtain rfl | rfl | rfl | rfl := of_decide_eq_true hb <;> decide
  cases place with
  | string key =>
      cases hknown : d.plain b <;>
        simp [Dialect.step, Dialect.turn, hquote, hescape, hknown, Turn.take, Dialect.complete,
          Dialect.ends]
  | scalar read =>
      cases hknown : d.scalar read <;>
        simp [Dialect.step, Dialect.turn, hdelimiter, hknown, Turn.take, after, hb,
          Dialect.complete, Dialect.ends]
  | escape key =>
      simp only [Dialect.step, Dialect.turn, if_neg hshort, if_neg hunicode, Turn.take,
        Option.any_none, Dialect.complete, Dialect.ends, Bool.and_false]
  | hex key left =>
      simp [Dialect.step, Dialect.turn, hhex, Turn.take, Dialect.complete, Dialect.ends]
  | _ => simp [Dialect.step, Dialect.turn, start, hb, hclose, Turn.take, after, Dialect.complete,
      Dialect.ends]

/-- Nor does it end a part. -/
theorem not_separates_space (hb : isSpace b = true) : d.separates r b = false := by
  have hcolon : b ≠ 58 := by
    rintro rfl
    cases hb
  have hpair : d.turn r.place b ≠ .pair := by
    intro hpair
    cases hplace : r.place <;> rw [hplace] at hpair <;> simp only [Dialect.turn, start] at hpair <;>
      grind
  simp [Dialect.separates, hb, hpair]

theorem split_spaces {spaces : Text} (h : spaces.all isSpace = true) :
    d.split r part spaces = if d.complete r then some [] else none := by
  induction spaces generalizing r part with
  | nil => rfl
  | cons b spaces ih =>
      rw [List.all_cons, Bool.and_eq_true] at h
      have hcomplete := complete_space (d := d) (r := r) h.1
      rw [Dialect.split, not_separates_space h.1]
      cases hstep : d.step r b with
      | none =>
          rw [hstep, Option.any_none] at hcomplete
          rw [← hcomplete]
          rfl
      | some r' =>
          rw [hstep, Option.any_some] at hcomplete
          rw [Option.bind_some, if_neg Bool.false_ne_true, ih h.2, hcomplete]

theorem split_trail {trail : Text} (h : trail.all isSpace = true) :
    d.split r part (t ++ trail) = d.split r part t := by
  induction t generalizing r part with
  | nil => rw [List.nil_append, split_spaces h, Dialect.split]
  | cons b t ih => simp only [List.cons_append, Dialect.split, ih]

theorem split_lead {lead : Text} (h : lead.all isSpace = true) :
    d.split Reader.first [] (lead ++ t) = d.split Reader.first [] t := by
  induction lead with
  | nil => rfl
  | cons b lead ih =>
      rw [List.all_cons, Bool.and_eq_true] at h
      have hstep : d.step Reader.first b = some Reader.first := by
        show (start .value b).take d.depth [] b = _
        rw [start, if_pos h.1]
        rfl
      rw [List.cons_append, Dialect.split, hstep, not_separates_space h.1, Option.bind_some]
      exact ih h.2

theorem split_trim (t : Text) :
    d.split Reader.first [] (trim t) = d.split Reader.first [] t := by
  obtain ⟨lead, trail, ht, hlead, htrail⟩ := exists_padding t
  conv_rhs => rw [ht, split_lead hlead, split_trail htrail]

theorem accepts_trim (t : Text) : d.accepts (trim t) = d.accepts t := by
  rw [accepts_eq_split, accepts_eq_split, split_trim]

theorem head_dropWhile_trim (t : Text) :
    ((trim t).dropWhile isSpace).head? = (t.dropWhile isSpace).head? := by
  obtain ⟨lead, trail, ht, hlead, htrail⟩ := exists_padding t
  have hdrop : t.dropWhile isSpace = (trim t ++ trail).dropWhile isSpace := by
    conv_lhs => rw [ht, List.dropWhile_append_of_pos (List.all_eq_true.mp hlead)]
  rw [hdrop, List.dropWhile_append]
  split
  · next hnil =>
      rw [List.isEmpty_iff.mp hnil, List.dropWhile_eq_nil_iff.mpr (List.all_eq_true.mp htrail)]
  · next hcons =>
      cases hhead : (trim t).dropWhile isSpace with
      | nil => exact absurd (List.isEmpty_iff.mpr hhead) hcons
      | cons b rest => rfl

/-- An object has the same members without the white space around it. -/
theorem members_trim (t : Text) : d.members (trim t) = d.members t := by
  rw [Dialect.members, Dialect.members, head_dropWhile_trim, split_trim]

/-! ## Nesting -/

/-- How deep values may nest decides whether a byte is taken, and nothing
else. -/
theorem take_nested {n m : ℕ} {frames : List Frame} {turn : Turn}
    (h₁ : turn.take n frames b = some r₁) (h₂ : turn.take m frames b = some r₂) : r₁ = r₂ := by
  cases turn with
  | enter f =>
      simp only [Turn.take] at h₁ h₂
      split at h₁
      · split at h₂
        · exact Option.some.inj (h₁.symm.trans h₂)
        · cases h₂
      · cases h₁
  | _ => exact Option.some.inj (h₁.symm.trans h₂)

theorem split_nested {n m : ℕ} {parts parts' : List Text}
    (h : (d.nested n).split r part t = some parts)
    (h' : (d.nested m).split r part t = some parts') : parts = parts' := by
  induction t generalizing r part parts parts' with
  | nil => exact Option.some.inj (h.symm.trans h')
  | cons b t ih =>
      obtain ⟨r₁, hstep, hrest⟩ := Option.bind_eq_some_iff.mp h
      obtain ⟨r₂, hstep', hrest'⟩ := Option.bind_eq_some_iff.mp h'
      obtain rfl : r₁ = r₂ := take_nested hstep hstep'
      have hseparates : (d.nested n).separates r b = (d.nested m).separates r b := rfl
      rw [hseparates] at hrest
      split at hrest
      · next hsep =>
          rw [if_pos hsep] at hrest'
          obtain ⟨l, hl, rfl⟩ := Option.map_eq_some_iff.mp hrest
          obtain ⟨l', hl', rfl⟩ := Option.map_eq_some_iff.mp hrest'
          rw [ih hl hl']
      · next hsep =>
          rw [if_neg hsep] at hrest'
          exact ih hrest hrest'

/-- Wherever an object is read, it has the same members. -/
theorem members_nested {n m : ℕ} (h : (d.nested n).accepts t = true)
    (h' : (d.nested m).accepts t = true) : (d.nested n).members t = (d.nested m).members t := by
  rw [accepts_eq_split] at h h'
  obtain ⟨parts, hparts⟩ := Option.isSome_iff_exists.mp h
  obtain ⟨parts', hparts'⟩ := Option.isSome_iff_exists.mp h'
  rw [Dialect.members, Dialect.members, hparts, hparts', split_nested hparts hparts']

theorem run_nested (hknows : D.Knows d) (h : d.run r t = some r₁) (h' : D.run r t = some r₂) :
    (d.nested D.depth).run r t = some r₁ := by
  induction t generalizing r with
  | nil => exact h
  | cons b t ih =>
      obtain ⟨s, hstep, hrest⟩ := Option.bind_eq_some_iff.mp h
      obtain ⟨s', hstep', hrest'⟩ := Option.bind_eq_some_iff.mp h'
      have hsame : (d.nested D.depth).step r b = some s' := by
        rw [← hstep', Dialect.step, Dialect.step, turn_known hknows (turn_of_step hstep)]
        rfl
      obtain rfl : s = s' := take_nested hstep hsame
      rw [run_cons, hsame, Option.bind_some]
      exact ih hrest hrest'

/-- What a dialect reads, and one that knows more reads too, nests no deeper
than the latter allows. -/
theorem accepts_nested (hknows : D.Knows d) (h : d.accepts t = true) (h' : D.accepts t = true) :
    (d.nested D.depth).accepts t = true := by
  obtain ⟨r₁, hrun, hr⟩ := accepts_iff.mp h
  obtain ⟨r₂, hrun', -⟩ := accepts_iff.mp h'
  exact accepts_iff.mpr ⟨r₁, run_nested hknows hrun hrun', hr⟩

/-! ## Keys -/

/-- What has been read of a string: whatever closes a string closes it. -/
def Open (body : Text) : Prop :=
  ∀ rest, (pieces rest).isSome = true → (pieces (body ++ rest)).isSome = true

theorem open_nil : Open [] := fun _ h => h

theorem Open.append {body more : Text} (h : Open body) (hmore : Open more) :
    Open (body ++ more) := by
  intro rest hrest
  rw [List.append_assoc]
  exact h _ (hmore rest hrest)

theorem open_byte (hquote : b ≠ 34) (hescape : b ≠ 92) (hb : 32 ≤ b) : Open [b] := by
  intro rest hrest
  rw [List.singleton_append, pieces_plain hquote hescape hb, Option.isSome_map]
  exact hrest

theorem open_escape {c : Byte} (hc : c ∈ [34, 92, 47, 98, 102, 110, 114, 116]) :
    Open [92, c] := by
  intro rest hrest
  have hshort : ∀ c ∈ [34, 92, 47, 98, 102, 110, 114, 116],
      c ≠ 117 ∧ (escaped c).isSome = true := by decide +kernel
  obtain ⟨hunicode, hsome⟩ := hshort c hc
  obtain ⟨x, hx⟩ := Option.isSome_iff_exists.mp hsome
  show (pieces (92 :: c :: rest)).isSome = true
  rw [pieces_escaped hunicode hx, Option.isSome_map]
  exact hrest

theorem open_hex {hs : Text} (hlength : hs.length = 4) (hhex : ∀ h ∈ hs, isHex h = true) :
    Open (92 :: 117 :: hs) := by
  intro rest hrest
  obtain ⟨h₁, h₂, h₃, h₄, rfl⟩ := List.length_eq_four.mp hlength
  have hall : isHex h₁ = true ∧ isHex h₂ = true ∧ isHex h₃ = true ∧ isHex h₄ = true := by
    simpa using hhex
  have hquote : (92 : Byte) ≠ 34 := by decide
  show (pieces (92 :: 117 :: h₁ :: h₂ :: h₃ :: h₄ :: rest)).isSome = true
  rw [pieces.eq_def]
  simp only [if_neg hquote, if_true, if_pos hall, Option.isSome_map]
  exact hrest

/-- What has been read, at a place, of a key and of the white space around
it. -/
inductive KeyRead : Place → Text → Prop
  | before {place : Place} {lead : Text} (hplace : place = .member ∨ place = .key)
      (hlead : lead.all isSpace = true) : KeyRead place lead
  | string {lead body : Text} (hlead : lead.all isSpace = true) (hbody : Open body) :
      KeyRead (.string true) (lead ++ 34 :: body)
  | escape {lead body : Text} (hlead : lead.all isSpace = true) (hbody : Open body) :
      KeyRead (.escape true) (lead ++ 34 :: (body ++ [92]))
  | hex {lead body hs : Text} {left : ℕ} (hlead : lead.all isSpace = true) (hbody : Open body)
      (hleft : hs.length + left = 3) (hhex : ∀ h ∈ hs, isHex h = true) :
      KeyRead (.hex true left) (lead ++ 34 :: (body ++ 92 :: 117 :: hs))
  | behind {lead key trail : Text} (hlead : lead.all isSpace = true)
      (hkey : (unquote key).isSome = true) (htrail : trail.all isSpace = true) :
      KeyRead .colon (lead ++ (key ++ trail))

/-- A byte that does not end a key is read of it. -/
theorem KeyRead.go (hplain : ∀ b, d.plain b = true → 32 ≤ b) {place place' : Place}
    (h : KeyRead place part) (hturn : d.turn place b = .go place') :
    KeyRead place' (part ++ [b]) := by
  cases h with
  | before hplace hlead =>
      have hspace : isSpace b = true → (part ++ [b]).all isSpace = true := by
        intro hb
        rw [List.all_append, hlead, List.all_cons, hb]
        rfl
      have hstring : KeyRead (.string true) (part ++ [34]) := .string hlead open_nil
      obtain rfl | rfl := hplace
      · simp only [Dialect.turn] at hturn
        split at hturn
        · next hb =>
            rw [← Turn.go.inj hturn]
            exact .before (Or.inl rfl) (hspace hb)
        · split at hturn
          · next hb =>
              rw [← Turn.go.inj hturn, hb]
              exact hstring
          · split at hturn <;> cases hturn
      · simp only [Dialect.turn] at hturn
        split at hturn
        · next hb =>
            rw [← Turn.go.inj hturn]
            exact .before (Or.inr rfl) (hspace hb)
        · split at hturn
          · next hb =>
              rw [← Turn.go.inj hturn, hb]
              exact hstring
          · cases hturn
  | @string lead body hlead hbody =>
      rw [List.append_assoc, List.cons_append]
      simp only [Dialect.turn] at hturn
      split at hturn
      · next hb =>
          rw [← Turn.go.inj hturn, hb]
          have hclosed : (unquote (34 :: (body ++ [34]))).isSome = true := by
            show ((pieces (body ++ [34])).map _).isSome = true
            rw [Option.isSome_map]
            exact hbody [34] rfl
          have hbehind : KeyRead .colon (lead ++ (34 :: (body ++ [34]) ++ [])) :=
            .behind hlead hclosed rfl
          simpa using hbehind
      · next hquote =>
          split at hturn
          · next hb =>
              rw [← Turn.go.inj hturn, hb]
              exact .escape hlead hbody
          · next hescape =>
              split at hturn
              · next hb =>
                  rw [← Turn.go.inj hturn]
                  exact .string hlead (hbody.append (open_byte hquote hescape (hplain b hb)))
              · cases hturn
  | @escape lead body hlead hbody =>
      rw [List.append_assoc, List.cons_append, List.append_assoc]
      simp only [Dialect.turn] at hturn
      split at hturn
      · next hb =>
          rw [← Turn.go.inj hturn]
          exact .string hlead (hbody.append (open_escape hb))
      · split at hturn
        · next hb =>
            rw [← Turn.go.inj hturn, hb]
            have hnone : ∀ h ∈ ([] : Text), isHex h = true := fun h hh => absurd hh List.not_mem_nil
            exact .hex hlead hbody rfl hnone
        · cases hturn
  | @hex lead body hs left hlead hbody hleft hhex =>
      have hlast : isHex b = true → ∀ h ∈ hs ++ [b], isHex h = true := by
        intro hb h hh
        rcases List.mem_append.mp hh with hin | hin
        · exact hhex h hin
        · rw [List.mem_singleton.mp hin]
          exact hb
      rw [List.append_assoc, List.cons_append, List.append_assoc, List.cons_append,
        List.cons_append]
      simp only [Dialect.turn] at hturn
      split at hturn
      · next hb =>
          rw [← Turn.go.inj hturn]
          split
          · next hzero =>
              have hfour : (hs ++ [b]).length = 4 := by
                rw [List.length_append, List.length_singleton]
                omega
              exact .string hlead (hbody.append (open_hex hfour (hlast hb)))
          · next hmore =>
              refine .hex hlead hbody ?_ (hlast hb)
              rw [List.length_append, List.length_singleton]
              omega
      · cases hturn
  | @behind lead key trail hlead hkey htrail =>
      simp only [Dialect.turn] at hturn
      split at hturn
      · next hb =>
          rw [← Turn.go.inj hturn, List.append_assoc, List.append_assoc]
          refine .behind hlead hkey ?_
          rw [List.all_append, htrail, List.all_cons, hb]
          rfl
      · split at hturn <;> cases hturn

/-- White space around a text goes. -/
theorem trim_padded {lead trail : Text} (hlead : lead.all isSpace = true)
    (htrail : trail.all isSpace = true) : trim (lead ++ (t ++ trail)) = trim t := by
  have htrail' : ∀ b ∈ trail.reverse, isSpace b = true := fun b hb =>
    List.all_eq_true.mp htrail b (List.mem_reverse.mp hb)
  rw [trim, List.dropWhile_append_of_pos (List.all_eq_true.mp hlead), List.dropWhile_append]
  split
  · next hnil =>
      rw [List.dropWhile_eq_nil_iff.mpr (List.all_eq_true.mp htrail), trim,
        List.isEmpty_iff.mp hnil]
  · rw [List.reverse_append, List.dropWhile_append_of_pos htrail', trim]

@[simp] theorem trim_trim (t : Text) : trim (trim t) = trim t := by
  obtain ⟨lead, trail, ht, hlead, htrail⟩ := exists_padding t
  conv_rhs => rw [ht, trim_padded hlead htrail]

/-- A key ends at its colon. -/
theorem KeyRead.pair {place : Place} (h : KeyRead place part) (hturn : d.turn place b = .pair) :
    (unquote (trim part)).isSome = true := by
  cases h with
  | behind hlead hkey htrail =>
      obtain ⟨s, hs⟩ := Option.isSome_iff_exists.mp hkey
      rw [trim_padded hlead htrail, trim_of_unquote hs]
      exact hkey
  | before hplace _ =>
      obtain rfl | rfl := hplace <;> simp only [Dialect.turn] at hturn <;> grind
  | _ => simp only [Dialect.turn] at hturn; grind

/-- Nothing is entered in a key, and only an empty object is left there. -/
theorem KeyRead.leave {place : Place} (h : KeyRead place part) :
    (∀ f, d.turn place b ≠ .enter f) ∧ (d.turn place b = .leave → b = 125) := by
  cases h with
  | before hplace _ =>
      obtain rfl | rfl := hplace <;> simp only [Dialect.turn] <;> grind
  | _ => simp only [Dialect.turn]; grind

/-! ## Values -/

/-- A place in a value or behind it. -/
def Place.ofValue : Place → Bool
  | .value => true
  | .done => true
  | .scalar _ => true
  | .string isKey => !isKey
  | .escape isKey => !isKey
  | .hex isKey _ => !isKey
  | _ => false

/-- What does not lead out of a value, unless it ends it. -/
def Turn.stays : Turn → Bool
  | .go place => place.ofValue
  | .pair => false
  | _ => true

theorem start_stays : (start .value b).stays = true := by
  unfold start
  split
  · rfl
  · split
    · rfl
    · cases Frame.opened b with
      | some f => rfl
      | none =>
          show (if isDelimiter b = true then Turn.fail else .go (.scalar [b])).stays = true
          split <;> rfl

theorem turn_stays {place : Place} (h : place.ofValue = true) :
    (d.turn place b).stays = true := by
  cases place with
  | value => exact start_stays
  | done => rfl
  | scalar read =>
      simp only [Dialect.turn]
      split
      · split <;> rfl
      · rfl
  | string key =>
      simp only [Dialect.turn]
      split
      · rw [show key = false by simpa [Place.ofValue] using h]
        rfl
      · split
        · exact h
        · split
          · exact h
          · rfl
  | escape key =>
      simp only [Dialect.turn]
      split
      · exact h
      · split
        · exact h
        · rfl
  | hex key left =>
      simp only [Dialect.turn]
      split
      · split <;> exact h
      · rfl
  | _ => cases h

/-- In the value of a member, or behind it. -/
def InValue (r : Reader) : Prop :=
  ∃ inner, r.frames = inner ++ [.object] ∧ (inner = [] → r.place.ofValue = true)

theorem inValue_first : InValue ⟨.value, [.object]⟩ :=
  ⟨[], rfl, fun _ => rfl⟩

/-- Any place inside what the value has opened. -/
theorem inValue_deeper {place : Place} (f : Frame) (inner : List Frame) :
    InValue ⟨place, f :: inner ++ [.object]⟩ :=
  ⟨f :: inner, rfl, fun hnil => absurd hnil (List.cons_ne_nil f inner)⟩

/-- Behind a value at its end: the part ends, or white space follows. -/
theorem InValue.leave (h : InValue r) (hstep : after r.frames b = some r₁) :
    if r.frames.length = 1 ∧ isSpace b = false then r₁ = Frame.behind .object b
    else InValue r₁ := by
  obtain ⟨inner, hframes, -⟩ := h
  rw [hframes] at hstep ⊢
  unfold after at hstep
  split at hstep
  · next hspace =>
      rw [← Option.some.inj hstep, if_neg (by simp [hspace])]
      exact ⟨inner, rfl, fun _ => rfl⟩
  · next hspace =>
      cases inner with
      | nil =>
          rw [if_pos ⟨rfl, by simpa using hspace⟩, Frame.behind]
          simp only [List.nil_append] at hstep
          split at hstep
          · next hcomma => rw [← Option.some.inj hstep, if_pos hcomma]
          · next hcomma =>
              split at hstep
              · rw [← Option.some.inj hstep, if_neg hcomma]
              · cases hstep
      | cons f inner =>
          rw [if_neg (by simp)]
          simp only [List.cons_append] at hstep
          split at hstep
          · rw [← Option.some.inj hstep]
            exact inValue_deeper f inner
          · split at hstep
            · rw [← Option.some.inj hstep]
              exact ⟨inner, rfl, fun _ => rfl⟩
            · cases hstep

/-- A byte goes on in the value, or ends it and the part. -/
theorem InValue.step (h : InValue r) (hstep : d.step r b = some r₁) :
    if d.separates r b then r₁ = Frame.behind .object b else InValue r₁ := by
  have hleave : after r.frames b = some r₁ → _ := h.leave
  obtain ⟨inner, hframes, hplace⟩ := h
  rw [Dialect.step, hframes] at hstep
  rw [Dialect.separates]
  generalize hturn : d.turn r.place b = turn at hstep ⊢
  cases turn with
  | fail => cases hstep
  | go place =>
      rw [if_neg (by simp), ← Option.some.inj hstep]
      refine ⟨inner, rfl, fun hnil => ?_⟩
      have hstays := turn_stays (d := d) (b := b) (hplace hnil)
      rw [hturn] at hstays
      exact hstays
  | enter f =>
      rw [Turn.take] at hstep
      split at hstep
      · rw [if_neg (by simp), ← Option.some.inj hstep]
        exact inValue_deeper f inner
      · cases hstep
  | pair =>
      cases inner with
      | nil =>
          have hstays := turn_stays (d := d) (b := b) (hplace rfl)
          rw [hturn] at hstays
          cases hstays
      | cons f inner =>
          rw [Turn.take] at hstep
          split at hstep
          · rw [if_neg (by simp [hframes]), ← Option.some.inj hstep]
            exact inValue_deeper f inner
          · cases hstep
  | leave =>
      have hend := hleave (by rw [hframes]; exact hstep)
      simpa using hend

/-! ## Members -/

theorem split_done {parts : List Text} (h : d.split ⟨.done, []⟩ part t = some parts) :
    parts = [] := by
  induction t generalizing part with
  | nil =>
      rw [Dialect.split] at h
      exact (Option.some.inj h).symm
  | cons b t ih =>
      obtain ⟨r', hstep, hrest⟩ := Option.bind_eq_some_iff.mp h
      have hdone : r' = ⟨.done, []⟩ := by
        change after [] b = some r' at hstep
        unfold after at hstep
        split at hstep
        · exact (Option.some.inj hstep).symm
        · cases hstep
      subst hdone
      exact ih hrest

theorem mem_pairs_cons {k : Text} {parts : List Text} {m : Text × Text}
    (h : m ∈ pairs (k :: parts)) : m.1 = k ∨ m ∈ pairs parts.tail := by
  cases parts with
  | nil => exact absurd h List.not_mem_nil
  | cons v parts =>
      rw [pairs, List.mem_cons] at h
      exact h.imp_left (congrArg Prod.fst)

/-- The keys among the parts that are still to come. -/
theorem keys_of_split (hplain : ∀ b, d.plain b = true → 32 ≤ b) {parts : List Text}
    (h : d.split r part t = some parts) :
    (InValue r → ∀ m ∈ pairs parts.tail, (unquote m.1).isSome = true) ∧
      (r.frames = [.object] → KeyRead r.place part →
        ∀ m ∈ pairs parts, (unquote m.1).isSome = true) := by
  induction t generalizing r part parts with
  | nil =>
      rw [Dialect.split] at h
      split at h
      · rw [← Option.some.inj h]
        exact ⟨fun _ m hm => absurd hm List.not_mem_nil,
          fun _ _ m hm => absurd hm List.not_mem_nil⟩
      · cases h
  | cons b t ih =>
      obtain ⟨r', hstep, hrest⟩ := Option.bind_eq_some_iff.mp h
      -- behind a comma or a brace
      have hbehind : ∀ {parts'}, r' = Frame.behind .object b → d.split r' [] t = some parts' →
          ∀ m ∈ pairs parts', (unquote m.1).isSome = true := by
        intro parts' hr' hparts'
        subst hr'
        unfold Frame.behind at hparts'
        split at hparts'
        · exact (ih hparts').2 rfl (.before (Or.inr rfl) rfl)
        · rw [split_done hparts']
          exact fun m hm => absurd hm List.not_mem_nil
      constructor
      · intro hvalue
        have hnext := hvalue.step hstep
        split at hrest
        · next hseparates =>
            obtain ⟨parts', hparts', rfl⟩ := Option.map_eq_some_iff.mp hrest
            rw [if_pos hseparates] at hnext
            exact hbehind hnext hparts'
        · next hseparates =>
            rw [if_neg hseparates] at hnext
            exact (ih hrest).1 hnext
      · intro hframes hkey
        have hinside : ¬r.frames = [] := by
          rw [hframes]
          exact List.cons_ne_nil _ _
        rw [Dialect.step, hframes] at hstep
        rw [if_neg hinside, Dialect.separates, hframes] at hrest
        cases hturn : d.turn r.place b with
        | fail =>
            rw [hturn] at hstep
            cases hstep
        | go place =>
            rw [hturn] at hstep hrest
            rw [if_neg (by simp), ← Option.some.inj hstep] at hrest
            exact (ih hrest).2 rfl (hkey.go hplain hturn)
        | enter f => exact absurd hturn (hkey.leave.1 f)
        | pair =>
            rw [hturn] at hstep hrest
            rw [if_pos (by simp), ← Option.some.inj hstep] at hrest
            obtain ⟨parts', hparts', rfl⟩ := Option.map_eq_some_iff.mp hrest
            intro m hm
            rcases mem_pairs_cons hm with hfirst | hlater
            · rw [hfirst]
              exact hkey.pair hturn
            · exact (ih hparts').1 inValue_first m hlater
        | leave =>
            obtain rfl : b = 125 := hkey.leave.2 hturn
            rw [hturn] at hstep hrest
            have hdone : r' = ⟨.done, []⟩ := (Option.some.inj hstep).symm
            rw [if_pos (by decide), hdone] at hrest
            obtain ⟨parts', hparts', rfl⟩ := Option.map_eq_some_iff.mp hrest
            rw [split_done hparts']
            exact fun m hm => absurd hm List.not_mem_nil

/-- The members are the parts behind the first brace. -/
theorem split_of_members {ms : List (Text × Text)} (h : d.members t = some ms) :
    ∃ lead rest parts, t = lead ++ 123 :: rest ∧ lead.all isSpace = true ∧
      d.split ⟨.member, [.object]⟩ [] rest = some parts ∧ ms = pairs parts := by
  unfold Dialect.members at h
  split at h
  · next hbrace =>
      obtain ⟨parts, hparts, hms⟩ := Option.map_eq_some_iff.mp h
      have ht : t = t.takeWhile isSpace ++ t.dropWhile isSpace :=
        List.takeWhile_append_dropWhile.symm
      cases hrest : t.dropWhile isSpace with
      | nil =>
          rw [hrest] at hbrace
          cases hbrace
      | cons b rest =>
          rw [hrest] at hbrace ht
          obtain rfl : b = 123 := Option.some.inj hbrace
          refine ⟨t.takeWhile isSpace, rest, parts, ht, List.all_takeWhile, ?_, hms.symm⟩
          rw [ht, split_lead List.all_takeWhile] at hparts
          obtain ⟨r', hstep, hsplit⟩ := Option.bind_eq_some_iff.mp hparts
          have hentered : r' = ⟨.member, [.object]⟩ := by
            change Turn.take d.depth [] 123 (.enter .object) = some r' at hstep
            rw [Turn.take] at hstep
            split at hstep
            · exact (Option.some.inj hstep).symm
            · cases hstep
          rw [hentered] at hsplit
          exact hsplit
  · cases h

/-- The keys of an object are strings. -/
theorem keys_of_members {n : ℕ} {ms : List (Text × Text)} (h : (rfc n).members t = some ms) :
    ∀ m ∈ ms, (unquote m.1).isSome = true := by
  obtain ⟨lead, rest, parts, -, -, hparts, rfl⟩ := split_of_members h
  exact (keys_of_split (fun b hb => of_decide_eq_true hb) hparts).2 rfl (.before (Or.inl rfl) rfl)

/-! ## Weights -/

/-- How many bytes there are besides white space. -/
def weight (t : Text) : ℕ :=
  t.countP fun b => !isSpace b

theorem weight_append (s t : Text) : weight (s ++ t) = weight s + weight t :=
  List.countP_append

theorem weight_spaces (h : t.all isSpace = true) : weight t = 0 :=
  List.countP_eq_zero.mpr fun b hb => by simp [List.all_eq_true.mp h b hb]

theorem weight_trim (t : Text) : weight (trim t) = weight t := by
  obtain ⟨lead, trail, ht, hlead, htrail⟩ := exists_padding t
  conv_rhs => rw [ht, weight_append, weight_append, weight_spaces hlead, weight_spaces htrail,
    Nat.zero_add, Nat.add_zero]

theorem weight_of_split {parts : List Text} (h : d.split r part t = some parts) :
    ∀ p ∈ parts, weight p ≤ weight part + weight t := by
  induction t generalizing r part parts with
  | nil =>
      rw [Dialect.split] at h
      split at h
      · rw [← Option.some.inj h]
        exact fun p hp => absurd hp List.not_mem_nil
      · cases h
  | cons b t ih =>
      have hb : weight (b :: t) = weight [b] + weight t := weight_append [b] t
      obtain ⟨r', -, hrest⟩ := Option.bind_eq_some_iff.mp h
      intro p hp
      split at hrest
      · obtain ⟨parts', hparts', rfl⟩ := Option.map_eq_some_iff.mp hrest
        rcases List.mem_cons.mp hp with rfl | hlater
        · rw [weight_trim]
          omega
        · have hle := ih hparts' p hlater
          have hnil : weight [] = 0 := rfl
          omega
      · have hle := ih hrest p hp
        split at hle
        · have hnil : weight [] = 0 := rfl
          omega
        · rw [weight_append] at hle
          omega

theorem mem_of_pairs {parts : List Text} {m : Text × Text} (h : m ∈ pairs parts) :
    m.2 ∈ parts := by
  fun_induction pairs parts with
  | case1 key value rest ih =>
      rcases List.mem_cons.mp h with rfl | hlater
      · exact List.mem_cons_of_mem _ List.mem_cons_self
      · exact List.mem_cons_of_mem _ (List.mem_cons_of_mem _ (ih hlater))
  | case2 => exact absurd h List.not_mem_nil

/-- The values of an object are less than the whole. -/
theorem weight_of_members {ms : List (Text × Text)} (h : d.members t = some ms) :
    ∀ m ∈ ms, weight m.2 < weight t := by
  obtain ⟨lead, rest, parts, rfl, -, hparts, rfl⟩ := split_of_members h
  intro m hm
  have hle := weight_of_split hparts m.2 (mem_of_pairs hm)
  have hbrace : weight (123 :: rest) = 1 + weight rest := weight_append [123] rest
  have hnil : weight [] = 0 := rfl
  rw [weight_append]
  omega

end Json
