import Mathlib.Data.List.TakeWhile
import Mathlib.Order.Basic
import Redisq.Library.Literal

/-!
# Reading JSON, byte by byte

A reader goes through a text one byte at a time and keeps a stack of the
arrays and objects it is in.  What may stand for a number or a word, which
bytes a string may hold and how deep values may nest is a dialect's, and
readers of laxer ones accept more.

A value that one dialect reads on its own is read in the same steps inside an
array or an object, by any dialect that knows as much (`run_under`); a dialect
that knows less and still gets through it there would have read it on its own
(`run_of_split`).  So what `split` makes of an object is known from its parts.
-/

namespace Json

abbrev Byte := Fin 256

abbrev Text := List Byte

/-! ## Bytes -/

/-- White space. -/
def isSpace (b : Byte) : Bool :=
  b = 32 ∨ b = 9 ∨ b = 10 ∨ b = 13

/-- What ends a number or a word: white space, a quote, `,`, `:`, `[`, `]`,
`{` and `}`. -/
def isDelimiter (b : Byte) : Bool :=
  isSpace b ∨ b ∈ [34, 44, 58, 91, 93, 123, 125]

def isDigit (b : Byte) : Bool :=
  48 ≤ b ∧ b ≤ 57

def isHex (b : Byte) : Bool :=
  isDigit b ∨ (65 ≤ b ∧ b ≤ 70) ∨ (97 ≤ b ∧ b ≤ 102)

/-- Without the white space around it. -/
def trim (t : Text) : Text :=
  ((t.dropWhile isSpace).reverse.dropWhile isSpace).reverse

/-! ## Dialects -/

/-- Which numbers and words are values, which bytes stand for themselves in a
string, and how deep values nest. -/
structure Dialect where
  scalar : Text → Bool
  plain : Byte → Bool
  depth : ℕ

/-- One dialect knows every scalar and every byte that another does. -/
structure Dialect.Knows (D d : Dialect) : Prop where
  scalar : ∀ t, d.scalar t = true → D.scalar t = true
  plain : ∀ b, d.plain b = true → D.plain b = true

/-- The same, nested deeper or less deep. -/
def Dialect.nested (d : Dialect) (depth : ℕ) : Dialect :=
  { d with depth := depth }

theorem Dialect.nested_knows (d : Dialect) (depth : ℕ) : (d.nested depth).Knows d :=
  ⟨fun _ h => h, fun _ h => h⟩

/-- What a value is in. -/
inductive Frame
  | array
  | object
deriving DecidableEq

/-- What a reader is at: before a value, behind `[` or `{`, before a key or a
colon, behind a value, in a string or an escape of one, which may be a key,
or in a scalar, of which it has read so much. -/
inductive Place
  | value
  | element
  | member
  | key
  | colon
  | done
  | string (key : Bool)
  | escape (key : Bool)
  | hex (key : Bool) (left : ℕ)
  | scalar (read : Text)
deriving DecidableEq

structure Reader where
  place : Place
  frames : List Frame
deriving DecidableEq

/-- At the start of a text. -/
def Reader.first : Reader := ⟨.value, []⟩

/-- What opens it. -/
def Frame.opened (b : Byte) : Option Frame :=
  if b = 91 then some .array else if b = 123 then some .object else none

/-- What closes it. -/
def Frame.close : Frame → Byte
  | .array => 93
  | .object => 125

/-- Behind what opens it. -/
def Frame.inside : Frame → Place
  | .array => .element
  | .object => .member

/-- Behind a comma. -/
def Frame.next : Frame → Place
  | .array => .value
  | .object => .key

/-- What a byte makes a reader do: fail, go on to another place, enter an
array or an object, pass the colon of one's member, or go on behind a value. -/
inductive Turn
  | fail
  | go (place : Place)
  | enter (f : Frame)
  | pair
  | leave
deriving DecidableEq

/-- Behind a value. -/
def after (frames : List Frame) (b : Byte) : Option Reader :=
  if isSpace b then some ⟨.done, frames⟩
  else
    match frames with
    | [] => none
    | f :: outer =>
        if b = 44 then some ⟨f.next, frames⟩
        else if b = f.close then some ⟨.done, outer⟩
        else none

/-- The reader behind the byte, if values nest at most `depth` deep. -/
def Turn.take (depth : ℕ) (frames : List Frame) (b : Byte) : Turn → Option Reader
  | .fail => none
  | .go place => some ⟨place, frames⟩
  | .enter f => if frames.length < depth then some ⟨f.inside, f :: frames⟩ else none
  | .pair => if frames.head? = some .object then some ⟨.value, frames⟩ else none
  | .leave => after frames b

/-- Where a value may start. -/
def start (place : Place) (b : Byte) : Turn :=
  if isSpace b then .go place
  else if b = 34 then .go (.string false)
  else
    match Frame.opened b with
    | some f => .enter f
    | none => if isDelimiter b then .fail else .go (.scalar [b])

namespace Dialect

variable (d : Dialect)

/-- What each byte does at each place. -/
def turn (place : Place) (b : Byte) : Turn :=
  match place with
  | .value => start .value b
  | .element => if b = 93 then .leave else start .element b
  | .member =>
      if isSpace b then .go .member
      else if b = 34 then .go (.string true)
      else if b = 125 then .leave
      else .fail
  | .key => if isSpace b then .go .key else if b = 34 then .go (.string true) else .fail
  | .colon => if isSpace b then .go .colon else if b = 58 then .pair else .fail
  | .done => .leave
  | .string key =>
      if b = 34 then .go (if key then .colon else .done)
      else if b = 92 then .go (.escape key)
      else if d.plain b then .go (.string key)
      else .fail
  | .escape key =>
      if b ∈ [34, 92, 47, 98, 102, 110, 114, 116] then .go (.string key)
      else if b = 117 then .go (.hex key 3)
      else .fail
  | .hex key left =>
      if isHex b then .go (if left = 0 then .string key else .hex key (left - 1)) else .fail
  | .scalar read =>
      if isDelimiter b then if d.scalar read then .leave else .fail
      else .go (.scalar (read ++ [b]))

/-- The reader behind one more byte. -/
def step (r : Reader) (b : Byte) : Option Reader :=
  (d.turn r.place b).take d.depth r.frames b

def run : Reader → Text → Option Reader
  | r, [] => some r
  | r, b :: rest => (d.step r b).bind fun r' => run r' rest

/-- Where a value may end. -/
def ends : Place → Bool
  | .done => true
  | .scalar read => d.scalar read
  | _ => false

/-- Behind a whole text. -/
def complete (r : Reader) : Bool :=
  r.frames.isEmpty && d.ends r.place

/-- A whole text is one value, with white space around it. -/
def accepts (t : Text) : Bool :=
  match d.run Reader.first t with
  | some r => d.complete r
  | none => false

end Dialect

/-! ## Inside other values -/

/-- The same reader inside `outer`. -/
def Reader.under (r : Reader) (outer : List Frame) : Reader :=
  ⟨r.place, r.frames ++ outer⟩

section Under

variable {D d d' : Dialect} {r r' : Reader} {b : Byte} {outer frames : List Frame}

/-- A step behind a value goes on inside `outer`. -/
theorem after_under (h : after frames b = some r') :
    after (frames ++ outer) b = some (r'.under outer) := by
  unfold after at h ⊢
  split at h
  · next hspace =>
      rw [if_pos hspace, ← Option.some.inj h]
      rfl
  · next hspace =>
      rw [if_neg hspace]
      cases frames with
      | nil => cases h
      | cons f frames =>
          simp only [List.cons_append] at h ⊢
          split at h
          · next hcomma =>
              rw [if_pos hcomma, ← Option.some.inj h]
              rfl
          · next hcomma =>
              rw [if_neg hcomma]
              split at h
              · next hclose =>
                  rw [if_pos hclose, ← Option.some.inj h]
                  rfl
              · cases h

theorem take_under {depth depth' : ℕ} (hdepth : depth + outer.length ≤ depth') {turn : Turn}
    (h : turn.take depth frames b = some r') :
    turn.take depth' (frames ++ outer) b = some (r'.under outer) := by
  cases turn with
  | fail => cases h
  | go place =>
      rw [← Option.some.inj h]
      rfl
  | enter f =>
      simp only [Turn.take] at h ⊢
      split at h
      · next hless =>
          have hless' : (frames ++ outer).length < depth' := by
            rw [List.length_append]
            omega
          rw [if_pos hless', ← Option.some.inj h]
          rfl
      · cases h
  | pair =>
      simp only [Turn.take] at h ⊢
      split at h
      · next hhead =>
          have hhead' : (frames ++ outer).head? = some .object := by
            cases frames with
            | nil => cases hhead
            | cons f frames => exact hhead
          rw [if_pos hhead', ← Option.some.inj h]
          rfl
      · cases h
  | leave => exact after_under h

/-- A dialect that knows as much does the same. -/
theorem turn_known (hknows : D.Knows d) {place : Place} (h : d.turn place b ≠ .fail) :
    D.turn place b = d.turn place b := by
  cases place with
  | string key =>
      simp only [Dialect.turn] at h ⊢
      split
      · rfl
      · next hquote =>
          rw [if_neg hquote] at h
          split
          · rfl
          · next hescape =>
              rw [if_neg hescape] at h
              have hplain : d.plain b = true := by
                by_contra hnot
                exact h (if_neg hnot)
              rw [if_pos hplain, if_pos (hknows.plain b hplain)]
  | scalar read =>
      simp only [Dialect.turn] at h ⊢
      split
      · next hdelimiter =>
          rw [if_pos hdelimiter] at h
          have hscalar : d.scalar read = true := by
            by_contra hnot
            exact h (if_neg hnot)
          rw [if_pos hscalar, if_pos (hknows.scalar read hscalar)]
      · rfl
  | _ => rfl

theorem turn_of_step (h : d.step r b = some r') : d.turn r.place b ≠ .fail := by
  intro hfail
  rw [Dialect.step, hfail] at h
  cases h

/-- And takes the same step inside `outer`. -/
theorem step_under (hknows : D.Knows d) (hdepth : d.depth + outer.length ≤ D.depth)
    (h : d.step r b = some r') : D.step (r.under outer) b = some (r'.under outer) := by
  have hturn : D.turn r.place b = d.turn r.place b := turn_known hknows (turn_of_step h)
  show (D.turn r.place b).take D.depth (r.frames ++ outer) b = _
  rw [hturn]
  exact take_under hdepth h

/-- A step that `d` takes inside `outer`, however deep it may nest there, and
that a dialect which knows more takes on its own, `d` takes on its own. -/
theorem step_of_under (hknows : d'.Knows d) (hdepth : d'.depth ≤ d.depth)
    (hturn : d.turn r.place b ≠ .fail) (h : d'.step r b = some r') : d.step r b = some r' := by
  have hsame := turn_known hknows hturn
  rw [Dialect.step, hsame] at h
  have hunder : (d.turn r.place b).take d.depth (r.frames ++ []) b = some (r'.under []) :=
    take_under (by simpa using hdepth) h
  rw [List.append_nil] at hunder
  rw [Dialect.step, hunder, Reader.under, List.append_nil]

end Under

section Runs

variable {D d d' : Dialect} {r r' : Reader} {outer : List Frame}

@[simp] theorem run_nil : d.run r [] = some r := rfl

theorem run_append (s t : Text) : d.run r (s ++ t) = (d.run r s).bind fun r' => d.run r' t := by
  induction s generalizing r with
  | nil => rfl
  | cons b s ih =>
      rw [List.cons_append, Dialect.run, Dialect.run, Option.bind_assoc]
      exact congrArg _ (funext fun r' => ih)

/-- What a dialect reads, one that knows as much reads inside `outer`. -/
theorem run_under (hknows : D.Knows d) (hdepth : d.depth + outer.length ≤ D.depth) (t : Text)
    (h : d.run r t = some r') : D.run (r.under outer) t = some (r'.under outer) := by
  induction t generalizing r with
  | nil =>
      rw [← Option.some.inj h]
      rfl
  | cons b t ih =>
      rw [Dialect.run, Option.bind_eq_some_iff] at h
      obtain ⟨r₁, hstep, hrest⟩ := h
      rw [Dialect.run, step_under hknows hdepth hstep, Option.bind_some]
      exact ih hrest

end Runs

/-! ## The parts of an array or object -/

namespace Dialect

variable (d : Dialect)

/-- A byte that ends a part of the outermost array or object: a key, an
element or a member's value. -/
def separates (r : Reader) (b : Byte) : Bool :=
  decide (r.frames.length = 1) &&
    (decide (d.turn r.place b = .pair) || (decide (d.turn r.place b = .leave) && !isSpace b))

/-- The parts of the outermost array or object of what is left of a text,
`part` being read of the first. -/
def split : Reader → Text → Text → Option (List Text)
  | r, _, [] => if d.complete r then some [] else none
  | r, part, b :: rest =>
      (d.step r b).bind fun r' =>
        if d.separates r b then (split r' [] rest).map fun parts => trim part :: parts
        else split r' (if r.frames = [] then [] else part ++ [b]) rest

/-- The elements of an array; an empty one has one empty part. -/
def elements (t : Text) : Option (List Text) :=
  if (t.dropWhile isSpace).head? = some 91 then
    (d.split Reader.first [] t).map fun parts => parts.filter (· ≠ [])
  else none

end Dialect

/-- Keys and values in turn. -/
def pairs : List Text → List (Text × Text)
  | key :: value :: rest => (key, value) :: pairs rest
  | _ => []

/-- The members of an object: its keys and values as they stand. -/
def Dialect.members (d : Dialect) (t : Text) : Option (List (Text × Text)) :=
  if (t.dropWhile isSpace).head? = some 123 then (d.split Reader.first [] t).map pairs else none

section Split

variable {D d d' : Dialect} {r r' : Reader} {b : Byte} {f : Frame} {part : Text}

/-- A value that is read on its own ends no part of what it is in. -/
theorem not_separates_under (hknows : D.Knows d) (h : d.step r b = some r') :
    D.separates (r.under [f]) b = false := by
  have hturn : D.turn (r.under [f]).place b = d.turn r.place b :=
    turn_known hknows (turn_of_step (r := r) h)
  cases hframes : r.frames with
  | nil =>
      rw [Dialect.step, hframes] at h
      rw [Dialect.separates, hturn]
      cases hd : d.turn r.place b with
      | pair =>
          rw [hd] at h
          cases h
      | leave =>
          have hspace : isSpace b = true := by
            by_contra hnot
            rw [hd, Turn.take, after, if_neg hnot] at h
            cases h
          simp [hspace]
      | _ => simp
  | cons g frames =>
      have hlength : ¬(r.under [f]).frames.length = 1 := by
        rw [Reader.under, hframes, List.length_append, List.length_cons, List.length_singleton]
        omega
      rw [Dialect.separates, decide_eq_false hlength, Bool.false_and]

/-- What a dialect reads on its own is, inside an array or an object, all of
one part, for any dialect that knows as much. -/
theorem split_under (hknows : D.Knows d) (hdepth : d.depth + 1 ≤ D.depth) (t rest : Text)
    (h : d.run r t = some r') :
    D.split (r.under [f]) part (t ++ rest) = D.split (r'.under [f]) (part ++ t) rest := by
  induction t generalizing r part with
  | nil =>
      rw [← Option.some.inj h, List.append_nil]
      rfl
  | cons b t ih =>
      rw [Dialect.run, Option.bind_eq_some_iff] at h
      obtain ⟨r₁, hstep, hrest⟩ := h
      have hinside : ¬(r.under [f]).frames = [] := List.append_ne_nil_of_right_ne_nil _ (by simp)
      have hunder : D.step (r.under [f]) b = some (r₁.under [f]) :=
        step_under hknows hdepth hstep
      have hpart := not_separates_under (f := f) hknows hstep
      rw [List.cons_append, Dialect.split, hunder, Option.bind_some, hpart, if_neg hinside,
        if_neg (by simp), ih hrest, List.append_assoc]
      rfl

/-- What a dialect gets through inside an array or an object, and one that
knows more reads on its own, it reads on its own, nested no deeper. -/
theorem run_of_split (hknows : d'.Knows d) (hdepth : d'.depth ≤ d.depth) {n : ℕ}
    (hn : d'.depth + 1 ≤ n) (t rest : Text) (h : d'.run r t = some r')
    (hsplit : ((d.nested n).split (r.under [f]) part (t ++ rest)).isSome = true) :
    d.run r t = some r' := by
  induction t generalizing r part with
  | nil => exact h
  | cons b t ih =>
      rw [Dialect.run, Option.bind_eq_some_iff] at h
      obtain ⟨r₁, hstep, hrest⟩ := h
      have hturn : d.turn r.place b ≠ .fail := by
        intro hfail
        have hnone : (d.nested n).step (r.under [f]) b = none := by
          show (d.turn r.place b).take n (r.frames ++ [f]) b = none
          rw [hfail]
          rfl
        rw [List.cons_append, Dialect.split, hnone] at hsplit
        cases hsplit
      have hunder : (d.nested n).step (r.under [f]) b = some (r₁.under [f]) := by
        have htake : (d.turn r.place b).take d'.depth r.frames b = some r₁ := by
          rw [← turn_known hknows hturn]
          exact hstep
        show (d.turn r.place b).take n (r.frames ++ [f]) b = _
        exact take_under hn htake
      rw [Dialect.run, step_of_under hknows hdepth hturn hstep, Option.bind_some]
      rw [List.cons_append, Dialect.split, hunder, Option.bind_some] at hsplit
      split at hsplit
      · rw [Option.isSome_map] at hsplit
        exact ih hrest hsplit
      · exact ih hrest hsplit

theorem accepts_iff {t : Text} :
    d.accepts t = true ↔ ∃ r, d.run Reader.first t = some r ∧ d.complete r = true := by
  rw [Dialect.accepts]
  cases d.run Reader.first t with
  | none => simp
  | some r => simp

theorem complete_iff :
    d.complete r = true ↔
      r = ⟨.done, []⟩ ∨ ∃ read, r = ⟨.scalar read, []⟩ ∧ d.scalar read = true := by
  obtain ⟨place, frames⟩ := r
  cases frames <;> cases place <;> simp [Dialect.complete, Dialect.ends]

theorem Dialect.Knows.complete (hknows : D.Knows d) (h : d.complete r = true) :
    D.complete r = true := by
  obtain rfl | ⟨read, rfl, hread⟩ := complete_iff.mp h
  · rfl
  · exact complete_iff.mpr (Or.inr ⟨read, rfl, hknows.scalar read hread⟩)

/-- Nesting deeper allowed, a text stays one value. -/
theorem accepts_mono (hknows : D.Knows d) (hdepth : d.depth ≤ D.depth) {t : Text}
    (h : d.accepts t = true) : D.accepts t = true := by
  obtain ⟨r, hrun, hr⟩ := accepts_iff.mp h
  have hunder : D.run (Reader.first.under []) t = some (r.under []) :=
    run_under hknows (by simpa using hdepth) t hrun
  simp only [Reader.under, List.append_nil] at hunder
  exact accepts_iff.mpr ⟨r, hunder, hknows.complete hr⟩

/-- What splits is one value. -/
theorem accepts_of_split {t : Text} (h : (d.split r part t).isSome = true) :
    ∃ r', d.run r t = some r' ∧ d.complete r' = true := by
  induction t generalizing r part with
  | nil =>
      refine ⟨r, rfl, ?_⟩
      rw [Dialect.split] at h
      by_contra hnot
      rw [if_neg hnot] at h
      cases h
  | cons b t ih =>
      rw [Dialect.split, Option.isSome_bind] at h
      cases hstep : d.step r b with
      | none =>
          rw [hstep] at h
          cases h
      | some r₁ =>
          rw [hstep, Option.any_some] at h
          rw [Dialect.run, hstep, Option.bind_some]
          split at h
          · rw [Option.isSome_map] at h
            exact ih h
          · exact ih h

/-- Behind a comma or the byte that closes `f`. -/
def Frame.behind (f : Frame) (b : Byte) : Reader :=
  if b = 44 then ⟨f.next, [f]⟩ else ⟨.done, []⟩

theorem after_single (hb : b = 44 ∨ b = f.close) : after [f] b = some (f.behind b) := by
  obtain rfl | rfl := hb
  · rfl
  · cases f <;> rfl

/-- A part ends behind a value. -/
theorem split_end (hknows : D.Knows d) (hr : d.complete r = true) (hb : b = 44 ∨ b = f.close)
    (rest : Text) :
    D.split (r.under [f]) part (b :: rest) =
      (D.split (f.behind b) [] rest).map fun parts => trim part :: parts := by
  have hspace : isSpace b = false := by
    obtain rfl | rfl := hb
    · rfl
    · cases f <;> rfl
  have hdelimiter : isDelimiter b = true := by
    obtain rfl | rfl := hb
    · rfl
    · cases f <;> rfl
  obtain ⟨hframes, hturn⟩ : (r.under [f]).frames = [f] ∧
      D.turn (r.under [f]).place b = .leave := by
    obtain rfl | ⟨read, rfl, hread⟩ := complete_iff.mp hr
    · exact ⟨rfl, rfl⟩
    · refine ⟨rfl, ?_⟩
      simp only [Reader.under, Dialect.turn]
      rw [if_pos hdelimiter, if_pos (hknows.scalar read hread)]
  have hsep : D.separates (r.under [f]) b = true := by
    simp [Dialect.separates, hframes, hturn, hspace]
  rw [Dialect.split, Dialect.step, hturn, hframes, Turn.take, after_single hb, Option.bind_some,
    if_pos hsep]

/-- A value in an array, or the value of a member. -/
theorem split_value (hknows : D.Knows d) (hdepth : d.depth + 1 ≤ D.depth) {t : Text}
    (ht : d.accepts t = true) (hb : b = 44 ∨ b = f.close) (rest : Text) :
    D.split ⟨.value, [f]⟩ [] (t ++ b :: rest) =
      (D.split (f.behind b) [] rest).map fun parts => trim t :: parts := by
  obtain ⟨r, hrun, hr⟩ := accepts_iff.mp ht
  have hsplit : D.split (Reader.first.under [f]) [] (t ++ b :: rest) =
      D.split (r.under [f]) ([] ++ t) (b :: rest) :=
    split_under hknows hdepth t (b :: rest) hrun
  rw [List.nil_append] at hsplit
  exact hsplit.trans (split_end hknows hr hb rest)

/-- Something there that a dialect which knows more takes for a value, and
this one does not. -/
theorem split_no_value (hknows : d'.Knows d) (hdepth : d'.depth ≤ d.depth) {n : ℕ}
    (hn : d.depth + 1 ≤ n) {t : Text} (ht : d'.accepts t = true) (hnot : d.accepts t = false)
    (hb : isDelimiter b = true) (rest : Text) :
    (d.nested n).split ⟨.value, [f]⟩ part (t ++ b :: rest) = none := by
  obtain ⟨r, hrun', hr⟩ := accepts_iff.mp ht
  by_contra hsome
  have hsplit : ((d.nested n).split (Reader.first.under [f]) part (t ++ b :: rest)).isSome = true :=
    Option.isSome_iff_ne_none.mpr hsome
  have hrun := run_of_split hknows hdepth (by omega) t _ hrun' hsplit
  rw [split_under (d.nested_knows n) hn t _ hrun] at hsplit
  refine absurd (accepts_iff.mpr ⟨r, hrun, ?_⟩) (by simp [hnot])
  obtain rfl | ⟨read, rfl, -⟩ := complete_iff.mp hr
  · rfl
  · refine complete_iff.mpr (Or.inr ⟨read, rfl, ?_⟩)
    by_contra hread
    have hfail : d.turn (.scalar read) b = .fail := by
      simp only [Dialect.turn]
      rw [if_pos hb, if_neg hread]
    have hnone : (d.nested n).step (Reader.under ⟨.scalar read, []⟩ [f]) b = none := by
      show (d.turn (.scalar read) b).take n [f] b = none
      rw [hfail]
      rfl
    rw [Dialect.split, hnone] at hsplit
    cases hsplit

end Split

end Json
