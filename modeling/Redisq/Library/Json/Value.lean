import Mathlib.Data.List.Basic
import Redisq.Library.Json.Reader
import Redisq.Library.Utf8

/-!
# The values of RFC 8259

Strings, with their escapes, numbers and the dialect they make (`rfc`).  An
object put together from keys and values is read as just these members
(`members_object`); with a value among them that only a dialect which knows
more takes for one, it is no object (`members_none`).
-/

namespace Json

/-! ## Strings -/

/-- What a string is made of: bytes, and code units that were escaped. -/
inductive Piece
  | byte (b : Byte)
  | code (unit : ℕ)
deriving DecidableEq

/-- The value of a hex digit. -/
def hexValue (b : Byte) : ℕ :=
  if b ≤ 57 then b.val - 48 else if b ≤ 70 then b.val - 55 else b.val - 87

/-- What the short escapes stand for. -/
def escaped (c : Byte) : Option Byte :=
  if c = 98 then some 8
  else if c = 102 then some 12
  else if c = 110 then some 10
  else if c = 114 then some 13
  else if c = 116 then some 9
  else if c ∈ [34, 92, 47] then some c
  else none

/-- The pieces up to the closing quote, which is the last byte. -/
def pieces : Text → Option (List Piece)
  | [] => none
  | b :: rest =>
      if b = 34 then if rest = [] then some [] else none
      else if b = 92 then
        match rest with
        | [] => none
        | c :: rest =>
            if c = 117 then
              match rest with
              | h₁ :: h₂ :: h₃ :: h₄ :: rest =>
                  if isHex h₁ ∧ isHex h₂ ∧ isHex h₃ ∧ isHex h₄ then
                    (pieces rest).map fun ps =>
                      .code (((hexValue h₁ * 16 + hexValue h₂) * 16 + hexValue h₃) * 16 +
                        hexValue h₄) :: ps
                  else none
              | _ => none
            else (escaped c).bind fun x => (pieces rest).map fun ps => .byte x :: ps
      else if 32 ≤ b then (pieces rest).map fun ps => .byte b :: ps
      else none

/-- A code unit on its own: half of a pair is no character. -/
def single (u : ℕ) : Text :=
  Utf8.encode (if Utf8.IsSurrogate u then 65533 else u)

/-- What pieces spell. -/
def spell : List Piece → Text
  | [] => []
  | .byte b :: rest => b :: spell rest
  | .code u :: .code v :: rest =>
      if (55296 ≤ u ∧ u < 56320) ∧ (56320 ≤ v ∧ v < 57344) then
        Utf8.encode (65536 + (u - 55296) * 1024 + (v - 56320)) ++ spell rest
      else single u ++ spell (.code v :: rest)
  | .code u :: rest => single u ++ spell rest

/-- The value of a string in quotes. -/
def unquote (t : Text) : Option Text :=
  if t.head? = some 34 then (pieces t.tail).map fun ps => Utf8.repair 0 (spell ps) else none

theorem eq_quoted_of_unquote {t s : Text} (h : unquote t = some s) :
    ∃ body ps, t = 34 :: body ∧ pieces body = some ps := by
  unfold unquote at h
  split at h
  · next hquote =>
      cases t with
      | nil => cases hquote
      | cons b body =>
          obtain ⟨ps, hps, -⟩ := Option.map_eq_some_iff.mp h
          exact ⟨body, ps, by rw [Option.some.inj hquote], hps⟩
  · cases h

/-! ## Numbers -/

/-- The digits of an exponent. -/
def isExponent (t : Text) : Bool :=
  let digits := if t.head? = some 43 ∨ t.head? = some 45 then t.tail else t
  digits ≠ [] ∧ digits.all isDigit

/-- What may follow the digits of a fraction, or of a whole number. -/
def isTail (t : Text) : Bool :=
  t = [] ∨ ((t.head? = some 101 ∨ t.head? = some 69) ∧ isExponent t.tail)

/-- What may follow the whole part of a number. -/
def isFraction (t : Text) : Bool :=
  if t.head? = some 46 then
    t.tail.takeWhile isDigit ≠ [] ∧ isTail (t.tail.dropWhile isDigit)
  else isTail t

/-- A number of RFC 8259. -/
def isNumber (t : Text) : Bool :=
  let t := if t.head? = some 45 then t.tail else t
  let whole := t.takeWhile isDigit
  (whole = [48] ∨ (whole ≠ [] ∧ whole.head? ≠ some 48)) ∧ isFraction (t.dropWhile isDigit)

/-- The words. -/
def isWord (t : Text) : Bool :=
  t = [116, 114, 117, 101] ∨ t = [102, 97, 108, 115, 101] ∨ t = [110, 117, 108, 108]

/-- The JSON of RFC 8259, nested at most `depth` deep. -/
def rfc (depth : ℕ) : Dialect where
  scalar t := isWord t || isNumber t
  plain b := 32 ≤ b
  depth := depth

/-- The value of digits. -/
def digitsValue (t : Text) : Option ℕ :=
  if t ≠ [] ∧ t.all isDigit then some (t.foldl (fun n b => 10 * n + (b.val - 48)) 0) else none

/-- The value of a whole number. -/
def integer (t : Text) : Option ℤ :=
  if t.head? = some 45 then (digitsValue t.tail).map fun n => -(n : ℤ)
  else (digitsValue t).map fun n => (n : ℤ)

/-! ## Writing strings -/

/-- A hex digit. -/
def hexDigit (n : ℕ) : Byte :=
  Fin.ofNat 256 (if n < 10 then 48 + n else 87 + n)

/-- The short escape of a byte that has one. -/
def shortEscape (b : Byte) : Option Byte :=
  if b = 8 then some 98
  else if b = 12 then some 102
  else if b = 10 then some 110
  else if b = 13 then some 114
  else if b = 9 then some 116
  else if b ∈ [34, 92, 47] then some b
  else none

/-- A byte of a string: quotes, backslashes, slashes and control characters
escaped. -/
def escape (b : Byte) : Text :=
  match shortEscape b with
  | some c => [92, c]
  | none =>
      if b.val < 32 ∨ b = 127 then
        [92, 117, 48, 48, hexDigit (b.val / 16), hexDigit (b.val % 16)]
      else [b]

/-- A text as a string in quotes. -/
def quote (t : Text) : Text :=
  34 :: (t.flatMap escape ++ [34])

/-- The piece a byte is read back as. -/
def Piece.of (b : Byte) : Piece :=
  if shortEscape b = none ∧ (b.val < 32 ∨ b = 127) then .code b.val else .byte b

theorem escaped_short {b c : Byte} (h : shortEscape b = some c) :
    c ≠ 117 ∧ escaped c = some b := by
  have hall : ∀ b, (shortEscape b).all (fun c => c ≠ 117 ∧ escaped c = some b) = true := by
    decide +kernel
  have hb := hall b
  rw [h] at hb
  exact of_decide_eq_true hb

theorem short_of_special {b : Byte} (h : b = 34 ∨ b = 92) : shortEscape b ≠ none := by
  obtain rfl | rfl := h <;> decide

/-- Two hex digits write a byte. -/
theorem hexValue_digits (b : Byte) :
    (isHex (hexDigit (b.val / 16)) = true ∧ isHex (hexDigit (b.val % 16)) = true) ∧
      hexValue (hexDigit (b.val / 16)) * 16 + hexValue (hexDigit (b.val % 16)) = b.val := by
  revert b
  decide +kernel

theorem pieces_plain {b : Byte} (hquote : b ≠ 34) (hescape : b ≠ 92) (hb : 32 ≤ b) (rest : Text) :
    pieces (b :: rest) = (pieces rest).map fun ps => .byte b :: ps := by
  rw [pieces.eq_def]
  simp only [if_neg hquote, if_neg hescape, if_pos hb]

theorem pieces_escaped {c x : Byte} (hc : c ≠ 117) (hx : escaped c = some x) (rest : Text) :
    pieces (92 :: c :: rest) = (pieces rest).map fun ps => .byte x :: ps := by
  have hquote : (92 : Byte) ≠ 34 := by decide
  rw [pieces.eq_def]
  simp only [if_neg hquote, if_true, if_neg hc, hx, Option.bind_some]

theorem pieces_code {h₁ h₂ : Byte} (h : isHex h₁ = true ∧ isHex h₂ = true) (rest : Text) :
    pieces (92 :: 117 :: 48 :: 48 :: h₁ :: h₂ :: rest) =
      (pieces rest).map fun ps => .code (hexValue h₁ * 16 + hexValue h₂) :: ps := by
  have hquote : (92 : Byte) ≠ 34 := by decide
  have hzero : isHex 48 = true ∧ hexValue 48 = 0 := ⟨rfl, rfl⟩
  rw [pieces.eq_def]
  simp only [if_neg hquote, if_true, hzero, h, and_self, Nat.zero_mul, Nat.zero_add]

/-- A byte that is written is read back. -/
theorem pieces_escape (b : Byte) (rest : Text) :
    pieces (escape b ++ rest) = (pieces rest).map fun ps => .of b :: ps := by
  cases hshort : shortEscape b with
  | some c =>
      obtain ⟨hc, hb⟩ := escaped_short hshort
      have hof : Piece.of b = .byte b := by simp [Piece.of, hshort]
      simp only [escape, hshort, hof]
      exact pieces_escaped hc hb rest
  | none =>
      simp only [escape, hshort]
      split
      · next hcontrol =>
          obtain ⟨hhex, hvalue⟩ := hexValue_digits b
          have hof : Piece.of b = .code b.val := if_pos ⟨hshort, hcontrol⟩
          have hcode := pieces_code hhex rest
          rw [hvalue] at hcode
          rw [hof]
          exact hcode
      · next hcontrol =>
          have hof : Piece.of b = .byte b := if_neg fun h => hcontrol h.2
          have hquote : b ≠ 34 := fun h => short_of_special (Or.inl h) hshort
          have hescape : b ≠ 92 := fun h => short_of_special (Or.inr h) hshort
          have hb : 32 ≤ b := by
            rw [Fin.le_def]
            show 32 ≤ b.val
            omega
          rw [hof]
          exact pieces_plain hquote hescape hb rest

theorem pieces_flatMap (t : Text) : pieces (t.flatMap escape ++ [34]) = some (t.map .of) := by
  induction t with
  | nil => rfl
  | cons b t ih =>
      rw [List.flatMap_cons, List.append_assoc, pieces_escape, ih]
      rfl

/-- An escaped ASCII character is that character. -/
theorem spell_code {u : ℕ} (hu : u < 128) (ps : List Piece) :
    spell (.code u :: ps) = Fin.ofNat 256 u :: spell ps := by
  have hsurrogate : ¬Utf8.IsSurrogate u := fun h => by
    have := h.1
    omega
  have hsingle : single u = [Fin.ofNat 256 u] := by
    rw [single, if_neg hsurrogate, Utf8.encode, if_pos hu]
  cases ps with
  | nil =>
      show single u ++ [] = _
      rw [hsingle]
      rfl
  | cons p ps =>
      cases p with
      | byte b =>
          show single u ++ spell (.byte b :: ps) = _
          rw [hsingle]
          rfl
      | code v =>
          rw [spell, if_neg (by omega), hsingle]
          rfl

theorem spell_of (t : Text) : spell (t.map .of) = t := by
  induction t with
  | nil => rfl
  | cons b t ih =>
      rw [List.map_cons, Piece.of.eq_def b]
      split
      · next h =>
          have hu : b.val < 128 := by
            obtain hlow | rfl := h.2
            · omega
            · decide
          rw [spell_code hu, ih]
          exact congrArg (fun x => x :: t) (Fin.ext (Utf8.ofNat_val b.isLt))
      · exact congrArg _ ih

/-- What is written as a string is read back, if it is UTF-8. -/
theorem unquote_quote {t : Text} (h : Utf8.IsUtf8 t) : unquote (quote t) = some t := by
  show (pieces (t.flatMap escape ++ [34])).map (fun ps => Utf8.repair 0 (spell ps)) = some t
  rw [pieces_flatMap, Option.map_some, spell_of, Utf8.repair_of_isUtf8 h]

section Values

variable {d : Dialect}

theorem run_cons (r : Reader) (b : Byte) (t : Text) :
    d.run r (b :: t) = (d.step r b).bind fun r' => d.run r' t := rfl

theorem run_hex {key : Bool} {left : ℕ} {b : Byte} (hb : isHex b = true) (t : Text) :
    d.run ⟨.hex key left, []⟩ (b :: t) =
      d.run ⟨if left = 0 then .string key else .hex key (left - 1), []⟩ t := by
  simp only [run_cons, Dialect.step, Dialect.turn, hb, if_true, Turn.take, Option.bind_some]

theorem escaped_mem {c x : Byte} (h : escaped c = some x) :
    c ∈ [34, 92, 47, 98, 102, 110, 114, 116] := by
  by_contra hnot
  simp only [List.mem_cons, List.not_mem_nil, or_false, not_or] at hnot
  obtain ⟨h34, h92, h47, h98, h102, h110, h114, h116⟩ := hnot
  simp [escaped, h34, h92, h47, h98, h102, h110, h114, h116] at h

/-- A string is read to its closing quote. -/
theorem run_pieces (hplain : ∀ b, 32 ≤ b → d.plain b = true) (key : Bool) (t : Text) :
    ∀ ps, pieces t = some ps →
      d.run ⟨.string key, []⟩ t = some ⟨if key then .colon else .done, []⟩ := by
  fun_induction pieces t with
  | case2 => exact fun _ _ => rfl
  | case5 h₁ h₂ h₃ h₄ rest hhex _ ih =>
      intro ps hps
      obtain ⟨ps', hps', -⟩ := Option.map_eq_some_iff.mp hps
      calc
        d.run ⟨.hex key 3, []⟩ (h₁ :: h₂ :: h₃ :: h₄ :: rest)
        _ = d.run ⟨.hex key 2, []⟩ (h₂ :: h₃ :: h₄ :: rest) := run_hex hhex.1 _
        _ = d.run ⟨.hex key 1, []⟩ (h₃ :: h₄ :: rest) := run_hex hhex.2.1 _
        _ = d.run ⟨.hex key 0, []⟩ (h₄ :: rest) := run_hex hhex.2.2.1 _
        _ = d.run ⟨.string key, []⟩ rest := run_hex hhex.2.2.2 _
        _ = some ⟨if key then .colon else .done, []⟩ := ih ps' hps'
  | case8 c rest hc _ ih =>
      intro ps hps
      obtain ⟨x, hx, hps⟩ := Option.bind_eq_some_iff.mp hps
      obtain ⟨ps', hps', -⟩ := Option.map_eq_some_iff.mp hps
      show d.run ⟨.escape key, []⟩ (c :: rest) = _
      simp only [run_cons, Dialect.step, Dialect.turn, escaped_mem hx, if_true, Turn.take,
        Option.bind_some]
      exact ih ps' hps'
  | case9 b rest hquote hescape hb ih =>
      intro ps hps
      obtain ⟨ps', hps', -⟩ := Option.map_eq_some_iff.mp hps
      simp only [run_cons, Dialect.step, Dialect.turn, hquote, hescape, hplain b hb, if_true,
        if_false, Turn.take, Option.bind_some]
      exact ih ps' hps'
  | _ =>
      intro ps hps
      cases hps

/-- A string in quotes is one value. -/
theorem accepts_of_unquote {t s : Text} (h : unquote t = some s) (n : ℕ) :
    (rfc n).accepts t = true := by
  obtain ⟨body, ps, rfl, hps⟩ := eq_quoted_of_unquote h
  have hrun := run_pieces (d := rfc n) (fun b hb => decide_eq_true hb) false body ps hps
  exact accepts_iff.mpr ⟨_, hrun, rfl⟩

/-- A number or a word is read to its end. -/
theorem run_scalar (t : Text) :
    ∀ read, (∀ b ∈ t, isDelimiter b = false) →
      d.run ⟨.scalar read, []⟩ t = some ⟨.scalar (read ++ t), []⟩ := by
  induction t with
  | nil =>
      intro read _
      rw [List.append_nil]
      rfl
  | cons b t ih =>
      intro read h
      have hb := h b List.mem_cons_self
      simp only [run_cons, Dialect.step, Dialect.turn, hb, Bool.false_eq_true, if_false, Turn.take,
        Option.bind_some]
      rw [ih _ fun b' hb' => h b' (List.mem_cons_of_mem b hb'), List.append_assoc]
      rfl

theorem start_scalar {place : Place} {b : Byte} (hb : isDelimiter b = false) :
    start place b = .go (.scalar [b]) := by
  have hspace : isSpace b = false := by
    by_contra hnot
    simp [isDelimiter, hnot] at hb
  have hmem : b ∉ [34, 44, 58, 91, 93, 123, 125] := by
    intro hmem
    simp [isDelimiter, hmem] at hb
  simp only [List.mem_cons, List.not_mem_nil, or_false, not_or] at hmem
  simp [start, hspace, hb, hmem, Frame.opened]

/-- A number or a word is a value if the dialect knows it. -/
theorem accepts_of_scalar {t : Text} (hnil : t ≠ []) (h : ∀ b ∈ t, isDelimiter b = false)
    (hscalar : d.scalar t = true) : d.accepts t = true := by
  cases t with
  | nil => exact absurd rfl hnil
  | cons b t =>
      have hcomplete : d.complete ⟨.scalar (b :: t), []⟩ = true :=
        complete_iff.mpr (Or.inr ⟨b :: t, rfl, hscalar⟩)
      refine accepts_iff.mpr ⟨⟨.scalar (b :: t), []⟩, ?_, hcomplete⟩
      have hrest := run_scalar (d := d) t [b] fun b' hb' => h b' (List.mem_cons_of_mem b hb')
      rw [run_cons, Dialect.step]
      show ((start .value b).take d.depth [] b).bind _ = _
      rw [start_scalar (h b List.mem_cons_self)]
      exact hrest

end Values

/-! ## White space around values -/

section Trim

theorem dropWhile_of_head {t : Text} (h : ∀ b ∈ t.head?, isSpace b = false) :
    t.dropWhile isSpace = t := by
  cases t with
  | nil => rfl
  | cons b t => exact List.dropWhile_cons_of_neg (by simp [h b rfl])

theorem trim_eq_self {t : Text} (hfirst : ∀ b ∈ t.head?, isSpace b = false)
    (hlast : ∀ b ∈ t.getLast?, isSpace b = false) : trim t = t := by
  have hreverse : ∀ b ∈ t.reverse.head?, isSpace b = false := by
    rw [List.head?_reverse]
    exact hlast
  rw [trim, dropWhile_of_head hfirst, dropWhile_of_head hreverse, List.reverse_reverse]

/-- In brackets, say. -/
theorem trim_closed {b c : Byte} (hb : isSpace b = false) (hc : isSpace c = false) (t : Text) :
    trim (b :: (t ++ [c])) = b :: (t ++ [c]) := by
  refine trim_eq_self (fun x hx => ?_) fun x hx => ?_
  · rw [← Option.some.inj hx]
    exact hb
  · rw [← List.cons_append, List.getLast?_concat] at hx
    rw [← Option.some.inj hx]
    exact hc

/-- A string ends with its closing quote. -/
theorem getLast_pieces (t : Text) : ∀ ps, pieces t = some ps → t.getLast? = some 34 := by
  fun_induction pieces t with
  | case2 => exact fun _ _ => rfl
  | case5 h₁ h₂ h₃ h₄ rest _ _ ih =>
      intro ps hps
      obtain ⟨ps', hps', -⟩ := Option.map_eq_some_iff.mp hps
      have hlast := ih ps' hps'
      cases rest with
      | nil => cases hlast
      | cons b rest => simpa only [List.getLast?_cons_cons] using hlast
  | case8 c rest _ _ ih =>
      intro ps hps
      obtain ⟨x, -, hps⟩ := Option.bind_eq_some_iff.mp hps
      obtain ⟨ps', hps', -⟩ := Option.map_eq_some_iff.mp hps
      have hlast := ih ps' hps'
      cases rest with
      | nil => cases hlast
      | cons b rest => simpa only [List.getLast?_cons_cons] using hlast
  | case9 b rest _ _ _ ih =>
      intro ps hps
      obtain ⟨ps', hps', -⟩ := Option.map_eq_some_iff.mp hps
      have hlast := ih ps' hps'
      cases rest with
      | nil => cases hlast
      | cons b rest => simpa only [List.getLast?_cons_cons] using hlast
  | _ =>
      intro ps hps
      cases hps

theorem trim_of_unquote {t s : Text} (h : unquote t = some s) : trim t = t := by
  obtain ⟨body, ps, rfl, hps⟩ := eq_quoted_of_unquote h
  have hlast := getLast_pieces body ps hps
  refine trim_eq_self (fun b hb => ?_) fun b hb => ?_
  · rw [← Option.some.inj hb]
    rfl
  · cases body with
    | nil => cases hlast
    | cons c body =>
        rw [List.getLast?_cons_cons, hlast] at hb
        rw [← Option.some.inj hb]
        rfl

end Trim

/-! ## Digits -/

section Digits

theorem not_delimiter_of_digit {b : Byte} (h : isDigit b = true) : isDelimiter b = false := by
  by_contra hnot
  simp only [Bool.not_eq_false, isDelimiter, isSpace, decide_eq_true_eq, List.mem_cons,
    List.not_mem_nil, or_false] at hnot
  obtain (rfl | rfl | rfl | rfl) | rfl | rfl | rfl | rfl | rfl | rfl | rfl := hnot <;> cases h

variable {t : Text}

/-- Digits without a leading zero are a number. -/
theorem isNumber_of_digits (hall : t.all isDigit = true) (hnil : t ≠ [])
    (hzero : t = [48] ∨ t.head? ≠ some 48) : isNumber t = true := by
  have hsign : t.head? ≠ some 45 := by
    cases t with
    | nil => exact absurd rfl hnil
    | cons b t =>
        intro heq
        rw [Option.some.inj heq] at hall
        simp [isDigit] at hall
  have hwhole : t.takeWhile isDigit = t :=
    List.takeWhile_eq_self_iff.mpr fun b hb => List.all_eq_true.mp hall b hb
  have hrest : t.dropWhile isDigit = [] :=
    List.dropWhile_eq_nil_iff.mpr fun b hb => List.all_eq_true.mp hall b hb
  simp only [isNumber, if_neg hsign, hwhole, hrest]
  have hfraction : isFraction [] = true := rfl
  simp only [hfraction, and_true, decide_eq_true_eq]
  exact hzero.imp_right fun h => ⟨hnil, h⟩

theorem accepts_of_digits (hall : t.all isDigit = true) (hnil : t ≠ [])
    (hzero : t = [48] ∨ t.head? ≠ some 48) (n : ℕ) : (rfc n).accepts t = true := by
  refine accepts_of_scalar hnil (fun b hb => ?_) ?_
  · exact not_delimiter_of_digit (List.all_eq_true.mp hall b hb)
  · simp only [rfc, isNumber_of_digits hall hnil hzero, Bool.or_true]

theorem trim_of_digits (hall : t.all isDigit = true) : trim t = t := by
  have hspace : ∀ b ∈ t, isSpace b = false := fun b hb => by
    have hdelimiter := not_delimiter_of_digit (List.all_eq_true.mp hall b hb)
    by_contra hnot
    simp [isDelimiter, hnot] at hdelimiter
  exact trim_eq_self (fun b hb => hspace b (List.mem_of_mem_head? hb))
    fun b hb => hspace b (List.mem_of_mem_getLast? hb)

end Digits

/-! ## Bare numbers and words -/

section Bare

variable {d : Dialect} {t lead trail : Text}

theorem exists_padding (t : Text) :
    ∃ lead trail, t = lead ++ (trim t ++ trail) ∧ lead.all isSpace = true ∧
      trail.all isSpace = true := by
  refine ⟨t.takeWhile isSpace, ((t.dropWhile isSpace).reverse.takeWhile isSpace).reverse,
    ?_, List.all_takeWhile, ?_⟩
  · have hinner := congrArg List.reverse
      (List.takeWhile_append_dropWhile (p := isSpace) (l := (t.dropWhile isSpace).reverse))
    rw [List.reverse_append, List.reverse_reverse] at hinner
    rw [trim, hinner, List.takeWhile_append_dropWhile]
  · rw [List.all_reverse]
    exact List.all_takeWhile

theorem run_lead (hlead : lead.all isSpace = true) (t : Text) :
    d.run Reader.first (lead ++ t) = d.run Reader.first t := by
  induction lead with
  | nil => rfl
  | cons b lead ih =>
      rw [List.all_cons, Bool.and_eq_true] at hlead
      have hstep : d.step Reader.first b = some Reader.first := by
        show (start .value b).take d.depth [] b = _
        rw [start, if_pos hlead.1]
        rfl
      rw [List.cons_append, run_cons, hstep, Option.bind_some]
      exact ih hlead.2

/-- Alone in a text, a number or a word is a value only if the dialect knows
it. -/
theorem scalar_of_accepts (hlead : lead.all isSpace = true) (htrail : trail.all isSpace = true)
    (hnil : t ≠ []) (ht : ∀ b ∈ t, isDelimiter b = false)
    (h : d.accepts (lead ++ (t ++ trail)) = true) : d.scalar t = true := by
  obtain ⟨r, hrun, hr⟩ := accepts_iff.mp h
  cases t with
  | nil => exact absurd rfl hnil
  | cons b t =>
      have hfirst : d.step Reader.first b = some ⟨.scalar [b], []⟩ := by
        show (start .value b).take d.depth [] b = _
        rw [start_scalar (ht b List.mem_cons_self)]
        rfl
      have hread := run_scalar (d := d) t [b] fun b' hb' => ht b' (List.mem_cons_of_mem b hb')
      rw [run_lead hlead, List.cons_append, run_cons, hfirst, Option.bind_some, run_append, hread,
        Option.bind_some] at hrun
      cases trail with
      | nil =>
          rw [← Option.some.inj hrun] at hr
          exact hr
      | cons c trail =>
          by_contra hnot
          rw [List.all_cons, Bool.and_eq_true] at htrail
          have hdelimiter : isDelimiter c = true := by simp [isDelimiter, htrail.1]
          have hfail : d.turn (.scalar ([b] ++ t)) c = .fail := by
            simp only [Dialect.turn]
            rw [if_pos hdelimiter]
            exact if_neg hnot
          rw [run_cons, Dialect.step, hfail] at hrun
          cases hrun

/-- A byte of a number. -/
def ofNumber (b : Byte) : Bool :=
  isDigit b ∨ b ∈ [43, 45, 46, 69, 101]

theorem ofNumber_of_digits (h : t.all isDigit = true) : t.all ofNumber = true :=
  List.all_eq_true.mpr fun b hb => by simp [ofNumber, List.all_eq_true.mp h b hb]

theorem all_of_tail {p : Byte → Bool} (hhead : ∀ b ∈ t.head?, p b = true)
    (htail : t.tail.all p = true) : t.all p = true := by
  cases t with
  | nil => rfl
  | cons b t =>
      rw [List.all_cons, Bool.and_eq_true]
      exact ⟨hhead b rfl, htail⟩

theorem ofNumber_of_isExponent (h : isExponent t = true) : t.all ofNumber = true := by
  simp only [isExponent] at h
  split at h
  · next hsign =>
      refine all_of_tail (fun b hb => ?_) (ofNumber_of_digits (of_decide_eq_true h).2)
      obtain hplus | hminus := hsign
      · rw [← Option.some.inj (hplus.symm.trans hb)]; rfl
      · rw [← Option.some.inj (hminus.symm.trans hb)]; rfl
  · exact ofNumber_of_digits (of_decide_eq_true h).2

theorem ofNumber_of_isTail (h : isTail t = true) : t.all ofNumber = true := by
  obtain rfl | ⟨hexp, hrest⟩ := of_decide_eq_true h
  · rfl
  · refine all_of_tail (fun b hb => ?_) (ofNumber_of_isExponent hrest)
    obtain hlower | hupper := hexp
    · rw [← Option.some.inj (hlower.symm.trans hb)]; rfl
    · rw [← Option.some.inj (hupper.symm.trans hb)]; rfl

theorem ofNumber_of_isFraction (h : isFraction t = true) : t.all ofNumber = true := by
  unfold isFraction at h
  split at h
  · next hpoint =>
      have htail := ofNumber_of_isTail (of_decide_eq_true h).2
      refine all_of_tail (fun b hb => ?_) ?_
      · rw [← Option.some.inj (hpoint.symm.trans hb)]; rfl
      · rw [← List.takeWhile_append_dropWhile (p := isDigit) (l := t.tail), List.all_append,
          htail, ofNumber_of_digits List.all_takeWhile]
        rfl
  · exact ofNumber_of_isTail h

/-- A number: a digit behind an optional sign, and then bytes of a number. -/
theorem exists_digit_of_isNumber (h : isNumber t = true) :
    ∃ b rest, (t = b :: rest ∨ t = 45 :: b :: rest) ∧ isDigit b = true ∧
      rest.all ofNumber = true := by
  have hunsigned : ∀ t : Text, (t.takeWhile isDigit = [48] ∨
      (t.takeWhile isDigit ≠ [] ∧ (t.takeWhile isDigit).head? ≠ some 48)) ∧
      isFraction (t.dropWhile isDigit) = true →
      ∃ b rest, t = b :: rest ∧ isDigit b = true ∧ rest.all ofNumber = true := by
    rintro t ⟨hwhole, hfraction⟩
    have hnil : t.takeWhile isDigit ≠ [] := by
      obtain h | h := hwhole
      · rw [h]
        exact List.cons_ne_nil _ _
      · exact h.1
    have hall : (t.takeWhile isDigit).all isDigit = true := List.all_takeWhile
    have hjoin := List.takeWhile_append_dropWhile (p := isDigit) (l := t)
    cases hw : t.takeWhile isDigit with
    | nil => exact absurd hw hnil
    | cons b whole =>
        rw [hw, List.all_cons, Bool.and_eq_true] at hall
        rw [hw] at hjoin
        refine ⟨b, whole ++ t.dropWhile isDigit, hjoin.symm, hall.1, ?_⟩
        rw [List.all_append, ofNumber_of_digits hall.2, ofNumber_of_isFraction hfraction]
        rfl
  simp only [isNumber] at h
  split at h
  · next hsign =>
      obtain ⟨b, rest, htail, hb⟩ := hunsigned t.tail (of_decide_eq_true h)
      refine ⟨b, rest, Or.inr ?_, hb⟩
      cases t with
      | nil => cases hsign
      | cons c t => rw [← htail, Option.some.inj hsign]; rfl
  · obtain ⟨b, rest, ht, hb⟩ := hunsigned t (of_decide_eq_true h)
    exact ⟨b, rest, Or.inl ht, hb⟩

end Bare

/-! ## Texts of objects -/

/-- The rest of an object behind a member's value. -/
def closing : List (Text × Text) → Text
  | [] => [125]
  | (k, v) :: ms => 44 :: (k ++ 58 :: (v ++ closing ms))

/-- An object with the members that are given. -/
def object : List (Text × Text) → Text
  | [] => [123, 125]
  | (k, v) :: ms => 123 :: (k ++ 58 :: (v ++ closing ms))

/-- A string and a value. -/
def IsMember (depth : ℕ) (m : Text × Text) : Prop :=
  (∃ s, unquote m.1 = some s) ∧ (rfc depth).accepts m.2 = true

section Objects

variable {n depth : ℕ} {p : Place} {b : Byte}

theorem closing_cons (ms : List (Text × Text)) :
    ∃ b rest, closing ms = b :: rest ∧ (b = 44 ∨ b = 125) := by
  cases ms with
  | nil => exact ⟨125, [], rfl, Or.inr rfl⟩
  | cons m ms => exact ⟨44, _, rfl, Or.inl rfl⟩

/-- A key and its colon. -/
theorem split_key (hn : 0 < n) (hp : p = .member ∨ p = .key) {k s : Text}
    (hk : unquote k = some s) (rest : Text) :
    (rfc n).split ⟨p, [.object]⟩ [] (k ++ 58 :: rest) =
      ((rfc n).split ⟨.value, [.object]⟩ [] rest).map fun parts => trim k :: parts := by
  obtain ⟨body, ps, rfl, hps⟩ := eq_quoted_of_unquote hk
  have hrun := run_pieces (d := rfc 0) (fun b hb => decide_eq_true hb) true body ps hps
  have hbody : (rfc n).split ⟨.string true, [.object]⟩ [34] (body ++ 58 :: rest) =
      (rfc n).split ⟨.colon, [.object]⟩ ([34] ++ body) (58 :: rest) :=
    split_under ((rfc 0).nested_knows n) hn body (58 :: rest) hrun
  have hfirst : (rfc n).split ⟨p, [.object]⟩ [] (34 :: body ++ 58 :: rest) =
      (rfc n).split ⟨.string true, [.object]⟩ [34] (body ++ 58 :: rest) := by
    obtain rfl | rfl := hp <;> rfl
  exact hfirst.trans hbody

/-- A member. -/
theorem split_member (hn : depth + 1 ≤ n) (hp : p = .member ∨ p = .key) {k v : Text}
    (hm : IsMember depth (k, v)) (hb : b = 44 ∨ b = 125) (rest : Text) :
    (rfc n).split ⟨p, [.object]⟩ [] (k ++ 58 :: (v ++ b :: rest)) =
      ((rfc n).split (Frame.behind .object b) [] rest).map
        fun parts => trim k :: trim v :: parts := by
  obtain ⟨⟨s, hk⟩, hv⟩ := hm
  have hvalue := split_value (D := rfc n) (d := rfc depth) (f := .object)
    ((rfc depth).nested_knows n) hn hv hb rest
  rw [split_key (by omega) hp hk, hvalue, Option.map_map]
  rfl

/-- What an object with members splits into. -/
theorem split_closing (hn : depth + 1 ≤ n) (ms : List (Text × Text))
    (hms : ∀ m ∈ ms, IsMember depth m) :
    ∀ {p k v}, (p = .member ∨ p = .key) → IsMember depth (k, v) →
      (rfc n).split ⟨p, [.object]⟩ [] (k ++ 58 :: (v ++ closing ms)) =
        some (trim k :: trim v :: ms.flatMap fun m => [trim m.1, trim m.2]) := by
  induction ms with
  | nil =>
      intro p k v hp hm
      rw [closing, split_member hn hp hm (Or.inr rfl)]
      rfl
  | cons m ms ih =>
      intro p k v hp hm
      have hrest := ih (fun m' hm' => hms m' (List.mem_cons_of_mem m hm')) (Or.inr rfl)
        (hms m List.mem_cons_self)
      rw [closing, split_member hn hp hm (Or.inl rfl)]
      show ((rfc n).split ⟨.key, [.object]⟩ [] _).map _ = _
      rw [hrest]
      rfl

theorem pairs_flatMap (ms : List (Text × Text)) :
    pairs (ms.flatMap fun m => [trim m.1, trim m.2]) = ms.map fun m => (trim m.1, trim m.2) := by
  induction ms with
  | nil => rfl
  | cons m ms ih => exact congrArg _ ih

/-- What a text's first bracket or brace opens. -/
theorem split_opened {f : Frame} (hn : 0 < n) (hb : Frame.opened b = some f) (t : Text) :
    (rfc n).split Reader.first [] (b :: t) = (rfc n).split ⟨f.inside, [f]⟩ [] t := by
  have hstart : start .value b = .enter f := by
    unfold Frame.opened at hb
    split at hb
    · next h => rw [h, ← Option.some.inj hb]; rfl
    · split at hb
      · next h => rw [h, ← Option.some.inj hb]; rfl
      · cases hb
  have hstep : (rfc n).step Reader.first b = some ⟨f.inside, [f]⟩ := by
    show (start .value b).take n [] b = _
    rw [hstart]
    exact if_pos hn
  rw [Dialect.split, hstep]
  rfl

/-- The members of an object. -/
theorem members_object (hn : depth + 1 ≤ n) {ms : List (Text × Text)}
    (hms : ∀ m ∈ ms, IsMember depth m) :
    (rfc n).members (object ms) = some (ms.map fun m => (trim m.1, trim m.2)) := by
  have hpos : 0 < n := by omega
  cases ms with
  | nil =>
      show ((rfc n).split Reader.first [] [123, 125]).map pairs = some []
      rw [split_opened hpos rfl]
      rfl
  | cons m ms =>
      obtain ⟨k, v⟩ := m
      show ((rfc n).split Reader.first [] (123 :: (k ++ 58 :: (v ++ closing ms)))).map pairs = _
      rw [split_opened hpos rfl]
      show ((rfc n).split ⟨.member, [.object]⟩ [] _).map pairs = _
      rw [split_closing hn ms (fun m' hm' => hms m' (List.mem_cons_of_mem _ hm')) (Or.inl rfl)
        (hms (k, v) List.mem_cons_self)]
      exact congrArg (fun l => some ((trim k, trim v) :: l)) (pairs_flatMap ms)

/-- A text that splits is one value. -/
theorem accepts_of_members {t : Text} (h : ((rfc n).members t).isSome = true) :
    (rfc n).accepts t = true := by
  unfold Dialect.members at h
  split at h
  · rw [Option.isSome_map] at h
    exact accepts_iff.mpr (accepts_of_split h)
  · cases h

theorem accepts_of_elements {t : Text} (h : ((rfc n).elements t).isSome = true) :
    (rfc n).accepts t = true := by
  unfold Dialect.elements at h
  split at h
  · rw [Option.isSome_map] at h
    exact accepts_iff.mpr (accepts_of_split h)
  · cases h

/-- One of the values is one only to a dialect that knows more: then there is
no object. -/
theorem members_none {d : Dialect} (hknows : d.Knows (rfc depth)) (hdepth : d.depth ≤ depth)
    (hn : depth + 1 ≤ n) {k v s : Text} (hk : unquote k = some s) (hv : d.accepts v = true)
    (hnot : (rfc depth).accepts v = false) (post : List (Text × Text))
    {pre : List (Text × Text)} (hpre : ∀ m ∈ pre, IsMember depth m) :
    (rfc n).members (object (pre ++ (k, v) :: post)) = none := by
  have hpos : 0 < n := by omega
  -- where the members before are behind it, the reader fails at the value
  have hhere : ∀ {p}, (p = .member ∨ p = .key) →
      (rfc n).split ⟨p, [.object]⟩ [] (k ++ 58 :: (v ++ closing post)) = none := by
    intro p hp
    obtain ⟨b, rest, hclosing, hb⟩ := closing_cons post
    have hdelimiter : isDelimiter b = true := by
      obtain rfl | rfl := hb <;> rfl
    rw [split_key hpos hp hk, hclosing]
    have hfails : (rfc n).split ⟨.value, [.object]⟩ [] (v ++ b :: rest) = none :=
      split_no_value hknows hdepth hn hv hnot hdelimiter rest
    show ((rfc n).split ⟨.value, [.object]⟩ [] (v ++ b :: rest)).map _ = none
    rw [hfails]
    rfl
  have hlater : ∀ (pre : List (Text × Text)), (∀ m ∈ pre, IsMember depth m) →
      ∀ {p k' v'}, (p = .member ∨ p = .key) → IsMember depth (k', v') →
        (rfc n).split ⟨p, [.object]⟩ []
          (k' ++ 58 :: (v' ++ closing (pre ++ (k, v) :: post))) = none := by
    intro pre
    induction pre with
    | nil =>
        intro _ p k' v' hp hm
        rw [List.nil_append, closing, split_member hn hp hm (Or.inl rfl)]
        show ((rfc n).split ⟨.key, [.object]⟩ [] _).map _ = none
        rw [hhere (Or.inr rfl)]
        rfl
    | cons m pre ih =>
        intro hms p k' v' hp hm
        rw [List.cons_append, closing, split_member hn hp hm (Or.inl rfl)]
        show ((rfc n).split ⟨.key, [.object]⟩ [] _).map _ = none
        rw [ih (fun m' hm' => hms m' (List.mem_cons_of_mem m hm')) (Or.inr rfl)
          (hms m List.mem_cons_self)]
        rfl
  have hsplit : (rfc n).split Reader.first [] (object (pre ++ (k, v) :: post)) = none := by
    cases pre with
    | nil =>
        show (rfc n).split Reader.first [] (123 :: (k ++ 58 :: (v ++ closing post))) = none
        rw [split_opened hpos rfl]
        exact hhere (Or.inl rfl)
    | cons m pre =>
        obtain ⟨k', v'⟩ := m
        show (rfc n).split Reader.first []
          (123 :: (k' ++ 58 :: (v' ++ closing (pre ++ (k, v) :: post)))) = none
        rw [split_opened hpos rfl]
        exact hlater pre (fun m' hm' => hpre m' (List.mem_cons_of_mem _ hm')) (Or.inl rfl)
          (hpre (k', v') List.mem_cons_self)
  unfold Dialect.members
  split
  · rw [hsplit]
    rfl
  · rfl

/-- An object ends with its brace. -/
theorem trim_object (ms : List (Text × Text)) : trim (object ms) = object ms := by
  have hclosing : ∀ ms, (closing ms).getLast? = some 125 := by
    intro ms
    induction ms with
    | nil => rfl
    | cons m ms ih =>
        obtain ⟨k, v⟩ := m
        have hshape : closing ((k, v) :: ms) = (44 :: k ++ 58 :: v) ++ closing ms := by
          simp [closing]
        rw [hshape, List.getLast?_append, ih]
        rfl
  refine trim_eq_self (fun b hb => ?_) fun b hb => ?_
  · have hfirst : (object ms).head? = some 123 := by
      cases ms <;> rfl
    rw [hfirst] at hb
    rw [← Option.some.inj hb]
    rfl
  · have hlast : (object ms).getLast? = some 125 := by
      cases ms with
      | nil => rfl
      | cons m ms =>
          obtain ⟨k, v⟩ := m
          have hshape : object ((k, v) :: ms) = (123 :: k ++ 58 :: v) ++ closing ms := by
            simp [object]
          rw [hshape, List.getLast?_append, hclosing]
          rfl
    rw [hlast] at hb
    rw [← Option.some.inj hb]
    rfl

/-- An array of one object. -/
theorem elements_singleton (hn : depth + 1 ≤ n) {ms : List (Text × Text)}
    (hv : (rfc depth).accepts (object ms) = true) :
    (rfc n).elements (91 :: (object ms ++ [93])) = some [object ms] := by
  have hpos : 0 < n := by omega
  obtain ⟨rest, hrest⟩ : ∃ rest, object ms = 123 :: rest := by
    cases ms with
    | nil => exact ⟨_, rfl⟩
    | cons m ms => exact ⟨_, rfl⟩
  have hvalue := split_value (D := rfc n) (d := rfc depth) (f := .array)
    ((rfc depth).nested_knows n) hn hv (Or.inr rfl) []
  have helement : (rfc n).split ⟨.element, [.array]⟩ [] (object ms ++ [93]) =
      (rfc n).split ⟨.value, [.array]⟩ [] (object ms ++ [93]) := by
    rw [hrest]
    rfl
  show ((rfc n).split Reader.first [] (91 :: (object ms ++ [93]))).map _ = _
  rw [split_opened hpos rfl]
  show ((rfc n).split ⟨.element, [.array]⟩ [] _).map _ = _
  rw [helement, show (rfc n).split ⟨.value, [.array]⟩ [] (object ms ++ [93]) = _ from hvalue,
    trim_object, hrest]
  rfl

end Objects

end Json
