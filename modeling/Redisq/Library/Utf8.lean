import Mathlib.Order.Basic
import Redisq.Library.Literal

/-!
# UTF-8

How code points are written, and what a lenient reader makes of bytes that
are none: it takes each for the replacement character (`repair`).  A text
that is UTF-8 throughout it leaves as it is (`repair_of_isUtf8`).
-/

namespace Utf8

/-- A code point, written. -/
def encode (n : ℕ) : List (Fin 256) :=
  if n < 128 then [Fin.ofNat 256 n]
  else if n < 2048 then [Fin.ofNat 256 (192 + n / 64), Fin.ofNat 256 (128 + n % 64)]
  else if n < 65536 then
    [Fin.ofNat 256 (224 + n / 4096), Fin.ofNat 256 (128 + n / 64 % 64),
      Fin.ofNat 256 (128 + n % 64)]
  else
    [Fin.ofNat 256 (240 + n / 262144), Fin.ofNat 256 (128 + n / 4096 % 64),
      Fin.ofNat 256 (128 + n / 64 % 64), Fin.ofNat 256 (128 + n % 64)]

/-- Half of a surrogate pair. -/
def IsSurrogate (n : ℕ) : Prop :=
  55296 ≤ n ∧ n < 57344

instance (n : ℕ) : Decidable (IsSurrogate n) := inferInstanceAs (Decidable (_ ∧ _))

/-- A code point of a character. -/
def IsScalar (n : ℕ) : Prop :=
  n < 1114112 ∧ ¬IsSurrogate n

/-- Whole characters, written one behind the other. -/
def IsUtf8 (t : List (Fin 256)) : Prop :=
  ∃ ns : List ℕ, (∀ n ∈ ns, IsScalar n) ∧ t = ns.flatMap encode

/-! ## Reading characters -/

/-- A byte behind the first of a character. -/
def isTail (b : Fin 256) : Bool :=
  128 ≤ b.val ∧ b.val < 192

/-- The length of the character a text starts with, 0 if with none: none is
written longer than need be, half of a pair, or past the last code point. -/
def charLength : List (Fin 256) → ℕ
  | [] => 0
  | b :: rest =>
      -- where the text ends too soon, 0 is no tail either
      let c := rest.getD 0 0
      let d := rest.getD 1 0
      let e := rest.getD 2 0
      if b.val < 128 then 1
      else if 194 ≤ b.val ∧ b.val < 224 ∧ isTail c then 2
      else if 224 ≤ b.val ∧ b.val < 240 ∧ isTail c ∧ isTail d ∧ (b.val = 224 → 160 ≤ c.val) ∧
        (b.val = 237 → c.val < 160) then 3
      else if 240 ≤ b.val ∧ b.val < 245 ∧ isTail c ∧ isTail d ∧ isTail e ∧
        (b.val = 240 → 144 ≤ c.val) ∧ (b.val = 244 → c.val < 144) then 4
      else 0

/-- A text with U+FFFD for each byte that is of no character; the first
`left` bytes are of one. -/
def repair : ℕ → List (Fin 256) → List (Fin 256)
  | _, [] => []
  | left + 1, b :: rest => b :: repair left rest
  | 0, b :: rest =>
      match charLength (b :: rest) with
      | 0 => 239 :: 191 :: 189 :: repair 0 rest
      | left + 1 => b :: repair left rest

/-! ## Whole texts -/

theorem ofNat_val {n : ℕ} (h : n < 256) : (Fin.ofNat 256 n).val = n := by
  show n % 256 = n
  omega

theorem isTail_ofNat {n : ℕ} : isTail (Fin.ofNat 256 (128 + n % 64)) = true := by
  have h := ofNat_val (n := 128 + n % 64) (by omega)
  simp only [isTail, h, decide_eq_true_eq]
  omega

/-- A character is read to its end. -/
theorem charLength_encode {n : ℕ} (hn : IsScalar n) (rest : List (Fin 256)) :
    charLength (encode n ++ rest) = (encode n).length := by
  obtain ⟨hmax, hpair⟩ := hn
  simp only [IsSurrogate, not_and, not_lt] at hpair
  unfold encode
  split
  · next h =>
      have hb : (Fin.ofNat 256 n).val = n := ofNat_val (by omega)
      show (if _ then 1 else _) = 1
      rw [if_pos (by omega)]
  · next h128 =>
      split
      · next h =>
          have hb : (Fin.ofNat 256 (192 + n / 64)).val = 192 + n / 64 := ofNat_val (by omega)
          show (if _ then 1 else _) = 2
          rw [if_neg (by omega), if_pos ⟨by omega, by omega, isTail_ofNat⟩]
      · next h2048 =>
          split
          · next h =>
              have hb : (Fin.ofNat 256 (224 + n / 4096)).val = 224 + n / 4096 :=
                ofNat_val (by omega)
              have hc : (Fin.ofNat 256 (128 + n / 64 % 64)).val = 128 + n / 64 % 64 :=
                ofNat_val (by omega)
              show (if _ then 1 else _) = 3
              rw [if_neg (by omega), if_neg (by omega), if_pos]
              refine ⟨by omega, by omega, isTail_ofNat, isTail_ofNat, fun h => ?_, fun h => ?_⟩
              · show 160 ≤ (Fin.ofNat 256 (128 + n / 64 % 64)).val
                omega
              · show (Fin.ofNat 256 (128 + n / 64 % 64)).val < 160
                omega
          · next h65536 =>
              have hb : (Fin.ofNat 256 (240 + n / 262144)).val = 240 + n / 262144 :=
                ofNat_val (by omega)
              have hc : (Fin.ofNat 256 (128 + n / 4096 % 64)).val = 128 + n / 4096 % 64 :=
                ofNat_val (by omega)
              show (if _ then 1 else _) = 4
              rw [if_neg (by omega), if_neg (by omega), if_neg (by omega), if_pos]
              refine ⟨by omega, by omega, isTail_ofNat, isTail_ofNat, isTail_ofNat, fun h => ?_,
                fun h => ?_⟩
              · show 144 ≤ (Fin.ofNat 256 (128 + n / 4096 % 64)).val
                omega
              · show (Fin.ofNat 256 (128 + n / 4096 % 64)).val < 144
                omega

theorem repair_append (s t : List (Fin 256)) : repair s.length (s ++ t) = s ++ repair 0 t := by
  induction s with
  | nil => rfl
  | cons b s ih => exact congrArg _ ih

theorem repair_encode {n : ℕ} (hn : IsScalar n) (rest : List (Fin 256)) :
    repair 0 (encode n ++ rest) = encode n ++ repair 0 rest := by
  have hlength := charLength_encode hn rest
  cases henc : encode n with
  | nil =>
      unfold encode at henc
      split at henc
      · cases henc
      · split at henc
        · cases henc
        · split at henc <;> cases henc
  | cons b s =>
      rw [henc, List.length_cons] at hlength
      rw [List.cons_append] at hlength ⊢
      rw [repair, hlength]
      exact congrArg _ (repair_append s rest)

/-- UTF-8 is left as it is. -/
theorem repair_of_isUtf8 {t : List (Fin 256)} (h : IsUtf8 t) : repair 0 t = t := by
  obtain ⟨ns, hns, rfl⟩ := h
  induction ns with
  | nil => rfl
  | cons n ns ih =>
      rw [List.flatMap_cons, repair_encode (hns n List.mem_cons_self),
        ih fun m hm => hns m (List.mem_cons_of_mem n hm)]

/-- ASCII is UTF-8. -/
theorem isUtf8_of_ascii {t : List (Fin 256)} (h : ∀ b ∈ t, b.val < 128) : IsUtf8 t := by
  refine ⟨t.map Fin.val, fun n hn => ?_, ?_⟩
  · obtain ⟨b, hb, rfl⟩ := List.mem_map.mp hn
    have := h b hb
    refine ⟨by omega, fun hpair => ?_⟩
    simp only [IsSurrogate] at hpair
    omega
  · induction t with
    | nil => rfl
    | cons b t ih =>
        have hb : encode b.val = [b] := by
          rw [encode, if_pos (h b List.mem_cons_self)]
          exact congrArg (fun x => [x]) (Fin.ext (ofNat_val b.isLt))
        rw [List.map_cons, List.flatMap_cons, hb,
          ← ih fun b' hb' => h b' (List.mem_cons_of_mem b hb')]
        rfl

end Utf8
