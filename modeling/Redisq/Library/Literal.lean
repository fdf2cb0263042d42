import Mathlib.Algebra.GroupWithZero.Nat
import Mathlib.Data.Fin.Basic
import Mathlib.Data.List.Basic

/-!
# Literals of bytes and counts

Bytes are numbers below 256, and texts lists of them.  What byte literals,
small positive counts and comparisons of texts rest on is stated here, once
for every module that has them.
-/

namespace Literal

instance neZero_one : NeZero 1 := ⟨by decide⟩

instance neZero_two : NeZero 2 := ⟨by decide⟩

instance neZero_byte : NeZero 256 := ⟨by decide⟩

instance lawfulBEq_byte : LawfulBEq (Fin 256) := inferInstance

instance lawfulBEq_text : LawfulBEq (List (Fin 256)) := inferInstance

end Literal
