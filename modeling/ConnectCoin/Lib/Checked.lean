/-
Integers with a range. GENERAL: nothing here is about a particular program.

An operation on machine integers is the operation on ℕ or ℤ followed by its range: `none` where the result does not fit,
that is where an unsigned operation would wrap around or a signed one would overflow.
- `u64`: unsigned, 64 bits; `i32`, `i64`, `i128`: signed, of `Signed w`, the range of a width.
-/
import Mathlib.Tactic

namespace ConnectCoin.Lib

/-- a number that fits into 64 bits -/
def u64 (n : ℕ) : Option ℕ := if n < 2 ^ 64 then some n else none

theorem u64_of_lt {n : ℕ} (h : n < 2 ^ 64) : u64 n = some n := if_pos h

/-- the range of the signed integers of a width -/
def Signed (w : ℕ) (z : ℤ) : Prop := -2 ^ (w - 1) ≤ z ∧ z < 2 ^ (w - 1)

instance (w : ℕ) (z : ℤ) : Decidable (Signed w z) := inferInstanceAs (Decidable (_ ∧ _))

def signed (w : ℕ) (z : ℤ) : Option ℤ := if Signed w z then some z else none

theorem signed_of {w : ℕ} {z : ℤ} (h : Signed w z) : signed w z = some z := if_pos h

abbrev i32 := signed 32
abbrev i64 := signed 64
abbrev i128 := signed 128

end ConnectCoin.Lib
