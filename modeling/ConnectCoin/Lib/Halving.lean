/-
Sums of a sequence that at least halves every I steps. GENERAL: g is any sequence of integers with 2 g(j + 1) ≤ g(j).

Result: `sum_halving_le`: whatever the number of terms, the sum of g(k / I) is at most 2 I g(0). The proof keeps what is
left for the terms to come, (2 I - m % I) g(m / I), beside the sum of the first m terms.
-/
import Mathlib.Algebra.BigOperators.Intervals
import Mathlib.Tactic

namespace ConnectCoin.Lib

variable {g : ℕ → ℤ} {I : ℕ}

/-- The first m terms, with what is left for the others. -/
theorem sum_halving_add_rest (hg : ∀ j, 2 * g (j + 1) ≤ g j) (hI : 0 < I) (m : ℕ) :
    ∑ k ∈ Finset.range m, g (k / I) + (2 * I - (m % I : ℕ)) * g (m / I) ≤ 2 * I * g 0 := by
  induction m with
  | zero => simp
  | succ m ih =>
    rw [Finset.sum_range_succ]
    by_cases hlast : m % I + 1 = I
    · -- the last term of a period: the next one is half as large
      have hdvd : I ∣ m + 1 := ⟨m / I + 1, by rw [Nat.mul_add, ← Nat.div_add_mod m I]; simp [Nat.mul_add_div hI]; omega⟩
      have hmod : (m + 1) % I = 0 := Nat.mod_eq_zero_of_dvd hdvd
      have hdiv : (m + 1) / I = m / I + 1 := Nat.succ_div_of_dvd hdvd
      have hsize : ((m % I : ℕ) : ℤ) = I - 1 := by omega
      rw [hmod, hdiv, Nat.cast_zero]
      rw [hsize] at ih
      have hhalf := mul_le_mul_of_nonneg_left (hg (m / I)) (Int.natCast_nonneg I)
      linarith
    · have hnot : ¬ I ∣ m + 1 := by
        intro hdvd
        have hlt := Nat.mod_lt m hI
        have hzero : (m % I + 1) % I = 0 := by rw [Nat.mod_add_mod]; exact Nat.mod_eq_zero_of_dvd hdvd
        rw [Nat.mod_eq_of_lt (by omega)] at hzero
        omega
      have hdiv : (m + 1) / I = m / I := Nat.succ_div_of_not_dvd hnot
      have hmod : (m + 1) % I = m % I + 1 := by
        have hlt := Nat.mod_lt m hI
        rw [← Nat.mod_add_mod, Nat.mod_eq_of_lt (by omega)]
      rw [hdiv, hmod, Nat.cast_add, Nat.cast_one]
      linarith

/-- All terms together stay below twice the first period. -/
theorem sum_halving_le (hg : ∀ j, 2 * g (j + 1) ≤ g j) (hpos : ∀ j, 0 ≤ g j) (hI : 0 < I) (m : ℕ) :
    ∑ k ∈ Finset.range m, g (k / I) ≤ 2 * I * g 0 := by
  have hall := sum_halving_add_rest hg hI m
  have hlt := Nat.mod_lt m hI
  have hrest : 0 ≤ (2 * I - (m % I : ℕ) : ℤ) * g (m / I) := mul_nonneg (by omega) (hpos _)
  linarith

end ConnectCoin.Lib
