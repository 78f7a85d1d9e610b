/-
Amount compression (`compressor.cpp`): trailing zeros are taken out as an exponent of at most 9.

Both functions work on 64-bit numbers; what can pass 64 bits is reduced. `compressAmountChecked` and
`decompressAmountChecked` fail instead, at each operation, and at the assertion on the last digit.
Results: `decompressAmount_compressAmount`: no amount up to `MAX_MONEY` is changed, and no operation on the way back
passes 64 bits; `compressAmountChecked_eq`: nor does one on the way there.
-/
import ConnectCoin.Consensus.TxCheck
import ConnectCoin.Lib.VarInt

namespace ConnectCoin

open Lib Option

/-- the loop of `CompressAmount`: what remains, and how many zeros were taken out -/
def stripZeros : ℕ → ℕ → ℕ → ℕ × ℕ
  | 0, n, e => (n, e)
  | fuel + 1, n, e => if n % 10 = 0 then stripZeros fuel (n / 10) (e + 1) else (n, e)

/-- `CompressAmount` -/
def compressAmount (nAmount : ℕ) : ℕ :=
  if nAmount = 0 then 0
  else
    let (n, e) := stripZeros 9 nAmount 0
    if e < 9 then (1 + (n / 10 * 9 + n % 10 - 1) * 10 + e) % 2 ^ 64 else (1 + (n - 1) * 10 + 9) % 2 ^ 64

/-- the loop of `DecompressAmount` -/
def timesTen : ℕ → ℕ → ℕ
  | 0, n => n
  | e + 1, n => timesTen e (n * 10 % 2 ^ 64)

/-- `DecompressAmount` -/
def decompressAmount (x : ℕ) : ℕ :=
  if x = 0 then 0
  else
    let e := (x - 1) % 10
    let x := (x - 1) / 10
    timesTen e (if e < 9 then x / 9 * 10 + (x % 9 + 1) else x + 1)

/-- a 64-bit number -/
def u64 (x : ℤ) : Option ℕ := inType (2 ^ 64 - 1) x

/-- `1 + (n*9 + d - 1)*10 + e`, from left to right -/
def packDigit (n d e : ℕ) : Option ℕ := do
  let a ← u64 (n * 9)
  let a ← u64 (a + d)
  let a ← u64 (a - 1)
  let a ← u64 (a * 10)
  let a ← u64 (1 + a)
  u64 (a + e)

/-- `1 + (n - 1)*10 + 9`, from left to right -/
def packTop (n : ℕ) : Option ℕ := do
  let a ← u64 (n - 1)
  let a ← u64 (a * 10)
  let a ← u64 (1 + a)
  u64 (a + 9)

/-- `CompressAmount`, with every operation and its assertion checked -/
def compressAmountChecked (nAmount : ℕ) : Option ℕ :=
  if nAmount = 0 then some 0
  else
    let (n, e) := stripZeros 9 nAmount 0
    if e < 9 then if 1 ≤ n % 10 ∧ n % 10 ≤ 9 then packDigit (n / 10) (n % 10) e else none
    else packTop n

/-- the loop of `DecompressAmount`, checked -/
def timesTenChecked : ℕ → ℕ → Option ℕ
  | 0, n => some n
  | e + 1, n => do
    let n ← u64 (n * 10)
    timesTenChecked e n

/-- `x*10 + d` -/
def unpackDigit (x d : ℕ) : Option ℕ := do
  let a ← u64 (x * 10)
  u64 (a + d)

/-- `DecompressAmount`, with every operation checked -/
def decompressAmountChecked (x : ℕ) : Option ℕ :=
  if x = 0 then some 0
  else
    let e := (x - 1) % 10
    let x := (x - 1) / 10
    (if e < 9 then unpackDigit (x / 9) (x % 9 + 1) else u64 (x + 1)).bind (timesTenChecked e)

theorem stripZeros_spec (fuel n e : ℕ) (hn : 0 < n) :
    0 < (stripZeros fuel n e).1 ∧ (stripZeros fuel n e).1 * 10 ^ ((stripZeros fuel n e).2 - e) = n ∧
      e ≤ (stripZeros fuel n e).2 ∧ (stripZeros fuel n e).2 ≤ e + fuel ∧
      ((stripZeros fuel n e).2 < e + fuel → (stripZeros fuel n e).1 % 10 ≠ 0) := by
  induction fuel generalizing n e with
  | zero => simp [stripZeros, hn]
  | succ fuel ih =>
    rw [stripZeros]
    split_ifs with hzero
    · obtain ⟨hpos, hpow, hle, hmax, hdigit⟩ := ih (n / 10) (e + 1) (by omega)
      refine ⟨hpos, ?_, by omega, by omega, fun h => hdigit (by omega)⟩
      -- one more zero was taken out
      rw [show (stripZeros fuel (n / 10) (e + 1)).2 - e = (stripZeros fuel (n / 10) (e + 1)).2 - (e + 1) +
        1 by omega, pow_succ, ← mul_assoc, hpow]
      omega
    · exact ⟨hn, by simp, le_refl _, by omega, fun _ => hzero⟩

theorem timesTen_eq (e n : ℕ) (h : n * 10 ^ e < 2 ^ 64) :
    timesTen e n = n * 10 ^ e ∧ timesTenChecked e n = some (n * 10 ^ e) := by
  induction e generalizing n with
  | zero => simp [timesTen, timesTenChecked]
  | succ e ih =>
    have hmul : n * 10 * 10 ^ e = n * 10 ^ (e + 1) := by ring
    have hle : n * 10 ≤ n * 10 * 10 ^ e := Nat.le_mul_of_pos_right _ (by positivity)
    have hstep : u64 (n * 10) = some (n * 10) := inType_eq (by simp) (by omega)
    rw [timesTen, timesTenChecked, Nat.mod_eq_of_lt (by omega), hstep, ← hmul]
    exact ih (n * 10) (by omega)

/-- the code of what is left of an amount and of its zeros -/
def packed (m e : ℕ) : ℕ := if e < 9 then 1 + (m / 10 * 9 + m % 10 - 1) * 10 + e else 1 + (m - 1) * 10 + 9

theorem packDigit_eq {n d e : ℕ} (hd : 1 ≤ d) (h : 1 + (n * 9 + d - 1) * 10 + e < 2 ^ 64) :
    packDigit n d e = some (1 + (n * 9 + d - 1) * 10 + e) := by
  have h₁ : u64 (n * 9) = some (n * 9) := inType_eq (by simp) (by omega)
  have h₂ : u64 ((n * 9 : ℕ) + d) = some (n * 9 + d) := inType_eq (by simp) (by omega)
  have h₃ : u64 ((n * 9 + d : ℕ) - 1) = some (n * 9 + d - 1) := inType_eq (by omega) (by omega)
  have h₄ : u64 ((n * 9 + d - 1 : ℕ) * 10) = some ((n * 9 + d - 1) * 10) := inType_eq (by simp) (by omega)
  have h₅ : u64 (1 + ((n * 9 + d - 1) * 10 : ℕ)) = some (1 + (n * 9 + d - 1) * 10) := inType_eq (by omega) (by omega)
  have h₆ : u64 ((1 + (n * 9 + d - 1) * 10 : ℕ) + e) = some (1 + (n * 9 + d - 1) * 10 + e) :=
    inType_eq (by omega) (by omega)
  simp only [packDigit, bind_eq_bind, h₁, h₂, h₃, h₄, h₅, bind_some]
  exact h₆

theorem packTop_eq {n : ℕ} (hn : 1 ≤ n) (h : 1 + (n - 1) * 10 + 9 < 2 ^ 64) :
    packTop n = some (1 + (n - 1) * 10 + 9) := by
  have h₁ : u64 (n - 1) = some (n - 1) := inType_eq (by omega) (by omega)
  have h₂ : u64 ((n - 1 : ℕ) * 10) = some ((n - 1) * 10) := inType_eq (by simp) (by omega)
  have h₃ : u64 (1 + ((n - 1) * 10 : ℕ)) = some (1 + (n - 1) * 10) := inType_eq (by omega) (by omega)
  have h₄ : u64 ((1 + (n - 1) * 10 : ℕ) + 9) = some (1 + (n - 1) * 10 + 9) := inType_eq (by omega) (by omega)
  rw [packTop, bind_eq_bind, h₁, bind_some, h₂, bind_some, h₃, bind_some, h₄]

variable {n : ℕ}

/-- What `CompressAmount` makes of an amount in range, checked or not. -/
theorem compressAmount_packed (hzero : n ≠ 0) (hn : (n : ℤ) ≤ MAX_MONEY) :
    ∃ m e, 0 < m ∧ m * 10 ^ e = n ∧ e ≤ 9 ∧ (e < 9 → m % 10 ≠ 0) ∧ m ≤ n ∧ n ≤ 10 ^ 18 ∧ compressAmount n = packed m e ∧
      compressAmountChecked n = some (packed m e) := by
  have hmax : n ≤ 10 ^ 18 := by
    simp only [MAX_MONEY, COIN] at hn
    omega
  obtain ⟨hpos, hpow, -, hle, hdigit⟩ := stripZeros_spec 9 n 0 (by omega)
  rw [compressAmount, compressAmountChecked, if_neg hzero, if_neg hzero]
  generalize stripZeros 9 n 0 = me at hpos hpow hle hdigit
  obtain ⟨m, e⟩ := me
  simp only [Nat.sub_zero, Nat.zero_add] at hpos hpow hle hdigit ⊢
  have hm : m ≤ n := hpow ▸ Nat.le_mul_of_pos_right _ (by positivity)
  refine ⟨m, e, hpos, hpow, hle, hdigit, hm, hmax, ?_, ?_⟩
  · unfold packed
    split_ifs
    · rw [Nat.mod_eq_of_lt (by omega)]
    · rw [Nat.mod_eq_of_lt (by omega)]
  · unfold packed
    by_cases he : e < 9
    · have hd := hdigit he
      rw [if_pos he, if_pos he, if_pos (by omega)]
      exact packDigit_eq (by omega) (by omega)
    · rw [if_neg he, if_neg he]
      exact packTop_eq (by omega) (by omega)

theorem packed_spec {m e : ℕ} (hpos : 0 < m) (hle : e ≤ 9) : packed m e ≠ 0 ∧ (packed m e - 1) % 10 = e ∧
      (packed m e - 1) / 10 = if e < 9 then m / 10 * 9 + m % 10 - 1 else m - 1 := by
  unfold packed
  split_ifs with he
  · exact ⟨by omega, by omega, by omega⟩
  · exact ⟨by omega, by omega, by omega⟩

theorem compressAmountChecked_eq (hn : (n : ℤ) ≤ MAX_MONEY) : compressAmountChecked n = some (compressAmount n) := by
  by_cases hzero : n = 0
  · simp [hzero, compressAmount, compressAmountChecked]
  · obtain ⟨m, e, -, -, -, -, -, -, hcode, hchecked⟩ := compressAmount_packed hzero hn
    rw [hcode, hchecked]

/-- No amount in range is changed, and no operation on the way passes 64 bits. -/
theorem decompressAmount_compressAmount (hn : (n : ℤ) ≤ MAX_MONEY) :
    decompressAmount (compressAmount n) = n ∧ decompressAmountChecked (compressAmount n) = some n := by
  by_cases hzero : n = 0
  · simp [hzero, compressAmount, decompressAmount, decompressAmountChecked]
  · obtain ⟨m, e, hpos, hpow, hle, hdigit, hm, hmax, hcode, -⟩ := compressAmount_packed hzero hn
    obtain ⟨hne, hexp, hdiv⟩ := packed_spec hpos hle
    have htimes := timesTen_eq e m (by omega)
    rw [hpow] at htimes
    rw [hcode, decompressAmount, decompressAmountChecked, if_neg hne, if_neg hne]
    simp only [hexp, hdiv]
    by_cases he : e < 9
    · have hd := hdigit he
      have hunpack : (m / 10 * 9 + m % 10 - 1) / 9 * 10 + ((m / 10 * 9 + m % 10 - 1) % 9 + 1) = m := by omega
      have h₁ : u64 (((m / 10 * 9 + m % 10 - 1) / 9 : ℕ) * 10) = some ((m / 10 * 9 + m % 10 - 1) / 9 * 10) :=
        inType_eq (by simp) (by omega)
      have h₂ : u64 (((m / 10 * 9 + m % 10 - 1) / 9 * 10 : ℕ) + ((m / 10 * 9 + m % 10 - 1) % 9 + 1 : ℕ)) = some m :=
        inType_eq (by omega) (by omega)
      rw [if_pos he, if_pos he, if_pos he, hunpack, unpackDigit, h₁, bind_eq_bind, bind_some, h₂]
      exact htimes
    · have h₁ : u64 ((m - 1 : ℕ) + 1) = some m := inType_eq (by omega) (by omega)
      rw [if_neg he, if_neg he, if_neg he, Nat.sub_add_cancel hpos, h₁]
      exact htimes

theorem compressAmount_lt (n : ℕ) : compressAmount n < 2 ^ 64 := by
  unfold compressAmount
  split_ifs
  · decide
  · simp only
    split_ifs <;> exact Nat.mod_lt _ (by decide)

end ConnectCoin
