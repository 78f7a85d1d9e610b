/-
Fee rates as fractions (`util/feefrac.h`).

A product of a 64-bit fee and a 32-bit size has 96 bits. The program computes it with `__int128` where the compiler has
it and else with a pair of words; the model has both as a `WideArith`. Every operation is checked: none stands for a
signed overflow, for an unsigned wrap-around, or for a conversion that changes the value.

- `mulFallback`, `divFallback`; `native`, `fallback`; `evaluateFee`; `byRatio`, `byRatioNegSize`.
Results: `mulFallback_eq`, `divFallback_eq`, `divNative_eq`: both are exact (`rounded`: floor or ceiling), with no
overflow inside; `feeFrac_exact`: so is `EvaluateFee`, on either path and either platform, and the order by ratio is the
order of the rationals.
-/
import ConnectCoin.Consensus.TxCheck
import ConnectCoin.Lib.Checked

namespace ConnectCoin

open Lib Option

/-- `FeeFrac` -/
structure FeeFrac where
  fee : CAmount
  size : ℤ
  deriving DecidableEq

/-- the order by ratio, by cross multiplication; the operators of `ByRatio` compute it (`byRatioGe_eq`) -/
def FeeFrac.ratioLt (a b : FeeFrac) : Bool := a.fee * b.size < b.fee * a.size

/-- at least `CFeeRate{0}`, and at most the whole money supply over the largest size -/
def FeeFrac.isSafe (rate : FeeFrac) : Bool := !rate.ratioLt ⟨0, 1000⟩ && !FeeFrac.ratioLt ⟨MAX_MONEY, 2 ^ 31 - 1⟩ rate

/-! ## Wide products -/

/-- what follows a truncating division: the step to the floor or to the ceiling, `(mod > 0) - (mod && round_down)` -/
def correction (mod : ℤ) (roundDown : Bool) : ℤ :=
  (if mod > 0 then 1 else 0) - (if mod ≠ 0 ∧ roundDown = true then 1 else 0)

/-- `MulFallback` -/
def mulFallback (a b : ℤ) : Option (ℤ × ℤ) := do
  let low ← i64 (a % 2 ^ 32 * b)
  let high ← i64 (a / 2 ^ 32 * b)
  let first ← i64 (high + low / 2 ^ 32)
  return (first, low % 2 ^ 32)

/-- `DivFallback` -/
def divFallback (n : ℤ × ℤ) (d : ℤ) (roundDown : Bool) : Option ℤ := do
  let quotHigh := n.1.tdiv d
  let modHigh ← i64 (n.1.tmod d * 2 ^ 32)
  let nLow ← i64 (modHigh + n.2)
  let modLow ← i32 (nLow.tmod d)
  let quotLow ← i64 (nLow.tdiv d + correction modLow roundDown)
  let high ← i64 (quotHigh * 2 ^ 32)
  i64 (high + quotLow)

/-- `Div` for `__int128` -/
def divNative (n d : ℤ) (roundDown : Bool) : Option ℤ := do
  let quot ← i64 (n.tdiv d)
  let mod ← i32 (n.tmod d)
  i64 (quot + correction mod roundDown)

/-- the type of a wide product, with what the program does with it -/
structure WideArith where
  Wide : Type
  mul : ℤ → ℤ → Option Wide
  div : Wide → ℤ → Bool → Option ℤ
  cmp : Wide → Wide → Ordering

def native : WideArith where
  Wide := ℤ
  mul a b := i128 (a * b)
  div := divNative
  cmp := compare

def fallback : WideArith where
  Wide := ℤ × ℤ
  mul := mulFallback
  div := divFallback
  cmp x y := (compare x.1 y.1).then (compare x.2 y.2)

/-! ## Fees and order -/

/-- `CeilDiv` -/
def ceilDiv (dividend divisor : ℕ) : ℕ := dividend / divisor + if dividend % divisor ≠ 0 then 1 else 0

/-- the path of `EvaluateFee` for small fees -/
def evaluateSmall (roundDown : Bool) (f : FeeFrac) (atSize : ℤ) : Option ℤ := do
  let product ← Lib.u64 (f.fee.toNat * atSize.toNat)
  i64 (if roundDown then product / f.size.toNat else ceilDiv product f.size.toNat : ℕ)

variable (A : WideArith)

/-- the other path of `EvaluateFee` -/
def evaluateWide (roundDown : Bool) (f : FeeFrac) (atSize : ℤ) : Option ℤ := do
  let product ← A.mul f.fee atSize
  A.div product f.size roundDown

/-- `EvaluateFee` -/
def evaluateFee (roundDown : Bool) (f : FeeFrac) (atSize : ℤ) : Option ℤ :=
  if 0 ≤ f.fee ∧ f.fee < 0x200000000 then evaluateSmall roundDown f atSize else evaluateWide A roundDown f atSize

/-- `EvaluateFeeDown` -/
def evaluateFeeDown (f : FeeFrac) (atSize : ℤ) : Option ℤ := evaluateFee A true f atSize

/-- `EvaluateFeeUp` -/
def evaluateFeeUp (f : FeeFrac) (atSize : ℤ) : Option ℤ := evaluateFee A false f atSize

/-- `operator<=>` of `ByRatio` -/
def byRatio (a b : FeeFrac) : Option Ordering := do
  let crossA ← A.mul a.fee b.size
  let crossB ← A.mul b.fee a.size
  return A.cmp crossA crossB

/-- `operator<=>` of `ByRatioNegSize` -/
def byRatioNegSize (a b : FeeFrac) : Option Ordering := do
  let cmp ← byRatio A a b
  return cmp.then (compare b.size a.size)

/-- the operators of `ByRatio` that are written out -/
def byRatioRel (rel : Ordering → Bool) (A : WideArith) (a b : FeeFrac) : Option Bool := (byRatio A a b).map rel

def byRatioLt := byRatioRel (· == .lt)
def byRatioLe := byRatioRel (· != .gt)
def byRatioGe := byRatioRel (· != .lt)

/-! ## Rounding -/

/-- the exact quotient, rounded down or up -/
def rounded (roundDown : Bool) (n d : ℤ) : ℤ := if roundDown then n / d else -(-n / d)

variable {d m atSize : ℤ} {f g : FeeFrac} {A : WideArith} (n : ℤ) (roundDown : Bool)

theorem rounded_add_mul (m q : ℤ) (hd : 0 < d) : rounded roundDown (q * d + m) d = q + rounded roundDown m d := by
  have hdown : (q * d + m) / d = q + m / d := by rw [add_comm, Int.add_mul_ediv_right _ _ hd.ne', add_comm]
  have hup : -(q * d + m) / d = -q + -m / d := by
    rw [show -(q * d + m) = -m + -q * d by ring, Int.add_mul_ediv_right _ _ hd.ne', add_comm]
  unfold rounded
  split_ifs
  · exact hdown
  · rw [hup]; ring

theorem ediv_of_neg_small (hneg : m < 0) (hd : -d < m) : m / d = -1 := by
  have hshift : (m + d + -1 * d) / d = (m + d) / d + -1 := Int.add_mul_ediv_right _ _ (by omega)
  have hzero : (m + d) / d = 0 := Int.ediv_eq_zero_of_lt (by omega) (by omega)
  rwa [hzero, show m + d + -1 * d = m by ring] at hshift

/-- A remainder of a truncating division is rounded to its correction. -/
theorem rounded_small (hlow : -d < m) (hhigh : m < d) : rounded roundDown m d = correction m roundDown := by
  unfold rounded correction
  rcases lt_trichotomy m 0 with hneg | hzero | hpos
  · have hup : -m / d = 0 := Int.ediv_eq_zero_of_lt (by omega) (by omega)
    rw [ediv_of_neg_small hneg hlow, hup]
    cases roundDown <;> simp [hneg.not_gt, hneg.ne]
  · cases roundDown <;> simp [hzero]
  · have hdown : m / d = 0 := Int.ediv_eq_zero_of_lt hpos.le hhigh
    have hup : -m / d = -1 := ediv_of_neg_small (by omega) (by omega)
    rw [hdown, hup]
    cases roundDown <;> simp [hpos, hpos.ne']

theorem tmod_bounds (hd : 0 < d) : -d < n.tmod d ∧ n.tmod d < d := by
  have hneg := Int.tmod_lt_of_pos (-n) hd
  rw [Int.neg_tmod] at hneg
  exact ⟨by omega, Int.tmod_lt_of_pos n hd⟩

/-- A truncated quotient and its remainder have one sign. -/
theorem tdiv_sign (hd : 0 < d) : 0 ≤ n.tdiv d ∧ 0 ≤ n.tmod d ∨ n.tdiv d ≤ 0 ∧ n.tmod d ≤ 0 := by
  rcases le_total 0 n with hnonneg | hnonpos
  · exact Or.inl ⟨Int.tdiv_nonneg hnonneg hd.le, Int.tmod_nonneg d hnonneg⟩
  · have hquot := Int.tdiv_nonneg (show 0 ≤ -n by omega) hd.le
    have hrest := Int.tmod_nonneg d (show 0 ≤ -n by omega)
    rw [Int.neg_tdiv] at hquot
    rw [Int.neg_tmod] at hrest
    exact Or.inr ⟨by omega, by omega⟩

/-- A truncated quotient and its correction are the rounded quotient. -/
theorem tdiv_add_correction (hd : 0 < d) (roundDown : Bool) :
    n.tdiv d + correction (n.tmod d) roundDown = rounded roundDown n d := by
  have hbounds := tmod_bounds n hd
  conv_rhs => rw [← Int.tdiv_mul_add_tmod n d]
  rw [rounded_add_mul roundDown _ _ hd, rounded_small roundDown hbounds.1 hbounds.2]

theorem rounded_le {n c : ℤ} (hd : 0 < d) (hle : n ≤ c * d) : rounded roundDown n d ≤ c := by
  unfold rounded
  split_ifs
  · exact Int.ediv_le_of_le_mul hd hle
  · have hup : -c ≤ -n / d := (Int.le_ediv_iff_mul_le hd).mpr (by rw [neg_mul]; omega)
    omega

theorem le_rounded {n c : ℤ} (hd : 0 < d) (hle : c * d ≤ n) : c ≤ rounded roundDown n d := by
  unfold rounded
  split_ifs
  · exact (Int.le_ediv_iff_mul_le hd).mpr hle
  · have hup : -n / d ≤ -c := Int.ediv_le_of_le_mul hd (by rw [neg_mul]; omega)
    omega

theorem le_mul_rounded_up (hd : 0 < d) : n ≤ d * rounded false n d := by
  have hdivide := Int.mul_ediv_self_le (x := -n) hd.ne'
  simp only [rounded, Bool.false_eq_true, if_false]
  linarith

/-! ## The wide operations are exact -/

theorem abs_mul_le {x y X Y : ℤ} (hx : |x| ≤ X) (hy : |y| ≤ Y) : |x * y| ≤ X * Y := by
  rw [abs_mul]
  exact mul_le_mul hx hy (abs_nonneg _) ((abs_nonneg _).trans hx)

/-- The portable product is the product, in two parts; nothing overflows. -/
theorem mulFallback_eq {a b : ℤ} (ha : Signed 64 a) (hb : Signed 32 b) :
    ∃ n, mulFallback a b = some n ∧ n.1 * 2 ^ 32 + n.2 = a * b ∧ 0 ≤ n.2 ∧ n.2 < 2 ^ 32 ∧ |n.1| ≤ 2 ^ 62 + 2 ^ 31 := by
  simp only [Signed, Nat.reduceSub] at ha hb
  have hb' : |b| ≤ 2 ^ 31 := abs_le.mpr ⟨by omega, by omega⟩
  have hlow : |a % 2 ^ 32 * b| ≤ (2 ^ 32 - 1) * 2 ^ 31 := abs_mul_le (abs_le.mpr ⟨by omega, by omega⟩) hb'
  have hhigh : |a / 2 ^ 32 * b| ≤ 2 ^ 31 * 2 ^ 31 := abs_mul_le (abs_le.mpr ⟨by omega, by omega⟩) hb'
  have hvalue : a / 2 ^ 32 * b * 2 ^ 32 + a % 2 ^ 32 * b = a * b := by
    calc a / 2 ^ 32 * b * 2 ^ 32 + a % 2 ^ 32 * b = (2 ^ 32 * (a / 2 ^ 32) + a % 2 ^ 32) * b := by ring
      _ = a * b := by rw [Int.mul_ediv_add_emod]
  unfold mulFallback
  generalize a % 2 ^ 32 * b = low at hlow hvalue ⊢
  generalize a / 2 ^ 32 * b = high at hhigh hvalue ⊢
  rw [abs_le] at hlow hhigh
  have hfits : Signed 64 low ∧ Signed 64 high ∧ Signed 64 (high + low / 2 ^ 32) := by
    simp only [Signed, Nat.reduceSub]
    omega
  refine ⟨(high + low / 2 ^ 32, low % 2 ^ 32), ?_, ?_, by omega, by omega, abs_le.mpr ⟨by omega, by omega⟩⟩
  · simp only [i64, signed_of hfits.1, signed_of hfits.2.1, signed_of hfits.2.2, bind_eq_bind, bind_some, pure_def]
  · rw [← hvalue]
    change (high + low / 2 ^ 32) * 2 ^ 32 + low % 2 ^ 32 = _
    omega

/-- The portable division is the rounded quotient if that fits; nothing overflows. -/
theorem divFallback_eq {n : ℤ × ℤ} (hlow : 0 ≤ n.2 ∧ n.2 < 2 ^ 32) (hd : 1 ≤ d ∧ d < 2 ^ 31)
    (hfits : Signed 64 (rounded roundDown (n.1 * 2 ^ 32 + n.2) d)) :
    divFallback n d roundDown = some (rounded roundDown (n.1 * 2 ^ 32 + n.2) d) := by
  have hpos : 0 < d := by omega
  obtain ⟨first, second⟩ := n
  have hdivide := Int.tdiv_mul_add_tmod first d
  have hmod := tmod_bounds first hpos
  have hsign := tdiv_sign first hpos
  -- the quotient of the high part is exact; what it leaves is divided with the low part
  have hsplit : rounded roundDown (first * 2 ^ 32 + second) d =
      first.tdiv d * 2 ^ 32 + rounded roundDown (first.tmod d * 2 ^ 32 + second) d := by
    rw [← rounded_add_mul roundDown _ _ hpos]
    congr 1
    calc first * 2 ^ 32 + second = (first.tdiv d * d + first.tmod d) * 2 ^ 32 + second := by rw [hdivide]
      _ = first.tdiv d * 2 ^ 32 * d + (first.tmod d * 2 ^ 32 + second) := by ring
  simp only [hsplit] at hfits ⊢
  set nLow := first.tmod d * 2 ^ 32 + second with hnLow
  have hupper : rounded roundDown nLow d ≤ max nLow 0 := rounded_le roundDown hpos
    ((le_max_left _ _).trans (le_mul_of_one_le_right (le_max_right _ _) hpos))
  have hlower : min nLow 0 ≤ rounded roundDown nLow d := le_rounded roundDown hpos
    ((mul_le_of_one_le_right (min_le_right _ _) hpos).trans (min_le_left _ _))
  have hquotLow := tdiv_add_correction nLow hpos roundDown
  have hmodLow := tmod_bounds nLow hpos
  simp only at hlow
  simp only [Signed, Nat.reduceSub] at hfits
  have hmodHigh_fits : Signed 64 (first.tmod d * 2 ^ 32) := by simp only [Signed, Nat.reduceSub]; omega
  have hnLow_fits : Signed 64 nLow := by simp only [Signed, Nat.reduceSub]; omega
  have hmodLow_fits : Signed 32 (nLow.tmod d) := by simp only [Signed, Nat.reduceSub]; omega
  have hquotLow_fits : Signed 64 (rounded roundDown nLow d) := by simp only [Signed, Nat.reduceSub]; omega
  have hhigh_fits : Signed 64 (first.tdiv d * 2 ^ 32) := by simp only [Signed, Nat.reduceSub]; omega
  simp only [divFallback, i64, i32, signed_of hmodHigh_fits, bind_eq_bind, bind_some, ← hnLow, signed_of hnLow_fits,
    signed_of hmodLow_fits, hquotLow, signed_of hquotLow_fits, signed_of hhigh_fits]
  exact signed_of hfits

/-- The native division is the rounded quotient if that fits. -/
theorem divNative_eq {n : ℤ} (hd : 1 ≤ d ∧ d < 2 ^ 31) (hfits : Signed 64 (rounded roundDown n d)) :
    divNative n d roundDown = some (rounded roundDown n d) := by
  have hpos : 0 < d := by omega
  have hmod := tmod_bounds n hpos
  have hquot := tdiv_add_correction n hpos roundDown
  -- the correction goes away from zero, so the truncated quotient fits too
  have hcorrection : (0 ≤ n.tmod d → 0 ≤ correction (n.tmod d) roundDown) ∧
      (n.tmod d ≤ 0 → correction (n.tmod d) roundDown ≤ 0) := by
    unfold correction
    split_ifs <;> omega
  have hsign := tdiv_sign n hpos
  have hrounded := hfits
  simp only [Signed, Nat.reduceSub] at hrounded
  have hquot_fits : Signed 64 (n.tdiv d) := by simp only [Signed, Nat.reduceSub]; omega
  have hmod_fits : Signed 32 (n.tmod d) := by simp only [Signed, Nat.reduceSub]; omega
  simp only [divNative, i64, i32, signed_of hquot_fits, signed_of hmod_fits, bind_eq_bind, bind_some, hquot]
  exact signed_of hfits

/-! ## Both platforms -/

/-- the wide operations lose nothing: a product divides to its rounded quotient, and products are ordered as numbers -/
structure WideArith.Exact (A : WideArith) : Prop where
  div_eq : ∀ {a b d : ℤ} (roundDown : Bool), Signed 64 a → Signed 32 b → 1 ≤ d ∧ d < 2 ^ 31 →
    Signed 64 (rounded roundDown (a * b) d) → ((A.mul a b).bind fun product => A.div product d roundDown) = some
    (rounded roundDown (a * b) d)
  cmp_eq : ∀ {a b c e : ℤ}, Signed 64 a → Signed 32 b → Signed 64 c → Signed 32 e →
    ∃ m n, A.mul a b = some m ∧ A.mul c e = some n ∧ A.cmp m n = compare (a * b) (c * e)

theorem native_mul_eq {a b : ℤ} (ha : Signed 64 a) (hb : Signed 32 b) : native.mul a b = some (a * b) := by
  simp only [Signed, Nat.reduceSub] at ha hb
  have hproduct : |a * b| ≤ 2 ^ 63 * 2 ^ 31 :=
    abs_mul_le (abs_le.mpr ⟨by omega, by omega⟩) (abs_le.mpr ⟨by omega, by omega⟩)
  apply signed_of
  rw [abs_le] at hproduct
  simp only [Signed, Nat.reduceSub]
  omega

theorem native_exact : native.Exact where
  div_eq roundDown ha hb hd hfits := by
    rw [native_mul_eq ha hb]
    exact divNative_eq roundDown hd hfits
  cmp_eq ha hb hc he := ⟨_, _, native_mul_eq ha hb, native_mul_eq hc he, rfl⟩

/-- Pairs with a low part of 32 bits are ordered as the numbers they spell. -/
theorem compare_pair {x y : ℤ × ℤ} (hx : 0 ≤ x.2 ∧ x.2 < 2 ^ 32) (hy : 0 ≤ y.2 ∧ y.2 < 2 ^ 32) :
    (compare x.1 y.1).then (compare x.2 y.2) = compare (x.1 * 2 ^ 32 + x.2) (y.1 * 2 ^ 32 + y.2) := by
  rcases lt_trichotomy x.1 y.1 with hlt | heq | hgt
  · rw [compare_lt_iff_lt.mpr hlt, eq_comm]
    exact compare_lt_iff_lt.mpr (by omega)
  · rw [compare_eq_iff_eq.mpr heq, heq]
    change compare x.2 y.2 = _
    rcases lt_trichotomy x.2 y.2 with hlt₂ | heq₂ | hgt₂
    · rw [compare_lt_iff_lt.mpr hlt₂, eq_comm]
      exact compare_lt_iff_lt.mpr (by omega)
    · rw [heq₂, compare_eq_iff_eq.mpr rfl, compare_eq_iff_eq.mpr rfl]
    · rw [compare_gt_iff_gt.mpr hgt₂, eq_comm]
      exact compare_gt_iff_gt.mpr (by omega)
  · rw [compare_gt_iff_gt.mpr hgt, eq_comm]
    exact compare_gt_iff_gt.mpr (by omega)

theorem fallback_exact : fallback.Exact where
  div_eq {a b d} roundDown ha hb hd hfits := by
    obtain ⟨n, hmul, hvalue, hlow, hhigh, -⟩ := mulFallback_eq ha hb
    change ((mulFallback a b).bind fun product => divFallback product d roundDown) = _
    rw [hmul, bind_some, ← hvalue]
    rw [← hvalue] at hfits
    exact divFallback_eq roundDown ⟨hlow, hhigh⟩ hd hfits
  cmp_eq ha hb hc he := by
    obtain ⟨m, hmul, hvalue, hlow, hhigh, -⟩ := mulFallback_eq ha hb
    obtain ⟨n, hmul', hvalue', hlow', hhigh', -⟩ := mulFallback_eq hc he
    refine ⟨m, n, hmul, hmul', ?_⟩
    rw [← hvalue, ← hvalue']
    exact compare_pair ⟨hlow, hhigh⟩ ⟨hlow', hhigh'⟩

theorem exact_of_platform (hA : A = native ∨ A = fallback) : A.Exact := by
  rcases hA with rfl | rfl
  · exact native_exact
  · exact fallback_exact

/-! ## Fees and ratios -/

/-- the fields have the widths of the program, and the size is positive -/
structure FeeFrac.InRange (f : FeeFrac) : Prop where
  fee : Signed 64 f.fee
  size : 1 ≤ f.size ∧ f.size < 2 ^ 31

/-- the exact fee for a size, rounded down or up -/
def exactFee (roundDown : Bool) (f : FeeFrac) (atSize : ℤ) : ℤ :=
  if roundDown then ⌊(f.fee * atSize : ℚ) / f.size⌋ else ⌈(f.fee * atSize : ℚ) / f.size⌉

theorem exactFee_eq (hf : f.InRange) (atSize : ℤ) :
    exactFee roundDown f atSize = rounded roundDown (f.fee * atSize) f.size := by
  have hsize : ((f.size.toNat : ℕ) : ℤ) = f.size := Int.toNat_of_nonneg (by have := hf.size; omega)
  have hratio : (f.fee * atSize : ℚ) / f.size = ((f.fee * atSize : ℤ) : ℚ) / (f.size.toNat : ℕ) := by
    rw [← Int.cast_natCast, hsize]
    push_cast
    ring
  unfold exactFee rounded
  rw [hratio, Rat.floor_intCast_div_natCast, Rat.ceil_intCast_div_natCast, hsize]

theorem evaluateWide_eq (hA : A.Exact) (roundDown : Bool) (hf : f.InRange) (hat : 0 ≤ atSize ∧ atSize < 2 ^ 31)
    (hfits : Signed 64 (exactFee roundDown f atSize)) :
    evaluateWide A roundDown f atSize = some (exactFee roundDown f atSize) := by
  rw [exactFee_eq roundDown hf] at hfits ⊢
  have hat' : Signed 32 atSize := by simp only [Signed, Nat.reduceSub]; omega
  exact hA.div_eq roundDown hf.fee hat' hf.size hfits

theorem rounded_natCast (n : ℕ) {d : ℕ} (hd : 0 < d) :
    rounded roundDown (n : ℤ) d = ((if roundDown then n / d else ceilDiv n d : ℕ) : ℤ) := by
  rw [← tdiv_add_correction n (by exact_mod_cast hd) roundDown, ← Int.ofNat_tdiv, ← Int.ofNat_tmod, correction, ceilDiv]
  generalize n % d = m
  rcases Nat.eq_zero_or_pos m with hzero | hpos
  · cases roundDown <;> simp [hzero]
  · cases roundDown <;> simp [hpos, hpos.ne']

/-- A small fee takes 33 bits and a size 31, so the product needs no wide arithmetic. -/
theorem evaluateSmall_eq (hf : f.InRange) (hfee : 0 ≤ f.fee ∧ f.fee < 0x200000000) (hat : 0 ≤ atSize ∧ atSize < 2 ^ 31)
    (hfits : Signed 64 (exactFee roundDown f atSize)) :
    evaluateSmall roundDown f atSize = some (exactFee roundDown f atSize) := by
  have hsize := hf.size
  have hfeeNat : f.fee.toNat ≤ 2 ^ 33 - 1 := Int.toNat_le.mpr (by norm_num; linarith [hfee.2])
  have hproduct : f.fee.toNat * atSize.toNat < 2 ^ 64 := by
    have hmul : f.fee.toNat * atSize.toNat ≤ (2 ^ 33 - 1) * (2 ^ 31 - 1) := Nat.mul_le_mul hfeeNat (by omega)
    omega
  have hexact : exactFee roundDown f atSize =
      ((if roundDown then f.fee.toNat * atSize.toNat / f.size.toNat else ceilDiv (f.fee.toNat * atSize.toNat)
      f.size.toNat : ℕ) : ℤ) := by
    rw [exactFee_eq roundDown hf, ← rounded_natCast roundDown _ (by omega), Nat.cast_mul, Int.toNat_of_nonneg hfee.1,
      Int.toNat_of_nonneg hat.1, Int.toNat_of_nonneg (by omega)]
  rw [evaluateSmall, u64_of_lt hproduct, bind_eq_bind, bind_some, ← hexact]
  exact signed_of hfits

theorem evaluateFee_eq (hA : A.Exact) (roundDown : Bool) (hf : f.InRange) (hat : 0 ≤ atSize ∧ atSize < 2 ^ 31)
    (hfits : Signed 64 (exactFee roundDown f atSize)) :
    evaluateFee A roundDown f atSize = some (exactFee roundDown f atSize) := by
  unfold evaluateFee
  split_ifs with hfee
  · exact evaluateSmall_eq roundDown hf hfee hat hfits
  · exact evaluateWide_eq hA roundDown hf hat hfits

theorem compare_cross (hf : f.InRange) (hg : g.InRange) :
    compare (f.fee * g.size) (g.fee * f.size) = compare (f.fee / f.size : ℚ) (g.fee / g.size) := by
  have hfs : (0 : ℚ) < f.size := by exact_mod_cast (show 0 < f.size by have := hf.size; omega)
  have hgs : (0 : ℚ) < g.size := by exact_mod_cast (show 0 < g.size by have := hg.size; omega)
  have hlt : (f.fee / f.size : ℚ) < g.fee / g.size ↔ f.fee * g.size < g.fee * f.size := by
    rw [div_lt_div_iff₀ hfs hgs]; exact_mod_cast Iff.rfl
  have hgt : (g.fee / g.size : ℚ) < f.fee / f.size ↔ g.fee * f.size < f.fee * g.size := by
    rw [div_lt_div_iff₀ hgs hfs]; exact_mod_cast Iff.rfl
  rcases lt_trichotomy (f.fee * g.size) (g.fee * f.size) with h | h | h
  · rw [compare_lt_iff_lt.mpr h, compare_lt_iff_lt.mpr (hlt.mpr h)]
  · have heq : (f.fee / f.size : ℚ) = g.fee / g.size :=
      le_antisymm (not_lt.mp fun h' => absurd (hgt.mp h') (by rw [h]; exact lt_irrefl _))
        (not_lt.mp fun h' => absurd (hlt.mp h') (by rw [h]; exact lt_irrefl _))
    rw [compare_eq_iff_eq.mpr h, compare_eq_iff_eq.mpr heq]
  · rw [compare_gt_iff_gt.mpr h, compare_gt_iff_gt.mpr (hgt.mpr h)]

theorem byRatio_eq (hA : A.Exact) (hfee : Signed 64 f.fee) (hsize : Signed 32 f.size) (hfee' : Signed 64 g.fee)
    (hsize' : Signed 32 g.size) : byRatio A f g = some (compare (f.fee * g.size) (g.fee * f.size)) := by
  obtain ⟨m, n, hm, hn, hcmp⟩ := hA.cmp_eq hfee hsize' hfee' hsize
  simp only [byRatio, hm, hn, bind_eq_bind, bind_some, hcmp, pure_def]

theorem byRatioGe_eq (hA : A.Exact) (hfee : Signed 64 f.fee) (hsize : Signed 32 f.size) (hfee' : Signed 64 g.fee)
    (hsize' : Signed 32 g.size) : byRatioGe A f g = some (!f.ratioLt g) := by
  rw [byRatioGe, byRatioRel, byRatio_eq hA hfee hsize hfee' hsize', map_some, some_inj, Bool.eq_iff_iff]
  simp [FeeFrac.ratioLt, compare_lt_iff_lt]

theorem byRatioLe_eq (hA : A.Exact) (hfee : Signed 64 f.fee) (hsize : Signed 32 f.size) (hfee' : Signed 64 g.fee)
    (hsize' : Signed 32 g.size) : byRatioLe A f g = some (!g.ratioLt f) := by
  rw [byRatioLe, byRatioRel, byRatio_eq hA hfee hsize hfee' hsize', map_some, some_inj, Bool.eq_iff_iff]
  simp [FeeFrac.ratioLt, compare_gt_iff_gt]

theorem FeeFrac.InRange.size_signed (hf : f.InRange) : Signed 32 f.size := by
  have hsize := hf.size
  simp only [Signed, Nat.reduceSub]
  omega

/-- On either platform: the fee for a size is the floor or the ceiling of the exact quotient, on both paths; the
portable product and division are the native ones; and ratios are ordered as rationals, larger sizes first among equals
in `ByRatioNegSize`. -/
theorem feeFrac_exact (A : WideArith) (hA : A = native ∨ A = fallback) (f g : FeeFrac) (hf : f.InRange)
    (hg : g.InRange) :
      (∀ roundDown, ∀ atSize : ℤ, 0 ≤ atSize → atSize < 2 ^ 31 → Signed 64 (exactFee roundDown f atSize) →
        evaluateFee A roundDown f atSize = some (exactFee roundDown f atSize) ∧
      evaluateWide A roundDown f atSize = some (exactFee roundDown f atSize) ∧
      (0 ≤ f.fee → f.fee < 0x200000000 → evaluateSmall roundDown f atSize = some (exactFee roundDown f atSize)) ∧
      ∃ product, mulFallback f.fee atSize = some product ∧
        native.mul f.fee atSize = some (product.1 * 2 ^ 32 + product.2) ∧
        divFallback product f.size roundDown = divNative (product.1 * 2 ^ 32 + product.2) f.size roundDown ∧
        divFallback product f.size roundDown = some (exactFee roundDown f atSize)) ∧
    byRatio A f g = some (compare (f.fee / f.size : ℚ) (g.fee / g.size)) ∧
    byRatioNegSize A f g = some ((compare (f.fee / f.size : ℚ) (g.fee / g.size)).then (compare g.size f.size)) := by
  have hexact := exact_of_platform hA
  have hratio : byRatio A f g = some (compare (f.fee / f.size : ℚ) (g.fee / g.size)) := by
    rw [byRatio_eq hexact hf.fee hf.size_signed hg.fee hg.size_signed, compare_cross hf hg]
  refine ⟨fun roundDown atSize hnonneg hlt hfits => ?_, hratio, by simp only [byRatioNegSize, hratio]; rfl⟩
  have hat : Signed 32 atSize := by simp only [Signed, Nat.reduceSub]; omega
  refine ⟨evaluateFee_eq hexact roundDown hf ⟨hnonneg, hlt⟩ hfits,
    evaluateWide_eq hexact roundDown hf ⟨hnonneg, hlt⟩ hfits,
    fun hfee hsmall => evaluateSmall_eq roundDown hf ⟨hfee, hsmall⟩ ⟨hnonneg, hlt⟩ hfits, ?_⟩
  obtain ⟨product, hmul, hvalue, hlow, hhigh, -⟩ := mulFallback_eq hf.fee hat
  have hrounded : Signed 64 (rounded roundDown (product.1 * 2 ^ 32 + product.2) f.size) := by
    rwa [hvalue, ← exactFee_eq roundDown hf]
  refine ⟨product, hmul, (native_mul_eq hf.fee hat).trans (congrArg some hvalue.symm), ?_, ?_⟩
  · rw [divFallback_eq roundDown ⟨hlow, hhigh⟩ hf.size hrounded, divNative_eq roundDown hf.size hrounded]
  · rw [divFallback_eq roundDown ⟨hlow, hhigh⟩ hf.size hrounded, hvalue, exactFee_eq roundDown hf]

/-- The smallest fee at its own size comes back through the portable arithmetic. -/
theorem feeFrac_exact_smallest : evaluateFee fallback false ⟨-2 ^ 63, 2 ^ 31 - 1⟩ (2 ^ 31 - 1) =
      some (exactFee false ⟨-2 ^ 63, 2 ^ 31 - 1⟩ (2 ^ 31 - 1)) := by
  have hrange : (⟨-2 ^ 63, 2 ^ 31 - 1⟩ : FeeFrac).InRange := ⟨by decide, by decide⟩
  have hfits : Signed 64 (exactFee false ⟨-2 ^ 63, 2 ^ 31 - 1⟩ (2 ^ 31 - 1)) := by
    rw [exactFee_eq false hrange]
    decide
  exact ((feeFrac_exact fallback (Or.inr rfl) _ _ hrange hrange).1 false _ (by decide) (by decide) hfits).1

end ConnectCoin
