/-
Difficulty retargeting (`pow.cpp`): the target a block must have, and that headers sync lets it through.

- `BaseUint.multiplyDivide`: `MultiplyDivide` over digits; `ExactSteps`: none of its operations wraps.
- `calculateNextWorkRequired`, `getNextWorkRequired`: with the minimum difficulty rule and BIP94; none stands for a
  failed assertion or a null pointer.
Results:
- `multiplyDivide_exact`: the split product is floor(value * multiplier / divisor) whenever this fits, with no operation
  wrapping;
- `scaledTarget_eq`: an end of the permitted range is a rounded target, so that the range grows with the timespan;
- `retarget_exact`: what `GetNextWorkRequired` returns, and that `PermittedDifficultyTransition` accepts it. The two
  clamp in another order (the timespan here, the target there), and both round: rounding is monotone.
-/
import ConnectCoin.Core.CompactForm
import ConnectCoin.Sync.Pow

namespace ConnectCoin

open BaseUint Option

/-! ## Retargeting -/

/-- `MultiplyDivide`; none stands for a division by zero -/
def BaseUint.multiplyDivide (value : BaseUint 8) (multiplier divisor : UInt32) : Option (BaseUint 8) := do
  let quotient ← value.div (ofUInt64 divisor.toUInt64)
  let remainder := value.sub (quotient.mulWord divisor)
  let remainder := remainder.mulWord multiplier
  let remainder ← remainder.div (ofUInt64 divisor.toUInt64)
  return (quotient.mulWord multiplier).add remainder

/-- the parameters with the two other retargeting rules -/
structure RetargetParams extends Params where
  fPowNoRetargeting : Bool
  enforceBIP94 : Bool

/-- `GetBlockTime` -/
def CBlockIndex.getBlockTime (b : CBlockIndex) : ℤ := b.header.nTime.toNat

/-- the height of the first block of the interval that ends with a block -/
def firstHeight (P : Params) (pindexLast : CBlockIndex) : ℤ := pindexLast.nHeight - (P.difficultyAdjustmentInterval - 1)

/-- `CalculateNextWorkRequired` -/
def calculateNextWorkRequired (P : RetargetParams) (pindexLast : CBlockIndex) (nFirstBlockTime : ℤ) :
    Option UInt32 := do
  if P.fPowNoRetargeting then return pindexLast.header.nBits
  -- limit adjustment step
  let nPowTargetTimespan : ℤ := P.nPowTargetTimespan
  let nActualTimespan := pindexLast.getBlockTime - nFirstBlockTime
  let nActualTimespan := if nActualTimespan < nPowTargetTimespan / 4 then nPowTargetTimespan / 4 else nActualTimespan
  let nActualTimespan := if nActualTimespan > nPowTargetTimespan * 4 then nPowTargetTimespan * 4 else nActualTimespan
  let bnPowLimit := ofUint256 P.powLimit
  let bnNew ← if P.enforceBIP94 then
      (pindexLast.getAncestor (firstHeight P.toParams pindexLast)).map fun first =>
        (BaseUint.setCompact first.header.nBits).value
    else some (BaseUint.setCompact pindexLast.header.nBits).value
  if ¬ (0 < nActualTimespan ∧ nActualTimespan < 2 ^ 32) ∨ ¬ (0 < nPowTargetTimespan ∧ nPowTargetTimespan < 2 ^ 32) then
    none
  else
    let bnNew ← bnNew.multiplyDivide (UInt32.ofNat nActualTimespan.toNat) (UInt32.ofNat P.nPowTargetTimespan)
    let bnNew := if bnNew.compareTo bnPowLimit = .gt then bnPowLimit else bnNew
    bnNew.getCompact

/-- the last block that was not mined under the minimum difficulty rule, or the first of its interval -/
def lastRegularBits (interval : ℕ) (nProofOfWorkLimit : UInt32) : CBlockIndex → UInt32
  | .mk header _ _ none _ => header.nBits
  | .mk header nHeight _ (some pprev) _ =>
    if nHeight % interval ≠ 0 ∧ header.nBits = nProofOfWorkLimit then
      lastRegularBits interval nProofOfWorkLimit pprev else header.nBits

/-- `GetNextWorkRequired` for a block with a time after pindexLast -/
def getNextWorkRequired (P : RetargetParams) (pindexLast : CBlockIndex) (blockTime : ℤ) : Option UInt32 := do
  let nProofOfWorkLimit ← (ofUint256 P.powLimit).getCompact
  if (pindexLast.nHeight + 1) % P.difficultyAdjustmentInterval ≠ 0 then
    if P.fPowAllowMinDifficultyBlocks then
      if blockTime > pindexLast.getBlockTime + P.nPowTargetSpacing * 2 then return nProofOfWorkLimit
      else return lastRegularBits P.difficultyAdjustmentInterval nProofOfWorkLimit pindexLast
    else return pindexLast.header.nBits
  else if firstHeight P.toParams pindexLast < 0 then none
  else
    let pindexFirst ← pindexLast.getAncestor (firstHeight P.toParams pindexLast)
    calculateNextWorkRequired P pindexLast pindexFirst.getBlockTime

/-! ## The product -/

namespace BaseUint

/-- no operation of `MultiplyDivide` wraps -/
def ExactSteps (value : BaseUint 8) (multiplier divisor : UInt32) : Prop :=
  ∃ quotient remainder, value.div (ofUInt64 divisor.toUInt64) = some quotient ∧
    (quotient.mulWord divisor).toNat = quotient.toNat * divisor.toNat ∧
    (value.sub (quotient.mulWord divisor)).toNat + quotient.toNat * divisor.toNat = value.toNat ∧
    ((value.sub (quotient.mulWord divisor)).mulWord multiplier).toNat =
      (value.sub (quotient.mulWord divisor)).toNat * multiplier.toNat ∧
    ((value.sub (quotient.mulWord divisor)).mulWord multiplier).div (ofUInt64 divisor.toUInt64) = some remainder ∧
    (quotient.mulWord multiplier).toNat = quotient.toNat * multiplier.toNat ∧
    ((quotient.mulWord multiplier).add remainder).toNat = quotient.toNat * multiplier.toNat + remainder.toNat

/-- The split product is exact whenever the result fits. -/
theorem multiplyDivide_exact (value : BaseUint 8) (multiplier divisor : UInt32) (hdivisor : divisor ≠ 0)
    (hfits : value.toNat * multiplier.toNat / divisor.toNat < 2 ^ 256) : ExactSteps value multiplier divisor ∧
      ∃ w, value.multiplyDivide multiplier divisor = some w ∧
      w.toNat = value.toNat * multiplier.toNat / divisor.toNat := by
  have hd : divisor.toNat ≠ 0 := fun h => hdivisor (UInt32.toNat_inj.mp h)
  have hdiv : (ofUInt64 divisor.toUInt64 : BaseUint 8).toNat = divisor.toNat := by
    rw [toNat_ofUInt64, UInt32.toNat_toUInt64]
  obtain ⟨quotient, hquotient, hq⟩ := div_eq value (ofUInt64 divisor.toUInt64) (by rwa [hdiv])
  rw [hdiv] at hq
  have hback : quotient.toNat * divisor.toNat ≤ value.toNat := by rw [hq]; exact Nat.div_mul_le_self _ _
  have hback_eq : (quotient.mulWord divisor).toNat = quotient.toNat * divisor.toNat := by
    rw [toNat_mulWord, Nat.mod_eq_of_lt (hback.trans_lt value.toNat_lt)]
  have hrest : (value.sub (quotient.mulWord divisor)).toNat = value.toNat % divisor.toNat := by
    rw [toNat_sub_of_le (by rwa [hback_eq]), hback_eq, hq, Nat.mul_comm, Nat.mod_eq_sub]
  have hsmall : value.toNat % divisor.toNat * multiplier.toNat < 2 ^ 256 := by
    have hmod := Nat.mod_lt value.toNat (Nat.pos_of_ne_zero hd)
    have h₁ := divisor.toNat_lt
    have h₂ := multiplier.toNat_lt
    calc value.toNat % divisor.toNat * multiplier.toNat ≤ 2 ^ 32 * 2 ^ 32 := Nat.mul_le_mul (by omega) h₂.le
      _ < 2 ^ 256 := by norm_num
  have hscaled : ((value.sub (quotient.mulWord divisor)).mulWord multiplier).toNat = value.toNat % divisor.toNat *
      multiplier.toNat := by
    rw [toNat_mulWord, hrest, Nat.mod_eq_of_lt hsmall]
  obtain ⟨remainder, hremainder, hr⟩ :=
    div_eq ((value.sub (quotient.mulWord divisor)).mulWord multiplier) (ofUInt64 divisor.toUInt64) (by rwa [hdiv])
  rw [hdiv, hscaled] at hr
  have hsum : value.toNat * multiplier.toNat / divisor.toNat = quotient.toNat * multiplier.toNat + remainder.toNat := by
    have hsplit : value.toNat * multiplier.toNat =
        value.toNat % divisor.toNat * multiplier.toNat + quotient.toNat * multiplier.toNat * divisor.toNat := by
      have hvalue := Nat.mod_add_div value.toNat divisor.toNat
      rw [← hq] at hvalue
      calc value.toNat * multiplier.toNat = (value.toNat % divisor.toNat + divisor.toNat * quotient.toNat) *
        multiplier.toNat := by rw [hvalue]
        _ = _ := by ring
    rw [hsplit, Nat.add_mul_div_right _ _ (Nat.pos_of_ne_zero hd), hr, Nat.add_comm]
  have hproduct : (quotient.mulWord multiplier).toNat = quotient.toNat * multiplier.toNat := by
    rw [toNat_mulWord, Nat.mod_eq_of_lt (show _ < 2 ^ (32 * 8) by omega)]
  have hadd : ((quotient.mulWord multiplier).add remainder).toNat = quotient.toNat * multiplier.toNat +
      remainder.toNat := by
    rw [toNat_add, hproduct, ← hsum, Nat.mod_eq_of_lt hfits]
  refine ⟨⟨quotient, remainder, hquotient, hback_eq,
    by rw [hrest, hq, Nat.mul_comm, Nat.mod_add_div], by rw [hscaled, hrest], hremainder, hproduct, hadd⟩,
    (quotient.mulWord multiplier).add remainder, ?_, by rw [hadd, hsum]⟩
  simp only [multiplyDivide, hquotient, hremainder, bind_eq_bind, bind_some, pure_def]

theorem toArith_mulWord (a : BaseUint 8) (b32 : UInt32) :
    (a.mulWord b32).toArith = a.toArith * BitVec.ofNat 256 b32.toNat := by
  refine BitVec.eq_of_toNat_eq ?_
  rw [toNat_toArith, toNat_mulWord, BitVec.toNat_mul, toNat_toArith, BitVec.toNat_ofNat, Nat.mul_mod_mod]

theorem toArith_sub (a b : BaseUint 8) : (a.sub b).toArith = a.toArith - b.toArith := by
  refine BitVec.eq_of_toNat_eq ?_
  rw [toNat_toArith, toNat_sub, BitVec.toNat_sub, toNat_toArith, toNat_toArith, Nat.add_comm]

/-- `MultiplyDivide` over the digits is `MultiplyDivide` over bit vectors. -/
theorem multiplyDivide_eq {value w : BaseUint 8} {multiplier divisor : UInt32}
    (h : value.multiplyDivide multiplier divisor = some w) :
    w.toArith = ConnectCoin.multiplyDivide value.toArith multiplier.toNat divisor.toNat := by
  have hdivisor : (ofUInt64 divisor.toUInt64 : BaseUint 8).toArith = BitVec.ofNat 256 divisor.toNat := by
    rw [toArith, toNat_ofUInt64, UInt32.toNat_toUInt64]
  simp only [multiplyDivide, bind_eq_bind, bind_eq_some_iff, pure_def, Option.some.injEq] at h
  obtain ⟨quotient, hquotient, remainder, hremainder, rfl⟩ := h
  rw [ConnectCoin.multiplyDivide, Nat.mod_eq_of_lt multiplier.toNat_lt, Nat.mod_eq_of_lt divisor.toNat_lt, toArith_add,
    toArith_mulWord, toArith_div hremainder, toArith_mulWord, toArith_sub, toArith_mulWord,
    toArith_div hquotient, hdivisor]

end BaseUint

/-! ## The permitted range -/

section
variable (P : Params) (hlimit : 4 * P.powLimit.toNat < 2 ^ 256) (nBits : UInt32)
  (hT : (setCompact nBits).value.toNat ≤ P.powLimit.toNat)
include hlimit hT

/-- Scaling a target by a timespan of at most four intervals is exact, over digits and over bit vectors. -/
theorem scale_exact {timespan : ℕ} (hspan : timespan ≤ P.nPowTargetTimespan * 4) :
    ExactSteps (BaseUint.setCompact nBits).value (UInt32.ofNat timespan) (UInt32.ofNat P.nPowTargetTimespan) ∧
    ∃ w, (BaseUint.setCompact nBits).value.multiplyDivide (UInt32.ofNat timespan) (UInt32.ofNat P.nPowTargetTimespan) =
      some w ∧ w.toNat = (setCompact nBits).value.toNat * timespan / P.nPowTargetTimespan ∧
      w.toArith = multiplyDivide (setCompact nBits).value timespan P.nPowTargetTimespan := by
  obtain ⟨-, -, hfour, hmax⟩ := P.timespan_ok
  have hvalue : (BaseUint.setCompact nBits).value.toNat = (setCompact nBits).value.toNat := by
    rw [← (setCompact_eq nBits).1, toNat_toArith]
  have hmultiplier : (UInt32.ofNat timespan).toNat = timespan :=
    UInt32.toNat_ofNat_of_lt' (show timespan < 2 ^ 32 by omega)
  have hdivisor : (UInt32.ofNat P.nPowTargetTimespan).toNat = P.nPowTargetTimespan :=
    UInt32.toNat_ofNat_of_lt' (show P.nPowTargetTimespan < 2 ^ 32 by omega)
  have hfits : (setCompact nBits).value.toNat * timespan / P.nPowTargetTimespan < 2 ^ 256 := by
    refine lt_of_le_of_lt ?_ hlimit
    calc (setCompact nBits).value.toNat * timespan / P.nPowTargetTimespan
        ≤ P.powLimit.toNat * (P.nPowTargetTimespan * 4) / P.nPowTargetTimespan :=
          Nat.div_le_div_right (Nat.mul_le_mul hT hspan)
      _ = 4 * P.powLimit.toNat * P.nPowTargetTimespan / P.nPowTargetTimespan := by congr 1; ring
      _ = 4 * P.powLimit.toNat := Nat.mul_div_cancel _ (by omega)
  obtain ⟨hsteps, w, hw, hnumber⟩ := multiplyDivide_exact (BaseUint.setCompact nBits).value (UInt32.ofNat timespan)
    (UInt32.ofNat P.nPowTargetTimespan) (fun h => by rw [h, UInt32.toNat_zero] at hdivisor; omega)
    (by rw [hvalue, hmultiplier, hdivisor]; exact hfits)
  have harith := multiplyDivide_eq hw
  rw [hvalue, hmultiplier, hdivisor] at hnumber
  rw [(setCompact_eq nBits).1, hmultiplier, hdivisor] at harith
  exact ⟨hsteps, w, hw, hnumber, harith⟩

omit hlimit hT in
theorem toNat_uintToArith256 (a : Uint256) : (uintToArith256 a).toNat = a.toNat := by
  rw [← toNat_ofUint256, ← toNat_toArith, toArith, uintToArith256, toNat_ofUint256]

/-- the target scaled by a timespan and capped -/
def cappedTarget (timespan : ℕ) : ℕ :=
  min P.powLimit.toNat ((setCompact nBits).value.toNat * timespan / P.nPowTargetTimespan)

omit hlimit hT in
theorem cappedTarget_mono {timespan timespan' : ℕ} (h : timespan ≤ timespan') :
    cappedTarget P nBits timespan ≤ cappedTarget P nBits timespan' :=
  min_le_min_left _ (Nat.div_le_div_right (Nat.mul_le_mul_left _ h))

/-- An end of the permitted range is the capped target, rounded. -/
theorem scaledTarget_eq {timespan : ℕ} (hspan : timespan ≤ P.nPowTargetTimespan * 4) :
    (scaledTarget P nBits timespan).toNat = roundDown (cappedTarget P nBits timespan) := by
  obtain ⟨-, w, -, hnumber, harith⟩ := scale_exact P hlimit nBits hT hspan
  have ht : (multiplyDivide (setCompact nBits).value timespan P.nPowTargetTimespan).toNat =
      (setCompact nBits).value.toNat * timespan / P.nPowTargetTimespan := by rw [← harith, toNat_toArith, hnumber]
  rw [scaledTarget, setCompact_getCompact, cappedTarget]
  congr 1
  split_ifs with hgt
  · rw [gt_iff_lt, BitVec.lt_def, ht, toNat_uintToArith256] at hgt
    rw [toNat_uintToArith256, min_eq_left hgt.le]
  · rw [gt_iff_lt, BitVec.lt_def, ht, toNat_uintToArith256, not_lt] at hgt
    rw [ht, min_eq_right hgt]

/-- A new target between the two ends of the range passes. -/
theorem permitted_of_between {height : ℕ} {newNBits : UInt32}
    (hlow : roundDown (cappedTarget P nBits (P.nPowTargetTimespan / 4)) ≤ (setCompact newNBits).value.toNat)
    (hhigh : (setCompact newNBits).value.toNat ≤ roundDown (cappedTarget P nBits (P.nPowTargetTimespan * 4)))
    (hheight : height % P.difficultyAdjustmentInterval = 0) :
    permittedDifficultyTransition P height nBits newNBits = true := by
  rw [← scaledTarget_eq P hlimit nBits hT (by omega)] at hlow
  rw [← scaledTarget_eq P hlimit nBits hT le_rfl] at hhigh
  rw [permittedDifficultyTransition]
  split_ifs
  · rfl
  · simp only [gt_iff_lt, BitVec.lt_def, Bool.and_eq_true, Bool.not_eq_true', decide_eq_false_iff_not, not_lt]
    exact ⟨hhigh, hlow⟩

/-- Keeping the target is always permitted. -/
theorem permitted_same {height : ℕ} (hheight : height % P.difficultyAdjustmentInterval = 0) :
    permittedDifficultyTransition P height nBits nBits = true := by
  obtain ⟨-, -, hfour, -⟩ := P.timespan_ok
  have hpos : 0 < P.nPowTargetTimespan := by omega
  have hsame := (setCompact_compactable nBits).roundDown_eq
  refine permitted_of_between P hlimit nBits hT ?_ ?_ hheight
  · conv_rhs => rw [← hsame]
    refine roundDown_mono ((min_le_right _ _).trans ?_)
    exact Nat.div_le_of_le_mul ((Nat.mul_comm _ _).trans_le (Nat.mul_le_mul_right _ (Nat.div_le_self _ _)))
  · conv_lhs => rw [← hsame]
    refine roundDown_mono (le_min hT ?_)
    rw [Nat.le_div_iff_mul_le hpos]
    exact Nat.mul_le_mul_left _ (by omega)

end

/-! ## The next target -/

/-- the actual timespan, limited to a quarter and four times the target timespan -/
def limitedTimespan (P : Params) (actual : ℤ) : ℕ :=
  (max (P.nPowTargetTimespan / 4 : ℤ) (min actual (P.nPowTargetTimespan * 4))).toNat

theorem limitedTimespan_eq (P : Params) (actual : ℤ) :
    (if (if actual < (P.nPowTargetTimespan : ℤ) / 4 then (P.nPowTargetTimespan : ℤ) / 4 else actual) >
      (P.nPowTargetTimespan : ℤ) * 4 then
      (P.nPowTargetTimespan : ℤ) * 4 else if actual < (P.nPowTargetTimespan : ℤ) / 4 then (P.nPowTargetTimespan : ℤ) /
        4 else actual) = limitedTimespan P actual := by
  rw [limitedTimespan]
  split_ifs <;> omega

theorem limitedTimespan_bounds (P : Params) (actual : ℤ) :
    P.nPowTargetTimespan / 4 ≤ limitedTimespan P actual ∧ limitedTimespan P actual ≤ P.nPowTargetTimespan * 4 := by
  rw [limitedTimespan]
  omega

section
variable (P : RetargetParams) (h94 : P.enforceBIP94 = false) (hlimit : 4 * P.powLimit.toNat < 2 ^ 256)
  (pindexLast : CBlockIndex) (hT : (setCompact pindexLast.header.nBits).value.toNat ≤ P.powLimit.toNat)
include h94 hlimit hT

theorem calculateNextWorkRequired_eq (hretarget : P.fPowNoRetargeting = false) (first : ℤ) :
    calculateNextWorkRequired P pindexLast first = some (getCompact (BitVec.ofNat 256
        (cappedTarget P.toParams pindexLast.header.nBits
          (limitedTimespan P.toParams (pindexLast.getBlockTime - first))))) := by
  obtain ⟨-, -, hfour, hmax⟩ := P.timespan_ok
  obtain ⟨hlow, hhigh⟩ := limitedTimespan_bounds P.toParams (pindexLast.getBlockTime - first)
  obtain ⟨-, w, hw, hnumber, -⟩ := scale_exact P.toParams hlimit pindexLast.header.nBits hT hhigh
  have hassert : ¬ (¬ (0 < (limitedTimespan P.toParams (pindexLast.getBlockTime - first) : ℤ) ∧
      (limitedTimespan P.toParams (pindexLast.getBlockTime - first) : ℤ) < 2 ^ 32) ∨
      ¬ (0 < (P.nPowTargetTimespan : ℤ) ∧ (P.nPowTargetTimespan : ℤ) < 2 ^ 32)) := by omega
  simp only [calculateNextWorkRequired, hretarget, h94, Bool.false_eq_true, if_false, limitedTimespan_eq, bind_eq_bind,
    bind_some, Int.toNat_natCast, hw, pure_def]
  rw [if_neg hassert, getCompact_eq]
  congr 2
  refine BitVec.eq_of_toNat_eq ?_
  have hbelow : cappedTarget P.toParams pindexLast.header.nBits
      (limitedTimespan P.toParams (pindexLast.getBlockTime - first)) < 2 ^ 256 := (min_le_left _ _).trans_lt (by omega)
  rw [toNat_toArith, compareTo_eq, toNat_ofUint256, BitVec.toNat_ofNat, Nat.mod_eq_of_lt hbelow, cappedTarget]
  split_ifs with hgt
  · rw [compare_gt_iff_gt, hnumber] at hgt
    rw [toNat_ofUint256, min_eq_left (le_of_lt hgt)]
  · rw [compare_gt_iff_gt, hnumber, not_lt] at hgt
    rw [hnumber, min_eq_right hgt]

end

/-- Without the minimum difficulty rule and BIP94, on every chain whose last target T is in range: a new interval begins
with the compact form of min(powLimit, floor(T * span / timespan)), no operation wrapping, or with the old target if
retargeting is off; elsewhere the target stays. `PermittedDifficultyTransition` accepts it each time. -/
theorem retarget_exact [Crypto] (P : RetargetParams) (hmin : P.fPowAllowMinDifficultyBlocks = false)
    (h94 : P.enforceBIP94 = false) (hlimit : 4 * P.powLimit.toNat < 2 ^ 256) (pindexLast : CBlockIndex)
    (hchain : CBlockIndex.Built pindexLast) (T : ℕ)
    (hT : (setCompact pindexLast.header.nBits).value.toNat = T) (hle : T ≤ P.powLimit.toNat) (blockTime : ℤ) :
    ∃ nBits, getNextWorkRequired P pindexLast blockTime = some nBits ∧
      ((pindexLast.nHeight + 1) % P.difficultyAdjustmentInterval ≠ 0 ∨ P.fPowNoRetargeting = true →
        nBits = pindexLast.header.nBits) ∧
      ((pindexLast.nHeight + 1) % P.difficultyAdjustmentInterval = 0 → P.fPowNoRetargeting = false →
        ∃ first, pindexLast.above (P.difficultyAdjustmentInterval - 1) = some first ∧
          let span := limitedTimespan P.toParams (pindexLast.getBlockTime - first.getBlockTime)
          ExactSteps (BaseUint.setCompact pindexLast.header.nBits).value (UInt32.ofNat span)
            (UInt32.ofNat P.nPowTargetTimespan) ∧
          nBits = getCompact (BitVec.ofNat 256 (min P.powLimit.toNat (T * span / P.nPowTargetTimespan)))) ∧
      permittedDifficultyTransition P.toParams (pindexLast.nHeight + 1) pindexLast.header.nBits nBits = true := by
  obtain ⟨hspacing, hle_timespan, -, -⟩ := P.timespan_ok
  have hle' : (setCompact pindexLast.header.nBits).value.toNat ≤ P.powLimit.toNat := hT.trans_le hle
  by_cases hheight : (pindexLast.nHeight + 1) % P.difficultyAdjustmentInterval = 0
  · -- the first block of the interval is on the chain
    have hinterval : 0 < P.difficultyAdjustmentInterval := Nat.div_pos hle_timespan hspacing
    have hreach : P.difficultyAdjustmentInterval ≤ pindexLast.nHeight + 1 :=
      Nat.le_of_dvd (Nat.succ_pos _) (Nat.dvd_of_mod_eq_zero hheight)
    obtain ⟨first, hfirst, -, -⟩ := CBlockIndex.grown_graded.up_exists hchain.grown
      (show P.difficultyAdjustmentInterval - 1 ≤ pindexLast.nHeight by omega)
    have hancestor : pindexLast.getAncestor (firstHeight P.toParams pindexLast) = some first := by
      have hfirstHeight : firstHeight P.toParams pindexLast =
          ((pindexLast.nHeight - (P.difficultyAdjustmentInterval - 1) : ℕ) : ℤ) := by
        rw [firstHeight]
        omega
      rw [hfirstHeight, hchain.getAncestor_eq (Nat.sub_le _ _), Nat.sub_sub_self (by omega)]
      exact hfirst
    have hnonneg : ¬ firstHeight P.toParams pindexLast < 0 := by rw [firstHeight]; omega
    have hnext : getNextWorkRequired P pindexLast blockTime =
        calculateNextWorkRequired P pindexLast first.getBlockTime := by
      simp only [getNextWorkRequired, getCompact_eq, hheight, hancestor, hnonneg, ne_eq, not_true,
        if_false, bind_eq_bind, bind_some]
    rw [hnext]
    cases hretarget : P.fPowNoRetargeting with
    | true =>
      refine ⟨pindexLast.header.nBits,
        by simp only [calculateNextWorkRequired, hretarget, if_true, pure_def], fun _ => rfl,
        fun _ hfalse => absurd hfalse (by decide), permitted_same P.toParams hlimit _ hle' hheight⟩
    | false =>
      obtain ⟨hlow, hhigh⟩ := limitedTimespan_bounds P.toParams (pindexLast.getBlockTime - first.getBlockTime)
      have hcapped : cappedTarget P.toParams pindexLast.header.nBits
          (limitedTimespan P.toParams (pindexLast.getBlockTime - first.getBlockTime)) < 2 ^ 256 :=
          (min_le_left _ _).trans_lt (by omega)
      refine ⟨_, calculateNextWorkRequired_eq P h94 hlimit pindexLast hle' hretarget _, ?_,
        fun _ _ => ⟨first, hfirst, ?_, ?_⟩, ?_⟩
      · rintro (hoff | htrue)
        · exact absurd hheight hoff
        · exact absurd htrue (by decide)
      · exact (scale_exact P.toParams hlimit _ hle' hhigh).1
      · rw [cappedTarget, hT]
      · refine permitted_of_between P.toParams hlimit _ hle' ?_ ?_ hheight
        · rw [setCompact_getCompact, BitVec.toNat_ofNat, Nat.mod_eq_of_lt hcapped]
          exact roundDown_mono (cappedTarget_mono P.toParams _ hlow)
        · rw [setCompact_getCompact, BitVec.toNat_ofNat, Nat.mod_eq_of_lt hcapped]
          exact roundDown_mono (cappedTarget_mono P.toParams _ hhigh)
  · refine ⟨pindexLast.header.nBits, ?_, fun _ => rfl, fun hzero => absurd hzero hheight, ?_⟩
    · simp only [getNextWorkRequired, getCompact_eq, hheight, hmin, ne_eq, not_false_eq_true, if_true,
        Bool.false_eq_true, if_false, bind_eq_bind, bind_some, pure_def]
    · rw [permittedDifficultyTransition, if_neg hheight, beq_self_eq_true]
      split_ifs <;> rfl

section
attribute [local instance] toyCrypto

/-- main network parameters with one block a day, so that every block begins an interval -/
def dailyParams : RetargetParams where
  toParams := { mainParams with nPowTargetSpacing := 24 * 60 * 60, timespan_ok := by decide }
  fPowNoRetargeting := false
  enforceBIP94 := false

/-- a first block at the limit -/
def dailyRoot : CBlockIndex := CBlockIndex.root ⟨1, Uint256.null, Uint256.null, 0, 0x1f00ffff, 0⟩

/-- After a block that took no time the target is a quarter. -/
theorem dailyRoot_retarget : getNextWorkRequired dailyParams dailyRoot 0 = some 0x1e3fffc0 ∧
    permittedDifficultyTransition dailyParams.toParams 1 0x1f00ffff 0x1e3fffc0 = true := by
  obtain ⟨nBits, hnext, -, hretarget, hpermitted⟩ := retarget_exact dailyParams rfl rfl (by decide +kernel) dailyRoot
    (CBlockIndex.Built.root _ rfl) (0xffff * 256 ^ 28) (by decide +kernel) (by decide +kernel) 0
  obtain ⟨first, hfirst, -, hvalue⟩ := hretarget (by decide +kernel) rfl
  obtain rfl : dailyRoot = first := Option.some.inj hfirst
  have hcompact : nBits = 0x1e3fffc0 := hvalue.trans (by decide +kernel)
  subst hcompact
  exact ⟨hnext, hpermitted⟩

end

end ConnectCoin
