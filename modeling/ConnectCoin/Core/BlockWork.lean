/-
Compact targets and block work, digit by digit (`SetCompact` in `arith_uint256.cpp`, `GetBitsProof` in `chain.cpp`).

`Core.Arith` has these functions over 256-bit vectors; here they are the source's, over the digits of `base_uint`, and
the two agree.

- `BaseUint.setCompact`, `BaseUint.getBitsProof`: none stands for a division by zero.
- `compactNumber`: what a compact target stands for, mantissa * 256^(exponent - 3) rounded down.
- `ValidTarget`: the checks of `GetBitsProof` pass.
Results:
- `setCompact_eq`: the digits compute what `Core.Arith` says;
- `block_work_exact`: the work of a valid target T is floor(2^256 / (T + 1)). T + 1 does not wrap since a compact target
  ends in zero bits or is small, and smaller targets have no less work.
-/
import ConnectCoin.Core.Arith
import ConnectCoin.Core.BaseUint

namespace ConnectCoin

/-! ## The parts of a compact target -/

variable (nCompact : UInt32)

/-- the exponent -/
def compactExponent : ℕ := nCompact.toNat / 2 ^ 24

/-- the mantissa, without the sign -/
def compactMantissa : ℕ := nCompact.toNat % 2 ^ 23

/-- the number of a compact target -/
def compactNumber : ℕ := compactMantissa nCompact * 256 ^ compactExponent nCompact / 256 ^ 3

theorem toNat_exponent : (nCompact >>> 24).toNat = compactExponent nCompact := by
  rw [UInt32.toNat_shiftRight, compactExponent, Nat.shiftRight_eq_div_pow]
  rfl

theorem toNat_mantissa : (nCompact &&& 0x007fffff).toNat = compactMantissa nCompact := by
  rw [UInt32.toNat_and, compactMantissa]
  exact Nat.and_two_pow_sub_one_eq_mod nCompact.toNat 23

theorem compactMantissa_lt : compactMantissa nCompact < 2 ^ 23 := Nat.mod_lt _ (by decide)

/-- A small exponent cuts bytes off. -/
theorem compactNumber_small {nCompact : UInt32} (h : compactExponent nCompact ≤ 3) :
    compactNumber nCompact = compactMantissa nCompact >>> (8 * (3 - compactExponent nCompact)) := by
  have hpow : 256 ^ 3 = 256 ^ (3 - compactExponent nCompact) * 256 ^ compactExponent nCompact := by
    rw [← pow_add, Nat.sub_add_cancel h]
  rw [compactNumber, hpow, Nat.mul_div_mul_right _ _ (pow_pos (by decide) _), Nat.shiftRight_eq_div_pow, pow_mul]
  rfl

/-- A large one adds bytes. -/
theorem compactNumber_large {nCompact : UInt32} (h : 3 < compactExponent nCompact) :
    compactNumber nCompact = compactMantissa nCompact * 2 ^ (8 * (compactExponent nCompact - 3)) := by
  have hpow : 256 ^ compactExponent nCompact = 256 ^ (compactExponent nCompact - 3) * 256 ^ 3 := by
    rw [← pow_add, Nat.sub_add_cancel h.le]
  rw [compactNumber, hpow, ← Nat.mul_assoc, Nat.mul_div_cancel _ (by decide), pow_mul]
  rfl

namespace BaseUint

/-! ## The functions -/

/-- what `SetCompact` decodes -/
structure CompactWords where
  value : BaseUint 8
  negative : Bool
  overflow : Bool

/-- `SetCompact` -/
def setCompact (nCompact : UInt32) : CompactWords :=
  let nSize := (nCompact >>> 24).toNat
  let nWord := nCompact &&& 0x007fffff
  let nWord := if nSize ≤ 3 then nWord >>> UInt32.ofNat (8 * (3 - nSize)) else nWord
  { value := if nSize ≤ 3 then ofUInt64 nWord.toUInt64 else (ofUInt64 nWord.toUInt64).shiftLeft (8 * (nSize - 3))
    negative := nWord != 0 && nCompact &&& 0x00800000 != 0
    overflow := nWord != 0 && (nSize > 34 || (nWord > 0xff && nSize > 33) || (nWord > 0xffff && nSize > 32)) }

/-- `GetBitsProof` -/
def getBitsProof (nBits : UInt32) : Option (BaseUint 8) := do
  let bnTarget := setCompact nBits
  if bnTarget.negative || bnTarget.overflow || bnTarget.value.equalTo 0 then return ofUInt64 0
  let quotient ← bnTarget.value.not.div (bnTarget.value.add (ofUInt64 1))
  return quotient.add (ofUInt64 1)

/-! ## The same as over bit vectors -/

/-- the 256-bit vector of the digits -/
def toArith (a : BaseUint 8) : ArithUint256 := BitVec.ofNat 256 a.toNat

@[simp] theorem toNat_toArith (a : BaseUint 8) : a.toArith.toNat = a.toNat := by
  rw [toArith, BitVec.toNat_ofNat]
  exact Nat.mod_eq_of_lt a.toNat_lt

theorem toArith_add (a b : BaseUint 8) : (a.add b).toArith = a.toArith + b.toArith :=
  BitVec.eq_of_toNat_eq (by rw [toNat_toArith, toNat_add, BitVec.toNat_add, toNat_toArith, toNat_toArith])

theorem toArith_div {a b quotient : BaseUint 8} (h : a.div b = some quotient) :
    quotient.toArith = a.toArith / b.toArith := by
  refine BitVec.eq_of_toNat_eq ?_
  by_cases hb : b.toNat = 0
  · rw [div_zero a b hb] at h
    exact absurd h (by simp)
  · obtain ⟨q, hq, hvalue⟩ := div_eq a b hb
    rw [h] at hq
    rw [Option.some.inj hq, toNat_toArith, hvalue, BitVec.toNat_udiv, toNat_toArith, toNat_toArith]

variable {nBits : UInt32} (nCompact : UInt32)

/-- the word `SetCompact` shifts -/
theorem toNat_nWord : ∃ nWord : UInt32,
    (if (nCompact >>> 24).toNat ≤ 3 then (nCompact &&& 0x007fffff) >>> UInt32.ofNat (8 * (3 - (nCompact >>> 24).toNat))
      else nCompact &&& 0x007fffff) = nWord ∧
    nWord.toNat = compactMantissa nCompact >>> (8 * (3 - compactExponent nCompact)) := by
  refine ⟨_, rfl, ?_⟩
  rw [toNat_exponent]
  split_ifs with hsize
  · rw [toNat_shr _ (by omega), toNat_mantissa]
  · rw [toNat_mantissa, Nat.sub_eq_zero_of_le (by omega), Nat.mul_zero, Nat.shiftRight_zero]

theorem setCompact_value : (setCompact nCompact).value.toNat = compactNumber nCompact % 2 ^ 256 := by
  obtain ⟨nWord, hnWord, hword⟩ := toNat_nWord nCompact
  have hlt := compactMantissa_lt nCompact
  simp only [setCompact, hnWord]
  rw [toNat_exponent]
  split_ifs with hsize
  · have hle := Nat.shiftRight_le (compactMantissa nCompact) (8 * (3 - compactExponent nCompact))
    rw [toNat_ofUInt64, UInt32.toNat_toUInt64, hword, compactNumber_small hsize, Nat.mod_eq_of_lt]
    exact (hle.trans_lt hlt).trans (by norm_num)
  · rw [Nat.sub_eq_zero_of_le (by omega), Nat.mul_zero, Nat.shiftRight_zero] at hword
    rw [toNat_shiftLeft, toNat_ofUInt64, UInt32.toNat_toUInt64, hword, compactNumber_large (not_le.mp hsize)]

theorem setCompact_arith_value : (ConnectCoin.setCompact nCompact).value.toNat = compactNumber nCompact % 2 ^ 256 := by
  have hlt := compactMantissa_lt nCompact
  simp only [ConnectCoin.setCompact]
  rw [toNat_exponent, toNat_mantissa]
  split_ifs with hsize
  · rw [BitVec.toNat_ofNat, compactNumber_small hsize]
  · rw [BitVec.toNat_shiftLeft, BitVec.toNat_ofNat, Nat.sub_eq_zero_of_le (show 3 ≤ compactExponent nCompact by omega),
      Nat.mul_zero, Nat.shiftRight_zero, Nat.mod_eq_of_lt (hlt.trans (by norm_num)), Nat.shiftLeft_eq,
      compactNumber_large (not_le.mp hsize)]

/-- `SetCompact` over the digits is `SetCompact` over bit vectors. -/
theorem setCompact_eq : (setCompact nCompact).value.toArith = (ConnectCoin.setCompact nCompact).value ∧
    (setCompact nCompact).negative = (ConnectCoin.setCompact nCompact).negative ∧
    (setCompact nCompact).overflow = (ConnectCoin.setCompact nCompact).overflow := by
  refine ⟨BitVec.eq_of_toNat_eq (by rw [toNat_toArith, setCompact_value, setCompact_arith_value]), ?_⟩
  obtain ⟨nWord, hnWord, hword⟩ := toNat_nWord nCompact
  simp only [setCompact, ConnectCoin.setCompact, hnWord]
  have hzero : (nWord != 0) = (nWord.toNat != 0) := by
    rw [Bool.eq_iff_iff, bne_iff_ne, bne_iff_ne, Ne, ← UInt32.toNat_inj]; rfl
  have hgt : ∀ v : UInt32, decide (nWord > v) = decide (nWord.toNat > v.toNat) := fun v => by
    rw [decide_eq_decide, gt_iff_lt, UInt32.lt_iff_toNat_lt]
  rw [toNat_exponent, toNat_mantissa, ← hword, hzero, hgt, hgt]
  exact ⟨rfl, rfl⟩

/-! ## Work -/

/-- neither flag is set and the target is not 0 -/
def ValidTarget (nBits : UInt32) : Prop :=
  (setCompact nBits).negative = false ∧ (setCompact nBits).overflow = false ∧ (setCompact nBits).value.toNat ≠ 0

/-- What the overflow flag leaves of a target with added bytes. -/
theorem mantissa_le_of_no_overflow (h : (setCompact nBits).overflow = false) (hsize : 3 < compactExponent nBits) :
    compactMantissa nBits = 0 ∨ compactExponent nBits ≤ 32 ∨ compactExponent nBits = 33 ∧
      compactMantissa nBits ≤ 0xffff ∨ compactExponent nBits = 34 ∧ compactMantissa nBits ≤ 0xff := by
  rw [(setCompact_eq nBits).2.2] at h
  simp only [ConnectCoin.setCompact, toNat_exponent, toNat_mantissa, Nat.sub_eq_zero_of_le hsize.le, Nat.mul_zero,
    Nat.shiftRight_zero, Bool.and_eq_false_iff, Bool.or_eq_false_iff, bne_eq_false_iff_eq, decide_eq_false_iff_not] at h
  omega

/-- The target plus one stays below 2^256. -/
theorem ValidTarget.lt_max (h : ValidTarget nBits) : compactNumber nBits + 1 < 2 ^ 256 := by
  have hword := compactMantissa_lt nBits
  rcases Nat.lt_or_ge 3 (compactExponent nBits) with hlarge | hsmall
  · have hbound : ∀ k, compactMantissa nBits + 1 ≤ 2 ^ k → 8 * (compactExponent nBits - 3) + k ≤ 256 →
        compactNumber nBits + 1 < 2 ^ 256 := by
      intro k hk hsum
      have hbytes : 2 ^ 8 ≤ 2 ^ (8 * (compactExponent nBits - 3)) := Nat.pow_le_pow_right two_pos (by omega)
      calc compactNumber nBits + 1
          < compactMantissa nBits * 2 ^ (8 * (compactExponent nBits - 3)) + 2 ^ (8 * (compactExponent nBits - 3)) := by
            rw [compactNumber_large hlarge]; omega
        _ = (compactMantissa nBits + 1) * 2 ^ (8 * (compactExponent nBits - 3)) := by ring
        _ ≤ 2 ^ k * 2 ^ (8 * (compactExponent nBits - 3)) := Nat.mul_le_mul_right _ hk
        _ = 2 ^ (k + 8 * (compactExponent nBits - 3)) := (pow_add 2 _ _).symm
        _ ≤ 2 ^ 256 := Nat.pow_le_pow_right two_pos (by omega)
    rcases mantissa_le_of_no_overflow h.2.1 hlarge with hzero | hsize | ⟨hsize, hle⟩ | ⟨hsize, hle⟩
    · rw [compactNumber, hzero, Nat.zero_mul, Nat.zero_div]
      norm_num
    · exact hbound 23 hword (by omega)
    · exact hbound 16 (by omega) (by omega)
    · exact hbound 8 (by omega) (by omega)
  · have hle : compactNumber nBits ≤ compactMantissa nBits := by
      rw [compactNumber_small hsmall]
      exact Nat.shiftRight_le _ _
    have hbig : (2 : ℕ) ^ 24 ≤ 2 ^ 256 := Nat.pow_le_pow_right two_pos (by decide)
    omega

theorem ValidTarget.value_eq (h : ValidTarget nBits) : (setCompact nBits).value.toNat = compactNumber nBits := by
  rw [setCompact_value, Nat.mod_eq_of_lt (Nat.lt_of_succ_lt h.lt_max)]

/-- The work of a target T: ~T / (T + 1) + 1, each step inside 256 bits. -/
theorem getBitsProof_value (h : ValidTarget nBits) :
    ((setCompact nBits).value.add (ofUInt64 1)).toNat = compactNumber nBits + 1 ∧
    ∃ quotient work, (setCompact nBits).value.not.div ((setCompact nBits).value.add (ofUInt64 1)) = some quotient ∧
      quotient.toNat + 1 < 2 ^ 256 ∧ getBitsProof nBits = some work ∧ work.toNat = quotient.toNat + 1 ∧
      work.toNat = 2 ^ 256 / (compactNumber nBits + 1) := by
  have hvalue := h.value_eq
  have hmax := h.lt_max
  obtain ⟨hnegative, hoverflow, hne⟩ := h
  have hone : (ofUInt64 1 : BaseUint 8).toNat = 1 := toNat_ofUInt64 1
  have hnext : ((setCompact nBits).value.add (ofUInt64 1)).toNat = compactNumber nBits + 1 := by
    rw [toNat_add, hvalue, hone, Nat.mod_eq_of_lt hmax]
  obtain ⟨quotient, hdiv, hquotient⟩ := div_eq (setCompact nBits).value.not _ (by rw [hnext]; exact Nat.succ_ne_zero _)
  rw [hnext, toNat_not, hvalue, Nat.sub_sub, Nat.add_comm 1] at hquotient
  have hstep : 2 ^ 256 / (compactNumber nBits + 1) = quotient.toNat + 1 := by
    rw [hquotient]
    exact Nat.div_eq_sub_div (Nat.succ_pos _) hmax.le
  have hfits : quotient.toNat + 1 < 2 ^ 256 := by
    rw [hvalue] at hne
    rw [← hstep]
    exact Nat.div_lt_self (by norm_num) (by omega)
  have hequal : (setCompact nBits).value.equalTo 0 = false := by
    rw [← Bool.not_eq_true, equalTo_iff]
    exact hne
  refine ⟨hnext, quotient, quotient.add (ofUInt64 1), hdiv, hfits, ?_, ?_, ?_⟩
  · simp only [getBitsProof, hnegative, hoverflow, hequal, hdiv, Bool.or_self, Bool.false_eq_true, if_false,
      Option.bind_eq_bind, Option.bind_some, Option.pure_def]
  · rw [toNat_add, hone, Nat.mod_eq_of_lt hfits]
  · rw [toNat_add, hone, Nat.mod_eq_of_lt hfits, hstep]

/-- Block work is computed exactly: division is floor division; the work of a valid target T is floor(2^256 / (T + 1)),
where neither T + 1 nor the final + 1 wraps; a smaller target has no less work. -/
theorem block_work_exact : (∀ (n : ℕ) (num b : BaseUint n), b.toNat ≠ 0 →
      ∃ quotient, num.div b = some quotient ∧ quotient.toNat = num.toNat / b.toNat) ∧
    (∀ nBits, ValidTarget nBits → (setCompact nBits).value.toNat = compactNumber nBits ∧
      ((setCompact nBits).value.add (ofUInt64 1)).toNat = compactNumber nBits + 1 ∧
      ∃ quotient work, (setCompact nBits).value.not.div ((setCompact nBits).value.add (ofUInt64 1)) = some quotient ∧
        quotient.toNat + 1 < 2 ^ 256 ∧ getBitsProof nBits = some work ∧
        work.toNat = 2 ^ 256 / (compactNumber nBits + 1)) ∧ ∀ nBits nBits', ValidTarget nBits → ValidTarget nBits' →
      (setCompact nBits).value.toNat ≤ (setCompact nBits').value.toNat → ∃ work work', getBitsProof nBits = some work ∧
      getBitsProof nBits' = some work' ∧ work'.toNat ≤ work.toNat := by
  refine ⟨fun n num b hb => div_eq num b hb, fun nBits h => ?_, fun nBits nBits' h h' hle => ?_⟩
  · obtain ⟨hnext, quotient, work, hdiv, hfits, hwork, -, hvalue⟩ := getBitsProof_value h
    exact ⟨h.value_eq, hnext, quotient, work, hdiv, hfits, hwork, hvalue⟩
  · obtain ⟨-, -, work, -, -, hwork, -, hvalue⟩ := getBitsProof_value h
    obtain ⟨-, -, work', -, -, hwork', -, hvalue'⟩ := getBitsProof_value h'
    rw [h.value_eq, h'.value_eq] at hle
    refine ⟨work, work', hwork, hwork', ?_⟩
    rw [hvalue, hvalue']
    exact Nat.div_le_div_left (Nat.succ_le_succ hle) (Nat.succ_pos _)

/-- The easiest target of a regression test chain takes two hashes. -/
theorem easiest_target_work : ValidTarget 0x207fffff ∧ ∃ work, getBitsProof 0x207fffff = some work ∧
    work.toNat = 2 := by
  have hvalid : ValidTarget 0x207fffff := ⟨by decide +kernel, by decide +kernel, by decide +kernel⟩
  obtain ⟨-, -, -, work, -, -, hwork, hvalue⟩ := block_work_exact.2.1 _ hvalid
  refine ⟨hvalid, work, hwork, hvalue.trans (by decide +kernel)⟩

end BaseUint

end ConnectCoin
