/-
The compact form of a number (`GetCompact`, `UintToArith256` in `arith_uint256.cpp`).

`GetCompact` keeps the highest three bytes of a number, or two if the third would look like a sign. Decoded again, this
is the number rounded down to the nearest one that has a compact form.

- `BaseUint.getCompact`, `BaseUint.ofUint256`: the functions over digits; none stands for a failed assertion.
- `Compactable`: the numbers m * 256^k with 23 bits in m. `roundDown`: rounding to them.
Results:
- `getCompact_eq`: the assertions hold, and the digits compute what `Core.Arith` says;
- `setCompact_getCompact`: decoding the compact form rounds down. `setCompact_compactable`: all that `SetCompact` gives
  is compactable;
- `compact_rounds_down`: decoding `GetCompact` gives the largest number not above that `SetCompact` gives without a
  flag.
-/
import ConnectCoin.Core.BlockWork

namespace ConnectCoin

open Lib List

/-! ## Rounding -/

/-- a number with 23 significant bits in whole bytes -/
def Compactable (t : ℕ) : Prop := ∃ m k, m < 2 ^ 23 ∧ t = m * 256 ^ k

variable (x : ℕ)

/-- the exponent of the compact form -/
def roundedExponent : ℕ := x.size / 8 + 1

/-- the low bytes that the compact form drops are cleared -/
def roundDown : ℕ := x / 256 ^ (roundedExponent x - 3) * 256 ^ (roundedExponent x - 3)

theorem two_pow_bytes (k : ℕ) : 256 ^ k = 2 ^ (8 * k) := by rw [pow_mul]; rfl

theorem roundDown_le : roundDown x ≤ x := Nat.div_mul_le_self _ _

theorem roundDown_compactable : Compactable (roundDown x) := by
  refine ⟨x / 256 ^ (roundedExponent x - 3), roundedExponent x - 3, ?_, rfl⟩
  have hsize : x < 2 ^ x.size := Nat.size_le.mp le_rfl
  rw [Nat.div_lt_iff_lt_mul (pow_pos (by decide) _), two_pow_bytes, ← pow_add]
  exact hsize.trans_le (Nat.pow_le_pow_right two_pos (by rw [roundedExponent]; omega))

theorem le_roundDown {x t : ℕ} (ht : Compactable t) (hle : t ≤ x) : t ≤ roundDown x := by
  obtain ⟨m, k, hm, rfl⟩ := ht
  rcases Nat.lt_or_ge k (roundedExponent x - 3) with hlow | hhigh
  · -- fewer bytes than x drops: below the highest power of two in x
    have hpos : 0 < x.size := by rw [roundedExponent] at hlow; omega
    have hx : 2 ^ (x.size - 1) ≤ x := Nat.lt_size.mp (Nat.sub_lt hpos one_pos)
    have hexp : 8 * (roundedExponent x - 3) + 15 ≤ x.size - 1 := by rw [roundedExponent] at *; omega
    have hquot : 2 ^ 15 ≤ x / 256 ^ (roundedExponent x - 3) := by
      rw [Nat.le_div_iff_mul_le (pow_pos (by decide) _), two_pow_bytes, ← pow_add]
      exact (Nat.pow_le_pow_right two_pos (by omega)).trans hx
    calc m * 256 ^ k ≤ 2 ^ 23 * 256 ^ k := Nat.mul_le_mul_right _ hm.le
      _ = 2 ^ (23 + 8 * k) := by rw [two_pow_bytes, ← pow_add]
      _ ≤ 2 ^ (15 + 8 * (roundedExponent x - 3)) := Nat.pow_le_pow_right two_pos (by omega)
      _ = 2 ^ 15 * 256 ^ (roundedExponent x - 3) := by rw [two_pow_bytes, ← pow_add]
      _ ≤ roundDown x := Nat.mul_le_mul_right _ hquot
  · obtain ⟨j, rfl⟩ := Nat.exists_eq_add_of_le hhigh
    have hfactor : m * 256 ^ (roundedExponent x - 3 + j) = m * 256 ^ j * 256 ^ (roundedExponent x - 3) := by
      rw [pow_add]; ring
    rw [hfactor] at hle ⊢
    exact Nat.mul_le_mul_right _ ((Nat.le_div_iff_mul_le (pow_pos (by decide) _)).mpr hle)

theorem roundDown_mono {x y : ℕ} (h : x ≤ y) : roundDown x ≤ roundDown y :=
  le_roundDown (roundDown_compactable x) ((roundDown_le x).trans h)

theorem Compactable.roundDown_eq {t : ℕ} (ht : Compactable t) : roundDown t = t :=
  le_antisymm (roundDown_le t) (le_roundDown ht le_rfl)

/-! ## The compact form in numbers -/

/-- the bytes of a number -/
def byteCount : ℕ := (x.size + 7) / 8

/-- its highest three bytes -/
def topBytes : ℕ := x * 256 ^ 3 / 256 ^ byteCount x

theorem lt_byteCount : x < 256 ^ byteCount x := by
  rw [two_pow_bytes]
  exact (Nat.size_le.mp le_rfl).trans_le (Nat.pow_le_pow_right two_pos (by rw [byteCount]; omega))

theorem lt_of_byteCount {x : ℕ} (h : byteCount x ≤ 3) : x < 2 ^ 64 :=
  (lt_byteCount x).trans_le ((Nat.pow_le_pow_right (by decide) h).trans (by norm_num))

theorem topBytes_lt : topBytes x < 2 ^ 24 := by
  rw [topBytes, Nat.div_lt_iff_lt_mul (pow_pos (by decide) _), Nat.mul_comm (2 ^ 24)]
  exact Nat.mul_lt_mul_of_pos_right (lt_byteCount x) (by decide)

theorem topBytes_small {x : ℕ} (h : byteCount x ≤ 3) : topBytes x = x <<< (8 * (3 - byteCount x)) := by
  have hpow : 256 ^ 3 = 256 ^ (3 - byteCount x) * 256 ^ byteCount x := by rw [← pow_add, Nat.sub_add_cancel h]
  rw [topBytes, hpow, ← Nat.mul_assoc, Nat.mul_div_cancel _ (pow_pos (by decide) _), Nat.shiftLeft_eq, two_pow_bytes]

theorem topBytes_large {x : ℕ} (h : 3 < byteCount x) : topBytes x = x >>> (8 * (byteCount x - 3)) := by
  have hpow : 256 ^ byteCount x = 256 ^ (byteCount x - 3) * 256 ^ 3 := by rw [← pow_add, Nat.sub_add_cancel h.le]
  rw [topBytes, hpow, Nat.mul_div_mul_right _ _ (by decide), Nat.shiftRight_eq_div_pow, two_pow_bytes]

/-- The sign bit of the highest three bytes is the highest bit of a whole number of bytes. -/
theorem sign_iff {x : ℕ} (hx : 0 < x) : 2 ^ 23 ≤ topBytes x ↔ x.size = 8 * byteCount x := by
  have hsize : 0 < x.size := Nat.size_pos.mpr hx
  have hexp : 2 ^ 23 * 256 ^ byteCount x = 2 ^ (8 * byteCount x - 1) * 256 ^ 3 := by
    rw [two_pow_bytes, two_pow_bytes, ← pow_add, ← pow_add]
    congr 1
    rw [byteCount]
    omega
  rw [topBytes, Nat.le_div_iff_mul_le (pow_pos (by decide) _), hexp,
    Nat.mul_le_mul_right_iff (by decide), ← Nat.lt_size]
  rw [byteCount]
  omega

/-- the compact form: exponent and mantissa -/
def compactForm : ℕ × ℕ :=
  if 2 ^ 23 ≤ topBytes x then (byteCount x + 1, topBytes x / 256) else (byteCount x, topBytes x)

theorem compactForm_mantissa_lt : (compactForm x).2 < 2 ^ 23 := by
  have h := topBytes_lt x
  rw [compactForm]
  split_ifs with hsign
  · dsimp only; omega
  · dsimp only; omega

/-- 33 bytes only where the sign bit moved the mantissa down. -/
theorem compactForm_large {x : ℕ} (h : byteCount x ≤ 32) :
    (compactForm x).1 ≤ 32 ∨ (compactForm x).1 = 33 ∧ (compactForm x).2 < 2 ^ 16 := by
  have htop := topBytes_lt x
  rw [compactForm]
  split_ifs
  all_goals dsimp only
  all_goals omega

theorem compactForm_eq {x : ℕ} (hx : 0 < x) :
    compactForm x = (roundedExponent x, x * 256 ^ 3 / 256 ^ roundedExponent x) := by
  have hsize : 0 < x.size := Nat.size_pos.mpr hx
  rw [compactForm]
  split_ifs with hsign
  all_goals rw [sign_iff hx] at hsign
  · have hexp : roundedExponent x = byteCount x + 1 := by rw [roundedExponent]; omega
    rw [hexp, topBytes, Nat.div_div_eq_div_mul, ← pow_succ]
  · have hexp : roundedExponent x = byteCount x := by rw [roundedExponent, byteCount] at *; omega
    rw [hexp, topBytes]

/-- The compact form stands for the rounded number. -/
theorem compactForm_value : (compactForm x).2 * 256 ^ (compactForm x).1 / 256 ^ 3 = roundDown x := by
  rcases Nat.eq_zero_or_pos x with rfl | hx
  · rfl
  rw [compactForm_eq hx, roundDown]
  dsimp only
  generalize roundedExponent x = e
  rcases Nat.le_total e 3 with hsmall | hlarge
  · have hpow : 256 ^ 3 = 256 ^ (3 - e) * 256 ^ e := by rw [← pow_add, Nat.sub_add_cancel hsmall]
    have hwhole : x * 256 ^ 3 / 256 ^ e * 256 ^ e = x * 256 ^ 3 := by
      rw [hpow, ← Nat.mul_assoc, Nat.mul_div_cancel _ (pow_pos (by decide) _)]
    rw [hwhole, Nat.mul_div_cancel _ (by decide), Nat.sub_eq_zero_of_le hsmall, pow_zero, Nat.div_one, Nat.mul_one]
  · have hpow : 256 ^ e = 256 ^ (e - 3) * 256 ^ 3 := by rw [← pow_add, Nat.sub_add_cancel hlarge]
    rw [hpow, Nat.mul_div_mul_right _ _ (by decide), ← Nat.mul_assoc, Nat.mul_div_cancel _ (by decide)]

/-! ## The functions -/

namespace BaseUint

/-- `UintToArith256` -/
def ofUint256 (a : Uint256) : BaseUint 8 :=
  ⟨(List.range 8).map fun x => UInt32.ofNat (leNat ((a.bytes.drop (x * 4)).take 4)), by simp⟩

/-- `GetCompact` of a non-negative number; none stands for a failed assertion -/
def getCompact (a : BaseUint 8) : Option UInt32 :=
  let nSize := a.bits / 8 + if a.bits % 8 ≠ 0 then 1 else 0
  let nCompact := if nSize ≤ 3 then (a.getLow64 <<< UInt64.ofNat (8 * (3 - nSize))).toUInt32
    else ((a.shiftRight (8 * (nSize - 3))).getLow64).toUInt32
  let (nCompact, nSize) := if nCompact &&& 0x00800000 ≠ 0 then (nCompact >>> 8, nSize + 1) else (nCompact, nSize)
  if nCompact &&& ~~~ 0x007fffff ≠ 0 ∨ nSize ≥ 256 then none else some (nCompact ||| UInt32.ofNat nSize <<< 24)

variable (a : BaseUint 8)

theorem toNat_getLow64 : a.getLow64.toNat = a.toNat % 2 ^ 64 := by
  have h₀ := (a.get 0).toNat_lt
  have h₁ := (a.get 1).toNat_lt
  have hshift : ((a.get 1).toUInt64 <<< 32).toNat = (a.get 1).toNat <<< 32 := by
    rw [UInt64.toNat_shiftLeft, UInt32.toNat_toUInt64, Nat.mod_eq_of_lt]
    · rfl
    · rw [show (32 : UInt64).toNat % 64 = 32 from rfl, Nat.shiftLeft_eq]
      omega
  rw [getLow64, UInt64.toNat_or, hshift, UInt32.toNat_toUInt64, Nat.or_comm, ← Nat.shiftLeft_add_eq_or_of_lt h₀,
    toNat_get, toNat_get, Nat.shiftLeft_eq, Nat.mul_zero, Nat.shiftRight_zero, Nat.mul_one, Nat.shiftRight_eq_div_pow]
  omega

/-- Exponent and mantissa side by side. -/
theorem toNat_pack {w : UInt32} (hw : w.toNat < 2 ^ 24) {e : ℕ} (he : e < 256) :
    (w ||| UInt32.ofNat e <<< 24).toNat = w.toNat + e * 2 ^ 24 := by
  have hshift : (UInt32.ofNat e <<< 24).toNat = e <<< 24 := by
    rw [UInt32.toNat_shiftLeft, UInt32.toNat_ofNat_of_lt' (show e < 2 ^ 32 by omega), Nat.mod_eq_of_lt]
    · rfl
    · rw [show (24 : UInt32).toNat % 32 = 24 from rfl, Nat.shiftLeft_eq]
      omega
  rw [UInt32.toNat_or, hshift, Nat.or_comm, ← Nat.shiftLeft_add_eq_or_of_lt hw, Nat.shiftLeft_eq, Nat.add_comm]

theorem and_high_eq_zero {w : UInt32} (hw : w.toNat < 2 ^ 23) : w &&& ~~~ 0x007fffff = 0 := by
  rw [← UInt32.toNat_inj, UInt32.toNat_and]
  refine Nat.eq_of_testBit_eq fun j => ?_
  have hmask : (~~~ (0x007fffff : UInt32)).toNat = 2 ^ 23 * 511 := rfl
  rw [Nat.testBit_and, hmask, Nat.testBit_two_pow_mul, UInt32.toNat_zero, Nat.zero_testBit]
  rcases Nat.lt_or_ge j 23 with hj | hj
  · simp [not_le.mpr hj]
  · rw [Nat.testBit_lt_two_pow (hw.trans_le (Nat.pow_le_pow_right two_pos hj)), Bool.false_and]

theorem byteCount_le : byteCount a.toNat ≤ 32 := by
  have hsize : a.toNat.size ≤ 32 * 8 := Nat.size_le.mpr a.toNat_lt
  rw [byteCount]
  omega

/-- The word `GetCompact` starts with. -/
theorem toNat_nCompact : ∃ w : UInt32,
    (if byteCount a.toNat ≤ 3 then (a.getLow64 <<< UInt64.ofNat (8 * (3 - byteCount a.toNat))).toUInt32
      else ((a.shiftRight (8 * (byteCount a.toNat - 3))).getLow64).toUInt32) = w ∧ w.toNat = topBytes a.toNat := by
  refine ⟨_, rfl, ?_⟩
  have htop := topBytes_lt a.toNat
  split_ifs with hsmall
  · have hshift : (UInt64.ofNat (8 * (3 - byteCount a.toNat))).toNat % 64 = 8 * (3 - byteCount a.toNat) := by
      rw [UInt64.toNat_ofNat_of_lt' (show 8 * (3 - byteCount a.toNat) < 2 ^ 64 by omega), Nat.mod_eq_of_lt (by omega)]
    rw [UInt64.toNat_toUInt32, UInt64.toNat_shiftLeft, hshift, toNat_getLow64,
      Nat.mod_eq_of_lt (lt_of_byteCount hsmall), ← topBytes_small hsmall]
    omega
  · rw [UInt64.toNat_toUInt32, toNat_getLow64, toNat_shiftRight, ← Nat.shiftRight_eq_div_pow,
      ← topBytes_large (not_le.mp hsmall)]
    omega

/-- What the sign bit of that word decides. -/
theorem word_form {x : ℕ} {w : UInt32} (hword : w.toNat = topBytes x) :
    w &&& 0x00800000 ≠ 0 ∧ compactForm x = (byteCount x + 1, (w >>> 8).toNat) ∨
      w &&& 0x00800000 = 0 ∧ compactForm x = (byteCount x, w.toNat) := by
  have hbit : w &&& 0x00800000 ≠ 0 ↔ 2 ^ 23 ≤ topBytes x := by
    rw [← hword]
    exact and_bit_ne_zero (k := 23) (by decide) (by rw [hword]; exact topBytes_lt x)
  have hshift : (w >>> 8).toNat = topBytes x / 256 := by
    rw [UInt32.toNat_shiftRight, hword, Nat.shiftRight_eq_div_pow]
    rfl
  rw [compactForm, hshift, hword]
  by_cases hsign : 2 ^ 23 ≤ topBytes x
  · exact Or.inl ⟨hbit.mpr hsign, if_pos hsign⟩
  · exact Or.inr ⟨not_not.mp (mt hbit.mp hsign), if_neg hsign⟩

/-- The assertions of `GetCompact` hold; its result is the compact form. -/
theorem getCompact_value :
    ∃ c, a.getCompact = some c ∧ c.toNat = (compactForm a.toNat).2 + (compactForm a.toNat).1 * 2 ^ 24 := by
  have hcount := byteCount_le a
  have hmantissa := compactForm_mantissa_lt a.toNat
  have hsize : (a.bits / 8 + if a.bits % 8 ≠ 0 then 1 else 0) = byteCount a.toNat := by
    rw [bits_eq, byteCount]
    split_ifs <;> omega
  obtain ⟨w, hw, hword⟩ := toNat_nCompact a
  simp only [getCompact, hsize, hw]
  rcases word_form hword with ⟨hbit, hform⟩ | ⟨hbit, hform⟩
  · rw [hform] at hmantissa ⊢
    rw [if_pos hbit]
    refine ⟨_, if_neg (not_or.mpr ⟨not_not.mpr (and_high_eq_zero hmantissa), ?_⟩), ?_⟩
    · dsimp only; omega
    · exact toNat_pack (hmantissa.trans (by decide)) (by dsimp only; omega)
  · rw [hform] at hmantissa ⊢
    rw [if_neg (not_not.mpr hbit)]
    refine ⟨_, if_neg (not_or.mpr ⟨not_not.mpr (and_high_eq_zero hmantissa), ?_⟩), ?_⟩
    · dsimp only; omega
    · exact toNat_pack (hmantissa.trans (by decide)) (by dsimp only; omega)

theorem getCompact_arith_value (a : ArithUint256) :
    (ConnectCoin.getCompact a).toNat = (compactForm a.toNat).2 + (compactForm a.toNat).1 * 2 ^ 24 := by
  have hsize : a.toNat.size ≤ 256 := Nat.size_le.mpr a.isLt
  have hcount : byteCount a.toNat ≤ 32 := by rw [byteCount]; omega
  have hmantissa := compactForm_mantissa_lt a.toNat
  obtain ⟨w, hw, hword⟩ : ∃ w : UInt32,
      UInt32.ofNat (if byteCount a.toNat ≤ 3 then (a.toNat % 2 ^ 64) <<< (8 * (3 - byteCount a.toNat))
        else (a >>> (8 * (byteCount a.toNat - 3))).toNat % 2 ^ 64) = w ∧ w.toNat = topBytes a.toNat := by
    refine ⟨_, rfl, ?_⟩
    have htop := topBytes_lt a.toNat
    rw [UInt32.toNat_ofNat']
    split_ifs with hsmall
    · rw [Nat.mod_eq_of_lt (lt_of_byteCount hsmall), ← topBytes_small hsmall]
      omega
    · rw [BitVec.toNat_ushiftRight, ← topBytes_large (not_le.mp hsmall)]
      omega
  have hbytes : (ConnectCoin.bits a + 7) / 8 = byteCount a.toNat := rfl
  simp only [ConnectCoin.getCompact, hbytes, hw]
  rcases word_form hword with ⟨hbit, hform⟩ | ⟨hbit, hform⟩
  · rw [hform] at hmantissa ⊢
    rw [if_pos (bne_iff_ne.mpr hbit)]
    exact toNat_pack (hmantissa.trans (by decide)) (by omega)
  · rw [hform] at hmantissa ⊢
    rw [if_neg (by simp [hbit])]
    exact toNat_pack (hmantissa.trans (by decide)) (by omega)

/-- `GetCompact` over the digits is `GetCompact` over bit vectors. -/
theorem getCompact_eq : a.getCompact = some (ConnectCoin.getCompact a.toArith) := by
  obtain ⟨c, hc, hvalue⟩ := getCompact_value a
  have harith := getCompact_arith_value a.toArith
  rw [toNat_toArith] at harith
  rw [hc, UInt32.toNat_inj.mp (hvalue.trans harith.symm)]

/-- Four bytes each make the words of a little-endian number. -/
theorem wordsNat_readLE32 (k : ℕ) (bs : Bytes) (hlen : bs.length = 4 * k) :
    wordsNat ((List.range k).map fun x => UInt32.ofNat (leNat ((bs.drop (x * 4)).take 4))) = leNat bs := by
  induction k generalizing bs with
  | zero =>
    rw [eq_nil_of_length_eq_zero hlen]
    rfl
  | succ k ih =>
    have hfirst : (bs.take 4).length = 4 := by rw [length_take]; omega
    have hlt := leNat_lt (bs.take 4)
    rw [hfirst] at hlt
    have hword : (UInt32.ofNat (leNat (bs.take 4))).toNat = leNat (bs.take 4) := UInt32.toNat_ofNat_of_lt' hlt
    have hrest : ((List.range k).map fun x => UInt32.ofNat (leNat ((bs.drop ((x + 1) * 4)).take 4))) =
        (List.range k).map fun x => UInt32.ofNat (leNat (((bs.drop 4).drop (x * 4)).take 4)) := by
      refine map_congr_left fun x _ => ?_
      rw [drop_drop, Nat.add_mul, Nat.add_comm]
    have hsplit := leNat_append (bs.take 4) (bs.drop 4)
    rw [take_append_drop, hfirst] at hsplit
    rw [range_succ_eq_map, map_cons, map_map, wordsNat_cons, Nat.zero_mul, drop_zero, hword]
    simp only [Function.comp_def, Nat.succ_eq_add_one]
    rw [hrest, ih (bs.drop 4) (by rw [length_drop]; omega), hsplit]
    norm_num

theorem toNat_ofUint256 (a : Uint256) : (ofUint256 a).toNat = a.toNat := wordsNat_readLE32 8 a.bytes a.size_eq

end BaseUint

open BaseUint

/-- Decoding the compact form of a number rounds it down. -/
theorem setCompact_getCompact (a : ArithUint256) : (setCompact (getCompact a)).value.toNat = roundDown a.toNat := by
  have hvalue := getCompact_arith_value a
  have hmantissa := compactForm_mantissa_lt a.toNat
  have hexponent : compactExponent (getCompact a) = (compactForm a.toNat).1 := by rw [compactExponent, hvalue]; omega
  have hword : compactMantissa (getCompact a) = (compactForm a.toNat).2 := by rw [compactMantissa, hvalue]; omega
  rw [setCompact_arith_value, compactNumber, hexponent, hword, compactForm_value,
    Nat.mod_eq_of_lt ((roundDown_le _).trans_lt a.isLt)]

theorem setCompact_compactable (nBits : UInt32) : Compactable (setCompact nBits).value.toNat := by
  have hlt := compactMantissa_lt nBits
  rw [setCompact_arith_value]
  rcases Nat.lt_or_ge 3 (compactExponent nBits) with hlarge | hsmall
  · rw [compactNumber_large hlarge]
    rcases Nat.le_total (8 * (compactExponent nBits - 3)) 256 with hin | hout
    · -- the part above 2^256 is cut off the mantissa
      refine ⟨compactMantissa nBits % 2 ^ (256 - 8 * (compactExponent nBits - 3)), compactExponent nBits - 3,
        (Nat.mod_le _ _).trans_lt hlt, ?_⟩
      rw [two_pow_bytes, ← Nat.mul_mod_mul_right, ← pow_add, Nat.sub_add_cancel hin]
    · refine ⟨0, 0, by decide, ?_⟩
      rw [Nat.zero_mul]
      exact Nat.mod_eq_zero_of_dvd (Dvd.dvd.mul_left (pow_dvd_pow 2 hout) _)
  · have hle : compactNumber nBits ≤ compactMantissa nBits := by
      rw [compactNumber_small hsmall]
      exact Nat.shiftRight_le _ _
    exact ⟨compactNumber nBits % 2 ^ 256, 0, ((Nat.mod_le _ _).trans hle).trans_lt hlt, by rw [pow_zero, Nat.mul_one]⟩

/-! ## Encoding and decoding -/

namespace BaseUint

/-- t is what a compact value decodes to, without a flag -/
def Decodes (c : UInt32) (t : ℕ) : Prop :=
  (setCompact c).negative = false ∧ (setCompact c).overflow = false ∧ (setCompact c).value.toNat = t

theorem Decodes.compactable {c : UInt32} {t : ℕ} (h : Decodes c t) : Compactable t := by
  rw [← h.2.2, ← toNat_toArith, (setCompact_eq c).1]
  exact setCompact_compactable c

theorem overflow_eq_false {c : UInt32}
    (h : compactExponent c ≤ 32 ∨ compactExponent c = 33 ∧ compactMantissa c < 2 ^ 16) :
    (setCompact c).overflow = false := by
  rw [(setCompact_eq c).2.2]
  simp only [ConnectCoin.setCompact, toNat_exponent, toNat_mantissa, Bool.and_eq_false_iff, Bool.or_eq_false_iff,
    decide_eq_false_iff_not]
  rcases h with hle | ⟨heq, hlt⟩
  · omega
  · rw [heq]
    simp only [Nat.reduceSubDiff, Nat.mul_zero, Nat.shiftRight_zero]
    omega

/-- What is encoded is decoded without a flag, rounded down. -/
theorem getCompact_decodes (x : BaseUint 8) : ∃ c, x.getCompact = some c ∧ Decodes c (roundDown x.toNat) := by
  obtain ⟨c, hc, hvalue⟩ := getCompact_value x
  have hcount := byteCount_le x
  have hmantissa := compactForm_mantissa_lt x.toNat
  have hexponent : compactExponent c = (compactForm x.toNat).1 := by rw [compactExponent, hvalue]; omega
  have hword : compactMantissa c = (compactForm x.toNat).2 := by rw [compactMantissa, hvalue]; omega
  have hbit : c &&& 0x00800000 = 0 := by
    have hpow : (0x00800000 : UInt32).toNat = 2 ^ 23 := rfl
    rw [← UInt32.toNat_inj, UInt32.toNat_and, hpow, UInt32.toNat_zero, Nat.and_two_pow,
      Nat.testBit_eq_decide_div_mod_eq, decide_eq_false (by omega), Bool.toNat_false, Nat.zero_mul]
  refine ⟨c, hc, ?_, ?_, ?_⟩
  · rw [(setCompact_eq c).2.1]
    simp [ConnectCoin.setCompact, hbit]
  · refine overflow_eq_false ?_
    rw [hexponent, hword]
    exact compactForm_large hcount
  · have hlt : x.toNat < 2 ^ 256 := by rw [← toNat_toArith]; exact x.toArith.isLt
    rw [setCompact_value, compactNumber, hexponent, hword, compactForm_value,
      Nat.mod_eq_of_lt ((roundDown_le _).trans_lt hlt)]

/-- **Compact targets.** Decoding `GetCompact` raises no flag and gives the largest number not above that a compact
value decodes to without a flag. So encoding and decoding is monotone, idempotent, and the identity on all such
numbers. -/
theorem compact_rounds_down (x : BaseUint 8) : ∃ c, x.getCompact = some c ∧ Decodes c (setCompact c).value.toNat ∧
    IsGreatest {t | t ≤ x.toNat ∧ ∃ c', Decodes c' t} (setCompact c).value.toNat ∧
    (∀ (y : BaseUint 8) d, y.getCompact = some d → y.toNat ≤ x.toNat →
      (setCompact d).value.toNat ≤ (setCompact c).value.toNat) ∧
    (∃ d, (setCompact c).value.getCompact = some d ∧ (setCompact d).value.toNat = (setCompact c).value.toNat) ∧
    ∀ c', Decodes c' x.toNat → (setCompact c).value.toNat = x.toNat := by
  obtain ⟨c, hc, hdecodes⟩ := getCompact_decodes x
  have hvalue := hdecodes.2.2
  refine ⟨c, hc, ⟨hdecodes.1, hdecodes.2.1, rfl⟩, ?_, ?_, ?_, ?_⟩
  · rw [hvalue]
    exact ⟨⟨roundDown_le _, c, hdecodes⟩, fun t ⟨hle, c', h'⟩ => le_roundDown h'.compactable hle⟩
  · intro y d hd hle
    obtain ⟨d', hd', hy⟩ := getCompact_decodes y
    obtain rfl : d = d' := Option.some.inj (hd.symm.trans hd')
    rw [hvalue, hy.2.2]
    exact roundDown_mono hle
  · obtain ⟨d, hd, hy⟩ := getCompact_decodes (setCompact c).value
    refine ⟨d, hd, ?_⟩
    rw [hy.2.2, hvalue, (roundDown_compactable _).roundDown_eq]
  · intro c' h'
    exact hvalue.trans h'.compactable.roundDown_eq

end BaseUint

end ConnectCoin
