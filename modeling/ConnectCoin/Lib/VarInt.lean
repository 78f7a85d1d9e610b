/-
Variable-length integers, seven bits a byte, most significant byte first. GENERAL: every byte but the last has its high
bit set, and one is subtracted at each carry, so that a number has one encoding only.

- `varInt`: the writer; its buffer holds 10 bytes, enough for 64 bits.
- `readVarInt max`: the reader for an integer type with the largest value max, with its two overflow checks.
- `varIntChecked`, `readVarIntChecked`: the same on a fixed-width type, where a value out of range or a byte past the
  buffer is a failure.
Results: `readVarInt_varInt`: what is written is read back, whatever follows; `varIntChecked_eq`,
`readVarIntChecked_eq`: neither the writer nor the reader, on any input, leaves the type.
-/
import ConnectCoin.Lib.Reader

namespace ConnectCoin.Lib

open List

/-- the bytes before the last one, for what is left of the number after a carry -/
def varIntHigh : ℕ → ℕ → Bytes
  | 0, _ => []
  | fuel + 1, n => (if n ≤ 127 then [] else varIntHigh fuel (n / 128 - 1)) ++ [UInt8.ofNat (n % 128 + 128)]

/-- the bytes of n -/
def varInt (n : ℕ) : Bytes := (if n ≤ 127 then [] else varIntHigh 9 (n / 128 - 1)) ++ [UInt8.ofNat (n % 128)]

/-- the reader's loop, with the number so far -/
def readVarIntFrom (max : ℕ) (eof : String) : ℕ → Reader ℕ
  | _, [] => .error eof
  | n, ch :: s =>
    if n > max / 128 then .error "ReadVarInt(): size too large"
    else
      let n := n * 128 + ch.toNat % 128
      if 128 ≤ ch.toNat then
        if n = max then .error "ReadVarInt(): size too large" else readVarIntFrom max eof (n + 1) s
      else .ok (n, s)

/-- the reader for an integer type with the largest value max -/
def readVarInt (max : ℕ) (eof : String) : Reader ℕ := readVarIntFrom max eof 0

variable {eof : String} {max m width n : ℕ}

theorem readVarIntFrom_last {t : Bytes} (hm : m = n * 128 + m % 128) (hmax : m ≤ max) :
    readVarIntFrom max eof n (UInt8.ofNat (m % 128) :: t) = .ok (m, t) := by
  have hbyte : (UInt8.ofNat (m % 128)).toNat = m % 128 := by
    rw [UInt8.toNat_ofNat']
    omega
  have hn : ¬ n > max / 128 := by omega
  rw [readVarIntFrom, if_neg hn]
  simp only [hbyte]
  rw [if_neg (by omega), Nat.mod_mod, ← hm]

theorem readVarIntFrom_carry {t : Bytes} (hm : m = n * 128 + m % 128) (hmax : m < max) :
    readVarIntFrom max eof n (UInt8.ofNat (m % 128 + 128) :: t) = readVarIntFrom max eof (m + 1) t := by
  have hbyte : (UInt8.ofNat (m % 128 + 128)).toNat = m % 128 + 128 := by
    rw [UInt8.toNat_ofNat']
    omega
  have hn : ¬ n > max / 128 := by omega
  have hlow : n * 128 + (m % 128 + 128) % 128 = m := by omega
  rw [readVarIntFrom, if_neg hn]
  simp only [hbyte, hlow]
  rw [if_pos (by omega), if_neg (by omega)]

/-- Reading the bytes of what is left after a carry gives that and one. -/
theorem readVarIntFrom_high (fuel m : ℕ) (hfuel : m < 128 ^ (fuel + 1)) (hmax : m < max) (t : Bytes) :
    readVarIntFrom max eof 0 (varIntHigh (fuel + 1) m ++ t) = readVarIntFrom max eof (m + 1) t := by
  induction fuel generalizing m t with
  | zero =>
    have hsmall : m ≤ 127 := by omega
    rw [varIntHigh, if_pos hsmall]
    exact readVarIntFrom_carry (by omega) hmax
  | succ fuel ih =>
    rw [varIntHigh]
    split_ifs with hsmall
    · exact readVarIntFrom_carry (by omega) hmax
    · have hrest : m / 128 - 1 < 128 ^ (fuel + 1) := by
        rw [pow_succ] at hfuel
        have hdiv := (Nat.div_lt_iff_lt_mul (by decide)).2 hfuel
        omega
      rw [append_assoc, ih (m / 128 - 1) hrest (by omega), singleton_append]
      exact readVarIntFrom_carry (by omega) hmax

/-- What is written is read back. -/
theorem readVarInt_varInt (hn : n < 2 ^ 64) (hmax : n ≤ max) (t : Bytes) :
    readVarInt max eof (varInt n ++ t) = .ok (n, t) := by
  rw [readVarInt, varInt]
  split_ifs with hsmall
  · exact readVarIntFrom_last (by omega) hmax
  · rw [append_assoc, readVarIntFrom_high 8 (n / 128 - 1) (by norm_num; omega) (by omega), singleton_append]
    exact readVarIntFrom_last (by omega) hmax

/-! ## No overflow -/

/-- a value of the unsigned type with the largest value max -/
def inType (max : ℕ) (x : ℤ) : Option ℕ := if 0 ≤ x ∧ x ≤ max then some x.toNat else none

theorem inType_eq {x : ℤ} (hx : x = n) (hn : n ≤ max) : inType max x = some n := by
  subst hx
  rw [inType, if_pos ⟨by omega, by omega⟩, Int.toNat_natCast]

/-- the writer's loop, with the room left in its buffer; high is set on every byte but the first -/
def varIntLoop (max : ℕ) : ℕ → ℕ → ℕ → Option Bytes
  | 0, _, _ => none
  | room + 1, n, high =>
    if n ≤ 127 then some [UInt8.ofNat (n % 128 + high)]
    else do
      let n' ← inType max ((n / 128 : ℕ) - 1)
      let rest ← varIntLoop max room n' 128
      return rest ++ [UInt8.ofNat (n % 128 + high)]

/-- the writer for an unsigned type of a width; its buffer has a byte for every seven bits -/
def varIntChecked (width n : ℕ) : Option Bytes := varIntLoop (2 ^ width - 1) ((width + 6) / 7) n 0

/-- the reader's loop, with checked arithmetic -/
def readVarIntCheckedFrom (max : ℕ) (eof : String) : ℕ → Reader ℕ
  | _, [] => .error eof
  | n, ch :: s =>
    if n > max / 128 then .error "ReadVarInt(): size too large"
    else match inType max (n * 128 + ch.toNat % 128) with
      | none => .error "overflow"
      | some n =>
        if 128 ≤ ch.toNat then
          if n = max then .error "ReadVarInt(): size too large"
          else match inType max (n + 1) with
            | none => .error "overflow"
            | some n => readVarIntCheckedFrom max eof n s
        else .ok (n, s)

def readVarIntChecked (width : ℕ) (eof : String) : Reader ℕ := readVarIntCheckedFrom (2 ^ width - 1) eof 0

theorem varIntLoop_eq {room fuel high : ℕ} (hroom : n < 128 ^ (room + 1)) (hfuel : room ≤ fuel) (hmax : n ≤ max) :
    varIntLoop max (room + 1) n high =
      some ((if n ≤ 127 then [] else varIntHigh fuel (n / 128 - 1)) ++ [UInt8.ofNat (n % 128 + high)]) := by
  induction room generalizing fuel n high with
  | zero =>
    have hsmall : n ≤ 127 := by omega
    rw [varIntLoop, if_pos hsmall, if_pos hsmall]
    rfl
  | succ room ih =>
    rw [varIntLoop]
    split_ifs with hsmall
    · rfl
    · obtain ⟨fuel, rfl⟩ : ∃ k, fuel = k + 1 := ⟨fuel - 1, by omega⟩
      have hrest : n / 128 - 1 < 128 ^ (room + 1) := by
        rw [pow_succ] at hroom
        have hdiv := (Nat.div_lt_iff_lt_mul (by decide)).2 hroom
        omega
      have hn : inType max ((n / 128 : ℕ) - 1) = some (n / 128 - 1) := inType_eq (by omega) (by omega)
      have hloop : varIntLoop max (room + 1) (n / 128 - 1) 128 = some (varIntHigh (fuel + 1) (n / 128 - 1)) := by
        rw [ih hrest (Nat.le_of_succ_le_succ hfuel) (by omega), varIntHigh]
      simp only [hn, hloop, Option.bind_eq_bind, Option.bind_some, Option.pure_def]

/-- The writer stays in its type and in its buffer. -/
theorem varIntChecked_eq (hlow : 1 ≤ width) (hwidth : width ≤ 64) (hn : n < 2 ^ width) :
    varIntChecked width n = some (varInt n) := by
  obtain ⟨room, hroom⟩ : ∃ k, (width + 6) / 7 = k + 1 := ⟨(width + 6) / 7 - 1, by omega⟩
  have hpow : n < 128 ^ (room + 1) := by
    calc n < 2 ^ width := hn
      _ ≤ 2 ^ (7 * (room + 1)) := Nat.pow_le_pow_right (by decide) (by omega)
      _ = 128 ^ (room + 1) := by rw [pow_mul]; rfl
  rw [varIntChecked, hroom, varIntLoop_eq hpow (show room ≤ 9 by omega) (by omega)]
  rfl

/-- The reader stays in its type, whatever it is given. -/
theorem readVarIntChecked_eq (hwidth : 7 ≤ width) (eof : String) (s : Bytes) :
    readVarIntChecked width eof s = readVarInt (2 ^ width - 1) eof s := by
  obtain ⟨k, rfl⟩ : ∃ k, width = k + 7 := ⟨width - 7, by omega⟩
  have hpow : 2 ^ (k + 7) = 2 ^ k * 128 := by rw [pow_add]; rfl
  have hpos : 0 < 2 ^ k := by positivity
  unfold readVarIntChecked readVarInt
  generalize 0 = n
  induction s generalizing n with
  | nil => rfl
  | cons ch s ih =>
    rw [readVarIntCheckedFrom, readVarIntFrom]
    by_cases hbig : n > (2 ^ (k + 7) - 1) / 128
    · rw [if_pos hbig, if_pos hbig]
    · have hshift : inType (2 ^ (k + 7) - 1) (n * 128 + ch.toNat % 128) = some (n * 128 + ch.toNat % 128) :=
        inType_eq (by omega) (by omega)
      rw [if_neg hbig, if_neg hbig]
      simp only [hshift]
      by_cases hmore : 128 ≤ ch.toNat
      · rw [if_pos hmore, if_pos hmore]
        by_cases hmax : n * 128 + ch.toNat % 128 = 2 ^ (k + 7) - 1
        · rw [if_pos hmax, if_pos hmax]
        · have hnext : inType (2 ^ (k + 7) - 1) ((n * 128 + ch.toNat % 128 : ℕ) + 1) =
              some (n * 128 + ch.toNat % 128 + 1) := inType_eq (by omega) (by omega)
          rw [if_neg hmax, if_neg hmax, hnext]
          exact ih _
      · rw [if_neg hmore, if_neg hmore]

end ConnectCoin.Lib
