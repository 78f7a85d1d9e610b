/-
Multi-word arithmetic (`base_uint` in `arith_uint256.h` and `arith_uint256.cpp`).

A number is n 32-bit digits, least significant first. The operators are the loops of the source over the digits: or-ing
shifted digits into place, carrying through 64-bit sums and products, subtracting a shifted divisor. All wrap at 2^(32
n).

- `BaseUint`: the digits; `toNat`: the number. `digit`: one 64-bit sum split into digit and carry.
- `shiftLeft`, `shiftRight`, `add`, `neg`, `sub`, `mulWord`, `div`, `compareTo`, `equalTo`, `bits`: the operators. `div`
  is none where the source throws.
Results:
- one equation per operator for the number it computes;
- `div_eq`: division is floor division, for every dividend and every divisor other than 0. The loop invariant is
  `Dividing`.
-/
import ConnectCoin.Lib.Words
import Mathlib.Data.Nat.Size
import Mathlib.Data.Nat.Bitwise

namespace ConnectCoin

open Lib List

/-- `base_uint`: n 32-bit digits, least significant first -/
structure BaseUint (n : ℕ) where
  pn : List UInt32
  width : pn.length = n
  deriving DecidableEq

namespace BaseUint

variable {n : ℕ} (a : BaseUint n)

def toNat : ℕ := wordsNat a.pn

def zero (n : ℕ) : BaseUint n := ⟨List.replicate n 0, (WordArray.zero n).size_eq⟩

/-- the constructor from `uint64_t` -/
def ofUInt64 (b : UInt64) : BaseUint (n + 2) := ⟨b.toUInt32 :: (b >>> 32).toUInt32 :: List.replicate n 0, by simp⟩

/-- `pn[i]` -/
def get (i : ℕ) : UInt32 := a.pn.getD i 0

/-- `pn[i] |= w` -/
def orAt (i : ℕ) (w : UInt32) : BaseUint n := ⟨a.pn.modify i (· ||| w), by rw [length_modify, a.width]⟩

/-! ## Operators -/

/-- `operator<<=` -/
def shiftLeft (shift : ℕ) : BaseUint n :=
  let k := shift / 32
  let shift := shift % 32
  (List.range n).foldl (fun pn i =>
    let pn := if i + k + 1 < n ∧ shift ≠ 0 then pn.orAt (i + k + 1) (a.get i >>> UInt32.ofNat (32 - shift)) else pn
    if i + k < n then pn.orAt (i + k) (a.get i <<< UInt32.ofNat shift) else pn) (zero n)

/-- `operator>>=` -/
def shiftRight (shift : ℕ) : BaseUint n :=
  let k := shift / 32
  let shift := shift % 32
  (List.range n).foldl (fun pn i =>
    let pn := if k + 1 ≤ i ∧ shift ≠ 0 then pn.orAt (i - k - 1) (a.get i <<< UInt32.ofNat (32 - shift)) else pn
    if k ≤ i then pn.orAt (i - k) (a.get i >>> UInt32.ofNat shift) else pn) (zero n)

/-- a digit and the carry: `n & 0xffffffff` and `n >> 32` of a `uint64_t` -/
def digit (n : ℕ) : UInt32 × ℕ := (UInt32.ofNat (n % 2 ^ 64 % 2 ^ 32), n % 2 ^ 64 / 2 ^ 32)

/-- `operator+=` -/
def add (b : BaseUint n) : BaseUint n :=
  ⟨(carryPass (fun (x, y) carry => digit (carry + x.toNat + y.toNat)) (a.pn.zip b.pn) 0).1, by
    rw [carryPass_length, length_zip, a.width, b.width, min_self]⟩

/-- `operator~` -/
def not : BaseUint n := ⟨a.pn.map (~~~ ·), by rw [length_map, a.width]⟩

/-- the loop of `operator++` -/
def incWords : List UInt32 → List UInt32
  | [] => []
  | w :: ws => if w + 1 = 0 then (w + 1) :: incWords ws else (w + 1) :: ws

variable {k : ℕ} (ws : List UInt32) (num a b : BaseUint n)

theorem length_incWords : (incWords ws).length = ws.length := by
  induction ws with
  | nil => rfl
  | cons w ws ih =>
    rw [incWords]
    split_ifs
    · rw [length_cons, ih, length_cons]
    · rfl

/-- `operator++` -/
def inc : BaseUint n := ⟨incWords a.pn, by rw [length_incWords, a.width]⟩

/-- unary `operator-` -/
def neg : BaseUint n := a.not.inc

/-- `operator-=` -/
def sub (b : BaseUint n) : BaseUint n := a.add b.neg

/-- `operator*=` by a `uint32_t` -/
def mulWord (b32 : UInt32) : BaseUint n :=
  ⟨(carryPass (fun x carry => digit (carry + b32.toNat * x.toNat)) a.pn 0).1, by rw [carryPass_length, a.width]⟩

/-- the loop of `CompareTo`, most significant digits first -/
def compareWords : List (UInt32 × UInt32) → Ordering
  | [] => .eq
  | (x, y) :: rest => if x < y then .lt else if x > y then .gt else compareWords rest

/-- `CompareTo` -/
def compareTo (b : BaseUint n) : Ordering := compareWords (a.pn.zip b.pn).reverse

/-- `EqualTo` -/
def equalTo (a : BaseUint (n + 2)) (b : UInt64) : Bool :=
  (a.pn.drop 2).all (· == 0) && a.get 1 == (b >>> 32).toUInt32 && a.get 0 == b.toUInt32

/-- the inner loop of `bits`: the highest set bit of a digit other than 0, plus one -/
def wordBits (w : UInt32) : ℕ → ℕ
  | 0 => 1
  | nbits + 1 => if w &&& (1 <<< UInt32.ofNat (nbits + 1)) ≠ 0 then nbits + 1 + 1 else wordBits w nbits

/-- the loop of `bits`, most significant digits first -/
def bitsWords : List UInt32 → ℕ
  | [] => 0
  | w :: rest => if w ≠ 0 then 32 * rest.length + wordBits w 31 else bitsWords rest

/-- `bits` -/
def bits : ℕ := bitsWords a.pn.reverse

/-- the loop of `operator/=`; its first argument is shift + 1 -/
def divLoop : ℕ → BaseUint n → BaseUint n → BaseUint n → BaseUint n
  | 0, _, _, quotient => quotient
  | shift + 1, num, div, quotient =>
    if num.compareTo div ≠ .lt then
      divLoop shift (num.sub div) (div.shiftRight 1) (quotient.orAt (shift / 32) (1 <<< UInt32.ofNat (shift % 32)))
    else divLoop shift num (div.shiftRight 1) quotient

/-- `operator/=`; none stands for "Division by zero" -/
def div (num b : BaseUint n) : Option (BaseUint n) :=
  if b.bits = 0 then none
  else if b.bits > num.bits then some (zero n)
  else
    let shift := num.bits - b.bits
    some (divLoop (shift + 1) num (b.shiftLeft shift) (zero n))

/-- `GetLow64` -/
def getLow64 (a : BaseUint (n + 2)) : UInt64 := (a.get 0).toUInt64 ||| (a.get 1).toUInt64 <<< 32

/-! ## Digits and the number -/

theorem toNat_lt : a.toNat < 2 ^ (32 * n) := by
  have h := wordsNat_lt a.pn
  rwa [a.width] at h

@[simp] theorem wordsNat_replicate (n : ℕ) : wordsNat (List.replicate n 0) = 0 := by
  induction n with
  | zero => rfl
  | succ n ih => simp [replicate_succ, ih]

@[simp] theorem toNat_zero : (zero n).toNat = 0 := wordsNat_replicate n

@[simp] theorem toNat_ofUInt64 (b : UInt64) : (ofUInt64 b : BaseUint (n + 2)).toNat = b.toNat := by
  have hb := b.toNat_lt
  simp only [toNat, ofUInt64, wordsNat_cons, wordsNat_replicate, UInt64.toNat_toUInt32, UInt64.toNat_shiftRight,
    UInt64.reduceToNat, Nat.reduceMod, Nat.shiftRight_eq_div_pow]
  omega

theorem toNat_get (i : ℕ) : (a.get i).toNat = (a.toNat >>> (32 * i)) % 2 ^ 32 := toNat_getD a.pn i

theorem toNat_orAt {i : ℕ} (hi : i < n) (w : UInt32) : (a.orAt i w).toNat = a.toNat ||| w.toNat <<< (32 * i) :=
  wordsNat_modify_or a.pn i (by rw [a.width]; exact hi) w

theorem toNat_shl (w : UInt32) (hk : k < 32) : (w <<< UInt32.ofNat k).toNat = w.toNat <<< k % 2 ^ 32 := by
  rw [UInt32.toNat_shiftLeft, UInt32.toNat_ofNat_of_lt' (show k < 2 ^ 32 by omega), Nat.mod_eq_of_lt hk]

theorem toNat_shr (w : UInt32) (hk : k < 32) : (w >>> UInt32.ofNat k).toNat = w.toNat >>> k := by
  rw [UInt32.toNat_shiftRight, UInt32.toNat_ofNat_of_lt' (show k < 2 ^ 32 by omega), Nat.mod_eq_of_lt hk]

/-! ## Shifts -/

/-- A loop that ors the image of every digit into its result ors the image of the number into it. -/
theorem orLoop {f : ℕ → ℕ} (hzero : f 0 = 0) (hor : ∀ x y, f (x ||| y) = f x ||| f y) {a : BaseUint n}
    {body : BaseUint n → ℕ → BaseUint n}
    (hbody : ∀ pn, ∀ i < n, (body pn i).toNat = pn.toNat ||| f ((a.get i).toNat <<< (32 * i))) :
    ((List.range n).foldl body (zero n)).toNat = f a.toNat := by
  have hloop : ∀ m ≤ n, ((List.range m).foldl body (zero n)).toNat = f (a.toNat % 2 ^ (32 * m)) := by
    intro m
    induction m with
    | zero => intro _; simp [Nat.mod_one, hzero]
    | succ m ih =>
      intro hm
      rw [range_succ, foldl_append, foldl_cons, foldl_nil, hbody _ m hm, ih (by omega), mod_two_pow_succ_word, hor,
        toNat_get]
  rw [hloop n le_rfl, Nat.mod_eq_of_lt a.toNat_lt]

/-- A shifted digit reaches over two places. -/
theorem shl_split (w : ℕ) {sh : ℕ} (hsh : sh ≤ 32) : w <<< sh = w <<< sh % 2 ^ 32 ||| (w >>> (32 - sh)) <<< 32 := by
  refine Nat.eq_of_testBit_eq fun j => ?_
  rw [Nat.testBit_or, Nat.testBit_mod_two_pow, Nat.testBit_shiftLeft, Nat.testBit_shiftLeft, Nat.testBit_shiftRight]
  rcases Nat.lt_or_ge j 32 with hj | hj
  · simp [hj]
  · have hplace : 32 - sh + (j - 32) = j - sh := by omega
    have hsh' : sh ≤ j := by omega
    simp [hj, not_lt.mpr hj, hplace, hsh']

/-- A digit at a place counts below the width only. -/
theorem place_mod {x : ℕ} (hx : x < 2 ^ 32) (p : ℕ) :
    x <<< (32 * p) % 2 ^ (32 * n) = if p < n then x <<< (32 * p) else 0 := by
  split_ifs with hp
  · refine Nat.mod_eq_of_lt ?_
    rw [Nat.shiftLeft_eq]
    calc x * 2 ^ (32 * p) < 2 ^ 32 * 2 ^ (32 * p) := Nat.mul_lt_mul_of_pos_right hx (Nat.two_pow_pos _)
      _ = 2 ^ (32 * (p + 1)) := by rw [← pow_add]; ring_nf
      _ ≤ 2 ^ (32 * n) := Nat.pow_le_pow_right two_pos (by omega)
  · rw [Nat.shiftLeft_eq]
    refine Nat.mod_eq_zero_of_dvd (Dvd.dvd.mul_left (pow_dvd_pow 2 (by omega)) x)

theorem toNat_shiftLeft (shift : ℕ) : (a.shiftLeft shift).toNat = a.toNat * 2 ^ shift % 2 ^ (32 * n) := by
  have hdistrib : ∀ x y, (x ||| y) <<< shift % 2 ^ (32 * n) = x <<< shift % 2 ^ (32 * n) |||
      y <<< shift % 2 ^ (32 * n) := fun x y => by
    rw [Nat.shiftLeft_or_distrib, Nat.or_mod_two_pow]
  rw [← Nat.shiftLeft_eq]
  refine orLoop (f := fun x => x <<< shift % 2 ^ (32 * n)) (by simp) hdistrib fun pn i hi => ?_
  have hshift := Nat.div_add_mod shift 32
  have hlt : shift % 32 < 32 := Nat.mod_lt _ (by decide)
  generalize shift / 32 = k at *
  generalize shift % 32 = sh at *
  have hlow : (a.get i).toNat <<< sh % 2 ^ 32 < 2 ^ 32 := Nat.mod_lt _ (by decide)
  have hhigh : (a.get i).toNat >>> (32 - sh) < 2 ^ 32 := (Nat.shiftRight_le _ _).trans_lt (a.get i).toNat_lt
  -- what the digit adds: its two halves, each as far as it is inside the width
  have hparts : (a.get i).toNat <<< (32 * i) <<< shift % 2 ^ (32 * n) =
      (if i + k < n then ((a.get i).toNat <<< sh % 2 ^ 32) <<< (32 * (i + k)) else 0) |||
      (if i + k + 1 < n then ((a.get i).toNat >>> (32 - sh)) <<< (32 * (i + k + 1)) else 0) := by
    conv_lhs => rw [← Nat.shiftLeft_add, show 32 * i + shift = sh + 32 * (i + k) by
        omega, Nat.shiftLeft_add, shl_split _ hlt.le, Nat.shiftLeft_or_distrib, Nat.or_mod_two_pow, place_mod hlow,
        ← Nat.shiftLeft_add, show 32 + 32 * (i + k) = 32 * (i + k + 1) by ring, place_mod hhigh]
  have hdigit : ((a.get i).toNat <<< sh % 2 ^ 32) = (a.get i <<< UInt32.ofNat sh).toNat := (toNat_shl _ hlt).symm
  dsimp only
  rw [hparts, hdigit]
  by_cases hone : i + k < n
  · rw [if_pos hone, if_pos hone, toNat_orAt _ hone]
    by_cases htwo : i + k + 1 < n ∧ sh ≠ 0
    · rw [if_pos htwo, if_pos htwo.1, toNat_orAt _ htwo.1, toNat_shr _ (by omega), Nat.or_assoc,
        Nat.or_comm (_ <<< (32 * (i + k)))]
    · rw [if_neg htwo]
      split_ifs with hin
      · -- without a shift inside the digit nothing reaches the next place
        have hsh : sh = 0 := by tauto
        rw [hsh, Nat.sub_zero, Nat.shiftRight_eq_zero _ _ (a.get i).toNat_lt, Nat.zero_shiftLeft, Nat.or_zero]
      · rw [Nat.or_zero]
  · have htwo : ¬ (i + k + 1 < n) := by omega
    rw [if_neg hone, if_neg hone, if_neg htwo, if_neg (not_and_of_not_left _ htwo), Nat.or_zero, Nat.or_zero]

theorem toNat_shiftRight (shift : ℕ) : (a.shiftRight shift).toNat = a.toNat / 2 ^ shift := by
  rw [← Nat.shiftRight_eq_div_pow]
  refine orLoop (f := fun x => x >>> shift) (Nat.zero_shiftRight _) (fun x y => Nat.shiftRight_or_distrib)
    fun pn i hi => ?_
  have hshift := Nat.div_add_mod shift 32
  have hlt : shift % 32 < 32 := Nat.mod_lt _ (by decide)
  generalize shift / 32 = k at *
  generalize shift % 32 = sh at *
  have hw := (a.get i).toNat_lt
  dsimp only
  rcases Nat.lt_trichotomy i k with hbelow | rfl | habove
  · -- the digit is shifted out
    have hout : (a.get i).toNat <<< (32 * i) >>> shift = 0 := by
      refine Nat.shiftRight_eq_zero _ _ ?_
      rw [Nat.shiftLeft_eq]
      calc (a.get i).toNat * 2 ^ (32 * i) < 2 ^ 32 * 2 ^ (32 * i) := Nat.mul_lt_mul_of_pos_right hw (Nat.two_pow_pos _)
        _ = 2 ^ (32 * (i + 1)) := by rw [← pow_add]; ring_nf
        _ ≤ 2 ^ shift := Nat.pow_le_pow_right two_pos (by omega)
    rw [if_neg (by omega), if_neg (by omega), hout, Nat.or_zero]
  · have hfirst : (a.get i).toNat <<< (32 * i) >>> shift = (a.get i).toNat >>> sh := by
      rw [← hshift, Nat.shiftRight_add, Nat.shiftLeft_shiftRight]
    rw [if_pos le_rfl, if_neg (by omega), toNat_orAt _ (by omega), toNat_shr _ hlt, hfirst, Nat.sub_self, Nat.mul_zero,
      Nat.shiftLeft_zero]
  · obtain ⟨p, rfl⟩ : ∃ p, i = k + 1 + p := ⟨i - (k + 1), by omega⟩
    have hplace : k + 1 + p - k = p + 1 := by omega
    have hparts : (a.get (k + 1 + p)).toNat <<< (32 * (k + 1 + p)) >>> shift =
        ((a.get (k + 1 + p)).toNat <<< (32 - sh) % 2 ^ 32) <<< (32 * p) ||| ((a.get (k + 1 + p)).toNat >>> sh) <<<
        (32 * (p + 1)) := by
      have hsub : 32 - (32 - sh) = sh := by omega
      have hmove : (a.get (k + 1 + p)).toNat <<< (32 * (k + 1 + p)) >>> shift =
          (a.get (k + 1 + p)).toNat <<< (32 - sh) <<< (32 * p) := by
        rw [← Nat.shiftLeft_add, show 32 * (k + 1 + p) =
          (32 - sh + 32 * p) + shift by omega, Nat.shiftLeft_add, Nat.shiftLeft_shiftRight]
      conv_lhs => rw [hmove, shl_split _ (Nat.sub_le 32 sh), hsub, Nat.shiftLeft_or_distrib, ← Nat.shiftLeft_add _ 32,
        show 32 + 32 * p = 32 * (p + 1) by ring]
    rw [hparts, if_pos (by omega), hplace, toNat_orAt _ (by omega), toNat_shr _ hlt]
    by_cases hsh : sh = 0
    · rw [if_neg (by tauto), hsh, Nat.sub_zero, Nat.shiftLeft_eq _ 32, Nat.mul_mod_left,
        Nat.zero_shiftLeft, Nat.zero_or]
    · rw [if_pos ⟨by omega, hsh⟩, Nat.add_sub_cancel, toNat_orAt _ (by omega), toNat_shl _ (by omega), Nat.or_assoc]

/-! ## Sums -/

/-- A 64-bit sum is its digit and its carry. -/
theorem digit_eq {m : ℕ} (hm : m < 2 ^ 64) : (digit m).2 < 2 ^ 32 ∧ (digit m).1.toNat + 2 ^ 32 * (digit m).2 = m := by
  have hdigit : (UInt32.ofNat (m % 2 ^ 32)).toNat = m % 2 ^ 32 := UInt32.toNat_ofNat_of_lt' (Nat.mod_lt m (by decide))
  simp only [digit, Nat.mod_eq_of_lt hm, hdigit]
  omega

/-- A loop whose carry is dropped at the end wraps. -/
theorem pass_mod {α : Type} (turn : α → ℕ → UInt32 × ℕ) (f : α → ℕ) {xs : List α} (hlen : xs.length = n)
    (hturn : ∀ x ∈ xs, ∀ carry < 2 ^ 32, (turn x carry).2 < 2 ^ 32 ∧
      (turn x carry).1.toNat + 2 ^ 32 * (turn x carry).2 = f x + carry) :
    wordsNat (carryPass turn xs 0).1 = weighted f xs % 2 ^ (32 * n) := by
  have hvalue := carryPass_spec (· < 2 ^ 32) xs hturn 0 (by decide)
  have hlt := wordsNat_lt (carryPass turn xs 0).1
  rw [carryPass_length] at hlt
  rw [hlen] at hvalue hlt
  rw [Nat.add_zero] at hvalue
  rw [← hvalue, Nat.add_mul_mod_self_left, Nat.mod_eq_of_lt hlt]

theorem toNat_add : (a.add b).toNat = (a.toNat + b.toNat) % 2 ^ (32 * n) := by
  have hlen : (a.pn.zip b.pn).length = n := by rw [length_zip, a.width, b.width, min_self]
  have hpass := pass_mod (fun (p : UInt32 × UInt32) carry => digit (carry + p.1.toNat + p.2.toNat))
    (fun p => p.1.toNat + 1 * p.2.toNat) hlen
    (fun p _ carry hcarry => by
      have h₁ := p.1.toNat_lt
      have h₂ := p.2.toNat_lt
      obtain ⟨hnext, hvalue⟩ := digit_eq (show carry + p.1.toNat + p.2.toNat < 2 ^ 64 by omega)
      exact ⟨hnext, by omega⟩)
  rw [weighted_zip _ (by rw [a.width, b.width]), a.width, take_of_length_le (by rw [b.width]), Nat.one_mul] at hpass
  exact hpass

theorem toNat_not : a.not.toNat = 2 ^ (32 * n) - 1 - a.toNat := by
  have hwords : ∀ ws : List UInt32, wordsNat (ws.map (~~~ ·)) + wordsNat ws + 1 = 2 ^ (32 * ws.length) := by
    intro ws
    induction ws with
    | nil => rfl
    | cons w ws ih =>
      have hw := w.toNat_lt
      have hnot : (~~~ w).toNat = 2 ^ 32 - 1 - w.toNat := UInt32.toNat_not w
      rw [map_cons, wordsNat_cons, wordsNat_cons, length_cons, Nat.mul_succ, pow_add, ← ih, hnot]
      omega
  have h := hwords a.pn
  rw [a.width] at h
  simp only [toNat, not]
  omega

theorem toNat_inc : a.inc.toNat = (a.toNat + 1) % 2 ^ (32 * n) := by
  have hwords : ∀ ws : List UInt32, wordsNat (incWords ws) = (wordsNat ws + 1) % 2 ^ (32 * ws.length) := by
    intro ws
    induction ws with
    | nil => simp [incWords]
    | cons w ws ih =>
      have hw := w.toNat_lt
      have hws := wordsNat_lt ws
      have hadd : (w + 1).toNat = (w.toNat + 1) % 2 ^ 32 := UInt32.toNat_add w 1
      rw [length_cons, Nat.mul_succ, pow_add, incWords]
      split_ifs with hzero
      · have hmax : w.toNat + 1 = 2 ^ 32 := by
          rw [hzero, UInt32.toNat_zero] at hadd
          omega
        rw [wordsNat_cons, wordsNat_cons, hzero, UInt32.toNat_zero, ih, Nat.zero_add, Nat.add_right_comm, hmax,
          Nat.mul_comm (2 ^ (32 * _)), show 2 ^ 32 + 2 ^ 32 * wordsNat ws =
          2 ^ 32 * (wordsNat ws + 1) by ring, Nat.mul_mod_mul_left]
      · have hne : (w + 1).toNat ≠ 0 := fun h => hzero (UInt32.toNat_inj.mp h)
        have hexact : (w + 1).toNat = w.toNat + 1 := by omega
        rw [wordsNat_cons, wordsNat_cons, hexact, Nat.mod_eq_of_lt]
        · ring
        · have hstep : 2 ^ 32 * (wordsNat ws + 1) ≤ 2 ^ 32 * 2 ^ (32 * ws.length) := Nat.mul_le_mul_left _ hws
          rw [Nat.mul_comm (2 ^ (32 * _))]
          omega
  have h := hwords a.pn
  rwa [a.width] at h

theorem toNat_neg : a.neg.toNat = (2 ^ (32 * n) - a.toNat) % 2 ^ (32 * n) := by
  have hlt := a.toNat_lt
  rw [neg, toNat_inc, toNat_not]
  congr 1
  omega

theorem toNat_sub : (a.sub b).toNat = (a.toNat + (2 ^ (32 * n) - b.toNat)) % 2 ^ (32 * n) := by
  rw [sub, toNat_add, toNat_neg, Nat.add_mod_mod]

theorem toNat_sub_of_le {a b : BaseUint n} (h : b.toNat ≤ a.toNat) : (a.sub b).toNat = a.toNat - b.toNat := by
  have ha := a.toNat_lt
  rw [toNat_sub, show a.toNat + (2 ^ (32 * n) - b.toNat) =
    (a.toNat - b.toNat) + 2 ^ (32 * n) by omega, Nat.add_mod_right, Nat.mod_eq_of_lt (by omega)]

/-! ## Products -/

theorem toNat_mulWord (b32 : UInt32) : (a.mulWord b32).toNat = a.toNat * b32.toNat % 2 ^ (32 * n) := by
  have hb := b32.toNat_lt
  have hpass := pass_mod (fun (x : UInt32) carry => digit (carry + b32.toNat * x.toNat))
    (fun x => b32.toNat * x.toNat) a.width
    (fun x _ carry hcarry => by
      have hx := x.toNat_lt
      have hprod : b32.toNat * x.toNat ≤ (2 ^ 32 - 1) * (2 ^ 32 - 1) := Nat.mul_le_mul (by omega) (by omega)
      obtain ⟨hnext, hvalue⟩ := digit_eq (show carry + b32.toNat * x.toNat < 2 ^ 64 by omega)
      exact ⟨hnext, by omega⟩)
  rw [weighted_mul_toNat, Nat.mul_comm] at hpass
  exact hpass

/-! ## Order -/

theorem compareWords_zip {us vs : List UInt32} (hlen : us.length = vs.length) :
    compareWords (us.zip vs) = compare (beWordsNat us) (beWordsNat vs) := by
  induction us generalizing vs with
  | nil =>
    have hnil : vs = [] := eq_nil_of_length_eq_zero hlen.symm
    rw [hnil]
    rfl
  | cons u us ih =>
    cases vs with
    | nil => simp at hlen
    | cons v vs =>
      have htail : us.length = vs.length := by simpa using hlen
      have hltiff := beWordsNat_lt_iff hlen
      have hgtiff := beWordsNat_lt_iff hlen.symm
      rw [cons_lt_cons_iff] at hltiff hgtiff
      rw [zip_cons_cons, compareWords]
      rcases lt_trichotomy u.toNat v.toNat with hlt | heq | hgt
      · have huv := UInt32.lt_iff_toNat_lt.mpr hlt
        rw [if_pos huv, compare_lt_iff_lt.mpr (hltiff.mp (Or.inl huv))]
      · have huv := UInt32.toNat_inj.mp heq
        subst huv
        rw [if_neg (UInt32.lt_irrefl u), if_neg (UInt32.lt_irrefl u), ih htail, beWordsNat_cons, beWordsNat_cons, htail]
        rcases lt_trichotomy (beWordsNat us) (beWordsNat vs) with hlt | heq | hgt
        · rw [compare_lt_iff_lt.mpr hlt, compare_lt_iff_lt.mpr (Nat.add_lt_add_left hlt _)]
        · rw [heq, compare_eq_iff_eq.mpr rfl, compare_eq_iff_eq.mpr rfl]
        · rw [compare_gt_iff_gt.mpr hgt, compare_gt_iff_gt.mpr (Nat.add_lt_add_left hgt _)]
      · have hvu := UInt32.lt_iff_toNat_lt.mpr hgt
        rw [if_neg (UInt32.lt_asymm hvu), if_pos hvu, compare_gt_iff_gt.mpr (hgtiff.mp (Or.inl hvu))]

theorem compareTo_eq : a.compareTo b = compare a.toNat b.toNat := by
  have hlen := a.width.trans b.width.symm
  have hreverse : (a.pn.zip b.pn).reverse = a.pn.reverse.zip b.pn.reverse := reverse_zipWith hlen
  rw [compareTo, hreverse, compareWords_zip (by simpa using hlen), beWordsNat, beWordsNat, reverse_reverse,
    reverse_reverse]
  rfl

theorem all_zero_iff : ws.all (· == 0) = true ↔ wordsNat ws = 0 := by
  induction ws with
  | nil => simp
  | cons w ws ih => simp [ih, ← UInt32.toNat_inj]

theorem equalTo_iff (a : BaseUint (n + 2)) (b : UInt64) : a.equalTo b = true ↔ a.toNat = b.toNat := by
  have hb := b.toNat_lt
  have hlow : b.toUInt32.toNat = b.toNat % 2 ^ 32 := UInt64.toNat_toUInt32 b
  have hhigh : (b >>> 32).toUInt32.toNat = b.toNat / 2 ^ 32 := by
    simp only [UInt64.toNat_toUInt32, UInt64.toNat_shiftRight, UInt64.reduceToNat, Nat.reduceMod,
      Nat.shiftRight_eq_div_pow]
    omega
  obtain ⟨pn, hwidth⟩ := a
  match pn, hwidth with
  | x :: y :: rest, hwidth =>
    have hx := x.toNat_lt
    have hy := y.toNat_lt
    simp only [equalTo, get, toNat, drop_succ_cons, drop_zero, getD_cons_succ, getD_cons_zero, Bool.and_eq_true,
      beq_iff_eq, all_zero_iff, wordsNat_cons, ← UInt32.toNat_inj, hlow, hhigh]
    omega

/-! ## The highest bit -/

/-- The test of the highest bit that a digit can have. -/
theorem and_bit_ne_zero {w : UInt32} (hk : k < 32) (hlt : w.toNat < 2 ^ (k + 1)) :
    w &&& (1 <<< UInt32.ofNat k) ≠ 0 ↔ 2 ^ k ≤ w.toNat := by
  have hpow : ((1 : UInt32) <<< UInt32.ofNat k).toNat = 2 ^ k := by
    rw [toNat_shl _ hk, UInt32.toNat_one, Nat.one_shiftLeft, Nat.mod_eq_of_lt (Nat.pow_lt_pow_right one_lt_two hk)]
  rw [Ne, ← UInt32.toNat_inj, UInt32.toNat_and, hpow, UInt32.toNat_zero, Nat.and_two_pow]
  constructor
  · intro hne
    refine not_lt.mp fun hsmall => hne ?_
    rw [Nat.testBit_lt_two_pow hsmall, Bool.toNat_false, Nat.zero_mul]
  · intro hle
    have hquot : w.toNat / 2 ^ k = 1 := by
      rw [pow_succ] at hlt
      exact Nat.div_eq_of_lt_le (by omega) (by omega)
    rw [Nat.testBit_eq_decide_div_mod_eq, hquot]
    simp

theorem wordBits_eq {w : UInt32} (hw : w ≠ 0) (k : ℕ) (hk : k < 32) (hlt : w.toNat < 2 ^ (k + 1)) :
    wordBits w k = w.toNat.size := by
  have hpos : 0 < w.toNat := Nat.pos_of_ne_zero fun h => hw (UInt32.toNat_inj.mp h)
  induction k with
  | zero =>
    have hone : w.toNat = 1 := by omega
    rw [wordBits, hone, Nat.size_one]
  | succ k ih =>
    have hbit := and_bit_ne_zero hk hlt
    rw [wordBits]
    split_ifs with hset
    · have hle := hbit.mp hset
      refine le_antisymm (Nat.lt_size.mpr hle) (Nat.size_le.mpr hlt)
    · exact ih (by omega) (not_le.mp fun h => hset (hbit.mpr h))

theorem bitsWords_eq : bitsWords ws = (beWordsNat ws).size := by
  induction ws with
  | nil => simp [bitsWords]
  | cons w ws ih =>
    have hlt := beWordsNat_lt ws
    rw [bitsWords, beWordsNat_cons]
    split_ifs with hw
    · have hbits := wordBits_eq hw 31 (by decide) w.toNat_lt
      have hupper := Nat.size_le.mp (le_refl w.toNat.size)
      have hpos : 0 < w.toNat.size := Nat.size_pos.mpr (Nat.pos_of_ne_zero fun h => hw (UInt32.toNat_inj.mp h))
      have hlower := Nat.lt_size.mp (Nat.sub_lt hpos one_pos)
      rw [hbits]
      refine le_antisymm ?_ (Nat.size_le.mpr ?_)
      · have hfirst : 32 * ws.length + (w.toNat.size - 1) < (2 ^ (32 * ws.length) * w.toNat + beWordsNat ws).size := by
          rw [Nat.lt_size, pow_add]
          exact (Nat.mul_le_mul_left _ hlower).trans (Nat.le_add_right _ _)
        omega
      · calc 2 ^ (32 * ws.length) * w.toNat + beWordsNat ws
            < 2 ^ (32 * ws.length) * (w.toNat + 1) := by rw [Nat.mul_succ]; omega
          _ ≤ 2 ^ (32 * ws.length) * 2 ^ w.toNat.size := Nat.mul_le_mul_left _ hupper
          _ = 2 ^ (32 * ws.length + w.toNat.size) := (pow_add 2 _ _).symm
    · rw [not_not.mp hw, UInt32.toNat_zero, Nat.mul_zero, Nat.zero_add, ih]

theorem bits_eq : a.bits = a.toNat.size := by
  rw [bits, bitsWords_eq, beWordsNat, reverse_reverse]
  rfl

/-! ## Division -/

/-- the division of N by b with shift turns to go -/
structure Dividing (N b shift : ℕ) (num div quotient : BaseUint n) : Prop where
  total : num.toNat + quotient.toNat * b = N
  aligned : ∀ s, shift = s + 1 → div.toNat = b * 2 ^ s
  below : num.toNat < b * 2 ^ shift
  multiple : 2 ^ shift ∣ quotient.toNat

theorem toNat_setBit {q : BaseUint n} {s : ℕ} (hs : s < 32 * n) (hmul : 2 ^ (s + 1) ∣ q.toNat) :
    (q.orAt (s / 32) (1 <<< UInt32.ofNat (s % 32))).toNat = q.toNat + 2 ^ s := by
  obtain ⟨c, hc⟩ := hmul
  have hmod : s % 32 < 32 := Nat.mod_lt _ (by decide)
  rw [toNat_orAt _ (by omega), toNat_shl _ hmod, UInt32.toNat_one, Nat.one_shiftLeft,
    Nat.mod_eq_of_lt (Nat.pow_lt_pow_right one_lt_two hmod), Nat.shiftLeft_eq, ← pow_add, Nat.mod_add_div, hc,
    Nat.two_pow_add_eq_or_of_lt (Nat.pow_lt_pow_right one_lt_two (Nat.lt_succ_self s))]

theorem divLoop_eq {N b : ℕ} (turns : ℕ) (hturns : turns ≤ 32 * n) {num div quotient : BaseUint n}
    (h : Dividing N b turns num div quotient) : (divLoop turns num div quotient).toNat = N / b := by
  induction turns generalizing num div quotient with
  | zero =>
    have hbelow := h.below
    rw [pow_zero, Nat.mul_one] at hbelow
    rw [divLoop, ← h.total, Nat.add_mul_div_right _ _ (Nat.zero_lt_of_lt hbelow), Nat.div_eq_of_lt hbelow, Nat.zero_add]
  | succ s ih =>
    have haligned := h.aligned s rfl
    have hbelow := h.below
    have htotal := h.total
    have hhalf : ∀ s', s = s' + 1 → (div.shiftRight 1).toNat = b * 2 ^ s' := fun s' hs' => by
      rw [toNat_shiftRight, haligned, hs', pow_succ, pow_one, ← Nat.mul_assoc, Nat.mul_div_cancel _ two_pos]
    rw [divLoop, compareTo_eq]
    split_ifs with hle
    · have hge : div.toNat ≤ num.toNat := not_lt.mp fun hlt => hle (compare_lt_iff_lt.mpr hlt)
      have hbit := toNat_setBit hturns h.multiple
      refine ih (by omega) ⟨?_, hhalf, ?_, ?_⟩
      · rw [toNat_sub_of_le hge, hbit, Nat.add_mul, haligned, Nat.mul_comm (2 ^ s) b]
        rw [haligned] at hge
        omega
      · rw [toNat_sub_of_le hge, haligned]
        rw [pow_succ, ← Nat.mul_assoc] at hbelow
        omega
      · rw [hbit]
        exact dvd_add ((pow_dvd_pow 2 (Nat.le_succ s)).trans h.multiple) dvd_rfl
    · rw [not_not, compare_lt_iff_lt, haligned] at hle
      exact ih (by omega) ⟨htotal, hhalf, hle, (pow_dvd_pow 2 (Nat.le_succ s)).trans h.multiple⟩

/-- Division by a divisor other than 0 is floor division. -/
theorem div_eq (hb : b.toNat ≠ 0) : ∃ q, num.div b = some q ∧ q.toNat = num.toNat / b.toNat := by
  have hbits : b.toNat.size ≠ 0 := fun h => hb (Nat.size_eq_zero.mp h)
  have hb_upper := Nat.size_le.mp (le_refl b.toNat.size)
  have hb_lower := Nat.lt_size.mp (Nat.sub_lt (Nat.pos_of_ne_zero hbits) one_pos)
  have hnum_upper := Nat.size_le.mp (le_refl num.toNat.size)
  have hnum_size : num.toNat.size ≤ 32 * n := Nat.size_le.mpr num.toNat_lt
  rw [div, bits_eq, bits_eq, if_neg hbits]
  split_ifs with hsmall
  · refine ⟨_, rfl, ?_⟩
    rw [toNat_zero, Nat.div_eq_of_lt]
    exact not_le.mp fun hle => absurd (Nat.size_le_size hle) (not_le.mpr hsmall)
  · refine ⟨_, rfl, divLoop_eq _ (by omega) ⟨by rw [toNat_zero, Nat.zero_mul, Nat.add_zero], ?_, ?_,
      by rw [toNat_zero]; exact dvd_zero _⟩⟩
    · rintro s hs
      have hfits : b.toNat * 2 ^ s < 2 ^ (32 * n) := by
        calc b.toNat * 2 ^ s < 2 ^ b.toNat.size * 2 ^ s := Nat.mul_lt_mul_of_pos_right hb_upper (Nat.two_pow_pos s)
          _ = 2 ^ (b.toNat.size + s) := (pow_add 2 _ _).symm
          _ ≤ 2 ^ (32 * n) := Nat.pow_le_pow_right two_pos (by omega)
      rw [Nat.succ.inj hs, toNat_shiftLeft, Nat.mod_eq_of_lt hfits]
    · calc num.toNat < 2 ^ num.toNat.size := hnum_upper
        _ = 2 ^ (b.toNat.size - 1) * 2 ^ (num.toNat.size - b.toNat.size + 1) := by rw [← pow_add]; congr 1; omega
        _ ≤ b.toNat * 2 ^ (num.toNat.size - b.toNat.size + 1) := Nat.mul_le_mul_right _ hb_lower

theorem div_zero (hb : b.toNat = 0) : num.div b = none := by
  rw [div, bits_eq, hb, Nat.size_zero, if_pos rfl]

end BaseUint

end ConnectCoin
