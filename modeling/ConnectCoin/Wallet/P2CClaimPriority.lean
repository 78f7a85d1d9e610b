/-
Ranking of pay-to-connect claims (`wallet/p2c_claim.cpp`, `wallet/p2c_claim_priority.h`) and the connection budget of a
bounty (`P2CConnectionBudget` in `wallet/p2c_admission.h`).

A claim is worth (target + 1) · reward / 2^256; the program keeps the numerator in an array of words, most significant
first, and compares arrays. Every 64-bit operation is checked here: none stands for an operation that wraps around.

- `multiplyP2CTarget`: the product, eight target words times two payout words and then the payout once more.
- `getP2CClaimPriority`, `getP2CClaimSelectionPriority`: without and with the local ranking factor.
- `isP2CClaimConnectionLimitExceeded`, `P2CConnectionBudget.new`: the limit of successful captures, and its threshold by
  bisection.
Results: `multiplyP2CTarget_eq` says that the product is exact and that nothing wraps; `claim_ranking_exact` and
`connection_budget_exact` follow from it.
-/
import ConnectCoin.Consensus.TxCheck
import ConnectCoin.Lib.Checked
import ConnectCoin.Lib.Words

namespace ConnectCoin.Wallet

open Lib List Option

/-! ## The product -/

/-- `P2CClaimPriority` -/
abbrev P2CClaimPriority := WordArray 10

/-- `P2CClaimSelectionPriority` -/
abbrev P2CClaimSelectionPriority := WordArray 11

variable (target : Uint256)

/-- `ReadLE32` at word i of a target -/
def targetWord (i : ℕ) : ℕ := leNat ((target.bytes.drop (4 * i)).take 4)

/-- the inner loop's turn: word i of the target times word j of the payout -/
def multiplyWord (word : ℕ) (payout : UInt64) (i : ℕ) (s : P2CClaimPriority × ℕ) (j : ℕ) :
    Option (P2CClaimPriority × ℕ) := do
  let pos := 9 - (i + j)
  let product ← Lib.u64 (word * (payout.toNat >>> (32 * j) % 2 ^ 32))
  let product ← Lib.u64 (product + (s.1.get pos).toNat)
  let product ← Lib.u64 (product + s.2)
  return (s.1.set pos (UInt32.ofNat product), product >>> 32)

/-- the outer loop's turn -/
def multiplyRow (payout : UInt64) (result : P2CClaimPriority) (i : ℕ) : Option P2CClaimPriority := do
  let (result, carry) ← (List.range 2).foldlM (multiplyWord (targetWord target i) payout i) (result, 0)
  return result.set (7 - i) (UInt32.ofNat carry)

/-- a turn of the last loop, whose carry has 64 bits -/
def addCarry (w : UInt32) (carry : ℕ) : Option (UInt32 × ℕ) := do
  let sum ← Lib.u64 (w.toNat + carry % 2 ^ 32)
  let carry ← Lib.u64 (carry >>> 32 + sum >>> 32)
  return (UInt32.ofNat sum, carry)

/-- `MultiplyP2CTarget` -/
def multiplyP2CTarget (payout : UInt64) : Option P2CClaimPriority := do
  let result ← (List.range 8).foldlM (multiplyRow target payout) (WordArray.zero 10)
  let (result, _) ← result.carryThrough addCarry payout.toNat
  return result

/-! ## Priorities -/

/-- `GetP2CClaimPriority` -/
def getP2CClaimPriority (netReward : CAmount) : Option P2CClaimPriority :=
  if netReward ≤ 0 ∨ moneyRange netReward = false then some (WordArray.zero 10)
  else multiplyP2CTarget target (UInt64.ofNat netReward.toNat)

def P2C_CLAIM_FACTOR_SCALE : UInt32 := 1000000
def P2C_CLAIM_FACTOR_MAX : UInt32 := 1100000

/-- a turn of the multiplication by the factor -/
def factorWord (factor : UInt32) (w : UInt32) (carry : ℕ) : Option (UInt32 × ℕ) := do
  let product ← Lib.u64 (w.toNat * factor.toNat)
  let product ← Lib.u64 (product + carry)
  return (UInt32.ofNat product, product >>> 32)

/-- `GetP2CClaimSelectionPriority`; the error is the exception's text -/
def getP2CClaimSelectionPriority (priority : P2CClaimPriority) (factor : UInt32) :
    Option (Except String P2CClaimSelectionPriority) :=
  if factor < P2C_CLAIM_FACTOR_SCALE ∨ factor > P2C_CLAIM_FACTOR_MAX then
    some (.error "Invalid P2C claim ranking factor")
  else do
    let (low, carry) ← priority.carryThrough (factorWord factor) 0
    return .ok ⟨UInt32.ofNat carry :: low.words, by rw [length_cons, low.size_eq]⟩

/-! ## The connection budget -/

/-- `twice_space`: 2^257 -/
def twiceSpace : P2CClaimPriority := (WordArray.zero 10).set 1 2

/-- `IsP2CClaimConnectionLimitExceeded` -/
def isP2CClaimConnectionLimitExceeded (successfulConnections : UInt64) : Option Bool :=
  (multiplyP2CTarget target successfulConnections).map fun product => decide (twiceSpace < product)

/-- the bisection of `P2CConnectionBudget` -/
def firstExcess (target : Uint256) (low high : ℕ) : Option ℕ :=
  if low < high then
    let middle := low + (high - low) / 2
    match isP2CClaimConnectionLimitExceeded target (UInt64.ofNat middle) with
    | none => none
    | some true => firstExcess target low middle
    | some false => firstExcess target (middle + 1) high
  else some low
termination_by high - low

structure P2CConnectionBudget where
  firstExcess : ℕ
  deriving DecidableEq

def UINT64_MAX : ℕ := 2 ^ 64 - 1

/-- the constructor of `P2CConnectionBudget` -/
def P2CConnectionBudget.new : Option P2CConnectionBudget := do
  let exceeded ← isP2CClaimConnectionLimitExceeded target (UInt64.ofNat UINT64_MAX)
  if exceeded then
    let first ← Wallet.firstExcess target 0 UINT64_MAX
    return ⟨first⟩
  else return ⟨UINT64_MAX⟩

/-- `Exceeded` -/
def P2CConnectionBudget.exceeded (budget : P2CConnectionBudget) (successes : UInt64) : Bool :=
  decide (budget.firstExcess ≤ successes.toNat)

/-! ## Exactness -/

variable (target : Uint256) (payout : UInt64) (i : ℕ)

theorem targetWord_lt : targetWord target i < 2 ^ 32 := by
  have h := leNat_lt ((target.bytes.drop (4 * i)).take 4)
  have hlen : ((target.bytes.drop (4 * i)).take 4).length ≤ 4 := length_take_le _ _
  calc targetWord target i < 256 ^ ((target.bytes.drop (4 * i)).take 4).length := h
    _ ≤ 256 ^ 4 := Nat.pow_le_pow_right (by decide) hlen
    _ = 2 ^ 32 := by decide

/-- The tight bound: a product of two words and two more words fit into 64 bits. -/
theorem mul_add_words_lt {a b c d : ℕ} (ha : a < 2 ^ 32) (hb : b < 2 ^ 32) (hc : c < 2 ^ 32) (hd : d < 2 ^ 32) :
    a * b + c + d < 2 ^ 64 := by
  have hmul : a * b ≤ (2 ^ 32 - 1) * (2 ^ 32 - 1) := Nat.mul_le_mul (by omega) (by omega)
  omega

/-- A turn of the inner loop adds its product at its place; nothing wraps. -/
theorem multiplyWord_eq (word : ℕ) (payout : UInt64) (i j : ℕ) (result : P2CClaimPriority) (carry : ℕ)
    (hword : word < 2 ^ 32) (hcarry : carry < 2 ^ 32) (hpos : i + j ≤ 9) :
    ∃ result' carry', multiplyWord word payout i (result, carry) j = some (result', carry') ∧ carry' < 2 ^ 32 ∧
      result'.toNat + 2 ^ (32 * (i + j + 1)) * carry' =
        result.toNat + 2 ^ (32 * (i + j)) * (word * (payout.toNat >>> (32 * j) % 2 ^ 32) + carry) ∧
      ∀ k, k ≠ 9 - (i + j) → result'.get k = result.get k := by
  set digit := payout.toNat >>> (32 * j) % 2 ^ 32 with hdigit
  have hdigit_lt : digit < 2 ^ 32 := Nat.mod_lt _ (by decide)
  set old := (result.get (9 - (i + j))).toNat with hold
  have hold_lt : old < 2 ^ 32 := UInt32.toNat_lt _
  have hfits := mul_add_words_lt hword hdigit_lt hold_lt hcarry
  set product := word * digit + old + carry with hproduct
  refine ⟨result.set (9 - (i + j)) (UInt32.ofNat product), product >>> 32, ?_, ?_, ?_, ?_⟩
  · simp only [multiplyWord, ← hdigit, ← hold]
    rw [u64_of_lt (by omega), bind_eq_bind, bind_some, u64_of_lt (by omega), bind_some, u64_of_lt hfits]
    rfl
  · rw [Nat.shiftRight_eq_div_pow]; omega
  · have hset := result.toNat_set (show 9 - (i + j) < 10 by omega) (UInt32.ofNat product)
    rw [show 10 - 1 - (9 - (i + j)) = i + j by omega, ← hold, UInt32.toNat_ofNat'] at hset
    have hsplit : product % 2 ^ 32 + 2 ^ 32 * (product >>> 32) = word * digit + old + carry := by
      rw [Nat.shiftRight_eq_div_pow]; omega
    rw [Nat.mul_succ, pow_add]
    generalize 2 ^ (32 * (i + j)) = weight at hset ⊢
    apply Nat.add_right_cancel (m := weight * old)
    calc (result.set (9 - (i + j)) (UInt32.ofNat product)).toNat + weight * 2 ^ 32 * (product >>> 32) + weight * old
        = (result.set (9 - (i + j)) (UInt32.ofNat product)).toNat + weight * old + weight *
          (2 ^ 32 * (product >>> 32)) := by ring
      _ = result.toNat + weight * (product % 2 ^ 32 + 2 ^ 32 * (product >>> 32)) := by rw [hset]; ring
      _ = result.toNat + weight * (word * digit + carry) + weight * old := by rw [hsplit]; ring
  · intro k hk
    exact result.get_set_ne (Ne.symm hk) _

/-- A turn of the outer loop adds the target's word times the payout. The word it overwrites is still zero. -/
theorem multiplyRow_eq (hi : i < 8) (result : P2CClaimPriority) (hresult : result.toNat < 2 ^ (32 * (i + 2))) :
    ∃ result', multiplyRow target payout result i = some result' ∧
      result'.toNat = result.toNat + 2 ^ (32 * i) * (targetWord target i * payout.toNat) := by
  have hword := targetWord_lt target i
  obtain ⟨r₀, c₀, hrun₀, hc₀, hvalue₀, hsame₀⟩ := multiplyWord_eq _ payout i 0 result 0 hword (by decide) (by omega)
  obtain ⟨r₁, c₁, hrun₁, hc₁, hvalue₁, hsame₁⟩ := multiplyWord_eq _ payout i 1 r₀ c₀ hword hc₀ (by omega)
  have hzero : (result.get (7 - i)).toNat = 0 := by
    have hle := result.get_le (show 7 - i < 10 by omega)
    rw [show 10 - 1 - (7 - i) = i + 2 by omega] at hle
    have hlt := lt_of_le_of_lt hle hresult
    by_contra hne
    exact absurd hlt (not_lt.mpr (Nat.le_mul_of_pos_right _ (Nat.pos_of_ne_zero hne)))
  have hold : (r₁.get (7 - i)).toNat = 0 := by
    rw [hsame₁ _ (by omega), hsame₀ _ (by omega), hzero]
  have hset := r₁.toNat_set (show 7 - i < 10 by omega) (UInt32.ofNat c₁)
  rw [show 10 - 1 - (7 - i) = i + 2 by omega, hold, UInt32.toNat_ofNat', Nat.mod_eq_of_lt hc₁] at hset
  refine ⟨r₁.set (7 - i) (UInt32.ofNat c₁), ?_, ?_⟩
  · simp only [multiplyRow, range_succ, range_zero, nil_append, cons_append, foldlM_cons, foldlM_nil,
      hrun₀, hrun₁, Option.bind_eq_bind, Option.bind_some, Option.pure_def]
  · have hdigits : payout.toNat >>> (32 * 0) % 2 ^ 32 + 2 ^ 32 * (payout.toNat >>> (32 * 1) % 2 ^ 32) =
        payout.toNat := by
      have hpayout := payout.toNat_lt
      simp only [Nat.shiftRight_eq_div_pow]
      omega
    simp only [Nat.add_zero, Nat.mul_zero, Nat.add_assoc, Nat.reduceAdd] at hvalue₀ hvalue₁ hset
    have hpow₁ : 2 ^ (32 * (i + 1)) = 2 ^ (32 * i) * 2 ^ 32 := by rw [Nat.mul_succ, pow_add]
    rw [hpow₁] at hvalue₀ hvalue₁
    rw [hset, hvalue₁]
    calc r₀.toNat + 2 ^ (32 * i) * 2 ^ 32 * (targetWord target i * (payout.toNat >>> (32 * 1) % 2 ^ 32) + c₀)
        = (r₀.toNat + 2 ^ (32 * i) * 2 ^ 32 * c₀) +
            2 ^ (32 * i) * (targetWord target i * (2 ^ 32 * (payout.toNat >>> (32 * 1) % 2 ^ 32))) := by ring
      _ = result.toNat + 2 ^ (32 * i) * (targetWord target i * (payout.toNat >>> (32 * 0) % 2 ^ 32 +
            2 ^ 32 * (payout.toNat >>> (32 * 1) % 2 ^ 32))) := by rw [hvalue₀]; ring
      _ = result.toNat + 2 ^ (32 * i) * (targetWord target i * payout.toNat) := by rw [hdigits]

/-- the part of a target below word i -/
def targetBelow (i : ℕ) : ℕ := leNat (target.bytes.take (4 * i))

theorem targetBelow_lt : targetBelow target i < 2 ^ (32 * i) := by
  have h := leNat_lt (target.bytes.take (4 * i))
  calc targetBelow target i < 256 ^ (target.bytes.take (4 * i)).length := h
    _ ≤ 256 ^ (4 * i) := Nat.pow_le_pow_right (by decide) (length_take_le _ _)
    _ = 2 ^ (32 * i) := by rw [show (256 : ℕ) = 2 ^ 8 by decide, ← pow_mul]; congr 1; omega

theorem targetBelow_succ {i : ℕ} (hi : i < 8) :
    targetBelow target (i + 1) = targetBelow target i + 2 ^ (32 * i) * targetWord target i := by
  have hlen : (target.bytes.take (4 * i)).length = 4 * i := by
    rw [length_take, target.size_eq]; omega
  rw [targetBelow, Nat.mul_succ, take_add, leNat_append, hlen, targetBelow, targetWord,
    show (256 : ℕ) = 2 ^ 8 by decide, ← pow_mul, show 8 * (4 * i) = 32 * i by omega]

/-- Before turn i the array holds the target's lower words times the payout. -/
theorem multiplyRows_eq (hi : i ≤ 8) :
    ∃ result, (List.range i).foldlM (multiplyRow target payout) (WordArray.zero 10) = some result ∧
      result.toNat = targetBelow target i * payout.toNat := by
  induction i with
  | zero => exact ⟨WordArray.zero 10, rfl, by simp [targetBelow, leNat]⟩
  | succ i ih =>
    obtain ⟨result, hrun, hvalue⟩ := ih (by omega)
    have hfits : result.toNat < 2 ^ (32 * (i + 2)) := by
      rw [hvalue, Nat.mul_add, pow_add]
      exact Nat.mul_lt_mul'' (targetBelow_lt target i) payout.toNat_lt
    obtain ⟨result', hrow, hvalue'⟩ := multiplyRow_eq target payout i (by omega) result hfits
    refine ⟨result', ?_, ?_⟩
    · rw [range_succ, foldlM_append, hrun, bind_eq_bind, bind_some, foldlM_cons, hrow]
      rfl
    · rw [hvalue', hvalue, targetBelow_succ target (by omega)]
      ring

theorem addCarry_eq (w : UInt32) (carry : ℕ) (hcarry : carry < 2 ^ 64) :
    ∃ w' carry', addCarry w carry = some (w', carry') ∧ carry' < 2 ^ 64 ∧
      w'.toNat + 2 ^ 32 * carry' = 1 * w.toNat + carry := by
  have hw := w.toNat_lt
  set sum := w.toNat + carry % 2 ^ 32 with hsum
  refine ⟨UInt32.ofNat sum, carry >>> 32 + sum >>> 32, ?_, ?_, ?_⟩
  · rw [addCarry, ← hsum, u64_of_lt (by omega), bind_eq_bind, bind_some,
      u64_of_lt (by simp only [Nat.shiftRight_eq_div_pow]; omega)]
    rfl
  · simp only [Nat.shiftRight_eq_div_pow]; omega
  · rw [UInt32.toNat_ofNat']
    simp only [Nat.shiftRight_eq_div_pow]
    omega

/-- The product is exact, and no 64-bit operation wraps around. -/
theorem multiplyP2CTarget_eq :
    ∃ result, multiplyP2CTarget target payout = some result ∧ result.toNat = (target.toNat + 1) * payout.toNat := by
  obtain ⟨rows, hrows, hvalue⟩ := multiplyRows_eq target payout 8 le_rfl
  obtain ⟨result, last, hloop, -, hsum⟩ := rows.carryThrough_spec addCarry_eq payout.toNat payout.toNat_lt
  have htarget : targetBelow target 8 = target.toNat := by
    rw [targetBelow, take_of_length_le (by rw [target.size_eq]), Uint256.toNat]
  rw [hvalue, htarget] at hsum
  have htotal : result.toNat + 2 ^ (32 * 10) * last = (target.toNat + 1) * payout.toNat := by rw [hsum]; ring
  have hlast : last = 0 := by
    have hlt : (target.toNat + 1) * payout.toNat < 2 ^ (32 * 10) := by
      calc (target.toNat + 1) * payout.toNat ≤ 2 ^ 256 * payout.toNat := Nat.mul_le_mul_right _ target.toNat_lt
        _ < 2 ^ 256 * 2 ^ 64 := Nat.mul_lt_mul_of_pos_left payout.toNat_lt (by decide)
        _ = 2 ^ (32 * 10) := by rw [← pow_add]
    by_contra hne
    have hbig : 2 ^ (32 * 10) ≤ 2 ^ (32 * 10) * last := Nat.le_mul_of_pos_right _ (Nat.pos_of_ne_zero hne)
    omega
  refine ⟨result, ?_, ?_⟩
  · rw [multiplyP2CTarget, hrows, bind_eq_bind, bind_some, hloop]
    rfl
  · rw [← htotal, hlast, Nat.mul_zero, Nat.add_zero]

theorem factorWord_eq (factor w : UInt32) (carry : ℕ) (hcarry : carry < 2 ^ 32) :
    ∃ w' carry', factorWord factor w carry = some (w', carry') ∧ carry' < 2 ^ 32 ∧
      w'.toNat + 2 ^ 32 * carry' = factor.toNat * w.toNat + carry := by
  have hfits := mul_add_words_lt w.toNat_lt factor.toNat_lt hcarry (show 0 < 2 ^ 32 by decide)
  set product := w.toNat * factor.toNat + carry with hproduct
  refine ⟨UInt32.ofNat product, product >>> 32, ?_, ?_, ?_⟩
  · rw [factorWord, u64_of_lt (by omega), bind_eq_bind, bind_some, u64_of_lt (by omega)]
    rfl
  · rw [Nat.shiftRight_eq_div_pow]; omega
  · rw [UInt32.toNat_ofNat', Nat.shiftRight_eq_div_pow, Nat.mul_comm factor.toNat]
    omega

/-- An admissible factor multiplies exactly. -/
theorem getP2CClaimSelectionPriority_eq (priority : P2CClaimPriority) {factor : UInt32}
    (hfactor : P2C_CLAIM_FACTOR_SCALE ≤ factor ∧ factor ≤ P2C_CLAIM_FACTOR_MAX) :
    ∃ selection, getP2CClaimSelectionPriority priority factor = some (.ok selection) ∧
      selection.toNat = priority.toNat * factor.toNat := by
  obtain ⟨low, last, hloop, hlast, hvalue⟩ := priority.carryThrough_spec (factorWord_eq factor) 0 (by decide)
  refine ⟨⟨UInt32.ofNat last :: low.words, by rw [length_cons, low.size_eq]⟩, ?_, ?_⟩
  · have hguard : ¬ (factor < P2C_CLAIM_FACTOR_SCALE ∨ factor > P2C_CLAIM_FACTOR_MAX) := by
      rw [not_or]
      exact ⟨UInt32.not_lt.mpr hfactor.1, UInt32.not_lt.mpr hfactor.2⟩
    rw [getP2CClaimSelectionPriority, if_neg hguard, hloop]
    rfl
  · have hvalue' : low.toNat + 2 ^ (32 * 10) * last = priority.toNat * factor.toNat := by
      rw [hvalue, Nat.add_zero, Nat.mul_comm]
    rw [← hvalue', WordArray.toNat, beWordsNat_cons, low.size_eq, UInt32.toNat_ofNat', Nat.mod_eq_of_lt hlast,
      WordArray.toNat]
    exact Nat.add_comm _ _

theorem getP2CClaimPriority_eq {payout : CAmount} (hpayout : 1 ≤ payout ∧ payout ≤ MAX_MONEY) :
    ∃ priority, getP2CClaimPriority target payout = some priority ∧
    (priority.toNat : ℤ) = (target.toNat + 1) * payout := by
  obtain ⟨priority, hrun, hvalue⟩ := multiplyP2CTarget_eq target (UInt64.ofNat payout.toNat)
  have hsmall : payout.toNat < 2 ^ 64 := by
    have hmax : payout ≤ 10 ^ 18 := by simpa [MAX_MONEY, COIN] using hpayout.2
    have hlt : (10 : ℤ) ^ 18 < 2 ^ 64 := by norm_num
    have hcast : (payout.toNat : ℤ) = payout := Int.toNat_of_nonneg (by linarith [hpayout.1])
    have hint : (payout.toNat : ℤ) < 2 ^ 64 := by linarith
    exact_mod_cast hint
  have hguard : ¬ (payout ≤ 0 ∨ moneyRange payout = false) := by
    rintro (hle | hrange)
    · linarith [hpayout.1]
    · rw [← Bool.not_eq_true] at hrange
      exact hrange (moneyRange_iff.mpr ⟨by linarith [hpayout.1], hpayout.2⟩)
  refine ⟨priority, by rw [getP2CClaimPriority, if_neg hguard, hrun], ?_⟩
  rw [hvalue, UInt64.toNat_ofNat', Nat.mod_eq_of_lt hsmall]
  push_cast
  rw [Int.toNat_of_nonneg (by linarith [hpayout.1])]

/-- Priorities are the exact products, with and without the ranking factor; nothing wraps around, and arrays are ordered
as the products are. -/
theorem claim_ranking_exact (target target' : Uint256) (payout payout' : CAmount) (factor factor' : UInt32)
    (hpayout : 1 ≤ payout ∧ payout ≤ MAX_MONEY) (hpayout' : 1 ≤ payout' ∧ payout' ≤ MAX_MONEY)
    (hfactor : P2C_CLAIM_FACTOR_SCALE ≤ factor ∧ factor ≤ P2C_CLAIM_FACTOR_MAX)
    (hfactor' : P2C_CLAIM_FACTOR_SCALE ≤ factor' ∧ factor' ≤ P2C_CLAIM_FACTOR_MAX) :
    ∃ priority priority' selection selection',
      getP2CClaimPriority target payout = some priority ∧ getP2CClaimPriority target' payout' = some priority' ∧
      getP2CClaimSelectionPriority priority factor = some (.ok selection) ∧
      getP2CClaimSelectionPriority priority' factor' = some (.ok selection') ∧
      (priority.toNat : ℤ) = (target.toNat + 1) * payout ∧ (priority'.toNat : ℤ) = (target'.toNat + 1) * payout' ∧
      (selection.toNat : ℤ) = (target.toNat + 1) * payout * factor.toNat ∧
      (selection'.toNat : ℤ) = (target'.toNat + 1) * payout' * factor'.toNat ∧
      (priority < priority' ↔ (target.toNat + 1) * payout < (target'.toNat + 1) * payout') ∧
      (priority = priority' ↔ (target.toNat + 1) * payout = (target'.toNat + 1) * payout') ∧ (selection < selection' ↔
        (target.toNat + 1) * payout * factor.toNat < (target'.toNat + 1) * payout' * factor'.toNat) ∧
      (selection = selection' ↔
        (target.toNat + 1) * payout * factor.toNat = (target'.toNat + 1) * payout' * factor'.toNat) := by
  obtain ⟨priority, hrun, hvalue⟩ := getP2CClaimPriority_eq target hpayout
  obtain ⟨priority', hrun', hvalue'⟩ := getP2CClaimPriority_eq target' hpayout'
  obtain ⟨selection, hselect, hscaled⟩ := getP2CClaimSelectionPriority_eq priority hfactor
  obtain ⟨selection', hselect', hscaled'⟩ := getP2CClaimSelectionPriority_eq priority' hfactor'
  have hproduct : (selection.toNat : ℤ) = (target.toNat + 1) * payout * factor.toNat := by
    rw [hscaled, Nat.cast_mul, hvalue]
  have hproduct' : (selection'.toNat : ℤ) = (target'.toNat + 1) * payout' * factor'.toNat := by
    rw [hscaled', Nat.cast_mul, hvalue']
  refine ⟨priority, priority', selection, selection', hrun, hrun', hselect, hselect', hvalue, hvalue',
    hproduct, hproduct', ?_, ?_, ?_, ?_⟩
  · rw [WordArray.lt_iff, ← hvalue, ← hvalue', Nat.cast_lt]
  · rw [← WordArray.toNat_inj, ← hvalue, ← hvalue', Nat.cast_inj]
  · rw [WordArray.lt_iff, ← hproduct, ← hproduct', Nat.cast_lt]
  · rw [← WordArray.toNat_inj, ← hproduct, ← hproduct', Nat.cast_inj]

/-- the largest target, 2^256 - 1 -/
def largestTarget : Uint256 := Uint256.ofNat (2 ^ 256 - 1)

/-- The largest target with the largest payout ranks above it with the smallest. -/
theorem largestTarget_ranked : ∃ priority priority' selection selection',
    getP2CClaimPriority largestTarget 1 = some priority ∧ getP2CClaimPriority largestTarget MAX_MONEY = some priority' ∧
    getP2CClaimSelectionPriority priority 1000000 = some (.ok selection) ∧
    getP2CClaimSelectionPriority priority' 1100000 = some (.ok selection') ∧
    priority < priority' ∧ selection < selection' := by
  have hone : (1 : CAmount) ≤ 1 ∧ (1 : CAmount) ≤ MAX_MONEY := by decide
  have hmax : (1 : CAmount) ≤ MAX_MONEY ∧ MAX_MONEY ≤ MAX_MONEY := by decide
  obtain ⟨priority, priority', selection, selection', hrun, hrun', hselect, hselect', -, -, -, -, hlt, -, hlt', -⟩ :=
    claim_ranking_exact largestTarget largestTarget 1 MAX_MONEY 1000000 1100000 hone hmax (by decide) (by decide)
  have hpos : (0 : ℤ) < largestTarget.toNat + 1 := by positivity
  have hmoney : (1 : ℤ) < MAX_MONEY := by decide
  have hproduct : ((largestTarget.toNat : ℤ) + 1) * 1 < (largestTarget.toNat + 1) * MAX_MONEY :=
    mul_lt_mul_of_pos_left hmoney hpos
  refine ⟨priority, priority', selection, selection', hrun, hrun', hselect, hselect', hlt.mpr hproduct, hlt'.mpr ?_⟩
  exact mul_lt_mul'' hproduct (by decide) (by positivity) (by decide)

/-! ## The threshold -/

/-- captures beyond twice the expected number -/
def LimitExceeded (n : ℕ) : Prop := 2 ^ 257 < n * (target.toNat + 1)

theorem LimitExceeded.mono {target : Uint256} {m n : ℕ} (h : LimitExceeded target m) (hle : m ≤ n) :
    LimitExceeded target n := lt_of_lt_of_le h (Nat.mul_le_mul_right _ hle)

/-- The check is the exact comparison. -/
theorem isP2CClaimConnectionLimitExceeded_eq (n : UInt64) :
    ∃ exceeded, isP2CClaimConnectionLimitExceeded target n = some exceeded ∧
    (exceeded = true ↔ LimitExceeded target n.toNat) := by
  obtain ⟨product, hrun, hvalue⟩ := multiplyP2CTarget_eq target n
  have hspace : twiceSpace.toNat = 2 ^ 257 := by decide +kernel
  refine ⟨decide (twiceSpace < product), by rw [isP2CClaimConnectionLimitExceeded, hrun, map_some], ?_⟩
  rw [decide_eq_true_iff, WordArray.lt_iff, hspace, hvalue, LimitExceeded, Nat.mul_comm]

theorem uint64Max_eq : UINT64_MAX = 18446744073709551615 := by norm_num [UINT64_MAX]

theorem limitCheck_iff {target : Uint256} {n : ℕ} {exceeded : Bool} (hn : n ≤ UINT64_MAX)
    (h : isP2CClaimConnectionLimitExceeded target (UInt64.ofNat n) = some exceeded) :
    exceeded = true ↔ LimitExceeded target n := by
  obtain ⟨exceeded', hsome, hexact⟩ := isP2CClaimConnectionLimitExceeded_eq target (UInt64.ofNat n)
  rw [h, Option.some.injEq] at hsome
  rw [UInt64.toNat_ofNat', Nat.mod_eq_of_lt (by rw [uint64Max_eq] at hn; omega)] at hexact
  rw [hsome, hexact]

/-- The bisection ends at the first number of captures beyond the limit, if its upper end is beyond it and nothing below
the lower end is. -/
theorem firstExcess_eq (low high : ℕ) (hle : low ≤ high) (hhigh : high ≤ UINT64_MAX)
    (hbelow : ∀ n < low, ¬ LimitExceeded target n) (habove : LimitExceeded target high) :
    ∃ first, firstExcess target low high = some first ∧ first ≤ high ∧ ∀ n, LimitExceeded target n ↔ first ≤ n := by
  induction low, high using firstExcess.induct target with
  | case1 low high hlt middle hnone =>
    obtain ⟨exceeded, hsome, -⟩ := isP2CClaimConnectionLimitExceeded_eq target (UInt64.ofNat middle)
    rw [hnone] at hsome
    cases hsome
  | case2 low high hlt middle hyes ih =>
    have hmiddle : low ≤ middle ∧ middle < high := by omega
    have hexceeded : LimitExceeded target middle := (limitCheck_iff (by omega) hyes).mp rfl
    obtain ⟨first, hrun, hfirst, hiff⟩ := ih hmiddle.1 (by omega) hbelow hexceeded
    refine ⟨first, ?_, by omega, hiff⟩
    rw [firstExcess, if_pos hlt]
    simp only [show low + (high - low) / 2 = middle from rfl, hyes, hrun]
  | case3 low high hlt middle hno ih =>
    have hmiddle : low ≤ middle ∧ middle < high := by omega
    have hnot : ¬ LimitExceeded target middle := fun h => Bool.false_ne_true ((limitCheck_iff (by omega) hno).mpr h)
    have hbelow' : ∀ n < middle + 1, ¬ LimitExceeded target n := fun n hn h => hnot (h.mono (by omega))
    obtain ⟨first, hrun, hfirst, hiff⟩ := ih (by omega) hhigh hbelow' habove
    refine ⟨first, ?_, hfirst, hiff⟩
    rw [firstExcess, if_pos hlt]
    simp only [show low + (high - low) / 2 = middle from rfl, hno, hrun]
  | case4 low high hge =>
    have heq : low = high := by omega
    subst heq
    refine ⟨low, by rw [firstExcess, if_neg hge], le_refl _, fun n => ⟨fun h => ?_, fun h => habove.mono h⟩⟩
    by_contra hlt
    exact hbelow n (by omega) h

/-- The budget of a target is exceeded exactly beyond the limit or at the saturated counter; below it the budget and the
direct check agree. -/
theorem connection_budget_exact (target : Uint256) : ∃ budget, P2CConnectionBudget.new target = some budget ∧
      (∀ n : UInt64, budget.exceeded n = true ↔ n.toNat = 2 ^ 64 - 1 ∨ 2 ^ 257 < n.toNat * (target.toNat + 1)) ∧
      ∀ n : UInt64, n.toNat < 2 ^ 64 - 1 → isP2CClaimConnectionLimitExceeded target n = some (budget.exceeded n) := by
  have hmax := uint64Max_eq
  -- the second half follows from the first: below the saturated counter only the limit is left
  suffices h : ∃ budget, P2CConnectionBudget.new target = some budget ∧
      ∀ n : UInt64, budget.exceeded n = true ↔ n.toNat = 2 ^ 64 - 1 ∨ LimitExceeded target n.toNat by
    obtain ⟨budget, hnew, hexact⟩ := h
    refine ⟨budget, hnew, hexact, fun n hn => ?_⟩
    obtain ⟨exceeded, hcheck, hlimit⟩ := isP2CClaimConnectionLimitExceeded_eq target n
    rw [hcheck, Option.some.injEq, Bool.eq_iff_iff, hlimit, hexact n]
    exact ⟨Or.inr, fun h => h.resolve_left (by omega)⟩
  obtain ⟨exceeded, hcheck, -⟩ := isP2CClaimConnectionLimitExceeded_eq target (UInt64.ofNat UINT64_MAX)
  have hlimit := limitCheck_iff le_rfl hcheck
  cases exceeded with
  | false =>
    -- the limit is never reached: only the saturated counter stops
    have hnever : ¬ LimitExceeded target UINT64_MAX := fun h => Bool.false_ne_true (hlimit.mpr h)
    refine ⟨⟨UINT64_MAX⟩, by rw [P2CConnectionBudget.new, hcheck]; rfl, fun n => ?_⟩
    have hn := n.toNat_lt
    rw [P2CConnectionBudget.exceeded, decide_eq_true_iff]
    refine ⟨fun h => Or.inl ?_, fun h => ?_⟩
    · change UINT64_MAX ≤ n.toNat at h
      omega
    · change UINT64_MAX ≤ n.toNat
      rcases h with hsat | hexceeded
      · omega
      · exact absurd (hexceeded.mono (by omega)) hnever
  | true =>
    obtain ⟨first, hrun, hfirst, hiff⟩ :=
      firstExcess_eq target 0 UINT64_MAX (Nat.zero_le _) le_rfl (fun n hn => absurd hn (Nat.not_lt_zero n))
        (hlimit.mp rfl)
    refine ⟨⟨first⟩, by rw [P2CConnectionBudget.new, hcheck, hrun]; rfl, fun n => ?_⟩
    rw [P2CConnectionBudget.exceeded, decide_eq_true_iff, hiff]
    refine ⟨Or.inr, fun h => ?_⟩
    change first ≤ n.toNat
    rcases h with hsat | hle
    · omega
    · exact hle

end ConnectCoin.Wallet
