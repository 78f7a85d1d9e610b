/-
The economic relay fee and the subsidy penalty (`GetEconomicRelayFeeRate`, `GetBlockSubsidyPenalty` in `validation.cpp`,
`CFeeRate::GetFee` in `policy/feerate.cpp`, the penalty check of `addChunks` in `node/miner.cpp`).

A block's subsidy shrinks with the weight of its transactions. The relay rate is the penalty of a sample of 1000 vB plus
a margin, and four roundings lie between it and the penalty of a chunk: the sample's penalty and the chunk's are rounded
down, the fee of a transaction up, and the difference of two penalties either way.
Results:
- `evaluateFeeDown_penalty`: the penalty is what `EvaluateFeeDown` gives, which the program calls for it;
- `penalty_difference_lt`, `relay_fee_covers`: a difference of penalties is below its exact value plus one, a relay fee
  is above its share of it by almost one unit per virtual byte;
- `relay_fee_exceeds_penalty`: hence transactions at the relay rate always pay more than the penalty they cause, and the
  template goes on as if the penalty check were not there.
-/
import ConnectCoin.Node.TemplateReward

namespace ConnectCoin

open Lib List

/-! ## The rate -/

def ECONOMIC_RELAY_FEE_MARGIN : CAmount := 1000

/-- `CFeeRate` of a fee per 1000 virtual bytes -/
def feeRatePerK (feerateKvb : CAmount) : FeeFrac := ⟨feerateKvb, 1000⟩

/-- `CFeeRate::GetFee` -/
def getFee (A : WideArith) (feerate : FeeFrac) (virtualBytes : ℤ) : Option CAmount :=
  if feerate.size = 0 then some 0
  else do
    let nFee ← evaluateFeeUp A feerate virtualBytes
    return if nFee = 0 ∧ virtualBytes ≠ 0 ∧ feerate.fee < 0 then -1 else nFee

/-- the weight of the 1000 virtual bytes the rate is measured at -/
def SAMPLE_WEIGHT : UInt64 := 4000

/-- `GetEconomicRelayFeeRate` -/
def getEconomicRelayFeeRate (nHeight : ℕ) (P : Params) : FeeFrac :=
  feeRatePerK (getBlockSubsidyPenalty (getBlockSubsidy nHeight P) SAMPLE_WEIGHT + ECONOMIC_RELAY_FEE_MARGIN)

/-! ## The penalty -/

/-- the weight at which the whole subsidy would be gone -/
def penaltyWeight : ℤ := (MAX_BLOCK_WEIGHT * BLOCK_SUBSIDY_PENALTY_DIVISOR : ℕ)

theorem penaltyWeight_eq : penaltyWeight = 500000000 := by
  norm_num [penaltyWeight, MAX_BLOCK_WEIGHT, BLOCK_SUBSIDY_PENALTY_DIVISOR]

/-- The penalty is a floor. -/
theorem penalty_floor (baseSubsidy : CAmount) (weight : UInt64) :
    penaltyWeight * getBlockSubsidyPenalty baseSubsidy weight ≤ baseSubsidy * (min weight.toNat MAX_BLOCK_WEIGHT : ℕ) ∧
      baseSubsidy * (min weight.toNat MAX_BLOCK_WEIGHT : ℕ) <
        penaltyWeight * getBlockSubsidyPenalty baseSubsidy weight + penaltyWeight := by
  have hpos : (0 : ℤ) < penaltyWeight := by rw [penaltyWeight_eq]; norm_num
  have hdivide := Int.mul_ediv_add_emod (baseSubsidy * (min weight.toNat MAX_BLOCK_WEIGHT : ℕ)) penaltyWeight
  have hlow := Int.emod_nonneg (baseSubsidy * (min weight.toNat MAX_BLOCK_WEIGHT : ℕ)) hpos.ne'
  have hhigh := Int.emod_lt_of_pos (baseSubsidy * (min weight.toNat MAX_BLOCK_WEIGHT : ℕ)) hpos
  unfold getBlockSubsidyPenalty
  rw [← penaltyWeight]
  constructor <;> linarith

/-- What the program computes, on either platform and with no overflow inside, for every subsidy of 64 bits. -/
theorem evaluateFeeDown_penalty {A : WideArith} (hA : A.Exact) {baseSubsidy : CAmount} (hbase : 0 ≤ baseSubsidy)
    (hfits : baseSubsidy < 2 ^ 63) (weight : UInt64) :
    evaluateFeeDown A ⟨baseSubsidy, penaltyWeight⟩ (min weight.toNat MAX_BLOCK_WEIGHT : ℕ) =
      some (getBlockSubsidyPenalty baseSubsidy weight) := by
  have hrange : FeeFrac.InRange ⟨baseSubsidy, penaltyWeight⟩ :=
    ⟨⟨le_trans (by norm_num) hbase, hfits⟩, by rw [penaltyWeight_eq]; norm_num⟩
  have hexact := exactFee_eq true hrange (min weight.toNat MAX_BLOCK_WEIGHT : ℕ)
  change _ = getBlockSubsidyPenalty baseSubsidy weight at hexact
  have hpenalty := getBlockSubsidyPenalty_range hbase weight
  have hweight : min weight.toNat MAX_BLOCK_WEIGHT < 2 ^ 31 := lt_of_le_of_lt (min_le_right _ _) (by decide)
  rw [← hexact]
  apply evaluateFee_eq hA true hrange ⟨Int.natCast_nonneg _, by exact_mod_cast hweight⟩
  rw [hexact]
  exact ⟨le_trans (by norm_num) hpenalty.1, lt_of_le_of_lt hpenalty.2 hfits⟩

/-- A difference of penalties is below its exact value plus one. -/
theorem penalty_difference_lt {baseSubsidy : CAmount} (hbase : 0 ≤ baseSubsidy) (before after : UInt64) (added : ℕ)
    (hle : after.toNat ≤ before.toNat + added) :
    penaltyWeight * (getBlockSubsidyPenalty baseSubsidy after - getBlockSubsidyPenalty baseSubsidy before) <
      baseSubsidy * added + penaltyWeight := by
  have hafter := (penalty_floor baseSubsidy after).1
  have hbefore := (penalty_floor baseSubsidy before).2
  have hmin : min after.toNat MAX_BLOCK_WEIGHT ≤ min before.toNat MAX_BLOCK_WEIGHT + added := by omega
  have hmin' : baseSubsidy * (min after.toNat MAX_BLOCK_WEIGHT : ℕ) ≤
      baseSubsidy * (min before.toNat MAX_BLOCK_WEIGHT : ℕ) + baseSubsidy * added := by
    rw [← mul_add]
    exact mul_le_mul_of_nonneg_left (by exact_mod_cast hmin) hbase
  linarith

/-! ## The relay fee -/

/-- a transaction of this size and weight pays the relay fee of a height -/
structure MeetsRelayRate (A : WideArith) (nHeight : ℕ) (P : Params) (vsize : ℤ) (weight : ℕ) (fee : CAmount) :
    Prop where
  vsize_range : 2 ≤ vsize ∧ vsize < 2 ^ 31
  weight_le : (weight : ℤ) ≤ 4 * vsize
  pays : ∃ relayFee, getFee A (getEconomicRelayFeeRate nHeight P) vsize = some relayFee ∧ relayFee ≤ fee

variable {A : WideArith} {nHeight : ℕ} {P : Params}

/-- A rate that is not negative charges the exact fee, rounded up. -/
theorem getFee_eq (hA : A.Exact) {feerate : FeeFrac} (hrange : feerate.InRange) (hfee : 0 ≤ feerate.fee) {vsize : ℤ}
    (hvsize : 0 ≤ vsize ∧ vsize < 2 ^ 31) (hfits : Signed 64 (exactFee false feerate vsize)) :
    getFee A feerate vsize = some (exactFee false feerate vsize) := by
  have hsize : feerate.size ≠ 0 := by have := hrange.size; omega
  rw [getFee, if_neg hsize, evaluateFeeUp, evaluateFee_eq hA false hrange hvsize hfits]
  simp only [Option.bind_eq_bind, Option.bind_some, Option.pure_def]
  rw [if_neg (fun hneg => absurd hneg.2.2 (not_lt.mpr hfee))]

/-- A relay fee is above its share of the penalty by almost one unit per virtual byte. -/
theorem relay_fee_covers (hA : A.Exact) {vsize : ℤ} {weight : ℕ} {fee : CAmount}
    (h : MeetsRelayRate A nHeight P vsize weight fee) :
    (4000 * getBlockSubsidy nHeight P + 999 * penaltyWeight) * vsize ≤ 1000 * penaltyWeight * fee := by
  obtain ⟨relayFee, hfee, hpaid⟩ := h.pays
  have hvsize := h.vsize_range
  have hbase := getBlockSubsidy_nonneg nHeight P
  have hsample := (penalty_floor (getBlockSubsidy nHeight P) SAMPLE_WEIGHT).2
  have hpenalty := getBlockSubsidyPenalty_range hbase SAMPLE_WEIGHT
  have hle : getBlockSubsidyPenalty (getBlockSubsidy nHeight P) SAMPLE_WEIGHT ≤ 150000000000 :=
    hpenalty.2.trans (getBlockSubsidy_le nHeight P)
  rw [show min SAMPLE_WEIGHT.toNat MAX_BLOCK_WEIGHT = 4000 by decide] at hsample
  rw [getEconomicRelayFeeRate, feeRatePerK] at hfee
  generalize getBlockSubsidyPenalty (getBlockSubsidy nHeight P) SAMPLE_WEIGHT = penalty at hfee hsample hpenalty hle
  have hrange : (⟨penalty + ECONOMIC_RELAY_FEE_MARGIN, 1000⟩ : FeeFrac).InRange := by
    constructor
    · simp only [Signed, ECONOMIC_RELAY_FEE_MARGIN, Nat.reduceSub]
      constructor <;> linarith [hpenalty.1]
    · norm_num
  have hexact := exactFee_eq false hrange vsize
  have hfits : Signed 64 (exactFee false ⟨penalty + ECONOMIC_RELAY_FEE_MARGIN, 1000⟩ vsize) := by
    rw [hexact]
    simp only [ECONOMIC_RELAY_FEE_MARGIN]
    have hproduct : (penalty + 1000) * vsize ≤ 150000001000 * 2 ^ 31 :=
      mul_le_mul (by linarith) (by linarith) (by linarith) (by norm_num)
    have hnonneg : 0 ≤ (penalty + 1000) * vsize := mul_nonneg (by linarith [hpenalty.1]) (by linarith)
    have hup : rounded false ((penalty + 1000) * vsize) 1000 ≤ 2 ^ 62 := rounded_le false (by norm_num) (by linarith)
    have hlow : 0 ≤ rounded false ((penalty + 1000) * vsize) 1000 := le_rounded false (by norm_num) (by linarith)
    exact ⟨le_trans (by norm_num) hlow, lt_of_le_of_lt hup (by norm_num)⟩
  rw [getFee_eq hA hrange (by simp only [ECONOMIC_RELAY_FEE_MARGIN]; linarith [hpenalty.1])
    ⟨by linarith, hvsize.2⟩ hfits, Option.some.injEq, hexact] at hfee
  have hup := le_mul_rounded_up ((penalty + ECONOMIC_RELAY_FEE_MARGIN) * vsize) (show (0 : ℤ) < 1000 by norm_num)
  rw [hfee] at hup
  simp only [ECONOMIC_RELAY_FEE_MARGIN] at hup
  have hweight : (0 : ℤ) < penaltyWeight := by rw [penaltyWeight_eq]; norm_num
  calc (4000 * getBlockSubsidy nHeight P + 999 * penaltyWeight) * vsize
      ≤ (penaltyWeight * penalty + 1000 * penaltyWeight) * vsize := by
        apply mul_le_mul_of_nonneg_right _ (by linarith)
        push_cast at hsample
        linarith
    _ = penaltyWeight * ((penalty + 1000) * vsize) := by ring
    _ ≤ penaltyWeight * (1000 * relayFee) := mul_le_mul_of_nonneg_left hup hweight.le
    _ = 1000 * penaltyWeight * relayFee := by ring
    _ ≤ 1000 * penaltyWeight * fee := mul_le_mul_of_nonneg_left hpaid (by linarith)

/-! ## A chunk -/

/-- a transaction as the relay fee sees it -/
structure RelayTx where
  vsize : ℤ
  weight : ℕ
  fee : CAmount

def relayWeight (txs : List RelayTx) : ℕ := (txs.map RelayTx.weight).sum
def relayFees (txs : List RelayTx) : CAmount := (txs.map RelayTx.fee).sum
def relayVSize (txs : List RelayTx) : ℤ := (txs.map RelayTx.vsize).sum

variable {txs : List RelayTx}

/-- The bounds of single transactions add up. -/
theorem relay_totals (hA : A.Exact) (h : ∀ tx ∈ txs, MeetsRelayRate A nHeight P tx.vsize tx.weight tx.fee) :
    (relayWeight txs : ℤ) ≤ 4 * relayVSize txs ∧ 2 * (txs.length : ℤ) ≤ relayVSize txs ∧
      (4000 * getBlockSubsidy nHeight P + 999 * penaltyWeight) * relayVSize txs ≤
        1000 * penaltyWeight * relayFees txs := by
  induction txs with
  | nil => simp [relayWeight, relayVSize, relayFees]
  | cons tx txs ih =>
    obtain ⟨hweight, hlength, hfees⟩ := ih fun t ht => h t (mem_cons_of_mem _ ht)
    have htx := h tx mem_cons_self
    have hcovers := relay_fee_covers hA htx
    simp only [relayWeight, relayVSize, relayFees, map_cons, sum_cons, length_cons] at hweight hlength hfees ⊢
    refine ⟨?_, ?_, ?_⟩
    · rw [Nat.cast_add]
      linarith [htx.weight_le]
    · rw [Nat.cast_add, Nat.cast_one]
      linarith [htx.vsize_range.1]
    · rw [mul_add, mul_add]
      exact add_le_add hcovers hfees

/-- Transactions at the relay rate pay more than the penalty of any weight they can add. -/
theorem relay_fees_gt_penalty (hA : A.Exact) (hne : txs ≠ [])
    (h : ∀ tx ∈ txs, MeetsRelayRate A nHeight P tx.vsize tx.weight tx.fee)
    {before after : UInt64} (hafter : after.toNat ≤ before.toNat + relayWeight txs) :
    getBlockSubsidyPenalty (getBlockSubsidy nHeight P) after - getBlockSubsidyPenalty (getBlockSubsidy nHeight P)
      before < relayFees txs := by
  obtain ⟨hweight, hvsize, hfees⟩ := relay_totals hA h
  have hbase := getBlockSubsidy_nonneg nHeight P
  have hdifference := penalty_difference_lt hbase before after (relayWeight txs) hafter
  have hpos : (0 : ℤ) < penaltyWeight := by rw [penaltyWeight_eq]; norm_num
  have hlength : (1 : ℤ) ≤ txs.length := by exact_mod_cast length_pos_iff.mpr hne
  generalize getBlockSubsidyPenalty (getBlockSubsidy nHeight P) after - getBlockSubsidyPenalty
    (getBlockSubsidy nHeight P) before = difference at hdifference ⊢
  have hsubsidy : getBlockSubsidy nHeight P * relayWeight txs ≤ getBlockSubsidy nHeight P * (4 * relayVSize txs) :=
    mul_le_mul_of_nonneg_left hweight hbase
  have hmargin : penaltyWeight * 2 ≤ penaltyWeight * relayVSize txs := mul_le_mul_of_nonneg_left (by linarith) hpos.le
  have hscaled : 1000 * penaltyWeight * difference < 1000 * penaltyWeight * relayFees txs := by linarith
  exact lt_of_mul_lt_mul_left hscaled (by linarith)

/-! ## The template -/

theorem weight_toUInt64 {w : Int32} (h : 0 ≤ w.toInt) : w.toInt64.toUInt64.toNat = w.toInt.toNat := by
  have hle : 0 ≤ w.toInt64 := by
    rw [Int64.le_iff_toInt_le, Int32.toInt_toInt64]
    exact h
  rw [Int64.toNat_toUInt64_of_le hle, Int64.toNatClampNeg, Int32.toInt_toInt64]

section
variable [Crypto] (vsize : CTxMemPoolEntry → ℤ)

/-- an entry of the mempool as the relay fee sees it, under some measure of virtual size -/
def relayTx (e : CTxMemPoolEntry) : RelayTx := ⟨vsize e, e.nTxWeight.toInt.toNat, e.modifiedFee⟩

/-- A chunk's weight, as the program adds it up, is at most the sum of the weights. -/
theorem chunkWeight_le {entries : List CTxMemPoolEntry} (h : ∀ e ∈ entries, 0 ≤ e.nTxWeight.toInt) :
    (chunkWeight entries).toUInt64.toNat ≤ relayWeight (entries.map (relayTx vsize)) := by
  induction entries using List.reverseRecOn with
  | nil => exact le_refl 0
  | append_singleton entries e ih =>
    have hrest := ih fun e' he' => h e' (mem_append_left _ he')
    have hlast := weight_toUInt64 (h e (mem_append_right _ mem_cons_self))
    rw [chunkWeight_concat, Int64.toUInt64_add, UInt64.toNat_add, hlast]
    simp only [relayWeight, map_append, sum_append, map_cons, map_nil, sum_cons, sum_nil] at hrest ⊢
    exact (Nat.mod_le _ _).trans (add_le_add hrest le_rfl)

theorem chunkModifiedFees_eq_relayFees (entries : List CTxMemPoolEntry) :
    chunkModifiedFees entries = relayFees (entries.map (relayTx vsize)) := by
  induction entries using List.reverseRecOn with
  | nil => rfl
  | append_singleton entries e ih =>
    rw [chunkModifiedFees_concat, ih]
    simp [relayFees, relayTx]

/-- Transactions that pay the relay fee of a block's height pay more than the penalty they cause, whatever the block
holds already; so the template treats a chunk of them as if the penalty check were not there. -/
theorem relay_fee_exceeds_penalty (A : WideArith) (hA : A = native ∨ A = fallback) (ctx : AssemblerContext)
    (txs : List RelayTx) (hne : txs ≠ [])
    (htxs : ∀ tx ∈ txs, MeetsRelayRate A ctx.nHeight ctx.P tx.vsize tx.weight tx.fee) :
    (∀ w : UInt64, getBlockSubsidyPenalty (getBlockSubsidy ctx.nHeight ctx.P) (w + UInt64.ofNat (relayWeight txs)) -
      getBlockSubsidyPenalty (getBlockSubsidy ctx.nHeight ctx.P) w < relayFees txs) ∧
    ∀ (s : BlockAssembler) (entries : List CTxMemPoolEntry) (vsize : CTxMemPoolEntry → ℤ) (feerate : FeeFrac)
      (skipped included : BlockBuilder) (nConsecutiveFailed : ℕ),
      entries.map (relayTx vsize) = txs → (∀ e ∈ entries, 0 ≤ e.nTxWeight.toInt) →
      addChunks ctx (.chunk entries feerate skipped included) nConsecutiveFailed s =
        if (toFeePerVSize feerate).ratioLt ctx.options.blockMinFeeRate then s
        else if chunkFits ctx s entries then addChunks ctx included 0 (includeChunk s entries (toFeePerVSize feerate))
        else if nConsecutiveFailed + 1 > MAX_CONSECUTIVE_FAILURES ∧
            s.nBlockWeight + BLOCK_FULL_ENOUGH_WEIGHT_DELTA > ctx.options.blockMaxWeight then s
        else addChunks ctx skipped (nConsecutiveFailed + 1) s := by
  have hexact := exact_of_platform hA
  refine ⟨fun w => relay_fees_gt_penalty hexact hne htxs ?_, ?_⟩
  · rw [UInt64.toNat_add, UInt64.toNat_ofNat']
    exact (Nat.mod_le _ _).trans (add_le_add le_rfl (Nat.mod_le _ _))
  · intro s entries vsize feerate skipped included nConsecutiveFailed hmap hweights
    have hentries : entries.isEmpty = false := by
      cases entries with
      | nil => exact absurd hmap.symm hne
      | cons => rfl
    have hworth : ¬ chunkModifiedFees entries ≤ packagePenalty ctx s entries := by
      rw [chunkModifiedFees_eq_relayFees vsize, hmap, not_le]
      apply relay_fees_gt_penalty hexact hne htxs
      rw [UInt64.toNat_add, ← hmap]
      exact (Nat.mod_le _ _).trans (add_le_add le_rfl (chunkWeight_le vsize hweights))
    rw [addChunks, hentries, if_neg Bool.false_ne_true, if_neg hworth]

end

section
attribute [local instance] toyCrypto

/-- Two virtual bytes at the rate of the first height pay for eight weight units across the block's limit. -/
theorem smallest_exceeds_penalty :
    getBlockSubsidyPenalty (getBlockSubsidy 1 mainParams) (49999996 + UInt64.ofNat (relayWeight [⟨2, 8, 2402⟩])) -
      getBlockSubsidyPenalty (getBlockSubsidy 1 mainParams) 49999996 < relayFees [⟨2, 8, 2402⟩] := by
  have hrate : MeetsRelayRate native 1 mainParams 2 8 2402 := by
    refine ⟨by decide, by decide, 2402, ?_, le_rfl⟩
    decide +kernel
  refine (relay_fee_exceeds_penalty native (Or.inl rfl) defaultContext [⟨2, 8, 2402⟩] (by simp) ?_).1 49999996
  intro tx htx
  rw [mem_singleton] at htx
  rw [htx]
  exact hrate

end

end ConnectCoin
