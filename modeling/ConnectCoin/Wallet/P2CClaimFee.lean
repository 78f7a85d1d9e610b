/-
Fees of pay-to-connect claims (`SafeFeeRate`, `CalculateP2CClaimFee`, `PrepareP2CClaim`, `CompleteP2CClaim` in
`wallet/p2c_claim.cpp`).

A claim's fee is fixed before its proof is known: the capture commits to the payout. It is the fee of a transaction with
a proof of the budgeted size, and it has to be enough for every shorter proof.
- `SafeRate`: what `SafeFeeRate` accepts, as an inequality; `safeFee`: the fee of such a rate, rounded up.
- `CarriesProof`: the final transaction, one input with the proof as its witness and one output to a key; its size grows
  with the proof (`claim_vsize_eq`, `proofVsize_mono`), also where the length prefix gets longer.
Result: `claim_fees_sufficient`: no fee of a safe rate overflows or leaves the money range, the budget's fee is enough
for every proof within the budget, and so a completed claim pays at least the rate it was prepared for.
Premise: the key of the transaction that is measured is on the curve.
-/
import ConnectCoin.P2C.Replay
import ConnectCoin.Wallet.P2CClaim

namespace ConnectCoin.Wallet

open Lib P2C List

/-! ## Safe rates -/

/-- not negative, and at most the whole money supply for the largest size -/
structure SafeRate (rate : FeeFrac) : Prop where
  nonneg : 0 ≤ rate.fee
  bounded : rate.fee * (2 ^ 31 - 1) ≤ MAX_MONEY * rate.size

theorem safeFeeRate_eq {A : WideArith} (hA : A.Exact) (rate : StoredFeeRate) :
    safeFeeRate A rate.toFeeFrac = some rate.isSafe := by
  have hzero : Signed 64 (feeRatePerK 0).fee ∧ Signed 32 (feeRatePerK 0).size := by decide
  have hmost : Signed 64 MAX_MONEY ∧ Signed 32 (2 ^ 31 - 1) := by decide
  have hlow := byRatioGe_eq hA rate.fee_signed rate.size_signed hzero.1 hzero.2
  have hhigh := byRatioLe_eq hA (g := ⟨MAX_MONEY, 2 ^ 31 - 1⟩) rate.fee_signed rate.size_signed hmost.1 hmost.2
  simp only [safeFeeRate, hlow, hhigh, Option.bind_eq_bind, Option.bind_some, FeeFrac.isSafe]
  cases hrate : rate.ratioLt (feeRatePerK 0) <;> rw [feeRatePerK] at hrate <;> rw [hrate] <;> rfl

theorem isSafe_iff {rate : FeeFrac} : rate.isSafe = true ↔ SafeRate rate := by
  simp only [FeeFrac.isSafe, FeeFrac.ratioLt, Bool.and_eq_true, Bool.not_eq_true', decide_eq_false_iff_not,
    not_lt, zero_mul]
  constructor
  · intro h
    exact ⟨by linarith [h.1], h.2⟩
  · intro h
    exact ⟨by linarith [h.nonneg], h.bounded⟩

theorem safeFeeRate_iff {A : WideArith} (hA : A.Exact) (rate : StoredFeeRate) :
    safeFeeRate A rate.toFeeFrac = some true ↔ SafeRate rate.toFeeFrac := by
  rw [safeFeeRate_eq hA, Option.some_inj, isSafe_iff]

/-- the fee of a safe rate, rounded up; an empty rate charges nothing -/
def safeFee (rate : FeeFrac) (vsize : ℤ) : ℤ := if rate.size = 0 then 0 else rounded false (rate.fee * vsize) rate.size

namespace SafeRate

variable {rate : FeeFrac}

theorem size_nonneg (h : SafeRate rate) : 0 ≤ rate.size := by
  by_contra hneg
  have hproduct : MAX_MONEY * rate.size < 0 := mul_neg_of_pos_of_neg (by decide) (not_le.1 hneg)
  linarith [h.bounded, mul_nonneg h.nonneg (by norm_num : (0 : ℤ) ≤ 2 ^ 31 - 1)]

theorem fee_eq_zero (h : SafeRate rate) (hsize : rate.size = 0) : rate.fee = 0 := by
  have hbounded := h.bounded
  rw [hsize, mul_zero] at hbounded
  linarith [h.nonneg]

theorem size_pos (h : SafeRate rate) (hsize : rate.size ≠ 0) :
    0 < rate.size := lt_of_le_of_ne h.size_nonneg (Ne.symm hsize)

/-- The fee of every size is an amount. -/
theorem safeFee_range (h : SafeRate rate) {vsize : ℤ} (hvsize : 0 ≤ vsize ∧ vsize < 2 ^ 31) :
    0 ≤ safeFee rate vsize ∧ safeFee rate vsize ≤ MAX_MONEY := by
  unfold safeFee
  split_ifs with hsize
  · exact ⟨le_refl 0, by decide⟩
  · have hpos := h.size_pos hsize
    constructor
    · exact le_rounded false hpos (by linarith [mul_nonneg h.nonneg hvsize.1])
    · apply rounded_le false hpos
      calc rate.fee * vsize ≤ rate.fee * (2 ^ 31 - 1) := mul_le_mul_of_nonneg_left (by linarith [hvsize.2]) h.nonneg
        _ ≤ MAX_MONEY * rate.size := h.bounded

theorem safeFee_mono (h : SafeRate rate) {v w : ℤ} (hvw : v ≤ w) : safeFee rate v ≤ safeFee rate w := by
  unfold safeFee
  split_ifs with hsize
  · exact le_refl 0
  · have hpos := h.size_pos hsize
    apply rounded_le false hpos
    calc rate.fee * v ≤ rate.fee * w := mul_le_mul_of_nonneg_left hvw h.nonneg
      _ ≤ rate.size * rounded false (rate.fee * w) rate.size := le_mul_rounded_up _ hpos
      _ = rounded false (rate.fee * w) rate.size * rate.size := mul_comm _ _

/-- The fee is at least the rate. -/
theorem le_safeFee (h : SafeRate rate) (vsize : ℤ) : rate.fee * vsize ≤ safeFee rate vsize * rate.size := by
  unfold safeFee
  split_ifs with hsize
  · rw [h.fee_eq_zero hsize, zero_mul, zero_mul]
  · rw [mul_comm (rounded _ _ _)]
    exact le_mul_rounded_up _ (h.size_pos hsize)

end SafeRate

/-- `GetFee` of a safe rate does not overflow. -/
theorem getFee_safe {A : WideArith} (hA : A.Exact) {rate : StoredFeeRate} (h : SafeRate rate.toFeeFrac) {vsize : ℤ}
    (hvsize : 0 ≤ vsize ∧ vsize < 2 ^ 31) : getFee A rate.toFeeFrac vsize = some (safeFee rate.toFeeFrac vsize) := by
  have hrange := h.safeFee_range hvsize
  by_cases hsize : rate.size = 0
  · rw [getFee, if_pos hsize, safeFee, if_pos hsize]
  · have hin : rate.toFeeFrac.InRange := by
      have hsigned := rate.size_signed.2
      have hpos := h.size_pos hsize
      exact ⟨rate.fee_signed, by omega, hsigned⟩
    have hexact : exactFee false rate.toFeeFrac vsize = safeFee rate.toFeeFrac vsize := by
      rw [exactFee_eq false hin, safeFee, if_neg hsize]
    rw [getFee_eq hA hin h.nonneg hvsize, hexact]
    rw [hexact]
    exact ⟨le_trans (by norm_num) hrange.1, lt_of_le_of_lt hrange.2 (by decide)⟩

/-! ## The size of a claim -/

/-- the virtual size of a claim with a proof of n bytes -/
def proofVsize (n : ℕ) : ℕ := (374 + (compactSize n).length + n) / 4

theorem compactSize_length_mono {m n : ℕ} (h : m ≤ n) : (compactSize m).length ≤ (compactSize n).length := by
  unfold compactSize
  split_ifs <;> simp <;> omega

theorem proofVsize_mono {m n : ℕ} (h : m ≤ n) : proofVsize m ≤ proofVsize n := by
  have hprefix := compactSize_length_mono h
  exact Nat.div_le_div_right (by omega)

theorem proofVsize_le {n : ℕ} (h : n ≤ MAX_P2C_PROOF_SIZE) : proofVsize n ≤ 16480 := by
  calc proofVsize n ≤ proofVsize MAX_P2C_PROOF_SIZE := proofVsize_mono h
    _ ≤ 16480 := by decide

section
variable [Crypto]

/-- a final claim: one input whose witness is the proof, one output to a key -/
structure CarriesProof (tx : CTransaction) (proof : Bytes) : Prop where
  input : ∃ prevout nSequence, tx.vin = [⟨prevout, [], nSequence, [proof]⟩]
  output : ∃ txout key, tx.vout = [txout] ∧ txout.getP2PKPubKey = some key

theorem keyOutput_serialize_length {o : CTxOut} {key : Uint256} (h : o.getP2PKPubKey = some key) :
    o.serialize.length = 41 := by
  simp [CTxOut.serialize, payload_p2pk h]

variable {tx : CTransaction} {rate : StoredFeeRate} {proofSize : ℕ} {proof : Bytes} {A : WideArith}

/-- The virtual size of a claim depends on the length of its proof alone. -/
theorem claim_vsize_eq (h : CarriesProof tx proof) (hproof : proof.length ≤ MAX_P2C_PROOF_SIZE) :
    getVirtualTransactionSize tx = proofVsize proof.length := by
  obtain ⟨prevout, nSequence, hvin⟩ := h.input
  obtain ⟨txout, key, hvout, hkey⟩ := h.output
  have hwitness : tx.hasWitness = true := by simp [CTransaction.hasWitness, hvin]
  have hone : (compactSize 1).length = 1 := by decide
  have hzero : (compactSize 0).length = 1 := by decide
  have hbase : (tx.serialize false).length = 92 := by
    simp [CTransaction.serialize_noWitness, hvin, hvout, vector, CTxIn.serialize, COutPoint.serialize,
      byteVector, hone, hzero, keyOutput_serialize_length hkey]
  have hfull : (tx.serialize true).length = 95 + (compactSize proof.length).length + proof.length := by
    simp [CTransaction.serialize, hwitness, hvin, hvout, vector, CTxIn.serialize, COutPoint.serialize,
      byteVector, hone, hzero, keyOutput_serialize_length hkey]
    omega
  have hweight : (getTransactionWeight tx).toInt = (371 + (compactSize proof.length).length + proof.length : ℕ) := by
    have hprefix := compactSize_length_mono hproof
    have hmost : (compactSize MAX_P2C_PROOF_SIZE).length + MAX_P2C_PROOF_SIZE < 2 ^ 30 := by decide
    rw [getTransactionWeight, hbase, hfull, Int32.toInt_ofNat_of_lt]
    · norm_num [WITNESS_SCALE_FACTOR]
      ring
    · norm_num [WITNESS_SCALE_FACTOR]
      omega
  rw [getVirtualTransactionSize, hweight, max_eq_left (Int.natCast_nonneg _)]
  rw [Int.tdiv_eq_ediv_of_nonneg (by rw [WITNESS_SCALE_FACTOR]; omega), proofVsize, WITNESS_SCALE_FACTOR]
  omega

/-! ## The fee of a budget -/

theorem sizingTx_ok (hkey : Crypto.isFullyValid SIZE_KEY = true) (hsize : proofSize ≤ MAX_P2C_PROOF_SIZE) :
    ∃ tx, sizingTx proofSize = .ok tx ∧ CarriesProof tx (List.replicate proofSize 0) := by
  have hmax : MAX_P2C_PROOF_SIZE = 65536 := rfl
  have hpubkey := getP2PKPubKey_p2pkOutput 0 SIZE_KEY hkey
  have hpayload : (p2pkOutput 0 SIZE_KEY hkey).serializePayload = .ok (1 :: SIZE_KEY.bytes) := by
    have htype : (p2pkOutput 0 SIZE_KEY hkey).type = .P2PK := rfl
    simp only [CTxOut.serializePayload, htype, hpubkey, p2pkPayload]
  let sizing : CMutableTransaction :=
    { vin := [⟨⟨Uint256.null, NULL_INDEX⟩, [], SEQUENCE_FINAL, [List.replicate proofSize 0]⟩]
      vout := [p2pkOutput 0 SIZE_KEY hkey]
      version := CURRENT_VERSION
      nLockTime := 0 }
  have hconstructible : sizing.Constructible :=
    { payloads := by simp [sizing, hpayload, Except.isOk, Except.toBool]
      vin_size := by simp [sizing]
      vout_size := by simp [sizing]
      scriptSig_size := by simp [sizing]
      stack_size := by simp [sizing]; omega }
  obtain ⟨tx, htx⟩ := exists_makeTransactionRef hconstructible
  obtain ⟨hvin, hvout⟩ := makeTransactionRef_ok htx
  refine ⟨tx, ?_, ⟨_, _, hvin⟩, ⟨_, _, hvout, hpubkey⟩⟩
  rw [sizingTx, keyOutput, dif_pos hkey]
  change Except.mapError _ (makeTransactionRef _) = _
  rw [htx]
  rfl

/-- The fee of a budget is the one of a claim whose proof fills the budget. -/
theorem calculateP2CClaimFee_safe (hA : A.Exact) (hkey : Crypto.isFullyValid SIZE_KEY = true)
    (hsafe : safeFeeRate A rate.toFeeFrac = some true) (hpos : 1 ≤ proofSize) (hsize : proofSize ≤ MAX_P2C_PROOF_SIZE) :
    calculateP2CClaimFee A rate.toFeeFrac proofSize = .ok (safeFee rate.toFeeFrac (proofVsize proofSize)) := by
  have hrate := (safeFeeRate_iff hA rate).1 hsafe
  have hvsize : (0 : ℤ) ≤ (proofVsize proofSize : ℕ) ∧ ((proofVsize proofSize : ℕ) : ℤ) < 2 ^ 31 := by
    have hle := proofVsize_le hsize
    omega
  obtain ⟨tx, htx, hcarries⟩ := sizingTx_ok hkey hsize
  have htxsize := claim_vsize_eq hcarries (by rwa [length_replicate])
  rw [length_replicate] at htxsize
  simp only [calculateP2CClaimFee, bind_ok, refuseIf_ok, checked_ok, Bool.or_eq_false_iff, beq_eq_false_iff_ne,
    decide_eq_false_iff_not, Bool.not_eq_false', pure, Except.pure, Except.ok.injEq]
  refine ⟨(), ⟨by omega, by omega⟩, true, hsafe, (), rfl, tx, htx, safeFee rate.toFeeFrac (proofVsize proofSize),
    ?_, (), ?_, rfl⟩
  · rw [htxsize]
    exact getFee_safe hA hrate hvsize
  · exact moneyRange_iff.2 (hrate.safeFee_range hvsize)

/-- Within the budget the fee is enough for the final transaction. -/
theorem budget_covers (hA : A.Exact) (hrate : SafeRate rate.toFeeFrac) (htx : CarriesProof tx proof) {budget : ℕ}
    (hproof : proof.length ≤ budget) (hbudget : budget ≤ MAX_P2C_PROOF_SIZE) :
    ∃ due, getFee A rate.toFeeFrac (getVirtualTransactionSize tx) = some due ∧
      due ≤ safeFee rate.toFeeFrac (proofVsize budget) ∧
      rate.fee * getVirtualTransactionSize tx ≤ safeFee rate.toFeeFrac (proofVsize budget) * rate.size := by
  rw [claim_vsize_eq htx (hproof.trans hbudget)]
  have hle : ((proofVsize proof.length : ℕ) : ℤ) ≤ (proofVsize budget : ℕ) := by exact_mod_cast proofVsize_mono hproof
  have hvsize := proofVsize_le hbudget
  refine ⟨_, getFee_safe hA hrate ⟨Int.natCast_nonneg _, by omega⟩, hrate.safeFee_mono hle, ?_⟩
  calc rate.fee * (proofVsize proof.length : ℕ) ≤ rate.fee * (proofVsize budget : ℕ) :=
    mul_le_mul_of_nonneg_left hle hrate.nonneg
    _ ≤ safeFee rate.toFeeFrac (proofVsize budget) * rate.size := hrate.le_safeFee _

/-! ## Claims -/

/-- Claim fees are safe and sufficient, on either platform. For a safe rate: no fee overflows or leaves the money range;
the fee of a budget is returned, and it is at least the fee, and at least the rate, of every claim with a proof within
the budget. And whatever the wallet and the chain answer, now and when the claim is completed: a claim completed within
its budget pays its proposal's fee, which is at least the fee of the completed transaction at the rate it was prepared
for. -/
theorem claim_fees_sufficient {A : WideArith} (hA : A = native ∨ A = fallback)
    (hkey : Crypto.isFullyValid SIZE_KEY = true) : (∀ rate : StoredFeeRate, safeFeeRate A rate.toFeeFrac = some true →
      (∀ vsize : ℤ, 0 ≤ vsize ∧ vsize ≤ 2 ^ 31 - 1 → ∃ fee, getFee A rate.toFeeFrac vsize = some fee ∧ 0 ≤ fee ∧
      fee ≤ MAX_MONEY) ∧ ∀ budget, 1 ≤ budget ∧ budget ≤ MAX_P2C_PROOF_SIZE →
        ∃ fee, calculateP2CClaimFee A rate.toFeeFrac budget = .ok fee ∧
          ∀ tx proof, CarriesProof tx proof → 1 ≤ proof.length ∧ proof.length ≤ budget →
            ∃ due, getFee A rate.toFeeFrac (getVirtualTransactionSize tx) = some due ∧ due ≤ fee ∧
            rate.fee * getVirtualTransactionSize tx ≤ fee * rate.size) ∧
    ∀ (δ : Type) (env later : ClaimEnv δ) (bounty : COutPoint) (feerate : Option StoredFeeRate) (budget : ℕ)
      (dest dest' : Option δ) (proposal : P2CClaimProposal δ) (proof : Bytes) (tx : CTransaction),
      prepareP2CClaim A env bounty feerate budget dest = .ok proposal →
      completeP2CClaim later proposal.tx proof dest' = .ok tx → proof.length ≤ budget →
      CarriesProof tx proof ∧ proposal.bounty.value - (tx.vout.map CTxOut.value).sum = proposal.fee ∧
        ∃ rate, claimRate A env feerate = some rate ∧
          ∃ due, getFee A rate.toFeeFrac (getVirtualTransactionSize tx) = some due ∧ due ≤ proposal.fee ∧
            rate.fee * getVirtualTransactionSize tx ≤ proposal.fee * rate.size := by
  have hexact := exact_of_platform hA
  refine ⟨fun rate hsafe => ⟨fun vsize hvsize => ?_, fun budget hbudget => ?_⟩, ?_⟩
  · have hrate := (safeFeeRate_iff hexact rate).1 hsafe
    have hlt : 0 ≤ vsize ∧ vsize < 2 ^ 31 := ⟨hvsize.1, by linarith [hvsize.2]⟩
    exact ⟨_, getFee_safe hexact hrate hlt, hrate.safeFee_range hlt⟩
  · refine ⟨_, calculateP2CClaimFee_safe hexact hkey hsafe hbudget.1 hbudget.2, fun tx proof htx hproof => ?_⟩
    exact budget_covers hexact ((safeFeeRate_iff hexact rate).1 hsafe) htx hproof.2 hbudget.2
  · intro δ env later bounty feerate budget dest dest' proposal proof tx hprepare hcomplete hproof
    obtain ⟨rate, payout, key, hrate, hsafe, hfee, hbudget, hvout, hpayout, hvalue⟩ := prepareP2CClaim_ok hprepare
    obtain ⟨⟨prevout, hvin⟩, hkept, hpos⟩ := completeP2CClaim_ok hcomplete
    have hcarries : CarriesProof tx proof := ⟨⟨prevout, _, hvin⟩, payout, key, hkept.trans hvout, hpayout⟩
    rw [calculateP2CClaimFee_safe hexact hkey hsafe hbudget.1 hbudget.2, Except.ok.injEq] at hfee
    refine ⟨hcarries, ?_, rate, hrate, ?_⟩
    · rw [hkept, hvout, map_singleton, sum_singleton, hvalue]
      linarith
    · rw [← hfee]
      exact budget_covers hexact ((safeFeeRate_iff hexact rate).1 hsafe) hcarries hproof hbudget.2

end

/-! ## A concrete claim -/

section
attribute [local instance] toyCrypto

def oneAtomPerByte : StoredFeeRate := ⟨⟨1000, 1000⟩, by decide, by decide⟩

/-- every outpoint is a confirmed bounty for the sample domain -/
def sampleEnv : ClaimEnv Unit where
  disablePrivateKeys := false
  externalSigner := false
  isLockedCoin _ := false
  isMine _ := true
  getScriptForDestination _ := p2pkView (Uint256.ofNat 5)
  getReservedDestination := .ok ()
  defaultMaxTxFee := 1000000
  lastBlockHeight := 200
  lastBlock := some (1, true)
  findCoin _ := ⟨p2cOutput 5000000 sampleTerms, false, 100, by decide⟩
  isSpentByMempool _ := false
  getMinimumFeeRate _ := oneAtomPerByte
  getRequiredFeeRate := oneAtomPerByte
  mempoolMinFee := oneAtomPerByte
  relayDustFee := oneAtomPerByte
  checkTransaction _ := none

def sampleBounty : COutPoint := ⟨Uint256.ofNat 9, 0⟩

/-- the sample claim for a budget of 300 bytes: the bounty less a fee of 169 -/
def sampleClaimTx : CTransaction where
  vin := [⟨sampleBounty, [], SEQUENCE_FINAL, []⟩]
  vout := [{ CTxOut.ofScript 5000000 (p2pkView (Uint256.ofNat 5)) with nValue := 4999831 }]
  version := CURRENT_VERSION
  nLockTime := 0
  payloads := by decide
  vin_size := by decide
  vout_size := by decide
  scriptSig_size := by decide
  stack_size := by decide

def sampleProofBytes : Bytes := (sampleProof (p2cClaimChallenge sampleClaimTx 0) [1]).encode

/-- The sample claim is prepared and completed within its budget, and pays its rate. -/
theorem sampleClaim_pays : safeFeeRate native oneAtomPerByte.toFeeFrac = some true ∧
    ∃ proposal proof tx, prepareP2CClaim native sampleEnv sampleBounty none 300 none = .ok proposal ∧
      completeP2CClaim sampleEnv proposal.tx proof none = .ok tx ∧ proof.length ≤ 300 ∧
      ∃ rate, claimRate native sampleEnv none = some rate ∧
        ∃ due, getFee native rate.toFeeFrac (getVirtualTransactionSize tx) = some due ∧ due ≤ proposal.fee ∧
          rate.fee * getVirtualTransactionSize tx ≤ proposal.fee * rate.size := by
  refine ⟨by decide, ?_⟩
  obtain ⟨proposal, hproposal, htx⟩ : ∃ p, prepareP2CClaim native sampleEnv sampleBounty none 300 none = .ok p ∧
      p.tx = sampleClaimTx := exists_ok_and (by decide +kernel)
  obtain ⟨prepared, hresume, hterms⟩ : ∃ p, resumeP2CClaim sampleEnv sampleClaimTx none = .ok p ∧
      p.bounty.getPayToDomain = some sampleTerms := exists_ok_and (by decide +kernel)
  obtain ⟨tx, hmade⟩ : ∃ tx, makeTransactionRef (withProof sampleClaimTx sampleProofBytes) = .ok tx :=
    exists_ok (by decide +kernel)
  have hlength : sampleProofBytes.length ≤ 300 := by decide +kernel
  have hcomplete : completeP2CClaim sampleEnv proposal.tx sampleProofBytes none = .ok tx := by
    simp only [htx, completeP2CClaim, bind_ok, refuseIf_ok]
    refine ⟨prepared, hresume, (), by decide +kernel, ?_⟩
    rw [hterms]
    simp only [bind_ok, refuseIf_ok, mapError_ok]
    exact ⟨_, sampleProof_parsed _ 1, (), by rw [sampleTerms_met]; rfl, tx, hmade, rfl⟩
  obtain ⟨-, -, hpays⟩ := (claim_fees_sufficient (Or.inl rfl) (by decide +kernel)).2 Unit sampleEnv sampleEnv
    sampleBounty none 300 none none proposal _ tx hproposal hcomplete hlength
  exact ⟨proposal, _, tx, hproposal, hcomplete, hlength, hpays⟩

end

end ConnectCoin.Wallet
