/-
Construction of a pay-to-connect claim (`wallet/p2c_claim.cpp`): the fee, the proposal a capture is made for, and the
completed claim.

- `calculateP2CClaimFee`: the fee of a claim with a proof of the budgeted size. The transaction that is measured has a
  fixed key.
- `prepareP2CClaim`: the bounty, the rate, the payout; `completeP2CClaim`: the proposal with the proof in its witness.
- `ClaimEnv`: what is asked of the wallet and of the chain, with any answers. `ClaimFailure`: a returned error, an
  exception, or an operation that overflows; rates are compared and fees computed with the checked arithmetic of
  `FeeFrac`.
Results: `prepareP2CClaim_ok` and `completeP2CClaim_ok` say what a proposal and a completed claim look like.
Left out: the reserve of the destination that is kept or returned, and the certificate check behind `checkTransaction`.
-/
import ConnectCoin.Node.EconomicFee

namespace ConnectCoin.Wallet

open Lib P2C List

section
variable [Crypto]

/-! ## Results of a call -/

inductive ClaimFailure where
  /-- `util::Error` -/
  | error (text : String)
  | exception (what : String)
  | overflow
  deriving DecidableEq

def checked {α : Type} : Option α → Except ClaimFailure α
  | some a => .ok a
  | none => .error .overflow

omit [Crypto] in
theorem checked_ok {α : Type} {x : Option α} {a : α} : checked x = .ok a ↔ x = some a := by
  cases x <;> simp [checked]

/-! ## Rates -/

/-- a `CFeeRate` as it is stored: a 64-bit fee and a 32-bit size -/
structure StoredFeeRate extends FeeFrac where
  fee_signed : Signed 64 fee
  size_signed : Signed 32 size

variable (A : WideArith)

/-- `SafeFeeRate` -/
def safeFeeRate (rate : FeeFrac) : Option Bool := do
  if ← byRatioGe A rate (feeRatePerK 0) then byRatioLe A rate ⟨MAX_MONEY, 2 ^ 31 - 1⟩ else return false

/-- a step of `std::max`: the first of two equal rates stays -/
def maxRate (a b : StoredFeeRate) : Option StoredFeeRate := do
  return if ← byRatioLt A a.toFeeFrac b.toFeeFrac then b else a

/-- `GetVirtualTransactionSize` without signature operations; the weight is not negative -/
def getVirtualTransactionSize (tx : CTransaction) : ℤ :=
  (max (getTransactionWeight tx).toInt 0 + WITNESS_SCALE_FACTOR - 1).tdiv WITNESS_SCALE_FACTOR

/-- `GetDustThreshold` -/
def getDustThreshold (txout : CTxOut) (dustRelayFee : FeeFrac) : Option CAmount :=
  let witnessSize := (compactSize 1).length + (compactSize MAX_P2C_PROOF_SIZE).length + MAX_P2C_PROOF_SIZE
  let spending :=
    if txout.type = .PAY_TO_CONNECT then 41 + (witnessSize + WITNESS_SCALE_FACTOR - 1) / WITNESS_SCALE_FACTOR else 58
  getFee A dustRelayFee (txout.serialize.length + spending : ℕ)

/-- `IsDust` -/
def isDust (txout : CTxOut) (dustRelayFee : FeeFrac) : Option Bool := do
  return txout.value < (← getDustThreshold A txout dustRelayFee)

/-! ## The fee -/

/-- the key of the transaction that is measured: the generator of the curve -/
def SIZE_KEY : Uint256 :=
  Uint256.ofSlice [0x79, 0xbe, 0x66, 0x7e, 0xf9, 0xdc, 0xbb, 0xac, 0x55, 0xa0, 0x62, 0x95, 0xce, 0x87, 0x0b, 0x07,
    0x02, 0x9b, 0xfc, 0xdb, 0x2d, 0xce, 0x28, 0xd9, 0x59, 0xf2, 0x81, 0x5b, 0x16, 0xf8, 0x17, 0x98]

/-- `CTransaction::CURRENT_VERSION` -/
def CURRENT_VERSION : UInt32 := 2

/-- `CTxOut(nValue, pubkey)` -/
def keyOutput (nValue : Int64) (pubkey : Uint256) : Except ClaimFailure CTxOut :=
  if h : Crypto.isFullyValid pubkey = true then .ok (p2pkOutput nValue pubkey h)
  else .error (.exception "Invalid P2PK x-only public key")

/-- the transaction that is measured: a null outpoint, the fixed key, a proof of zeros -/
def sizingTx (proofSize : ℕ) : Except ClaimFailure CTransaction := do
  let txout ← keyOutput 0 SIZE_KEY
  (makeTransactionRef
    { vin := [⟨⟨Uint256.null, NULL_INDEX⟩, [], SEQUENCE_FINAL, [List.replicate proofSize 0]⟩]
      vout := [txout]
      version := CURRENT_VERSION
      nLockTime := 0 }).mapError .exception

def badProofSize : String := "P2C proof_size must be between 1 and 65536 bytes"
def badFeeRate : String := "Fee rate is too high or invalid for safe P2C claim construction"

/-- `CalculateP2CClaimFee` -/
def calculateP2CClaimFee (rate : FeeFrac) (proofSize : ℕ) : Except ClaimFailure CAmount := do
  refuseIf (proofSize == 0 || proofSize > MAX_P2C_PROOF_SIZE) (.error badProofSize)
  let safe ← checked (safeFeeRate A rate)
  refuseIf (!safe) (.error badFeeRate)
  let tx ← sizingTx proofSize
  let fee ← checked (getFee A rate (getVirtualTransactionSize tx))
  refuseIf (!moneyRange fee) (.error "P2C claim fee is out of range")
  return fee

/-! ## The wallet and the chain -/

/-- what the wallet and the chain answer; `δ` is the type of destinations -/
structure ClaimEnv (δ : Type) where
  disablePrivateKeys : Bool
  externalSigner : Bool
  isLockedCoin : COutPoint → Bool
  isMine : CTxOut → Bool
  getScriptForDestination : δ → Bytes
  /-- `ReserveDestination::GetReservedDestination` -/
  getReservedDestination : Except String δ
  defaultMaxTxFee : CAmount
  lastBlockHeight : ℤ
  /-- `findBlock` of the last block: its median time, and whether it is in the active chain -/
  lastBlock : Option (Int64 × Bool)
  /-- `findCoins`; a coin that is not found is spent -/
  findCoin : COutPoint → Coin
  isSpentByMempool : COutPoint → Bool
  /-- `GetMinimumFeeRate` for the rate of the coin control -/
  getMinimumFeeRate : Option StoredFeeRate → StoredFeeRate
  getRequiredFeeRate : StoredFeeRate
  mempoolMinFee : StoredFeeRate
  relayDustFee : StoredFeeRate
  /-- the text of a refusal -/
  checkTransaction : CTransaction → Option String

variable {δ : Type} (env : ClaimEnv δ)

/-- `HasLocalKeys` -/
def ClaimEnv.hasLocalKeys : Bool := !env.disablePrivateKeys && !env.externalSigner

/-- `FindClaimBounty` -/
def findClaimBounty (outpoint : COutPoint) : Except ClaimFailure Coin := do
  refuseIf outpoint.isNull (.error "Invalid P2C bounty outpoint")
  refuseIf (env.isLockedCoin outpoint) (.error "P2C bounty is locked in this wallet")
  let coin := env.findCoin outpoint
  refuseIf (coin.isSpent || env.isSpentByMempool outpoint) (.error "P2C bounty is unavailable or already spent")
  refuseIf (!isCanonicalP2COutput coin.out) (.error "Outpoint is not a supported P2C bounty")
  refuseIf (env.lastBlockHeight < 0 || (coin.nHeight : ℤ) > env.lastBlockHeight)
    (.error "P2C bounty must be confirmed before claiming")
  refuseIf (coin.fCoinBase && env.lastBlockHeight + 1 - coin.nHeight < COINBASE_MATURITY)
    (.error "P2C coinbase bounty is not mature")
  refuseIf (coin.out.value ≤ 0 || !moneyRange coin.out.value) (.error "Invalid P2C bounty amount")
  return coin

/-- `IsP2CClaimPayout` -/
def isP2CClaimPayout (output : CTxOut) (destination : Option δ) : Bool :=
  match output.getP2PKPubKey, destination with
  | none, _ => false
  | some key, some dest => some key == (CTxOut.ofScript 0 (env.getScriptForDestination dest)).getP2PKPubKey
  | some _, none => env.isMine output

/-- the median time of the last block, which has to be in the active chain -/
def validationTime : Except ClaimFailure Int64 :=
  match env.lastBlock with
  | some (time, true) =>
    if time.toInt ≤ 0 then .error (.error "Wallet must be synchronized to an active chain before claiming") else
      .ok time
  | _ => .error (.error "Wallet must be synchronized to an active chain before claiming")

def noLocalKeys : String := "P2C claiming requires a wallet with local private keys or an explicit reward address"

/-! ## Prepare, resume, complete -/

structure P2CClaimProposal (δ : Type) where
  tx : CTransaction
  bounty : CTxOut
  /-- none is `CNoDestination` -/
  destination : Option δ
  fee : CAmount
  proofSize : ℕ
  validationTime : Int64

/-- the rate of a claim: the largest of the estimate, the required rate and the pool's -/
def claimRate (feerate : Option StoredFeeRate) : Option StoredFeeRate := do
  let rate ← maxRate A (env.getMinimumFeeRate feerate) env.getRequiredFeeRate
  maxRate A rate env.mempoolMinFee

/-- the rate of the coin control, if it has one -/
def safeControlRate (feerate : Option StoredFeeRate) : Option Bool :=
  match feerate with
  | some feerate => safeFeeRate A feerate.toFeeFrac
  | none => some true

/-- the destination that is given, or else one that is reserved -/
def ClaimEnv.destination (env : ClaimEnv δ) (payoutDestination : Option δ) : Except ClaimFailure δ :=
  match payoutDestination with
  | some destination => .ok destination
  | none => env.getReservedDestination.mapError .error

/-- the unwitnessed claim -/
def proposalTx (bounty : COutPoint) (payout : CTxOut) : CMutableTransaction :=
  { vin := [⟨bounty, [], SEQUENCE_FINAL, []⟩]
    vout := [payout]
    version := CURRENT_VERSION
    nLockTime := 0 }

/-- `PrepareP2CClaim` -/
def prepareP2CClaim (bounty : COutPoint)
    (feerate : Option StoredFeeRate) (proofSize : ℕ) (payoutDestination : Option δ) :
    Except ClaimFailure (P2CClaimProposal δ) := do
  refuseIf (payoutDestination.isNone && !env.hasLocalKeys) (.error noLocalKeys)
  refuseIf (proofSize == 0 || proofSize > MAX_P2C_PROOF_SIZE) (.error badProofSize)
  let coin ← findClaimBounty env bounty
  let controlSafe ← checked (safeControlRate A feerate)
  refuseIf (!controlSafe) (.error badFeeRate)
  let rate ← checked (claimRate A env feerate)
  let estimateSafe ← checked (safeFeeRate A (env.getMinimumFeeRate feerate).toFeeFrac)
  refuseIf (!estimateSafe) (.error badFeeRate)
  let rateSafe ← checked (safeFeeRate A rate.toFeeFrac)
  refuseIf (!rateSafe) (.error badFeeRate)
  let dustSafe ← checked (safeFeeRate A env.relayDustFee.toFeeFrac)
  refuseIf (!dustSafe) (.error badFeeRate)
  let time ← validationTime env
  let destination ← env.destination payoutDestination
  let script := env.getScriptForDestination destination
  refuseIf (!isP2CClaimPayout env (CTxOut.ofScript coin.out.nValue script) payoutDestination)
    (.error "P2C payout must be a wallet-owned P2PK destination or the explicitly specified reward address")
  let fee ← calculateP2CClaimFee A rate.toFeeFrac proofSize
  refuseIf (fee > env.defaultMaxTxFee || fee ≥ coin.out.value)
    (.error "P2C claim fee exceeds the wallet maximum or consumes the entire bounty")
  let payout := { CTxOut.ofScript coin.out.nValue script with nValue := Int64.ofInt (coin.out.value - fee) }
  let dust ← checked (isDust A payout env.relayDustFee.toFeeFrac)
  refuseIf dust (.error "P2C reward after fees is dust")
  let tx ← (makeTransactionRef (proposalTx bounty payout)).mapError .exception
  return ⟨tx, coin.out, some destination, fee, proofSize, time⟩

/-- the shape `ResumeP2CClaim` asks for -/
def isUnwitnessedClaim (proposal : CTransaction) : Bool :=
  proposal.version == CURRENT_VERSION && proposal.nLockTime == 0 && proposal.vin.length == 1 &&
    proposal.vout.length == 1 && proposal.vin.all (fun txin => txin.scriptSig.isEmpty) && !proposal.hasWitness &&
    proposal.vin.all fun txin => txin.nSequence == SEQUENCE_FINAL

def badShape : String :=
  "Expected an unwitnessed P2C claim with one input and one output, version 2, final sequence and no locktime"

/-- `ResumeP2CClaim` -/
def resumeP2CClaim (proposal : CTransaction) (destination : Option δ) : Except ClaimFailure (P2CClaimProposal δ) := do
  refuseIf (destination.isNone && !env.hasLocalKeys) (.error noLocalKeys)
  match proposal.vin, proposal.vout with
  | [txin], [txout] =>
    refuseIf (!isUnwitnessedClaim proposal) (.error badShape)
    refuseIf (!isP2CClaimPayout env txout destination)
      (.error "P2C payout must be a P2PK destination belonging to this wallet or match the explicitly specified reward address")
    let coin ← findClaimBounty env txin.prevout
    refuseIf (txout.value ≤ 0 || !moneyRange txout.value || txout.value > coin.out.value)
      (.error "Invalid P2C payout amount")
    refuseIf (coin.out.value - txout.value > env.defaultMaxTxFee) (.error "P2C claim fee exceeds the wallet maximum")
    let time ← validationTime env
    return ⟨proposal, coin.out, none, coin.out.value - txout.value, MAX_P2C_PROOF_SIZE, time⟩
  | _, _ => .error (.error badShape)

/-- the proposal with one more element on the witness stack of its input -/
def withProof (proposal : CTransaction) (proof : Bytes) : CMutableTransaction :=
  { proposal.toMutable with
    vin := proposal.vin.modifyHead fun txin => { txin with scriptWitness := txin.scriptWitness ++ [proof] } }

/-- `CompleteP2CClaim` -/
def completeP2CClaim (proposal : CTransaction) (proof : Bytes) (destination : Option δ) :
    Except ClaimFailure CTransaction := do
  let prepared ← resumeP2CClaim env proposal destination
  refuseIf (proof.isEmpty || proof.length > MAX_P2C_PROOF_SIZE) (.error "P2C proof must be between 1 and 65536 bytes")
  match prepared.bounty.getPayToDomain with
  -- a canonical bounty has a domain, so the source reads it without a test
  | none => .error (.exception "no domain")
  | some domain =>
    let parsed ← (parseP2CTlsProof proof domain.domain (p2cClaimChallenge proposal 0)).mapError
      fun error => .error ("Invalid P2C proof: " ++ error)
    refuseIf (!p2cMeetsWorkTarget parsed.connectionWorkHash domain.connectionWorkTarget)
      (.error "P2C connection work hash exceeds target")
    let completed ← (makeTransactionRef (withProof proposal proof)).mapError .exception
    match env.checkTransaction completed with
    | some text => .error (.error ("P2C claim rejected: " ++ text))
    | none => return completed

/-! ## What is returned -/

variable {destination : Option δ} {env : ClaimEnv δ} {p : P2CClaimProposal δ} {proofSize : ℕ}
  {A : WideArith} {fee : CAmount}

/-- a payout has a key -/
theorem getP2PKPubKey_of_payout {output : CTxOut} (h : isP2CClaimPayout env output destination = true) :
    ∃ key, output.getP2PKPubKey = some key := by
  cases hkey : output.getP2PKPubKey with
  | none => simp [isP2CClaimPayout, hkey] at h
  | some key => exact ⟨key, rfl⟩

/-- A fee is an amount. -/
theorem calculateP2CClaimFee_range {rate : FeeFrac} (h : calculateP2CClaimFee A rate proofSize = .ok fee) :
    0 ≤ fee ∧ fee ≤ MAX_MONEY := by
  simp only [calculateP2CClaimFee, bind_ok, refuseIf_ok, Bool.not_eq_false', pure, Except.pure, Except.ok.injEq] at h
  obtain ⟨-, -, -, -, -, -, tx, -, paid, -, -, hrange, rfl⟩ := h
  exact moneyRange_iff.1 hrange

/-- A part of a positive amount is stored as it is. -/
theorem value_sub_fee {o : CTxOut} (hfee : 0 ≤ fee) (hlt : fee < o.value) :
    (Int64.ofInt (o.value - fee)).toInt = o.value - fee := by
  have hmax := o.nValue.toInt_lt
  have hvalue : o.value = o.nValue.toInt := rfl
  apply Int64.toInt_ofInt_of_le
  · linarith [Int64.minValue_le_toInt o.nValue]
  · linarith

/-- A proposal pays the bounty without the fee to a key; the fee is the one of a safe rate. -/
theorem prepareP2CClaim_ok {bounty : COutPoint} {feerate : Option StoredFeeRate}
    (h : prepareP2CClaim A env bounty feerate proofSize destination = .ok p) :
    ∃ rate payout key, claimRate A env feerate = some rate ∧ safeFeeRate A rate.toFeeFrac = some true ∧
      calculateP2CClaimFee A rate.toFeeFrac proofSize = .ok p.fee ∧ (1 ≤ proofSize ∧ proofSize ≤ MAX_P2C_PROOF_SIZE) ∧
      p.tx.vout = [payout] ∧ payout.getP2PKPubKey = some key ∧ payout.value = p.bounty.value - p.fee := by
  simp only [prepareP2CClaim, bind_ok, refuseIf_ok, mapError_ok, checked_ok, Bool.not_eq_false', pure, Except.pure,
    Except.ok.injEq] at h
  obtain ⟨-, -, -, hsize, coin, hcoin, -, -, -, -, rate, hrate, -, -, -, -, safe, hsafe, -, rfl, -, -, -, -, time, -,
    dest, -, -, hpayout, fee, hfee, -, hless, -, -, -, -, tx, htx, rfl⟩ := h
  simp only [Bool.or_eq_false_iff, beq_eq_false_iff_ne, decide_eq_false_iff_not, ge_iff_le, gt_iff_lt, not_le, not_lt]
    at hless hsize
  obtain ⟨key, hkey⟩ := getP2PKPubKey_of_payout hpayout
  obtain ⟨htype, hpubkey, hscript⟩ := CTxOut.getP2PKPubKey_eq_some.1 hkey
  refine ⟨rate, _, key, hrate, hsafe, hfee, ⟨Nat.one_le_iff_ne_zero.2 hsize.1, hsize.2⟩,
    (makeTransactionRef_ok htx).2, ?_, ?_⟩
  · exact CTxOut.getP2PKPubKey_eq_some.2 ⟨htype, hpubkey, hscript⟩
  · exact value_sub_fee (calculateP2CClaimFee_range hfee).1 hless.2

/-- A proposal in form has one input, with neither script nor witness. -/
theorem resumeP2CClaim_ok {proposal : CTransaction} (h : resumeP2CClaim env proposal destination = .ok p) :
    ∃ txin, proposal.vin = [txin] ∧ txin.scriptSig = [] ∧ txin.scriptWitness = [] ∧
      txin.nSequence = SEQUENCE_FINAL := by
  simp only [resumeP2CClaim, bind_ok, refuseIf_ok] at h
  obtain ⟨-, -, h⟩ := h
  split at h
  · next txin txout hvin hvout =>
    simp only [bind_ok, refuseIf_ok, Bool.not_eq_false'] at h
    obtain ⟨-, hshape, -⟩ := h
    refine ⟨txin, hvin, ?_⟩
    simp only [isUnwitnessedClaim, CTransaction.hasWitness, hvin, all_cons, all_nil, Bool.and_true, any_cons,
      any_nil, Bool.or_false, Bool.not_not, Bool.and_eq_true, List.isEmpty_iff, beq_iff_eq] at hshape
    exact ⟨hshape.1.1.2, hshape.1.2, hshape.2⟩
  · cases h

/-- A completed claim is a proposal in form with the proof as its only witness. -/
theorem completeP2CClaim_ok {proposal tx : CTransaction} {proof : Bytes}
    (h : completeP2CClaim env proposal proof destination = .ok tx) :
    (∃ prevout, tx.vin = [⟨prevout, [], SEQUENCE_FINAL, [proof]⟩]) ∧ tx.vout = proposal.vout ∧ 1 ≤ proof.length := by
  simp only [completeP2CClaim, bind_ok, refuseIf_ok, Bool.or_eq_false_iff] at h
  obtain ⟨prepared, hresume, -, ⟨hempty, -⟩, h⟩ := h
  split at h
  · cases h
  · simp only [bind_ok, refuseIf_ok, mapError_ok] at h
    obtain ⟨parsed, -, -, -, completed, hcompleted, h⟩ := h
    split at h
    · cases h
    · cases h
      obtain ⟨hvin, hvout⟩ := makeTransactionRef_ok hcompleted
      refine ⟨?_, hvout, length_pos_iff.2 (isEmpty_eq_false_iff.1 hempty)⟩
      obtain ⟨txin, hproposal, hscript, hwitness, hsequence⟩ := resumeP2CClaim_ok hresume
      refine ⟨txin.prevout, ?_⟩
      rw [hvin, withProof, hproposal, modifyHead_cons, hwitness, hscript, hsequence, nil_append]

end

end ConnectCoin.Wallet
