/-
The check of one transaction input (`CScriptCheck::operator()`, `consensus/p2c.cpp`).

An input spends either a P2PK output (one 64-byte Schnorr signature) or a canonical pay-to-connect output (one TLS proof
made for this transaction and this input, whose work meets the output's target and whose certificates verify).

- `ScriptEnv`: the two verifiers taken from outside, Schnorr over the transaction and X.509 over the proof. The X.509
  verdict depends on the output, the parsed proof and the verification time.
- `p2cClaimChallenge`: what a proof must carry as ClientHello.random.
- `scriptCheck`: none for success, else the failure with the data its text prints.
-/
import ConnectCoin.P2C.Parser

namespace ConnectCoin

open Lib P2C

section
variable [Crypto]

/-! ## Pay-to-connect rules -/

/-- `IsSupportedP2CRootCertificatesVersion` -/
def isSupportedP2CRootCertificatesVersion (version : UInt32) : Bool := version == 1

/-- `IsCanonicalP2COutput` -/
def isCanonicalP2COutput (output : CTxOut) : Bool :=
  if output.type ≠ .PAY_TO_CONNECT then false
  else match output.getPayToDomain with
    | some p2c => isSupportedP2CRootCertificatesVersion p2c.rootCertificatesVersion
    | none => false

/-- "ConnectCoin/P2C/claim/v1" -/
def claimTag : Bytes := "ConnectCoin/P2C/claim/v1".toUTF8.toList

/-- what the claim challenge hashes: the txid, then the input index -/
def claimMessage (spendingTx : CTransaction) (inputIndex : UInt32) : Bytes :=
  spendingTx.getHash.bytes ++ leBytes 4 inputIndex.toNat

/-- `P2CClaimChallenge` -/
def p2cClaimChallenge (spendingTx : CTransaction) (inputIndex : UInt32) : Uint256 :=
  taggedHash claimTag (claimMessage spendingTx inputIndex)

/-- `P2CMeetsWorkTarget` -/
def p2cMeetsWorkTarget (connectionWorkHash target : Uint256) : Bool := connectionWorkHash.toNat ≤ target.toNat

/-! ## The check -/

/-- the verifiers taken from outside -/
structure ScriptEnv where
  /-- `CheckSchnorrSignature` for (all spent outputs, transaction, input, signature, key) -/
  checkSchnorrSignature : List CTxOut → CTransaction → UInt32 → Bytes → Uint256 → Bool
  /-- `VerifyP2CCertificateProof` for (output, proof, verification time) -/
  verifyP2CCertificateProof : CTxOut → P2CTlsProofView → Int64 → Except String Unit

inductive ScriptError where
  | UNKNOWN_ERROR
  | EVAL_FALSE
  deriving DecidableEq, Repr

/-- a failed check: the script error and what its debug text prints -/
structure ScriptFailure where
  error : ScriptError
  nIn : UInt32
  txid : Uint256
  wtxid : Uint256
  prevout : COutPoint
  p2cError : String
  deriving DecidableEq

/-- the P2PK branch -/
def checkP2PK (env : ScriptEnv) (spent : List CTxOut) (tx : CTransaction) (nIn : UInt32) (txin : CTxIn)
    (pubkey : Uint256) : Bool :=
  match txin.scriptWitness with
  | [signature] =>
    txin.scriptSig.isEmpty && signature.length == 64 && env.checkSchnorrSignature spent tx nIn signature pubkey
  | _ => false

/-- parse, work, certificates; a failure that left no text is reported as missing work -/
def checkP2CProof (env : ScriptEnv) (out : CTxOut) (tx : CTransaction) (nIn : UInt32) (p2c : PayToDomainOutput)
    (validationTime : Int64) (encodedProof : Bytes) : Except String Unit :=
  let verdict : Except String Unit := do
    let proof ← parseP2CTlsProof encodedProof p2c.domain (p2cClaimChallenge tx nIn)
    if p2cMeetsWorkTarget proof.connectionWorkHash p2c.connectionWorkTarget then
      env.verifyP2CCertificateProof out proof validationTime
    else .error ""
  verdict.mapError fun e => if e.isEmpty then "P2C connection work hash exceeds target" else e

/-- the pay-to-connect branch -/
def checkP2C (env : ScriptEnv) (out : CTxOut) (tx : CTransaction) (nIn : UInt32) (txin : CTxIn)
    (p2c : PayToDomainOutput) (validationTime : Int64) : Except String Unit :=
  match txin.scriptWitness with
  | [encodedProof] =>
    if txin.scriptSig.isEmpty && !encodedProof.isEmpty && encodedProof.length ≤ MAX_P2C_PROOF_SIZE then
      checkP2CProof env out tx nIn p2c validationTime encodedProof
    else .error ""
  | _ => .error ""

/-- `CScriptCheck::operator()` for input nIn of tx, spending out; spent has the outputs that all inputs spend -/
def scriptCheck (env : ScriptEnv) (out : CTxOut) (spent : List CTxOut) (tx : CTransaction) (nIn : UInt32)
    (validationTime : Int64) : Option ScriptFailure :=
  match tx.vin[nIn.toNat]? with
  | none => some ⟨.UNKNOWN_ERROR, nIn, tx.getHash, tx.getWitnessHash, ⟨Uint256.null, NULL_INDEX⟩, ""⟩ -- never asked for
  | some txin =>
    let failure (p2cError : String) : Option ScriptFailure :=
      some ⟨.EVAL_FALSE, nIn, tx.getHash, tx.getWitnessHash, txin.prevout, p2cError⟩
    match out.getP2PKPubKey with
    | some pubkey => if checkP2PK env spent tx nIn txin pubkey then none else failure ""
    | none =>
      if isCanonicalP2COutput out then
        match out.getPayToDomain with
        | none => failure ""
        | some p2c =>
          match checkP2C env out tx nIn txin p2c validationTime with
          | .ok _ => none
          | .error p2cError => failure p2cError
      else failure ""

/-! ## When an input passes -/

variable {out : CTxOut} {spent : List CTxOut} {tx : CTransaction} {env : ScriptEnv} {nIn : UInt32} {time : Int64}
  {p2c : PayToDomainOutput}

theorem checkP2CProof_ok {proof : Bytes} {u : Unit} : checkP2CProof env out tx nIn p2c time proof = .ok u ↔
      ∃ v, parseP2CTlsProof proof p2c.domain (p2cClaimChallenge tx nIn) = .ok v ∧
        p2cMeetsWorkTarget v.connectionWorkHash p2c.connectionWorkTarget = true ∧
        env.verifyP2CCertificateProof out v time = .ok u := by
  unfold checkP2CProof
  cases parseP2CTlsProof proof p2c.domain (p2cClaimChallenge tx nIn) with
  | error e => simp [bind, Except.bind, Except.mapError]
  | ok v =>
    simp only [bind, Except.bind, Except.ok.injEq, exists_eq_left']
    split_ifs with hw
    · cases env.verifyP2CCertificateProof out v time with
      | error e => simp [Except.mapError]
      | ok u' => simp [Except.mapError, hw]
    · simp [Except.mapError, hw]

/-- Input nIn of tx spends a pay-to-connect output with this proof: nothing but one witness item, made for the output's
domain and for this transaction and input, with enough work and a chain that verifies. -/
structure P2CSpend (env : ScriptEnv) (out : CTxOut) (tx : CTransaction) (nIn : UInt32) (time : Int64) (proof : Bytes) :
    Prop where
  input : ∃ txin, tx.vin[nIn.toNat]? = some txin ∧ txin.scriptSig = [] ∧ txin.scriptWitness = [proof]
  verified : ∃ p2c v, out.getPayToDomain = some p2c ∧
    isSupportedP2CRootCertificatesVersion p2c.rootCertificatesVersion = true ∧
    parseP2CTlsProof proof p2c.domain (p2cClaimChallenge tx nIn) = .ok v ∧
    p2cMeetsWorkTarget v.connectionWorkHash p2c.connectionWorkTarget = true ∧
    env.verifyP2CCertificateProof out v time = .ok ()
  proof_ne : proof ≠ []
  proof_size : proof.length ≤ MAX_P2C_PROOF_SIZE

theorem checkP2C_ok {txin : CTxIn} {u : Unit} : checkP2C env out tx nIn txin p2c time = .ok u ↔
      ∃ proof, txin.scriptWitness = [proof] ∧ (txin.scriptSig = [] ∧ proof ≠ [] ∧ proof.length ≤ MAX_P2C_PROOF_SIZE) ∧
        checkP2CProof env out tx nIn p2c time proof = .ok u := by
  unfold checkP2C
  split
  · next proof hw =>
    have hcond : (txin.scriptSig.isEmpty && !proof.isEmpty && decide (proof.length ≤ MAX_P2C_PROOF_SIZE)) = true ↔
        txin.scriptSig = [] ∧ proof ≠ [] ∧ proof.length ≤ MAX_P2C_PROOF_SIZE := by
      simp [List.isEmpty_iff, and_assoc]
    constructor
    · intro h
      split_ifs at h with hc
      exact ⟨proof, hw, hcond.1 hc, h⟩
    · rintro ⟨proof', hw', hc, h⟩
      obtain rfl : proof = proof' := (List.cons.inj (hw.symm.trans hw')).1
      rw [if_pos (hcond.2 hc), h]
  · next hw =>
    constructor
    · intro h
      cases h
    · rintro ⟨proof, hp, -⟩
      exact absurd hp (hw proof)

/-- A pay-to-connect input passes iff it is a spend by some proof. -/
theorem scriptCheck_p2c (htype : out.type = .PAY_TO_CONNECT) :
    scriptCheck env out spent tx nIn time = none ↔ ∃ proof, P2CSpend env out tx nIn time proof := by
  have hkey : out.getP2PKPubKey = none := by simp [CTxOut.getP2PKPubKey, htype]
  unfold scriptCheck
  constructor
  · intro h
    cases hin : tx.vin[nIn.toNat]? with
    | none => simp [hin] at h
    | some txin =>
      simp only [hin, hkey] at h
      split_ifs at h with hcanon
      cases hp : out.getPayToDomain with
      | none => simp [hp] at h
      | some p2c =>
        simp only [hp] at h
        cases hc : checkP2C env out tx nIn txin p2c time with
        | error e => simp [hc] at h
        | ok u =>
          obtain ⟨proof, hw, ⟨hsig, hne, hsize⟩, hproof⟩ := checkP2C_ok.1 hc
          obtain ⟨v, hv⟩ := checkP2CProof_ok.1 hproof
          have hroot : isSupportedP2CRootCertificatesVersion p2c.rootCertificatesVersion = true := by
            simpa [isCanonicalP2COutput, htype, hp] using hcanon
          exact ⟨proof, ⟨txin, hin, hsig, hw⟩, ⟨p2c, v, hp, hroot, hv⟩, hne, hsize⟩
  · rintro ⟨proof, ⟨txin, hin, hsig, hw⟩, ⟨p2c, v, hp, hroot, hv⟩, hne, hsize⟩
    have hcanon : isCanonicalP2COutput out = true := by simp [isCanonicalP2COutput, htype, hp, hroot]
    have hok : checkP2C env out tx nIn txin p2c time = .ok () :=
      checkP2C_ok.2 ⟨proof, hw, ⟨hsig, hne, hsize⟩, checkP2CProof_ok.2 ⟨v, hv⟩⟩
    simp only [hin, hkey, hcanon, hp, hok, if_true]

/-- Only pay-to-connect outputs are checked against the time. -/
theorem scriptCheck_time (env : ScriptEnv) (hout : out.type ≠ .PAY_TO_CONNECT) (spent : List CTxOut) (tx : CTransaction)
    (nIn : UInt32) (time time' : Int64) :
    scriptCheck env out spent tx nIn time = scriptCheck env out spent tx nIn time' := by
  have hcanon : isCanonicalP2COutput out = false := by simp [isCanonicalP2COutput, hout]
  unfold scriptCheck
  simp only [hcanon, Bool.false_eq_true, if_false]

/-- What else passes is a P2PK output, by one 64-byte signature. -/
theorem scriptCheck_p2pk (htype : out.type ≠ .PAY_TO_CONNECT) (h : scriptCheck env out spent tx nIn time = none) :
    ∃ txin signature, tx.vin[nIn.toNat]? = some txin ∧ txin.scriptWitness = [signature] ∧ signature.length = 64 := by
  have hcanon : isCanonicalP2COutput out = false := by simp [isCanonicalP2COutput, htype]
  unfold scriptCheck at h
  cases hin : tx.vin[nIn.toNat]? with
  | none => simp [hin] at h
  | some txin =>
    simp only [hin, hcanon, Bool.false_eq_true, if_false] at h
    cases hkey : out.getP2PKPubKey with
    | none => simp [hkey] at h
    | some pubkey =>
      simp only [hkey] at h
      split_ifs at h with hsig
      unfold checkP2PK at hsig
      split at hsig
      · next signature hw =>
        simp only [Bool.and_eq_true, beq_iff_eq] at hsig
        exact ⟨txin, signature, rfl, hw, hsig.1.2⟩
      · cases hsig

end

end ConnectCoin
