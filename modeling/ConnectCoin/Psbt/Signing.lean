/-
Signature data of a PSBT input and its check (`script/sign.cpp`, `script/interpreter.cpp`, for outputs of type P2PK).

- `PrecomputedTransactionData`, `signatureHashSchnorr`: the signature hash of a key path spend without annex.
- `SigningEnv`: Schnorr verification, and what only scripts look into. `makeKeypathSig` is the signing provider with the
  MuSig2 code, `satisfy` the miniscript satisfier, `verifyScriptPath` the interpreter on a witness of two elements or
  more. They are arbitrary functions.
- `verifyScript`: `VerifyScript` with an empty scriptSig on the script of a P2PK output, which is a witness program of
  version 1.
- `signTaproot`, `produceSignature`: `ProduceSignature` on such a script; a complete signature data is not looked at
  again.
Results:
- `produceSignature_incomplete`: a signature data that is completed here has passed `verifyScript`.
-/
import ConnectCoin.Consensus.TxOutObject
import ConnectCoin.Consensus.TxCode

namespace ConnectCoin.Psbt

open Lib

section
variable [Crypto]

/-! ## The signature hash -/

structure PrecomputedTransactionData where
  prevoutsSingleHash : Uint256
  sequencesSingleHash : Uint256
  outputsSingleHash : Uint256
  /-- empty: not ready -/
  spentOutputs : List CTxOut
  spentAmountsSingleHash : Uint256
  spentScriptsSingleHash : Uint256

/-- `PrecomputedTransactionData::Init`, forced; it throws where an output does not serialize -/
def PrecomputedTransactionData.init (txTo : CMutableTransaction) (spentOutputs : List CTxOut) :
    Except String PrecomputedTransactionData := do
  let outputs ← txTo.vout.mapM CTxOut.serializeOrThrow
  let scripts ← spentOutputs.mapM CTxOut.serializePayload
  return {
    prevoutsSingleHash := Crypto.sha256 (txTo.vin.flatMap fun i => i.prevout.serialize)
    sequencesSingleHash := Crypto.sha256 (txTo.vin.flatMap fun i => leBytes 4 i.nSequence.toNat)
    outputsSingleHash := Crypto.sha256 outputs.flatten
    spentOutputs
    spentAmountsSingleHash := Crypto.sha256 (spentOutputs.flatMap fun o => leBytes 8 o.nValue.toUInt64.toNat)
    spentScriptsSingleHash := Crypto.sha256 scripts.flatten }

def SIGHASH_DEFAULT : UInt8 := 0
def SIGHASH_ALL : UInt8 := 1
def SIGHASH_SINGLE : UInt8 := 3
def SIGHASH_ANYONECANPAY : UInt8 := 0x80
def SIGHASH_OUTPUT_MASK : UInt8 := 3
def SIGHASH_INPUT_MASK : UInt8 := 0x80

/-- `SignatureHashSchnorr`, key path and no annex; nothing where data is missing -/
def signatureHashSchnorr (txTo : CMutableTransaction) (inPos : ℕ) (hashType : UInt8)
    (cache : PrecomputedTransactionData) : Option Uint256 :=
  let outputType := if hashType = SIGHASH_DEFAULT then SIGHASH_ALL else hashType &&& SIGHASH_OUTPUT_MASK
  let inputType := hashType &&& SIGHASH_INPUT_MASK
  if cache.spentOutputs.isEmpty then none
  else if !(hashType ≤ 0x03 || (hashType ≥ 0x81 && hashType ≤ 0x83)) then none
  else do
    let txin ← txTo.vin[inPos]?
    let spent ← cache.spentOutputs[inPos]?
    let single ← if outputType = SIGHASH_SINGLE then
      txTo.vout[inPos]?.map fun o => (Crypto.sha256 o.serialize).bytes else some []
    return taggedHash "TapSighash".toUTF8.toList (0 :: hashType :: (
      leBytes 4 txTo.version.toNat ++ leBytes 4 txTo.nLockTime.toNat ++ (if inputType ≠ SIGHASH_ANYONECANPAY then
        cache.prevoutsSingleHash.bytes ++ cache.spentAmountsSingleHash.bytes ++ cache.spentScriptsSingleHash.bytes ++
          cache.sequencesSingleHash.bytes else []) ++
      (if outputType = SIGHASH_ALL then cache.outputsSingleHash.bytes else []) ++ [0] ++
      (if inputType = SIGHASH_ANYONECANPAY then txin.prevout.serialize ++ spent.serialize ++
        leBytes 4 txin.nSequence.toNat else leBytes 4 inPos) ++ single))

/-! ## The checker -/

/-- what a signature of an input is about -/
structure SignatureContext where
  txTo : CMutableTransaction
  nIn : ℕ
  amount : Int64
  txdata : PrecomputedTransactionData

/-- scripts with their leaf versions, each with its control blocks, the smallest one first -/
abbrev TapScripts := List ((Bytes × ℤ) × Bytes × List Bytes)

/-- signatures by key and leaf hash -/
abbrev TapScriptSigs := List ((Uint256 × Uint256) × Bytes)

/-- the key that is signed with: the internal one of the signature data, or the output's -/
inductive KeyPath where
  | internal
  | output (pubkey : Uint256)

structure SigningEnv (τ : Type) where
  empty : τ
  verifySchnorrSignature : Bytes → Uint256 → Uint256 → Bool
  /-- `VerifyScript` with a witness of two elements or more, on a script -/
  verifyScriptPath : Bytes → List Bytes → SignatureContext → Bool
  /-- the lambda `make_keypath_sig` -/
  makeKeypathSig : KeyPath → SignatureContext → τ → Option Bytes × τ
  /-- a miniscript satisfaction, on the signatures there are -/
  satisfy : Bytes → SignatureContext → TapScriptSigs → τ → Option (List Bytes) × TapScriptSigs × τ
  /-- what `FromSignatureData` adds to the other fields of an input -/
  inserted : τ → τ → τ
  /-- without key paths, redeem script and witness script -/
  cleared : τ → τ

variable {τ : Type}

/-- `CastToBool` -/
def castToBool (value : Bytes) : Bool :=
  value.dropLast.any (· != 0) || (match value.getLast? with
    | some byte => byte != 0 && byte != 0x80
    | none => false)

variable (E : SigningEnv τ)

/-- `CheckSchnorrSignature` of the checker, key path -/
def checkSchnorrSignature (ctx : SignatureContext) (sig : Bytes) (pubkey : Uint256) : Bool :=
  let verify (hashType : UInt8) : Bool := match signatureHashSchnorr ctx.txTo ctx.nIn hashType ctx.txdata with
    | some sighash => E.verifySchnorrSignature (sig.take 64) pubkey sighash
    | none => false
  if sig.length = 64 then verify SIGHASH_DEFAULT
  else if sig.length = 65 then
    match sig.getLast? with
    | some hashType => hashType != SIGHASH_DEFAULT && verify hashType
    | none => false
  else false

/-- `VerifyScript` under an empty scriptSig, for the script of a key. The script pushes 1 and the key, which have to
leave true, and is a witness program of version 1. -/
def verifyScript (pubkey : Uint256) (witness : List Bytes) (ctx : SignatureContext) : Bool :=
  castToBool pubkey.bytes && match witness with
    | [] => false
    | [sig] => checkSchnorrSignature E ctx sig pubkey
    | stack => E.verifyScriptPath (p2pkView pubkey) stack ctx

/-! ## Signing -/

structure SignatureData (τ : Type) where
  complete : Bool := false
  witness : Bool := false
  scriptSig : Bytes := []
  scriptWitness : List Bytes := []
  /-- signatures by key hash -/
  signatures : List (Bytes × Bytes) := []
  taprootKeyPathSig : Bytes := []
  taprootScriptSigs : TapScriptSigs := []
  /-- `tr_spenddata.scripts` -/
  scripts : TapScripts := []
  other : τ

def TAPROOT_LEAF_TAPSCRIPT : ℤ := 0xc0

/-- `GetSerializeSize` of a stack -/
def stackSize (stack : List Bytes) : ℕ := (vector byteVector stack).length

/-- the loop over the scripts: the smallest stack that satisfies one of them -/
def scriptPathLoop (E : SigningEnv τ) (ctx : SignatureContext) :
    TapScripts → SignatureData τ → List Bytes → List Bytes × SignatureData τ
  | [], sigdata, smallest => (smallest, sigdata)
  | ((script, leafVersion), control, _) :: scripts, sigdata, smallest =>
    if leafVersion ≠ TAPROOT_LEAF_TAPSCRIPT then scriptPathLoop E ctx scripts sigdata smallest
    else match E.satisfy script ctx sigdata.taprootScriptSigs sigdata.other with
      | (none, taprootScriptSigs, other) =>
        scriptPathLoop E ctx scripts { sigdata with taprootScriptSigs, other } smallest
      | (some stack, taprootScriptSigs, other) =>
        let resultStack := stack ++ [script, control]
        scriptPathLoop E ctx scripts { sigdata with taprootScriptSigs, other }
          (if smallest.isEmpty || stackSize resultStack < stackSize smallest then resultStack else smallest)

/-- one try of the key path, where there is no signature yet -/
def tryKeyPath (ctx : SignatureContext) (key : KeyPath) (sigdata : SignatureData τ) : SignatureData τ :=
  if sigdata.taprootKeyPathSig.isEmpty then
    match E.makeKeypathSig key ctx sigdata.other with
    | (some taprootKeyPathSig, other) => { sigdata with taprootKeyPathSig, other }
    | (none, other) => { sigdata with other }
  else sigdata

/-- `SignTaproot`: the stack it has solved the output with -/
def signTaproot (ctx : SignatureContext) (pubkey : Uint256) (sigdata : SignatureData τ) :
    Option (List Bytes) × SignatureData τ :=
  let sigdata := tryKeyPath E ctx (.output pubkey) (tryKeyPath E ctx .internal sigdata)
  if !sigdata.taprootKeyPathSig.isEmpty then (some [sigdata.taprootKeyPathSig], sigdata)
  else match scriptPathLoop E ctx sigdata.scripts sigdata [] with
    | ([], sigdata) => (none, sigdata)
    | (stack, sigdata) => (some stack, sigdata)

/-- `ProduceSignature` on the script of a key -/
def produceSignature (ctx : SignatureContext) (pubkey : Uint256) (sigdata : SignatureData τ) : Bool × SignatureData τ :=
  if sigdata.complete then (true, sigdata)
  else match signTaproot E ctx pubkey sigdata with
    | (none, sigdata) => (false, { sigdata with witness := true, scriptSig := [], complete := false })
    | (some scriptWitness, sigdata) =>
      let complete := verifyScript E pubkey scriptWitness ctx
      (complete, { sigdata with witness := true, scriptWitness, scriptSig := [], complete })

/-- A signature data that is completed here has passed the check; one that was complete before comes back as it is. -/
theorem produceSignature_incomplete (E : SigningEnv τ) (ctx : SignatureContext) (pubkey : Uint256)
    {sigdata : SignatureData τ} (h : sigdata.complete = false) :
    (produceSignature E ctx pubkey sigdata).1 = (produceSignature E ctx pubkey sigdata).2.complete ∧
    (produceSignature E ctx pubkey sigdata).2.witness = true ∧
    (produceSignature E ctx pubkey sigdata).2.scriptSig = [] ∧
    (∀ stack, (signTaproot E ctx pubkey sigdata).1 = some stack →
      (produceSignature E ctx pubkey sigdata).2.scriptWitness = stack) ∧
    ((produceSignature E ctx pubkey sigdata).2.complete = true ↔
      ∃ stack, (signTaproot E ctx pubkey sigdata).1 = some stack ∧ verifyScript E pubkey stack ctx = true) := by
  unfold produceSignature
  rw [if_neg (by simp [h])]
  rcases hsign : signTaproot E ctx pubkey sigdata with ⟨_ | stack, after⟩
  · simp
  · simp

end

end ConnectCoin.Psbt
