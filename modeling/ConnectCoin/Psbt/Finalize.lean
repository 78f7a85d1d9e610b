/-
Finalizing a PSBT (`psbt.cpp`).

- `PSBTInput`, `PartiallySignedTransaction`: the fields that signing and finalizing read; what `FillSignatureData` only
  hands on is a value of type τ.
- `getUnsignedTx`, `precomputePSBTData`: the transaction and what its signatures commit to. None of it looks at a field
  that signing changes.
- `psbtInputSignedAndVerified`, `signPSBTInput`, `finalizePSBT`, `finalizeAndExtractPSBT`: the functions of the source.
  The signature creator is never the dummy one, since finalizing always has the precomputed data.
Results:
- `turned_turn`: an input is signed where it was verified already, where a key path signature was completed and
  verified, or where a final witness of the right shape was there before and the output comes from a whole transaction
  (`Unverified`);
- `loop_all`: finalizing signs every input of the PSBT as it came;
- `finalized_signed_iff`: what is extracted is really signed, except where there is an `Unverified` input and every
  input finalizes; `zeroSigned_extracted`: zero bytes for a signature are extracted.
-/
import ConnectCoin.Psbt.Signing

namespace ConnectCoin.Psbt

open Lib List Option

section
variable [Crypto] {τ : Type}

/-! ## The PSBT -/

structure PSBTInput (τ : Type) where
  nonWitnessUtxo : Option CTransaction
  witnessUtxo : CTxOut
  finalScriptSig : Bytes
  finalScriptWitness : List Bytes
  partialSigs : List (Bytes × Bytes)
  prevTxid : Uint256
  prevOut : UInt32
  sequence : Option UInt32
  timeLocktime : Option UInt32
  heightLocktime : Option UInt32
  tapKeySig : Bytes
  tapScriptSigs : TapScriptSigs
  tapScripts : TapScripts
  sighashType : Option ℤ
  other : τ

structure PSBTOutput where
  amount : Int64
  script : Bytes

structure PartiallySignedTransaction (τ : Type) where
  version : ℕ
  txVersion : UInt32
  fallbackLocktime : Option UInt32
  inputs : List (PSBTInput τ)
  outputs : List PSBTOutput

/-- `GetUTXO`: from the whole transaction where there is one -/
def PSBTInput.getUTXO (input : PSBTInput τ) : Option CTxOut :=
  match input.nonWitnessUtxo with
  | some tx => if tx.getHash ≠ input.prevTxid then none else tx.vout[input.prevOut.toNat]?
  | none => if input.witnessUtxo.isNull then none else some input.witnessUtxo

def PSBTInput.getOutPoint (input : PSBTInput τ) : COutPoint := ⟨input.prevTxid, input.prevOut⟩

/-! ## The unsigned transaction -/

/-- the loop of `ComputeTimeLock`: the time lock and the height lock, or nothing where neither is possible -/
def lockLoop : List (PSBTInput τ) → Option UInt32 → Option UInt32 → Option (Option UInt32 × Option UInt32)
  | [], timeLock, heightLock => some (timeLock, heightLock)
  | input :: inputs, timeLock, heightLock =>
    match input.timeLocktime, input.heightLocktime with
    | some time, none => timeLock.bind fun timeLock => lockLoop inputs (some (max timeLock time)) none
    | none, some height => heightLock.bind fun heightLock => lockLoop inputs none (some (max heightLock height))
    | some time, some height => lockLoop inputs (timeLock.map (max · time)) (heightLock.map (max · height))
    | none, none => lockLoop inputs timeLock heightLock

variable (psbt : PartiallySignedTransaction τ)

/-- `ComputeTimeLock` -/
def computeTimeLock : Option UInt32 :=
  if psbt.version ≥ 2 then
    (lockLoop psbt.inputs (some 0) (some 0)).map fun (timeLock, heightLock) =>
      if heightLock.getD 0 > 0 then heightLock.getD 0
      else if timeLock.getD 0 > 0 then timeLock.getD 0
      else psbt.fallbackLocktime.getD 0
  else some (psbt.fallbackLocktime.getD 0)

/-- `GetUnsignedTx` -/
def getUnsignedTx : Option CMutableTransaction :=
  (computeTimeLock psbt).map fun nLockTime =>
    { vin := psbt.inputs.map fun input => ⟨input.getOutPoint, [], input.sequence.getD SEQUENCE_FINAL, []⟩
      vout := psbt.outputs.map fun output => CTxOut.ofScript output.amount output.script
      version := psbt.txVersion
      nLockTime }

/-- `PSBTHasValidTypedOutputs` -/
def psbtHasValidTypedOutputs : Bool :=
  match getUnsignedTx psbt with
  | none => false
  | some tx => !tx.vout.isEmpty && tx.vout.all fun output =>
    moneyRange output.value && ((output.type == .P2PK && output.getP2PKPubKey.isSome) || isCanonicalP2COutput output)

/-- `PrecomputePSBTData` -/
def precomputePSBTData : Except String (Option PrecomputedTransactionData) :=
  match getUnsignedTx psbt with
  | none => .ok none
  | some tx => (PrecomputedTransactionData.init tx ((psbt.inputs.mapM PSBTInput.getUTXO).getD [])).map some

/-! ## The check of an input -/

def isDefaultSighash (sighashType : Option ℤ) : Bool := sighashType.getD 0 == 0

/-- the recorded output's key -/
def PSBTInput.p2pkUtxo (input : PSBTInput τ) : Option (CTxOut × Uint256) :=
  input.getUTXO.bind fun utxo => utxo.getP2PKPubKey.map fun pubkey => (utxo, pubkey)

variable (E : SigningEnv τ) (tx : CMutableTransaction) (txdata : PrecomputedTransactionData)

/-- `PSBTInputSignedAndVerified`, on an input -/
def inputSignedAndVerified (index : ℕ) (input : PSBTInput τ) : Bool :=
  match input.finalScriptSig, input.finalScriptWitness with
  | [], [sig] => sig.length == 64 && isDefaultSighash input.sighashType && (match input.p2pkUtxo with
    | some (utxo, pubkey) => verifyScript E pubkey [sig] ⟨tx, index, utxo.nValue, txdata⟩
    | none => false)
  | _, _ => false

/-- `PSBTInputSignedAndVerified` -/
def psbtInputSignedAndVerified (psbt : PartiallySignedTransaction τ) (index : ℕ) (txdata : PrecomputedTransactionData) :
    Bool :=
  match psbt.inputs[index]?, getUnsignedTx psbt with
  | some input, some tx => psbtHasValidTypedOutputs psbt && inputSignedAndVerified E tx txdata index input
  | _, _ => false

/-! ## Signing an input -/

inductive PSBTError where
  | MISSING_INPUTS
  | SIGHASH_MISMATCH
  | UNSUPPORTED
  | INCOMPLETE
  | INVALID_TX
  deriving DecidableEq, Repr

/-- a signature data is complete with any final field there is -/
def PSBTInput.fillSignatureData (input : PSBTInput τ) : SignatureData τ :=
  if !input.finalScriptSig.isEmpty || !input.finalScriptWitness.isEmpty then
    { complete := true, scriptSig := input.finalScriptSig, scriptWitness := input.finalScriptWitness, other := E.empty }
  else
    { signatures := input.partialSigs
      taprootKeyPathSig := input.tapKeySig
      taprootScriptSigs := input.tapScriptSigs
      scripts := input.tapScripts
      other := input.other }

/-- the entries of a map, and those of another one under new keys -/
def emplaceAll {κ ν : Type} [DecidableEq κ] (entries new : List (κ × ν)) : List (κ × ν) :=
  entries ++ new.filter fun entry => !entries.any fun old => old.1 = entry.1

def PSBTInput.fromSignatureData (sigdata : SignatureData τ) (input : PSBTInput τ) : PSBTInput τ :=
  if sigdata.complete then
    { input with
      partialSigs := []
      other := E.cleared input.other
      finalScriptSig := if sigdata.scriptSig.isEmpty then input.finalScriptSig else sigdata.scriptSig
      finalScriptWitness := if sigdata.scriptWitness.isEmpty then input.finalScriptWitness else sigdata.scriptWitness }
  else
    { input with
      partialSigs := emplaceAll input.partialSigs sigdata.signatures
      tapKeySig := if sigdata.taprootKeyPathSig.isEmpty then input.tapKeySig else sigdata.taprootKeyPathSig
      tapScriptSigs := emplaceAll input.tapScriptSigs sigdata.taprootScriptSigs
      tapScripts := emplaceAll input.tapScripts sigdata.scripts
      other := E.inserted input.other sigdata.other }

structure PSBTFillOptions where
  sighashType : Option ℤ
  finalize : Bool

/-- one element of 64 bytes and nothing else -/
def keyPathShape (scriptSig : Bytes) (scriptWitness : List Bytes) : Bool :=
  scriptSig.isEmpty && (match scriptWitness with
    | [sig] => sig.length == 64
    | _ => false)

/-- the checks of `SignPSBTInput` on an input: the output it spends, with its key -/
def checkSignable (options : PSBTFillOptions) (input : PSBTInput τ) : Except PSBTError (CTxOut × Uint256) :=
  match input.getUTXO with
  | none => .error .MISSING_INPUTS
  | some utxo =>
    match utxo.getP2PKPubKey with
    | none => .error .UNSUPPORTED
    | some pubkey =>
      if !isDefaultSighash options.sighashType || !isDefaultSighash input.sighashType then .error .SIGHASH_MISMATCH
      else if !input.tapKeySig.isEmpty && input.tapKeySig.length != 64 then .error .SIGHASH_MISMATCH
      else if !input.tapScriptSigs.isEmpty || !input.partialSigs.isEmpty then .error .UNSUPPORTED
      else .ok (utxo, pubkey)

/-- `SignPSBTInput`, for an input that is not verified yet -/
def signInput (index : ℕ) (options : PSBTFillOptions) (input : PSBTInput τ) : Except PSBTError Unit × PSBTInput τ :=
  match checkSignable options input with
  | .error e => (.error e, input)
  | .ok (utxo, pubkey) =>
    let (sigComplete, sigdata) := produceSignature E ⟨tx, index, utxo.nValue, txdata⟩ pubkey (input.fillSignatureData E)
    if sigdata.complete && !keyPathShape sigdata.scriptSig sigdata.scriptWitness then (.error .UNSUPPORTED, input)
    -- an output that no whole transaction vouches for needs a signature of its amount
    else if input.nonWitnessUtxo.isNone && !sigdata.witness then (.error .INCOMPLETE, input)
    else
      let sigdata := if options.finalize then sigdata else { sigdata with complete := false }
      let input := input.fromSignatureData E sigdata
      (if sigComplete then .ok () else .error .INCOMPLETE,
        if sigdata.witness then { input with witnessUtxo := utxo } else input)

/-- `SignPSBTInput` -/
def signPSBTInput (psbt : PartiallySignedTransaction τ) (index : ℕ) (txdata : PrecomputedTransactionData)
    (options : PSBTFillOptions) : Except PSBTError Unit × PartiallySignedTransaction τ :=
  match psbt.inputs[index]?, getUnsignedTx psbt with
  | some input, some tx =>
    if !psbtHasValidTypedOutputs psbt then (.error .INVALID_TX, psbt)
    else if psbtInputSignedAndVerified E psbt index txdata then (.ok (), psbt)
    else
      let (result, input) := signInput E tx txdata index options input
      (result, { psbt with inputs := psbt.inputs.set index input })
  | _, _ => (.error .INVALID_TX, psbt)

/-! ## Finalizing -/

/-- one turn of the loop of `FinalizePSBT` -/
def finalizeTurn (s : PartiallySignedTransaction τ × Bool) (index : ℕ) : PartiallySignedTransaction τ × Bool :=
  let (result, psbt) := signPSBTInput E s.1 index txdata ⟨(s.1.inputs[index]?).bind PSBTInput.sighashType, true⟩
  (psbt, s.2 && result.isOk)

/-- `FinalizePSBT`: the PSBT after it, and whether it is complete -/
def finalizePSBT (psbt : PartiallySignedTransaction τ) : Except String (PartiallySignedTransaction τ × Bool) :=
  if !psbtHasValidTypedOutputs psbt then .ok (psbt, false)
  else do
    match ← precomputePSBTData psbt with
    | none => return (psbt, false)
    | some txdata => return (List.range psbt.inputs.length).foldl (finalizeTurn E txdata) (psbt, true)

/-- an input of the extracted transaction -/
def finalTxIn (txin : CTxIn) (input : PSBTInput τ) : CTxIn :=
  { txin with scriptSig := input.finalScriptSig, scriptWitness := input.finalScriptWitness }

/-- `FinalizeAndExtractPSBT`: the PSBT after it, and the transaction where it returns true -/
def finalizeAndExtractPSBT (psbt : PartiallySignedTransaction τ) :
    Except String (PartiallySignedTransaction τ × Option CMutableTransaction) := do
  let (psbt, complete) ← finalizePSBT E psbt
  if !complete then return (psbt, none)
  else return (psbt, (getUnsignedTx psbt).map fun tx => { tx with vin := List.zipWith finalTxIn tx.vin psbt.inputs })

/-! ## What a turn does to its input -/

omit [Crypto] in
theorem keyPathShape_iff {scriptSig : Bytes} {scriptWitness : List Bytes} :
    keyPathShape scriptSig scriptWitness = true ↔ scriptSig = [] ∧ ∃ sig, scriptWitness = [sig] ∧ sig.length = 64 := by
  unfold keyPathShape
  rcases scriptWitness with _ | ⟨sig, _ | ⟨next, rest⟩⟩ <;> simp

variable {txdata : PrecomputedTransactionData} {tx : CMutableTransaction} {input : PSBTInput τ} {E : SigningEnv τ}
  {inputs inputs' : List (PSBTInput τ)} {psbt : PartiallySignedTransaction τ} {s : PartiallySignedTransaction τ × Bool}
  {utxo : CTxOut} {pubkey : Uint256} {turns index : ℕ}

theorem inputSignedAndVerified_iff : inputSignedAndVerified E tx txdata index input = true ↔
      keyPathShape input.finalScriptSig input.finalScriptWitness = true ∧ isDefaultSighash input.sighashType = true ∧
      ∃ utxo pubkey, input.getUTXO = some utxo ∧ utxo.getP2PKPubKey = some pubkey ∧
        verifyScript E pubkey input.finalScriptWitness ⟨tx, index, utxo.nValue, txdata⟩ = true := by
  unfold inputSignedAndVerified keyPathShape PSBTInput.p2pkUtxo
  rcases input.finalScriptSig with _ | ⟨byte, bytes⟩
  · rcases input.finalScriptWitness with _ | ⟨sig, _ | ⟨next, rest⟩⟩
    · simp
    · rcases input.getUTXO with _ | utxo
      · simp
      · rcases hkey : utxo.getP2PKPubKey with _ | pubkey
        · simp [hkey]
        · simp [hkey, and_assoc]
    · simp
  · simp

variable (E)

/-- the fields that no signing changes -/
structure SameOutline (input input' : PSBTInput τ) : Prop where
  outPoint : input'.getOutPoint = input.getOutPoint
  sequence : input'.sequence = input.sequence
  timeLocktime : input'.timeLocktime = input.timeLocktime
  heightLocktime : input'.heightLocktime = input.heightLocktime
  utxo : input'.getUTXO = input.getUTXO
  sighashType : input'.sighashType = input.sighashType

theorem SameOutline.refl (input : PSBTInput τ) : SameOutline input input := ⟨rfl, rfl, rfl, rfl, rfl, rfl⟩

theorem SameOutline.fromSignatureData (sigdata : SignatureData τ) (input : PSBTInput τ) :
    SameOutline input (input.fromSignatureData E sigdata) := by
  unfold PSBTInput.fromSignatureData
  split_ifs <;> exact ⟨rfl, rfl, rfl, rfl, rfl, rfl⟩

/-- Recording the output that was found changes nothing about what is found. -/
theorem getUTXO_recorded (h : input.getUTXO = some utxo) :
    PSBTInput.getUTXO { input with witnessUtxo := utxo } = some utxo := by
  unfold PSBTInput.getUTXO at h ⊢
  rcases hwhole : input.nonWitnessUtxo with _ | tx
  · rw [hwhole] at h
    simp only at h ⊢
    split_ifs at h with hnull
    rw [some_inj] at h
    rw [← h, if_neg hnull]
  · rw [hwhole] at h
    exact h

theorem SameOutline.recorded {input' : PSBTInput τ} (h : SameOutline input input')
    (hfound : input.getUTXO = some utxo) : SameOutline input { input' with witnessUtxo := utxo } :=
  { h with utxo := (getUTXO_recorded (h.utxo.trans hfound)).trans hfound.symm }

section
variable (tx : CMutableTransaction) (txdata : PrecomputedTransactionData) (index : ℕ)

/-- the checks before an input is signed -/
structure Signable (input : PSBTInput τ) (utxo : CTxOut) (pubkey : Uint256) : Prop where
  found : input.getUTXO = some utxo
  key : utxo.getP2PKPubKey = some pubkey
  sighash : isDefaultSighash input.sighashType = true
  keySig : input.tapKeySig = [] ∨ input.tapKeySig.length = 64
  tapScriptSigs : input.tapScriptSigs = []
  partialSigs : input.partialSigs = []

/-- a final witness that came with the PSBT, of the right shape, for an output of a whole transaction, that does not
verify -/
structure Unverified (input : PSBTInput τ) : Prop where
  rejected : inputSignedAndVerified E tx txdata index input = false
  shape : keyPathShape input.finalScriptSig input.finalScriptWitness = true
  whole : input.nonWitnessUtxo.isSome = true
  signable : ∃ utxo pubkey, Signable input utxo pubkey

/-- no final field, and a key path signature that verifies -/
structure KeyPathSigned (input : PSBTInput τ) : Prop where
  blank : input.finalScriptSig = [] ∧ input.finalScriptWitness = []
  signed : ∃ utxo pubkey sig, Signable input utxo pubkey ∧ sig.length = 64 ∧
    (signTaproot E ⟨tx, index, utxo.nValue, txdata⟩ pubkey (input.fillSignatureData E)).1 = some [sig] ∧
    verifyScript E pubkey [sig] ⟨tx, index, utxo.nValue, txdata⟩ = true

theorem checkSignable_ok {finalize : Bool} :
    checkSignable ⟨input.sighashType, finalize⟩ input = .ok (utxo, pubkey) ↔ Signable input utxo pubkey := by
  apply Iff.intro
  · intro h
    unfold checkSignable at h
    rcases hutxo : input.getUTXO with _ | utxo'
    · simp [hutxo] at h
    · rcases hkey : utxo'.getP2PKPubKey with _ | pubkey'
      · simp [hutxo, hkey] at h
      · simp only [hutxo, hkey] at h
        split_ifs at h with hsighash hkeySig hother
        cases h
        simp only [Bool.or_self, Bool.not_eq_true', Bool.not_eq_false] at hsighash
        simp only [Bool.and_eq_true, Bool.not_eq_true', isEmpty_eq_false_iff, bne_iff_ne, not_and_or, not_not]
          at hkeySig
        simp only [Bool.or_eq_true, Bool.not_eq_true', isEmpty_eq_false_iff, not_or, not_not] at hother
        exact ⟨hutxo, hkey, hsighash, hkeySig, hother.1, hother.2⟩
  · intro h
    unfold checkSignable
    have hkeySig : ¬ (!input.tapKeySig.isEmpty && input.tapKeySig.length != 64) = true := by
      rcases h.keySig with hnone | hlength
      · simp [hnone]
      · simp [hlength]
    simp only [h.found, h.key, h.sighash, h.tapScriptSigs, h.partialSigs, if_neg hkeySig]
    rfl

/-- an input that is signed to be final -/
abbrev finalSigned (input : PSBTInput τ) : Except PSBTError Unit × PSBTInput τ :=
  signInput E tx txdata index ⟨input.sighashType, true⟩ input

/-- A final field is what the signature data begins with, and the reason why nobody looks at it. -/
theorem signInput_prefilled (hsignable : Signable input utxo pubkey)
    (hfinal : ¬ (input.finalScriptSig = [] ∧ input.finalScriptWitness = [])) :
    ((finalSigned E tx txdata index input).1.isOk = true ↔
      keyPathShape input.finalScriptSig input.finalScriptWitness = true ∧ input.nonWitnessUtxo.isSome = true) ∧
    SameOutline input (finalSigned E tx txdata index input).2 ∧
    (finalSigned E tx txdata index input).2.finalScriptSig = input.finalScriptSig ∧
    (finalSigned E tx txdata index input).2.finalScriptWitness = input.finalScriptWitness := by
  have hfill : input.fillSignatureData E =
      { complete := true, scriptSig := input.finalScriptSig, scriptWitness := input.finalScriptWitness, other := E.empty
      } := by
    refine if_pos ?_
    simp only [Bool.or_eq_true, Bool.not_eq_true', isEmpty_eq_false_iff]
    exact not_and_or.1 hfinal
  simp only [finalSigned, signInput, checkSignable_ok.2 hsignable, hfill, produceSignature, if_true, Bool.true_and,
    Bool.not_false, Bool.and_true]
  by_cases hshape : keyPathShape input.finalScriptSig input.finalScriptWitness = true
  · by_cases hwhole : input.nonWitnessUtxo.isNone = true
    · have hnot : ¬ input.nonWitnessUtxo.isSome = true := by
        rw [isNone_iff_eq_none.1 hwhole]
        exact Bool.false_ne_true
      simp [hshape, hwhole, hnot, SameOutline.refl, Except.isOk, Except.toBool]
    · have hsome : input.nonWitnessUtxo.isSome = true := by
        rw [← not_isSome, Bool.not_eq_true', Bool.not_eq_false] at hwhole
        exact hwhole
      simp only [hshape, hwhole, hsome, Bool.not_true, Bool.false_eq_true, if_false]
      refine ⟨by simp [Except.isOk, Except.toBool], SameOutline.fromSignatureData _ _ _, ?_, ?_⟩
      · simp only [PSBTInput.fromSignatureData, if_true]
        split_ifs <;> rfl
      · simp only [PSBTInput.fromSignatureData, if_true]
        split_ifs <;> rfl
  · simp [hshape, SameOutline.refl, Except.isOk, Except.toBool]

/-- Without a final field an input is signed by a key path signature, and then it is verified. -/
theorem signInput_blank (hsignable : Signable input utxo pubkey)
    (hblank : input.finalScriptSig = [] ∧ input.finalScriptWitness = []) :
    ((finalSigned E tx txdata index input).1.isOk = true ↔ KeyPathSigned E tx txdata index input) ∧
    SameOutline input (finalSigned E tx txdata index input).2 ∧
    ((finalSigned E tx txdata index input).1.isOk = true →
      inputSignedAndVerified E tx txdata index (finalSigned E tx txdata index input).2 = true) := by
  have hincomplete : (input.fillSignatureData E).complete = false := by
    simp [PSBTInput.fillSignatureData, hblank]
  obtain ⟨hresult, hwitness, hscriptSig, hsolved, hcomplete⟩ :=
    produceSignature_incomplete E ⟨tx, index, utxo.nValue, txdata⟩ pubkey hincomplete
  have hsigned : KeyPathSigned E tx txdata index input ↔ ∃ sig, sig.length = 64 ∧
      (signTaproot E ⟨tx, index, utxo.nValue, txdata⟩ pubkey (input.fillSignatureData E)).1 = some [sig] ∧
      verifyScript E pubkey [sig] ⟨tx, index, utxo.nValue, txdata⟩ = true := by
    apply Iff.intro
    · intro h
      obtain ⟨utxo', pubkey', sig, hsignable', hsig⟩ := h.signed
      obtain rfl : utxo = utxo' := some_inj.1 (hsignable.found.symm.trans hsignable'.found)
      obtain rfl : pubkey = pubkey' := some_inj.1 (hsignable.key.symm.trans hsignable'.key)
      exact ⟨sig, hsig⟩
    · rintro ⟨sig, hsig⟩
      exact ⟨hblank, utxo, pubkey, sig, hsignable, hsig⟩
  rw [hsigned]
  simp only [finalSigned, signInput, checkSignable_ok.2 hsignable]
  generalize produceSignature E ⟨tx, index, utxo.nValue, txdata⟩ pubkey (input.fillSignatureData E) = r
    at hresult hwitness hscriptSig hsolved hcomplete
  obtain ⟨sigComplete, sigdata⟩ := r
  simp only at hresult hwitness hscriptSig hsolved hcomplete ⊢
  subst hresult
  simp only [hwitness, hscriptSig, Bool.not_true, Bool.and_false, Bool.false_eq_true, if_false, if_true]
  by_cases hdone : sigdata.complete = true
  · obtain ⟨stack, hstack, hverify⟩ := hcomplete.1 hdone
    obtain rfl := hsolved stack hstack
    by_cases hshape : keyPathShape [] sigdata.scriptWitness = true
    · obtain ⟨-, sig, hsig, hlength⟩ := keyPathShape_iff.1 hshape
      simp only [hdone, hshape, Bool.not_true, Bool.and_false, Bool.false_eq_true, if_false, if_true]
      have hfields : (input.fromSignatureData E sigdata).finalScriptSig = [] ∧
          (input.fromSignatureData E sigdata).finalScriptWitness = sigdata.scriptWitness := by
        simp [PSBTInput.fromSignatureData, hdone, hscriptSig, hsig, hblank.1]
      have houtline := SameOutline.fromSignatureData E sigdata input
      have hrecorded := houtline.recorded hsignable.found
      refine ⟨iff_of_true rfl ⟨sig, hlength, by rw [hstack, hsig], by rw [← hsig]; exact hverify⟩,
        hrecorded, fun _ => ?_⟩
      refine inputSignedAndVerified_iff.2 ⟨?_, ?_, utxo, pubkey, hrecorded.utxo.trans hsignable.found,
        hsignable.key, ?_⟩
      · rw [hfields.1, hfields.2]
        exact hshape
      · rw [houtline.sighashType]
        exact hsignable.sighash
      · rw [hfields.2]
        exact hverify
    · simp only [hdone, hshape, Bool.not_false, Bool.and_self, if_true]
      refine ⟨iff_of_false Bool.false_ne_true fun h => ?_, SameOutline.refl input, fun h => absurd h Bool.false_ne_true⟩
      obtain ⟨sig, hlength, hsig, -⟩ := h
      rw [hstack, some_inj] at hsig
      exact hshape (keyPathShape_iff.2 ⟨rfl, sig, hsig, hlength⟩)
  · simp only [Bool.not_eq_true] at hdone
    simp only [hdone, Bool.false_and, Bool.false_eq_true, if_false]
    refine ⟨iff_of_false Bool.false_ne_true fun h => ?_,
      (SameOutline.fromSignatureData E sigdata input).recorded hsignable.found, fun h => absurd h Bool.false_ne_true⟩
    obtain ⟨sig, -, hsig, hverify⟩ := h
    rw [hcomplete.2 ⟨[sig], hsig, hverify⟩] at hdone
    cases hdone

/-- what the loop makes of an input: whether it is signed then, and the input -/
def turned (input : PSBTInput τ) : Bool × PSBTInput τ :=
  if inputSignedAndVerified E tx txdata index input then (true, input)
  else ((finalSigned E tx txdata index input).1.isOk, (finalSigned E tx txdata index input).2)

/-- everything about a turn -/
structure Turn (input : PSBTInput τ) (signed : Bool) (input' : PSBTInput τ) : Prop where
  outline : SameOutline input input'
  signed_iff : signed = true ↔ inputSignedAndVerified E tx txdata index input = true ∨
    Unverified E tx txdata index input ∨ KeyPathSigned E tx txdata index input
  verified_iff : signed = true →
    (inputSignedAndVerified E tx txdata index input' = true ↔ ¬ Unverified E tx txdata index input)
  shape : signed = true → keyPathShape input'.finalScriptSig input'.finalScriptWitness = true

theorem turned_turn (input : PSBTInput τ) : Turn E tx txdata index input (turned E tx txdata index input).1
    (turned E tx txdata index input).2 := by
  unfold turned
  by_cases hverified : inputSignedAndVerified E tx txdata index input = true
  · rw [if_pos hverified]
    refine ⟨SameOutline.refl input, iff_of_true rfl (Or.inl hverified), fun _ => iff_of_true hverified fun h => ?_,
      fun _ => (inputSignedAndVerified_iff.1 hverified).1⟩
    rw [h.rejected] at hverified
    cases hverified
  · rw [if_neg hverified]
    by_cases hsignable : ∃ utxo pubkey, Signable input utxo pubkey
    · obtain ⟨utxo, pubkey, hsignable⟩ := hsignable
      by_cases hblank : input.finalScriptSig = [] ∧ input.finalScriptWitness = []
      · obtain ⟨hok, houtline, hthen⟩ := signInput_blank E tx txdata index hsignable hblank
        have hnone : ¬ Unverified E tx txdata index input := by
          intro h
          obtain ⟨-, sig, hsig, -⟩ := keyPathShape_iff.1 h.shape
          rw [hblank.2] at hsig
          cases hsig
        refine ⟨houtline, ?_, fun h => iff_of_true (hthen h) hnone, fun h => (inputSignedAndVerified_iff.1 (hthen h)).1⟩
        rw [hok]
        exact ⟨fun h => Or.inr (Or.inr h), fun h => (h.resolve_left hverified).resolve_left hnone⟩
      · obtain ⟨hok, houtline, hsig, hwitness⟩ := signInput_prefilled E tx txdata index hsignable hblank
        have hnone : ¬ KeyPathSigned E tx txdata index input := fun h => hblank h.blank
        have hunverified : Unverified E tx txdata index input ↔
            keyPathShape input.finalScriptSig input.finalScriptWitness = true ∧ input.nonWitnessUtxo.isSome = true :=
          ⟨fun h => ⟨h.shape, h.whole⟩, fun h => ⟨Bool.eq_false_iff.2 hverified, h.1, h.2, utxo, pubkey, hsignable⟩⟩
        refine ⟨houtline, ?_, fun h => ?_, fun h => ?_⟩
        · rw [hok, ← hunverified]
          exact ⟨fun h => Or.inr (Or.inl h), fun h => (h.resolve_left hverified).resolve_right hnone⟩
        · rw [inputSignedAndVerified_iff, hsig, hwitness, houtline.sighashType, houtline.utxo,
            ← inputSignedAndVerified_iff]
          exact iff_of_false hverified (not_not.2 (hunverified.2 (hok.1 h)))
        · rw [hsig, hwitness]
          exact (hok.1 h).1
    · have herror : ∃ e, checkSignable ⟨input.sighashType, true⟩ input = .error e := by
        rcases hcheck : checkSignable ⟨input.sighashType, true⟩ input with e | ⟨utxo, pubkey⟩
        · exact ⟨e, rfl⟩
        · exact absurd ⟨utxo, pubkey, checkSignable_ok.1 hcheck⟩ hsignable
      obtain ⟨e, he⟩ := herror
      have hsigned : finalSigned E tx txdata index input = (.error e, input) := by
        simp only [finalSigned, signInput, he]
      rw [hsigned]
      refine ⟨SameOutline.refl input, iff_of_false Bool.false_ne_true fun h => ?_, fun h => absurd h Bool.false_ne_true,
        fun h => absurd h Bool.false_ne_true⟩
      rcases h with h | h | h
      · exact hverified h
      · exact hsignable h.signable
      · obtain ⟨utxo, pubkey, -, h, -⟩ := h.signed
        exact hsignable ⟨utxo, pubkey, h⟩

end

/-! ## The loop -/

/-- two PSBTs that differ in what signing changes -/
structure SameTransaction (psbt psbt' : PartiallySignedTransaction τ) : Prop where
  version : psbt'.version = psbt.version
  txVersion : psbt'.txVersion = psbt.txVersion
  fallbackLocktime : psbt'.fallbackLocktime = psbt.fallbackLocktime
  outputs : psbt'.outputs = psbt.outputs
  inputs : List.Forall₂ SameOutline psbt.inputs psbt'.inputs

theorem lockLoop_outline (h : List.Forall₂ SameOutline inputs inputs') :
    ∀ timeLock heightLock, lockLoop inputs' timeLock heightLock = lockLoop inputs timeLock heightLock := by
  induction h with
  | nil =>
    intro timeLock heightLock
    rfl
  | cons hinput _ ih =>
    intro timeLock heightLock
    simp only [lockLoop, hinput.timeLocktime, hinput.heightLocktime, ih]

theorem txIns_outline (h : List.Forall₂ SameOutline inputs inputs') :
    inputs'.map (fun input => (⟨input.getOutPoint, [], input.sequence.getD SEQUENCE_FINAL, []⟩ : CTxIn)) =
      inputs.map fun input => ⟨input.getOutPoint, [], input.sequence.getD SEQUENCE_FINAL, []⟩ := by
  induction h with
  | nil => rfl
  | cons hinput _ ih => rw [map_cons, map_cons, ih, hinput.outPoint, hinput.sequence]

theorem utxos_outline (h : List.Forall₂ SameOutline inputs inputs') :
    inputs'.mapM PSBTInput.getUTXO = inputs.mapM PSBTInput.getUTXO := by
  induction h with
  | nil => rfl
  | cons hinput _ ih => rw [mapM_cons, mapM_cons, ih, hinput.utxo]

theorem SameTransaction.getUnsignedTx {psbt psbt' : PartiallySignedTransaction τ} (h : SameTransaction psbt psbt') :
    getUnsignedTx psbt' = getUnsignedTx psbt := by
  unfold Psbt.getUnsignedTx computeTimeLock
  rw [txIns_outline h.inputs, h.version, h.txVersion, h.outputs, h.fallbackLocktime, lockLoop_outline h.inputs]

theorem SameTransaction.hasValidTypedOutputs {psbt' : PartiallySignedTransaction τ}
    (h : SameTransaction psbt psbt') : psbtHasValidTypedOutputs psbt' = psbtHasValidTypedOutputs psbt := by
  unfold psbtHasValidTypedOutputs
  rw [h.getUnsignedTx]

theorem SameTransaction.precomputePSBTData {psbt psbt' : PartiallySignedTransaction τ}
    (h : SameTransaction psbt psbt') : precomputePSBTData psbt' = precomputePSBTData psbt := by
  unfold Psbt.precomputePSBTData
  rw [h.getUnsignedTx, utxos_outline h.inputs]

/-- the PSBT after the first turns of the loop -/
structure After (tx : CMutableTransaction) (txdata : PrecomputedTransactionData)
    (psbt : PartiallySignedTransaction τ) (turns : ℕ) (s : PartiallySignedTransaction τ × Bool) : Prop where
  state : s.1 = { psbt with inputs := psbt.inputs.mapIdx fun i input =>
    if i < turns then (turned E tx txdata i input).2 else input }
  complete : s.2 = true ↔ ∀ i input, i < turns → psbt.inputs[i]? = some input → (turned E tx txdata i input).1 = true

variable {E}

theorem After.same (h : After E tx txdata psbt turns s) : SameTransaction psbt s.1 := by
  rw [h.state]
  refine ⟨rfl, rfl, rfl, rfl, List.forall₂_iff_get.2 ⟨length_mapIdx.symm, fun i hi hi' => ?_⟩⟩
  rw [get_eq_getElem, get_eq_getElem, getElem_mapIdx]
  split_ifs
  · exact (turned_turn E tx txdata i _).outline
  · exact SameOutline.refl _

/-- A turn signs the input of its index and leaves the other ones. -/
theorem finalizeTurn_eq (htx : getUnsignedTx s.1 = some tx) (hvalid : psbtHasValidTypedOutputs s.1 = true)
    (hinput : s.1.inputs[index]? = some input) :
    finalizeTurn E txdata s index = ({ s.1 with inputs := s.1.inputs.set index (turned E tx txdata index input).2 },
      s.2 && (turned E tx txdata index input).1) := by
  have hlt : index < s.1.inputs.length := (List.getElem?_eq_some_iff.1 hinput).1
  simp only [finalizeTurn, signPSBTInput, psbtInputSignedAndVerified, hinput, htx,
    hvalid, turned, bind_some, Bool.not_true, Bool.true_and, Bool.false_eq_true, if_false]
  by_cases hverified : inputSignedAndVerified E tx txdata index input = true
  · have hself : s.1.inputs.set index input = s.1.inputs := by
      rw [← (List.getElem?_eq_some_iff.1 hinput).2]
      exact set_getElem_self hlt
    simp [hverified, hself, Except.isOk, Except.toBool]
  · simp [hverified]

theorem After.turn (htx : getUnsignedTx psbt = some tx) (hvalid : psbtHasValidTypedOutputs psbt = true)
    (hturns : turns < psbt.inputs.length) (h : After E tx txdata psbt turns s) :
    After E tx txdata psbt (turns + 1) (finalizeTurn E txdata s turns) := by
  obtain ⟨input, hinput⟩ : ∃ input, psbt.inputs[turns]? = some input := ⟨_, getElem?_eq_getElem hturns⟩
  have hhere : s.1.inputs[turns]? = some input := by
    rw [h.state]
    simp [hinput]
  rw [finalizeTurn_eq (h.same.getUnsignedTx.trans htx) (h.same.hasValidTypedOutputs.trans hvalid) hhere]
  refine ⟨?_, ?_⟩
  · simp only [h.state]
    congr 1
    refine ext_getElem? fun i => ?_
    rw [getElem?_set, getElem?_mapIdx, getElem?_mapIdx, length_mapIdx]
    by_cases hi : turns = i
    · subst hi
      rw [if_pos rfl, if_pos hturns, hinput, map_some, if_pos (Nat.lt_succ_self turns)]
    · rw [if_neg hi]
      have hlt : i < turns + 1 ↔ i < turns := by omega
      simp only [hlt]
  · simp only [Bool.and_eq_true, h.complete]
    apply Iff.intro
    · intro hall i input' hi hinput'
      rcases Nat.lt_succ_iff_lt_or_eq.1 hi with hlt | rfl
      · exact hall.1 i input' hlt hinput'
      · rw [hinput, some_inj] at hinput'
        rw [← hinput']
        exact hall.2
    · intro hall
      exact ⟨fun i input' hi => hall i input' (by omega), hall turns input (by omega) hinput⟩

theorem loop_after (htx : getUnsignedTx psbt = some tx) (hvalid : psbtHasValidTypedOutputs psbt = true)
    (hturns : turns ≤ psbt.inputs.length) :
    After E tx txdata psbt turns ((List.range turns).foldl (finalizeTurn E txdata) (psbt, true)) := by
  induction turns with
  | zero =>
    have hsame : (psbt.inputs.mapIdx fun i
        input => if i < 0 then (turned E tx txdata i input).2 else input) = psbt.inputs := ext_getElem? fun i => by simp
    refine ⟨?_, by simp⟩
    rw [hsame]
    rfl
  | succ turns ih =>
    rw [range_succ, foldl_append]
    exact (ih (by omega)).turn htx hvalid (by omega)

/-! ## What is extracted -/

/-- the PSBT with every input after its turn -/
def turnedAll (E : SigningEnv τ) (tx : CMutableTransaction) (txdata : PrecomputedTransactionData)
    (psbt : PartiallySignedTransaction τ) : PartiallySignedTransaction τ :=
  { psbt with inputs := psbt.inputs.mapIdx fun i input => (turned E tx txdata i input).2 }

theorem loop_all (E : SigningEnv τ) (txdata : PrecomputedTransactionData)
    (htx : getUnsignedTx psbt = some tx) (hvalid : psbtHasValidTypedOutputs psbt = true) :
    ((List.range psbt.inputs.length).foldl (finalizeTurn E txdata) (psbt, true)).1 = turnedAll E tx txdata psbt ∧
    (((List.range psbt.inputs.length).foldl (finalizeTurn E txdata) (psbt, true)).2 = true ↔
      ∀ i input, psbt.inputs[i]? = some input → (turned E tx txdata i input).1 = true) ∧
    SameTransaction psbt (turnedAll E tx txdata psbt) := by
  have hafter : After E tx txdata psbt psbt.inputs.length _ := loop_after htx hvalid (le_refl _)
  have hstate : ((List.range psbt.inputs.length).foldl (finalizeTurn E txdata) (psbt, true)).1 = turnedAll E
      tx txdata psbt := by
    rw [hafter.state, turnedAll]
    congr 1
    refine ext_getElem? fun i => ?_
    rw [getElem?_mapIdx, getElem?_mapIdx]
    rcases hinput : psbt.inputs[i]? with _ | input
    · rfl
    · rw [map_some, map_some, if_pos (List.getElem?_eq_some_iff.1 hinput).1]
  refine ⟨hstate, ?_, hstate ▸ hafter.same⟩
  rw [hafter.complete]
  exact ⟨fun h i input hinput => h i input (List.getElem?_eq_some_iff.1 hinput).1 hinput, fun h i input _
    hinput => h i input hinput⟩

theorem finalizeAndExtract_some {psbt' : PartiallySignedTransaction τ} {result : CMutableTransaction} :
    finalizeAndExtractPSBT E psbt = .ok (psbt', some result) ↔
      ∃ tx txdata, getUnsignedTx psbt = some tx ∧ psbtHasValidTypedOutputs psbt = true ∧
        precomputePSBTData psbt = .ok (some txdata) ∧
        (∀ i input, psbt.inputs[i]? = some input → (turned E tx txdata i input).1 = true) ∧
        psbt' = turnedAll E tx txdata psbt ∧
        result = { tx with vin := List.zipWith finalTxIn tx.vin psbt'.inputs } := by
  unfold finalizeAndExtractPSBT finalizePSBT
  by_cases hvalid : psbtHasValidTypedOutputs psbt = true
  · obtain ⟨tx, htx⟩ : ∃ tx, getUnsignedTx psbt = some tx := by
      rcases htx : getUnsignedTx psbt with _ | tx
      · simp [psbtHasValidTypedOutputs, htx] at hvalid
      · exact ⟨tx, rfl⟩
    rcases hdata : precomputePSBTData psbt with e | _ | txdata
    · simp [hvalid, bind, Except.bind]
    · simp [hvalid, bind, Except.bind, pure, Except.pure]
    · obtain ⟨hstate, hcomplete, hsame⟩ := loop_all E txdata htx hvalid
      simp only [hvalid, htx, Bool.not_true, Bool.false_eq_true, if_false, bind, Except.bind, pure,
        Except.pure, some_inj, Except.ok.injEq, exists_and_left, exists_eq_left', true_and]
      rw [← hcomplete, ← hstate]
      have htx' := hsame.getUnsignedTx.trans htx
      rw [← hstate] at htx'
      generalize (List.range psbt.inputs.length).foldl (finalizeTurn E txdata) (psbt, true) = s at htx'
      obtain ⟨after, complete⟩ := s
      simp only at htx'
      rcases complete with _ | _
      · simp
      · simp only [htx', Bool.not_true, Bool.false_eq_true, if_false, Except.ok.injEq, Prod.mk.injEq,
          map_some, some_inj, true_and]
        apply Iff.intro
        · rintro ⟨rfl, rfl⟩
          exact ⟨rfl, rfl⟩
        · rintro ⟨rfl, rfl⟩
          exact ⟨rfl, rfl⟩
  · simp [hvalid, bind, Except.bind, pure, Except.pure]

/-- what is extracted spends recorded key outputs, each under a signature of 64 bytes that verifies against the recorded
outputs -/
def ReallySigned (E : SigningEnv τ) (psbt : PartiallySignedTransaction τ) (result : CMutableTransaction) : Prop :=
  ∃ txdata, precomputePSBTData psbt = .ok (some txdata) ∧ ∀ i input, psbt.inputs[i]? = some input →
    ∃ utxo pubkey txin sig, input.getUTXO = some utxo ∧ utxo.getP2PKPubKey = some pubkey ∧ result.vin[i]? = some txin ∧
      txin.prevout = input.getOutPoint ∧ txin.scriptSig = [] ∧ txin.scriptWitness = [sig] ∧ sig.length = 64 ∧
      psbtInputSignedAndVerified E psbt i txdata = true

/-- Every input of the PSBT is verified, has a key path signature that verifies, or has an unverified final witness; and
one has. -/
def HasUnverified (E : SigningEnv τ) (psbt : PartiallySignedTransaction τ) : Prop :=
  ∃ tx txdata, getUnsignedTx psbt = some tx ∧ psbtHasValidTypedOutputs psbt = true ∧
    precomputePSBTData psbt = .ok (some txdata) ∧
      (∀ i input, psbt.inputs[i]? = some input → inputSignedAndVerified E tx txdata i input = true ∨
      Unverified E tx txdata i input ∨ KeyPathSigned E tx txdata i input) ∧
    ∃ i input, psbt.inputs[i]? = some input ∧ Unverified E tx txdata i input

/-- The check of a finalized input is the check of the input after its turn. -/
theorem verified_turnedAll {i : ℕ} (htx : getUnsignedTx psbt = some tx)
    (hvalid : psbtHasValidTypedOutputs psbt = true) (hinput : psbt.inputs[i]? = some input) :
    psbtInputSignedAndVerified E (turnedAll E tx txdata psbt) i txdata =
      inputSignedAndVerified E tx txdata i (turned E tx txdata i input).2 := by
  obtain ⟨-, -, hsame⟩ := loop_all E txdata htx hvalid
  have hget : (turnedAll E tx txdata psbt).inputs[i]? = some (turned E tx txdata i input).2 := by
    rw [turnedAll, getElem?_mapIdx, hinput, map_some]
  simp only [psbtInputSignedAndVerified, hget, hsame.getUnsignedTx, htx, hsame.hasValidTypedOutputs,
    hvalid, Bool.true_and]

/-- What `FinalizeAndExtractPSBT` extracts is really signed, for exactly the PSBTs that do not have an unverified final
witness among inputs that all finalize. -/
theorem finalized_signed_iff (E : SigningEnv τ) (psbt : PartiallySignedTransaction τ) :
    (∀ psbt' result, finalizeAndExtractPSBT E psbt = .ok (psbt', some result) → ReallySigned E psbt' result) ↔
      ¬ HasUnverified E psbt := by
  apply Iff.intro
  · intro hall hunverified
    obtain ⟨tx, txdata, htx, hvalid, hdata, hinputs, i, input, hinput, hbad⟩ := hunverified
    obtain ⟨-, -, hsame⟩ := loop_all E txdata htx hvalid
    have hturned : ∀ i input, psbt.inputs[i]? = some input → (turned E tx txdata i input).1 = true :=
      fun i input hinput => (turned_turn E tx txdata i input).signed_iff.2 (hinputs i input hinput)
    obtain ⟨txdata', hdata', hsigned⟩ :=
      hall _ _ (finalizeAndExtract_some.2 ⟨tx, txdata, htx, hvalid, hdata, hturned, rfl, rfl⟩)
    rw [hsame.precomputePSBTData, hdata, Except.ok.injEq, some_inj] at hdata'
    subst hdata'
    obtain ⟨-, -, -, -, -, -, -, -, -, -, -, hverified⟩ := hsigned i (turned E tx txdata i input).2 (by
      rw [turnedAll, getElem?_mapIdx, hinput, map_some])
    rw [verified_turnedAll htx hvalid hinput] at hverified
    exact ((turned_turn E tx txdata i input).verified_iff (hturned i input hinput)).1 hverified hbad
  · intro hnone psbt' result h
    obtain ⟨tx, txdata, htx, hvalid, hdata, hturned, rfl, rfl⟩ := finalizeAndExtract_some.1 h
    obtain ⟨-, -, hsame⟩ := loop_all E txdata htx hvalid
    refine ⟨txdata, hsame.precomputePSBTData.trans hdata, fun i input' hinput' => ?_⟩
    have hget := hinput'
    rw [turnedAll, getElem?_mapIdx] at hget
    obtain ⟨input, hinput, rfl⟩ := map_eq_some_iff.1 hget
    have hturn := turned_turn E tx txdata i input
    have hverified := (hturn.verified_iff (hturned i input hinput)).2 fun hbad =>
      hnone ⟨tx, txdata, htx, hvalid, hdata,
        fun i input hinput => (turned_turn E tx txdata i input).signed_iff.1 (hturned i input hinput), i,
        input, hinput, hbad⟩
    obtain ⟨hshape, -, utxo, pubkey, hutxo, hkey, -⟩ := inputSignedAndVerified_iff.1 hverified
    obtain ⟨hscriptSig, sig, hwitness, hlength⟩ := keyPathShape_iff.1 hshape
    have hvin : tx.vin[i]? = some ⟨input.getOutPoint, [], input.sequence.getD SEQUENCE_FINAL, []⟩ := by
      obtain ⟨nLockTime, -, rfl⟩ := map_eq_some_iff.1 htx
      rw [getElem?_map, hinput, map_some]
    refine ⟨utxo, pubkey, finalTxIn ⟨input.getOutPoint, [], input.sequence.getD SEQUENCE_FINAL,
      []⟩ (turned E tx txdata i input).2, sig, hutxo, hkey, ?_, hturn.outline.outPoint.symm, hscriptSig,
      hwitness, hlength, ?_⟩
    · rw [getElem?_zipWith_eq_some]
      exact ⟨_, _, hvin, hinput', rfl⟩
    · rw [verified_turnedAll htx hvalid hinput]
      exact hverified

end

section
attribute [local instance] toyCrypto

/-- a toy scheme: a signature is the key and the message -/
def toySigning : SigningEnv Unit where
  empty := ()
  verifySchnorrSignature sig pubkey message := sig == pubkey.bytes ++ message.bytes
  verifyScriptPath _ _ _ := false
  makeKeypathSig _ _ _ := (none, ())
  satisfy _ _ sigs _ := (none, sigs, ())
  inserted _ _ := ()
  cleared _ := ()

/-- an input that spends the small transaction's output, with 64 zero bytes for a signature -/
def zeroSigned : PSBTInput Unit where
  nonWitnessUtxo := some smallSpend
  witnessUtxo := p2pkOutput (-1) (Uint256.ofNat 1) toyKey_valid
  finalScriptSig := []
  finalScriptWitness := [List.replicate 64 0]
  partialSigs := []
  prevTxid := smallSpend.getHash
  prevOut := 0
  sequence := none
  timeLocktime := none
  heightLocktime := none
  tapKeySig := []
  tapScriptSigs := []
  tapScripts := []
  sighashType := none
  other := ()

def zeroSignedPsbt : PartiallySignedTransaction Unit := ⟨0, 2, none, [zeroSigned], [⟨5, p2pkView (Uint256.ofNat 1)⟩]⟩

/-- Zero bytes are finalized and extracted as a signature that does not verify. -/
theorem zeroSigned_extracted :
    ∃ psbt result, finalizeAndExtractPSBT toySigning zeroSignedPsbt = .ok (psbt, some result) ∧
      result.vin.map CTxIn.scriptWitness = [[List.replicate 64 0]] ∧ ¬ ReallySigned toySigning psbt result := by
  have hrun : ((finalizeAndExtractPSBT toySigning zeroSignedPsbt).toOption.bind fun r => r.2.bind fun result =>
      (precomputePSBTData r.1).toOption.bind fun txdata => txdata.map fun txdata =>
        (r.1.inputs.length, result.vin.map CTxIn.scriptWitness, psbtInputSignedAndVerified toySigning r.1 0 txdata)) =
      some (1, [[List.replicate 64 0]], false) := by decide +kernel
  obtain ⟨⟨psbt, extracted⟩, hpsbt, hextracted⟩ := bind_eq_some_iff.1 hrun
  obtain ⟨result, rfl, hprecomputed⟩ := bind_eq_some_iff.1 hextracted
  obtain ⟨data, hdata, hchecked⟩ := bind_eq_some_iff.1 hprecomputed
  obtain ⟨txdata, rfl, hvalues⟩ := map_eq_some_iff.1 hchecked
  simp only [Prod.mk.injEq] at hvalues
  rcases hfinal : finalizeAndExtractPSBT toySigning zeroSignedPsbt with e | r
  · rw [hfinal] at hpsbt
    cases hpsbt
  · rw [hfinal] at hpsbt
    cases hpsbt
    refine ⟨psbt, result, rfl, hvalues.2.1, fun hsigned => ?_⟩
    obtain ⟨txdata', hdata', hsigned⟩ := hsigned
    rw [hdata'] at hdata
    cases hdata
    obtain ⟨input, hinput⟩ : ∃ input, psbt.inputs[0]? = some input :=
      ⟨_, getElem?_eq_getElem (by rw [hvalues.1]; exact Nat.one_pos)⟩
    obtain ⟨-, -, -, -, -, -, -, -, -, -, -, hverified⟩ := hsigned 0 input hinput
    rw [hvalues.2.2] at hverified
    cases hverified

end

end ConnectCoin.Psbt
