/-
Transactions in hexadecimal (`CheckTxScriptsSanity`, `DecodeTx`, `DecodeHexTx` and `EncodeHexTx` in `core_io.cpp`).

The decoder reads the bytes in both formats and prefers the reading whose scripts look sane. In the other format the
mark of a transaction with witnesses is an empty input vector and the count of one output.
- `decodeTx`, `decodeHexTx`, `encodeHexTx`; `hasValidOps`, `checkTxScriptsSanity`.
- `legacy_refuses`: no transaction with a witness and valid outputs can be read whole as one output without inputs. The
  length leaves only a pay-to-connect output; its domain would lie over the count of the real outputs, which is at most
  7 and no character of a domain.
Result: `decodeHexTx_encodeHexTx`: every transaction with inputs and valid outputs is read back, whatever the sanity
check says of it.
Premise: no vector is longer than `MAX_SIZE`; the reader refuses a longer one (`oversized_script_not_decoded`).
-/
import ConnectCoin.Coins.View
import ConnectCoin.Consensus.BlockCheck
import ConnectCoin.Consensus.TxCode
import ConnectCoin.P2C.Replay
import ConnectCoin.Util.Hex

namespace ConnectCoin

open Lib List

/-! ## The decoder -/

/-- `MAX_OPCODE`, OP_NOP10 -/
def MAX_OPCODE : UInt8 := 0xb9

def MAX_SCRIPT_ELEMENT_SIZE : ℕ := 520

/-- the loop of `HasValidOps`; each turn takes at least one byte -/
def validOpsLoop : ℕ → Bytes → Bool
  | 0, _ => true
  | fuel + 1, it =>
    if it.isEmpty then true
    else match getScriptOp it with
      | none => false
      | some (opcode, item, rest) =>
        if opcode > MAX_OPCODE ∨ item.length > MAX_SCRIPT_ELEMENT_SIZE then false else validOpsLoop fuel rest

/-- `HasValidOps` -/
def hasValidOps (script : Bytes) : Bool := validOpsLoop script.length script

/-- a script that looks sane -/
def scriptSane (script : Bytes) : Bool := hasValidOps script && script.length ≤ MAX_SCRIPT_SIZE

section
variable [Crypto]

/-- `CTransaction(tx).IsCoinBase()` -/
def CMutableTransaction.isCoinBase (tx : CMutableTransaction) : Bool :=
  match tx.vin with
  | [i] => i.prevout.isNull
  | _ => false

/-- `CheckTxScriptsSanity` -/
def checkTxScriptsSanity (tx : CMutableTransaction) : Bool :=
  (tx.isCoinBase || tx.vin.all fun i => scriptSane i.scriptSig) && tx.vout.all fun o => scriptSane o.scriptPubKey

/-- a reading that takes all the bytes -/
def readWhole (allowWitness : Bool) (txData : Bytes) : Option CMutableTransaction :=
  match unserializeTransaction allowWitness txData with
  | .ok (tx, []) => some tx
  | _ => none

/-- `DecodeTx` -/
def decodeTx (txData : Bytes) (tryNoWitness tryWitness : Bool) : Option CMutableTransaction :=
  let extended := if tryWitness then readWhole true txData else none
  if extended.any checkTxScriptsSanity then extended
  else
    let legacy := if tryNoWitness then readWhole false txData else none
    if legacy.any checkTxScriptsSanity then legacy
    else if extended.isSome then extended
    else legacy

/-- `DecodeHexTx` -/
def decodeHexTx (hexTx : Bytes) (tryNoWitness tryWitness : Bool) : Option CMutableTransaction :=
  if !isHex hexTx then none else decodeTx (parseHex hexTx) tryNoWitness tryWitness

/-- `EncodeHexTx` -/
def encodeHexTx (tx : CTransaction) : Bytes := hexStr (tx.serialize true)

variable {tx : CMutableTransaction} {txData : Bytes}

theorem readWhole_eq_some {allowWitness : Bool} :
    readWhole allowWitness txData = some tx ↔ unserializeTransaction allowWitness txData = .ok (tx, []) := by
  unfold readWhole
  split
  · next tx' h => simp [h]
  · next hne =>
    exact iff_of_false (fun h => by cases h) (hne tx)

theorem decodeTx_eq_some {tryNoWitness tryWitness : Bool} (h : decodeTx txData tryNoWitness tryWitness = some tx) :
    ∃ allowWitness, unserializeTransaction allowWitness txData = .ok (tx, []) := by
  have hone : readWhole true txData = some tx ∨ readWhole false txData = some tx := by
    unfold decodeTx at h
    dsimp only at h
    split_ifs at h <;> first | exact Or.inl h | exact Or.inr h
  rcases hone with hread | hread
  · exact ⟨true, readWhole_eq_some.1 hread⟩
  · exact ⟨false, readWhole_eq_some.1 hread⟩

end

/-! ## The other format -/

theorem isDomainChar_ge {ch : UInt8} (h : isDomainChar ch = true) : 45 ≤ ch.toNat := by
  simp only [isDomainChar, Bool.or_eq_true, Bool.and_eq_true, decide_eq_true_eq, beq_iff_eq, UInt8.le_iff_toNat_le] at h
  rcases h with (h | h) | rfl
  · exact le_trans (by decide) h.1
  · exact le_trans (by decide) h.1
  · decide

/-- A character that the loop passes is a hyphen or comes after it. -/
theorem domainLoop_chars {labelSize : ℕ} {prev : UInt8} {domain : Bytes} {n : ℕ}
    (h : domainLoop labelSize prev domain = some n) : ∀ ch ∈ domain, 45 ≤ ch.toNat := by
  induction domain generalizing labelSize prev with
  | nil => simp
  | cons ch rest ih =>
    rw [domainLoop] at h
    rw [forall_mem_cons]
    by_cases hdot : ch = 46
    · rw [if_pos hdot] at h
      split_ifs at h
      exact ⟨by rw [hdot]; decide, ih h⟩
    · rw [if_neg hdot] at h
      split_ifs at h with hchar
      exact ⟨isDomainChar_ge (by simpa using hchar), ih h⟩

theorem canonical_chars {domain : Bytes} (h : isCanonicalP2CDomain domain = true) : ∀ ch ∈ domain, 45 ≤ ch.toNat := by
  unfold isCanonicalP2CDomain at h
  split_ifs at h
  split at h
  · cases h
  · next hloop => exact domainLoop_chars hloop

theorem mul_length_le_flatMap {α : Type} {f : α → Bytes} {k : ℕ} {as : List α} (h : ∀ a ∈ as, k ≤ (f a).length) :
    k * as.length ≤ (as.flatMap f).length := by
  induction as with
  | nil => simp
  | cons a as ih =>
    rw [forall_mem_cons] at h
    rw [flatMap_cons, length_append, length_cons, Nat.mul_add, Nat.mul_one, Nat.add_comm]
    exact Nat.add_le_add h.1 (ih h.2)

/-- A vector of inputs has 41 bytes for each of them, and a count. -/
theorem vector_vin_length (vin : List CTxIn) : 1 + 41 * vin.length ≤ (vector CTxIn.serialize vin).length := by
  have hinputs : 41 * vin.length ≤ (vin.flatMap CTxIn.serialize).length := by
    apply mul_length_le_flatMap
    intro i _
    have hsize := compactSize_length_pos i.scriptSig.length
    simp only [CTxIn.serialize, byteVector, length_append, COutPoint.serialize_length, leBytes_length]
    omega
  rw [vector, length_append]
  exact Nat.add_le_add (compactSize_length_pos _) hinputs

section
variable [Crypto] {tx : CTransaction} {vout : List CTxOut}

/-- So has a vector of valid outputs. -/
theorem flatMap_vout_length (h : ∀ o ∈ vout, o.Valid) : 41 * vout.length ≤ (vout.flatMap CTxOut.serialize).length := by
  apply mul_length_le_flatMap
  intro o ho
  rw [CTxOut.serialize, length_append, leBytes_length]
  rcases h o ho with ⟨k, hk⟩ | ⟨p, hp⟩
  · rw [payload_p2pk hk]
    simp
  · rw [payload_p2c hp]
    simp only [p2cBody, length_cons, length_append, Uint256.bytes_length, leBytes_length]
    omega

/-- An output serializes to 9 bytes, to 41, or with a domain. -/
theorem serialize_cases {o : CTxOut} (h : o.serializePayload.isOk = true) :
    o.serialize.length = 9 ∨ o.serialize.length = 41 ∨ ∃ p, isCanonicalP2CDomain p.domain = true ∧
      o.serialize = leBytes 8 o.nValue.toUInt64.toNat ++ 2 :: p2cBody p := by
  rcases serializePayload_isOk.1 h with htype | ⟨k, hkey⟩ | ⟨p, hp⟩
  · left
    simp [CTxOut.serialize, CTxOut.payload, CTxOut.serializePayload, htype, Except.toOption]
  · right; left
    simp [CTxOut.serialize, payload_p2pk hkey]
  · exact Or.inr (Or.inr ⟨p, (CTxOut.getPayToDomain_eq_some hp).2.2.1, by rw [CTxOut.serialize, payload_p2c hp]⟩)

/-- Inputs, valid outputs, witnesses and a lock time are not one output and a lock time. -/
theorem not_one_output {vin : List CTxIn} (hvin : vin ≠ []) (hvout : vout ≠ []) (hvalid : ∀ o ∈ vout, o.Valid)
    {witnesses lock lock' : Bytes} (hwitnesses : 2 ≤ witnesses.length) (hlock : lock.length = 4)
    (hlock' : lock'.length = 4) (o : CTxOut) (hpayload : o.serializePayload.isOk = true) :
    vector CTxIn.serialize vin ++ (vector CTxOut.serialize vout ++ (witnesses ++ lock)) ≠ o.serialize ++ lock' := by
  intro h
  have hin := vector_vin_length vin
  have hinputs := length_pos_iff.2 hvin
  have hout := flatMap_vout_length hvalid
  have houtputs := length_pos_iff.2 hvout
  have hcount := compactSize_length_pos vout.length
  have hlength := congrArg List.length h
  rw [vector.eq_def CTxOut.serialize] at hlength
  simp only [length_append] at hlength
  rcases serialize_cases hpayload with hnine | hkey | ⟨p, hdomain, hserialize⟩
  · omega
  · omega
  · have hchars := canonical_chars hdomain
    have hshort := isCanonicalP2CDomain_length hdomain
    rw [MAX_P2C_DOMAIN_LENGTH] at hshort
    have hbytes : o.serialize.length = p.domain.length + 47 := by
      rw [hserialize]
      simp only [p2cBody, length_cons, length_append, Uint256.bytes_length, leBytes_length, length_nil]
      omega
    -- the count of the outputs is one byte, inside the domain
    have hfew : vout.length ≤ 7 := by omega
    have hone : vector CTxOut.serialize vout = UInt8.ofNat vout.length :: vout.flatMap CTxOut.serialize := by
      rw [vector, compactSize, if_pos (by omega)]
      rfl
    have hsplit : o.serialize ++ lock' = (leBytes 8 o.nValue.toUInt64.toNat ++ [2, UInt8.ofNat p.domain.length]) ++
        (p.domain ++ (p.connectionWorkTarget.bytes ++
        (leBytes 4 p.rootCertificatesVersion.toNat ++ ([p.signatureAlgorithmsMask] ++ lock')))) := by
      rw [hserialize]
      simp [p2cBody]
    have hbehind : (leBytes 8 o.nValue.toUInt64.toNat ++ [2, UInt8.ofNat p.domain.length]).length = 10 := by simp
    have hleft : (vector CTxIn.serialize vin ++
        (vector CTxOut.serialize vout ++ (witnesses ++ lock)))[(vector CTxIn.serialize vin).length]? =
        some (UInt8.ofNat vout.length) := by
      rw [getElem?_append_right (le_refl _), Nat.sub_self, hone]
      rfl
    have hright : (o.serialize ++ lock')[(vector CTxIn.serialize vin).length]? =
        p.domain[(vector CTxIn.serialize vin).length - 10]? := by
      rw [hsplit, getElem?_append_right (by rw [hbehind]; omega), hbehind, getElem?_append_left (by omega)]
    have hat : p.domain[(vector CTxIn.serialize vin).length - 10]? = some (UInt8.ofNat vout.length) := by
      rw [← hright, ← h, hleft]
    have hchar := hchars _ (mem_of_getElem? hat)
    rw [UInt8.toNat_ofNat_of_lt' (by rw [UInt8.size]; omega)] at hchar
    omega

/-- A witness has a count of items and an item. -/
theorem witness_bytes_length (h : tx.hasWitness = true) : 2 ≤ ((witnesses tx).flatMap (vector byteVector)).length := by
  obtain ⟨i, hi, hsome⟩ := any_eq_true.1 h
  obtain ⟨item, items, hstack⟩ := exists_cons_of_ne_nil (l := i.scriptWitness) (by simpa using hsome)
  have hmem : i.scriptWitness ∈ witnesses tx := mem_map_of_mem hi
  have hitem := compactSize_length_pos item.length
  have hcount := compactSize_length_pos i.scriptWitness.length
  calc 2 ≤ (vector byteVector i.scriptWitness).length := by
        rw [vector, hstack, flatMap_cons, byteVector, ← hstack]
        simp only [length_append]
        omega
    _ ≤ ((witnesses tx).flatMap (vector byteVector)).length := by
        rw [length_flatMap]
        exact single_le_sum (by simp) _ (mem_map_of_mem hmem)

/-- A transaction with a witness and valid outputs is not read whole in the other format. -/
theorem legacy_refuses (hwitness : tx.hasWitness = true) (hvin : tx.vin ≠ []) (hvout : tx.vout ≠ [])
    (hvalid : tx.ValidOutputs) : readWhole false (tx.serialize true) = none := by
  rw [Option.eq_none_iff_forall_ne_some]
  intro r hread
  obtain ⟨hdecodable, hbytes⟩ := (unserializeTransaction_exact false r _ []).1 (readWhole_eq_some.1 hread)
  rw [append_nil, serialize_witness hwitness, CMutableTransaction.bytes_eq] at hbytes
  simp only [bodyBytes, flagByte, Bool.false_and, Bool.false_eq_true, if_false, ne_eq, not_true_eq_false, nil_append,
    vector_stripped] at hbytes
  obtain ⟨-, hbytes⟩ := append_inj hbytes (by simp)
  -- the mark is taken for no inputs and one output
  have hmark : compactSize 0 ++ (compactSize 1 ++ (vector CTxIn.serialize tx.vin ++ (vector CTxOut.serialize tx.vout ++
      ((witnesses tx).flatMap (vector byteVector) ++ leBytes 4 tx.nLockTime.toNat)))) =
      compactSize r.vin.length ++ (r.vin.flatMap CTxIn.serialize ++
        (compactSize r.vout.length ++ (r.vout.flatMap CTxOut.serialize ++ leBytes 4 r.nLockTime.toNat))) := by
    rw [vector.eq_def _ r.vin, vector.eq_def _ r.vout] at hbytes
    simp only [append_assoc] at hbytes
    exact hbytes
  obtain ⟨hnone, hrest⟩ := compactSize_selfDelimiting (by decide) (lt_of_le_of_lt hdecodable.vin_size (by decide)) hmark
  rw [length_eq_zero_iff.1 hnone.symm, flatMap_nil, nil_append] at hrest
  obtain ⟨hone, hrest⟩ := compactSize_selfDelimiting (by decide) (lt_of_le_of_lt hdecodable.outputs.1 (by decide)) hrest
  obtain ⟨o, ho⟩ := length_eq_one_iff.1 hone.symm
  rw [ho, flatMap_singleton] at hrest
  exact not_one_output hvin hvout hvalid (witness_bytes_length hwitness) (leBytes_length _ _) (leBytes_length _ _) o
    (hdecodable.outputs.2 o (by simp [ho])).2 hrest

/-! ## Hexadecimal transactions -/

theorem readWhole_true (hvin : tx.vin ≠ []) (hvalid : tx.ValidOutputs) (hfit : tx.VectorsFit true) :
    readWhole true (tx.serialize true) = some tx.toMutable := by
  have hread := unserializeTransaction_serialize hvin hvalid hfit []
  rw [append_nil, if_pos rfl] at hread
  exact readWhole_eq_some.2 hread

/-- Without witnesses both formats are the same. -/
theorem readWhole_false (hnone : tx.hasWitness = false) (hvin : tx.vin ≠ []) (hvalid : tx.ValidOutputs)
    (hfit : tx.VectorsFit true) : readWhole false (tx.serialize true) = some tx.toMutable := by
  have hstripped : tx.toMutable.withoutWitnesses = tx.toMutable := by
    rw [CMutableTransaction.withoutWitnesses,
      map_stripped_of_none (show anyWitness tx.toMutable.vin = false from hnone)]
  have hbare : tx.VectorsFit false := ⟨hfit.vin, hfit.vout, hfit.scripts, fun h => by cases h⟩
  have hread := unserializeTransaction_serialize hvin hvalid hbare []
  rw [append_nil, if_neg (by decide), hstripped, ← CTransaction.serialize_of_none hnone] at hread
  exact readWhole_eq_some.2 hread

/-- A transaction with an input, an output and valid outputs is read back from its hexadecimal form with both decodings
tried, whatever its scripts and witnesses are and whether or not they look sane. -/
theorem decodeHexTx_encodeHexTx (tx : CTransaction) (hvin : tx.vin ≠ []) (hvout : tx.vout ≠ [])
    (hvalid : tx.ValidOutputs) (hfit : tx.VectorsFit true) :
    decodeHexTx (encodeHexTx tx) true true = some tx.toMutable := by
  have hbytes : tx.serialize true ≠ [] := by
    intro hnil
    have hlength := congrArg List.length hnil
    simp [CTransaction.serialize] at hlength
  rw [decodeHexTx, encodeHexTx, isHex_hexStr hbytes, parseHex_hexStr]
  -- the extended reading succeeds, and the other fails or agrees
  unfold decodeTx
  simp only [if_true, readWhole_true hvin hvalid hfit]
  cases hwitness : tx.hasWitness with
  | false => simp [readWhole_false hwitness hvin hvalid hfit]
  | true => simp [legacy_refuses hwitness hvin hvout hvalid]

end

section
attribute [local instance] toyCrypto

/-- a claim-like spend with a witness whose only output is pay-to-connect; the view of its target holds invalid
opcodes -/
def connectSpend : CTransaction where
  vin := [⟨⟨Uint256.ofNat 7, 0⟩, [], 0, [[3]]⟩]
  vout := [p2cOutput 5 P2C.sampleTerms]
  version := 2
  nLockTime := 0
  payloads := by decide +kernel
  vin_size := by decide
  vout_size := by decide
  scriptSig_size := by decide
  stack_size := by decide

/-- The spend is read back although its scripts do not look sane. -/
theorem connectSpend_decoded : connectSpend.hasWitness = true ∧ checkTxScriptsSanity connectSpend.toMutable = false ∧
    decodeHexTx (encodeHexTx connectSpend) true true = some connectSpend.toMutable := by
  have hfit : connectSpend.VectorsFit true := by
    refine ⟨by decide, by decide, by decide, ?_⟩
    intro _ i hi
    obtain rfl := mem_singleton.1 hi
    exact ⟨by decide, by decide⟩
  have hvalid : connectSpend.ValidOutputs := by
    intro o ho
    obtain rfl := mem_singleton.1 ho
    exact Or.inr ⟨P2C.sampleTerms, CTxOut.getPayToDomain_of_view rfl rfl (by decide +kernel) (by decide) (by decide)⟩
  exact ⟨rfl, by decide +kernel, decodeHexTx_encodeHexTx connectSpend (by decide) (by decide) hvalid hfit⟩

/-- A transaction with an input and a valid output that is not read back: its script is a byte too long for the
reader. -/
theorem oversized_script_not_decoded : ∃ tx : CTransaction, tx.vin ≠ [] ∧ tx.vout ≠ [] ∧ tx.ValidOutputs ∧
    decodeHexTx (encodeHexTx tx) true true ≠ some tx.toMutable := by
  have hscript : (List.replicate (MAX_SIZE + 1) (0 : UInt8)).length < 2 ^ 64 := by
    rw [length_replicate]
    decide
  refine ⟨spendWith _ [] hscript (by decide) (by simp), cons_ne_nil _ _, cons_ne_nil _ _, spendWith_valid _ _ _, ?_⟩
  intro h
  rw [decodeHexTx, encodeHexTx, parseHex_hexStr] at h
  split_ifs at h
  obtain ⟨allowWitness, hread⟩ := decodeTx_eq_some h
  obtain ⟨hdecodable, -⟩ := (unserializeTransaction_exact allowWitness _ _ _).1 hread
  have hfits := hdecodable.scripts _ (mem_singleton.2 rfl)
  rw [length_replicate] at hfits
  exact absurd hfits (Nat.not_succ_le_self _)

end

end ConnectCoin
