/-
Scripts as typed outputs (`SetScriptPubKey`, `P2CCompatibilityView` and `P2CDomainFromView`,
`primitives/transaction.cpp`).

An output is valid if it has the view of its key or of its payload (`CTxOut.Valid`). The validity of x-only keys is any
predicate (`Crypto.isFullyValid`).
- `setScriptPubKey_view`: the view of a valid output is read back as that output, into any object.
- `exists_valid_of_typed`: what `SetScriptPubKey` gives a type to is the view of a valid output.
Result: `views_of_valid_outputs`: views and valid typed outputs of one amount determine each other, no script has two
types, and the view says as much as the payload on the wire.
-/
import ConnectCoin.Consensus.TxOutObject

namespace ConnectCoin

open Lib

section
variable [Crypto]

/-! ## From an output to its view and back -/

/-- A valid output is made by one of the two setters. -/
theorem CTxOut.valid_iff {c : CTxOut} :
    c.Valid ↔ (∃ k, ∃ h : Crypto.isFullyValid k = true, c = p2pkOutput c.nValue k h) ∨
      ∃ p, isCanonicalP2CDomain p.domain = true ∧ p.rootCertificatesVersion ≠ 0 ∧
        isValidP2CSignatureAlgorithmsMask p.signatureAlgorithmsMask = true ∧ c = p2cOutput c.nValue p := by
  constructor
  · rintro (⟨k, hk⟩ | ⟨p, hp⟩)
    · obtain ⟨htype, hkey, hview⟩ := CTxOut.getP2PKPubKey_eq_some.1 hk
      exact Or.inl ⟨k, hkey ▸ c.key_valid htype, txOut_ext htype hkey rfl hview⟩
    · obtain ⟨htype, hview, hdomain, hversion, hmask⟩ := CTxOut.getPayToDomain_eq_some hp
      refine Or.inr ⟨p, hdomain, hversion, hmask, txOut_ext htype (c.key_null ?_) rfl hview⟩
      rw [htype]
      decide
  · rintro (⟨k, h, hc⟩ | ⟨p, hdomain, hversion, hmask, hc⟩)
    · refine Or.inl ⟨k, ?_⟩
      rw [hc]
      exact getP2PKPubKey_p2pkOutput _ _ _
    · refine Or.inr ⟨p, ?_⟩
      rw [hc]
      exact CTxOut.getPayToDomain_of_view rfl rfl hdomain hversion hmask

namespace TxOutObject

/-- The view of a valid output is read back with its type, key and payload; the amount stays. -/
theorem setScriptPubKey_view {c : CTxOut} (h : c.Valid) (o : TxOutObject) :
    o.setScriptPubKey c.scriptPubKey = { c.object with nValue := o.nValue } := by
  rcases CTxOut.valid_iff.1 h with ⟨k, hk, hc⟩ | ⟨p, hdomain, hversion, hmask, hc⟩
  · rw [hc]
    have hform : (OP_1 :: 32 :: k.bytes).length = 34 ∧ (OP_1 :: 32 :: k.bytes)[0]? = some OP_1 ∧
        (OP_1 :: 32 :: k.bytes)[1]? = some 32 := by
      refine ⟨?_, rfl, rfl⟩
      rw [List.length_cons, List.length_cons, Uint256.bytes_length]
    have hkey : Uint256.ofSlice ((OP_1 :: 32 :: k.bytes).drop 2) = k := Uint256.ofSlice_bytes k
    simp only [setScriptPubKey, p2pkOutput, if_pos hform, hkey, if_pos hk]
    rfl
  · rw [hc]
    have hread : payToDomainOfView (p2cCompatibilityView p) = some p := by
      have houtput : (p2cOutput o.nValue p).getPayToDomain = some p :=
        CTxOut.getPayToDomain_of_view rfl rfl hdomain hversion hmask
      rw [← CTxOut.object_getPayToDomain] at houtput
      exact houtput
    have hform : ¬ ((p2cCompatibilityView p).length = 34 ∧ (p2cCompatibilityView p)[0]? = some OP_1 ∧
        (p2cCompatibilityView p)[1]? = some 32) :=
        fun hform => absurd hform.2.1 (by simp [p2cCompatibilityView, OP_1, OP_2])
    have hconnect : 2 ≤ (p2cCompatibilityView p).length ∧ (p2cCompatibilityView p)[0]? = some OP_2 ∧
        (payToDomainOfView (p2cCompatibilityView p)).isSome = true := by
      refine ⟨by simp [p2cCompatibilityView, p2cBody], rfl, ?_⟩
      rw [hread]
      rfl
    simp only [setScriptPubKey, p2cOutput, if_neg hform, getPayToDomain, ne_eq, not_true_eq_false, if_false,
      if_pos hconnect]
    rfl

/-- A script that gets a type is the view of a valid output of any amount. -/
theorem exists_valid_of_typed {o : TxOutObject} {script : Bytes} (h : (o.setScriptPubKey script).type ≠ 0) :
    ∃ c : CTxOut, c.Valid ∧ c.scriptPubKey = script := by
  unfold setScriptPubKey at h
  dsimp only at h
  by_cases hform : script.length = 34 ∧ script[0]? = some OP_1 ∧ script[1]? = some 32
  · rw [if_pos hform] at h
    by_cases hkey : Crypto.isFullyValid (Uint256.ofSlice (script.drop 2)) = true
    · refine ⟨p2pkOutput 0 _ hkey, Or.inl ⟨_, getP2PKPubKey_p2pkOutput _ _ _⟩, ?_⟩
      obtain ⟨hlen, h0, h1⟩ := hform
      match script, hlen, h0, h1 with
      | a :: b :: rest, hlen, h0, h1 =>
        have hrest : rest.length = 32 := by simpa using hlen
        have hbytes : (Uint256.ofSlice rest).bytes = rest := Uint256.bytes_ofSlice hrest
        change OP_1 :: 32 :: (Uint256.ofSlice rest).bytes = a :: b :: rest
        rw [hbytes, ← Option.some_inj.1 h0, ← Option.some_inj.1 h1]
    · rw [if_neg hkey] at h
      exact absurd rfl h
  · rw [if_neg hform] at h
    split_ifs at h with hconnect
    · obtain ⟨p, hp⟩ := Option.isSome_iff_exists.1 hconnect.2.2
      let c : CTxOut := ⟨.PAY_TO_CONNECT, Uint256.null, 0, script, (fun h => by cases h), fun _ => rfl⟩
      refine ⟨c, Or.inr ⟨p, ?_⟩, rfl⟩
      rw [← CTxOut.object_getPayToDomain]
      exact hp
    · exact absurd rfl h

theorem setScriptPubKey_invalid {o : TxOutObject} {script : Bytes} (h : (o.setScriptPubKey script).type = 0) :
    o.setScriptPubKey script = ⟨0, Uint256.null, o.nValue, script⟩ := by
  unfold setScriptPubKey at h ⊢
  dsimp only at h ⊢
  split_ifs at h ⊢ <;> first | rfl | cases h

end TxOutObject

/-! ## Views and payloads -/

/-- Two valid outputs with one view have the same type and the same key. -/
theorem CTxOut.Valid.of_view {a b : CTxOut} (ha : a.Valid) (hb : b.Valid) (h : a.scriptPubKey = b.scriptPubKey) :
    a.type = b.type ∧ a.p2pkPubkey = b.p2pkPubkey := by
  have hread := TxOutObject.setScriptPubKey_view ha a.object
  rw [h, TxOutObject.setScriptPubKey_view hb a.object] at hread
  exact ⟨(TxOutputType.toByte_inj (congrArg TxOutObject.type hread)).symm, (congrArg TxOutObject.p2pkPubkey hread).symm⟩

/-- The payload on the wire is the view with other bytes in front. -/
theorem CTxOut.Valid.view_iff_payload {a b : CTxOut} (ha : a.Valid) (hb : b.Valid) :
    a.scriptPubKey = b.scriptPubKey ↔ a.payload = b.payload := by
  have hview : ∀ p : PayToDomainOutput, p2cCompatibilityView p = OP_2 :: p2cBody p := fun _ => rfl
  rcases ha with ⟨k, hk⟩ | ⟨p, hp⟩
  · rw [payload_p2pk hk, (CTxOut.getP2PKPubKey_eq_some.1 hk).2.2]
    rcases hb with ⟨k', hk'⟩ | ⟨p', hp'⟩
    · rw [payload_p2pk hk', (CTxOut.getP2PKPubKey_eq_some.1 hk').2.2]
      simp
    · rw [payload_p2c hp', (CTxOut.getPayToDomain_eq_some hp').2.1, hview]
      simp [OP_1, OP_2]
  · rw [payload_p2c hp, (CTxOut.getPayToDomain_eq_some hp).2.1, hview]
    rcases hb with ⟨k', hk'⟩ | ⟨p', hp'⟩
    · rw [payload_p2pk hk', (CTxOut.getP2PKPubKey_eq_some.1 hk').2.2]
      simp [OP_1, OP_2]
    · rw [payload_p2c hp', (CTxOut.getPayToDomain_eq_some hp').2.1, hview]
      simp

/-- The view of a valid output is read back as that output, outputs of one amount differ in their views, any other
script gets the invalid type, no script has both types, and the view says as much as the payload. -/
theorem views_of_valid_outputs : (∀ (c : CTxOut) (o : TxOutObject),
      c.Valid → o.setScriptPubKey c.scriptPubKey = { c.object with nValue := o.nValue }) ∧
    (∀ a b : CTxOut, a.Valid → b.Valid → a.nValue = b.nValue → a ≠ b → a.scriptPubKey ≠ b.scriptPubKey) ∧
    (∀ script : Bytes, (∀ c : CTxOut, c.Valid → c.scriptPubKey ≠ script) →
      ∀ o : TxOutObject, o.setScriptPubKey script = ⟨TxOutputType.INVALID.toByte, Uint256.null, o.nValue, script⟩) ∧
    (∀ a b : CTxOut, a.Valid → b.Valid → a.type ≠ b.type → a.scriptPubKey ≠ b.scriptPubKey) ∧
    ∀ a b : CTxOut, a.Valid → b.Valid → (a.scriptPubKey = b.scriptPubKey ↔ a.payload = b.payload) := by
  refine ⟨fun c o hc => TxOutObject.setScriptPubKey_view hc o, ?_, ?_, ?_, fun a b ha hb => ha.view_iff_payload hb⟩
  · intro a b ha hb hvalue hne hview
    obtain ⟨htype, hkey⟩ := ha.of_view hb hview
    exact hne (txOut_ext htype hkey hvalue hview)
  · intro script hnone o
    apply TxOutObject.setScriptPubKey_invalid
    by_contra htyped
    obtain ⟨c, hc, hview⟩ := TxOutObject.exists_valid_of_typed htyped
    exact hnone c hc hview
  · intro a b ha hb htype hview
    exact htype (ha.of_view hb hview).1

end

section
attribute [local instance] toyCrypto

/-- The view of a key is read back into an object that held something else; another key has another view. -/
theorem views_of_two_keys : (⟨2, Uint256.null, 9, [1, 2]⟩ : TxOutObject).setScriptPubKey
      (p2pkOutput 5 (Uint256.ofNat 1) (by decide)).scriptPubKey =
        ⟨1, Uint256.ofNat 1, 9, (p2pkOutput 5 (Uint256.ofNat 1) (by decide)).scriptPubKey⟩ ∧
    (p2pkOutput 5 (Uint256.ofNat 1) (by decide)).scriptPubKey ≠
    (p2pkOutput 5 (Uint256.ofNat 2) (by decide)).scriptPubKey := by
  have hone : (p2pkOutput 5 (Uint256.ofNat 1) (by decide)).Valid := Or.inl ⟨_, getP2PKPubKey_p2pkOutput _ _ _⟩
  have htwo : (p2pkOutput 5 (Uint256.ofNat 2) (by decide)).Valid := Or.inl ⟨_, getP2PKPubKey_p2pkOutput _ _ _⟩
  exact ⟨views_of_valid_outputs.1 _ _ hone, views_of_valid_outputs.2.1 _ _ hone htwo rfl (by decide)⟩

end

end ConnectCoin
