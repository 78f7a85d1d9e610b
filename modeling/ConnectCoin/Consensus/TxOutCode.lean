/-
The wire form of an output (`CTxOut::Serialize`, `CTxOut::Unserialize`, `primitives/transaction.h`).

- `serializeOrThrow`: amount, type byte and payload; it throws when the public view does not fit the type.
- `unserializeTxOut`: the reader; the payload goes through `SetP2PK` or `SetPayToDomain`, which rebuild the view.
- `CTxOut.stored`: what is left of an output after it was written and read back. Type 0 has no payload, so its script is
  lost; every other output comes back as it was.
Results: `unserializeTxOut_exact`: the reader accepts the encodings of stored outputs and nothing else; hence
`txOut_one_encoding`: equal outputs are those with equal bytes.
-/
import ConnectCoin.Consensus.TxIdentity

namespace ConnectCoin

open Lib List

section
variable [Crypto]

/-! ## Reading a payload -/

variable (nValue : Int64)

/-- `SetP2PK` on an output that holds an amount -/
def p2pkOutput (pubkey : Uint256) (h : Crypto.isFullyValid pubkey = true) : CTxOut where
  type := .P2PK
  p2pkPubkey := pubkey
  nValue := nValue
  scriptPubKey := OP_1 :: 32 :: pubkey.bytes
  key_valid := fun _ => h
  key_null := fun hne => absurd rfl hne

/-- `SetPayToDomain` on an output that holds an amount -/
def p2cOutput (p2c : PayToDomainOutput) : CTxOut where
  type := .PAY_TO_CONNECT
  p2pkPubkey := Uint256.null
  nValue := nValue
  scriptPubKey := p2cCompatibilityView p2c
  key_valid := fun h => by cases h
  key_null := fun _ => rfl

/-- an output of type 0 -/
def invalidOutput : CTxOut where
  type := .INVALID
  p2pkPubkey := Uint256.null
  nValue := nValue
  scriptPubKey := []
  key_valid := fun h => by cases h
  key_null := fun _ => rfl

/-- the payload of type 1 -/
def readP2PK : Reader CTxOut := do
  let pubkey := Uint256.ofSlice (← readBytes endOfData 32)
  if h : Crypto.isFullyValid pubkey = true then return p2pkOutput nValue pubkey h
  else fromExcept (.error "Invalid P2PK x-only public key")

/-- the payload of type 2 -/
def readP2C : Reader CTxOut := do
  let domainSize ← readByte endOfData
  let domain ← readBytes endOfData domainSize.toNat
  ensure (isCanonicalP2CDomain domain = true) "Invalid PAY_TO_CONNECT domain"
  let target ← readBytes endOfData 32
  let version ← readLE endOfData 4
  ensure (version ≠ 0) "Invalid PAY_TO_CONNECT root certificate version"
  let mask ← readByte endOfData
  ensure (isValidP2CSignatureAlgorithmsMask mask = true) "Invalid PAY_TO_CONNECT signature algorithms mask"
  return p2cOutput nValue ⟨domain, Uint256.ofSlice target, UInt32.ofNat version, mask⟩

/-- `UnserializePayload` into an output that holds an amount -/
def unserializePayload : Reader CTxOut := do
  let encodedType ← readByte endOfData
  if encodedType = 1 then readP2PK nValue
  else if encodedType = 2 then readP2C nValue
  else if encodedType = 0 then return invalidOutput nValue
  else fromExcept (.error "Unknown transaction output type")

/-- what is left of an output after it was written and read back -/
def CTxOut.stored (o : CTxOut) : CTxOut := if o.type = .INVALID then invalidOutput o.nValue else o

theorem CTxOut.stored_nValue (o : CTxOut) : o.stored.nValue = o.nValue := by
  unfold stored
  split_ifs <;> rfl

/-- Amount, type and typed payload are kept. -/
theorem CTxOut.stored_same (o : CTxOut) : Same o.stored o := by
  unfold stored
  split_ifs with h
  · simp [Same, invalidOutput, h, getP2PKPubKey, getPayToDomain]
  · exact ⟨rfl, rfl, rfl, rfl⟩

variable {o : CTxOut} (nValue : Int64)

theorem CTxOut.Valid.stored (h : o.Valid) : o.stored = o := by
  refine if_neg fun hinvalid => ?_
  rcases h with ⟨k, hk⟩ | ⟨p, hp⟩
  · simp [(getP2PKPubKey_eq_some.1 hk).1] at hinvalid
  · simp [(getPayToDomain_eq_some hp).1] at hinvalid

theorem CTxOut.stored_of_typed (h : isTypedOutput o = true) : o.stored = o := (isTypedOutput_cases h).stored

theorem readP2PK_bytes (k : Uint256) (hk : Crypto.isFullyValid k = true) (t : Bytes) :
    readP2PK nValue (k.bytes ++ t) = .ok (p2pkOutput nValue k hk, t) := by
  rw [readP2PK, then_bytes]
  refine ⟨k.bytes, t, k.bytes_length, rfl, ?_⟩
  simp only [Uint256.ofSlice_bytes, hk, dite_true]
  rfl

theorem readP2C_body {p : PayToDomainOutput} (hdomain : isCanonicalP2CDomain p.domain = true)
    (hversion : p.rootCertificatesVersion ≠ 0)
    (hmask : isValidP2CSignatureAlgorithmsMask p.signatureAlgorithmsMask = true) (t : Bytes) :
    readP2C nValue (p2cBody p ++ t) = .ok (p2cOutput nValue p, t) := by
  have hlen := isCanonicalP2CDomain_length hdomain
  have hsize : (UInt8.ofNat p.domain.length).toNat = p.domain.length := by
    rw [UInt8.toNat_ofNat']
    rw [MAX_P2C_DOMAIN_LENGTH] at hlen
    omega
  have hne : p.rootCertificatesVersion.toNat ≠ 0 := fun h => hversion (UInt32.toNat_inj.1 h)
  simp only [readP2C, p2cBody, then_byte, then_bytes, then_ensure, then_le, append_assoc, cons_append, nil_append]
  refine ⟨_, _, rfl, p.domain, _, hsize.symm, rfl, hdomain, p.connectionWorkTarget.bytes, _, by simp, rfl, _, _,
    p.rootCertificatesVersion.toNat_lt, rfl, hne, _, _, rfl, hmask, ?_⟩
  rw [Uint256.ofSlice_bytes, UInt32.ofNat_toNat]
  rfl

/-- What `SerializePayload` writes is read back as the stored output. -/
theorem unserializePayload_payload (h : o.serializePayload.isOk = true) (t : Bytes) :
    unserializePayload o.nValue (o.payload ++ t) = .ok (o.stored, t) := by
  rw [unserializePayload, then_byte]
  rcases serializePayload_isOk.1 h with htype | hvalid
  · refine ⟨0, t, by rw [CTxOut.payload, CTxOut.serializePayload, htype]; rfl, ?_⟩
    rw [if_neg (by decide), if_neg (by decide), if_pos rfl, CTxOut.stored, if_pos htype]
    rfl
  · rw [hvalid.stored]
    rcases hvalid with ⟨k, hk⟩ | ⟨p, hp⟩
    · obtain ⟨htype, hkey, hscript⟩ := CTxOut.getP2PKPubKey_eq_some.1 hk
      have hvalid : Crypto.isFullyValid k = true := hkey ▸ o.key_valid htype
      refine ⟨1, k.bytes ++ t, by rw [payload_p2pk hk]; rfl, ?_⟩
      rw [if_pos rfl, readP2PK_bytes _ k hvalid,
        txOut_ext (a := p2pkOutput o.nValue k hvalid) (b := o) htype.symm hkey.symm rfl hscript.symm]
    · obtain ⟨htype, hscript, hdomain, hversion, hmask⟩ := CTxOut.getPayToDomain_eq_some hp
      refine ⟨2, p2cBody p ++ t, by rw [payload_p2c hp]; rfl, ?_⟩
      rw [if_neg (by decide), if_pos rfl, readP2C_body _ hdomain hversion hmask,
        txOut_ext (a := p2cOutput o.nValue p) (b := o) htype.symm (o.key_null (by simp [htype])).symm rfl hscript.symm]

/-! ## Reading an output -/

/-- `Unserialize` -/
def unserializeTxOut : Reader CTxOut := do
  let nValue ← readLE endOfData 8
  unserializePayload (UInt64.ofNat nValue).toInt64

/-- `Serialize`; a throw from the payload stops it -/
def CTxOut.serializeOrThrow (o : CTxOut) : Except String Bytes :=
  o.serializePayload.map fun payload => leBytes 8 o.nValue.toUInt64.toNat ++ payload

theorem CTxOut.payload_of_ok {b : Bytes} (h : o.serializePayload = .ok b) : o.payload = b := by
  rw [payload, h]
  rfl

/-- It gives the bytes of `serialize`, or throws with the payload. -/
theorem CTxOut.serializeOrThrow_eq_ok {b : Bytes} :
    o.serializeOrThrow = .ok b ↔ o.serializePayload.isOk = true ∧ o.serialize = b := by
  unfold serializeOrThrow serialize payload
  cases o.serializePayload with
  | error e => simp [Except.map, Except.isOk, Except.toBool]
  | ok p => simp [Except.map, Except.isOk, Except.toBool, Except.toOption]

theorem getP2PKPubKey_p2pkOutput (k : Uint256) (hk : Crypto.isFullyValid k = true) :
    (p2pkOutput nValue k hk).getP2PKPubKey = some k := CTxOut.getP2PKPubKey_eq_some.2 ⟨rfl, rfl, rfl⟩

variable {nValue}

/-- A key that is read is on the curve, and the output spells it again. -/
theorem readP2PK_ok {s t : Bytes} (h : readP2PK nValue s = .ok (o, t)) :
    o.nValue = nValue ∧ o.stored = o ∧ o.serializePayload = .ok (1 :: o.p2pkPubkey.bytes) ∧
      s = o.p2pkPubkey.bytes ++ t := by
  rw [readP2PK, then_bytes] at h
  obtain ⟨b, t', hlen, rfl, h⟩ := h
  by_cases hk : Crypto.isFullyValid (Uint256.ofSlice b) = true
  · rw [dif_pos hk, reads_pure] at h
    obtain ⟨rfl, rfl⟩ := h
    refine ⟨rfl, rfl, ?_, ?_⟩
    · rw [CTxOut.serializePayload, getP2PKPubKey_p2pkOutput]
      rfl
    · change _ = (Uint256.ofSlice b).bytes ++ t
      rw [Uint256.bytes_ofSlice hlen]
  · rw [dif_neg hk, reads_fromExcept] at h
    cases h.1

/-- A domain that is read is canonical, and the output spells it again. -/
theorem readP2C_ok {s t : Bytes} (h : readP2C nValue s = .ok (o, t)) :
    ∃ p, o.getPayToDomain = some p ∧ o.nValue = nValue ∧ o.stored = o ∧ o.serializePayload = .ok (2 :: p2cBody p) ∧
      s = p2cBody p ++ t := by
  simp only [readP2C, then_byte, then_bytes, then_ensure, then_le, reads_pure] at h
  obtain ⟨size, _, rfl, domain, _, hlen, rfl, hdomain, target, _, htarget, rfl, version, _, hversion, rfl, hne, mask, _,
      rfl, hmask, ho, rfl⟩ := h
  have hword : (UInt32.ofNat version).toNat = version := UInt32.toNat_ofNat_of_lt' hversion
  have hroots : UInt32.ofNat version ≠ 0 := by
    intro hzero
    rw [hzero] at hword
    exact hne hword.symm
  have hp : o.getPayToDomain = some ⟨domain, Uint256.ofSlice target, UInt32.ofNat version, mask⟩ := by
    rw [ho]
    exact CTxOut.getPayToDomain_of_view rfl rfl hdomain hroots hmask
  refine ⟨_, hp, by rw [ho]; rfl, by rw [ho]; rfl, ?_, ?_⟩
  · rw [CTxOut.serializePayload, hp, (CTxOut.getPayToDomain_eq_some hp).1]
    rfl
  · simp [p2cBody, hlen, hword, Uint256.bytes_ofSlice htarget]

/-- What is read is a stored output, and its payload is what was consumed. -/
theorem unserializePayload_ok {s t : Bytes} (h : unserializePayload nValue s = .ok (o, t)) :
    o.nValue = nValue ∧ o.stored = o ∧ o.serializePayload.isOk = true ∧ s = o.payload ++ t := by
  rw [unserializePayload, then_byte] at h
  obtain ⟨encodedType, rest, rfl, h⟩ := h
  split_ifs at h with h₁ h₂ h₃
  · obtain ⟨hvalue, hstored, hser, rfl⟩ := readP2PK_ok h
    exact ⟨hvalue, hstored, by rw [hser]; rfl, by rw [CTxOut.payload_of_ok hser, h₁]; rfl⟩
  · obtain ⟨p, -, hvalue, hstored, hser, rfl⟩ := readP2C_ok h
    exact ⟨hvalue, hstored, by rw [hser]; rfl, by rw [CTxOut.payload_of_ok hser, h₂]; rfl⟩
  · obtain ⟨rfl, rfl⟩ := (reads_pure _ _ _ _).1 h
    exact ⟨rfl, rfl, rfl, by rw [h₃]; rfl⟩
  · cases ((reads_fromExcept _ _ _ _).1 h).1

/-- An output that serializes is read back as its stored form, whatever follows. -/
theorem unserializeTxOut_serialize (h : o.serializePayload.isOk = true) (t : Bytes) :
    unserializeTxOut (o.serialize ++ t) = .ok (o.stored, t) := by
  rw [unserializeTxOut, then_le]
  refine ⟨o.nValue.toUInt64.toNat, o.payload ++ t, o.nValue.toUInt64.toNat_lt, append_assoc _ _ _, ?_⟩
  rw [UInt64.ofNat_toNat, Int64.toInt64_toUInt64, unserializePayload_payload h]

/-- The reader accepts the encodings of stored outputs and nothing else. -/
theorem unserializeTxOut_exact :
    Exact unserializeTxOut (fun o => o.stored = o ∧ o.serializePayload.isOk = true) CTxOut.serialize := by
  intro o s t
  constructor
  · intro h
    rw [unserializeTxOut, then_le] at h
    obtain ⟨v, rest, hv, rfl, h⟩ := h
    obtain ⟨hvalue, hstored, hser, rfl⟩ := unserializePayload_ok h
    refine ⟨⟨hstored, hser⟩, ?_⟩
    rw [CTxOut.serialize, hvalue, UInt64.toUInt64_toInt64, UInt64.toNat_ofNat_of_lt' hv, append_assoc]
  · rintro ⟨⟨hstored, hser⟩, rfl⟩
    rw [unserializeTxOut_serialize hser, hstored]

/-! ## One encoding for each output -/

theorem CTxOut.Same.serializePayload {a b : CTxOut} (h : a.Same b) : a.serializePayload = b.serializePayload := by
  obtain ⟨-, htype, hkey, hp2c⟩ := h
  rw [CTxOut.serializePayload, CTxOut.serializePayload, htype, hkey, hp2c]

theorem CTxOut.Same.trans {a b c : CTxOut} (h : a.Same b) (h' : b.Same c) : a.Same c :=
  ⟨h.1.trans h'.1, h.2.1.trans h'.2.1, h.2.2.1.trans h'.2.2.1, h.2.2.2.trans h'.2.2.2⟩

/-- Two outputs that serialize are equal iff their bytes are. -/
theorem CTxOut.same_iff_serialize {a b : CTxOut} (ha : a.serializePayload.isOk = true)
    (hb : b.serializePayload.isOk = true) : a.Same b ↔ a.serialize = b.serialize := by
  constructor
  · intro h
    rw [serialize, serialize, payload, payload, h.1, h.serializePayload]
  · intro h
    have hreada := unserializeTxOut_serialize ha []
    have hreadb := unserializeTxOut_serialize hb []
    rw [h, hreadb] at hreada
    have hstored : b.stored = a.stored := (Prod.mk.inj (Except.ok.inj hreada)).1
    have hsame := b.stored_same
    rw [hstored] at hsame
    exact a.stored_same.flip.trans hsame

/-- Bytes and outputs determine each other: an accepted encoding is the one its output has, an output that serializes is
read back equal from its bytes, and two outputs share their bytes exactly when they are equal. Outside type 0 the script
comes back too. -/
theorem txOut_one_encoding :
    (∀ (s t : Bytes) (o : CTxOut), unserializeTxOut s = .ok (o, t) → ∃ b, o.serializeOrThrow = .ok b ∧ s = b ++ t) ∧
    (∀ (o : CTxOut) (b t : Bytes), o.serializeOrThrow = .ok b →
      ∃ o' : CTxOut, unserializeTxOut (b ++ t) = .ok (o', t) ∧ o'.Same o ∧
      (o.type ≠ .INVALID → o'.scriptPubKey = o.scriptPubKey)) ∧
    (∀ (a b : CTxOut) (e e' : Bytes), a.serializeOrThrow = .ok e → b.serializeOrThrow = .ok e' → (a.Same b ↔ e = e')) ∧
    ∀ (a b : CTxOut) (e : Bytes), a.serializeOrThrow = .ok e → b.serializeOrThrow = .ok e →
      a.type ≠ .INVALID → a = b := by
  have hread : ∀ (o : CTxOut) (b t : Bytes), o.serializeOrThrow = .ok b →
      unserializeTxOut (b ++ t) = .ok (o.stored, t) := by
    intro o b t h
    obtain ⟨hser, rfl⟩ := CTxOut.serializeOrThrow_eq_ok.1 h
    exact unserializeTxOut_serialize hser t
  have hsame : ∀ (a b : CTxOut) (e e' : Bytes), a.serializeOrThrow = .ok e → b.serializeOrThrow = .ok e' →
      (a.Same b ↔ e = e') := by
    intro a b e e' ha hb
    obtain ⟨hsera, rfl⟩ := CTxOut.serializeOrThrow_eq_ok.1 ha
    obtain ⟨hserb, rfl⟩ := CTxOut.serializeOrThrow_eq_ok.1 hb
    exact CTxOut.same_iff_serialize hsera hserb
  refine ⟨?_, ?_, hsame, ?_⟩
  · intro s t o h
    obtain ⟨⟨-, hser⟩, rfl⟩ := (unserializeTxOut_exact o s t).1 h
    exact ⟨o.serialize, CTxOut.serializeOrThrow_eq_ok.2 ⟨hser, rfl⟩, rfl⟩
  · intro o b t h
    refine ⟨o.stored, hread o b t h, o.stored_same, ?_⟩
    intro htype
    rw [CTxOut.stored, if_neg htype]
  · intro a b e ha hb htype
    have hb' : b.type ≠ .INVALID := by
      rw [← ((hsame a b e e ha hb).2 rfl).2.1]
      exact htype
    have hreada := hread a e [] ha
    rw [hread b e [] hb, CTxOut.stored, CTxOut.stored, if_neg htype, if_neg hb'] at hreada
    exact (Prod.mk.inj (Except.ok.inj hreada)).1.symm

end

section
attribute [local instance] toyCrypto

/-- A key output is read back from its 41 bytes. -/
theorem txOut_one_encoding_p2pk :
    ∃ b, (p2pkOutput 5 (Uint256.ofNat 1) (by decide)).serializeOrThrow = .ok b ∧ b.length = 41 ∧ ∃ o' :
    CTxOut, unserializeTxOut (b ++ [7]) = .ok (o', [7]) ∧ o'.Same (p2pkOutput 5 (Uint256.ofNat 1) (by decide)) := by
  have hser : (p2pkOutput 5 (Uint256.ofNat 1) (by decide)).serializeOrThrow =
      .ok (p2pkOutput 5 (Uint256.ofNat 1) (by decide)).serialize := CTxOut.serializeOrThrow_eq_ok.2 ⟨by decide, rfl⟩
  obtain ⟨o', hread, hsame, -⟩ := txOut_one_encoding.2.1 _ _ [7] hser
  exact ⟨_, hser, by decide, o', hread, hsame⟩

end

end ConnectCoin
