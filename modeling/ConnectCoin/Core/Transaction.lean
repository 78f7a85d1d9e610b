/-
Transactions and their typed outputs (`primitives/transaction.h`, `primitives/transaction.cpp`).

- `CTxOut`: amount, output type, x-only key and the compatibility script view. The key is private in the source and only
  written after the curve check: the two fields `key_valid`, `key_null` carry that.
- `serializePayload`: type byte, then the payload; it throws when the public view was changed behind the type's back.
- `CTransaction`: a constructed transaction. Its constructor hashes it, so its outputs serialize (`payloads`), and its
  vectors have a `size_t` size.
- `txid` / `wtxid`: double SHA-256 of the serialization without / with witnesses.

Left out: `ToString`, hex views, ordering.
-/
import ConnectCoin.Core.Hash
import ConnectCoin.Core.Serialize

namespace ConnectCoin

open Lib List

/-! ## Inputs -/

structure COutPoint where
  hash : Uint256
  n : UInt32
  deriving DecidableEq

/-- `COutPoint::NULL_INDEX` -/
def NULL_INDEX : UInt32 := 0xffffffff

def COutPoint.isNull (p : COutPoint) : Bool := p.hash.isNull && p.n == NULL_INDEX

def COutPoint.serialize (p : COutPoint) : Bytes := p.hash.bytes ++ leBytes 4 p.n.toNat

structure CTxIn where
  prevout : COutPoint
  scriptSig : Bytes
  nSequence : UInt32
  /-- the witness stack, serialized through the transaction only -/
  scriptWitness : List Bytes
  deriving DecidableEq

/-- `CTxIn::SEQUENCE_FINAL` -/
def SEQUENCE_FINAL : UInt32 := 0xffffffff

def CTxIn.serialize (i : CTxIn) : Bytes := i.prevout.serialize ++ byteVector i.scriptSig ++ leBytes 4 i.nSequence.toNat

/-! ## Domains and the pay-to-connect payload -/

/-- `MAX_P2C_DOMAIN_LENGTH` -/
def MAX_P2C_DOMAIN_LENGTH : ℕ := 253

/-- a lower-case letter, a digit or a hyphen -/
def isDomainChar (ch : UInt8) : Bool := (97 ≤ ch && ch ≤ 122) || (48 ≤ ch && ch ≤ 57) || ch == 45

/-- The loop of `IsCanonicalP2CDomain`: `labelSize` characters of the current label are behind, `prev` is the last
character. Returns the size of the last label, or none where the source returns false. -/
def domainLoop : ℕ → UInt8 → Bytes → Option ℕ
  | labelSize, _, [] => some labelSize
  | labelSize, prev, ch :: rest =>
    if ch = 46 then
      if labelSize = 0 ∨ labelSize > 63 ∨ prev = 45 then none else domainLoop 0 ch rest
    else if !isDomainChar ch then none
    else if labelSize = 0 ∧ ch = 45 then none
    else if labelSize + 1 > 63 then none
    else domainLoop (labelSize + 1) ch rest

/-- `IsCanonicalP2CDomain` -/
def isCanonicalP2CDomain (domain : Bytes) : Bool :=
  if domain = [] ∨ domain.length > MAX_P2C_DOMAIN_LENGTH ∨ domain.getLast? = some 46 then false
  else match domainLoop 0 0 domain with
    | none => false
    | some labelSize => labelSize != 0 && domain.getLast? != some 45

theorem isCanonicalP2CDomain_length {d : Bytes} (h : isCanonicalP2CDomain d = true) :
    d.length ≤ MAX_P2C_DOMAIN_LENGTH := by
  by_contra hlen
  have hlong : d = [] ∨ d.length > MAX_P2C_DOMAIN_LENGTH ∨ d.getLast? = some 46 := Or.inr (Or.inl (by omega))
  simp [isCanonicalP2CDomain, hlong] at h

structure PayToDomainOutput where
  domain : Bytes
  connectionWorkTarget : Uint256
  rootCertificatesVersion : UInt32
  signatureAlgorithmsMask : UInt8
  deriving DecidableEq

/-- `PayToDomainOutput::SIGNATURE_ALGORITHMS_ALL` -/
def SIGNATURE_ALGORITHMS_ALL : UInt8 := 0x07

/-- `IsValidP2CSignatureAlgorithmsMask`: at least one known bit, no reserved bit -/
def isValidP2CSignatureAlgorithmsMask (mask : UInt8) : Bool := mask != 0 && mask &&& ~~~SIGNATURE_ALGORITHMS_ALL == 0

/-! ## Typed outputs -/

/-- `TxOutputType`; type 0 is reserved and never spendable -/
inductive TxOutputType where
  | INVALID
  | P2PK
  | PAY_TO_CONNECT
  deriving DecidableEq, Repr

def OP_1 : UInt8 := 0x51
def OP_2 : UInt8 := 0x52

/-- a transaction output; the key is only ever set together with a validated P2PK type -/
structure CTxOut [Crypto] where
  type : TxOutputType
  p2pkPubkey : Uint256
  nValue : Int64
  scriptPubKey : Bytes
  key_valid : type = .P2PK → Crypto.isFullyValid p2pkPubkey = true
  key_null : type ≠ .P2PK → p2pkPubkey = Uint256.null
  deriving DecidableEq

/-- the payload of type 2 behind its type byte, which is also the public view behind its opcode -/
def p2cBody (p : PayToDomainOutput) : Bytes :=
  UInt8.ofNat p.domain.length :: (p.domain ++ p.connectionWorkTarget.bytes ++
    leBytes 4 p.rootCertificatesVersion.toNat ++ [p.signatureAlgorithmsMask])

/-- `P2CCompatibilityView` -/
def p2cCompatibilityView (p : PayToDomainOutput) : Bytes := OP_2 :: p2cBody p

/-- `P2CDomainFromView` -/
def p2cDomainFromView : Bytes → Option Bytes
  | op :: size :: rest =>
    if op ≠ OP_2 then none
    else if rest.length ≠ size.toNat + 32 + 4 + 1 then none
    else if isCanonicalP2CDomain (rest.take size.toNat) then some (rest.take size.toNat) else none
  | _ => none

/-- `GetPayToDomain` once the type is known -/
def payToDomainOfView (view : Bytes) : Option PayToDomainOutput :=
  match p2cDomainFromView view with
  | none => none
  | some domain =>
    let after := view.drop (2 + domain.length)
    let result : PayToDomainOutput :=
      { domain
        connectionWorkTarget := Uint256.ofSlice (after.take 32)
        rootCertificatesVersion := UInt32.ofNat (leNat ((after.drop 32).take 4))
        signatureAlgorithmsMask := view.getLastD 0 }
    if result.rootCertificatesVersion = 0 then none
    else if isValidP2CSignatureAlgorithmsMask result.signatureAlgorithmsMask then some result else none

/-- `SerializePayload` for type 1 -/
def p2pkPayload : Option Uint256 → Except String Bytes
  | some pubkey => .ok (1 :: pubkey.bytes)
  | none => .error "Inconsistent P2PK transaction output"

/-- `SerializePayload` for type 2 -/
def p2cPayload : Option PayToDomainOutput → Except String Bytes
  | some p2c => .ok (2 :: p2cBody p2c)
  | none => .error "Inconsistent PAY_TO_CONNECT transaction output"

namespace CTxOut
variable [Crypto] (o : CTxOut)

/-- `GetP2PKPubKey`: the public view still spells OP_1, 32 and the stored key -/
def getP2PKPubKey : Option Uint256 :=
  if o.type = .P2PK ∧ o.scriptPubKey = OP_1 :: 32 :: o.p2pkPubkey.bytes then some o.p2pkPubkey else none

/-- `GetPayToDomain`, read from the view -/
def getPayToDomain : Option PayToDomainOutput :=
  if o.type ≠ .PAY_TO_CONNECT then none else payToDomainOfView o.scriptPubKey

/-- `IsNull`: the amount of a spent or empty output -/
def isNull : Bool := o.nValue == -1

/-- `SerializePayload` -/
def serializePayload : Except String Bytes :=
  match o.type with
  | .P2PK => p2pkPayload o.getP2PKPubKey
  | .PAY_TO_CONNECT => p2cPayload o.getPayToDomain
  | .INVALID => .ok [0]

/-- the payload bytes; the default stands for a throw and is never met in a constructed transaction -/
def payload : Bytes := o.serializePayload.toOption.getD []

/-- amount, then payload -/
def serialize : Bytes := leBytes 8 o.nValue.toUInt64.toNat ++ o.payload

/-- `operator==`: amount, type and typed payload -/
def Same (a b : CTxOut) : Prop :=
  a.nValue = b.nValue ∧ a.type = b.type ∧ a.getP2PKPubKey = b.getP2PKPubKey ∧ a.getPayToDomain = b.getPayToDomain

instance (a b : CTxOut) : Decidable (Same a b) := inferInstanceAs (Decidable (_ ∧ _ ∧ _ ∧ _))

theorem Same.flip {a b : CTxOut} (h : Same a b) : Same b a := ⟨h.1.symm, h.2.1.symm, h.2.2.1.symm, h.2.2.2.symm⟩

theorem getP2PKPubKey_eq_some {o : CTxOut} {k : Uint256} :
    o.getP2PKPubKey = some k ↔ o.type = .P2PK ∧ o.p2pkPubkey = k ∧ o.scriptPubKey = OP_1 :: 32 :: k.bytes := by
  unfold getP2PKPubKey
  constructor
  · intro h
    split_ifs at h with hc
    cases h
    exact ⟨hc.1, rfl, hc.2⟩
  · rintro ⟨ht, rfl, hs⟩
    rw [if_pos ⟨ht, hs⟩]

end CTxOut

/-- A view that names a domain is OP_2, the domain's length, the domain and 37 more bytes. -/
theorem p2cDomainFromView_eq_some {view domain : Bytes} (h : p2cDomainFromView view = some domain) :
    isCanonicalP2CDomain domain = true ∧
      ∃ tail, tail.length = 37 ∧ view = OP_2 :: UInt8.ofNat domain.length :: (domain ++ tail) := by
  match view, h with
  | op :: size :: rest, h =>
    simp only [p2cDomainFromView] at h
    split_ifs at h with h₁ h₂ h₃
    cases h
    have hsize := size.toNat_lt
    have hlen : (rest.take size.toNat).length = size.toNat := length_take_of_le (by omega)
    refine ⟨h₃, rest.drop size.toNat, by rw [length_drop]; omega, ?_⟩
    rw [hlen, take_append_drop, UInt8.ofNat_toNat, not_not.1 h₁]

namespace CTxOut
variable [Crypto]

/-- The public view of a consistent pay-to-connect output is the compatibility view of its payload. -/
theorem getPayToDomain_eq_some {o : CTxOut} {p : PayToDomainOutput} (h : o.getPayToDomain = some p) :
    o.type = .PAY_TO_CONNECT ∧ o.scriptPubKey = p2cCompatibilityView p ∧ isCanonicalP2CDomain p.domain = true ∧
      p.rootCertificatesVersion ≠ 0 ∧ isValidP2CSignatureAlgorithmsMask p.signatureAlgorithmsMask = true := by
  unfold getPayToDomain payToDomainOfView at h
  split_ifs at h with ht
  split at h
  · cases h
  · next domain hd =>
    obtain ⟨hcanon, tail, htail, hview⟩ := p2cDomainFromView_eq_some hd
    -- the 37 bytes behind the domain: target, root version, mask
    obtain ⟨fixed, mask, rfl⟩ : ∃ fixed mask, tail = fixed ++ [mask] := by
      rcases eq_nil_or_concat tail with rfl | ⟨fixed, mask, rfl⟩
      · simp at htail
      · exact ⟨fixed, mask, by simp⟩
    have hfixed : fixed.length = 36 := by simpa using htail
    have hdrop : o.scriptPubKey.drop (2 + domain.length) = fixed ++ [mask] := by
      rw [hview, Nat.add_comm]; simp
    have hlast : o.scriptPubKey.getLastD 0 = mask := by
      rw [hview, ← append_assoc, ← cons_append, ← cons_append, getLastD_concat]
    have htarget : (fixed ++ [mask]).take 32 = fixed.take 32 := take_append_of_le_length (by omega)
    have hversion : ((fixed ++ [mask]).drop 32).take 4 = fixed.drop 32 := by
      rw [drop_append_of_le_length (by omega), take_append_of_le_length (by simp [hfixed]),
        take_of_length_le (by simp [hfixed])]
    simp only [hdrop, hlast, htarget, hversion] at h
    split_ifs at h with h₁ h₂
    cases h
    have hver : leBytes 4 (UInt32.ofNat (leNat (fixed.drop 32))).toNat = fixed.drop 32 := by
      have hlen : (fixed.drop 32).length = 4 := by simp [hfixed]
      have hlt := leNat_lt (fixed.drop 32)
      rw [hlen] at hlt
      rw [UInt32.toNat_ofNat_of_lt' hlt, ← hlen, leBytes_leNat]
    have htgt : (Uint256.ofSlice (fixed.take 32)).bytes = fixed.take 32 := Uint256.bytes_ofSlice (by simp [hfixed])
    refine ⟨not_not.1 ht, ?_, hcanon, h₁, h₂⟩
    simp only [p2cCompatibilityView, p2cBody, hview, hver, htgt, append_assoc]
    rw [← append_assoc (fixed.take 32), take_append_drop]

/-- The compatibility view of a payload in form is decoded to that payload. -/
theorem getPayToDomain_of_view {o : CTxOut} {p : PayToDomainOutput} (htype : o.type = .PAY_TO_CONNECT)
    (hview : o.scriptPubKey = p2cCompatibilityView p) (hdomain : isCanonicalP2CDomain p.domain = true)
    (hversion : p.rootCertificatesVersion ≠ 0)
    (hmask : isValidP2CSignatureAlgorithmsMask p.signatureAlgorithmsMask = true) : o.getPayToDomain = some p := by
  have hlen := isCanonicalP2CDomain_length hdomain
  rw [MAX_P2C_DOMAIN_LENGTH] at hlen
  have hsize : (UInt8.ofNat p.domain.length).toNat = p.domain.length := by
    rw [UInt8.toNat_ofNat']
    omega
  have hfrom : p2cDomainFromView o.scriptPubKey = some p.domain := by
    simp [hview, p2cCompatibilityView, p2cBody, p2cDomainFromView, hsize, hdomain, Nat.add_assoc]
  have hdrop : o.scriptPubKey.drop (2 + p.domain.length) =
      p.connectionWorkTarget.bytes ++ (leBytes 4 p.rootCertificatesVersion.toNat ++ [p.signatureAlgorithmsMask]) := by
    rw [hview, p2cCompatibilityView, Nat.add_comm]
    simp [p2cBody]
  have hlast : o.scriptPubKey.getLastD 0 = p.signatureAlgorithmsMask := by
    rw [hview, p2cCompatibilityView, p2cBody, ← cons_append, ← cons_append, getLastD_concat]
  have htarget : Uint256.ofSlice ((o.scriptPubKey.drop (2 + p.domain.length)).take 32) = p.connectionWorkTarget := by
    rw [hdrop, take_left' (Uint256.bytes_length _), Uint256.ofSlice_bytes]
  have hroots : UInt32.ofNat (leNat (((o.scriptPubKey.drop (2 + p.domain.length)).drop 32).take 4)) =
      p.rootCertificatesVersion := by
    rw [hdrop, drop_left' (Uint256.bytes_length _), take_left' (leBytes_length _ _),
      leNat_leBytes_of_lt p.rootCertificatesVersion.toNat_lt, UInt32.ofNat_toNat]
  rw [getPayToDomain, if_neg (not_not.2 htype), payToDomainOfView, hfrom]
  simp only [htarget, hroots, hlast, if_neg hversion, hmask, if_true]

end CTxOut

/-! ## Transactions -/

theorem nil_fits {α : Type} : ([] : List α).length < 2 ^ 64 := by simp

/-- a constructed transaction: every output serializes, every vector has a 64-bit size -/
structure CTransaction [Crypto] where
  vin : List CTxIn
  vout : List CTxOut
  version : UInt32
  nLockTime : UInt32
  payloads : ∀ o ∈ vout, o.serializePayload.isOk = true
  vin_size : vin.length < 2 ^ 64
  vout_size : vout.length < 2 ^ 64
  scriptSig_size : ∀ i ∈ vin, i.scriptSig.length < 2 ^ 64
  stack_size : ∀ i ∈ vin, i.scriptWitness.length < 2 ^ 64 ∧ ∀ w ∈ i.scriptWitness, w.length < 2 ^ 64
  deriving DecidableEq

namespace CTransaction
variable [Crypto] (tx : CTransaction)

/-- the outpoints of the inputs -/
abbrev prevouts : List COutPoint := tx.vin.map CTxIn.prevout

/-- `ComputeHasWitness` -/
def hasWitness : Bool := tx.vin.any fun i => !i.scriptWitness.isEmpty

/-- `SerializeTransaction`: the extended format (a zero count, flag 1, witnesses at the end) when there is a witness -/
def serialize (allowWitness : Bool) (tx : CTransaction) : Bytes :=
  let flags := allowWitness && tx.hasWitness
  leBytes 4 tx.version.toNat ++ (if flags then vector CTxIn.serialize [] ++ [1] else []) ++
    vector CTxIn.serialize tx.vin ++ vector CTxOut.serialize tx.vout ++
    (if flags then tx.vin.flatMap fun i => vector byteVector i.scriptWitness else []) ++ leBytes 4 tx.nLockTime.toNat

theorem serialize_noWitness : tx.serialize false = leBytes 4 tx.version.toNat ++ vector CTxIn.serialize tx.vin ++
      vector CTxOut.serialize tx.vout ++ leBytes 4 tx.nLockTime.toNat := by
  simp [serialize]

/-- `GetHash`, the txid -/
def getHash : Uint256 := hash256 (tx.serialize false)

/-- `GetWitnessHash` -/
def getWitnessHash : Uint256 := if tx.hasWitness then hash256 (tx.serialize true) else tx.getHash

/-- `IsCoinBase`: one input, and it spends nothing -/
def isCoinBase : Bool :=
  match tx.vin with
  | [i] => i.prevout.isNull
  | _ => false

end CTransaction

end ConnectCoin
