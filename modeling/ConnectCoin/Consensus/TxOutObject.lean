/-
An output as an object in memory (`class CTxOut`, `primitives/transaction.h`, `primitives/transaction.cpp`).

`CTxOut` of the model carries its invariant. Here the object is the four fields of the source, with the type as a byte
and the amount and the script open to assignment, and every member function that writes to it. A stream that ends or
fails is one that holds fewer bytes.

- `TxOutObject`: type byte, key, amount, script view.
- `TxOutOp`, `step`, `run`: a program over any number of objects. A member function that throws keeps what it wrote
  before; a constructor that throws leaves no object. A constructor starts from memory with any type byte.
- `CTxOut.object`: a `CTxOut` laid out in memory; `Consistent`: an object that is one.
Results: `run_consistent`: every object of every run is a `CTxOut`; `txOut_manipulated`: what that means for types,
keys, failures and bytes.
Premise: `SetPayToDomain` is called on a canonical domain and a root version that is not zero, which it asserts. Running
out of memory is left out.
-/
import ConnectCoin.Consensus.TxOutCode

namespace ConnectCoin

open Lib List

/-! ## The object -/

structure TxOutObject where
  type : UInt8
  p2pkPubkey : Uint256
  nValue : Int64
  scriptPubKey : Bytes
  deriving DecidableEq

/-- the numbers of the output types -/
def TxOutputType.toByte : TxOutputType → UInt8
  | .INVALID => 0
  | .P2PK => 1
  | .PAY_TO_CONNECT => 2

theorem TxOutputType.toByte_inj {a b : TxOutputType} (h : a.toByte = b.toByte) : a = b := by
  cases a <;> cases b <;> first | rfl | cases h

/-- what `SetPayToDomain` asserts of its argument -/
structure AssertedP2C where
  p2c : PayToDomainOutput
  domain_ok : isCanonicalP2CDomain p2c.domain = true
  version_ok : p2c.rootCertificatesVersion ≠ 0

/-- the view of a key: OP_1, its size and the key -/
def p2pkView (pubkey : Uint256) : Bytes := OP_1 :: 32 :: pubkey.bytes

namespace TxOutObject

/-- `GetP2PKPubKey` -/
def getP2PKPubKey (o : TxOutObject) : Option Uint256 :=
  if o.type = 1 ∧ o.scriptPubKey = p2pkView o.p2pkPubkey then some o.p2pkPubkey else none

/-- `GetPayToDomain` -/
def getPayToDomain (o : TxOutObject) : Option PayToDomainOutput :=
  if o.type ≠ 2 then none else payToDomainOfView o.scriptPubKey

/-- `SetNull` -/
def setNull (o : TxOutObject) : TxOutObject :=
  { o with nValue := -1, type := 0, p2pkPubkey := Uint256.null, scriptPubKey := [] }

/-- `SetPayToDomain`: the object it leaves, and the text it throws -/
def setPayToDomain (o : TxOutObject) (p : AssertedP2C) : TxOutObject × Option String :=
  if isValidP2CSignatureAlgorithmsMask p.p2c.signatureAlgorithmsMask = false then
    (o, some "Invalid PAY_TO_CONNECT signature algorithms mask")
  else ({ o with type := 2, p2pkPubkey := Uint256.null, scriptPubKey := p2cCompatibilityView p.p2c }, none)

/-- what `UnserializePayload` does before it reads -/
def clear (o : TxOutObject) : TxOutObject := { o with type := 0, p2pkPubkey := Uint256.null, scriptPubKey := [] }

/-- `SerializePayload` -/
def serializePayload (o : TxOutObject) : Except String Bytes :=
  if o.type = 1 then p2pkPayload o.getP2PKPubKey
  else if o.type = 2 then p2cPayload o.getPayToDomain
  else if o.type = 0 then .ok [0]
  else .error "Unknown transaction output type"

/-- `Serialize` -/
def serialize (o : TxOutObject) : Except String Bytes :=
  o.serializePayload.map fun payload => leBytes 8 o.nValue.toUInt64.toNat ++ payload

/-- `operator==` -/
def Same (a b : TxOutObject) : Prop :=
  a.nValue = b.nValue ∧ a.type = b.type ∧ a.getP2PKPubKey = b.getP2PKPubKey ∧ a.getPayToDomain = b.getPayToDomain

theorem serialize_p2pk {o : TxOutObject} {b : Bytes} (htype : o.type = 1) (h : o.serialize = .ok b) :
    o.scriptPubKey = p2pkView o.p2pkPubkey := by
  by_contra hview
  have hnone : o.getP2PKPubKey = none := if_neg fun hc => hview hc.2
  rw [serialize, serializePayload, if_pos htype, hnone] at h
  cases h

end TxOutObject

/-! ## Reading into an object -/

/-- a payload between the stream and the setter -/
inductive EncodedPayload where
  | invalid
  | p2pk (pubkey : Uint256)
  | p2c (p : AssertedP2C)

/-- the fields of type 2 -/
def readP2CFields : Reader EncodedPayload := do
  let domainSize ← readByte endOfData
  let domain ← readBytes endOfData domainSize.toNat
  if hdomain : isCanonicalP2CDomain domain = true then
    let target ← readBytes endOfData 32
    let version ← readLE endOfData 4
    if hversion : UInt32.ofNat version ≠ 0 then
      let mask ← readByte endOfData
      ensure (isValidP2CSignatureAlgorithmsMask mask = true) "Invalid PAY_TO_CONNECT signature algorithms mask"
      return .p2c ⟨⟨domain, Uint256.ofSlice target, UInt32.ofNat version, mask⟩, hdomain, hversion⟩
    else fromExcept (.error "Invalid PAY_TO_CONNECT root certificate version")
  else fromExcept (.error "Invalid PAY_TO_CONNECT domain")

/-- the type byte and the fields it announces -/
def readEncodedPayload : Reader EncodedPayload := do
  let encodedType ← readByte endOfData
  if encodedType = 1 then return .p2pk (Uint256.ofSlice (← readBytes endOfData 32))
  else if encodedType = 2 then readP2CFields
  else if encodedType = 0 then return .invalid
  else fromExcept (.error "Unknown transaction output type")

/-! ## Programs over outputs -/

/-- what a program does to its outputs, which it names by number -/
inductive TxOutOp where
  | construct
  | constructScript (type : UInt8) (nValue : Int64) (scriptPubKey : Bytes)
  | constructP2PK (type : UInt8) (nValue : Int64) (pubkey : Uint256)
  | constructP2C (type : UInt8) (nValue : Int64) (p2c : AssertedP2C)
  | copy (i : ℕ)
  | assign (i j : ℕ)
  | setNull (i : ℕ)
  | setScriptPubKey (i : ℕ) (scriptPubKey : Bytes)
  | setP2PK (i : ℕ) (pubkey : Uint256)
  | setPayToDomain (i : ℕ) (p2c : AssertedP2C)
  | unserialize (i : ℕ) (stream : Bytes)
  | unserializePayload (i : ℕ) (stream : Bytes)
  | assignValue (i : ℕ) (nValue : Int64)
  | assignScript (i : ℕ) (scriptPubKey : Bytes)

/-- `SetNull`, `SetP2PK` or `SetPayToDomain` -/
def TxOutOp.isSetter : TxOutOp → Bool
  | .setNull _ => true
  | .setP2PK _ _ => true
  | .setPayToDomain _ _ => true
  | _ => false

namespace TxOutProgram

/-- memory a constructor starts from: the type byte is not initialised -/
def uninitialised (type : UInt8) (nValue : Int64) : TxOutObject := ⟨type, Uint256.null, nValue, []⟩

/-- a new object, unless its constructor throws -/
def construct (os : List TxOutObject) : TxOutObject × Option String → List TxOutObject × Option String
  | (o, none) => (os ++ [o], none)
  | (_, some e) => (os, some e)

/-- a member function of object i -/
def call (os : List TxOutObject) (i : ℕ) (f : TxOutObject → TxOutObject × Option String) :
    List TxOutObject × Option String :=
  match os[i]? with
  | none => (os, none)
  | some o => (os.set i (f o).1, (f o).2)

theorem call_throws {os : List TxOutObject} {i : ℕ} {f : TxOutObject → TxOutObject × Option String} {e : String}
    (hf : ∀ o, (f o).2 = some e → (f o).1 = o) (h : (call os i f).2 = some e) : (call os i f).1 = os := by
  unfold call at h ⊢
  cases hi : os[i]? with
  | none => rfl
  | some o =>
    rw [hi] at h
    obtain ⟨hlt, ho⟩ := List.getElem?_eq_some_iff.1 hi
    dsimp only at h ⊢
    rw [hf o h, ← ho, set_getElem_self]

end TxOutProgram

section
variable [Crypto]

namespace TxOutObject

/-- `SetScriptPubKey` -/
def setScriptPubKey (o : TxOutObject) (scriptPubKey : Bytes) : TxOutObject :=
  let untyped : TxOutObject := { o with scriptPubKey, type := 0, p2pkPubkey := Uint256.null }
  if scriptPubKey.length = 34 ∧ scriptPubKey[0]? = some OP_1 ∧ scriptPubKey[1]? = some 32 then
    let pubkey := Uint256.ofSlice (scriptPubKey.drop 2)
    if Crypto.isFullyValid pubkey = true then { untyped with p2pkPubkey := pubkey, type := 1 } else untyped
  else if 2 ≤ scriptPubKey.length ∧ scriptPubKey[0]? = some OP_2 ∧
    ({ untyped with type := 2 } : TxOutObject).getPayToDomain.isSome then
    { untyped with type := 2 }
  else untyped

/-- `SetP2PK`: the object it leaves, and the text it throws -/
def setP2PK (o : TxOutObject) (pubkey : Uint256) : TxOutObject × Option String :=
  if Crypto.isFullyValid pubkey = false then (o, some "Invalid P2PK x-only public key")
  else ({ o with p2pkPubkey := pubkey, scriptPubKey := p2pkView pubkey, type := 1 }, none)

/-- the setter a payload goes through -/
def setPayload (o : TxOutObject) : EncodedPayload → TxOutObject × Option String
  | .invalid => (o, none)
  | .p2pk pubkey => o.setP2PK pubkey
  | .p2c p => o.setPayToDomain p

/-- `UnserializePayload` -/
def unserializePayload (o : TxOutObject) (stream : Bytes) : TxOutObject × Option String :=
  match readEncodedPayload stream with
  | .ok (payload, _) => o.clear.setPayload payload
  | .error e => (o.clear, some e)

/-- `Unserialize` -/
def unserialize (o : TxOutObject) (stream : Bytes) : TxOutObject × Option String :=
  match readLE endOfData 8 stream with
  | .ok (nValue, rest) => ({ o with nValue := (UInt64.ofNat nValue).toInt64 } : TxOutObject).unserializePayload rest
  | .error e => (o, some e)

end TxOutObject

namespace TxOutProgram

/-- the objects after one operation, and the text it threw -/
def step (os : List TxOutObject) : TxOutOp → List TxOutObject × Option String
  | .construct => construct os ((uninitialised 0 0).setNull, none)
  | .constructScript type nValue scriptPubKey =>
    construct os ((uninitialised type nValue).setScriptPubKey scriptPubKey, none)
  | .constructP2PK type nValue pubkey => construct os ((uninitialised type nValue).setP2PK pubkey)
  | .constructP2C type nValue p2c => construct os ((uninitialised type nValue).setPayToDomain p2c)
  | .copy i => (os ++ os[i]?.toList, none)
  | .assign i j => call os i fun o => (os.getD j o, none)
  | .setNull i => call os i fun o => (o.setNull, none)
  | .setScriptPubKey i scriptPubKey => call os i fun o => (o.setScriptPubKey scriptPubKey, none)
  | .setP2PK i pubkey => call os i fun o => o.setP2PK pubkey
  | .setPayToDomain i p2c => call os i fun o => o.setPayToDomain p2c
  | .unserialize i stream => call os i fun o => o.unserialize stream
  | .unserializePayload i stream => call os i fun o => o.unserializePayload stream
  | .assignValue i nValue => call os i fun o => ({ o with nValue }, none)
  | .assignScript i scriptPubKey => call os i fun o => ({ o with scriptPubKey }, none)

/-- a whole program; what it catches does not stop it -/
def run (ops : List TxOutOp) : List TxOutObject := ops.foldl (fun os op => (step os op).1) []

end TxOutProgram

/-! ## Every object is an output -/

/-- a `CTxOut` laid out in memory -/
def CTxOut.object (o : CTxOut) : TxOutObject := ⟨o.type.toByte, o.p2pkPubkey, o.nValue, o.scriptPubKey⟩

variable {f : TxOutObject → TxOutObject × Option String} {os : List TxOutObject}

namespace TxOutObject

/-- the object is an output of the model -/
def Consistent (o : TxOutObject) : Prop := ∃ c : CTxOut, c.object = o

theorem consistent_untyped (nValue : Int64) (scriptPubKey : Bytes) :
    Consistent ⟨0, Uint256.null, nValue, scriptPubKey⟩ :=
  ⟨⟨.INVALID, Uint256.null, nValue, scriptPubKey, (invalidOutput nValue).key_valid, fun _ => rfl⟩, rfl⟩

theorem consistent_key {pubkey : Uint256} (h : Crypto.isFullyValid pubkey = true) (nValue : Int64)
    (scriptPubKey : Bytes) : Consistent ⟨1, pubkey, nValue, scriptPubKey⟩ :=
  ⟨⟨.P2PK, pubkey, nValue, scriptPubKey, fun _ => h, fun hne => absurd rfl hne⟩, rfl⟩

theorem consistent_p2c (nValue : Int64) (scriptPubKey : Bytes) : Consistent ⟨2, Uint256.null, nValue, scriptPubKey⟩ :=
  ⟨⟨.PAY_TO_CONNECT, Uint256.null, nValue, scriptPubKey, (p2cOutput nValue ⟨[], Uint256.null, 0, 0⟩).key_valid,
    fun _ => rfl⟩, rfl⟩

theorem consistent_setScriptPubKey (o : TxOutObject) (scriptPubKey : Bytes) :
    (o.setScriptPubKey scriptPubKey).Consistent := by
  unfold setScriptPubKey
  dsimp only
  split_ifs with _ hkey
  · exact consistent_key hkey _ _
  · exact consistent_untyped _ _
  · exact consistent_p2c _ _
  · exact consistent_untyped _ _

/-- A setter with the strong guarantee: it leaves an output, or throws and leaves the object alone. -/
def Settles (f : TxOutObject → TxOutObject × Option String) : Prop :=
  ∀ o, ((f o).2 = none ∧ (f o).1.Consistent) ∨ ((f o).1 = o ∧ ∃ e, (f o).2 = some e)

theorem setP2PK_settles (pubkey : Uint256) : Settles fun o => o.setP2PK pubkey := by
  intro o
  dsimp only [setP2PK]
  by_cases hkey : Crypto.isFullyValid pubkey = false
  · rw [if_pos hkey]
    exact Or.inr ⟨rfl, _, rfl⟩
  · rw [if_neg hkey]
    exact Or.inl ⟨rfl, consistent_key (Bool.eq_true_of_not_eq_false hkey) _ _⟩

theorem setPayToDomain_settles (p : AssertedP2C) : Settles fun o => o.setPayToDomain p := by
  intro o
  dsimp only [setPayToDomain]
  by_cases hmask : isValidP2CSignatureAlgorithmsMask p.p2c.signatureAlgorithmsMask = false
  · rw [if_pos hmask]
    exact Or.inr ⟨rfl, _, rfl⟩
  · rw [if_neg hmask]
    exact Or.inl ⟨rfl, consistent_p2c _ _⟩

variable {o : TxOutObject}

theorem Settles.throws (hf : Settles f) {e : String} (h : (f o).2 = some e) : (f o).1 = o := by
  rcases hf o with ⟨hnone, -⟩ | ⟨hsame, -⟩
  · rw [hnone] at h
    cases h
  · exact hsame

theorem Settles.consistent (hf : Settles f) (ho : o.Consistent) : (f o).1.Consistent := by
  rcases hf o with ⟨-, hleft⟩ | ⟨hsame, -⟩
  · exact hleft
  · rw [hsame]
    exact ho

theorem Settles.constructs (hf : Settles f) (o : TxOutObject) (h : (f o).2 = none) : (f o).1.Consistent := by
  rcases hf o with ⟨-, hleft⟩ | ⟨-, e, he⟩
  · exact hleft
  · rw [h] at he
    cases he

theorem setPayload_settles (payload : EncodedPayload) (o : TxOutObject) (ho : o.Consistent) :
    (o.setPayload payload).1.Consistent ∧ ∀ e, (o.setPayload payload).2 = some e → (o.setPayload payload).1 = o := by
  cases payload with
  | invalid => exact ⟨ho, fun _ h => by cases h⟩
  | p2pk pubkey => exact ⟨(setP2PK_settles pubkey).consistent ho, fun _ h => (setP2PK_settles pubkey).throws h⟩
  | p2c p => exact ⟨(setPayToDomain_settles p).consistent ho, fun _ h => (setPayToDomain_settles p).throws h⟩

/-- A payload that is read leaves an output; one that is not leaves type 0 without a script. -/
theorem unserializePayload_spec (o : TxOutObject) (stream : Bytes) : (o.unserializePayload stream).1.Consistent ∧
      ∀ e, (o.unserializePayload stream).2 = some e → (o.unserializePayload stream).1 = o.clear := by
  have hclear : o.clear.Consistent := consistent_untyped _ _
  unfold unserializePayload
  cases readEncodedPayload stream with
  | error e => exact ⟨hclear, fun _ _ => rfl⟩
  | ok r => exact setPayload_settles r.1 o.clear hclear

theorem consistent_unserialize (ho : o.Consistent) (stream : Bytes) : (o.unserialize stream).1.Consistent := by
  unfold unserialize
  cases readLE endOfData 8 stream with
  | error e => exact ho
  | ok r => exact (unserializePayload_spec _ _).1

theorem Consistent.assignValue (h : o.Consistent) (nValue : Int64) : Consistent { o with nValue } := by
  obtain ⟨c, rfl⟩ := h
  exact ⟨{ c with nValue }, rfl⟩

theorem Consistent.assignScript (h : o.Consistent) (scriptPubKey : Bytes) : Consistent { o with scriptPubKey } := by
  obtain ⟨c, rfl⟩ := h
  exact ⟨{ c with scriptPubKey }, rfl⟩

end TxOutObject

open TxOutObject TxOutProgram

/-- every object of the program is an output -/
def AllConsistent (os : List TxOutObject) : Prop := ∀ o ∈ os, o.Consistent

theorem AllConsistent.construct (hos : AllConsistent os) {r : TxOutObject × Option String}
    (hr : r.2 = none → r.1.Consistent) : AllConsistent (construct os r).1 := by
  obtain ⟨o, thrown⟩ := r
  cases thrown with
  | some e => exact hos
  | none =>
    intro o' ho'
    rcases mem_append.1 ho' with hold | hnew
    · exact hos o' hold
    · rw [mem_singleton.1 hnew]
      exact hr rfl

theorem AllConsistent.call (hos : AllConsistent os) (i : ℕ)
    (hf : ∀ o, o.Consistent → (f o).1.Consistent) : AllConsistent (call os i f).1 := by
  unfold TxOutProgram.call
  cases hi : os[i]? with
  | none => exact hos
  | some o =>
    intro o' ho'
    rcases mem_or_eq_of_mem_set ho' with hold | rfl
    · exact hos o' hold
    · exact hf o (hos o (mem_of_getElem? hi))

/-- One operation keeps every object an output. -/
theorem AllConsistent.step (hos : AllConsistent os) (op : TxOutOp) : AllConsistent (step os op).1 := by
  cases op with
  | construct => exact hos.construct fun _ => consistent_untyped _ _
  | constructScript type nValue scriptPubKey => exact hos.construct fun _ => consistent_setScriptPubKey _ _
  | constructP2PK type nValue pubkey => exact hos.construct ((setP2PK_settles pubkey).constructs _)
  | constructP2C type nValue p2c => exact hos.construct ((setPayToDomain_settles p2c).constructs _)
  | copy i =>
    intro o ho
    rcases mem_append.1 ho with hold | hcopy
    · exact hos o hold
    · exact hos o (mem_of_getElem? (Option.mem_toList.1 hcopy))
  | assign i j =>
    refine hos.call i fun o ho => ?_
    rw [getD_eq_getElem?_getD]
    cases hj : os[j]? with
    | none => exact ho
    | some o' => exact hos o' (mem_of_getElem? hj)
  | setNull i => exact hos.call i fun _ _ => consistent_untyped _ _
  | setScriptPubKey i scriptPubKey => exact hos.call i fun _ _ => consistent_setScriptPubKey _ _
  | setP2PK i pubkey => exact hos.call i fun _ ho => (setP2PK_settles pubkey).consistent ho
  | setPayToDomain i p2c => exact hos.call i fun _ ho => (setPayToDomain_settles p2c).consistent ho
  | unserialize i stream => exact hos.call i fun _ ho => consistent_unserialize ho stream
  | unserializePayload i stream => exact hos.call i fun o _ => (unserializePayload_spec o stream).1
  | assignValue i nValue => exact hos.call i fun _ ho => ho.assignValue nValue
  | assignScript i scriptPubKey => exact hos.call i fun _ ho => ho.assignScript scriptPubKey

/-- Every object of every program is an output. -/
theorem run_consistent (ops : List TxOutOp) : AllConsistent (run ops) := by
  have hrun : ∀ os, AllConsistent os → AllConsistent (ops.foldl (fun os op => (step os op).1) os) := by
    induction ops with
    | nil => exact fun os hos => hos
    | cons op ops ih => exact fun os hos => ih _ (hos.step op)
  exact hrun [] fun o ho => by cases ho

/-! ## The object's bytes are the output's -/

namespace CTxOut

theorem object_getP2PKPubKey (c : CTxOut) : c.object.getP2PKPubKey = c.getP2PKPubKey := by
  have htype : c.type.toByte = 1 ↔ c.type = .P2PK := ⟨fun h => TxOutputType.toByte_inj h, fun h => by rw [h]; rfl⟩
  simp only [TxOutObject.getP2PKPubKey, getP2PKPubKey, object, htype, p2pkView]

theorem object_getPayToDomain (c : CTxOut) : c.object.getPayToDomain = c.getPayToDomain := by
  have htype : c.type.toByte ≠ 2 ↔ c.type ≠ .PAY_TO_CONNECT :=
    not_congr ⟨fun h => TxOutputType.toByte_inj h, fun h => by rw [h]; rfl⟩
  simp only [TxOutObject.getPayToDomain, getPayToDomain, object, htype]

theorem object_serialize (c : CTxOut) : c.object.serialize = c.serializeOrThrow := by
  have hpayload : c.object.serializePayload = c.serializePayload := by
    rw [TxOutObject.serializePayload, serializePayload, object_getP2PKPubKey, object_getPayToDomain, object]
    cases c.type <;> rfl
  rw [TxOutObject.serialize, hpayload]
  rfl

/-- `CTxOut(nValue, scriptPubKey)`: the typed view of a script -/
def ofScript (nValue : Int64) (scriptPubKey : Bytes) : CTxOut :=
  let untyped : CTxOut := ⟨.INVALID, Uint256.null, nValue, scriptPubKey, (invalidOutput nValue).key_valid, fun _ => rfl⟩
  let connect : CTxOut := ⟨.PAY_TO_CONNECT, Uint256.null, nValue, scriptPubKey,
    (p2cOutput nValue ⟨[], Uint256.null, 0, 0⟩).key_valid, fun _ => rfl⟩
  if scriptPubKey.length = 34 ∧ scriptPubKey[0]? = some OP_1 ∧ scriptPubKey[1]? = some 32 then
    if h : Crypto.isFullyValid (Uint256.ofSlice (scriptPubKey.drop 2)) = true then
      ⟨.P2PK, Uint256.ofSlice (scriptPubKey.drop 2), nValue, scriptPubKey, fun _ => h, fun hne => absurd rfl hne⟩
    else untyped
  else if 2 ≤ scriptPubKey.length ∧ scriptPubKey[0]? = some OP_2 ∧ connect.getPayToDomain.isSome then connect
  else untyped

theorem object_same {a b : CTxOut} : a.object.Same b.object ↔ a.Same b := by
  rw [TxOutObject.Same, Same, object_getP2PKPubKey, object_getP2PKPubKey, object_getPayToDomain, object_getPayToDomain]
  have htype : a.type.toByte = b.type.toByte ↔ a.type = b.type := ⟨TxOutputType.toByte_inj, fun h => by rw [h]⟩
  simp only [object, htype]

end CTxOut

namespace TxOutObject

theorem Consistent.type_cases {o : TxOutObject} (h : o.Consistent) :
    (o.type = 0 ∨ o.type = 1 ∨ o.type = 2) ∧ (o.type = 1 → Crypto.isFullyValid o.p2pkPubkey = true) := by
  obtain ⟨c, rfl⟩ := h
  refine ⟨?_, fun htype => c.key_valid (TxOutputType.toByte_inj htype)⟩
  rw [CTxOut.object]
  cases c.type
  · exact Or.inl rfl
  · exact Or.inr (Or.inl rfl)
  · exact Or.inr (Or.inr rfl)

theorem Consistent.serialize_p2c {o : TxOutObject} {b : Bytes} (ho : o.Consistent) (htype : o.type = 2)
    (h : o.serialize = .ok b) : ∃ p, o.getPayToDomain = some p ∧ o.scriptPubKey = p2cCompatibilityView p ∧
      isCanonicalP2CDomain p.domain = true ∧ p.rootCertificatesVersion ≠ 0 ∧
      isValidP2CSignatureAlgorithmsMask p.signatureAlgorithmsMask = true := by
  cases hp : o.getPayToDomain with
  | none =>
    have hne : o.type ≠ 1 := by
      rw [htype]
      decide
    rw [TxOutObject.serialize, serializePayload, if_neg hne, if_pos htype, hp] at h
    cases h
  | some p =>
    obtain ⟨c, rfl⟩ := ho
    rw [CTxOut.object_getPayToDomain] at hp
    obtain ⟨-, hview, hrest⟩ := CTxOut.getPayToDomain_eq_some hp
    exact ⟨p, rfl, hview, hrest⟩

theorem same_iff_bytes {o o' : TxOutObject} (ho : o.Consistent) (ho' : o'.Consistent) {b b' : Bytes}
    (h : o.serialize = .ok b) (h' : o'.serialize = .ok b') : o.Same o' ↔ b = b' := by
  obtain ⟨c, rfl⟩ := ho
  obtain ⟨c', rfl⟩ := ho'
  rw [CTxOut.object_serialize] at h h'
  obtain ⟨hser, rfl⟩ := CTxOut.serializeOrThrow_eq_ok.1 h
  obtain ⟨hser', rfl⟩ := CTxOut.serializeOrThrow_eq_ok.1 h'
  rw [CTxOut.object_same]
  exact CTxOut.same_iff_serialize hser hser'

end TxOutObject

/-- A setter that throws changes nothing. -/
theorem setter_throws {op : TxOutOp} {e : String} (hop : op.isSetter = true) (h : (step os op).2 = some e) :
    (step os op).1 = os := by
  cases op with
  | setNull i => exact call_throws (fun _ h => by cases h) h
  | setP2PK i pubkey => exact call_throws (fun _ => (setP2PK_settles pubkey).throws) h
  | setPayToDomain i p2c => exact call_throws (fun _ => (setPayToDomain_settles p2c).throws) h
  | _ => cases hop

/-- Whatever a program does to its outputs: types are known, a key type has its valid key, a setter that throws changes
nothing, an output whose view was changed does not serialize, a failed read leaves type 0 without a script, and equal
outputs are those with equal bytes. -/
theorem txOut_manipulated (ops : List TxOutOp) :
    (∀ o ∈ run ops, (o.type = 0 ∨ o.type = 1 ∨ o.type = 2) ∧ (o.type = 1 → Crypto.isFullyValid o.p2pkPubkey = true)) ∧
    (∀ (op : TxOutOp) (e : String), op.isSetter = true → (step (run ops) op).2 = some e →
      (step (run ops) op).1 = run ops) ∧ (∀ o ∈ run ops, ∀ b, o.serialize = .ok b →
      (o.type = 1 → o.scriptPubKey = p2pkView o.p2pkPubkey ∧ Crypto.isFullyValid o.p2pkPubkey = true) ∧
      (o.type = 2 → ∃ p, o.getPayToDomain = some p ∧ o.scriptPubKey = p2cCompatibilityView p ∧
        isCanonicalP2CDomain p.domain = true ∧ p.rootCertificatesVersion ≠ 0 ∧
        isValidP2CSignatureAlgorithmsMask p.signatureAlgorithmsMask = true)) ∧
    (∀ o ∈ run ops, ∀ (stream : Bytes) (e : String), (o.unserializePayload stream).2 = some e →
      (o.unserializePayload stream).1.type = 0 ∧ (o.unserializePayload stream).1.scriptPubKey = []) ∧
    ∀ o ∈ run ops, ∀ o' ∈ run ops, ∀ b b', o.serialize = .ok b → o'.serialize = .ok b' → (o.Same o' ↔ b = b') := by
  have hall := run_consistent ops
  refine ⟨fun o ho => (hall o ho).type_cases, fun op e => setter_throws, ?_, ?_, ?_⟩
  · intro o ho b hb
    refine ⟨fun htype => ?_, fun htype => (hall o ho).serialize_p2c htype hb⟩
    exact ⟨serialize_p2pk htype hb, (hall o ho).type_cases.2 htype⟩
  · intro o _ stream e he
    rw [(unserializePayload_spec o stream).2 e he]
    exact ⟨rfl, rfl⟩
  · intro o ho o' ho' b b'
    exact same_iff_bytes (hall o ho) (hall o' ho')

end

section
attribute [local instance] toyCrypto

/-- a key output and a copy of it with another script -/
def copiedAndChanged : List TxOutOp := [.constructP2PK 9 5 (Uint256.ofNat 1), .copy 0, .assignScript 1 [0]]

/-- The first serializes and spells its key, the second no longer serializes. -/
theorem copiedAndChanged_consistent : ∃ o o', TxOutProgram.run copiedAndChanged = [o, o'] ∧ o.type = 1 ∧
    o.scriptPubKey = p2pkView o.p2pkPubkey ∧ o'.type = 1 ∧ o'.serialize.isOk = false := by
  obtain ⟨-, -, hserializes, -⟩ := txOut_manipulated copiedAndChanged
  have hok : (⟨1, Uint256.ofNat 1, 5, p2pkView (Uint256.ofNat 1)⟩ : TxOutObject).serialize =
      .ok (leBytes 8 5 ++ 1 :: (Uint256.ofNat 1).bytes) := rfl
  have hview := ((hserializes _ (mem_cons_self ..) _ hok).1 rfl).1
  exact ⟨_, _, rfl, rfl, hview, rfl, by decide⟩

end

end ConnectCoin
