/-
A transaction is its bytes.

For transactions with valid typed outputs (all that pass `CheckTransaction`), the serialization without witnesses gives
back everything but the witnesses, and the extended serialization gives back everything. Outputs count in full: a typed
output's public view is determined by its payload.

Results: `stripped_inj`, `serialize_inj_of_witness`, `serialize_lengths_differ`, `TxOk.serialize_length`.
-/
import ConnectCoin.Consensus.TxCheck

namespace ConnectCoin

open Lib List

/-! ## Inputs -/

/-- an input without its witness -/
def CTxIn.stripped (i : CTxIn) : CTxIn := { i with scriptWitness := [] }

theorem COutPoint.serialize_length (p : COutPoint) : p.serialize.length = 36 := by simp [COutPoint.serialize]

theorem COutPoint.serialize_inj {p q : COutPoint} (h : p.serialize = q.serialize) : p = q := by
  obtain ⟨hhash, hn⟩ := append_inj h (by simp)
  have hn' := UInt32.toNat_inj.1 (leBytes_inj (UInt32.toNat_lt _) (UInt32.toNat_lt _) hn)
  cases p
  cases q
  simp only [COutPoint.mk.injEq]
  exact ⟨Uint256.ext hhash, hn'⟩

theorem txIn_selfDelimiting : SelfDelimiting (fun i : CTxIn => i.scriptWitness = [] ∧ i.scriptSig.length < 2 ^ 64)
    CTxIn.serialize := by
  intro i j s t hi hj h
  simp only [CTxIn.serialize, append_assoc] at h
  obtain ⟨hprev, h⟩ := append_inj h (by simp [COutPoint.serialize_length])
  obtain ⟨hsig, h⟩ := byteVector_selfDelimiting hi.2 hj.2 h
  obtain ⟨hseq, h⟩ := append_inj h (by simp)
  have hseq' := UInt32.toNat_inj.1 (leBytes_inj (UInt32.toNat_lt _) (UInt32.toNat_lt _) hseq)
  refine ⟨?_, h⟩
  cases i
  cases j
  simp only [CTxIn.mk.injEq]
  exact ⟨COutPoint.serialize_inj hprev, hsig, hseq', hi.1.trans hj.1.symm⟩

theorem vector_stripped (vin : List CTxIn) :
    vector CTxIn.serialize (vin.map CTxIn.stripped) = vector CTxIn.serialize vin := by
  rw [vector, vector, length_map, flatMap_map]
  rfl

/-- Inputs are their stripped forms and their witnesses. -/
theorem vin_eq_of_stripped {vin vin' : List CTxIn} (hs : vin.map CTxIn.stripped = vin'.map CTxIn.stripped)
    (hw : vin.map CTxIn.scriptWitness = vin'.map CTxIn.scriptWitness) : vin = vin' := by
  induction vin generalizing vin' with
  | nil => exact (map_eq_nil_iff.1 hs.symm).symm
  | cons i vin ih =>
    cases vin' with
    | nil => simp at hs
    | cons j vin' =>
      rw [map_cons, map_cons, List.cons.injEq] at hs hw
      rw [ih hs.2 hw.2]
      congr 1
      cases i
      cases j
      simp only [CTxIn.stripped, CTxIn.mk.injEq, and_true] at hs
      simp only [CTxIn.mk.injEq]
      exact ⟨hs.1.1, hs.1.2.1, hs.1.2.2, hw.1⟩

/-! ## Outputs -/

theorem p2cBody_append_inj {p q : PayToDomainOutput} {s t : Bytes} (hp : isCanonicalP2CDomain p.domain = true)
    (hq : isCanonicalP2CDomain q.domain = true) (h : p2cBody p ++ s = p2cBody q ++ t) :
    p2cBody p = p2cBody q ∧ s = t := by
  have hlenp := isCanonicalP2CDomain_length hp
  have hlenq := isCanonicalP2CDomain_length hq
  rw [MAX_P2C_DOMAIN_LENGTH] at hlenp hlenq
  have hhead : UInt8.ofNat p.domain.length = UInt8.ofNat q.domain.length := by
    simp only [p2cBody, cons_append, List.cons.injEq] at h
    exact h.1
  have hlen : p.domain.length = q.domain.length := by
    have := congrArg UInt8.toNat hhead
    rwa [UInt8.toNat_ofNat_of_lt' (by rw [UInt8.size]; omega), UInt8.toNat_ofNat_of_lt' (by rw [UInt8.size]; omega)]
      at this
  exact append_inj h (by simp [p2cBody, hlen])

section
variable [Crypto]

/-- a valid typed output: type 1 with its key or type 2 with its payload -/
def CTxOut.Valid (o : CTxOut) : Prop := (∃ k, o.getP2PKPubKey = some k) ∨ ∃ p, o.getPayToDomain = some p

theorem isTypedOutput_cases {o : CTxOut} (h : isTypedOutput o = true) : o.Valid := by
  rw [isTypedOutput, Bool.or_eq_true, Bool.and_eq_true, Option.isSome_iff_exists] at h
  rcases h with ⟨-, hk⟩ | hp
  · exact Or.inl hk
  · refine Or.inr ?_
    unfold isCanonicalP2COutput at hp
    split_ifs at hp
    cases hd : o.getPayToDomain with
    | none => simp [hd] at hp
    | some p => exact ⟨p, rfl⟩

theorem payload_p2pk {o : CTxOut} {k : Uint256} (h : o.getP2PKPubKey = some k) : o.payload = 1 :: k.bytes := by
  obtain ⟨htype, -, -⟩ := CTxOut.getP2PKPubKey_eq_some.1 h
  rw [CTxOut.payload, CTxOut.serializePayload, htype, h]
  rfl

theorem payload_p2c {o : CTxOut} {p : PayToDomainOutput} (h : o.getPayToDomain = some p) :
    o.payload = 2 :: p2cBody p := by
  obtain ⟨htype, -⟩ := CTxOut.getPayToDomain_eq_some h
  rw [CTxOut.payload, CTxOut.serializePayload, htype, h]
  rfl

/-- Type 0 always serializes, another output when it is valid. -/
theorem serializePayload_isOk {o : CTxOut} : o.serializePayload.isOk = true ↔ o.type = .INVALID ∨ o.Valid := by
  rw [CTxOut.serializePayload, CTxOut.Valid]
  constructor
  · intro h
    split at h
    · cases hk : o.getP2PKPubKey with
      | none => simp [hk, p2pkPayload, Except.isOk, Except.toBool] at h
      | some k => exact Or.inr (Or.inl ⟨k, rfl⟩)
    · cases hp : o.getPayToDomain with
      | none => simp [hp, p2cPayload, Except.isOk, Except.toBool] at h
      | some p => exact Or.inr (Or.inr ⟨p, rfl⟩)
    · next htype => exact Or.inl htype
  · rintro (htype | ⟨k, hk⟩ | ⟨p, hp⟩)
    · rw [htype]
      rfl
    · rw [(CTxOut.getP2PKPubKey_eq_some.1 hk).1, hk]
      rfl
    · rw [(CTxOut.getPayToDomain_eq_some hp).1, hp]
      rfl

theorem txOut_ext {a b : CTxOut} (htype : a.type = b.type) (hkey : a.p2pkPubkey = b.p2pkPubkey)
    (hvalue : a.nValue = b.nValue) (hscript : a.scriptPubKey = b.scriptPubKey) : a = b := by
  cases a
  cases b
  simp only [CTxOut.mk.injEq]
  exact ⟨htype, hkey, hvalue, hscript⟩

theorem txOut_selfDelimiting : SelfDelimiting CTxOut.Valid CTxOut.serialize := by
  intro a b s t ha hb h
  simp only [CTxOut.serialize, append_assoc] at h
  obtain ⟨hvalue, h⟩ := append_inj h (by simp)
  have hu := UInt64.toNat_inj.1 (leBytes_inj (UInt64.toNat_lt _) (UInt64.toNat_lt _) hvalue)
  have hv : a.nValue = b.nValue := by rw [← a.nValue.toInt64_toUInt64, hu, Int64.toInt64_toUInt64]
  rcases ha with ⟨k, hk⟩ | ⟨p, hp⟩ <;> rcases hb with ⟨l, hl⟩ | ⟨q, hq⟩
  · rw [payload_p2pk hk, payload_p2pk hl, cons_append, cons_append, List.cons.injEq] at h
    obtain ⟨hkey, hrest⟩ := append_inj h.2 (by simp)
    obtain rfl := Uint256.ext hkey
    obtain ⟨hta, hka, hsa⟩ := CTxOut.getP2PKPubKey_eq_some.1 hk
    obtain ⟨htb, hkb, hsb⟩ := CTxOut.getP2PKPubKey_eq_some.1 hl
    exact ⟨txOut_ext (hta.trans htb.symm) (hka.trans hkb.symm) hv (hsa.trans hsb.symm), hrest⟩
  · rw [payload_p2pk hk, payload_p2c hq] at h
    simp at h
  · rw [payload_p2c hp, payload_p2pk hl] at h
    simp at h
  · rw [payload_p2c hp, payload_p2c hq, cons_append, cons_append, List.cons.injEq] at h
    obtain ⟨hta, hsa, hda, -⟩ := CTxOut.getPayToDomain_eq_some hp
    obtain ⟨htb, hsb, hdb, -⟩ := CTxOut.getPayToDomain_eq_some hq
    obtain ⟨hbody, hrest⟩ := p2cBody_append_inj hda hdb h.2
    have hview : p2cCompatibilityView p = p2cCompatibilityView q := congrArg (OP_2 :: ·) hbody
    have hkey : a.p2pkPubkey = b.p2pkPubkey := by rw [a.key_null (by simp [hta]), b.key_null (by simp [htb])]
    exact ⟨txOut_ext (hta.trans htb.symm) hkey hv (hsa.trans (hview.trans hsb.symm)), hrest⟩

/-! ## Transactions -/

variable {a b : CTransaction} {tx : CTransaction}

theorem tx_ext (hvin : a.vin = b.vin) (hvout : a.vout = b.vout) (hversion : a.version = b.version)
    (hlock : a.nLockTime = b.nLockTime) : a = b := by
  cases a
  cases b
  simp only [CTransaction.mk.injEq]
  exact ⟨hvin, hvout, hversion, hlock⟩

/-- every output is a valid typed one -/
def CTransaction.ValidOutputs (tx : CTransaction) : Prop := ∀ o ∈ tx.vout, o.Valid

theorem TxOk.validOutputs (h : TxOk tx) : tx.ValidOutputs := fun o ho => isTypedOutput_cases (h.typed o ho)

/-- equal up to witnesses -/
def SameStripped (a b : CTransaction) : Prop :=
  a.vin.map CTxIn.stripped = b.vin.map CTxIn.stripped ∧ a.vout = b.vout ∧ a.version = b.version ∧
    a.nLockTime = b.nLockTime

theorem stripped_fits (tx : CTransaction) : (tx.vin.map CTxIn.stripped).length < 2 ^ 64 ∧
    ∀ i ∈ tx.vin.map CTxIn.stripped, i.scriptWitness = [] ∧ i.scriptSig.length < 2 ^ 64 := by
  refine ⟨by rw [length_map]; exact tx.vin_size, fun i hi => ?_⟩
  obtain ⟨j, hj, rfl⟩ := mem_map.1 hi
  exact ⟨rfl, tx.scriptSig_size j hj⟩

/-- Inputs, outputs and what follows them, in either format. -/
theorem body_inj (ha : a.ValidOutputs) (hb : b.ValidOutputs) {s t : Bytes}
    (h : vector CTxIn.serialize a.vin ++ (vector CTxOut.serialize a.vout ++ s) =
      vector CTxIn.serialize b.vin ++ (vector CTxOut.serialize b.vout ++ t)) :
    a.vin.map CTxIn.stripped = b.vin.map CTxIn.stripped ∧ a.vout = b.vout ∧ s = t := by
  rw [← vector_stripped a.vin, ← vector_stripped b.vin] at h
  obtain ⟨hvin, h⟩ := vector_selfDelimiting txIn_selfDelimiting (stripped_fits a) (stripped_fits b) h
  obtain ⟨hvout, h⟩ := vector_selfDelimiting txOut_selfDelimiting ⟨a.vout_size, ha⟩ ⟨b.vout_size, hb⟩ h
  exact ⟨hvin, hvout, h⟩

/-- The bytes without witnesses determine everything but the witnesses. -/
theorem stripped_inj (ha : a.ValidOutputs) (hb : b.ValidOutputs) (h : a.serialize false = b.serialize false) :
    SameStripped a b := by
  simp only [CTransaction.serialize_noWitness, append_assoc] at h
  obtain ⟨hversion, h⟩ := append_inj h (by simp)
  obtain ⟨hvin, hvout, hlock⟩ := body_inj ha hb h
  exact ⟨hvin, hvout, UInt32.toNat_inj.1 (leBytes_inj (UInt32.toNat_lt _) (UInt32.toNat_lt _) hversion),
    UInt32.toNat_inj.1 (leBytes_inj (UInt32.toNat_lt _) (UInt32.toNat_lt _) hlock)⟩

/-- the witnesses of a transaction, one stack for each input -/
def witnesses (tx : CTransaction) : List (List Bytes) := tx.vin.map CTxIn.scriptWitness

theorem SameStripped.eq (h : SameStripped a b) (hw : witnesses a = witnesses b) : a = b :=
  tx_ext (vin_eq_of_stripped h.1 hw) h.2.1 h.2.2.1 h.2.2.2

theorem witnesses_of_none (h : tx.hasWitness = false) : witnesses tx = tx.vin.map fun _ => [] := by
  refine map_congr_left fun i hi => ?_
  have hi' := any_eq_false.1 h i hi
  simpa using hi'

theorem eq_of_no_witness (hsame : SameStripped a b) (ha : a.hasWitness = false) (hb : b.hasWitness = false) :
    a = b := by
  refine hsame.eq ?_
  have hlen : a.vin.length = b.vin.length := by simpa using congrArg List.length hsame.1
  rw [witnesses_of_none ha, witnesses_of_none hb, map_const', map_const', hlen]

theorem serialize_witness (h : tx.hasWitness = true) : tx.serialize true = leBytes 4 tx.version.toNat ++
      ([0, 1] ++ (vector CTxIn.serialize tx.vin ++ (vector CTxOut.serialize tx.vout ++
          ((witnesses tx).flatMap (vector byteVector) ++ leBytes 4 tx.nLockTime.toNat)))) := by
  have hmarker : vector CTxIn.serialize [] ++ [1] = ([0, 1] : Bytes) := by decide
  simp [CTransaction.serialize, h, hmarker, witnesses, flatMap_map]

theorem witnesses_fit (tx : CTransaction) : ∀ w ∈ witnesses tx, w.length < 2 ^ 64 ∧ ∀ b ∈ w, b.length < 2 ^ 64 := by
  intro w hw
  obtain ⟨i, hi, rfl⟩ := mem_map.1 hw
  exact tx.stack_size i hi

/-- The extended bytes determine the transaction. -/
theorem serialize_inj_of_witness (ha : a.ValidOutputs) (hb : b.ValidOutputs) (hwa : a.hasWitness = true)
    (hwb : b.hasWitness = true) (h : a.serialize true = b.serialize true) : a = b := by
  rw [serialize_witness hwa, serialize_witness hwb] at h
  obtain ⟨hversion, h⟩ := append_inj h (by simp)
  obtain ⟨-, h⟩ := append_inj h rfl
  obtain ⟨hvin, hvout, h⟩ := body_inj ha hb h
  have hlen : (witnesses a).length = (witnesses b).length := by
    have := congrArg List.length hvin
    simpa [witnesses] using this
  obtain ⟨hw, hlock⟩ := (vector_selfDelimiting byteVector_selfDelimiting).flatMap (witnesses_fit a)
    (witnesses_fit b) hlen h
  exact tx_ext (vin_eq_of_stripped hvin hw) hvout
    (UInt32.toNat_inj.1 (leBytes_inj (UInt32.toNat_lt _) (UInt32.toNat_lt _) hversion))
    (UInt32.toNat_inj.1 (leBytes_inj (UInt32.toNat_lt _) (UInt32.toNat_lt _) hlock))

/-- A witness makes the extended bytes longer. -/
theorem serialize_lengths_differ (h : tx.hasWitness = true) :
    (tx.serialize false).length < (tx.serialize true).length := by
  rw [serialize_witness h, CTransaction.serialize_noWitness]
  simp only [length_append, length_cons, length_nil]
  omega

theorem typed_payload_length {o : CTxOut} (h : isTypedOutput o = true) : 33 ≤ o.payload.length := by
  rcases isTypedOutput_cases h with ⟨k, hk⟩ | ⟨p, hp⟩
  · rw [payload_p2pk hk]
    simp
  · rw [payload_p2c hp]
    simp [p2cBody]

/-- A transaction that passes is longer than the two hashes of an inner node. -/
theorem TxOk.serialize_length (h : TxOk tx) : 64 < (tx.serialize false).length := by
  obtain ⟨i, vin, hvin⟩ := exists_cons_of_ne_nil h.vin_ne
  obtain ⟨o, vout, hvout⟩ := exists_cons_of_ne_nil h.vout_ne
  have ho := typed_payload_length (h.typed o (by simp [hvout]))
  rw [CTransaction.serialize_noWitness, hvin, hvout]
  simp only [vector, flatMap_cons, CTxIn.serialize, CTxOut.serialize, length_append, leBytes_length,
    COutPoint.serialize_length]
  omega

end

end ConnectCoin
