/-
The wire form of a transaction (`UnserializeTransaction`, `SerializeTransaction`, `primitives/transaction.h`).

Two formats share one reader. The extended one, in witness mode only, starts with an empty input vector and a flag byte;
flag 1 announces a witness stack for each input behind the outputs. The reader refuses a witness record without a
witness, and flags it does not know.

- `CMutableTransaction`: what the reader fills in; `serialize` throws with the first output that does not serialize.
- `unserializeTransaction`: the reader, `allowWitness` for the mode.
- `Decodable`: the transactions it returns.
Results: `unserializeTransaction_exact`: in both modes the reader accepts the encodings of decodable transactions and
nothing else; `transaction_canonical` with the consequences for txid and wtxid.
Premise: no vector of a decodable transaction is longer than `MAX_SIZE`; the reader refuses a longer one, whoever wrote
it (`oversized_script_refused`).
-/
import ConnectCoin.Consensus.TxOutCode

namespace ConnectCoin

open Lib List

/-! ## Inputs and byte strings -/

def readByteVector : Reader Bytes := do readBytes endOfData (← readCompactSize true)

theorem readByteVector_exact : Exact readByteVector (fun b => b.length ≤ MAX_SIZE) byteVector := by
  intro b s t
  simp only [readByteVector, reads_bind, readCompactSize_exact true _ _ _, reads_bytes, byteVector, append_assoc]
  constructor
  · rintro ⟨n, t₁, ⟨⟨-, hn⟩, rfl⟩, rfl, rfl⟩
    exact ⟨hn trivial, rfl⟩
  · rintro ⟨hlen, rfl⟩
    have h64 : b.length < 2 ^ 64 := lt_of_le_of_lt hlen (by decide)
    exact ⟨_, _, ⟨⟨h64, fun _ => hlen⟩, rfl⟩, rfl, rfl⟩

def readOutPoint : Reader COutPoint := do
  let hash ← readBytes endOfData 32
  let n ← readLE endOfData 4
  return ⟨Uint256.ofSlice hash, UInt32.ofNat n⟩

theorem readOutPoint_exact : Exact readOutPoint (fun _ => True) COutPoint.serialize := by
  intro p s t
  simp only [readOutPoint, then_bytes, then_le, reads_pure, COutPoint.serialize, append_assoc, true_and]
  constructor
  · rintro ⟨hash, _, hlen, rfl, n, _, hn, rfl, rfl, rfl⟩
    rw [Uint256.bytes_ofSlice hlen, UInt32.toNat_ofNat_of_lt' hn]
  · rintro rfl
    refine ⟨p.hash.bytes, _, p.hash.bytes_length, rfl, p.n.toNat, t, p.n.toNat_lt, rfl, ?_, rfl⟩
    rw [Uint256.ofSlice_bytes, UInt32.ofNat_toNat]

/-- an input; its witness comes later, through the transaction -/
def readTxIn : Reader CTxIn := do
  let prevout ← readOutPoint
  let scriptSig ← readByteVector
  let nSequence ← readLE endOfData 4
  return ⟨prevout, scriptSig, UInt32.ofNat nSequence, []⟩

theorem readTxIn_exact :
    Exact readTxIn (fun i => i.scriptWitness = [] ∧ i.scriptSig.length ≤ MAX_SIZE) CTxIn.serialize := by
  intro i s t
  simp only [readTxIn, reads_bind, readOutPoint_exact _ _ _, readByteVector_exact _ _ _, reads_le, reads_pure,
    CTxIn.serialize, append_assoc, true_and]
  constructor
  · rintro ⟨prevout, _, rfl, scriptSig, _, ⟨hlen, rfl⟩, n, _, ⟨hn, rfl⟩, rfl, rfl⟩
    rw [UInt32.toNat_ofNat_of_lt' hn]
    exact ⟨⟨rfl, hlen⟩, rfl⟩
  · rintro ⟨⟨hwitness, hlen⟩, rfl⟩
    refine ⟨i.prevout, _, rfl, i.scriptSig, _, ⟨hlen, rfl⟩, i.nSequence.toNat, t, ⟨i.nSequence.toNat_lt, rfl⟩, ?_, rfl⟩
    rw [UInt32.ofNat_toNat, ← hwitness]

/-- inputs as they are read, before their witnesses -/
def InputsOk (vin : List CTxIn) : Prop :=
  vin.length ≤ MAX_SIZE ∧ ∀ i ∈ vin, i.scriptWitness = [] ∧ i.scriptSig.length ≤ MAX_SIZE

/-- a stack no vector of which is too long -/
def StackOk (stack : List Bytes) : Prop := stack.length ≤ MAX_SIZE ∧ ∀ w ∈ stack, w.length ≤ MAX_SIZE

theorem readInputs_exact : Exact (readVector readTxIn) InputsOk (vector CTxIn.serialize) :=
  readVector_exact readTxIn_exact

theorem readStack_exact : Exact (readVector readByteVector) StackOk (vector byteVector) :=
  readVector_exact readByteVector_exact

theorem inputsOk_nil : InputsOk [] := ⟨Nat.zero_le _, by simp⟩

/-- a stack for each input -/
def readWitnesses : List CTxIn → Reader (List CTxIn)
  | [] => pure []
  | txin :: vin => do
    let stack ← readVector readByteVector
    let rest ← readWitnesses vin
    return { txin with scriptWitness := stack } :: rest

/-- The stacks are put into the inputs, in order. -/
theorem readWitnesses_ok (vin vin' : List CTxIn) (s t : Bytes) :
    readWitnesses vin s = .ok (vin', t) ↔ vin'.map CTxIn.stripped = vin.map CTxIn.stripped ∧
      (∀ i ∈ vin', StackOk i.scriptWitness) ∧ s = (vin'.flatMap fun i => vector byteVector i.scriptWitness) ++ t := by
  induction vin generalizing vin' s t with
  | nil =>
    rw [readWitnesses, reads_pure, map_nil, map_eq_nil_iff]
    apply Iff.intro
    · rintro ⟨rfl, rfl⟩
      simp
    · rintro ⟨rfl, -, rfl⟩
      simp
  | cons txin vin ih =>
    simp only [readWitnesses, reads_bind, reads_pure, readStack_exact _ _ _, ih]
    apply Iff.intro
    · rintro ⟨stack, _, ⟨hstack, rfl⟩, rest, _, ⟨hrest, hstacks, rfl⟩, rfl, rfl⟩
      refine ⟨?_, forall_mem_cons.2 ⟨hstack, hstacks⟩, by simp⟩
      rw [map_cons, map_cons, hrest]
      rfl
    · rintro ⟨hmap, hstacks, rfl⟩
      cases vin' with
      | nil => simp at hmap
      | cons txin' rest =>
        rw [map_cons, map_cons, List.cons.injEq] at hmap
        obtain ⟨hstack, hrest⟩ := forall_mem_cons.1 hstacks
        refine ⟨txin'.scriptWitness, _, ⟨hstack, by rw [flatMap_cons, append_assoc]⟩, rest, t,
          ⟨hmap.2, hrest, rfl⟩, ?_, rfl⟩
        congr 1
        cases txin
        cases txin'
        simp only [CTxIn.stripped, CTxIn.mk.injEq, and_true] at hmap
        simp [hmap.1]

/-- some input has a witness -/
def anyWitness (vin : List CTxIn) : Bool := vin.any fun i => !i.scriptWitness.isEmpty

variable {vin vin' : List CTxIn}

theorem map_stripped_of_none (h : anyWitness vin = false) : vin.map CTxIn.stripped = vin := by
  have hid : ∀ i ∈ vin, i.stripped = i := by
    intro i hi
    have hnone : i.scriptWitness = [] := by simpa using any_eq_false.1 h i hi
    rw [CTxIn.stripped, ← hnone]
  rw [map_congr_left hid, map_id']

theorem anyWitness_stripped (vin : List CTxIn) : anyWitness (vin.map CTxIn.stripped) = false := by
  simp [anyWitness, CTxIn.stripped]

theorem InputsOk.map_stripped (h : InputsOk vin) : vin.map CTxIn.stripped = vin := by
  apply map_stripped_of_none
  rw [anyWitness, any_eq_false]
  intro i hi
  simp [(h.2 i hi).1]

theorem mem_of_stripped (h : vin'.map CTxIn.stripped = vin) {i : CTxIn} (hi : i ∈ vin') : i.stripped ∈ vin := by
  rw [← h]
  exact mem_map_of_mem hi

/-- what the flags announce -/
def readOptional (allowWitness : Bool) (vin : List CTxIn) (flags : UInt8) : Reader (List CTxIn) :=
  if flags &&& 1 ≠ 0 ∧ allowWitness = true then do
    let vin ← readWitnesses vin
    ensure (anyWitness vin = true) "Superfluous witness record"
    ensure (flags ^^^ 1 = 0) "Unknown transaction optional data"
    return vin
  else do
    ensure (flags = 0) "Unknown transaction optional data"
    return vin

/-- Flag 1 brings witnesses, one of them not empty; no flag brings nothing; every other flag is refused. -/
theorem readOptional_ok {allowWitness : Bool} {flags : UInt8} {s t : Bytes} :
    readOptional allowWitness vin flags s = .ok (vin', t) ↔
      (flags = 1 ∧ allowWitness = true ∧ anyWitness vin' = true ∧ readWitnesses vin s = .ok (vin', t)) ∨
      (flags = 0 ∧ vin' = vin ∧ t = s) := by
  unfold readOptional
  by_cases hmode : flags &&& 1 ≠ 0 ∧ allowWitness = true
  · have hne : flags ≠ 0 := by
      intro hzero
      rw [hzero] at hmode
      exact hmode.1 (by decide)
    have hone : flags ^^^ 1 = 0 ↔ flags = 1 := UInt8.xor_eq_zero_iff
    rw [if_pos hmode]
    simp only [reads_bind, reads_ensure, reads_pure, hone]
    apply Iff.intro
    · rintro ⟨vin', _, hread, -, _, ⟨hany, rfl⟩, -, _, ⟨hflags, rfl⟩, rfl, rfl⟩
      exact Or.inl ⟨hflags, hmode.2, hany, hread⟩
    · intro h
      rcases h with ⟨hflags, -, hany, hread⟩ | ⟨hzero, -, -⟩
      · exact ⟨vin', t, hread, (), t, ⟨hany, rfl⟩, (), t, ⟨hflags, rfl⟩, rfl, rfl⟩
      · exact absurd hzero hne
  · rw [if_neg hmode]
    simp only [reads_bind, reads_ensure, reads_pure]
    apply Iff.intro
    · rintro ⟨-, _, ⟨hzero, rfl⟩, rfl, rfl⟩
      exact Or.inr ⟨hzero, rfl, rfl⟩
    · intro h
      rcases h with ⟨hflags, hallow, -, -⟩ | ⟨hzero, rfl, rfl⟩
      · rw [hflags] at hmode
        exact absurd ⟨by decide, hallow⟩ hmode
      · exact ⟨(), _, ⟨hzero, rfl⟩, rfl, rfl⟩

/-! ## Transactions and their reader -/

section
variable [Crypto]

structure CMutableTransaction where
  vin : List CTxIn
  vout : List CTxOut
  version : UInt32
  nLockTime : UInt32
  deriving DecidableEq

/-- `CMutableTransaction(tx)` -/
def CTransaction.toMutable (tx : CTransaction) : CMutableTransaction := ⟨tx.vin, tx.vout, tx.version, tx.nLockTime⟩

/-- the bytes around the outputs' own; the outputs are given as they were written -/
def transactionBytes (flags : Bool) (tx : CMutableTransaction) (outs : List Bytes) : Bytes :=
  leBytes 4 tx.version.toNat ++ (if flags then vector CTxIn.serialize [] ++ [1] else []) ++
    vector CTxIn.serialize tx.vin ++ (compactSize tx.vout.length ++ outs.flatten) ++
    (if flags then tx.vin.flatMap fun i => vector byteVector i.scriptWitness else []) ++ leBytes 4 tx.nLockTime.toNat

variable (allowWitness : Bool)

/-- `SerializeTransaction`; the first output that does not serialize stops it -/
def CMutableTransaction.serialize (tx : CMutableTransaction) : Except String Bytes := do
  let outs ← tx.vout.mapM CTxOut.serializeOrThrow
  return transactionBytes (allowWitness && anyWitness tx.vin) tx outs

/-- inputs, flag byte and outputs; an empty input vector may be the mark of the extended format -/
def readBody : Reader (List CTxIn × UInt8 × List CTxOut) := do
  let vin ← readVector readTxIn
  if vin.length = 0 ∧ allowWitness = true then
    let flags ← readByte endOfData
    if flags ≠ 0 then
      let vin ← readVector readTxIn
      let vout ← readVector unserializeTxOut
      return (vin, flags, vout)
    else return (vin, flags, [])
  else
    let vout ← readVector unserializeTxOut
    return (vin, 0, vout)

/-- `UnserializeTransaction` -/
def unserializeTransaction : Reader CMutableTransaction := do
  let version ← readLE endOfData 4
  let (vin, flags, vout) ← readBody allowWitness
  let vin ← readOptional allowWitness vin flags
  let nLockTime ← readLE endOfData 4
  return ⟨vin, vout, UInt32.ofNat version, UInt32.ofNat nLockTime⟩

/-! ## What the reader accepts -/

/-- outputs as they are read -/
def OutputsOk (vout : List CTxOut) : Prop :=
  vout.length ≤ MAX_SIZE ∧ ∀ o ∈ vout, o.stored = o ∧ o.serializePayload.isOk = true

theorem readOutputs_exact : Exact (readVector unserializeTxOut) OutputsOk (vector CTxOut.serialize) :=
  readVector_exact unserializeTxOut_exact

/-- the bytes of a body with its flag byte -/
def bodyBytes (body : List CTxIn × UInt8 × List CTxOut) : Bytes :=
  (if body.2.1 ≠ 0 then vector CTxIn.serialize [] ++ [body.2.1] else []) ++
    (vector CTxIn.serialize body.1 ++ vector CTxOut.serialize body.2.2)

/-- bodies the reader returns: without a flag byte in witness mode, no inputs means no outputs -/
structure BodyRead (body : List CTxIn × UInt8 × List CTxOut) : Prop where
  inputs : InputsOk body.1
  outputs : OutputsOk body.2.2
  flagless : allowWitness = false → body.2.1 = 0
  unmarked : allowWitness = true → body.2.1 = 0 → body.1 = [] → body.2.2 = []

theorem outputsOk_nil : OutputsOk [] := ⟨Nat.zero_le _, by simp⟩

variable {allowWitness : Bool} {tx : CTransaction} {body : List CTxIn × UInt8 × List CTxOut}

theorem readBody_ok {s t : Bytes} (h : readBody allowWitness s = .ok (body, t)) :
    BodyRead allowWitness body ∧ s = bodyBytes body ++ t := by
  rw [readBody, reads_bind] at h
  obtain ⟨vin, s₁, hvin, h⟩ := h
  obtain ⟨hinputs, rfl⟩ := (readInputs_exact _ _ _).1 hvin
  by_cases hmark : vin.length = 0 ∧ allowWitness = true
  · obtain rfl : vin = [] := length_eq_zero_iff.1 hmark.1
    rw [if_pos hmark, then_byte] at h
    obtain ⟨flags, s₂, rfl, h⟩ := h
    by_cases hflags : flags ≠ 0
    · rw [if_pos hflags] at h
      simp only [reads_bind, reads_pure, readInputs_exact _ _ _, readOutputs_exact _ _ _] at h
      obtain ⟨vin, _, ⟨hin, rfl⟩, vout, _, ⟨hout, rfl⟩, rfl, rfl⟩ := h
      refine ⟨⟨hin, hout, fun hmode => ?_, fun _ hzero => absurd hzero hflags⟩, ?_⟩
      · rw [hmark.2] at hmode
        cases hmode
      · simp [bodyBytes, hflags]
    · rw [if_neg hflags, reads_pure] at h
      obtain ⟨rfl, rfl⟩ := h
      refine ⟨⟨hinputs, outputsOk_nil, fun _ => not_not.1 hflags, fun _ _ _ => rfl⟩, ?_⟩
      simp [bodyBytes, not_not.1 hflags, vector, compactSize]
  · rw [if_neg hmark] at h
    simp only [reads_bind, reads_pure, readOutputs_exact _ _ _] at h
    obtain ⟨vout, _, ⟨hout, rfl⟩, rfl, rfl⟩ := h
    refine ⟨⟨hinputs, hout, fun _ => rfl, ?_⟩, ?_⟩
    · intro hmode _ hnil
      exact absurd ⟨length_eq_zero_iff.2 hnil, hmode⟩ hmark
    · simp [bodyBytes]

theorem readBody_bytes (hbody : BodyRead allowWitness body) (t : Bytes) :
    readBody allowWitness (bodyBytes body ++ t) = .ok (body, t) := by
  obtain ⟨vin, flags, vout⟩ := body
  obtain ⟨hin, hout, hflagless, hunmarked⟩ := hbody
  by_cases hflags : flags = 0
  · subst hflags
    rw [readBody, reads_bind]
    refine ⟨vin, vector CTxOut.serialize vout ++ t, (readInputs_exact _ _ _).2 ⟨hin, by simp [bodyBytes]⟩, ?_⟩
    by_cases hmark : vin.length = 0 ∧ allowWitness = true
    · -- the count of the outputs is taken for the flag byte
      have hnil : vin = [] := length_eq_zero_iff.1 hmark.1
      have hnone : vout = [] := hunmarked hmark.2 rfl hnil
      rw [if_pos hmark, hnil, hnone]
      rfl
    · rw [if_neg hmark, reads_bind]
      exact ⟨vout, t, (readOutputs_exact _ _ _).2 ⟨hout, rfl⟩, rfl⟩
  · have hmode : allowWitness = true := by
      cases allowWitness with
      | false => exact absurd (hflagless rfl) hflags
      | true => rfl
    rw [readBody, reads_bind]
    refine ⟨[], flags :: (vector CTxIn.serialize vin ++ (vector CTxOut.serialize vout ++ t)),
      (readInputs_exact _ _ _).2 ⟨inputsOk_nil, by simp [bodyBytes, hflags]⟩, ?_⟩
    rw [if_pos ⟨rfl, hmode⟩, then_byte]
    refine ⟨flags, _, rfl, ?_⟩
    rw [if_pos hflags, reads_bind]
    refine ⟨vin, _, (readInputs_exact _ _ _).2 ⟨hin, rfl⟩, ?_⟩
    rw [reads_bind]
    exact ⟨vout, t, (readOutputs_exact _ _ _).2 ⟨hout, rfl⟩, rfl⟩

/-! ## Exactness -/

/-- the bytes of a transaction whose outputs serialize -/
def CMutableTransaction.bytes (allowWitness : Bool) (tx : CMutableTransaction) : Bytes :=
  transactionBytes (allowWitness && anyWitness tx.vin) tx (tx.vout.map CTxOut.serialize)

theorem CMutableTransaction.serialize_of_outputs {tx : CMutableTransaction} (allowWitness : Bool)
    (h : ∀ o ∈ tx.vout, o.serializePayload.isOk = true) : tx.serialize allowWitness = .ok (tx.bytes allowWitness) := by
  have houts : tx.vout.mapM CTxOut.serializeOrThrow = .ok (tx.vout.map CTxOut.serialize) := by
    apply mapM_ok
    intro o ho
    exact CTxOut.serializeOrThrow_eq_ok.2 ⟨h o ho, rfl⟩
  rw [serialize, houts]
  rfl

/-- the flag byte: 1 for witnesses, 0 (and no byte) for none -/
def flagByte (flags : Bool) : UInt8 := if flags then 1 else 0

/-- the transactions the reader returns -/
structure Decodable (allowWitness : Bool) (tx : CMutableTransaction) : Prop where
  vin_size : tx.vin.length ≤ MAX_SIZE
  scripts : ∀ i ∈ tx.vin, i.scriptSig.length ≤ MAX_SIZE
  witnesses : ∀ i ∈ tx.vin, StackOk i.scriptWitness
  outputs : OutputsOk tx.vout
  /-- without witness mode there are no witnesses -/
  stripped : allowWitness = false → anyWitness tx.vin = false
  /-- in witness mode an empty input vector is taken for the mark -/
  marked : allowWitness = true → tx.vin = [] → tx.vout = []

/-- The bytes are the version, the body, the stacks where the flag announces them, and the lock time. -/
theorem CMutableTransaction.bytes_eq (allowWitness : Bool) (tx : CMutableTransaction) :
    tx.bytes allowWitness = leBytes 4 tx.version.toNat ++
      (bodyBytes (tx.vin.map CTxIn.stripped, flagByte (allowWitness && anyWitness tx.vin), tx.vout) ++
        ((if allowWitness && anyWitness tx.vin then tx.vin.flatMap
          fun i => vector byteVector i.scriptWitness else []) ++ leBytes 4 tx.nLockTime.toNat)) := by
  have hflag : ∀ c : Bool, (if flagByte c ≠ 0 then vector CTxIn.serialize [] ++ [flagByte c] else ([] : Bytes)) =
      if c then vector CTxIn.serialize [] ++ [1] else [] := by
    intro c
    cases c <;> rfl
  have hvout : compactSize tx.vout.length ++ (tx.vout.map CTxOut.serialize).flatten =
      vector CTxOut.serialize tx.vout := by
    rw [vector, flatMap_def]
  rw [bytes, transactionBytes, hvout]
  simp only [bodyBytes, hflag, vector_stripped, append_assoc]

theorem decodable_of_read {vin vin' : List CTxIn} {vout : List CTxOut} {flags : UInt8}
    {version nLockTime : UInt32} {s t : Bytes} (hbody : BodyRead allowWitness (vin, flags, vout))
    (hoptional : readOptional allowWitness vin flags s = .ok (vin', t)) :
    Decodable allowWitness ⟨vin', vout, version, nLockTime⟩ ∧ vin'.map CTxIn.stripped = vin ∧
      flags = flagByte (allowWitness && anyWitness vin') ∧
      s = (if allowWitness && anyWitness vin' then vin'.flatMap fun i => vector byteVector i.scriptWitness else []) ++
        t := by
  have hplain : vin.map CTxIn.stripped = vin := hbody.inputs.map_stripped
  have hnone : anyWitness vin = false := by
    rw [anyWitness, any_eq_false]
    intro i hi
    simp [(hbody.inputs.2 i hi).1]
  rcases readOptional_ok.1 hoptional with ⟨hflags, hmode, hany, hread⟩ | ⟨hflags, rfl, rfl⟩
  · obtain ⟨hmap, hstacks, hs⟩ := (readWitnesses_ok _ _ _ _).1 hread
    rw [hplain] at hmap
    refine ⟨⟨?_, ?_, hstacks, hbody.outputs, ?_, ?_⟩, hmap, ?_, ?_⟩
    · have hlen := hbody.inputs.1
      rwa [← hmap, length_map] at hlen
    · intro i hi
      exact (hbody.inputs.2 _ (mem_of_stripped hmap hi)).2
    · intro hfalse
      rw [hmode] at hfalse
      cases hfalse
    · intro _ hnil
      have hnil' : vin' = [] := hnil
      rw [hnil'] at hany
      cases hany
    · rw [hflags, hmode, hany]
      rfl
    · rw [hmode, hany]
      exact hs
  · refine ⟨⟨hbody.inputs.1, ?_, ?_, hbody.outputs, fun _ => hnone, ?_⟩, hplain, ?_, ?_⟩
    · intro i hi
      exact (hbody.inputs.2 i hi).2
    · intro i hi
      rw [(hbody.inputs.2 i hi).1]
      exact ⟨Nat.zero_le _, by simp⟩
    · intro hmode hnil
      exact hbody.unmarked hmode hflags hnil
    · rw [hflags, hnone, Bool.and_false]
      rfl
    · rw [hnone, Bool.and_false]
      rfl

/-- In either mode the reader accepts the encodings of decodable transactions and nothing else. -/
theorem unserializeTransaction_exact (allowWitness : Bool) :
    Exact (unserializeTransaction allowWitness) (Decodable allowWitness) (CMutableTransaction.bytes allowWitness) := by
  intro tx s t
  simp only [unserializeTransaction, reads_bind, reads_le, reads_pure, Prod.exists]
  apply Iff.intro
  · intro h
    obtain ⟨version, _, ⟨hversion, rfl⟩, vin, flags, vout, _, hbody, vin', _, hoptional, nLockTime, _,
        ⟨hlock, rfl⟩, rfl, rfl⟩ := h
    obtain ⟨hread, rfl⟩ := readBody_ok hbody
    obtain ⟨hdecodable, hmap, hflags, rfl⟩ := decodable_of_read hread hoptional
    refine ⟨hdecodable, ?_⟩
    rw [CMutableTransaction.bytes_eq, hmap, ← hflags, UInt32.toNat_ofNat_of_lt' hversion,
      UInt32.toNat_ofNat_of_lt' hlock]
    simp only [append_assoc]
  · rintro ⟨hdecodable, rfl⟩
    have hbody : BodyRead allowWitness (tx.vin.map CTxIn.stripped, flagByte (allowWitness && anyWitness tx.vin),
        tx.vout) := by
      refine ⟨⟨?_, ?_⟩, hdecodable.outputs, ?_, ?_⟩
      · rw [length_map]
        exact hdecodable.vin_size
      · intro i hi
        obtain ⟨j, hj, rfl⟩ := mem_map.1 hi
        exact ⟨rfl, hdecodable.scripts j hj⟩
      · intro hmode
        rw [hmode]
        rfl
      · intro hmode _ hnil
        exact hdecodable.marked hmode (map_eq_nil_iff.1 hnil)
    rw [CMutableTransaction.bytes_eq]
    simp only [append_assoc]
    refine ⟨_, _, ⟨tx.version.toNat_lt, rfl⟩, _, _, _, _, readBody_bytes hbody _, tx.vin,
      leBytes 4 tx.nLockTime.toNat ++ t, ?_, tx.nLockTime.toNat, t, ⟨tx.nLockTime.toNat_lt, rfl⟩, ?_, rfl⟩
    · rw [readOptional_ok]
      cases hany : allowWitness && anyWitness tx.vin with
      | false =>
        have hnone : anyWitness tx.vin = false := by
          cases hmode : allowWitness with
          | false => exact hdecodable.stripped hmode
          | true => rwa [hmode, Bool.true_and] at hany
        exact Or.inr ⟨rfl, (map_stripped_of_none hnone).symm, rfl⟩
      | true =>
        obtain ⟨hmode, hwitness⟩ := Bool.and_eq_true_iff.1 hany
        refine Or.inl ⟨rfl, hmode, hwitness, (readWitnesses_ok _ _ _ _).2 ⟨?_, hdecodable.witnesses, rfl⟩⟩
        rw [map_map]
        rfl
    · rw [UInt32.ofNat_toNat, UInt32.ofNat_toNat]

/-! ## Canonical encodings -/

theorem CTransaction.serialize_eq_bytes (allowWitness : Bool) (tx : CTransaction) :
    tx.serialize allowWitness = tx.toMutable.bytes allowWitness := by
  rw [serialize, CMutableTransaction.bytes, transactionBytes, ← flatMap_def]
  rfl

/-- a transaction with its witnesses dropped -/
def CMutableTransaction.withoutWitnesses (tx : CMutableTransaction) : CMutableTransaction :=
  { tx with vin := tx.vin.map CTxIn.stripped }

/-- no vector that the mode writes is longer than a reader accepts -/
structure CTransaction.VectorsFit (allowWitness : Bool) (tx : CTransaction) : Prop where
  vin : tx.vin.length ≤ MAX_SIZE
  vout : tx.vout.length ≤ MAX_SIZE
  scripts : ∀ i ∈ tx.vin, i.scriptSig.length ≤ MAX_SIZE
  witnesses : allowWitness = true → ∀ i ∈ tx.vin, StackOk i.scriptWitness

theorem CTransaction.outputsOk (hvalid : tx.ValidOutputs) (hsize : tx.vout.length ≤ MAX_SIZE) : OutputsOk tx.vout :=
  ⟨hsize, fun o ho => ⟨(hvalid o ho).stored, tx.payloads o ho⟩⟩

theorem CMutableTransaction.bytes_withoutWitnesses (tx : CMutableTransaction) :
    tx.withoutWitnesses.bytes false = tx.bytes false := by
  have hstrip : (tx.vin.map CTxIn.stripped).map CTxIn.stripped = tx.vin.map CTxIn.stripped :=
    map_stripped_of_none (anyWitness_stripped tx.vin)
  simp only [bytes_eq, Bool.false_and, withoutWitnesses, hstrip]
  rfl

/-- A transaction with an input and valid outputs is read back, with its witnesses if the mode carries them. -/
theorem unserializeTransaction_serialize (hvin : tx.vin ≠ []) (hvalid : tx.ValidOutputs)
    (hfit : tx.VectorsFit allowWitness) (t : Bytes) :
      unserializeTransaction allowWitness (tx.serialize allowWitness ++ t) =
        .ok (if allowWitness then tx.toMutable else tx.toMutable.withoutWitnesses, t) := by
  have hout := CTransaction.outputsOk hvalid hfit.vout
  rw [CTransaction.serialize_eq_bytes]
  cases allowWitness with
  | true =>
    refine (unserializeTransaction_exact true _ _ _).2 ⟨⟨hfit.vin, hfit.scripts, hfit.witnesses rfl, hout, ?_, ?_⟩, rfl⟩
    · intro hmode
      cases hmode
    · intro _ hnil
      exact absurd hnil hvin
  | false =>
    rw [← CMutableTransaction.bytes_withoutWitnesses]
    refine (unserializeTransaction_exact false _ _ _).2 ⟨⟨?_, ?_, ?_, hout, fun _ => anyWitness_stripped _, ?_⟩, rfl⟩
    · rw [if_neg (by decide), CMutableTransaction.withoutWitnesses, length_map]
      exact hfit.vin
    · intro i hi
      obtain ⟨j, hj, rfl⟩ := mem_map.1 hi
      exact hfit.scripts j hj
    · intro i hi
      obtain ⟨j, hj, rfl⟩ := mem_map.1 hi
      exact ⟨Nat.zero_le _, by simp [CTxIn.stripped]⟩
    · intro hmode
      cases hmode

theorem CTransaction.serialize_of_none (h : tx.hasWitness = false) : tx.serialize true = tx.serialize false := by
  simp [serialize, h]

theorem CTransaction.getWitnessHash_eq (tx : CTransaction) : tx.getWitnessHash = hash256 (tx.serialize true) := by
  cases h : tx.hasWitness with
  | true => rw [getWitnessHash, h, if_pos rfl]
  | false => rw [getWitnessHash, h, if_neg (by decide), getHash, serialize_of_none h]

/-- The mark of the extended format is no count of inputs. -/
theorem serialize_formats_differ {a b : CTransaction} (ha : a.hasWitness = true) (hb : b.hasWitness = false)
    (hvin : b.vin ≠ []) : a.serialize true ≠ b.serialize true := by
  intro h
  rw [serialize_witness ha, CTransaction.serialize_of_none hb, CTransaction.serialize_noWitness] at h
  simp only [vector, append_assoc] at h
  obtain ⟨-, h⟩ := append_inj h (by simp)
  have hzero : compactSize 0 ++ (1 :: (compactSize a.vin.length ++ (a.vin.flatMap CTxIn.serialize ++
      (compactSize a.vout.length ++ (a.vout.flatMap CTxOut.serialize ++
      ((witnesses a).flatMap (vector byteVector) ++ leBytes 4 a.nLockTime.toNat)))))) = _ := h
  obtain ⟨hlen, -⟩ := compactSize_selfDelimiting (by decide) b.vin_size hzero
  exact hvin (length_eq_zero_iff.1 hlen.symm)

/-- The bytes with witnesses determine the transaction, in whichever format they are. -/
theorem serialize_inj {a b : CTransaction} (ha : a.ValidOutputs) (hb : b.ValidOutputs) (hvina : a.vin ≠ [])
    (hvinb : b.vin ≠ []) (h : a.serialize true = b.serialize true) : a = b := by
  cases hwa : a.hasWitness with
  | true =>
    cases hwb : b.hasWitness with
    | true => exact serialize_inj_of_witness ha hb hwa hwb h
    | false => exact absurd h (serialize_formats_differ hwa hwb hvinb)
  | false =>
    cases hwb : b.hasWitness with
    | true => exact absurd h.symm (serialize_formats_differ hwb hwa hvina)
    | false =>
      rw [CTransaction.serialize_of_none hwa, CTransaction.serialize_of_none hwb] at h
      exact eq_of_no_witness (stripped_inj ha hb h) hwa hwb

/-- In both modes, what is read serializes to the bytes that were consumed, and a transaction with an input and valid
outputs is read back from its bytes. So a txid stands for everything but the witnesses, and a wtxid for the whole
transaction. -/
theorem transaction_canonical : (∀ (allowWitness : Bool) (s t : Bytes) (tx : CMutableTransaction),
      unserializeTransaction allowWitness s = .ok (tx, t) → ∃ b, tx.serialize allowWitness = .ok b ∧ s = b ++ t) ∧
    (∀ (allowWitness : Bool) (tx : CTransaction) (t : Bytes), tx.vin ≠ [] → tx.ValidOutputs →
      tx.VectorsFit allowWitness → tx.toMutable.serialize allowWitness = .ok (tx.serialize allowWitness) ∧
      unserializeTransaction allowWitness (tx.serialize allowWitness ++ t) =
        .ok (if allowWitness then tx.toMutable else tx.toMutable.withoutWitnesses, t)) ∧
    (∀ a b : CTransaction, a.ValidOutputs → b.ValidOutputs → a.vin ≠ [] → b.vin ≠ [] →
      Set.InjOn hash256 {a.serialize false, b.serialize false} → a.getHash = b.getHash → SameStripped a b) ∧
    ∀ a b : CTransaction, a.ValidOutputs → b.ValidOutputs → a.vin ≠ [] → b.vin ≠ [] →
      Set.InjOn hash256 {a.serialize true, b.serialize true} → a.getWitnessHash = b.getWitnessHash → a = b := by
  refine ⟨?_, ?_, ?_, ?_⟩
  · intro allowWitness s t tx h
    obtain ⟨hdecodable, hs⟩ := (unserializeTransaction_exact allowWitness tx s t).1 h
    exact ⟨_, CMutableTransaction.serialize_of_outputs allowWitness fun o ho => (hdecodable.outputs.2 o ho).2, hs⟩
  · intro allowWitness tx t hvin hvalid hfit
    refine ⟨?_, unserializeTransaction_serialize hvin hvalid hfit t⟩
    rw [CTransaction.serialize_eq_bytes]
    exact CMutableTransaction.serialize_of_outputs allowWitness tx.payloads
  · intro a b ha hb _ _ hinj h
    exact stripped_inj ha hb (hinj (by simp) (by simp) h)
  · intro a b ha hb hvina hvinb hinj h
    rw [CTransaction.getWitnessHash_eq, CTransaction.getWitnessHash_eq] at h
    exact serialize_inj ha hb hvina hvinb (hinj (by simp) (by simp) h)

/-- An input script longer than `MAX_SIZE` is refused. -/
theorem unserializeTransaction_refuses {i : CTxIn} (hi : i ∈ tx.vin) (hlong : MAX_SIZE < i.scriptSig.length) (t : Bytes)
    (r : CMutableTransaction × Bytes) : unserializeTransaction false (tx.serialize false ++ t) ≠ .ok r := by
  intro h
  obtain ⟨tx', t'⟩ := r
  obtain ⟨hdecodable, hbytes⟩ := (unserializeTransaction_exact false tx' _ t').1 h
  simp only [CTransaction.serialize_noWitness, CMutableTransaction.bytes_eq, bodyBytes, Bool.false_and, append_assoc]
    at hbytes
  obtain ⟨-, hbytes⟩ := append_inj hbytes (by simp)
  rw [← vector_stripped tx.vin] at hbytes
  have hfits : (tx'.vin.map CTxIn.stripped).length < 2 ^ 64 ∧
      ∀ j ∈ tx'.vin.map CTxIn.stripped, j.scriptWitness = [] ∧ j.scriptSig.length < 2 ^ 64 := by
    refine ⟨by rw [length_map]; exact lt_of_le_of_lt hdecodable.vin_size (by decide), ?_⟩
    intro j hj
    obtain ⟨k, hk, rfl⟩ := mem_map.1 hj
    exact ⟨rfl, lt_of_le_of_lt (hdecodable.scripts k hk) (by decide)⟩
  obtain ⟨hvin, -⟩ := vector_selfDelimiting txIn_selfDelimiting (stripped_fits tx) hfits hbytes
  have hmem : i.stripped ∈ tx'.vin.map CTxIn.stripped := by
    rw [← hvin]
    exact mem_map_of_mem hi
  obtain ⟨k, hk, hki⟩ := mem_map.1 hmem
  have hscript : k.stripped.scriptSig = i.stripped.scriptSig := congrArg CTxIn.scriptSig hki
  change k.scriptSig = i.scriptSig at hscript
  have hfit := hdecodable.scripts k hk
  rw [hscript] at hfit
  exact absurd hlong (not_lt.2 hfit)

end

section
attribute [local instance] toyCrypto

/-- one input, one key output -/
def spendWith (scriptSig : Bytes) (scriptWitness : List Bytes) (hscript : scriptSig.length < 2 ^ 64)
    (hstack : scriptWitness.length < 2 ^ 64) (hitems : ∀ w ∈ scriptWitness, w.length < 2 ^ 64) : CTransaction where
  vin := [⟨⟨Uint256.ofNat 7, 0⟩, scriptSig, 0, scriptWitness⟩]
  vout := [p2pkOutput 5 (Uint256.ofNat 1) toyKey_valid]
  version := 2
  nLockTime := 0
  payloads := forall_mem_singleton.2 rfl
  vin_size := by simp
  vout_size := by simp
  scriptSig_size := forall_mem_singleton.2 hscript
  stack_size := forall_mem_singleton.2 ⟨hstack, hitems⟩

theorem spendWith_valid {scriptSig : Bytes} {scriptWitness : List Bytes} (hscript : scriptSig.length < 2 ^ 64)
    (hstack : scriptWitness.length < 2 ^ 64) (hitems : ∀ w ∈ scriptWitness, w.length < 2 ^ 64) :
    (spendWith scriptSig scriptWitness hscript hstack hitems).ValidOutputs := by
  intro o ho
  obtain rfl := mem_singleton.1 ho
  exact Or.inl ⟨_, getP2PKPubKey_p2pkOutput _ _ _⟩

/-- a spend with nothing but its outpoint -/
def bareSpend : CTransaction := spendWith [] [] nil_fits nil_fits (by simp)

/-- a spend with one witness item -/
def smallSpend : CTransaction := spendWith [] [[3]] nil_fits (by decide) (by decide)

/-- A spend with a witness is read back from its extended bytes. -/
theorem smallSpend_canonical : smallSpend.hasWitness = true ∧
    unserializeTransaction true (smallSpend.serialize true ++ [9]) = .ok (smallSpend.toMutable, [9]) := by
  have hfit : smallSpend.VectorsFit true := by
    refine ⟨by decide, by decide, by decide, ?_⟩
    intro _ i hi
    obtain rfl := mem_singleton.1 hi
    exact ⟨by decide, by decide⟩
  exact ⟨rfl, (transaction_canonical.2.1 true smallSpend [9] (by decide) (spendWith_valid _ _ _) hfit).2⟩

/-- A transaction with one input and a valid output that no reader takes back: its script is a byte too long. -/
theorem oversized_script_refused : ∃ tx : CTransaction, tx.vin ≠ [] ∧ tx.ValidOutputs ∧
    ∀ r, unserializeTransaction false (tx.serialize false) ≠ .ok r := by
  have hscript : (List.replicate (MAX_SIZE + 1) (0 : UInt8)).length < 2 ^ 64 := by
    rw [length_replicate]
    decide
  have hlong : ∃ i ∈ (spendWith _ [] hscript (by decide) (by simp)).vin, MAX_SIZE < i.scriptSig.length := by
    refine ⟨_, mem_singleton.2 rfl, ?_⟩
    rw [length_replicate]
    exact Nat.lt_succ_self _
  obtain ⟨i, hi, hlong⟩ := hlong
  refine ⟨spendWith _ [] hscript (by decide) (by simp), cons_ne_nil _ _, spendWith_valid _ _ _, ?_⟩
  intro r
  have hrefuse := unserializeTransaction_refuses hi hlong [] r
  rwa [append_nil] at hrefuse

end

end ConnectCoin
