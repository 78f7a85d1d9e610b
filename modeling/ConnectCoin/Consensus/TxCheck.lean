/-
Checks of a transaction that need no context (`consensus/tx_check.cpp`, `consensus/amount.h`).

- `CheckTransaction`: sizes, typed outputs, amounts, distinct inputs, and what a coinbase or another transaction may
  carry in its inputs. A failure is the rejection with its texts.
Results: `checkTransaction_ok`: a transaction passes iff it is `TxOk`; a passing transaction is longer than 64 bytes
(`TxOk.serialize_length`), so it cannot be read as two hashes.
Left out: amounts are integers here; each partial sum is checked before the next addition, so the source's 64 bits
suffice.
-/
import ConnectCoin.Consensus.ScriptCheck
import ConnectCoin.Lib.Fold

namespace ConnectCoin

open Lib List

/-! ## Amounts -/

/-- `CAmount` -/
abbrev CAmount := ℤ

def COIN : CAmount := 10000000000
def MAX_MONEY : CAmount := 100000000 * COIN

/-- `MoneyRange` -/
def moneyRange (nValue : CAmount) : Bool := 0 ≤ nValue && nValue ≤ MAX_MONEY

theorem moneyRange_iff {v : CAmount} : moneyRange v = true ↔ 0 ≤ v ∧ v ≤ MAX_MONEY := by simp [moneyRange]

def MAX_BLOCK_WEIGHT : ℕ := 50000000
def WITNESS_SCALE_FACTOR : ℕ := 4

/-! ## Rejections -/

inductive TxValidationResult where
  | TX_CONSENSUS
  | TX_MISSING_INPUTS
  | TX_PREMATURE_SPEND
  | TX_NOT_STANDARD
  deriving DecidableEq, Repr

/-- an invalid `TxValidationState` -/
structure TxInvalid where
  result : TxValidationResult
  rejectReason : String
  debugMessage : String
  deriving DecidableEq, Repr

/-- `state.Invalid(TX_CONSENSUS, ..)` -/
def txConsensus (rejectReason : String) (debugMessage : String) : TxInvalid :=
  ⟨.TX_CONSENSUS, rejectReason, debugMessage⟩

/-! ## The inputs -/

/-- one turn of the loop over the inputs; the state is the outpoints so far -/
def checkDuplicate (vInOutPoints : List COutPoint) (txin : CTxIn) : Except TxInvalid (List COutPoint) :=
  if txin.prevout ∈ vInOutPoints then .error (txConsensus "bad-txns-inputs-duplicate" "") else
    .ok (vInOutPoints ++ [txin.prevout])

/-- one turn of the loop over the inputs of a transaction that is no coinbase -/
def checkTxIn (_ : Unit) (txin : CTxIn) : Except TxInvalid Unit :=
  if txin.prevout.isNull then .error (txConsensus "bad-txns-prevout-null" "")
  else if txin.scriptSig ≠ [] then
    .error (txConsensus "bad-txns-scriptsig-nonempty" "typed inputs must not contain scriptSig data")
  else .ok ()

theorem checkDuplicates_ok {vin : List CTxIn} {seen t : List COutPoint} (hseen : seen.Nodup) :
    vin.foldlM checkDuplicate seen = .ok t ↔ (seen ++ vin.map CTxIn.prevout).Nodup ∧
      t = seen ++ vin.map CTxIn.prevout := by
  induction vin generalizing seen with
  | nil => simp [pure, Except.pure, hseen, eq_comm]
  | cons i vin ih =>
    rw [foldlM_cons_ok, map_cons, append_cons]
    by_cases hmem : i.prevout ∈ seen
    · have hdup : ¬ (seen ++ [i.prevout] ++ vin.map CTxIn.prevout).Nodup := by
        rw [append_assoc, nodup_append]
        intro h
        exact h.2.2 _ hmem _ (by simp) rfl
      simp only [checkDuplicate, hmem, if_true, reduceCtorEq, false_and, exists_false, hdup]
    · have hseen' : (seen ++ [i.prevout]).Nodup := by
        rw [nodup_append]
        refine ⟨hseen, by simp, ?_⟩
        intro a ha b hb hab
        rw [mem_singleton] at hb
        exact hmem (hb ▸ hab ▸ ha)
      simp only [checkDuplicate, hmem, if_false, Except.ok.injEq, exists_eq_left', ih hseen']

theorem checkTxIns_ok {vin : List CTxIn} :
    vin.foldlM checkTxIn () = .ok () ↔ ∀ i ∈ vin, i.prevout.isNull = false ∧ i.scriptSig = [] := by
  induction vin with
  | nil => simp [pure, Except.pure]
  | cons i vin ih =>
    rw [foldlM_cons_ok, forall_mem_cons, ← ih]
    simp only [checkTxIn, ite_error_ok, Bool.not_eq_true, not_not, ne_eq, and_true, and_assoc]
    exact ⟨fun h => ⟨h.choose_spec.1, h.choose_spec.2.1, h.choose_spec.2.2⟩, fun h => ⟨(), h⟩⟩

section
variable [Crypto]

/-! ## The transaction -/

/-- the amount of an output -/
def CTxOut.value (o : CTxOut) : CAmount := o.nValue.toInt

abbrev CTransaction.outputSum (tx : CTransaction) : CAmount := (tx.vout.map CTxOut.value).sum

/-- type 1 with its key, or canonical type 2 -/
def isTypedOutput (o : CTxOut) : Bool := (o.type == .P2PK && o.getP2PKPubKey.isSome) || isCanonicalP2COutput o

/-- one turn of the loop over the outputs; the state is the total so far -/
def checkTxOut (nValueOut : CAmount) (txout : CTxOut) : Except TxInvalid CAmount :=
  if !isTypedOutput txout then
    .error (txConsensus "bad-txns-vout-type" "output is not canonical type 1 (P2PK) or type 2 (PAY_TO_CONNECT)")
  else if txout.value < 0 then .error (txConsensus "bad-txns-vout-negative" "")
  else if txout.value > MAX_MONEY then .error (txConsensus "bad-txns-vout-toolarge" "")
  else if !moneyRange (nValueOut + txout.value) then .error (txConsensus "bad-txns-txouttotal-toolarge" "")
  else .ok (nValueOut + txout.value)

/-- `CheckTransaction` -/
def checkTransaction (tx : CTransaction) : Except TxInvalid Unit := do
  refuseIf tx.vin.isEmpty (txConsensus "bad-txns-vin-empty" "")
  refuseIf tx.vout.isEmpty (txConsensus "bad-txns-vout-empty" "")
  refuseIf ((tx.serialize false).length * WITNESS_SCALE_FACTOR > MAX_BLOCK_WEIGHT) (txConsensus "bad-txns-oversize" "")
  let _ ← tx.vout.foldlM checkTxOut 0
  let _ ← tx.vin.foldlM checkDuplicate []
  if tx.isCoinBase then
    -- a coinbase has one input
    refuseIf (tx.vin.any fun i => i.scriptSig.length < 2 || i.scriptSig.length > 100) (txConsensus "bad-cb-length" "")
  else tx.vin.foldlM checkTxIn ()

/-! ## Specification -/

/-- what `CheckTransaction` asks for -/
structure TxOk (tx : CTransaction) : Prop where
  vin_ne : tx.vin ≠ []
  vout_ne : tx.vout ≠ []
  size : (tx.serialize false).length * WITNESS_SCALE_FACTOR ≤ MAX_BLOCK_WEIGHT
  typed : ∀ o ∈ tx.vout, isTypedOutput o = true
  values : ∀ o ∈ tx.vout, 0 ≤ o.value
  total : tx.outputSum ≤ MAX_MONEY
  distinct : tx.prevouts.Nodup
  coinbase : tx.isCoinBase = true → ∀ i ∈ tx.vin, 2 ≤ i.scriptSig.length ∧ i.scriptSig.length ≤ 100
  spends : tx.isCoinBase = false → ∀ i ∈ tx.vin, i.prevout.isNull = false ∧ i.scriptSig = []

/-- The counts of inputs and outputs are limited by the size. -/
theorem TxOk.counts {tx : CTransaction} (h : TxOk tx) : tx.vin.length * WITNESS_SCALE_FACTOR ≤ MAX_BLOCK_WEIGHT ∧
      tx.vout.length * WITNESS_SCALE_FACTOR ≤ MAX_BLOCK_WEIGHT := by
  have hsize := h.size
  have hin : tx.vin.length ≤ (vector CTxIn.serialize tx.vin).length := by
    apply length_le_vector
    intro i _
    simp [CTxIn.serialize, COutPoint.serialize]
  have hout : tx.vout.length ≤ (vector CTxOut.serialize tx.vout).length := by
    apply length_le_vector
    intro o _
    simp [CTxOut.serialize]
  rw [CTransaction.serialize_noWitness] at hsize
  simp only [length_append, WITNESS_SCALE_FACTOR] at hsize ⊢
  omega

theorem checkTxOut_ok {acc : CAmount} {o : CTxOut} {t : CAmount} :
    checkTxOut acc o = .ok t ↔ (isTypedOutput o = true ∧ 0 ≤ o.value ∧ o.value ≤ MAX_MONEY ∧ 0 ≤ acc + o.value ∧
      acc + o.value ≤ MAX_MONEY) ∧ t = acc + o.value := by
  simp only [checkTxOut, ite_error_ok, Bool.not_eq_true', Bool.not_eq_false, moneyRange_iff, Except.ok.injEq,
    not_lt, gt_iff_lt]
  grind

/-- The output loop: every output is typed and not negative, and the total is in range. -/
theorem checkTxOuts_ok {vout : List CTxOut} {acc t : CAmount} (hacc : 0 ≤ acc ∧ acc ≤ MAX_MONEY) :
    vout.foldlM checkTxOut acc = .ok t ↔ (∀ o ∈ vout, isTypedOutput o = true ∧ 0 ≤ o.value) ∧
      acc + (vout.map CTxOut.value).sum ≤ MAX_MONEY ∧ t = acc + (vout.map CTxOut.value).sum := by
  induction vout generalizing acc with
  | nil =>
    simp only [foldlM_nil, pure, Except.pure, Except.ok.injEq, not_mem_nil, false_implies, implies_true, true_and,
      map_nil, sum_nil, add_zero]
    exact ⟨fun h => ⟨hacc.2, h.symm⟩, fun h => h.2.symm⟩
  | cons o vout ih =>
    rw [foldlM_cons_ok, forall_mem_cons, map_cons, sum_cons, ← add_assoc]
    constructor
    · rintro ⟨m, hm, ht⟩
      obtain ⟨⟨htyped, hpos, hmax, hlow, hhigh⟩, rfl⟩ := checkTxOut_ok.1 hm
      obtain ⟨hrest, htotal, rfl⟩ := (ih ⟨hlow, hhigh⟩).1 ht
      exact ⟨⟨⟨htyped, hpos⟩, hrest⟩, htotal, rfl⟩
    · rintro ⟨⟨⟨htyped, hpos⟩, hrest⟩, htotal, rfl⟩
      have hsum : 0 ≤ (vout.map CTxOut.value).sum := by
        apply sum_nonneg
        intro v hv
        obtain ⟨o', ho', rfl⟩ := mem_map.1 hv
        exact (hrest o' ho').2
      refine ⟨acc + o.value, checkTxOut_ok.2 ⟨⟨htyped, hpos, ?_, ?_, ?_⟩, rfl⟩, (ih ⟨?_, ?_⟩).2 ⟨hrest, htotal, rfl⟩⟩
        <;> linarith [hacc.1]

/-- A transaction passes iff it is well formed. -/
theorem checkTransaction_ok {tx : CTransaction} : checkTransaction tx = .ok () ↔ TxOk tx := by
  have hzero : (0 : CAmount) ≤ 0 ∧ (0 : CAmount) ≤ MAX_MONEY := by decide
  simp only [checkTransaction, bind_ok, refuseIf_ok, checkTxOuts_ok hzero, checkDuplicates_ok nodup_nil,
    isEmpty_eq_false_iff, decide_eq_false_iff_not, not_lt, gt_iff_lt, zero_add, nil_append]
  constructor
  · rintro ⟨-, hvin, -, hvout, -, hsize, -, ⟨houts, htotal, -⟩, -, ⟨hdistinct, -⟩, hlast⟩
    refine
      { vin_ne := hvin
        vout_ne := hvout
        size := hsize
        typed := fun o ho => (houts o ho).1
        values := fun o ho => (houts o ho).2
        total := htotal
        distinct := hdistinct
        coinbase := fun hcb => ?_
        spends := fun hcb => ?_ }
    · rw [if_pos hcb, refuseIf_ok] at hlast
      intro i hi
      have hi' := any_eq_false.1 hlast i hi
      simp only [Bool.or_eq_true, decide_eq_true_eq, not_or, not_lt] at hi'
      exact hi'
    · rw [if_neg (by simp [hcb])] at hlast
      exact checkTxIns_ok.1 hlast
  · intro h
    refine ⟨(), h.vin_ne, (), h.vout_ne, (), h.size, _, ⟨fun o ho => ⟨h.typed o ho, h.values o ho⟩, h.total, rfl⟩, _,
      ⟨h.distinct, rfl⟩, ?_⟩
    split_ifs with hcb
    · rw [refuseIf_ok, any_eq_false]
      intro i hi
      have hi' := h.coinbase hcb i hi
      simp only [Bool.or_eq_true, decide_eq_true_eq, not_or, not_lt]
      exact hi'
    · exact checkTxIns_ok.2 (h.spends (by simpa using hcb))

end

end ConnectCoin
