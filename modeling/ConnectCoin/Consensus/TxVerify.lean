/-
Checks of a transaction against the coins it spends (`consensus/tx_verify.cpp`, `util/moneystr.cpp`).

- `CheckTxInputs`: the inputs are there, mature and in range, and they pay for the outputs; its result is the fee. It is
  asked about transactions that are no coinbase.
- `IsFinalTx`: the absolute lock time, by height or by time; `SequenceLocks` (BIP 68): relative lock times by height and
  by median time past.
Results: `checkTxInputs_ok` says what a transaction that passes has; `checkTxInputs_inRange` says when the sum of the
inputs cannot be what a transaction fails for: the mature coins among them are worth no more than `MAX_MONEY`;
`sequenceLocks_exact`.
-/
import ConnectCoin.Coins.View
import ConnectCoin.Core.Chain

namespace ConnectCoin

open Lib List Option

/-! ## Texts -/

/-- `FormatMoney`: ten decimals, without the zeros behind the second -/
def formatMoney (n : CAmount) : String :=
  let quotient := n.natAbs / COIN.natAbs
  let digits := (toString (n.natAbs % COIN.natAbs)).toList
  let decimals := List.replicate (10 - digits.length) '0' ++ digits
  let kept := decimals.take 2 ++ ((decimals.drop 2).reverse.dropWhile (· == '0')).reverse
  (if n < 0 then "-" else "") ++ toString quotient ++ "." ++ String.ofList kept

section
variable [Crypto]

/-! ## Amounts -/

/-- one turn of the loop of `GetValueOut` -/
def addValueOut (nValueOut : CAmount) (o : CTxOut) : Except String CAmount :=
  if !moneyRange o.value || !moneyRange (nValueOut + o.value) then .error "GetValueOut: value out of range" else
    .ok (nValueOut + o.value)

variable (tx : CTransaction)

/-- `GetValueOut` -/
def CTransaction.getValueOut : Except String CAmount := tx.vout.foldlM addValueOut 0

def COINBASE_MATURITY : ℤ := 100

/-- a coinbase coin waits for `COINBASE_MATURITY` blocks -/
def Coin.mature (c : Coin) (nSpendHeight : ℕ) : Bool :=
  !(c.fCoinBase && (nSpendHeight : ℤ) - c.nHeight < COINBASE_MATURITY)

/-- one turn of the loop of `CheckTxInputs` -/
def checkInputCoin (nSpendHeight : ℕ) (nValueIn : CAmount) (coin : Coin) : Except TxInvalid CAmount :=
  if !coin.mature nSpendHeight then
    .error ⟨.TX_PREMATURE_SPEND, "bad-txns-premature-spend-of-coinbase",
      "tried to spend coinbase at depth " ++ toString ((nSpendHeight : ℤ) - coin.nHeight)⟩
  else if !moneyRange coin.out.value || !moneyRange (nValueIn + coin.out.value) then
    .error (txConsensus "bad-txns-inputvalues-outofrange" "")
  else .ok (nValueIn + coin.out.value)

/-- a rejection, or a throw -/
inductive TxFailure where
  | invalid (state : TxInvalid)
  | exception (what : String)
  deriving DecidableEq

/-- the coins that the inputs name, if all are there -/
def inputCoins (inputs : CoinsView) (tx : CTransaction) : Option (List Coin) :=
  tx.vin.mapM fun txin => inputs.coins.lookup txin.prevout

/-- `CheckTxInputs` behind its loop: the fee -/
def payOutputs (nValueIn : CAmount) : Except TxFailure CAmount := do
  let valueOut ← tx.getValueOut.mapError .exception
  refuseIf (nValueIn < valueOut) (.invalid (txConsensus "bad-txns-in-belowout"
    ("value in (" ++ formatMoney nValueIn ++ ") < value out (" ++ formatMoney valueOut ++ ")")))
  refuseIf (!moneyRange (nValueIn - valueOut)) (.invalid (txConsensus "bad-txns-fee-outofrange" ""))
  return nValueIn - valueOut

/-- `HaveInputs` does not find one -/
def inputsMissing : TxFailure :=
  .invalid ⟨.TX_MISSING_INPUTS, "bad-txns-inputs-missingorspent", "CheckTxInputs: inputs missing/spent"⟩

/-- `CheckTxInputs`: the fee -/
def checkTxInputs (inputs : CoinsView) (nSpendHeight : ℕ) : Except TxFailure CAmount :=
  match inputCoins inputs tx with
  | none => .error inputsMissing
  | some coins => do
    let nValueIn ← (coins.foldlM (checkInputCoin nSpendHeight) 0).mapError .invalid
    payOutputs tx nValueIn

/-- `GetTransactionWeight` -/
def getTransactionWeight : Int32 :=
  Int32.ofNat ((tx.serialize false).length * (WITNESS_SCALE_FACTOR - 1) + (tx.serialize true).length)

/-- `GetTransactionSigOpCost`: one authorization for each input -/
def getTransactionSigOpCost : ℕ := if tx.isCoinBase then 0 else tx.vin.length

end

/-! ## Absolute lock times -/

def LOCKTIME_THRESHOLD : ℕ := 500000000

/-- `IsFinalTx` -/
def isFinalTx [Crypto] (tx : CTransaction) (nBlockHeight : ℕ) (nBlockTime : Int64) : Bool :=
  if tx.nLockTime = 0 then true
  else if (tx.nLockTime.toNat : ℤ) <
    (if tx.nLockTime.toNat < LOCKTIME_THRESHOLD then (nBlockHeight : ℤ) else nBlockTime.toInt) then true
  else tx.vin.all fun txin => txin.nSequence == SEQUENCE_FINAL

/-! ## Relative lock times -/

/-- `nMedianTimeSpan` -/
def nMedianTimeSpan : ℕ := 11

/-- the times of the last n blocks -/
def CBlockIndex.lastTimes : ℕ → CBlockIndex → List ℕ
  | 0, _ => []
  | n + 1, b => b.header.nTime.toNat :: (match b.pprev with
    | none => []
    | some p => lastTimes n p)

/-- `GetMedianTimePast` -/
def CBlockIndex.getMedianTimePast (b : CBlockIndex) : ℤ :=
  let times := (b.lastTimes nMedianTimeSpan).insertionSort (· ≤ ·)
  ((times[times.length / 2]?).getD 0 : ℕ)

def SEQUENCE_LOCKTIME_DISABLE_FLAG : UInt32 := 0x80000000
def SEQUENCE_LOCKTIME_TYPE_FLAG : UInt32 := 0x00400000
def SEQUENCE_LOCKTIME_MASK : UInt32 := 0x0000ffff
def SEQUENCE_LOCKTIME_GRANULARITY : ℕ := 9

/-- one turn of the loop of `CalculateSequenceLocks`; none for a failed assertion -/
def sequenceLock (block : CBlockIndex) (locks : ℤ × ℤ) (input : CTxIn × ℕ) : Option (ℤ × ℤ) :=
  let (txin, nCoinHeight) := input
  let masked : ℤ := (txin.nSequence &&& SEQUENCE_LOCKTIME_MASK).toNat
  if txin.nSequence &&& SEQUENCE_LOCKTIME_DISABLE_FLAG ≠ 0 then some locks
  else if txin.nSequence &&& SEQUENCE_LOCKTIME_TYPE_FLAG ≠ 0 then
    (block.getAncestor (max ((nCoinHeight : ℤ) - 1) 0)).map fun b =>
      (locks.1, max locks.2 (b.getMedianTimePast + masked * 2 ^ SEQUENCE_LOCKTIME_GRANULARITY - 1))
  else some (max locks.1 (nCoinHeight + masked - 1), locks.2)

section
variable [Crypto]

/-- `CalculateSequenceLocks`: the last height and the last time at which the transaction is not final yet -/
def calculateSequenceLocks (tx : CTransaction) (verifySequence : Bool) (prevHeights : List ℕ) (block : CBlockIndex) :
    Option (ℤ × ℤ) :=
  if tx.version ≥ 2 && verifySequence then (tx.vin.zip prevHeights).foldlM (sequenceLock block) (-1, -1) else
    some (-1, -1)

/-- `SequenceLocks`; none for a failed assertion -/
def sequenceLocks (tx : CTransaction) (verifySequence : Bool) (prevHeights : List ℕ) (block : CBlockIndex) :
    Option Bool := do
  let locks ← calculateSequenceLocks tx verifySequence prevHeights block
  let prev ← block.pprev
  return !(locks.1 ≥ block.nHeight || locks.2 ≥ prev.getMedianTimePast)

/-! ## What a transaction that passes has -/

variable {tx : CTransaction} {nSpendHeight : ℕ} {view : CoinsView} {coins : List Coin}

theorem getValueOut_eq (h : TxOk tx) : tx.getValueOut = .ok tx.outputSum := by
  have hloop : ∀ (vout : List CTxOut) (acc : CAmount), (∀ o ∈ vout, 0 ≤ o.value) → 0 ≤ acc →
      acc + (vout.map CTxOut.value).sum ≤ MAX_MONEY →
      vout.foldlM addValueOut acc = .ok (acc + (vout.map CTxOut.value).sum) := by
    intro vout
    induction vout with
    | nil =>
      intro acc _ _ _
      simp [pure, Except.pure]
    | cons o vout ih =>
      intro acc hvalues hacc hsum
      obtain ⟨ho, hrest⟩ := forall_mem_cons.1 hvalues
      rw [map_cons, sum_cons] at hsum ⊢
      have hpos : 0 ≤ (vout.map CTxOut.value).sum := sum_nonneg (by simpa using hrest)
      have hnext : addValueOut acc o = .ok (acc + o.value) := by
        have hin : moneyRange o.value = true := moneyRange_iff.2 ⟨ho, by linarith⟩
        have hin' : moneyRange (acc + o.value) = true := moneyRange_iff.2 ⟨by linarith, by linarith⟩
        simp [addValueOut, hin, hin']
      refine foldlM_cons_ok.2 ⟨_, hnext, ?_⟩
      rw [ih _ hrest (by linarith) (by linarith), add_assoc]
  have hall := hloop tx.vout 0 h.values (le_refl _) (by simpa using h.total)
  rwa [zero_add] at hall

/-- The input loop: every coin is mature and not negative, and the total is in range. -/
theorem checkInputCoins_ok {acc t : CAmount} (h : coins.foldlM (checkInputCoin nSpendHeight) acc = .ok t) :
    (∀ c ∈ coins, c.mature nSpendHeight = true ∧ c.AmountOk) ∧ t = acc + (coins.map fun c => c.out.value).sum := by
  induction coins generalizing acc with
  | nil =>
    cases h
    exact ⟨by simp, by simp⟩
  | cons c coins ih =>
    obtain ⟨m, hm, hrest⟩ := foldlM_cons_ok.1 h
    simp only [checkInputCoin, ite_error_ok, Bool.not_eq_true', Bool.not_eq_false, Bool.or_eq_true,
      not_or, moneyRange_iff, Except.ok.injEq] at hm
    obtain ⟨hmature, ⟨hvalue, -⟩, rfl⟩ := hm
    obtain ⟨hall, rfl⟩ := ih hrest
    refine ⟨forall_mem_cons.2 ⟨⟨hmature, hvalue⟩, hall⟩, ?_⟩
    rw [map_cons, sum_cons]
    ring

theorem checkTxInputs_ok {txfee : CAmount} (htx : TxOk tx) (h : checkTxInputs tx view nSpendHeight = .ok txfee) :
    ∃ coins, inputCoins view tx = some coins ∧ (∀ c ∈ coins, c.mature nSpendHeight = true ∧ c.AmountOk) ∧ 0 ≤ txfee ∧
      txfee = (coins.map fun c => c.out.value).sum - tx.outputSum := by
  unfold checkTxInputs at h
  cases hcoins : inputCoins view tx with
  | none => simp [hcoins] at h
  | some coins =>
    simp only [hcoins, payOutputs, bind_ok, mapError_ok, getValueOut_eq htx, refuseIf_ok,
      decide_eq_false_iff_not, not_lt, pure, Except.pure, Except.ok.injEq] at h
    obtain ⟨nValueIn, hloop, valueOut, rfl, _, hle, _, _, rfl⟩ := h
    obtain ⟨hall, rfl⟩ := checkInputCoins_ok hloop
    exact ⟨coins, rfl, hall, by linarith, by ring⟩

/-- The coins that `UpdateCoins` takes out are the inputs' coins. -/
theorem Updated.inputCoins_eq {nHeight : ℕ} {view' : CoinsView} {txundo : CTxUndo} {spent : List (COutPoint × Coin)}
    (h : Updated tx nHeight view txundo view' spent) (hcb : ¬ tx.isCoinBase = true) :
    inputCoins view tx = some (spent.map Prod.snd) := by
  have hloop : ∀ es : List (COutPoint × Coin), (∀ e ∈ es, view.coins.lookup e.1 = some e.2) →
      (es.map Prod.fst).mapM (fun o => view.coins.lookup o) = some (es.map Prod.snd) := by
    intro es
    induction es with
    | nil => intro _; rfl
    | cons e es ih =>
      intro hes
      obtain ⟨he, hrest⟩ := forall_mem_cons.1 hes
      simp [he, ih hrest]
  have hkeys : spent.map Prod.fst = tx.prevouts := by simpa [spentOutpoints, hcb] using h.outpoints
  have hall := hloop spent h.found
  rw [hkeys, mapM_map] at hall
  exact hall

/-- The inputs' coins with their outpoints. -/
theorem inputCoins_entries (h : inputCoins view tx = some coins) :
    ∃ es : List (COutPoint × Coin), es.map Prod.fst = tx.prevouts ∧ es.map Prod.snd = coins ∧
      ∀ e ∈ es, view.coins.lookup e.1 = some e.2 := by
  have hloop : ∀ (vin : List CTxIn) (coins : List Coin),
      vin.mapM (fun txin => view.coins.lookup txin.prevout) = some coins → ∃ es : List (COutPoint × Coin),
        es.map Prod.fst = vin.map CTxIn.prevout ∧ es.map Prod.snd = coins ∧
        ∀ e ∈ es, view.coins.lookup e.1 = some e.2 := by
    intro vin
    induction vin with
    | nil =>
      intro coins hcoins
      obtain rfl : [] = coins := some_inj.1 hcoins
      exact ⟨[], rfl, rfl, by simp⟩
    | cons i vin ih =>
      intro coins hcoins
      simp only [mapM_cons, Option.pure_def, Option.bind_eq_bind, Option.bind_eq_some_iff, Option.some_inj] at hcoins
      obtain ⟨c, hc, cs, hcs, rfl⟩ := hcoins
      obtain ⟨es, hkeys, hvalues, hfound⟩ := ih cs hcs
      exact ⟨(i.prevout, c) :: es, by simp [hkeys], by simp [hvalues], forall_mem_cons.2 ⟨hc, hfound⟩⟩
  exact hloop tx.vin coins h

/-! ## When the input sum cannot fail -/

/-- While the mature coins are in range, the loop stops at an immature coin only. -/
theorem checkInputCoins_error {acc : CAmount} {e : TxInvalid} (hacc : 0 ≤ acc) (hvalues : ∀ c ∈ coins, 0 ≤ c.out.value)
    (hsum : acc + ((coins.filter fun c => c.mature nSpendHeight).map fun c => c.out.value).sum ≤ MAX_MONEY)
    (h : coins.foldlM (checkInputCoin nSpendHeight) acc = .error e) :
    e.rejectReason = "bad-txns-premature-spend-of-coinbase" := by
  induction coins generalizing acc with
  | nil => cases h
  | cons c coins ih =>
    obtain ⟨hc, hrest⟩ := forall_mem_cons.1 hvalues
    rw [foldlM_cons] at h
    by_cases hmature : c.mature nSpendHeight = true
    · rw [filter_cons, if_pos hmature, map_cons, sum_cons] at hsum
      have hpos : 0 ≤ ((coins.filter fun c => c.mature nSpendHeight).map fun c => c.out.value).sum := by
        apply sum_nonneg
        intro v hv
        obtain ⟨c', hc', rfl⟩ := mem_map.1 hv
        exact hrest c' (mem_of_mem_filter hc')
      have hturn : checkInputCoin nSpendHeight acc c = .ok (acc + c.out.value) := by
        have hin : moneyRange c.out.value = true := moneyRange_iff.2 ⟨hc, by linarith⟩
        have hin' : moneyRange (acc + c.out.value) = true := moneyRange_iff.2 ⟨by linarith, by linarith⟩
        simp [checkInputCoin, hmature, hin, hin']
      rw [hturn] at h
      exact ih (by linarith) hrest (by linarith) h
    · have hturn : ∃ debug, checkInputCoin nSpendHeight acc c =
          .error ⟨.TX_PREMATURE_SPEND, "bad-txns-premature-spend-of-coinbase", debug⟩ := by
        simp [checkInputCoin, hmature]
      obtain ⟨debug, hturn⟩ := hturn
      rw [hturn] at h
      cases h
      rfl

/-- The reasons that are left for a well-formed transaction whose mature input coins are in range. -/
theorem checkTxInputs_inRange {e : TxFailure} (htx : TxOk tx)
    (hcoins : ∀ coins, inputCoins view tx = some coins → (∀ c ∈ coins, 0 ≤ c.out.value) ∧
      ((coins.filter fun c => c.mature nSpendHeight).map fun c => c.out.value).sum ≤ MAX_MONEY)
    (h : checkTxInputs tx view nSpendHeight = .error e) :
    ∃ state, e = .invalid state ∧ state.rejectReason ∈ ["bad-txns-inputs-missingorspent",
      "bad-txns-premature-spend-of-coinbase", "bad-txns-in-belowout", "bad-txns-fee-outofrange"] := by
  unfold checkTxInputs at h
  cases hin : inputCoins view tx with
  | none =>
    rw [hin] at h
    cases h
    exact ⟨_, rfl, mem_cons_self⟩
  | some coins =>
    obtain ⟨hvalues, hsum⟩ := hcoins coins hin
    simp only [hin, payOutputs, bind_error, mapError_error, mapError_ok, getValueOut_eq htx, refuseIf_error] at h
    rcases h with ⟨state, hloop, rfl⟩ | ⟨_, _, ⟨_, hthrow, _⟩ | ⟨_, _, ⟨_, rfl⟩ | ⟨_, _, ⟨_, rfl⟩ | ⟨_, _, hpure⟩⟩⟩⟩
    · refine ⟨state, rfl, ?_⟩
      rw [checkInputCoins_error (le_refl _) hvalues (by rwa [zero_add]) hloop]
      simp
    · cases hthrow
    · exact ⟨_, rfl, by simp [txConsensus]⟩
    · exact ⟨_, rfl, by simp [txConsensus]⟩
    · cases hpure

end

/-! ## What relative lock times ask for -/

/-- the lock of an input is off, or old enough for a block on p: by median time past or by height -/
def LockOpen (block p : CBlockIndex) (input : CTxIn × ℕ) : Prop :=
  let masked := (input.1.nSequence &&& SEQUENCE_LOCKTIME_MASK).toNat
  input.1.nSequence &&& SEQUENCE_LOCKTIME_DISABLE_FLAG ≠ 0 ∨
    if input.1.nSequence &&& SEQUENCE_LOCKTIME_TYPE_FLAG ≠ 0 then
      ∃ b, block.getAncestor (max ((input.2 : ℤ) - 1) 0) = some b ∧
        b.getMedianTimePast + masked * 512 ≤ p.getMedianTimePast
    else input.2 + masked ≤ block.nHeight

/-- `EvaluateSequenceLocks` passes -/
def LocksBelow (block p : CBlockIndex) (locks : ℤ × ℤ) : Prop := locks.1 < block.nHeight ∧ locks.2 < p.getMedianTimePast

variable {block p : CBlockIndex}

theorem sequenceLock_below (locks : ℤ × ℤ) (input : CTxIn × ℕ) :
    (∃ m, sequenceLock block locks input = some m ∧ LocksBelow block p m) ↔ LocksBelow block p locks ∧
      LockOpen block p input := by
  unfold sequenceLock LockOpen LocksBelow
  dsimp only
  by_cases hoff : input.1.nSequence &&& SEQUENCE_LOCKTIME_DISABLE_FLAG ≠ 0
  · simp [hoff]
  rw [if_neg hoff, or_iff_right hoff]
  split_ifs with htime
  · cases block.getAncestor (max ((input.2 : ℤ) - 1) 0) with
    | none => simp
    | some b =>
      simp only [map_some, some_inj, exists_eq_left', max_lt_iff, SEQUENCE_LOCKTIME_GRANULARITY]
      omega
  · simp only [some_inj, exists_eq_left', max_lt_iff]
    omega

theorem sequenceLocks_below (inputs : List (CTxIn × ℕ)) (locks : ℤ × ℤ) :
    (∃ m, inputs.foldlM (sequenceLock block) locks = some m ∧ LocksBelow block p m) ↔
      LocksBelow block p locks ∧ ∀ input ∈ inputs, LockOpen block p input := by
  induction inputs generalizing locks with
  | nil => simp
  | cons input inputs ih =>
    rw [forall_mem_cons, ← and_assoc, ← sequenceLock_below, foldlM_cons]
    cases sequenceLock block locks input with
    | none => simp
    | some m => simpa using ih m

/-- **Relative lock times.** A transaction passes `SequenceLocks` for a block exactly when the lock of each of its
inputs is open, if it is of version 2 and they are enforced. -/
theorem sequenceLocks_exact [Crypto] (tx : CTransaction) (verifySequence : Bool) (prevHeights : List ℕ)
    (p : CBlockIndex) (header : CBlockHeader) :
      sequenceLocks tx verifySequence prevHeights (p.child header) = some true ↔
        ((tx.version ≥ 2 && verifySequence) = true → ∀ input ∈ tx.vin.zip prevHeights,
        LockOpen (p.child header) p input) := by
  have hstart : LocksBelow (p.child header) p (-1, -1) := by
    simp [LocksBelow, CBlockIndex.getMedianTimePast]
    omega
  calc sequenceLocks tx verifySequence prevHeights (p.child header) = some true
    _ ↔ ∃ m, calculateSequenceLocks tx verifySequence prevHeights (p.child header) = some m ∧
      LocksBelow (p.child header) p m := by
      simp [sequenceLocks, LocksBelow, bind_eq_some_iff]
    _ ↔ _ := by
      rw [calculateSequenceLocks]
      split_ifs with henforce
      · rw [sequenceLocks_below]
        exact ⟨fun h _ => h.2, fun h => ⟨hstart, h henforce⟩⟩
      · exact ⟨fun _ h => absurd h henforce, fun _ => ⟨_, rfl, hstart⟩⟩

end ConnectCoin
