/-
Batches of P2C transactions that reserve their inputs (`P2CTransactionBatch` in `wallet/p2c.cpp`).

- `WalletEnv`: the rest of the wallet as a state of type ω that the functions of this module do not look into.
  `CreateTransaction`, `AvailableCoins`, the fee rates, `IsSpent`, `SignTransaction` and `CommitTransaction` are
  functions on it; none of them locks a coin.
- `prepare`, `prepareSignatureAlgorithmsAlternative`, `selectSignatureAlgorithmsMask`, `commit`, `destroy`: the members
  of a batch. A failed `Prepare` destroys the batch it has begun. The number of outputs that fit into a transaction is
  an argument of `prepareWith`.
- `WalletState`, `Event`, `step`: several batches, user locks, and anything that happens to the rest of the wallet, in
  any order. A batch is named by its address, which a later batch may have again.
Results:
- `prepareWith_cases`: what a batch holds after `Prepare`, and that a failed one leaves the locks as they were;
- `Inv`: every owner is the address of a living batch that has the coin among its reservations; `Call` says what a
  member changes, and `step_inv` keeps the invariant;
- `batch_locks_safe`: a batch touches no lock of the user or of another batch, over every run.
-/
import ConnectCoin.Wallet.CoinLocks
import ConnectCoin.Consensus.TxVerify
import ConnectCoin.Consensus.TxCode
import ConnectCoin.P2C.Replay
import ConnectCoin.Util.FeeFrac
import ConnectCoin.Lib.Machine

namespace ConnectCoin.Wallet

open Lib CoinLocks List

section
variable [Crypto]

/-! ## The wallet around a batch -/

structure CRecipient where
  nAmount : CAmount
  p2c : Option PayToDomainOutput

/-- `CreatedTransactionResult` -/
structure CreatedTransaction where
  tx : CTransaction
  fee : CAmount

structure WalletEnv (π ω : Type) where
  disablePrivateKeys : ω → Bool
  externalSigner : ω → Bool
  isLocked : ω → Bool
  getMinimumFeeRate : ω → FeeFrac
  getDiscardRate : ω → FeeFrac
  consolidateFeerate : ω → FeeFrac
  /-- `AvailableCoins` under a minimal depth, summed up -/
  availableAmount : ω → CoinLocks π → ℤ → CAmount
  /-- `CreateTransaction`, under a minimal depth -/
  createTransaction : ω → CoinLocks π → List CRecipient → ℤ → Except String CreatedTransaction × ω
  isSpent : ω → COutPoint → Bool
  /-- `SignTransaction` fills in scriptSigs and witnesses -/
  signTransaction : ω → CTransaction → Option CTransaction
  sign_prevouts : ∀ rest tx tx', signTransaction rest tx = some tx' → tx'.prevouts = tx.prevouts
  /-- `CommitTransaction`, the unlocking of the inputs apart: nothing, or what it throws -/
  commitTransaction : ω → CTransaction → Option String × ω
  /-- the transaction is new to the wallet -/
  isNew : ω → CTransaction → Bool

structure P2CTransactionBatch where
  transactions : List (CreatedTransaction × ℕ) := []
  alternativeTransactions : List (CreatedTransaction × ℕ) := []
  signatureAlgorithmsMask : UInt8 := 0
  alternativeMask : UInt8 := 0
  maskSelected : Bool := false
  locked : List COutPoint := []
  fee : CAmount := 0
  committedCount : ℕ := 0
  commitAttempted : Bool := false

/-- the outpoints that transactions spend -/
def inputsOf (txs : List (CreatedTransaction × ℕ)) : List COutPoint := txs.flatMap fun t => t.1.tx.prevouts

def MAX_P2C_OUTPUT_COUNT : ℤ := 1000
def MAX_STANDARD_TX_WEIGHT : ℕ := 400000
def MIN_TRANSACTION_WEIGHT : ℕ := WITNESS_SCALE_FACTOR * 60

variable {π ω : Type}

/-! ## Prepare -/

variable (E : WalletEnv π ω)

/-- the checks before a batch is begun -/
def checkRequest (rest : ω) (recipient : CRecipient) (outputCount : ℤ) : Except String PayToDomainOutput :=
  match recipient.p2c with
  | none => .error "Invalid P2C domain, root certificates version or signature algorithms mask"
  | some p2c =>
    if !isCanonicalP2CDomain p2c.domain || !isSupportedP2CRootCertificatesVersion p2c.rootCertificatesVersion ||
        !isValidP2CSignatureAlgorithmsMask p2c.signatureAlgorithmsMask then
      .error "Invalid P2C domain, root certificates version or signature algorithms mask"
    else if recipient.nAmount ≤ 0 || !moneyRange recipient.nAmount || outputCount < 1 || outputCount >
        MAX_P2C_OUTPUT_COUNT || outputCount > MAX_MONEY / recipient.nAmount then
      .error "Invalid P2C amount or output count"
    else if E.disablePrivateKeys rest || E.externalSigner rest then
      .error "P2C creation requires a wallet with local private keys"
    else if E.isLocked rest then .error "Wallet is locked"
    -- the lambda `safe_rate`
    else if !(E.getMinimumFeeRate rest).isSafe || !(E.getDiscardRate rest).isSafe ||
      !(E.consolidateFeerate rest).isSafe then
      .error "Fee rate is too high or invalid for safe P2C transaction construction"
    else .ok p2c

/-- `max_outputs_per_tx` -/
def maxOutputsPerTx (recipient : CRecipient) (p2c : PayToDomainOutput) : ℕ :=
  let outputWeight := WITNESS_SCALE_FACTOR * (p2cOutput (Int64.ofInt recipient.nAmount) p2c).serialize.length
  (MAX_STANDARD_TX_WEIGHT - MIN_TRANSACTION_WEIGHT) / outputWeight

/-- a transaction with some of the outputs -/
structure Selected (most : ℕ) where
  count : ℕ
  created : CreatedTransaction
  count_pos : 1 ≤ count
  count_le : count ≤ most

/-- the loop that looks for the most outputs that work, by bisection -/
def bisect (E : WalletEnv π ω) (recipient : CRecipient) (minDepth : ℤ) (w : CoinLocks π) {most : ℕ} (low high : ℕ)
    (hlow : 1 ≤ low) (hhigh : high ≤ most) (selected : Option (Selected most)) (lastError : String) (rest : ω) :
    Option (Selected most) × String × ω :=
  if h : low ≤ high then
    let middle := low + (high - low) / 2
    match E.createTransaction rest w (List.replicate middle recipient) minDepth with
    | (.ok created, rest) => bisect E recipient minDepth w (middle + 1) high (by omega) hhigh
        (some ⟨middle, created, by omega, by omega⟩) lastError rest
    | (.error e, rest) => bisect E recipient minDepth w low (middle - 1) hlow (by omega) selected e rest
  else (selected, lastError, rest)
termination_by high + 1 - low

/-- one transaction: with as many outputs as allowed, or else with fewer -/
def selectTransaction (recipient : CRecipient) (minDepth : ℤ) (w : CoinLocks π) (most : ℕ)
    (hmost : 1 ≤ most) (rest : ω) : Option (Selected most) × String × ω :=
  match E.createTransaction rest w (List.replicate most recipient) minDepth with
  | (.ok created, rest) => (some ⟨most, created, hmost, le_refl _⟩, "", rest)
  | (.error e, rest) => bisect E recipient minDepth w 1 (most - 1) (le_refl 1) (Nat.sub_le _ _) none e rest

/-- the loop over the inputs: what went wrong, the locks, and the reservations of the batch -/
def reserveInputs (p : π) : List CTxIn → CoinLocks π → List COutPoint → Option String × CoinLocks π × List COutPoint
  | [], w, reserved => (none, w, reserved)
  | input :: vin, w, reserved =>
    if w.isLockedCoin input.prevout then (some "P2C input is already reserved", w, reserved)
    else match w.lockCoin input.prevout false (some p) true with
      | (true, w) => reserveInputs p vin w (reserved ++ [input.prevout])
      | (false, w) => (some "Unable to reserve an input for the P2C transaction batch", w, reserved)

/-- a batch on the way, with the locks and the rest of the wallet -/
structure Preparing (π ω : Type) where
  batch : P2CTransactionBatch
  locks : CoinLocks π
  rest : ω

/-- the loop of `Prepare`: what went wrong, and what there is then -/
def prepareLoop (E : WalletEnv π ω) (p : π) (recipient : CRecipient) (most : ℕ) (hmost : 1 ≤ most)
    (totalAmount : CAmount) (remaining : ℕ) (minDepth : ℤ) (s : Preparing π ω) : Option String × Preparing π ω :=
  if hdone : remaining = 0 then (none, s)
  else
    match selectTransaction E recipient minDepth s.locks (min remaining most) (by omega) s.rest with
    | (none, lastError, rest) =>
      (some ((if s.batch.transactions.isEmpty then ""
        else "P2C batch requires enough distinct confirmed inputs to fund every split transaction: ") ++ lastError),
          { s with rest })
    | (some selected, _, rest) =>
      if hsplit : s.batch.transactions.isEmpty && selected.count < remaining && minDepth < 1 then
        -- the inputs of a split batch are confirmed ones: begin again
        if totalAmount > E.availableAmount rest s.locks 1 then
          (some "Insufficient confirmed funds for the P2C transaction batch", { s with rest })
        else prepareLoop E p recipient most hmost totalAmount remaining 1 { s with rest }
      else if selected.created.fee < 0 || selected.created.fee > MAX_MONEY - s.batch.fee then
        (some "Total P2C fees exceed the maximum money range", { s with rest })
      else
        match reserveInputs p selected.created.tx.vin s.locks s.batch.locked with
        | (some e, locks, locked) => (some e, ⟨{ s.batch with locked }, locks, rest⟩)
        | (none, locks, locked) =>
          prepareLoop E p recipient most hmost totalAmount (remaining - selected.count) minDepth ⟨{ s.batch with
                locked
                fee := s.batch.fee + selected.created.fee
                transactions := s.batch.transactions ++ [(selected.created, selected.count)] }, locks, rest⟩
termination_by 2 * remaining + if minDepth < 1 then 1 else 0
decreasing_by
  · have hlow : minDepth < 1 := of_decide_eq_true ((Bool.and_eq_true _ _).mp hsplit).2
    rw [if_pos hlow, if_neg (lt_irrefl 1)]
    omega
  · have hpos := selected.count_pos
    omega

variable [DecidableEq π]

/-- the destructor, on the locks -/
def destroy (p : π) (batch : P2CTransactionBatch) (w : CoinLocks π) : CoinLocks π := unlockAll p batch.locked w

/-- `Prepare` with a number of outputs that fit into a transaction: the batch, or what went wrong, with the locks and
the rest after it -/
def prepareWith (p : π) (recipient : CRecipient) (outputCount : ℤ)
    (most : PayToDomainOutput → ℕ) (minDepth : ℤ) (w : CoinLocks π) (rest : ω) :
    Except String P2CTransactionBatch × CoinLocks π × ω :=
  match checkRequest E rest recipient outputCount with
  | .error e => (.error e, w, rest)
  | .ok p2c =>
    if hmost : 1 ≤ most p2c then
      let minDepth := if outputCount > most p2c then 1 else minDepth
      let totalAmount := recipient.nAmount * outputCount
      if totalAmount > E.availableAmount rest w minDepth then
        (.error "Insufficient confirmed funds for the P2C transaction batch", w, rest)
      else
        match prepareLoop E p recipient (most p2c) hmost totalAmount outputCount.toNat minDepth
          ⟨{ signatureAlgorithmsMask := p2c.signatureAlgorithmsMask }, w, rest⟩ with
        | (none, s) => (.ok s.batch, s.locks, s.rest)
        | (some e, s) => (.error e, destroy p s.batch s.locks, s.rest)
    else (.error "P2C output cannot fit in a standard transaction", w, rest)

/-- `Prepare` -/
def prepare (p : π) (recipient : CRecipient) (outputCount minDepth : ℤ)
    (w : CoinLocks π) (rest : ω) : Except String P2CTransactionBatch × CoinLocks π × ω :=
  prepareWith E p recipient outputCount (maxOutputsPerTx recipient) minDepth w rest

/-! ## The other members -/

end

section
variable [Crypto] {π ω : Type}

/-- the outputs of a transaction with another mask, and how many there are of them -/
def changeMask (oldMask mask : UInt8) : List CTxOut → Except String (List CTxOut × ℕ)
  | [] => .ok ([], 0)
  | output :: vout =>
    match output.getPayToDomain with
    | none => do
      let (vout, changed) ← changeMask oldMask mask vout
      return (output :: vout, changed)
    | some p2c =>
      if p2c.signatureAlgorithmsMask ≠ oldMask then .error "Inconsistent P2C batch signature mask"
      else do
        let (vout, changed) ← changeMask oldMask mask vout
        return (p2cOutput output.nValue { p2c with signatureAlgorithmsMask := mask } :: vout, changed + 1)

/-- a transaction with other outputs and nothing signed; none if an output does not serialize -/
def withOutputs (tx : CTransaction) (vout : List CTxOut) : Option CTransaction :=
  if h : (∀ o ∈ vout, o.serializePayload.isOk = true) ∧ vout.length < 2 ^ 64 then
    some
      { vin := tx.vin.map fun input => { input with scriptSig := [], scriptWitness := [] }
        vout
        version := tx.version
        nLockTime := tx.nLockTime
        payloads := h.1
        vin_size := by rw [length_map]; exact tx.vin_size
        vout_size := h.2
        scriptSig_size := by simp
        stack_size := by simp }
  else none

variable (E : WalletEnv π ω)

/-- one transaction with another mask, signed again -/
def alternativeOf (rest : ω) (oldMask mask : UInt8) (t : CreatedTransaction × ℕ) :
    Except String (CreatedTransaction × ℕ) := do
  let (vout, changed) ← changeMask oldMask mask t.1.tx.vout
  if changed ≠ t.2 then .error "Inconsistent P2C batch output count"
  else match (withOutputs t.1.tx vout).bind (E.signTransaction rest) with
    | none => .error "Unable to sign the alternative P2C signature mask"
    | some tx =>
      if getTransactionWeight tx ≠ getTransactionWeight t.1.tx then
        .error "Alternative P2C signature mask changed the transaction weight"
      else .ok ({ t.1 with tx }, t.2)

/-- `PrepareSignatureAlgorithmsAlternative`; an error leaves the batch as it is -/
def prepareSignatureAlgorithmsAlternative (rest : ω) (mask : UInt8) (batch : P2CTransactionBatch) :
    Except String P2CTransactionBatch :=
  if batch.commitAttempted || batch.maskSelected || !batch.alternativeTransactions.isEmpty ||
      !isValidP2CSignatureAlgorithmsMask mask || mask == batch.signatureAlgorithmsMask then
    .error "Invalid or already finalized P2C signature mask alternative"
  else if E.isLocked rest then .error "Wallet is locked"
  else do
    let alternatives ← batch.transactions.mapM (alternativeOf E rest batch.signatureAlgorithmsMask mask)
    return { batch with alternativeTransactions := alternatives, alternativeMask := mask }

/-- the end of `SelectSignatureAlgorithmsMask` -/
def P2CTransactionBatch.finalizeMask (batch : P2CTransactionBatch) : P2CTransactionBatch :=
  { batch with alternativeTransactions := [], alternativeMask := 0, maskSelected := true }

/-- `SelectSignatureAlgorithmsMask` -/
def selectSignatureAlgorithmsMask (mask : UInt8) (batch : P2CTransactionBatch) : Except String P2CTransactionBatch :=
  if batch.commitAttempted || batch.maskSelected then .error "P2C signature mask was already finalized"
  else if mask ≠ batch.signatureAlgorithmsMask then
    if mask ≠ batch.alternativeMask || batch.alternativeTransactions.isEmpty then
      .error "P2C signature mask was not prepared for approval"
    else .ok { batch with transactions := batch.alternativeTransactions, signatureAlgorithmsMask := mask :
        P2CTransactionBatch }.finalizeMask
  else .ok batch.finalizeMask

variable [DecidableEq π]

/-- the reservations are still the batch's own, and unspent -/
def checkReservations (E : WalletEnv π ω) (p : π) (w : CoinLocks π) (rest : ω) : List COutPoint → Option String
  | [] => none
  | outpoint :: locked =>
    if E.isSpent rest outpoint then some "A P2C input was spent while awaiting confirmation. Prepare a new batch."
    else if !w.ownsCoinLock outpoint (some p) then
      some "A P2C input reservation changed while awaiting confirmation. Prepare a new batch."
    else checkReservations E p w rest locked

/-- `AddToSpends`, on the locks -/
def addToSpends (tx : CTransaction) (w : CoinLocks π) : CoinLocks π :=
  if tx.isCoinBase then w else tx.vin.foldl (fun w txin => (w.unlockCoin txin.prevout none true).2) w

/-- the loop of `Commit`: what was thrown, the locks and the rest of the wallet, and the number of transactions -/
def commitLoop (E : WalletEnv π ω) : List (CreatedTransaction × ℕ) → CoinLocks π → ω → ℕ →
    Option String × CoinLocks π × ω × ℕ
  | [], w, rest, committed => (none, w, rest, committed)
  | t :: txs, w, rest, committed =>
    let w := if E.isNew rest t.1.tx then addToSpends t.1.tx w else w
    match E.commitTransaction rest t.1.tx with
    | (some e, rest) => (some ("P2C submission failed; check wallet history before retrying: " ++ e), w,
        rest, committed)
    | (none, rest) => commitLoop E txs w rest (committed + 1)

/-- `Commit`: what went wrong, the batch, the locks and the rest of the wallet -/
def commit (p : π) (batch : P2CTransactionBatch) (w : CoinLocks π) (rest : ω) :
    Option String × P2CTransactionBatch × CoinLocks π × ω :=
  if batch.commitAttempted then (some "P2C batch was already submitted", batch, w, rest)
  else match checkReservations E p w rest batch.locked with
    | some e => (some e, batch, w, rest)
    | none =>
      let (e, w, rest, committedCount) :=
        commitLoop E batch.transactions (unlockAll p batch.locked w) rest batch.committedCount
      (e, { batch with commitAttempted := true, locked := [], committedCount }, w, rest)

end

/-! ## What Prepare does -/

section
variable {π ω : Type} {p : π} {w w' : CoinLocks π} {recipient : CRecipient} {rest : ω} {outputCount : ℤ}

/-- Whatever the loop over the inputs returns, it reserved free coins; at its end, all of them. -/
theorem reserveInputs_reserved {vin : List CTxIn} {reserved reserved' : List COutPoint} {e : Option String}
    (h : reserveInputs p vin w reserved = (e, w', reserved')) :
    ∃ new, reserved' = reserved ++ new ∧ Reserved p w w' new ∧ (e = none → new = vin.map CTxIn.prevout) := by
  induction vin generalizing w reserved with
  | nil =>
    cases h
    exact ⟨[], (append_nil _).symm, Reserved.none p _, fun _ => rfl⟩
  | cons input vin ih =>
    rw [reserveInputs] at h
    by_cases hlocked : w.isLockedCoin input.prevout = true
    · rw [if_pos hlocked] at h
      cases h
      exact ⟨[], (append_nil _).symm, Reserved.none p _, fun he => by cases he⟩
    · rw [if_neg hlocked] at h
      obtain ⟨new, rfl, hnew, hall⟩ := ih h
      refine ⟨input.prevout :: new, append_assoc _ _ _, (Reserved.lock (Bool.eq_false_iff.2 hlocked)).trans hnew,
        fun he => ?_⟩
      rw [hall he, map_cons]

variable [Crypto] {E : WalletEnv π ω}

/-- what the loop of `Prepare` added to a batch -/
structure Extended (p : π) (s s' : Preparing π ω) (new : List COutPoint) : Prop where
  locked : s'.batch.locked = s.batch.locked ++ new
  reserved : Reserved p s.locks s'.locks new
  commitAttempted : s'.batch.commitAttempted = s.batch.commitAttempted
  alternatives : s'.batch.alternativeTransactions = s.batch.alternativeTransactions

/-- what it has done when it is through -/
structure Completed (s s' : Preparing π ω) (new : List COutPoint) (count : ℕ) : Prop where
  inputs : inputsOf s'.batch.transactions = inputsOf s.batch.transactions ++ new
  counts : (s'.batch.transactions.map Prod.snd).sum = (s.batch.transactions.map Prod.snd).sum + count
  fee : 0 ≤ s'.batch.fee ∧ s'.batch.fee ≤ MAX_MONEY
  fees : s'.batch.fee - (s'.batch.transactions.map fun t => t.1.fee).sum =
    s.batch.fee - (s.batch.transactions.map fun t => t.1.fee).sum
  nonneg : (∀ t ∈ s.batch.transactions, 0 ≤ t.1.fee) → ∀ t ∈ s'.batch.transactions, 0 ≤ t.1.fee

theorem Extended.none (p : π) (s : Preparing π ω) (rest : ω) : Extended p s { s with rest } [] :=
  ⟨(append_nil _).symm, Reserved.none p _, rfl, rfl⟩

theorem prepareLoop_extended {most : ℕ} {hmost : 1 ≤ most} {totalAmount : CAmount} {remaining : ℕ} {minDepth : ℤ}
    {s s' : Preparing π ω} {e : Option String} (hfee : 0 ≤ s.batch.fee ∧ s.batch.fee ≤ MAX_MONEY)
    (h : prepareLoop E p recipient most hmost totalAmount remaining minDepth s = (e, s')) :
    ∃ new, Extended p s s' new ∧ (e = none → Completed s s' new remaining) := by
  fun_induction prepareLoop E p recipient most hmost totalAmount remaining minDepth s with
  | case1 minDepth s =>
    cases h
    exact ⟨[], Extended.none p _ _, fun _ => ⟨(append_nil _).symm, rfl, hfee, rfl, id⟩⟩
  | case2 remaining minDepth s _ lastError rest _ =>
    cases h
    exact ⟨[], Extended.none p s rest, fun he => by cases he⟩
  | case3 remaining minDepth s _ selected _ rest _ _ _ =>
    cases h
    exact ⟨[], Extended.none p s rest, fun he => by cases he⟩
  | case4 remaining minDepth s _ selected _ rest _ _ _ ih =>
    -- only the rest of the wallet is another one when the loop begins again
    obtain ⟨new, hextended, hcompleted⟩ := ih hfee h
    exact ⟨new, ⟨hextended.locked, hextended.reserved, hextended.commitAttempted, hextended.alternatives⟩, fun he =>
      ⟨(hcompleted he).inputs, (hcompleted he).counts, (hcompleted he).fee, (hcompleted he).fees,
        (hcompleted he).nonneg⟩⟩
  | case5 remaining minDepth s _ selected _ rest _ _ _ =>
    cases h
    exact ⟨[], Extended.none p s rest, fun he => by cases he⟩
  | case6 remaining minDepth s _ selected _ rest _ _ _ e' locks locked hreserve =>
    cases h
    obtain ⟨new, hlocked, hreserved, -⟩ := reserveInputs_reserved hreserve
    exact ⟨new, ⟨hlocked, hreserved, rfl, rfl⟩, fun he => by cases he⟩
  | case7 remaining minDepth s _ selected _ rest _ _ hrange locks locked hreserve ih =>
    obtain ⟨new, hlocked, hreserved, hall⟩ := reserveInputs_reserved hreserve
    simp only [Bool.or_eq_true, decide_eq_true_eq, not_or, not_lt, gt_iff_lt] at hrange
    obtain ⟨later, hextended, hcompleted⟩ := ih ⟨by simp only; linarith [hfee.1], by simp only; linarith [hrange.2]⟩ h
    refine ⟨new ++ later, ⟨?_, hreserved.trans hextended.reserved, hextended.commitAttempted, hextended.alternatives⟩,
      fun he => ?_⟩
    · rw [hextended.locked, hlocked, append_assoc]
    · have hdone := hcompleted he
      have hpos := selected.count_pos
      have hle := selected.count_le
      refine ⟨?_, ?_, hdone.fee, ?_, fun hnonneg => hdone.nonneg ?_⟩
      · rw [hdone.inputs, hall rfl]
        simp [inputsOf]
      · rw [hdone.counts]
        simp only [map_append, sum_append, map_cons, map_nil, sum_cons, sum_nil]
        omega
      · rw [hdone.fees]
        simp only [map_append, sum_append, map_cons, map_nil, sum_cons, sum_nil]
        ring
      · exact forall_mem_append.2 ⟨hnonneg, forall_mem_singleton.2 hrange.1⟩

/-! ## What a batch keeps -/

/-- the reservations are the inputs until they are given back, and the alternatives have the same inputs -/
structure Sound (batch : P2CTransactionBatch) : Prop where
  inputs : batch.commitAttempted = false → inputsOf batch.transactions = batch.locked
  alternatives : batch.alternativeTransactions ≠ [] →
    inputsOf batch.alternativeTransactions = inputsOf batch.transactions

variable {oldMask mask : UInt8}

theorem alternativeOf_inputs {t t' : CreatedTransaction × ℕ} (h : alternativeOf E rest oldMask mask t = .ok t') :
    t'.1.tx.prevouts = t.1.tx.prevouts := by
  rw [alternativeOf, bind_ok] at h
  obtain ⟨⟨vout, changed⟩, -, h⟩ := h
  simp only at h
  split_ifs at h
  cases hsigned : (withOutputs t.1.tx vout).bind (E.signTransaction rest) with
  | none => simp [hsigned] at h
  | some tx =>
    obtain ⟨unsigned, houtputs, hsign⟩ := Option.bind_eq_some_iff.1 hsigned
    simp only [hsigned] at h
    split_ifs at h
    cases h
    unfold withOutputs at houtputs
    split_ifs at houtputs
    cases houtputs
    rw [E.sign_prevouts _ _ _ hsign, CTransaction.prevouts, map_map]
    rfl

theorem alternatives_inputs {txs txs' : List (CreatedTransaction × ℕ)}
    (h : txs.mapM (alternativeOf E rest oldMask mask) = .ok txs') : inputsOf txs' = inputsOf txs := by
  induction txs generalizing txs' with
  | nil =>
    cases h
    rfl
  | cons t txs ih =>
    rw [mapM_cons, bind_ok] at h
    obtain ⟨t', ht, h⟩ := h
    rw [bind_ok] at h
    obtain ⟨rest', hrest, hend⟩ := h
    cases hend
    simp only [inputsOf, flatMap_cons] at ih ⊢
    rw [alternativeOf_inputs ht, ih hrest]

/-- what the members that only look at masks keep -/
structure SameReservations (batch batch' : P2CTransactionBatch) : Prop where
  locked : batch'.locked = batch.locked
  commitAttempted : batch'.commitAttempted = batch.commitAttempted
  sound : Sound batch → Sound batch'

theorem SameReservations.refl (batch : P2CTransactionBatch) : SameReservations batch batch := ⟨rfl, rfl, id⟩

theorem alternative_same {batch batch' : P2CTransactionBatch}
    (h : prepareSignatureAlgorithmsAlternative E rest mask batch = .ok batch') : SameReservations batch batch' := by
  unfold prepareSignatureAlgorithmsAlternative at h
  split_ifs at h
  rw [bind_ok] at h
  obtain ⟨alternatives, halternatives, hend⟩ := h
  cases hend
  exact ⟨rfl, rfl, fun hsound => ⟨hsound.inputs, fun _ => alternatives_inputs halternatives⟩⟩

theorem select_same {batch batch' : P2CTransactionBatch} (h : selectSignatureAlgorithmsMask mask batch = .ok batch') :
    SameReservations batch batch' := by
  unfold selectSignatureAlgorithmsMask at h
  split_ifs at h with _ _ hnone
  · cases h
    refine ⟨rfl, rfl, fun hsound => ⟨fun hattempted => ?_, fun hne => absurd rfl hne⟩⟩
    have hsome : batch.alternativeTransactions ≠ [] := by
      simp only [Bool.or_eq_true, not_or, List.isEmpty_iff] at hnone
      exact hnone.2
    exact (hsound.alternatives hsome).trans (hsound.inputs hattempted)
  · cases h
    exact ⟨rfl, rfl, fun hsound => ⟨hsound.inputs, fun hne => absurd rfl hne⟩⟩

/-! ## What Prepare returns -/

/-- what a batch holds after `Prepare` -/
structure Prepared (p : π) (outputCount : ℤ) (w w' : CoinLocks π) (batch : P2CTransactionBatch) : Prop where
  counts : ((batch.transactions.map Prod.snd).sum : ℤ) = outputCount
  inputs : inputsOf batch.transactions = batch.locked
  reserved : Reserved p w w' batch.locked
  fee : 0 ≤ batch.fee ∧ batch.fee ≤ MAX_MONEY
  fees : batch.fee = (batch.transactions.map fun t => t.1.fee).sum
  nonneg : ∀ t ∈ batch.transactions, 0 ≤ t.1.fee
  commitAttempted : batch.commitAttempted = false
  alternatives : batch.alternativeTransactions = []

theorem checkRequest_ok {p2c : PayToDomainOutput} (h : checkRequest E rest recipient outputCount = .ok p2c) :
    1 ≤ outputCount := by
  unfold checkRequest at h
  cases hp2c : recipient.p2c with
  | none => simp [hp2c] at h
  | some p =>
    simp only [hp2c] at h
    split_ifs at h with _ hamount
    simp only [Bool.or_eq_true, decide_eq_true_eq, not_or, not_lt] at hamount
    exact hamount.1.1.2

/-- The sum of the first fees stays in the money range all along. -/
theorem Prepared.partial_fee {batch : P2CTransactionBatch} (h : Prepared p outputCount w w' batch) (n : ℕ) :
    0 ≤ ((batch.transactions.take n).map fun t => t.1.fee).sum ∧
    ((batch.transactions.take n).map fun t => t.1.fee).sum ≤ MAX_MONEY := by
  have hpart : ∀ txs : List (CreatedTransaction × ℕ), txs.Sublist batch.transactions →
      0 ≤ (txs.map fun t => t.1.fee).sum := by
    intro txs hsub
    exact sum_nonneg (forall_mem_map.2 fun t ht => h.nonneg t (hsub.subset ht))
  have hrest := hpart _ (drop_sublist n _)
  have hsum : batch.fee = ((batch.transactions.take n).map fun t => t.1.fee).sum +
      ((batch.transactions.drop n).map fun t => t.1.fee).sum := by
    rw [h.fees, ← sum_append, ← map_append, take_append_drop]
  exact ⟨hpart _ (take_sublist n _), by linarith [h.fee.2]⟩

variable [DecidableEq π]

theorem prepareWith_cases {most : PayToDomainOutput → ℕ} {minDepth : ℤ} {rest rest' : ω}
    {result : Except String P2CTransactionBatch}
    (h : prepareWith E p recipient outputCount most minDepth w rest = (result, w', rest')) :
    (∃ batch, result = .ok batch ∧ Prepared p outputCount w w' batch) ∨ (∃ e, result = .error e ∧ w' = w) := by
  unfold prepareWith at h
  cases hcheck : checkRequest E rest recipient outputCount with
  | error e =>
    simp only [hcheck] at h
    cases h
    exact Or.inr ⟨e, rfl, rfl⟩
  | ok p2c =>
    have hcount := checkRequest_ok hcheck
    simp only [hcheck] at h
    by_cases hmost : 1 ≤ most p2c
    · rw [dif_pos hmost] at h
      by_cases hfunds : recipient.nAmount * outputCount >
        E.availableAmount rest w (if outputCount > most p2c then 1 else minDepth)
      · rw [if_pos hfunds] at h
        cases h
        exact Or.inr ⟨_, rfl, rfl⟩
      · rw [if_neg hfunds] at h
        generalize hloop : prepareLoop E p recipient (most p2c) hmost (recipient.nAmount * outputCount)
          outputCount.toNat
          (if outputCount > most p2c then 1 else minDepth) ⟨{ signatureAlgorithmsMask := p2c.signatureAlgorithmsMask },
            w, rest⟩ = r at h
        obtain ⟨e, s⟩ := r
        have hmoney : (0 : CAmount) ≤ MAX_MONEY := by decide
        obtain ⟨new, hextended, hcompleted⟩ := prepareLoop_extended ⟨le_refl 0, hmoney⟩ hloop
        have hlocked : s.batch.locked = new := hextended.locked
        cases e with
        | none =>
          cases h
          have hdone := hcompleted rfl
          refine Or.inl ⟨s.batch, rfl, ⟨?_, ?_, ?_, hdone.fee, ?_, hdone.nonneg (by simp), hextended.commitAttempted,
            hextended.alternatives⟩⟩
          · rw [hdone.counts]
            simp only [map_nil, sum_nil, zero_add]
            omega
          · rw [hdone.inputs, hlocked]
            rfl
          · rw [hlocked]
            exact hextended.reserved
          · have hfees := hdone.fees
            simp only [map_nil, sum_nil, sub_zero] at hfees
            exact sub_eq_zero.1 hfees
        | some e =>
          cases h
          refine Or.inr ⟨e, rfl, ?_⟩
          rw [destroy, hlocked]
          exact hextended.reserved.release
    · rw [dif_neg hmost] at h
      cases h
      exact Or.inr ⟨_, rfl, rfl⟩

/-! ## Several batches -/

/-- the wallet with its living batches, by their addresses -/
structure WalletState (π ω : Type) where
  locks : CoinLocks π
  rest : ω
  batches : π → Option P2CTransactionBatch

/-- what can happen; `other` is anything that locks and unlocks nothing -/
inductive Event (π ω : Type) where
  | lockCoin (output : COutPoint) (persist written : Bool)
  | unlockCoin (output : COutPoint) (erased : Bool)
  | unlockAllCoins
  | other (rest : ω)
  | prepare (p : π) (recipient : CRecipient) (outputCount : ℤ) (most : PayToDomainOutput → ℕ) (minDepth : ℤ)
  | alternative (p : π) (mask : UInt8)
  | select (p : π) (mask : UInt8)
  | commit (p : π)
  | destroy (p : π)

/-- the batch whose member is called -/
def Event.batch : Event π ω → Option π
  | .prepare p _ _ _ _ | .alternative p _ | .select p _ | .commit p | .destroy p => some p
  | _ => none

variable (s : WalletState π ω)

/-- the batch at an address, with what a call makes of it; an error leaves it -/
def WalletState.update (p : π) (f : P2CTransactionBatch → Except String P2CTransactionBatch) :
    Option (WalletState π ω) :=
  (s.batches p).map fun batch =>
    { s with batches := Function.update s.batches p (some (match f batch with
      | .ok batch => batch
      | .error _ => batch)) }

/-- one event; none where there is no batch at the address, or already one -/
def step (E : WalletEnv π ω) (s : WalletState π ω) : Event π ω → Option (WalletState π ω)
  | .lockCoin output persist written => some { s with locks := (s.locks.lockCoin output persist none written).2 }
  | .unlockCoin output erased => some { s with locks := (s.locks.unlockCoin output none erased).2 }
  | .unlockAllCoins => some { s with locks := CoinLocks.unlockAllCoins }
  | .other rest => some { s with rest }
  | .prepare p recipient outputCount most minDepth =>
    if (s.batches p).isSome then none
    else match prepareWith E p recipient outputCount most minDepth s.locks s.rest with
      | (.ok batch, locks, rest) => some ⟨locks, rest, Function.update s.batches p (some batch)⟩
      | (.error _, locks, rest) => some { s with locks, rest }
  | .alternative p mask => s.update p (prepareSignatureAlgorithmsAlternative E s.rest mask)
  | .select p mask => s.update p (selectSignatureAlgorithmsMask mask)
  | .commit p => (s.batches p).map fun batch =>
    let (_, batch, locks, rest) := commit E p batch s.locks s.rest
    ⟨locks, rest, Function.update s.batches p (some batch)⟩
  | .destroy p => (s.batches p).map fun batch => ⟨destroy p batch s.locks, s.rest, Function.update s.batches p none⟩

/-- a wallet that was loaded: locks of the user, and no batch -/
structure Loaded : Prop where
  user : ∀ o lock, s.locks.lockOf o = some lock → lock.owner = none
  batches : ∀ p, s.batches p = none

/-! ## Commit -/

theorem checkReservations_none {locked : List COutPoint} (h : checkReservations E p w rest locked = none) :
    ∀ o ∈ locked, w.ownsCoinLock o (some p) = true ∧ E.isSpent rest o = false := by
  induction locked with
  | nil => simp
  | cons c locked ih =>
    rw [checkReservations] at h
    split_ifs at h with hspent howns
    refine forall_mem_cons.2 ⟨⟨?_, Bool.eq_false_iff.2 hspent⟩, ih h⟩
    simpa using howns

/-- Spending coins that are not locked unlocks nothing. -/
theorem addToSpends_eq {tx : CTransaction} (h : ∀ o ∈ tx.prevouts, w.lockOf o = none) : addToSpends tx w = w := by
  have hone : ∀ o, w.lockOf o = none → (w.unlockCoin o none true).2 = w := by
    intro o ho
    refine ext_lockOf fun o' => ?_
    change (w.unlocked o).lockOf o' = _
    rw [lockOf_unlocked]
    split_ifs with heq
    · rw [heq, ho]
    · rfl
  have hloop : ∀ vin : List CTxIn, (∀ o ∈ vin.map CTxIn.prevout, w.lockOf o = none) →
      vin.foldl (fun w txin => (w.unlockCoin txin.prevout none true).2) w = w := by
    intro vin hvin
    induction vin with
    | nil => rfl
    | cons txin vin ih =>
      obtain ⟨hfirst, hvin⟩ := forall_mem_cons.1 hvin
      rw [foldl_cons, hone _ hfirst, ih hvin]
  unfold addToSpends
  split_ifs
  · rfl
  · exact hloop tx.vin h

theorem commitLoop_locks {txs : List (CreatedTransaction × ℕ)} {committed : ℕ}
    (h : ∀ o ∈ inputsOf txs, w.lockOf o = none) : (commitLoop E txs w rest committed).2.1 = w := by
  induction txs generalizing rest committed with
  | nil => rfl
  | cons t txs ih =>
    have hsame : (if E.isNew rest t.1.tx then addToSpends t.1.tx w else w) = w := by
      split_ifs
      · exact addToSpends_eq fun o ho => h o (mem_append_left _ ho)
      · rfl
    have hrest : ∀ o ∈ inputsOf txs, w.lockOf o = none := fun o ho => h o (mem_append_right _ ho)
    rw [commitLoop]
    simp only [hsame]
    cases hcommit : E.commitTransaction rest t.1.tx with
    | mk e rest' =>
      cases e with
      | some e => rfl
      | none => exact ih hrest

/-- `Commit` stops with everything as it was, or it goes on: every input is the batch's own and unspent, and all
reservations are given back. -/
theorem commit_cases {batch batch' : P2CTransactionBatch} {rest rest' : ω} {e : Option String}
    (hsound : Sound batch) (h : commit E p batch w rest = (e, batch', w', rest')) :
    (batch' = batch ∧ w' = w ∧ rest' = rest) ∨
    ((∀ o ∈ inputsOf batch.transactions, w.ownsCoinLock o (some p) = true ∧ E.isSpent rest o = false) ∧
      w' = unlockAll p batch.locked w ∧ Sound batch') := by
  unfold commit at h
  by_cases hattempted : batch.commitAttempted = true
  · rw [if_pos hattempted] at h
    cases h
    exact Or.inl ⟨rfl, rfl, rfl⟩
  · rw [if_neg hattempted] at h
    have hinputs := hsound.inputs (Bool.eq_false_iff.2 hattempted)
    cases hcheck : checkReservations E p w rest batch.locked with
    | some e =>
      simp only [hcheck] at h
      cases h
      exact Or.inl ⟨rfl, rfl, rfl⟩
    | none =>
      have howned := checkReservations_none hcheck
      have hfree : ∀ o ∈ inputsOf batch.transactions, (unlockAll p batch.locked w).lockOf o = none := by
        intro o ho
        rw [hinputs] at ho
        rw [lockOf_unlockAll, if_pos ⟨ho, (howned o ho).1⟩]
      have hlocks : (commitLoop E batch.transactions (unlockAll p batch.locked w) rest batch.committedCount).2.1 =
          unlockAll p batch.locked w := commitLoop_locks hfree
      simp only [hcheck] at h
      cases h
      refine Or.inr ⟨by rw [hinputs]; exact howned, hlocks, ⟨fun hfalse => ?_, hsound.alternatives⟩⟩
      cases hfalse

/-! ## Every run -/

/-- every owner is a living batch that has the coin among its reservations -/
structure Inv : Prop where
  owners : ∀ o lock p, s.locks.lockOf o = some lock → lock.owner = some p →
    ∃ batch, s.batches p = some batch ∧ o ∈ batch.locked
  sound : ∀ p batch, s.batches p = some batch → Sound batch

omit [DecidableEq π] in
theorem Loaded.inv {s : WalletState π ω} (h : Loaded s) : Inv s where
  owners o lock p hlock howner := by
    rw [h.user o lock hlock] at howner
    cases howner
  sound p batch hbatch := by
    rw [h.batches p] at hbatch
    cases hbatch

/-- what a call of the batch at p does to the locks and the batches -/
structure Call (p : π) (s s' : WalletState π ω) : Prop where
  others : ∀ q, q ≠ p → s'.batches q = s.batches q
  sound : ∀ batch', s'.batches p = some batch' → Sound batch'
  kept : ∀ o lock, s.locks.lockOf o = some lock → lock.owner ≠ some p → s'.locks.lockOf o = some lock
  taken : ∀ o lock, s'.locks.lockOf o = some lock → s.locks.lockOf o = some lock ∨ lock.owner = some p
  own : ∀ o lock, s'.locks.lockOf o = some lock → lock.owner = some p →
    ∃ batch', s'.batches p = some batch' ∧ o ∈ batch'.locked

variable {s s' : WalletState π ω}

theorem Call.inv (h : Call p s s') (hinv : Inv s) : Inv s' where
  owners o lock q hlock howner := by
    by_cases hq : q = p
    · subst hq
      exact h.own o lock hlock howner
    · rcases h.taken o lock hlock with hold | hown
      · obtain ⟨batch, hbatch, ho⟩ := hinv.owners o lock q hold howner
        exact ⟨batch, (h.others q hq).trans hbatch, ho⟩
      · rw [howner] at hown
        exact absurd (Option.some_inj.1 hown) hq
  sound q batch hbatch := by
    by_cases hq : q = p
    · subst hq
      exact h.sound batch hbatch
    · rw [h.others q hq] at hbatch
      exact hinv.sound q batch hbatch

/-- A call that gives reservations of the batch back: all of them, where the batch has none left. -/
theorem Call.of_unlockAll {batch : P2CTransactionBatch} (hinv : Inv s)
    (hbatch : s.batches p = some batch) (hlocks : s'.locks = unlockAll p batch.locked s.locks)
    (hothers : ∀ q, q ≠ p → s'.batches q = s.batches q) (hsound : ∀ batch', s'.batches p = some batch' → Sound batch') :
    Call p s s' := by
  have hnotowned : ∀ o lock, s.locks.lockOf o = some lock → lock.owner ≠ some p →
      ¬ (s.locks.ownsCoinLock o (some p) = true) := by
    intro o lock hlock hother howns
    obtain ⟨lock', hlock', howner⟩ := ownsCoinLock_iff.1 howns
    rw [hlock] at hlock'
    exact hother (Option.some_inj.1 hlock' ▸ howner)
  have hback : ∀ o lock, s'.locks.lockOf o = some lock → s.locks.lockOf o = some lock ∧
      ¬ (o ∈ batch.locked ∧ s.locks.ownsCoinLock o (some p) = true) := by
    intro o lock hlock
    rw [hlocks, lockOf_unlockAll] at hlock
    split_ifs at hlock with hgone
    exact ⟨hlock, hgone⟩
  refine ⟨hothers, hsound, fun o lock hlock hother => ?_, fun o lock hlock => Or.inl (hback o lock hlock).1,
    fun o lock hlock howner => ?_⟩
  · rw [hlocks, lockOf_unlockAll, if_neg fun hboth => hnotowned o lock hlock hother hboth.2]
    exact hlock
  · -- what the batch owned it had among its reservations, and those are gone
    obtain ⟨hold, hstays⟩ := hback o lock hlock
    obtain ⟨batch₀, hbatch₀, ho⟩ := hinv.owners o lock p hold howner
    rw [hbatch] at hbatch₀
    exact absurd ⟨Option.some_inj.1 hbatch₀ ▸ ho, ownsCoinLock_iff.2 ⟨lock, hold, howner⟩⟩ hstays

/-- A call that leaves the locks and the reservations alone. -/
theorem Call.of_same {batch batch' : P2CTransactionBatch} (hinv : Inv s) (hbatch : s.batches p = some batch)
    (hsame : SameReservations batch batch') : Call p s ⟨s.locks, rest, Function.update s.batches p (some batch')⟩ := by
  have hhere : Function.update s.batches p (some batch') p = some batch' := Function.update_self _ _ _
  refine ⟨fun q hq => Function.update_of_ne hq _ _, fun batch₁ hbatch₁ => ?_, fun o lock hlock _ => hlock,
    fun o lock hlock => Or.inl hlock, fun o lock hlock howner => ?_⟩
  · simp only [hhere, Option.some_inj] at hbatch₁
    rw [← hbatch₁]
    exact hsame.sound (hinv.sound p batch hbatch)
  · obtain ⟨batch₀, hbatch₀, ho⟩ := hinv.owners o lock p hlock howner
    rw [hbatch] at hbatch₀
    exact ⟨batch', hhere, by rw [hsame.locked, Option.some_inj.1 hbatch₀]; exact ho⟩

theorem Call.of_update (hinv : Inv s) {f : P2CTransactionBatch → Except String P2CTransactionBatch}
    (hf : ∀ batch batch', f batch = .ok batch' → SameReservations batch batch') (h : s.update p f = some s') :
    Call p s s' := by
  obtain ⟨batch, hbatch, rfl⟩ := Option.map_eq_some_iff.1 h
  apply Call.of_same hinv hbatch
  cases hcall : f batch with
  | error e => exact SameReservations.refl batch
  | ok batch' => exact hf batch batch' hcall

/-- A `Prepare` that succeeds locks free coins, and one that fails nothing. -/
theorem Call.of_prepare {most : PayToDomainOutput → ℕ} {minDepth : ℤ} (hinv : Inv s)
    (h : step E s (.prepare p recipient outputCount most minDepth) = some s') : Call p s s' := by
  simp only [step] at h
  by_cases hthere : (s.batches p).isSome = true
  · rw [if_pos hthere] at h
    cases h
  · rw [if_neg hthere] at h
    have hnone : s.batches p = none := Option.not_isSome_iff_eq_none.1 hthere
    have hbefore : ∀ batch, s.batches p ≠ some batch := by
      intro batch hbatch
      rw [hnone] at hbatch
      cases hbatch
    have hfree : ∀ o lock, s.locks.lockOf o = some lock → lock.owner ≠ some p := by
      intro o lock hlock howner
      obtain ⟨batch, hbatch, -⟩ := hinv.owners o lock p hlock howner
      exact hbefore batch hbatch
    cases hcall : prepareWith E p recipient outputCount most minDepth s.locks s.rest with
    | mk result after =>
      obtain ⟨locks, rest⟩ := after
      rcases prepareWith_cases hcall with ⟨batch, rfl, hprepared⟩ | ⟨e, rfl, rfl⟩
      · simp only [hcall] at h
        cases h
        have hhere : Function.update s.batches p (some batch) p = some batch := Function.update_self _ _ _
        have hlocks := hprepared.reserved.locks
        refine ⟨fun q hq => Function.update_of_ne hq _ _, fun batch' hbatch' => ?_, fun o lock hlock _ => ?_,
          fun o lock hlock => ?_, fun o lock hlock howner => ?_⟩
        · simp only [hhere, Option.some_inj] at hbatch'
          rw [← hbatch']
          exact ⟨fun _ => hprepared.inputs, fun hne => absurd hprepared.alternatives hne⟩
        · have hother : o ∉ batch.locked := by
            intro ho
            rw [hprepared.reserved.free o ho] at hlock
            cases hlock
          rw [hlocks, if_neg hother]
          exact hlock
        · rw [hlocks] at hlock
          split_ifs at hlock with ho
          · cases hlock
            exact Or.inr rfl
          · exact Or.inl hlock
        · refine ⟨batch, hhere, ?_⟩
          by_contra ho
          rw [hlocks, if_neg ho] at hlock
          exact hfree o lock hlock howner
      · simp only [hcall] at h
        cases h
        exact ⟨fun q _ => rfl, fun batch hbatch => absurd hbatch (hbefore batch), fun o lock hlock _ => hlock,
          fun o lock hlock => Or.inl hlock, fun o lock hlock howner => absurd howner (hfree o lock hlock)⟩

/-- A `Commit` that changes anything has every input of the batch locked for it and unspent. -/
theorem commit_owned {batch : P2CTransactionBatch} (hsound : Sound batch)
    (hbatch : s.batches p = some batch) (h : step E s (.commit p) = some s') (hne : s' ≠ s) :
    ∀ o ∈ inputsOf batch.transactions, s.locks.ownsCoinLock o (some p) = true ∧ E.isSpent s.rest o = false := by
  simp only [step, hbatch, Option.map_some, Option.some_inj] at h
  cases hcall : commit E p batch s.locks s.rest with
  | mk e after =>
    obtain ⟨batch', locks, rest⟩ := after
    simp only [hcall] at h
    rcases commit_cases hsound hcall with ⟨rfl, rfl, rfl⟩ | ⟨howned, -⟩
    · rw [← hbatch, Function.update_eq_self] at h
      exact absurd h.symm hne
    · exact howned

theorem Call.of_commit (hinv : Inv s) (h : step E s (.commit p) = some s') : Call p s s' := by
  obtain ⟨batch, hbatch, rfl⟩ := Option.map_eq_some_iff.1 h
  cases hcall : commit E p batch s.locks s.rest with
  | mk e after =>
    obtain ⟨batch', locks, rest⟩ := after
    rcases commit_cases (hinv.sound p batch hbatch) hcall with ⟨rfl, rfl, rfl⟩ | ⟨-, rfl, hsound⟩
    · exact Call.of_same hinv hbatch (SameReservations.refl _)
    · refine Call.of_unlockAll hinv hbatch rfl (fun q hq => Function.update_of_ne hq _ _) fun batch₁ hbatch₁ => ?_
      simp only [Function.update_self, Option.some_inj] at hbatch₁
      rw [← hbatch₁]
      exact hsound

theorem Call.of_destroy (hinv : Inv s) (h : step E s (.destroy p) = some s') : Call p s s' := by
  obtain ⟨batch, hbatch, rfl⟩ := Option.map_eq_some_iff.1 h
  have hgone : ∀ batch', Function.update s.batches p none p ≠ some batch' := by
    intro batch' hbatch'
    rw [Function.update_self] at hbatch'
    cases hbatch'
  exact Call.of_unlockAll hinv hbatch rfl (fun q hq => Function.update_of_ne hq _ _) fun batch' hbatch' =>
    absurd hbatch' (hgone batch')

/-- Every member of a batch is a call of it. -/
theorem step_call {e : Event π ω} (hinv : Inv s) (he : e.batch = some p) (h : step E s e = some s') : Call p s s' := by
  cases e with
  | lockCoin | unlockCoin | unlockAllCoins | other => cases he
  | prepare q =>
    cases he
    exact Call.of_prepare hinv h
  | alternative q mask =>
    cases he
    exact Call.of_update hinv (fun _ _ => alternative_same) h
  | select q mask =>
    cases he
    exact Call.of_update hinv (fun _ _ => select_same) h
  | commit q =>
    cases he
    exact Call.of_commit hinv h
  | destroy q =>
    cases he
    exact Call.of_destroy hinv h

omit [DecidableEq π] in
/-- What the user does takes owners away and gives none. -/
theorem Inv.of_user {locks : CoinLocks π} (hinv : Inv s)
    (hlocks : ∀ o lock, locks.lockOf o = some lock → s.locks.lockOf o = some lock ∨ lock.owner = none) :
    Inv ⟨locks, rest, s.batches⟩ where
  owners o lock p hlock howner := by
    rcases hlocks o lock hlock with hold | hnone
    · exact hinv.owners o lock p hold howner
    · rw [hnone] at howner
      cases howner
  sound := hinv.sound

theorem step_inv (s : WalletState π ω) (e : Event π ω) (s' : WalletState π ω) (hinv : Inv s)
    (h : step E s e = some s') : Inv s' := by
  cases e with
  | lockCoin output persist written =>
    cases h
    refine Inv.of_user hinv fun o lock hlock => ?_
    rw [lockCoin, lockOf_locked] at hlock
    split_ifs at hlock
    · cases hlock
      exact Or.inr rfl
    · exact Or.inl hlock
  | unlockCoin output erased =>
    cases h
    refine Inv.of_user hinv fun o lock hlock => Or.inl ?_
    change (s.locks.unlocked output).lockOf o = some lock at hlock
    rw [lockOf_unlocked] at hlock
    split_ifs at hlock
    exact hlock
  | unlockAllCoins =>
    cases h
    refine Inv.of_user hinv fun o lock hlock => ?_
    rw [lockOf_unlockAllCoins] at hlock
    cases hlock
  | other rest =>
    cases h
    exact Inv.of_user hinv fun o lock hlock => Or.inl hlock
  | prepare p | alternative p | select p | commit p | destroy p => exact (step_call hinv rfl h).inv hinv

/-- A batch that `Prepare` returns has the outputs asked for, distinct inputs locked for it, and fees whose sums stay in
the money range; one that fails leaves the locks as they were. Over every run of the wallet a call of a batch releases
only what the batch owns then, leaves every lock of the user or of another batch as it is, and a `Commit` that does
anything finds every input still its own and unspent. -/
theorem batch_locks_safe (E : WalletEnv π ω) : (∀ p recipient outputCount most minDepth w rest,
      match prepareWith E p recipient outputCount most minDepth w rest with
      | (.ok batch, w', _) =>
        ((batch.transactions.map Prod.snd).sum : ℤ) = outputCount ∧ (inputsOf batch.transactions).Nodup ∧
        (∀ o ∈ inputsOf batch.transactions, w'.isLockedCoin o = true ∧ w'.ownsCoinLock o (some p) = true) ∧
        batch.fee = (batch.transactions.map fun t => t.1.fee).sum ∧
        ∀ n, 0 ≤ ((batch.transactions.take n).map fun t => t.1.fee).sum ∧
          ((batch.transactions.take n).map fun t => t.1.fee).sum ≤ MAX_MONEY
      | (.error _, w', _) => w' = w) ∧
    ∀ s₀ events s, Loaded s₀ → runs (step E) s₀ events = some s → ∀ e p s', e.batch = some p → step E s e = some s' →
      (∀ o, s.locks.isLockedCoin o = true → s'.locks.isLockedCoin o = false → s.locks.ownsCoinLock o (some p) = true) ∧
      (∀ o lock, s.locks.lockOf o = some lock → lock.owner ≠ some p → s'.locks.lockOf o = some lock) ∧
      (e = .commit p → s' ≠ s → ∃ batch, s.batches p = some batch ∧
        ∀ o ∈ inputsOf batch.transactions, s.locks.ownsCoinLock o (some p) = true ∧ E.isSpent s.rest o = false) := by
  refine ⟨fun p recipient outputCount most minDepth w rest => ?_, fun s₀ events s hloaded hrun e p s' he hstep => ?_⟩
  · cases hcall : prepareWith E p recipient outputCount most minDepth w rest with
    | mk result after =>
      obtain ⟨w', rest'⟩ := after
      rcases prepareWith_cases hcall with ⟨batch, rfl, hprepared⟩ | ⟨e, rfl, rfl⟩
      · have howned : ∀ o ∈ inputsOf batch.transactions, w'.lockOf o = some ⟨false, some p⟩ := by
          intro o ho
          rw [hprepared.inputs] at ho
          rw [hprepared.reserved.locks, if_pos ho]
        refine ⟨hprepared.counts, ?_, fun o ho => ⟨?_, ownsCoinLock_iff.2 ⟨_, howned o ho, rfl⟩⟩, hprepared.fees,
          hprepared.partial_fee⟩
        · rw [hprepared.inputs]
          exact hprepared.reserved.nodup
        · rw [isLockedCoin_eq, howned o ho]
          rfl
      · rfl
  · have hinv : Inv s := runs_inv step_inv hloaded.inv hrun
    have hcall := step_call hinv he hstep
    refine ⟨fun o hlocked hreleased => ?_, hcall.kept, fun hcommit hne => ?_⟩
    · rw [isLockedCoin_eq] at hlocked hreleased
      obtain ⟨lock, hlock⟩ := Option.isSome_iff_exists.1 hlocked
      by_contra howns
      have hother : lock.owner ≠ some p := fun howner => howns (ownsCoinLock_iff.2 ⟨lock, hlock, howner⟩)
      rw [hcall.kept o lock hlock hother] at hreleased
      cases hreleased
    · subst hcommit
      obtain ⟨batch, hbatch, -⟩ := Option.map_eq_some_iff.1 hstep
      exact ⟨batch, hbatch, commit_owned (hinv.sound p batch hbatch) hbatch hstep hne⟩

end

section
attribute [local instance] toyCrypto

/-- a coin of a small wallet -/
def coinOf (n : ℕ) : COutPoint := ⟨Uint256.ofNat n, 0⟩

/-- its spend -/
def spendOf (n : ℕ) : CTransaction :=
  { bareSpend with
    vin := [⟨coinOf n, [], 0, []⟩]
    vin_size := by rw [length_singleton]; decide
    scriptSig_size := forall_mem_singleton.2 nil_fits
    stack_size := forall_mem_singleton.2 ⟨nil_fits, forall_mem_nil _⟩ }

/-- a wallet with four coins, which spends the first that is not locked -/
def fourCoins : WalletEnv ℕ Unit where
  disablePrivateKeys _ := false
  externalSigner _ := false
  isLocked _ := false
  getMinimumFeeRate _ := ⟨0, 1000⟩
  getDiscardRate _ := ⟨0, 1000⟩
  consolidateFeerate _ := ⟨0, 1000⟩
  availableAmount _ _ _ := COIN
  createTransaction _ w _ _ :=
    (match [7, 8, 9, 10].find? fun n => !w.isLockedCoin (coinOf n) with
      | none => .error "Insufficient funds"
      | some n => .ok ⟨spendOf n, 5⟩, ())
  isSpent _ _ := false
  signTransaction _ tx := some tx
  sign_prevouts _ _ _ h := by rw [Option.some_inj.1 h]
  commitTransaction _ _ := (none, ())
  isNew _ _ := true

def emptyWallet : WalletState ℕ Unit := ⟨CoinLocks.unlockAllCoins, (), fun _ => none⟩

/-- a batch split over two transactions, a coin that the user locks, and another batch -/
def twoBatches : List (Event ℕ Unit) :=
  [.prepare 1 ⟨1, some P2C.sampleTerms⟩ 2 (fun _ => 1) 0, .lockCoin (coinOf 9) false true,
    .prepare 2 ⟨1, some P2C.sampleTerms⟩ 1 (fun _ => 1) 0]

/-- The first batch commits: it gives back its two coins, and not the user's or the other batch's. -/
theorem twoBatches_committed : ∃ s s', runs (step fourCoins) emptyWallet twoBatches = some s ∧
    step fourCoins s (.commit 1) = some s' ∧ s' ≠ s ∧
    (∀ n ∈ [7, 8], s.locks.ownsCoinLock (coinOf n) (some 1) = true ∧ s'.locks.isLockedCoin (coinOf n) = false) ∧
    s'.locks.lockOf (coinOf 9) = some ⟨false, none⟩ ∧ s'.locks.lockOf (coinOf 10) = some ⟨false, some 2⟩ := by
  have hrun : ((runs (step fourCoins) emptyWallet twoBatches).bind
    fun s => (step fourCoins s (.commit 1)).bind fun s' =>
      (s.batches 1).bind fun batch => (s'.batches 1).map fun batch' => ([batch.commitAttempted, batch'.commitAttempted,
        s'.locks.isLockedCoin (coinOf 7), s'.locks.isLockedCoin (coinOf 8)], inputsOf batch.transactions,
        [s.locks.lockOf (coinOf 9), s.locks.lockOf (coinOf 10)])) =
      some ([false, true, false, false], [coinOf 7, coinOf 8], [some ⟨false, none⟩, some ⟨false, some 2⟩]) := by
    decide +kernel
  obtain ⟨s, hs, hrun⟩ := Option.bind_eq_some_iff.1 hrun
  obtain ⟨s', hs', hrun⟩ := Option.bind_eq_some_iff.1 hrun
  obtain ⟨batch, hbatch, hrun⟩ := Option.bind_eq_some_iff.1 hrun
  obtain ⟨batch', hbatch', hrun⟩ := Option.map_eq_some_iff.1 hrun
  simp only [Prod.mk.injEq, cons.injEq, and_true] at hrun
  obtain ⟨⟨hbefore, hafter, hfree⟩, hinputs, huser, hother⟩ := hrun
  have hne : s' ≠ s := by
    intro heq
    rw [heq, hbatch] at hbatch'
    rw [← Option.some_inj.1 hbatch', hbefore] at hafter
    cases hafter
  have hloaded : Loaded emptyWallet := by
    refine ⟨fun o lock hlock => ?_, fun _ => rfl⟩
    rw [emptyWallet, lockOf_unlockAllCoins] at hlock
    cases hlock
  obtain ⟨-, hkept, hcommit⟩ :=
    (batch_locks_safe fourCoins).2 emptyWallet twoBatches s hloaded hs (.commit 1) 1 s' rfl hs'
  obtain ⟨batch₀, hbatch₀, howned⟩ := hcommit rfl hne
  rw [hbatch, Option.some_inj] at hbatch₀
  rw [← hbatch₀, hinputs] at howned
  refine ⟨s, s', hs, hs', hne, ?_, hkept _ _ huser (by decide), hkept _ _ hother (by decide)⟩
  exact forall_mem_cons.2 ⟨⟨(howned _ (by simp)).1, hfree.1⟩, forall_mem_singleton.2 ⟨(howned _ (by simp)).1, hfree.2⟩⟩

end

end ConnectCoin.Wallet
