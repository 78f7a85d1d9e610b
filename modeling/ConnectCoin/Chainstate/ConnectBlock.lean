/-
Connecting a block (`ConnectBlock`, `CheckInputScripts`, `GetBlockSubsidy` and its penalty in `validation.cpp`,
`WriteBlockUndo` in `node/blockstorage.cpp`).

- `ConnectEnv`: what comes from outside: the verifiers of `ScriptEnv`, the signet solution, whether a block is assumed
  valid, the script execution cache, and whether the script checks run in a queue, which then reports one of the failed
  ones.
- `connectTx`: one turn of the loop over the transactions; `connectBlock`: the view after the block and the block's
  stored undo record.
- `ConnectFailure`: a rejection, an error of the node, or an exception (a throw or a failed assertion).
Left out: logging, timing, the index entry's validity mark and failures of the disk.
Results: `connectTx_ok` says what one turn did to the view, the fees and the undo record; `connectLoop_run` makes a run
of the turns of a whole block, from which `LoopRun.vtxundo` and `LoopRun.record` read the undo record; `connectBlock_ok`
takes the function apart.
-/
import ConnectCoin.Consensus.TxVerify
import ConnectCoin.Consensus.BlockCheck

namespace ConnectCoin

open Lib List

/-! ## The subsidy -/

/-- `GetBlockSubsidy` -/
def getBlockSubsidy (nHeight : ℕ) (P : Params) : CAmount :=
  let halvings := nHeight / P.nSubsidyHalvingInterval
  if halvings ≥ 64 then 0 else 15 * COIN / 2 ^ halvings

def BLOCK_SUBSIDY_PENALTY_DIVISOR : ℕ := 10

/-- `GetBlockSubsidyPenalty`; `EvaluateFeeDown` computes it (`evaluateFeeDown_penalty`) -/
def getBlockSubsidyPenalty (baseSubsidy : CAmount) (nonCoinbaseWeight : UInt64) : CAmount :=
  baseSubsidy * (min nonCoinbaseWeight.toNat MAX_BLOCK_WEIGHT : ℕ) /
    (MAX_BLOCK_WEIGHT * BLOCK_SUBSIDY_PENALTY_DIVISOR : ℕ)

/-- `GetBlockSubsidyForWeight` -/
def getBlockSubsidyForWeight (nHeight : ℕ) (nonCoinbaseWeight : UInt64) (P : Params) : CAmount :=
  getBlockSubsidy nHeight P - getBlockSubsidyPenalty (getBlockSubsidy nHeight P) nonCoinbaseWeight

variable (nHeight : ℕ) (weight : UInt64) (P : Params)

theorem getBlockSubsidy_nonneg : 0 ≤ getBlockSubsidy nHeight P := by
  unfold getBlockSubsidy
  simp only
  split_ifs
  · exact le_refl _
  · exact Int.ediv_nonneg (by decide) (by positivity)

/-- The penalty takes at most what there is. -/
theorem getBlockSubsidyPenalty_range {baseSubsidy : CAmount} (hbase : 0 ≤ baseSubsidy) (weight : UInt64) :
    0 ≤ getBlockSubsidyPenalty baseSubsidy weight ∧ getBlockSubsidyPenalty baseSubsidy weight ≤ baseSubsidy := by
  refine ⟨Int.ediv_nonneg (mul_nonneg hbase (Int.natCast_nonneg _)) (Int.natCast_nonneg _), ?_⟩
  apply Int.ediv_le_of_le_mul (by decide)
  apply mul_le_mul_of_nonneg_left _ hbase
  have hmin : min weight.toNat MAX_BLOCK_WEIGHT ≤ MAX_BLOCK_WEIGHT * BLOCK_SUBSIDY_PENALTY_DIVISOR :=
    (min_le_right _ _).trans (Nat.le_mul_of_pos_right _ (by decide))
  exact_mod_cast hmin

theorem getBlockSubsidyForWeight_le : getBlockSubsidyForWeight nHeight weight P ≤ getBlockSubsidy nHeight P := by
  have hpenalty := (getBlockSubsidyPenalty_range (getBlockSubsidy_nonneg nHeight P) weight).1
  unfold getBlockSubsidyForWeight
  linarith

theorem getBlockSubsidy_le : getBlockSubsidy nHeight P ≤ 15 * COIN := by
  unfold getBlockSubsidy
  simp only
  split_ifs
  · decide
  · exact Int.ediv_le_self _ (by decide)

theorem getBlockSubsidyForWeight_range :
    0 ≤ getBlockSubsidyForWeight nHeight weight P ∧ getBlockSubsidyForWeight nHeight weight P ≤ 15 * COIN := by
  have hpenalty := (getBlockSubsidyPenalty_range (getBlockSubsidy_nonneg nHeight P) weight).2
  refine ⟨?_, (getBlockSubsidyForWeight_le nHeight weight P).trans (getBlockSubsidy_le nHeight P)⟩
  unfold getBlockSubsidyForWeight
  linarith

/-! ## Failures and the environment -/

inductive ConnectFailure where
  | invalid (state : BlockInvalid)
  | error (message : String)
  | exception (what : String)
  deriving DecidableEq

/-- a `BLOCK_CONSENSUS` rejection -/
def blockConsensus (rejectReason debugMessage : String) : ConnectFailure :=
  .invalid ⟨.BLOCK_CONSENSUS, rejectReason, debugMessage⟩

/-- `ScriptErrorString` -/
def ScriptError.toString : ScriptError → String
  | .UNKNOWN_ERROR => "unknown error"
  | .EVAL_FALSE => "Script evaluated without error but finished with a false/empty top stack element"

section
variable [Crypto]

/-- the sum over the transactions behind the coinbase -/
def nonCoinbaseWeight (txs : List CTransaction) (weight : UInt64) : UInt64 :=
  txs.foldl (fun weight tx => weight + (getTransactionWeight tx).toInt64.toUInt64) weight

/-- `GetBlockSubsidyForBlock` -/
def getBlockSubsidyForBlock (nHeight : ℕ) (block : CBlock) (P : Params) : CAmount :=
  getBlockSubsidyForWeight nHeight (nonCoinbaseWeight block.vtx.tail 0) P

structure ConnectEnv where
  script : ScriptEnv
  checkSignetBlockSolution : CBlock → Bool
  /-- the block is below an assumed valid block: its scripts are not checked -/
  assumedValid : CBlockIndex → Bool
  /-- the script execution cache has an entry for the transaction at the time -/
  scriptsCached : CTransaction → Int64 → Bool
  /-- the check queue has threads -/
  hasThreads : Bool
  /-- the failed check that the queue reports -/
  complete : List ScriptFailure → Option ScriptFailure
  complete_mem : ∀ fs f, complete fs = some f → f ∈ fs
  complete_none : ∀ fs, complete fs = none → fs = []

/-- a surrounding in which nothing is refused -/
def plainEnv : ConnectEnv where
  script := ⟨fun _ _ _ _ _ => true, fun _ _ _ => .ok ()⟩
  checkSignetBlockSolution _ := true
  assumedValid _ := true
  scriptsCached _ _ := false
  hasThreads := false
  complete fs := fs.head?
  complete_mem _ _ h := mem_of_mem_head? h
  complete_none _ h := head?_eq_none_iff.1 h

/-- a coinbase that pays one output -/
def coinbaseOf (o : CTxOut) (version : UInt32) (h : o.serializePayload.isOk = true) : CTransaction where
  vin := [⟨⟨Uint256.null, NULL_INDEX⟩, [0, 0], 0, []⟩]
  vout := [o]
  version := version
  nLockTime := 0
  payloads := forall_mem_singleton.2 h
  vin_size := by simp
  vout_size := by simp
  scriptSig_size := by simp
  stack_size := by simp

/-- the debug text of a failed check -/
def ScriptFailure.debug (f : ScriptFailure) : String :=
  "input " ++ toString f.nIn ++ " of " ++ f.txid.toString ++ " (wtxid " ++ f.wtxid.toString ++ "), spending " ++
    f.prevout.hash.toString ++ ":" ++ toString f.prevout.n ++ (if f.p2cError.isEmpty then "" else ": " ++ f.p2cError)

/-- the reason of a failed check -/
def ScriptFailure.reason (f : ScriptFailure) : String := "block-script-verify-flag-failed (" ++ f.error.toString ++ ")"

variable (P : Params) (env : ConnectEnv) (ctx : ConnectContext)

/-- the failures among the checks of a transaction's inputs -/
def scriptFailures (tx : CTransaction) (coins : List Coin) (time : Int64) : List ScriptFailure :=
  coins.zipIdx.filterMap fun c => scriptCheck env.script c.1.out (coins.map Coin.out) tx (UInt32.ofNat c.2) time

/-- `CheckInputScripts` behind the script execution cache -/
def runChecks (tx : CTransaction) (coins : List Coin) (time : Int64) : Except ConnectFailure (List ScriptFailure) :=
  if env.hasThreads then .ok (scriptFailures env tx coins time)
  else match scriptFailures env tx coins time with
    | [] => .ok []
    | f :: _ => .error (blockConsensus f.reason f.debug)

def p2cTimeUnavailable : ConnectFailure := blockConsensus "p2c-validation-time-unavailable" ""

/-- `CheckInputScripts` for a block: the failures that are left to the queue -/
def checkInputScripts (tx : CTransaction) (coins : List Coin) (time : Int64) :
    Except ConnectFailure (List ScriptFailure) :=
  if coins.any (fun c => c.out.type == .PAY_TO_CONNECT) && time ≤ 0 then .error p2cTimeUnavailable
  else if env.scriptsCached tx time then .ok []
  else runChecks env tx coins time

/-! ## The loop over the transactions -/

/-- what the loop sums up -/
structure ConnectSums where
  nFees : CAmount
  nonCoinbaseWeight : UInt64
  nSigOpsCost : ℕ
  vtxundo : CBlockUndo
  scriptFailures : List ScriptFailure

structure ConnectState extends ConnectSums where
  view : CoinsView

/-- the block and where it stands: what does not change in the loop -/
structure ConnectContext where
  P : Params
  env : ConnectEnv
  pindex : CBlockIndex
  pprev : CBlockIndex

/-- a transaction's failure is the block's -/
def inTransaction (tx : CTransaction) : TxFailure → ConnectFailure
  | .invalid state => blockConsensus state.rejectReason (state.debugMessage ++ " in transaction " ++
      tx.getHash.toString)
  | .exception what => .exception what

/-- the heights of the spent coins -/
def prevheights (view : CoinsView) (tx : CTransaction) : List ℕ :=
  tx.vin.map fun txin => ((view.coins.lookup txin.prevout).map Coin.nHeight).getD 0

/-- `SequenceLocks` -/
def checkFinal (tx : CTransaction) (prevheights : List ℕ) : Except ConnectFailure Unit :=
  match sequenceLocks tx (ctx.pindex.nHeight ≥ ctx.P.CSVHeight) prevheights ctx.pindex with
  | none => .error (.exception "assertion failed in SequenceLocks")
  | some true => .ok ()
  | some false =>
    .error (blockConsensus "bad-txns-nonfinal" ("contains a non-BIP68-final transaction " ++ tx.getHash.toString))

def feesOutOfRange : ConnectFailure :=
  blockConsensus "bad-txns-accumulated-fee-outofrange" "accumulated fee in the block out of range"

/-- the part for a transaction that is no coinbase: weight, inputs, fees, relative lock times -/
def checkSpend (st : ConnectState) (tx : CTransaction) : Except ConnectFailure ConnectState := do
  let txfee ← (checkTxInputs tx st.view ctx.pindex.nHeight).mapError (inTransaction tx)
  refuseIf (!moneyRange (st.nFees + txfee)) feesOutOfRange
  checkFinal ctx tx (prevheights st.view tx)
  return { st with
    nFees := st.nFees + txfee
    nonCoinbaseWeight := st.nonCoinbaseWeight + (getTransactionWeight tx).toInt64.toUInt64 }

/-- a coinbase has no inputs to check -/
def checkInputs (st : ConnectState) (tx : CTransaction) : Except ConnectFailure ConnectState :=
  if tx.isCoinBase then .ok st else checkSpend ctx st tx

/-- the script checks, if they are made -/
def checkScripts (st : ConnectState) (tx : CTransaction) : Except ConnectFailure (List ScriptFailure) :=
  if tx.isCoinBase || ctx.env.assumedValid ctx.pindex then .ok []
  else checkInputScripts ctx.env tx ((inputCoins st.view tx).getD []) (Int64.ofInt ctx.pprev.getMedianTimePast)

/-- one turn of the loop of `ConnectBlock` -/
def connectTx (st : ConnectState) (txi : CTransaction × ℕ) : Except ConnectFailure ConnectState := do
  let (tx, i) := txi
  let st ← checkInputs ctx st tx
  let nSigOpsCost := st.nSigOpsCost + getTransactionSigOpCost tx
  refuseIf (nSigOpsCost > MAX_BLOCK_SIGOPS_COST) (blockConsensus "bad-blk-sigops" "too many sigops")
  let failures ← checkScripts ctx st tx
  let (txundo, view) ← (updateCoins tx st.view ctx.pindex.nHeight).mapError .exception
  return { st with
    view
    nSigOpsCost
    scriptFailures := st.scriptFailures ++ failures
    vtxundo := if i > 0 then st.vtxundo ++ [txundo] else st.vtxundo }

/-! ## ConnectBlock -/

/-- `IsBIP30Repeat` -/
def isBIP30Repeat (pindex : CBlockIndex) : Bool :=
  (pindex.nHeight == 91842 &&
    pindex.getBlockHash == Uint256.ofNat 0x00000000000a4d0a398161ffc163c503763b1f4360639393e0e4c8e300e0caec) ||
  (pindex.nHeight == 91880 &&
    pindex.getBlockHash == Uint256.ofNat 0x00000000000743f190a18c5577a3c2d2a1f610ae9601ac046a38084ccb7cd721)

def BIP34_IMPLIES_BIP30_LIMIT : ℕ := 1983702

/-- whether outputs are looked for that would overwrite unspent ones -/
def enforceBIP30 (pindex pprev : CBlockIndex) : Bool :=
  (!isBIP30Repeat pindex && (pprev.getAncestor P.BIP34Height).all fun b => b.getBlockHash != P.BIP34Hash) ||
    pindex.nHeight ≥ BIP34_IMPLIES_BIP30_LIMIT

/-- an output of the block is an unspent coin of the view -/
def overwrites (view : CoinsView) (block : CBlock) : Bool :=
  block.vtx.any fun tx => (List.range tx.vout.length).any fun o => view.haveCoin ⟨tx.getHash, UInt32.ofNat o⟩

/-- the second `CheckBlock`, without the proof of work -/
def recheckBlock (block : CBlock) (fJustCheck : Bool) : Except ConnectFailure CBlock :=
  (checkBlock P env.checkSignetBlockSolution block false (!fJustCheck) none 0).mapError fun e =>
    if e.result = .BLOCK_MUTATED then .error "Corrupt block found indicating potential hardware failure." else
      .invalid e

/-- the genesis block: its coinbase is connected where it is an initial allocation -/
def connectGenesis (block : CBlock) (pindex : CBlockIndex) (view : CoinsView) : Except ConnectFailure CoinsView :=
  if P.genesisCoinbaseSpendable then
    match block.vtx with
    | [tx] => if tx.isCoinBase then ((updateCoins tx view pindex.nHeight).map Prod.snd).mapError .exception
      else .error (.exception "assertion failed: block.vtx.front()->IsCoinBase()")
    | _ => .error (.exception "assertion failed: block.vtx.size() == 1")
  else .ok view

/-- the coinbase takes no more than the fees and the subsidy -/
def checkReward (block : CBlock) (sums : ConnectSums) : Except ConnectFailure Unit :=
  match block.vtx with
  | [] => .error (.exception "no coinbase")
  | coinbase :: _ => do
    let valueOut ← coinbase.getValueOut.mapError .exception
    let blockReward := sums.nFees + getBlockSubsidyForWeight ctx.pindex.nHeight sums.nonCoinbaseWeight ctx.P
    refuseIf (valueOut > blockReward) (blockConsensus "bad-cb-amount"
      ("coinbase pays too much (actual=" ++ toString valueOut ++ " vs limit=" ++ toString blockReward ++ ")"))

/-- what the queue reports -/
def checkQueue (sums : ConnectSums) : Except ConnectFailure Unit :=
  match env.complete sums.scriptFailures with
  | some f => .error (blockConsensus f.reason f.debug)
  | none => .ok ()

def ConnectSums.start : ConnectSums := ⟨0, 0, 0, [], []⟩

/-- the state before the first transaction -/
def ConnectState.start (view : CoinsView) : ConnectState := ⟨.start, view⟩

/-- from the BIP 30 check to the queue -/
def connectTxs (block : CBlock) (view : CoinsView) : Except ConnectFailure ConnectState := do
  refuseIf (enforceBIP30 ctx.P ctx.pindex ctx.pprev && overwrites view block)
    (blockConsensus "bad-txns-BIP30" "tried to overwrite transaction")
  let st ← block.vtx.zipIdx.foldlM (connectTx ctx) (ConnectState.start view)
  checkReward ctx block st.toConnectSums
  checkQueue ctx.env st.toConnectSums
  return st

/-- the checksum of an undo record, over the hash of the block before and the record -/
def undoChecksum (pprev : CBlockIndex) (record : Bytes) : Bytes := (hash256 (pprev.getBlockHash.bytes ++ record)).bytes

/-- `WriteBlockUndo`: a record that is there stays -/
def writeBlockUndo (pprev : CBlockIndex) (blockundo : CBlockUndo) : Option Bytes → Except String Bytes
  | some record => .ok record
  | none => do
    let record ← blockundo.serialize
    return record ++ undoChecksum pprev record

/-- a block that is not the genesis block -/
def connectChild (block : CBlock) (pindex : CBlockIndex) (view : CoinsView) (undo : Option Bytes) (fJustCheck : Bool) :
    Except ConnectFailure (CoinsView × Option Bytes) :=
  match pindex.pprev with
  | none => .error (.exception "assertion failed: pindex->pprev")
  | some pprev => do
    let st ← connectTxs ⟨P, env, pindex, pprev⟩ block view
    if fJustCheck then return (st.view, undo)
    else
      let record ← (writeBlockUndo pprev st.vtxundo undo).mapError .exception
      return (st.view.setBestBlock pindex.getBlockHash, some record)

/-- `ConnectBlock`: the view, and the undo record that is stored for the block -/
def connectBlock (block : CBlock) (pindex : CBlockIndex) (view : CoinsView) (undo : Option Bytes) (fJustCheck : Bool) :
    Except ConnectFailure (CoinsView × Option Bytes) := do
  refuseIf (pindex.getBlockHash != block.header.getHash)
    (.exception "assertion failed: *pindex->phashBlock == block_hash")
  let block ← recheckBlock P env block fJustCheck
  refuseIf ((pindex.pprev.map CBlockIndex.getBlockHash).getD Uint256.null != view.bestBlock)
    (.exception "assertion failed: hashPrevBlock == view.GetBestBlock()")
  if block.header.getHash = P.hashGenesisBlock then
    let view ← connectGenesis P block pindex view
    return (if fJustCheck then view else view.setBestBlock pindex.getBlockHash, undo)
  else connectChild P env block pindex view undo fJustCheck

/-! ## What one turn does -/

/-- what one turn of the loop did to a transaction that passed the context-free checks -/
structure TxConnected (ctx : ConnectContext) (st st' : ConnectState) (tx : CTransaction) (i : ℕ)
    (spent : List (COutPoint × Coin)) : Prop where
  updated : Updated tx ctx.pindex.nHeight st.view (spent.map Prod.snd) st'.view spent
  vtxundo : st'.vtxundo = if i > 0 then st.vtxundo ++ [spent.map Prod.snd] else st.vtxundo
  coins : ∀ e ∈ spent, e.2.mature ctx.pindex.nHeight = true ∧ e.2.AmountOk
  fees : st'.nFees = st.nFees + if tx.isCoinBase then 0 else (spent.map fun e => e.2.out.value).sum - tx.outputSum
  fees_le : st.nFees ≤ st'.nFees

variable {ctx : ConnectContext} {st st' : ConnectState} {block : CBlock} {view : CoinsView} {tx : CTransaction}
  {st st₀ : ConnectState} {pindex : CBlockIndex} {turns : List Turn} {env : ConnectEnv}

theorem checkSpend_ok (htx : TxOk tx) (h : checkSpend ctx st tx = .ok st') :
    ∃ coins, inputCoins st.view tx = some coins ∧ (∀ c ∈ coins, c.mature ctx.pindex.nHeight = true ∧ c.AmountOk) ∧
      st'.nFees = st.nFees + ((coins.map fun c => c.out.value).sum - tx.outputSum) ∧
      st.nFees ≤ st'.nFees ∧ st'.view = st.view ∧ st'.vtxundo = st.vtxundo := by
  simp only [checkSpend, bind_ok, mapError_ok, pure, Except.pure, Except.ok.injEq] at h
  obtain ⟨txfee, hinputs, _, _, _, _, rfl⟩ := h
  obtain ⟨coins, hcoins, hall, hpos, rfl⟩ := checkTxInputs_ok htx hinputs
  exact ⟨coins, hcoins, hall, rfl, le_add_of_nonneg_right hpos, rfl, rfl⟩

theorem connectTx_ok {i : ℕ} (htx : TxOk tx) (h : connectTx ctx st (tx, i) = .ok st') :
    ∃ spent, TxConnected ctx st st' tx i spent := by
  simp only [connectTx, bind_ok, mapError_ok, pure, Except.pure, Except.ok.injEq] at h
  obtain ⟨st₁, hspend, _, _, failures, _, ⟨txundo, view⟩, hupdate, rfl⟩ := h
  obtain ⟨spent, hupdated⟩ := updateCoins_ok hupdate
  have hundo : txundo = spent.map Prod.snd := hupdated.undo
  subst hundo
  rw [checkInputs] at hspend
  split_ifs at hspend with hcb
  · cases hspend
    have hnone : spent = [] := by simpa [spentOutpoints, hcb] using hupdated.outpoints
    subst hnone
    exact
      ⟨[], { updated := hupdated
             vtxundo := rfl
             coins := by simp
             fees := by simp [hcb]
             fees_le := le_refl _ }⟩
  · obtain ⟨coins, hcoins, hall, hfees, hle, hview, hvtxundo⟩ := checkSpend_ok htx hspend
    rw [hview] at hupdated
    have hsame : coins = spent.map Prod.snd := Option.some_inj.1 (hcoins.symm.trans (hupdated.inputCoins_eq hcb))
    subst hsame
    exact
      ⟨spent, { updated := hupdated
                vtxundo := by rw [hvtxundo]
                coins := fun e he => hall e.2 (mem_map_of_mem he)
                fees := by
                  rw [if_neg hcb]
                  rwa [map_map] at hfees
                fees_le := hle }⟩

/-- What one turn adds to the sums. -/
theorem connectTx_sums {i : ℕ} (h : connectTx ctx st (tx, i) = .ok st') :
    st'.nSigOpsCost = st.nSigOpsCost + getTransactionSigOpCost tx ∧ st'.nSigOpsCost ≤ MAX_BLOCK_SIGOPS_COST ∧
      if tx.isCoinBase then st'.nFees = st.nFees ∧ st'.nonCoinbaseWeight = st.nonCoinbaseWeight
      else ∃ txfee, checkTxInputs tx st.view ctx.pindex.nHeight = .ok txfee ∧ moneyRange (st.nFees + txfee) = true ∧
        st'.nFees = st.nFees + txfee ∧
        st'.nonCoinbaseWeight = st.nonCoinbaseWeight + (getTransactionWeight tx).toInt64.toUInt64 := by
  simp only [connectTx, bind_ok, mapError_ok, pure, Except.pure, Except.ok.injEq, refuseIf_ok, gt_iff_lt,
    decide_eq_false_iff_not, not_lt] at h
  obtain ⟨st₁, hspend, _, hsigOps, failures, _, ⟨txundo, view⟩, _, rfl⟩ := h
  rw [checkInputs] at hspend
  by_cases hcb : tx.isCoinBase = true
  · rw [if_pos hcb] at hspend ⊢
    cases hspend
    exact ⟨rfl, hsigOps, rfl, rfl⟩
  · rw [if_neg hcb] at hspend ⊢
    simp only [checkSpend, bind_ok, mapError_ok, pure, Except.pure, Except.ok.injEq, refuseIf_ok, Bool.not_eq_false']
      at hspend
    obtain ⟨txfee, hinputs, _, hrange, _, _, rfl⟩ := hspend
    exact ⟨rfl, hsigOps, txfee, hinputs, hrange, rfl, rfl⟩

/-! ## The turns of a block -/

/-- a transaction and the coins it spent -/
abbrev Turn := CTransaction × List (COutPoint × Coin)

/-- the turn of a transaction behind the coinbase -/
structure TxTurn (ctx : ConnectContext) (st : ConnectState) (b : Turn) (st' : ConnectState) : Prop where
  checked : TxOk b.1
  plain : b.1.isCoinBase = false
  connected : TxConnected ctx st st' b.1 1 b.2

/-- the turns behind the coinbase -/
abbrev LoopRun (ctx : ConnectContext) : ConnectState → List Turn → ConnectState → Prop := Trace (TxTurn ctx)

/-- The loop of `ConnectBlock`: the coinbase, then the other transactions, turn by turn. -/
theorem connectLoop_run (hbody : BodyOk block) (h : block.vtx.zipIdx.foldlM (connectTx ctx) st₀ = .ok st) :
    ∃ cb rest mid, cb.isCoinBase = true ∧ TxOk cb ∧ block.vtx = cb :: rest.map Prod.fst ∧
      TxConnected ctx st₀ mid cb 0 [] ∧ LoopRun ctx mid rest st := by
  obtain ⟨cb, txs, hvtx, hcb, htxs⟩ := hbody.coinbase
  have hall := hbody.txs
  rw [hvtx] at h hall
  obtain ⟨hcbOk, hall⟩ := forall_mem_cons.1 hall
  rw [zipIdx_cons, foldlM_cons_ok] at h
  obtain ⟨mid, hmid, hrest⟩ := h
  obtain ⟨spent, hspent⟩ := connectTx_ok hcbOk hmid
  have hnone : spent = [] := by simpa [spentOutpoints, hcb] using hspent.updated.outpoints
  subst hnone
  have hstep : ∀ s x t, x ∈ txs.zipIdx 1 → True → connectTx ctx s x = .ok t →
      True ∧ ∃ b : (CTransaction × ℕ) × List (COutPoint × Coin), b.1 = x ∧ TxTurn ctx s (b.1.1, b.2) t := by
    intro s x t hx _ ht
    have hmem := fst_mem_of_mem_zipIdx hx
    have hpos : x.2 > 0 := le_snd_of_mem_zipIdx hx
    obtain ⟨spent, hspent⟩ := connectTx_ok (hall x.1 hmem) ht
    have hundo : t.vtxundo = if 1 > 0 then s.vtxundo ++ [spent.map Prod.snd] else s.vtxundo := by
      rw [hspent.vtxundo, if_pos hpos, if_pos Nat.one_pos]
    exact ⟨trivial, (x, spent), rfl, hall x.1 hmem, htxs x.1 hmem, { hspent with vtxundo := hundo }⟩
  obtain ⟨-, bs, hbs, htrace⟩ := foldlM_trace (I := fun _ => True) hstep trivial hrest
  refine ⟨cb, bs.map fun b => (b.1.1, b.2), mid, hcb, hcbOk, ?_, hspent, htrace.relabel⟩
  rw [hvtx, map_map, ← zipIdx_map_fst 1 txs, ← hbs, map_map]
  rfl

theorem LoopRun.vtxundo (h : LoopRun ctx st turns st') :
    st'.vtxundo = st.vtxundo ++ turns.map fun b => b.2.map Prod.snd := by
  induction h with
  | nil s => simp
  | cons hfirst _ ih =>
    rw [ih, hfirst.connected.vtxundo, if_pos Nat.one_pos, append_assoc]
    rfl

/-- what the undo record of a turn holds -/
theorem LoopRun.spent (h : LoopRun ctx st turns st') :
    ∀ b ∈ turns, b.2.length * WITNESS_SCALE_FACTOR ≤ MAX_BLOCK_WEIGHT ∧ ∀ e ∈ b.2, e.2.AmountOk := by
  refine Trace.forall_mem (fun s b t hb => ⟨?_, fun e he => (hb.connected.coins e he).2⟩) h
  have hlen := congrArg List.length hb.connected.updated.outpoints
  rw [spentOutpoints, if_neg (Bool.eq_false_iff.1 hb.plain), length_map, length_map] at hlen
  rw [hlen]
  exact hb.checked.counts.1

/-- The weight that the loop has summed up at its end. -/
theorem connectLoop_weight (hbody : BodyOk block) (h : block.vtx.zipIdx.foldlM (connectTx ctx) st₀ = .ok st) :
    st.nonCoinbaseWeight = nonCoinbaseWeight block.vtx.tail st₀.nonCoinbaseWeight := by
  obtain ⟨cb, txs, hvtx, hcb, htxs⟩ := hbody.coinbase
  have hloop : ∀ (txs : List CTransaction) (i : ℕ) (s : ConnectState), (∀ tx ∈ txs, tx.isCoinBase = false) →
      (txs.zipIdx i).foldlM (connectTx ctx) s = .ok st →
      st.nonCoinbaseWeight = nonCoinbaseWeight txs s.nonCoinbaseWeight := by
    intro txs
    induction txs with
    | nil =>
      intro i s _ hend
      cases hend
      rfl
    | cons tx txs ih =>
      intro i s hplain hfold
      obtain ⟨htx, hplain⟩ := forall_mem_cons.1 hplain
      rw [zipIdx_cons, foldlM_cons_ok] at hfold
      obtain ⟨mid, hmid, hrest⟩ := hfold
      obtain ⟨-, -, hsums⟩ := connectTx_sums hmid
      rw [if_neg (Bool.eq_false_iff.1 htx)] at hsums
      obtain ⟨_, _, _, _, hweight⟩ := hsums
      rw [ih _ _ hplain hrest, hweight]
      rfl
  rw [hvtx, zipIdx_cons, foldlM_cons_ok] at h
  obtain ⟨mid, hmid, hrest⟩ := h
  obtain ⟨-, -, hsums⟩ := connectTx_sums hmid
  rw [if_pos hcb] at hsums
  rw [hloop txs _ mid htxs hrest, hsums.2, hvtx, tail_cons]

/-! ## What the block does -/

/-- The loop ended, and the coinbase takes no more than its fees and the subsidy. -/
theorem connectTxs_ok (hbody : BodyOk block) (h : connectTxs ctx block view = .ok st) :
    block.vtx.zipIdx.foldlM (connectTx ctx) (ConnectState.start view) = .ok st ∧ ∀ cb rest, block.vtx = cb :: rest →
      cb.outputSum ≤ st.nFees + getBlockSubsidyForWeight ctx.pindex.nHeight st.nonCoinbaseWeight ctx.P := by
  simp only [connectTxs, bind_ok, pure, Except.pure, Except.ok.injEq] at h
  obtain ⟨_, _, st', hloop, _, hreward, _, _, rfl⟩ := h
  refine ⟨hloop, fun cb rest hvtx => ?_⟩
  have hcb : TxOk cb := hbody.txs cb (by rw [hvtx]; exact mem_cons_self)
  simp only [checkReward, hvtx, bind_ok, mapError_ok, getValueOut_eq hcb, Except.ok.injEq, refuseIf_ok, gt_iff_lt,
    decide_eq_false_iff_not, not_lt] at hreward
  obtain ⟨_, rfl, hle⟩ := hreward
  exact hle

/-- A block that is not the genesis block, connected for good. -/
theorem connectChild_ok {P : Params} {view' : CoinsView} {undo undo' : Option Bytes}
    (h : connectChild P env block pindex view undo false = .ok (view', undo')) :
    ∃ pprev st record, pindex.pprev = some pprev ∧ connectTxs ⟨P, env, pindex, pprev⟩ block view = .ok st ∧
      writeBlockUndo pprev st.vtxundo undo = .ok record ∧ view' = st.view.setBestBlock pindex.getBlockHash ∧
      undo' = some record := by
  unfold connectChild at h
  cases hprev : pindex.pprev with
  | none => simp [hprev] at h
  | some pprev =>
    simp only [hprev, Bool.false_eq_true, if_false, bind_ok, mapError_ok, pure, Except.pure, Except.ok.injEq,
      Prod.mk.injEq] at h
    obtain ⟨st, hst, record, hrecord, hview, hundo⟩ := h
    exact ⟨pprev, st, record, rfl, hst, hrecord, hview.symm, hundo.symm⟩

/-- The block that is connected is the checked one, which differs in its flags at most, on a view that ends at the block
before. -/
theorem connectBlock_ok {P : Params} {undo : Option Bytes} {fJustCheck : Bool} {r : CoinsView × Option Bytes}
    (hflag : block.fChecked = true → BodyOk block) (h : connectBlock P env block pindex view undo fJustCheck = .ok r) :
    pindex.getBlockHash = block.header.getHash ∧ (pindex.pprev.map CBlockIndex.getBlockHash).getD Uint256.null =
      view.bestBlock ∧ ∃ b, BodyOk b ∧ b.vtx = block.vtx ∧ b.header = block.header ∧
      ((block.header.getHash = P.hashGenesisBlock ∧ ∃ view', connectGenesis P b pindex view = .ok view' ∧
          r = (if fJustCheck then view' else view'.setBestBlock pindex.getBlockHash, undo)) ∨
        (block.header.getHash ≠ P.hashGenesisBlock ∧ connectChild P env b pindex view undo fJustCheck = .ok r)) := by
  simp only [connectBlock, bind_ok, refuseIf_ok, bne_eq_false_iff_eq, recheckBlock, mapError_ok] at h
  obtain ⟨_, hhash, b, hcheck, _, hbest, hbranch⟩ := h
  obtain ⟨hbody, hvtx, hheader⟩ := checkBlock_body hflag hcheck
  refine ⟨hhash, hbest, b, hbody, hvtx, hheader, ?_⟩
  rw [hheader] at hbranch
  by_cases hgenesis : block.header.getHash = P.hashGenesisBlock
  · simp only [if_pos hgenesis, bind_ok, pure, Except.pure, Except.ok.injEq] at hbranch
    obtain ⟨view', hview', rfl⟩ := hbranch
    exact Or.inl ⟨hgenesis, view', hview', rfl⟩
  · rw [if_neg hgenesis] at hbranch
    exact Or.inr ⟨hgenesis, hbranch⟩

end

end ConnectCoin
