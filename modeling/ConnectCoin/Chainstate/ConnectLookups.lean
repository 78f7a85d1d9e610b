/-
Connecting a block, call by call on the cache (`ConnectBlock`, `CheckInputScripts`, `UpdateCoins` in `validation.cpp`,
`CheckTxInputs` in `consensus/tx_verify.cpp`, `HaveInputs` and `AddCoins` in `coins.cpp`).

`Chainstate/ConnectBlock` says what these functions do to a map of coins. Here they are programs (`Lib.Calls`) that call
the methods of the cache in the order of the source, stopping where the source stops: the BIP 30 loop looks at every
output, `HaveInputs` stops at the first missing coin, the script checks look at the inputs until one pays to connect,
and then at all of them.

Result: `Lookups.connectBlock_exec`. On a map of coins, the calls of `ConnectBlock` do what `ConnectBlock` does to it.
-/
import ConnectCoin.Chainstate.ConnectBlock
import ConnectCoin.Coins.Prefetch

namespace ConnectCoin

open Lib List Calls

section
variable [Crypto]

/-- a part of `ConnectBlock` -/
abbrev ConnectCalls (α : Type) := Calls CoinsCall ConnectFailure α

namespace Lookups

/-! ## The inputs of a transaction -/

/-- `HaveInputs` -/
def haveInputs : List CTxIn → ConnectCalls Bool
  | [] => pure true
  | txin :: vin => do
    let have_ ← Calls.ask (.haveCoin txin.prevout)
    if have_ then haveInputs vin else pure false

/-- a coin that must be there -/
def accessUnspent (txin : CTxIn) : ConnectCalls Coin := do
  let coin ← Calls.ask (.accessCoin txin.prevout)
  if coin.isSpent then .fail (.exception "assertion failed: !coin.IsSpent()") else pure coin

variable (tx : CTransaction)

/-- one turn of the loop of `CheckTxInputs` -/
def checkInput (nSpendHeight : ℕ) (nValueIn : CAmount) (txin : CTxIn) : ConnectCalls CAmount := do
  let coin ← accessUnspent txin
  Calls.lift (((checkInputCoin nSpendHeight nValueIn coin).mapError TxFailure.invalid).mapError (inTransaction tx))

/-- `CheckTxInputs` behind `HaveInputs` -/
def checkFound (nSpendHeight : ℕ) : ConnectCalls CAmount := do
  let nValueIn ← tx.vin.foldlM (checkInput tx nSpendHeight) 0
  Calls.lift ((payOutputs tx nValueIn).mapError (inTransaction tx))

/-- `CheckTxInputs` -/
def checkTxInputs (nSpendHeight : ℕ) : ConnectCalls CAmount := do
  let found ← haveInputs tx.vin
  if found then checkFound tx nSpendHeight else .fail (inTransaction tx inputsMissing)

/-- one turn of the loop over `prevheights` -/
def prevheight (prevheights : List ℕ) (txin : CTxIn) : ConnectCalls (List ℕ) := do
  let coin ← Calls.ask (.accessCoin txin.prevout)
  return prevheights ++ [coin.nHeight]

variable (P : Params) (env : ConnectEnv) (ctx : ConnectContext)

/-- the part for a transaction that is no coinbase -/
def checkSpend (sums : ConnectSums) (tx : CTransaction) : ConnectCalls ConnectSums := do
  let txfee ← checkTxInputs tx ctx.pindex.nHeight
  Calls.lift (refuseIf (!moneyRange (sums.nFees + txfee)) feesOutOfRange)
  let prevheights ← tx.vin.foldlM prevheight []
  Calls.lift (checkFinal ctx tx prevheights)
  return { sums with
    nFees := sums.nFees + txfee
    nonCoinbaseWeight := sums.nonCoinbaseWeight + (getTransactionWeight tx).toInt64.toUInt64 }

/-- a coinbase has no inputs to check -/
def checkInputs (sums : ConnectSums) (tx : CTransaction) : ConnectCalls ConnectSums :=
  if tx.isCoinBase then pure sums else checkSpend ctx sums tx

/-! ## The script checks -/

/-- the loop for `spends_p2c` -/
def spendsP2C : List CTxIn → ConnectCalls Bool
  | [] => pure false
  | txin :: vin => do
    let coin ← Calls.ask (.accessCoin txin.prevout)
    if coin.out.type == .PAY_TO_CONNECT then pure true else spendsP2C vin

/-- one turn of the loop over `spent_outputs` -/
def spentOutput (coins : List Coin) (txin : CTxIn) : ConnectCalls (List Coin) := do
  let coin ← accessUnspent txin
  return coins ++ [coin]

/-- `CheckInputScripts` -/
def checkInputScripts (tx : CTransaction) (time : Int64) : ConnectCalls (List ScriptFailure) := do
  let p2c ← spendsP2C tx.vin
  if p2c && time ≤ 0 then .fail p2cTimeUnavailable
  else if env.scriptsCached tx time then pure []
  else
    let coins ← tx.vin.foldlM spentOutput []
    Calls.lift (runChecks env tx coins time)

/-- the script checks, if they are made -/
def checkScripts (tx : CTransaction) : ConnectCalls (List ScriptFailure) :=
  if tx.isCoinBase || ctx.env.assumedValid ctx.pindex then pure []
  else checkInputScripts ctx.env tx (Int64.ofInt ctx.pprev.getMedianTimePast)

/-! ## The coins of a transaction -/

/-- one turn of the first loop of `UpdateCoins` -/
def spendInput (txundo : CTxUndo) (txin : CTxIn) : ConnectCalls CTxUndo := do
  let spent ← Calls.ask (.spendCoin txin.prevout)
  match spent with
  | some coin => pure (txundo ++ [coin])
  | none => .fail (.exception "assertion failed: is_spent")

/-- one turn of the loop of `AddCoins` -/
def addOutput (nHeight : ℕ) (_ : Unit) (output : CTxOut × ℕ) : ConnectCalls Unit := do
  let added ← Calls.ask (.addCoin (outputCoin tx nHeight output).1 (outputCoin tx nHeight output).2 tx.isCoinBase)
  Calls.lift (added.mapError .exception)

/-- the first half of `UpdateCoins` -/
def spendInputs : ConnectCalls CTxUndo :=
  if tx.isCoinBase then pure [] else tx.vin.foldlM spendInput []

/-- `UpdateCoins`: the undo record -/
def updateCoins (nHeight : ℕ) : ConnectCalls CTxUndo := do
  let txundo ← spendInputs tx
  tx.vout.zipIdx.foldlM (addOutput tx nHeight) ()
  return txundo

/-! ## The block -/

/-- one turn of the loop of `ConnectBlock` -/
def connectTx (sums : ConnectSums) (txi : CTransaction × ℕ) : ConnectCalls ConnectSums := do
  let (tx, i) := txi
  let sums ← checkInputs ctx sums tx
  let nSigOpsCost := sums.nSigOpsCost + getTransactionSigOpCost tx
  Calls.lift (refuseIf (nSigOpsCost > MAX_BLOCK_SIGOPS_COST) (blockConsensus "bad-blk-sigops" "too many sigops"))
  let failures ← checkScripts ctx tx
  let txundo ← updateCoins tx ctx.pindex.nHeight
  return { sums with
    nSigOpsCost
    scriptFailures := sums.scriptFailures ++ failures
    vtxundo := if i > 0 then sums.vtxundo ++ [txundo] else sums.vtxundo }

/-- one lookup of the BIP 30 check: it goes on when a coin was found -/
def lookForOutput (found : Bool) (o : ℕ) : ConnectCalls Bool := do
  let have_ ← Calls.ask (.haveCoin ⟨tx.getHash, UInt32.ofNat o⟩)
  return found || have_

/-- the lookups of the BIP 30 check -/
def overwrites (block : CBlock) : ConnectCalls Bool :=
  block.vtx.foldlM (fun found tx => (List.range tx.vout.length).foldlM (lookForOutput tx) found) false

/-- the BIP 30 check, where it is made -/
def checkBIP30 (block : CBlock) : ConnectCalls Bool :=
  if enforceBIP30 ctx.P ctx.pindex ctx.pprev then overwrites block else pure false

/-- from the BIP 30 check to the queue -/
def connectTxs (block : CBlock) : ConnectCalls ConnectSums := do
  let found ← checkBIP30 ctx block
  Calls.lift (refuseIf found (blockConsensus "bad-txns-BIP30" "tried to overwrite transaction"))
  let sums ← block.vtx.zipIdx.foldlM (connectTx ctx) ConnectSums.start
  Calls.lift (checkReward ctx block sums)
  Calls.lift (checkQueue ctx.env sums)
  return sums

/-- the genesis block -/
def connectGenesis (block : CBlock) (pindex : CBlockIndex) : ConnectCalls Unit :=
  if P.genesisCoinbaseSpendable then
    match block.vtx with
    | [tx] =>
      if tx.isCoinBase then do
        let _ ← updateCoins tx pindex.nHeight
        return ()
      else .fail (.exception "assertion failed: block.vtx.front()->IsCoinBase()")
    | _ => .fail (.exception "assertion failed: block.vtx.size() == 1")
  else pure ()

/-- a block that is not the genesis block: the hash for `SetBestBlock`, and the undo record -/
def connectChild (block : CBlock) (pindex : CBlockIndex) (undo : Option Bytes) (fJustCheck : Bool) :
    ConnectCalls (Option Uint256 × Option Bytes) :=
  match pindex.pprev with
  | none => .fail (.exception "assertion failed: pindex->pprev")
  | some pprev => do
    let sums ← connectTxs ⟨P, env, pindex, pprev⟩ block
    if fJustCheck then return (none, undo)
    else
      let record ← Calls.lift ((writeBlockUndo pprev sums.vtxundo undo).mapError .exception)
      return (some pindex.getBlockHash, some record)

/-- `ConnectBlock` on a cache whose best block is given: the hash for `SetBestBlock`, and the undo record -/
def connectBlock (block : CBlock) (pindex : CBlockIndex) (bestBlock : Uint256) (undo : Option Bytes)
    (fJustCheck : Bool) : ConnectCalls (Option Uint256 × Option Bytes) := do
  Calls.lift (refuseIf (pindex.getBlockHash != block.header.getHash)
    (.exception "assertion failed: *pindex->phashBlock == block_hash"))
  let block ← Calls.lift (recheckBlock P env block fJustCheck)
  Calls.lift (refuseIf ((pindex.pprev.map CBlockIndex.getBlockHash).getD Uint256.null != bestBlock)
    (.exception "assertion failed: hashPrevBlock == view.GetBestBlock()"))
  if block.header.getHash = P.hashGenesisBlock then
    connectGenesis P block pindex
    return (if fJustCheck then none else some pindex.getBlockHash, undo)
  else connectChild P env block pindex undo fJustCheck

/-! ## Inputs that are there -/

section
variable {σ : Type} {handle : Handler CoinsCall σ} {s : σ} {vin : List CTxIn} {tx : CTransaction} {coins : List Coin}

/-- the coin of an input is there, and looking at it changes nothing -/
def Found (handle : Handler CoinsCall σ) (s : σ) (txin : CTxIn) (coin : Coin) : Prop :=
  handle _ (.accessCoin txin.prevout) s = (coin, s) ∧ coin.isSpent = false

theorem accessUnspent_exec {txin : CTxIn} {coin : Coin} (h : Found handle s txin coin) :
    (accessUnspent txin).exec handle s = pure (coin, s) := by
  simp [accessUnspent, exec_bind, exec_ask, h.1, h.2, exec_pure]

/-- A loop over such inputs. -/
theorem inputs_exec {α : Type} {f : α → CTxIn → ConnectCalls α} (g : α → Coin → Except ConnectFailure α)
    (hf : ∀ a txin coin, Found handle s txin coin → (f a txin).exec handle s = (·, s) <$> g a coin)
    (h : Forall₂ (Found handle s) vin coins) (a : α) :
    (vin.foldlM f a).exec handle s = (·, s) <$> coins.foldlM g a := by
  induction h generalizing a with
  | nil => rfl
  | cons hcoin _ ih =>
    rw [foldlM_cons, foldlM_cons, exec_bind, hf a _ _ hcoin, bind_map_left, map_bind]
    exact bind_congr ih

theorem checkFound_exec (nSpendHeight : ℕ) (h : Forall₂ (Found handle s) tx.vin coins) :
    (checkFound tx nSpendHeight).exec handle s = (·, s) <$> ((do
      let nValueIn ← (coins.foldlM (checkInputCoin nSpendHeight) 0).mapError TxFailure.invalid
      payOutputs tx nValueIn).mapError (inTransaction tx)) := by
  rw [checkFound, exec_bind, inputs_exec (fun nValueIn coin =>
    ((checkInputCoin nSpendHeight nValueIn coin).mapError TxFailure.invalid).mapError (inTransaction tx)) ?_ h]
  · simp only [bind_mapError, foldlM_mapError, bind_map_left, map_bind, exec_lift]
  · intro nValueIn txin coin hcoin
    rw [checkInput, exec_bind, accessUnspent_exec hcoin]
    exact exec_lift _ _ _

theorem spendsP2C_exec (h : Forall₂ (Found handle s) vin coins) :
    (spendsP2C vin).exec handle s = pure (coins.any fun c => c.out.type == .PAY_TO_CONNECT, s) := by
  induction h with
  | nil => rfl
  | @cons txin coin vin coins hcoin _ ih =>
    rw [spendsP2C, exec_bind, exec_ask, hcoin.1]
    simp only [pure_bind, any_cons]
    cases coin.out.type == .PAY_TO_CONNECT
    · exact ih
    · rfl

theorem checkInputScripts_exec (env : ConnectEnv) (time : Int64) (h : Forall₂ (Found handle s) tx.vin coins) :
    (checkInputScripts env tx time).exec handle s = (·, s) <$> ConnectCoin.checkInputScripts env tx coins time := by
  rw [checkInputScripts, ConnectCoin.checkInputScripts, exec_bind, spendsP2C_exec h]
  simp only [pure_bind]
  split_ifs
  · rfl
  · rfl
  · rw [exec_bind, inputs_exec (fun seen coin => pure (seen ++ [coin])) ?_ h, foldlM_pure, foldl_append_eq_append,
      ← flatMap_def, flatMap_singleton']
    · exact exec_lift _ _ _
    · intro seen txin coin hcoin
      rw [spentOutput, exec_bind, accessUnspent_exec hcoin]
      rfl

end

/-! ## On a map of coins -/

/-- the methods of the cache, on a map of coins -/
def onView : Handler CoinsCall CoinsView := fun _ c view =>
  match c with
  | .getCoin o | .peekCoin o => (view.coins.lookup o, view)
  | .haveCoin o => (view.haveCoin o, view)
  | .haveCoinInCache o => (decide (o ∈ view.cached) && view.haveCoin o, view)
  | .accessCoin o => ((view.coins.lookup o).getD Coin.empty, view)
  | .spendCoin o => match view.spendCoin o with
    | none => (none, view)
    | some (coin, view) => (some coin, view)
  | .addCoin o coin possibleOverwrite => match view.addCoin o coin possibleOverwrite with
    | .ok view => (.ok (), view)
    | .error e => (.error e, view)
  | .uncache _ => ((), view)

variable {view : CoinsView} {tx : CTransaction} {coins : List Coin}

theorem found_of_inputCoins (h : inputCoins view tx = some coins) : Forall₂ (Found onView view) tx.vin coins :=
  (mapM_eq_some.1 h).imp fun _ _ hcoin => ⟨by simp [onView, hcoin], view.unspent _ _ hcoin⟩

theorem haveInputs_exec (vin : List CTxIn) :
    (haveInputs vin).exec onView view = pure ((vin.mapM fun txin => view.coins.lookup txin.prevout).isSome, view) := by
  induction vin with
  | nil => rfl
  | cons txin vin ih =>
    rw [haveInputs, exec_bind, exec_ask, mapM_cons]
    simp only [onView, CoinsView.haveCoin, pure_bind]
    cases view.coins.lookup txin.prevout with
    | none => rfl
    | some coin =>
      rw [Option.isSome_some, if_pos rfl, ih]
      cases vin.mapM fun txin => view.coins.lookup txin.prevout <;> rfl

theorem checkTxInputs_exec (nSpendHeight : ℕ) : (checkTxInputs tx nSpendHeight).exec onView view =
    (·, view) <$> (ConnectCoin.checkTxInputs tx view nSpendHeight).mapError (inTransaction tx) := by
  rw [checkTxInputs, exec_bind, haveInputs_exec, ConnectCoin.checkTxInputs]
  change (if (inputCoins view tx).isSome then _ else _ : ConnectCalls CAmount).exec onView view = _
  cases hcoins : inputCoins view tx with
  | none => rfl
  | some coins => exact checkFound_exec nSpendHeight (found_of_inputCoins hcoins)

theorem prevheights_exec : (tx.vin.foldlM prevheight []).exec onView view = pure (prevheights view tx, view) := by
  rw [exec_turns onView view (g := fun heights txin =>
    heights ++ [((view.coins.lookup txin.prevout).map Coin.nHeight).getD 0]) ?_]
  · rw [foldl_append_eq_append, ← flatMap_def, ← map_eq_flatMap]
    rfl
  · intro heights txin
    rw [prevheight, exec_bind, exec_ask]
    cases h : view.coins.lookup txin.prevout <;> simp only [onView, h] <;> rfl

variable {ctx : ConnectContext} {sums : ConnectSums}

/-- the sums and the view -/
def parts (st : ConnectState) : ConnectSums × CoinsView := (st.toConnectSums, st.view)

theorem checkInputs_exec : (checkInputs ctx sums tx).exec onView view =
    parts <$> ConnectCoin.checkInputs ctx ⟨sums, view⟩ tx := by
  rw [checkInputs, ConnectCoin.checkInputs]
  split_ifs
  · rfl
  · simp only [checkSpend, ConnectCoin.checkSpend, exec_bind, checkTxInputs_exec, bind_map_left, map_bind,
      exec_lift, prevheights_exec, pure_bind]
    rfl

theorem checkScripts_exec (sums : ConnectSums) (h : tx.isCoinBase = false → (inputCoins view tx).isSome = true) :
    (checkScripts ctx tx).exec onView view = (·, view) <$> ConnectCoin.checkScripts ctx ⟨sums, view⟩ tx := by
  rw [checkScripts, ConnectCoin.checkScripts]
  split_ifs with hskip
  · rfl
  · obtain ⟨hspend, -⟩ := not_or.1 (mt Bool.or_eq_true_iff.2 hskip)
    obtain ⟨coins, hcoins⟩ := Option.isSome_iff_exists.1 (h (Bool.eq_false_iff.2 hspend))
    rw [hcoins, Option.getD_some]
    exact checkInputScripts_exec _ _ (found_of_inputCoins hcoins)

theorem spendInputs_exec : (spendInputs tx).exec onView view =
    (ConnectCoin.spendInputs tx view).mapError .exception := by
  rw [spendInputs, ConnectCoin.spendInputs]
  split_ifs
  · rfl
  · rw [exec_foldlM, foldlM_mapError]
    congr 1
    funext st txin
    rw [spendInput, ConnectCoin.spendInput, exec_bind, exec_ask]
    cases h : st.2.spendCoin txin.prevout <;> simp only [onView, h] <;> rfl

theorem addCoins_exec (nHeight : ℕ) : (tx.vout.zipIdx.foldlM (addOutput tx nHeight) ()).exec onView view =
    ((), ·) <$> (addCoins view tx nHeight).mapError .exception := by
  rw [exec_foldlM, addCoins, foldlM_mapError]
  refine foldlM_encode (fun view : CoinsView => ((), view)) (fun view output => ?_) _ view
  rw [addOutput, exec_bind, exec_ask]
  simp only [onView, pure_bind, exec_lift]
  cases view.addCoin (outputCoin tx nHeight output).1 (outputCoin tx nHeight output).2 tx.isCoinBase <;> rfl

theorem updateCoins_exec (nHeight : ℕ) : (updateCoins tx nHeight).exec onView view =
    (ConnectCoin.updateCoins tx view nHeight).mapError .exception := by
  simp only [updateCoins, ConnectCoin.updateCoins, exec_bind, spendInputs_exec, addCoins_exec, bind_mapError,
    bind_map_left]
  rfl

/-- A transaction whose inputs passed has them in the view. -/
theorem checkInputs_found {st st' : ConnectState} (h : ConnectCoin.checkInputs ctx st tx = .ok st')
    (hcb : tx.isCoinBase = false) : (inputCoins st'.view tx).isSome = true := by
  rw [ConnectCoin.checkInputs, if_neg (Bool.eq_false_iff.1 hcb)] at h
  simp only [ConnectCoin.checkSpend, bind_ok, mapError_ok, pure, Except.pure, Except.ok.injEq] at h
  obtain ⟨txfee, hinputs, -, -, -, -, rfl⟩ := h
  rw [ConnectCoin.checkTxInputs] at hinputs
  cases hcoins : inputCoins st.view tx with
  | none => simp [hcoins] at hinputs
  | some coins => rfl

theorem connectTx_exec (txi : CTransaction × ℕ) : (connectTx ctx sums txi).exec onView view =
    parts <$> ConnectCoin.connectTx ctx ⟨sums, view⟩ txi := by
  obtain ⟨tx, i⟩ := txi
  simp only [connectTx, ConnectCoin.connectTx, exec_bind, checkInputs_exec, bind_map_left, map_bind, exec_lift]
  refine bind_congr_ok fun st hinputs => bind_congr fun _ => ?_
  rw [parts, checkScripts_exec st.toConnectSums (checkInputs_found hinputs), bind_map_left]
  simp only [updateCoins_exec]
  rfl

/-- The lookups of the BIP 30 check find what there is to find. -/
theorem overwrites_exec (block : CBlock) :
    (overwrites block).exec onView view = pure (ConnectCoin.overwrites view block, view) := by
  have hany : ∀ {α : Type} (p : α → Bool) (xs : List α) (found : Bool),
      xs.foldl (fun found x => found || p x) found = (found || xs.any p) := by
    intro α p xs
    induction xs with
    | nil => simp
    | cons x xs ih => simp [ih, Bool.or_assoc]
  rw [overwrites, exec_turns onView view (g := fun found tx => found || (List.range tx.vout.length).any
    fun o => view.haveCoin ⟨tx.getHash, UInt32.ofNat o⟩) ?_, hany]
  · rfl
  · intro found tx
    rw [exec_turns onView view (fun _ _ => rfl), ← hany]
    rfl

theorem connectTxs_exec (block : CBlock) :
    (connectTxs ctx block).exec onView view = parts <$> ConnectCoin.connectTxs ctx block view := by
  have hfound : (checkBIP30 ctx block).exec onView view =
      pure (enforceBIP30 ctx.P ctx.pindex ctx.pprev && ConnectCoin.overwrites view block, view) := by
    rw [checkBIP30]
    cases enforceBIP30 ctx.P ctx.pindex ctx.pprev
    · rfl
    · exact overwrites_exec block
  have hloop : block.vtx.zipIdx.foldlM (fun r txi => (connectTx ctx r.1 txi).exec onView r.2) (.start, view) =
      parts <$> block.vtx.zipIdx.foldlM (ConnectCoin.connectTx ctx) (ConnectState.start view) :=
    foldlM_encode parts (fun _ => connectTx_exec) _ (ConnectState.start view)
  simp only [connectTxs, ConnectCoin.connectTxs, exec_bind, exec_foldlM, hfound, pure_bind, exec_lift, bind_map_left,
    map_bind, hloop]
  rfl

variable {P : Params} {env : ConnectEnv} {block : CBlock} {pindex : CBlockIndex} {undo : Option Bytes}
  {fJustCheck : Bool}

theorem connectGenesis_exec : (connectGenesis P block pindex).exec onView view =
    ((), ·) <$> ConnectCoin.connectGenesis P block pindex view := by
  unfold connectGenesis ConnectCoin.connectGenesis
  split_ifs
  · rcases block.vtx with _ | ⟨tx, _ | ⟨tx', vtx⟩⟩
    · rfl
    · simp only
      split_ifs
      · rw [exec_bind, updateCoins_exec]
        cases ConnectCoin.updateCoins tx view pindex.nHeight <;> rfl
      · rfl
    · rfl
  · rfl

/-- what a call leaves: the view with the best block that it sets, and the undo record -/
def left (r : (Option Uint256 × Option Bytes) × CoinsView) : CoinsView × Option Bytes :=
  (r.1.1.elim r.2 r.2.setBestBlock, r.1.2)

theorem connectChild_exec : left <$> (connectChild P env block pindex undo fJustCheck).exec onView view =
    ConnectCoin.connectChild P env block pindex view undo fJustCheck := by
  unfold connectChild ConnectCoin.connectChild
  cases pindex.pprev with
  | none => rfl
  | some pprev =>
    simp only [exec_bind, connectTxs_exec, bind_map_left, map_bind]
    refine bind_congr fun st => ?_
    cases fJustCheck
    · simp only [Bool.false_eq_true, if_false, exec_bind, exec_lift, bind_map_left, map_bind]
      rfl
    · rfl

/-- **One `ConnectBlock`.** Call by call on a map of coins, it is `ConnectBlock` on that map. -/
theorem connectBlock_exec : left <$> (connectBlock P env block pindex view.bestBlock undo fJustCheck).exec onView view =
      ConnectCoin.connectBlock P env block pindex view undo fJustCheck := by
  simp only [connectBlock, ConnectCoin.connectBlock, exec_bind, exec_lift, bind_map_left, map_bind]
  refine bind_congr fun _ => bind_congr fun block => bind_congr fun _ => ?_
  by_cases hgenesis : block.header.getHash = P.hashGenesisBlock
  · rw [if_pos hgenesis, if_pos hgenesis, exec_bind, connectGenesis_exec, bind_map_left, map_bind]
    cases fJustCheck <;> rfl
  · rw [if_neg hgenesis, if_neg hgenesis]
    exact connectChild_exec

end Lookups

end

end ConnectCoin
