/-
The money supply.

- `supplyLimit P h`: the genesis allocation and the subsidies of the heights 1..h; with the mainnet interval it stays
  below `MAX_MONEY` (`supplyLimit_lt`).
- One block raises the weight of its chain's ledger by its subsidy at most (`child_weight`): a transaction lowers it by
  its fee, the coinbase raises it by what it pays.
- `FeeInv`: while a block is connected, the fees so far and the coins that can be spent at its height are worth no more
  than the coins before it: a coinbase coin of the block itself is not mature yet.
Result: `supply_bounded`, for every run of `ChainRun`.
-/
import ConnectCoin.Chainstate.ChainRun
import ConnectCoin.Lib.Halving

namespace ConnectCoin

open Lib CBlockIndex List

/-! ## The limit -/

/-- the subsidy after a number of halvings -/
def subsidyAfter (halvings : ℕ) : CAmount := if halvings ≥ 64 then 0 else 15 * COIN / 2 ^ halvings

theorem subsidyAfter_nonneg (j : ℕ) : 0 ≤ subsidyAfter j := by
  unfold subsidyAfter
  split_ifs
  · exact le_refl _
  · exact Int.ediv_nonneg (by decide) (by positivity)

theorem subsidyAfter_halves (j : ℕ) : 2 * subsidyAfter (j + 1) ≤ subsidyAfter j := by
  by_cases hj : j + 1 ≥ 64
  · have hzero : subsidyAfter (j + 1) = 0 := if_pos hj
    rw [hzero]
    exact subsidyAfter_nonneg j
  · have hnext : subsidyAfter (j + 1) = 15 * COIN / 2 ^ j / 2 := by
      rw [subsidyAfter, if_neg hj, pow_succ, Int.ediv_ediv_of_nonneg (by positivity)]
    have hthis : subsidyAfter j = 15 * COIN / 2 ^ j := if_neg (by omega)
    rw [hnext, hthis]
    exact Int.mul_ediv_self_le (by decide)

/-- the genesis allocation and the subsidies up to height h -/
def supplyLimit (P : Params) (h : ℕ) : CAmount := 10 ^ 17 + ∑ k ∈ Finset.Icc 1 h, getBlockSubsidy k P

theorem supplyLimit_succ (P : Params) (h : ℕ) :
    supplyLimit P (h + 1) = supplyLimit P h + getBlockSubsidy (h + 1) P := by
  rw [supplyLimit, supplyLimit, Finset.sum_Icc_succ_top (by omega), add_assoc]

/-- With 3,000,000 blocks between halvings the limit is below `MAX_MONEY` at every height. -/
theorem supplyLimit_lt {P : Params} (hP : P.nSubsidyHalvingInterval = 3000000) (h : ℕ) :
    supplyLimit P h < MAX_MONEY := by
  have hall := sum_halving_le subsidyAfter_halves subsidyAfter_nonneg (I := 3000000) (by decide) (h + 1)
  have hsplit : ∑ k ∈ Finset.range (h + 1), subsidyAfter (k / 3000000) =
      subsidyAfter 0 + ∑ k ∈ Finset.Icc 1 h, getBlockSubsidy k P := by
    rw [Finset.range_eq_Ico, Finset.sum_eq_sum_Ico_succ_bot (by omega)]
    refine congrArg₂ _ rfl ?_
    refine Finset.sum_congr (by ext k; simp) fun k _ => ?_
    rw [← hP]
    rfl
  have hfirst : subsidyAfter 0 = 150000000000 := by decide
  rw [hsplit, hfirst] at hall
  unfold supplyLimit
  simp only [MAX_MONEY, COIN]
  push_cast at hall
  linarith

/-! ## Refusals -/

/-- refused because a sum of amounts left the range -/
def ConnectFailure.OutOfRange : ConnectFailure → Prop
  | .invalid state => state.rejectReason = "bad-txns-inputvalues-outofrange" ∨
      state.rejectReason = "bad-txns-accumulated-fee-outofrange"
  | _ => False

theorem script_not_outOfRange (f : ScriptFailure) : ¬ (blockConsensus f.reason f.debug).OutOfRange := by
  have hreason : ∀ error : ScriptError,
      ¬ ("block-script-verify-flag-failed (" ++ error.toString ++ ")" = "bad-txns-inputvalues-outofrange" ∨
        "block-script-verify-flag-failed (" ++ error.toString ++ ")" = "bad-txns-accumulated-fee-outofrange") := by
    intro error
    cases error with
    | UNKNOWN_ERROR => decide
    | EVAL_FALSE => decide
  exact hreason f.error

section
variable [Crypto]

/-! ## What a transaction does to the weight -/

def coinValue (c : Coin) : CAmount := c.out.value

variable {tx : CTransaction} {ctx : ConnectContext} {m : Utxos} {e : ConnectFailure} {tree : BlockTree} {bound : ℤ}
  {P : Params} {st st' : ConnectState} {nHeight i : ℕ} {view : CoinsView} {spent : List (COutPoint × Coin)}
  {rest : List CBlockIndex} {undo : Option Bytes} {turns : List Turn} {tip : CBlockIndex} {s : ChainState}

theorem zipIdx_values (vout : List CTxOut) : (vout.zipIdx.map fun o => o.1.value) = vout.map CTxOut.value := by
  rw [← zipIdx_map_fst 0 vout, map_map, zipIdx_map_fst]
  rfl

/-- The coins that a transaction creates are worth its outputs. -/
theorem created_sum (htx : TxOk tx) (nHeight : ℕ) :
    ((createdCoins tx nHeight).map fun e => coinValue e.2).sum = tx.outputSum := by
  rw [createdCoins_eq htx, map_map, CTransaction.outputSum, ← zipIdx_values]
  rfl

/-- A transaction as a transfer: the weight of what it spends leaves, and no more than what it creates comes. -/
theorem weight_replayTx_le {w : Coin → ℤ} (hm : NonNeg w m) (hkeys : spent.map Prod.fst = spentOutpoints tx)
    (hnodup : (spent.map Prod.fst).Nodup) (hfound : ∀ e ∈ spent, m.lookup e.1 = some e.2)
    (hcreated : ∀ e ∈ createdCoins tx nHeight, 0 ≤ w e.2) : weight w (replayTx nHeight m tx) ≤
      weight w m - (spent.map fun e => w e.2).sum + ((createdCoins tx nHeight).map fun e => w e.2).sum := by
  rw [replayTx, transfer, ← hkeys, ← weight_erases hnodup hfound]
  exact weight_inserts_le (hm.erases _) hcreated

theorem RegularLedger.nonNeg (h : RegularLedger m) : NonNeg coinValue m := fun o c hc => (h o c hc).value

theorem createdCoins_nonneg (htx : TxOk tx) (nHeight : ℕ) : ∀ e ∈ createdCoins tx nHeight, 0 ≤ coinValue e.2 := by
  intro e he
  obtain ⟨o, i, ho, -, rfl⟩ := mem_createdCoins he
  exact htx.values o (mem_of_getElem? ho)

/-- The turns behind the coinbase lower the weight by their fees. -/
theorem LoopRun.weight_le (h : LoopRun ctx st turns st') (hsub : Sub st.view.coins m) (hm : RegularLedger m)
    (hlow : 1 ≤ ctx.pindex.nHeight) (hhigh : ctx.pindex.nHeight < 2 ^ 31) :
    weight coinValue (replayTxs ctx.pindex.nHeight (turns.map Prod.fst) m) ≤
      weight coinValue m - (st'.nFees - st.nFees) := by
  induction h generalizing m with
  | nil s =>
    rw [sub_self, sub_zero]
    exact le_refl _
  | @cons s t u b bs hturn _ ih =>
    have hupd := hturn.connected.updated
    have hrest := ih (hturn.connected.sub hsub) (hm.replayTx hturn.checked hhigh fun hzero => by omega)
    have hone := weight_replayTx_le hm.nonNeg hupd.outpoints hupd.distinct (fun e he => hsub _ _ (hupd.found e he))
      (createdCoins_nonneg hturn.checked ctx.pindex.nHeight)
    have hout := created_sum hturn.checked ctx.pindex.nHeight
    have hfees := hturn.connected.fees
    rw [if_neg (Bool.eq_false_iff.1 hturn.plain)] at hfees
    have hspent : (b.2.map fun e => e.2.out.value).sum = (b.2.map fun e => coinValue e.2).sum := rfl
    rw [map_cons]
    change weight coinValue (replayTxs ctx.pindex.nHeight (bs.map Prod.fst) (replayTx ctx.pindex.nHeight m b.1)) ≤ _
    linarith

/-- A block raises the weight by its subsidy at most. -/
theorem child_weight {view' : CoinsView} {header : CBlockHeader} {record : Bytes} {cb : CTransaction}
    {mid : ConnectState} (h : ChildConnected P tree view view' tip header undo record ctx cb turns mid st)
    (hsub : Sub view.coins (utxo tree rest))
    (hregular : RegularLedger (utxo tree rest)) (hint : tip.nHeight + 1 < 2 ^ 31) :
    weight coinValue (utxo tree (tip.child header :: rest)) ≤ weight coinValue (utxo tree rest) +
      getBlockSubsidy (tip.nHeight + 1) P := by
  have hheight : ctx.pindex.nHeight = tip.nHeight + 1 := by rw [h.pindex, child_nHeight]
  have hhigh : ctx.pindex.nHeight < 2 ^ 31 := by omega
  have hlow : 1 ≤ ctx.pindex.nHeight := by omega
  obtain ⟨hcb, hcbOk⟩ := h.coinbase
  have hupd := h.first.updated
  have hone := weight_replayTx_le hregular.nonNeg hupd.outpoints hupd.distinct (by simp)
    (createdCoins_nonneg hcbOk ctx.pindex.nHeight)
  have hout := created_sum hcbOk ctx.pindex.nHeight
  have hrest := h.rest.weight_le (h.first.sub hsub) (hregular.replayTx hcbOk hhigh fun hzero => by omega) hlow hhigh
  have hfees : mid.nFees = 0 := by
    rw [h.first.fees, if_pos hcb]
    rfl
  have hreward := h.reward
  have hpenalty := getBlockSubsidyForWeight_le ctx.pindex.nHeight st.nonCoinbaseWeight P
  rw [map_nil, sum_nil] at hone
  rw [utxo, h.vtx, ← h.pindex, ← hheight]
  change weight coinValue (replayTxs ctx.pindex.nHeight (turns.map Prod.fst)
    (replayTx ctx.pindex.nHeight (utxo tree rest) cb)) ≤ _
  linarith

/-- what is known of a block of the chain: the weight it adds -/
def AddsAtMost (P : Params) (tree : BlockTree) (b : CBlockIndex) (rest : List CBlockIndex) : Prop :=
  weight coinValue (utxo tree (b :: rest)) ≤ weight coinValue (utxo tree rest) + if rest = [] then 10 ^ 17 else
    getBlockSubsidy b.nHeight P

theorem Chain.weight_le (h : Chain tree (AddsAtMost P tree) (tip :: rest)) :
    weight coinValue (utxo tree (tip :: rest)) ≤ supplyLimit P tip.nHeight := by
  generalize hc : tip :: rest = c at h
  induction h generalizing tip rest with
  | genesis _ _ hQ =>
    obtain ⟨rfl, rfl⟩ := List.cons.inj hc
    have hzero : weight coinValue (utxo tree []) = 0 := by
      rw [utxo, weight, Finmap.keys_empty, Finset.sum_empty]
    rw [AddsAtMost, hzero, if_pos rfl] at hQ
    simpa [supplyLimit] using hQ
  | @child p tail header _ _ _ hQ ih =>
    obtain ⟨rfl, rfl⟩ := List.cons.inj hc
    have hbelow := ih rfl
    rw [AddsAtMost, if_neg (by simp), child_nHeight] at hQ
    rw [child_nHeight, supplyLimit_succ]
    linarith

/-! ## Fees while a block is connected -/

/-- what a coin is worth to a spender at a height -/
def matureValue (nHeight : ℕ) (c : Coin) : CAmount := if c.mature nHeight then coinValue c else 0

theorem matureValue_nonneg {c : Coin} (h : 0 ≤ coinValue c) : 0 ≤ matureValue nHeight c := by
  unfold matureValue
  split_ifs
  · exact h
  · exact le_refl _

theorem matureValue_le {c : Coin} (h : 0 ≤ coinValue c) : matureValue nHeight c ≤ coinValue c := by
  unfold matureValue
  split_ifs
  · exact le_refl _
  · exact h

/-- the fees so far and the coins that can be spent, within a bound -/
structure FeeInv (nHeight : ℕ) (bound : ℤ) (st : ConnectState) : Prop where
  values : NonNeg coinValue st.view.coins
  fees : 0 ≤ st.nFees
  total : st.nFees + weight (matureValue nHeight) st.view.coins ≤ bound

theorem nonNeg_mature (h : NonNeg coinValue m) (nHeight : ℕ) : NonNeg (matureValue nHeight) m :=
  fun o c hc => matureValue_nonneg (h o c hc)

/-- A coinbase coin of the height itself is not mature, any other coin is worth its value at most. -/
theorem created_mature_le (htx : TxOk tx) (hhigh : nHeight < 2 ^ 31) :
    ((createdCoins tx nHeight).map fun e => matureValue nHeight e.2).sum ≤ if tx.isCoinBase then 0 else
    tx.outputSum := by
  split_ifs with hcb
  · have hzero : ∀ v ∈ (createdCoins tx nHeight).map fun e => matureValue nHeight e.2, v = 0 := by
      intro v hv
      obtain ⟨e, he, rfl⟩ := mem_map.1 hv
      obtain ⟨o, i, -, -, rfl⟩ := mem_createdCoins he
      have hheight : (outputCoin tx nHeight (o, i)).2.nHeight = nHeight := Nat.mod_eq_of_lt hhigh
      have hflag : (outputCoin tx nHeight (o, i)).2.fCoinBase = true := hcb
      refine if_neg ?_
      simp [Coin.mature, hheight, hflag, COINBASE_MATURITY]
    exact le_of_eq (sum_eq_zero hzero)
  · refine le_trans (sum_le_sum fun e he => ?_) (created_sum htx nHeight).le
    exact matureValue_le (createdCoins_nonneg htx nHeight e he)

/-- One turn keeps the invariant: what a transaction leaves over is its fee. -/
theorem FeeInv.step (hI : FeeInv ctx.pindex.nHeight bound st) (htx : TxOk tx) (hhigh : ctx.pindex.nHeight < 2 ^ 31)
    (h : TxConnected ctx st st' tx i spent) : FeeInv ctx.pindex.nHeight bound st' := by
  have hupd := h.updated
  have hcreated := createdCoins_nonneg htx ctx.pindex.nHeight
  have hweight := weight_replayTx_le (nonNeg_mature hI.values ctx.pindex.nHeight) hupd.outpoints
    hupd.distinct hupd.found (fun e he => matureValue_nonneg (hcreated e he))
  have hout := created_mature_le htx hhigh
  have hspent : (spent.map fun e => matureValue ctx.pindex.nHeight e.2).sum =
      (spent.map fun e => e.2.out.value).sum := by
    refine congrArg List.sum (map_congr_left fun e he => ?_)
    exact if_pos (h.coins e he).1
  have hfees := h.fees
  rw [← hupd.replay, hspent] at hweight
  refine ⟨?_, le_trans hI.fees h.fees_le, ?_⟩
  · rw [hupd.coins]
    exact (hI.values.erases _).inserts hcreated
  · have htotal := hI.total
    split_ifs at hfees hout with hcb
    · have hnone : spent = [] := by simpa [spentOutpoints, hcb] using hupd.outpoints
      rw [hnone, map_nil, sum_nil] at hweight
      linarith
    · linarith

/-! ## What a block cannot be refused for -/

/-- The mature inputs of a transaction are worth no more than all mature coins. -/
theorem inputs_mature_le {coins : List Coin} (nHeight : ℕ) (hview : NonNeg coinValue view.coins) (htx : TxOk tx)
    (h : inputCoins view tx = some coins) : (∀ c ∈ coins, 0 ≤ c.out.value) ∧
      (coins.map (matureValue nHeight)).sum ≤ weight (matureValue nHeight) view.coins := by
  obtain ⟨es, hkeys, rfl, hfound⟩ := inputCoins_entries h
  refine ⟨fun c hc => ?_, ?_⟩
  · obtain ⟨e, he, rfl⟩ := mem_map.1 hc
    exact hview _ _ (hfound e he)
  · rw [map_map]
    refine sum_le_weight (nonNeg_mature hview nHeight) ?_ hfound
    rw [hkeys]
    exact htx.distinct

theorem filter_mature_sum (nHeight : ℕ) (coins : List Coin) :
    ((coins.filter fun c => c.mature nHeight).map fun c => c.out.value).sum =
    (coins.map (matureValue nHeight)).sum := by
  induction coins with
  | nil => rfl
  | cons c coins ih =>
    rw [filter_cons, map_cons, sum_cons, matureValue, ← ih]
    split_ifs
    · rfl
    · rw [zero_add]

theorem checkSpend_not_outOfRange (hI : FeeInv ctx.pindex.nHeight bound st) (hbound : bound ≤ MAX_MONEY) (htx : TxOk tx)
    (h : checkSpend ctx st tx = .error e) : ¬ e.OutOfRange := by
  have hfees := hI.fees
  have htotal := hI.total
  simp only [checkSpend, bind_error, mapError_error, mapError_ok, refuseIf_error] at h
  rcases h with ⟨e', hinputs, rfl⟩ | ⟨txfee, hinputs, ⟨hrange, -⟩ | ⟨_, _, hfinal | ⟨_, _, hpure⟩⟩⟩
  · obtain ⟨state, rfl, hreason⟩ := checkTxInputs_inRange htx (fun coins hcoins => by
      obtain ⟨hpos, hle⟩ := inputs_mature_le ctx.pindex.nHeight hI.values htx hcoins
      refine ⟨hpos, ?_⟩
      rw [filter_mature_sum]
      linarith) hinputs
    intro hout
    simp only [inTransaction, blockConsensus, ConnectFailure.OutOfRange] at hout
    simp only [mem_cons, not_mem_nil, or_false] at hreason
    rcases hreason with hr | hr | hr | hr <;> rw [hr] at hout <;> exact absurd hout (by decide)
  · -- the fee is a part of the mature inputs
    exfalso
    obtain ⟨coins, hcoins, hall, hpos, hfee⟩ := checkTxInputs_ok htx hinputs
    obtain ⟨-, hle⟩ := inputs_mature_le ctx.pindex.nHeight hI.values htx hcoins
    have hsum : (coins.map (matureValue ctx.pindex.nHeight)).sum = (coins.map fun c => c.out.value).sum :=
      congrArg List.sum (map_congr_left fun c hc => if_pos (hall c hc).1)
    have hout : 0 ≤ tx.outputSum := sum_nonneg (by simpa using htx.values)
    have hin : moneyRange (st.nFees + txfee) = true := moneyRange_iff.2 ⟨by linarith, by linarith⟩
    simp [hin] at hrange
  · intro hout
    unfold checkFinal at hfinal
    split at hfinal
    · cases hfinal
      exact hout
    · cases hfinal
    · cases hfinal
      exact absurd hout (by simp [blockConsensus, ConnectFailure.OutOfRange])
  · cases hpure

theorem checkScripts_not_outOfRange (h : checkScripts ctx st tx = .error e) : ¬ e.OutOfRange := by
  unfold checkScripts at h
  split_ifs at h
  unfold checkInputScripts runChecks at h
  split_ifs at h
  · cases h
    simp [p2cTimeUnavailable, blockConsensus, ConnectFailure.OutOfRange]
  · split at h
    · cases h
    · next f _ _ =>
      cases h
      exact script_not_outOfRange f

/-- A turn that fails does not fail for a sum out of range. -/
theorem connectTx_not_outOfRange (hI : FeeInv ctx.pindex.nHeight bound st) (hbound : bound ≤ MAX_MONEY) (htx : TxOk tx)
    (h : connectTx ctx st (tx, i) = .error e) : ¬ e.OutOfRange := by
  simp only [connectTx, bind_error, mapError_error, mapError_ok, refuseIf_error, refuseIf_ok] at h
  rcases h with hinputs | ⟨_, _, ⟨-, rfl⟩ | ⟨_, _, hscripts | ⟨_, _, ⟨_, _, rfl⟩ | ⟨_, _, hpure⟩⟩⟩⟩
  · unfold checkInputs at hinputs
    split_ifs at hinputs
    exact checkSpend_not_outOfRange hI hbound htx hinputs
  · simp [blockConsensus, ConnectFailure.OutOfRange]
  · exact checkScripts_not_outOfRange hscripts
  · exact id
  · cases hpure

/-- A block on a view that is worth no more than `MAX_MONEY` does not fail for a sum out of range. -/
theorem connectTxs_not_outOfRange {block : CBlock} (hbody : BodyOk block) (hhigh : ctx.pindex.nHeight < 2 ^ 31)
    (hvalues : NonNeg coinValue view.coins) (hweight : weight coinValue view.coins ≤ bound) (hbound : bound ≤ MAX_MONEY)
    (h : connectTxs ctx block view = .error e) : ¬ e.OutOfRange := by
  have hstart : FeeInv ctx.pindex.nHeight bound (ConnectState.start view) := by
    refine ⟨hvalues, le_refl _, ?_⟩
    have hle : weight (matureValue ctx.pindex.nHeight) view.coins ≤ weight coinValue view.coins := by
      refine Finset.sum_le_sum fun o _ => ?_
      cases hc : view.coins.lookup o with
      | none => simp
      | some c => simpa using matureValue_le (hvalues o c hc)
    change 0 + weight (matureValue ctx.pindex.nHeight) view.coins ≤ bound
    linarith
  simp only [connectTxs, bind_error, refuseIf_error, refuseIf_ok] at h
  rcases h with ⟨-, rfl⟩ | ⟨_, _, hloop | ⟨st, _, hreward | ⟨_, _, hqueue | ⟨_, _, hpure⟩⟩⟩⟩
  · simp [blockConsensus, ConnectFailure.OutOfRange]
  · refine foldlM_error (Q := fun e => ¬ e.OutOfRange) (fun s x t hx hs ht => ?_)
      (fun s x e hx hs he => ?_) hstart hloop
    · have htx := hbody.txs x.1 (fst_mem_of_mem_zipIdx hx)
      obtain ⟨spent, hspent⟩ := connectTx_ok htx ht
      exact hs.step htx hhigh hspent
    · exact connectTx_not_outOfRange hs hbound (hbody.txs x.1 (fst_mem_of_mem_zipIdx hx)) he
  · unfold checkReward at hreward
    split at hreward
    · cases hreward
      exact id
    · simp only [bind_error, mapError_error, refuseIf_error] at hreward
      rcases hreward with ⟨_, _, rfl⟩ | ⟨_, _, -, rfl⟩
      · exact id
      · simp [blockConsensus, ConnectFailure.OutOfRange]
  · unfold checkQueue at hqueue
    split at hqueue
    · next f _ =>
      cases hqueue
      exact script_not_outOfRange f
    · cases hqueue
  · cases hpure

theorem connectBlock_not_outOfRange {env : ConnectEnv} {block b : CBlock} {pindex : CBlockIndex}
    {fJustCheck fCheckPOW fCheckMerkleRoot : Bool} {key : Option Uint256} {height : ℕ}
    (hflag : block.fChecked = true → BodyOk block)
    (hcheck : checkBlock P env.checkSignetBlockSolution block fCheckPOW fCheckMerkleRoot key height = .ok b)
    (hhigh : pindex.nHeight < 2 ^ 31) (hvalues : NonNeg coinValue view.coins)
    (hweight : weight coinValue view.coins ≤ bound)
    (hbound : bound ≤ MAX_MONEY) (h : connectBlock P env block pindex view undo fJustCheck = .error e) :
    ¬ e.OutOfRange := by
  simp only [connectBlock, bind_error, refuseIf_error, refuseIf_ok] at h
  rcases h with ⟨-, rfl⟩ | ⟨_, _, hrecheck | ⟨b', hb', ⟨-, rfl⟩ | ⟨_, _, hbranch⟩⟩⟩
  · exact id
  · obtain ⟨e', he', rfl⟩ := mapError_error.1 hrecheck
    rw [if_pos (checkBlock_again hcheck he')]
    exact id
  · exact id
  · rw [recheckBlock, mapError_ok] at hb'
    obtain ⟨hbody, -, -⟩ := checkBlock_body hflag hb'
    by_cases hgenesis : b'.header.getHash = P.hashGenesisBlock
    · simp only [if_pos hgenesis, bind_error] at hbranch
      rcases hbranch with hg | ⟨_, _, hpure⟩
      · unfold connectGenesis at hg
        split_ifs at hg
        split at hg
        · split_ifs at hg
          · obtain ⟨_, _, rfl⟩ := mapError_error.1 hg
            exact id
          · cases hg
            exact id
        · cases hg
          exact id
      · cases hpure
    · rw [if_neg hgenesis] at hbranch
      unfold connectChild at hbranch
      split at hbranch
      · cases hbranch
        exact id
      · next pprev _ =>
        rw [bind_error] at hbranch
        rcases hbranch with htxs | ⟨st, _, hend⟩
        · exact connectTxs_not_outOfRange hbody hhigh hvalues hweight hbound htxs
        · split_ifs at hend
          · cases hend
          · simp only [bind_error, mapError_error] at hend
            rcases hend with ⟨_, _, rfl⟩ | ⟨_, _, hpure⟩
            · exact id
            · cases hpure

/-! ## The supply -/

theorem ChainRun.genesis_connected (h : ChainRun P tree s) :
    ∃ env r, tree.connectRoot P env = .ok r := by
  induction h with
  | genesis env hconnect => exact ⟨env, _, hconnect⟩
  | step _ _ ih => exact ih

/-- The blocks of every run add no more than their subsidies. -/
theorem ChainRun.adds (hspendable : P.genesisCoinbaseSpendable = true)
    (hvalue : ∀ tx ∈ (tree.body tree.root).vtx, tx.outputSum = 10 ^ 17)
    (h : ChainRun P tree s) : ChainInv tree (AddsAtMost P tree) s := by
  refine h.inv hspendable ?_ fun hconnected hsub hchain hint => ?_
  · -- the genesis block
    obtain ⟨env, r, hconnect⟩ := h.genesis_connected
    obtain ⟨hbody, ⟨tx, hvtx, hcb⟩, -⟩ := connect_genesis hspendable hconnect
    have htx : tx ∈ (tree.body tree.root).vtx := by
      rw [hvtx]
      exact mem_cons_self
    have hnone : ([] : List (COutPoint × Coin)).map Prod.fst = spentOutpoints tx := by
      rw [spentOutpoints, if_pos hcb, map_nil]
    have hempty : NonNeg coinValue (∅ : Utxos) := by
      intro o c hc
      simp at hc
    have hone := weight_replayTx_le hempty hnone nodup_nil (by simp) (createdCoins_nonneg (hbody.txs tx htx) 0)
    have hout := created_sum (hbody.txs tx htx) 0
    rw [hvalue tx htx] at hout
    rw [map_nil, sum_nil] at hone
    have hledger : utxo tree [tree.root] = replayTx 0 ∅ tx := by
      rw [utxo, hvtx]
      rfl
    rw [AddsAtMost, if_pos rfl, hledger, utxo]
    linarith
  · rw [AddsAtMost, if_neg (by simp)]
    exact child_weight hconnected hsub hchain.regular hint

/-- **Money supply.** With 3,000,000 blocks between halvings and a genesis allocation of 10^17, the coins of every state
of a run are worth no more than the allocation and the subsidies up to the tip, which is below `MAX_MONEY` at every
height. So a block that passes `CheckBlock` and extends the tip is not refused because a sum of inputs or of fees is out
of range. -/
theorem supply_bounded {P : Params} {tree : BlockTree} {s : ChainState}
    (hinterval : P.nSubsidyHalvingInterval = 3000000) (hspendable : P.genesisCoinbaseSpendable = true)
    (hvalue : ∀ tx ∈ (tree.body (root tree.genesis)).vtx, (tx.vout.map CTxOut.value).sum = 10 ^ 17)
    (h : ChainRun P tree s) : (∀ height, supplyLimit P height < MAX_MONEY) ∧
    ∃ tip rest, s.chain = tip :: rest ∧ weight coinValue s.view.coins ≤ supplyLimit P tip.nHeight ∧
      ∀ (env : ConnectEnv) (header : CBlockHeader) (block b : CBlock) (fCheckPOW fCheckMerkleRoot fJustCheck : Bool)
        (key : Option Uint256) (height : ℕ) (undo : Option Bytes) (e : ConnectFailure), tip.nHeight + 1 < 2 ^ 31 →
          (block.fChecked = true → BodyOk block) →
        checkBlock P env.checkSignetBlockSolution block fCheckPOW fCheckMerkleRoot key height = .ok b →
        connectBlock P env block (tip.child header) s.view.newCache undo fJustCheck = .error e → ¬ e.OutOfRange := by
  have hinv := h.adds hspendable hvalue
  have hlimit := supplyLimit_lt hinterval
  obtain ⟨tip, rest, hchain⟩ := hinv.chain.exists_tip
  have hsub := hinv.sub
  have hregular := hinv.chain.regular
  have hsound := hinv.chain
  rw [hchain] at hsub hregular hsound
  have hweight : weight coinValue s.view.coins ≤ supplyLimit P tip.nHeight :=
    le_trans (weight_mono hsub hregular.nonNeg) hsound.weight_le
  have hvalues : NonNeg coinValue s.view.coins := fun o c hc => hregular.nonNeg o c (hsub o c hc)
  refine ⟨hlimit, tip, rest, hchain, hweight, ?_⟩
  intro env header block b fCheckPOW fCheckMerkleRoot fJustCheck key height undo e hint hflag hcheck hconnect
  have hhigh : (tip.child header).nHeight < 2 ^ 31 := hint
  have hvalues' : NonNeg coinValue s.view.newCache.coins := hvalues
  exact connectBlock_not_outOfRange hflag hcheck hhigh hvalues' hweight (le_of_lt (hlimit tip.nHeight)) hconnect

end

/-! ## A genesis block and a block on it -/

section
attribute [local instance] toyCrypto

/-- a coinbase that pays an amount to one key -/
def payingCoinbase (nValue : Int64) (version : UInt32) : CTransaction :=
  coinbaseOf (p2pkOutput nValue (Uint256.ofNat 1) toyKey_valid) version rfl

/-- a block with a coinbase only -/
def coinbaseBlock (nValue : Int64) (version : UInt32) : CBlock :=
  ⟨⟨version.toInt32, Uint256.ofNat 9, (payingCoinbase nValue version).getHash, 0, 0, 0⟩,
    [payingCoinbase nValue version], false, false, false⟩

def twoBlockTree : BlockTree where
  genesis := (coinbaseBlock 100000000000000000 1).header
  body b := if b.nHeight = 0 then coinbaseBlock 100000000000000000 1 else coinbaseBlock 150000000000 2
  honest := by
    intro b h
    split_ifs at h
    · cases h
    · cases h

/-- the mainnet parameters, with the genesis block of the tree -/
def twoBlockParams : Params := { mainParams with hashGenesisBlock := twoBlockTree.genesis.getHash }

/-- the first block after the genesis block -/
def firstHeader : CBlockHeader := (coinbaseBlock 150000000000 2).header

abbrev firstBlock : CBlockIndex := twoBlockTree.root.child firstHeader

theorem twoBlocks_views : ∃ r, twoBlockTree.connectRoot twoBlockParams plainEnv = .ok r ∧ ∀ view ∈ [r.1, r.1.newCache],
      ∃ r', twoBlockTree.connect twoBlockParams plainEnv firstBlock view none = .ok r' := by
  obtain ⟨r, hgenesis⟩ : ∃ r, twoBlockTree.connectRoot twoBlockParams plainEnv = .ok r := exists_ok (by decide +kernel)
  have hfirst :
    ((twoBlockTree.connectRoot twoBlockParams plainEnv).toOption.any fun r =>
        [r.1, r.1.newCache].all fun view => (twoBlockTree.connect twoBlockParams plainEnv firstBlock view none).isOk) =
          true := by
    decide +kernel
  rw [hgenesis] at hfirst
  simp only [Except.toOption, Option.any_some] at hfirst
  exact ⟨r, hgenesis, fun view hview => exists_ok (all_eq_true.1 hfirst view hview)⟩

theorem twoBlocks_value : ∀ tx ∈ (twoBlockTree.body twoBlockTree.root).vtx,
    tx.outputSum = 10 ^ 17 := by
  decide +kernel

theorem twoBlocks_connect : ∃ s, ChainRun twoBlockParams twoBlockTree s ∧
    s.chain = [firstBlock, twoBlockTree.root] := by
  obtain ⟨r, hgenesis, hfirst⟩ := twoBlocks_views
  obtain ⟨r', hchild⟩ := hfirst r.1.newCache (by simp)
  classical
  refine ⟨⟨r'.1, _, fun b => if b = firstBlock then r'.2 else none⟩, ChainRun.step
    (ChainRun.genesis plainEnv hgenesis) (ChainStep.connect plainEnv firstHeader ?_ ?_ ?_ fun b hb => if_neg hb), rfl⟩
  · rw [root_nHeight]
    norm_num
  · decide +kernel
  · rw [if_pos rfl]
    exact hchild

/-- The coins after both blocks are worth no more than the allocation and one subsidy. -/
theorem twoBlocks_supply : ∃ s, ChainRun twoBlockParams twoBlockTree s ∧
    weight coinValue s.view.coins ≤ supplyLimit twoBlockParams 1 ∧ supplyLimit twoBlockParams 1 < MAX_MONEY := by
  obtain ⟨s, hrun, hchain⟩ := twoBlocks_connect
  obtain ⟨hlimit, tip, rest, htip, hweight, -⟩ := supply_bounded rfl rfl twoBlocks_value hrun
  rw [hchain] at htip
  rw [← (List.cons.inj htip).1] at hweight
  exact ⟨s, hrun, hweight, hlimit 1⟩

end

end ConnectCoin
