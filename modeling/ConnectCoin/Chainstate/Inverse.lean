/-
Disconnecting a block takes back what connecting it did.

- `FromView V view`: a coin of the view is a coin of V, or one that the block created, which the cache then holds.
- `Undoable`: one transaction's turn, with its new coins on free places and its spent coins complete.
- `undo_step`: disconnecting one transaction after its turn gives back the coins, up to `Coin.Same`; `undo_run` is the
  whole block, by induction over the turns, the last one first.
Result: `disconnectBlock_connectBlock`.
Premise beside the ones the caller keeps (a height above 0 that fits an int, an honest check flag, no output already
unspent): the coins of height 0 that the block spends are coinbase coins. A record without height and coinbase flag
means another thing to `ApplyTxInUndo`; the height-0 coin of `disconnect_other_height` shows it.
-/
import ConnectCoin.Chainstate.Replay

namespace ConnectCoin

open Lib List

section
variable [Crypto]

/-! ## One transaction -/

/-- a coin of the view is a coin of V or was created since -/
def FromView (V view : CoinsView) : Prop :=
  ∀ o c, view.coins.lookup o = some c → V.coins.lookup o = some c ∨ (o ∈ view.cached ∧ c.nHeight ≠ 0)

/-- no output of the transaction is unspent in V -/
def NewOutputs (V : CoinsView) (tx : CTransaction) : Prop :=
  ∀ i < tx.vout.length, V.coins.lookup ⟨tx.getHash, UInt32.ofNat i⟩ = none

/-- the coins of height 0 in V that the transaction spends are coinbase coins -/
def CompleteInputs (V : CoinsView) (tx : CTransaction) : Prop :=
  ∀ o ∈ spentOutpoints tx, ∀ c, V.coins.lookup o = some c → c.nHeight = 0 → c.fCoinBase = true

/-- a turn that can be taken back -/
structure Undoable (nHeight : ℕ) (view : CoinsView) (tx : CTransaction) (spent : List (COutPoint × Coin))
    (view' : CoinsView) : Prop where
  updated : Updated tx nHeight view (spent.map Prod.snd) view' spent
  checked : TxOk tx
  free : ∀ e ∈ createdCoins tx nHeight, (erases (spent.map Prod.fst) view.coins).lookup e.1 = none
  amounts : ∀ e ∈ spent, e.2.AmountOk
  complete : ∀ e ∈ spent, e.2.nHeight = 0 → e.2.fCoinBase = true

variable {tx : CTransaction} {V : CoinsView} {spent : List (COutPoint × Coin)} {view view' w : CoinsView}
  {pindex : CBlockIndex} {ctx : ConnectContext} {rest : List Turn} {nHeight : ℕ} {e : COutPoint × Coin}
  {cb : CTransaction}

theorem NewOutputs.created (h : NewOutputs V tx) (he : e ∈ createdCoins tx nHeight) : V.coins.lookup e.1 = none := by
  obtain ⟨o, i, ho, -, rfl⟩ := mem_createdCoins he
  exact h i (List.getElem?_eq_some_iff.1 ho).1

/-- New outputs land on free places: a place that is taken holds a coin of V, or one that the cache knows. -/
theorem created_free {view view' : CoinsView} {txundo : CTxUndo} (hupd : Updated tx nHeight view txundo view' spent)
    (hnew : NewOutputs V tx) (hfrom : FromView V view) (hcb : tx.isCoinBase = false ∨ view = V) :
    ∀ e ∈ createdCoins tx nHeight, (erases (spent.map Prod.fst) view.coins).lookup e.1 = none := by
  intro e he
  by_contra hne
  obtain ⟨c, hc⟩ := Option.ne_none_iff_exists'.1 hne
  have hview : view.coins.lookup e.1 = some c := by
    rw [lookup_erases] at hc
    split_ifs at hc
    exact hc
  have hV := hnew.created he
  rcases hcb with hcb | rfl
  · rcases hfrom e.1 c hview with hold | ⟨hcached, -⟩
    · rw [hV] at hold
      cases hold
    · exact hne (hupd.free hcb e he hcached)
  · rw [hV] at hview
    cases hview

/-- One turn of the loop can be taken back, and keeps track of where coins come from. -/
theorem undoable_of_connected {st st' : ConnectState} {i : ℕ} (h : TxConnected ctx st st' tx i spent) (htx : TxOk tx)
    (hlow : 1 ≤ ctx.pindex.nHeight) (hhigh : ctx.pindex.nHeight < 2 ^ 31) (hnew : NewOutputs V tx)
    (hcomplete : CompleteInputs V tx) (hfrom : FromView V st.view) (hcb : tx.isCoinBase = false ∨ st.view = V) :
    Undoable ctx.pindex.nHeight st.view tx spent st'.view ∧ FromView V st'.view := by
  refine ⟨⟨h.updated, htx, created_free h.updated hnew hfrom hcb, fun e he => (h.coins e he).2,
    fun e he hzero => ?_⟩, ?_⟩
  · -- a coin created in this block has the block's height
    have hkey : e.1 ∈ spentOutpoints tx := by
      rw [← h.updated.outpoints]
      exact mem_map_of_mem he
    rcases hfrom e.1 e.2 (h.updated.found e he) with hold | ⟨-, hne⟩
    · exact hcomplete e.1 hkey e.2 hold hzero
    · exact absurd hzero hne
  · intro o c hc
    rw [h.updated.coins] at hc
    rcases lookup_inserts hc with hmem | ⟨-, hold⟩
    · obtain ⟨out, j, -, -, heq⟩ := mem_createdCoins hmem
      refine Or.inr ⟨(h.updated.cached o).2 (Or.inr (mem_map_of_mem hmem)), ?_⟩
      have hcoin : c = (outputCoin tx ctx.pindex.nHeight (out, j)).2 := congrArg Prod.snd heq
      have hheight : c.nHeight = ctx.pindex.nHeight := by
        rw [hcoin]
        exact Nat.mod_eq_of_lt hhigh
      omega
    · rw [lookup_erases] at hold
      split_ifs at hold
      rcases hfrom o c hold with hV | ⟨hcached, hne⟩
      · exact Or.inl hV
      · exact Or.inr ⟨(h.updated.cached o).2 (Or.inl hcached), hne⟩

/-! ## Taking one transaction back -/

/-- equal up to the parts of an output that are no part of its encoding -/
abbrev SameCoins (m n : Utxos) : Prop := Agree Coin.Same m n

/-- the undo record of a turn, as it is read back; none for the first transaction -/
def undoOf (tx : CTransaction) (spent : List (COutPoint × Coin)) : Option CTxUndo :=
  if tx.isCoinBase then none else some (spent.map fun e => e.2.stored)

theorem stored_restorable {c : Coin} (hpayload : c.out.serializePayload.isOk = true) (hamount : c.AmountOk)
    (hmeta : c.nHeight = 0 → c.fCoinBase = true) : c.stored.Restorable where
  metadata := hmeta
  spendable := CTxOut.stored_spendable hpayload
  unspent := by
    have hvalue : c.stored.out.nValue = c.out.nValue := c.out.stored_nValue
    have hpos := hamount.1
    rw [Coin.isSpent, CTxOut.isNull, hvalue, beq_eq_false_iff_ne]
    intro hnull
    rw [CTxOut.value, hnull] at hpos
    exact absurd hpos (by decide)

/-- After the outputs have left, a turn's inputs are free places. -/
theorem inputs_free (h : Undoable nHeight view tx spent view') (hsame : SameCoins w.coins view'.coins)
    (he : e ∈ spent) : (erases ((createdCoins tx nHeight).map Prod.fst) w.coins).lookup e.1 = none := by
  rw [lookup_erases]
  split_ifs with hcreated
  · rfl
  · have hrel := hsame e.1
    rw [h.updated.coins, transfer, lookup_inserts_of_notMem hcreated, lookup_erases, if_pos (mem_map_of_mem he)] at hrel
    cases hw : w.coins.lookup e.1 with
    | none => rfl
    | some c =>
      rw [hw] at hrel
      cases hrel

/-- The outputs of a turn are there as the block made them. -/
theorem outputs_clean (h : Undoable pindex.nHeight view tx spent view') (hhigh : pindex.nHeight < 2 ^ 31)
    (hsame : SameCoins w.coins view'.coins) : (spendOutputs pindex tx (true, w)).1 = true := by
  have hcount : tx.vout.length ≤ 2 ^ 32 := by
    have hle := h.checked.counts.2
    rw [WITNESS_SCALE_FACTOR, MAX_BLOCK_WEIGHT] at hle
    omega
  have hnodup : ((createdCoins tx pindex.nHeight).map Prod.fst).Nodup := createdCoins_nodup hcount
  refine spendLoop_clean hhigh hnodup fun e he => ?_
  have hrel := hsame e.1
  rw [h.updated.coins, transfer, lookup_inserts_of_nodup hnodup he] at hrel
  cases hw : w.coins.lookup e.1 with
  | none =>
    rw [hw] at hrel
    cases hrel
  | some c =>
    rw [hw] at hrel
    cases hrel with
    | some hc => exact ⟨c, rfl, hc⟩

/-- Disconnecting one transaction after its turn. -/
theorem undo_step (h : Undoable pindex.nHeight view tx spent view') (hhigh : pindex.nHeight < 2 ^ 31)
    (hpayloads : ∀ e ∈ spent, e.2.out.serializePayload.isOk = true) (hsame : SameCoins w.coins view'.coins) :
    ∃ w', disconnectTx pindex (true, w) (tx, undoOf tx spent) = .ok (true, w') ∧ SameCoins w'.coins view.coins ∧
      w'.bestBlock = w.bestBlock := by
  have hclean := outputs_clean h hhigh hsame
  obtain ⟨hbest, hcoins⟩ := spendOutputs_coins pindex tx (true, w)
  generalize hmid : spendOutputs pindex tx (true, w) = mid at hclean hbest hcoins
  obtain ⟨flag, mid⟩ := mid
  dsimp only at hclean hbest hcoins
  subst hclean
  rw [h.updated.coins] at hsame
  unfold disconnectTx undoOf
  split_ifs with hcb
  · -- the coinbase spends nothing
    have hnone : spent = [] := by simpa [spentOutpoints, hcb] using h.updated.outpoints
    subst hnone
    refine ⟨mid, by rw [hmid], ?_, hbest⟩
    have hback : SameCoins (inserts [] (erases ((createdCoins tx pindex.nHeight).map Prod.fst) w.coins)) view.coins :=
      hsame.undo h.free (by simp) (by simp)
    rw [hcoins]
    exact hback
  · have hkeys : tx.prevouts = spent.map Prod.fst := by
      rw [h.updated.outpoints, spentOutpoints, if_neg hcb]
    have hlen : (spent.map fun e => e.2.stored).length = tx.vin.length := by
      have hl := congrArg List.length hkeys
      simpa using hl.symm
    have hzip : tx.prevouts.zip (spent.map fun e => e.2.stored) = spent.map fun e => (e.1, e.2.stored) := by
      rw [hkeys, zip_map']
    have hes : ∀ e ∈ (spent.map fun e => (e.1, e.2.stored)).reverse, e.2.Restorable ∧
        ∃ c ∈ spent, e = (c.1, c.2.stored) := by
      intro e he
      obtain ⟨c, hc, rfl⟩ := mem_map.1 (mem_reverse.1 he)
      exact ⟨stored_restorable (hpayloads c hc) (h.amounts c hc) (h.complete c hc), c, hc, rfl⟩
    have hnodup : ((spent.map fun e => (e.1, e.2.stored)).reverse.map Prod.fst).Nodup := by
      rw [map_reverse, nodup_reverse, map_map]
      exact h.updated.distinct
    have hfree : ∀ e ∈ (spent.map fun e => (e.1, e.2.stored)).reverse, mid.coins.lookup e.1 = none := by
      intro e he
      obtain ⟨-, c, hc, rfl⟩ := hes e he
      rw [hcoins]
      rw [← h.updated.coins] at hsame
      exact inputs_free (e := c) h hsame hc
    obtain ⟨w', hw'⟩ := restoreLoop_clean (fun e he => (hes e he).1) hnodup hfree
    obtain ⟨hcoins', hbest'⟩ := restoreLoop_ok (fun e he => (hes e he).1) hw'
    refine ⟨w', ?_, ?_, hbest'.trans hbest⟩
    · simp only [hmid, restoreInputs, hlen, hzip, ne_eq, not_true, if_false, hw']
    · rw [hcoins', hcoins]
      refine hsame.undo h.free (fun k hk => ?_) (fun e he => ?_)
      · rw [map_reverse, mem_reverse, map_map]
        exact hk
      · obtain ⟨-, c, hc, rfl⟩ := hes e he
        exact ⟨c.2, h.updated.found c hc, c.2.stored_same⟩

/-! ## The whole block -/

/-- the turns of a block on a view -/
abbrev Turns (nHeight : ℕ) : CoinsView → List Turn → CoinsView → Prop :=
  Trace fun view b view' => Undoable nHeight view b.1 b.2 view'

/-- Disconnecting all transactions, the last first. -/
theorem undo_run {view view' : CoinsView} {turns : List Turn} (h : Turns pindex.nHeight view turns view')
    (hhigh : pindex.nHeight < 2 ^ 31) (hpayloads : ∀ b ∈ turns, ∀ e ∈ b.2, e.2.out.serializePayload.isOk = true)
    {w : CoinsView} (hsame : SameCoins w.coins view'.coins) :
    ∃ w', (turns.map fun b => (b.1, undoOf b.1 b.2)).reverse.foldlM (disconnectTx pindex) (true, w) = .ok (true, w') ∧
      SameCoins w'.coins view.coins ∧ w'.bestBlock = w.bestBlock := by
  induction h with
  | nil view => exact ⟨w, rfl, hsame, rfl⟩
  | cons hfirst _ ih =>
    obtain ⟨hp, hps⟩ := forall_mem_cons.1 hpayloads
    obtain ⟨mid, hmid, hmid_same, hmid_best⟩ := ih hps hsame
    obtain ⟨w', hw', hw'_same, hw'_best⟩ := undo_step hfirst hhigh hp hmid_same
    refine ⟨w', ?_, hw'_same, hw'_best.trans hmid_best⟩
    rw [map_cons, reverse_cons, foldlM_append, hmid]
    exact foldlM_cons_ok.2 ⟨_, hw', rfl⟩

/-- The turns behind the coinbase can be taken back. -/
theorem rest_turns {st st' : ConnectState} (hlow : 1 ≤ ctx.pindex.nHeight) (hhigh : ctx.pindex.nHeight < 2 ^ 31)
    (hnew : ∀ b ∈ rest, NewOutputs V b.1) (hcomplete : ∀ b ∈ rest, CompleteInputs V b.1) (hfrom : FromView V st.view)
    (h : LoopRun ctx st rest st') : Turns ctx.pindex.nHeight st.view rest st'.view := by
  induction h with
  | nil s => exact Trace.nil _
  | cons hturn _ ih =>
    obtain ⟨hn, hnew⟩ := forall_mem_cons.1 hnew
    obtain ⟨hc, hcomplete⟩ := forall_mem_cons.1 hcomplete
    obtain ⟨hundoable, hfrom'⟩ :=
      undoable_of_connected hturn.connected hturn.checked hlow hhigh hn hc hfrom (Or.inl hturn.plain)
    exact Trace.cons hundoable (ih hnew hcomplete hfrom')

/-- The turns of a block on V can be taken back. -/
theorem connect_turns {mid st : ConnectState} (hlow : 1 ≤ ctx.pindex.nHeight)
    (hhigh : ctx.pindex.nHeight < 2 ^ 31) (hcb : TxOk cb) (hnew : ∀ tx ∈ cb :: rest.map Prod.fst, NewOutputs V tx)
    (hcomplete : ∀ tx ∈ cb :: rest.map Prod.fst, CompleteInputs V tx)
    (hfirst : TxConnected ctx (ConnectState.start V) mid cb 0 []) (hrest : LoopRun ctx mid rest st) :
    Turns ctx.pindex.nHeight V ((cb, []) :: rest) st.view := by
  obtain ⟨hcbNew, hnew⟩ := forall_mem_cons.1 hnew
  obtain ⟨hcbComplete, hcomplete⟩ := forall_mem_cons.1 hcomplete
  obtain ⟨hundoable, hfrom⟩ := undoable_of_connected hfirst hcb hlow hhigh hcbNew hcbComplete
    (fun o c hc => Or.inl hc) (Or.inr rfl)
  exact Trace.cons hundoable (rest_turns hlow hhigh (forall_mem_map.1 hnew) (forall_mem_map.1 hcomplete) hfrom hrest)

/-- The loop of `DisconnectBlock` over the turns of a block. -/
theorem disconnectTxs_turns (h : Turns pindex.nHeight view ((cb, []) :: rest) view') (hhigh : pindex.nHeight < 2 ^ 31)
    (hcb : cb.isCoinBase = true) (hrest : ∀ b ∈ rest, b.1.isCoinBase = false)
    (hpayloads : ∀ b ∈ rest, ∀ e ∈ b.2, e.2.out.serializePayload.isOk = true) (hsame : SameCoins w.coins view'.coins) :
    ∃ w', disconnectTxs pindex (cb :: rest.map Prod.fst) (rest.map fun b => b.2.map fun e => e.2.stored) w =
      .ok (true, w') ∧ SameCoins w'.coins view.coins := by
  have hpairs : withUndo (cb :: rest.map Prod.fst) (rest.map fun b => b.2.map fun e => e.2.stored) =
      ((cb, []) :: rest).map fun b => (b.1, undoOf b.1 b.2) := by
    rw [withUndo, zip_cons_cons, map_cons, undoOf, if_pos hcb, map_map, zip_map']
    refine congrArg _ (map_congr_left fun b hb => ?_)
    simp [undoOf, hrest b hb]
  obtain ⟨w', hw', hsame', -⟩ := undo_run h hhigh (forall_mem_cons.2 ⟨by simp, hpayloads⟩) hsame
  refine ⟨w', ?_, hsame'⟩
  rw [disconnectTxs, if_neg (by simp), hpairs]
  exact hw'

theorem SameCoins.refl (m : Utxos) : SameCoins m m := by
  intro o
  cases m.lookup o with
  | none => exact Option.Rel.none
  | some c => exact Option.Rel.some ⟨⟨rfl, rfl, rfl, rfl⟩, rfl, rfl⟩

/-- **Connect and disconnect are inverse.** For a block of height at least 1 that was connected for good on V, with no
output unspent in V already and the height-0 coins it spends coinbase coins, disconnecting with the record that was
written, read back from its file, is clean and gives the coins of V and its best block. -/
theorem disconnectBlock_connectBlock {P : Params} {env : ConnectEnv} {block : CBlock} {pindex : CBlockIndex}
    {V V' : CoinsView} {record : Bytes} (hflag : block.fChecked = true → BodyOk block) (hlow : 1 ≤ pindex.nHeight)
    (hhigh : pindex.nHeight < 2 ^ 31) (hnew : ∀ tx ∈ block.vtx, NewOutputs V tx)
    (hcomplete : ∀ tx ∈ block.vtx, CompleteInputs V tx)
    (hconnect : connectBlock P env block pindex V none false = .ok (V', some record)) (t : Bytes) :
    ∃ W, disconnectBlock block pindex V' (some (record ++ t)) = .ok (.DISCONNECT_OK, W) ∧ W.bestBlock = V.bestBlock ∧
      SameCoins W.coins V.coins := by
  obtain ⟨-, hbest, b, hbody, hvtx, -, hbranch⟩ := connectBlock_ok hflag hconnect
  rcases hbranch with ⟨-, _, -, hresult⟩ | ⟨-, hchild⟩
  · -- the genesis block writes no record
    simp at hresult
  obtain ⟨pprev, st, record', hprev, htxs, hwrite, rfl, hrecord⟩ := connectChild_ok hchild
  cases hrecord
  obtain ⟨hloop, -⟩ := connectTxs_ok hbody htxs
  obtain ⟨cb, rest, mid, hcb, hcbOk, hblock, hfirst, hrest⟩ := connectLoop_run hbody hloop
  rw [← hvtx, hblock] at hnew hcomplete
  have hturns := connect_turns hlow hhigh hcbOk hnew hcomplete hfirst hrest
  obtain ⟨hread, hpayloads⟩ := written_record hbody hblock hfirst hrest hwrite t
  obtain ⟨W, hW, hsame⟩ := disconnectTxs_turns (w := st.view.setBestBlock pindex.getBlockHash) hturns hhigh hcb
    (Trace.forall_mem (fun _ _ _ hb => hb.plain) hrest) hpayloads (SameCoins.refl _)
  refine ⟨W.setBestBlock pprev.getBlockHash, ?_, ?_, hsame⟩
  · rw [← hblock, hvtx] at hW
    simp only [disconnectBlock, hprev, Option.bind_some, hread, hW]
    rfl
  · rw [hprev] at hbest
    exact hbest

end

/-! ## A coin of height 0 that is no coinbase coin -/

section
attribute [local instance] toyCrypto

/-- an earlier transaction -/
def earlierTxid : Uint256 := Uint256.ofNat 7

/-- a coin that is no coinbase coin -/
def plainCoin (nHeight : ℕ) (h : nHeight < 2 ^ 31) : Coin :=
  ⟨p2pkOutput 5 (Uint256.ofNat 1) toyKey_valid, false, nHeight, h⟩

/-- spends output n of the earlier transaction -/
def spendEarlier (n : UInt32) : CTransaction where
  vin := [⟨⟨earlierTxid, n⟩, [], 0, []⟩]
  vout := [(plainCoin 0 (Nat.two_pow_pos 31)).out]
  version := 1
  nLockTime := 0
  payloads := by decide
  vin_size := by simp
  vout_size := by decide
  scriptSig_size := by simp
  stack_size := by simp

def plainCoinbase : CTransaction := coinbaseOf (p2pkOutput 0 (Uint256.ofNat 1) toyKey_valid) 2 (by decide)

/-- a block that spends output n of the earlier transaction -/
def spendingBlock (n : UInt32) : CBlock :=
  ⟨⟨4, Uint256.ofNat 9, (computeMerkleRoot [plainCoinbase.getHash, (spendEarlier n).getHash]).1, 0, 0, 0⟩,
    [plainCoinbase, spendEarlier n], false, false, false⟩

def spendingPrev : CBlockIndex := CBlockIndex.mk ⟨5, Uint256.null, Uint256.null, 0, 0, 0⟩ 5 0 none none

def spendingIndex (n : UInt32) : CBlockIndex := CBlockIndex.mk (spendingBlock n).header 6 0 (some spendingPrev) none

/-- output 0 was made at height 5, output 1 says height 0 -/
def earlierView : CoinsView :=
  ((CoinsView.empty.withCoin ⟨earlierTxid, 0⟩ (plainCoin 5 (by decide)) (by decide)).withCoin ⟨earlierTxid,
    1⟩ (plainCoin 0 (Nat.two_pow_pos 31)) (by decide)).setBestBlock spendingPrev.getBlockHash

theorem spendingBlock_connects {n : UInt32} (hn : n = 0 ∨ n = 1) :
    ∃ V' record, connectBlock mainParams plainEnv (spendingBlock n) (spendingIndex n) earlierView none false =
      .ok (V', some record) := by
  have hrun :
    ((connectBlock mainParams plainEnv (spendingBlock n) (spendingIndex n) earlierView none false).toOption.bind
      Prod.snd).isSome = true := by
    rcases hn with rfl | rfl
    · decide +kernel
    · decide +kernel
  obtain ⟨record, hrecord⟩ := Option.isSome_iff_exists.1 hrun
  obtain ⟨⟨V', undo⟩, hconnect, rfl⟩ := Option.bind_eq_some_iff.1 hrecord
  refine ⟨V', record, ?_⟩
  generalize connectBlock mainParams plainEnv (spendingBlock n) (spendingIndex n) earlierView none false =
    r at hconnect ⊢
  cases r with
  | error e => cases hconnect
  | ok r =>
    cases hconnect
    rfl

theorem spendingBlock_new {n : UInt32} (hn : n = 0 ∨ n = 1) :
    ∀ tx ∈ (spendingBlock n).vtx, NewOutputs earlierView tx := by
  unfold NewOutputs
  rcases hn with rfl | rfl
  · decide +kernel
  · decide +kernel

/-- The block of output 0 is taken back. -/
theorem spendingBlock_restored :
    ∃ V' record W, connectBlock mainParams plainEnv (spendingBlock 0) (spendingIndex 0) earlierView none false =
      .ok (V', some record) ∧ disconnectBlock (spendingBlock 0) (spendingIndex 0) V' (some (record ++ [])) = .ok
        (.DISCONNECT_OK, W) ∧ W.bestBlock = earlierView.bestBlock ∧ SameCoins W.coins earlierView.coins := by
  obtain ⟨V', record, hconnect⟩ := spendingBlock_connects (Or.inl rfl)
  have hcomplete : ∀ tx ∈ (spendingBlock 0).vtx, CompleteInputs earlierView tx := by
    intro tx htx o ho c hc hzero
    have hheight : ∀ tx ∈ (spendingBlock 0).vtx,
        ∀ o ∈ spentOutpoints tx, (earlierView.coins.lookup o).all (fun c => c.nHeight ≠ 0) := by
      decide +kernel
    have hne := hheight tx htx o ho
    simp [hc, hzero] at hne
  obtain ⟨W, hW, hbest, hsame⟩ := disconnectBlock_connectBlock (by simp [spendingBlock]) (by decide) (by decide)
    (spendingBlock_new (Or.inl rfl)) hcomplete hconnect []
  exact ⟨V', record, W, hconnect, hW, hbest, hsame⟩

/-- The block of output 1 comes back with the height of output 0: a record of height 0 that is no coinbase's has no
height. -/
theorem disconnect_other_height :
    1 ≤ (spendingIndex 1).nHeight ∧ (∀ tx ∈ (spendingBlock 1).vtx, NewOutputs earlierView tx) ∧
    ∃ V' record W, connectBlock mainParams plainEnv (spendingBlock 1) (spendingIndex 1) earlierView none false =
      .ok (V', some record) ∧ disconnectBlock (spendingBlock 1) (spendingIndex 1) V' (some record) = .ok
        (.DISCONNECT_OK, W) ∧ ¬ SameCoins W.coins earlierView.coins := by
  refine ⟨by decide, spendingBlock_new (Or.inr rfl), ?_⟩
  obtain ⟨V', record, hconnect⟩ := spendingBlock_connects (Or.inr rfl)
  have hrun :
    ((connectBlock mainParams plainEnv (spendingBlock 1) (spendingIndex 1) earlierView none false).toOption.bind
    fun r =>
      (disconnectBlock (spendingBlock 1) (spendingIndex 1) r.1 r.2).toOption.map fun d =>
        (d.1, (d.2.coins.lookup ⟨earlierTxid, 1⟩).map Coin.nHeight)) = some (.DISCONNECT_OK, some 5) := by
    decide +kernel
  simp only [hconnect, Except.toOption, Option.bind_some] at hrun
  cases hdisconnect : disconnectBlock (spendingBlock 1) (spendingIndex 1) V' (some record) with
  | error e => simp [hdisconnect] at hrun
  | ok d =>
    simp only [hdisconnect, Option.map_some, Option.some_inj, Prod.mk.injEq] at hrun
    refine ⟨V', record, d.2, hconnect, by rw [hdisconnect, ← hrun.1], fun hsame => ?_⟩
    obtain ⟨c, hc, hfive⟩ := Option.map_eq_some_iff.1 hrun.2
    have hrel := hsame ⟨earlierTxid, 1⟩
    have hold : earlierView.coins.lookup ⟨earlierTxid, 1⟩ = some (plainCoin 0 (by decide)) := Finmap.lookup_insert _
    rw [hc, hold] at hrel
    cases hrel with
    | some hcoin =>
      have hheight := hcoin.2.1
      rw [hfive] at hheight
      exact absurd hheight (by decide)

end

end ConnectCoin
