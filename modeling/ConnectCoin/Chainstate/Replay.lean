/-
The coins that a list of transactions leaves, whatever caches and undo records do: the abstract side of connecting and
disconnecting.

- `replayTx`, `replayTxs`: transactions as transfers of a ledger (`Lib.transfer`).
- `Coin.Regular`: what every coin is that a checked transaction makes: a typed output, not negative, with complete
  metadata.
- `Fits nHeight m txs`: the undo records of the transactions hold the coins of the ledgers before them.
Results, for a view that is below a ledger (`Lib.Sub`): connecting keeps it below the replayed ledger (`LoopRun.sub`)
and leaves records that fit (`LoopRun.fits`); disconnecting with records that fit brings it below the ledger before,
cleanly or not (`disconnectTxs_sub`).
-/
import ConnectCoin.Chainstate.DisconnectBlock

namespace ConnectCoin

open Lib List

section
variable [Crypto]

/-! ## Replaying transactions -/

/-- a transaction as a transfer -/
def replayTx (nHeight : ℕ) (m : Utxos) (tx : CTransaction) : Utxos :=
  transfer (spentOutpoints tx) (createdCoins tx nHeight) m

/-- the transactions of a block -/
def replayTxs (nHeight : ℕ) (vtx : List CTransaction) (m : Utxos) : Utxos := vtx.foldl (replayTx nHeight) m

variable {tx : CTransaction} {nHeight : ℕ} {m : Utxos}

theorem Updated.replay {view view' : CoinsView} {txundo : CTxUndo} {spent : List (COutPoint × Coin)}
    (h : Updated tx nHeight view txundo view' spent) : view'.coins = replayTx nHeight view.coins tx := by
  rw [h.coins, h.outpoints]
  rfl

/-! ## Regular coins -/

/-- what the coins of checked transactions are -/
structure Coin.Regular (c : Coin) : Prop where
  typed : isTypedOutput c.out = true
  value : 0 ≤ c.out.value
  metadata : c.nHeight = 0 → c.fCoinBase = true

theorem serializePayload_of_typed {o : CTxOut} (h : isTypedOutput o = true) : o.serializePayload.isOk = true :=
  serializePayload_isOk.2 (Or.inr (isTypedOutput_cases h))

theorem spendable_of_typed {o : CTxOut} (h : isTypedOutput o = true) : o.isUnspendable = false := by
  have hspendable := CTxOut.stored_spendable (serializePayload_of_typed h)
  rwa [CTxOut.stored_of_typed h] at hspendable

/-- The outputs of a checked transaction can all be spent. -/
theorem createdCoins_eq (htx : TxOk tx) (nHeight : ℕ) :
    createdCoins tx nHeight = tx.vout.zipIdx.map (outputCoin tx nHeight) := by
  rw [createdCoins, coinsOf, filter_eq_self.2]
  intro o ho
  rw [spendable_of_typed (htx.typed o.1 (fst_mem_of_mem_zipIdx ho))]
  rfl

namespace Coin.Regular

theorem stored {c : Coin} (h : c.Regular) : c.stored = c := by
  rw [Coin.stored, CTxOut.stored_of_typed h.typed]

theorem restorable {c : Coin} (h : c.Regular) : c.Restorable where
  metadata := h.metadata
  spendable := spendable_of_typed h.typed
  unspent := by
    have hpos := h.value
    rw [Coin.isSpent, CTxOut.isNull, beq_eq_false_iff_ne]
    intro hnull
    rw [CTxOut.value, hnull] at hpos
    exact absurd hpos (by decide)

end Coin.Regular

/-- a ledger of regular coins -/
def RegularLedger (m : Utxos) : Prop := ∀ o c, m.lookup o = some c → c.Regular

theorem mem_createdCoins {e : COutPoint × Coin} (h : e ∈ createdCoins tx nHeight) :
    ∃ o i, tx.vout[i]? = some o ∧ o.isUnspendable = false ∧ e = outputCoin tx nHeight (o, i) := by
  obtain ⟨output, houtput, rfl⟩ := mem_map.1 h
  obtain ⟨hmem, hun⟩ := mem_filter.1 houtput
  exact ⟨output.1, output.2, mem_zipIdx_iff_getElem?.1 hmem, by simpa using hun, rfl⟩

theorem createdCoins_regular (htx : TxOk tx) (hhigh : nHeight < 2 ^ 31)
    (hmeta : nHeight = 0 → tx.isCoinBase = true) : ∀ e ∈ createdCoins tx nHeight, e.2.Regular := by
  intro e he
  obtain ⟨o, i, ho, -, rfl⟩ := mem_createdCoins he
  have hmem := mem_of_getElem? ho
  refine ⟨htx.typed o hmem, htx.values o hmem, fun hzero => hmeta ?_⟩
  have hmod : nHeight % 2 ^ 31 = 0 := hzero
  rwa [Nat.mod_eq_of_lt hhigh] at hmod

theorem RegularLedger.replayTx (h : RegularLedger m) (htx : TxOk tx)
    (hhigh : nHeight < 2 ^ 31) (hmeta : nHeight = 0 → tx.isCoinBase = true) :
    RegularLedger (replayTx nHeight m tx) := by
  intro o c hc
  rcases lookup_inserts hc with hmem | ⟨-, hold⟩
  · exact createdCoins_regular htx hhigh hmeta (o, c) hmem
  · rw [lookup_erases] at hold
    split_ifs at hold
    exact h o c hold

/-- A transaction behind the genesis block leaves regular coins. -/
theorem Updated.regular {view view' : CoinsView} {txundo : CTxUndo} {spent : List (COutPoint × Coin)}
    (h : Updated tx nHeight view txundo view' spent) (hregular : RegularLedger view.coins) (htx : TxOk tx)
    (hlow : 1 ≤ nHeight) (hhigh : nHeight < 2 ^ 31) : RegularLedger view'.coins := by
  rw [h.replay]
  exact hregular.replayTx htx hhigh fun hzero => by omega

theorem RegularLedger.replayTxs (h : RegularLedger m) {vtx : List CTransaction}
    (htxs : ∀ tx ∈ vtx, TxOk tx) (hhigh : nHeight < 2 ^ 31) (hmeta : nHeight = 0 → ∀ tx ∈ vtx, tx.isCoinBase = true) :
    RegularLedger (replayTxs nHeight vtx m) := by
  induction vtx generalizing m with
  | nil => exact h
  | cons tx vtx ih =>
    obtain ⟨htx, htxs⟩ := forall_mem_cons.1 htxs
    refine ih (h.replayTx htx hhigh fun hzero => hmeta hzero tx mem_cons_self) htxs fun hzero tx' htx' => ?_
    exact hmeta hzero tx' (mem_cons_of_mem _ htx')

/-! ## Connecting -/

/-- the undo records hold the coins of the ledgers before the transactions -/
def Fits (nHeight : ℕ) : Utxos → List (CTransaction × Option CTxUndo) → Prop
  | _, [] => True
  | m, (tx, u) :: rest =>
    (∀ txundo, u = some txundo → ∀ e ∈ tx.prevouts.zip txundo, m.lookup e.1 = some e.2) ∧
      Fits nHeight (replayTx nHeight m tx) rest

variable {ctx : ConnectContext} {pindex : CBlockIndex} {turns : List Turn} {st st' : ConnectState}

theorem TxConnected.sub {i : ℕ} {spent : List (COutPoint × Coin)} (h : TxConnected ctx st st' tx i spent)
    (hsub : Sub st.view.coins m) : Sub st'.view.coins (replayTx ctx.pindex.nHeight m tx) := by
  rw [h.updated.replay]
  exact hsub.transfer _ _

theorem LoopRun.sub (h : LoopRun ctx st turns st') (hsub : Sub st.view.coins m) :
    Sub st'.view.coins (replayTxs ctx.pindex.nHeight (turns.map Prod.fst) m) := by
  induction h generalizing m with
  | nil s => exact hsub
  | cons hturn _ ih => exact ih (hturn.connected.sub hsub)

/-- The records that connecting leaves fit every regular ledger that the view was below. -/
theorem LoopRun.fits (h : LoopRun ctx st turns st') (hsub : Sub st.view.coins m) (hm : RegularLedger m)
    (hlow : 1 ≤ ctx.pindex.nHeight) (hhigh : ctx.pindex.nHeight < 2 ^ 31) :
    Fits ctx.pindex.nHeight m (turns.map fun b => (b.1, some (b.2.map fun e => e.2.stored))) := by
  induction h generalizing m with
  | nil s => trivial
  | cons hturn _ ih =>
    refine ⟨?_, ih (hturn.connected.sub hsub) (hm.replayTx hturn.checked hhigh fun hzero => by omega)⟩
    intro txundo hu e he
    cases hu
    have hkeys : _ = _ := hturn.connected.updated.outpoints
    rw [spentOutpoints, if_neg (Bool.eq_false_iff.1 hturn.plain)] at hkeys
    rw [← hkeys, zip_map'] at he
    obtain ⟨c, hc, rfl⟩ := mem_map.1 he
    have hfound := hsub _ _ (hturn.connected.updated.found c hc)
    rw [hfound, (hm _ _ hfound).stored]

/-! ## Disconnecting -/

theorem disconnectTx_sub {u : Option CTxUndo} {st st' : Bool × CoinsView} (hm : RegularLedger m)
    (hsub : Sub st.2.coins (replayTx pindex.nHeight m tx))
    (hfits : ∀ txundo, u = some txundo → ∀ e ∈ tx.prevouts.zip txundo, m.lookup e.1 = some e.2)
    (h : disconnectTx pindex st (tx, u) = .ok st') : Sub st'.2.coins m := by
  have hcoins := (spendOutputs_coins pindex tx st).2
  cases u with
  | none =>
    cases h
    have hback : Sub (inserts [] (erases ((createdCoins tx pindex.nHeight).map Prod.fst) st.2.coins)) m :=
      hsub.undo (by simp)
    rw [hcoins]
    exact hback
  | some txundo =>
    have hes : ∀ e ∈ (tx.prevouts.zip txundo).reverse, m.lookup e.1 = some e.2 :=
      fun e he => hfits txundo rfl e (mem_reverse.1 he)
    simp only [disconnectTx, restoreInputs, ite_error_ok] at h
    obtain ⟨hcoins', -⟩ := restoreLoop_ok (fun e he => (hm _ _ (hes e he)).restorable) h.2
    rw [hcoins', hcoins]
    exact hsub.undo hes

/-- Disconnecting with records that fit, cleanly or not. -/
theorem disconnectLoop_sub {txs : List (CTransaction × Option CTxUndo)} {st st' : Bool × CoinsView}
    (hm : RegularLedger m) (htxs : ∀ p ∈ txs, TxOk p.1) (hlow : 1 ≤ pindex.nHeight) (hhigh : pindex.nHeight < 2 ^ 31)
    (hfits : Fits pindex.nHeight m txs) (hsub : Sub st.2.coins (replayTxs pindex.nHeight (txs.map Prod.fst) m))
    (h : txs.reverse.foldlM (disconnectTx pindex) st = .ok st') : Sub st'.2.coins m := by
  induction txs generalizing m st' with
  | nil =>
    cases h
    exact hsub
  | cons p txs ih =>
    obtain ⟨hp, htxs⟩ := forall_mem_cons.1 htxs
    rw [reverse_cons, foldlM_append, bind_ok] at h
    obtain ⟨mid, hmid, hlast⟩ := h
    obtain ⟨last, hlast, hend⟩ := foldlM_cons_ok.1 hlast
    cases hend
    have hmid_sub := ih (hm.replayTx hp hhigh fun hzero => by omega) htxs hfits.2 hsub hmid
    exact disconnectTx_sub hm hmid_sub hfits.1 hlast

end

end ConnectCoin
