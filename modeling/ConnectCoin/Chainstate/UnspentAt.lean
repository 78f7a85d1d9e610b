/-
The unspent outputs at a block of a tree of valid blocks.

- `NewTxids`: no unspent coin has the txid of a transaction that comes.
- `UnspentAt P tree undo b m`: `ConnectBlock` took the blocks from the genesis block to b, each on the coins of its
  parent, m is left, and the records it wrote are stored.
- `ValidTx`, `ValidTxs`: what that says of each transaction, on the ledger before it, with its undo record as it is read
  back.
Results: `UnspentAt.parent`, the last step read backwards: the ledger of the parent, the stored record, and `ValidTxs`;
`UnspentAt.regular`: every coin is regular, and none is at the null outpoint; `UnspentAt.unique`: the block determines
the ledger.
-/
import ConnectCoin.Chainstate.ChainRun

namespace ConnectCoin

open Lib CBlockIndex List

section
variable [Crypto]

/-! ## Valid blocks -/

/-- no coin that is unspent before a transaction has its txid -/
def NewTxids (nHeight : ℕ) : Utxos → List CTransaction → Prop
  | _, [] => True
  | m, tx :: vtx => (∀ o c, m.lookup o = some c → o.hash ≠ tx.getHash) ∧ NewTxids nHeight (replayTx nHeight m tx) vtx

/-- m is unspent at b: `ConnectBlock` on the coins of each parent, with the records it wrote in undo -/
inductive UnspentAt (P : Params) (tree : BlockTree) (undo : UndoRecords) : CBlockIndex → Utxos → Prop
  | genesis {view : CoinsView} {record : Option Bytes} (env : ConnectEnv)
      (hprev : tree.genesis.hashPrevBlock = Uint256.null)
        (hconnect : tree.connectRoot P env = .ok (view, record)) : UnspentAt P tree undo tree.root view.coins
  | child {p : CBlockIndex} {view view' : CoinsView} (hp : UnspentAt P tree undo p view.coins) (env : ConnectEnv)
      (header : CBlockHeader) (hprev : header.hashPrevBlock = p.getBlockHash) (hint : p.nHeight + 1 < 2 ^ 31)
      (hentry : header.getHash ≠ P.hashGenesisBlock)
      (hconnect : tree.connect P env (p.child header) view none = .ok (view', undo (p.child header)))
      (hnew : NewTxids (p.child header).nHeight view.coins (tree.body (p.child header)).vtx) :
      UnspentAt P tree undo (p.child header) view'.coins

/-- a transaction of a valid block, on the ledger before it; the first one has no undo record -/
structure ValidTx (m : Utxos) (tx : CTransaction) (u : Option CTxUndo) : Prop where
  checked : TxOk tx
  fresh : ∀ o c, m.lookup o = some c → o.hash ≠ tx.getHash
  coinbase : u = none ↔ tx.isCoinBase = true
  undo : ∀ txundo, u = some txundo → tx.prevouts.mapM m.lookup = some txundo

/-- the transactions of a valid block, one after the other -/
def ValidTxs (nHeight : ℕ) : Utxos → List (CTransaction × Option CTxUndo) → Prop
  | _, [] => True
  | m, (tx, u) :: rest => ValidTx m tx u ∧ ValidTxs nHeight (replayTx nHeight m tx) rest

/-- no coin is at the null outpoint, which the inputs of coinbases name -/
def NoNull (m : Utxos) : Prop := ∀ o c, m.lookup o = some c → o.isNull = false

/-! ## Coins and outpoints -/

theorem NoNull.replayTx {m : Utxos} (h : NoNull m) {tx : CTransaction} (htx : TxOk tx) (nHeight : ℕ) :
    NoNull (replayTx nHeight m tx) := by
  intro o c hc
  rcases lookup_inserts hc with hmem | ⟨-, hold⟩
  · obtain ⟨out, i, hi, -, heq⟩ := mem_createdCoins hmem
    obtain ⟨hlt, -⟩ := List.getElem?_eq_some_iff.1 hi
    have hcount := htx.counts.2
    rw [WITNESS_SCALE_FACTOR, MAX_BLOCK_WEIGHT] at hcount
    have hn : o.n = UInt32.ofNat i := congrArg (fun e => e.1.n) heq
    have hne : o.n ≠ NULL_INDEX := by
      intro hnull
      have hnat := congrArg UInt32.toNat (hn.symm.trans hnull)
      rw [UInt32.toNat_ofNat_of_lt' (by rw [UInt32.size]; omega)] at hnat
      change i = 4294967295 at hnat
      omega
    rw [COutPoint.isNull, beq_eq_false_iff_ne.2 hne, Bool.and_false]
  · rw [lookup_erases] at hold
    split_ifs at hold
    exact h o c hold

theorem NoNull.replayTxs {m : Utxos} (h : NoNull m) {vtx : List CTransaction}
    (htxs : ∀ tx ∈ vtx, TxOk tx) (nHeight : ℕ) : NoNull (replayTxs nHeight vtx m) := by
  induction vtx generalizing m with
  | nil => exact h
  | cons tx vtx ih =>
    obtain ⟨htx, htxs⟩ := forall_mem_cons.1 htxs
    exact ih (h.replayTx htx nHeight) htxs

/-! ## The loop of a block -/

variable {ctx : ConnectContext} {turns : List Turn}

theorem LoopRun.coins {st st' : ConnectState} (h : LoopRun ctx st turns st') :
    st'.view.coins = replayTxs ctx.pindex.nHeight (turns.map Prod.fst) st.view.coins := by
  induction h with
  | nil s => rfl
  | cons hturn _ ih =>
    rw [ih, hturn.connected.updated.replay]
    rfl

/-- The turns behind the coinbase, with their records as they are read back. -/
theorem LoopRun.validTxs {st st' : ConnectState} (h : LoopRun ctx st turns st') (hregular : RegularLedger st.view.coins)
    (hlow : 1 ≤ ctx.pindex.nHeight) (hhigh : ctx.pindex.nHeight < 2 ^ 31)
    (hnew : NewTxids ctx.pindex.nHeight st.view.coins (turns.map Prod.fst)) :
    ValidTxs ctx.pindex.nHeight st.view.coins (turns.map fun b => (b.1, some (b.2.map fun e => e.2.stored))) := by
  induction h with
  | nil s => trivial
  | @cons s s' t b bs hturn _ ih =>
    have hupdated := hturn.connected.updated
    have hreplay := hupdated.replay
    obtain ⟨hfresh, hnew⟩ := hnew
    rw [← hreplay] at hnew
    have hregular' := hupdated.regular hregular hturn.checked hlow hhigh
    refine ⟨⟨hturn.checked, hfresh, by simp [hturn.plain], ?_⟩, ?_⟩
    · intro txundo hu
      have hkeys := hupdated.outpoints
      rw [spentOutpoints, if_neg (Bool.eq_false_iff.1 hturn.plain)] at hkeys
      rw [← hkeys, mapM_eq_some, ← Option.some_inj.1 hu]
      rw [List.forall₂_map_left_iff, List.forall₂_map_right_iff, List.forall₂_same]
      intro e he
      have hfound := hupdated.found e he
      rw [hfound, (hregular e.1 e.2 hfound).stored]
    · rw [← hreplay]
      exact ih hregular' hnew

/-- The coins of a connected block are the replayed ones. -/
theorem ChildConnected.replayed {P : Params} {tree : BlockTree} {view view' : CoinsView} {tip : CBlockIndex}
    {header : CBlockHeader} {undo : Option Bytes} {record : Bytes} {cb : CTransaction} {mid st : ConnectState}
    (h : ChildConnected P tree view view' tip header undo record ctx cb turns mid st) :
    view'.coins = replayTxs (tip.child header).nHeight (tree.body (tip.child header)).vtx view.coins := by
  have hmid : mid.view.coins = replayTx ctx.pindex.nHeight view.coins cb := h.first.updated.replay
  rw [h.coins, h.rest.coins, hmid, h.vtx, h.pindex]
  rfl

/-! ## The last step -/

section
variable {P : Params} {tree : BlockTree} {undo : UndoRecords} {b : CBlockIndex} {m : Utxos}

/-- The genesis block leaves its coinbase, or nothing. -/
theorem genesis_coins {env : ConnectEnv} {view : CoinsView} {record : Option Bytes}
    (h : tree.connectRoot P env = .ok (view, record)) :
    view.coins = (if P.genesisCoinbaseSpendable then utxo tree [tree.root] else ∅) ∧ RegularLedger view.coins ∧
      NoNull view.coins := by
  have hempty : RegularLedger (∅ : Utxos) ∧ NoNull ∅ := ⟨fun o c hc => by simp at hc, fun o c hc => by simp at hc⟩
  by_cases hspendable : P.genesisCoinbaseSpendable = true
  · obtain ⟨hbody, ⟨tx, hvtx, hcb⟩, hcoins⟩ := connect_genesis hspendable h
    have htxs := hbody.txs
    rw [hvtx, forall_mem_singleton] at htxs
    rw [if_pos hspendable, hcoins, utxo, hvtx]
    exact ⟨rfl, hempty.1.replayTx htxs (by simp) fun _ => hcb, hempty.2.replayTx htxs _⟩
  · obtain ⟨-, -, b, -, -, -, hbranch⟩ := connectBlock_ok (tree.honest _) h
    rcases hbranch with ⟨-, view', hgenesis, hresult⟩ | ⟨-, hchild⟩
    · rw [connectGenesis, if_neg hspendable] at hgenesis
      have hview : view.coins = view'.coins := congrArg (fun r => r.1.coins) hresult
      rw [hview, ← Except.ok.inj hgenesis, if_neg hspendable]
      exact ⟨rfl, hempty⟩
    · obtain ⟨pprev, _, _, hprev, _⟩ := connectChild_ok hchild
      rw [root_pprev] at hprev
      cases hprev

theorem UnspentAt.built (h : UnspentAt P tree undo b m) : Built b := by
  induction h with
  | genesis env hprev _ => exact Built.root _ hprev
  | child _ env header hprev _ _ _ _ ih => exact ih.child header hprev

theorem UnspentAt.regular (h : UnspentAt P tree undo b m) : RegularLedger m ∧ NoNull m := by
  induction h with
  | genesis env hprev hconnect => exact (genesis_coins hconnect).2
  | @child p view view' hp env header hprev hint hentry hconnect hnew ih =>
    obtain ⟨record, ctx, cb, turns, mid, st, -, hconnected, -, -⟩ := connect_child hentry hconnect
    have hcoins := hconnected.replayed
    rw [hcoins]
    refine ⟨ih.1.replayTxs hconnected.body.txs hint fun hzero => ?_, ih.2.replayTxs hconnected.body.txs _⟩
    rw [child_nHeight] at hzero
    omega

/-- what a valid block did: its transactions in their order, with the undo record that is read for it -/
structure BlockStep (tree : BlockTree) (undo : UndoRecords) (p b : CBlockIndex)
    (m m' : Utxos) (u : CBlockUndo) : Prop where
  body : BodyOk (tree.body b)
  record : (undo b).bind (readUndoRecord p) = some u
  length : u.length + 1 = (tree.body b).vtx.length
  valid : ValidTxs b.nHeight m (withUndo (tree.body b).vtx u)
  coins : m' = replayTxs b.nHeight (tree.body b).vtx m

/-- A block with a parent was connected on what is unspent there. -/
theorem UnspentAt.parent {p : CBlockIndex} {m' : Utxos} (h : UnspentAt P tree undo b m')
    (hp : b.pprev = some p) : ∃ m u, UnspentAt P tree undo p m ∧ BlockStep tree undo p b m m' u := by
  cases h with
  | genesis env hprev _ =>
    rw [root_pprev] at hp
    cases hp
  | @child q view view' hq env header hprev hint hentry hconnect hnew =>
    obtain rfl : q = p := Option.some_inj.1 hp
    obtain ⟨record, ctx, cb, turns, mid, st, hrecord, hconnected, -, -⟩ := connect_child hentry hconnect
    obtain ⟨hread, -⟩ := written_record hconnected.body hconnected.vtx hconnected.first hconnected.rest
      hconnected.written []
    rw [append_nil] at hread
    have hvtx := hconnected.vtx
    have hheight : ctx.pindex.nHeight = (q.child header).nHeight := by rw [hconnected.pindex]
    have hmid : mid.view.coins = replayTx ctx.pindex.nHeight view.coins cb := hconnected.first.updated.replay
    have hlow : 1 ≤ ctx.pindex.nHeight := by
      rw [hheight, child_nHeight]
      omega
    have hhigh : ctx.pindex.nHeight < 2 ^ 31 := by
      rw [hheight, child_nHeight]
      exact hint
    rw [hvtx, ← hheight] at hnew
    obtain ⟨hfresh, hnew⟩ := hnew
    have hregular := hconnected.first.updated.regular hq.regular.1 hconnected.coinbase.2 hlow hhigh
    refine ⟨view.coins, _, hq, hconnected.body, by rw [hrecord, Option.bind_some, hread], ?_, ?_, hconnected.replayed⟩
    · rw [hvtx, length_cons, length_map, length_map]
    · rw [hvtx, withUndo, zip_cons_cons, map_map, zip_map', ← hheight]
      rw [← hmid] at hnew
      refine ⟨⟨hconnected.coinbase.2, hfresh, by simp [hconnected.coinbase.1], by simp⟩, ?_⟩
      rw [← hmid]
      exact hconnected.rest.validTxs hregular hlow hhigh hnew

/-- What is unspent at a block is determined. -/
theorem UnspentAt.unique {m' : Utxos} (h : UnspentAt P tree undo b m) (h' : UnspentAt P tree undo b m') : m = m' := by
  induction h generalizing m' with
  | genesis env hprev hconnect =>
    generalize hb : tree.root = b at h'
    cases h' with
    | genesis env' hprev' hconnect' => rw [(genesis_coins hconnect).1, (genesis_coins hconnect').1]
    | child _ _ _ _ _ _ _ _ =>
      have hpprev := congrArg pprev hb
      simp at hpprev
  | @child p view view' hp env header hprev hint hentry hconnect hnew ih =>
    obtain ⟨m₁, u, hp₁, hstep⟩ := h'.parent rfl
    obtain ⟨record, ctx, cb, turns, mid, st, -, hconnected, -, -⟩ := connect_child hentry hconnect
    rw [hconnected.replayed, hstep.coins, ih hp₁]

/-- Every chain begins at the genesis block. -/
theorem UnspentAt.root (h : UnspentAt P tree undo b m) : b.above b.nHeight = some tree.root := by
  induction h with
  | genesis env hprev _ => rfl
  | child _ env header hprev _ _ _ _ ih => exact ih

end

end

end ConnectCoin
