/-
Disconnecting a block (`ApplyTxInUndo` and `DisconnectBlock` in `validation.cpp`, `AccessByTxid` in `coins.cpp`,
`ReadBlockUndo` in `node/blockstorage.cpp`).

- `readUndoRecord`: the stored record, with its checksum.
- `spendOutput`, `applyTxInUndo`: one output taken out, one input's coin put back; `disconnectTx`: one turn of the loop,
  which runs from the last transaction to the first.
- `disconnectBlock`: the view and whether it is clean; `DISCONNECT_FAILED` leaves no usable view.
`SpendCoin` also finds an entry that the cache holds as spent: the loop then sees an empty coin, which no output of a
block equals.
Results: what each function does to the coins: `spendOutputs_coins`, `applyTxInUndo_ok`, `restoreInputs_ok`,
`disconnectTx_ok`.
-/
import ConnectCoin.Chainstate.ConnectBlock

namespace ConnectCoin

open Lib List

section
variable [Crypto]

/-! ## The undo record -/

/-- `ReadBlockUndo`: none for bytes that do not parse, or whose checksum differs -/
def readUndoRecord (pprev : CBlockIndex) (file : Bytes) : Option CBlockUndo :=
  match readBlockUndo file with
  | .error _ => none
  | .ok (blockundo, rest) =>
    if rest.take 32 = undoChecksum pprev (file.take (file.length - rest.length)) then some blockundo else none

/-! ## One coin -/

/-- the results that come with a view -/
inductive DisconnectResult where
  | DISCONNECT_OK
  | DISCONNECT_UNCLEAN
  deriving DecidableEq

inductive DisconnectFailure where
  | DISCONNECT_FAILED
  | exception (what : String)
  deriving DecidableEq

def MIN_TRANSACTION_OUTPUT_WEIGHT : ℕ := WITNESS_SCALE_FACTOR * 9
def MAX_OUTPUTS_PER_BLOCK : ℕ := MAX_BLOCK_WEIGHT / MIN_TRANSACTION_OUTPUT_WEIGHT

/-- the loop of `AccessByTxid` from output n on -/
def accessByTxidFrom (view : CoinsView) (txid : Uint256) : ℕ → ℕ → Option Coin
  | 0, _ => none
  | fuel + 1, n =>
    match view.coins.lookup ⟨txid, UInt32.ofNat n⟩ with
    | some alternate => some alternate
    | none => accessByTxidFrom view txid fuel (n + 1)

/-- `AccessByTxid` -/
def accessByTxid (view : CoinsView) (txid : Uint256) : Option Coin := accessByTxidFrom view txid MAX_OUTPUTS_PER_BLOCK 0

/-- the height and the coinbase flag, taken from another output of the transaction if the record has none -/
def withMetadata (undo : Coin) (view : CoinsView) (out : COutPoint) : Option Coin :=
  if undo.nHeight = 0 ∧ undo.fCoinBase = false then
    (accessByTxid view out.hash).map fun alternate =>
      { undo with nHeight := alternate.nHeight, fCoinBase := alternate.fCoinBase, height_lt := alternate.height_lt }
  else some undo

/-- `ApplyTxInUndo`; the flag is fClean of the loop -/
def applyTxInUndo (st : Bool × CoinsView) (restored : COutPoint × Coin) : Except DisconnectFailure (Bool × CoinsView) :=
  let (out, undo) := restored
  let fClean := !st.2.haveCoin out
  match withMetadata undo st.2 out with
  | none => .error .DISCONNECT_FAILED
  | some coin => do
    let view ← (st.2.addCoin out coin (!fClean)).mapError .exception
    return (st.1 && fClean, view)

variable (pindex : CBlockIndex)

/-- the coin is the output as the block has it -/
def matchesOutput (tx : CTransaction) (output : CTxOut) (coin : Coin) : Bool :=
  output.Same coin.out && pindex.nHeight == coin.nHeight && tx.isCoinBase == coin.fCoinBase

/-- one turn of the loop over the outputs -/
def spendOutput (isBIP30Exception : Bool) (tx : CTransaction) (st : Bool × CoinsView)
    (output : CTxOut × ℕ) : Bool × CoinsView :=
  if output.1.isUnspendable then st
  else match st.2.spendCoin (outputCoin tx pindex.nHeight output).1 with
    | none => (st.1 && isBIP30Exception, st.2)
    | some (coin, view) => (st.1 && (matchesOutput pindex tx output.1 coin || isBIP30Exception), view)

/-! ## DisconnectBlock -/

/-- the two blocks whose coinbases were overwritten later -/
def isBIP30Unspendable (blockHash : Uint256) (blockHeight : ℕ) : Bool :=
  (blockHeight == 91722 &&
    blockHash == Uint256.ofNat 0x00000000000271a2dc26e7667f8419f2e15416dc6955e5a6c6cdf3f2574dd08e) ||
  (blockHeight == 91812 &&
    blockHash == Uint256.ofNat 0x00000000000af0aed4792b1acee3d966af36cf5def14935db8de83d6f9306f2f)

/-- the outputs of a transaction leave the view -/
def spendOutputs (tx : CTransaction) (st : Bool × CoinsView) : Bool × CoinsView :=
  let isBIP30Exception := tx.isCoinBase && isBIP30Unspendable pindex.getBlockHash pindex.nHeight
  tx.vout.zipIdx.foldl (spendOutput pindex isBIP30Exception tx) st

/-- the inputs of a transaction come back, the last first -/
def restoreInputs (tx : CTransaction) (txundo : CTxUndo) (st : Bool × CoinsView) :
    Except DisconnectFailure (Bool × CoinsView) :=
  if txundo.length ≠ tx.vin.length then .error .DISCONNECT_FAILED
  else (tx.prevouts.zip txundo).reverse.foldlM applyTxInUndo st

/-- one turn of the loop over the transactions; the first one has no undo record -/
def disconnectTx (st : Bool × CoinsView) (txu : CTransaction × Option CTxUndo) :
    Except DisconnectFailure (Bool × CoinsView) :=
  match txu.2 with
  | none => .ok (spendOutputs pindex txu.1 st)
  | some txundo => restoreInputs txu.1 txundo (spendOutputs pindex txu.1 st)

/-- each transaction of a block with its undo record -/
def withUndo (vtx : List CTransaction) (vtxundo : CBlockUndo) : List (CTransaction × Option CTxUndo) :=
  vtx.zip (none :: vtxundo.map some)

/-- the loop over the transactions, the last first -/
def disconnectTxs (vtx : List CTransaction) (vtxundo : CBlockUndo) (view : CoinsView) :
    Except DisconnectFailure (Bool × CoinsView) :=
  if vtxundo.length + 1 ≠ vtx.length then .error .DISCONNECT_FAILED
  else (withUndo vtx vtxundo).reverse.foldlM (disconnectTx pindex) (true, view)

/-- `DisconnectBlock`, with the bytes stored at the block's undo position -/
def disconnectBlock (block : CBlock) (pindex : CBlockIndex) (view : CoinsView) (file : Option Bytes) :
    Except DisconnectFailure (DisconnectResult × CoinsView) :=
  match pindex.pprev with
  | none => .error (.exception "no block before")
  | some pprev =>
    match file.bind (readUndoRecord pprev) with
    | none => .error .DISCONNECT_FAILED
    | some blockundo => do
      let (fClean, view) ← disconnectTxs pindex block.vtx blockundo view
      return (if fClean then .DISCONNECT_OK else .DISCONNECT_UNCLEAN, view.setBestBlock pprev.getBlockHash)

/-! ## What the functions do to the coins -/

variable {view : CoinsView} {pprev : CBlockIndex} {record : Bytes} {es : List (COutPoint × Coin)} {undo : Coin}
  {out : COutPoint}
  {u : CBlockUndo} {block : CBlock} (pindex : CBlockIndex) (exc : Bool) (tx : CTransaction) (st : Bool × CoinsView)

theorem withMetadata_eq (h : undo.nHeight = 0 → undo.fCoinBase = true) (view : CoinsView) (out : COutPoint) :
    withMetadata undo view out = some undo := by
  rw [withMetadata, if_neg]
  intro hlegacy
  exact absurd (h hlegacy.1) (by simp [hlegacy.2])

/-- A complete coin that can be spent is put back, whatever was there; nothing else changes. -/
theorem applyTxInUndo_ok {st st' : Bool × CoinsView} (hmeta : undo.nHeight = 0 → undo.fCoinBase = true)
    (hspendable : undo.out.isUnspendable = false) (h : applyTxInUndo st (out, undo) = .ok st') :
    st'.2.coins = st.2.coins.insert out undo ∧ st'.2.bestBlock = st.2.bestBlock := by
  simp only [applyTxInUndo, withMetadata_eq hmeta, bind_ok, mapError_ok, pure, Except.pure, Except.ok.injEq] at h
  obtain ⟨view, hadd, rfl⟩ := h
  obtain ⟨hbest, hcases⟩ := CoinsView.addCoin_ok hadd
  rcases hcases with ⟨hun, -⟩ | ⟨-, -, hcoins, -⟩
  · rw [hspendable] at hun
    cases hun
  · exact ⟨hcoins, hbest⟩

/-- On a free place it is put back cleanly. -/
theorem applyTxInUndo_clean (hmeta : undo.nHeight = 0 → undo.fCoinBase = true)
    (hspendable : undo.out.isUnspendable = false) (hspent : undo.isSpent = false)
    (hfree : view.coins.lookup out = none) :
    applyTxInUndo (true, view) (out, undo) = .ok (true, view.withCoin out undo hspent) := by
  have hhave : view.haveCoin out = false := by simp [CoinsView.haveCoin, hfree]
  simp [applyTxInUndo, withMetadata_eq hmeta, hhave, CoinsView.addCoin, hspent, hspendable, pure, Except.pure,
    bind, Except.bind, Except.mapError]

theorem spendOutput_coins (output : CTxOut × ℕ) :
    (spendOutput pindex exc tx st output).2.bestBlock = st.2.bestBlock ∧ (spendOutput pindex exc tx st output).2.coins =
      if output.1.isUnspendable then st.2.coins else st.2.coins.erase (outputCoin tx pindex.nHeight output).1 := by
  unfold spendOutput
  split_ifs with hun
  · exact ⟨rfl, rfl⟩
  · cases hspend : st.2.spendCoin (outputCoin tx pindex.nHeight output).1 with
    | none =>
      rw [CoinsView.spendCoin, Option.map_eq_none_iff] at hspend
      exact ⟨rfl, (erase_of_lookup_eq_none hspend).symm⟩
    | some p =>
      obtain ⟨coin, view⟩ := p
      obtain ⟨-, rfl⟩ := CoinsView.spendCoin_eq_some hspend
      exact ⟨rfl, rfl⟩

/-- the loop over the outputs, from any of them on -/
theorem spendLoop_coins (outputs : List (CTxOut × ℕ)) (st : Bool × CoinsView) :
    (outputs.foldl (spendOutput pindex exc tx) st).2.bestBlock = st.2.bestBlock ∧
    (outputs.foldl (spendOutput pindex exc tx) st).2.coins =
      erases ((coinsOf tx pindex.nHeight outputs).map Prod.fst) st.2.coins := by
  induction outputs generalizing st with
  | nil => exact ⟨rfl, rfl⟩
  | cons output outputs ih =>
    obtain ⟨hbest, hcoins⟩ := spendOutput_coins pindex exc tx st output
    obtain ⟨hbest', hcoins'⟩ := ih (spendOutput pindex exc tx st output)
    rw [foldl_cons, hbest', hcoins', hcoins, coinsOf_cons]
    refine ⟨hbest, ?_⟩
    split_ifs with hun
    · rfl
    · rw [map_cons, erases_cons]

theorem spendOutputs_coins : (spendOutputs pindex tx st).2.bestBlock = st.2.bestBlock ∧
    (spendOutputs pindex tx st).2.coins = erases ((createdCoins tx pindex.nHeight).map Prod.fst) st.2.coins :=
  spendLoop_coins pindex _ tx tx.vout.zipIdx st

variable {pindex}

/-- Outputs that are there as the block made them leave no mark. -/
theorem spendLoop_clean {exc : Bool} {tx : CTransaction} (hheight : pindex.nHeight < 2 ^ 31)
    {outputs : List (CTxOut × ℕ)} (hnodup : ((coinsOf tx pindex.nHeight outputs).map Prod.fst).Nodup)
    (hthere : ∀ e ∈ coinsOf tx pindex.nHeight outputs, ∃ c, view.coins.lookup e.1 = some c ∧ c.Same e.2) :
    (outputs.foldl (spendOutput pindex exc tx) (true, view)).1 = true := by
  induction outputs generalizing view with
  | nil => rfl
  | cons output outputs ih =>
    rw [foldl_cons]
    rw [coinsOf_cons] at hnodup hthere
    unfold spendOutput
    split_ifs at hnodup hthere ⊢ with hun
    · exact ih hnodup hthere
    · rw [map_cons, nodup_cons] at hnodup
      obtain ⟨⟨c, hc, hsame⟩, hrest⟩ := forall_mem_cons.1 hthere
      have hmatch : matchesOutput pindex tx output.1 c = true := by
        obtain ⟨hout, hh, hcb⟩ := hsame
        have hback : output.1.Same c.out := hout.flip
        have hnum : c.nHeight = pindex.nHeight := hh.trans (Nat.mod_eq_of_lt hheight)
        have hflag : c.fCoinBase = tx.isCoinBase := hcb
        simp [matchesOutput, hback, hnum, hflag]
      simp only [CoinsView.spendCoin, hc, Option.map_some, hmatch, Bool.true_or, Bool.and_true]
      refine ih hnodup.2 fun e he => ?_
      have hne : e.1 ≠ (outputCoin tx pindex.nHeight output).1 := fun heq => hnodup.1 (heq ▸ mem_map_of_mem he)
      rw [CoinsView.without_coins, Finmap.lookup_erase_ne hne]
      exact hrest e he

/-- what a coin needs to be put back as it is -/
structure Coin.Restorable (c : Coin) : Prop where
  metadata : c.nHeight = 0 → c.fCoinBase = true
  spendable : c.out.isUnspendable = false
  unspent : c.isSpent = false

/-- The loop over the inputs puts all coins back. -/
theorem restoreLoop_ok {st st' : Bool × CoinsView} (hes : ∀ e ∈ es, e.2.Restorable)
    (h : es.foldlM applyTxInUndo st = .ok st') :
    st'.2.coins = inserts es st.2.coins ∧ st'.2.bestBlock = st.2.bestBlock := by
  induction es generalizing st with
  | nil =>
    cases h
    exact ⟨rfl, rfl⟩
  | cons e es ih =>
    obtain ⟨mid, hmid, hrest⟩ := foldlM_cons_ok.1 h
    obtain ⟨he, hes⟩ := forall_mem_cons.1 hes
    obtain ⟨hcoins, hbest⟩ := applyTxInUndo_ok he.metadata he.spendable hmid
    obtain ⟨hcoins', hbest'⟩ := ih hes hrest
    rw [hcoins', hbest', hcoins]
    exact ⟨rfl, hbest⟩

/-- On free and distinct places it goes through without a mark. -/
theorem restoreLoop_clean (hes : ∀ e ∈ es, e.2.Restorable) (hnodup : (es.map Prod.fst).Nodup)
    (hfree : ∀ e ∈ es, view.coins.lookup e.1 = none) :
    ∃ view', es.foldlM applyTxInUndo (true, view) = .ok (true, view') := by
  induction es generalizing view with
  | nil => exact ⟨view, rfl⟩
  | cons e es ih =>
    obtain ⟨he, hes⟩ := forall_mem_cons.1 hes
    obtain ⟨hfirst, hrest⟩ := forall_mem_cons.1 hfree
    rw [map_cons, nodup_cons] at hnodup
    have hfree' : ∀ e' ∈ es, (view.withCoin e.1 e.2 he.unspent).coins.lookup e'.1 = none :=
      lookup_insert_free hnodup.1 hrest
    obtain ⟨view', hview'⟩ := ih hes hnodup.2 hfree'
    exact ⟨view', foldlM_cons_ok.2 ⟨_, applyTxInUndo_clean he.metadata he.spendable he.unspent hfirst, hview'⟩⟩

/-! ## The stored record -/

/-- A record that was written is read back, whatever follows it in the file. -/
theorem readUndoRecord_written (h : writeBlockUndo pprev u none = .ok record) (hsize : u.length ≤ MAX_SIZE)
    (hsizes : ∀ txundo ∈ u, txundo.length ≤ MAX_SIZE) (hamounts : ∀ txundo ∈ u, ∀ c ∈ txundo, c.AmountOk) (t : Bytes) :
    readUndoRecord pprev (record ++ t) = some (u.map (List.map Coin.stored)) := by
  simp only [writeBlockUndo, bind_ok, pure, Except.pure, Except.ok.injEq] at h
  obtain ⟨bytes, hbytes, rfl⟩ := h
  have hread := readBlockUndo_serialize hbytes hsize hsizes hamounts (undoChecksum pprev bytes ++ t)
  have hconsumed : (bytes ++ (undoChecksum pprev bytes ++ t)).take
      ((bytes ++ (undoChecksum pprev bytes ++ t)).length - (undoChecksum pprev bytes ++ t).length) = bytes := by
    have hl : (bytes ++ (undoChecksum pprev bytes ++ t)).length - (undoChecksum pprev bytes ++ t).length =
        bytes.length := by simp
    rw [hl, take_left]
  have hlen : (undoChecksum pprev bytes).length = 32 := Uint256.bytes_length _
  have hchecksum : (undoChecksum pprev bytes ++ t).take 32 = undoChecksum pprev bytes := take_left' hlen
  rw [readUndoRecord, append_assoc, hread]
  simp only [hconsumed, hchecksum, if_true]

/-- The payloads of a record that was written could be written. -/
theorem written_payloads (h : writeBlockUndo pprev u none = .ok record) :
    ∀ txundo ∈ u, ∀ c ∈ txundo, c.out.serializePayload.isOk = true := by
  simp only [writeBlockUndo, CBlockUndo.serialize, bind_ok] at h
  obtain ⟨_, ⟨_, hpayloads, _⟩, _⟩ := h
  intro txundo hu c hc
  exact serializePayloads_ok hpayloads c (mem_flatten.2 ⟨txundo, hu, hc⟩)

/-- The record of a block that was connected is read back, and every coin in it had a payload that could be written. -/
theorem written_record {ctx : ConnectContext} {cb : CTransaction} {rest : List Turn} {mid st : ConnectState}
    (hbody : BodyOk block) (hblock : block.vtx = cb :: rest.map Prod.fst)
    (hfirst : TxConnected ctx (ConnectState.start view) mid cb 0 [])
    (hrest : LoopRun ctx mid rest st) (hwrite : writeBlockUndo pprev st.vtxundo none = .ok record) (t : Bytes) :
    readUndoRecord pprev (record ++ t) = some (rest.map fun b => b.2.map fun e => e.2.stored) ∧
      ∀ b ∈ rest, ∀ e ∈ b.2, e.2.out.serializePayload.isOk = true := by
  have hundo : st.vtxundo = rest.map fun b => b.2.map Prod.snd := by
    rw [hrest.vtxundo, hfirst.vtxundo]
    rfl
  rw [hundo] at hwrite
  have hsize : (rest.map fun b => b.2.map Prod.snd).length ≤ MAX_SIZE := by
    have hle := hbody.count
    rw [hblock, length_cons, length_map, WITNESS_SCALE_FACTOR, MAX_BLOCK_WEIGHT] at hle
    rw [length_map, MAX_SIZE]
    omega
  have hsizes : ∀ txundo ∈ rest.map fun b => b.2.map Prod.snd, txundo.length ≤ MAX_SIZE := by
    intro txundo hu
    obtain ⟨b, hb, rfl⟩ := mem_map.1 hu
    have hle := (hrest.spent b hb).1
    rw [WITNESS_SCALE_FACTOR, MAX_BLOCK_WEIGHT] at hle
    rw [length_map, MAX_SIZE]
    omega
  have hamounts : ∀ txundo ∈ rest.map fun b => b.2.map Prod.snd, ∀ c ∈ txundo, c.AmountOk := by
    intro txundo hu c hc
    obtain ⟨b, hb, rfl⟩ := mem_map.1 hu
    obtain ⟨e, he, rfl⟩ := mem_map.1 hc
    exact (hrest.spent b hb).2 e he
  refine ⟨?_, fun b hb e he => ?_⟩
  · rw [readUndoRecord_written hwrite hsize hsizes hamounts t, map_map]
    simp only [Function.comp_def, map_map]
  · exact written_payloads hwrite (b.2.map Prod.snd) (mem_map_of_mem hb) e.2 (mem_map_of_mem he)

/-! ## The block -/

theorem withUndo_fst {vtx : List CTransaction} {vtxundo : CBlockUndo} (h : vtxundo.length + 1 = vtx.length) :
    (withUndo vtx vtxundo).map Prod.fst = vtx := by
  rw [withUndo, map_fst_zip]
  simp [← h]

/-- A disconnected block: the record was read, and the loop ended. -/
theorem disconnectBlock_ok {view' : CoinsView} {file : Option Bytes} {r : DisconnectResult}
    (h : disconnectBlock block pindex view file = .ok (r, view')) :
    ∃ pprev f u st, pindex.pprev = some pprev ∧ file = some f ∧ readUndoRecord pprev f = some u ∧
      u.length + 1 = block.vtx.length ∧ (withUndo block.vtx u).reverse.foldlM (disconnectTx pindex) (true,
      view) = .ok st ∧ view' = st.2.setBestBlock pprev.getBlockHash := by
  unfold disconnectBlock at h
  cases hprev : pindex.pprev with
  | none => simp [hprev] at h
  | some pprev =>
    cases hu : file.bind (readUndoRecord pprev) with
    | none => simp [hprev, hu] at h
    | some u =>
      obtain ⟨f, rfl, hread⟩ := Option.bind_eq_some_iff.1 hu
      simp only [hprev, hu, bind_ok, disconnectTxs, ite_error_ok, ne_eq, not_not, pure, Except.pure, Except.ok.injEq,
        Prod.mk.injEq] at h
      obtain ⟨st, ⟨hlen, hloop⟩, -, hview⟩ := h
      exact ⟨pprev, f, u, st, rfl, rfl, hread, hlen, hloop, hview.symm⟩

end

end ConnectCoin
