/-
Reorganisations leave no trace: the coin view after any sequence of blocks connected and disconnected at the tip.

- `GuardedRun`: a `ChainRun` in which blocks are connected with the BIP30 check on.
Results:
- `reorganised_exactly`: the view holds exactly the ledger of its chain, so two histories that end in one chain end in
  the same coins.
- `spends_balanced`: an outpoint was created as often as it was spent, once more if it is unspent.
-/
import ConnectCoin.Chainstate.Inverse
import ConnectCoin.Chainstate.Supply
import ConnectCoin.Chainstate.UnspentAt

namespace ConnectCoin

open Lib CBlockIndex List

section
variable [Crypto]

/-- a run of steps; a block is connected only where outputs are looked for that would overwrite unspent ones -/
inductive GuardedRun (P : Params) (tree : BlockTree) : ChainState → Prop
  | genesis {view : CoinsView} {record : Option Bytes} (env : ConnectEnv)
      (h : tree.connectRoot P env = .ok (view, record)) : GuardedRun P tree ⟨view, [tree.root], fun _ => none⟩
  | step {s s' : ChainState} (hs : GuardedRun P tree s) (hstep : ChainStep P tree s s')
      (hguard : ∀ b p rest, s.chain = p :: rest → s'.chain = b :: p :: rest → enforceBIP30 P b p = true) :
    GuardedRun P tree s'

/-- the outpoints of the coins that a block creates -/
def createdIn (tree : BlockTree) (b : CBlockIndex) : List COutPoint :=
  (tree.body b).vtx.flatMap fun tx => (createdCoins tx b.nHeight).map Prod.fst

/-- the outpoints that a block spends -/
def spentIn (tree : BlockTree) (b : CBlockIndex) : List COutPoint := (tree.body b).vtx.flatMap spentOutpoints

/-- a chain of checked blocks, nothing more -/
abbrev PlainChain (tree : BlockTree) : List CBlockIndex → Prop := Chain tree fun _ _ => True

/-- a block takes the coins below it to its own in balance, and its record takes them back -/
structure Reversible (tree : BlockTree) (b : CBlockIndex) (below : List CBlockIndex) (file : Bytes) : Prop where
  chain : PlainChain tree (b :: below)
  disconnects : ∀ view : CoinsView, view.coins = utxo tree (b :: below) →
    ∃ view', disconnectBlock (tree.body b) b view (some file) = .ok (.DISCONNECT_OK, view') ∧
    SameCoins view'.coins (utxo tree below)
  balanced : ∀ o, (createdIn tree b).count o + held (utxo tree below) o = (spentIn tree b).count o +
    held (utxo tree (b :: below)) o

variable {P : Params} {tree : BlockTree} {s : ChainState} {p tip : CBlockIndex} {rest : List CBlockIndex}
  {cb : CTransaction} {turns : List Turn} {view view' : CoinsView} {header : CBlockHeader}

/-! ## One block -/

theorem vout_le {tx : CTransaction} (h : TxOk tx) : tx.vout.length ≤ 2 ^ 32 := by
  have hle := h.counts.2
  rw [WITNESS_SCALE_FACTOR, MAX_BLOCK_WEIGHT] at hle
  omega

/-- Over the turns of a block, an outpoint that was there or is created is spent or still there. -/
theorem Turns.balanced {nHeight : ℕ} {V W : CoinsView} (h : Turns nHeight V turns W) (o : COutPoint) :
    ((turns.map Prod.fst).flatMap fun tx => (createdCoins tx nHeight).map Prod.fst).count o + held V.coins o =
      ((turns.map Prod.fst).flatMap spentOutpoints).count o + held W.coins o := by
  induction h with
  | nil view => rfl
  | cons hturn _ ih =>
    have hone := count_transfer hturn.updated.distinct (fun k hk => ?_)
      (createdCoins_nodup (vout_le hturn.checked)) hturn.free o
    · rw [← hturn.updated.coins, hturn.updated.outpoints] at hone
      simp only [map_cons, flatMap_cons, count_append]
      omega
    · obtain ⟨e, he, rfl⟩ := mem_map.1 hk
      rw [hturn.updated.found e he]
      rfl

/-- The block that was connected last, with the BIP30 check on. -/
theorem ChildConnected.reversible {record : Bytes} {ctx : ConnectContext} {mid st : ConnectState}
    (h : ChildConnected P tree view view' tip header none record ctx cb turns mid st)
    (hbelow : PlainChain tree (tip :: rest)) (hcoins : view.coins = utxo tree (tip :: rest))
    (hint : (tip.child header).nHeight < 2 ^ 31) (hfresh : overwrites view (tree.body (tip.child header)) = false) :
    Reversible tree (tip.child header) (tip :: rest) record := by
  obtain ⟨hread, hpayloads⟩ := written_record h.body h.vtx h.first h.rest h.written []
  rw [append_nil] at hread
  have hturns : Turns (tip.child header).nHeight view ((cb, []) :: turns) st.view := by
    have hheight : ctx.pindex.nHeight = (tip.child header).nHeight := by rw [h.pindex]
    have hpos := child_nHeight tip header
    rw [← hheight]
    refine connect_turns (by omega) (by omega) h.coinbase.2 (fun tx htx i hi => ?_)
      (fun tx _ o _ c hc => ?_) h.first h.rest
    · rw [← h.vtx] at htx
      simp only [overwrites, any_eq_false, mem_range, CoinsView.haveCoin, Bool.not_eq_true, Option.isSome_eq_false_iff,
        Option.isNone_iff_eq_none] at hfresh
      exact hfresh tx htx i hi
    · rw [hcoins] at hc
      exact (hbelow.regular o c hc).metadata
  have hafter : st.view.coins = utxo tree (tip.child header :: tip :: rest) := by
    rw [← h.coins, h.replayed, hcoins]
    rfl
  refine ⟨.child header hbelow h.body hint trivial, fun w hw => ?_, fun o => ?_⟩
  · have hsame : SameCoins w.coins st.view.coins := by
      rw [hw, hafter]
      exact SameCoins.refl _
    obtain ⟨w', hw', hback⟩ := disconnectTxs_turns hturns hint h.coinbase.1
      (Trace.forall_mem (fun _ _ _ ht => ht.plain) h.rest) hpayloads hsame
    rw [← h.vtx] at hw'
    refine ⟨w'.setBestBlock tip.getBlockHash, ?_, hcoins ▸ hback⟩
    simp only [disconnectBlock, child_pprev, Option.bind_some, hread, hw']
    rfl
  · have hturns := hturns.balanced o
    rwa [map_cons, ← h.vtx, hcoins, hafter] at hturns

/-! ## The run -/

/-- the view holds the ledger of its chain, and every block above the genesis block has a record that takes it back -/
structure Settled (tree : BlockTree) (s : ChainState) : Prop where
  inv : ChainInv tree (fun _ _ => True) s
  coins : s.view.coins = utxo tree s.chain
  stored : ∀ b ∈ s.chain, b = tree.root ∨ ∃ file, s.undo b = some file
  reversible : ∀ b file, s.undo b = some file → ∃ below, Reversible tree b below file

theorem Settled.block (h : Settled tree s) (hmem : p.child header ∈ s.chain)
    (hchain : PlainChain tree (p.child header :: rest)) :
    ∃ file, s.undo (p.child header) = some file ∧ Reversible tree (p.child header) rest file := by
  rcases h.stored _ hmem with hroot | ⟨file, hfile⟩
  · have hprev := congrArg pprev hroot
    simp at hprev
  · obtain ⟨below, hblock⟩ := h.reversible _ _ hfile
    obtain rfl : rest = below := hchain.unique hblock.chain
    exact ⟨file, hfile, hblock⟩

/-- The tip can be disconnected, and what is left is the ledger below. -/
theorem Settled.disconnect (h : Settled tree s) (hs : s.chain = tip :: p :: rest) :
    ∃ view', disconnectBlock (tree.body tip) tip s.view.newCache (s.undo tip) = .ok (.DISCONNECT_OK, view') ∧
      view'.coins = utxo tree (p :: rest) := by
  have hchain : PlainChain tree (tip :: p :: rest) := hs ▸ h.inv.chain
  obtain ⟨header, rfl⟩ : ∃ header, tip = p.child header := by
    cases hchain with
    | child header _ _ _ _ => exact ⟨header, rfl⟩
  obtain ⟨file, hfile, hblock⟩ := h.block (by rw [hs]; exact mem_cons_self) hchain
  have hview : s.view.newCache.coins = utxo tree (p.child header :: p :: rest) := hs ▸ h.coins
  obtain ⟨view', hview', hsame⟩ := hblock.disconnects _ hview
  refine ⟨view', by rw [hfile, hview'], ?_⟩
  -- nothing but the coins below comes back, and all of them do
  have hsub : Sub view'.coins (utxo tree (p :: rest)) := by
    refine disconnect_tip hchain (fun o c hc => by rwa [hview] at hc) (fun f hf => ?_) hview'
    obtain ⟨rest', hrest', hfits⟩ := h.inv.undo _ _ (hfile.trans hf)
    rwa [hchain.unique hrest']
  refine Finmap.ext_lookup fun o => ?_
  cases hnew : view'.coins.lookup o with
  | some c => rw [hsub o c hnew]
  | none =>
    have hrel := hsame o
    rw [hnew] at hrel
    cases hold : (utxo tree (p :: rest)).lookup o with
    | none => rfl
    | some c =>
      rw [hold] at hrel
      cases hrel

theorem Settled.step {s' : ChainState} (h : Settled tree s) (hinv : ChainInv tree (fun _ _ => True) s')
    (hstep : ChainStep P tree s s')
    (hguard : ∀ b p rest, s.chain = p :: rest → s'.chain = b :: p :: rest → enforceBIP30 P b p = true) :
    Settled tree s' := by
  cases hstep with
  | @connect view view' tip rest undo undo' env header hint hentry hconnect hframe =>
    obtain ⟨record, ctx, cb, turns, mid, st, hrecord, hconnected, -, hfresh⟩ := connect_child hentry hconnect
    have hcoins : view.newCache.coins = utxo tree (tip :: rest) := h.coins
    refine ⟨hinv, ?_, forall_mem_cons.2 ⟨Or.inr ⟨record, hrecord⟩, fun b hb => ?_⟩, fun b file hfile => ?_⟩
    · change view'.coins = _
      rw [hconnected.replayed, hcoins]
      rfl
    · by_cases hnew : b = tip.child header
      · exact Or.inr ⟨record, hnew ▸ hrecord⟩
      · simpa only [hframe b hnew] using h.stored b hb
    · by_cases hnew : b = tip.child header
      · subst hnew
        obtain rfl : record = file := Option.some_inj.1 (hrecord.symm.trans hfile)
        cases hold : undo (tip.child header) with
        | some old =>
          -- a record that was there stays
          rw [hold] at hconnected
          obtain rfl : old = record := Except.ok.inj hconnected.written
          exact h.reversible _ _ hold
        | none =>
          rw [hold] at hconnected
          exact ⟨_, hconnected.reversible h.inv.chain hcoins hint (hfresh (hguard _ _ _ rfl rfl))⟩
      · exact h.reversible b file ((hframe b hnew).symm.trans hfile)
  | @disconnect view view' tip p rest undo result hdisconnect =>
    obtain ⟨w, hw, hcoins⟩ := h.disconnect rfl
    obtain ⟨-, rfl⟩ := Prod.mk.inj (Except.ok.inj (hdisconnect.symm.trans hw))
    exact ⟨hinv, hcoins, fun b hb => h.stored b (mem_cons_of_mem _ hb), h.reversible⟩

theorem GuardedRun.settled (hspendable : P.genesisCoinbaseSpendable = true) (h : GuardedRun P tree s) :
    Settled tree s := by
  have hinv : ∀ {s : ChainState}, ChainRun P tree s → ChainInv tree (fun _ _ => True) s :=
    ChainRun.inv hspendable trivial fun _ _ _ _ => trivial
  have hboth : ChainRun P tree s ∧ Settled tree s := by
    induction h with
    | genesis env hconnect =>
      have hrun := ChainRun.genesis env hconnect
      exact ⟨hrun, hinv hrun, (connect_genesis hspendable hconnect).2.2, fun b hb => Or.inl (mem_singleton.1 hb),
        fun b file hfile => by cases hfile⟩
    | step _ hstep hguard ih =>
      have hrun := ih.1.step hstep
      exact ⟨hrun, ih.2.step (hinv hrun) hstep hguard⟩
  exact hboth.2

theorem Settled.balanced (h : Settled tree s) (o : COutPoint) {chain : List CBlockIndex}
    (hchain : PlainChain tree chain) (hall : ∀ b ∈ chain, b ∈ s.chain) :
    (chain.flatMap (createdIn tree)).count o = (chain.flatMap (spentIn tree)).count o + held (utxo tree chain) o := by
  induction hchain with
  | genesis hbody hsingle _ =>
    -- the coinbase of the genesis block, on no coins
    obtain ⟨cb, txs, hvtx, hcb, htxs⟩ := hbody.coinbase
    obtain rfl : txs = [] := eq_nil_iff_forall_not_mem.2 fun tx htx => by
      simpa [htxs tx htx] using hsingle tx (by simp [hvtx, htx])
    have hnodup : ((createdCoins cb 0).map Prod.fst).Nodup :=
      createdCoins_nodup (vout_le (hbody.txs cb (by rw [hvtx]; exact mem_cons_self)))
    have hone := count_transfer (m := (∅ : Utxos)) nodup_nil (by simp) hnodup (by simp [erases]) o
    have hnone : spentOutpoints cb = [] := if_pos hcb
    simpa [createdIn, spentIn, hvtx, utxo, replayTxs, replayTx, hnone, held] using hone
  | @child p rest header hbelow hbody hint _ ih =>
    obtain ⟨hhere, hrest⟩ := forall_mem_cons.1 hall
    obtain ⟨file, -, hblock⟩ := h.block hhere (.child header hbelow hbody hint trivial)
    have hbalanced := hblock.balanced o
    have hchain := ih hrest
    simp only [flatMap_cons, count_append] at hchain ⊢
    omega

/-- **Reorganisations are exact.** After every sequence of blocks connected and disconnected at the tip, the view holds
exactly the ledger that the blocks of its chain leave, and the tip can be disconnected, cleanly, to the ledger of the
chain below it. -/
theorem reorganised_exactly (hspendable : P.genesisCoinbaseSpendable = true) (h : GuardedRun P tree s) :
    s.view.coins = utxo tree s.chain ∧ ∀ tip p rest, s.chain = tip :: p :: rest →
      ∃ view', disconnectBlock (tree.body tip) tip s.view.newCache (s.undo tip) = .ok (.DISCONNECT_OK, view') ∧
        view'.coins = utxo tree (p :: rest) := by
  have hsettled := h.settled hspendable
  exact ⟨hsettled.coins, fun _ _ _ => hsettled.disconnect⟩

/-- **No coin is spent twice.** After every sequence of blocks connected and disconnected at the tip, each outpoint was
created along the chain as often as it was spent, and once more if its coin is unspent. -/
theorem spends_balanced (hspendable : P.genesisCoinbaseSpendable = true) (h : GuardedRun P tree s) (o : COutPoint) :
    (s.chain.flatMap (createdIn tree)).count o = (s.chain.flatMap (spentIn tree)).count o +
      if s.view.haveCoin o then 1 else 0 := by
  have hsettled := h.settled hspendable
  rw [hsettled.balanced o hsettled.inv.chain fun _ hb => hb, ← hsettled.coins]
  rfl

end

section
attribute [local instance] toyCrypto

/-- The first block is connected, and disconnected again. -/
theorem twoBlocks_guarded : ∃ s s', GuardedRun twoBlockParams twoBlockTree s ∧
    s.chain = [firstBlock, twoBlockTree.root] ∧
    GuardedRun twoBlockParams twoBlockTree s' ∧ s'.chain = [twoBlockTree.root] := by
  obtain ⟨r, hgenesis, hfirst⟩ := twoBlocks_views
  obtain ⟨r', hchild⟩ := hfirst r.1.newCache (by simp)
  classical
  have hrun : GuardedRun twoBlockParams twoBlockTree
      ⟨r'.1, [firstBlock, twoBlockTree.root],
        fun b => if b = firstBlock then r'.2 else none⟩ := by
    refine .step (.genesis plainEnv hgenesis) (.connect plainEnv firstHeader (by decide) (by decide +kernel)
      (by rw [if_pos rfl]; exact hchild) fun b hb => if_neg hb) ?_
    intro b p rest hchain hchain'
    obtain ⟨rfl, rfl⟩ := List.cons.inj hchain
    obtain ⟨rfl, -⟩ := List.cons.inj hchain'
    decide +kernel
  obtain ⟨view, hdisconnect, -⟩ := (hrun.settled rfl).disconnect rfl
  refine ⟨_, _, hrun, rfl, .step hrun (.disconnect _ hdisconnect) ?_, rfl⟩
  intro b p rest hchain hchain'
  cases hchain
  cases hchain'

theorem twoBlocks_exact : ∃ s s' : ChainState, s.chain.length = 2 ∧ s.view.coins = utxo twoBlockTree s.chain ∧
    s'.chain.length = 1 ∧ s'.view.coins = utxo twoBlockTree s'.chain := by
  obtain ⟨s, s', hrun, hchain, hrun', hchain'⟩ := twoBlocks_guarded
  exact ⟨s, s', by rw [hchain]; rfl, (reorganised_exactly rfl hrun).1, by rw [hchain']; rfl,
    (reorganised_exactly rfl hrun').1⟩

/-- The coin of the first block is there after the block is connected, and gone after it is disconnected. -/
theorem twoBlocks_balanced : ∃ s s' : ChainState, s.chain.length = 2 ∧ s'.chain.length = 1 ∧
    s.view.haveCoin ⟨(payingCoinbase 150000000000 2).getHash, 0⟩ = true ∧
    s'.view.haveCoin ⟨(payingCoinbase 150000000000 2).getHash, 0⟩ = false := by
  obtain ⟨s, s', hrun, hchain, hrun', hchain'⟩ := twoBlocks_guarded
  have hcount := spends_balanced rfl hrun ⟨(payingCoinbase 150000000000 2).getHash, 0⟩
  have hcount' := spends_balanced rfl hrun' ⟨(payingCoinbase 150000000000 2).getHash, 0⟩
  rw [hchain] at hcount
  rw [hchain'] at hcount'
  have hmade : ∀ chain ∈ [[firstBlock, twoBlockTree.root],
      [twoBlockTree.root]], (chain.flatMap (spentIn twoBlockTree)) = [] ∧
      (chain.flatMap (createdIn twoBlockTree)).count ⟨(payingCoinbase 150000000000 2).getHash, 0⟩ =
        chain.length - 1 := by decide +kernel
  rw [(hmade _ (by simp)).1, (hmade _ (by simp)).2] at hcount hcount'
  refine ⟨s, s', by rw [hchain]; rfl, by rw [hchain']; rfl, ?_, ?_⟩
  · by_contra hgone
    simp [hgone] at hcount
  · by_contra hthere
    simp [hthere] at hcount'

end

end ConnectCoin
