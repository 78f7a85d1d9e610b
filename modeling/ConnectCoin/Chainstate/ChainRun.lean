/-
A chain that grows and shrinks at its tip: every sequence of blocks connected and disconnected from the genesis block
on.

- `BlockTree`: the body that is stored for each index entry (an entry's body is stored once).
- `ChainStep`: connecting a child of the tip, or disconnecting the tip, cleanly or not, each on a new cache over the
  view. An undo record is written the first time a block is connected, and read each time it is disconnected. Heights
  are ints, and the index has one entry for the genesis hash, the genesis entry.
- `utxo tree chain`: the ledger that the blocks of a chain leave, in their order.
Result: `ChainRun.inv`: the view is below the ledger of its chain, and each stored record fits the ledger below its
block.
-/
import ConnectCoin.Chainstate.Replay

namespace ConnectCoin

open Lib CBlockIndex List

section
variable [Crypto]

/-! ## The run -/

/-- the bodies of the blocks; a check flag that is set says the truth -/
structure BlockTree where
  genesis : CBlockHeader
  body : CBlockIndex → CBlock
  honest : ∀ b, (body b).fChecked = true → BodyOk (body b)

/-- the undo record that is stored for an entry -/
abbrev UndoRecords := CBlockIndex → Option Bytes

namespace BlockTree

variable (tree : BlockTree)

abbrev root : CBlockIndex := CBlockIndex.root tree.genesis

/-- `ConnectBlock` on a block of the tree -/
abbrev connect (P : Params) (env : ConnectEnv) (b : CBlockIndex) (view : CoinsView) (undo : Option Bytes) :
    Except ConnectFailure (CoinsView × Option Bytes) := connectBlock P env (tree.body b) b view undo false

abbrev connectRoot (P : Params) (env : ConnectEnv) : Except ConnectFailure (CoinsView × Option Bytes) :=
  tree.connect P env tree.root CoinsView.empty none

end BlockTree

/-- the view, the chain with its tip first, and the undo record stored for each entry -/
structure ChainState where
  view : CoinsView
  chain : List CBlockIndex
  undo : UndoRecords

inductive ChainStep (P : Params) (tree : BlockTree) : ChainState → ChainState → Prop
  | connect {view view' : CoinsView} {tip : CBlockIndex} {rest : List CBlockIndex}
      {undo undo' : UndoRecords} (env : ConnectEnv) (header : CBlockHeader)
        (hint : tip.nHeight + 1 < 2 ^ 31) (hentry : header.getHash ≠ P.hashGenesisBlock)
      (hconnect : tree.connect P env (tip.child header) view.newCache
        (undo (tip.child header)) = .ok (view', undo' (tip.child header)))
      (hframe : ∀ b, b ≠ tip.child header → undo' b = undo b) :
      ChainStep P tree ⟨view, tip :: rest, undo⟩ ⟨view', tip.child header :: tip :: rest, undo'⟩
  | disconnect {view view' : CoinsView} {tip p : CBlockIndex} {rest : List CBlockIndex}
      {undo : UndoRecords} (result : DisconnectResult)
        (hdisconnect : disconnectBlock (tree.body tip) tip view.newCache (undo tip) = .ok (result, view')) :
      ChainStep P tree ⟨view, tip :: p :: rest, undo⟩ ⟨view', p :: rest, undo⟩

/-- the states that steps reach from the connected genesis block -/
inductive ChainRun (P : Params) (tree : BlockTree) : ChainState → Prop
  | genesis {view : CoinsView} {record : Option Bytes} (env : ConnectEnv)
      (h : tree.connectRoot P env = .ok (view, record)) : ChainRun P tree ⟨view, [tree.root], fun _ => none⟩
  | step {s s' : ChainState} (hs : ChainRun P tree s) (hstep : ChainStep P tree s s') : ChainRun P tree s'

/-! ## The ledger of a chain -/

/-- what the blocks of a chain leave -/
def utxo (tree : BlockTree) : List CBlockIndex → Utxos
  | [] => ∅
  | b :: rest => replayTxs b.nHeight (tree.body b).vtx (utxo tree rest)

/-- a chain of checked blocks down to the genesis block; Q is what is known of each block and the ledger below it -/
inductive Chain (tree : BlockTree) (Q : CBlockIndex → List CBlockIndex → Prop) : List CBlockIndex → Prop
  | genesis (hbody : BodyOk (tree.body tree.root))
      (hsingle : ∀ tx ∈ (tree.body tree.root).vtx, tx.isCoinBase = true) (hQ : Q tree.root []) :
    Chain tree Q [tree.root]
  | child {p : CBlockIndex} {rest : List CBlockIndex} (header : CBlockHeader) (hchain : Chain tree Q (p :: rest))
      (hbody : BodyOk (tree.body (p.child header))) (hint : p.nHeight + 1 < 2 ^ 31)
        (hQ : Q (p.child header) (p :: rest)) : Chain tree Q (p.child header :: p :: rest)

namespace Chain

variable {tree : BlockTree} {Q : CBlockIndex → List CBlockIndex → Prop}

theorem exists_tip {chain : List CBlockIndex} (h : Chain tree Q chain) : ∃ tip rest, chain = tip :: rest := by
  cases h with
  | genesis _ _ _ => exact ⟨_, _, rfl⟩
  | child _ _ _ _ _ => exact ⟨_, _, rfl⟩

theorem regular {chain : List CBlockIndex} (h : Chain tree Q chain) : RegularLedger (utxo tree chain) := by
  have hempty : RegularLedger (∅ : Utxos) := by
    intro o c hc
    simp at hc
  induction h with
  | genesis hbody hsingle _ => exact hempty.replayTxs hbody.txs (by simp) fun _ => hsingle
  | child header hchain hbody hint _ ih =>
    refine RegularLedger.replayTxs ih hbody.txs hint fun hzero => ?_
    rw [child_nHeight] at hzero
    omega

/-- An entry has one chain below it. -/
theorem unique {b : CBlockIndex} {rest rest' : List CBlockIndex} (h : Chain tree Q (b :: rest))
    (h' : Chain tree Q (b :: rest')) : rest = rest' := by
  generalize hc : b :: rest = c at h
  induction h generalizing b rest rest' with
  | genesis _ _ _ =>
    obtain ⟨rfl, rfl⟩ := List.cons.inj hc
    generalize hc' : tree.root :: rest' = c' at h'
    cases h' with
    | genesis _ _ _ => exact (List.cons.inj hc').2.symm
    | child header _ _ _ _ =>
      have hprev := congrArg pprev (List.cons.inj hc').1
      simp at hprev
  | @child p tail header hchain _ _ _ ih =>
    obtain ⟨rfl, rfl⟩ := List.cons.inj hc
    generalize hc' : p.child header :: rest' = c' at h'
    cases h' with
    | genesis _ _ _ =>
      have hprev := congrArg pprev (List.cons.inj hc').1
      simp at hprev
    | @child q tail' header' hchain' _ _ _ =>
      obtain ⟨hentry, rfl⟩ := List.cons.inj hc'
      have hprev : p = q := Option.some_inj.1 (congrArg pprev hentry)
      subst hprev
      rw [ih hchain' rfl]

end Chain

/-! ## The invariant -/

/-- a stored record is read back, and fits the ledger below its block -/
def RecordFits (tree : BlockTree) (b : CBlockIndex) (rest : List CBlockIndex) (file : Bytes) : Prop :=
  ∃ p u, b.pprev = some p ∧ readUndoRecord p file = some u ∧
    Fits b.nHeight (utxo tree rest) (withUndo (tree.body b).vtx u)

structure ChainInv (tree : BlockTree) (Q : CBlockIndex → List CBlockIndex → Prop) (s : ChainState) : Prop where
  sub : Sub s.view.coins (utxo tree s.chain)
  chain : Chain tree Q s.chain
  undo : ∀ b file, s.undo b = some file → ∃ rest, Chain tree Q (b :: rest) ∧ RecordFits tree b rest file

/-- What connecting a child of the tip did. -/
structure ChildConnected (P : Params) (tree : BlockTree) (view view' : CoinsView) (tip : CBlockIndex)
    (header : CBlockHeader) (undo : Option Bytes) (record : Bytes) (ctx : ConnectContext) (cb : CTransaction)
    (turns : List Turn) (mid st : ConnectState) : Prop where
  body : BodyOk (tree.body (tip.child header))
  pindex : ctx.pindex = tip.child header
  params : ctx.P = P
  coinbase : cb.isCoinBase = true ∧ TxOk cb
  vtx : (tree.body (tip.child header)).vtx = cb :: turns.map Prod.fst
  first : TxConnected ctx (ConnectState.start view) mid cb 0 []
  rest : LoopRun ctx mid turns st
  reward : cb.outputSum ≤
    st.nFees + getBlockSubsidyForWeight ctx.pindex.nHeight st.nonCoinbaseWeight P
  written : writeBlockUndo tip st.vtxundo undo = .ok record
  coins : view'.coins = st.view.coins

/-- What connecting a child of the tip did, the weight it summed up, and what it looked for in the view. -/
theorem connect_child {P : Params} {tree : BlockTree} {env : ConnectEnv} {view view' : CoinsView} {tip : CBlockIndex}
    {header : CBlockHeader} {undo undo' : Option Bytes} (hentry : header.getHash ≠ P.hashGenesisBlock)
    (h : tree.connect P env (tip.child header) view undo = .ok (view', undo')) :
    ∃ record ctx cb turns mid st, undo' = some record ∧
      ChildConnected P tree view view' tip header undo record ctx cb turns mid st ∧
      st.nonCoinbaseWeight = nonCoinbaseWeight (tree.body (tip.child header)).vtx.tail 0 ∧
      (enforceBIP30 P (tip.child header) tip = true → overwrites view (tree.body (tip.child header)) = false) := by
  obtain ⟨hhash, -, b, hbody, hvtx, hheader, hbranch⟩ := connectBlock_ok (tree.honest _) h
  rcases hbranch with ⟨hgenesis, -⟩ | ⟨-, hchild⟩
  · rw [← hhash] at hgenesis
    exact absurd hgenesis hentry
  obtain ⟨pprev, st, record, hprev, htxs, hwrite, rfl, rfl⟩ := connectChild_ok hchild
  obtain rfl : tip = pprev := Option.some_inj.1 hprev
  obtain ⟨hloop, hreward⟩ := connectTxs_ok hbody htxs
  obtain ⟨cb, turns, mid, hcb, hcbOk, hblock, hfirst, hrest⟩ := connectLoop_run hbody hloop
  refine
    ⟨record, _, cb, turns, mid, st, rfl,
      { body := hbody.same hvtx.symm hheader.symm
        pindex := rfl
        params := rfl
        coinbase := ⟨hcb, hcbOk⟩
        vtx := by rw [← hvtx, hblock]
        first := hfirst
        rest := hrest
        reward := hreward cb _ hblock
        written := hwrite
        coins := rfl }, ?_, ?_⟩
  · rw [connectLoop_weight hbody hloop, hvtx]
    rfl
  · intro henforce
    simp only [connectTxs, bind_ok, refuseIf_ok, henforce, Bool.true_and] at htxs
    obtain ⟨_, hfresh, _⟩ := htxs
    rwa [overwrites, hvtx] at hfresh

namespace ChildConnected

variable {P : Params} {tree : BlockTree} {view view' : CoinsView} {tip : CBlockIndex} {header : CBlockHeader}
  {undo : Option Bytes}
  {record : Bytes} {ctx : ConnectContext} {cb : CTransaction} {turns : List Turn} {mid st : ConnectState}

theorem sub (h : ChildConnected P tree view view' tip header undo record ctx cb turns mid st) {rest : List CBlockIndex}
    (hsub : Sub view.coins (utxo tree rest)) : Sub view'.coins (utxo tree (tip.child header :: rest)) := by
  rw [h.coins, utxo, h.vtx, ← h.pindex]
  exact h.rest.sub (h.first.sub hsub)

/-- The record that was written fits the ledger that the view was below. -/
theorem recordFits (h : ChildConnected P tree view view' tip header none record ctx cb turns mid st)
    {rest : List CBlockIndex} (hsub : Sub view.coins (utxo tree rest)) (hregular : RegularLedger (utxo tree rest))
    (hint : tip.nHeight + 1 < 2 ^ 31) : RecordFits tree (tip.child header) rest record := by
  obtain ⟨hread, -⟩ := written_record h.body h.vtx h.first h.rest h.written []
  rw [append_nil] at hread
  refine ⟨tip, _, rfl, hread, ?_⟩
  have hlow : 1 ≤ ctx.pindex.nHeight := by
    rw [h.pindex, child_nHeight]
    omega
  have hhigh : ctx.pindex.nHeight < 2 ^ 31 := by
    rw [h.pindex, child_nHeight]
    exact hint
  rw [h.vtx, withUndo, zip_cons_cons, map_map, zip_map', ← h.pindex]
  refine ⟨by simp, ?_⟩
  exact h.rest.fits (h.first.sub hsub) (hregular.replayTx h.coinbase.2 hhigh fun hzero => by omega) hlow hhigh

end ChildConnected

variable {Q : CBlockIndex → List CBlockIndex → Prop} {tree : BlockTree}

/-- Disconnecting the tip with a record that fits. -/
theorem disconnect_tip {view view' : CoinsView} {tip p : CBlockIndex} {rest : List CBlockIndex} {file : Option Bytes}
    {result : DisconnectResult} (hchain : Chain tree Q (tip :: p :: rest))
    (hsub : Sub view.coins (utxo tree (tip :: p :: rest)))
    (hfile : ∀ f, file = some f → RecordFits tree tip (p :: rest) f)
    (h : disconnectBlock (tree.body tip) tip view file = .ok (result, view')) :
    Sub view'.coins (utxo tree (p :: rest)) := by
  obtain ⟨pprev, f, u, st, hprev, hf, hread, hlen, hloop, rfl⟩ := disconnectBlock_ok h
  obtain ⟨p', u', hprev', hread', hfits⟩ := hfile f hf
  obtain rfl : pprev = p' := Option.some_inj.1 (hprev.symm.trans hprev')
  obtain rfl : u = u' := Option.some_inj.1 (hread.symm.trans hread')
  cases hchain with
  | child header hbelow hbody hint hQ =>
    have hfst := withUndo_fst hlen
    have htxs : ∀ q ∈ withUndo (tree.body (p.child header)).vtx u, TxOk q.1 := by
      intro q hq
      refine hbody.txs q.1 ?_
      rw [← hfst]
      exact mem_map_of_mem hq
    have hlow : 1 ≤ (p.child header).nHeight := by simp
    have hhigh : (p.child header).nHeight < 2 ^ 31 := hint
    refine disconnectLoop_sub hbelow.regular htxs hlow hhigh hfits ?_ hloop
    rw [hfst]
    exact hsub

/-- The genesis block, where its coinbase is an initial allocation. -/
theorem connect_genesis {P : Params} {env : ConnectEnv} {view : CoinsView} {record : Option Bytes}
    (hspendable : P.genesisCoinbaseSpendable = true)
    (h : tree.connectRoot P env = .ok (view, record)) :
    BodyOk (tree.body tree.root) ∧ (∃ tx, (tree.body tree.root).vtx = [tx] ∧ tx.isCoinBase = true) ∧
      view.coins = utxo tree [tree.root] := by
  obtain ⟨-, -, b, hbody, hvtx, hheader, hbranch⟩ := connectBlock_ok (tree.honest _) h
  refine ⟨hbody.same hvtx.symm hheader.symm, ?_⟩
  rcases hbranch with ⟨-, view', hgenesis, hresult⟩ | ⟨-, hchild⟩
  · rw [connectGenesis, if_pos hspendable, hvtx] at hgenesis
    split at hgenesis
    · next tx htx =>
      split_ifs at hgenesis with hcb
      rw [mapError_ok] at hgenesis
      cases hupdate : updateCoins tx CoinsView.empty tree.root.nHeight with
      | error e =>
        rw [hupdate] at hgenesis
        cases hgenesis
      | ok r =>
        obtain ⟨txundo, view₁⟩ := r
        rw [hupdate] at hgenesis
        obtain rfl : view₁ = view' := Except.ok.inj hgenesis
        obtain ⟨spent, hspent⟩ := updateCoins_ok hupdate
        have hcoins : view₁.coins = utxo tree [tree.root] := by
          rw [hspent.replay, utxo, htx]
          rfl
        refine ⟨⟨tx, htx, hcb⟩, ?_⟩
        rw [(Prod.mk.inj hresult).1]
        exact hcoins
    · cases hgenesis
  · obtain ⟨pprev, _, _, hprev, _⟩ := connectChild_ok hchild
    rw [root_pprev] at hprev
    cases hprev

/-- Every state of a run: what is known of a block when it is connected is known of every block of the chain. -/
theorem ChainRun.inv {P : Params} (hspendable : P.genesisCoinbaseSpendable = true) (hroot : Q tree.root [])
    (hchild : ∀ {view view' : CoinsView} {tip : CBlockIndex} {rest : List CBlockIndex} {header : CBlockHeader}
      {undo : Option Bytes}
      {record : Bytes} {ctx : ConnectContext} {cb : CTransaction} {turns : List Turn} {mid st : ConnectState},
      ChildConnected P tree view view' tip header undo record ctx cb turns mid st →
        Sub view.coins (utxo tree (tip :: rest)) →
      Chain tree Q (tip :: rest) → tip.nHeight + 1 < 2 ^ 31 → Q (tip.child header) (tip :: rest)) {s : ChainState}
        (h : ChainRun P tree s) : ChainInv tree Q s := by
  induction h with
  | genesis env hconnect =>
    obtain ⟨hbody, ⟨tx, hvtx, hcb⟩, hcoins⟩ := connect_genesis hspendable hconnect
    refine ⟨?_, Chain.genesis hbody ?_ hroot, fun b file hfile => by cases hfile⟩
    · intro o c hc
      rwa [hcoins] at hc
    · intro tx' htx'
      rw [hvtx, mem_singleton] at htx'
      rwa [htx']
  | step hs hstep ih =>
    cases hstep with
    | @connect view view' tip rest undo undo' env header hint hentry hconnect hframe =>
      obtain ⟨record, ctx, cb, turns, mid, st, hrecord, hconnected, -, -⟩ := connect_child hentry hconnect
      have hchain := Chain.child header ih.chain hconnected.body hint (hchild hconnected ih.sub ih.chain hint)
      refine ⟨hconnected.sub ih.sub, hchain, fun b file hfile => ?_⟩
      by_cases hb : b = tip.child header
      · subst hb
        cases hold : undo (tip.child header) with
        | some old =>
          -- a record that was there is the record that is there
          rw [hold] at hconnected
          have hkept : old = record := Except.ok.inj hconnected.written
          dsimp only at hfile
          rw [hrecord] at hfile
          cases hfile
          rw [← hkept]
          exact ih.undo _ _ hold
        | none =>
          rw [hold] at hconnected
          dsimp only at hfile
          rw [hrecord] at hfile
          cases hfile
          exact ⟨tip :: rest, hchain, hconnected.recordFits ih.sub ih.chain.regular hint⟩
      · dsimp only at hfile
        rw [hframe b hb] at hfile
        exact ih.undo b file hfile
    | @disconnect view view' tip p rest undo result hdisconnect =>
      have hfile : ∀ f, undo tip = some f → RecordFits tree tip (p :: rest) f := by
        intro f hf
        obtain ⟨rest', hchain', hfits⟩ := ih.undo tip f hf
        rwa [ih.chain.unique hchain']
      have hchain : Chain tree Q (tip :: p :: rest) := ih.chain
      have hsub : Sub view.newCache.coins (utxo tree (tip :: p :: rest)) := ih.sub
      refine ⟨disconnect_tip hchain hsub hfile hdisconnect, ?_, ih.undo⟩
      cases hchain with
      | child header hbelow _ _ _ => exact hbelow

end

end ConnectCoin
