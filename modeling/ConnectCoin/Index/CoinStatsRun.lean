/-
Runs of the coin statistics index along valid blocks and back.

- `History P tree undo events chain`: blocks that `ConnectBlock` accepted were appended, each on the tip, with the undo
  records that it wrote, and tips were reverted; chain has the blocks that are left, the tip first, each with the coins
  that are unspent after it.
- `Books n limit m t`: what the totals are after n blocks, with unspent coins m; `Books.append`: a block keeps them.
Premises: a supply as in `supply_bounded`, and that no block of the chain has one of the hashes that the source excepts
from BIP 30, which are of another chain (`Ordinary`).
Results:
- `Updated.created_free`: where BIP 30 is enforced, every transaction of an accepted block creates its coins on free
  outpoints;
- `child_books`: `CustomAppend` of an accepted block succeeds and keeps the books;
- `coin_stats_balance`: so it is over every history, and a revert gives back what was there before.
-/
import ConnectCoin.Index.CoinStats
import ConnectCoin.Chainstate.UnspentAt

namespace ConnectCoin

open Lib CBlockIndex List

section
variable [Crypto]

/-! ## New coins are on free outpoints -/

/-- what a view holds is in its cache or was there at the start -/
def Origin (old : Utxos) (view : CoinsView) : Prop :=
  ∀ o c, view.coins.lookup o = some c → o ∈ view.cached ∨ old.lookup o = some c

/-- the outputs of the transactions are no unspent coins -/
def FreshIn (old : Utxos) (nHeight : ℕ) (vtx : List CTransaction) : Prop :=
  ∀ tx ∈ vtx, ∀ e ∈ createdCoins tx nHeight, old.lookup e.1 = none

theorem freshIn_of_not_overwrites {view : CoinsView} {block : CBlock}
    (h : overwrites view block = false) (nHeight : ℕ) : FreshIn view.coins nHeight block.vtx := by
  intro tx htx e he
  obtain ⟨o, i, ho, -, rfl⟩ := mem_createdCoins he
  obtain ⟨hi, -⟩ := List.getElem?_eq_some_iff.1 ho
  rw [overwrites, any_eq_false] at h
  have htx := h tx htx
  rw [Bool.not_eq_true, any_eq_false] at htx
  have hfree := htx i (mem_range.2 hi)
  rw [CoinsView.haveCoin, Option.not_isSome_iff_eq_none] at hfree
  exact hfree

section
variable {tx : CTransaction} {nHeight : ℕ} {view view' : CoinsView} {txundo : CTxUndo} {spent : List (COutPoint × Coin)}
  {old : Utxos}

theorem Updated.origin (h : Updated tx nHeight view txundo view' spent) (horigin : Origin old view) :
    Origin old view' := by
  intro o c hc
  rw [h.cached]
  rw [h.coins] at hc
  rcases lookup_inserts hc with hmem | ⟨-, hold⟩
  · exact Or.inl (Or.inr (mem_map_of_mem hmem))
  · rw [lookup_erases] at hold
    split_ifs at hold
    rcases horigin o c hold with hcached | hstart
    · exact Or.inl (Or.inl hcached)
    · exact Or.inr hstart

/-- `AddCoin` refuses to overwrite what the cache knows of, and the BIP 30 check what was there at the start. -/
theorem Updated.created_free (h : Updated tx nHeight view txundo view' spent) (hplain : tx.isCoinBase = false)
    (horigin : Origin old view) (hfresh : ∀ e ∈ createdCoins tx nHeight, old.lookup e.1 = none) :
    ∀ e ∈ createdCoins tx nHeight, (erases (spent.map Prod.fst) view.coins).lookup e.1 = none := by
  intro e he
  by_contra hsome
  obtain ⟨c, hc⟩ := Option.ne_none_iff_exists'.1 hsome
  have hheld := hc
  rw [lookup_erases] at hheld
  split_ifs at hheld
  rcases horigin e.1 c hheld with hcached | hstart
  · exact hsome (h.free hplain e he hcached)
  · rw [hfresh e he] at hstart
    cases hstart

/-- a checked transaction spends coins of m, and its outputs come on free outpoints -/
structure Transfers (m : Utxos) (tx : CTransaction) (nHeight : ℕ) (spent : List (COutPoint × Coin)) : Prop where
  checked : TxOk tx
  outpoints : spent.map Prod.fst = spentOutpoints tx
  distinct : (spent.map Prod.fst).Nodup
  found : ∀ e ∈ spent, m.lookup e.1 = some e.2
  free : ∀ e ∈ createdCoins tx nHeight, (erases (spent.map Prod.fst) m).lookup e.1 = none

/-- A coinbase spends nothing. -/
theorem Transfers.coinbase {m : Utxos} (htx : TxOk tx) (hcb : tx.isCoinBase = true)
    (hfresh : ∀ e ∈ createdCoins tx nHeight, m.lookup e.1 = none) : Transfers m tx nHeight [] where
  checked := htx
  outpoints := (if_pos hcb).symm
  distinct := nodup_nil
  found := by simp
  free := hfresh

variable {m : Utxos} (h : Transfers m tx nHeight spent)
include h

/-- The transaction moves exactly the weight of its coins. -/
theorem Transfers.weight_eq (w : Coin → ℤ) : weight w (replayTx nHeight m tx) =
      weight w m - (spent.map fun e => w e.2).sum + ((createdCoins tx nHeight).map fun e => w e.2).sum := by
  have hcount := h.checked.counts.2
  rw [WITNESS_SCALE_FACTOR, MAX_BLOCK_WEIGHT] at hcount
  rw [replayTx, transfer, ← h.outpoints, weight_inserts (createdCoins_nodup (by omega)) h.free,
    weight_erases h.distinct h.found]

/-- As many coins as before, without the spent ones, with the new ones. -/
theorem Transfers.card_eq :
    (replayTx nHeight m tx).keys.card + spent.length = m.keys.card + (createdCoins tx nHeight).length := by
  have hweight := h.weight_eq fun _ => 1
  rw [weight_one, weight_one, map_const', sum_replicate, map_const', sum_replicate, nsmul_eq_mul, nsmul_eq_mul]
    at hweight
  zify
  linarith

end

/-- The spent coins are read back as they were. -/
theorem LoopRun.stored {ctx : ConnectContext} {st st' : ConnectState} {turns : List Turn} (h : LoopRun ctx st turns st')
    (hregular : RegularLedger st.view.coins) (hlow : 1 ≤ ctx.pindex.nHeight) (hhigh : ctx.pindex.nHeight < 2 ^ 31) :
    (turns.map fun b => b.2.map fun e => e.2.stored) = turns.map fun b => b.2.map Prod.snd := by
  induction h with
  | nil s => rfl
  | @cons s t u b bs hturn _ ih =>
    have hupdated := hturn.connected.updated
    rw [map_cons, map_cons, ih (hupdated.regular hregular hturn.checked hlow hhigh)]
    congr 1
    exact map_congr_left fun e he => (hregular e.1 e.2 (hupdated.found e he)).stored

end

namespace CoinStats

/-! ## Totals that a transaction leaves alone -/

/-- the totals that the loop over the transactions leaves alone -/
structure SameRest (t t' : Totals) : Prop where
  subsidy : t'.totalSubsidy = t.totalSubsidy
  genesis : t'.totalUnspendablesGenesisBlock = t.totalUnspendablesGenesisBlock
  bip30 : t'.totalUnspendablesBip30 = t.totalUnspendablesBip30
  scripts : t'.totalUnspendablesScripts = t.totalUnspendablesScripts
  unclaimed : t'.totalUnspendablesUnclaimedRewards = t.totalUnspendablesUnclaimedRewards

/-! ## What is not claimed -/

theorem arith_sub_toNat {a b : ArithUint256} {x y d : ℤ} (ha : (a.toNat : ℤ) = x) (hb : (b.toNat : ℤ) = y)
    (hd : x = y + d) (hpos : 0 ≤ d) : ((a - b).toNat : ℤ) = d := by
  have hle : b.toNat ≤ a.toNat := by omega
  rw [BitVec.toNat_sub_of_le (BitVec.le_def.2 hle)]
  omega

/-- The unclaimed amount is what came in and did not go out, where nothing leaves its range. -/
theorem addUnclaimed_ok {t : Totals} {d : ℤ} (hgenesis : t.totalUnspendablesGenesisBlock = 0)
    (hbip30 : t.totalUnspendablesBip30 = 0) (hscripts : t.totalUnspendablesScripts = 0)
    (hunclaimed : 0 ≤ t.totalUnspendablesUnclaimedRewards)
    (hsubsidy : 0 ≤ t.totalSubsidy) (hsubsidy' : t.totalSubsidy < 2 ^ 62)
    (hspent : t.totalPrevoutSpentAmount.toNat < 2 ^ 200)
    (hnew : t.totalNewOutputsExCoinbaseAmount.toNat < 2 ^ 200) (hcb : t.totalCoinbaseAmount.toNat < 2 ^ 200)
    (hd : t.totalPrevoutSpentAmount.toNat + t.totalSubsidy = t.totalNewOutputsExCoinbaseAmount.toNat +
      t.totalCoinbaseAmount.toNat + t.totalUnspendablesUnclaimedRewards + d) (hpos : 0 ≤ d)
        (hfits : t.totalUnspendablesUnclaimedRewards + d < 2 ^ 63) :
    t.addUnclaimed = .ok { t with totalUnspendablesUnclaimedRewards := t.totalUnspendablesUnclaimedRewards + d } := by
  have hlt := arith_lt t.totalSubsidy
  have hlt' := arith_lt t.totalUnspendablesUnclaimedRewards
  have hin := arith_toNat hsubsidy (by linarith)
  have hout := arith_toNat hunclaimed (by linarith)
  -- both sides of the difference are far below 2^256
  have hplus : ((t.totalPrevoutSpentAmount + arith t.totalSubsidy).toNat : ℤ) = t.totalPrevoutSpentAmount.toNat +
      t.totalSubsidy := by
    rw [BitVec.toNat_add, Nat.mod_eq_of_lt (by omega), Nat.cast_add, hin]
  have hminus :
      ((t.totalNewOutputsExCoinbaseAmount + t.totalCoinbaseAmount + arith t.totalUnspendablesUnclaimedRewards).toNat :
      ℤ) = t.totalNewOutputsExCoinbaseAmount.toNat + t.totalCoinbaseAmount.toNat +
      t.totalUnspendablesUnclaimedRewards := by
    rw [BitVec.toNat_add, BitVec.toNat_add, Nat.mod_eq_of_lt (by omega : t.totalNewOutputsExCoinbaseAmount.toNat +
      t.totalCoinbaseAmount.toNat < 2 ^ 256), Nat.mod_eq_of_lt (by omega), Nat.cast_add, Nat.cast_add, hout]
  have hdiff := arith_sub_toNat hplus hminus hd hpos
  have hzero : amount 0 = .ok 0 := amount_ok (le_refl 0) (by norm_num)
  rw [Totals.addUnclaimed, hgenesis, hbip30, hscripts]
  simp only [bind_ok, add_zero, hzero, Except.ok.injEq, exists_eq_left', zero_add]
  refine ⟨_, amount_ok hunclaimed (by linarith), ?_⟩
  have hdlt : d < 2 ^ 63 := by linarith
  rw [if_pos (by omega), hdiff, bind_ok]
  exact ⟨_, amount_ok (by linarith) hfits, rfl⟩

section
variable [Crypto]

/-! ## Sums of amounts -/

/-- the values of coins in `arith_uint256` -/
def arithSum (x : ArithUint256) (es : List (COutPoint × Coin)) : ArithUint256 :=
  es.foldl (fun x e => x + arith e.2.out.value) x

theorem Coin.value_lt (c : Coin) : c.out.value < 2 ^ 63 := by
  have h := c.out.nValue.toInt_lt
  exact h

theorem arithSum_toNat {x : ArithUint256} {es : List (COutPoint × Coin)} (hvalues : ∀ e ∈ es, 0 ≤ coinValue e.2)
    (hfits : (x.toNat : ℤ) + (es.map fun e => coinValue e.2).sum < 2 ^ 256) :
    ((arithSum x es).toNat : ℤ) = x.toNat + (es.map fun e => coinValue e.2).sum := by
  induction es generalizing x with
  | nil => simp [arithSum]
  | cons e es ih =>
    obtain ⟨he, hvalues⟩ := forall_mem_cons.1 hvalues
    have hrest : 0 ≤ (es.map fun e => coinValue e.2).sum := sum_nonneg (forall_mem_map.2 hvalues)
    rw [map_cons, sum_cons] at hfits ⊢
    have hone : ((arith (coinValue e.2)).toNat : ℤ) = coinValue e.2 := arith_toNat he (Coin.value_lt e.2)
    have hnext : ((x + arith (coinValue e.2)).toNat : ℤ) = x.toNat + coinValue e.2 := by
      rw [BitVec.toNat_add, Nat.mod_eq_of_lt, Nat.cast_add, hone]
      zify
      rw [hone]
      linarith
    have hsame : arithSum x (e :: es) = arithSum (x + arith (coinValue e.2)) es := rfl
    rw [hsame, ih hvalues (by rw [hnext]; linarith), hnext]
    ring

/-! ## Coins that come and leave -/

variable {G : Type} [CommGroup G]

theorem adds_totals (H : MuHash G) (isCoinbase : Bool) (es : List (COutPoint × Coin)) (f : Figures G) :
    ∃ bogoSize, (es.foldl (Figures.add H isCoinbase) f).totals = { f.totals with
      bogoSize
      transactionOutputCount := f.totals.transactionOutputCount + UInt64.ofNat es.length
      totalAmount := f.totals.totalAmount + (es.map fun e => coinValue e.2).sum
      totalCoinbaseAmount := if isCoinbase then arithSum f.totals.totalCoinbaseAmount es else
        f.totals.totalCoinbaseAmount
      totalNewOutputsExCoinbaseAmount :=
        if isCoinbase then f.totals.totalNewOutputsExCoinbaseAmount else arithSum
          f.totals.totalNewOutputsExCoinbaseAmount es } := by
  induction es generalizing f with
  | nil => exact ⟨f.totals.bogoSize, by simp [arithSum]⟩
  | cons e es ih =>
    obtain ⟨bogoSize, hrest⟩ := ih (f.add H isCoinbase e)
    have hcount : f.totals.transactionOutputCount + 1 + UInt64.ofNat es.length =
        f.totals.transactionOutputCount + UInt64.ofNat (es.length + 1) := by
      rw [UInt64.add_assoc, UInt64.add_comm 1, UInt64.ofNat_add]
      rfl
    refine ⟨bogoSize, ?_⟩
    rw [foldl_cons, hrest, length_cons, ← hcount, map_cons, sum_cons, ← add_assoc]
    cases isCoinbase <;> rfl

theorem removes_totals (H : MuHash G) (es : List (COutPoint × Coin)) (f : Figures G) :
    ∃ bogoSize, (es.foldl (Figures.remove H) f).totals = { f.totals with
      bogoSize
      transactionOutputCount := f.totals.transactionOutputCount - UInt64.ofNat es.length
      totalAmount := f.totals.totalAmount - (es.map fun e => coinValue e.2).sum
      totalPrevoutSpentAmount := arithSum f.totals.totalPrevoutSpentAmount es } := by
  induction es generalizing f with
  | nil => exact ⟨f.totals.bogoSize, by simp [arithSum]⟩
  | cons e es ih =>
    obtain ⟨bogoSize, hrest⟩ := ih (f.remove H e)
    have hcount : f.totals.transactionOutputCount - 1 - UInt64.ofNat es.length =
        f.totals.transactionOutputCount - UInt64.ofNat (es.length + 1) := by
      have hsucc : UInt64.ofNat (es.length + 1) = UInt64.ofNat es.length + 1 := UInt64.ofNat_add _ _
      grind
    refine ⟨bogoSize, ?_⟩
    rw [foldl_cons, hrest, length_cons, ← hcount, map_cons, sum_cons, ← sub_sub]
    rfl

variable {block : BlockInfo}

/-- The outputs of a transaction are appended to the figures. -/
theorem appendOutputs_created {H : MuHash G} {tx : CTransaction} {f : Figures G} (htx : TxOk tx)
    (hlow : 0 ≤ f.totals.totalAmount) (hhigh : f.totals.totalAmount ≤ 2 * MAX_MONEY) :
    tx.vout.zipIdx.foldlM (appendOutput H block tx) f =
      .ok ((createdCoins tx block.height).foldl (Figures.add H tx.isCoinBase) f) := by
  have hmax := htx.total
  rw [createdCoins_eq htx]
  refine appendOutputs_ok (fun o ho => ?_) (fun o ho => ?_) hlow ?_
  · exact spendable_of_typed (htx.typed o.1 (fst_mem_of_mem_zipIdx ho))
  · exact htx.values o.1 (fst_mem_of_mem_zipIdx ho)
  · rw [zipIdx_values]
    have hmoney : MAX_MONEY = 10 ^ 18 := by decide
    rw [hmoney] at hmax hhigh
    linarith

/-! ## One transaction -/

/-- the totals that the coins alone determine -/
structure Counts (t : Totals) (m : Utxos) : Prop where
  amount : t.totalAmount = weight coinValue m
  count : t.transactionOutputCount = UInt64.ofNat m.keys.card

/-- f' has the counts of the coins m; coinbase outputs, other new outputs and spent coins of these values came to f -/
structure Moves (f f' : Figures G) (m : Utxos) (coinbase new spent : ℤ) : Prop where
  counts : Counts f'.totals m
  rest : SameRest f.totals f'.totals
  amount : f'.totals.totalAmount = f.totals.totalAmount + coinbase + new - spent
  coinbase : (f'.totals.totalCoinbaseAmount.toNat : ℤ) = f.totals.totalCoinbaseAmount.toNat + coinbase
  newOutputs : (f'.totals.totalNewOutputsExCoinbaseAmount.toNat : ℤ) =
    f.totals.totalNewOutputsExCoinbaseAmount.toNat + new
  spent : (f'.totals.totalPrevoutSpentAmount.toNat : ℤ) = f.totals.totalPrevoutSpentAmount.toNat + spent

omit [CommGroup G] in
theorem Moves.trans {f g f' : Figures G} {m m' : Utxos} {c n s c' n' s' : ℤ} (h : Moves f g m c n s)
    (h' : Moves g f' m' c' n' s') : Moves f f' m' (c + c') (n + n') (s + s') where
  counts := h'.counts
  rest :=
    { subsidy := h'.rest.subsidy.trans h.rest.subsidy
      genesis := h'.rest.genesis.trans h.rest.genesis
      bip30 := h'.rest.bip30.trans h.rest.bip30
      scripts := h'.rest.scripts.trans h.rest.scripts
      unclaimed := h'.rest.unclaimed.trans h.rest.unclaimed }
  amount := by rw [h'.amount, h.amount]; ring
  coinbase := by rw [h'.coinbase, h.coinbase, add_assoc]
  newOutputs := by rw [h'.newOutputs, h.newOutputs, add_assoc]
  spent := by rw [h'.spent, h.spent, add_assoc]

/-- One transaction: its outputs come, and what it spends leaves. -/
theorem append_tx (H : MuHash G) (subsidy : CAmount) {f : Figures G} {tx : CTransaction} {i : ℕ}
    {m : Utxos} {spent : List (COutPoint × Coin)} (h : Transfers m tx block.height spent)
    (hordinary : tx.isCoinBase = true → isBIP30Unspendable block.hash block.height = false)
    (hundo : tx.isCoinBase = false → block.txUndo i = .ok (spent.map Prod.snd)) (hregular : RegularLedger m)
    (hcounts : Counts f.totals m) (hhigh : f.totals.totalAmount ≤ 2 * MAX_MONEY)
    (hroom : (f.totals.totalPrevoutSpentAmount.toNat : ℤ) + 2 * MAX_MONEY < 2 ^ 256)
    (hnew : (f.totals.totalNewOutputsExCoinbaseAmount.toNat : ℤ) + MAX_MONEY < 2 ^ 256)
    (hcoinbase : tx.isCoinBase = true → (f.totals.totalCoinbaseAmount.toNat : ℤ) + MAX_MONEY < 2 ^ 256) :
    ∃ f', appendTx H block subsidy f (tx, i) = .ok f' ∧
      Moves f f' (replayTx block.height m tx) (if tx.isCoinBase then tx.outputSum else 0)
        (if tx.isCoinBase then 0 else tx.outputSum) (spent.map fun e => coinValue e.2).sum ∧
      (spent.map fun e => coinValue e.2).sum ≤ 2 * MAX_MONEY := by
  have hmoney : MAX_MONEY = 10 ^ 18 := by decide
  have hsum := created_sum h.checked block.height
  have hcreated := createdCoins_nonneg h.checked block.height
  have hmax := h.checked.total
  have hout : 0 ≤ tx.outputSum := sum_nonneg (forall_mem_map.2 h.checked.values)
  have hvalues : ∀ e ∈ spent, 0 ≤ coinValue e.2 := fun e he => hregular.nonNeg e.1 e.2 (h.found e he)
  have hle := sum_le_weight hregular.nonNeg h.distinct h.found
  have hlow := weight_nonneg hregular.nonNeg
  rw [← hcounts.amount] at hle hlow
  obtain ⟨bogoSize, hadd⟩ := adds_totals H tx.isCoinBase (createdCoins tx block.height) f
  have houtputs : tx.vout.zipIdx.foldlM (appendOutput H block tx) f = _ := appendOutputs_created h.checked hlow hhigh
  generalize (createdCoins tx block.height).foldl (Figures.add H tx.isCoinBase) f = g at hadd houtputs
  obtain ⟨bogoSize', hremove⟩ := removes_totals H spent g
  have hgamount : g.totals.totalAmount = f.totals.totalAmount + tx.outputSum := by rw [hadd, hsum]
  refine ⟨spent.foldl (Figures.remove H) g, ?_, ⟨⟨?_, ?_⟩, ?_, ?_, ?_, ?_, ?_⟩, le_trans hle hhigh⟩
  · simp only [appendTx]
    rw [if_neg
      (by rw [Bool.and_eq_true]; exact fun hboth => Bool.false_ne_true ((hordinary hboth.1).symm.trans hboth.2)),
      houtputs, bind_ok]
    refine ⟨g, rfl, ?_⟩
    have hkeys := h.outpoints
    rw [spentOutpoints] at hkeys
    split_ifs at hkeys ⊢ with hcb
    · rw [map_eq_nil_iff.1 hkeys]
      rfl
    · rw [hundo (Bool.eq_false_iff.2 hcb), bind_ok]
      exact ⟨_, rfl, removeInputs_ok (by rw [hkeys, drop_zero]) hvalues (le_trans hle (by rw [hgamount]; linarith))
        (by rw [hgamount]; rw [hmoney] at hmax hhigh; linarith)⟩
  · rw [hremove, hgamount, h.weight_eq coinValue, hsum, hcounts.amount]
    ring
  · rw [hremove, hadd, hcounts.count]
    have hcast := congrArg UInt64.ofNat h.card_eq
    rw [UInt64.ofNat_add, UInt64.ofNat_add] at hcast
    simp only
    rw [← hcast]
    grind
  · rw [hremove, hadd]
    exact ⟨rfl, rfl, rfl, rfl, rfl⟩
  · rw [hremove, hgamount]
    split_ifs <;> simp
  · rw [hremove, hadd]
    simp only
    split_ifs with hcb
    · rw [arithSum_toNat hcreated (by rw [hsum]; linarith [hcoinbase hcb]), hsum]
    · exact (add_zero _).symm
  · rw [hremove, hadd]
    simp only
    split_ifs
    · exact (add_zero _).symm
    · rw [arithSum_toNat hcreated (by rw [hsum]; linarith), hsum]
  · rw [hremove, hadd, arithSum_toNat hvalues (by linarith)]

/-! ## The transactions of a block -/

/-- the undo data of a transaction behind the coinbase -/
theorem txUndo_of_drop {vtxundo : CBlockUndo} {i : ℕ} {txundo : CTxUndo} {rest : List CTxUndo}
    (hundo : block.undoData = some vtxundo) (hdrop : vtxundo.drop i = txundo :: rest) :
    block.txUndo (i + 1) = .ok txundo := by
  have hhead := congrArg head? hdrop
  rw [head?_drop, head?_cons] at hhead
  simp only [BlockInfo.txUndo, hundo, hhead]

/-- The turns behind the coinbase: the fees are what was spent and did not come back. -/
theorem append_turns (H : MuHash G) (subsidy : CAmount) {vtxundo : CBlockUndo} {ctx : ConnectContext}
    {st st' : ConnectState} {turns : List Turn} {old : Utxos} (h : LoopRun ctx st turns st') {f : Figures G} {i : ℕ}
    (hheight : block.height = ctx.pindex.nHeight) (hundo : block.undoData = some vtxundo)
    (hdrop : vtxundo.drop i = turns.map fun b => b.2.map Prod.snd) (hlow : 1 ≤ ctx.pindex.nHeight)
    (hhigh : ctx.pindex.nHeight < 2 ^ 31) (horigin : Origin old st.view)
    (hfresh : FreshIn old ctx.pindex.nHeight (turns.map Prod.fst)) (hregular : RegularLedger st.view.coins)
    (hcounts : Counts f.totals st.view.coins) (hmax : f.totals.totalAmount ≤ 2 * MAX_MONEY)
    (hspent : (f.totals.totalPrevoutSpentAmount.toNat : ℤ) + turns.length * (2 * MAX_MONEY) < 2 ^ 256)
    (hnew : (f.totals.totalNewOutputsExCoinbaseAmount.toNat : ℤ) + turns.length * (2 * MAX_MONEY) < 2 ^ 256) :
    ∃ f' new spent, ((turns.map Prod.fst).zipIdx (i + 1)).foldlM (appendTx H block subsidy) f = .ok f' ∧
      Moves f f' st'.view.coins 0 new spent ∧ spent - new = st'.nFees - st.nFees ∧
      new ≤ turns.length * (2 * MAX_MONEY) ∧ spent ≤ turns.length * (2 * MAX_MONEY) := by
  induction h generalizing f i with
  | nil s => exact ⟨f, 0, 0, rfl, ⟨hcounts, ⟨rfl, rfl, rfl, rfl, rfl⟩, by simp, by simp, by simp, by simp⟩,
      by simp, by simp, by simp⟩
  | @cons s t u b bs hturn _ ih =>
    have hpos : 0 ≤ MAX_MONEY := by decide
    have hupdated := hturn.connected.updated
    rw [map_cons] at hdrop hfresh
    rw [length_cons, Nat.cast_succ, add_mul, one_mul] at hspent hnew ⊢
    have hrest : (0 : ℤ) ≤ bs.length * (2 * MAX_MONEY) := mul_nonneg (Int.natCast_nonneg _) (by linarith)
    have hfree := hupdated.created_free hturn.plain horigin (hfresh b.1 mem_cons_self)
    rw [← hheight] at hupdated hfree
    obtain ⟨g, hg, hmoves, hle⟩ :=
      append_tx H subsidy ⟨hturn.checked, hupdated.outpoints, hupdated.distinct, hupdated.found, hfree⟩
      (by simp [hturn.plain]) (fun _ => txUndo_of_drop hundo hdrop) hregular hcounts hmax (by linarith) (by linarith)
      (by simp [hturn.plain])
    rw [hturn.plain, ← hupdated.replay] at hmoves
    simp only [Bool.false_eq_true, if_false] at hmoves
    have hfees := hturn.connected.fees
    have hfees_le := hturn.connected.fees_le
    rw [if_neg (Bool.eq_false_iff.1 hturn.plain)] at hfees
    have hvalue : (b.2.map fun e => e.2.out.value).sum = (b.2.map fun e => coinValue e.2).sum := rfl
    have hout := hturn.checked.total
    have hgamount := hmoves.amount
    have hgspent := hmoves.spent
    have hgnew := hmoves.newOutputs
    have hnext : vtxundo.drop (i + 1) = bs.map fun b => b.2.map Prod.snd := by
      rw [← tail_drop, hdrop, tail_cons]
    have hregular' := hupdated.regular hregular hturn.checked (hheight ▸ hlow) (hheight ▸ hhigh)
    obtain ⟨f', new, spent, hf', hmoves', hdiff, hnew', hspent'⟩ := ih hnext (hupdated.origin horigin)
      (fun tx htx => hfresh tx (mem_cons_of_mem _ htx)) hregular' hmoves.counts (by linarith)
        (by linarith) (by linarith)
    refine ⟨f', _, _, ?_, hmoves.trans hmoves', by linarith, by linarith, by linarith⟩
    rw [map_cons, zipIdx_cons, foldlM_cons_ok]
    exact ⟨g, hg, hf'⟩

/-! ## The books at a block -/

/-- the totals after n blocks that may have created up to a limit, with unspent coins m -/
structure Books (n : ℕ) (limit : CAmount) (m : Utxos) (t : Totals) : Prop where
  regular : RegularLedger m
  counts : Counts t m
  few : m.keys.card ≤ n * MAX_BLOCK_WEIGHT
  flows : t.totalAmount + t.totalPrevoutSpentAmount.toNat = t.totalNewOutputsExCoinbaseAmount.toNat +
    t.totalCoinbaseAmount.toNat
  spent : t.totalPrevoutSpentAmount.toNat ≤ n * 10 ^ 26
  newOutputs : t.totalNewOutputsExCoinbaseAmount.toNat ≤ n * 10 ^ 26
  coinbase : t.totalCoinbaseAmount.toNat ≤ n * 10 ^ 26
  genesis : t.totalUnspendablesGenesisBlock = 0
  bip30 : t.totalUnspendablesBip30 = 0
  scripts : t.totalUnspendablesScripts = 0
  unclaimed : t.totalSubsidy = t.totalAmount + t.totalUnspendablesUnclaimedRewards
  unclaimed_nonneg : 0 ≤ t.totalUnspendablesUnclaimedRewards
  subsidy : t.totalSubsidy ≤ limit

theorem Books.zero : Books 0 0 ∅ Totals.zero where
  regular := by simp [RegularLedger]
  counts := ⟨by rw [weight, Finmap.keys_empty, Finset.sum_empty]; rfl, rfl⟩
  few := by simp
  flows := rfl
  spent := le_refl _
  newOutputs := le_refl _
  coinbase := le_refl _
  genesis := rfl
  bip30 := rfl
  scripts := rfl
  unclaimed := rfl
  unclaimed_nonneg := le_refl _
  subsidy := le_refl _

/-- `CustomAppend` where it does not return early -/
def appendBlock (P : Params) (H : MuHash G) (block : BlockInfo) (f : Figures G) : Except String (Figures G) := do
  let subsidy ← blockSubsidy P block
  let totals ← f.totals.addSubsidy subsidy
  appendFigures P H block subsidy { f with totals }

omit [CommGroup G] in
/-- the figures after the first sum -/
abbrev Figures.withSubsidy (f : Figures G) (subsidy : CAmount) : Figures G :=
  ⟨f.muhash, { f.totals with totalSubsidy := f.totals.totalSubsidy + subsidy }⟩

/-- A block that claims no more than its subsidy and its fees keeps the books. -/
theorem Books.append {P : Params} {H : MuHash G} {f g : Figures G} {n : ℕ} {limit limit' : CAmount} {m m' : Utxos}
    {subsidy coinbase new spent : ℤ} (h : Books n limit m f.totals) (hn : n < 2 ^ 31)
    (hsubsidy : blockSubsidy P block = .ok subsidy) (hpos : 0 ≤ subsidy) (hlimit : limit + subsidy ≤ limit')
    (hmax : limit' < 10 ^ 18) (hbody : appendBody P H block subsidy (f.withSubsidy subsidy) = .ok g)
    (hmoves : Moves (f.withSubsidy subsidy) g m' coinbase new spent) (hregular : RegularLedger m')
    (hfew : m'.keys.card ≤ m.keys.card + MAX_BLOCK_WEIGHT) (hclaimed : coinbase + new ≤ spent + subsidy)
    (hcoinbase : coinbase ≤ 10 ^ 26) (hnew : new ≤ 10 ^ 26) (hspent : spent ≤ 10 ^ 26) :
    ∃ f', appendBlock P H block f = .ok f' ∧ Books (n + 1) limit' m' f'.totals ∧
      f.totals.totalUnspendablesUnclaimedRewards ≤ f'.totals.totalUnspendablesUnclaimedRewards := by
  obtain ⟨hgcounts, hgrest, hgamount, hgcoinbase, hgnew, hgspent⟩ := hmoves
  simp only at hgamount hgcoinbase hgnew hgspent
  have hgsubsidy : g.totals.totalSubsidy = f.totals.totalSubsidy + subsidy := hgrest.subsidy
  have hgunclaimed : g.totals.totalUnspendablesUnclaimedRewards = f.totals.totalUnspendablesUnclaimedRewards :=
    hgrest.unclaimed
  have hunclaimed := h.unclaimed
  have hrest := h.unclaimed_nonneg
  have hflows := h.flows
  have hamount : 0 ≤ f.totals.totalAmount := by
    rw [h.counts.amount]
    exact weight_nonneg h.regular.nonNeg
  have hgpos : 0 ≤ g.totals.totalAmount := by
    rw [hgcounts.amount]
    exact weight_nonneg hregular.nonNeg
  -- the sum of the subsidies stays below the supply
  have htotal := h.subsidy
  have hfirst : f.totals.addSubsidy subsidy =
      .ok { f.totals with totalSubsidy := f.totals.totalSubsidy + subsidy } := by
    rw [Totals.addSubsidy, bind_ok]
    exact ⟨_, amount_ok (by linarith) (by linarith), rfl⟩
  have hspent' : g.totals.totalPrevoutSpentAmount.toNat ≤ (n + 1) * 10 ^ 26 := by have := h.spent; omega
  have hnew' : g.totals.totalNewOutputsExCoinbaseAmount.toNat ≤ (n + 1) * 10 ^ 26 := by have := h.newOutputs; omega
  have hcoinbase' : g.totals.totalCoinbaseAmount.toNat ≤ (n + 1) * 10 ^ 26 := by have := h.coinbase; omega
  have hlast := addUnclaimed_ok (d := subsidy + spent - new - coinbase) (hgrest.genesis.trans h.genesis)
    (hgrest.bip30.trans h.bip30)
    (hgrest.scripts.trans h.scripts) (by rw [hgunclaimed]; exact hrest) (by linarith) (by linarith) (by omega)
      (by omega) (by omega)
    (by linarith) (by linarith) (by linarith)
  refine ⟨⟨g.muhash, { g.totals with totalUnspendablesUnclaimedRewards := g.totals.totalUnspendablesUnclaimedRewards +
    (subsidy + spent - new - coinbase) }⟩, ?_, ?_, by simp only; linarith⟩
  · rw [appendBlock, hsubsidy, bind_ok]
    refine ⟨subsidy, rfl, ?_⟩
    rw [hfirst, bind_ok]
    refine ⟨_, rfl, ?_⟩
    rw [appendFigures, hbody, bind_ok]
    refine ⟨g, rfl, ?_⟩
    rw [hlast, bind_ok]
    exact ⟨_, rfl, rfl⟩
  · exact
      { regular := hregular
        counts := ⟨hgcounts.amount, hgcounts.count⟩
        few := by
          have := h.few
          rw [Nat.succ_mul]
          omega
        flows := by
          simp only
          linarith
        spent := hspent'
        newOutputs := hnew'
        coinbase := hcoinbase'
        genesis := hgrest.genesis.trans h.genesis
        bip30 := hgrest.bip30.trans h.bip30
        scripts := hgrest.scripts.trans h.scripts
        unclaimed := by
          simp only
          linarith
        unclaimed_nonneg := by
          simp only
          linarith
        subsidy := by
          simp only
          linarith }

/-! ## Accepted blocks -/

/-- the block is none that the source names: BIP 30 is enforced, and its coinbase counts -/
def Ordinary (P : Params) (p b : CBlockIndex) : Prop :=
  enforceBIP30 P b p = true ∧ isBIP30Unspendable b.getBlockHash b.nHeight = false

/-- what the index is told of a block of the tree (`MakeBlockInfo`, and what `BaseIndex` reads from disk) -/
def blockInfo (tree : BlockTree) (undo : UndoRecords) (b : CBlockIndex) : BlockInfo where
  hash := b.getBlockHash
  prevHash := b.pprev.map getBlockHash
  height := b.nHeight
  data := tree.body b
  undoData := match b.pprev with
    | none => some []
    | some p => (undo b).bind (readUndoRecord p)

/-- the books at a block -/
def BooksAt (P : Params) (b : CBlockIndex) (m : Utxos) (t : Totals) : Prop :=
  b.nHeight < 2 ^ 31 ∧ Books (b.nHeight + 1) (supplyLimit P b.nHeight) m t

/-- The outputs of a block are limited by its size. -/
theorem outputs_le {block : CBlock} (hbody : BodyOk block) :
    (block.vtx.map fun tx => tx.vout.length).sum ≤ MAX_BLOCK_WEIGHT := by
  have hsize := hbody.size
  have hout : ∀ tx ∈ block.vtx, tx.vout.length ≤ (tx.serialize false).length := by
    intro tx _
    have hvout : tx.vout.length ≤ (vector CTxOut.serialize tx.vout).length := by
      apply length_le_vector
      intro o _
      simp [CTxOut.serialize]
    rw [CTransaction.serialize_noWitness]
    simp only [length_append]
    omega
  have hsum := sum_le_vector hout
  have hblock : (vector (CTransaction.serialize false) block.vtx).length ≤ (block.serialize false).length := by
    rw [CBlock.serialize, length_append]
    omega
  rw [WITNESS_SCALE_FACTOR] at hsize
  omega

/-- A block adds no more coins than it has outputs. -/
theorem card_replayTxs_le (nHeight : ℕ) (vtx : List CTransaction) (m : Utxos) :
    (replayTxs nHeight vtx m).keys.card ≤ m.keys.card + (vtx.map fun tx => tx.vout.length).sum := by
  induction vtx generalizing m with
  | nil => simp [replayTxs]
  | cons tx vtx ih =>
    have hpos : ∀ n : Utxos, NonNeg (fun _ => 1) n := fun n o c _ => zero_le_one
    have hsub : Sub (erases (spentOutpoints tx) m) m := by
      intro o c hc
      rw [lookup_erases] at hc
      split_ifs at hc
      exact hc
    have herased := weight_mono hsub (hpos m)
    have hinserted : weight (fun _ => 1) (replayTx nHeight m tx) ≤
        weight (fun _ => 1) (erases (spentOutpoints tx) m) + ((createdCoins tx nHeight).map fun _ => (1 : ℤ)).sum :=
      weight_inserts_le (hpos (erases (spentOutpoints tx) m)) fun _ _ => zero_le_one
    have hlength : (createdCoins tx nHeight).length ≤ tx.vout.length := by
      rw [createdCoins, coinsOf, length_map]
      exact (length_filter_le _ _).trans (length_zipIdx).le
    have hone : (replayTx nHeight m tx).keys.card ≤ m.keys.card + tx.vout.length := by
      rw [weight_one, weight_one] at herased hinserted
      rw [map_const', sum_replicate, nsmul_eq_mul, mul_one] at hinserted
      omega
    have hrest := ih (replayTx nHeight m tx)
    rw [map_cons, sum_cons]
    change (replayTxs nHeight vtx (replayTx nHeight m tx)).keys.card ≤ _
    omega

section
variable {P : Params} {tree : BlockTree} {undo : UndoRecords} {env : ConnectEnv} {view view' : CoinsView}
  {p : CBlockIndex} {header : CBlockHeader}

section
variable {record : Bytes} {ctx : ConnectContext} {cb : CTransaction} {turns : List Turn} {mid st : ConnectState}
  (h : ChildConnected P tree view view' p header none record ctx cb turns mid st)
  (hrecord : undo (p.child header) = some record) (hint : p.nHeight + 1 < 2 ^ 31)
include h hrecord hint

/-- The undo data of an accepted block is what its transactions spent. -/
theorem child_undoData (hregular : RegularLedger view.coins) :
    (blockInfo tree undo (p.child header)).undoData = some (turns.map fun b => b.2.map Prod.snd) := by
  have hheight : ctx.pindex.nHeight = p.nHeight + 1 := by rw [h.pindex, child_nHeight]
  obtain ⟨hread, -⟩ := written_record h.body h.vtx h.first h.rest h.written []
  have hmid := h.first.updated.regular hregular h.coinbase.2 (by omega) (by omega)
  rw [append_nil, h.rest.stored hmid (by omega) (by omega)] at hread
  change (undo (p.child header)).bind (readUndoRecord p) = _
  rw [hrecord, Option.bind_some, hread]

/-- The transactions of an accepted block: the totals follow the coins, the fees and the coinbase. -/
theorem child_body (H : MuHash G) (subsidy : CAmount) (hordinary : Ordinary P p (p.child header))
    (hover : overwrites view (tree.body (p.child header)) = false) {f : Figures G} (hregular : RegularLedger view.coins)
    (hcounts : Counts f.totals view.coins) (hmax : f.totals.totalAmount ≤ MAX_MONEY)
    (hspent : f.totals.totalPrevoutSpentAmount.toNat ≤ (p.nHeight + 1) * 10 ^ 26)
    (hnew : f.totals.totalNewOutputsExCoinbaseAmount.toNat ≤ (p.nHeight + 1) * 10 ^ 26)
    (hcb : f.totals.totalCoinbaseAmount.toNat ≤ (p.nHeight + 1) * 10 ^ 26) :
    ∃ f' new spent, appendBody P H (blockInfo tree undo (p.child header)) subsidy f = .ok f' ∧
      Moves f f' view'.coins cb.outputSum new spent ∧ spent - new = st.nFees ∧ new ≤ 10 ^ 26 ∧
      spent ≤ 10 ^ 26 := by
  have hmoney : MAX_MONEY = 10 ^ 18 := by decide
  have hheight : ctx.pindex.nHeight = p.nHeight + 1 := by rw [h.pindex, child_nHeight]
  have hfresh := freshIn_of_not_overwrites hover (p.nHeight + 1)
  rw [h.vtx] at hfresh
  obtain ⟨hiscb, hcbOk⟩ := h.coinbase
  have hupdated := h.first.updated
  rw [hheight] at hupdated
  have hmid := hupdated.regular hregular hcbOk (by omega) hint
  have hfees : mid.nFees = 0 := by
    rw [h.first.fees, if_pos hiscb]
    rfl
  have hcount := h.body.count
  rw [h.vtx, length_cons, length_map, WITNESS_SCALE_FACTOR, MAX_BLOCK_WEIGHT] at hcount
  have hlow := weight_nonneg hregular.nonNeg
  rw [← hcounts.amount] at hlow
  have hcbmax := hcbOk.total
  have hcbmin : 0 ≤ cb.outputSum := sum_nonneg (forall_mem_map.2 hcbOk.values)
  -- the coinbase, then the others
  have hplain : isBIP30Unspendable (blockInfo tree undo (p.child header)).hash
      (blockInfo tree undo (p.child header)).height = false := hordinary.2
  obtain ⟨g, hg, hmoves, -⟩ := append_tx H subsidy (i := 0) (Transfers.coinbase hcbOk hiscb (hfresh cb mem_cons_self))
    (fun _ => hplain) (by simp [hiscb]) hregular hcounts (by linarith) (by rw [hmoney]; omega) (by rw [hmoney]; omega)
    (fun _ => by rw [hmoney]; omega)
  rw [hiscb, if_pos rfl, if_pos rfl, map_nil, sum_nil] at hmoves
  have hgcounts := hmoves.counts
  change Counts g.totals (replayTx (p.nHeight + 1) (ConnectState.start view).view.coins cb) at hgcounts
  rw [← hupdated.replay] at hgcounts
  have hgamount := hmoves.amount
  have hundo := child_undoData h hrecord hint hregular
  have hroom : ((g.totals.totalPrevoutSpentAmount.toNat : ℤ) + turns.length * (2 * MAX_MONEY) < 2 ^ 256) := by
    rw [hmoves.spent, hmoney]
    omega
  have hroom' : ((g.totals.totalNewOutputsExCoinbaseAmount.toNat : ℤ) + turns.length * (2 * MAX_MONEY) < 2 ^ 256) := by
    rw [hmoves.newOutputs, hmoney]
    omega
  have horigin : Origin view.coins mid.view := hupdated.origin fun o c hc => Or.inr hc
  obtain ⟨f', new, spent, hf', hmoves', hdiff, hnew', hspent'⟩ := append_turns H subsidy h.rest hheight.symm hundo
    (drop_zero) (by omega) (by omega) horigin (by rw [hheight]; exact fun tx htx => hfresh tx (mem_cons_of_mem _ htx))
      hmid hgcounts (by linarith) hroom hroom'
  have hboth := hmoves.trans hmoves'
  rw [add_zero, zero_add, zero_add] at hboth
  rw [hmoney] at hspent' hnew'
  rw [hfees, sub_zero] at hdiff
  refine ⟨f', new, spent, ?_, by rw [h.coins]; exact hboth, hdiff, by omega, by omega⟩
  have hprocess : (decide ((blockInfo tree undo (p.child header)).height > 0) ||
      spendableGenesis P (blockInfo tree undo (p.child header))) = true := by
    simp [blockInfo]
  rw [appendBody, if_pos hprocess]
  change (tree.body (p.child header)).vtx.zipIdx.foldlM _ f = _
  rw [h.vtx, zipIdx_cons, foldlM_cons_ok]
  exact ⟨g, hg, hf'⟩

end

/-- `CustomAppend` of an accepted block succeeds, and keeps the books. -/
theorem child_books (H : MuHash G) (hinterval : P.nSubsidyHalvingInterval = 3000000) (hint : p.nHeight + 1 < 2 ^ 31)
    (hentry : header.getHash ≠ P.hashGenesisBlock) (hordinary : Ordinary P p (p.child header))
    (hconnect : tree.connect P env (p.child header) view none = .ok (view', undo (p.child header))) {f : Figures G}
    (hbooks : BooksAt P p view.coins f.totals) :
    ∃ f' vtxundo, appendBlock P H (blockInfo tree undo (p.child header)) f = .ok f' ∧
      BooksAt P (p.child header) view'.coins f'.totals ∧
      f.totals.totalUnspendablesUnclaimedRewards ≤ f'.totals.totalUnspendablesUnclaimedRewards ∧
      (blockInfo tree undo (p.child header)).undoData = some vtxundo := by
  have hmoney : MAX_MONEY = 10 ^ 18 := by decide
  obtain ⟨hp, hbooks⟩ := hbooks
  obtain ⟨record, ctx, cb, turns, mid, st, hrecord, hchild, hweight, hover⟩ := connect_child hentry hconnect
  have hheight : ctx.pindex.nHeight = p.nHeight + 1 := by rw [hchild.pindex, child_nHeight]
  have hsubsidy : blockSubsidy P (blockInfo tree undo (p.child header)) =
      .ok (getBlockSubsidyForBlock (p.nHeight + 1) (tree.body (p.child header)) P) :=
    if_neg (by simp [spendableGenesis, blockInfo])
  have hreward := hchild.reward
  rw [hweight, hheight] at hreward
  change _ ≤ st.nFees + getBlockSubsidyForBlock (p.nHeight + 1) (tree.body (p.child header)) P at hreward
  have hpos : 0 ≤ getBlockSubsidyForBlock (p.nHeight + 1) (tree.body (p.child header)) P :=
    (getBlockSubsidyForWeight_range _ _ P).1
  have hle : getBlockSubsidyForBlock (p.nHeight + 1) (tree.body (p.child header)) P ≤
      getBlockSubsidy (p.nHeight + 1) P := getBlockSubsidyForWeight_le _ _ P
  generalize getBlockSubsidyForBlock (p.nHeight + 1) (tree.body (p.child header)) P =
    subsidy at hsubsidy hreward hpos hle
  have hmax := supplyLimit_lt hinterval (p.nHeight + 1)
  rw [hmoney] at hmax
  have hlimit : supplyLimit P p.nHeight + subsidy ≤ supplyLimit P (p.nHeight + 1) := by
    rw [supplyLimit_succ]
    linarith
  have hamount : f.totals.totalAmount ≤ MAX_MONEY := by
    have hunclaimed := hbooks.unclaimed
    have hrest := hbooks.unclaimed_nonneg
    have htotal := hbooks.subsidy
    rw [hmoney]
    linarith
  obtain ⟨g, new, spent, hg, hmoves, hdiff, hnew, hspent⟩ :=
    child_body hchild hrecord hint H subsidy hordinary (hover hordinary.1)
    (f := f.withSubsidy subsidy) hbooks.regular ⟨hbooks.counts.amount, hbooks.counts.count⟩ hamount hbooks.spent
      hbooks.newOutputs
    hbooks.coinbase
  have hregular : RegularLedger view'.coins := by
    rw [hchild.replayed]
    exact hbooks.regular.replayTxs hchild.body.txs hint fun hzero => by rw [child_nHeight] at hzero; omega
  have hfew : view'.coins.keys.card ≤ view.coins.keys.card + MAX_BLOCK_WEIGHT := by
    rw [hchild.replayed]
    exact (card_replayTxs_le _ _ _).trans (Nat.add_le_add_left (outputs_le hchild.body) _)
  have hcbmax := hchild.coinbase.2.total
  rw [hmoney] at hcbmax
  obtain ⟨f', hf', hbooks', hkept⟩ :=
    hbooks.append hint hsubsidy hpos hlimit hmax hg hmoves hregular hfew (by linarith) (by linarith)
    hnew hspent
  exact ⟨f', _, hf', ⟨hint, hbooks'⟩, hkept, child_undoData hchild hrecord hint hbooks.regular⟩

/-- `CustomAppend` of the genesis block: its value is the first subsidy, and all of it is claimed. -/
theorem genesis_books (H : MuHash G) {record : Option Bytes} (hspendable : P.genesisCoinbaseSpendable = true)
    (hvalue : ∀ tx ∈ (tree.body tree.root).vtx, tx.outputSum = 10 ^ 17)
    (hconnect : tree.connectRoot P env = .ok (view, record)) :
    ∃ f : Figures G, appendBlock P H (blockInfo tree undo tree.root) Figures.zero = .ok f ∧
      BooksAt P tree.root view.coins f.totals := by
  obtain ⟨hbody, ⟨tx, hvtx, hcb⟩, hcoins⟩ := connect_genesis hspendable hconnect
  have hdata : (blockInfo tree undo tree.root).data.vtx = [tx] := hvtx
  have htx : tx ∈ (tree.body tree.root).vtx := hvtx ▸ mem_cons_self
  have htxOk := hbody.txs tx htx
  have hgenesis : spendableGenesis P (blockInfo tree undo tree.root) = true := by
    rw [spendableGenesis, hspendable]
    rfl
  have hsubsidy : blockSubsidy P (blockInfo tree undo tree.root) = .ok (10 ^ 17) := by
    rw [blockSubsidy, if_pos hgenesis, hdata]
    exact (getValueOut_eq htxOk).trans (by rw [hvalue tx htx])
  have hplain : isBIP30Unspendable (blockInfo tree undo tree.root).hash 0 = false := by
    simp [isBIP30Unspendable]
  have hbooks : Books 0 0 ∅ (Figures.zero : Figures G).totals := Books.zero
  have hroom : ((0 : ArithUint256).toNat : ℤ) + 2 * MAX_MONEY < 2 ^ 256 := by decide
  have hroom' : ((0 : ArithUint256).toNat : ℤ) + MAX_MONEY < 2 ^ 256 := by decide
  obtain ⟨g, hg, hmoves, -⟩ := append_tx H (10 ^ 17) (i := 0) (f := Figures.zero.withSubsidy (10 ^ 17))
    (Transfers.coinbase (m := ∅) htxOk hcb (by simp)) (fun _ => hplain) (by simp [hcb]) hbooks.regular
    ⟨hbooks.counts.amount, hbooks.counts.count⟩ (show (0 : ℤ) ≤ 2 * MAX_MONEY by decide) hroom hroom' fun _ => hroom'
  rw [hcb, if_pos rfl, if_pos rfl, map_nil, sum_nil, hvalue tx htx] at hmoves
  have hprocess : appendBody P H (blockInfo tree undo tree.root) (10 ^ 17)
      (Figures.zero.withSubsidy (10 ^ 17)) = .ok g := by
    rw [appendBody, if_pos (by rw [hgenesis, Bool.or_true]), hdata, zipIdx_singleton, foldlM_cons_ok]
    exact ⟨g, hg, rfl⟩
  have hledger : view.coins = replayTx 0 ∅ tx := by
    rw [hcoins, utxo, hvtx]
    rfl
  have hfew : view.coins.keys.card ≤ (∅ : Utxos).keys.card + MAX_BLOCK_WEIGHT := by
    rw [hcoins]
    exact (card_replayTxs_le _ _ _).trans (Nat.add_le_add_left (outputs_le hbody) _)
  have hlimit : (0 : CAmount) + 10 ^ 17 ≤ supplyLimit P 0 := by simp [supplyLimit]
  obtain ⟨f, hf, hbooks', -⟩ :=
    hbooks.append (by norm_num) hsubsidy (by norm_num) hlimit (by simp [supplyLimit]) hprocess
    (hledger ▸ hmoves) (genesis_coins hconnect).2.1 hfew (by norm_num) (by norm_num) (by norm_num) (by norm_num)
  exact ⟨f, hf, by rw [root_nHeight]; norm_num, hbooks'⟩

end

/-! ## One call -/

section
variable {P : Params} {H : MuHash G} {block : BlockInfo} {f f' : Figures G}

/-- On the tip, `CustomAppend` adds the figures of the block and stores them. -/
theorem customAppend_ok {s : CoinStatsIndex G} (h : appendBlock P H block s.figures = .ok f')
    (hprev : block.height > 0 → block.prevHash = some s.currentBlockHash) :
    customAppend P H s block = .ok (true, ⟨f', block.hash,
      Function.update s.db block.height (some (block.hash, ⟨H.finalize f'.muhash, f'.totals⟩))⟩) := by
  rw [appendBlock, bind_ok] at h
  obtain ⟨subsidy, hsubsidy, h⟩ := h
  rw [bind_ok] at h
  obtain ⟨totals, htotals, hfigures⟩ := h
  rw [customAppend, hsubsidy, bind_ok]
  refine ⟨subsidy, rfl, ?_⟩
  rw [htotals, bind_ok]
  refine ⟨totals, rfl, ?_⟩
  have hnone : ¬ (decide (block.height > 0) && block.prevHash.isNone) = true := by
    rw [Bool.and_eq_true, decide_eq_true_eq]
    rintro ⟨hpos, hnot⟩
    simp [hprev hpos] at hnot
  have hother : ¬ (decide (block.height > 0) && block.prevHash != some s.currentBlockHash) = true := by
    rw [Bool.and_eq_true, decide_eq_true_eq]
    rintro ⟨hpos, hnot⟩
    simp [hprev hpos] at hnot
  simp only
  rw [if_neg hnone, if_neg hother, hfigures, bind_ok]
  exact ⟨f', rfl, rfl⟩

/-- What a block put into the hash is taken out of it again. -/
theorem appendBlock_undone (h : appendBlock P H block f = .ok f') (hheight : block.height > 0) :
    block.data.vtx.zipIdx.foldlM (revertTx H block) f'.muhash = .ok f.muhash := by
  rw [appendBlock, bind_ok] at h
  obtain ⟨subsidy, -, h⟩ := h
  rw [bind_ok] at h
  obtain ⟨totals, -, h⟩ := h
  rw [appendFigures, bind_ok] at h
  obtain ⟨g, hbody, h⟩ := h
  rw [bind_ok] at h
  obtain ⟨_, -, hend⟩ := h
  cases hend
  rw [appendBody, if_pos (by rw [decide_eq_true hheight, Bool.true_or])] at hbody
  obtain ⟨x, hx, hback⟩ := (appendTx_undone H block subsidy).foldlM _ _ g hbody
  refine (hback g.muhash).trans ?_
  rw [hx, mul_div_cancel_right]

/-- `RevertBlock` of the block appended last finds the hash of the record before, and takes the totals from it. -/
theorem revertBlock_ok {s : CoinStatsIndex G} {hash : Uint256} {vtxundo : CBlockUndo}
    (h : appendBlock P H block f = .ok s.figures) (hheight : block.height > 0)
    (hdb : s.db (block.height - 1) = some (hash, ⟨H.finalize f.muhash, f.totals⟩))
    (hprev : block.prevHash = some hash) (hundo : block.undoData = some vtxundo) :
    revertBlock H s block = .ok (true, { s with figures := f, currentBlockHash := hash }) := by
  have hread : readBefore s block = some (hash, ⟨H.finalize f.muhash, f.totals⟩) := by
    rw [readBefore, if_pos hheight, hdb, hprev, Option.filter_some_pos (by simp)]
  rw [revertBlock, hread]
  simp only [hundo, hprev]
  rw [appendBlock_undone h hheight, bind_ok]
  refine ⟨f.muhash, rfl, ?_⟩
  rw [if_pos rfl]
  rfl

end

/-! ## Histories -/

/-- what the index is called for -/
inductive Event where
  | append (block : BlockInfo)
  | revert (block : BlockInfo)

/-- one call; the node stops at one that returns false -/
def step (P : Params) (H : MuHash G) (s : CoinStatsIndex G) (e : Event) : Except String (CoinStatsIndex G) := do
  let (done, s) ← match e with
    | .append block => customAppend P H s block
    | .revert block => revertBlock H s block
  if done then return s else .error "the index returned false"

def run (P : Params) (H : MuHash G) (events : List Event) : Except String (CoinStatsIndex G) :=
  events.foldlM (step P H) .empty

/-- accepted blocks that came and went, and those that are left, each with the unspent coins after it -/
inductive History (P : Params) (tree : BlockTree) (undo : UndoRecords) : List Event → List (CBlockIndex × Utxos) → Prop
  | genesis {view : CoinsView} {record : Option Bytes} (env : ConnectEnv)
      (hconnect : tree.connectRoot P env = .ok (view, record)) :
      History P tree undo [.append (blockInfo tree undo tree.root)] [(tree.root, view.coins)]
  | append {events : List Event} {p : CBlockIndex} {view view' : CoinsView}
      {rest : List (CBlockIndex × Utxos)} (h : History P tree undo events ((p, view.coins) :: rest))
        (env : ConnectEnv) (header : CBlockHeader)
      (hint : p.nHeight + 1 < 2 ^ 31) (hentry : header.getHash ≠ P.hashGenesisBlock)
        (hordinary : Ordinary P p (p.child header))
      (hconnect : tree.connect P env (p.child header) view none = .ok (view', undo (p.child header))) :
      History P tree undo (events ++ [.append (blockInfo tree undo (p.child header))])
        ((p.child header, view'.coins) :: (p, view.coins) :: rest)
  | revert {events : List Event} {top below : CBlockIndex × Utxos}
      {rest : List (CBlockIndex × Utxos)} (h : History P tree undo events (top :: below :: rest)) :
      History P tree undo (events ++ [.revert (blockInfo tree undo top.1)]) (below :: rest)

section
variable {P : Params} {H : MuHash G} {tree : BlockTree} {undo : UndoRecords} {db db' : ℕ → Option (Uint256 × DBVal)}

/-- the record of a block -/
def recordOf (H : MuHash G) (b : CBlockIndex) (f : Figures G) : Uint256 × DBVal :=
  (b.getBlockHash, ⟨H.finalize f.muhash, f.totals⟩)

/-- f are the figures at the tip of a chain, and the records of its blocks are stored -/
inductive Kept (P : Params) (H : MuHash G) (tree : BlockTree) (undo : UndoRecords)
    (db : ℕ → Option (Uint256 × DBVal)) : List (CBlockIndex × Utxos) → Figures G → Prop
  | genesis {m : Utxos} {f : Figures G}
      (happend : appendBlock P H (blockInfo tree undo tree.root) Figures.zero = .ok f)
      (hbooks : BooksAt P tree.root m f.totals) (hdb : db 0 = some (recordOf H tree.root f)) :
      Kept P H tree undo db [(tree.root, m)] f
  | child {p : CBlockIndex} {m m' : Utxos} {rest : List (CBlockIndex × Utxos)} {f f' : Figures G}
      {header : CBlockHeader} {vtxundo : CBlockUndo} (h : Kept P H tree undo db ((p, m) :: rest) f)
      (happend : appendBlock P H (blockInfo tree undo (p.child header)) f = .ok f')
      (hbooks : BooksAt P (p.child header) m' f'.totals)
      (hle : f.totals.totalUnspendablesUnclaimedRewards ≤ f'.totals.totalUnspendablesUnclaimedRewards)
      (hundo : (blockInfo tree undo (p.child header)).undoData = some vtxundo)
      (hdb : db (p.nHeight + 1) = some (recordOf H (p.child header) f')) :
      Kept P H tree undo db ((p.child header, m') :: (p, m) :: rest) f'

variable {rest chain : List (CBlockIndex × Utxos)} {s s' : CoinStatsIndex G} {b : CBlockIndex} {m : Utxos}
  {events : List Event} {block : BlockInfo} {f : Figures G}

theorem Kept.top (h : Kept P H tree undo db ((b, m) :: rest) f) :
    BooksAt P b m f.totals ∧ db b.nHeight = some (recordOf H b f) := by
  cases h with
  | genesis _ hbooks hdb => exact ⟨hbooks, hdb⟩
  | child _ _ hbooks _ _ hdb => exact ⟨hbooks, hdb⟩

/-- A record above the tip changes nothing. -/
theorem Kept.write (h : Kept P H tree undo db ((b, m) :: rest) f) (hsame : ∀ n ≤ b.nHeight, db' n = db n) :
    Kept P H tree undo db' ((b, m) :: rest) f := by
  generalize hchain : (b, m) :: rest = chain at h
  induction h generalizing b m rest with
  | genesis happend hbooks hdb => exact Kept.genesis happend hbooks (by rw [hsame 0 (Nat.zero_le _), hdb])
  | @child p m₀ m' rest' f f' header vtxundo _ happend hbooks hle hundo hdb ih =>
    obtain ⟨hhead, -⟩ := List.cons.inj hchain
    have hb : b = p.child header := congrArg Prod.fst hhead
    rw [hb, child_nHeight] at hsame
    exact Kept.child (ih (fun n hn => hsame n (by omega)) rfl) happend hbooks hle hundo
      (by rw [hsame _ (le_refl _), hdb])

/-- The chain determines the figures. -/
theorem Kept.unique {f' : Figures G} (h : Kept P H tree undo db chain f) (h' : Kept P H tree undo db' chain f') :
    f = f' := by
  induction h generalizing f' with
  | genesis happend _ _ =>
    cases h' with
    | genesis happend' _ _ => exact Except.ok.inj (happend.symm.trans happend')
  | @child p m m' rest f g header vtxundo _ happend _ _ _ _ ih =>
    generalize hb : p.child header = b at h'
    cases h' with
    | @child q _ _ _ f₁ _ header' _ hbelow happend' _ _ _ _ =>
      obtain rfl := ih hbelow
      rw [hb] at happend
      exact Except.ok.inj (happend.symm.trans happend')

theorem step_append (h : customAppend P H s block = .ok (true, s')) : step P H s (.append block) = .ok s' := by
  rw [step, bind_ok]
  exact ⟨(true, s'), h, if_pos rfl⟩

theorem step_revert (h : revertBlock H s block = .ok (true, s')) : step P H s (.revert block) = .ok s' := by
  rw [step, bind_ok]
  exact ⟨(true, s'), h, if_pos rfl⟩

theorem run_concat {e : Event} (h : run P H events = .ok s) (hstep : step P H s e = .ok s') :
    run P H (events ++ [e]) = .ok s' := by
  rw [run, foldlM_append, bind_ok]
  exact ⟨s, h, foldlM_cons_ok.2 ⟨s', hstep, rfl⟩⟩

/-- the index is at the tip of a chain -/
structure AtTip (P : Params) (H : MuHash G) (tree : BlockTree) (undo : UndoRecords) (s : CoinStatsIndex G)
    (b : CBlockIndex) (m : Utxos) (rest : List (CBlockIndex × Utxos)) : Prop where
  kept : Kept P H tree undo s.db ((b, m) :: rest) s.figures
  hash : s.currentBlockHash = b.getBlockHash

/-- Reverting the tip brings the figures of the block below it back. -/
theorem AtTip.revert {m' : Utxos} {below : CBlockIndex × Utxos} (h : AtTip P H tree undo s b m' (below :: rest)) :
    ∃ s', step P H s (.revert (blockInfo tree undo b)) = .ok s' ∧ AtTip P H tree undo s' below.1 below.2 rest := by
  obtain ⟨hkept, -⟩ := h
  cases hkept with
  | @child p m _ _ f _ header vtxundo hbelow happend hbooks hle hundo hdb =>
    obtain ⟨-, hrecord⟩ := hbelow.top
    have hrevert := revertBlock_ok happend (Nat.succ_pos _) hrecord rfl hundo
    exact ⟨_, step_revert hrevert, hbelow, rfl⟩

/-- Every history runs through. -/
theorem History.atTip (hinterval : P.nSubsidyHalvingInterval = 3000000) (hspendable : P.genesisCoinbaseSpendable = true)
    (hvalue : ∀ tx ∈ (tree.body tree.root).vtx, tx.outputSum = 10 ^ 17)
    (h : History P tree undo events chain) :
    ∃ s b m rest, run P H events = .ok s ∧ chain = (b, m) :: rest ∧ AtTip P H tree undo s b m rest := by
  induction h with
  | @genesis view record env hconnect =>
    obtain ⟨f, happend, hbooks⟩ := genesis_books H hspendable hvalue hconnect
    have hcall : customAppend P H CoinStatsIndex.empty (blockInfo tree undo tree.root) = _ :=
      customAppend_ok happend fun hheight => absurd hheight (lt_irrefl 0)
    have hstart : run P H [] = .ok .empty := rfl
    exact ⟨_, _, _, [], run_concat hstart (step_append hcall), rfl,
      Kept.genesis happend hbooks (by simp [blockInfo, recordOf]), rfl⟩
  | @append events p view view' rest _ env header hint hentry hordinary hconnect ih =>
    obtain ⟨s, b, m, rest', hrun, hchain, hkept, hhash⟩ := ih
    cases hchain
    obtain ⟨f', vtxundo, happend, hbooks, hle, hundo⟩ :=
      child_books H hinterval hint hentry hordinary hconnect hkept.top.1
    have hcall := customAppend_ok happend fun _ => by rw [hhash]; rfl
    refine ⟨_, _, _, _, run_concat hrun (step_append hcall), rfl,
      Kept.child (hkept.write fun n hn => ?_) happend hbooks hle hundo ?_, rfl⟩
    · exact Function.update_of_ne (by change n ≠ p.nHeight + 1; omega) _ _
    · exact Function.update_self _ _ _
  | @revert events top below rest _ ih =>
    obtain ⟨s, b, m, rest', hrun, hchain, htip⟩ := ih
    cases hchain
    obtain ⟨s', hstep, htip'⟩ := htip.revert
    exact ⟨s', _, _, _, run_concat hrun hstep, rfl, htip'⟩

/-- **Coin statistics.** Over every history of accepted blocks that are appended on the tip and reverted from it, no
call fails: no sum leaves its type and no assertion fires. At the tip, the total amount is the value of the unspent
coins and the output count their number; subsidies and spent coins make up new outputs, coinbase outputs and what is
unspendable; the unclaimed rewards are not negative and no block lowers them. Whatever came in between, reverting a
block gives back the figures that were there before it. -/
theorem coin_stats_balance (hinterval : P.nSubsidyHalvingInterval = 3000000)
    (hspendable : P.genesisCoinbaseSpendable = true)
    (hvalue : ∀ tx ∈ (tree.body (root tree.genesis)).vtx, (tx.vout.map CTxOut.value).sum = 10 ^ 17)
    {events : List Event} {b : CBlockIndex} {m : Utxos} {rest : List (CBlockIndex × Utxos)}
    (h : History P tree undo events ((b, m) :: rest)) :
    ∃ s, run P H events = .ok s ∧ s.figures.totals.totalAmount = weight coinValue m ∧
      s.figures.totals.transactionOutputCount.toNat = m.keys.card ∧
      s.figures.totals.totalSubsidy + s.figures.totals.totalPrevoutSpentAmount.toNat =
        s.figures.totals.totalNewOutputsExCoinbaseAmount.toNat + s.figures.totals.totalCoinbaseAmount.toNat +
          (s.figures.totals.totalUnspendablesGenesisBlock + s.figures.totals.totalUnspendablesBip30 +
            s.figures.totals.totalUnspendablesScripts + s.figures.totals.totalUnspendablesUnclaimedRewards) ∧
      0 ≤ s.figures.totals.totalUnspendablesUnclaimedRewards ∧
      ∀ events' top, History P tree undo events' (top :: (b, m) :: rest) → ∃ s₁ s₂, run P H events' = .ok s₁ ∧
          s.figures.totals.totalUnspendablesUnclaimedRewards ≤ s₁.figures.totals.totalUnspendablesUnclaimedRewards ∧
          run P H (events' ++ [.revert (blockInfo tree undo top.1)]) = .ok s₂ ∧ s₂.figures = s.figures ∧
          s₂.currentBlockHash = s.currentBlockHash := by
  obtain ⟨s, b, m, rest, hrun, hchain, htip⟩ := h.atTip (H := H) hinterval hspendable hvalue
  cases hchain
  obtain ⟨⟨hheight, hbooks⟩, -⟩ := htip.kept.top
  have hcard : m.keys.card < 2 ^ 64 := by
    have hfew := hbooks.few
    rw [MAX_BLOCK_WEIGHT] at hfew
    omega
  refine ⟨s, hrun, hbooks.counts.amount, ?_, ?_, hbooks.unclaimed_nonneg, ?_⟩
  · rw [hbooks.counts.count, UInt64.toNat_ofNat_of_lt' (by rw [UInt64.size]; omega)]
  · rw [hbooks.genesis, hbooks.bip30, hbooks.scripts]
    have hflows := hbooks.flows
    have hunclaimed := hbooks.unclaimed
    linarith
  · intro events' top h'
    obtain ⟨s₁, b₁, m₁, rest₁, hrun₁, hchain₁, htip₁⟩ := h'.atTip (H := H) hinterval hspendable hvalue
    cases hchain₁
    obtain ⟨s₂, hstep, htip₂⟩ := htip₁.revert
    refine ⟨s₁, s₂, hrun₁, ?_, run_concat hrun₁ hstep, htip₂.kept.unique htip.kept, by rw [htip₂.hash, htip.hash]⟩
    cases htip₁.kept with
    | child hbelow _ _ hle _ _ =>
      rw [htip.kept.unique hbelow]
      exact hle

end

end

/-! ## A block that comes and goes -/

section
attribute [local instance] toyCrypto

/-- a running hash that adds up values -/
def valueHash : MuHash (Multiplicative ℤ) where
  element _ c := Multiplicative.ofAdd c.out.value
  finalize g := Uint256.ofNat g.toAdd.toNat

/-- the calls for the two blocks and the second one's leaving -/
def twoBlockEvents (undo : UndoRecords) : List Event :=
  [.append (blockInfo twoBlockTree undo twoBlockTree.root),
    .append (blockInfo twoBlockTree undo firstBlock),
    .revert (blockInfo twoBlockTree undo firstBlock)]

theorem twoBlocks_history : ∃ undo m,
    History twoBlockParams twoBlockTree undo (twoBlockEvents undo) [(twoBlockTree.root, m)] := by
  obtain ⟨r, hgenesis, hfirst⟩ := twoBlocks_views
  obtain ⟨r', hchild⟩ := hfirst r.1 (by simp)
  have hordinary : Ordinary twoBlockParams twoBlockTree.root
      firstBlock := ⟨by decide +kernel, by decide +kernel⟩
  have hone : History twoBlockParams twoBlockTree (fun _ => r'.2) _ _ := History.genesis plainEnv hgenesis
  have htwo := hone.append plainEnv firstHeader (by rw [root_nHeight]; norm_num) (by decide +kernel) hordinary hchild
  exact ⟨_, _, htwo.revert⟩

/-- After the second block has come and gone, the value of the genesis coinbase is counted. -/
theorem twoBlocks_counted : ∃ (undo : UndoRecords) (m : Utxos) (s : CoinStatsIndex (Multiplicative ℤ)),
      History twoBlockParams twoBlockTree undo (twoBlockEvents undo) [(root twoBlockTree.genesis, m)] ∧
    run twoBlockParams valueHash (twoBlockEvents undo) = .ok s ∧
    s.figures.totals.totalAmount = weight coinValue m ∧ s.figures.totals.transactionOutputCount.toNat = m.keys.card ∧
    0 ≤ s.figures.totals.totalUnspendablesUnclaimedRewards := by
  obtain ⟨undo, m, hhistory⟩ := twoBlocks_history
  obtain ⟨s, hrun, hamount, hcount, -, hpos, -⟩ := coin_stats_balance (H := valueHash) rfl rfl twoBlocks_value hhistory
  exact ⟨undo, m, s, hhistory, hrun, hamount, hcount, hpos⟩

end

end CoinStats

end ConnectCoin
