/-
The coin statistics index (`CoinStatsIndex::CustomAppend` and `RevertBlock` in `index/coinstatsindex.cpp`).

- `Totals`: the members that a `DBVal` has too; `Figures`: with the running hash. Counters are 64-bit and wrap, the sums
  of flows are `arith_uint256` and wrap, and a `CAmount` that leaves its 64 bits is an error, as is every failed
  assertion.
- `MuHash`: the running hash is an element of a commutative group. Inserting a coin multiplies by the coin's element,
  removing it divides.
- `CoinStatsIndex`: the members, and the records by height. The hash index is left out: what
  `CopyHeightIndexToHashIndex` stores there is a `DBVal` without its hash, too short to be read as the pair that
  `RevertBlock` asks for.
Results:
- `appendTxs_muhash`: `RevertBlock` takes out of the hash what `CustomAppend` put in, for any block and undo data;
- `appendOutputs_ok`, `removeInputs_ok`: in range, the loops add and remove their coins one by one (`Figures.add`,
  `Figures.remove`).
-/
import ConnectCoin.Chainstate.Supply

namespace ConnectCoin.CoinStats

open Lib List

/-! ## Amounts -/

/-- a result in `CAmount` -/
def amount (a : ℤ) : Except String CAmount := if -2 ^ 63 ≤ a ∧ a < 2 ^ 63 then .ok a else .error "signed overflow"

/-- a `CAmount` as an operand of `arith_uint256` -/
def arith (a : CAmount) : ArithUint256 := (BitVec.ofInt 64 a).setWidth 256

theorem amount_ok {a : ℤ} (hlow : 0 ≤ a) (hhigh : a < 2 ^ 63) : amount a = .ok a := if_pos ⟨by linarith, hhigh⟩

theorem arith_lt (a : CAmount) : (arith a).toNat < 2 ^ 64 := by
  rw [arith, BitVec.toNat_setWidth]
  exact lt_of_le_of_lt (Nat.mod_le _ _) (BitVec.isLt _)

theorem arith_toNat {a : CAmount} (hlow : 0 ≤ a) (hhigh : a < 2 ^ 63) : ((arith a).toNat : ℤ) = a := by
  have h64 : ((BitVec.ofInt 64 a).toNat : ℤ) = a := by
    rw [BitVec.toNat_ofInt, Int.toNat_of_nonneg (Int.emod_nonneg _ (by norm_num))]
    exact Int.emod_eq_of_lt hlow (by norm_num; linarith)
  rw [arith, BitVec.toNat_setWidth, Nat.mod_eq_of_lt]
  · exact h64
  · exact lt_of_lt_of_le (BitVec.isLt _) (by norm_num)

/-! ## Steps that are undone -/

/-- back takes out of a group element what step put in -/
def Undoes {G σ α : Type} [Group G] (value : σ → G) (step : σ → α → Except String σ) (back : G → α → Except String G) :
    Prop := ∀ s a s', step s a = .ok s' → ∃ x, value s' = value s * x ∧ ∀ g, back g a = .ok (g / x)

/-- A loop of steps that are undone is undone, in the order in which it ran. -/
theorem Undoes.foldlM {G σ α : Type} [CommGroup G] {value : σ → G} {step : σ → α → Except String σ}
    {back : G → α → Except String G} (h : Undoes value step back) :
    Undoes value (fun s (as : List α) => as.foldlM step s) fun g as => as.foldlM back g := by
  intro s as s' hrun
  simp only at hrun ⊢
  induction as generalizing s with
  | nil =>
    cases hrun
    exact ⟨1, (mul_one _).symm, fun g => by rw [div_one]; rfl⟩
  | cons a as ih =>
    obtain ⟨mid, hmid, hrest⟩ := foldlM_cons_ok.1 hrun
    obtain ⟨x, hx, hback⟩ := h s a mid hmid
    obtain ⟨y, hy, hbacks⟩ := ih mid hrest
    refine ⟨x * y, by rw [hy, hx, mul_assoc], fun g => ?_⟩
    rw [foldlM_cons_ok]
    exact ⟨g / x, hback g, by rw [hbacks, div_div]⟩

section
variable [Crypto]

/-! ## The index -/

/-- `interfaces::BlockInfo` -/
structure BlockInfo where
  hash : Uint256
  prevHash : Option Uint256
  height : ℕ
  data : CBlock
  undoData : Option CBlockUndo

/-- what is counted and summed up -/
structure Totals where
  transactionOutputCount : UInt64
  bogoSize : UInt64
  totalAmount : CAmount
  totalSubsidy : CAmount
  totalPrevoutSpentAmount : ArithUint256
  totalNewOutputsExCoinbaseAmount : ArithUint256
  totalCoinbaseAmount : ArithUint256
  totalUnspendablesGenesisBlock : CAmount
  totalUnspendablesBip30 : CAmount
  totalUnspendablesScripts : CAmount
  totalUnspendablesUnclaimedRewards : CAmount
  deriving DecidableEq

structure DBVal where
  muhash : Uint256
  totals : Totals

/-- `MuHash3072`: the element of a coin, and the digest of a product -/
structure MuHash (G : Type) where
  element : COutPoint → Coin → G
  finalize : G → Uint256

structure Figures (G : Type) where
  muhash : G
  totals : Totals

/-- the members, with the records by height -/
structure CoinStatsIndex (G : Type) where
  figures : Figures G
  currentBlockHash : Uint256
  db : ℕ → Option (Uint256 × DBVal)

def Totals.zero : Totals := ⟨0, 0, 0, 0, 0, 0, 0, 0, 0, 0, 0⟩

/-- `GetBogoSize` -/
def getBogoSize (scriptPubKey : Bytes) : UInt64 := 32 + 4 + 4 + 8 + 2 + UInt64.ofNat scriptPubKey.length

variable {G : Type} [CommGroup G]

def Figures.zero : Figures G := ⟨1, Totals.zero⟩

/-- an index with nothing in it -/
def CoinStatsIndex.empty : CoinStatsIndex G := ⟨Figures.zero, Uint256.null, fun _ => none⟩

/-! ## One coin -/

variable (H : MuHash G)

/-- a coin comes, from a coinbase or not -/
def Figures.add (isCoinbase : Bool) (f : Figures G) (e : COutPoint × Coin) : Figures G :=
  let t := f.totals
  let value := e.2.out.value
  { muhash := f.muhash * H.element e.1 e.2
    totals := { t with
      totalCoinbaseAmount := if isCoinbase then t.totalCoinbaseAmount + arith value else t.totalCoinbaseAmount
      totalNewOutputsExCoinbaseAmount :=
        if isCoinbase then t.totalNewOutputsExCoinbaseAmount else t.totalNewOutputsExCoinbaseAmount + arith value
      transactionOutputCount := t.transactionOutputCount + 1
      totalAmount := t.totalAmount + value
      bogoSize := t.bogoSize + getBogoSize e.2.out.scriptPubKey } }

/-- a coin leaves -/
def Figures.remove (f : Figures G) (e : COutPoint × Coin) : Figures G :=
  let t := f.totals
  let value := e.2.out.value
  { muhash := f.muhash / H.element e.1 e.2
    totals := { t with
      totalPrevoutSpentAmount := t.totalPrevoutSpentAmount + arith value
      transactionOutputCount := t.transactionOutputCount - 1
      totalAmount := t.totalAmount - value
      bogoSize := t.bogoSize - getBogoSize e.2.out.scriptPubKey } }

/-! ## CustomAppend -/

/-- one turn of the loop over the outputs -/
def appendOutput (block : BlockInfo) (tx : CTransaction) (f : Figures G) (output : CTxOut × ℕ) :
    Except String (Figures G) := do
  let e := outputCoin tx block.height output
  if e.2.out.isUnspendable then
    let scripts ← amount (f.totals.totalUnspendablesScripts + e.2.out.value)
    return { f with totals := { f.totals with totalUnspendablesScripts := scripts } }
  else
    let _ ← amount (f.totals.totalAmount + e.2.out.value)
    return f.add H tx.isCoinBase e

/-- one turn of the loop over the undo data of a transaction -/
def removeInput (tx : CTransaction) (f : Figures G) (undo : Coin × ℕ) : Except String (Figures G) :=
  match tx.vin[undo.2]? with
  | none => .error "tx->vin[j] is out of range"
  | some txin => do
    let _ ← amount (f.totals.totalAmount - undo.1.out.value)
    return f.remove H (txin.prevout, undo.1)

/-- the undo data of the i-th transaction -/
def BlockInfo.txUndo (block : BlockInfo) (i : ℕ) : Except String CTxUndo :=
  match block.undoData with
  | none => .error "assertion failed: block.undo_data"
  | some vtxundo =>
    match i with
    | 0 => .error "vector::at" -- the index wraps around
    | j + 1 => match vtxundo[j]? with
      | none => .error "vector::at"
      | some txundo => .ok txundo

/-- one turn of the loop over the transactions -/
def appendTx (block : BlockInfo) (blockSubsidy : CAmount) (f : Figures G) (txi : CTransaction × ℕ) :
    Except String (Figures G) := do
  let (tx, i) := txi
  if tx.isCoinBase && isBIP30Unspendable block.hash block.height then
    let bip30 ← amount (f.totals.totalUnspendablesBip30 + blockSubsidy)
    return { f with totals := { f.totals with totalUnspendablesBip30 := bip30 } }
  else
    let f ← tx.vout.zipIdx.foldlM (appendOutput H block tx) f
    if tx.isCoinBase then return f
    else
      let txundo ← block.txUndo i
      txundo.zipIdx.foldlM (removeInput H tx) f

/-- the genesis block with a spendable output -/
def spendableGenesis (P : Params) (block : BlockInfo) : Bool := block.height == 0 && P.genesisCoinbaseSpendable

/-- what the block may create -/
def blockSubsidy (P : Params) (block : BlockInfo) : Except String CAmount :=
  if spendableGenesis P block then
    match block.data.vtx with
    | [] => .error "front of an empty vector"
    | tx :: _ => tx.getValueOut
  else .ok (getBlockSubsidyForBlock block.height block.data P)

def Totals.addSubsidy (t : Totals) (subsidy : CAmount) : Except String Totals := do
  let totalSubsidy ← amount (t.totalSubsidy + subsidy)
  return { t with totalSubsidy }

/-- the transactions, or a genesis block whose coinbase is unspendable -/
def appendBody (P : Params) (H : MuHash G) (block : BlockInfo) (subsidy : CAmount) (f : Figures G) :
    Except String (Figures G) :=
  if block.height > 0 || spendableGenesis P block then block.data.vtx.zipIdx.foldlM (appendTx H block subsidy) f
  else do
    let genesis ← amount (f.totals.totalUnspendablesGenesisBlock + subsidy)
    return { f with totals := { f.totals with totalUnspendablesGenesisBlock := genesis } }

/-- what came in and did not go out is unclaimed -/
def Totals.addUnclaimed (t : Totals) : Except String Totals := do
  let unspendable ← amount (t.totalUnspendablesGenesisBlock + t.totalUnspendablesBip30)
  let unspendable ← amount (unspendable + t.totalUnspendablesScripts)
  let unspendable ← amount (unspendable + t.totalUnspendablesUnclaimedRewards)
  let unclaimedRewards := (t.totalPrevoutSpentAmount + arith t.totalSubsidy) -
    (t.totalNewOutputsExCoinbaseAmount + t.totalCoinbaseAmount + arith unspendable)
  if unclaimedRewards.toNat ≤ 2 ^ 63 - 1 then
    let unclaimed ← amount (t.totalUnspendablesUnclaimedRewards + unclaimedRewards.toNat)
    return { t with totalUnspendablesUnclaimedRewards := unclaimed }
  else .error "assertion failed: unclaimed_rewards <= arith_uint256(std::numeric_limits<CAmount>::max())"

/-- `CustomAppend` behind its first sum -/
def appendFigures (P : Params) (H : MuHash G) (block : BlockInfo) (subsidy : CAmount) (f : Figures G) :
    Except String (Figures G) := do
  let f ← appendBody P H block subsidy f
  let totals ← f.totals.addUnclaimed
  return { f with totals }

/-- `CustomAppend`: what it returns, and the members it leaves -/
def customAppend (P : Params) (H : MuHash G) (s : CoinStatsIndex G) (block : BlockInfo) :
    Except String (Bool × CoinStatsIndex G) := do
  let subsidy ← blockSubsidy P block
  let totals ← s.figures.totals.addSubsidy subsidy
  let figures := { s.figures with totals }
  if block.height > 0 && block.prevHash.isNone then .error "assertion failed: block.prev_hash"
  else if block.height > 0 && block.prevHash != some s.currentBlockHash then return (false, { s with figures })
  else
    let figures ← appendFigures P H block subsidy figures
    let value := (block.hash, ⟨H.finalize figures.muhash, figures.totals⟩)
    return (true, ⟨figures, block.hash, Function.update s.db block.height (some value)⟩)

/-! ## RevertBlock -/

/-- one turn of the loop over the outputs -/
def revertOutput (block : BlockInfo) (tx : CTransaction) (muhash : G) (output : CTxOut × ℕ) : Except String G :=
  let e := outputCoin tx block.height output
  if e.2.out.isUnspendable then .ok muhash else .ok (muhash / H.element e.1 e.2)

/-- one turn of the loop over the undo data of a transaction -/
def restoreInput (tx : CTransaction) (muhash : G) (undo : Coin × ℕ) : Except String G :=
  match tx.vin[undo.2]? with
  | none => .error "tx->vin[j] is out of range"
  | some txin => .ok (muhash * H.element txin.prevout undo.1)

/-- one turn of the loop over the transactions -/
def revertTx (block : BlockInfo) (muhash : G) (txi : CTransaction × ℕ) : Except String G := do
  let (tx, i) := txi
  if tx.isCoinBase && isBIP30Unspendable block.hash block.height then return muhash
  else
    let muhash ← tx.vout.zipIdx.foldlM (revertOutput H block tx) muhash
    if tx.isCoinBase then return muhash
    else
      let txundo ← block.txUndo i
      txundo.zipIdx.foldlM (restoreInput H tx) muhash

/-- the record of the block before; none where the function returns false -/
def readBefore (s : CoinStatsIndex G) (block : BlockInfo) : Option (Uint256 × DBVal) :=
  if block.height > 0 then (s.db (block.height - 1)).filter fun record => some record.1 == block.prevHash
  else some (Uint256.null, ⟨Uint256.null, Totals.zero⟩)

/-- `RevertBlock`: what it returns, and the members it leaves -/
def revertBlock (s : CoinStatsIndex G) (block : BlockInfo) : Except String (Bool × CoinStatsIndex G) :=
  match readBefore s block with
  | none => .ok (false, s)
  | some (_, value) =>
    match block.undoData, block.prevHash with
    | none, _ => .error "assertion failed: block.undo_data"
    | _, none => .error "block.prev_hash has no value"
    | some _, some prevHash => do
      let muhash ← block.data.vtx.zipIdx.foldlM (revertTx H block) s.figures.muhash
      if value.muhash = H.finalize muhash then
        return (true, { s with figures := ⟨muhash, value.totals⟩, currentBlockHash := prevHash })
      else .error "assertion failed: read_out.second.muhash == out"

/-! ## The running hash -/

variable {f : Figures G} (H : MuHash G) (block : BlockInfo) (tx : CTransaction)

theorem appendOutput_undone : Undoes Figures.muhash (appendOutput H block tx) (revertOutput H block tx) := by
  intro f output f' h
  simp only [appendOutput] at h
  simp only [revertOutput]
  split_ifs at h ⊢ with hun
  · obtain ⟨_, _, hend⟩ := bind_ok.1 h
    cases hend
    exact ⟨1, (mul_one _).symm, fun g => by rw [div_one]⟩
  · obtain ⟨_, _, hend⟩ := bind_ok.1 h
    cases hend
    exact ⟨_, rfl, fun g => rfl⟩

theorem removeInput_undone : Undoes Figures.muhash (removeInput H tx) (restoreInput H tx) := by
  intro f undo f' h
  simp only [removeInput] at h
  simp only [restoreInput]
  cases htxin : tx.vin[undo.2]? with
  | none => simp [htxin] at h
  | some txin =>
    rw [htxin] at h
    obtain ⟨_, _, hend⟩ := bind_ok.1 h
    cases hend
    exact ⟨(H.element txin.prevout undo.1)⁻¹, div_eq_mul_inv _ _, fun g => by rw [div_inv_eq_mul]⟩

theorem appendTx_undone (subsidy : CAmount) : Undoes Figures.muhash (appendTx H block subsidy) (revertTx H block) := by
  intro f txi f' h
  simp only [appendTx] at h
  simp only [revertTx]
  by_cases hskip : (txi.1.isCoinBase && isBIP30Unspendable block.hash block.height) = true
  · rw [if_pos hskip] at h
    obtain ⟨_, _, hend⟩ := bind_ok.1 h
    cases hend
    exact ⟨1, (mul_one _).symm, fun g => by rw [if_pos hskip, div_one]; rfl⟩
  · rw [if_neg hskip] at h
    obtain ⟨mid, hmid, hrest⟩ := bind_ok.1 h
    obtain ⟨x, hx, hback⟩ := (appendOutput_undone H block txi.1).foldlM f _ mid hmid
    by_cases hcb : txi.1.isCoinBase = true
    · rw [if_pos hcb] at hrest
      cases hrest
      refine ⟨x, hx, fun g => ?_⟩
      rw [if_neg hskip, bind_ok]
      exact ⟨_, hback g, by rw [if_pos hcb]; rfl⟩
    · rw [if_neg hcb] at hrest
      obtain ⟨txundo, hundo, hremove⟩ := bind_ok.1 hrest
      obtain ⟨y, hy, hrestore⟩ := (removeInput_undone H txi.1).foldlM mid _ f' hremove
      refine ⟨x * y, by rw [hy, hx, mul_assoc], fun g => ?_⟩
      rw [if_neg hskip, bind_ok]
      refine ⟨_, hback g, ?_⟩
      rw [if_neg hcb, bind_ok]
      exact ⟨txundo, hundo, (hrestore _).trans (by rw [div_div])⟩

/-! ## Loops in range -/

/-- Outputs that can be spent come one after the other. -/
theorem appendOutputs_ok {H : MuHash G} {block : BlockInfo} {tx : CTransaction} {outputs : List (CTxOut × ℕ)}
    (hspendable : ∀ o ∈ outputs, o.1.isUnspendable = false) (hvalues : ∀ o ∈ outputs, 0 ≤ o.1.value)
    (hlow : 0 ≤ f.totals.totalAmount) (hhigh : f.totals.totalAmount + (outputs.map fun o => o.1.value).sum < 2 ^ 63) :
    outputs.foldlM (appendOutput H block tx) f =
      .ok ((outputs.map (outputCoin tx block.height)).foldl (Figures.add H tx.isCoinBase) f) := by
  induction outputs generalizing f with
  | nil => rfl
  | cons o outputs ih =>
    obtain ⟨ho, hspendable⟩ := forall_mem_cons.1 hspendable
    obtain ⟨hvalue, hvalues⟩ := forall_mem_cons.1 hvalues
    have hrest : 0 ≤ (outputs.map fun o => o.1.value).sum := sum_nonneg (forall_mem_map.2 hvalues)
    rw [map_cons, sum_cons] at hhigh
    have hfirst : appendOutput H block tx f o = .ok (f.add H tx.isCoinBase (outputCoin tx block.height o)) := by
      have hun : ¬ (outputCoin tx block.height o).2.out.isUnspendable = true := Bool.eq_false_iff.1 ho
      have hamount := amount_ok (a := f.totals.totalAmount + o.1.value) (by linarith) (by linarith)
      simp only [appendOutput]
      rw [if_neg hun, bind_ok]
      exact ⟨_, hamount, rfl⟩
    have hnext : (f.add H tx.isCoinBase (outputCoin tx block.height o)).totals.totalAmount =
        f.totals.totalAmount + o.1.value := rfl
    rw [foldlM_cons_ok]
    exact ⟨_, hfirst, ih hspendable hvalues (by linarith) (by linarith)⟩

/-- The coins of the undo data leave one after the other. -/
theorem removeInputs_ok {H : MuHash G} {tx : CTransaction} {es : List (COutPoint × Coin)} {k : ℕ}
    (hkeys : es.map Prod.fst = (tx.vin.drop k).map CTxIn.prevout) (hvalues : ∀ e ∈ es, 0 ≤ e.2.out.value)
    (hlow : (es.map fun e => e.2.out.value).sum ≤ f.totals.totalAmount) (hhigh : f.totals.totalAmount < 2 ^ 63) :
    ((es.map Prod.snd).zipIdx k).foldlM (removeInput H tx) f = .ok (es.foldl (Figures.remove H) f) := by
  induction es generalizing k f with
  | nil => rfl
  | cons e es ih =>
    obtain ⟨hvalue, hvalues⟩ := forall_mem_cons.1 hvalues
    have hrest : 0 ≤ (es.map fun e => e.2.out.value).sum := sum_nonneg (forall_mem_map.2 hvalues)
    cases hdrop : tx.vin.drop k with
    | nil => simp [hdrop] at hkeys
    | cons txin vin =>
      rw [hdrop, map_cons, map_cons, List.cons.injEq] at hkeys
      rw [map_cons, sum_cons] at hlow
      have htxin : tx.vin[k]? = some txin := by
        have hhead := congrArg head? hdrop
        rwa [head?_drop] at hhead
      have hnext : tx.vin.drop (k + 1) = vin := by
        rw [← tail_drop, hdrop, tail_cons]
      have hfirst : removeInput H tx f (e.2, k) = .ok (f.remove H e) := by
        have hamount := amount_ok (a := f.totals.totalAmount - e.2.out.value) (by linarith) (by linarith)
        simp only [removeInput, htxin]
        rw [bind_ok]
        exact ⟨_, hamount, by rw [← hkeys.1]; rfl⟩
      have hleft : (f.remove H e).totals.totalAmount = f.totals.totalAmount - e.2.out.value := rfl
      rw [map_cons, zipIdx_cons, foldlM_cons_ok]
      exact ⟨_, hfirst, ih (by rw [hnext]; exact hkeys.2) hvalues (by linarith) (by linarith)⟩

end

end ConnectCoin.CoinStats
