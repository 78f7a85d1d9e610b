/-
The coins view (`coins.cpp`, `UpdateCoins` in `validation.cpp`).

- `CoinsView`: the unspent coins by outpoint and the best block, what a cache and its base stand for together; and the
  outpoints that the cache has an entry of its own for: `AddCoin` looks for a coin it must not overwrite among these
  only. A coin that is only looked up gets an entry too; between the lookup and an `AddCoin` at its outpoint the coin is
  spent, or the block is refused.
- `spendCoin`, `addCoin`, `addCoins`, `updateCoins`: none and errors stand for a failed assertion or a throw.
Results, one for each function: `updateCoins` is a transfer (`Lib.transfer`): it takes out the spent outpoints, and puts
in the outputs that can be spent (`createdCoins`); the undo record holds the coins taken out.
-/
import ConnectCoin.Coins.Undo
import ConnectCoin.Lib.Ledger

namespace ConnectCoin

open Lib List

section
variable [Crypto]

/-! ## The view -/

/-- unspent coins by outpoint -/
abbrev Utxos := Ledger COutPoint Coin

structure CoinsView where
  coins : Utxos
  bestBlock : Uint256
  cached : Finset COutPoint
  unspent : ∀ o c, coins.lookup o = some c → c.isSpent = false

def OP_RETURN : UInt8 := 0x6a
def MAX_SCRIPT_SIZE : ℕ := 10000

/-- `CScript::IsUnspendable` of the public view -/
def CTxOut.isUnspendable (o : CTxOut) : Bool :=
  o.scriptPubKey.head? == some OP_RETURN || o.scriptPubKey.length > MAX_SCRIPT_SIZE

variable {view view' : CoinsView} {tx : CTransaction}

namespace CoinsView

variable (view) (outpoint : COutPoint)

/-- `HaveCoin` -/
def haveCoin : Bool := (view.coins.lookup outpoint).isSome

/-- the view without an outpoint -/
def without : CoinsView where
  coins := view.coins.erase outpoint
  bestBlock := view.bestBlock
  cached := view.cached
  unspent := by
    intro o c h
    rw [lookup_erase_if] at h
    split_ifs at h
    exact view.unspent o c h

/-- the view with an unspent coin -/
def withCoin (coin : Coin) (hcoin : coin.isSpent = false) : CoinsView where
  coins := view.coins.insert outpoint coin
  bestBlock := view.bestBlock
  cached := insert outpoint view.cached
  unspent := by
    intro o c h
    rw [lookup_insert_if] at h
    split_ifs at h
    · cases h
      exact hcoin
    · exact view.unspent o c h

/-- `SpendCoin`: the coin and the view without it -/
def spendCoin : Option (Coin × CoinsView) := (view.coins.lookup outpoint).map fun coin => (coin, view.without outpoint)

/-- `AddCoin` -/
def addCoin (coin : Coin) (possibleOverwrite : Bool) : Except String CoinsView :=
  if h : coin.isSpent = false then
    if coin.out.isUnspendable then .ok view
    else if !possibleOverwrite && decide (outpoint ∈ view.cached) && view.haveCoin outpoint then
      .error "Attempted to overwrite an unspent coin (when possible_overwrite is false)"
    else .ok (view.withCoin outpoint coin h)
  else .error "assertion failed: !coin.IsSpent()"

/-- `SetBestBlock` -/
def setBestBlock (hash : Uint256) : CoinsView := { view with bestBlock := hash }

/-- no coins and no block -/
def empty : CoinsView := ⟨∅, Uint256.null, ∅, by simp⟩

/-- a new cache on top of the view -/
def newCache : CoinsView := { view with cached := ∅ }

@[simp] theorem without_coins (o : COutPoint) : (view.without o).coins = view.coins.erase o := rfl

/-- an `AddCoin` without overwriting went through: no coin there, or none that the cache knows of -/
def Unseen (o : COutPoint) : Prop := o ∈ view.cached → view.coins.lookup o = none

variable {view}

theorem spendCoin_eq_some {o : COutPoint} {c : Coin} (h : view.spendCoin o = some (c, view')) :
    view.coins.lookup o = some c ∧ view' = view.without o := by
  rw [spendCoin, Option.map_eq_some_iff] at h
  obtain ⟨c', hc', heq⟩ := h
  cases heq
  exact ⟨hc', rfl⟩

/-- Adding an unspendable coin does nothing; any other is put in, on a free place or where an overwrite is allowed. -/
theorem addCoin_ok {o : COutPoint} {c : Coin} {possibleOverwrite : Bool}
    (h : view.addCoin o c possibleOverwrite = .ok view') : view'.bestBlock = view.bestBlock ∧
    ((c.out.isUnspendable = true ∧ view' = view) ∨
      (c.out.isUnspendable = false ∧ (possibleOverwrite = false → view.Unseen o) ∧ view'.coins = view.coins.insert o c ∧
        view'.cached = insert o view.cached)) := by
  unfold addCoin at h
  split_ifs at h with _ hun hover
  · cases h
    exact ⟨rfl, Or.inl ⟨hun, rfl⟩⟩
  · cases h
    refine ⟨rfl, Or.inr ⟨Bool.eq_false_iff.2 hun, fun hfalse hcached => ?_, rfl, rfl⟩⟩
    simpa [hfalse, haveCoin, hcached] using hover

end CoinsView

/-! ## The outputs of a transaction -/

/-- one output as an outpoint and a coin -/
def outputCoin (tx : CTransaction) (nHeight : ℕ) (output : CTxOut × ℕ) : COutPoint × Coin :=
  (⟨tx.getHash, UInt32.ofNat output.2⟩, Coin.ofOutput output.1 nHeight tx.isCoinBase)

/-- `AddCoins`, without `check_for_overwrite` -/
def addCoins (cache : CoinsView) (tx : CTransaction) (nHeight : ℕ) : Except String CoinsView :=
  tx.vout.zipIdx.foldlM (fun view output =>
    view.addCoin (outputCoin tx nHeight output).1 (outputCoin tx nHeight output).2 tx.isCoinBase) cache

/-- the coins that outputs make -/
def coinsOf (tx : CTransaction) (nHeight : ℕ) (outputs : List (CTxOut × ℕ)) : List (COutPoint × Coin) :=
  (outputs.filter fun output => !output.1.isUnspendable).map (outputCoin tx nHeight)

/-- the coins that a transaction creates -/
def createdCoins (tx : CTransaction) (nHeight : ℕ) : List (COutPoint × Coin) := coinsOf tx nHeight tx.vout.zipIdx

/-- What was written and read back can be spent. -/
theorem CTxOut.stored_spendable {o : CTxOut} (h : o.serializePayload.isOk = true) : o.stored.isUnspendable = false := by
  rcases serializePayload_isOk.1 h with htype | hvalid
  · simp [CTxOut.stored, htype, CTxOut.isUnspendable, invalidOutput, MAX_SCRIPT_SIZE]
  · rw [hvalid.stored]
    rcases hvalid with ⟨k, hk⟩ | ⟨p, hp⟩
    · obtain ⟨-, -, hscript⟩ := CTxOut.getP2PKPubKey_eq_some.1 hk
      simp [CTxOut.isUnspendable, hscript, MAX_SCRIPT_SIZE, OP_1, OP_RETURN]
    · obtain ⟨-, hscript, hdomain, -, -⟩ := CTxOut.getPayToDomain_eq_some hp
      have hlen := isCanonicalP2CDomain_length hdomain
      rw [MAX_P2C_DOMAIN_LENGTH] at hlen
      simp [CTxOut.isUnspendable, hscript, p2cCompatibilityView, p2cBody, MAX_SCRIPT_SIZE, OP_2, OP_RETURN]
      omega

/-- The outputs of a transaction have distinct outpoints. -/
theorem createdCoins_nodup {nHeight : ℕ} (h : tx.vout.length ≤ 2 ^ 32) :
    ((createdCoins tx nHeight).map Prod.fst).Nodup := by
  have hall : (tx.vout.zipIdx.map fun output => (outputCoin tx nHeight output).1).Nodup := by
    have hkeys : (tx.vout.zipIdx.map fun output => (outputCoin tx nHeight output).1) =
        (List.range tx.vout.length).map fun i => (⟨tx.getHash, UInt32.ofNat i⟩ : COutPoint) := by
      rw [range_eq_range', ← zipIdx_map_snd, map_map]
      rfl
    rw [hkeys]
    refine List.Nodup.map_on ?_ nodup_range
    intro i hi j hj heq
    have hn : UInt32.ofNat i = UInt32.ofNat j := congrArg COutPoint.n heq
    have hnat := congrArg UInt32.toNat hn
    rw [mem_range] at hi hj
    rwa [UInt32.toNat_ofNat_of_lt' (lt_of_lt_of_le hi h), UInt32.toNat_ofNat_of_lt' (lt_of_lt_of_le hj h)] at hnat
  rw [createdCoins, coinsOf, map_map]
  exact hall.sublist (filter_sublist.map _)

theorem coinsOf_cons (tx : CTransaction) (nHeight : ℕ) (output : CTxOut × ℕ) (outputs : List (CTxOut × ℕ)) :
    coinsOf tx nHeight (output :: outputs) = if output.1.isUnspendable then coinsOf tx nHeight outputs else
        outputCoin tx nHeight output :: coinsOf tx nHeight outputs := by
  cases hun : output.1.isUnspendable <;> simp [coinsOf, hun]

/-- what the loop of `AddCoins` does from an output on -/
theorem addOutputs_ok {nHeight : ℕ} {outputs : List (CTxOut × ℕ)} (h : outputs.foldlM (fun view output =>
      view.addCoin (outputCoin tx nHeight output).1 (outputCoin tx nHeight output).2 tx.isCoinBase) view = .ok view') :
    view'.coins = inserts (coinsOf tx nHeight outputs) view.coins ∧ view'.bestBlock = view.bestBlock ∧
      (tx.isCoinBase = false → ∀ e ∈ coinsOf tx nHeight outputs, view.Unseen e.1) ∧
      (∀ o, o ∈ view'.cached ↔ o ∈ view.cached ∨ o ∈ (coinsOf tx nHeight outputs).map Prod.fst) := by
  induction outputs generalizing view with
  | nil =>
    cases h
    exact ⟨rfl, rfl, by simp [coinsOf], by simp [coinsOf]⟩
  | cons output outputs ih =>
    obtain ⟨mid, hmid, hrest⟩ := foldlM_cons_ok.1 h
    obtain ⟨hbest, hcases⟩ := CoinsView.addCoin_ok hmid
    obtain ⟨hcoins, hbest', hfree, hcached⟩ := ih hrest
    rcases hcases with ⟨hun, hsame⟩ | ⟨hun, hover, hinsert, hentry⟩
    · have hskip : output.1.isUnspendable = true := hun
      rw [coinsOf_cons, if_pos hskip, ← hsame]
      exact ⟨hcoins, hbest', hfree, hcached⟩
    · have htake : ¬ output.1.isUnspendable = true := Bool.eq_false_iff.1 hun
      rw [coinsOf_cons, if_neg htake, inserts_cons, ← hinsert]
      refine ⟨hcoins, hbest'.trans hbest, fun hcb => ?_, fun o => ?_⟩
      · refine forall_mem_cons.2 ⟨hover hcb, fun e he hin => ?_⟩
        -- free after the first output, so free before it
        have hfree' := hfree hcb e he (by rw [hentry]; exact Finset.mem_insert_of_mem hin)
        rw [hinsert, Finmap.lookup_eq_none, Finmap.mem_insert, not_or] at hfree'
        exact Finmap.lookup_eq_none.2 hfree'.2
      · rw [hcached, hentry, Finset.mem_insert, map_cons, mem_cons]
        tauto

/-! ## The inputs of a transaction -/

/-- one turn of the loop of `UpdateCoins`: the coins taken out so far, and the view -/
def spendInput (st : CTxUndo × CoinsView) (txin : CTxIn) : Except String (CTxUndo × CoinsView) :=
  match st.2.spendCoin txin.prevout with
  | none => .error "assertion failed: is_spent"
  | some (coin, view) => .ok (st.1 ++ [coin], view)

/-- the first half of `UpdateCoins` -/
def spendInputs (tx : CTransaction) (inputs : CoinsView) : Except String (CTxUndo × CoinsView) :=
  if tx.isCoinBase then .ok ([], inputs) else tx.vin.foldlM spendInput ([], inputs)

/-- `UpdateCoins`: the undo record and the view -/
def updateCoins (tx : CTransaction) (inputs : CoinsView) (nHeight : ℕ) : Except String (CTxUndo × CoinsView) := do
  let (txundo, inputs) ← spendInputs tx inputs
  let inputs ← addCoins inputs tx nHeight
  return (txundo, inputs)

/-- the outpoints that a transaction takes out of the view -/
def spentOutpoints (tx : CTransaction) : List COutPoint := if tx.isCoinBase then [] else tx.prevouts

/-- The loop over the inputs finds distinct coins, and takes them out. -/
theorem spendLoop_ok {vin : List CTxIn} {undo txundo : CTxUndo}
    (h : vin.foldlM spendInput (undo, view) = .ok (txundo, view')) : ∃ spent :
      List (COutPoint × Coin), spent.map Prod.fst = vin.map CTxIn.prevout ∧ txundo = undo ++ spent.map Prod.snd ∧
      (spent.map Prod.fst).Nodup ∧ (∀ e ∈ spent, view.coins.lookup e.1 = some e.2) ∧
      view'.coins = erases (spent.map Prod.fst) view.coins ∧ view'.bestBlock = view.bestBlock ∧
      view'.cached = view.cached := by
  induction vin generalizing undo view with
  | nil =>
    cases h
    exact ⟨[], rfl, by simp, nodup_nil, by simp, rfl, rfl, rfl⟩
  | cons i vin ih =>
    obtain ⟨⟨undo', mid⟩, hmid, hrest⟩ := foldlM_cons_ok.1 h
    rw [spendInput] at hmid
    cases hspend : view.spendCoin i.prevout with
    | none => simp [hspend] at hmid
    | some p =>
      obtain ⟨coin, view₁⟩ := p
      obtain ⟨hlookup, rfl⟩ := CoinsView.spendCoin_eq_some hspend
      simp only [hspend, Except.ok.injEq, Prod.mk.injEq] at hmid
      obtain ⟨rfl, rfl⟩ := hmid
      obtain ⟨spent, hkeys, hundo, hnodup, hfound, hcoins, hbest, hcached⟩ := ih hrest
      -- an outpoint that comes again is not found
      have hnew : ∀ e ∈ spent, e.1 ≠ i.prevout := by
        intro e he heq
        have hgone := hfound e he
        rw [heq] at hgone
        simp at hgone
      refine ⟨(i.prevout, coin) :: spent, by simp [hkeys], by simp [hundo], ?_, ?_, hcoins, hbest, hcached⟩
      · rw [map_cons, nodup_cons]
        refine ⟨fun hmem => ?_, hnodup⟩
        obtain ⟨e, he, heq⟩ := mem_map.1 hmem
        exact hnew e he heq
      · refine forall_mem_cons.2 ⟨hlookup, fun e he => ?_⟩
        have hkept := hfound e he
        rwa [CoinsView.without_coins, Finmap.lookup_erase_ne (hnew e he)] at hkept

/-- what `UpdateCoins` did: a transfer, with the coins taken out in the undo record -/
structure Updated (tx : CTransaction) (nHeight : ℕ) (view : CoinsView) (txundo : CTxUndo) (view' : CoinsView)
    (spent : List (COutPoint × Coin)) : Prop where
  outpoints : spent.map Prod.fst = spentOutpoints tx
  undo : txundo = spent.map Prod.snd
  distinct : (spent.map Prod.fst).Nodup
  found : ∀ e ∈ spent, view.coins.lookup e.1 = some e.2
  coins : view'.coins = transfer (spent.map Prod.fst) (createdCoins tx nHeight) view.coins
  bestBlock : view'.bestBlock = view.bestBlock
  free : tx.isCoinBase = false → ∀ e ∈ createdCoins tx nHeight, e.1 ∈ view.cached →
    (erases (spent.map Prod.fst) view.coins).lookup e.1 = none
  cached : ∀ o, o ∈ view'.cached ↔ o ∈ view.cached ∨ o ∈ (createdCoins tx nHeight).map Prod.fst

theorem updateCoins_ok {nHeight : ℕ} {txundo : CTxUndo}
    (h : updateCoins tx view nHeight = .ok (txundo, view')) : ∃ spent, Updated tx nHeight view txundo view' spent := by
  rw [updateCoins, bind_ok] at h
  obtain ⟨⟨undo, mid⟩, hspend, hadd⟩ := h
  rw [bind_ok] at hadd
  obtain ⟨view₂, hadd, heq⟩ := hadd
  cases heq
  obtain ⟨hcoins, hbest, hfree, hcached⟩ := addOutputs_ok hadd
  rw [spendInputs] at hspend
  split_ifs at hspend with hcb
  · cases hspend
    exact
      ⟨[], { outpoints := (if_pos hcb).symm
             undo := rfl
             distinct := nodup_nil
             found := by simp
             coins := hcoins
             bestBlock := hbest
             free := hfree
             cached := hcached }⟩
  · obtain ⟨spent, hkeys, hundo, hnodup, hfound, hcoins', hbest', hcached'⟩ := spendLoop_ok hspend
    rw [hcoins'] at hcoins
    simp only [CoinsView.Unseen, hcoins', hcached'] at hfree hcached
    exact
      ⟨spent, { outpoints := hkeys.trans (if_neg hcb).symm
                undo := by simpa using hundo
                distinct := hnodup
                found := hfound
                coins := hcoins
                bestBlock := hbest.trans hbest'
                free := hfree
                cached := hcached }⟩

end

end ConnectCoin
