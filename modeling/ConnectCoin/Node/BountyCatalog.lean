/-
The catalog of confirmed PAY_TO_CONNECT outputs (`node/p2c_bounty_catalog.h`).

- `P2CBountyCatalog`: the coins by outpoint and the outpoints by height. The two indexes hold the same outpoints, each
  under the height of its coin, and no height is kept without outpoints (`Indexed`, a field). An exception in `Insert`
  takes the outpoint out again, and goes through to the caller of `ApplyP2CBountyBlock`, who clears the catalog.
- `snapshot`, `applyP2CBountyBlock`: `Asking` computations; a question is a call of `cancelled`, or a place where memory
  may run out.
- `Mirrors catalog m`: the catalog holds exactly the canonical outputs of the ledger m.
Results:
- `snapshot_runs`: a snapshot that ends holds exactly the entries from the height on, and nothing but an answer stops
  it;
- `applyP2CBountyBlock_connect`, `applyP2CBountyBlock_disconnect`: over a valid block the catalog follows the ledger up
  and down.
-/
import ConnectCoin.Chainstate.UnspentAt
import ConnectCoin.Lib.Asking

namespace ConnectCoin

open Lib Asking List Option

/-! ## Groups -/

variable (byHeight : Ledger ℕ (Finset COutPoint))

/-- an outpoint leaves its group, and an empty group the index -/
def leaveGroup (height : ℕ) (outpoint : COutPoint) : Ledger ℕ (Finset COutPoint) :=
  match byHeight.lookup height with
  | none => byHeight
  | some group => if group.erase outpoint = ∅ then byHeight.erase height else
      byHeight.insert height (group.erase outpoint)

/-- an outpoint enters its group -/
def enterGroup (height : ℕ) (outpoint : COutPoint) : Ledger ℕ (Finset COutPoint) :=
  byHeight.insert height (insert outpoint ((byHeight.lookup height).getD ∅))

theorem leaveGroup_lookup (height : ℕ) (outpoint : COutPoint) (h : ℕ) :
    ((leaveGroup byHeight height outpoint).lookup h).getD ∅ =
      if h = height then ((byHeight.lookup h).getD ∅).erase outpoint else (byHeight.lookup h).getD ∅ := by
  unfold leaveGroup
  by_cases hh : h = height
  · subst hh
    rw [if_pos rfl]
    cases hgroup : byHeight.lookup h with
    | none => simp [hgroup]
    | some group =>
      dsimp only
      split_ifs with hempty
      · simp [hempty]
      · simp
  · rw [if_neg hh]
    cases hgroup : byHeight.lookup height with
    | none => rfl
    | some group =>
      dsimp only
      split_ifs
      · rw [Finmap.lookup_erase_ne hh]
      · rw [Finmap.lookup_insert_of_ne _ hh]

variable {byHeight : Ledger ℕ (Finset COutPoint)}

theorem leaveGroup_nonempty (hne : ∀ h, byHeight.lookup h ≠ some ∅) (height : ℕ)
    (outpoint : COutPoint) (h : ℕ) : (leaveGroup byHeight height outpoint).lookup h ≠ some ∅ := by
  unfold leaveGroup
  cases hgroup : byHeight.lookup height with
  | none => exact hne h
  | some group =>
    dsimp only
    split_ifs with hempty
    · rw [lookup_erase_if]
      split_ifs
      · simp
      · exact hne h
    · rw [lookup_insert_if]
      split_ifs
      · exact fun heq => hempty (some_inj.1 heq)
      · exact hne h

/-! ## The order of outpoints -/

/-- the bytes of the hash, then the index -/
def COutPoint.orderKey (o : COutPoint) : Lex (List ℕ × ℕ) := toLex (o.hash.bytes.map UInt8.toNat, o.n.toNat)

theorem COutPoint.orderKey_injective : Function.Injective COutPoint.orderKey := by
  intro a b h
  obtain ⟨hbytes, hn⟩ := Prod.mk.inj (toLex.injective h)
  obtain ⟨hash, n⟩ := a
  obtain ⟨hash', n'⟩ := b
  obtain rfl : hash = hash' := Uint256.ext (map_injective_iff.2 (fun x y => UInt8.toNat_inj.1) hbytes)
  obtain rfl : n = n' := UInt32.toNat_inj.1 hn
  rfl

instance : LinearOrder COutPoint := LinearOrder.lift' COutPoint.orderKey COutPoint.orderKey_injective

section
variable [Crypto]

/-! ## The two indexes -/

/-- the two indexes hold the same outpoints -/
structure Indexed (coins : Utxos) (byHeight : Ledger ℕ (Finset COutPoint)) : Prop where
  same : ∀ h o, o ∈ (byHeight.lookup h).getD ∅ ↔ ∃ coin, coins.lookup o = some coin ∧ coin.nHeight = h
  nonempty : ∀ h, byHeight.lookup h ≠ some ∅

/-- `m_coins` and `m_by_height` -/
structure P2CBountyCatalog where
  coins : Utxos
  byHeight : Ledger ℕ (Finset COutPoint)
  indexed : Indexed coins byHeight

variable {coins : Utxos} {tx : CTransaction} {catalog : P2CBountyCatalog}

theorem Indexed.leave (hI : Indexed coins byHeight) {outpoint : COutPoint} {coin : Coin}
    (hcoin : coins.lookup outpoint = some coin) :
    Indexed (coins.erase outpoint) (leaveGroup byHeight coin.nHeight outpoint) where
  same := by
    intro h o
    rw [leaveGroup_lookup]
    by_cases ho : o = outpoint
    · subst ho
      have hother : h ≠ coin.nHeight → o ∉ (byHeight.lookup h).getD ∅ := by
        intro hh hmem
        obtain ⟨c, hc, hheight⟩ := (hI.same h o).1 hmem
        rw [hcoin] at hc
        cases hc
        exact hh hheight.symm
      split_ifs with hh
      · simp
      · simp [hother hh]
    · rw [Finmap.lookup_erase_ne ho]
      split_ifs with hh
      · rw [Finset.mem_erase, and_iff_right ho]
        exact hI.same h o
      · exact hI.same h o
  nonempty := leaveGroup_nonempty hI.nonempty coin.nHeight outpoint

theorem Indexed.enter (hI : Indexed coins byHeight) {outpoint : COutPoint}
    (hfree : coins.lookup outpoint = none) (coin : Coin) :
    Indexed (coins.insert outpoint coin) (enterGroup byHeight coin.nHeight outpoint) where
  same := by
    intro h o
    have hhere : outpoint ∉ (byHeight.lookup h).getD ∅ := by
      intro hmem
      obtain ⟨c, hc, -⟩ := (hI.same h outpoint).1 hmem
      rw [hfree] at hc
      cases hc
    unfold enterGroup
    by_cases hh : h = coin.nHeight
    · subst hh
      rw [Finmap.lookup_insert, getD_some, Finset.mem_insert]
      by_cases ho : o = outpoint
      · subst ho
        simp
      · rw [Finmap.lookup_insert_of_ne _ ho, or_iff_right ho]
        exact hI.same _ o
    · rw [Finmap.lookup_insert_of_ne _ hh]
      by_cases ho : o = outpoint
      · subst ho
        simp only [hhere, Finmap.lookup_insert, some_inj, false_iff, not_exists, not_and]
        intro c hc hheight
        exact hh (hc ▸ hheight.symm)
      · rw [Finmap.lookup_insert_of_ne _ ho]
        exact hI.same h o
  nonempty := by
    intro h
    unfold enterGroup
    rw [lookup_insert_if]
    split_ifs
    · simp
    · exact hI.nonempty h

/-! ## The catalog -/

namespace P2CBountyCatalog

/-- `Clear` -/
def empty : P2CBountyCatalog := ⟨∅, ∅, by constructor <;> simp⟩

/-- `Erase` -/
def erase (catalog : P2CBountyCatalog) (outpoint : COutPoint) : P2CBountyCatalog :=
  match hcoin : catalog.coins.lookup outpoint with
  | none => catalog
  | some coin => ⟨catalog.coins.erase outpoint, leaveGroup catalog.byHeight coin.nHeight outpoint,
      catalog.indexed.leave hcoin⟩

variable (catalog : P2CBountyCatalog) (outpoint : COutPoint)

theorem erase_coins : (catalog.erase outpoint).coins = catalog.coins.erase outpoint := by
  unfold erase
  split
  · next hcoin => exact (erase_of_lookup_eq_none hcoin).symm
  · rfl

theorem erase_free : (catalog.erase outpoint).coins.lookup outpoint = none := by
  rw [erase_coins, Finmap.lookup_erase]

/-- `Insert`; the place is free when `emplace` comes to it -/
def insert (outpoint : COutPoint) (coin : Coin) : P2CBountyCatalog :=
  let catalog' := catalog.erase outpoint
  ⟨catalog'.coins.insert outpoint coin, enterGroup catalog'.byHeight coin.nHeight outpoint,
    catalog'.indexed.enter (catalog.erase_free outpoint) coin⟩

theorem insert_coins (coin : Coin) : (catalog.insert outpoint coin).coins = catalog.coins.insert outpoint coin := by
  apply Finmap.ext_lookup
  intro o
  change ((catalog.erase outpoint).coins.insert outpoint coin).lookup o = _
  rw [erase_coins, lookup_insert_if, lookup_erase_if, lookup_insert_if]
  split_ifs <;> rfl

/-- `Erase` of each -/
def erases (outpoints : List COutPoint) : P2CBountyCatalog := outpoints.foldl erase catalog

/-- `Insert` of each entry whose output is canonical -/
def insertCanonical (entries : List (COutPoint × Coin)) : P2CBountyCatalog :=
  entries.foldl (fun c e => if isCanonicalP2COutput e.2.out then c.insert e.1 e.2 else c) catalog

theorem erases_coins (outpoints : List COutPoint) :
    (catalog.erases outpoints).coins = Lib.erases outpoints catalog.coins := by
  induction outpoints generalizing catalog with
  | nil => rfl
  | cons o outpoints ih =>
    rw [erases_cons, ← erase_coins]
    exact ih (catalog.erase o)

theorem insertCanonical_coins (entries : List (COutPoint × Coin)) : (catalog.insertCanonical entries).coins =
      Lib.inserts (entries.filter fun e => isCanonicalP2COutput e.2.out) catalog.coins := by
  induction entries generalizing catalog with
  | nil => rfl
  | cons e entries ih =>
    rw [filter_cons]
    split_ifs with hcanonical
    · rw [inserts_cons, ← insert_coins, ← ih, insertCanonical, foldl_cons, if_pos hcanonical]
      rfl
    · rw [← ih, insertCanonical, foldl_cons, if_neg hcanonical]
      rfl

end P2CBountyCatalog

/-! ## A block -/

variable (catalog)

/-- the members of the node interface that a scan works on, and what it has passed to its visitor -/
structure P2CScanner where
  tip : Option CBlockIndex
  bounties : P2CBountyCatalog
  visited : List (COutPoint × CTxOut)

/-- the order in which a set of outpoints is walked -/
abbrev sorted (s : Finset COutPoint) : List COutPoint := s.sort (· ≤ ·)

/-- the outpoints from a height on, in the order of the two maps -/
def P2CBountyCatalog.outpointsFrom (minHeight : ℕ) : List COutPoint :=
  ((catalog.byHeight.keys.filter (minHeight ≤ ·)).sort (· ≤ ·)).flatMap fun height =>
    sorted ((catalog.byHeight.lookup height).getD ∅)

/-- the loops of `Snapshot`; `m_coins.at` throws for an outpoint that is not there -/
def snapshotLoop (coins : Utxos) : List COutPoint → Utxos → Asking P2CScanner Utxos
  | [], snapshot => pure snapshot
  | outpoint :: rest, snapshot => do
    ask
    match coins.lookup outpoint with
    | none => halt .exception
    | some coin => snapshotLoop coins rest (snapshot.insert outpoint coin)

/-- `Snapshot` -/
def snapshot (minHeight : ℕ) : Asking P2CScanner Utxos := do
  ask
  let s ← here
  snapshotLoop s.bounties.coins (s.bounties.outpointsFrom minHeight) ∅

/-- every output of a transaction as an outpoint and a coin -/
def allOutputs (tx : CTransaction) (nHeight : ℕ) : List (COutPoint × Coin) := tx.vout.zipIdx.map (outputCoin tx nHeight)

/-- one turn of `ApplyP2CBountyBlock` without undo data -/
def connectBounties (height : ℕ) (tx : CTransaction) (catalog : P2CBountyCatalog) : P2CBountyCatalog :=
  (catalog.erases tx.prevouts).insertCanonical (allOutputs tx height)

/-- the outputs of a transaction leave the catalog -/
def eraseOutputs (height : ℕ) (tx : CTransaction) (catalog : P2CBountyCatalog) : P2CBountyCatalog :=
  catalog.erases ((allOutputs tx height).map Prod.fst)

/-- the spent coins of a transaction come back -/
def restoreBounties (tx : CTransaction) (previous : CTxUndo) (catalog : P2CBountyCatalog) : P2CBountyCatalog :=
  catalog.insertCanonical (tx.prevouts.zip previous)

/-- a change of the catalog in the scanner -/
def onBounties (f : P2CBountyCatalog → P2CBountyCatalog) : Asking P2CScanner Unit :=
  act fun s => { s with bounties := f s.bounties }

/-- one turn of `ApplyP2CBountyBlock` with undo data; the first transaction has none -/
def disconnectBounties (height : ℕ) (txu : CTransaction × Option CTxUndo) : Asking P2CScanner Unit := do
  onBounties (eraseOutputs height txu.1)
  match txu.2 with
  | none => pure ()
  | some previous =>
    if previous.length ≠ txu.1.vin.length then halt .no else onBounties (restoreBounties txu.1 previous)

/-- `ApplyP2CBountyBlock`: with undo data the last transaction comes first -/
def applyP2CBountyBlock (block : CBlock) (height : ℕ) (undo : Option CBlockUndo) : Asking P2CScanner Unit :=
  match undo with
  | none =>
    if block.vtx = [] then halt .no
    else block.vtx.forM fun tx => do
      ask
      onBounties (connectBounties height tx)
  | some vtxundo =>
    if block.vtx = [] ∨ vtxundo.length + 1 ≠ block.vtx.length then halt .no
    else (withUndo block.vtx vtxundo).reverse.forM fun txu => do
      ask
      disconnectBounties height txu

/-! ## Snapshots -/

theorem P2CBountyCatalog.mem_outpointsFrom (minHeight : ℕ) (o : COutPoint) :
    o ∈ catalog.outpointsFrom minHeight ↔ ∃ coin, catalog.coins.lookup o = some coin ∧ minHeight ≤ coin.nHeight := by
  simp only [outpointsFrom, mem_flatMap, Finset.mem_sort, Finset.mem_filter, catalog.indexed.same]
  apply Iff.intro
  · rintro ⟨height, ⟨-, hle⟩, coin, hcoin, rfl⟩
    exact ⟨coin, hcoin, hle⟩
  · rintro ⟨coin, hcoin, hle⟩
    refine ⟨coin.nHeight, ⟨?_, hle⟩, coin, hcoin, rfl⟩
    -- its group is there
    have hmem := (catalog.indexed.same coin.nHeight o).2 ⟨coin, hcoin, rfl⟩
    rw [Finmap.mem_keys]
    by_contra hnone
    rw [Finmap.lookup_eq_none.2 hnone] at hmem
    simp at hmem

/-- The loop puts in the coins of its outpoints. -/
theorem snapshotLoop_runs {calm : Prop} {s₀ : P2CScanner} {outpoints : List COutPoint}
    (hfound : ∀ o ∈ outpoints, ∃ coin, coins.lookup o = some coin) (snap : Utxos) :
    Runs calm (· = s₀) (snapshotLoop coins outpoints snap)
      (fun r s => s = s₀ ∧ ∀ o, r.lookup o = if o ∈ outpoints then coins.lookup o else snap.lookup o)
        (fun _ s => s = s₀ ∧ ¬ calm) := by
  induction outpoints generalizing snap with
  | nil => exact Runs.pure fun s hs => ⟨hs, fun o => by simp⟩
  | cons outpoint rest ih =>
    obtain ⟨⟨coin, hcoin⟩, hfound⟩ := forall_mem_cons.1 hfound
    refine Runs.bind (Runs.ask fun e s hs hloud => ⟨hs, hloud⟩) fun _ => ?_
    rw [hcoin]
    refine Runs.mono (ih hfound (snap.insert outpoint coin)) (fun s hs => hs) ?_ fun e s hs => hs
    intro r s hs
    refine ⟨hs.1, fun o => ?_⟩
    rw [hs.2 o]
    by_cases ho : o = outpoint
    · subst ho
      simp [hcoin]
    · simp [ho, Finmap.lookup_insert_of_ne _ ho]

/-- A snapshot holds exactly the entries from the height on; only an answer stops it. -/
theorem snapshot_runs (calm : Prop) (s₀ : P2CScanner) (minHeight : ℕ) : Runs calm (· = s₀) (snapshot minHeight)
      (fun snap s => s = s₀ ∧
        ∀ o coin, snap.lookup o = some coin ↔ s₀.bounties.coins.lookup o = some coin ∧ minHeight ≤ coin.nHeight)
      (fun _ s => s = s₀ ∧ ¬ calm) := by
  refine Runs.bind (Runs.ask fun e s hs hloud => ⟨hs, hloud⟩) fun _ => Runs.here ?_
  intro t ht
  subst ht
  have hmem := t.bounties.mem_outpointsFrom minHeight
  have hfound : ∀ o ∈ t.bounties.outpointsFrom minHeight, ∃ coin, t.bounties.coins.lookup o = some coin := by
    intro o ho
    obtain ⟨coin, hcoin, -⟩ := (hmem o).1 ho
    exact ⟨coin, hcoin⟩
  refine Runs.mono (snapshotLoop_runs hfound ∅) (fun _ h => h) ?_ (fun _ _ h => h)
  intro snap s h
  refine ⟨h.1, fun o coin => ?_⟩
  rw [h.2 o]
  split_ifs with ho
  · obtain ⟨coin', hcoin', hle⟩ := (hmem o).1 ho
    rw [hcoin', some_inj]
    apply Iff.intro
    · intro heq
      exact ⟨heq, heq ▸ hle⟩
    · intro heq
      exact heq.1
  · apply Iff.intro
    · intro hempty
      simp at hempty
    · intro hcoin
      exact absurd ((hmem o).2 ⟨coin, hcoin⟩) ho

/-! ## The catalog follows the ledger -/

/-- a coin with a canonical PAY_TO_CONNECT output -/
def Coin.isBounty (coin : Coin) : Bool := isCanonicalP2COutput coin.out

/-- the catalog holds exactly the canonical outputs of the ledger -/
def Mirrors (m : Utxos) : Prop := Shows Coin.isBounty catalog.coins m

variable {m : Utxos} {nHeight : ℕ} {u : Option CTxUndo} {previous : CTxUndo}

/-- The places of the outputs of a valid transaction are free. -/
theorem allOutputs_free (htx : ValidTx m tx u) : ∀ o ∈ (allOutputs tx nHeight).map Prod.fst, m.lookup o = none := by
  intro o ho
  obtain ⟨e, he, rfl⟩ := mem_map.1 ho
  obtain ⟨output, -, rfl⟩ := mem_map.1 he
  rw [eq_none_iff_forall_ne_some]
  intro c hc
  exact htx.fresh _ c hc rfl

theorem allOutputs_created (htx : ValidTx m tx u) :
    ∀ e ∈ createdCoins tx nHeight, e.1 ∈ (allOutputs tx nHeight).map Prod.fst := by
  intro e he
  rw [createdCoins_eq htx.checked] at he
  exact mem_map_of_mem he

variable {catalog}

/-- Taking out all inputs takes out the spent coins: nothing is at the null outpoint. -/
theorem erases_inputs (h : Mirrors catalog m) (hnull : NoNull m) (tx : CTransaction) :
    Lib.erases tx.prevouts catalog.coins = Lib.erases (spentOutpoints tx) catalog.coins := by
  unfold spentOutpoints
  split_ifs with hcb
  · apply Finmap.ext_lookup
    intro o
    rw [lookup_erases, lookup_erases, if_neg not_mem_nil]
    split_ifs with hmem
    · obtain ⟨i, hi, rfl⟩ := mem_map.1 hmem
      have hprevout : i.prevout.isNull = true := by
        unfold CTransaction.isCoinBase at hcb
        split at hcb
        · next j hvin =>
          rw [hvin, mem_singleton] at hi
          rw [hi]
          exact hcb
        · cases hcb
      rw [h i.prevout]
      cases hc : m.lookup i.prevout with
      | none => rfl
      | some c =>
        have hne := hnull i.prevout c hc
        rw [hprevout] at hne
        cases hne
    · rfl
  · rfl

theorem connectBounties_mirrors (h : Mirrors catalog m) (hnull : NoNull m) (htx : ValidTx m tx u) (nHeight : ℕ) :
    Mirrors (connectBounties nHeight tx catalog) (replayTx nHeight m tx) := by
  have hcount := htx.checked.counts.2
  rw [WITNESS_SCALE_FACTOR, MAX_BLOCK_WEIGHT] at hcount
  have hnodup : ((createdCoins tx nHeight).map Prod.fst).Nodup := createdCoins_nodup (by omega)
  have hfree : ∀ e ∈ createdCoins tx nHeight, m.lookup e.1 = none :=
    fun e he => allOutputs_free htx e.1 (allOutputs_created htx e he)
  unfold Mirrors connectBounties
  rw [P2CBountyCatalog.insertCanonical_coins, P2CBountyCatalog.erases_coins, erases_inputs h hnull, allOutputs,
    ← createdCoins_eq htx.checked]
  exact h.transfer hnodup hfree

theorem ValidTx.undo_length (htx : ValidTx m tx (some previous)) : previous.length = tx.vin.length := by
  have hlength := (mapM_eq_some.1 (htx.undo previous rfl)).length_eq
  rw [length_map] at hlength
  exact hlength.symm

theorem eraseOutputs_mirrors (h : Mirrors catalog (replayTx nHeight m tx)) (htx : ValidTx m tx none) :
    Mirrors (eraseOutputs nHeight tx catalog) m := by
  have hspent : spentOutpoints tx = [] := if_pos (htx.coinbase.1 rfl)
  unfold Mirrors eraseOutputs
  rw [P2CBountyCatalog.erases_coins]
  have hnone : ∀ e ∈ ([] : List (COutPoint × Coin)), m.lookup e.1 = some e.2 := by simp
  refine Shows.undo h (allOutputs_created htx) (allOutputs_free htx) ?_ hnone
  rw [hspent]
  simp

theorem restoreBounties_mirrors (h : Mirrors catalog (replayTx nHeight m tx)) (htx : ValidTx m tx (some previous)) :
    Mirrors (restoreBounties tx previous (eraseOutputs nHeight tx catalog)) m := by
  have hplain : ¬ tx.isCoinBase = true := fun hcb => by simpa using htx.coinbase.2 hcb
  have hspent : spentOutpoints tx = tx.prevouts := if_neg hplain
  have hcoins := mapM_eq_some.1 (htx.undo previous rfl)
  unfold Mirrors restoreBounties eraseOutputs
  rw [P2CBountyCatalog.insertCanonical_coins, P2CBountyCatalog.erases_coins]
  refine Shows.undo h (allOutputs_created htx) (allOutputs_free htx) ?_ ?_
  · rw [hspent, map_fst_zip hcoins.length_eq.le]
    exact fun k hk => hk
  · intro e he
    exact (List.forall₂_iff_zip.1 hcoins).2 he

/-! ## Applying a block -/

section
variable {calm : Prop} {R : Halt → P2CScanner → Prop}

/-- the catalog mirrors a ledger, and the rest of the scanner is as it was -/
def CatalogAt (tip : Option CBlockIndex) (visited : List (COutPoint × CTxOut)) (m : Utxos) (s : P2CScanner) : Prop :=
  s.tip = tip ∧ s.visited = visited ∧ Mirrors s.bounties m

variable {tip : Option CBlockIndex} {visited : List (COutPoint × CTxOut)} {m : Utxos} {height : ℕ}

theorem CatalogAt.onBounties {f : P2CBountyCatalog → P2CBountyCatalog} {m' : Utxos}
    (h : ∀ catalog, Mirrors catalog m → Mirrors (f catalog) m') :
    Runs calm (CatalogAt tip visited m) (onBounties f) (fun _ => CatalogAt tip visited m') R := by
  apply Runs.act
  intro s hs
  exact ⟨hs.1, hs.2.1, h s.bounties hs.2.2⟩

variable {txs : List (CTransaction × Option CTxUndo)}

/-- Over a valid block the catalog follows the ledger up; only an answer stops it. -/
theorem connectLoop_runs (hR : ∀ e s, s.tip = tip ∧ s.visited = visited → ¬ calm → R e s)
    (hnull : NoNull m) (hvalid : ValidTxs height m txs) :
    Runs calm (CatalogAt tip visited m)
      ((txs.map Prod.fst).forM fun tx => do
        ask
        onBounties (connectBounties height tx))
      (fun _ => CatalogAt tip visited (replayTxs height (txs.map Prod.fst) m)) R := by
  induction txs generalizing m with
  | nil => exact Runs.pure fun s hs => hs
  | cons txu txs ih =>
    obtain ⟨htx, hvalid⟩ := hvalid
    have hask : Runs calm (CatalogAt tip visited m) ask (fun _ => CatalogAt tip visited m) R :=
      Runs.ask fun e s hs hloud => hR e s ⟨hs.1, hs.2.1⟩ hloud
    refine Runs.bind (Runs.bind hask fun _ => ?_) fun _ => ih (hnull.replayTx htx.checked height) hvalid
    exact CatalogAt.onBounties fun catalog h => connectBounties_mirrors h hnull htx height

theorem validTxs_concat {txu : CTransaction × Option CTxUndo} (h : ValidTxs height m (txs ++ [txu])) :
    ValidTxs height m txs ∧ ValidTx (replayTxs height (txs.map Prod.fst) m) txu.1 txu.2 := by
  induction txs generalizing m with
  | nil => exact ⟨trivial, h.1⟩
  | cons txu' txs ih =>
    obtain ⟨htxs, htx⟩ := ih h.2
    exact ⟨⟨h.1, htxs⟩, htx⟩

/-- One transaction down. -/
theorem disconnectBounties_runs {txu : CTransaction × Option CTxUndo} (htx : ValidTx m txu.1 txu.2) :
    Runs calm (CatalogAt tip visited (replayTx height m txu.1)) (disconnectBounties height txu)
    (fun _ => CatalogAt tip visited m) R := by
  obtain ⟨tx, u⟩ := txu
  cases u with
  | none =>
    refine Runs.bind (CatalogAt.onBounties fun catalog h => ?_) fun _ => Runs.pure fun s hs => hs
    exact eraseOutputs_mirrors h htx
  | some previous =>
    -- between the two changes the catalog mirrors no ledger
    have herase : Runs calm (CatalogAt tip visited (replayTx height m tx)) (onBounties (eraseOutputs height tx))
        (fun _ s => s.tip = tip ∧ s.visited = visited ∧
          ∃ catalog, Mirrors catalog (replayTx height m tx) ∧ s.bounties = eraseOutputs height tx catalog) R := by
      apply Runs.act
      intro s hs
      exact ⟨hs.1, hs.2.1, s.bounties, hs.2.2, rfl⟩
    refine Runs.bind herase fun _ => ?_
    dsimp only
    rw [if_neg (not_not.2 htx.undo_length)]
    apply Runs.act
    intro s hs
    obtain ⟨htip, hvisited, catalog, hmirrors, hcatalog⟩ := hs
    refine ⟨htip, hvisited, ?_⟩
    dsimp only
    rw [hcatalog]
    exact restoreBounties_mirrors hmirrors htx

/-- Over a valid block the catalog follows the ledger down, the last transaction first. -/
theorem disconnectLoop_runs (hR : ∀ e s, s.tip = tip ∧ s.visited = visited → ¬ calm → R e s)
    (hvalid : ValidTxs height m txs) : Runs calm (CatalogAt tip visited (replayTxs height (txs.map Prod.fst) m))
      (txs.reverse.forM fun txu => do
        ask
        disconnectBounties height txu)
      (fun _ => CatalogAt tip visited m) R := by
  -- what is left to take out is the reverse of the front of the block
  let I : List (CTransaction × Option CTxUndo) → P2CScanner → Prop := fun left s =>
    ValidTxs height m left.reverse ∧ CatalogAt tip visited (replayTxs height (left.reverse.map Prod.fst) m) s
  have hstep : ∀ txu left, Runs calm (I (txu :: left))
      (do
        ask
        disconnectBounties height txu) (fun _ => I left) R := by
    intro txu left
    apply Runs.of_fact
    intro hvalid
    rw [reverse_cons] at hvalid ⊢
    obtain ⟨hleft, htx⟩ := validTxs_concat hvalid
    rw [map_append, map_singleton, replayTxs, foldl_append]
    refine Runs.bind (Runs.ask fun e s hs hloud => hR e s ⟨hs.1, hs.2.1⟩ hloud) fun _ => ?_
    exact Runs.mono (disconnectBounties_runs htx) (fun s hs => hs) (fun _ s hs => ⟨hleft, hs⟩) fun e s hs => hs
  refine Runs.mono (Runs.forM hstep txs.reverse) ?_ (fun _ s hs => hs.2) fun e s hs => hs
  intro s hs
  dsimp only [I]
  rw [reverse_reverse]
  exact ⟨hvalid, hs⟩

variable {tree : BlockTree} {undo : UndoRecords} {p b : CBlockIndex} {m' : Utxos} {u : CBlockUndo}
  (hR : ∀ e s, s.tip = tip ∧ s.visited = visited → ¬ calm → R e s) (h : BlockStep tree undo p b m m' u)
include hR h

/-- `ApplyP2CBountyBlock` of a valid block. -/
theorem applyP2CBountyBlock_connect (hnull : NoNull m) :
    Runs calm (CatalogAt tip visited m) (applyP2CBountyBlock (tree.body b) b.nHeight none)
    (fun _ => CatalogAt tip visited m') R := by
  have hne : (tree.body b).vtx ≠ [] := by
    obtain ⟨cb, rest, hvtx, -⟩ := h.body.coinbase
    rw [hvtx]
    exact cons_ne_nil cb rest
  have hrun := connectLoop_runs hR hnull h.valid
  rw [withUndo_fst h.length] at hrun
  rw [applyP2CBountyBlock, if_neg hne, h.coins]
  exact hrun

/-- `ApplyP2CBountyBlock` of a valid block, with the undo data that were written for it. -/
theorem applyP2CBountyBlock_disconnect :
    Runs calm (CatalogAt tip visited m') (applyP2CBountyBlock (tree.body b) b.nHeight (some u))
    (fun _ => CatalogAt tip visited m) R := by
  have hguard : ¬ ((tree.body b).vtx = [] ∨ u.length + 1 ≠ (tree.body b).vtx.length) := by
    rw [not_or, not_not]
    refine ⟨fun hempty => ?_, h.length⟩
    have hlength := h.length
    rw [hempty] at hlength
    simp at hlength
  have hrun := disconnectLoop_runs hR h.valid
  rw [withUndo_fst h.length] at hrun
  rw [applyP2CBountyBlock, h.coins, if_neg hguard]
  exact hrun

end

end

end ConnectCoin
