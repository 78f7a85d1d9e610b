/-
`ConnectBlock` looks its inputs up in the order in which they are fetched (`Chainstate/ConnectLookups` on the overlay of
`Coins/Prefetch`).

Between two transactions of a block that is still accepted (`Between`):
- the cache holds spent coins, outputs of earlier transactions, and outputs of the coinbase, which are not mature;
- what is left of the queue are the queued inputs of the transactions to come. The BIP 30 check may have taken outpoints
  off that are no coins; a transaction that spends one of them is refused (`Pending`).
So an input that was queued is not in the cache when it is looked up first, and it is at the front. One that was not
queued spends an earlier output: no input that is left in the queue does.
Results: `connectBlock_consumes`: a block that `ConnectBlock` accepts leaves nothing in the queue; `prefetch_invisible`.
-/
import ConnectCoin.Chainstate.ConnectLookups
import ConnectCoin.Chainstate.Inverse

namespace ConnectCoin

open Lib List Option
open Lib.Calls (Ends)

section
variable [Crypto]

/-! ## Calls on the queue -/

section
variable {peek : COutPoint → Option Coin} {s : Prefetched} {o : COutPoint} {it : CCoinsCacheEntry}

theorem haveCoin_cached (hit : s.cache.cacheCoins.lookup o = some it) :
    onQueue peek _ (.haveCoin o) s = (it.unspent.isSome, s) := by
  rw [onQueue_cached (o := o) rfl hit]
  rfl

theorem haveCoin_missing (hit : s.cache.cacheCoins.lookup o = none) : onQueue peek _ (.haveCoin o) s =
      (((s.cache.emplace o (peek o)).1.bind CCoinsCacheEntry.unspent).isSome,
      ⟨(s.cache.emplace o (peek o)).2, takeFront s.rest o⟩) := by
  rw [onQueue_missing (o := o) rfl hit]
  rfl

theorem accessCoin_cached (hit : s.cache.cacheCoins.lookup o = some it) :
    onQueue peek _ (.accessCoin o) s = (it.coin, s) := by
  rw [onQueue_cached (o := o) rfl hit]
  rfl

theorem spendCoin_cached (hit : s.cache.cacheCoins.lookup o = some it) :
    onQueue peek _ (.spendCoin o) s = (some it.coin, ⟨s.cache.spendCoin o it, s.rest⟩) := by
  rw [onQueue_cached (o := o) rfl hit]
  rfl

end

variable {cache : CCoinsViewCache} {earlier : List Uint256} {o o' : COutPoint} {it e : CCoinsCacheEntry}

/-- What spending leaves at an outpoint. -/
theorem CCoinsViewCache.spendCoin_lookup (h : (cache.spendCoin o it).cacheCoins.lookup o' = some e) :
    o' = o ∧ e.coin.isSpent = true ∨ o' ≠ o ∧ cache.cacheCoins.lookup o' = some e := by
  unfold spendCoin at h
  split_ifs at h
  · simp only [erase, uncount, lookup_erase_if] at h
    split_ifs at h with ho
    exact Or.inr ⟨ho, h⟩
  · simp only [count, store, uncount, lookup_insert_if] at h
    split_ifs at h with ho
    · exact Or.inl ⟨ho, by rw [← some_inj.1 h]; rfl⟩
    · exact Or.inr ⟨ho, h⟩

theorem CCoinsViewCache.spendCoin_lookup_ne (ho : o' ≠ o) :
    (cache.spendCoin o it).cacheCoins.lookup o' = cache.cacheCoins.lookup o' := by
  unfold spendCoin
  split_ifs
  · simp [erase, uncount, Finmap.lookup_erase_ne ho]
  · simp [count, store, uncount, Finmap.lookup_insert_of_ne _ ho]

/-- What adding leaves at an outpoint. -/
theorem CCoinsViewCache.addCoin_lookup {cache' : CCoinsViewCache} {coin : Coin} {possibleOverwrite : Bool}
    (h : cache.addCoin o coin possibleOverwrite = .ok cache') (he : cache'.cacheCoins.lookup o' = some e) :
    o' = o ∧ e.coin = coin ∨ cache.cacheCoins.lookup o' = some e := by
  simp only [addCoin, ite_error_ok] at h
  obtain ⟨-, h⟩ := h
  split_ifs at h
  · cases h
    exact Or.inr he
  · cases h
    simp only [count, store, uncount, lookup_insert_if] at he
    split_ifs at he with ho
    · exact Or.inl ⟨ho, by rw [← some_inj.1 he]⟩
    · exact Or.inr he

/-! ## The queue and the cache between two transactions -/

theorem queuedInputs_hash {txs : List CTransaction} (h : o ∈ queuedInputs earlier txs) : o.hash ∉ earlier := by
  induction txs generalizing earlier with
  | nil => cases h
  | cons tx txs ih =>
    rcases mem_append.1 h with hfirst | hrest
    · exact of_decide_eq_true (mem_filter.1 hfirst).2
    · intro hmem
      exact ih hrest (mem_cons_of_mem _ hmem)

variable (peek : COutPoint → Option Coin)

/-- the outpoints to come are those that were taken off in vain, and the rest of the queue -/
def Pending (todo rest : List COutPoint) : Prop :=
  ∃ lost, todo = lost ++ rest ∧ ∀ o ∈ lost, peek o = none

/-- what a cache may hold at a height: spent coins, outputs of earlier transactions, coins that are not mature, and the
coins of outpoints that are allowed -/
def Entries (nHeight : ℕ) (earlier : List Uint256) (allowed : List COutPoint) (cache : CCoinsViewCache) : Prop :=
  ∀ o it, cache.cacheCoins.lookup o = some it →
    (it.coin.isSpent = true ∨ o.hash ∈ earlier ∨ it.coin.mature nHeight = false) ∨ o ∈ allowed

theorem Entries.mono {nHeight : ℕ} {allowed allowed' : List COutPoint} (h : Entries nHeight earlier allowed cache)
    (hsub : allowed ⊆ allowed') : Entries nHeight earlier allowed' cache :=
  fun o it hit => (h o it hit).imp_right fun hallowed => hsub hallowed

/-- behind the earlier transactions, with outpoints to come -/
structure Waiting (nHeight : ℕ) (earlier : List Uint256) (later : List COutPoint)
    (s : Prefetched) : Prop where
  entries : Entries nHeight earlier [] s.cache
  pending : Pending peek later s.rest

/-- between two transactions, the earlier ones and those to come -/
abbrev Between (nHeight : ℕ) (earlier : List Uint256) (txs : List CTransaction) :
    Prefetched → Prop := Waiting peek nHeight earlier (queuedInputs earlier txs)

section
variable {peek : COutPoint → Option Coin} {todo rest : List COutPoint} {o : COutPoint}

/-- A lookup of an outpoint that is not to come leaves the queue. -/
theorem Pending.skip (h : Pending peek todo rest) (ho : o ∉ todo) : takeFront rest o = rest := by
  rw [takeFront, if_neg]
  intro hhead
  obtain ⟨lost, rfl, -⟩ := h
  exact ho (mem_append_right _ (mem_of_mem_head? hhead))

/-- The next outpoint is a coin: it is at the front. -/
theorem Pending.next {coin : Coin} (h : Pending peek (o :: todo) rest) (hcoin : peek o = some coin) :
    Pending peek todo (takeFront rest o) := by
  obtain ⟨lost, htodo, hlost⟩ := h
  cases lost with
  | nil =>
    rw [nil_append] at htodo
    subst htodo
    exact ⟨[], by simp [takeFront], by simp⟩
  | cons o' lost =>
    rw [cons_append, List.cons.injEq] at htodo
    obtain ⟨rfl, -⟩ := htodo
    rw [hlost o mem_cons_self] at hcoin
    cases hcoin

/-- A lookup that finds nothing may take an outpoint off. -/
theorem Pending.lose (h : Pending peek todo rest) (hcoin : peek o = none) : Pending peek todo (takeFront rest o) := by
  obtain ⟨lost, rfl, hlost⟩ := h
  unfold takeFront
  split_ifs with hhead
  · cases rest with
    | nil => cases hhead
    | cons o' rest =>
      obtain rfl : o' = o := some_inj.1 hhead
      refine ⟨lost ++ [o'], by simp, fun x hx => ?_⟩
      rcases mem_append.1 hx with hx | hx
      · exact hlost x hx
      · rw [mem_singleton.1 hx]
        exact hcoin
  · exact ⟨lost, rfl, hlost⟩

end

/-! ## One transaction -/

section
variable {peek : COutPoint → Option Coin} {nHeight : ℕ} {earlier : List Uint256} {later : List COutPoint}

/-- while `HaveInputs` goes over the inputs of a transaction: those behind it are unspent entries; the queue waits for
the others and for later transactions, unless an input was found that is not mature -/
structure Looking (peek : COutPoint → Option Coin) (nHeight : ℕ) (earlier : List Uint256) (later : List COutPoint)
    (done todo : List CTxIn) (s : Prefetched) : Prop where
  entries : Entries nHeight earlier (done.map CTxIn.prevout) s.cache
  found : ∀ txin ∈ done, ∃ it, s.cache.cacheCoins.lookup txin.prevout = some it ∧ it.coin.isSpent = false
  pending : Pending peek ((todo.map CTxIn.prevout).filter (fun prevout => decide (prevout.hash ∉ earlier)) ++ later)
    s.rest ∨ ∃ txin ∈ done, ∃ it, s.cache.cacheCoins.lookup txin.prevout = some it ∧ it.coin.mature nHeight = false

variable {txin : CTxIn} {s₀ : Prefetched} {tx : CTransaction} {it : CCoinsCacheEntry} {vin : List CTxIn}
  {s : Prefetched}

/-- an input that was looked up before -/
theorem Looking.cached {done todo : List CTxIn} (h : Looking peek nHeight earlier later done (txin :: todo) s)
    (hnew : txin.prevout ∉ done.map CTxIn.prevout) (hit : s.cache.cacheCoins.lookup txin.prevout = some it)
    (hspent : it.coin.isSpent = false) : Looking peek nHeight earlier later (done ++ [txin]) todo s := by
  have hmem : txin ∈ done ++ [txin] := mem_append_right _ mem_cons_self
  refine ⟨h.entries.mono (by simp), ?_, ?_⟩
  · intro i hi
    rcases mem_append.1 hi with hi | hi
    · exact h.found i hi
    · rw [mem_singleton.1 hi]
      exact ⟨it, hit, hspent⟩
  · rcases h.entries txin.prevout it hit with (hs | hearlier | hmature) | hdone
    · rw [hspent] at hs
      cases hs
    · rcases h.pending with hpending | ⟨i, hi, himmature⟩
      · rw [map_cons, filter_cons_of_neg (by simpa using hearlier)] at hpending
        exact Or.inl hpending
      · exact Or.inr ⟨i, mem_append_left _ hi, himmature⟩
    · exact Or.inr ⟨txin, hmem, it, hit, hmature⟩
    · exact absurd hdone hnew

/-- an input that is fetched -/
theorem Looking.fetched {done todo : List CTxIn} {coin : Coin}
    (h : Looking peek nHeight earlier later done (txin :: todo) s) (hlater : ∀ o ∈ later, o.hash ∉ earlier)
    (hit : s.cache.cacheCoins.lookup txin.prevout = none) (hcoin : peek txin.prevout = some coin)
    (hspent : coin.isSpent = false) : Looking peek nHeight earlier later (done ++ [txin]) todo
      ⟨s.cache.store txin.prevout ⟨coin, false, false⟩, takeFront s.rest txin.prevout⟩ := by
  have hother : ∀ o it, s.cache.cacheCoins.lookup o = some it →
      (s.cache.store txin.prevout ⟨coin, false, false⟩).cacheCoins.lookup o = some it := by
    intro o it ho
    have hne : o ≠ txin.prevout := by
      rintro rfl
      rw [hit] at ho
      cases ho
    rw [CCoinsViewCache.store, Finmap.lookup_insert_of_ne _ hne, ho]
  refine ⟨?_, ?_, ?_⟩
  · intro o e he
    by_cases ho : o = txin.prevout
    · subst ho
      exact Or.inr (by simp)
    · rw [CCoinsViewCache.store, Finmap.lookup_insert_of_ne _ ho] at he
      exact h.entries.mono (by simp) o e he
  · intro i hi
    rcases mem_append.1 hi with hi | hi
    · obtain ⟨it, hlookup, hunspent⟩ := h.found i hi
      exact ⟨it, hother _ it hlookup, hunspent⟩
    · rw [mem_singleton.1 hi]
      exact ⟨⟨coin, false, false⟩, by simp [CCoinsViewCache.store], hspent⟩
  · rcases h.pending with hpending | ⟨i, hi, it, hlookup, himmature⟩
    · refine Or.inl ?_
      by_cases hearlier : txin.prevout.hash ∈ earlier
      · -- an output of an earlier transaction: no input that is left in the queue is one
        rw [map_cons, filter_cons_of_neg (by simpa using hearlier)] at hpending
        rw [hpending.skip]
        · exact hpending
        · intro hmem
          rcases mem_append.1 hmem with hmem | hmem
          · exact of_decide_eq_true (mem_filter.1 hmem).2 hearlier
          · exact hlater _ hmem hearlier
      · rw [map_cons, filter_cons_of_pos (by simpa using hearlier), cons_append] at hpending
        exact hpending.next hcoin
    · exact Or.inr ⟨i, mem_append_left _ hi, it, hother _ it hlookup, himmature⟩

/-- `HaveInputs` that finds all inputs -/
theorem haveInputs_ends (hlater : ∀ o ∈ later, o.hash ∉ earlier) (done todo : List CTxIn)
    (hdistinct : ((done ++ todo).map CTxIn.prevout).Nodup) :
    Ends (onQueue peek) (Looking peek nHeight earlier later done todo) (Lookups.haveInputs todo)
      fun found s => found = true → Looking peek nHeight earlier later (done ++ todo) [] s := by
  induction todo generalizing done with
  | nil => exact .pure fun s hs _ => by rwa [append_nil]
  | cons txin todo ih =>
    have hnew : txin.prevout ∉ done.map CTxIn.prevout := by
      rw [map_append, map_cons] at hdistinct
      intro hmem
      exact disjoint_of_nodup_append hdistinct hmem mem_cons_self
    refine .bind (M := fun found s => found = true → Looking peek nHeight earlier later (done ++ [txin]) todo s) ?_ ?_
    · refine .ask fun s hs => ?_
      cases hit : s.cache.cacheCoins.lookup txin.prevout with
      | some it =>
        rw [haveCoin_cached hit]
        intro hfound
        obtain ⟨coin, hcoin⟩ := isSome_iff_exists.1 hfound
        obtain ⟨rfl, hspent⟩ := CCoinsCacheEntry.unspent_eq_some hcoin
        exact hs.cached hnew hit hspent
      | none =>
        rw [haveCoin_missing hit]
        cases hpeek : peek txin.prevout with
        | none =>
          intro hfound
          cases hfound
        | some coin =>
          intro hfound
          obtain ⟨coin', hcoin⟩ := isSome_iff_exists.1 hfound
          obtain ⟨-, hspent⟩ := CCoinsCacheEntry.unspent_eq_some (e := ⟨coin, false, false⟩) hcoin
          have hsame : coin = coin' := (CCoinsCacheEntry.unspent_eq_some (e := ⟨coin, false, false⟩) hcoin).1
          exact hs.fetched hlater hit hpeek (hsame ▸ hspent)
    · intro found
      cases found with
      | false => exact .pure fun s _ hfound => by cases hfound
      | true =>
        have hrest := ih (done ++ [txin]) (by rwa [append_assoc])
        rw [append_assoc] at hrest
        exact hrest.mono (fun s hs => hs rfl) fun _ _ h => h

/-- the coin of an entry -/
def Prefetched.coinAt (s : Prefetched) (txin : CTxIn) : Coin :=
  (s.cache.cacheCoins.lookup txin.prevout).elim Coin.empty CCoinsCacheEntry.coin

/-- Inputs that have unspent entries are there. -/
theorem Looking.all_found {todo : List CTxIn} (h : Looking peek nHeight earlier later vin todo s) :
    Forall₂ (Lookups.Found (onQueue peek) s) vin (vin.map s.coinAt) := by
  rw [forall₂_map_right_iff, forall₂_same]
  intro txin htxin
  obtain ⟨it, hit, hspent⟩ := h.found txin htxin
  rw [Lookups.Found, accessCoin_cached hit, Prefetched.coinAt, hit]
  exact ⟨rfl, hspent⟩

/-- A transaction whose inputs pass: all have entries, and the queue waits for the later transactions. -/
theorem checkTxInputs_ends (hlater : ∀ o ∈ later, o.hash ∉ earlier) (hdistinct : tx.prevouts.Nodup) :
    Ends (onQueue peek) (Looking peek nHeight earlier later [] tx.vin) (Lookups.checkTxInputs tx nHeight)
      fun _ s => Looking peek nHeight earlier later tx.vin [] s ∧ Pending peek later s.rest := by
  refine .bind (haveInputs_ends hlater [] tx.vin hdistinct) fun found => ?_
  cases found with
  | false => exact .fail
  | true =>
    intro s hs fee t hrun
    have hlooking : Looking peek nHeight earlier later tx.vin [] s := hs rfl
    obtain ⟨rfl, hpaid⟩ := Ends.of_exec (Lookups.checkFound_exec nHeight hlooking.all_found) s rfl fee t hrun
    simp only [mapError_ok, bind_ok] at hpaid
    obtain ⟨nValueIn, hloop, -⟩ := hpaid
    refine ⟨hlooking, ?_⟩
    rcases hlooking.pending with hpending | ⟨txin, htxin, it, hit, himmature⟩
    · exact hpending
    · have hmature := ((checkInputCoins_ok hloop).1 _ (mem_map_of_mem htxin)).1
      rw [Prefetched.coinAt, hit, Option.elim_some, himmature] at hmature
      cases hmature

/-- the inputs of a transaction were found, and the queue waits for the later transactions -/
def InputsFound (peek : COutPoint → Option Coin) (nHeight : ℕ) (earlier : List Uint256) (later : List COutPoint)
    (vin : List CTxIn) (s : Prefetched) : Prop :=
  Looking peek nHeight earlier later vin [] s ∧ Pending peek later s.rest

/-- A program that leaves each state with the inputs found as it was. -/
theorem InputsFound.keep {α : Type} {m : ConnectCalls α}
    (h : ∀ s coins, Forall₂ (Lookups.Found (onQueue peek) s) vin coins → ∃ x, m.exec (onQueue peek) s = (·, s) <$> x) :
    Ends (onQueue peek) (InputsFound peek nHeight earlier later vin) m fun _ s =>
      InputsFound peek nHeight earlier later vin s := by
  refine .of_state fun s hs => ?_
  obtain ⟨x, hx⟩ := h s _ hs.1.all_found
  exact (Ends.of_exec hx).mono (fun _ ht => ht) fun _ t ht => ht.1 ▸ hs

theorem prevheights_keep (vin : List CTxIn) :
    Ends (onQueue peek) (InputsFound peek nHeight earlier later vin) (vin.foldlM Lookups.prevheight [])
      fun _ => InputsFound peek nHeight earlier later vin := by
  refine InputsFound.keep fun s coins h => ⟨_, Lookups.inputs_exec
    (fun heights coin => pure (heights ++ [coin.nHeight])) (fun heights txin coin hcoin => ?_) h []⟩
  rw [Lookups.prevheight, Calls.exec_bind, Calls.exec_ask, hcoin.1]
  rfl

theorem checkInputScripts_keep (env : ConnectEnv) (tx : CTransaction) (time : Int64) :
    Ends (onQueue peek) (InputsFound peek nHeight earlier later tx.vin) (Lookups.checkInputScripts env tx time)
      fun _ s => InputsFound peek nHeight earlier later tx.vin s :=
  InputsFound.keep fun _ _ h => ⟨_, Lookups.checkInputScripts_exec env time h⟩

/-! ## Spending and adding -/

/-- while `UpdateCoins` spends the inputs of a transaction -/
structure Spending (peek : COutPoint → Option Coin) (nHeight : ℕ) (earlier : List Uint256) (later : List COutPoint)
    (todo : List CTxIn) (s : Prefetched) : Prop where
  distinct : (todo.map CTxIn.prevout).Nodup
  entries : Entries nHeight earlier (todo.map CTxIn.prevout) s.cache
  found : ∀ txin ∈ todo, ∃ it, s.cache.cacheCoins.lookup txin.prevout = some it
  pending : Pending peek later s.rest

theorem spendInput_ends (txin : CTxIn) (todo : List CTxIn) (txundo : CTxUndo) :
    Ends (onQueue peek) (Spending peek nHeight earlier later (txin :: todo)) (Lookups.spendInput txundo txin)
      fun _ => Spending peek nHeight earlier later todo := by
  refine .bind (M := fun _ s => Spending peek nHeight earlier later todo s) (.ask fun s hs => ?_) fun spent => ?_
  · obtain ⟨it, hit⟩ := hs.found txin mem_cons_self
    obtain ⟨hnew, hrest⟩ := nodup_cons.1 (by simpa using hs.distinct : (txin.prevout :: todo.map CTxIn.prevout).Nodup)
    rw [spendCoin_cached hit]
    refine ⟨hrest, ?_, ?_, hs.pending⟩
    · intro o e he
      rcases CCoinsViewCache.spendCoin_lookup he with ⟨-, hspent⟩ | ⟨hne, hold⟩
      · exact Or.inl (Or.inl hspent)
      · exact (hs.entries o e hold).imp_right fun hmem => (mem_cons.1 hmem).resolve_left hne
    · intro i hi
      have hne : i.prevout ≠ txin.prevout := by
        intro heq
        exact hnew (heq ▸ mem_map_of_mem hi)
      obtain ⟨it', hit'⟩ := hs.found i (mem_cons_of_mem _ hi)
      exact ⟨it', by rw [CCoinsViewCache.spendCoin_lookup_ne hne, hit']⟩
  · cases spent with
    | none => exact .fail
    | some coin => exact .skip

/-- The outputs of a transaction become entries: outputs of an earlier transaction from then on, or coins that are not
mature. -/
theorem addOutput_ends {output : CTxOut × ℕ}
    (hnew : tx.getHash ∈ earlier ∨ (outputCoin tx nHeight output).2.mature nHeight = false) (u : Unit) :
    Ends (onQueue peek) (Waiting peek nHeight earlier later) (Lookups.addOutput tx nHeight u output)
      fun _ => Waiting peek nHeight earlier later := by
  refine .bind (M := fun _ => Waiting peek nHeight earlier later) (.ask fun s hs => ?_) fun added =>
    .lift fun _ _ s hs => hs
  rw [onQueue_direct rfl]
  simp only [Prefetched.answer, CoinsCall.finish]
  cases hadd : s.cache.addCoin (outputCoin tx nHeight output).1 (outputCoin tx nHeight output).2 tx.isCoinBase with
  | error e => exact hs
  | ok cache =>
    refine ⟨fun o e he => ?_, hs.pending⟩
    rcases CCoinsViewCache.addCoin_lookup hadd he with ⟨rfl, hcoin⟩ | hold
    · exact Or.inl (Or.inr (hnew.imp_right fun hmature => by rw [hcoin, hmature]))
    · exact hs.entries o e hold

theorem addCoins_ends
    (hnew : tx.getHash ∈ earlier ∨ ∀ output, (outputCoin tx nHeight output).2.mature nHeight = false) :
    Ends (onQueue peek) (Waiting peek nHeight earlier later) (tx.vout.zipIdx.foldlM (Lookups.addOutput tx nHeight) ())
      fun _ => Waiting peek nHeight earlier later :=
  Calls.Ends.foldlM (I := fun _ _ => Waiting peek nHeight earlier later)
    (fun output _ u => addOutput_ends (hnew.imp_right fun h => h output) u) _ ()

theorem updateCoins_ends (hplain : tx.isCoinBase = false) (hdistinct : tx.prevouts.Nodup) :
    Ends (onQueue peek) (InputsFound peek nHeight earlier later tx.vin) (Lookups.updateCoins tx nHeight)
      fun _ => Waiting peek nHeight (tx.getHash :: earlier) later := by
  have hspend : Ends (onQueue peek) (InputsFound peek nHeight earlier later tx.vin) (Lookups.spendInputs tx)
      fun _ => Waiting peek nHeight (tx.getHash :: earlier) later := by
    rw [Lookups.spendInputs, if_neg (Bool.eq_false_iff.1 hplain)]
    have hloop := Calls.Ends.foldlM (I := fun todo _ (s : Prefetched) => Spending peek nHeight earlier later todo s)
      (fun txin todo undo => spendInput_ends txin todo undo) tx.vin []
    refine hloop.mono (fun s hs => ?_) fun _ s hs => ⟨?_, hs.pending⟩
    · refine ⟨hdistinct, hs.1.entries, fun txin htxin => ?_, hs.2⟩
      obtain ⟨it, hit, -⟩ := hs.1.found txin htxin
      exact ⟨it, hit⟩
    · intro o it hit
      exact (hs.entries o it hit).imp_left fun h => h.imp_right fun h => h.imp_left (mem_cons_of_mem _)
  refine .bind hspend fun undo => .bind (addCoins_ends (Or.inl mem_cons_self)) fun _ => ?_
  exact .skip

end

/-! ## The block -/

section
variable {peek : COutPoint → Option Coin} {ctx : ConnectContext} {earlier : List Uint256} {txs : List CTransaction}
  {tx : CTransaction}

theorem checkSpend_ends {later : List COutPoint} (hlater : ∀ o ∈ later, o.hash ∉ earlier)
    (hdistinct : tx.prevouts.Nodup) (sums : ConnectSums) :
    Ends (onQueue peek) (Looking peek ctx.pindex.nHeight earlier later [] tx.vin) (Lookups.checkSpend ctx sums tx)
      fun _ => InputsFound peek ctx.pindex.nHeight earlier later tx.vin := by
  refine .bind (checkTxInputs_ends hlater hdistinct) fun txfee => ?_
  refine .lift_bind fun _ => ?_
  refine .bind (prevheights_keep tx.vin) fun prevheights => ?_
  exact .lift_bind fun _ => .skip

/-- A transaction behind the coinbase. -/
theorem connectTx_ends (hok : TxOk tx) (hplain : tx.isCoinBase = false) (i : ℕ) (sums : ConnectSums) :
    Ends (onQueue peek) (Between peek ctx.pindex.nHeight earlier (tx :: txs)) (Lookups.connectTx ctx sums (tx, i))
      fun _ => Between peek ctx.pindex.nHeight (tx.getHash :: earlier) txs := by
  have hlater : ∀ o ∈ queuedInputs (tx.getHash :: earlier) txs, o.hash ∉ earlier := by
    intro o ho hmem
    exact queuedInputs_hash ho (mem_cons_of_mem _ hmem)
  have hcheck : Ends (onQueue peek) (Between peek ctx.pindex.nHeight earlier (tx :: txs))
      (Lookups.checkInputs ctx sums tx) fun _ s =>
        InputsFound peek ctx.pindex.nHeight earlier (queuedInputs (tx.getHash :: earlier) txs) tx.vin s := by
    rw [Lookups.checkInputs, if_neg (Bool.eq_false_iff.1 hplain)]
    refine (checkSpend_ends hlater hok.distinct sums).mono (fun s hs => ?_) fun _ s hs => hs
    exact ⟨hs.entries, by simp, Or.inl hs.pending⟩
  have hscripts : Ends (onQueue peek)
      (InputsFound peek ctx.pindex.nHeight earlier (queuedInputs (tx.getHash :: earlier) txs) tx.vin)
        (Lookups.checkScripts ctx tx)
      fun _ => InputsFound peek ctx.pindex.nHeight earlier (queuedInputs (tx.getHash :: earlier) txs) tx.vin := by
    unfold Lookups.checkScripts
    split_ifs
    · exact .skip
    · exact checkInputScripts_keep _ _ _
  refine .bind hcheck fun sums => .lift_bind fun _ => ?_
  refine .bind hscripts fun failures => .bind (updateCoins_ends hplain hok.distinct) fun undo => ?_
  exact .skip

variable {nHeight : ℕ} {todo : List COutPoint}

theorem updateCoins_coinbase (hcb : tx.isCoinBase = true) (hheight : nHeight < 2 ^ 31) :
    Ends (onQueue peek) (Between peek nHeight [] txs) (Lookups.updateCoins tx nHeight) fun _ s =>
      Between peek nHeight [] txs s := by
  have hskip : Ends (onQueue peek) (Between peek nHeight [] txs) (Lookups.spendInputs tx)
      fun _ => Between peek nHeight [] txs := by
    rw [Lookups.spendInputs, if_pos hcb]
    exact .skip
  refine .bind hskip fun undo => .bind (addCoins_ends (Or.inr fun output => ?_)) fun _ => .skip
  -- an output of the block's coinbase cannot be spent in the block
  simp only [outputCoin, Coin.ofOutput, Coin.mature, hcb, Nat.mod_eq_of_lt hheight, sub_self]
  rfl

/-- The coinbase. -/
theorem connectTx_coinbase (hcb : tx.isCoinBase = true) (hheight : ctx.pindex.nHeight < 2 ^ 31) (i : ℕ)
    (sums : ConnectSums) : Ends (onQueue peek) (Between peek ctx.pindex.nHeight [] txs)
      (Lookups.connectTx ctx sums (tx, i)) fun _ => Between peek ctx.pindex.nHeight [] txs := by
  have hcheck : Ends (onQueue peek) (Between peek ctx.pindex.nHeight [] txs)
      (Lookups.checkInputs ctx sums tx) fun _ => Between peek ctx.pindex.nHeight [] txs := by
    rw [Lookups.checkInputs, if_pos hcb]
    exact .skip
  have hscripts : Ends (onQueue peek) (Between peek ctx.pindex.nHeight [] txs) (Lookups.checkScripts ctx tx)
      fun _ => Between peek ctx.pindex.nHeight [] txs := by
    rw [Lookups.checkScripts, hcb, Bool.true_or, if_pos rfl]
    exact .skip
  refine .bind hcheck fun sums => .lift_bind fun _ => ?_
  refine .bind hscripts fun failures => .bind (updateCoins_coinbase hcb hheight) fun undo => ?_
  exact .skip

/-- Behind the last transaction nothing is left in the queue. -/
theorem Between.consumed {s : Prefetched} (h : Between peek nHeight earlier [] s) : s.rest = [] := by
  obtain ⟨lost, hnil, -⟩ := h.pending
  exact (append_eq_nil_iff.1 hnil.symm).2

/-- The transactions behind the coinbase. -/
theorem connectLoop_ends (hall : ∀ tx ∈ txs, TxOk tx ∧ tx.isCoinBase = false) (n : ℕ) (sums : ConnectSums) :
    Ends (onQueue peek) (Between peek ctx.pindex.nHeight earlier txs)
      ((txs.zipIdx n).foldlM (Lookups.connectTx ctx) sums) fun _ s => s.rest = [] := by
  induction txs generalizing earlier n sums with
  | nil => exact .pure fun s hs => hs.consumed
  | cons tx txs ih =>
    obtain ⟨⟨hok, hplain⟩, hrest⟩ := forall_mem_cons.1 hall
    rw [zipIdx_cons, foldlM_cons]
    exact .bind (connectTx_ends hok hplain n sums) fun sums => ih hrest (n + 1) sums

/-- no coin was found, and the queue waits for todo -/
def NothingFound (peek : COutPoint → Option Coin) (todo : List COutPoint) (found : Bool) (s : Prefetched) : Prop :=
  found = false → s.cache = CCoinsViewCache.empty ∧ Pending peek todo s.rest

theorem lookForOutput_ends (hpeek : ∀ o coin, peek o = some coin → coin.isSpent = false) (tx : CTransaction)
    (found : Bool) (o : ℕ) : Ends (onQueue peek) (NothingFound peek todo found) (Lookups.lookForOutput tx found o)
    (NothingFound peek todo) := by
  refine .bind (M := fun have_ => NothingFound peek todo (found || have_)) (.ask fun s hs => ?_)
    fun have_ => .pure fun s hs => hs
  intro hnone
  obtain ⟨hfound, hhave⟩ := Bool.or_eq_false_iff.1 hnone
  obtain ⟨hcache, hpending⟩ := hs hfound
  have hit : s.cache.cacheCoins.lookup ⟨tx.getHash, UInt32.ofNat o⟩ = none := by
    rw [hcache]
    rfl
  rw [haveCoin_missing hit] at hhave ⊢
  cases hcoin : peek ⟨tx.getHash, UInt32.ofNat o⟩ with
  | none => exact ⟨hcache, hpending.lose hcoin⟩
  | some coin =>
    -- a coin of the base is unspent, so it is found
    have hunspent := CCoinsCacheEntry.unspent_of_coin (e := ⟨coin, false, false⟩) (hpeek _ coin hcoin)
    simp only [hcoin, CCoinsViewCache.emplace, bind_some, hunspent, isSome_some] at hhave
    cases hhave

theorem checkBIP30_ends (hpeek : ∀ o coin, peek o = some coin → coin.isSpent = false) (block : CBlock) :
    Ends (onQueue peek) (NothingFound peek todo false) (Lookups.checkBIP30 ctx block) (NothingFound peek todo) := by
  unfold Lookups.checkBIP30
  split_ifs
  · refine .foldlM (I := fun _ => NothingFound peek todo) (fun tx _ found => ?_) block.vtx false
    exact .foldlM (I := fun _ => NothingFound peek todo) (fun o _ found => lookForOutput_ends hpeek tx found o) _ found
  · exact .pure fun s hs => hs

/-- the overlay before the first call -/
def Untouched (block : CBlock) (s : Prefetched) : Prop :=
  s.cache = CCoinsViewCache.empty ∧ s.rest = queuedInputs [] (block.vtx.drop 1)

/-- An accepted block has consumed the queue in order. -/
theorem connectTxs_ends (hpeek : ∀ o coin, peek o = some coin → coin.isSpent = false) {block : CBlock}
    (hbody : BodyOk block) (hheight : ctx.pindex.nHeight < 2 ^ 31) :
    Ends (onQueue peek) (Untouched block) (Lookups.connectTxs ctx block) fun _ s => s.rest = [] := by
  obtain ⟨cb, txs, hvtx, hcb, hplain⟩ := hbody.coinbase
  have hall : ∀ tx ∈ txs, TxOk tx ∧ tx.isCoinBase = false := by
    intro tx htx
    exact ⟨hbody.txs tx (by rw [hvtx]; exact mem_cons_of_mem _ htx), hplain tx htx⟩
  have hstart : Ends (onQueue peek) (Untouched block) (Lookups.checkBIP30 ctx block)
      (NothingFound peek (queuedInputs [] txs)) := by
    refine (checkBIP30_ends hpeek block).mono (fun s hs _ => ⟨hs.1, [], ?_, by simp⟩) fun _ _ hs => hs
    rw [hs.2, hvtx]
    rfl
  have hloop : ∀ sums, Ends (onQueue peek) (Between peek ctx.pindex.nHeight [] txs)
      (block.vtx.zipIdx.foldlM (Lookups.connectTx ctx) sums) fun _ s => s.rest = [] := by
    intro sums
    rw [hvtx, zipIdx_cons, foldlM_cons]
    exact .bind (connectTx_coinbase hcb hheight 0 sums) fun sums => connectLoop_ends hall 1 sums
  refine .bind hstart fun found => ?_
  refine .bind (M := fun _ s => Between peek ctx.pindex.nHeight [] txs s) (.lift fun _ hfound s hs => ?_) fun _ => ?_
  · obtain ⟨hcache, hpending⟩ := hs (refuseIf_ok.1 hfound)
    refine ⟨fun o it hit => ?_, hpending⟩
    rw [hcache] at hit
    cases hit
  · refine .bind (hloop _) fun sums => .lift_bind fun _ => ?_
    exact .lift_bind fun _ => .skip

end

variable {peek : COutPoint → Option Coin} {pindex : CBlockIndex}

/-- The genesis block has one transaction, so nothing was queued. -/
theorem connectGenesis_ends {P : Params} (hspendable : P.genesisCoinbaseSpendable = true) (block : CBlock)
    (hheight : pindex.nHeight < 2 ^ 31) :
    Ends (onQueue peek) (Untouched block) (Lookups.connectGenesis P block pindex) fun _ s => s.rest = [] := by
  rw [Lookups.connectGenesis, if_pos hspendable]
  split
  · next tx hvtx =>
    split_ifs with hcb
    · have hupdate : Ends (onQueue peek) (Between peek pindex.nHeight [] []) (Lookups.updateCoins tx pindex.nHeight)
          fun _ s => Between peek pindex.nHeight [] [] s := updateCoins_coinbase hcb hheight
      refine .bind (hupdate.mono (fun s hs => ?_) fun _ s hs => hs.consumed) fun _ => .skip
      refine ⟨fun o it hit => ?_, [], ?_, by simp⟩
      · rw [hs.1] at hit
        cases hit
      · rw [hs.2, hvtx]
        rfl
    · exact .fail
  · exact .fail

/-- A block that `ConnectBlock` accepts leaves nothing in the queue. -/
theorem connectBlock_consumes (hpeek : ∀ o coin, peek o = some coin → coin.isSpent = false) {P : Params}
    (hspendable : P.genesisCoinbaseSpendable = true) {env : ConnectEnv} {block : CBlock}
    (hflag : block.fChecked = true → BodyOk block)
    (hheight : pindex.nHeight < 2 ^ 31) (bestBlock : Uint256) (undo : Option Bytes) (fJustCheck : Bool) :
    Ends (onQueue peek) (Untouched block) (Lookups.connectBlock P env block pindex bestBlock undo fJustCheck)
      fun _ s => s.rest = [] := by
  refine .lift_bind fun _ => ?_
  refine .bind (M := fun b s => BodyOk b ∧ Untouched b s) (.lift fun b hb s hs => ?_) fun b => ?_
  · obtain ⟨hbody, hvtx, -⟩ := checkBlock_body hflag (mapError_ok.1 hb)
    exact ⟨hbody, hs.1, by rw [hvtx]; exact hs.2⟩
  · refine .lift_bind fun _ => ?_
    by_cases hgenesis : b.header.getHash = P.hashGenesisBlock
    · rw [if_pos hgenesis]
      refine .bind ((connectGenesis_ends hspendable b hheight).mono (fun s hs => hs.2) fun _ _ hs => hs) fun _ => ?_
      exact .skip
    · rw [if_neg hgenesis, Lookups.connectChild]
      refine .of_state fun s₀ hs₀ => ?_
      cases pindex.pprev with
      | none => exact .fail
      | some pprev =>
        refine .bind ((connectTxs_ends hpeek hs₀.1 hheight).mono (fun s hs => hs ▸ hs₀.2) fun _ _ hs => hs)
          fun sums => ?_
        split_ifs
        · exact .skip
        · exact .lift_bind fun _ => .skip

/-! ## The overlay -/

/-- An empty queue stays empty. -/
theorem run_rest_nil {ε α : Type} (peek : COutPoint → Option Coin) (program : Calls CoinsCall ε α) {s : Prefetched}
    (hs : s.rest = []) : (program.run (onQueue peek) s).2.rest = [] := by
  induction program generalizing s with
  | done a => exact hs
  | fail e => exact hs
  | call c k ih =>
    apply ih
    cases hc : c.fetched with
    | none =>
      rw [onQueue_direct hc]
      exact hs
    | some o =>
      cases hit : s.cache.cacheCoins.lookup o with
      | some it =>
        rw [onQueue_cached hc hit]
        exact hs
      | none =>
        rw [onQueue_missing hc hit, hs]
        rfl

section
variable {base : CoinsStack} {block : CBlock} {workers : ℕ} {submitted : Bool} {P : Params} {env : ConnectEnv}
  {pindex : CBlockIndex} {bestBlock : Uint256} {undo : Option Bytes} {fJustCheck : Bool}

/-- An accepted block leaves nothing of the queue that was started for it. -/
theorem connectBlock_rest (hbase : base.BaseUnspent) (hspendable : P.genesisCoinbaseSpendable = true)
    (hflag : block.fChecked = true → BodyOk block) (hheight : pindex.nHeight < 2 ^ 31)
    {r : Option Uint256 × Option Bytes} {t : Prefetched}
    (h : (Lookups.connectBlock P env block pindex bestBlock undo fJustCheck).run (onQueue base.peekCoin)
      ⟨CCoinsViewCache.empty, CoinsViewOverlay.queue block workers submitted⟩ = (.ok r, t)) : t.rest = [] := by
  rw [CoinsViewOverlay.queue] at h
  split_ifs at h
  · exact connectBlock_consumes (fun o coin hcoin => hbase.peekCoin hcoin) hspendable hflag hheight bestBlock
      undo fJustCheck _ ⟨rfl, rfl⟩ r t h
  · have hnil := run_rest_nil base.peekCoin (Lookups.connectBlock P env block pindex bestBlock undo fJustCheck)
      (s := ⟨CCoinsViewCache.empty, []⟩) rfl
    rwa [h] at hnil

/-- A block that is accepted has consumed its inputs, and `Flush` does not warn. -/
theorem OverlayInv.accepted (hbase : base.BaseUnspent) (hspendable : P.genesisCoinbaseSpendable = true)
    (hflag : block.fChecked = true → BodyOk block) (hheight : pindex.nHeight < 2 ^ 31)
    {s : OverlayState ConnectFailure (Option Uint256 × Option Bytes)}
    (h : OverlayInv base (CoinsViewOverlay.queue block workers submitted) workers
      (Lookups.connectBlock P env block pindex bestBlock undo fJustCheck) s) :
    (∀ r, s.main = .running (.done r) → s.view.allInputsConsumed = true) ∧ s.warned = false := by
  refine ⟨fun r hr => ?_, ?_⟩
  · rw [OverlayInv, hr] at h
    obtain ⟨hqueue, -, -, htail, hfollows⟩ := h
    have hrest := connectBlock_rest hbase hspendable hflag hheight hfollows.run_eq.symm
    rw [CoinsViewOverlay.allInputsConsumed, hqueue.length_eq, beq_iff_eq]
    exact le_antisymm htail (drop_eq_nil_iff.1 hrest)
  · obtain ⟨-, m, rest, hfollows, hleft⟩ := h.everywhere
    by_contra hwarned
    obtain ⟨a, rfl, hne⟩ := hleft (Bool.eq_true_of_not_eq_false hwarned)
    exact hne (connectBlock_rest hbase hspendable hflag hheight hfollows.run_eq.symm)

end

/-- Parallel fetching is invisible: whatever the main thread calls and whatever the schedule, every answer so far is
that of a plain cache, no assertion fails, and an input that is awaited is ready or comes: a task holds it or is there
to claim it, the tasks have finitely many steps, and where none can move the main thread can. `ConnectBlock` on a block
that it accepts consumes the whole queue. -/
theorem prefetch_invisible (base : CoinsStack) (hbase : base.BaseUnspent) (block : CBlock) (workers : ℕ)
    (submitted : Bool) (hfit : (CoinsViewOverlay.queue block workers submitted).length + workers < 2 ^ 32) :
    (∀ (ε α : Type) (program : Calls CoinsCall ε α) (es : List OverlayEvent) (s : OverlayState ε α),
      runs OverlayState.step (OverlayState.start base block workers submitted program) es = some s →
        s.view.aborted = false ∧ s.log <+: program.log onCache (CCoinsViewCache.empty, base) ∧
        (∀ r, s.main = .stopped r → s.log = program.log onCache (CCoinsViewCache.empty, base) ∧
          r = (program.run onCache (CCoinsViewCache.empty, base)).1 ∧
          s.view.cache = (program.run onCache (CCoinsViewCache.empty, base)).2.1) ∧
        (∀ (β : Type) i o (c : CoinsCall β) k, s.main = .waiting i o c k →
          (CoinsViewOverlay.queue block workers submitted)[i]? = some o ∧ s.view.Provided i ∧
          ∀ (es : List OverlayEvent) (t : OverlayState ε α), (∀ e ∈ es, ∃ j, e = .task j) →
            runs OverlayState.step s es = some t → es.length ≤ s.view.work ∧
            ((∀ j, t.step (.task j) = none) → t.CanGoOn))) ∧
    (∀ (P : Params) (env : ConnectEnv) (pindex : CBlockIndex) (bestBlock : Uint256) (undo : Option Bytes)
      (fJustCheck : Bool) (es : List OverlayEvent) (s : OverlayState ConnectFailure (Option Uint256 × Option Bytes)),
      P.genesisCoinbaseSpendable = true → (block.fChecked = true → BodyOk block) → pindex.nHeight < 2 ^ 31 →
      runs OverlayState.step (OverlayState.start base block workers submitted
        (Lookups.connectBlock P env block pindex bestBlock undo fJustCheck)) es = some s →
        (∀ r, s.main = .running (.done r) → s.view.allInputsConsumed = true) ∧ s.warned = false) := by
  refine ⟨?_, ?_⟩
  · intro ε α program es s hrun
    have hinv := overlay_inv hfit hrun
    refine ⟨hinv.everywhere.1, hinv.log_isInitial hbase, fun r hr => hinv.ended hbase hr, ?_⟩
    intro β i o c k hmain
    obtain ⟨ho, hprovided⟩ := hinv.awaited hmain
    refine ⟨ho, hprovided, fun es t hes hrun => ?_⟩
    obtain ⟨ht, htmain, hwork⟩ := hinv.taskRun hfit hmain hes hrun
    exact ⟨by omega, fun hidle => ht.canGoOn htmain hidle⟩
  · intro P env pindex bestBlock undo fJustCheck es s hspendable hflag hheight hrun
    exact (overlay_inv hfit hrun).accepted hbase hspendable hflag hheight

end

/-! ## A block with one queued input -/

section
attribute [local instance] toyCrypto

/-- `ConnectBlock` on a block that spends one coin, with one worker -/
def prefetchedStart : OverlayState ConnectFailure (Option Uint256 × Option Bytes) :=
  OverlayState.start (.base earlierView.coins) (spendingBlock 0) 1 true
    (Lookups.connectBlock mainParams plainEnv (spendingBlock 0) (spendingIndex 0) spendingPrev.getBlockHash none false)

/-- the main thread goes as far as it can, then the task, in turns -/
def prefetchedEvents : List OverlayEvent :=
  [.main, .main, .main, .main, .task 0, .task 0, .task 0, .main, .main, .main, .main, .main, .main, .task 0, .main]

def OverlayState.endedWell {ε α : Type} (s : OverlayState ε α) : Bool :=
  match s.main with
  | .stopped (.ok _) => true
  | _ => false

/-- The block is accepted on the overlay: its input was waited for, fetched and consumed. -/
theorem spendingBlock_prefetched : (CoinsViewOverlay.queue (spendingBlock 0) 1 true).length = 1 ∧
    ∃ s r, runs OverlayState.step prefetchedStart prefetchedEvents = some s ∧ s.main = .stopped (.ok r) ∧
      s.warned = false ∧
        s.log = (Lookups.connectBlock mainParams plainEnv (spendingBlock 0) (spendingIndex 0) spendingPrev.getBlockHash
          none false).log onCache (CCoinsViewCache.empty, .base earlierView.coins) := by
  have hqueue : (CoinsViewOverlay.queue (spendingBlock 0) 1 true).length = 1 := by decide +kernel
  have hrun : ((runs OverlayState.step prefetchedStart prefetchedEvents).any OverlayState.endedWell) = true := by
    decide +kernel
  obtain ⟨hinvisible, haccepted⟩ :=
    prefetch_invisible (.base earlierView.coins) earlierView.unspent (spendingBlock 0) 1 true
    (by rw [hqueue]; decide)
  cases hs : runs OverlayState.step prefetchedStart prefetchedEvents with
  | none =>
    rw [hs] at hrun
    cases hrun
  | some s =>
    rw [hs, any_some] at hrun
    have hended : ∃ r, s.main = .stopped (.ok r) := by
      unfold OverlayState.endedWell at hrun
      split at hrun
      · next r hr => exact ⟨r, hr⟩
      · cases hrun
    obtain ⟨r, hr⟩ := hended
    obtain ⟨-, -, hsame, -⟩ := hinvisible _ _ _ prefetchedEvents s hs
    exact ⟨hqueue, s, r, rfl, hr,
      (haccepted _ _ _ _ _ _ prefetchedEvents s rfl (by simp [spendingBlock]) (by decide) hs).2, (hsame _ hr).1⟩

end

end ConnectCoin
