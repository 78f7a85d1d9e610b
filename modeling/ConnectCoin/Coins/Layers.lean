/-
Layered coin caches are one map (`Coins/Cache`).

Beside the stack of caches runs a stack of plain maps (`plainStep`): adding and spending act on the top map, flushing
and syncing copy it over the map below, pushing duplicates it, popping drops it, and nothing else changes anything.

- `LayerOk`: a cache over what is seen below: its flags tell the truth (`WriteBack.Fits`), the linked list holds the
  dirty entries and the count is its length, and spent coins are empty.
- `Refines s ms`: each cache of s is `LayerOk`, and what is seen through it is the plain map of its level.
Results: `step_refines`: every allowed call goes through and keeps `Refines`, hence every run does (`run_refines`);
`layered_caches_refine_map`.
Premise (`Allowed`): coins that are added are unspent and spendable, and an add without `possible_overwrite` finds no
coin.
-/
import ConnectCoin.Coins.Cache
import ConnectCoin.Lib.WriteBack

namespace ConnectCoin

open Lib Lib.WriteBack List

section
variable [Crypto]

/-! ## Slots -/

/-- an entry as a slot: a spent coin is a value taken out -/
def CCoinsCacheEntry.slot (e : CCoinsCacheEntry) : Slot Coin := ⟨e.unspent, e.dirty, e.fresh⟩

variable {e : CCoinsCacheEntry}

theorem CCoinsCacheEntry.unspent_eq_none : e.unspent = none ↔ e.coin.isSpent = true := by
  unfold unspent
  cases e.coin.isSpent <;> simp

theorem CCoinsCacheEntry.unspent_of_coin (h : e.coin.isSpent = false) : e.unspent = some e.coin := by
  simp [unspent, h]

theorem CCoinsCacheEntry.unspent_eq_some {coin : Coin} (h : e.unspent = some coin) :
    e.coin = coin ∧ coin.isSpent = false := by
  rw [unspent] at h
  by_cases hspent : e.coin.isSpent = true
  · rw [if_pos hspent] at h
    cases h
  · rw [if_neg hspent] at h
    cases h
    exact ⟨rfl, Bool.eq_false_iff.2 hspent⟩

namespace CCoinsViewCache

def slot (c : CCoinsViewCache) (o : COutPoint) : Option (Slot Coin) := (c.cacheCoins.lookup o).map CCoinsCacheEntry.slot

variable {c : CCoinsViewCache} {o : COutPoint} {view : COutPoint → Option Coin}

theorem slot_of_lookup (h : c.cacheCoins.lookup o = some e) : c.slot o = some e.slot := by
  rw [slot, h]
  rfl

theorem slot_of_missing (h : c.cacheCoins.lookup o = none) : c.slot o = none := by
  rw [slot, h]
  rfl

/-- whether the entry at an outpoint counts as dirty -/
def dirtyAt (c : CCoinsViewCache) (o : COutPoint) : Bool := (c.cacheCoins.lookup o).any fun e => e.dirty

theorem dirtyAt_of_lookup (h : c.cacheCoins.lookup o = some e) : c.dirtyAt o = e.dirty := by
  rw [dirtyAt, h]
  rfl

theorem dirtyAt_of_missing (h : c.cacheCoins.lookup o = none) : c.dirtyAt o = false := by
  rw [dirtyAt, h]
  rfl

/-! ## The linked list -/

/-- the list holds the dirty entries, each once, and the count is its length -/
structure Tracked (c : CCoinsViewCache) : Prop where
  nodup : c.flagged.Nodup
  mem : ∀ o, o ∈ c.flagged ↔ c.dirtyAt o = true
  count : c.dirtyCount = c.flagged.length

theorem tracked_empty : Tracked empty := ⟨nodup_nil, fun o => by simp [empty, dirtyAt], rfl⟩

variable {c c' : CCoinsViewCache} {it : CCoinsCacheEntry}

/-- An entry is no longer dirty, and no longer counted. -/
theorem Tracked.drop (h : Tracked c) (hdirty : ∀ o', c'.dirtyAt o' = if o' = o then false else c.dirtyAt o')
    (hflagged : c'.flagged = c.flagged.erase o) (hcount : c'.dirtyCount = c.dirtyCount - (c.dirtyAt o).toNat) :
    Tracked c' := by
  have hwas := h.mem o
  refine ⟨hflagged ▸ h.nodup.erase o, fun o' => ?_, ?_⟩
  · rw [hflagged, h.nodup.mem_erase_iff, hdirty, h.mem]
    by_cases heq : o' = o <;> simp [heq]
  · rw [hflagged, hcount, h.count, length_erase]
    split_ifs with hin
    · rw [hwas.1 hin]
      rfl
    · rw [Bool.eq_false_iff.2 (mt hwas.2 hin)]
      rfl

/-- An entry is written and counted. -/
theorem Tracked.store (h : Tracked c) (hfresh : e.fresh = true → e.dirty = true)
    (hcoins : c'.cacheCoins = (c.store o e).cacheCoins) (hflagged : c'.flagged = (c.store o e).flagged)
    (hcount : c'.dirtyCount = c.dirtyCount - (c.dirtyAt o).toNat + e.dirty.toNat) : Tracked c' := by
  have hlookup : ∀ o', c'.dirtyAt o' = if o' = o then e.dirty else c.dirtyAt o' := by
    intro o'
    rw [dirtyAt, hcoins, CCoinsViewCache.store, lookup_insert_if]
    split_ifs <;> rfl
  have hflag : (e.dirty || e.fresh) = e.dirty := by
    cases hf : e.fresh with
    | true => rw [hfresh hf]; rfl
    | false => rw [Bool.or_false]
  have hlist : c'.flagged = if e.dirty then if o ∈ c.flagged then c.flagged else c.flagged ++ [o] else
      c.flagged.erase o := by
    rw [hflagged, CCoinsViewCache.store, hflag]
  have hwas := h.mem o
  cases hd : e.dirty with
  | true =>
    rw [hd, if_pos rfl] at hlist
    by_cases hin : o ∈ c.flagged
    · rw [if_pos hin] at hlist
      have hpos := length_pos_of_mem hin
      refine ⟨hlist ▸ h.nodup, fun o' => ?_, ?_⟩
      · rw [hlist, hlookup, h.mem, hd]
        by_cases heq : o' = o
        · subst heq
          simp [hwas.1 hin]
        · rw [if_neg heq]
      · rw [hlist, hcount, hwas.1 hin, hd, h.count, Bool.toNat_true]
        omega
    · rw [if_neg hin] at hlist
      have hclean : c.dirtyAt o = false := Bool.eq_false_iff.2 fun ht => hin (hwas.2 ht)
      refine ⟨?_, fun o' => ?_, ?_⟩
      · rw [hlist]
        exact List.Nodup.append h.nodup (nodup_singleton o) (by simpa using hin)
      · rw [hlist, mem_append, mem_singleton, hlookup, h.mem, hd]
        by_cases heq : o' = o <;> simp [heq]
      · rw [hlist, hcount, hclean, hd, h.count, length_append]
        rfl
  | false =>
    rw [hd, if_neg (by decide)] at hlist
    rw [hd] at hcount hlookup
    exact h.drop hlookup hlist hcount

/-- An entry is erased and no longer counted. -/
theorem Tracked.erase (h : Tracked c) (hcoins : c'.cacheCoins = c.cacheCoins.erase o)
    (hflagged : c'.flagged = c.flagged.erase o) (hcount : c'.dirtyCount = c.dirtyCount - (c.dirtyAt o).toNat) :
    Tracked c' := by
  refine h.drop (fun o' => ?_) hflagged hcount
  rw [dirtyAt, hcoins, lookup_erase_if]
  split_ifs <;> rfl

/-! ## One cache over a view -/

/-- a cache over what is seen below it -/
structure LayerOk (c : CCoinsViewCache) (view : COutPoint → Option Coin) : Prop where
  fits : ∀ o, Fits (c.slot o) (view o)
  tracked : Tracked c
  cleared : ∀ o e, c.cacheCoins.lookup o = some e → e.coin.isSpent = true → e.coin = Coin.empty

/-- what is seen through a cache -/
def seen (c : CCoinsViewCache) (view : COutPoint → Option Coin) (o : COutPoint) : Option Coin :=
  through (c.slot o) (view o)

theorem layerOk_empty (view : COutPoint → Option Coin) : LayerOk empty view := by
  refine ⟨fun o => ?_, tracked_empty, fun o e h => ?_⟩
  · exact fits_none _
  · simp [empty] at h

theorem slot_store (hcoins : c'.cacheCoins = (c.store o e).cacheCoins) (o' : COutPoint) :
    c'.slot o' = if o' = o then some e.slot else c.slot o' := by
  rw [slot, hcoins, store, lookup_insert_if]
  split_ifs <;> rfl

theorem slot_erase (hcoins : c'.cacheCoins = c.cacheCoins.erase o) (o' : COutPoint) :
    c'.slot o' = if o' = o then none else c.slot o' := by
  rw [slot, hcoins, lookup_erase_if]
  split_ifs <;> rfl

/-- Writing a truthful entry keeps the layer, and its coin is seen. -/
theorem LayerOk.store (h : LayerOk c view) (c' : CCoinsViewCache)
    (hslot : SlotOk e.slot (view o)) (hclear : e.coin.isSpent = true → e.coin = Coin.empty)
    (hcoins : c'.cacheCoins = (c.store o e).cacheCoins) (hflagged : c'.flagged = (c.store o e).flagged)
    (hcount : c'.dirtyCount = c.dirtyCount - (c.dirtyAt o).toNat + e.dirty.toNat) :
    LayerOk c' view ∧ ∀ o', c'.seen view o' = if o' = o then e.unspent else c.seen view o' := by
  have hslots := slot_store hcoins
  refine ⟨⟨fun o' => ?_, h.tracked.store (fun hfresh => (hslot.fresh hfresh).1) hcoins hflagged hcount,
    fun o' e' he' => ?_⟩, fun o' => ?_⟩
  · rw [hslots]
    split_ifs with heq
    · rw [heq]
      exact fits_some hslot
    · exact h.fits o'
  · rw [hcoins, CCoinsViewCache.store, lookup_insert_if] at he'
    split_ifs at he'
    · cases he'
      exact hclear
    · exact h.cleared o' e' he'
  · rw [seen, hslots]
    split_ifs <;> rfl

/-- Erasing an entry keeps the layer, and the view shows through. -/
theorem LayerOk.erase (h : LayerOk c view) (c' : CCoinsViewCache) (hcoins : c'.cacheCoins = c.cacheCoins.erase o)
    (hflagged : c'.flagged = c.flagged.erase o) (hcount : c'.dirtyCount = c.dirtyCount - (c.dirtyAt o).toNat) :
    LayerOk c' view ∧ ∀ o', c'.seen view o' = if o' = o then view o else c.seen view o' := by
  have hslots := slot_erase hcoins
  refine ⟨⟨fun o' => ?_, h.tracked.erase hcoins hflagged hcount, fun o' e' he' => ?_⟩, fun o' => ?_⟩
  · rw [hslots]
    split_ifs
    · exact fits_none _
    · exact h.fits o'
  · rw [hcoins, lookup_erase_if] at he'
    split_ifs at he'
    exact h.cleared o' e' he'
  · rw [seen, hslots]
    split_ifs with heq
    · rw [heq]
      rfl
    · rfl

theorem LayerOk.slotOk (h : LayerOk c view)
    (he : c.cacheCoins.lookup o = some e) : SlotOk e.slot (view o) := h.fits o e.slot (slot_of_lookup he)

theorem seen_of_lookup (he : c.cacheCoins.lookup o = some e) : c.seen view o = e.unspent := by
  rw [seen, slot_of_lookup he]
  rfl

theorem seen_of_missing (h : c.cacheCoins.lookup o = none) : c.seen view o = view o := by
  rw [seen, slot_of_missing h]
  rfl

/-- `AddCoin` of a spendable coin goes through, and the coin is seen. -/
theorem LayerOk.addCoin (h : LayerOk c view) {coin : Coin} {possibleOverwrite : Bool} (hcoin : coin.isSpent = false)
    (hspendable : coin.out.isUnspendable = false) (hunseen : possibleOverwrite = false → c.seen view o = none) :
    ∃ c', c.addCoin o coin possibleOverwrite = .ok c' ∧ LayerOk c' view ∧ ∀ o', c'.seen view o' = if o' = o then
      some coin else c.seen view o' := by
  have hvalue : ∀ fresh, (⟨coin, true, fresh⟩ : CCoinsCacheEntry).unspent = some coin :=
    fun _ => CCoinsCacheEntry.unspent_of_coin hcoin
  have hclear : coin.isSpent = true → coin = Coin.empty := fun hspent => by rw [hcoin] at hspent; cases hspent
  have hadded := (h.fits o).added (v := coin) hunseen
  unfold CCoinsViewCache.addCoin
  rw [if_neg (by simp [hcoin]), if_neg (by simp [hspendable])]
  cases hit : c.cacheCoins.lookup o with
  | none =>
    have hguard : ¬ (!possibleOverwrite && !Coin.empty.isSpent) = true := by
      simp [Coin.empty, Coin.isSpent, CTxOut.isNull, invalidOutput]
    rw [slot_of_missing hit, added, Option.any_none, Option.any_none, ← hvalue] at hadded
    obtain ⟨hlayer, hseen⟩ :=
      h.store (((c.uncount ⟨Coin.empty, false, false⟩).store o ⟨coin, true,
      false || (!possibleOverwrite && !false)⟩).count)
      hadded hclear rfl rfl (by rw [dirtyAt_of_missing hit]; rfl)
    exact ⟨_, if_neg hguard, hlayer, fun o' => (hseen o').trans (by rw [hvalue])⟩
  | some it =>
    have hguard : ¬ (!possibleOverwrite && !it.coin.isSpent) = true := by
      cases possibleOverwrite with
      | true => simp
      | false =>
        have hnone := hunseen rfl
        rw [seen_of_lookup hit, CCoinsCacheEntry.unspent_eq_none] at hnone
        simp [hnone]
    rw [slot_of_lookup hit, added, Option.any_some, Option.any_some, ← hvalue] at hadded
    obtain ⟨hlayer, hseen⟩ :=
      h.store (((c.uncount it).store o ⟨coin, true, it.fresh || (!possibleOverwrite && !it.dirty)⟩).count)
      hadded hclear rfl rfl (by rw [dirtyAt_of_lookup hit]; rfl)
    exact ⟨_, if_neg hguard, hlayer, fun o' => (hseen o').trans (by rw [hvalue])⟩

/-- `SpendCoin` of an entry of the cache: nothing is seen there any more. -/
theorem LayerOk.spendCoin (h : LayerOk c view) (hit : c.cacheCoins.lookup o = some it) :
    LayerOk (c.spendCoin o it) view ∧ ∀ o', (c.spendCoin o it).seen view o' = if o' = o then none else
      c.seen view o' := by
  obtain ⟨hfits, hnothing⟩ := (h.slotOk hit).taken
  unfold CCoinsViewCache.spendCoin
  by_cases hfresh : it.fresh = true
  · rw [taken, if_pos (show it.slot.fresh = true from hfresh)] at hnothing
    rw [if_pos hfresh]
    obtain ⟨hlayer, hseen⟩ := h.erase ((c.uncount it).erase o) rfl rfl (by rw [dirtyAt_of_lookup hit]; rfl)
    refine ⟨hlayer, fun o' => ?_⟩
    rw [hseen, show view o = none from hnothing]
  · rw [taken, if_neg (show ¬ it.slot.fresh = true from hfresh)] at hfits
    rw [if_neg hfresh]
    have hentry : (⟨Coin.empty, true, it.fresh⟩ : CCoinsCacheEntry).slot = ⟨none, true, false⟩ := by
      rw [Bool.eq_false_iff.2 hfresh]
      rfl
    obtain ⟨hlayer, hseen⟩ := h.store (((c.uncount it).store o ⟨Coin.empty, true, it.fresh⟩).count)
      (hentry ▸ hfits _ rfl) (fun _ => rfl) rfl rfl (by rw [dirtyAt_of_lookup hit]; rfl)
    refine ⟨hlayer, fun o' => ?_⟩
    rw [hseen]
    rfl

/-- `Uncache` changes nothing that is seen. -/
theorem LayerOk.uncache (h : LayerOk c view) (o : COutPoint) :
    LayerOk (c.uncache o) view ∧ ∀ o', (c.uncache o).seen view o' = c.seen view o' := by
  unfold CCoinsViewCache.uncache
  cases hit : c.cacheCoins.lookup o with
  | none => exact ⟨h, fun _ => rfl⟩
  | some it =>
    by_cases hdirty : (!it.dirty) = true
    · have hclean : it.dirty = false := by simpa using hdirty
      obtain ⟨hlayer, hseen⟩ := h.erase (c.erase o) rfl rfl (by rw [dirtyAt_of_lookup hit, hclean]; rfl)
      dsimp only
      rw [if_pos hdirty]
      refine ⟨hlayer, fun o' => ?_⟩
      rw [hseen]
      by_cases heq : o' = o
      · have huncached := (h.fits o).uncached.2
        rw [slot_of_lookup hit, uncached, Option.filter_some,
          if_neg (show ¬ it.slot.dirty = true from Bool.eq_false_iff.1 hclean)] at huncached
        rw [if_pos heq, heq, seen, slot_of_lookup hit]
        exact huncached
      · rw [if_neg heq]
    · dsimp only
      rw [if_neg hdirty]
      exact ⟨h, fun _ => rfl⟩

/-- `BatchWrite` of a dirty entry that was truthful above: it is never refused, and its coin is seen. -/
theorem LayerOk.writeEntry {us : CCoinsViewCache} (h : LayerOk us view) (hdirty : it.dirty = true)
    (hit : SlotOk it.slot (us.seen view o)) (hclear : it.coin.isSpent = true → it.coin = Coin.empty) :
    ∃ us', us.writeEntry o it = .ok us' ∧ LayerOk us' view ∧ ∀ o', us'.seen view o' = if o' = o then it.unspent else
      us.seen view o' := by
  have hmis := hit.not_misapplied
  obtain ⟨hmerged, hvalue⟩ := hit.merged (h.fits o)
  have hspent : it.unspent.isNone = it.coin.isSpent := by
    rw [CCoinsCacheEntry.unspent]
    cases it.coin.isSpent <;> rfl
  unfold CCoinsViewCache.writeEntry
  rw [if_neg (by simp [hdirty])]
  cases hus : us.cacheCoins.lookup o with
  | none =>
    rw [slot_of_missing hus, merged] at hmerged hvalue
    have hkeep : ¬ (it.fresh && it.coin.isSpent) = true := by
      intro hc
      obtain ⟨hfresh, hgone⟩ := Bool.and_eq_true_iff.1 hc
      exact (hit.fresh hfresh).2.1 (CCoinsCacheEntry.unspent_eq_none.2 hgone)
    have hkeep' : ¬ (it.slot.fresh && it.slot.value.isNone) = true := by
      change ¬ (it.fresh && it.unspent.isNone) = true
      rw [hspent]
      exact hkeep
    rw [if_neg hkeep'] at hmerged
    have hslot : SlotOk (⟨it.coin, true, it.fresh⟩ : CCoinsCacheEntry).slot (view o) := hmerged _ rfl
    obtain ⟨hlayer, hseen⟩ := h.store (us.store o ⟨it.coin, true, it.fresh⟩).count hslot hclear rfl rfl
      (by rw [dirtyAt_of_missing hus]; rfl)
    exact ⟨_, if_neg hkeep, hlayer, hseen⟩
  | some itUs =>
    rw [slot_of_lookup hus, merged] at hmerged hvalue
    have hguard : ¬ (it.fresh && !itUs.coin.isSpent) = true := by
      have hisSome : itUs.unspent.isSome = !itUs.coin.isSpent := by
        rw [CCoinsCacheEntry.unspent]
        cases itUs.coin.isSpent <;> rfl
      rw [slot_of_lookup hus, misapplied, Option.any_some] at hmis
      change (it.fresh && itUs.unspent.isSome) = false at hmis
      rw [← hisSome, hmis]
      decide
    have hcond : (itUs.slot.fresh && it.slot.value.isNone) = (itUs.fresh && it.coin.isSpent) := by
      change (itUs.fresh && it.unspent.isNone) = _
      rw [hspent]
    dsimp only
    rw [if_neg hguard]
    by_cases hgone : (itUs.fresh && it.coin.isSpent) = true
    · rw [if_pos (hcond ▸ hgone)] at hvalue
      obtain ⟨hlayer, hseen⟩ := h.erase ((us.uncount itUs).erase o) rfl rfl (by rw [dirtyAt_of_lookup hus]; rfl)
      refine ⟨_, if_pos hgone, hlayer, fun o' => ?_⟩
      rw [hseen]
      exact congrArg (fun v => if o' = o then v else us.seen view o') hvalue
    · rw [if_neg (hcond ▸ hgone)] at hmerged
      rw [if_neg hgone]
      have hslot : SlotOk (⟨it.coin, true, itUs.fresh⟩ : CCoinsCacheEntry).slot (view o) := hmerged _ rfl
      by_cases hwas : itUs.dirty = true
      · have hpos : 0 < us.dirtyCount := by
          rw [h.tracked.count]
          exact length_pos_of_mem ((h.tracked.mem o).2 (by rw [dirtyAt_of_lookup hus, hwas]))
        obtain ⟨hlayer, hseen⟩ := h.store (us.store o ⟨it.coin, true, itUs.fresh⟩) hslot hclear rfl rfl (by
          rw [dirtyAt_of_lookup hus, hwas, Bool.toNat_true]
          exact (Nat.sub_add_cancel hpos).symm)
        exact ⟨_, if_pos hwas, hlayer, hseen⟩
      · obtain ⟨hlayer, hseen⟩ := h.store (us.store o ⟨it.coin, true, itUs.fresh⟩).count hslot hclear rfl rfl (by
          rw [dirtyAt_of_lookup hus, Bool.eq_false_iff.2 hwas]
          rfl)
        exact ⟨_, if_neg hwas, hlayer, hseen⟩

end CCoinsViewCache

/-! ## Stacks and plain maps -/

namespace CoinsStack

open CCoinsViewCache

theorem peekCoin_layer (c : CCoinsViewCache) (b : CoinsStack) (o : COutPoint) :
    (layer c b).peekCoin o = c.seen b.peekCoin o := by
  cases hit : c.cacheCoins.lookup o with
  | some it => rw [peekCoin, hit, seen_of_lookup hit]
  | none => rw [peekCoin, hit, seen_of_missing hit]

/-- every level shows its plain map, the top level first -/
def Refines : CoinsStack → List Utxos → Prop
  | .base coins, ms => ms = [coins] ∧ ∀ o c, coins.lookup o = some c → c.isSpent = false
  | .layer cache below, m :: rest => cache.LayerOk below.peekCoin ∧
      (∀ o, cache.seen below.peekCoin o = m.lookup o) ∧ below.Refines rest
  | .layer _ _, [] => False

variable {ms : List Utxos} {s : CoinsStack} {rest : List Utxos} {m : Utxos} {o : COutPoint} {c : CCoinsViewCache}
  {b : CoinsStack} {it : CCoinsCacheEntry}

theorem Refines.ne_nil (h : s.Refines ms) : ∃ m rest, ms = m :: rest := by
  cases s with
  | base coins => exact ⟨coins, [], h.1⟩
  | layer c b =>
    cases ms with
    | nil => exact h.elim
    | cons m rest => exact ⟨m, rest, rfl⟩

theorem Refines.peek (h : s.Refines (m :: rest)) : s.peekCoin = fun o => m.lookup o := by
  funext o
  cases s with
  | base coins =>
    obtain ⟨hms, -⟩ := h
    rw [(List.cons.inj hms).1, peekCoin]
  | layer c b => rw [peekCoin_layer, h.2.1]

/-- Two stacks over the same maps show the same coins. -/
theorem Refines.peek_eq {s s' : CoinsStack} (h : s.Refines ms) (h' : s'.Refines ms) : s.peekCoin = s'.peekCoin := by
  obtain ⟨m, rest, rfl⟩ := h.ne_nil
  rw [h.peek, h'.peek]

theorem Refines.unspent (h : s.Refines ms) {coin : Coin} (hcoin : s.peekCoin o = some coin) : coin.isSpent = false := by
  induction s generalizing ms with
  | base coins => exact h.2 o coin hcoin
  | layer c b ih =>
    obtain ⟨m, rest, rfl⟩ := h.ne_nil
    rw [peekCoin_layer] at hcoin
    cases hit : c.cacheCoins.lookup o with
    | none =>
      rw [seen_of_missing hit] at hcoin
      exact ih h.2.2 hcoin
    | some it =>
      rw [seen_of_lookup hit] at hcoin
      exact (CCoinsCacheEntry.unspent_eq_some hcoin).2

theorem Refines.below (h : (layer c b).Refines ms) : ∃ rest, b.Refines rest := by
  obtain ⟨m, rest, rfl⟩ := h.ne_nil
  exact ⟨rest, h.2.2⟩

/-- A lookup keeps every level, leaves its entry in the cache, and finds what is seen. -/
theorem Refines.fetchFrom (h : (layer c b).Refines ms) {fromBase : Option Coin × CoinsStack}
    (hvalue : fromBase.1 = b.peekCoin o) (hlevels : ∀ rest, b.Refines rest → fromBase.2.Refines rest) :
    (layer (fetchFrom c b o fromBase).2.1 (fetchFrom c b o fromBase).2.2).Refines ms ∧
      (fetchFrom c b o fromBase).2.1.cacheCoins.lookup o = (fetchFrom c b o fromBase).1 ∧
      (fetchFrom c b o fromBase).1.bind CCoinsCacheEntry.unspent = (layer c b).peekCoin o := by
  obtain ⟨m, rest, rfl⟩ := h.ne_nil
  obtain ⟨hlayer, hseen, hbelow⟩ := id h
  rw [peekCoin_layer]
  unfold CoinsStack.fetchFrom
  cases hit : c.cacheCoins.lookup o with
  | some it => exact ⟨h, hit, (seen_of_lookup hit).symm⟩
  | none =>
    obtain ⟨found, b'⟩ := fromBase
    have hbelow' : b'.Refines rest := hlevels rest hbelow
    have hsame : b'.peekCoin = b.peekCoin := hbelow'.peek_eq hbelow
    rw [seen_of_missing hit, ← hvalue]
    cases hfound : found with
    | none => exact ⟨⟨hsame ▸ hlayer, hsame ▸ hseen, hbelow'⟩, hit, rfl⟩
    | some coin =>
      have hpeek : b.peekCoin o = some coin := by rw [← hvalue, hfound]
      have hunspent := hbelow.unspent hpeek
      have hentry : (⟨coin, false, false⟩ : CCoinsCacheEntry).unspent = some coin :=
        CCoinsCacheEntry.unspent_of_coin hunspent
      have hslot : SlotOk (⟨coin, false, false⟩ : CCoinsCacheEntry).slot (b.peekCoin o) := by
        refine (hlayer.fits o).fetched _ ?_
        rw [slot_of_missing hit, hpeek, CCoinsCacheEntry.slot, hentry]
        rfl
      obtain ⟨hlayer', hseen'⟩ := hlayer.store (c.store o ⟨coin, false, false⟩) hslot
        (fun hspent => by rw [hunspent] at hspent; cases hspent) rfl rfl (by rw [dirtyAt_of_missing hit]; rfl)
      refine ⟨⟨hsame ▸ hlayer', fun o' => ?_, hbelow'⟩, Finmap.lookup_insert _, hentry⟩
      rw [hsame, hseen']
      by_cases heq : o' = o
      · rw [if_pos heq, hentry, ← hpeek, heq, ← hseen, seen_of_missing hit]
      · rw [if_neg heq, hseen]

/-- `GetCoin` returns what is seen and keeps every level. -/
theorem Refines.getCoin (h : s.Refines ms) (o : COutPoint) :
    (s.getCoin o).1 = s.peekCoin o ∧ (s.getCoin o).2.Refines ms := by
  induction s generalizing ms with
  | base coins => exact ⟨rfl, h⟩
  | layer c b ih =>
    obtain ⟨rest, hbelow⟩ := h.below
    obtain ⟨hlevels, -, hvalue⟩ := h.fetchFrom (ih hbelow).1 fun rest hrest => (ih hrest).2
    exact ⟨hvalue, hlevels⟩

theorem Refines.fetchCoin (h : (layer c b).Refines ms) (o : COutPoint) :
    (layer (fetchCoin c b o).2.1 (fetchCoin c b o).2.2).Refines ms ∧
      (fetchCoin c b o).2.1.cacheCoins.lookup o = (fetchCoin c b o).1 ∧
      (fetchCoin c b o).1.bind CCoinsCacheEntry.unspent = (layer c b).peekCoin o := by
  obtain ⟨rest, hbelow⟩ := h.below
  exact h.fetchFrom (hbelow.getCoin o).1 fun rest hrest => (hrest.getCoin o).2

/-! ## Writing into the level below -/

/-- a plain map with a coin put in or taken out -/
def written (m : Utxos) (o : COutPoint) : Option Coin → Utxos
  | some coin => m.insert o coin
  | none => m.erase o

theorem lookup_written (m : Utxos) (o : COutPoint) (v : Option Coin) (o' : COutPoint) :
    (written m o v).lookup o' = if o' = o then v else m.lookup o' := by
  cases v with
  | none => exact lookup_erase_if m o o'
  | some coin => exact lookup_insert_if m o coin o'

variable {willErase : Bool} {todo : List COutPoint} {p : Utxos}

/-- The level below takes a dirty entry, and its plain map changes with it. -/
theorem Refines.writeEntry (h : b.Refines (p :: rest)) (hdirty : it.dirty = true) (hit : SlotOk it.slot (p.lookup o))
    (hclear : it.coin.isSpent = true → it.coin = Coin.empty) :
    ∃ b', b.writeEntry o it = .ok b' ∧ b'.Refines (written p o it.unspent :: rest) := by
  cases b with
  | base coins =>
    obtain ⟨hms, hunspent⟩ := h
    obtain ⟨rfl, rfl⟩ := List.cons.inj hms
    refine ⟨_, rfl, ?_, ?_⟩
    · rw [if_neg (by simp [hdirty]), CCoinsCacheEntry.unspent]
      cases it.coin.isSpent <;> rfl
    · intro o' coin hcoin
      rw [if_neg (by simp [hdirty])] at hcoin
      by_cases hspent : it.coin.isSpent = true
      · rw [if_pos hspent, lookup_erase_if] at hcoin
        split_ifs at hcoin
        exact hunspent o' coin hcoin
      · rw [if_neg hspent, lookup_insert_if] at hcoin
        split_ifs at hcoin
        · cases hcoin
          exact Bool.eq_false_iff.2 hspent
        · exact hunspent o' coin hcoin
  | layer us below =>
    obtain ⟨hlayer, hseen, hbelow⟩ := h
    rw [← hseen] at hit
    obtain ⟨us', hok, hlayer', hseen'⟩ := hlayer.writeEntry hdirty hit hclear
    refine ⟨layer us' below, ?_, hlayer', ?_, hbelow⟩
    · rw [CoinsStack.writeEntry, hok]
      rfl
    · intro o'
      rw [hseen', lookup_written, hseen]

/-- what the cursor does to the cache when it passes an outpoint -/
def passed (willErase : Bool) (c : CCoinsViewCache) (o : COutPoint) : CCoinsViewCache :=
  match c.cacheCoins.lookup o with
  | none => c
  | some it => c.nextAndMaybeErase willErase o it

theorem passed_lookup_ne {o o' : COutPoint} (hne : o' ≠ o) :
    (passed willErase c o).cacheCoins.lookup o' = c.cacheCoins.lookup o' := by
  unfold passed
  cases c.cacheCoins.lookup o with
  | none => rfl
  | some it =>
    dsimp only [CCoinsViewCache.nextAndMaybeErase]
    split_ifs
    · rfl
    · exact Finmap.lookup_erase_ne hne
    · exact Finmap.lookup_insert_of_ne _ hne

/-- an entry that the loop can write: dirty, truthful about the map below, empty if it is spent -/
def Writable (c : CCoinsViewCache) (p : Utxos) (o : COutPoint) : Prop :=
  ∃ it, c.cacheCoins.lookup o = some it ∧ it.dirty = true ∧ SlotOk it.slot (p.lookup o) ∧
    (it.coin.isSpent = true → it.coin = Coin.empty)

/-- The loop of `BatchWrite` goes through: every entry is written below, and the cursor has passed over all of them. -/
theorem Refines.writeLoop (h : b.Refines (p :: rest)) (hnodup : todo.Nodup) (htodo : ∀ o ∈ todo, Writable c p o) :
    ∃ b' p', todo.foldlM (writeNext willErase) (c, b) = .ok (todo.foldl (passed willErase) c, b') ∧
      b'.Refines (p' :: rest) ∧ ∀ o, p'.lookup o = if o ∈ todo then
      (c.cacheCoins.lookup o).bind CCoinsCacheEntry.unspent else p.lookup o := by
  induction todo generalizing c b p with
  | nil => exact ⟨b, p, rfl, h, fun o => by simp⟩
  | cons o todo ih =>
    obtain ⟨hnew, hnodup⟩ := nodup_cons.1 hnodup
    obtain ⟨⟨it, hlookup, hdirty, hit, hclear⟩, hrest⟩ := forall_mem_cons.1 htodo
    obtain ⟨b₁, hok, hb₁⟩ := h.writeEntry hdirty hit hclear
    have hpassed : writeNext willErase (c, b) o = .ok (passed willErase c o, b₁) := by
      simp only [writeNext, hlookup, passed, hok]
      rfl
    have htodo' : ∀ o' ∈ todo, Writable (passed willErase c o) (written p o it.unspent) o' := by
      intro o' ho'
      have hne : o' ≠ o := fun heq => hnew (heq ▸ ho')
      obtain ⟨it', hlookup', hrest'⟩ := hrest o' ho'
      refine ⟨it', (passed_lookup_ne hne).trans hlookup', ?_⟩
      rw [lookup_written, if_neg hne]
      exact hrest'
    obtain ⟨b', p', hloop, hb', hp'⟩ := ih hb₁ hnodup htodo'
    refine ⟨b', p', foldlM_cons_ok.2 ⟨_, hpassed, hloop⟩, hb', fun o' => ?_⟩
    rw [hp', lookup_written]
    by_cases heq : o' = o
    · subst heq
      simp [hnew, hlookup]
    · simp [heq, passed_lookup_ne heq]

theorem dirtyAt_lookup (h : c.dirtyAt o = true) : ∃ it, c.cacheCoins.lookup o = some it ∧ it.dirty = true :=
  (Option.any_eq_true _ _).1 h

theorem unflagged_clean (h : c.Tracked) (ho : o ∉ c.flagged) (hit : c.cacheCoins.lookup o = some it) :
    it.dirty = false := by
  rw [h.mem, dirtyAt_of_lookup hit] at ho
  exact Bool.eq_false_iff.2 ho

/-- An outpoint that is not in the linked list is seen as in the map below. -/
theorem unflagged_seen {view : COutPoint → Option Coin} (h : c.LayerOk view) (ho : o ∉ c.flagged) :
    c.seen view o = view o := by
  cases hit : c.cacheCoins.lookup o with
  | none => exact seen_of_missing hit
  | some it =>
    rw [seen_of_lookup hit]
    exact ((h.slotOk hit).clean (unflagged_clean h.tracked ho hit)).1

/-- `BatchWrite` of a whole cache makes the map below equal to what is seen through the cache. -/
theorem Refines.batchWrite {m p : Utxos} (h : (layer c b).Refines (m :: p :: rest)) (willErase : Bool) :
    ∃ b', batchWrite willErase c b = .ok (c.flagged.foldl (passed willErase) c, b') ∧ b'.Refines (m :: rest) := by
  obtain ⟨hlayer, hseen, hbelow⟩ := h
  have hview : b.peekCoin = fun o => p.lookup o := hbelow.peek
  have hwritable : ∀ o ∈ c.flagged, Writable c p o := by
    intro o ho
    obtain ⟨it, hit, hdirty⟩ := dirtyAt_lookup ((hlayer.tracked.mem o).1 ho)
    refine ⟨it, hit, hdirty, ?_, hlayer.cleared o it hit⟩
    have hslot := hlayer.slotOk hit
    rwa [hview] at hslot
  obtain ⟨b', p', hloop, hb', hp'⟩ := hbelow.writeLoop hlayer.tracked.nodup hwritable
  have hmap : p' = m := by
    apply Finmap.ext_lookup
    intro o
    rw [hp', ← hseen]
    by_cases ho : o ∈ c.flagged
    · obtain ⟨it, hit, -⟩ := dirtyAt_lookup ((hlayer.tracked.mem o).1 ho)
      rw [if_pos ho, hit, seen_of_lookup hit]
      rfl
    · rw [if_neg ho, unflagged_seen hlayer ho, hview]
  rw [hmap] at hb'
  exact ⟨b', hloop, hb'⟩

theorem passed_dirty (hnew : o ∉ todo) (htodo : ∀ o ∈ todo, c.dirtyAt o = true) :
    ∀ o' ∈ todo, (passed willErase c o).dirtyAt o' = true := by
  intro o' ho'
  have hne : o' ≠ o := fun heq => hnew (heq ▸ ho')
  rw [dirtyAt, passed_lookup_ne hne]
  exact htodo o' ho'

theorem passed_dirtyCount (hit : c.cacheCoins.lookup o = some it) (hdirty : it.dirty = true) :
    (passed willErase c o).dirtyCount = c.dirtyCount - 1 := by
  simp only [passed, hit, CCoinsViewCache.nextAndMaybeErase]
  split_ifs <;> simp only [CCoinsViewCache.erase, CCoinsViewCache.store, CCoinsViewCache.uncount, hdirty] <;> rfl

theorem passedLoop_dirtyCount (hnodup : todo.Nodup) (htodo : ∀ o ∈ todo, c.dirtyAt o = true) :
    (todo.foldl (passed willErase) c).dirtyCount = c.dirtyCount - todo.length := by
  induction todo generalizing c with
  | nil => rfl
  | cons o todo ih =>
    obtain ⟨hnew, hnodup⟩ := nodup_cons.1 hnodup
    obtain ⟨hhere, hrest⟩ := forall_mem_cons.1 htodo
    obtain ⟨it, hit, hdirty⟩ := dirtyAt_lookup hhere
    rw [foldl_cons, ih hnodup (passed_dirty hnew hrest), passed_dirtyCount hit hdirty, length_cons,
      Nat.sub_sub, Nat.add_comm]

theorem passedAll_dirtyCount (h : c.Tracked) : (c.flagged.foldl (passed willErase) c).dirtyCount = 0 := by
  rw [passedLoop_dirtyCount h.nodup fun o => (h.mem o).1, h.count, Nat.sub_self]

/-- `Flush` leaves an empty cache, and the level below shows what was seen. -/
theorem Refines.flush {m p : Utxos} (h : (layer c b).Refines (m :: p :: rest)) :
    ∃ b', flush c b = .ok (layer CCoinsViewCache.empty b') ∧ b'.Refines (m :: rest) := by
  obtain ⟨b', hok, hb'⟩ := h.batchWrite true
  refine ⟨b', ?_, hb'⟩
  rw [CoinsStack.flush, hok]
  change Except.ok (layer ⟨∅, [], (c.flagged.foldl (passed true) c).dirtyCount⟩ b') = _
  rw [passedAll_dirtyCount h.1.tracked]
  rfl

/-- an entry after the cursor passed it without erasing the cache -/
def kept (it : CCoinsCacheEntry) : Option CCoinsCacheEntry := it.unspent.map fun coin => ⟨coin, false, false⟩

theorem passed_lookup_self (hit : c.cacheCoins.lookup o = some it) :
    (passed false c o).cacheCoins.lookup o = kept it := by
  simp only [passed, hit, CCoinsViewCache.nextAndMaybeErase, kept, CCoinsCacheEntry.unspent]
  rw [if_neg (by decide)]
  by_cases hspent : it.coin.isSpent = true
  · rw [if_pos hspent, if_pos hspent]
    exact Finmap.lookup_erase _ _
  · rw [if_neg hspent, if_neg hspent]
    exact Finmap.lookup_insert _

theorem passed_flagged (hit : c.cacheCoins.lookup o = some it) : (passed false c o).flagged = c.flagged.erase o := by
  simp only [passed, hit, CCoinsViewCache.nextAndMaybeErase]
  rw [if_neg (by decide)]
  split_ifs <;> rfl

/-- The cursor passes over the whole list: it ends up empty, and every entry in it is clean or gone. -/
theorem passedLoop_sync (hnodup : todo.Nodup) (hflagged : c.flagged = todo) (htodo : ∀ o ∈ todo, c.dirtyAt o = true) :
    (todo.foldl (passed false) c).flagged = [] ∧
      ∀ o, (todo.foldl (passed false) c).cacheCoins.lookup o = if o ∈ todo then (c.cacheCoins.lookup o).bind kept else
        c.cacheCoins.lookup o := by
  induction todo generalizing c with
  | nil => exact ⟨hflagged, fun o => by simp⟩
  | cons o todo ih =>
    obtain ⟨hnew, hnodup⟩ := nodup_cons.1 hnodup
    obtain ⟨hhere, hrest⟩ := forall_mem_cons.1 htodo
    obtain ⟨it, hit, -⟩ := dirtyAt_lookup hhere
    have hlist : (passed false c o).flagged = todo := by
      rw [passed_flagged hit, hflagged, erase_cons_head]
    obtain ⟨hnil, hlookup⟩ := ih hnodup hlist (passed_dirty hnew hrest)
    refine ⟨hnil, fun o' => ?_⟩
    rw [foldl_cons, hlookup]
    by_cases heq : o' = o
    · subst heq
      simp [hnew, hit, passed_lookup_self hit]
    · simp [heq, passed_lookup_ne heq]

theorem kept_slot (it : CCoinsCacheEntry) : (kept it).map CCoinsCacheEntry.slot = settled it.slot := by
  rw [kept, settled, Option.map_map]
  refine Option.map_congr fun coin hcoin => ?_
  rw [Function.comp_apply, CCoinsCacheEntry.slot,
    CCoinsCacheEntry.unspent_of_coin (CCoinsCacheEntry.unspent_eq_some hcoin).2]

/-- What the cursor left is a clean cache over the map that was written. -/
theorem synced_layerOk {c c' : CCoinsViewCache} {view m : COutPoint → Option Coin} (h : c.LayerOk view)
    (hseen : ∀ o, c.seen view o = m o) (hflagged : c'.flagged = []) (hcount : c'.dirtyCount = 0)
    (hlookup : ∀ o, c'.cacheCoins.lookup o =
      if o ∈ c.flagged then (c.cacheCoins.lookup o).bind kept else c.cacheCoins.lookup o) :
    c'.LayerOk m ∧ ∀ o, c'.seen m o = m o := by
  -- a slot of the new cache is clean and tells the truth about the map
  have hslot : ∀ o, Fits (c'.slot o) (m o) ∧ through (c'.slot o) (m o) = m o ∧
      ∀ x, c'.slot o = some x → x.dirty = false := by
    intro o
    rw [← hseen, slot, hlookup]
    by_cases ho : o ∈ c.flagged
    · obtain ⟨it, hit, -⟩ := dirtyAt_lookup ((h.tracked.mem o).1 ho)
      rw [if_pos ho, hit, Option.bind_some, kept_slot, seen_of_lookup hit]
      refine ⟨(settled_fits it.slot).1, (settled_fits it.slot).2, fun x hx => ?_⟩
      obtain ⟨coin, -, rfl⟩ := Option.map_eq_some_iff.1 hx
      rfl
    · rw [if_neg ho]
      cases hit : c.cacheCoins.lookup o with
      | none => exact ⟨fits_none _, rfl, fun x hx => nomatch hx⟩
      | some it =>
        have hclean := unflagged_clean h.tracked ho hit
        have hok := h.slotOk hit
        have hsame : view o = it.unspent := (hok.clean hclean).1.symm
        rw [seen_of_lookup hit, ← hsame]
        refine ⟨fits_some hok, hsame.symm, fun x hx => ?_⟩
        rw [← Option.some_inj.1 hx]
        exact hclean
  refine ⟨⟨fun o => (hslot o).1, ⟨hflagged ▸ nodup_nil, fun o => ?_, ?_⟩, fun o e he hspent => ?_⟩,
    fun o => (hslot o).2.1⟩
  · rw [hflagged]
    refine ⟨fun hmem => absurd hmem not_mem_nil, fun hdirty => ?_⟩
    obtain ⟨e, he, hd⟩ := dirtyAt_lookup hdirty
    rw [show e.dirty = false from (hslot o).2.2 _ (slot_of_lookup he)] at hd
    cases hd
  · rw [hflagged, hcount]
    rfl
  · have hclean := (hslot o).2.2 _ (slot_of_lookup he)
    exact absurd (CCoinsCacheEntry.unspent_eq_none.2 hspent) (((hslot o).1 _ (slot_of_lookup he)).clean hclean).2

/-- `Sync` leaves the coins in a clean cache, and the level below shows what was seen. -/
theorem Refines.sync {m p : Utxos}
    (h : (layer c b).Refines (m :: p :: rest)) : ∃ s, sync c b = .ok s ∧ s.Refines (m :: m :: rest) := by
  obtain ⟨b', hok, hb'⟩ := h.batchWrite false
  obtain ⟨hlayer, hseen, -⟩ := h
  obtain ⟨hnil, hlookup⟩ := passedLoop_sync hlayer.tracked.nodup rfl fun o => (hlayer.tracked.mem o).1
  obtain ⟨hlayer', hseen'⟩ := synced_layerOk hlayer hseen hnil (passedAll_dirtyCount hlayer.tracked) hlookup
  have hview : b'.peekCoin = fun o => m.lookup o := hb'.peek
  refine ⟨layer (c.flagged.foldl (passed false) c) b', ?_, hview ▸ hlayer', hview ▸ hseen', hb'⟩
  simp only [CoinsStack.sync, hok, bind, Except.bind, hnil, ne_eq, not_true_eq_false, if_false]

/-! ## Calls and runs -/

/-- the same call on a stack of plain maps -/
def plainStep : List Utxos → CoinsOp → List Utxos
  | m :: rest, .push => m :: m :: rest
  | m :: p :: rest, .addCoin outpoint coin _ => m.insert outpoint coin :: p :: rest
  | m :: p :: rest, .spendCoin outpoint => m.erase outpoint :: p :: rest
  | m :: _ :: rest, .flush => m :: m :: rest
  | m :: _ :: rest, .sync => m :: m :: rest
  | _ :: p :: rest, .pop => p :: rest
  | ms, _ => ms

/-- the top map -/
def top (ms : List Utxos) : Utxos := ms.headD ∅

/-- what the callers see to: unspent, spendable coins, and no coin where `possible_overwrite` is false -/
def Allowed (ms : List Utxos) : CoinsOp → Prop
  | .addCoin outpoint coin possibleOverwrite =>
    coin.isSpent = false ∧ coin.out.isUnspendable = false ∧
      (possibleOverwrite = false → (top ms).lookup outpoint = none)
  | _ => True

/-- every call is allowed on the plain maps it meets -/
def AllowedRun : List Utxos → List CoinsOp → Prop
  | _, [] => True
  | ms, op :: ops => Allowed ms op ∧ AllowedRun (plainStep ms op) ops

/-- `SpendCoin` takes the coin out of the top map; a coin that was there is moved out. -/
theorem Refines.spendCoin (h : (layer c b).Refines (m :: rest)) (o : COutPoint) :
    (spendCoin c b o).2.Refines (m.erase o :: rest) ∧
      ∀ coin, m.lookup o = some coin → (spendCoin c b o).1 = some coin := by
  have hpeek : (layer c b).peekCoin o = m.lookup o := by rw [h.peek]
  obtain ⟨hlevels, hlookup, hvalue⟩ := h.fetchCoin o
  rw [hpeek] at hvalue
  unfold CoinsStack.spendCoin
  generalize CoinsStack.fetchCoin c b o = r at hlevels hlookup hvalue
  obtain ⟨it, c', b'⟩ := r
  cases it with
  | none =>
    have hnone : m.lookup o = none := hvalue.symm
    refine ⟨?_, fun coin hcoin => by rw [hnone] at hcoin; cases hcoin⟩
    rw [erase_of_lookup_eq_none hnone]
    exact hlevels
  | some it =>
    obtain ⟨hlayer, hseen, hbelow⟩ := hlevels
    obtain ⟨hlayer', hseen'⟩ := hlayer.spendCoin hlookup
    refine ⟨⟨hlayer', fun o' => ?_, hbelow⟩, fun coin hcoin => ?_⟩
    · rw [hseen', hseen, lookup_erase_if]
    · rw [hcoin] at hvalue
      exact congrArg some (CCoinsCacheEntry.unspent_eq_some hvalue).1

/-- Every allowed call goes through and keeps every level. -/
theorem Refines.step (h : s.Refines ms) {op : CoinsOp} (hop : Allowed ms op) :
    ∃ s', s.step op = .ok s' ∧ s'.Refines (plainStep ms op) := by
  obtain ⟨m, rest, rfl⟩ := h.ne_nil
  have hpush : ∃ s', s.step .push = .ok s' ∧ s'.Refines (plainStep (m :: rest) .push) := by
    refine ⟨layer CCoinsViewCache.empty s, by cases s <;> rfl, layerOk_empty _, fun o => ?_, h⟩
    rw [seen_of_missing (by simp [CCoinsViewCache.empty]), h.peek]
  cases s with
  | base coins =>
    obtain ⟨hms, hunspent⟩ := h
    obtain ⟨rfl, rfl⟩ := List.cons.inj hms
    cases op with
    | push => exact hpush
    | _ => exact ⟨base m, rfl, rfl, hunspent⟩
  | layer c b =>
    obtain ⟨hlayer, hseen, hbelow⟩ := id h
    obtain ⟨p, rest, rfl⟩ := hbelow.ne_nil
    cases op with
    | push => exact hpush
    | addCoin o coin possibleOverwrite =>
      obtain ⟨hcoin, hspendable, hfree⟩ := hop
      obtain ⟨c', hok, hlayer', hseen'⟩ := hlayer.addCoin hcoin hspendable fun hfalse => (hseen o).trans (hfree hfalse)
      refine ⟨layer c' b, ?_, hlayer', fun o' => ?_, hbelow⟩
      · rw [CoinsStack.step, hok]
        rfl
      · rw [hseen', hseen, lookup_insert_if]
    | spendCoin o => exact ⟨_, rfl, (h.spendCoin o).1⟩
    | getCoin o => exact ⟨_, rfl, (h.getCoin o).2⟩
    | haveCoin o => exact ⟨_, rfl, (h.getCoin o).2⟩
    | accessCoin o => exact ⟨_, rfl, (h.fetchCoin o).1⟩
    | uncache o =>
      obtain ⟨hlayer', hseen'⟩ := hlayer.uncache o
      exact ⟨_, rfl, hlayer', fun o' => (hseen' o').trans (hseen o'), hbelow⟩
    | flush =>
      obtain ⟨b', hok, hb'⟩ := h.flush
      refine ⟨_, hok, layerOk_empty _, fun o => ?_, hb'⟩
      rw [seen_of_missing (by simp [CCoinsViewCache.empty]), hb'.peek]
    | sync => exact h.sync
    | pop => exact ⟨b, rfl, hbelow⟩

/-- Every allowed run goes through and keeps every level. -/
theorem Refines.run (h : s.Refines ms) {ops : List CoinsOp} (hops : AllowedRun ms ops) :
    ∃ s', ops.foldlM CoinsStack.step s = .ok s' ∧ s'.Refines (ops.foldl plainStep ms) := by
  induction ops generalizing s ms with
  | nil => exact ⟨s, rfl, h⟩
  | cons op ops ih =>
    obtain ⟨s₁, hok, hs₁⟩ := h.step hops.1
    obtain ⟨s', hrun, hs'⟩ := ih hs₁ hops.2
    exact ⟨s', foldlM_cons_ok.2 ⟨s₁, hok, hrun⟩, hs'⟩

/-! ## The layers as one map -/

def depth : CoinsStack → ℕ
  | .base _ => 0
  | .layer _ below => below.depth + 1

/-- the base map -/
def bottom : CoinsStack → Utxos
  | .base coins => coins
  | .layer _ below => below.bottom

/-- `Flush` of n caches, from the top down -/
def flushAll : ℕ → CoinsStack → Except String CoinsStack
  | n + 1, .layer cache below => do
    match ← flush cache below with
    | .layer cache below => return .layer cache (← flushAll n below)
    | .base coins => return .base coins
  | _, s => .ok s

def EveryLayer (Q : CCoinsViewCache → CoinsStack → Prop) : CoinsStack → Prop
  | .base _ => True
  | .layer cache below => Q cache below ∧ below.EveryLayer Q

theorem Refines.depth (h : s.Refines (m :: rest)) : s.depth = rest.length := by
  induction s generalizing m rest with
  | base coins =>
    rw [(List.cons.inj h.1).2]
    rfl
  | layer c b ih =>
    obtain ⟨p, rest, rfl⟩ := h.2.2.ne_nil
    rw [CoinsStack.depth, ih h.2.2, length_cons]

theorem Refines.flushAll (h : s.Refines (m :: rest)) : ∃ s', flushAll rest.length s = .ok s' ∧ s'.bottom = m := by
  induction rest generalizing s with
  | nil =>
    cases s with
    | base coins =>
      obtain ⟨rfl, -⟩ := List.cons.inj h.1
      exact ⟨_, rfl, rfl⟩
    | layer c b =>
      obtain ⟨_, _, hnil⟩ := h.2.2.ne_nil
      cases hnil
  | cons p rest ih =>
    cases s with
    | base coins => cases (List.cons.inj h.1).2
    | layer c b =>
      obtain ⟨b', hok, hb'⟩ := h.flush
      obtain ⟨s', hall, hbottom⟩ := ih hb'
      refine ⟨layer CCoinsViewCache.empty s', ?_, hbottom⟩
      rw [length_cons, CoinsStack.flushAll, hok]
      simp only [bind, Except.bind, hall]
      rfl

theorem Refines.everyLayer {Q : CCoinsViewCache → CoinsStack → Prop} (hQ : ∀ c b, c.LayerOk b.peekCoin → Q c b)
    (h : s.Refines ms) : s.EveryLayer Q := by
  induction s generalizing ms with
  | base coins => trivial
  | layer c b ih =>
    obtain ⟨m, rest, rfl⟩ := h.ne_nil
    exact ⟨hQ c b h.1, ih h.2.2⟩

/-- The count is the number of dirty entries. -/
theorem tracked_card (h : c.Tracked) : c.dirtyCount = (c.cacheCoins.keys.filter fun o => c.dirtyAt o = true).card := by
  have hset : c.flagged.toFinset = c.cacheCoins.keys.filter fun o => c.dirtyAt o = true := by
    ext o
    rw [mem_toFinset, h.mem, Finset.mem_filter, Finmap.mem_keys]
    refine ⟨fun hd => ⟨?_, hd⟩, fun hd => hd.2⟩
    obtain ⟨it, hit, -⟩ := dirtyAt_lookup hd
    rw [← Finmap.lookup_isSome, hit]
    rfl
  rw [h.count, ← hset, toFinset_card_of_nodup h.nodup]

theorem Refines.accessCoin (h : (layer c b).Refines (m :: rest)) (o : COutPoint) :
    (accessCoin c b o).1 = (m.lookup o).getD Coin.empty := by
  have hpeek : (layer c b).peekCoin o = m.lookup o := by rw [h.peek]
  obtain ⟨hlevels, hlookup, hvalue⟩ := h.fetchCoin o
  rw [hpeek] at hvalue
  unfold CoinsStack.accessCoin
  generalize CoinsStack.fetchCoin c b o = r at hlevels hlookup hvalue
  obtain ⟨it, c', b'⟩ := r
  rw [← hvalue]
  cases it with
  | none => rfl
  | some it =>
    change it.coin = it.unspent.getD Coin.empty
    by_cases hspent : it.coin.isSpent = true
    · rw [CCoinsCacheEntry.unspent_eq_none.2 hspent]
      exact hlevels.1.cleared o it hlookup hspent
    · rw [CCoinsCacheEntry.unspent_of_coin (Bool.eq_false_iff.2 hspent)]
      rfl

/-- the map below has no coin where an entry is marked FRESH -/
def FreshTruthful (c : CCoinsViewCache) (b : CoinsStack) : Prop :=
  ∀ o e, c.cacheCoins.lookup o = some e → e.fresh = true → b.peekCoin o = none

/-- For every allowed run over a base of unspent coins no call throws, every lookup answers as one plain map, flushing,
syncing and uncaching change nothing that is seen, flushing every cache makes the base equal to that map, and in every
layer the FRESH flags and the dirty count are right. -/
theorem layered_caches_refine_map {coins : Utxos} (hcoins : ∀ o c, coins.lookup o = some c → c.isSpent = false)
    {ops : List CoinsOp} (hops : AllowedRun [coins] ops) :
    ∃ s m rest, ops.foldlM CoinsStack.step (base coins) = .ok s ∧ ops.foldl plainStep [coins] = m :: rest ∧
      (∀ o, s.peekCoin o = m.lookup o ∧ (s.getCoin o).1 = m.lookup o ∧ (s.haveCoin o).1 = (m.lookup o).isSome) ∧
      (∀ c b o, s = layer c b → (accessCoin c b o).1 = (m.lookup o).getD Coin.empty ∧
        ∀ coin, m.lookup o = some coin → (spendCoin c b o).1 = some coin) ∧
      (∀ op, op = .flush ∨ op = .sync ∨ (∃ o, op = .uncache o) →
        ∃ s', s.step op = .ok s' ∧ ∀ o, s'.peekCoin o = s.peekCoin o) ∧
      (∃ s', flushAll s.depth s = .ok s' ∧ s'.bottom = m) ∧ s.EveryLayer FreshTruthful ∧
      s.EveryLayer fun c _ => c.dirtyCount = (c.cacheCoins.keys.filter fun o => c.dirtyAt o = true).card := by
  obtain ⟨s, hrun, hs⟩ := Refines.run (s := base coins) ⟨rfl, hcoins⟩ hops
  obtain ⟨m, rest, hms⟩ := hs.ne_nil
  rw [hms] at hs
  refine ⟨s, m, rest, hrun, hms, fun o => ?_, ?_, ?_, ?_, ?_, ?_⟩
  · have hpeek : s.peekCoin o = m.lookup o := by rw [hs.peek]
    have hget : (s.getCoin o).1 = m.lookup o := (hs.getCoin o).1.trans hpeek
    exact ⟨hpeek, hget, by rw [haveCoin, hget]⟩
  · intro c b o hlayer
    rw [hlayer] at hs
    exact ⟨hs.accessCoin o, (hs.spendCoin o).2⟩
  · intro op hop
    have hallowed : Allowed (m :: rest) op ∧ ∃ rest', plainStep (m :: rest) op = m :: rest' := by
      rcases hop with rfl | rfl | ⟨o, rfl⟩
      · cases rest with
        | nil => exact ⟨trivial, _, rfl⟩
        | cons p rest => exact ⟨trivial, _, rfl⟩
      · cases rest with
        | nil => exact ⟨trivial, _, rfl⟩
        | cons p rest => exact ⟨trivial, _, rfl⟩
      · cases rest with
        | nil => exact ⟨trivial, _, rfl⟩
        | cons p rest => exact ⟨trivial, _, rfl⟩
    obtain ⟨hallowed, rest', hplain⟩ := hallowed
    obtain ⟨s', hok, hs'⟩ := hs.step hallowed
    rw [hplain] at hs'
    refine ⟨s', hok, fun o => ?_⟩
    rw [hs'.peek, hs.peek]
  · rw [hs.depth]
    exact hs.flushAll
  · apply hs.everyLayer
    intro c b hlayer o e he hfresh
    exact ((hlayer.slotOk he).fresh hfresh).2.2
  · exact hs.everyLayer fun c b hlayer => tracked_card hlayer.tracked

end CoinsStack

end

section
attribute [local instance] toyCrypto

def sampleOutPoint : COutPoint := ⟨Uint256.ofNat 7, 0⟩

def sampleCoin : Coin := ⟨p2pkOutput 5 (Uint256.ofNat 1) toyKey_valid, false, 3, by decide⟩

/-- a coin is added in one cache and spent in a second one on top, which is flushed and dropped -/
def spendAbove : List CoinsOp :=
  [.push, .addCoin sampleOutPoint sampleCoin false, .push, .spendCoin sampleOutPoint, .flush, .pop]

theorem spendAbove_refines : ∃ s, spendAbove.foldlM CoinsStack.step (.base ∅) = .ok s ∧
    s.peekCoin sampleOutPoint = none := by
  have hallowed : CoinsStack.AllowedRun [∅] spendAbove :=
    ⟨trivial, ⟨by decide, by decide, fun _ => Finmap.lookup_empty _⟩, trivial, trivial, trivial, trivial, trivial⟩
  obtain ⟨s, m, rest, hrun, hmaps, hseen, -⟩ :=
    CoinsStack.layered_caches_refine_map (fun o c h => by simp at h) hallowed
  refine ⟨s, hrun, ?_⟩
  obtain ⟨rfl, -⟩ := List.cons.inj hmaps
  rw [(hseen sampleOutPoint).1]
  exact Finmap.lookup_erase _ _

end

end ConnectCoin
