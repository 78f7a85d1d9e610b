/-
The coin cache and the layers it is stacked in (`CCoinsViewCache`, `CoinsViewCacheCursor`, `coins.cpp`, `coins.h`).

- `CCoinsCacheEntry`: a coin with its DIRTY and FRESH flags; a spent coin is the empty one.
- `CCoinsViewCache`: the entries by outpoint, the linked list of flagged entries in its order, and the running count of
  dirty ones.
- `CoinsStack`: a base map with caches on top of it. A lookup through a cache fills every cache it passes.
- `AddCoin`, `SpendCoin`, `GetCoin`, `HaveCoin`, `AccessCoin`, `PeekCoin`, `Uncache`, `Flush`, `Sync` on the top cache;
  `BatchWrite` on what is below it.
- `CoinsOp`, `CoinsStack.step`: one call on the top cache, or a cache pushed or popped. An error is a throw or a failed
  assertion.
Left out: the best block that `BatchWrite` hands down, and the memory accounting. The base stands for the database; its
`BatchWrite` is one step.
-/
import ConnectCoin.Coins.View

namespace ConnectCoin

open Lib

section
variable [Crypto]

/-! ## Entries -/

/-- `Coin()`, and a coin after `Clear` -/
def Coin.empty : Coin := ⟨invalidOutput (-1), false, 0, by decide⟩

/-- a coin of one layer -/
structure CCoinsCacheEntry where
  coin : Coin
  dirty : Bool
  fresh : Bool

/-- the coin, if it is not spent -/
def CCoinsCacheEntry.unspent (e : CCoinsCacheEntry) : Option Coin := if e.coin.isSpent then none else some e.coin

/-! ## One cache -/

structure CCoinsViewCache where
  cacheCoins : Ledger COutPoint CCoinsCacheEntry
  /-- the linked list behind `m_sentinel` -/
  flagged : List COutPoint
  /-- `m_dirty_count` -/
  dirtyCount : ℕ

namespace CCoinsViewCache

def empty : CCoinsViewCache := ⟨∅, [], 0⟩

variable (c : CCoinsViewCache)

/-- an entry with its flags: `AddFlags` links it if it had none, `SetClean` unlinks it -/
def store (outpoint : COutPoint) (e : CCoinsCacheEntry) : CCoinsViewCache :=
  { c with
    cacheCoins := c.cacheCoins.insert outpoint e
    flagged :=
      if e.dirty || e.fresh then if outpoint ∈ c.flagged then c.flagged else c.flagged ++ [outpoint]
      else c.flagged.erase outpoint }

/-- an entry is erased and unlinked -/
def erase (outpoint : COutPoint) : CCoinsViewCache :=
  { c with cacheCoins := c.cacheCoins.erase outpoint, flagged := c.flagged.erase outpoint }

/-- `TrySub(m_dirty_count, it->second.IsDirty())` -/
def uncount (e : CCoinsCacheEntry) : CCoinsViewCache := { c with dirtyCount := c.dirtyCount - e.dirty.toNat }

/-- `++m_dirty_count` -/
def count : CCoinsViewCache := { c with dirtyCount := c.dirtyCount + 1 }

/-- `AddCoin`; a new entry starts as a spent coin without flags -/
def addCoin (outpoint : COutPoint) (coin : Coin) (possibleOverwrite : Bool) : Except String CCoinsViewCache :=
  if coin.isSpent then .error "assertion failed: !coin.IsSpent()"
  else if coin.out.isUnspendable then .ok c
  else
    let it := (c.cacheCoins.lookup outpoint).getD ⟨Coin.empty, false, false⟩
    if !possibleOverwrite && !it.coin.isSpent then
      .error "Attempted to overwrite an unspent coin (when possible_overwrite is false)"
    else
      let fresh := !possibleOverwrite && !it.dirty
      .ok ((c.uncount it).store outpoint ⟨coin, true, it.fresh || fresh⟩).count

/-- `SpendCoin` of an entry that was fetched -/
def spendCoin (outpoint : COutPoint) (it : CCoinsCacheEntry) : CCoinsViewCache :=
  if it.fresh then (c.uncount it).erase outpoint else ((c.uncount it).store outpoint ⟨Coin.empty, true, it.fresh⟩).count

/-- `Uncache` -/
def uncache (outpoint : COutPoint) : CCoinsViewCache :=
  match c.cacheCoins.lookup outpoint with
  | some it => if !it.dirty then c.erase outpoint else c
  | none => c

/-- `BatchWrite` of one entry of the cache above -/
def writeEntry (us : CCoinsViewCache) (outpoint : COutPoint) (it : CCoinsCacheEntry) : Except String CCoinsViewCache :=
  if !it.dirty then .ok us
  else match us.cacheCoins.lookup outpoint with
    | none =>
      if it.fresh && it.coin.isSpent then .ok us else .ok (us.store outpoint ⟨it.coin, true, it.fresh⟩).count
    | some itUs =>
      if it.fresh && !itUs.coin.isSpent then .error "FRESH flag misapplied to coin that exists in parent cache"
      else if itUs.fresh && it.coin.isSpent then .ok ((us.uncount itUs).erase outpoint)
      else if itUs.dirty then .ok (us.store outpoint ⟨it.coin, true, itUs.fresh⟩)
      else .ok (us.store outpoint ⟨it.coin, true, itUs.fresh⟩).count

/-- `NextAndMaybeErase`: what the cursor does to an entry it leaves -/
def nextAndMaybeErase (willErase : Bool) (outpoint : COutPoint) (it : CCoinsCacheEntry) : CCoinsViewCache :=
  if willErase then c.uncount it
  else if it.coin.isSpent then (c.uncount it).erase outpoint
  else (c.uncount it).store outpoint ⟨it.coin, false, false⟩

end CCoinsViewCache

/-! ## Layers -/

/-- caches on top of a base map -/
inductive CoinsStack where
  | base (coins : Utxos)
  | layer (cache : CCoinsViewCache) (below : CoinsStack)

namespace CoinsStack

/-- `PeekCoin` -/
def peekCoin : CoinsStack → COutPoint → Option Coin
  | .base coins, outpoint => coins.lookup outpoint
  | .layer cache below, outpoint =>
    match cache.cacheCoins.lookup outpoint with
    | some it => it.unspent
    | none => below.peekCoin outpoint

variable (cache : CCoinsViewCache) (below : CoinsStack)

/-- `FetchCoin`, given what `GetCoin` of the view below would return and leave behind -/
def fetchFrom (outpoint : COutPoint) (fromBase : Option Coin × CoinsStack) :
    Option CCoinsCacheEntry × CCoinsViewCache × CoinsStack :=
  match cache.cacheCoins.lookup outpoint with
  | some it => (some it, cache, below)
  | none =>
    match fromBase with
    | (some coin, below) => (some ⟨coin, false, false⟩, cache.store outpoint ⟨coin, false, false⟩, below)
    | (none, below) => (none, cache, below)

/-- `GetCoin` -/
def getCoin : CoinsStack → COutPoint → Option Coin × CoinsStack
  | .base coins, outpoint => (coins.lookup outpoint, .base coins)
  | .layer cache below, outpoint =>
    let (it, cache, below) := fetchFrom cache below outpoint (below.getCoin outpoint)
    (it.bind CCoinsCacheEntry.unspent, .layer cache below)

/-- `FetchCoin` -/
def fetchCoin (outpoint : COutPoint) : Option CCoinsCacheEntry × CCoinsViewCache × CoinsStack :=
  fetchFrom cache below outpoint (below.getCoin outpoint)

/-- `BatchWrite` of one entry; the base erases or writes it -/
def writeEntry : CoinsStack → COutPoint → CCoinsCacheEntry → Except String CoinsStack
  | .base coins, outpoint, it =>
    .ok (.base
      (if !it.dirty then coins else if it.coin.isSpent then coins.erase outpoint else coins.insert outpoint it.coin))
  | .layer us below, outpoint, it => do return .layer (← us.writeEntry outpoint it) below

/-- one turn of `BatchWrite`: the entry under the cursor, then the cursor moves on -/
def writeNext (willErase : Bool) (s : CCoinsViewCache × CoinsStack) (outpoint : COutPoint) :
    Except String (CCoinsViewCache × CoinsStack) :=
  match s.1.cacheCoins.lookup outpoint with
  | none => .ok s
  | some it => do return (s.1.nextAndMaybeErase willErase outpoint it, ← s.2.writeEntry outpoint it)

/-- `BatchWrite` over the flagged entries of a cache, in their order -/
def batchWrite (willErase : Bool) (cache : CCoinsViewCache) (below : CoinsStack) :
    Except String (CCoinsViewCache × CoinsStack) := cache.flagged.foldlM (writeNext willErase) (cache, below)

/-- `Flush` -/
def flush : Except String CoinsStack := do
  let (cache, below) ← batchWrite true cache below
  return .layer { cache with cacheCoins := ∅, flagged := [] } below

/-- `Sync` -/
def sync : Except String CoinsStack := do
  let (cache, below) ← batchWrite false cache below
  if cache.flagged ≠ [] then .error "Not all unspent flagged entries were cleared" else .ok (.layer cache below)

/-- `SpendCoin`: the coin it moves out, none where it returns false -/
def spendCoin (outpoint : COutPoint) : Option Coin × CoinsStack :=
  match fetchCoin cache below outpoint with
  | (some it, cache, below) => (some it.coin, .layer (cache.spendCoin outpoint it) below)
  | (none, cache, below) => (none, .layer cache below)

/-- `HaveCoin` -/
def haveCoin (s : CoinsStack) (outpoint : COutPoint) : Bool × CoinsStack :=
  ((s.getCoin outpoint).1.isSome, (s.getCoin outpoint).2)

/-- `AccessCoin` -/
def accessCoin (outpoint : COutPoint) : Coin × CoinsStack :=
  let (it, cache, below) := fetchCoin cache below outpoint
  ((it.map CCoinsCacheEntry.coin).getD Coin.empty, .layer cache below)

end CoinsStack

/-! ## Calls -/

inductive CoinsOp where
  | addCoin (outpoint : COutPoint) (coin : Coin) (possibleOverwrite : Bool)
  | spendCoin (outpoint : COutPoint)
  | getCoin (outpoint : COutPoint)
  | haveCoin (outpoint : COutPoint)
  | accessCoin (outpoint : COutPoint)
  | uncache (outpoint : COutPoint)
  | flush
  | sync
  | push
  | pop

/-- a call on the top cache, or a cache more or less; a base without caches only takes a new one -/
def CoinsStack.step : CoinsStack → CoinsOp → Except String CoinsStack
  | s, .push => .ok (.layer CCoinsViewCache.empty s)
  | .base coins, _ => .ok (.base coins)
  | .layer cache below, .addCoin outpoint coin
      possibleOverwrite => do return .layer (← cache.addCoin outpoint coin possibleOverwrite) below
  | .layer cache below, .spendCoin outpoint => .ok (spendCoin cache below outpoint).2
  | .layer cache below, .getCoin outpoint => .ok ((CoinsStack.layer cache below).getCoin outpoint).2
  | .layer cache below, .haveCoin outpoint => .ok ((CoinsStack.layer cache below).haveCoin outpoint).2
  | .layer cache below, .accessCoin outpoint => .ok (accessCoin cache below outpoint).2
  | .layer cache below, .uncache outpoint => .ok (.layer (cache.uncache outpoint) below)
  | .layer cache below, .flush => flush cache below
  | .layer cache below, .sync => sync cache below
  | .layer _ below, .pop => .ok below

end

end ConnectCoin
