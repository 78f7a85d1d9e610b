/-
The cache that connects a block while workers fetch its inputs (`CoinsViewOverlay`, `coins.h`, `coins.cpp`).

- `CoinsCall`: the methods of a coin cache, each with the type of its answer. A method that needs an entry calls
  `FetchCoin` for it (`fetched`) and goes on with what that returns (`finish`); `onCache` is a plain cache over the
  layers below.
- `CoinsViewOverlay`: the cache, the queue of inputs, the counters at its two ends and the position of each submitted
  task.
- `OverlayEvent`: one step of a task, or one step of the main thread, which runs any program of calls (`Lib.Calls`): a
  lookup that finds its outpoint at the end of the queue advances it and waits. A program that ended is followed by
  `Flush`, a failed one by `Reset`.
Premises: each step is atomic, the layers below stay as they are, and the counters do not wrap.
-/
import ConnectCoin.Coins.Cache
import ConnectCoin.Core.Block
import ConnectCoin.Lib.Calls
import ConnectCoin.Lib.Machine

namespace ConnectCoin

open Lib

section
variable [Crypto]

/-! ## Calls on a cache -/

/-- the methods of a cache, with their answers; `AddCoin` may throw -/
inductive CoinsCall : Type → Type where
  | getCoin (outpoint : COutPoint) : CoinsCall (Option Coin)
  | haveCoin (outpoint : COutPoint) : CoinsCall Bool
  | accessCoin (outpoint : COutPoint) : CoinsCall Coin
  | spendCoin (outpoint : COutPoint) : CoinsCall (Option Coin)
  | peekCoin (outpoint : COutPoint) : CoinsCall (Option Coin)
  | haveCoinInCache (outpoint : COutPoint) : CoinsCall Bool
  | addCoin (outpoint : COutPoint) (coin : Coin) (possibleOverwrite : Bool) : CoinsCall (Except String Unit)
  | uncache (outpoint : COutPoint) : CoinsCall Unit

namespace CoinsCall

/-- the outpoint that `FetchCoin` is called for -/
def fetched {β : Type} : CoinsCall β → Option COutPoint
  | .getCoin outpoint => some outpoint
  | .haveCoin outpoint => some outpoint
  | .accessCoin outpoint => some outpoint
  | .spendCoin outpoint => some outpoint
  | _ => none

/-- the method behind `FetchCoin`, given the entry it returned; peek is `PeekCoin` of the view below -/
def finish {β : Type} (peek : COutPoint → Option Coin) :
    CoinsCall β → Option CCoinsCacheEntry → CCoinsViewCache → β × CCoinsViewCache
  | .getCoin _, it, cache => (it.bind CCoinsCacheEntry.unspent, cache)
  | .haveCoin _, it, cache => ((it.bind CCoinsCacheEntry.unspent).isSome, cache)
  | .accessCoin _, it, cache => ((it.map CCoinsCacheEntry.coin).getD Coin.empty, cache)
  | .spendCoin outpoint, some it, cache => (some it.coin, cache.spendCoin outpoint it)
  | .spendCoin _, none, cache => (none, cache)
  | .peekCoin outpoint, _, cache =>
    (match cache.cacheCoins.lookup outpoint with
      | some it => it.unspent
      | none => peek outpoint, cache)
  | .haveCoinInCache outpoint, _, cache => ((cache.cacheCoins.lookup outpoint).any fun it => !it.coin.isSpent, cache)
  | .addCoin outpoint coin possibleOverwrite, _, cache =>
    match cache.addCoin outpoint coin possibleOverwrite with
    | .ok cache' => (.ok (), cache')
    | .error e => (.error e, cache)
  | .uncache outpoint, _, cache => ((), cache.uncache outpoint)

end CoinsCall

/-- a plain cache over the layers below it -/
def onCache : Handler CoinsCall (CCoinsViewCache × CoinsStack) := fun _ c s =>
  match c.fetched with
  | some outpoint =>
    let (it, cache, below) := CoinsStack.fetchCoin s.1 s.2 outpoint
    let (answer, cache) := c.finish below.peekCoin it cache
    (answer, cache, below)
  | none =>
    let (answer, cache) := c.finish s.2.peekCoin none s.1
    (answer, cache, s.2)

/-! ## The overlay -/

structure InputToFetch where
  ready : Bool
  outpoint : COutPoint
  coin : Option Coin

/-- where a submitted task is in its loop: it holds the input that it claimed until the flag is set -/
inductive TaskAt where
  | loop
  | fetching (i : ℕ)
  | publishing (i : ℕ)
  | finished
  deriving DecidableEq

structure CoinsViewOverlay where
  cache : CCoinsViewCache
  base : CoinsStack
  /-- `m_inputs` -/
  inputs : List InputToFetch
  /-- `m_input_head` -/
  inputHead : UInt32
  /-- `m_input_tail` -/
  inputTail : UInt32
  /-- `m_futures` -/
  futures : List TaskAt
  /-- an `Assert` failed -/
  aborted : Bool

/-- the inputs of the transactions behind the coinbase that spend no output of an earlier one of them -/
def queuedInputs : List Uint256 → List CTransaction → List COutPoint
  | _, [] => []
  | earlierTxids, tx :: txs =>
    tx.prevouts.filter (fun prevout => decide (prevout.hash ∉ earlierTxids)) ++
      queuedInputs (tx.getHash :: earlierTxids) txs

namespace CoinsViewOverlay

/-- the inputs that are fetched for a block: none without workers, or if the tasks were not taken -/
def queue (block : CBlock) (workersCount : ℕ) (submitted : Bool) : List COutPoint :=
  if workersCount > 0 && submitted then queuedInputs [] (block.vtx.drop 1) else []

/-- `StartFetching` on an overlay that is empty -/
def startFetching (base : CoinsStack) (block : CBlock) (workersCount : ℕ) (submitted : Bool) : CoinsViewOverlay where
  cache := CCoinsViewCache.empty
  base := base
  inputs := (queue block workersCount submitted).map fun outpoint => ⟨false, outpoint, none⟩
  inputHead := 0
  inputTail := 0
  futures := if (queue block workersCount submitted).isEmpty then [] else List.replicate workersCount .loop
  aborted := false

variable (v : CoinsViewOverlay)

def setTask (j : ℕ) (task : TaskAt) : CoinsViewOverlay := { v with futures := v.futures.set j task }

/-- one step of a task that repeats `ProcessInput`: it claims an input, fetches the coin, or sets the flag -/
def processInput (j : ℕ) : Option CoinsViewOverlay :=
  match v.futures[j]? with
  | some .loop =>
    let i := v.inputHead.toNat
    some ({ v with inputHead := v.inputHead + 1 }.setTask j (if i ≥ v.inputs.length then .finished else .fetching i))
  | some (.fetching i) =>
    let inputs := v.inputs.modify i fun input => { input with coin := v.base.peekCoin input.outpoint }
    some ({ v with inputs }.setTask j (.publishing i))
  | some (.publishing i) =>
    let inputs := v.inputs.modify i fun input => { input with ready := true }
    let aborted := v.aborted || (v.inputs[i]?).any InputToFetch.ready
    some ({ v with inputs, aborted }.setTask j .loop)
  | some .finished => none
  | none => none

/-- `AllInputsConsumed` -/
def allInputsConsumed : Bool := v.inputTail.toNat == v.inputs.length

/-- the next input is the one that is looked for -/
def atTail (outpoint : COutPoint) : Bool := (v.inputs[v.inputTail.toNat]?).any fun input => input.outpoint == outpoint

/-- the first half of `StopFetching`: the head moves to the end -/
def skipRest : CoinsViewOverlay := { v with inputHead := UInt32.ofNat v.inputs.length }

/-- the second half of `StopFetching`, behind the last future -/
def cleared : CoinsViewOverlay := { v with inputs := [], inputHead := 0, inputTail := 0, futures := [] }

end CoinsViewOverlay

/-! ## The main thread -/

/-- where the main thread is in its program -/
inductive MainAt (ε α : Type) : Type 1 where
  | running (m : Calls CoinsCall ε α)
  /-- in `FetchCoinFromBase`, for the flag of an input -/
  | waiting {β : Type} (i : ℕ) (outpoint : COutPoint) (c : CoinsCall β) (k : β → Calls CoinsCall ε α)
  /-- in `StopFetching`, for the futures -/
  | stopping (r : Except ε α)
  | stopped (r : Except ε α)

structure OverlayState (ε α : Type) : Type 1 where
  view : CoinsViewOverlay
  main : MainAt ε α
  /-- the calls so far and their answers -/
  log : List (Answered CoinsCall)
  /-- `Flush` logged that inputs were accessed out of order -/
  warned : Bool

inductive OverlayEvent where
  | task (j : ℕ)
  | main
  deriving DecidableEq

/-- `FetchCoin` behind `FetchCoinFromBase`: the entry of a coin that was found -/
def CCoinsViewCache.emplace (cache : CCoinsViewCache) (outpoint : COutPoint) :
    Option Coin → Option CCoinsCacheEntry × CCoinsViewCache
  | some coin => (some ⟨coin, false, false⟩, cache.store outpoint ⟨coin, false, false⟩)
  | none => (none, cache)

namespace OverlayState

variable {ε α : Type}

/-- before the first call -/
def start (base : CoinsStack) (block : CBlock) (workersCount : ℕ) (submitted : Bool) (program : Calls CoinsCall ε α) :
    OverlayState ε α := ⟨CoinsViewOverlay.startFetching base block workersCount submitted, .running program, [], false⟩

variable (s : OverlayState ε α)

/-- the call ends, with the entry that `FetchCoin` returned -/
def answer {β : Type} (c : CoinsCall β) (k : β → Calls CoinsCall ε α)
    (it : Option CCoinsCacheEntry × CCoinsViewCache) : OverlayState ε α :=
  let (a, cache) := c.finish s.view.base.peekCoin it.1 it.2
  { s with view := { s.view with cache }, main := .running (k a), log := s.log ++ [⟨β, c, a⟩] }

/-- the main thread makes a call -/
def call {β : Type} (c : CoinsCall β) (k : β → Calls CoinsCall ε α) : OverlayState ε α :=
  match c.fetched with
  | none => s.answer c k (none, s.view.cache)
  | some outpoint =>
    match s.view.cache.cacheCoins.lookup outpoint with
    | some it => s.answer c k (some it, s.view.cache)
    | none =>
      if s.view.atTail outpoint then
        { s with
          view := { s.view with inputTail := s.view.inputTail + 1 }
          main := .waiting s.view.inputTail.toNat outpoint c k }
      else s.answer c k (s.view.cache.emplace outpoint (s.view.base.peekCoin outpoint))

/-- one step of the main thread: none where it has to wait, or is done -/
def mainStep : Option (OverlayState ε α) :=
  match s.main with
  | .running (.done a) =>
    some { s with view := s.view.skipRest, main := .stopping (.ok a), warned := !s.view.allInputsConsumed }
  | .running (.fail e) => some { s with view := s.view.skipRest, main := .stopping (.error e) }
  | .running (.call c k) => some (s.call c k)
  | .waiting i outpoint c k =>
    match s.view.inputs[i]? with
    | some input => if input.ready then some (s.answer c k (s.view.cache.emplace outpoint input.coin)) else none
    | none => none
  | .stopping r => if s.view.futures.all (· == .finished) then
      some { s with view := s.view.cleared, main := .stopped r } else none
  | .stopped _ => none

def step : OverlayEvent → Option (OverlayState ε α)
  | .task j => (s.view.processInput j).map fun view => { s with view }
  | .main => s.mainStep

end OverlayState

end

end ConnectCoin
