/-
Parallel input fetching is invisible (`Coins/Overlay`).

- `onQueue`: the overlay without threads. A lookup that the cache does not answer takes the front of the queue off if it
  is the outpoint that is looked for, and the coin is that of the view below either way. `onQueue_simulates`: these are
  the answers of a plain cache.
- `QueueInv`: a cell that is ready has the coin of the view below; what a task has claimed lies before the head and is
  held by no other task; the head has not wrapped.
- `Follows`: the answers so far and those that the rest of the program gets from `onQueue` are the answers of the whole
  program.
Results: `overlay_inv`: in every run of every program, these hold; `OverlayInv.awaited`: a cell that is awaited is
ready, is held by a task, or is in front of the head with no task finished; `QueueInv.work`: each step of a task uses up
one unit of a work that is finite.
-/
import ConnectCoin.Coins.Overlay
import ConnectCoin.Coins.Layers

namespace ConnectCoin

open Lib List

/-! ## The tasks -/

/-- the input that a task has claimed and not made ready -/
def TaskAt.holding : TaskAt → Option ℕ
  | .fetching i => some i
  | .publishing i => some i
  | _ => none

/-- one for a task that ended -/
def TaskAt.ended : TaskAt → ℕ
  | .finished => 1
  | _ => 0

/-- the steps that a task makes without claiming another input -/
def TaskAt.stepsLeft : TaskAt → ℕ
  | .loop => 1
  | .fetching _ => 3
  | .publishing _ => 2
  | .finished => 0

/-- what a change of one task changes -/
theorem getElem?_setTask {futures : List TaskAt} {j k : ℕ} {old new task : TaskAt} (hj : futures[j]? = some old) :
    (futures.set j new)[k]? = some task ↔ k = j ∧ task = new ∨ k ≠ j ∧ futures[k]? = some task := by
  have hlt : j < futures.length := (List.getElem?_eq_some_iff.1 hj).1
  rw [getElem?_set]
  by_cases hk : j = k
  · subst hk
    simp [hlt, eq_comm]
  · simp [hk, Ne.symm hk, eq_comm]

theorem sum_setTask (f : TaskAt → ℕ) {futures : List TaskAt} {j : ℕ} {old : TaskAt} (new : TaskAt)
    (hj : futures[j]? = some old) : ((futures.set j new).map f).sum + f old = (futures.map f).sum + f new := by
  induction futures generalizing j with
  | nil => cases hj
  | cons task futures ih =>
    cases j with
    | zero =>
      obtain rfl : task = old := Option.some_inj.1 hj
      simp only [set_cons_zero, map_cons, sum_cons]
      ring
    | succ j =>
      have hrest := ih hj
      simp only [set_cons_succ, map_cons, sum_cons]
      linarith

theorem sum_ended_le (futures : List TaskAt) : (futures.map TaskAt.ended).sum ≤ futures.length := by
  have hone : ∀ n ∈ futures.map TaskAt.ended, n ≤ 1 := by
    intro n hn
    obtain ⟨task, -, rfl⟩ := mem_map.1 hn
    cases task <;> simp [TaskAt.ended]
  have hsum := sum_le_card_nsmul _ 1 hone
  simpa using hsum

section
variable [Crypto]

/-! ## The layers below -/

namespace CoinsStack

/-- the map at the bottom holds unspent coins -/
def BaseUnspent : CoinsStack → Prop
  | .base coins => ∀ o coin, coins.lookup o = some coin → coin.isSpent = false
  | .layer _ below => below.BaseUnspent

theorem BaseUnspent.peekCoin {s : CoinsStack} (h : s.BaseUnspent) {o : COutPoint} {coin : Coin}
    (hcoin : s.peekCoin o = some coin) : coin.isSpent = false := by
  induction s with
  | base coins => exact h o coin hcoin
  | layer cache below ih =>
    rw [CoinsStack.peekCoin] at hcoin
    cases hit : cache.cacheCoins.lookup o with
    | some it =>
      rw [hit] at hcoin
      exact (CCoinsCacheEntry.unspent_eq_some hcoin).2
    | none =>
      rw [hit] at hcoin
      exact ih h hcoin

/-- `FetchCoin` finds the coin that the view below shows. -/
theorem fetchCoin_eq (cache : CCoinsViewCache) (below : CoinsStack) (o : COutPoint) :
    fetchCoin cache below o = match cache.cacheCoins.lookup o with
      | some it => (some it, cache, below)
      | none => ((cache.emplace o (below.getCoin o).1).1, (cache.emplace o (below.getCoin o).1).2,
      (below.getCoin o).2) := by
  rw [fetchCoin, fetchFrom.eq_def]
  cases cache.cacheCoins.lookup o with
  | some it => rfl
  | none =>
    simp only
    rcases below.getCoin o with ⟨_ | coin, below'⟩ <;> rfl

/-- A lookup fills the caches on its way, and shows nothing else. -/
theorem BaseUnspent.getCoin {s : CoinsStack} (h : s.BaseUnspent) (o : COutPoint) :
    (s.getCoin o).1 = s.peekCoin o ∧ (s.getCoin o).2.BaseUnspent ∧ (s.getCoin o).2.peekCoin = s.peekCoin := by
  induction s with
  | base coins => exact ⟨rfl, h, rfl⟩
  | layer cache below ih =>
    obtain ⟨hvalue, hbase, hpeek⟩ := ih h
    have hfetch := fetchCoin_eq cache below o
    rw [fetchCoin] at hfetch
    simp only [CoinsStack.getCoin, hfetch, CoinsStack.peekCoin]
    cases hit : cache.cacheCoins.lookup o with
    | some it => exact ⟨rfl, h, rfl⟩
    | none =>
      simp only [hvalue]
      cases hcoin : below.peekCoin o with
      | none =>
        refine ⟨rfl, hbase, funext fun o' => ?_⟩
        simp only [CCoinsViewCache.emplace, hpeek]
      | some coin =>
        have hspent : coin.isSpent = false := BaseUnspent.peekCoin (s := below) h hcoin
        have hunspent := CCoinsCacheEntry.unspent_of_coin (e := ⟨coin, false, false⟩) hspent
        refine ⟨hunspent, hbase, funext fun o' => ?_⟩
        simp only [CCoinsViewCache.emplace, CCoinsViewCache.store, hpeek]
        rw [lookup_insert_if]
        split_ifs with ho
        · rw [ho, hit]
          exact hunspent.trans hcoin.symm
        · rfl

end CoinsStack

/-! ## The overlay without threads -/

/-- a cache, and the outpoints that are left in the queue -/
structure Prefetched where
  cache : CCoinsViewCache
  rest : List COutPoint

/-- a lookup takes the front off if it matches -/
def takeFront (rest : List COutPoint) (outpoint : COutPoint) : List COutPoint :=
  if rest.head? = some outpoint then rest.tail else rest

/-- the answer of a call, and the cache behind it -/
def Prefetched.answer {β : Type} (peek : COutPoint → Option Coin) (c : CoinsCall β)
    (it : Option CCoinsCacheEntry × CCoinsViewCache) (rest : List COutPoint) : β × Prefetched :=
  let (a, cache) := c.finish peek it.1 it.2
  (a, ⟨cache, rest⟩)

def onQueue (peek : COutPoint → Option Coin) : Handler CoinsCall Prefetched := fun _ c s =>
  match c.fetched with
  | none => Prefetched.answer peek c (none, s.cache) s.rest
  | some outpoint =>
    match s.cache.cacheCoins.lookup outpoint with
    | some it => Prefetched.answer peek c (some it, s.cache) s.rest
    | none => Prefetched.answer peek c (s.cache.emplace outpoint (peek outpoint)) (takeFront s.rest outpoint)

section
variable {β : Type} {peek : COutPoint → Option Coin} {c : CoinsCall β} {s : Prefetched} {o : COutPoint}

theorem onQueue_direct (hc : c.fetched = none) :
    onQueue peek β c s = Prefetched.answer peek c (none, s.cache) s.rest := by
  rw [onQueue, hc]

theorem onQueue_cached (hc : c.fetched = some o) {it : CCoinsCacheEntry} (hit : s.cache.cacheCoins.lookup o = some it) :
    onQueue peek β c s = Prefetched.answer peek c (some it, s.cache) s.rest := by
  simp only [onQueue, hc, hit]

theorem onQueue_missing (hc : c.fetched = some o) (hit : s.cache.cacheCoins.lookup o = none) :
    onQueue peek β c s = Prefetched.answer peek c (s.cache.emplace o (peek o)) (takeFront s.rest o) := by
  simp only [onQueue, hc, hit]

end

/-- the same cache, over layers that show the same coins -/
def SameCache (peek : COutPoint → Option Coin) (s : Prefetched) (t : CCoinsViewCache × CoinsStack) : Prop :=
  s.cache = t.1 ∧ t.2.BaseUnspent ∧ t.2.peekCoin = peek

theorem onQueue_simulates (peek : COutPoint → Option Coin) :
    Calls.Simulates (SameCache peek) (onQueue peek) onCache := by
  rintro β c ⟨cache, rest⟩ ⟨cache', below⟩ ⟨hcache, hbase, rfl⟩
  obtain rfl : cache = cache' := hcache
  cases hc : c.fetched with
  | none =>
    rw [onQueue_direct hc, onCache, hc]
    exact ⟨rfl, rfl, hbase, rfl⟩
  | some o =>
    obtain ⟨hvalue, hbase', hpeek⟩ := hbase.getCoin o
    simp only [onCache, hc, CoinsStack.fetchCoin_eq]
    cases hit : cache.cacheCoins.lookup o with
    | some it =>
      rw [onQueue_cached hc hit]
      exact ⟨rfl, rfl, hbase, rfl⟩
    | none =>
      rw [onQueue_missing hc hit]
      simp only [hvalue, hpeek]
      exact ⟨rfl, rfl, hbase', hpeek⟩

/-! ## The steps of the tasks -/

namespace CoinsViewOverlay

/-- a step of a task: it claims no input, claims one, fetches its coin, or makes it ready -/
theorem processInput_cases {v v' : CoinsViewOverlay} {j : ℕ} (h : v.processInput j = some v') :
    (v.futures[j]? = some .loop ∧ v.inputs.length ≤ v.inputHead.toNat ∧
        v' = { v with inputHead := v.inputHead + 1 }.setTask j .finished) ∨
      (v.futures[j]? = some .loop ∧ v.inputHead.toNat < v.inputs.length ∧
        v' = { v with inputHead := v.inputHead + 1 }.setTask j (.fetching v.inputHead.toNat)) ∨
      (∃ i, v.futures[j]? = some (.fetching i) ∧ v' = { v with
        inputs := v.inputs.modify i fun input => { input with coin := v.base.peekCoin input.outpoint } }.setTask j
          (.publishing i)) ∨ (∃ i, v.futures[j]? = some (.publishing i) ∧ v' = { v with
        inputs := v.inputs.modify i fun input => { input with ready := true }
        aborted := v.aborted || (v.inputs[i]?).any InputToFetch.ready }.setTask j .loop) := by
  unfold processInput at h
  cases htask : v.futures[j]? with
  | none =>
    rw [htask] at h
    cases h
  | some task =>
    rw [htask] at h
    cases task with
    | loop =>
      rcases Nat.lt_or_ge v.inputHead.toNat v.inputs.length with hlt | hge
      · simp only [ge_iff_le, Nat.not_le.2 hlt, if_false] at h
        exact Or.inr (Or.inl ⟨rfl, hlt, (Option.some_inj.1 h).symm⟩)
      · simp only [ge_iff_le, hge, if_true] at h
        exact Or.inl ⟨rfl, hge, (Option.some_inj.1 h).symm⟩
    | fetching i => exact Or.inr (Or.inr (Or.inl ⟨i, rfl, (Option.some_inj.1 h).symm⟩))
    | publishing i => exact Or.inr (Or.inr (Or.inr ⟨i, rfl, (Option.some_inj.1 h).symm⟩))
    | finished => cases h

/-- Only a finished task makes no step. -/
theorem processInput_none {v : CoinsViewOverlay} {j : ℕ} {task : TaskAt} (htask : v.futures[j]? = some task)
    (h : v.processInput j = none) : task = .finished := by
  unfold processInput at h
  rw [htask] at h
  cases task with
  | loop => cases h
  | fetching i => cases h
  | publishing i => cases h
  | finished => rfl

/-- the steps that are left to the tasks -/
def work (v : CoinsViewOverlay) : ℕ := 3 * (v.inputs.length - v.inputHead.toNat) + (v.futures.map TaskAt.stepsLeft).sum

end CoinsViewOverlay

/-! ## The queue -/

namespace CoinsViewOverlay

/-- a task holds an input -/
def Holds (v : CoinsViewOverlay) (j i : ℕ) : Prop := (v.futures[j]?).bind TaskAt.holding = some i

theorem holds_setTask {v : CoinsViewOverlay} {j k i : ℕ} {old new : TaskAt} (hj : v.futures[j]? = some old) :
    (v.setTask j new).Holds k i ↔ k = j ∧ new.holding = some i ∨ k ≠ j ∧ v.Holds k i := by
  simp only [Holds, Option.bind_eq_some_iff, setTask, getElem?_setTask hj]
  constructor
  · rintro ⟨task, ⟨rfl, rfl⟩ | ⟨hne, htask⟩, hi⟩
    · exact Or.inl ⟨rfl, hi⟩
    · exact Or.inr ⟨hne, task, htask, hi⟩
  · rintro (⟨rfl, hi⟩ | ⟨hne, task, htask, hi⟩)
    · exact ⟨new, Or.inl ⟨rfl, rfl⟩, hi⟩
    · exact ⟨task, Or.inr ⟨hne, htask⟩, hi⟩

theorem holds_of_task {v : CoinsViewOverlay} {j i : ℕ} {task : TaskAt} (hj : v.futures[j]? = some task) :
    v.Holds j i ↔ task.holding = some i := by
  rw [Holds, hj, Option.bind_some]

end CoinsViewOverlay

/-- what holds of the queue and the tasks, until the futures are cleared -/
structure QueueInv (base : CoinsStack) (queue : List COutPoint) (workers : ℕ) (v : CoinsViewOverlay) : Prop where
  base_eq : v.base = base
  outpoints : v.inputs.map InputToFetch.outpoint = queue
  crew : v.futures.length ≤ workers
  head : v.inputHead.toNat ≤ queue.length + (v.futures.map TaskAt.ended).sum
  held : ∀ j i, v.Holds j i → i < v.inputHead.toNat ∧ (v.inputs[i]?).map InputToFetch.ready = some false
  distinct : ∀ j j' i, v.Holds j i → v.Holds j' i → j = j'
  fetched : ∀ (j i : ℕ) (input : InputToFetch), v.futures[j]? = some (.publishing i) → v.inputs[i]? = some input →
    input.coin = base.peekCoin input.outpoint
  ready : ∀ (i : ℕ) (input : InputToFetch), v.inputs[i]? = some input → input.ready = true →
    input.coin = base.peekCoin input.outpoint ∧ i < v.inputHead.toNat
  aborted : v.aborted = false

/-- what holds besides until the queue is given up: an input before the head is taken care of -/
structure Covered (v : CoinsViewOverlay) : Prop where
  claimed : ∀ (i : ℕ) (input : InputToFetch), v.inputs[i]? = some input → i < v.inputHead.toNat →
    input.ready = true ∨ ∃ j, v.Holds j i
  late : ∀ j : ℕ, v.futures[j]? = some .finished → v.inputs.length < v.inputHead.toNat
  crewed : v.inputs ≠ [] → v.futures ≠ []

open CoinsViewOverlay

section
variable {base : CoinsStack} {queue : List COutPoint} {workers : ℕ} {v v' : CoinsViewOverlay} {j : ℕ}

/-- An input at another place is the same; the input at the place is changed. -/
theorem getElem?_modifyInput {inputs : List InputToFetch} {f : InputToFetch → InputToFetch} {i k : ℕ}
    {input : InputToFetch} : (inputs.modify i f)[k]? = some input ↔
      k = i ∧ (∃ old, inputs[k]? = some old ∧ input = f old) ∨ k ≠ i ∧ inputs[k]? = some input := by
  rw [getElem?_modify]
  by_cases hk : i = k
  · subst hk
    simp [eq_comm]
  · simp [hk, Ne.symm hk]

theorem modify_map {γ : Type} {f : InputToFetch → InputToFetch} {g : InputToFetch → γ}
    (hfg : ∀ input, g (f input) = g input) (inputs : List InputToFetch) (i : ℕ) :
    (inputs.modify i f).map g = inputs.map g := by
  apply ext_getElem?
  intro k
  rw [getElem?_map, getElem?_map, getElem?_modify]
  cases inputs[k]? with
  | none => rfl
  | some input =>
    by_cases hk : i = k
    · simp [hk, hfg]
    · simp [hk]

/-- A task that holds an input is not at the top of its loop. -/
theorem CoinsViewOverlay.Holds.ne_loop {i k : ℕ} (hk : v.Holds k i) (htask : v.futures[j]? = some .loop) : k ≠ j := by
  rintro rfl
  cases (holds_of_task htask).1 hk

theorem CoinsViewOverlay.processInput_frame (hstep : v.processInput j = some v') :
    v'.cache = v.cache ∧ v'.inputTail = v.inputTail := by
  rcases processInput_cases hstep with ⟨-, -, rfl⟩ | ⟨-, -, rfl⟩ | ⟨i, -, rfl⟩ | ⟨i, -, rfl⟩ <;> exact ⟨rfl, rfl⟩

section
variable (h : QueueInv base queue workers v)
include h

theorem QueueInv.length_eq : v.inputs.length = queue.length := by
  rw [← h.outpoints, length_map]

/-- What keeps the queue in order: a step of a task leaves the inputs that the other tasks hold as they are, and its own
not ready. -/
theorem QueueInv.changeTask {old new : TaskAt} (htask : v.futures[j]? = some old) {head : UInt32}
    {inputs : List InputToFetch} {aborted : Bool} (hout : inputs.map InputToFetch.outpoint = queue)
    (hmoved : v.inputHead.toNat ≤ head.toNat)
    (hhead : head.toNat ≤ queue.length ∨ head.toNat + old.ended ≤ v.inputHead.toNat + new.ended)
    (hown : ∀ i, new.holding = some i →
      i < head.toNat ∧ (inputs[i]?).map InputToFetch.ready = some false ∧ ∀ k, v.Holds k i → k = j)
    (hothers : ∀ k i, k ≠ j → v.Holds k i → inputs[i]? = v.inputs[i]?)
    (hpublish : ∀ i input, new = .publishing i → inputs[i]? = some input → input.coin = base.peekCoin input.outpoint)
    (hready : ∀ i input, inputs[i]? = some input → input.ready = true → input.coin = base.peekCoin input.outpoint ∧
      i < head.toNat) (habort : aborted = false) :
    QueueInv base queue workers ({ v with inputHead := head, inputs := inputs, aborted := aborted }.setTask j new) where
  base_eq := h.base_eq
  outpoints := hout
  crew := (length_set ..).trans_le h.crew
  head := by
    have hsum := sum_setTask TaskAt.ended new htask
    have hbefore := h.head
    simp only [setTask]
    omega
  held := by
    intro k i hk
    rcases (holds_setTask htask).1 hk with ⟨-, hi⟩ | ⟨hne, hold⟩
    · exact ⟨(hown i hi).1, (hown i hi).2.1⟩
    · obtain ⟨hlt, hfalse⟩ := h.held k i hold
      exact ⟨hlt.trans_le hmoved, (congrArg _ (hothers k i hne hold)).trans hfalse⟩
  distinct := by
    intro k k' i hk hk'
    rcases (holds_setTask htask).1 hk with ⟨rfl, hi⟩ | ⟨-, hold⟩ <;> rcases (holds_setTask htask).1 hk'
      with ⟨rfl, hi'⟩ | ⟨-, hold'⟩
    · rfl
    · exact ((hown i hi).2.2 k' hold').symm
    · exact (hown i hi').2.2 k hold
    · exact h.distinct k k' i hold hold'
  fetched := by
    intro k i input hk hinput
    rcases (getElem?_setTask htask).1 hk with ⟨-, hpub⟩ | ⟨hne, hold⟩
    · exact hpublish i input hpub.symm hinput
    · exact h.fetched k i input hold ((hothers k i hne ((holds_of_task hold).2 rfl)).symm.trans hinput)
  ready := hready
  aborted := habort

theorem QueueInv.ready_before {n : ℕ} (hn : v.inputHead.toNat ≤ n) (i : ℕ) (input : InputToFetch)
    (hinput : v.inputs[i]? = some input) (hready : input.ready = true) :
    input.coin = base.peekCoin input.outpoint ∧ i < n :=
  ⟨(h.ready i input hinput hready).1, (h.ready i input hinput hready).2.trans_le hn⟩

/-- Another task holds another input. -/
theorem QueueInv.modify_other {i : ℕ} (hj : v.Holds j i) (f : InputToFetch → InputToFetch) (k i' : ℕ)
    (hne : k ≠ j) (hk : v.Holds k i') : (v.inputs.modify i f)[i']? = v.inputs[i']? := by
  have hi : i ≠ i' := by
    rintro rfl
    exact hne (h.distinct k j i hk hj)
  simp [hi]

/-- The coin is stored in an input that no other task holds. -/
theorem QueueInv.fetch {i : ℕ} (htask : v.futures[j]? = some (.fetching i)) : QueueInv base queue workers ({ v with
      inputs := v.inputs.modify i fun input => { input with coin := v.base.peekCoin input.outpoint } }.setTask j
        (.publishing i)) := by
  have hj : v.Holds j i := (holds_of_task htask).2 rfl
  obtain ⟨hlt, hfalse⟩ := h.held j i hj
  apply h.changeTask htask ((modify_map (by intro _; rfl) _ _).trans h.outpoints) le_rfl
  · exact Or.inr le_rfl
  · intro i' hi
    obtain rfl := Option.some_inj.1 hi
    refine ⟨hlt, ?_, fun k hk => h.distinct k j i hk hj⟩
    rw [← getElem?_map, modify_map (by intro _; rfl), getElem?_map, hfalse]
  · exact h.modify_other hj _
  · intro i' input hpub hinput
    cases hpub
    rcases getElem?_modifyInput.1 hinput with ⟨-, old, -, rfl⟩ | ⟨hne, -⟩
    · rw [h.base_eq]
    · exact absurd rfl hne
  · intro k input hinput htrue
    rcases getElem?_modifyInput.1 hinput with ⟨rfl, old, hold, rfl⟩ | ⟨-, hinput⟩
    · rw [hold] at hfalse
      exact absurd (htrue.symm.trans (Option.some_inj.1 hfalse)) (by decide)
    · exact h.ready k input hinput htrue
  · exact h.aborted

/-- The flag is set once, behind the coin. -/
theorem QueueInv.publish {i : ℕ} (htask : v.futures[j]? = some (.publishing i)) : QueueInv base queue workers ({ v with
      inputs := v.inputs.modify i fun input => { input with ready := true }
      aborted := v.aborted || (v.inputs[i]?).any InputToFetch.ready }.setTask j .loop) := by
  have hj : v.Holds j i := (holds_of_task htask).2 rfl
  obtain ⟨hi, hfalse⟩ := h.held j i hj
  apply h.changeTask htask ((modify_map (by intro _; rfl) _ _).trans h.outpoints) le_rfl
  · exact Or.inr le_rfl
  · intro i' hi
    cases hi
  · exact h.modify_other hj _
  · intro i' input hpub
    cases hpub
  · intro k input hinput htrue
    rcases getElem?_modifyInput.1 hinput with ⟨rfl, old, hold, rfl⟩ | ⟨-, hinput⟩
    · exact ⟨h.fetched j k old htask hold, hi⟩
    · exact h.ready k input hinput htrue
  · obtain ⟨input, hinput, hready⟩ := Option.map_eq_some_iff.1 hfalse
    rw [h.aborted, hinput, Option.any_some, hready, Bool.or_false]

theorem QueueInv.cleared : QueueInv base [] workers v.cleared where
  base_eq := h.base_eq
  outpoints := rfl
  crew := Nat.zero_le _
  head := Nat.zero_le _
  held := by
    intro k i hk
    cases hk
  distinct := by
    intro k k' i hk
    cases hk
  fetched := by
    intro k i input hk
    cases hk
  ready := by
    intro i input hinput
    cases hinput
  aborted := h.aborted

variable (hfit : queue.length + workers < 2 ^ 32)
include hfit

/-- A task that has not ended finds a head that does not wrap. -/
theorem QueueInv.head_succ (htask : v.futures[j]? = some .loop) : (v.inputHead + 1).toNat = v.inputHead.toNat + 1 := by
  have hsum := sum_setTask TaskAt.ended .finished htask
  have hle := sum_ended_le (v.futures.set j .finished)
  rw [length_set] at hle
  have hcrew := h.crew
  have hhead := h.head
  simp only [TaskAt.ended] at hsum
  rw [UInt32.toNat_add, UInt32.toNat_one, Nat.mod_eq_of_lt (by omega)]

/-- The claim behind the last input: the task ends. -/
theorem QueueInv.claimNone (htask : v.futures[j]? = some .loop) :
    QueueInv base queue workers ({ v with inputHead := v.inputHead + 1 }.setTask j .finished) := by
  have hsucc := h.head_succ hfit htask
  have hmoved : v.inputHead.toNat ≤ (v.inputHead + 1).toNat := hsucc ▸ Nat.le_succ _
  apply h.changeTask htask h.outpoints hmoved
  · exact Or.inr hsucc.le
  · intro i hi
    cases hi
  · exact fun _ _ _ _ => rfl
  · intro i input hpub
    cases hpub
  · exact h.ready_before hmoved
  · exact h.aborted

/-- The next input is claimed by one task. -/
theorem QueueInv.claim (htask : v.futures[j]? = some .loop) (hlt : v.inputHead.toNat < v.inputs.length) :
    QueueInv base queue workers ({ v with inputHead := v.inputHead + 1 }.setTask j (.fetching v.inputHead.toNat)) := by
  have hsucc := h.head_succ hfit htask
  have hlength := h.length_eq
  have hmoved : v.inputHead.toNat ≤ (v.inputHead + 1).toNat := hsucc ▸ Nat.le_succ _
  apply h.changeTask htask h.outpoints hmoved (Or.inl (by omega))
  · intro i hi
    obtain rfl := Option.some_inj.1 hi
    refine ⟨hsucc ▸ Nat.lt_succ_self _, ?_, fun k hk => absurd (h.held k _ hk).1 (lt_irrefl _)⟩
    -- an input at the head is not ready
    rw [getElem?_eq_getElem hlt, Option.map_some, Option.some_inj, Bool.eq_false_iff]
    exact fun hready => lt_irrefl _ (h.ready _ _ (getElem?_eq_getElem hlt) hready).2
  · exact fun _ _ _ _ => rfl
  · intro i input hpub
    cases hpub
  · exact h.ready_before hmoved
  · exact h.aborted

/-- Every step of a task keeps the queue in order. -/
theorem QueueInv.processInput (hstep : v.processInput j = some v') : QueueInv base queue workers v' := by
  rcases processInput_cases hstep with ⟨htask, -, rfl⟩ | ⟨htask, hlt, rfl⟩ | ⟨i, htask, rfl⟩ | ⟨i, htask, rfl⟩
  · exact h.claimNone hfit htask
  · exact h.claim hfit htask hlt
  · exact h.fetch htask
  · exact h.publish htask

/-- Each step of a task uses up one unit of work. -/
theorem QueueInv.work (hstep : v.processInput j = some v') : v'.work + 1 = v.work := by
  rcases processInput_cases hstep with ⟨htask, hge, rfl⟩ | ⟨htask, hlt, rfl⟩ | ⟨i, htask, rfl⟩ | ⟨i, htask, rfl⟩
  · have hsum := sum_setTask TaskAt.stepsLeft .finished htask
    simp only [CoinsViewOverlay.work, setTask, h.head_succ hfit htask, TaskAt.stepsLeft] at hsum ⊢
    omega
  · have hsum := sum_setTask TaskAt.stepsLeft (.fetching v.inputHead.toNat) htask
    simp only [CoinsViewOverlay.work, setTask, h.head_succ hfit htask, TaskAt.stepsLeft] at hsum ⊢
    omega
  · have hsum := sum_setTask TaskAt.stepsLeft (.publishing i) htask
    simp only [CoinsViewOverlay.work, setTask, length_modify, TaskAt.stepsLeft] at hsum ⊢
    omega
  · have hsum := sum_setTask TaskAt.stepsLeft .loop htask
    simp only [CoinsViewOverlay.work, setTask, length_modify, TaskAt.stepsLeft] at hsum ⊢
    omega

/-- Moving the head to the end claims nothing. -/
theorem QueueInv.skipRest : QueueInv base queue workers v.skipRest := by
  have hlen : (UInt32.ofNat v.inputs.length).toNat = queue.length := by
    rw [h.length_eq]
    exact UInt32.toNat_ofNat_of_lt' (lt_of_le_of_lt (Nat.le_add_right _ _) hfit)
  exact { h with
      head := by
        rw [CoinsViewOverlay.skipRest, hlen]
        exact Nat.le_add_right _ _
      held := by
        intro k i hk
        obtain ⟨-, hready⟩ := h.held k i hk
        obtain ⟨input, hinput, -⟩ := Option.map_eq_some_iff.1 hready
        refine ⟨?_, hready⟩
        rw [CoinsViewOverlay.skipRest, hlen, ← h.length_eq]
        exact (List.getElem?_eq_some_iff.1 hinput).1
      ready := by
        intro i input hinput hready
        refine ⟨(h.ready i input hinput hready).1, ?_⟩
        rw [CoinsViewOverlay.skipRest, hlen, ← h.length_eq]
        exact (List.getElem?_eq_some_iff.1 hinput).1 }

end

/-- Every step of a task leaves each input before the head taken care of. -/
theorem Covered.processInput (h : Covered v) (hqueue : QueueInv base queue workers v)
    (hfit : queue.length + workers < 2 ^ 32) (hstep : v.processInput j = some v') : Covered v' := by
  have hnonempty : ∀ task : TaskAt, v.inputs ≠ [] → v.futures.set j task ≠ [] := by
    intro task hinputs hnil
    exact h.crewed hinputs ((set_eq_nil_iff j task).1 hnil)
  rcases processInput_cases hstep with ⟨htask, hge, rfl⟩ | ⟨htask, hlt, rfl⟩ | ⟨i, htask, rfl⟩ | ⟨i, htask, rfl⟩
  · have hsucc := hqueue.head_succ hfit htask
    refine ⟨fun i input hinput _ => ?_, fun k _ => ?_, hnonempty _⟩
    · have hi : i < v.inputs.length := (List.getElem?_eq_some_iff.1 hinput).1
      rcases h.claimed i input hinput (hi.trans_le hge) with hready | ⟨k, hk⟩
      · exact Or.inl hready
      · exact Or.inr ⟨k, (holds_setTask htask).2 (Or.inr ⟨hk.ne_loop htask, hk⟩)⟩
    · simpa [setTask, hsucc] using Nat.lt_succ_of_le hge
  · have hsucc := hqueue.head_succ hfit htask
    refine ⟨fun i input hinput hi => ?_, fun k hk => ?_, hnonempty _⟩
    · simp only [setTask, hsucc] at hi
      rcases Nat.lt_succ_iff_lt_or_eq.1 hi with hi | rfl
      · rcases h.claimed i input hinput hi with hready | ⟨k, hk⟩
        · exact Or.inl hready
        · exact Or.inr ⟨k, (holds_setTask htask).2 (Or.inr ⟨hk.ne_loop htask, hk⟩)⟩
      · exact Or.inr ⟨j, (holds_setTask htask).2 (Or.inl ⟨rfl, rfl⟩)⟩
    · rcases (getElem?_setTask htask).1 hk with ⟨-, hfinished⟩ | ⟨-, hold⟩
      · cases hfinished
      · exact absurd (h.late k hold) (Nat.not_lt.2 hlt.le)
  · refine ⟨fun k input hinput hk => ?_, fun k hk => ?_, ?_⟩
    · have hcell : ∃ old, v.inputs[k]? = some old ∧ old.ready = input.ready := by
        rcases getElem?_modifyInput.1 hinput with ⟨-, old, hold, rfl⟩ | ⟨-, hold⟩
        · exact ⟨old, hold, rfl⟩
        · exact ⟨input, hold, rfl⟩
      obtain ⟨old, hold, hsame⟩ := hcell
      rcases h.claimed k old hold hk with hready | ⟨k', hk'⟩
      · exact Or.inl (hsame ▸ hready)
      · refine Or.inr ⟨k', (holds_setTask htask).2 ?_⟩
        by_cases hkj : k' = j
        · subst hkj
          exact Or.inl ⟨rfl, (holds_of_task htask).1 hk'⟩
        · exact Or.inr ⟨hkj, hk'⟩
    · rcases (getElem?_setTask htask).1 hk with ⟨-, hfinished⟩ | ⟨-, hold⟩
      · cases hfinished
      · simpa [setTask] using h.late k hold
    · simpa [setTask] using hnonempty (.publishing i)
  · refine ⟨fun k input hinput hk => ?_, fun k hk => ?_, ?_⟩
    · rcases getElem?_modifyInput.1 hinput with ⟨-, old, -, rfl⟩ | ⟨hne, hold⟩
      · exact Or.inl rfl
      · rcases h.claimed k input hold hk with hready | ⟨k', hk'⟩
        · exact Or.inl hready
        · refine Or.inr ⟨k', (holds_setTask htask).2 (Or.inr ⟨?_, hk'⟩)⟩
          rintro rfl
          exact hne (Option.some_inj.1 ((holds_of_task htask).1 hk')).symm
    · rcases (getElem?_setTask htask).1 hk with ⟨-, hfinished⟩ | ⟨-, hold⟩
      · cases hfinished
      · simpa [setTask] using h.late k hold
    · simpa [setTask] using hnonempty .loop

end

/-! ## The main thread -/

section
variable {ε α : Type} {base : CoinsStack} {queue : List COutPoint} {workers : ℕ} {program : Calls CoinsCall ε α}
  {s s' : OverlayState ε α}

/-- the answers so far, then those to the rest of the program, are the answers to the program -/
structure Follows (base : CoinsStack) (queue : List COutPoint) (program : Calls CoinsCall ε α)
    (log : List (Answered CoinsCall)) (cache : CCoinsViewCache) (m : Calls CoinsCall ε α) (rest : List COutPoint) :
    Prop where
  log_eq : log ++ m.log (onQueue base.peekCoin) ⟨cache, rest⟩ =
    program.log (onQueue base.peekCoin) ⟨CCoinsViewCache.empty, queue⟩
  run_eq : m.run (onQueue base.peekCoin) ⟨cache, rest⟩ =
    program.run (onQueue base.peekCoin) ⟨CCoinsViewCache.empty, queue⟩

/-- what holds in every state of a run -/
def OverlayInv (base : CoinsStack) (queue : List COutPoint) (workers : ℕ) (program : Calls CoinsCall ε α)
    (s : OverlayState ε α) : Prop :=
  match s.main with
  | .running m => QueueInv base queue workers s.view ∧ Covered s.view ∧ s.warned = false ∧
      s.view.inputTail.toNat ≤ queue.length ∧
      Follows base queue program s.log s.view.cache m (queue.drop s.view.inputTail.toNat)
  | .waiting i outpoint c k => QueueInv base queue workers s.view ∧ Covered s.view ∧ s.warned = false ∧
      s.view.inputTail.toNat = i + 1 ∧ queue[i]? = some outpoint ∧ c.fetched = some outpoint ∧
      s.view.cache.cacheCoins.lookup outpoint = none ∧
      Follows base queue program s.log s.view.cache (.call c k) (queue.drop i)
  | .stopping r => QueueInv base queue workers s.view ∧
      ∃ rest, Follows base queue program s.log s.view.cache (Calls.lift r) rest ∧ s.warned = (r.isOk && !rest.isEmpty)
  | .stopped r => QueueInv base [] workers s.view ∧
      ∃ rest, Follows base queue program s.log s.view.cache (Calls.lift r) rest ∧ s.warned = (r.isOk && !rest.isEmpty)

variable {it : Option CCoinsCacheEntry × CCoinsViewCache} {β : Type} {k : β → Calls CoinsCall ε α} {c : CoinsCall β}
  {v : CoinsViewOverlay}

/-- A call ends as it does without threads. -/
theorem Follows.answer {rest rest' : List COutPoint}
    (h : Follows base queue program s.log s.view.cache (.call c k) rest) (hbase : s.view.base = base)
    (hcall : onQueue base.peekCoin β c ⟨s.view.cache, rest⟩ = Prefetched.answer base.peekCoin c it rest') :
    Follows base queue program (s.answer c k it).log (s.answer c k it).view.cache
    (k (c.finish base.peekCoin it.1 it.2).1) rest' := by
  obtain ⟨hlog, hrun⟩ := h
  simp only [Calls.log, Calls.run, hcall, Prefetched.answer] at hlog hrun
  refine ⟨?_, ?_⟩
  · simpa [OverlayState.answer, hbase] using hlog
  · simpa [OverlayState.answer, hbase] using hrun

/-- Neither the tasks nor the queue are changed by the end of a call. -/
theorem OverlayInv.answer {rest : List COutPoint} (hqueue : QueueInv base queue workers s.view)
    (hcovered : Covered s.view) (hwarned : s.warned = false) (htail : s.view.inputTail.toNat ≤ queue.length)
    (h : Follows base queue program s.log s.view.cache (.call c k) rest)
    (hcall : onQueue base.peekCoin β c ⟨s.view.cache, rest⟩ =
      Prefetched.answer base.peekCoin c it (queue.drop s.view.inputTail.toNat)) :
    OverlayInv base queue workers program (s.answer c k it) := by
  have hfollows := h.answer hqueue.base_eq hcall
  rw [← hqueue.base_eq] at hfollows
  exact ⟨{ hqueue with }, { hcovered with }, hwarned, htail, hqueue.base_eq ▸ hfollows⟩

theorem QueueInv.getElem? (h : QueueInv base queue workers v) (i : ℕ) :
    (v.inputs[i]?).map InputToFetch.outpoint = queue[i]? := by
  rw [← h.outpoints, getElem?_map]

theorem QueueInv.atTail_iff (h : QueueInv base queue workers v) {o : COutPoint} :
    v.atTail o = true ↔ queue[v.inputTail.toNat]? = some o := by
  rw [← h.getElem?, atTail]
  cases v.inputs[v.inputTail.toNat]? with
  | none => simp
  | some input => simp

/-- The main thread makes a call: it is answered, or it waits for the input at the end of the queue. -/
theorem OverlayInv.call (hfit : queue.length + workers < 2 ^ 32) (hqueue : QueueInv base queue workers s.view)
    (hcovered : Covered s.view) (hwarned : s.warned = false) (htail : s.view.inputTail.toNat ≤ queue.length)
    (h : Follows base queue program s.log s.view.cache (.call c k) (queue.drop s.view.inputTail.toNat)) :
    OverlayInv base queue workers program (s.call c k) := by
  unfold OverlayState.call
  cases hc : c.fetched with
  | none => exact .answer hqueue hcovered hwarned htail h (onQueue_direct hc)
  | some o =>
    simp only
    cases hit : s.view.cache.cacheCoins.lookup o with
    | some it => exact .answer hqueue hcovered hwarned htail h (onQueue_cached hc hit)
    | none =>
      have hfront : (queue.drop s.view.inputTail.toNat).head? = queue[s.view.inputTail.toNat]? := head?_drop
      cases hat : s.view.atTail o with
      | true =>
        have ho := hqueue.atTail_iff.1 hat
        have hlt : s.view.inputTail.toNat < queue.length := (List.getElem?_eq_some_iff.1 ho).1
        have hsucc : (s.view.inputTail + 1).toNat = s.view.inputTail.toNat + 1 := by
          rw [UInt32.toNat_add, UInt32.toNat_one, Nat.mod_eq_of_lt (by omega)]
        exact ⟨{ hqueue with }, { hcovered with }, hwarned, hsucc, ho, hc, hit, h⟩
      | false =>
        have hskip : takeFront (queue.drop s.view.inputTail.toNat) o = queue.drop s.view.inputTail.toNat := by
          rw [takeFront, hfront, if_neg]
          intro ho
          rw [hqueue.atTail_iff.2 ho] at hat
          cases hat
        have hmissing : onQueue base.peekCoin β c ⟨s.view.cache, queue.drop s.view.inputTail.toNat⟩ = _ :=
          onQueue_missing hc hit
        rw [hskip] at hmissing
        have hanswer := OverlayInv.answer hqueue hcovered hwarned htail h hmissing
        simpa only [Bool.false_eq_true, if_false, hqueue.base_eq] using hanswer

/-- Every step of a task keeps the invariant. -/
theorem OverlayInv.task {j : ℕ} {view : CoinsViewOverlay} (hfit : queue.length + workers < 2 ^ 32)
    (h : OverlayInv base queue workers program s) (hview : s.view.processInput j = some view) :
    OverlayInv base queue workers program { s with view } := by
  obtain ⟨hcache, htail⟩ := processInput_frame hview
  unfold OverlayInv at h ⊢
  cases hmain : s.main with
  | running m =>
    simp only [hmain, htail, hcache] at h ⊢
    obtain ⟨hqueue, hcovered, hwarned, hle, hfollows⟩ := h
    exact ⟨hqueue.processInput hfit hview, hcovered.processInput hqueue hfit hview, hwarned, hle, hfollows⟩
  | waiting i o c k =>
    simp only [hmain, htail, hcache] at h ⊢
    obtain ⟨hqueue, hcovered, hwarned, hi, ho, hc, hit, hfollows⟩ := h
    exact ⟨hqueue.processInput hfit hview, hcovered.processInput hqueue hfit hview, hwarned, hi, ho, hc, hit, hfollows⟩
  | stopping r =>
    simp only [hmain, hcache] at h ⊢
    obtain ⟨hqueue, rest, hfollows, hwarned⟩ := h
    exact ⟨hqueue.processInput hfit hview, rest, hfollows, hwarned⟩
  | stopped r =>
    simp only [hmain, hcache] at h ⊢
    obtain ⟨hqueue, rest, hfollows, hwarned⟩ := h
    have hfit' : ([] : List COutPoint).length + workers < 2 ^ 32 := by
      rw [length_nil]
      omega
    exact ⟨hqueue.processInput hfit' hview, rest, hfollows, hwarned⟩

/-- Every step of the main thread keeps the invariant. -/
theorem OverlayInv.mainStep (hfit : queue.length + workers < 2 ^ 32) (h : OverlayInv base queue workers program s)
    (hstep : s.mainStep = some s') : OverlayInv base queue workers program s' := by
  unfold OverlayInv at h
  unfold OverlayState.mainStep at hstep
  cases hmain : s.main with
  | running m =>
    simp only [hmain] at h hstep
    obtain ⟨hqueue, hcovered, hwarned, hle, hfollows⟩ := h
    cases m with
    | done a =>
      obtain rfl := Option.some_inj.1 hstep
      refine ⟨hqueue.skipRest hfit, _, hfollows, ?_⟩
      -- all inputs are consumed iff none is left of the queue
      have hconsumed : s.view.allInputsConsumed = (queue.drop s.view.inputTail.toNat).isEmpty := by
        rw [allInputsConsumed, hqueue.length_eq, Bool.eq_iff_iff, beq_iff_eq, List.isEmpty_iff, drop_eq_nil_iff]
        omega
      simp [hconsumed, Except.isOk, Except.toBool]
    | fail e =>
      obtain rfl := Option.some_inj.1 hstep
      exact ⟨hqueue.skipRest hfit, _, hfollows, hwarned⟩
    | call c k =>
      obtain rfl := Option.some_inj.1 hstep
      exact OverlayInv.call hfit hqueue hcovered hwarned hle hfollows
  | waiting i o c k =>
    simp only [hmain] at h hstep
    obtain ⟨hqueue, hcovered, hwarned, htail, ho, hc, hit, hfollows⟩ := h
    cases hinput : s.view.inputs[i]? with
    | none =>
      rw [hinput] at hstep
      cases hstep
    | some input =>
      simp only [hinput] at hstep
      split_ifs at hstep with hready
      obtain rfl := Option.some_inj.1 hstep
      have hout := hqueue.getElem? i
      rw [hinput, ho] at hout
      have hcoin : input.coin = base.peekCoin o := by
        rw [(hqueue.ready i input hinput hready).1, Option.some_inj.1 hout]
      have hdrop : takeFront (queue.drop i) o = queue.drop s.view.inputTail.toNat := by
        rw [takeFront, head?_drop, if_pos ho, tail_drop, htail]
      have hmissing : onQueue base.peekCoin _ c ⟨s.view.cache, queue.drop i⟩ = _ := onQueue_missing hc hit
      rw [hdrop, ← hcoin] at hmissing
      have hle : s.view.inputTail.toNat ≤ queue.length := by
        rw [htail]
        exact (List.getElem?_eq_some_iff.1 ho).1
      exact .answer hqueue hcovered hwarned hle hfollows hmissing
  | stopping r =>
    simp only [hmain] at h hstep
    obtain ⟨hqueue, rest, hfollows, hwarned⟩ := h
    split_ifs at hstep
    obtain rfl := Option.some_inj.1 hstep
    exact ⟨hqueue.cleared, rest, hfollows, hwarned⟩
  | stopped r =>
    simp only [hmain] at hstep
    cases hstep

theorem OverlayInv.step {e : OverlayEvent} (hfit : queue.length + workers < 2 ^ 32)
    (h : OverlayInv base queue workers program s) (hstep : s.step e = some s') :
    OverlayInv base queue workers program s' := by
  cases e with
  | task j =>
    obtain ⟨view, hview, rfl⟩ := Option.map_eq_some_iff.1 hstep
    exact h.task hfit hview
  | main => exact h.mainStep hfit hstep

end

/-! ## Runs -/

section
variable {ε α : Type} {base : CoinsStack} {block : CBlock} {workers : ℕ} {submitted : Bool}

theorem startFetching_tasks {j : ℕ} {task : TaskAt}
    (h : (startFetching base block workers submitted).futures[j]? = some task) : task = .loop := by
  rw [startFetching] at h
  split_ifs at h
  · cases h
  · exact eq_of_mem_replicate (mem_of_getElem? h)

theorem startFetching_holds {j i : ℕ} : ¬ (startFetching base block workers submitted).Holds j i := by
  intro h
  obtain ⟨task, htask, hi⟩ := Option.bind_eq_some_iff.1 h
  rw [startFetching_tasks htask] at hi
  cases hi

theorem startFetching_inv (base : CoinsStack) (block : CBlock) (workers : ℕ) (submitted : Bool) :
    QueueInv base (queue block workers submitted) workers (startFetching base block workers submitted) where
  base_eq := rfl
  outpoints := by
    rw [startFetching, map_map]
    exact map_id _
  crew := by
    rw [startFetching]
    split_ifs
    · exact Nat.zero_le _
    · exact (length_replicate ..).le
  head := Nat.zero_le _
  held := by
    intro j i h
    exact absurd h startFetching_holds
  distinct := by
    intro j j' i h
    exact absurd h startFetching_holds
  fetched := by
    intro j i input h
    cases startFetching_tasks h
  ready := by
    intro i input hinput hready
    rw [startFetching, getElem?_map, Option.map_eq_some_iff] at hinput
    obtain ⟨o, -, rfl⟩ := hinput
    cases hready
  aborted := rfl

theorem startFetching_covered (base : CoinsStack) (block : CBlock) (workers : ℕ) (submitted : Bool) :
    Covered (startFetching base block workers submitted) where
  claimed := by
    intro i input _ hi
    exact absurd hi (Nat.not_lt_zero i)
  late := by
    intro j h
    cases startFetching_tasks h
  crewed := by
    intro hinputs
    have hqueue : queue block workers submitted ≠ [] := by
      intro hnil
      exact hinputs (by rw [startFetching, hnil, map_nil])
    have hworkers : workers ≠ 0 := by
      rintro rfl
      exact hqueue rfl
    rw [startFetching, if_neg (by rwa [List.isEmpty_iff])]
    simpa using hworkers

/-- In every run of every program the invariant holds. -/
theorem overlay_inv {program : Calls CoinsCall ε α} {s : OverlayState ε α} {es : List OverlayEvent}
    (hfit : (queue block workers submitted).length + workers < 2 ^ 32)
    (h : runs OverlayState.step (OverlayState.start base block workers submitted program) es = some s) :
    OverlayInv base (queue block workers submitted) workers program s := by
  refine runs_inv (fun s e t hs hstep => OverlayInv.step hfit hs hstep) ?_ h
  exact ⟨startFetching_inv base block workers submitted, startFetching_covered base block workers submitted,
    rfl, Nat.zero_le _, rfl, rfl⟩

/-! ## What a run shows -/

/-- the input is ready, a task holds it, or it is still to be claimed and all tasks are there to claim it -/
def CoinsViewOverlay.Provided (v : CoinsViewOverlay) (i : ℕ) : Prop :=
  (v.inputs[i]?).any InputToFetch.ready = true ∨ (∃ j, v.Holds j i) ∨
    v.inputHead.toNat ≤ i ∧ v.futures ≠ [] ∧ ∀ task ∈ v.futures, task ≠ .finished

/-- the main thread can go on -/
def OverlayState.CanGoOn (s : OverlayState ε α) : Prop := ∃ s', s.step .main = some s'

section
variable {queue : List COutPoint} {program : Calls CoinsCall ε α} {s : OverlayState ε α} {β : Type} {i : ℕ}
  {o : COutPoint} {c : CoinsCall β} {k : β → Calls CoinsCall ε α}

theorem Covered.provided {v : CoinsViewOverlay} (h : Covered v) {input : InputToFetch}
    (hinput : v.inputs[i]? = some input) : v.Provided i := by
  rcases Nat.lt_or_ge i v.inputHead.toNat with hlt | hge
  · rcases h.claimed i input hinput hlt with hready | hheld
    · exact Or.inl (by rw [hinput]; exact hready)
    · exact Or.inr (Or.inl hheld)
  · have hi : i < v.inputs.length := (List.getElem?_eq_some_iff.1 hinput).1
    refine Or.inr (Or.inr ⟨hge, h.crewed (length_pos_iff.1 (Nat.zero_lt_of_lt hi)), ?_⟩)
    rintro task htask rfl
    obtain ⟨j, hj⟩ := mem_iff_getElem?.1 htask
    have hlate := h.late j hj
    omega

/-- An input that the main thread waits for is or will be fetched. -/
theorem OverlayInv.awaited (h : OverlayInv base queue workers program s) (hmain : s.main = .waiting i o c k) :
    queue[i]? = some o ∧ s.view.Provided i := by
  rw [OverlayInv, hmain] at h
  obtain ⟨hqueue, hcovered, -, -, ho, -⟩ := h
  have hout := hqueue.getElem? i
  rw [ho, Option.map_eq_some_iff] at hout
  obtain ⟨input, hinput, -⟩ := hout
  exact ⟨ho, hcovered.provided hinput⟩

/-- Where no task can move, the input that the main thread waits for is ready. -/
theorem OverlayInv.canGoOn (h : OverlayInv base queue workers program s) (hmain : s.main = .waiting i o c k)
    (hidle : ∀ j, s.step (.task j) = none) : s.CanGoOn := by
  have hended : ∀ (j : ℕ) (task : TaskAt), s.view.futures[j]? = some task → task = .finished := by
    intro j task htask
    exact processInput_none htask (Option.map_eq_none_iff.1 (hidle j))
  obtain ⟨-, hready | ⟨j, hj⟩ | ⟨-, hcrew, hrunning⟩⟩ := h.awaited hmain
  · cases hinput : s.view.inputs[i]? with
    | none =>
      rw [hinput] at hready
      cases hready
    | some input =>
      rw [hinput, Option.any_some] at hready
      refine ⟨s.answer c k (s.view.cache.emplace o input.coin), ?_⟩
      simp only [OverlayState.step, OverlayState.mainStep, hmain, hinput, hready, if_true]
  · obtain ⟨task, htask, hi⟩ := Option.bind_eq_some_iff.1 hj
    rw [hended j task htask] at hi
    cases hi
  · obtain ⟨task, htask⟩ := exists_mem_of_ne_nil _ hcrew
    obtain ⟨j, hj⟩ := mem_iff_getElem?.1 htask
    exact absurd (hended j task hj) (hrunning task htask)

/-- Steps of tasks alone: the main thread stays where it is, and each uses up work. -/
theorem OverlayInv.taskRun {t : OverlayState ε α} {es : List OverlayEvent} (hfit : queue.length + workers < 2 ^ 32)
    (h : OverlayInv base queue workers program s) (hmain : s.main = .waiting i o c k) (hes : ∀ e ∈ es, ∃ j, e = .task j)
    (hrun : runs OverlayState.step s es = some t) :
    OverlayInv base queue workers program t ∧ t.main = .waiting i o c k ∧ es.length + t.view.work = s.view.work := by
  induction es generalizing s with
  | nil =>
    obtain rfl : s = t := Option.some_inj.1 hrun
    exact ⟨h, hmain, Nat.zero_add _⟩
  | cons e es ih =>
    obtain ⟨⟨j, rfl⟩, htasks⟩ := forall_mem_cons.1 hes
    obtain ⟨m, hm, hrest⟩ := runs_cons.1 hrun
    obtain ⟨view, hview, rfl⟩ := Option.map_eq_some_iff.1 hm
    have hqueue : QueueInv base queue workers s.view := by
      rw [OverlayInv, hmain] at h
      exact h.1
    obtain ⟨ht, hend, hwork⟩ := ih (h.task hfit hview) hmain htasks hrest
    refine ⟨ht, hend, ?_⟩
    have hfirst := hqueue.work hfit hview
    simp only [length_cons] at hwork ⊢
    omega

/-- What holds wherever the main thread is: no assertion failed, the answers are those of the program, and the warning
is given only to a program that ended with inputs left. -/
theorem OverlayInv.everywhere (h : OverlayInv base queue workers program s) :
    s.view.aborted = false ∧ ∃ m rest, Follows base queue program s.log s.view.cache m rest ∧
      (s.warned = true → ∃ a, m = .done a ∧ rest ≠ []) := by
  have hleft : ∀ (r : Except ε α) (rest : List COutPoint), s.warned = (r.isOk && !rest.isEmpty) → s.warned = true →
      ∃ a, Calls.lift r = (.done a : Calls CoinsCall ε α) ∧ rest ≠ [] := by
    intro r rest hwarned htrue
    rw [hwarned] at htrue
    cases r with
    | error e => cases htrue
    | ok a => exact ⟨a, rfl, by simpa [Except.isOk, Except.toBool] using htrue⟩
  unfold OverlayInv at h
  cases hmain : s.main with
  | running m =>
    simp only [hmain] at h
    obtain ⟨hqueue, -, hwarned, -, hfollows⟩ := h
    exact ⟨hqueue.aborted, m, _, hfollows, fun htrue => absurd htrue (by simp [hwarned])⟩
  | waiting i o c k =>
    simp only [hmain] at h
    obtain ⟨hqueue, -, hwarned, -, -, -, -, hfollows⟩ := h
    exact ⟨hqueue.aborted, _, _, hfollows, fun htrue => absurd htrue (by simp [hwarned])⟩
  | stopping r =>
    simp only [hmain] at h
    obtain ⟨hqueue, rest, hfollows, hwarned⟩ := h
    exact ⟨hqueue.aborted, _, rest, hfollows, hleft r rest hwarned⟩
  | stopped r =>
    simp only [hmain] at h
    obtain ⟨hqueue, rest, hfollows, hwarned⟩ := h
    exact ⟨hqueue.aborted, _, rest, hfollows, hleft r rest hwarned⟩

/-- The answers so far are the first answers of a plain cache. -/
theorem OverlayInv.log_isInitial (hbase : base.BaseUnspent) (h : OverlayInv base queue workers program s) :
    s.log <+: program.log onCache (CCoinsViewCache.empty, base) := by
  have hsame : SameCache base.peekCoin ⟨CCoinsViewCache.empty, queue⟩ (CCoinsViewCache.empty, base) := ⟨rfl, hbase, rfl⟩
  obtain ⟨-, m, rest, hfollows, -⟩ := h.everywhere
  rw [← Calls.log_sim (onQueue_simulates base.peekCoin) program hsame]
  exact ⟨_, hfollows.log_eq⟩

/-- The program ends as it does on a plain cache, with the same cache. -/
theorem OverlayInv.ended (hbase : base.BaseUnspent) (h : OverlayInv base queue workers program s) {r : Except ε α}
    (hmain : s.main = .stopped r) : s.log = program.log onCache (CCoinsViewCache.empty, base) ∧
      r = (program.run onCache (CCoinsViewCache.empty, base)).1 ∧
      s.view.cache = (program.run onCache (CCoinsViewCache.empty, base)).2.1 := by
  have hsame : SameCache base.peekCoin ⟨CCoinsViewCache.empty, queue⟩ (CCoinsViewCache.empty, base) := ⟨rfl, hbase, rfl⟩
  obtain ⟨hresult, hcache, -⟩ := Calls.run_sim (onQueue_simulates base.peekCoin) program hsame
  rw [OverlayInv, hmain] at h
  obtain ⟨-, rest, ⟨hlog, hrun⟩, -⟩ := h
  rw [Calls.run_lift] at hrun
  rw [← hrun] at hresult hcache
  refine ⟨?_, hresult, hcache⟩
  rw [← Calls.log_sim (onQueue_simulates base.peekCoin) program hsame, ← hlog]
  cases r <;> simp [Calls.lift, Calls.log]

end

end

end

end ConnectCoin
