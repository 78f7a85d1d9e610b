/-
Locked coins of a wallet (`LockCoin`, `OwnsCoinLock`, `UnlockCoin`, `UnlockAllCoins`, `IsLockedCoin` in
`wallet/wallet.cpp`).

- `CoinLocks π`: `m_locked_coins` and `m_coin_lock_owners`; an owner is a pointer of type π. A coin with an owner is
  locked: every function keeps that, so it is a field. What the database answers to a write or an erasure is an
  argument.
- `CoinLock`, `lockOf`: the two maps as one, from a coin to its lock with its owner, none for a lock of the user.
Results: `lockOf` determines the maps (`ext_lockOf`), and says of each function what it does to every coin.
`Reserved.release`: when the locks that one owner took on coins that were free are released again, the maps are what
they were.
-/
import ConnectCoin.Core.Transaction
import ConnectCoin.Lib.Ledger

namespace ConnectCoin.Wallet

open Lib List Option

variable {π : Type}

/-! ## The two maps -/

structure CoinLocks (π : Type) where
  lockedCoins : Ledger COutPoint Bool
  coinLockOwners : Ledger COutPoint π
  owned_locked : ∀ o p, coinLockOwners.lookup o = some p → o ∈ lockedCoins

/-- one lock: whether it is in the database, and its owner -/
structure CoinLock (π : Type) where
  persistent : Bool
  owner : Option π
deriving DecidableEq

namespace CoinLocks

/-- the lock of a coin -/
def lockOf (w : CoinLocks π) (o : COutPoint) : Option (CoinLock π) :=
  (w.lockedCoins.lookup o).map fun persistent => ⟨persistent, w.coinLockOwners.lookup o⟩

/-- The locks of the coins determine the two maps. -/
theorem ext_lockOf {w v : CoinLocks π} (h : ∀ o, w.lockOf o = v.lockOf o) : w = v := by
  have hlocked : w.lockedCoins = v.lockedCoins := by
    refine Finmap.ext_lookup fun o => ?_
    have hpersistent := congrArg (Option.map CoinLock.persistent) (h o)
    simpa [lockOf, Option.map_map, Function.comp_def] using hpersistent
  have howners : w.coinLockOwners = v.coinLockOwners := by
    refine Finmap.ext_lookup fun o => ?_
    cases hlock : w.lockedCoins.lookup o with
    | none =>
      -- no owner without a lock
      have hfree : ∀ u : CoinLocks π, u.lockedCoins.lookup o = none → u.coinLockOwners.lookup o = none := by
        intro u hu
        by_contra hsome
        obtain ⟨p, hp⟩ := ne_none_iff_exists'.1 hsome
        exact Finmap.lookup_eq_none.1 hu (u.owned_locked o p hp)
      rw [hfree w hlock, hfree v (by rw [← hlocked]; exact hlock)]
    | some persistent =>
      have hsame := h o
      rw [lockOf, lockOf, ← hlocked, hlock] at hsame
      exact congrArg CoinLock.owner (some_inj.1 hsame)
  cases w
  cases v
  cases hlocked
  cases howners
  rfl

/-! ## Locking and unlocking -/

/-- `IsLockedCoin` -/
def isLockedCoin (w : CoinLocks π) (output : COutPoint) : Bool := (w.lockedCoins.lookup output).isSome

variable (p : π) (w : CoinLocks π) (output o : COutPoint)

theorem isLockedCoin_eq : w.isLockedCoin o = (w.lockOf o).isSome := by
  rw [isLockedCoin, lockOf, isSome_map]

/-- `LoadLockedCoin`: a coin that is locked keeps its entry -/
def loadLockedCoin (m : Ledger COutPoint Bool) (coin : COutPoint) (persistent : Bool) : Ledger COutPoint Bool :=
  if (m.lookup coin).isSome then m else m.insert coin persistent

theorem lookup_loadLockedCoin (m : Ledger COutPoint Bool) (coin : COutPoint) (persistent : Bool) (o : COutPoint) :
    (loadLockedCoin m coin persistent).lookup o = if o = coin then some ((m.lookup coin).getD persistent) else
      m.lookup o := by
  unfold loadLockedCoin
  by_cases ho : o = coin
  · subst ho
    rw [if_pos rfl]
    cases hlock : m.lookup o with
    | none => simp
    | some b => simpa using hlock
  · rw [if_neg ho]
    split_ifs
    · rfl
    · rw [Finmap.lookup_insert_of_ne _ ho]

/-- the owners after `LockCoin` -/
def setOwner (m : Ledger COutPoint π) (output : COutPoint) (owner : Option π) : Ledger COutPoint π :=
  match owner with
  | none => m.erase output
  | some p => (m.erase output).insert output p

theorem lookup_setOwner (m : Ledger COutPoint π) (output : COutPoint) (owner : Option π) (o : COutPoint) :
    (setOwner m output owner).lookup o = if o = output then owner else m.lookup o := by
  cases owner with
  | none => exact lookup_erase_if m output o
  | some p =>
    rw [setOwner, lookup_insert_if, lookup_erase_if]
    split_ifs <;> rfl

/-- the maps after `LockCoin` -/
def locked (w : CoinLocks π) (output : COutPoint) (persist : Bool) (owner : Option π) : CoinLocks π where
  lockedCoins := loadLockedCoin w.lockedCoins output persist
  coinLockOwners := setOwner w.coinLockOwners output owner
  owned_locked := by
    intro o p hp
    rw [lookup_setOwner] at hp
    refine Finmap.mem_iff.2 ?_
    rw [lookup_loadLockedCoin]
    split_ifs at hp ⊢ with ho
    · exact ⟨_, rfl⟩
    · exact Finmap.mem_iff.1 (w.owned_locked o p hp)

/-- `LockCoin`; written is what `WriteLockedUTXO` returns -/
def lockCoin (persist : Bool) (owner : Option π) (written : Bool) : Bool × CoinLocks π :=
  (if persist then written else true, w.locked output persist owner)

/-- the maps without a coin -/
def unlocked (w : CoinLocks π) (output : COutPoint) : CoinLocks π where
  lockedCoins := w.lockedCoins.erase output
  coinLockOwners := w.coinLockOwners.erase output
  owned_locked := by
    intro o p hp
    rw [lookup_erase_if] at hp
    split_ifs at hp with ho
    exact Finmap.mem_erase.2 ⟨ho, w.owned_locked o p hp⟩

/-- `UnlockAllCoins` -/
def unlockAllCoins : CoinLocks π := ⟨∅, ∅, fun o p hp => by simp at hp⟩

theorem lockOf_locked (persist : Bool) (owner : Option π) (o : COutPoint) : (w.locked output persist owner).lockOf o =
      if o = output then some ⟨(w.lockedCoins.lookup output).getD persist, owner⟩ else w.lockOf o := by
  rw [lockOf, locked, lookup_loadLockedCoin, lookup_setOwner]
  split_ifs
  · rfl
  · rfl

theorem lockOf_unlocked : (w.unlocked output).lockOf o = if o = output then none else w.lockOf o := by
  unfold lockOf unlocked
  split_ifs with ho
  · rw [ho]
    simp
  · simp [Finmap.lookup_erase_ne ho]

theorem lockOf_unlockAllCoins : (unlockAllCoins : CoinLocks π).lockOf o = none := by
  simp [lockOf, unlockAllCoins]

/-! ## Reservations -/

/-- v is w with free coins locked for p -/
structure Reserved (p : π) (w v : CoinLocks π) (coins : List COutPoint) : Prop where
  nodup : coins.Nodup
  free : ∀ o ∈ coins, w.lockOf o = none
  locks : ∀ o, v.lockOf o = if o ∈ coins then some ⟨false, some p⟩ else w.lockOf o

theorem Reserved.none : Reserved p w w [] where
  nodup := nodup_nil
  free := by simp
  locks := by simp

/-- One more coin that was free. -/
theorem Reserved.lock {p : π} {w : CoinLocks π} {output : COutPoint} (h : w.isLockedCoin output = false) :
    Reserved p w (w.locked output false (some p)) [output] where
  nodup := nodup_singleton _
  free := by
    rw [isLockedCoin_eq, isSome_eq_false_iff, isNone_iff_eq_none] at h
    simpa using h
  locks := by
    intro o
    have hfree : w.lockedCoins.lookup output = Option.none := by
      rwa [isLockedCoin, isSome_eq_false_iff, isNone_iff_eq_none] at h
    rw [lockOf_locked, hfree]
    simp

theorem Reserved.trans {p : π} {w v u : CoinLocks π} {coins coins' : List COutPoint} (h : Reserved p w v coins)
    (h' : Reserved p v u coins') : Reserved p w u (coins ++ coins') where
  nodup := by
    refine nodup_append.2 ⟨h.nodup, h'.nodup, fun o ho o' ho' heq => ?_⟩
    have hfree := h'.free o' ho'
    rw [h.locks, if_pos (heq ▸ ho)] at hfree
    cases hfree
  free := by
    intro o ho
    rcases mem_append.1 ho with ho | ho
    · exact h.free o ho
    · have hfree := h'.free o ho
      rw [h.locks] at hfree
      split_ifs at hfree
      exact hfree
  locks := by
    intro o
    rw [h'.locks, h.locks]
    by_cases ho' : o ∈ coins'
    · rw [if_pos ho', if_pos (mem_append_right _ ho')]
    · by_cases ho : o ∈ coins
      · rw [if_neg ho', if_pos ho, if_pos (mem_append_left _ ho)]
      · rw [if_neg ho', if_neg ho, if_neg (by simp [ho, ho'])]

/-! ## Unlocking -/

variable [DecidableEq π]

/-- `OwnsCoinLock` -/
def ownsCoinLock (owner : Option π) : Bool := owner.isSome && w.coinLockOwners.lookup output == owner

/-- `UnlockCoin`; erased is what `EraseLockedUTXO` returns -/
def unlockCoin (owner : Option π) (erased : Bool) : Bool × CoinLocks π :=
  if owner.isSome && !w.ownsCoinLock output owner then (false, w)
  else (if w.lockedCoins.lookup output = some true then erased else true, w.unlocked output)

theorem ownsCoinLock_iff {w : CoinLocks π} {o : COutPoint} {p : π} :
    w.ownsCoinLock o (some p) = true ↔ ∃ lock, w.lockOf o = some lock ∧ lock.owner = some p := by
  rw [ownsCoinLock, isSome_some, Bool.true_and, beq_iff_eq]
  apply Iff.intro
  · intro h
    obtain ⟨persistent, hlock⟩ := Finmap.mem_iff.1 (w.owned_locked o p h)
    exact ⟨⟨persistent, some p⟩, by rw [lockOf, hlock, h]; rfl, rfl⟩
  · rintro ⟨lock, hlock, howner⟩
    obtain ⟨persistent, -, rfl⟩ := map_eq_some_iff.1 hlock
    exact howner

/-- An owner unlocks what it owns and nothing else. -/
theorem lockOf_unlockCoin_owner (p : π) (erased : Bool) (o : COutPoint) :
    (w.unlockCoin output (some p) erased).2.lockOf o =
      if o = output ∧ w.ownsCoinLock output (some p) = true then none else w.lockOf o := by
  rw [unlockCoin]
  cases howns : w.ownsCoinLock output (some p) with
  | false => simp
  | true => simp [lockOf_unlocked]

/-! ## An owner and its coins -/

/-- `UnlockCoin` by an owner of one coin after the other -/
def unlockAll (p : π) (coins : List COutPoint) (w : CoinLocks π) : CoinLocks π :=
  coins.foldl (fun w o => (w.unlockCoin o (some p) true).2) w

theorem ownsCoinLock_unlockCoin (p : π) (erased : Bool) :
    (w.unlockCoin output (some p) erased).2.ownsCoinLock o (some p) =
    (decide (o ≠ output) && w.ownsCoinLock o (some p)) := by
  rw [Bool.eq_iff_iff, ownsCoinLock_iff, lockOf_unlockCoin_owner, Bool.and_eq_true, decide_eq_true_eq]
  by_cases ho : o = output
  · subst ho
    cases howns : w.ownsCoinLock o (some p) with
    | false =>
      simp only [ne_eq, not_true, false_and, iff_false]
      intro h
      rw [ownsCoinLock_iff.2 h] at howns
      cases howns
    | true => simp
  · simp [ho, ownsCoinLock_iff]

/-- Released are the coins of the list that the owner holds. -/
theorem lockOf_unlockAll (coins : List COutPoint) (w : CoinLocks π) (o : COutPoint) :
    (unlockAll p coins w).lockOf o = if o ∈ coins ∧ w.ownsCoinLock o (some p) = true then none else w.lockOf o := by
  induction coins generalizing w with
  | nil => simp [unlockAll]
  | cons c coins ih =>
    change (unlockAll p coins (w.unlockCoin c (some p) true).2).lockOf o = _
    rw [ih, ownsCoinLock_unlockCoin, lockOf_unlockCoin_owner]
    by_cases ho : o = c
    · subst ho
      simp
    · simp [ho]

/-- Locks taken on free coins and released again leave no trace. -/
theorem Reserved.release {p : π} {w v : CoinLocks π} {coins : List COutPoint} (h : Reserved p w v coins) :
    unlockAll p coins v = w := by
  refine ext_lockOf fun o => ?_
  rw [lockOf_unlockAll]
  by_cases ho : o ∈ coins
  · have howns : v.ownsCoinLock o (some p) = true := ownsCoinLock_iff.2 ⟨_, by rw [h.locks, if_pos ho], rfl⟩
    rw [if_pos ⟨ho, howns⟩, h.free o ho]
  · rw [if_neg fun hboth => ho hboth.1, h.locks, if_neg ho]

end CoinLocks

end ConnectCoin.Wallet
