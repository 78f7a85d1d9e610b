/-
Locked coins and their records in the wallet database (`LockCoin`, `UnlockCoin`, `UnlockAllCoins` in
`wallet/wallet.cpp`, the records that `wallet/walletdb.cpp` loads). Every write succeeds.

- `WalletLocks π`: the locks in memory, and the coins with a lock record. `call`: one call; `after records calls`: the
  wallet that was loaded with these records, after these calls.
- `Unlocks s c o`: the call c, made in s, unlocks the coin o. `StoredLock`: the coin was locked persistently and not
  unlocked since. `Hidden`: it has a record, but its lock in memory says it has none: `LoadLockedCoin` keeps the old
  entry when a coin that was locked in memory only is locked persistently.
Result: `stored_locks_iff`. A coin that was locked persistently has its record. A coin that is not locked has none at
all times, if and only if no call unlocks a coin with a hidden record.
-/
import ConnectCoin.Wallet.CoinLocks

namespace ConnectCoin.Wallet

open Lib List

variable {π : Type}

/-! ## Calls -/

structure WalletLocks (π : Type) where
  locks : CoinLocks π
  stored : Finset COutPoint

inductive LockCall (π : Type) where
  | lock (output : COutPoint) (persist : Bool) (owner : Option π)
  | unlock (output : COutPoint) (owner : Option π)
  | unlockAll

namespace WalletLocks

/-- what memory says of a coin: none if it is not locked, else whether the lock has a record -/
def entry (s : WalletLocks π) (o : COutPoint) : Option Bool := s.locks.lockedCoins.lookup o

/-- the wallet after `LoadLockedCoin` for every record -/
def load (records : List COutPoint) : WalletLocks π :=
  ⟨⟨records.foldl (fun m o => CoinLocks.loadLockedCoin m o true) ∅, ∅, fun o p hp => by simp at hp⟩, records.toFinset⟩

variable (records : List COutPoint)

theorem load_entry (o : COutPoint) : (load records : WalletLocks π).entry o = if o ∈ records then
    some true else none := by
  have hloop : ∀ m : Ledger COutPoint Bool, (records.foldl (fun m o => CoinLocks.loadLockedCoin m o true) m).lookup o =
      if o ∈ records then some ((m.lookup o).getD true) else m.lookup o := by
    induction records with
    | nil => simp
    | cons r records ih =>
      intro m
      rw [foldl_cons, ih, CoinLocks.lookup_loadLockedCoin]
      by_cases ho : o = r
      · subst ho
        simp
      · simp [ho]
  exact (hloop ∅).trans (by simp)

/-- a coin that is not locked has no record -/
def Clean (s : WalletLocks π) : Prop := ∀ o, s.entry o = none → o ∉ s.stored

theorem clean_load : Clean (load records : WalletLocks π) := by
  intro o hfree hmem
  rw [load_entry, if_pos (mem_toFinset.1 hmem)] at hfree
  cases hfree

variable [DecidableEq π]

/-- one call -/
def call (s : WalletLocks π) : LockCall π → WalletLocks π
  | .lock output persist owner =>
    ⟨(s.locks.lockCoin output persist owner true).2, if persist then insert output s.stored else s.stored⟩
  | .unlock output owner =>
    ⟨(s.locks.unlockCoin output owner true).2,
      if (s.locks.unlockCoin output owner true).1 && s.entry output == some true then s.stored.erase
      output else s.stored⟩
  | .unlockAll => ⟨CoinLocks.unlockAllCoins, s.stored.filter fun o => s.entry o ≠ some true⟩

def after (records : List COutPoint) (calls : List (LockCall π)) : WalletLocks π := calls.foldl call (load records)

theorem after_concat (calls : List (LockCall π)) (c : LockCall π) :
    after records (calls ++ [c]) = (after records calls).call c := by
  rw [after, foldl_append]
  rfl

/-- the call unlocks the coin: all are unlocked, or this one, without an owner or with the one that holds it -/
def Unlocks (s : WalletLocks π) (c : LockCall π) (o : COutPoint) : Prop :=
  c = .unlockAll ∨ c = .unlock o none ∨ ∃ p, c = .unlock o (some p) ∧ s.locks.ownsCoinLock o (some p) = true

theorem unlocks_unlock {s : WalletLocks π} {o output : COutPoint} {owner : Option π} :
    Unlocks s (.unlock output owner) o ↔ output = o ∧ (owner.isSome && !s.locks.ownsCoinLock output owner) = false := by
  cases owner with
  | none => simp [Unlocks]
  | some p =>
    simp only [Unlocks, reduceCtorEq, LockCall.unlock.injEq, and_false, false_or, Option.some.injEq, Option.isSome_some,
      Bool.true_and, Bool.not_eq_false']
    constructor
    · rintro ⟨q, ⟨rfl, rfl⟩, howns⟩
      exact ⟨rfl, howns⟩
    · rintro ⟨rfl, howns⟩
      exact ⟨p, ⟨rfl, rfl⟩, howns⟩

/-- What a call does to one coin: it is unlocked, locked, or left as it is. -/
theorem call_cases (s : WalletLocks π) (c : LockCall π) (o : COutPoint) :
    (Unlocks s c o ∧ (s.call c).entry o = none ∧ (o ∈ (s.call c).stored ↔ o ∈ s.stored ∧ s.entry o ≠ some true)) ∨
    (∃ persist owner, c = .lock o persist owner ∧ (s.call c).entry o = some ((s.entry o).getD persist) ∧
      (o ∈ (s.call c).stored ↔ persist = true ∨ o ∈ s.stored)) ∨
    (¬ Unlocks s c o ∧ (s.call c).entry o = s.entry o ∧ (o ∈ (s.call c).stored ↔ o ∈ s.stored)) := by
  cases c with
  | lock output persist owner =>
    by_cases ho : o = output
    · subst ho
      refine Or.inr (Or.inl ⟨persist, owner, rfl, (CoinLocks.lookup_loadLockedCoin _ _ _ _).trans (if_pos rfl), ?_⟩)
      cases persist <;> simp [call]
    · refine Or.inr (Or.inr ⟨by simp [Unlocks], ?_, ?_⟩)
      · exact (CoinLocks.lookup_loadLockedCoin _ _ _ _).trans (if_neg ho)
      · cases persist <;> simp [call, ho]
  | unlock output owner =>
    by_cases hrefused : (owner.isSome && !s.locks.ownsCoinLock output owner) = true
    · have hnot : ¬ Unlocks s (.unlock output owner) o :=
        fun h => absurd (unlocks_unlock.1 h).2 (by rw [hrefused]; decide)
      refine Or.inr (Or.inr ⟨hnot, ?_, ?_⟩) <;> simp [call, entry, CoinLocks.unlockCoin, hrefused]
    · have hdone : s.locks.unlockCoin output owner true = (true, s.locks.unlocked output) := by
        rw [CoinLocks.unlockCoin, if_neg hrefused, ite_self]
      have hentry : (s.call (.unlock output owner)).entry o = if o = output then none else s.entry o := by
        rw [entry, call, hdone]
        exact lookup_erase_if _ _ _
      by_cases ho : o = output
      · subst ho
        refine Or.inl ⟨unlocks_unlock.2 ⟨rfl, Bool.eq_false_of_not_eq_true hrefused⟩, hentry.trans (if_pos rfl), ?_⟩
        by_cases hstored : s.entry o = some true <;> simp [call, hdone, hstored]
      · refine Or.inr (Or.inr ⟨fun h => ho (unlocks_unlock.1 h).1.symm, hentry.trans (if_neg ho), ?_⟩)
        by_cases hstored : s.entry output = some true <;> simp [call, hdone, hstored, ho]
  | unlockAll => exact Or.inl ⟨Or.inl rfl, by simp [call, entry, CoinLocks.unlockAllCoins], by simp [call]⟩

/-! ## Runs -/

section
variable {records : List COutPoint} {o : COutPoint} {calls : List (LockCall π)} {c : LockCall π}

/-- locked persistently, and not unlocked since -/
inductive StoredLock (records : List COutPoint) (o : COutPoint) : List (LockCall π) → Prop
  | loaded (h : o ∈ records) : StoredLock records o []
  | lock (calls : List (LockCall π)) (owner : Option π) : StoredLock records o (calls ++ [.lock o true owner])
  | stays {calls : List (LockCall π)} {c : LockCall π} (h : StoredLock records o calls)
      (hkept : ¬ Unlocks (after records calls) c o) : StoredLock records o (calls ++ [c])

theorem StoredLock.mem_stored (h : StoredLock records o calls) : o ∈ (after records calls).stored := by
  induction h with
  | loaded h => exact mem_toFinset.2 h
  | lock calls owner =>
    rw [after_concat]
    exact Finset.mem_insert_self _ _
  | @stays calls c _ hkept ih =>
    rw [after_concat]
    rcases call_cases (after records calls) c o with ⟨hunlocks, -⟩ | ⟨_, _, -, -, hmem⟩ | ⟨-, -, hmem⟩
    · exact absurd hunlocks hkept
    · exact hmem.2 (Or.inr ih)
    · exact hmem.2 ih

/-- a record that memory does not know of -/
def Hidden (s : WalletLocks π) (o : COutPoint) : Prop := s.entry o = some false ∧ o ∈ s.stored

theorem Clean.call {s : WalletLocks π} (h : Clean s) : Clean (s.call c) ↔ ∀ o, Hidden s o → ¬ Unlocks s c o := by
  constructor
  · rintro hclean o ⟨hfalse, hstored⟩ hunlocks
    rcases call_cases s c o with ⟨-, hfree, hmem⟩ | ⟨_, _, rfl, -⟩ | ⟨hnot, -⟩
    · exact hclean o hfree (hmem.2 ⟨hstored, by rw [hfalse]; decide⟩)
    · simp [Unlocks] at hunlocks
    · exact hnot hunlocks
  · intro hkept o hfree hstored
    rcases call_cases s c o with ⟨hunlocks, -, hmem⟩ | ⟨_, _, -, hentry, -⟩ | ⟨-, hentry, hmem⟩
    · obtain ⟨hbefore, htrue⟩ := hmem.1 hstored
      cases hentry : s.entry o with
      | none => exact h o hentry hbefore
      | some persistent =>
        cases persistent with
        | true => exact htrue hentry
        | false => exact hkept o ⟨hentry, hbefore⟩ hunlocks
    · rw [hentry] at hfree
      cases hfree
    · rw [hentry] at hfree
      exact h o hfree (hmem.1 hstored)

/-- It comes from a persistent lock on top of one in memory. -/
theorem Clean.hidden {s : WalletLocks π} (h : Clean s) (hhidden : Hidden (s.call c) o) :
    Hidden s o ∨ s.entry o = some false ∧ ∃ owner, c = .lock o true owner := by
  obtain ⟨hfalse, hstored⟩ := hhidden
  rcases call_cases s c o with ⟨-, hfree, -⟩ | ⟨persist, owner, rfl, hentry, hmem⟩ | ⟨-, hentry, hmem⟩
  · rw [hfree] at hfalse
    cases hfalse
  · rw [hentry] at hfalse
    cases hbefore : s.entry o with
    | none =>
      rw [hbefore] at hfalse
      cases hfalse
      exact absurd ((hmem.1 hstored).resolve_left (by decide)) (h o hbefore)
    | some persistent =>
      rw [hbefore] at hfalse
      cases hfalse
      rcases hmem.1 hstored with rfl | hold
      · exact Or.inr ⟨rfl, owner, rfl⟩
      · exact Or.inl ⟨hbefore, hold⟩
  · exact Or.inl ⟨hentry ▸ hfalse, hmem.1 hstored⟩

/-- **Stored locks.** From a wallet loaded from disk, with writes that succeed: a coin that was locked persistently and
not unlocked since has its record. At all times a coin that is not locked has no record, if and only if no call is made
that unlocks a coin with a record that memory does not know of; such a record comes from a persistent lock of a coin
that was locked in memory only. -/
theorem stored_locks_iff (records : List COutPoint) (calls : List (LockCall π)) :
    (∀ o, StoredLock records o calls → o ∈ (after records calls).stored) ∧
    ((∀ before, before <+: calls → Clean (after records before)) ↔
      ∀ before c o, before ++ [c] <+: calls → Hidden (after records before) o → ¬ Unlocks (after records before) c o) ∧
    ∀ c o, Clean (after records calls) → Hidden (after records (calls ++ [c])) o →
      Hidden (after records calls) o ∨ (after records calls).entry o = some false ∧
      ∃ owner, c = .lock o true owner := by
  simp only [after_concat]
  refine ⟨fun o h => h.mem_stored, ⟨fun hclean before c o hc => ?_, fun hkept before hbefore => ?_⟩,
    fun c o hclean => hclean.hidden⟩
  · have hbefore := hclean before ((prefix_append _ _).trans hc)
    exact hbefore.call.1 (after_concat records before c ▸ hclean _ hc) o
  · induction before using List.reverseRecOn with
    | nil => exact clean_load records
    | append_singleton before c ih =>
      rw [after_concat, (ih ((prefix_append _ _).trans hbefore)).call]
      exact fun o => hkept before c o hbefore

/-- A coin is locked, locked persistently, and unlocked: its record stays. -/
theorem late_lock_left : ∃ (calls : List (LockCall ℕ)) (o : COutPoint), (after [] calls).entry o = none ∧
    o ∈ (after [] calls).stored := by
  refine ⟨[.lock ⟨Uint256.null, 0⟩ false none, .lock ⟨Uint256.null, 0⟩ true none, .unlock ⟨Uint256.null, 0⟩ none],
    ⟨Uint256.null, 0⟩, ?_⟩
  decide

end

end WalletLocks

end ConnectCoin.Wallet
