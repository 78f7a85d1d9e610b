/-
The arrays of the certificate cache and of the signature cache, and what they account (`consensus/p2c_x509.cpp`).

- `SlotCache`: slots, oldest entry first, the number in use, and the totals: bytes and estimated bytes. The signature
  cache has one total, so its second one is charged nothing.
- `closeGap`: the loops that move entries down; `find`, `evict`, `remember`: a subtraction that underflows is none.
- `Accounts`: the slots are the entries and then empty, and both totals are the sums of the charges, within the limits.
Results: `arrays_follow_lists`. After every sequence of calls the arrays hold the lists of `X509Cache`.
`caches_account`: both caches account their entries; a hit only moves to the end; `Remember` evicts from the front, and
nothing once the new entry fits.
-/
import ConnectCoin.P2C.X509Cache

namespace ConnectCoin.P2C

open Lib List

variable {E Cert : Type}

/-! ## The arrays -/

structure SlotCache (E : Type) where
  slots : List (Option E)
  count : ℕ
  totals : ℕ × ℕ

/-- n entries from next on move one slot down; a slot moved from is empty -/
def closeGap : ℕ → ℕ → List (Option E) → List (Option E)
  | 0, _, slots => slots
  | n + 1, next, slots => closeGap n (next + 1) ((slots.set (next - 1) slots[next]?.join).set next none)

namespace SlotCache

variable (limits : CacheLimits E)

def empty : SlotCache E := ⟨List.replicate limits.entries none, 0, 0⟩

/-- `Find`, for a way to match entries: the first hit moves to the end -/
def find (hits : E → Bool) (c : SlotCache E) : Option E × SlotCache E :=
  match (c.slots.take c.count).findIdx? (·.any hits) with
  | none => (none, c)
  | some index =>
    let hit := c.slots[index]?.join
    (hit, { c
      with slots := (closeGap (c.count - 1 - index) (index + 1) (c.slots.set index none)).set (c.count - 1) hit })

/-- the eviction loop, for a charge to come -/
def evict (limits : CacheLimits E) (charge : ℕ × ℕ) : ℕ → SlotCache E → Option (SlotCache E)
  | 0, c => some c
  | fuel + 1, c =>
    if c.count ≠ 0 ∧ (c.count = limits.entries ∨ ¬ c.totals + charge ≤ limits.totals) then do
      let oldest ← c.slots[0]?.join
      if limits.charge oldest ≤ c.totals then
        evict limits charge fuel
          ⟨(closeGap (c.count - 1) 1 c.slots).set (c.count - 1) none, c.count - 1, c.totals - limits.charge oldest⟩
      else none
    else some c

/-- `Remember`, for an entry that was built -/
def remember (e : E) (c : SlotCache E) : Option (SlotCache E) :=
  if limits.charge e ≤ limits.totals then do
    let c ← evict limits (limits.charge e) c.count c
    return ⟨c.slots.set c.count (some e), c.count + 1, c.totals + limits.charge e⟩
  else some c

end SlotCache

/-! ## Both caches -/

/-- the arrays of one thread -/
structure CacheArrays (Cert : Type) where
  certificates : SlotCache (CertificateCacheEntry Cert)
  signatures : SlotCache (Bytes × Bytes)

/-- the calls; `Contains` changes no array -/
inductive CacheCall (Cert : Type) where
  | find (certificateChain : List Bytes)
  | remember (parsed : CachedCertificateChain Cert)
  | contains (child parent : Bytes)
  | rememberSignature (allocationFails : Bool) (child parent : Bytes)

section
variable (lib : X509Library Cert) (sizes : CacheSizes Cert)

def CacheCall.run (s : CacheArrays Cert) : CacheCall Cert → Option (CacheArrays Cert)
  | .find certificateChain => some { s with certificates := (s.certificates.find (chainHits lib certificateChain)).2 }
  | .remember parsed =>
    (s.certificates.remember certificateLimits (CertificateCache.charge lib sizes parsed)).map fun certificates =>
      { s with certificates }
  | .contains _ _ => some s
  | .rememberSignature allocationFails child parent =>
    if signatureSkipped allocationFails child parent then some s
    else (s.signatures.remember (signatureLimits sizes) (child, parent)).map fun signatures => { s with signatures }

/-- the same calls on the lists -/
def CacheCall.onLists (s : X509Caches Cert) : CacheCall Cert → X509Caches Cert
  | .find certificateChain => { s with certificates := (s.certificates.find lib certificateChain).2 }
  | .remember parsed => { s with certificates := s.certificates.remember lib sizes parsed }
  | .contains child parent => { s with signatures := (s.signatures.contains child parent).2 }
  | .rememberSignature allocationFails child parent =>
    { s with signatures := s.signatures.remember sizes allocationFails child parent }

end

/-! ## Accounting -/

/-- The entries behind a gap move down, and what is put behind them takes the last slot. -/
theorem closeGap_set (before : List (Option E)) (x : Option E) (rest : List E) (tail : List (Option E)) (y : Option E) :
    (closeGap rest.length (before.length + 1) (before ++ x :: (rest.map some ++ tail))).set
      (before.length + rest.length) y = before ++ (rest.map some ++ y :: tail) := by
  induction rest generalizing before x with
  | nil => simp [closeGap]
  | cons r rest ih =>
    have hnext := ih (before ++ [some r]) none
    rw [length_append, length_singleton, append_assoc, append_assoc] at hnext
    rw [length_cons, closeGap, show before.length + (rest.length + 1) = before.length + 1 + rest.length by omega]
    simpa using hnext

variable (limits : CacheLimits E)

/-- the slots are the entries and then empty, and the totals are theirs -/
structure Accounts (entries : List E) (c : SlotCache E) : Prop where
  slots : c.slots = entries.map some ++ List.replicate (limits.entries - entries.length) none
  count : c.count = entries.length
  totals : c.totals = (entries.map limits.charge).sum
  count_le : entries.length ≤ limits.entries
  totals_le : c.totals ≤ limits.totals

/-- there is room for one more entry -/
def Room (e : E) (entries : List E) : Prop :=
  entries.length < limits.entries ∧ (entries.map limits.charge).sum + limits.charge e ≤ limits.totals

/-- a miss changes nothing, and the first hit only moves to the end -/
def MovesHit (hits : E → Bool) (entries : List E) (c : SlotCache E) : Prop :=
  ((∀ x ∈ entries, hits x = false) ∧ c.find hits = (none, c)) ∨
  ∃ before hit after c', entries = before ++ hit :: after ∧ hits hit = true ∧ (∀ x ∈ before, hits x = false) ∧
    c.find hits = (some hit, c') ∧ Accounts limits (before ++ after ++ [hit]) c'

/-- an entry beyond the limits changes nothing; another one is the last, and as few are evicted from the front as give
room -/
def EvictsOldest (e : E) (entries : List E) (c : SlotCache E) : Prop :=
  (¬ limits.charge e ≤ limits.totals ∧ c.remember limits e = some c) ∨
  ∃ evicted kept c', entries = evicted ++ kept ∧ c.remember limits e = some c' ∧ Accounts limits (kept ++ [e]) c' ∧
    ∀ n < evicted.length, ¬ Room limits e (entries.drop n)

variable {limits : CacheLimits E} {entries : List E} {c : SlotCache E} {e : E}

theorem Accounts.empty (limits : CacheLimits E) : Accounts limits [] (SlotCache.empty limits) :=
  ⟨rfl, rfl, rfl, Nat.zero_le _, Prod.mk_le_mk.2 ⟨Nat.zero_le _, Nat.zero_le _⟩⟩

theorem findIdx?_split {hits : E → Bool} {index : ℕ} (h : (entries.map some).findIdx? (·.any hits) = some index) :
    ∃ before hit after, entries = before ++ hit :: after ∧ before.length = index ∧ hits hit = true ∧
      ∀ x ∈ before, hits x = false := by
  induction entries generalizing index with
  | nil => cases h
  | cons x entries ih =>
    rw [map_cons, findIdx?_cons, Option.any_some] at h
    cases hx : hits x with
    | true =>
      rw [hx, if_pos rfl] at h
      cases h
      exact ⟨[], x, entries, rfl, rfl, hx, by simp⟩
    | false =>
      rw [hx, if_neg Bool.false_ne_true] at h
      obtain ⟨index, hindex, rfl⟩ := Option.map_eq_some_iff.1 h
      obtain ⟨before, hit, after, rfl, rfl, hhit, hbefore⟩ := ih hindex
      exact ⟨x :: before, hit, after, rfl, rfl, hhit, forall_mem_cons.2 ⟨hx, hbefore⟩⟩

theorem Accounts.find (h : Accounts limits entries c) (hits : E → Bool) : MovesHit limits hits entries c := by
  have htake : c.slots.take c.count = entries.map some := by
    rw [h.slots, h.count, ← length_map some, take_left']
    rfl
  unfold MovesHit SlotCache.find
  rw [htake]
  cases hindex : (entries.map some).findIdx? (·.any hits) with
  | none => exact Or.inl ⟨by simpa using hindex, rfl⟩
  | some index =>
    obtain ⟨before, hit, after, rfl, rfl, hhit, hbefore⟩ := findIdx?_split hindex
    have hperm : (before ++ after ++ [hit]).Perm (before ++ hit :: after) := by
      rw [append_assoc]
      exact (perm_append_singleton hit after).append_left before
    have hlength : (before ++ hit :: after).length = before.length + (after.length + 1) := length_append
    have hcount := h.count
    have hslots := h.slots
    rw [map_append, append_assoc] at hslots
    have hget : c.slots[before.length]?.join = some hit := by simp [hslots]
    have hmoved := closeGap_set (before.map some) none after
      (List.replicate (limits.entries - (before ++ hit :: after).length) none) (some hit)
    rw [length_map] at hmoved
    refine Or.inr ⟨before, hit, after, _, rfl, hhit, hbefore, Prod.ext hget rfl, ?_, ?_, ?_, ?_, h.totals_le⟩
    · dsimp only
      rw [hget, show c.count - 1 - before.length =
        after.length by omega, show c.count - 1 = before.length + after.length by omega, hperm.length_eq, hslots]
      simpa using hmoved
    · exact h.count.trans hperm.length_eq.symm
    · exact h.totals.trans (hperm.map _).sum_eq.symm
    · exact hperm.length_eq ▸ h.count_le

theorem Accounts.evict (h : Accounts limits entries c) (hcharge : limits.charge e ≤ limits.totals) {fuel : ℕ}
    (hfuel : entries.length ≤ fuel) : ∃ evicted kept c', c.evict limits (limits.charge e) fuel = some c' ∧
      limits.evictFor (limits.charge e) entries c.totals = (kept, c'.totals) ∧
      entries = evicted ++ kept ∧ Accounts limits kept c' ∧ Room limits e kept ∧
      ∀ n < evicted.length, ¬ Room limits e (entries.drop n) := by
  have hnone : Room limits e [] := ⟨limits.entries_pos, by simpa using hcharge⟩
  induction fuel generalizing entries c with
  | zero =>
    obtain rfl := length_eq_zero_iff.1 (Nat.le_zero.1 hfuel)
    exact ⟨[], [], c, rfl, rfl, rfl, h, hnone, by simp⟩
  | succ fuel ih =>
    unfold SlotCache.evict
    by_cases hfull : c.count ≠ 0 ∧ (c.count = limits.entries ∨ ¬ c.totals + limits.charge e ≤ limits.totals)
    · rw [if_pos hfull]
      rw [h.count] at hfull
      cases entries with
      | nil => exact absurd rfl hfull.1
      | cons oldest rest =>
        have htotals : c.totals = limits.charge oldest + (rest.map limits.charge).sum := h.totals
        have hslots : (closeGap (c.count - 1) 1 c.slots).set (c.count - 1) none =
            rest.map some ++ List.replicate (limits.entries - rest.length) none := by
          have hmoved := closeGap_set [] (some oldest) rest (List.replicate (limits.entries - (rest.length + 1)) none)
            none
          have hle : rest.length + 1 ≤ limits.entries := h.count_le
          rw [h.count, h.slots, show limits.entries - rest.length = limits.entries - (rest.length + 1) +
            1 by omega, replicate_succ]
          simpa using hmoved
        have hrest : Accounts limits rest ⟨(closeGap (c.count - 1) 1 c.slots).set (c.count - 1) none, c.count - 1,
              c.totals - limits.charge oldest⟩ := by
          refine ⟨hslots, ?_, ?_, ?_, ?_⟩
          · rw [h.count, length_cons, Nat.add_sub_cancel]
          · rw [htotals]
            exact Prod.ext (Nat.add_sub_cancel_left ..) (Nat.add_sub_cancel_left ..)
          · exact (Nat.le_succ _).trans h.count_le
          · exact le_trans ⟨Nat.sub_le _ _, Nat.sub_le _ _⟩ h.totals_le
        obtain ⟨evicted, kept, c', hevict, hlist, hsplit, hkept, hroom, hneeded⟩ :=
          ih hrest (Nat.le_of_succ_le_succ hfuel)
        refine ⟨oldest :: evicted, kept, c', ?_, (if_pos hfull.2).trans hlist,
          by rw [hsplit, cons_append], hkept, hroom, ?_⟩
        · have hoverflow : limits.charge oldest ≤ c.totals := by
            rw [htotals]
            exact ⟨Nat.le_add_right _ _, Nat.le_add_right _ _⟩
          have hget : c.slots[0]?.join = some oldest := by simp [h.slots]
          rw [hget]
          exact (if_pos hoverflow).trans hevict
        · intro n hn
          cases n with
          | zero =>
            rintro ⟨hlt, hfits⟩
            rcases hfull.2 with heq | hnot
            · exact hlt.ne heq
            · exact hnot (h.totals ▸ hfits)
          | succ n => exact hneeded n (Nat.lt_of_succ_lt_succ hn)
    · rw [if_neg hfull]
      cases entries with
      | nil => exact ⟨[], [], c, rfl, rfl, rfl, h, hnone, by simp⟩
      | cons oldest rest =>
        rw [h.count] at hfull
        have hfits : ¬ ((oldest :: rest).length = limits.entries ∨ ¬ c.totals + limits.charge e ≤ limits.totals) :=
          fun hor => hfull ⟨Nat.succ_ne_zero _, hor⟩
        refine ⟨[], oldest :: rest, c, rfl, if_neg hfits, rfl, h, ?_, by simp⟩
        rw [not_or, not_not, h.totals] at hfits
        exact ⟨lt_of_le_of_ne h.count_le hfits.1, hfits.2⟩

theorem Accounts.append (h : Accounts limits entries c) (hroom : Room limits e entries) :
    Accounts limits (entries ++ [e]) ⟨c.slots.set c.count (some e), c.count + 1, c.totals + limits.charge e⟩ := by
  refine ⟨?_, ?_, ?_, ?_, h.totals ▸ hroom.2⟩
  · obtain ⟨n, hn⟩ := Nat.exists_eq_add_of_lt hroom.1
    have hrest : limits.entries - entries.length = n + 1 := by omega
    have hrest' : limits.entries - (entries.length + 1) = n := by omega
    simp [h.slots, h.count, hrest, hrest', replicate_succ]
  · simp [h.count]
  · simp [h.totals]
  · simpa using hroom.1

/-- `Remember` does with the arrays what it does with the list. -/
theorem Accounts.remember_list (h : Accounts limits entries c) (e : E) : ∃ entries' c',
    c.remember limits e = some c' ∧ limits.remember e entries c.totals = (entries', c'.totals) ∧
      Accounts limits entries' c' := by
  unfold SlotCache.remember CacheLimits.remember
  by_cases hcharge : limits.charge e ≤ limits.totals
  · obtain ⟨evicted, kept, c', hevict, hlist, -, hkept, hroom, -⟩ := h.evict hcharge h.count.ge
    rw [if_pos hcharge, if_pos hcharge, hevict, hlist]
    exact ⟨_, _, rfl, rfl, hkept.append hroom⟩
  · rw [if_neg hcharge, if_neg hcharge]
    exact ⟨_, _, rfl, rfl, h⟩

theorem Accounts.remember (h : Accounts limits entries c) (e : E) : EvictsOldest limits e entries c := by
  unfold EvictsOldest SlotCache.remember
  by_cases hcharge : limits.charge e ≤ limits.totals
  · obtain ⟨evicted, kept, c', hevict, -, hsplit, hkept, hroom, hneeded⟩ := h.evict hcharge h.count.ge
    exact Or.inr ⟨evicted, kept, _, hsplit, by rw [if_pos hcharge, hevict]; rfl, hkept.append hroom, hneeded⟩
  · exact Or.inl ⟨hcharge, if_neg hcharge⟩

/-! ## Every sequence of calls -/

section
variable (lib : X509Library Cert) (sizes : CacheSizes Cert)

/-- the arrays account the entries of the lists, with their totals -/
structure Follows (lists : X509Caches Cert) (s : CacheArrays Cert) : Prop where
  certificates : Accounts certificateLimits lists.certificates.entries s.certificates
  certificateTotals : s.certificates.totals = (lists.certificates.bytes, lists.certificates.estimatedBytes)
  signatures : Accounts (signatureLimits sizes) lists.signatures.entries s.signatures
  signatureTotals : s.signatures.totals = (lists.signatures.bytes, 0)

variable {lists : X509Caches Cert} {s : CacheArrays Cert}

theorem Follows.find (h : Follows sizes lists s) (certificateChain : List Bytes) :
    Follows sizes { lists with certificates := (lists.certificates.find lib certificateChain).2 }
      { s with certificates := (s.certificates.find (chainHits lib certificateChain)).2 } := by
  unfold CertificateCache.find
  rcases h.certificates.find (chainHits lib certificateChain) with
    ⟨hnone, hmiss⟩ | ⟨before, hit, after, c', hsplit, hhit, hbefore, hfind, hc'⟩
  · rw [find?_eq_none.2 (by simpa using hnone), hmiss]
    exact ⟨h.certificates, h.certificateTotals, h.signatures, h.signatureTotals⟩
  · have htotals : c'.totals = s.certificates.totals := by
      rw [hc'.totals, h.certificates.totals, hsplit]
      simp [add_comm]
    have hlist : lists.certificates.entries.find? (chainHits lib certificateChain) = some hit :=
      find?_eq_some_iff_append.2 ⟨hhit, before, after, hsplit, by simpa using hbefore⟩
    have herase : lists.certificates.entries.eraseP (chainHits lib certificateChain) = before ++ after := by
      rw [hsplit, eraseP_append_right _ (by simpa using hbefore), eraseP_cons_of_pos hhit]
    rw [hlist, hfind]
    dsimp only
    rw [herase]
    exact ⟨hc', htotals.trans h.certificateTotals, h.signatures, h.signatureTotals⟩

/-- One call on the lists is one call on the arrays. -/
theorem CacheCall.run_follows (h : Follows sizes lists s) (call : CacheCall Cert) :
    ∃ s', CacheCall.run lib sizes s call = some s' ∧ Follows sizes (call.onLists lib sizes lists) s' := by
  cases call with
  | find certificateChain => exact ⟨_, rfl, h.find lib sizes certificateChain⟩
  | remember parsed =>
    obtain ⟨entries', c', hc', hlist, haccounts⟩ :=
      h.certificates.remember_list (CertificateCache.charge lib sizes parsed)
    rw [h.certificateTotals] at hlist
    refine ⟨{ s with certificates := c' }, by rw [run, hc']; rfl, ?_⟩
    unfold onLists CertificateCache.remember
    dsimp only
    rw [hlist]
    exact ⟨haccounts, rfl, h.signatures, h.signatureTotals⟩
  | contains child parent =>
    refine ⟨s, rfl, ?_⟩
    rw [onLists, SignatureCache.contains]
    split_ifs
    · exact ⟨h.certificates, h.certificateTotals, h.signatures, h.signatureTotals⟩
    · exact ⟨h.certificates, h.certificateTotals, h.signatures, h.signatureTotals⟩
  | rememberSignature allocationFails child parent =>
    rw [run, onLists, SignatureCache.remember]
    split_ifs
    · exact ⟨s, rfl, h⟩
    · obtain ⟨entries', c', hc', hlist, haccounts⟩ := h.signatures.remember_list (child, parent)
      have hzero : c'.totals.2 = 0 := Nat.le_zero.1 haccounts.totals_le.2
      rw [h.signatureTotals] at hlist
      refine ⟨{ s with signatures := c' }, by rw [hc']; rfl, ?_⟩
      rw [hlist]
      exact ⟨h.certificates, h.certificateTotals, haccounts, Prod.ext rfl hzero⟩

/-- After every sequence of calls the arrays hold what the lists of `X509Cache` hold, with the same totals. -/
theorem arrays_follow_lists (calls : List (CacheCall Cert)) : ∃ s,
    calls.foldlM (CacheCall.run lib sizes) ⟨SlotCache.empty certificateLimits,
      SlotCache.empty (signatureLimits sizes)⟩ = some s ∧
    Follows sizes (calls.foldl (CacheCall.onLists lib sizes) X509Caches.empty) s := by
  have hrun : ∀ lists s, Follows sizes lists s → ∃ s', calls.foldlM (CacheCall.run lib sizes) s = some s' ∧
      Follows sizes (calls.foldl (CacheCall.onLists lib sizes) lists) s' := by
    induction calls with
    | nil => exact fun lists s hs => ⟨s, rfl, hs⟩
    | cons call calls ih =>
      intro lists s hs
      obtain ⟨mid, hmid, hfollows⟩ := CacheCall.run_follows lib sizes hs call
      rw [foldlM_cons, hmid]
      exact ih _ mid hfollows
  exact hrun _ _ ⟨.empty _, rfl, .empty _, rfl⟩

/-- After every sequence of calls both caches account their entries, and every next call does what it should. -/
theorem caches_account (calls : List (CacheCall Cert)) : ∃ s certificates signatures,
    calls.foldlM (CacheCall.run lib sizes) ⟨SlotCache.empty certificateLimits,
      SlotCache.empty (signatureLimits sizes)⟩ = some s ∧
    Accounts certificateLimits certificates s.certificates ∧ Accounts (signatureLimits sizes) signatures s.signatures ∧
    (∀ certificateChain, MovesHit certificateLimits (chainHits lib certificateChain) certificates s.certificates) ∧
    (∀ parsed, EvictsOldest certificateLimits (CertificateCache.charge lib sizes parsed) certificates s.certificates) ∧
    ∀ child parent, EvictsOldest (signatureLimits sizes) (child, parent) signatures s.signatures := by
  obtain ⟨s, hs, h⟩ := arrays_follow_lists lib sizes calls
  exact ⟨s, _, _, hs, h.certificates, h.signatures, fun _ => h.certificates.find _,
    fun _ => h.certificates.remember _, fun _ _ => h.signatures.remember _⟩

end

end ConnectCoin.P2C
