/-
The certificate cache and the signature cache never change a verdict (`consensus/p2c_x509.cpp`).

Model: each thread owns one `CertificateCache` (parsed chains, found by their exact ordered DER bytes) and one
`SignatureCache` (pairs of DER bytes whose signature was good). Both evict their oldest entries under entry and byte
limits. At each access an arbitrary `Pressure` may lose further entries, and the allocation of a new signature entry may
fail.

Invariant (`X509Caches.Inv`): a cached chain is what parsing some certificates anew gives, a cached pair is a valid
signature. Neither speaks of a time, a domain, a root list or an algorithm mask.

Result: `certificate_caches_transparent`. For every history of calls by any threads, each answer is the one with both
caches disabled.
-/
import ConnectCoin.P2C.X509
import ConnectCoin.Consensus.TxOutCode

namespace ConnectCoin.P2C

open Lib List

variable {E Cert : Type}

/-! ## Limits -/

/-- the limits of a cache and what it charges an entry: bytes and estimated bytes -/
structure CacheLimits (E : Type) where
  entries : ℕ
  totals : ℕ × ℕ
  charge : E → ℕ × ℕ
  entries_pos : 0 < entries

namespace CacheLimits

variable (limits : CacheLimits E)

/-- the eviction loop, for a charge to come: the entries, oldest first, and their totals -/
def evictFor (charge : ℕ × ℕ) : List E → ℕ × ℕ → List E × (ℕ × ℕ)
  | [], totals => ([], totals)
  | oldest :: entries, totals =>
    if (oldest :: entries).length = limits.entries ∨ ¬ totals + charge ≤ limits.totals then
      evictFor charge entries (totals - limits.charge oldest)
    else (oldest :: entries, totals)

/-- the end of both `Remember`: an entry beyond the totals is not taken, another one becomes the newest -/
def remember (e : E) (entries : List E) (totals : ℕ × ℕ) : List E × (ℕ × ℕ) :=
  if limits.charge e ≤ limits.totals then
    let (entries, totals) := limits.evictFor (limits.charge e) entries totals
    (entries ++ [e], totals + limits.charge e)
  else (entries, totals)

variable {limits}

theorem evictFor_sub (charge : ℕ × ℕ) (entries : List E) (totals : ℕ × ℕ) :
    (limits.evictFor charge entries totals).1 ⊆ entries := by
  induction entries generalizing totals with
  | nil => exact List.Subset.refl _
  | cons oldest entries ih =>
    unfold evictFor
    split_ifs
    · exact subset_cons_of_subset oldest (ih _)
    · exact List.Subset.refl _

/-- `Remember` adds the entry at most. -/
theorem remember_sub {e x : E} {entries : List E} {totals : ℕ × ℕ}
    (h : x ∈ (limits.remember e entries totals).1) : x ∈ entries ∨ x = e := by
  unfold remember at h
  split_ifs at h
  · exact (mem_append.1 h).imp (fun hx => evictFor_sub _ _ _ hx) mem_singleton.1
  · exact Or.inl h

end CacheLimits

/-! ## The certificate cache -/

/-- sizes that the caches charge -/
structure CacheSizes (Cert : Type) where
  /-- the certificate struct and the nodes of its names, alternative names, usages, policies and issuers -/
  structureBytes : Cert → ℕ
  /-- `mbedtls_pk_get_len` -/
  pkLen : Cert → ℕ
  /-- sizeof(Entry) + sizeof(CachedCertificateChain) + sizeof(CertificateChain) -/
  entryBytes : ℕ
  /-- sizeof(Validity) -/
  validityBytes : ℕ
  /-- capacity of a vector grown to n elements -/
  grownCapacity : ℕ → ℕ
  /-- capacity of a vector built from n bytes -/
  vectorCapacity : ℕ → ℕ

structure CertificateCacheEntry (Cert : Type) where
  parsed : CachedCertificateChain Cert
  bytes : ℕ
  estimatedBytes : ℕ

/-- `CertificateCache`, oldest entry first -/
structure CertificateCache (Cert : Type) where
  entries : List (CertificateCacheEntry Cert)
  bytes : ℕ
  estimatedBytes : ℕ
  hits : ℕ
  misses : ℕ

namespace CertificateCache

def MAX_ENTRIES : ℕ := 4
def MAX_BYTES : ℕ := 65536
def MAX_ESTIMATED_BYTES : ℕ := 262144

def empty : CertificateCache Cert := ⟨[], 0, 0, 0, 0⟩

/-- exact ordered DER, including every supplied entry -/
def matchesChain (lib : X509Library Cert) : List Bytes → List Cert → Bool
  | [], [] => true
  | der :: ders, certificate :: chain => der == lib.raw certificate && matchesChain lib ders chain
  | _, _ => false

end CertificateCache

def certificateLimits : CacheLimits (CertificateCacheEntry Cert) :=
  ⟨CertificateCache.MAX_ENTRIES, (CertificateCache.MAX_BYTES, CertificateCache.MAX_ESTIMATED_BYTES),
    fun e => (e.bytes, e.estimatedBytes), by decide⟩

def chainHits (lib : X509Library Cert) (certificateChain : List Bytes) (e : CertificateCacheEntry Cert) : Bool :=
  CertificateCache.matchesChain lib certificateChain e.parsed.parsed

namespace CertificateCache

variable (lib : X509Library Cert)

/-- `Find`: the first hit becomes the newest entry -/
def find (certificateChain : List Bytes) (cache : CertificateCache Cert) :
    Option (CachedCertificateChain Cert) × CertificateCache Cert :=
  match cache.entries.find? (chainHits lib certificateChain) with
  | some hit => (some hit.parsed,
    { cache with
      entries := cache.entries.eraseP (chainHits lib certificateChain) ++ [hit]
      hits := cache.hits + 1 })
  | none => (none, { cache with misses := cache.misses + 1 })

/-- the entry charged for a chain -/
def charge (sizes : CacheSizes Cert) (parsed : CachedCertificateChain Cert) : CertificateCacheEntry Cert :=
  let derBytes := (parsed.parsed.map fun cert => (lib.raw cert).length).sum
  let structures := (parsed.parsed.map fun cert => sizes.structureBytes cert + 32768 + 32 * sizes.pkLen cert).sum
  { parsed
    bytes := derBytes
    estimatedBytes := derBytes + structures + sizes.entryBytes + 128 +
      sizes.grownCapacity parsed.times.length * sizes.validityBytes }

/-- `Remember` -/
def remember (sizes : CacheSizes Cert) (parsed : CachedCertificateChain Cert)
    (cache : CertificateCache Cert) : CertificateCache Cert :=
  let (entries, bytes, estimatedBytes) :=
    certificateLimits.remember (charge lib sizes parsed) cache.entries (cache.bytes, cache.estimatedBytes)
  { cache with entries, bytes, estimatedBytes }

end CertificateCache

/-! ## The signature cache -/

/-- `SignatureCache`, oldest entry first: child and parent -/
structure SignatureCache where
  entries : List (Bytes × Bytes)
  bytes : ℕ
  hits : ℕ
  misses : ℕ

namespace SignatureCache

def MAX_ENTRIES : ℕ := 8
def MAX_BYTES : ℕ := 65536

def empty : SignatureCache := ⟨[], 0, 0, 0⟩

/-- `Contains` -/
def contains (child parent : Bytes) (cache : SignatureCache) : Bool × SignatureCache :=
  if cache.entries.any fun entry => entry.1 == child && entry.2 == parent then
    (true, { cache with hits := cache.hits + 1 })
  else (false, { cache with misses := cache.misses + 1 })

/-- what one entry costs -/
def entryBytes (sizes : CacheSizes Cert) (entry : Bytes × Bytes) : ℕ :=
  sizes.vectorCapacity entry.1.length + sizes.vectorCapacity entry.2.length

end SignatureCache

/-- the second total is not used -/
def signatureLimits (sizes : CacheSizes Cert) : CacheLimits (Bytes × Bytes) :=
  ⟨SignatureCache.MAX_ENTRIES, (SignatureCache.MAX_BYTES, 0), fun e => (SignatureCache.entryBytes sizes e, 0),
    by decide⟩

/-- a signature that `SignatureCache::Remember` does not look at: the bytes are none or too many, or there is no memory
for them -/
def signatureSkipped (allocationFails : Bool) (child parent : Bytes) : Bool :=
  decide (child.length = 0 ∨ parent.length = 0 ∨ child.length > MAX_P2C_CERTIFICATE_SIZE ∨
    parent.length > MAX_P2C_CERTIFICATE_SIZE ∨ child.length + parent.length > SignatureCache.MAX_BYTES) ||
    allocationFails

/-- `Remember`; an allocation that fails leaves the cache as it is -/
def SignatureCache.remember (sizes : CacheSizes Cert) (allocationFails : Bool) (child parent : Bytes)
    (cache : SignatureCache) : SignatureCache :=
  if signatureSkipped allocationFails child parent then cache
  else
    let (entries, bytes, _) := (signatureLimits sizes).remember (child, parent) cache.entries (cache.bytes, 0)
    { cache with entries, bytes }

/-! ## The caches of a thread in use -/

/-- `Certificates()` and `Signatures()` of one thread, and how often they were accessed -/
structure X509Caches (Cert : Type) where
  certificates : CertificateCache Cert
  signatures : SignatureCache
  accesses : ℕ

def X509Caches.empty : X509Caches Cert := ⟨.empty, .empty, 0⟩

/-- what may happen to the caches before an access: entries are lost, and an allocation may fail -/
structure Pressure (Cert : Type) where
  lose : X509Caches Cert → X509Caches Cert
  allocationFails : Bool
  chains_sub : ∀ s, (lose s).certificates.entries ⊆ s.certificates.entries
  pairs_sub : ∀ s, (lose s).signatures.entries ⊆ s.signatures.entries

section
variable (lib : X509Library Cert) (sizes : CacheSizes Cert) (pressure : ℕ → Pressure Cert)

/-- before each access; whether an allocation fails in it -/
def accessCaches : StateM (X509Caches Cert) Bool := fun s =>
  ((pressure s.accesses).allocationFails, { (pressure s.accesses).lose s with accesses := s.accesses + 1 })

variable (certificateChain : List Bytes)

/-- `Certificates().Find` -/
def findChain : StateM (X509Caches Cert) (Option (CachedCertificateChain Cert)) := do
  let _ ← accessCaches pressure
  fun s =>
    let (found, certificates) := s.certificates.find lib certificateChain
    (found, { s with certificates })

/-- `Certificates().Remember` -/
def rememberChain (parsed : CachedCertificateChain Cert) : StateM (X509Caches Cert) Unit := do
  let _ ← accessCaches pressure
  modify fun s => { s with certificates := s.certificates.remember lib sizes parsed }

/-- `CachedChain` -/
def cachedChain : StateM (X509Caches Cert) (Except String (CachedCertificateChain Cert)) :=
  if initializeP2CCrypto then do
    match ← findChain lib pressure certificateChain with
    | some found => pure (.ok found)
    | none =>
      match freshChain lib certificateChain with
      | .error e => pure (.error e)
      | .ok parsed => do
        rememberChain lib sizes pressure parsed
        pure (.ok parsed)
  else pure (.error "TLS crypto initialization failed")

/-- `SignatureLookup` -/
def signatureLookup (child parent : Cert) : StateM (X509Caches Cert) Bool := do
  let _ ← accessCaches pressure
  fun s =>
    let (found, signatures) := s.signatures.contains (lib.raw child) (lib.raw parent)
    (found, { s with signatures })

/-- `SignatureRemember` -/
def signatureRemember (child parent : Cert) : StateM (X509Caches Cert) Unit := do
  let allocationFails ← accessCaches pressure
  modify fun s => { s with signatures := s.signatures.remember sizes allocationFails (lib.raw child) (lib.raw parent) }

/-- the caches as `VerifyP2CCertificateProofImpl` and `VerifyDomainPath` use them -/
def cachedServices : CertificateServices Cert (X509Caches Cert) where
  chain := cachedChain lib sizes pressure
  hooks := ⟨fun _ _ => pure (), some ⟨signatureLookup lib pressure, signatureRemember lib sizes pressure⟩⟩

end

/-! ## What the caches hold -/

variable {certificateChain : List Bytes} (lib : X509Library Cert) (sizes : CacheSizes Cert)

theorem CertificateCache.matchesChain_eq {lib : X509Library Cert} {chain : List Cert}
    (h : matchesChain lib certificateChain chain = true) : certificateChain = chain.map lib.raw := by
  induction certificateChain generalizing chain with
  | nil =>
    cases chain with
    | nil => rfl
    | cons c chain => cases h
  | cons der ders ih =>
    cases chain with
    | nil => cases h
    | cons c chain =>
      simp only [matchesChain, Bool.and_eq_true, beq_iff_eq] at h
      rw [map_cons, h.1, ih h.2]

/-- What `Find` returns is stored under exactly these bytes, and it stores nothing. -/
theorem CertificateCache.find_spec (certificateChain : List Bytes) (cache : CertificateCache Cert) :
    (cache.find lib certificateChain).2.entries ⊆ cache.entries ∧
      ∀ chain, (cache.find lib certificateChain).1 = some chain →
        certificateChain = chain.parsed.map lib.raw ∧ ∃ entry ∈ cache.entries, entry.parsed = chain := by
  unfold find
  cases hfound : cache.entries.find? (chainHits lib certificateChain) with
  | none => exact ⟨List.Subset.refl _, by simp⟩
  | some hit =>
    have hmem := mem_of_find?_eq_some hfound
    refine ⟨append_subset.2 ⟨eraseP_subset, cons_subset.2 ⟨hmem, nil_subset _⟩⟩, ?_⟩
    intro chain hchain
    cases hchain
    exact ⟨matchesChain_eq (find?_some hfound :), hit, hmem, rfl⟩

/-- `Remember` adds the chain at most. -/
theorem CertificateCache.remember_sub (parsed : CachedCertificateChain Cert) (cache : CertificateCache Cert) :
    ∀ entry ∈ (cache.remember lib sizes parsed).entries, entry ∈ cache.entries ∨ entry.parsed = parsed := by
  intro entry he
  exact (CacheLimits.remember_sub he).imp_right fun h => by rw [h]; rfl

/-- `Remember` adds the pair at most. -/
theorem SignatureCache.remember_sub (allocationFails : Bool) (child parent : Bytes) (cache : SignatureCache) :
    ∀ entry ∈ (cache.remember sizes allocationFails child parent).entries, entry ∈ cache.entries ∨
      entry = (child, parent) := by
  intro entry he
  unfold remember at he
  split_ifs at he
  · exact Or.inl he
  · exact CacheLimits.remember_sub he

/-- `Contains` is membership, and it stores nothing. -/
theorem SignatureCache.contains_spec (child parent : Bytes) (cache : SignatureCache) :
    (cache.contains child parent).2.entries = cache.entries ∧
      ((cache.contains child parent).1 = true → (child, parent) ∈ cache.entries) := by
  unfold contains
  split_ifs with hany
  · refine ⟨rfl, ?_⟩
    intro _
    obtain ⟨⟨c, p⟩, he, heq⟩ := any_eq_true.1 hany
    simp only [Bool.and_eq_true, beq_iff_eq] at heq
    rw [← heq.1, ← heq.2]
    exact he
  · exact ⟨rfl, by simp⟩

/-- every cached chain is a fresh one, every cached pair a valid signature -/
structure X509Caches.Inv (s : X509Caches Cert) : Prop where
  chains : ∀ entry ∈ s.certificates.entries, ∃ certificateChain, freshChain lib certificateChain = .ok entry.parsed
  pairs : ∀ entry ∈ s.signatures.entries, ∀ child parent, lib.raw child = entry.1 → lib.raw parent = entry.2 →
    lib.checkSignature child parent = true

theorem X509Caches.inv_empty : (X509Caches.empty : X509Caches Cert).Inv lib :=
  ⟨fun _ h => absurd h not_mem_nil, fun _ h => absurd h not_mem_nil⟩

section
variable {lib : X509Library Cert} {sizes : CacheSizes Cert} {pressure : ℕ → Pressure Cert}

/-- Losing entries keeps the invariant. -/
theorem X509Caches.Inv.mono {s t : X509Caches Cert} (h : s.Inv lib)
    (hchains : t.certificates.entries ⊆ s.certificates.entries) (hpairs : t.signatures.entries ⊆ s.signatures.entries) :
    t.Inv lib := ⟨fun entry he => h.chains entry (hchains he), fun entry he => h.pairs entry (hpairs he)⟩

theorem accessCaches_triple : Triple (X509Caches.Inv lib) (accessCaches pressure) fun _ s => s.Inv lib := by
  intro s hs
  exact hs.mono ((pressure s.accesses).chains_sub s) ((pressure s.accesses).pairs_sub s)

/-- A chain that is found is the one that parsing anew gives. -/
theorem findChain_triple (certificateChain : List Bytes) :
    Triple (X509Caches.Inv lib) (findChain lib pressure certificateChain) fun found s =>
      (∀ chain, found = some chain → freshChain lib certificateChain = .ok chain) ∧ s.Inv lib := by
  refine Triple.bind accessCaches_triple fun _ => ?_
  intro s hs
  obtain ⟨hsub, hhit⟩ := s.certificates.find_spec lib certificateChain
  refine ⟨?_, hs.mono hsub (List.Subset.refl _)⟩
  intro chain hfound
  obtain ⟨rfl, entry, he, rfl⟩ := hhit chain hfound
  obtain ⟨stored, hstored⟩ := hs.chains entry he
  exact freshChain_raw hstored

theorem rememberChain_triple {parsed : CachedCertificateChain Cert}
    (hfresh : freshChain lib certificateChain = .ok parsed) :
    Triple (X509Caches.Inv lib) (rememberChain lib sizes pressure parsed) fun _ s => s.Inv lib := by
  refine Triple.bind accessCaches_triple fun _ => Triple.modify ?_
  intro s hs
  refine ⟨?_, hs.pairs⟩
  intro entry he
  rcases s.certificates.remember_sub lib sizes parsed entry he with he | he
  · exact hs.chains entry he
  · exact ⟨certificateChain, he ▸ hfresh⟩

theorem cachedChain_answers (certificateChain : List Bytes) :
    Answers (X509Caches.Inv lib) (cachedChain lib sizes pressure certificateChain)
    (freshChain lib certificateChain) := by
  refine Triple.bind (findChain_triple certificateChain) fun found => Triple.of_fact ?_
  intro hfound
  cases found with
  | some chain =>
    rw [hfound chain rfl]
    exact Answers.pure
  | none =>
    cases hfresh : freshChain lib certificateChain with
    | error e => exact Answers.pure
    | ok parsed =>
      refine Triple.bind (rememberChain_triple hfresh) fun _ => ?_
      exact Answers.pure

/-- The pairs stored are good for every certificate with these bytes. -/
theorem signatureMemo_sound : SignatureMemo.Sound lib.toX509
    ⟨signatureLookup lib pressure, signatureRemember lib sizes pressure⟩ (X509Caches.Inv lib) := by
  refine ⟨?_, ?_⟩
  · intro child parent
    refine Triple.bind accessCaches_triple fun _ => ?_
    intro s hs
    obtain ⟨hsame, hhit⟩ := s.signatures.contains_spec (lib.raw child) (lib.raw parent)
    refine ⟨?_, hs.mono (List.Subset.refl _) (hsame ▸ List.Subset.refl _)⟩
    intro hfound
    exact hs.pairs _ (hhit hfound) child parent rfl rfl
  · intro child parent hvalid
    refine Triple.bind accessCaches_triple fun allocationFails => Triple.modify ?_
    intro s hs
    refine ⟨hs.chains, ?_⟩
    intro entry he child' parent' hchild hparent
    rcases s.signatures.remember_sub sizes allocationFails (lib.raw child) (lib.raw parent) entry he with he | rfl
    · exact hs.pairs entry he child' parent' hchild hparent
    · rw [lib.checkSignature_raw child' parent' child parent hchild hparent]
      exact hvalid

theorem cachedServices_transparent : (cachedServices lib sizes pressure).Transparent lib (X509Caches.Inv lib) := by
  refine ⟨cachedChain_answers, ?_⟩
  intro child parent
  exact Answers.bind Answers.pure (signatureMemo_sound.checkSignature child parent)

/-! ## Histories -/

/-- a thread makes a call with its own caches -/
def threadCall [Crypto] {Thread : Type} [DecidableEq Thread] (lib : X509Library Cert) (sizes : CacheSizes Cert)
    (pressure : Thread → ℕ → Pressure Cert) (call : Thread × CertificateCall) :
    StateM (Thread → X509Caches Cert) (Except String Unit) :=
  onPart call.1 (call.2.run lib (cachedServices lib sizes (pressure call.1)))

/-- **The caches are transparent.** For every history of verifications and message checks by any threads, under any loss
of entries and failing allocations at each access, the answers are those with both caches disabled. -/
theorem certificate_caches_transparent [Crypto] {Thread : Type} [DecidableEq Thread] (lib : X509Library Cert)
    (sizes : CacheSizes Cert) (pressure : Thread → ℕ → Pressure Cert) (history : List (Thread × CertificateCall)) :
    ((history.mapM (threadCall lib sizes pressure)).run fun _ => X509Caches.empty).1 =
      history.map fun call => call.2.verdict lib := by
  have hcall : ∀ call ∈ history, Answers (fun s : Thread → X509Caches Cert => ∀ t, (s t).Inv lib)
      (threadCall lib sizes pressure call) (call.2.verdict lib) := by
    intro call _
    exact Answers.onPart (call.2.run_answers cachedServices_transparent)
  exact (Answers.mapM hcall _ fun _ => X509Caches.inv_empty lib).1

/-- certificates that are their first byte; byte n is signed by byte n + 1 -/
def firstByteLibrary : X509Library UInt8 where
  toX509 := issuedBy (· + 1)
  parseDer := head?
  raw crt := [crt]
  validFrom _ := ⟨1970, 1, 1, 0, 0, 0⟩
  validTo _ := ⟨2100, 1, 1, 0, 0, 0⟩
  mayDigitallySign _ := true
  mayServeTls _ := true
  rsaExponent _ := .notRsa
  isSecp256r1 _ := true
  rsaTlsSchemeMatches _ _ := false
  pkBitlen _ := 256
  verifyEcdsa _ _ _ := true
  verifyRsaPss _ _ _ := false
  p2cRootsV1 := some [3]
  parseDer_raw _ _ _ := rfl
  checkSignature_raw child parent child' parent' hchild hparent := by
    rw [(List.cons.inj hchild).1, (List.cons.inj hparent).1]

/-- no access loses an entry -/
def undisturbed : Pressure Cert where
  lose s := s
  allocationFails := false
  chains_sub _ := List.Subset.refl _
  pairs_sub _ := List.Subset.refl _

section
attribute [local instance] toyCrypto

/-- two threads verify a chain of two certificates, the first one twice -/
def firstByteCalls : List (Bool × CertificateCall) :=
  [false, true, false].map fun thread =>
    (thread, .verify (p2cOutput 1 ⟨[97, 46, 98, 99], Uint256.ofNat 1, 1, 7⟩)
      ⟨[], [], [], [], [], [[1], [2]], TLS_ECDSA_SECP256R1_SHA256, [], Uint256.null, Uint256.null⟩ 1000)

/-- the answers, and the caches behind them -/
def firstByteRun : List (Except String Unit) × (Bool → X509Caches UInt8) :=
  (firstByteCalls.mapM (threadCall firstByteLibrary ⟨fun _ => 100, fun _ => 32, 64, 16, id, id⟩
    fun _ _ => undisturbed)).run fun _ => X509Caches.empty

/-- The last call hits both caches of its thread; all three answers are those without a cache. -/
theorem firstByte_transparent : firstByteRun.1 = firstByteCalls.map (fun call => call.2.verdict firstByteLibrary) ∧
      firstByteRun.1 = [.ok (), .ok (), .ok ()] ∧ (firstByteRun.2 false).certificates.hits = 1 ∧
      (firstByteRun.2 false).signatures.hits = 2 ∧ (firstByteRun.2 true).certificates.hits = 0 :=
  ⟨certificate_caches_transparent firstByteLibrary _ (fun _ _ => undisturbed) _, by decide +kernel⟩

end

end

end ConnectCoin.P2C
