/-
The three RandomX key schedules agree.

`pow.cpp` takes the key of a block from the block index, `HasValidProofOfWork` from the index or from the batch at hand,
and a headers sync from the start block's ancestors or from the epoch blocks it has noted. All three start from
`RandomXSeedHeight`, which subtracts the lag in 32 bits and compares it as an `int`.

- `PresyncChecks`, `RedownloadChecks`: the state in which the sync, in a run of calls, checks a header.
Results:
- `seed_cases`: a seed height is 0, or a multiple of the epoch below the block; only a lag that does not fit an `int`
  makes it negative;
- `syncKey_eq`, `batchKey_eq`: for every chain, list of headers and batch, the sync's key and the batch's key are the
  index's key, present or not;
- `key_schedules_agree`: with a lag that fits an `int` they are there and the same, in every run of calls;
- `wrapped_lag_no_key`: a lag of 2^31 has blocks without a key.
-/
import ConnectCoin.Sync.Completion

namespace ConnectCoin

open Lib CBlockIndex List

/-! ## Seed heights -/

theorem toInt32_toInt (x : UInt32) : x.toInt32.toInt = if x.toNat < 2 ^ 31 then (x.toNat : ℤ) else
    x.toNat - 2 ^ 32 := by
  have h : x.toInt32.toInt = x.toBitVec.toInt := rfl
  rw [h, BitVec.toInt_eq_toNat_cond]
  simp only [UInt32.toNat_toBitVec]
  split_ifs <;> omega

variable {height : ℕ} {E : SyncEnv} {m : KeyBlocks} {id : Uint256} (P : Params)

/-- the multiple of the epoch, in 32 bits -/
theorem wrapped_multiple (h : height < 2 ^ 31) :
    ((UInt32.ofNat height - P.randomxEpochLag) / P.randomxEpochBlocks * P.randomxEpochBlocks).toNat =
      (height + 2 ^ 32 - P.randomxEpochLag.toNat) % 2 ^ 32 / P.randomxEpochBlocks.toNat *
        P.randomxEpochBlocks.toNat := by
  have hlag := P.randomxEpochLag.toNat_lt
  have hle := Nat.div_mul_le_self ((height + 2 ^ 32 - P.randomxEpochLag.toNat) % 2 ^ 32) P.randomxEpochBlocks.toNat
  have hsub : (UInt32.ofNat height - P.randomxEpochLag).toNat =
      (height + 2 ^ 32 - P.randomxEpochLag.toNat) % 2 ^ 32 := by
    rw [UInt32.toNat_sub, UInt32.toNat_ofNat_of_lt' (by rw [UInt32.size]; omega)]
    congr 1
    omega
  rw [UInt32.toNat_mul, UInt32.toNat_div, hsub, Nat.mod_eq_of_lt]
  exact lt_of_le_of_lt hle (Nat.mod_lt _ (by norm_num))

theorem seed_of_small_lag (h : height < 2 ^ 31) (hepoch : P.randomxEpochBlocks ≠ 0)
    (hlag : P.randomxEpochLag.toNat < 2 ^ 31) : randomXSeedHeight P height =
      ((height - P.randomxEpochLag.toNat) / P.randomxEpochBlocks.toNat * P.randomxEpochBlocks.toNat : ℕ) := by
  have hle := Nat.div_mul_le_self (height - P.randomxEpochLag.toNat) P.randomxEpochBlocks.toNat
  rw [randomXSeedHeight, if_neg hepoch, toInt32_toInt, if_pos hlag]
  by_cases hsmall : (height : ℤ) ≤ P.randomxEpochLag.toNat
  · have hzero : height - P.randomxEpochLag.toNat = 0 := by omega
    rw [if_pos hsmall, hzero, Nat.zero_div, Nat.zero_mul]
    rfl
  · have hx : (height + 2 ^ 32 - P.randomxEpochLag.toNat) % 2 ^ 32 = height - P.randomxEpochLag.toNat := by omega
    rw [if_neg hsmall, toInt32_toInt, wrapped_multiple P h, hx, if_pos (by omega)]

theorem seed_of_large_lag (h : height < 2 ^ 31) (hepoch : P.randomxEpochBlocks ≠ 0)
    (hlag : 2 ^ 31 ≤ P.randomxEpochLag.toNat) (hlt : P.randomxEpochLag.toNat < P.randomxEpochBlocks.toNat) :
    randomXSeedHeight P height ≤ 0 := by
  have hmax := P.randomxEpochBlocks.toNat_lt
  have hx : (height + 2 ^ 32 - P.randomxEpochLag.toNat) % 2 ^ 32 = height + 2 ^ 32 - P.randomxEpochLag.toNat := by omega
  have hnegative : ¬ (height : ℤ) ≤ P.randomxEpochLag.toNat - 2 ^ 32 := by omega
  rw [randomXSeedHeight, if_neg hepoch, toInt32_toInt, if_neg (Nat.not_lt.2 hlag), if_neg hnegative, toInt32_toInt,
    wrapped_multiple P h, hx]
  -- less than two epochs fit into 32 bits
  have htwo : (height + 2 ^ 32 - P.randomxEpochLag.toNat) / P.randomxEpochBlocks.toNat < 2 :=
    Nat.div_lt_of_lt_mul (by omega)
  interval_cases (height + 2 ^ 32 - P.randomxEpochLag.toNat) / P.randomxEpochBlocks.toNat
  · simp
  · rw [Nat.one_mul, if_neg (by omega)]
    omega

/-- What a seed height can be. -/
theorem seed_cases (h : height < 2 ^ 31) : randomXSeedHeight P height = 0 ∨
    (∃ seed : ℕ, randomXSeedHeight P height = seed ∧ 0 < seed ∧ seed < height ∧ P.randomxEpochBlocks ≠ 0 ∧
      seed % P.randomxEpochBlocks.toNat = 0) ∨
    randomXSeedHeight P height < 0 ∧ P.randomxEpochBlocks ≠ 0 ∧ 2 ^ 31 ≤ P.randomxEpochLag.toNat := by
  by_cases hepoch : P.randomxEpochBlocks = 0
  · exact Or.inl (if_pos hepoch)
  obtain ⟨hpos, hlt⟩ := P.schedule_ok.resolve_left hepoch
  rw [UInt32.lt_iff_toNat_lt] at hpos hlt
  change 0 < P.randomxEpochLag.toNat at hpos
  rcases Nat.lt_or_ge P.randomxEpochLag.toNat (2 ^ 31) with hlag | hlag
  · have hseed := seed_of_small_lag P h hepoch hlag
    have hle := Nat.div_mul_le_self (height - P.randomxEpochLag.toNat) P.randomxEpochBlocks.toNat
    rcases Nat.eq_zero_or_pos ((height - P.randomxEpochLag.toNat) / P.randomxEpochBlocks.toNat *
      P.randomxEpochBlocks.toNat) with hzero | hmul
    · exact Or.inl (by rw [hseed, hzero]; rfl)
    · exact Or.inr (Or.inl ⟨_, hseed, hmul, by omega, hepoch, Nat.mul_mod_left _ _⟩)
  · rcases (seed_of_large_lag P h hepoch hlag hlt).eq_or_lt with hzero | hneg
    · exact Or.inl hzero
    · exact Or.inr (Or.inr ⟨hneg, hepoch, hlag⟩)

/-! ## The epoch blocks of a sync -/

theorem lookup_noteKeyBlock {height n : ℕ} {v : Uint256} (h : m.lookup height = some v) :
    (E.noteKeyBlock m n id).lookup height = some v := by
  unfold SyncEnv.noteKeyBlock KeyBlocks.emplace
  split_ifs
  · exact h
  · unfold KeyBlocks.lookup at h ⊢
    rw [Option.map_eq_some_iff] at h
    obtain ⟨e, he, rfl⟩ := h
    rw [find?_append, he]
    rfl
  · exact h

/-- a noted epoch block is found -/
theorem lookup_noteKeyBlock_self {n : ℕ} (hm : ∀ e ∈ m, e.1 < n) (hepoch : E.P.randomxEpochBlocks ≠ 0)
    (hn : n % E.P.randomxEpochBlocks.toNat = 0) : (E.noteKeyBlock m n id).lookup n = some id := by
  have hfresh : ∀ e ∈ m, ¬ (e.1 == n) = true := by
    intro e he
    have hlt := hm e he
    simp only [beq_iff_eq]
    omega
  have hany : ¬ (m.any fun e => e.1 == n) = true := by
    rw [any_eq_true]
    rintro ⟨e, he, heq⟩
    exact hfresh e he heq
  rw [SyncEnv.noteKeyBlock, if_pos ⟨hepoch, hn⟩, KeyBlocks.emplace, if_neg hany, KeyBlocks.lookup, find?_append,
    find?_eq_none.2 hfresh]
  simp

theorem noteKeyBlock_lt {n : ℕ} (hm : ∀ e ∈ m, e.1 < n) : ∀ e ∈ E.noteKeyBlock m n id, e.1 < n + 1 := by
  have hm' : ∀ e ∈ m, e.1 < n + 1 := fun e he => (hm e he).trans (Nat.lt_succ_self n)
  unfold SyncEnv.noteKeyBlock KeyBlocks.emplace
  split_ifs
  · exact hm'
  · intro e he
    rcases mem_append.1 he with hold | hnew
    · exact hm' e hold
    · rw [mem_singleton.1 hnew]
      exact Nat.lt_succ_self n
  · exact hm'

/-! ## Ancestors in an extension -/

section
variable [Crypto] {hs A batch : List CBlockHeader} {b : CBlockIndex} {P : Params} {n i : ℕ} {h : CBlockHeader}

theorem extend_take_hash (b : CBlockIndex) (hn : hs[n]? = some h) :
    (b.extend (hs.take (n + 1))).getBlockHash = h.getHash := by
  rw [take_add_one, hn, extend_append]
  rfl

/-- Below b, an extension of b has b's ancestors. -/
theorem extend_getAncestor_below (hb : Built b) (hl : Linked b hs)
    (hle : height ≤ b.nHeight) : (b.extend hs).getAncestor height = b.getAncestor height := by
  have hend := extend_nHeight b hs
  have hup := extend_above b [] hs
  rw [nil_append, extend_nil] at hup
  rw [(hb.extend hl).getAncestor_eq (by omega), hb.getAncestor_eq hle]
  exact (up_via pprev (by rw [show (b.extend hs).nHeight - b.nHeight = hs.length by omega]; exact hup) hle
    (by omega)).symm

/-- From b on, the ancestors of an extension are the extensions by its prefixes. -/
theorem extend_getAncestor_above (hb : Built b) (hl : Linked b hs) (hle : n ≤ hs.length) :
    (b.extend hs).getAncestor (b.nHeight + n : ℕ) = some (b.extend (hs.take n)) := by
  have hup := extend_above b (hs.take n) (hs.drop n)
  rw [take_append_drop, length_drop] at hup
  rw [(hb.extend hl).getAncestor_eq (by rw [extend_nHeight]; omega), extend_nHeight]
  rw [show b.nHeight + hs.length - (b.nHeight + n) = hs.length - n by omega]
  exact hup

theorem lookup_keyBlocks_of_lookup {v : Uint256} (h : m.lookup height = some v) :
    (keyBlocks E m b hs).lookup height = some v := by
  induction hs generalizing m b with
  | nil => exact h
  | cons x hs ih => exact ih (lookup_noteKeyBlock h)

/-- Every epoch block of the list is found under its height. -/
theorem lookup_keyBlocks (hepoch : E.P.randomxEpochBlocks ≠ 0) (hm : ∀ e ∈ m, e.1 < b.nHeight + 1)
    (hn : hs[n]? = some h) (hmul : (b.nHeight + n + 1) % E.P.randomxEpochBlocks.toNat = 0) :
    (keyBlocks E m b hs).lookup (b.nHeight + n + 1) = some h.getHash := by
  induction hs generalizing m b n with
  | nil => simp at hn
  | cons x hs ih =>
    rw [keyBlocks]
    cases n with
    | zero =>
      obtain rfl : x = h := Option.some_inj.1 hn
      exact lookup_keyBlocks_of_lookup (lookup_noteKeyBlock_self hm hepoch hmul)
    | succ n =>
      have hshift : b.nHeight + (n + 1) + 1 = (b.child x).nHeight + n + 1 := by
        rw [child_nHeight]
        omega
      rw [hshift] at hmul ⊢
      exact ih (noteKeyBlock_lt hm) hn hmul

/-! ## The keys -/

theorem getRandomXKey_some (P : Params) (b : CBlockIndex) :
    getRandomXKey P (some b) = if randomXSeedHeight P (b.nHeight + 1) = 0 then some P.randomxBootstrapKey
      else (b.getAncestor (randomXSeedHeight P (b.nHeight + 1))).map getBlockHash := rfl

theorem batchKey_some (P : Params) (prev : CBlockIndex) (ids : List Uint256) (i : ℕ) :
    batchKey P (some prev) ids i = if randomXSeedHeight P (prev.nHeight + 1 + i) = 0 then some P.randomxBootstrapKey
      else if randomXSeedHeight P (prev.nHeight + 1 + i) ≤ prev.nHeight then
        (prev.getAncestor (randomXSeedHeight P (prev.nHeight + 1 + i))).map getBlockHash
      else batchKey.batchSeed ids i (prev.nHeight + 1) (randomXSeedHeight P (prev.nHeight + 1 + i)) := rfl

/-- A key taken from b's ancestors up to b, and after b from the epoch blocks of A as `later` finds them, is the index's
key at the entry that A ends in. -/
theorem extend_key (hb : Built b) (hl : Linked b A) (hint : b.nHeight + A.length + 1 < 2 ^ 31)
    (later : ℤ → Option Uint256) (hlater : ∀ n h, A[n]? = some h → P.randomxEpochBlocks ≠ 0 →
        (b.nHeight + n + 1) % P.randomxEpochBlocks.toNat = 0 → later (b.nHeight + n + 1 : ℕ) = some h.getHash) :
    (if randomXSeedHeight P (b.nHeight + A.length + 1) = 0 then some P.randomxBootstrapKey
      else if randomXSeedHeight P (b.nHeight + A.length + 1) ≤ b.nHeight then
        (b.getAncestor (randomXSeedHeight P (b.nHeight + A.length + 1))).map getBlockHash
      else later (randomXSeedHeight P (b.nHeight + A.length + 1))) = getRandomXKey P (some (b.extend A)) := by
  rw [getRandomXKey_some, extend_nHeight]
  rcases seed_cases P hint with hzero | ⟨seed, hseed, hpos, hlt, hepoch, hmul⟩ | ⟨hneg, -⟩
  · rw [if_pos hzero, if_pos hzero]
  · have hne : ¬ (seed : ℤ) = 0 := by omega
    rw [hseed, if_neg hne, if_neg hne]
    by_cases hbelow : (seed : ℤ) ≤ b.nHeight
    · rw [if_pos hbelow, extend_getAncestor_below hb hl (by omega)]
    · obtain ⟨n, rfl⟩ : ∃ n, seed = b.nHeight + n + 1 := ⟨seed - b.nHeight - 1, by omega⟩
      have hn : n < A.length := by omega
      have hget : A[n]? = some A[n] := getElem?_eq_getElem hn
      rw [if_neg hbelow, hlater n _ hget hepoch hmul, Nat.add_assoc, extend_getAncestor_above hb hl hn, Option.map_some,
        extend_take_hash _ hget]
  · have hlow : randomXSeedHeight P (b.nHeight + A.length + 1) ≤ b.nHeight := by omega
    rw [if_neg hneg.ne, if_neg hneg.ne, if_pos hlow, getAncestor_of_neg _ hneg, getAncestor_of_neg _ hneg]

/-- The key `HasValidProofOfWork` uses at an index of a batch is the index's key at the entry before that header. -/
theorem batchKey_eq {prev : CBlockIndex} (hb : Built prev) (hl : Linked prev batch) (hi : i < batch.length)
    (hint : prev.nHeight + i + 1 < 2 ^ 31) : batchKey P (some prev) (batch.map CBlockHeader.getHash) i =
      getRandomXKey P (some (prev.extend (batch.take i))) := by
  have hlt : Linked prev (batch.take i) := by
    rw [← take_append_drop i batch, linked_append] at hl
    exact hl.1
  have hlen : (batch.take i).length = i := length_take_of_le hi.le
  rw [batchKey_some, ← extend_key hb hlt (by rwa [hlen]) _, hlen, Nat.add_right_comm]
  intro n h hn hepoch hmul
  rw [getElem?_take, Option.ite_none_right_eq_some] at hn
  have hoffset : (((prev.nHeight + n + 1 : ℕ) : ℤ) - (prev.nHeight + 1 : ℕ)).toNat = n := by omega
  rw [batchKey.batchSeed, hoffset, if_neg (by omega), getElem?_map, hn.2]
  rfl

theorem getRandomXKey_exists (hlag : P.randomxEpochBlocks ≠ 0 → P.randomxEpochLag.toNat < 2 ^ 31) (hb : Built b)
    (hint : b.nHeight + 1 < 2 ^ 31) : ∃ key, getRandomXKey P (some b) = some key := by
  rw [getRandomXKey_some]
  rcases seed_cases P hint with hzero | ⟨seed, hseed, hpos, hlt, hepoch, hmul⟩ | ⟨-, hepoch, hlarge⟩
  · exact ⟨_, if_pos hzero⟩
  · obtain ⟨a, ha, -⟩ := grown_graded.up_exists hb.grown (show b.nHeight - seed ≤ b.nHeight by omega)
    refine ⟨a.getBlockHash, ?_⟩
    rw [hseed, if_neg (by omega), hb.getAncestor_eq (by omega), above, ha]
    rfl
  · exact absurd (hlag hepoch) (Nat.not_lt.2 hlarge)

/-- The key a sync uses after A is the index's key at the entry that A ends in. -/
theorem syncKey_eq (hb : Built E.chainStart) (hl : Linked E.chainStart A)
    (hint : (E.chainStart.extend A).nHeight + 1 < 2 ^ 31) :
    E.getRandomXKey ((E.chainStart.extend A).nHeight + 1) (keyBlocks E [] E.chainStart A) =
      getRandomXKey E.P (some (E.chainStart.extend A)) := by
  rw [extend_nHeight] at hint ⊢
  refine extend_key hb hl hint (fun seed => (keyBlocks E [] E.chainStart A).lookup seed.toNat) ?_
  intro n h hn hepoch hmul
  exact lookup_keyBlocks hepoch (by simp) hn hmul

/-! ## Runs of calls -/

/-- in a first pass of calls, the sync checks the header at index i of the next call in the state m -/
structure PresyncChecks (E : SyncEnv) (calls : List SyncCall) (call : SyncCall) (i : ℕ) (m : HeadersSyncState) :
    Prop where
  phase : (runCalls E (HeadersSyncState.init E) calls).2.downloadState = .PRESYNC
  loop : (call.headers.take i).foldlM (validateAndProcessSingleHeader E call.powChecked)
    (runCalls E (HeadersSyncState.init E) calls).2 = .ok m

/-- a first pass turns to REDOWNLOAD with its last call; after the calls of a second pass, the sync checks the header at
index i of the next call in the state m -/
structure RedownloadChecks (E : SyncEnv) (first : List SyncCall) (last : SyncCall) (calls : List SyncCall)
    (call : SyncCall) (i : ℕ) (m : HeadersSyncState) : Prop where
  presync : (runCalls E (HeadersSyncState.init E) first).2.downloadState = .PRESYNC
  turns : (runCalls E (HeadersSyncState.init E) (first ++ [last])).2.downloadState = .REDOWNLOAD
  phase : (runCalls E (HeadersSyncState.init E) (first ++ [last] ++ calls)).2.downloadState = .REDOWNLOAD
  loop : (call.headers.take i).foldlM (validateAndStoreRedownloadedHeader E call.powChecked)
    (runCalls E (HeadersSyncState.init E) (first ++ [last] ++ calls)).2 = .ok m

variable {calls first : List SyncCall} {call last : SyncCall} {m : HeadersSyncState}

theorem PresyncChecks.state (h : PresyncChecks E calls call i m) :
    m = presynced E (sent calls ++ call.headers.take i) := by
  have hloop := h.loop
  rw [(presync_calls h.phase).1, presync_batch] at hloop
  exact hloop.2

theorem RedownloadChecks.state (h : RedownloadChecks E first last calls call i m) :
    ∃ r, m = redownloading E (sent (first ++ [last])) (sent calls ++ call.headers.take i) r := by
  have hphase := h.phase
  have hloop := h.loop
  rw [runCalls_append, (presync_turns h.presync h.turns).1] at hphase hloop
  obtain ⟨r, hstate, hr, hA⟩ := redownload_calls_continue (A := []) (le_refl 0) nil_prefix trivial
    (show _ ≠ DownloadState.FINAL by rw [hphase]; decide)
  rw [nil_append] at hstate hr hA
  simp only [hstate] at hloop
  exact ⟨r, ((redownload_batch E _ r _ _ _ m hr hA).1 hloop).2⟩

/-- For every indexed start block, every lag that fits an `int`, every linked list of headers and each of its headers,
there is one key: the index's, that of `HasValidProofOfWork` in any batch that holds the header, and that of the sync
whenever a run of calls, in any batches and with any flags, checks the header in PRESYNC or again in REDOWNLOAD. -/
theorem key_schedules_agree (E : SyncEnv) (hb : Built E.chainStart)
    (hlag : E.P.randomxEpochBlocks ≠ 0 → E.P.randomxEpochLag.toNat < 2 ^ 31) (L : List CBlockHeader)
    (hl : Linked E.chainStart L) (hint : E.chainStart.nHeight + L.length < 2 ^ 31) (n : ℕ) (hn : n < L.length) :
    ∃ key, getRandomXKey E.P (some (E.chainStart.extend (L.take n))) = some key ∧
      (∀ before batch i, before ++ batch <+: L → i < batch.length → before.length + i = n →
        batchKey E.P (some (E.chainStart.extend before)) (batch.map CBlockHeader.getHash) i = some key) ∧
      (∀ calls call i m, PresyncChecks E calls call i m → sent calls ++ call.headers.take i = L.take n →
        E.getRandomXKey (m.currentHeight + 1) m.presyncRandomxKeyBlocks = some key) ∧
      ∀ first last calls call i m, RedownloadChecks E first last calls call i m →
        sent calls ++ call.headers.take i = L.take n →
        E.getRandomXKey (m.redownloadBufferLastHeight + 1) m.redownloadRandomxKeyBlocks = some key := by
  have hpart : ∀ {A}, A <+: L → Linked E.chainStart A := by
    rintro A ⟨rest, rfl⟩
    exact (linked_append.1 hl).1
  have htake := hpart ⟨_, take_append_drop n L⟩
  have hheight : (E.chainStart.extend (L.take n)).nHeight + 1 < 2 ^ 31 := by
    rw [extend_nHeight, length_take_of_le hn.le]
    omega
  obtain ⟨key, hkey⟩ := getRandomXKey_exists hlag (hb.extend htake) hheight
  have hsync := (syncKey_eq hb htake hheight).trans hkey
  refine ⟨key, hkey, fun before batch i hsplit hi hpos => ?_, fun calls call i m hchecks hsent => ?_,
    fun first last calls call i m hchecks hsent => ?_⟩
  · obtain ⟨hbefore, hbatch⟩ := linked_append.1 (hpart hsplit)
    have htaken : L.take n = before ++ batch.take i := by
      obtain ⟨rest, rfl⟩ := hsplit
      rw [← hpos, append_assoc, take_length_add_append, take_append_of_le_length hi.le]
    rw [batchKey_eq (hb.extend hbefore) hbatch hi (by rw [extend_nHeight]; omega), ← extend_append, ← htaken]
    exact hkey
  · rw [hchecks.state, hsent]
    exact hsync
  · obtain ⟨r, rfl⟩ := hchecks.state
    rw [hsent]
    exact hsync

end

/-! ## Schedules -/

section
attribute [local instance] toyCrypto

/-- headers over a hash, one after the other -/
def headersOver : Uint256 → ℕ → List CBlockHeader
  | _, 0 => []
  | prev, n + 1 => sampleHeader (.ofNat n) prev :: headersOver (sampleHeader (.ofNat n) prev).getHash n

/-- six headers, worth 2 each, over epochs of three blocks and a lag of two -/
def epochChain : List CBlockHeader := headersOver sampleStart.getHash 6

def epochSync : SyncEnv :=
  { sampleSync with
    P := { sampleParams with
      randomxEpochBlocks := 3
      randomxEpochLag := 2
      schedule_ok := Or.inr (by decide)
      powLimit := steepParams.powLimit }
    minimumRequiredWork := 14 }

/-- the first pass in three calls, the second in two -/
def epochFirst : List SyncCall := [⟨epochChain.take 2, true, false⟩, ⟨(epochChain.drop 2).take 2, true, false⟩]
def epochLast : SyncCall := ⟨epochChain.drop 4, true, false⟩
def epochAgain : List SyncCall := [⟨epochChain.take 3, true, false⟩]
def epochRest : SyncCall := ⟨epochChain.drop 3, true, false⟩

/-- The fifth header is checked in both passes, under the hash of the third one, which came in another call. -/
theorem epochSchedule_agrees : ∃ m m' key, PresyncChecks epochSync epochFirst epochLast 0 m ∧
    RedownloadChecks epochSync epochFirst epochLast epochAgain epochRest 1 m' ∧
    (epochChain[2]?).map CBlockHeader.getHash = some key ∧
    getRandomXKey epochSync.P (some (epochSync.chainStart.extend (epochChain.take 4))) = some key ∧
    batchKey epochSync.P (some (epochSync.chainStart.extend (epochChain.take 1)))
      (((epochChain.drop 1).take 4).map CBlockHeader.getHash) 3 = some key ∧
    epochSync.getRandomXKey (m.currentHeight + 1) m.presyncRandomxKeyBlocks = some key ∧
    epochSync.getRandomXKey (m'.redownloadBufferLastHeight + 1) m'.redownloadRandomxKeyBlocks = some key := by
  have hok : ∀ x : Except HeadersSyncState HeadersSyncState, x.isOk = true → ∃ m, x = .ok m := by
    intro x hx
    cases x with
    | error e => cases hx
    | ok m => exact ⟨m, rfl⟩
  obtain ⟨m, hm⟩ :=
    hok ((epochLast.headers.take 0).foldlM (validateAndProcessSingleHeader epochSync epochLast.powChecked)
    (runCalls epochSync (HeadersSyncState.init epochSync) epochFirst).2) (by decide +kernel)
  obtain ⟨m', hm'⟩ := hok ((epochRest.headers.take 1).foldlM
    (validateAndStoreRedownloadedHeader epochSync epochRest.powChecked)
    (runCalls epochSync (HeadersSyncState.init epochSync) (epochFirst ++ [epochLast] ++ epochAgain)).2)
      (by decide +kernel)
  have hchecks : PresyncChecks epochSync epochFirst epochLast 0 m := ⟨by decide +kernel, hm⟩
  have hagain : RedownloadChecks epochSync epochFirst epochLast epochAgain epochRest 1 m' :=
    ⟨by decide +kernel, by decide +kernel, by decide +kernel, hm'⟩
  obtain ⟨key, hkey, hbatch, hpresync, hredownload⟩ :=
    key_schedules_agree epochSync (.root _ rfl) (by decide) epochChain
    ⟨rfl, rfl, rfl, rfl, rfl, rfl, trivial⟩ (by decide +kernel) 4 (by decide +kernel)
  have hseed : getRandomXKey epochSync.P (some (epochSync.chainStart.extend (epochChain.take 4))) =
      (epochChain[2]?).map CBlockHeader.getHash := by decide +kernel
  exact ⟨m, m', key, hchecks, hagain, hseed.symm.trans hkey, hkey, hbatch _ _ 3 (by decide +kernel) (by decide +kernel)
    (by decide +kernel), hpresync _ _ _ _ hchecks (by decide +kernel),
      hredownload _ _ _ _ _ _ hagain (by decide +kernel)⟩

/-- `sampleSync` with a lag and an epoch that the assertions allow but that do not fit an `int` -/
def wrappedSync : SyncEnv :=
  { sampleSync with
    P := { sampleParams with
      randomxEpochBlocks := 2147483649
      randomxEpochLag := 2147483648
      schedule_ok := Or.inr (by decide) } }

/-- With a lag of 2^31, the first block has no key in any of the three, and the sync refuses it. -/
theorem wrapped_lag_no_key : Built wrappedSync.chainStart ∧ Linked wrappedSync.chainStart [sampleFirst] ∧
    wrappedSync.getRandomXKey 1 (HeadersSyncState.init wrappedSync).presyncRandomxKeyBlocks = none ∧
    (processNextHeaders wrappedSync (HeadersSyncState.init wrappedSync) ⟨[sampleFirst], true, true⟩).1.success = false ∧
    batchKey wrappedSync.P (some wrappedSync.chainStart) [sampleFirst.getHash] 0 = none ∧
    getRandomXKey wrappedSync.P (some wrappedSync.chainStart) = none := ⟨.root _ rfl, ⟨rfl, trivial⟩, by decide +kernel⟩

end

end ConnectCoin
