/-
What a headers sync holds, as a function of the headers it has accepted.

Abstract model: P, the headers accepted in PRESYNC; A, those accepted in REDOWNLOAD; r, how many of A were released. The
members of the sync are `presynced E P` or `redownloading E P A r`: its work, heights and hashes are those of the entry
that indexing the headers over the start block would end in (`CBlockIndex.extend`), the key blocks are the epoch blocks
of the list, and the queue of commitments is the bits of P without those that A consumed (`checkedBits`).

Results (the operations refine the model, each as an iff):
- `validateAndProcessSingleHeader_ok`, `validateAndStoreRedownloadedHeader_ok`: one header extends P or A, exactly when
  it is acceptable (`PresyncOk`, `RedownloadOk`);
- `presync_batch`, `redownload_batch`: a batch, by `foldlM_track`;
- `popHeadersReadyForAcceptance_eq`: release only moves r.
-/
import ConnectCoin.Sync.HeadersSync

namespace ConnectCoin

open Lib CBlockIndex List

/-! ## Work of a list of headers -/

/-- some extension of b by a non-empty prefix has the required work -/
def workMet (E : SyncEnv) : CBlockIndex → List CBlockHeader → Bool
  | _, [] => false
  | b, h :: hs => decide ((b.child h).nChainWork ≥ E.minimumRequiredWork) || workMet E (b.child h) hs

variable {A : List CBlockHeader} (E : SyncEnv) (b : CBlockIndex)

theorem workMet_append (xs ys : List CBlockHeader) :
    workMet E b (xs ++ ys) = (workMet E b xs || workMet E (b.extend xs) ys) := by
  induction xs generalizing b with
  | nil => simp [workMet]
  | cons x xs ih => simp [workMet, ih, Bool.or_assoc]

/-- The work is met on a list iff some non-empty prefix has it. -/
theorem workMet_iff (hs : List CBlockHeader) :
    workMet E b hs = true ↔ ∃ j, 1 ≤ j ∧ j ≤ hs.length ∧ (b.extend (hs.take j)).nChainWork ≥ E.minimumRequiredWork := by
  induction hs generalizing b with
  | nil =>
    simp only [workMet, Bool.false_eq_true, length_nil, false_iff, not_exists]
    intro j hj
    omega
  | cons h hs ih =>
    rw [workMet, Bool.or_eq_true, decide_eq_true_iff, ih]
    constructor
    · rintro (hnow | ⟨j, hj, hle, hwork⟩)
      · exact ⟨1, le_refl 1, by simp, by simpa using hnow⟩
      · exact ⟨j + 1, by omega, by simpa using hle, by simpa using hwork⟩
    · rintro ⟨j, hj, hle, hwork⟩
      obtain ⟨i, rfl⟩ : ∃ i, j = i + 1 := ⟨j - 1, by omega⟩
      rw [take_succ_cons, extend_cons] at hwork
      rw [length_cons] at hle
      rcases Nat.eq_zero_or_pos i with rfl | hpos
      · exact Or.inl (by simpa using hwork)
      · exact Or.inr ⟨i, hpos, by omega, hwork⟩

/-- A buffer that holds the last header compares with that header's nBits. -/
theorem previousNBits_buffered {r : ℕ} (hr : r < A.length) :
    E.previousNBits ((A.drop r).map CompressedHeader.ofHeader) = (E.chainStart.extend A).header.nBits := by
  have hne : A ≠ [] := ne_nil_of_length_pos (by omega)
  have hlast : A.getLast? = some (A.getLast hne) := getLast?_eq_some_getLast hne
  rw [SyncEnv.previousNBits, getLast?_map, getLast?_drop, if_neg (by omega), hlast, extend_getLast_header _ hlast]
  rfl

/-- how many of the headers A are released after a batch: all once the work is met, else all but the buffer -/
def releasedCount (A : List CBlockHeader) (r : ℕ) : ℕ :=
  if workMet E E.chainStart A then A.length else max r (A.length - E.redownloadBufferSize)

theorem releasedCount_le {r : ℕ} (hr : r ≤ A.length) : r ≤ releasedCount E A r ∧ releasedCount E A r ≤ A.length := by
  unfold releasedCount
  split_ifs <;> omega

section
variable [Crypto]

/-! ## Commitments and key blocks of a list of headers -/

/-- the bits PRESYNC stores for headers above the entry b -/
def commitments (E : SyncEnv) : CBlockIndex → List CBlockHeader → List Bool
  | _, [] => []
  | b, h :: hs => (if E.isCommitHeight (b.nHeight + 1) then [E.commitment h] else []) ++ commitments E (b.child h) hs

/-- the bits REDOWNLOAD compares for headers above b: those at commitment heights, until the work is met -/
def checkedBits (E : SyncEnv) : CBlockIndex → List CBlockHeader → List Bool
  | _, [] => []
  | b, h :: hs =>
    if (b.child h).nChainWork ≥ E.minimumRequiredWork then []
    else (if E.isCommitHeight (b.nHeight + 1) then [E.commitment h] else []) ++ checkedBits E (b.child h) hs

/-- the epoch blocks among headers above b, added to m -/
def keyBlocks (E : SyncEnv) : KeyBlocks → CBlockIndex → List CBlockHeader → KeyBlocks
  | m, _, [] => m
  | m, b, h :: hs => keyBlocks E (E.noteKeyBlock m (b.nHeight + 1) h.getHash) (b.child h) hs

variable (E : SyncEnv) (powChecked : Bool) (P : List CBlockHeader) (b : CBlockIndex) (A hs : List CBlockHeader)
  (h : CBlockHeader) (t : HeadersSyncState) (r : ℕ)

theorem commitments_append (xs ys : List CBlockHeader) :
    commitments E b (xs ++ ys) = commitments E b xs ++ commitments E (b.extend xs) ys := by
  induction xs generalizing b with
  | nil => rfl
  | cons x xs ih => simp [commitments, ih]

theorem keyBlocks_append (m : KeyBlocks) (b : CBlockIndex) (xs ys : List CBlockHeader) :
    keyBlocks E m b (xs ++ ys) = keyBlocks E (keyBlocks E m b xs) (b.extend xs) ys := by
  induction xs generalizing b m with
  | nil => rfl
  | cons x xs ih => simp [keyBlocks, ih]

theorem checkedBits_append (xs ys : List CBlockHeader) :
    checkedBits E b (xs ++ ys) = checkedBits E b xs ++ if workMet E b xs then [] else
      checkedBits E (b.extend xs) ys := by
  induction xs generalizing b with
  | nil => simp [checkedBits, workMet]
  | cons x xs ih =>
    by_cases hmet : (b.child x).nChainWork ≥ E.minimumRequiredWork
    · simp [checkedBits, workMet, hmet, -child_nChainWork]
    · simp [checkedBits, workMet, hmet, ih, -child_nChainWork]

theorem checkedBits_prefix_commitments : checkedBits E b hs <+: commitments E b hs := by
  induction hs generalizing b with
  | nil => exact prefix_rfl
  | cons h hs ih =>
    rw [checkedBits, commitments]
    by_cases hmet : (b.child h).nChainWork ≥ E.minimumRequiredWork
    · rw [if_pos hmet]
      exact nil_prefix
    · rw [if_neg hmet]
      exact (prefix_append_right_inj _).2 (ih _)

/-- Bits that agree as queues agree at every compared height. -/
theorem commitment_eq_of_prefix {b c : CBlockIndex} {xs ys : List CBlockHeader} (hheight : b.nHeight = c.nHeight)
    (h : checkedBits E b xs <+: commitments E c ys) {i : ℕ} {x : CBlockHeader} (hx : xs[i]? = some x)
    (hcommit : E.isCommitHeight (b.nHeight + i + 1) = true) (hunmet : workMet E b (xs.take (i + 1)) = false) :
    ∃ y, ys[i]? = some y ∧ E.commitment x = E.commitment y := by
  induction xs generalizing b c ys i with
  | nil => simp at hx
  | cons a xs ih =>
    rw [take_succ_cons, workMet, Bool.or_eq_false_iff, decide_eq_false_iff_not] at hunmet
    rw [checkedBits, if_neg hunmet.1] at h
    cases i with
    | zero =>
      obtain rfl : a = x := Option.some_inj.1 hx
      rw [if_pos (by simpa using hcommit)] at h
      cases ys with
      | nil => simp [commitments] at h
      | cons y ys =>
        rw [commitments, ← hheight, if_pos (by simpa using hcommit)] at h
        simp only [singleton_append, cons_prefix_cons] at h
        exact ⟨y, rfl, h.1⟩
    | succ i =>
      have hcommit' : E.isCommitHeight ((b.child a).nHeight + i + 1) = true := by
        rw [child_nHeight, show b.nHeight + 1 + i + 1 = b.nHeight + (i + 1) + 1 by omega]
        exact hcommit
      cases ys with
      | nil =>
        -- no bits stored: none of xs may be compared
        have hnil : checkedBits E (b.child a) xs <+: commitments E (b.child a) [] := by
          rw [commitments, prefix_nil, append_eq_nil_iff] at h
          rw [h.2]
          exact nil_prefix
        obtain ⟨y, hy, -⟩ := ih rfl hnil hx hcommit' hunmet.2
        simp at hy
      | cons y ys =>
        have htail : checkedBits E (b.child a) xs <+: commitments E (c.child y) ys := by
          rw [commitments, ← hheight] at h
          split_ifs at h
          · simp only [singleton_append, cons_prefix_cons] at h
            exact h.2
          · exact h
        obtain ⟨z, hz, heq⟩ := ih (by simp [hheight]) htail hx hcommit' hunmet.2
        exact ⟨z, hz, heq⟩

/-! ## PRESYNC -/

/-- the members after P was accepted in PRESYNC -/
def presynced : HeadersSyncState :=
  { HeadersSyncState.init E with
    currentChainWork := (E.chainStart.extend P).nChainWork
    headerCommitments := commitments E E.chainStart P
    lastHeaderReceived := (E.chainStart.extend P).header
    presyncRandomxKeyBlocks := keyBlocks E [] E.chainStart P
    currentHeight := (E.chainStart.extend P).nHeight }

/-- what PRESYNC asks of a header h after P -/
structure PresyncOk (powChecked : Bool) (P : List CBlockHeader) (h : CBlockHeader) : Prop where
  difficulty : permittedDifficultyTransition E.P ((E.chainStart.extend P).nHeight + 1)
    (E.chainStart.extend P).header.nBits h.nBits = true
  pow : E.powOk h ((E.chainStart.extend P).nHeight + 1) (keyBlocks E [] E.chainStart P) powChecked = true
  bounded : E.isCommitHeight ((E.chainStart.extend P).nHeight + 1) = true →
    (commitments E E.chainStart (P ++ [h])).length ≤ E.maxCommitments

theorem validateAndProcessSingleHeader_ok :
    validateAndProcessSingleHeader E powChecked (presynced E P) h = .ok t ↔ PresyncOk E powChecked P h ∧
      t = presynced E (P ++ [h]) := by
  have hbits : commitments E E.chainStart (P ++ [h]) = commitments E E.chainStart P ++
      if E.isCommitHeight ((E.chainStart.extend P).nHeight + 1) then [E.commitment h] else [] := by
    simp [commitments_append, commitments]
  have hnext : presynced E (P ++ [h]) = { presynced E P with
      headerCommitments := commitments E E.chainStart (P ++ [h])
      currentChainWork := (E.chainStart.extend P).nChainWork + getBlockProof h
      lastHeaderReceived := h
      currentHeight := (E.chainStart.extend P).nHeight + 1
      presyncRandomxKeyBlocks :=
        E.noteKeyBlock (keyBlocks E [] E.chainStart P) ((E.chainStart.extend P).nHeight + 1) h.getHash } := by
    simp [presynced, extend_append, keyBlocks_append, keyBlocks, Nat.add_assoc]
  have hbound : (E.isCommitHeight ((E.chainStart.extend P).nHeight + 1) = true →
      (commitments E E.chainStart P).length + 1 ≤ E.maxCommitments) ↔
      (E.isCommitHeight ((E.chainStart.extend P).nHeight + 1) = true →
        (commitments E E.chainStart (P ++ [h])).length ≤ E.maxCommitments) := by
    refine imp_congr_right fun hc => ?_
    rw [hbits, if_pos hc, length_append, length_singleton]
  rw [singleHeader_ok, hnext, hbits]
  constructor
  · rintro ⟨hd, hp, hb, ht⟩
    exact ⟨⟨hd, hp, hbound.1 hb⟩, ht⟩
  · rintro ⟨hok, ht⟩
    exact ⟨hok.difficulty, hok.pow, hbound.2 hok.bounded, ht⟩

/-- A PRESYNC batch: it continues P, and each of its headers is acceptable after those before it. -/
theorem presync_batch : hs.foldlM (validateAndProcessSingleHeader E powChecked) (presynced E P) = .ok t ↔
      AllOk (PresyncOk E powChecked) P hs ∧ t = presynced E (P ++ hs) :=
  foldlM_track (fun as x t (_ : True) => validateAndProcessSingleHeader_ok E powChecked as x t)
    (fun _ _ _ _ => trivial) trivial

/-! ## REDOWNLOAD -/

/-- the members after P was accepted in PRESYNC, A in REDOWNLOAD, and the first r headers of A were released -/
def redownloading (A : List CBlockHeader) (r : ℕ) : HeadersSyncState :=
  { presynced E P with
    downloadState := .REDOWNLOAD
    headerCommitments := (commitments E E.chainStart P).drop (checkedBits E E.chainStart A).length
    redownloadedHeaders := (A.drop r).map CompressedHeader.ofHeader
    redownloadBufferLastHeight := (E.chainStart.extend A).nHeight
    redownloadBufferLastHash := (E.chainStart.extend A).getBlockHash
    redownloadBufferFirstPrevHash := (E.chainStart.extend (A.take r)).getBlockHash
    redownloadRandomxKeyBlocks := keyBlocks E [] E.chainStart A
    redownloadChainWork := (E.chainStart.extend A).nChainWork
    processAllRemainingHeaders := workMet E E.chainStart A }

/-- what REDOWNLOAD asks of a header h after A, of which r are released -/
structure RedownloadOk (r : ℕ) (powChecked : Bool) (A : List CBlockHeader) (h : CBlockHeader) : Prop where
  linked : h.hashPrevBlock = (E.chainStart.extend A).getBlockHash
  difficulty : permittedDifficultyTransition E.P ((E.chainStart.extend A).nHeight + 1)
    (E.previousNBits ((A.drop r).map CompressedHeader.ofHeader)) h.nBits = true
  pow : E.powOk h ((E.chainStart.extend A).nHeight + 1) (keyBlocks E [] E.chainStart A) powChecked = true
  committed : checkedBits E E.chainStart (A ++ [h]) <+: commitments E E.chainStart P

theorem checkedBits_snoc : checkedBits E b (A ++ [h]) = checkedBits E b A ++
      if !workMet E b (A ++ [h]) && E.isCommitHeight ((b.extend A).nHeight + 1) then [E.commitment h] else [] := by
  rw [checkedBits_append, workMet_append]
  by_cases hmet : workMet E b A
  · simp [hmet]
  · by_cases hnow : ((b.extend A).child h).nChainWork ≥ E.minimumRequiredWork
    · simp [hmet, checkedBits, workMet, hnow, -child_nChainWork]
    · simp [hmet, checkedBits, workMet, hnow, -child_nChainWork]

theorem validateAndStoreRedownloadedHeader_ok (powChecked : Bool) (A : List CBlockHeader) (h : CBlockHeader)
    (t : HeadersSyncState) (hr : r ≤ A.length) (hA : checkedBits E E.chainStart A <+: commitments E E.chainStart P) :
    validateAndStoreRedownloadedHeader E powChecked (redownloading E P A r) h = .ok t ↔
      RedownloadOk E P r powChecked A h ∧ t = redownloading E P (A ++ [h]) r := by
  obtain ⟨rest, hrest⟩ := hA
  have hmet : workMet E E.chainStart (A ++ [h]) = (workMet E E.chainStart A ||
      decide ((E.chainStart.extend A).nChainWork + getBlockProof h ≥ E.minimumRequiredWork)) := by
    simp [workMet_append, workMet]
  have hbits := checkedBits_snoc E E.chainStart A h
  -- the queue holds what P stored beyond the bits that A consumed
  have hqueue : (commitments E E.chainStart P).drop (checkedBits E E.chainStart A).length = rest := by
    rw [← hrest, drop_left]
  have hstep : (if !workMet E E.chainStart (A ++ [h]) && E.isCommitHeight ((E.chainStart.extend A).nHeight + 1) then
    [E.commitment h] else []) <+: rest ↔ checkedBits E E.chainStart (A ++ [h]) <+: commitments E E.chainStart P := by
    rw [hbits, ← hrest, prefix_append_right_inj]
  have hnext : redownloading E P (A ++ [h]) r = { redownloading E P A r with
      headerCommitments :=
        rest.drop
          (if !workMet E E.chainStart (A ++ [h]) && E.isCommitHeight ((E.chainStart.extend A).nHeight + 1) then
          1 else 0)
      redownloadChainWork := (E.chainStart.extend A).nChainWork + getBlockProof h
      processAllRemainingHeaders := workMet E E.chainStart (A ++ [h])
      redownloadedHeaders := (A.drop r).map CompressedHeader.ofHeader ++ [CompressedHeader.ofHeader h]
      redownloadBufferLastHeight := (E.chainStart.extend A).nHeight + 1
      redownloadBufferLastHash := h.getHash
      redownloadRandomxKeyBlocks :=
        E.noteKeyBlock (keyBlocks E [] E.chainStart A) ((E.chainStart.extend A).nHeight + 1) h.getHash } := by
    have hdrop : (commitments E E.chainStart P).drop (checkedBits E E.chainStart (A ++ [h])).length = rest.drop
        (if !workMet E E.chainStart (A ++ [h]) && E.isCommitHeight ((E.chainStart.extend A).nHeight + 1) then 1 else
          0) := by
      rw [hbits, length_append, ← drop_drop, hqueue]
      split_ifs <;> rfl
    simp [redownloading, extend_append, keyBlocks_append, keyBlocks, hdrop, drop_append_of_le_length hr,
      take_append_of_le_length hr, Nat.add_assoc]
  rw [redownloadedHeader_ok, hnext]
  simp only [redownloading, hqueue, ← hmet, hstep]
  refine ⟨?_, ?_⟩
  · rintro ⟨hl, hd, hp, hc, ht⟩
    exact ⟨⟨hl, hd, hp, hc⟩, ht⟩
  · rintro ⟨hok, ht⟩
    exact ⟨hok.linked, hok.difficulty, hok.pow, hok.committed, ht⟩

/-- The loop over a REDOWNLOAD batch: every header is acceptable after those before it. -/
theorem redownload_batch (powChecked : Bool) (A hs : List CBlockHeader) (t : HeadersSyncState) (hr : r ≤ A.length)
    (hA : checkedBits E E.chainStart A <+: commitments E E.chainStart P) :
    hs.foldlM (validateAndStoreRedownloadedHeader E powChecked) (redownloading E P A r) = .ok t ↔
      AllOk (RedownloadOk E P r powChecked) A hs ∧ t = redownloading E P (A ++ hs) r := by
  refine foldlM_track (g := fun A => redownloading E P A r)
    (I := fun A => r ≤ A.length ∧ checkedBits E E.chainStart A <+: commitments E E.chainStart P) ?_ ?_ ⟨hr, hA⟩
  · intro A h t hI
    exact validateAndStoreRedownloadedHeader_ok E P r powChecked A h t hI.1 hI.2
  · intro A h hI hok
    refine ⟨?_, hok.committed⟩
    rw [length_append]
    omega

/-! ## Release -/

/-- The loop of the release takes a prefix of linked headers and gives them their predecessor hashes back. -/
theorem popReady_eq (bufferSize : ℕ) (all : Bool) (b : CBlockIndex) (hs : List CBlockHeader) (hl : Linked b hs) :
    popReady bufferSize all b.getBlockHash (hs.map CompressedHeader.ofHeader) =
      let n := if all then hs.length else hs.length - bufferSize
      (hs.take n, (b.extend (hs.take n)).getBlockHash, (hs.drop n).map CompressedHeader.ofHeader) := by
  induction hs generalizing b with
  | nil => simp [popReady]
  | cons h hs ih =>
    have hfull : (CompressedHeader.ofHeader h).getFullHeader b.getBlockHash = h := by
      rw [← hl.1]
      rfl
    have htail := ih (b.child h) hl.2
    rw [child_getBlockHash] at htail
    simp only [map_cons, popReady, hfull, htail, length_cons, length_map]
    cases all with
    | true => simp
    | false =>
      by_cases hpop : hs.length + 1 > bufferSize
      · have hn : hs.length + 1 - bufferSize = (hs.length - bufferSize) + 1 := by omega
        simp [hpop, hn]
      · have hn : hs.length + 1 - bufferSize = 0 := by omega
        simp [hpop, hn]

theorem popHeadersReadyForAcceptance_eq (hr : r ≤ A.length) (hl : Linked E.chainStart A) :
    popHeadersReadyForAcceptance E (redownloading E P A r) =
      ((A.drop r).take (releasedCount E A r - r), redownloading E P A (releasedCount E A r)) := by
  have hsplit := hl
  rw [← take_append_drop r A, linked_append] at hsplit
  have hpop := popReady_eq E.redownloadBufferSize (workMet E E.chainStart A) (E.chainStart.extend (A.take r))
    (A.drop r) hsplit.2
  have hcount : (if workMet E E.chainStart A then (A.drop r).length else (A.drop r).length - E.redownloadBufferSize) =
      releasedCount E A r - r := by
    rw [releasedCount, length_drop]
    split_ifs <;> omega
  obtain ⟨hle, -⟩ := releasedCount_le E hr
  simp only [hcount] at hpop
  have htake : A.take r ++ (A.drop r).take (releasedCount E A r - r) = A.take (releasedCount E A r) := by
    rw [← take_add, Nat.add_sub_cancel' hle]
  have hdrop : (A.drop r).drop (releasedCount E A r - r) = A.drop (releasedCount E A r) := by
    rw [drop_drop, Nat.add_sub_cancel' hle]
  rw [← extend_append, htake, hdrop] at hpop
  simp only [popHeadersReadyForAcceptance, redownloading, hpop]

end

end ConnectCoin
