/-
The low-work headers sync of one peer (`headerssync.cpp`): headers are downloaded twice. PRESYNC measures the chain's
work and stores one salted bit every `commitmentPeriod` headers; REDOWNLOAD checks these bits on the second pass and
releases headers out of a buffer.

- `SyncEnv`: what the constructor fixes (parameters, start block, required work, commitment offset, salted hasher, bound
  on the number of commitments).
- `HeadersSyncState`: the mutable members. A function that can return false is an `Except`: the error carries the state
  as it was left, which `finalize` then clears.
- `processNextHeaders`: one call, with its result.
Results: `singleHeader_ok`, `redownloadedHeader_ok`, when a header is accepted and what it changes.
Left out: log lines, the locator of the next request.
-/
import ConnectCoin.Lib.Fold
import ConnectCoin.Sync.Pow

namespace ConnectCoin

open Lib

/-! ## State -/

/-- `CompressedHeader`: a header without its predecessor's hash -/
structure CompressedHeader where
  nVersion : Int32
  hashMerkleRoot : Uint256
  nTime : UInt32
  nBits : UInt32
  nNonce : UInt32
  deriving DecidableEq

def CompressedHeader.ofHeader (h : CBlockHeader) : CompressedHeader :=
  ⟨h.nVersion, h.hashMerkleRoot, h.nTime, h.nBits, h.nNonce⟩

/-- `GetFullHeader` -/
def CompressedHeader.getFullHeader (c : CompressedHeader) (hashPrevBlock : Uint256) : CBlockHeader :=
  ⟨c.nVersion, hashPrevBlock, c.hashMerkleRoot, c.nTime, c.nBits, c.nNonce⟩

/-- what the constructor of a sync fixes -/
structure SyncEnv where
  P : Params
  commitmentPeriod : ℕ
  redownloadBufferSize : ℕ
  chainStart : CBlockIndex
  minimumRequiredWork : ArithUint256
  commitOffset : ℕ
  /-- `SaltedUint256Hasher`; only its lowest bit is used -/
  hasher : Uint256 → UInt64
  maxCommitments : ℕ
  period_pos : 0 < commitmentPeriod
  offset_lt : commitOffset < commitmentPeriod

inductive DownloadState where
  | PRESYNC
  | REDOWNLOAD
  | FINAL
  deriving DecidableEq, Repr

/-- `std::map<int64_t, uint256>` of epoch blocks by height -/
abbrev KeyBlocks := List (ℕ × Uint256)

/-- `emplace`: an existing key keeps its value -/
def KeyBlocks.emplace (m : KeyBlocks) (height : ℕ) (id : Uint256) : KeyBlocks :=
  if m.any (fun e => e.1 == height) then m else m ++ [(height, id)]

/-- `find` -/
def KeyBlocks.lookup (m : KeyBlocks) (height : ℕ) : Option Uint256 := (m.find? fun e => e.1 == height).map Prod.snd

structure HeadersSyncState where
  downloadState : DownloadState
  currentChainWork : ArithUint256
  headerCommitments : List Bool
  lastHeaderReceived : CBlockHeader
  presyncRandomxKeyBlocks : KeyBlocks
  currentHeight : ℕ
  redownloadedHeaders : List CompressedHeader
  redownloadBufferLastHeight : ℕ
  redownloadBufferLastHash : Uint256
  redownloadBufferFirstPrevHash : Uint256
  redownloadRandomxKeyBlocks : KeyBlocks
  redownloadChainWork : ArithUint256
  processAllRemainingHeaders : Bool

/-- the state after construction -/
def HeadersSyncState.init (E : SyncEnv) : HeadersSyncState where
  downloadState := .PRESYNC
  currentChainWork := E.chainStart.nChainWork
  headerCommitments := []
  lastHeaderReceived := E.chainStart.header
  presyncRandomxKeyBlocks := []
  currentHeight := E.chainStart.nHeight
  redownloadedHeaders := []
  redownloadBufferLastHeight := 0
  redownloadBufferLastHash := Uint256.null
  redownloadBufferFirstPrevHash := Uint256.null
  redownloadRandomxKeyBlocks := []
  redownloadChainWork := 0
  processAllRemainingHeaders := false

namespace HeadersSyncState

/-- `Finalize` -/
def finalize (s : HeadersSyncState) : HeadersSyncState :=
  { s with
    headerCommitments := []
    presyncRandomxKeyBlocks := []
    redownloadRandomxKeyBlocks := []
    lastHeaderReceived := CBlockHeader.null
    redownloadedHeaders := []
    redownloadBufferLastHash := Uint256.null
    redownloadBufferFirstPrevHash := Uint256.null
    processAllRemainingHeaders := false
    currentHeight := 0
    downloadState := .FINAL }

end HeadersSyncState

/-! ## One header -/

/-- `previous_nBits`: of the last buffered header, else of the start block -/
def SyncEnv.previousNBits (E : SyncEnv) (buffer : List CompressedHeader) : UInt32 :=
  match buffer.getLast? with
  | some last => last.nBits
  | none => E.chainStart.header.nBits

section
variable [Crypto] (E : SyncEnv) (s : HeadersSyncState)

/-- the commitment bit of a header -/
def SyncEnv.commitment (h : CBlockHeader) : Bool := E.hasher h.getHash &&& 1 == 1

/-- heights at which a commitment is stored -/
def SyncEnv.isCommitHeight (height : ℕ) : Bool := height % E.commitmentPeriod == E.commitOffset

/-- `HeadersSyncState::GetRandomXKey` -/
def SyncEnv.getRandomXKey (blockHeight : ℕ) (keyBlocks : KeyBlocks) : Option Uint256 :=
  let seedHeight := randomXSeedHeight E.P blockHeight
  if seedHeight = 0 then some E.P.randomxBootstrapKey
  else if seedHeight ≤ E.chainStart.nHeight then (E.chainStart.getAncestor seedHeight).map CBlockIndex.getBlockHash
  else keyBlocks.lookup seedHeight.toNat

/-- the test both phases make: there is a key, and the header has work under it unless the caller checked that -/
def SyncEnv.powOk (header : CBlockHeader) (height : ℕ) (keyBlocks : KeyBlocks) (powChecked : Bool) : Bool :=
  match E.getRandomXKey height keyBlocks with
  | none => false
  | some key => powChecked || checkProofOfWork E.P header key height

/-- remember an epoch block -/
def SyncEnv.noteKeyBlock (m : KeyBlocks) (height : ℕ) (id : Uint256) : KeyBlocks :=
  if E.P.randomxEpochBlocks ≠ 0 ∧ height % E.P.randomxEpochBlocks.toNat = 0 then m.emplace height id else m

/-- `ValidateAndProcessSingleHeader` -/
def validateAndProcessSingleHeader (powChecked : Bool) (s : HeadersSyncState) (current : CBlockHeader) :
    Except HeadersSyncState HeadersSyncState :=
  let nextHeight := s.currentHeight + 1
  if !permittedDifficultyTransition E.P nextHeight s.lastHeaderReceived.nBits current.nBits then .error s
  else if !E.powOk current nextHeight s.presyncRandomxKeyBlocks powChecked then .error s
  else
    let s := if E.isCommitHeight nextHeight then
      { s with headerCommitments := s.headerCommitments ++ [E.commitment current] } else s
    if E.isCommitHeight nextHeight && s.headerCommitments.length > E.maxCommitments then .error s
    else .ok { s with
      currentChainWork := s.currentChainWork + getBlockProof current
      lastHeaderReceived := current
      currentHeight := nextHeight
      presyncRandomxKeyBlocks := E.noteKeyBlock s.presyncRandomxKeyBlocks nextHeight current.getHash }

/-- `ValidateAndStoreRedownloadedHeader` -/
def validateAndStoreRedownloadedHeader (powChecked : Bool) (s : HeadersSyncState) (header : CBlockHeader) :
    Except HeadersSyncState HeadersSyncState :=
  let nextHeight := s.redownloadBufferLastHeight + 1
  if header.hashPrevBlock ≠ s.redownloadBufferLastHash then .error s
  else
    if !permittedDifficultyTransition E.P nextHeight (E.previousNBits s.redownloadedHeaders) header.nBits then .error s
    else if !E.powOk header nextHeight s.redownloadRandomxKeyBlocks powChecked then .error s
    else
      let work := s.redownloadChainWork + getBlockProof header
      let s := { s with
        redownloadChainWork := work
        processAllRemainingHeaders := s.processAllRemainingHeaders || decide (work ≥ E.minimumRequiredWork) }
      let store (s : HeadersSyncState) : HeadersSyncState :=
        { s with
          redownloadedHeaders := s.redownloadedHeaders ++ [CompressedHeader.ofHeader header]
          redownloadBufferLastHeight := nextHeight
          redownloadBufferLastHash := header.getHash
          redownloadRandomxKeyBlocks := E.noteKeyBlock s.redownloadRandomxKeyBlocks nextHeight header.getHash }
      -- no commitment is checked once the work is met: the peer may have extended its chain
      if !s.processAllRemainingHeaders && E.isCommitHeight nextHeight then
        match s.headerCommitments with
        | [] => .error s
        | expected :: rest =>
          let s := { s with headerCommitments := rest }
          if E.commitment header ≠ expected then .error s else .ok (store s)
      else .ok (store s)

/-! ## When a header is accepted -/

theorem singleHeader_ok (E : SyncEnv) (powChecked : Bool) (s t : HeadersSyncState) (h : CBlockHeader) :
    validateAndProcessSingleHeader E powChecked s h = .ok t ↔
      permittedDifficultyTransition E.P (s.currentHeight + 1) s.lastHeaderReceived.nBits h.nBits = true ∧
      E.powOk h (s.currentHeight + 1) s.presyncRandomxKeyBlocks powChecked = true ∧
      (E.isCommitHeight (s.currentHeight + 1) = true → s.headerCommitments.length + 1 ≤ E.maxCommitments) ∧ t = { s with
        headerCommitments := s.headerCommitments ++ if E.isCommitHeight (s.currentHeight + 1) then
          [E.commitment h] else []
        currentChainWork := s.currentChainWork + getBlockProof h
        lastHeaderReceived := h
        currentHeight := s.currentHeight + 1
        presyncRandomxKeyBlocks := E.noteKeyBlock s.presyncRandomxKeyBlocks (s.currentHeight + 1) h.getHash } := by
  unfold validateAndProcessSingleHeader
  simp only [ite_error_ok, Bool.not_eq_true', Bool.not_eq_false, Except.ok.injEq]
  refine and_congr_right fun _ => and_congr_right fun _ => ?_
  by_cases hc : E.isCommitHeight (s.currentHeight + 1)
  · simp [hc, eq_comm]
  · simp [hc, eq_comm]

theorem redownloadedHeader_ok (E : SyncEnv) (powChecked : Bool) (s t : HeadersSyncState) (h : CBlockHeader) :
    validateAndStoreRedownloadedHeader E powChecked s h = .ok t ↔
      let met := s.processAllRemainingHeaders ||
        decide (s.redownloadChainWork + getBlockProof h ≥ E.minimumRequiredWork)
      let compared := !met && E.isCommitHeight (s.redownloadBufferLastHeight + 1)
      h.hashPrevBlock = s.redownloadBufferLastHash ∧
      permittedDifficultyTransition E.P (s.redownloadBufferLastHeight + 1) (E.previousNBits s.redownloadedHeaders)
        h.nBits = true ∧
      E.powOk h (s.redownloadBufferLastHeight + 1) s.redownloadRandomxKeyBlocks powChecked = true ∧
      (if compared then [E.commitment h] else []) <+: s.headerCommitments ∧
      t = { s with
        headerCommitments := s.headerCommitments.drop (if compared then 1 else 0)
        redownloadChainWork := s.redownloadChainWork + getBlockProof h
        processAllRemainingHeaders := met
        redownloadedHeaders := s.redownloadedHeaders ++ [CompressedHeader.ofHeader h]
        redownloadBufferLastHeight := s.redownloadBufferLastHeight + 1
        redownloadBufferLastHash := h.getHash
        redownloadRandomxKeyBlocks := E.noteKeyBlock s.redownloadRandomxKeyBlocks (s.redownloadBufferLastHeight + 1)
          h.getHash } := by
  unfold validateAndStoreRedownloadedHeader
  simp only [ite_error_ok, Bool.not_eq_true', Bool.not_eq_false, not_not, ne_eq]
  refine and_congr_right fun _ => and_congr_right fun _ => and_congr_right fun _ => ?_
  split_ifs with hc
  · cases hq : s.headerCommitments with
    | nil => simp
    | cons expected rest =>
      by_cases heq : E.commitment h = expected
      · simp [heq, eq_comm]
      · simp [heq]
  · simp [eq_comm]

/-! ## One call -/

/-- `ValidateAndStoreHeadersCommitments` -/
def validateAndStoreHeadersCommitments (powChecked : Bool) (s : HeadersSyncState) (headers : List CBlockHeader) :
    Except HeadersSyncState HeadersSyncState :=
  match headers with
  | [] => .ok s
  | first :: _ =>
    if first.hashPrevBlock ≠ s.lastHeaderReceived.getHash then .error s
    else match headers.foldlM (validateAndProcessSingleHeader E powChecked) s with
      | .error s => .error s
      | .ok s =>
        if s.currentChainWork ≥ E.minimumRequiredWork then .ok { s with
          redownloadedHeaders := []
          redownloadBufferLastHeight := E.chainStart.nHeight
          redownloadBufferFirstPrevHash := E.chainStart.getBlockHash
          redownloadBufferLastHash := E.chainStart.getBlockHash
          redownloadChainWork := E.chainStart.nChainWork
          downloadState := .REDOWNLOAD }
        else .ok s

/-- the loop of `PopHeadersReadyForAcceptance`: the headers taken, the next predecessor hash, what stays buffered -/
def popReady (bufferSize : ℕ) (all : Bool) :
    Uint256 → List CompressedHeader → List CBlockHeader × Uint256 × List CompressedHeader
  | prev, [] => ([], prev, [])
  | prev, c :: cs =>
    if (c :: cs).length > bufferSize || all then
      let full := c.getFullHeader prev
      let (ret, last, rest) := popReady bufferSize all full.getHash cs
      (full :: ret, last, rest)
    else ([], prev, c :: cs)

/-- `PopHeadersReadyForAcceptance` -/
def popHeadersReadyForAcceptance : List CBlockHeader × HeadersSyncState :=
  let (ret, prev, rest) :=
    popReady E.redownloadBufferSize s.processAllRemainingHeaders s.redownloadBufferFirstPrevHash s.redownloadedHeaders
  (ret, { s with redownloadedHeaders := rest, redownloadBufferFirstPrevHash := prev })

/-- `ProcessingResult` -/
structure ProcessingResult where
  powValidatedHeaders : List CBlockHeader
  success : Bool
  requestMore : Bool
  deriving DecidableEq

/-- one call: a batch, whether the message was full, and whether the caller checked its proof of work -/
structure SyncCall where
  headers : List CBlockHeader
  fullHeadersMessage : Bool
  powChecked : Bool

/-- `ProcessNextHeaders` -/
def processNextHeaders (call : SyncCall) : ProcessingResult × HeadersSyncState :=
  if call.headers.isEmpty then (⟨[], false, false⟩, s)
  else match s.downloadState with
    | .FINAL => (⟨[], false, false⟩, s)
    | .PRESYNC =>
      match validateAndStoreHeadersCommitments E call.powChecked s call.headers with
      | .error s => (⟨[], false, false⟩, s.finalize)
      | .ok s =>
        if call.fullHeadersMessage || s.downloadState == .REDOWNLOAD then (⟨[], true, true⟩, s)
        else (⟨[], true, false⟩, s.finalize)
    | .REDOWNLOAD =>
      match call.headers.foldlM (validateAndStoreRedownloadedHeader E call.powChecked) s with
      | .error s => (⟨[], false, false⟩, s.finalize)
      | .ok s =>
        let (ready, s) := popHeadersReadyForAcceptance E s
        if s.redownloadedHeaders.isEmpty && s.processAllRemainingHeaders then (⟨ready, true, false⟩, s.finalize)
        else if call.fullHeadersMessage then (⟨ready, true, true⟩, s)
        else (⟨ready, true, false⟩, s.finalize)

end

end ConnectCoin
