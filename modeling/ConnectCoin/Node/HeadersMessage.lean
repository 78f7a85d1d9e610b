/-
HEADERS messages (`net_processing.cpp`: `CheckHeadersPoW`, `IsContinuationOfLowWorkHeadersSync`,
`TryLowWorkHeadersSync`, `ProcessHeadersMessage`) and the node that takes them.

- `Node`: the block index, and for each peer its headers sync, if one is going on.
- `MessageEnv`: what a message finds around it, arbitrary in every message: the anti-DoS threshold, which entries are
  ancestors of the best header or tip, the peer's permission, and the random choices of a new headers sync.
- `checkHeadersPoW` computes `pow_checked` for the batch that was received; the batch is then perhaps exchanged for
  headers that the peer's sync releases, and `processNewBlockHeaders` takes the flag or the word of the sync.
- `NodeEvent`, `Node.step`: what can bring headers, one message at a time.
Left out: misbehaviour scores, requests to peers, statistics.
-/
import ConnectCoin.Node.BlockIndex
import ConnectCoin.Sync.HeadersSync

namespace ConnectCoin

open Lib

/-! ## Parameters -/

/-- what a message finds around it -/
structure MessageEnv where
  headerEnv : HeaderEnv
  /-- `GetAntiDoSWorkThreshold` -/
  antiDoSWorkThreshold : ArithUint256
  /-- `IsAncestorOfBestHeaderOrTip`, of an entry -/
  isAncestorOfBestHeaderOrTip : CBlockIndex → Bool
  /-- `NetPermissionFlags::NoBan` -/
  noBan : Bool
  /-- the random offset, the salted hasher and the bound that a new headers sync gets -/
  commitOffset : ℕ
  hasher : Uint256 → UInt64
  maxCommitments : ℕ

/-- a headers sync: what its constructor fixed, and its members -/
abbrev PeerSync := SyncEnv × HeadersSyncState

section
variable [Crypto]

/-- parameters of the node -/
structure NodeConfig where
  P : Params
  genesis : CBlockHeader
  /-- `HeadersSyncParams` -/
  commitmentPeriod : ℕ
  redownloadBufferSize : ℕ
  /-- `m_opts.max_headers_result` -/
  maxHeadersResult : ℕ
  checkSignetBlockSolution : CBlock → Bool
  period_pos : 0 < commitmentPeriod
  genesis_hash : genesis.getHash = P.hashGenesisBlock
  genesis_prev : genesis.hashPrevBlock = Uint256.null

/-! ## Checks on a batch -/

/-- the loop of `CheckHeadersAreContinuous` -/
def continuousAfter : Uint256 → List CBlockHeader → Bool
  | _, [] => true
  | hashLastBlock, header :: headers =>
    if !hashLastBlock.isNull && header.hashPrevBlock != hashLastBlock then false else
      continuousAfter header.getHash headers

/-- `CheckHeadersAreContinuous` -/
def checkHeadersAreContinuous (headers : List CBlockHeader) : Bool := continuousAfter Uint256.null headers

/-- the loop of `CheckHeadersPoW`: the last entry of the known headers in front, and the headers from `first_unknown`
on -/
def skipKnown (index : BlockIndex) : CBlockIndex → List CBlockHeader → CBlockIndex × List CBlockHeader
  | pindexPrev, [] => (pindexPrev, [])
  | pindexPrev, header :: headers =>
    match lookupBlockIndex index header.getHash with
    | none => (pindexPrev, header :: headers)
    | some known => skipKnown index known headers

/-- `CheckHeadersPoW`: none if the batch is refused, else `pow_checked` -/
def checkHeadersPoW (P : Params) (index : BlockIndex) (headers : List CBlockHeader) : Option Bool :=
  if !checkHeadersAreContinuous headers then none
  else match headers.head?.bind fun front => lookupBlockIndex index front.hashPrevBlock with
    -- an unconnecting announcement cannot be checked yet
    | none => some false
    | some pindexPrev =>
      let (pindexPrev, unknown) := skipKnown index pindexPrev headers
      if unknown.isEmpty then some true
      else if !hasValidProofOfWork P unknown (some pindexPrev) then none
      else some true

/-- `CalculateClaimedHeadersWork` -/
def calculateClaimedHeadersWork (headers : List CBlockHeader) : ArithUint256 :=
  headers.foldl (fun totalWork header => totalWork + getBlockProof header) 0

/-! ## Headers syncs -/

variable (C : NodeConfig) (env : MessageEnv)

/-- `IsContinuationOfLowWorkHeadersSync`: its verdict, the headers it leaves, and the peer's sync afterwards -/
def isContinuationOfLowWorkHeadersSync (headersSync : Option PeerSync) (headers : List CBlockHeader)
    (powChecked : Bool) : Bool × List CBlockHeader × Option PeerSync :=
  match headersSync with
  | none => (false, headers, none)
  | some (E, s) =>
    let (result, s) := processNextHeaders E s ⟨headers, headers.length == C.maxHeadersResult, powChecked⟩
    let headersSync := if s.downloadState = .FINAL then none else some (E, s)
    if result.success then (true, result.powValidatedHeaders, headersSync) else (false, headers, headersSync)

/-- a new headers sync from an indexed start block -/
def newHeadersSync (chainStartHeader : CBlockIndex) : PeerSync :=
  let E : SyncEnv :=
    { P := C.P
      commitmentPeriod := C.commitmentPeriod
      redownloadBufferSize := C.redownloadBufferSize
      chainStart := chainStartHeader
      minimumRequiredWork := env.antiDoSWorkThreshold
      commitOffset := env.commitOffset % C.commitmentPeriod
      hasher := env.hasher
      maxCommitments := env.maxCommitments
      period_pos := C.period_pos
      offset_lt := Nat.mod_lt _ C.period_pos }
  (E, HeadersSyncState.init E)

/-- `TryLowWorkHeadersSync`: none if there is enough work, else the peer's sync afterwards -/
def tryLowWorkHeadersSync (headersSync : Option PeerSync) (chainStartHeader : CBlockIndex) (headers : List CBlockHeader)
    (powChecked : Bool) : Option (Option PeerSync) :=
  let totalWork := chainStartHeader.nChainWork + calculateClaimedHeadersWork headers
  if totalWork < env.antiDoSWorkThreshold then
    if headers.length = C.maxHeadersResult then
      some (isContinuationOfLowWorkHeadersSync C (some (newHeadersSync C env chainStartHeader)) headers powChecked).2.2
    else some headersSync
  else none

/-! ## The node -/

structure Node where
  blockIndex : BlockIndex
  /-- `m_headers_sync` of each peer -/
  headersSync : ℕ → Option PeerSync

def Node.setSync (node : Node) (peer : ℕ) (sync : Option PeerSync) : Node :=
  { node with headersSync := fun p => if p = peer then sync else node.headersSync p }

/-- the part of `ProcessHeadersMessage` after the running sync had the batch -/
def processReadyHeaders (node : Node) (peer : ℕ) (headers : List CBlockHeader)
    (powChecked headersSyncPowChecked : Bool) : Node :=
  match headers with
  | [] => node
  | first :: _ =>
    match lookupBlockIndex node.blockIndex first.hashPrevBlock with
    | none => node
    | some chainStartHeader =>
      let lastReceivedHeader := lookupBlockIndex node.blockIndex (headers.getLastD first).getHash
      let alreadyValidatedWork :=
        headersSyncPowChecked || lastReceivedHeader.any env.isAncestorOfBestHeaderOrTip || env.noBan
      let lowWork :=
        if alreadyValidatedWork then none
        else tryLowWorkHeadersSync C env (node.headersSync peer) chainStartHeader headers powChecked
      match lowWork with
      | some sync => node.setSync peer sync
      | none =>
        let (blockIndex, _) :=
          processNewBlockHeaders C.P env.headerEnv true (powChecked || headersSyncPowChecked) node.blockIndex headers
        { node with blockIndex := blockIndex }

/-- `ProcessHeadersMessage` -/
def processHeadersMessage (node : Node) (peer : ℕ) (headers : List CBlockHeader) : Node :=
  if headers.isEmpty then node.setSync peer none
  else match checkHeadersPoW C.P node.blockIndex headers with
    | none => node
    | some powChecked =>
      let (alreadyValidatedWork, headers, sync) :=
        isContinuationOfLowWorkHeadersSync C (node.headersSync peer) headers powChecked
      processReadyHeaders C env (node.setSync peer sync) peer headers powChecked alreadyValidatedWork

/-- what can bring headers to the node, or take a peer away -/
inductive NodeEvent where
  | headersMessage (peer : ℕ) (headers : List CBlockHeader) (env : MessageEnv)
  /-- a header handed to `ProcessNewBlockHeaders` alone -/
  | newBlockHeader (header : CBlockHeader) (minPowChecked : Bool) (env : HeaderEnv)
  | newBlock (block : CBlock) (minPowChecked : Bool) (env : HeaderEnv)
  /-- a block handed to `AcceptBlock` by an import -/
  | importedBlock (block : CBlock) (minPowChecked : Bool) (env : HeaderEnv)
  | finalizeNode (peer : ℕ)

def Node.step (node : Node) : NodeEvent → Node
  | .headersMessage peer headers env => processHeadersMessage C env node peer headers
  | .newBlockHeader header minPowChecked env =>
    { node with blockIndex := (processNewBlockHeaders C.P env minPowChecked false node.blockIndex [header]).1 }
  | .newBlock block minPowChecked env =>
    { node with blockIndex := processNewBlock C.P C.checkSignetBlockSolution env node.blockIndex block minPowChecked }
  | .importedBlock block minPowChecked env =>
    { node with blockIndex := acceptBlock C.P env node.blockIndex block minPowChecked false }
  | .finalizeNode peer => node.setSync peer none

/-- the node with the genesis block indexed -/
def Node.init : Node := ⟨[CBlockIndex.root C.genesis], fun _ => none⟩

def Node.run (events : List NodeEvent) : Node := events.foldl (Node.step C) (Node.init C)

/-- the headers that an event brings -/
def NodeEvent.headers : NodeEvent → List CBlockHeader
  | headersMessage _ headers _ => headers
  | newBlockHeader header _ _ => [header]
  | newBlock block _ _ => [block.header]
  | importedBlock block _ _ => [block.header]
  | finalizeNode _ => []

end

end ConnectCoin
