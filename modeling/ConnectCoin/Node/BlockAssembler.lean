/-
Building a block template (`node/miner.cpp`, `node/mining_args.cpp`, `GenerateCoinbaseCommitment` in `validation.cpp`).

- `BlockBuilder`: what the mempool offers, chunk by chunk; the next chunk may depend on whether the last was skipped or
  included.
- `AssemblerContext`: the options, the block's height, the median time past of the tip, the mempool by txid and the
  coins of the tip. `TemplateEnv`: what the rest of a template takes from outside (header fields, segwit,
  `TestBlockValidity`).
- `addChunks`: the selection loop; `testChunkTransactions`: its check of lock times and of pay-to-connect inputs.
- `createNewBlock`: the template, with the assembler's counters as they were at the end.
Left out: `print_modified_fee` and other logging, the statistics of the last block.
-/
import ConnectCoin.Consensus.TxCode
import ConnectCoin.Consensus.TxOutObject
import ConnectCoin.Chainstate.ConnectBlock
import ConnectCoin.Util.FeeFrac

namespace ConnectCoin

open Lib P2C

/-! ## Fee rates -/

/-- `ToFeePerVSize` -/
def toFeePerVSize (feerate : FeeFrac) : FeeFrac :=
  ⟨feerate.fee, (feerate.size + WITNESS_SCALE_FACTOR - 1).tdiv WITNESS_SCALE_FACTOR⟩

/-! ## Options -/

def DEFAULT_BLOCK_MIN_TX_FEE : CAmount := 1
def DEFAULT_BLOCK_RESERVED_WEIGHT : UInt64 := 8000
def MINIMUM_BLOCK_RESERVED_WEIGHT : UInt64 := 2000
def DEFAULT_BLOCK_MAX_WEIGHT : UInt64 := UInt64.ofNat MAX_BLOCK_WEIGHT

/-- the key of private key 1, as a script -/
def defaultCoinbaseOutputScript : Bytes :=
  OP_1 :: 32 :: [0x79, 0xbe, 0x66, 0x7e, 0xf9, 0xdc, 0xbb, 0xac, 0x55, 0xa0, 0x62, 0x95, 0xce, 0x87, 0x0b, 0x07,
    0x02, 0x9b, 0xfc, 0xdb, 0x2d, 0xce, 0x28, 0xd9, 0x59, 0xf2, 0x81, 0x5b, 0x16, 0xf8, 0x17, 0x98]

structure BlockCreateOptions where
  useMempool : Bool := true
  /-- a `CFeeRate` -/
  blockMinFeeRate : Option FeeFrac := none
  blockReservedWeight : Option UInt64 := none
  blockMaxWeight : Option UInt64 := none
  coinbaseOutputMaxAdditionalSigops : UInt64 := 0
  coinbaseOutputScript : Bytes := defaultCoinbaseOutputScript
  testBlockValidity : Bool := true

/-- options with every value set -/
structure FlatOptions where
  useMempool : Bool
  blockMinFeeRate : FeeFrac
  blockReservedWeight : UInt64
  blockMaxWeight : UInt64
  coinbaseOutputMaxAdditionalSigops : UInt64
  coinbaseOutputScript : Bytes
  testBlockValidity : Bool

/-- `FlattenMiningOptions` -/
def flattenMiningOptions (options : BlockCreateOptions) : FlatOptions where
  useMempool := options.useMempool
  blockMinFeeRate := options.blockMinFeeRate.getD ⟨DEFAULT_BLOCK_MIN_TX_FEE, 1000⟩
  blockReservedWeight := options.blockReservedWeight.getD DEFAULT_BLOCK_RESERVED_WEIGHT
  blockMaxWeight := options.blockMaxWeight.getD DEFAULT_BLOCK_MAX_WEIGHT
  coinbaseOutputMaxAdditionalSigops := options.coinbaseOutputMaxAdditionalSigops
  coinbaseOutputScript := options.coinbaseOutputScript
  testBlockValidity := options.testBlockValidity

/-- an option, its value, and why it is refused -/
def optionError (name : String) (value : UInt64) (why : String) : String :=
  name ++ " (" ++ toString value ++ ") " ++ why

/-- "exceeds …" a limit -/
def exceeds (what : String) (limit : ℕ) : String := "exceeds " ++ what ++ " (" ++ toString limit ++ ")"

section
variable [Crypto]

/-- `CheckMiningOptions` -/
def checkMiningOptions (options : BlockCreateOptions) (useArgnames : Bool) : Except String FlatOptions := do
  let flat := flattenMiningOptions options
  let reserved := if useArgnames then "-blockreservedweight" else "block_reserved_weight"
  let maximum := if useArgnames then "-blockmaxweight" else "block_max_weight"
  let coinbaseOutput := CTxOut.ofScript 0 flat.coinbaseOutputScript
  refuseIf (flat.blockReservedWeight < MINIMUM_BLOCK_RESERVED_WEIGHT) (optionError reserved flat.blockReservedWeight
    ("is lower than minimum safety value of (" ++ toString MINIMUM_BLOCK_RESERVED_WEIGHT ++ ")"))
  refuseIf (flat.blockReservedWeight > UInt64.ofNat MAX_BLOCK_WEIGHT)
    (optionError reserved flat.blockReservedWeight (exceeds "consensus maximum block weight" MAX_BLOCK_WEIGHT))
  refuseIf (flat.blockMaxWeight > UInt64.ofNat MAX_BLOCK_WEIGHT)
    (optionError maximum flat.blockMaxWeight (exceeds "consensus maximum block weight" MAX_BLOCK_WEIGHT))
  refuseIf (flat.blockReservedWeight > flat.blockMaxWeight)
    (optionError reserved flat.blockReservedWeight (exceeds maximum flat.blockMaxWeight.toNat))
  refuseIf (flat.coinbaseOutputMaxAdditionalSigops > UInt64.ofNat MAX_BLOCK_SIGOPS_COST)
    (optionError "coinbase_output_max_additional_sigops" flat.coinbaseOutputMaxAdditionalSigops
      (exceeds "consensus maximum block sigops cost" MAX_BLOCK_SIGOPS_COST))
  refuseIf (coinbaseOutput.type != .P2PK || coinbaseOutput.getP2PKPubKey.isNone)
    ("coinbase_output_script must encode a type-1 P2PK x-only public key (got " ++
      flat.coinbaseOutputScript.foldl (fun s b => s ++ hexByte b) "" ++ ")")
  return flat

/-- The defaults pass their own check, on a curve where the default key is a point. -/
theorem default_options_pass (hkey : Crypto.isFullyValid (Uint256.ofSlice (defaultCoinbaseOutputScript.drop 2)) = true)
    (useArgnames : Bool) : checkMiningOptions {} useArgnames = .ok (flattenMiningOptions {}) := by
  have hform : defaultCoinbaseOutputScript.length = 34 ∧ defaultCoinbaseOutputScript[0]? = some OP_1 ∧
      defaultCoinbaseOutputScript[1]? = some 32 := by decide
  have hview : defaultCoinbaseOutputScript =
      OP_1 :: 32 :: (Uint256.ofSlice (defaultCoinbaseOutputScript.drop 2)).bytes := by decide
  have hout : CTxOut.ofScript 0 defaultCoinbaseOutputScript =
      ⟨.P2PK, Uint256.ofSlice (defaultCoinbaseOutputScript.drop 2), 0, defaultCoinbaseOutputScript, fun _ => hkey,
      fun hne => absurd rfl hne⟩ := by
    simp only [CTxOut.ofScript, if_pos hform, dif_pos hkey]
  have hpubkey : (CTxOut.ofScript 0 defaultCoinbaseOutputScript).getP2PKPubKey.isNone = false := by
    rw [hout, CTxOut.getP2PKPubKey_eq_some.2 ⟨rfl, rfl, hview⟩]
    rfl
  have htype : (CTxOut.ofScript 0 defaultCoinbaseOutputScript).type = .P2PK := by rw [hout]
  simp only [checkMiningOptions, bind_ok, refuseIf_ok, pure, Except.pure]
  refine ⟨(), by decide, (), by decide, (), by decide, (), by decide, (), by decide, (), ?_, trivial⟩
  rw [Bool.or_eq_false_iff]
  exact ⟨by rw [bne_eq_false_iff_eq]; exact htype, hpubkey⟩

/-! ## The mempool's offers -/

/-- what the assembler reads of a mempool entry; `PreChecks` lets no other transaction into the mempool -/
structure CTxMemPoolEntry where
  tx : CTransaction
  nFee : CAmount
  modifiedFee : CAmount
  nTxWeight : Int32
  sigOpCost : Int64
  checked : checkTransaction tx = .ok ()
  plain : tx.isCoinBase = false

/-- the chunks that `GetBlockBuilderChunk` hands out, after `SkipBuilderChunk` and after `IncludeBuilderChunk` -/
inductive BlockBuilder where
  | finished
  | chunk (entries : List CTxMemPoolEntry) (feerate : FeeFrac) (skipped included : BlockBuilder)

/-- all chunks that it may offer -/
def BlockBuilder.chunks : BlockBuilder → List (List CTxMemPoolEntry)
  | .finished => []
  | .chunk entries _ skipped included => entries :: (skipped.chunks ++ included.chunks)

/-- what does not change while a block is built; an assembler is only constructed for options that pass their check -/
structure AssemblerContext where
  P : Params
  script : ScriptEnv
  options : FlatOptions
  checked : ∃ given, checkMiningOptions given false = .ok options
  nHeight : ℕ
  /-- `m_lock_time_cutoff` -/
  lockTimeCutoff : Int64
  /-- `GetIter`: the transaction of the mempool with this txid -/
  getIter : Uint256 → Option CTransaction
  coinsTip : CoinsView

/-- the assembler: the template's transactions behind the coinbase, and the counters -/
structure BlockAssembler where
  vtx : List CTransaction
  vTxFees : List CAmount
  vTxSigOpsCost : List Int64
  packageFeerates : List FeeFrac
  nBlockWeight : UInt64
  nBlockTxWeight : UInt64
  nBlockTx : UInt64
  nBlockSigOpsCost : UInt64
  nFees : CAmount

variable (ctx : AssemblerContext) (s : BlockAssembler)

/-- `resetBlock`, and an empty template -/
def resetBlock : BlockAssembler := ⟨[], [], [], [], ctx.options.blockReservedWeight, 0, 0, 0, 0⟩

/-! ## Checks of a chunk -/

/-- `TestChunkBlockLimits` -/
def testChunkBlockLimits (chunkWeight chunkSigopsCost : Int64) : Bool :=
  if s.nBlockWeight + chunkWeight.toUInt64 ≥ ctx.options.blockMaxWeight then false
  else if s.nBlockSigOpsCost + chunkSigopsCost.toUInt64 ≥ UInt64.ofNat MAX_BLOCK_SIGOPS_COST then false
  else true

/-- the shortcut: an input without the shape of a proof is not looked at -/
def skipsInput (input : CTxIn) : Bool :=
  match input.scriptWitness with
  | [item] => item.isEmpty || item.length == 64
  | _ => true

/-- the output that an input spends: of a mempool transaction, else of the tip's coins -/
def spentOutput (prevout : COutPoint) : Option CTxOut :=
  match ctx.getIter prevout.hash with
  | some parent => parent.vout[prevout.n.toNat]?
  | none => (ctx.coinsTip.coins.lookup prevout).map Coin.out

/-- the proof of a pay-to-connect input, at the tip's median time past -/
def testProof (tx : CTransaction) (inputIndex : UInt32) (input : CTxIn) (spentOutput : CTxOut)
    (p2c : PayToDomainOutput) : Bool :=
  match input.scriptWitness with
  | [encodedProof] =>
    if !input.scriptSig.isEmpty || encodedProof.isEmpty || encodedProof.length > MAX_P2C_PROOF_SIZE then false
    else match parseP2CTlsProof encodedProof p2c.domain (p2cClaimChallenge tx inputIndex) with
      | .error _ => false
      | .ok proof => p2cMeetsWorkTarget proof.connectionWorkHash p2c.connectionWorkTarget &&
          (ctx.script.verifyP2CCertificateProof spentOutput proof ctx.lockTimeCutoff).isOk
  | _ => false

/-- one turn of the loop over the inputs -/
def testInput (tx : CTransaction) (inputIndex : UInt32) (input : CTxIn) : Bool :=
  if skipsInput input then true
  else match spentOutput ctx input.prevout with
    | none => false
    | some out =>
      match out.getPayToDomain with
      | none => true
      | some p2c => testProof ctx tx inputIndex input out p2c

/-- `TestChunkTransactions` -/
def testChunkTransactions (txs : List CTxMemPoolEntry) : Bool :=
  txs.all fun entry => isFinalTx entry.tx ctx.nHeight ctx.lockTimeCutoff &&
    entry.tx.vin.zipIdx.all fun input => testInput ctx entry.tx (UInt32.ofNat input.2) input.1

/-! ## The selection loop -/

def MAX_CONSECUTIVE_FAILURES : ℕ := 1000
def BLOCK_FULL_ENOUGH_WEIGHT_DELTA : UInt64 := 4000

/-- `AddToBlock` -/
def addToBlock (entry : CTxMemPoolEntry) : BlockAssembler where
  vtx := s.vtx ++ [entry.tx]
  vTxFees := s.vTxFees ++ [entry.nFee]
  vTxSigOpsCost := s.vTxSigOpsCost ++ [entry.sigOpCost]
  packageFeerates := s.packageFeerates
  nBlockWeight := s.nBlockWeight + entry.nTxWeight.toInt64.toUInt64
  nBlockTxWeight := s.nBlockTxWeight + entry.nTxWeight.toInt64.toUInt64
  nBlockTx := s.nBlockTx + 1
  nBlockSigOpsCost := s.nBlockSigOpsCost + entry.sigOpCost.toUInt64
  nFees := s.nFees + entry.nFee

variable (entries : List CTxMemPoolEntry)

def chunkSigOps : Int64 := entries.foldl (fun sum entry => sum + entry.sigOpCost) 0

def chunkWeight : Int64 := entries.foldl (fun sum entry => sum + entry.nTxWeight.toInt64) 0

def chunkModifiedFees : CAmount := entries.foldl (fun sum entry => sum + entry.modifiedFee) 0

/-- the subsidy that a chunk destroys -/
def packagePenalty : CAmount :=
  let baseSubsidy := getBlockSubsidy ctx.nHeight ctx.P
  getBlockSubsidyPenalty baseSubsidy (s.nBlockTxWeight + (chunkWeight entries).toUInt64) -
    getBlockSubsidyPenalty baseSubsidy s.nBlockTxWeight

/-- the chunk fits into the block -/
def chunkFits : Bool :=
  testChunkBlockLimits ctx s (chunkWeight entries) (chunkSigOps entries) && testChunkTransactions ctx entries

/-- all entries of a chunk, and its fee rate -/
def includeChunk (feerateVSize : FeeFrac) : BlockAssembler :=
  let s' := entries.foldl addToBlock s
  { s' with packageFeerates := s'.packageFeerates ++ [feerateVSize] }

/-- `addChunks`: the loop goes on with what the builder offers next -/
def addChunks (ctx : AssemblerContext) : BlockBuilder → ℕ → BlockAssembler → BlockAssembler
  | .finished, _, s => s
  | .chunk entries feerate skipped included, nConsecutiveFailed, s =>
    if entries.isEmpty then s
    else if (toFeePerVSize feerate).ratioLt ctx.options.blockMinFeeRate then s
    else if chunkModifiedFees entries ≤ packagePenalty ctx s entries then s
    else if chunkFits ctx s entries then addChunks ctx included 0 (includeChunk s entries (toFeePerVSize feerate))
    else if nConsecutiveFailed + 1 > MAX_CONSECUTIVE_FAILURES ∧
        s.nBlockWeight + BLOCK_FULL_ENOUGH_WEIGHT_DELTA > ctx.options.blockMaxWeight then s
    else addChunks ctx skipped (nConsecutiveFailed + 1) s

/-! ## Scripts -/

def OP_0 : UInt8 := 0x00

/-- `operator<<` of bytes -/
def pushData (data : Bytes) : Bytes :=
  if data.length < OP_PUSHDATA1.toNat then UInt8.ofNat data.length :: data
  else if data.length ≤ 0xff then OP_PUSHDATA1 :: UInt8.ofNat data.length :: data
  else if data.length ≤ 0xffff then OP_PUSHDATA2 :: (leBytes 2 data.length ++ data)
  else OP_PUSHDATA4 :: (leBytes 4 data.length ++ data)

/-- the bytes of a number, lowest first, without zeros at the end -/
def absBytes : ℕ → ℕ → Bytes
  | 0, _ => []
  | fuel + 1, n => if n = 0 then [] else UInt8.ofNat n :: absBytes fuel (n / 256)

/-- `CScriptNum::serialize` of a number that is not negative -/
def scriptNum (n : ℕ) : Bytes :=
  let result := absBytes 8 n
  if result.getLastD 0 &&& 0x80 ≠ 0 then result ++ [0] else result

/-- `push_int64` of a number that is not negative -/
def pushInt64 (n : ℕ) : Bytes :=
  if 1 ≤ n ∧ n ≤ 16 then [UInt8.ofNat (n + (OP_1.toNat - 1))]
  else if n = 0 then [OP_0]
  else pushData (scriptNum n)

/-! ## The coinbase -/

/-- the outputs serialize and every vector has a 64-bit size -/
structure CMutableTransaction.Constructible (tx : CMutableTransaction) : Prop where
  payloads : ∀ o ∈ tx.vout, o.serializePayload.isOk = true
  vin_size : tx.vin.length < 2 ^ 64
  vout_size : tx.vout.length < 2 ^ 64
  scriptSig_size : ∀ i ∈ tx.vin, i.scriptSig.length < 2 ^ 64
  stack_size : ∀ i ∈ tx.vin, i.scriptWitness.length < 2 ^ 64 ∧ ∀ w ∈ i.scriptWitness, w.length < 2 ^ 64

instance (tx : CMutableTransaction) : Decidable tx.Constructible :=
  decidable_of_iff ((∀ o ∈ tx.vout, o.serializePayload.isOk = true) ∧ tx.vin.length < 2 ^ 64 ∧ tx.vout.length < 2 ^ 64 ∧
      (∀ i ∈ tx.vin, i.scriptSig.length < 2 ^ 64) ∧
      ∀ i ∈ tx.vin, i.scriptWitness.length < 2 ^ 64 ∧ ∀ w ∈ i.scriptWitness, w.length < 2 ^ 64)
    ⟨fun h => ⟨h.1, h.2.1, h.2.2.1, h.2.2.2.1, h.2.2.2.2⟩,
      fun h => ⟨h.payloads, h.vin_size, h.vout_size, h.scriptSig_size, h.stack_size⟩⟩

/-- `MakeTransactionRef`: the hash is computed, which throws where an output does not serialize -/
def makeTransactionRef (tx : CMutableTransaction) : Except String CTransaction :=
  if h : tx.Constructible then
    .ok ⟨tx.vin, tx.vout, tx.version, tx.nLockTime, h.payloads, h.vin_size, h.vout_size, h.scriptSig_size, h.stack_size⟩
  else match tx.serialize false with
    | .error what => .error what
    | .ok _ => .error "vector"

/-- a change of the coinbase's input -/
def changeCoinbase (block : CBlock) (change : CTxIn → CTxIn) : Except String CBlock :=
  match block.vtx with
  | [] => .error "no coinbase"
  | coinbase :: rest => do
    let tx ← makeTransactionRef { coinbase.toMutable with vin := coinbase.vin.modifyHead change }
    return { block with vtx := tx :: rest }

/-- `UpdateUncommittedBlockStructures` -/
def updateUncommittedBlockStructures (segwitActive : Bool) (block : CBlock) : Except String CBlock :=
  if (getWitnessCommitmentOffset block).isSome ∧ segwitActive = true ∧
    block.vtx.head?.all (fun tx => !tx.hasWitness) then
    changeCoinbase block fun txin => { txin with scriptWitness := [List.replicate 32 0] }
  else .ok block

/-- the witness commitment: pushed, or written over the one that is there -/
def writeCommitment (commitpos : Option ℕ) (witnessroot : Uint256) (scriptSig : Bytes) : Bytes :=
  match commitpos with
  | none => scriptSig ++ pushData (WITNESS_COMMITMENT_HEADER ++ witnessroot.bytes)
  | some pos =>
    let start := pos + WITNESS_COMMITMENT_HEADER.length
    scriptSig.take start ++ witnessroot.bytes ++ scriptSig.drop (start + 32)

/-- the coinbase's input with the commitment of the block -/
def commitInput (block : CBlock) (txin : CTxIn) : CTxIn :=
  let witnessroot := hash256 ((blockWitnessMerkleRoot block).bytes ++ List.replicate 32 0)
  { txin with scriptSig := writeCommitment (getWitnessCommitmentOffset block) witnessroot txin.scriptSig }

/-- `GenerateCoinbaseCommitment` -/
def generateCoinbaseCommitment (segwitActive : Bool) (block : CBlock) : Except String CBlock := do
  let committed ← changeCoinbase block (commitInput block)
  updateUncommittedBlockStructures segwitActive committed

/-- the coinbase's scriptSig before the commitment: the height, in two bytes at least -/
def coinbaseScriptSig (nHeight : ℕ) : Bytes := pushInt64 nHeight ++ if nHeight ≤ 16 then [OP_0] else []

/-- fees and reduced subsidy -/
def blockReward : CAmount := s.nFees + getBlockSubsidyForWeight ctx.nHeight s.nBlockTxWeight ctx.P

/-- the coinbase before the commitment -/
def coinbaseTx : CMutableTransaction where
  vin := [⟨⟨Uint256.null, NULL_INDEX⟩, coinbaseScriptSig ctx.nHeight, SEQUENCE_FINAL - 1, []⟩]
  vout := [CTxOut.ofScript (Int64.ofInt (blockReward ctx s)) ctx.options.coinbaseOutputScript]
  version := 2
  nLockTime := UInt32.ofNat (ctx.nHeight - 1)

/-! ## CreateNewBlock -/

/-- what comes from outside -/
structure TemplateEnv where
  /-- version, previous block, time and bits of the header -/
  header : CBlockHeader
  segwitActive : Bool
  /-- the text of the state, if the block is not valid -/
  testBlockValidity : CBlock → Option String

/-- what a mining client takes over from the coinbase -/
structure CoinbaseTx where
  version : UInt32
  sequence : UInt32
  scriptSigPrefix : Bytes
  witness : Option Bytes
  blockRewardRemaining : CAmount
  lockTime : UInt32

/-- a template, with the assembler that made it -/
structure CBlockTemplate where
  block : CBlock
  assembler : BlockAssembler
  coinbase : CoinbaseTx

/-- the transactions that are selected -/
def selectTransactions (mempool : Option BlockBuilder) : BlockAssembler :=
  match mempool with
  | some builder => if ctx.options.useMempool then addChunks ctx builder 0 (resetBlock ctx) else resetBlock ctx
  | none => resetBlock ctx

/-- the client's view of the final coinbase -/
def coinbaseFields (block : CBlock) : CoinbaseTx where
  version := (coinbaseTx ctx s).version
  sequence := SEQUENCE_FINAL - 1
  scriptSigPrefix := ((coinbaseInput block).map CTxIn.scriptSig).getD []
  witness := (coinbaseInput block).bind fun txin => txin.scriptWitness.head?
  blockRewardRemaining := blockReward ctx s
  lockTime := (coinbaseTx ctx s).nLockTime

/-- `CreateNewBlock` -/
def createNewBlock (env : TemplateEnv) (mempool : Option BlockBuilder) : Except String CBlockTemplate := do
  let s := selectTransactions ctx mempool
  let coinbase ← makeTransactionRef (coinbaseTx ctx s)
  let committed ← generateCoinbaseCommitment env.segwitActive ⟨CBlockHeader.null, coinbase :: s.vtx,
    false, false, false⟩
  let block := { committed with header := { env.header with hashMerkleRoot := Uint256.null, nNonce := 0 } }
  match if ctx.options.testBlockValidity then env.testBlockValidity block else none with
  | some state => .error ("TestBlockValidity failed: " ++ state)
  | none => return ⟨block, s, coinbaseFields ctx s block⟩

end

end ConnectCoin
