/-
Proof of work and its RandomX key schedule (`pow.cpp`, `HasValidProofOfWork` in `validation.cpp`).

The key of a block is the hash of an earlier block of its own chain, the seed: the last epoch block at least `lag` below
it, or the bootstrap key near the start. The height arithmetic of `RandomXSeedHeight` mixes `int` and `uint32_t`; the
model keeps it (`UInt32`, then the conversion back to `int`).

- `randomXSeedHeight`, `getRandomXKey`: none stands for a failed assertion.
- `checkProofOfWork`, `permittedDifficultyTransition`.
- `batchKey`, `hasValidProofOfWork`: the key a batch of headers uses for one of its own, from the index or from the
  batch; none stands for the early `return false`.
Left out: RandomX contexts and memory modes (they do not change the hash), fuzzing determinism.
-/
import ConnectCoin.Consensus.Params
import ConnectCoin.Core.Chain

namespace ConnectCoin

open Lib

/-! ## Key schedule -/

/-- `RandomXSeedHeight` for a block height of type `int` (below 2^31) -/
def randomXSeedHeight (P : Params) (blockHeight : ℕ) : ℤ :=
  if P.randomxEpochBlocks = 0 then 0
  else if (blockHeight : ℤ) ≤ P.randomxEpochLag.toInt32.toInt then 0
  else ((UInt32.ofNat blockHeight - P.randomxEpochLag) / P.randomxEpochBlocks * P.randomxEpochBlocks).toInt32.toInt

/-- the height of the block after pindexPrev -/
def nextHeight : Option CBlockIndex → ℕ
  | none => 0
  | some prev => prev.nHeight + 1

section
variable [Crypto]

/-- `GetRandomXKey` in `pow.cpp` -/
def getRandomXKey (P : Params) (pindexPrev : Option CBlockIndex) : Option Uint256 :=
  let seedHeight := randomXSeedHeight P (nextHeight pindexPrev)
  if seedHeight = 0 then some P.randomxBootstrapKey
  else (pindexPrev.bind fun prev => prev.getAncestor seedHeight).map CBlockIndex.getBlockHash

/-! ## Checks -/

/-- `CheckProofOfWorkImpl` -/
def checkProofOfWorkImpl (P : Params) (hash : Uint256) (nBits : UInt32) : Bool :=
  match deriveTarget nBits P.powLimit with
  | none => false
  | some target => uintToArith256 hash ≤ target

/-- `CheckProofOfWork` for a header under a key -/
def checkProofOfWork (P : Params) (header : CBlockHeader) (key : Uint256) (blockHeight : ℕ) : Bool :=
  if P.randomxMockPow then
    (blockHeight == 0 && header.getHash == P.hashGenesisBlock) || checkProofOfWorkImpl P header.getHash header.nBits
  else match deriveTarget header.nBits P.powLimit with
    | none => false
    | some target => uintToArith256 (Crypto.randomX key header.serialize) ≤ target

end

/-- `MultiplyDivide`: value · multiplier / divisor, without leaving 256 bits -/
def multiplyDivide (value : ArithUint256) (multiplier divisor : ℕ) : ArithUint256 :=
  let d := BitVec.ofNat 256 (divisor % 2 ^ 32)
  let m := BitVec.ofNat 256 (multiplier % 2 ^ 32)
  let quotient := value / d
  quotient * m + (value - quotient * d) * m / d

/-- one end of the permitted range: the old target scaled by a timespan, capped, rounded to compact -/
def scaledTarget (P : Params) (oldNBits : UInt32) (timespan : ℕ) : ArithUint256 :=
  let powLimit := uintToArith256 P.powLimit
  let t := multiplyDivide (setCompact oldNBits).value timespan P.nPowTargetTimespan
  (setCompact (getCompact (if t > powLimit then powLimit else t))).value

/-- `PermittedDifficultyTransition` -/
def permittedDifficultyTransition (P : Params) (height : ℕ) (oldNBits newNBits : UInt32) : Bool :=
  if P.fPowAllowMinDifficultyBlocks then true
  else if height % P.difficultyAdjustmentInterval = 0 then
    let observed := (setCompact newNBits).value
    !(scaledTarget P oldNBits (P.nPowTargetTimespan * 4) < observed) &&
      !(scaledTarget P oldNBits (P.nPowTargetTimespan / 4) > observed)
  else oldNBits == newNBits

/-! ## Batches of headers -/

section
variable [Crypto]

/-- the key `HasValidProofOfWork` uses at an index of its batch -/
def batchKey (P : Params) (pindexPrev : Option CBlockIndex) (headerIds : List Uint256) (index : ℕ) : Option Uint256 :=
  let firstHeight := nextHeight pindexPrev
  let seedHeight := randomXSeedHeight P (firstHeight + index)
  if seedHeight = 0 then some P.randomxBootstrapKey
  else match pindexPrev with
    | some prev =>
      if seedHeight ≤ prev.nHeight then (prev.getAncestor seedHeight).map CBlockIndex.getBlockHash
      else batchSeed firstHeight seedHeight
    | none => batchSeed firstHeight seedHeight
where
  /-- the seed is inside the batch, before the index -/
  batchSeed (firstHeight : ℕ) (seedHeight : ℤ) : Option Uint256 :=
    let offset := seedHeight - firstHeight
    if offset < 0 ∨ offset.toNat ≥ index then none else headerIds[offset.toNat]?

/-- `HasValidProofOfWork` -/
def hasValidProofOfWork (P : Params) (headers : List CBlockHeader) (pindexPrev : Option CBlockIndex) : Bool :=
  let headerIds := headers.map CBlockHeader.getHash
  headers.zipIdx.all fun (header, index) =>
    match batchKey P pindexPrev headerIds index with
    | none => false
    | some key => checkProofOfWork P header key (nextHeight pindexPrev + index)

end

end ConnectCoin
