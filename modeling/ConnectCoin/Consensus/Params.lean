/-
Consensus parameters (`consensus/params.h`, `kernel/chainparams.cpp`): the fields the modelled functions read.

Two fields are proofs: what the program asserts about its parameters before it uses them.
- `schedule_ok`: the assertions of `RandomXSeedHeight`;
- `timespan_ok`: the assertions of `PermittedDifficultyTransition` and a non-zero adjustment interval.
Left out: deployments by version bits, script flag exceptions, network data.
-/
import ConnectCoin.Core.Hash

namespace ConnectCoin

structure Params where
  hashGenesisBlock : Uint256
  genesisCoinbaseSpendable : Bool
  nSubsidyHalvingInterval : ℕ
  BIP34Height : ℕ
  BIP34Hash : Uint256
  CSVHeight : ℕ
  SegwitHeight : ℕ
  powLimit : Uint256
  randomxBootstrapKey : Uint256
  randomxEpochBlocks : UInt32
  randomxEpochLag : UInt32
  randomxMockPow : Bool
  fPowAllowMinDifficultyBlocks : Bool
  signetBlocks : Bool
  nPowTargetSpacing : ℕ
  nPowTargetTimespan : ℕ
  schedule_ok : randomxEpochBlocks = 0 ∨ (0 < randomxEpochLag ∧ randomxEpochLag < randomxEpochBlocks)
  timespan_ok : 0 < nPowTargetSpacing ∧ nPowTargetSpacing ≤ nPowTargetTimespan ∧ 4 ≤ nPowTargetTimespan ∧
    nPowTargetTimespan * 4 < 2 ^ 32

/-- `DifficultyAdjustmentInterval` -/
def Params.difficultyAdjustmentInterval (P : Params) : ℕ := P.nPowTargetTimespan / P.nPowTargetSpacing

/-- `CMainParams` -/
def mainParams : Params where
  hashGenesisBlock := Uint256.ofNat 0x30a3a7543f593b6343873a16aeb61005dce0fe3f4169ab34039316b2a9bb373e
  genesisCoinbaseSpendable := true
  nSubsidyHalvingInterval := 3000000
  BIP34Height := 1
  BIP34Hash := Uint256.null
  CSVHeight := 1
  SegwitHeight := 1
  powLimit := Uint256.ofNat 0x0000ffff00000000000000000000000000000000000000000000000000000000
  randomxBootstrapKey := Uint256.ofNat 0xd91b262aecaac2c4868b2cbe1563538f107c33fbee8c5d373bdaa8e551567fe5
  randomxEpochBlocks := 12288
  randomxEpochLag := 64
  randomxMockPow := false
  fPowAllowMinDifficultyBlocks := false
  signetBlocks := false
  nPowTargetSpacing := 10
  nPowTargetTimespan := 24 * 60 * 60
  schedule_ok := Or.inr (by decide)
  timespan_ok := by decide

end ConnectCoin
