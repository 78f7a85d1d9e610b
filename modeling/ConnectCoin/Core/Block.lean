/-
Block headers and blocks (`primitives/block.h`).

- `CBlockHeader`: the 80 bytes a block hash is taken of.
- `CBlock`: a header and its transactions, with the three memory-only flags that cache earlier checks.
Results: `serialize_length`, `serialize_inj`: a header is its 80 bytes.
-/
import ConnectCoin.Core.Arith
import ConnectCoin.Core.Transaction

namespace ConnectCoin

open Lib List

structure CBlockHeader where
  nVersion : Int32
  hashPrevBlock : Uint256
  hashMerkleRoot : Uint256
  nTime : UInt32
  nBits : UInt32
  nNonce : UInt32
  deriving DecidableEq

namespace CBlockHeader

/-- `SetNull` -/
def null : CBlockHeader := ⟨0, Uint256.null, Uint256.null, 0, 0, 0⟩

def serialize (h : CBlockHeader) : Bytes :=
  leBytes 4 h.nVersion.toUInt32.toNat ++ h.hashPrevBlock.bytes ++ h.hashMerkleRoot.bytes ++ leBytes 4 h.nTime.toNat ++
    leBytes 4 h.nBits.toNat ++ leBytes 4 h.nNonce.toNat

def getHash [Crypto] (h : CBlockHeader) : Uint256 := hash256 h.serialize

theorem serialize_length (h : CBlockHeader) : h.serialize.length = 80 := by
  simp [serialize]

theorem serialize_inj {a b : CBlockHeader} (h : a.serialize = b.serialize) : a = b := by
  simp only [serialize, append_assoc] at h
  obtain ⟨hversion, h⟩ := append_inj h (by simp)
  obtain ⟨hprev, h⟩ := append_inj h (by simp)
  obtain ⟨hroot, h⟩ := append_inj h (by simp)
  obtain ⟨htime, h⟩ := append_inj h (by simp)
  obtain ⟨hbits, hnonce⟩ := append_inj h (by simp)
  have hu := UInt32.toNat_inj.1 (leBytes_inj (UInt32.toNat_lt _) (UInt32.toNat_lt _) hversion)
  have hv : a.nVersion = b.nVersion := by rw [← a.nVersion.toInt32_toUInt32, hu, Int32.toInt32_toUInt32]
  have ht := UInt32.toNat_inj.1 (leBytes_inj (UInt32.toNat_lt _) (UInt32.toNat_lt _) htime)
  have hb := UInt32.toNat_inj.1 (leBytes_inj (UInt32.toNat_lt _) (UInt32.toNat_lt _) hbits)
  have hn := UInt32.toNat_inj.1 (leBytes_inj (UInt32.toNat_lt _) (UInt32.toNat_lt _) hnonce)
  cases a; cases b
  simp only [CBlockHeader.mk.injEq]
  exact ⟨hv, Uint256.ext hprev, Uint256.ext hroot, ht, hb, hn⟩

end CBlockHeader

/-- a block; the flags remember checks made on this object before -/
structure CBlock [Crypto] where
  header : CBlockHeader
  vtx : List CTransaction
  fChecked : Bool
  checkedWitnessCommitment : Bool
  checkedMerkleRoot : Bool
  deriving DecidableEq

/-- `GetBlockProof` of a header -/
def getBlockProof (h : CBlockHeader) : ArithUint256 := getBitsProof h.nBits

end ConnectCoin
