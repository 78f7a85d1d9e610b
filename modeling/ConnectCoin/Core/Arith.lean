/-
256-bit arithmetic and compact targets (`arith_uint256.cpp`), block work (`chain.cpp`).

`arith_uint256` is `BitVec 256`: its operators wrap at 2^256. A compact target is an 8-bit size, a sign bit and a 23-bit
word.
-/
import ConnectCoin.Core.Hash

namespace ConnectCoin

abbrev ArithUint256 := BitVec 256

/-- `UintToArith256` -/
def uintToArith256 (a : Uint256) : ArithUint256 := BitVec.ofNat 256 a.toNat

/-- what `SetCompact` decodes: the number and its two flags -/
structure Compact where
  value : ArithUint256
  negative : Bool
  overflow : Bool

/-- `SetCompact` -/
def setCompact (nCompact : UInt32) : Compact :=
  let nSize := (nCompact >>> 24).toNat
  let nWord := (nCompact &&& 0x007fffff).toNat >>> (8 * (3 - nSize))
  { value := if nSize ≤ 3 then BitVec.ofNat 256 nWord else BitVec.ofNat 256 nWord <<< (8 * (nSize - 3))
    negative := nWord != 0 && nCompact &&& 0x00800000 != 0
    overflow := nWord != 0 && (nSize > 34 || (nWord > 0xff && nSize > 33) || (nWord > 0xffff && nSize > 32)) }

/-- `bits()`: the position of the highest set bit, plus one -/
def bits (a : ArithUint256) : ℕ := a.toNat.size

/-- `GetCompact` of a non-negative number -/
def getCompact (a : ArithUint256) : UInt32 :=
  let nSize := (bits a + 7) / 8
  let nCompact := if nSize ≤ 3 then (a.toNat % 2 ^ 64) <<< (8 * (3 - nSize)) else
    (a >>> (8 * (nSize - 3))).toNat % 2 ^ 64
  let nCompact := UInt32.ofNat nCompact
  if nCompact &&& 0x00800000 != 0 then (nCompact >>> 8) ||| (UInt32.ofNat (nSize + 1) <<< 24)
  else nCompact ||| (UInt32.ofNat nSize <<< 24)

/-- `DeriveTarget`: the target of a header, if it is in range -/
def deriveTarget (nBits : UInt32) (powLimit : Uint256) : Option ArithUint256 :=
  let c := setCompact nBits
  if c.negative || c.value == 0 || c.overflow || c.value > uintToArith256 powLimit then none else some c.value

/-- `GetBitsProof`: 2^256 / (target + 1), computed inside 256 bits -/
def getBitsProof (nBits : UInt32) : ArithUint256 :=
  let c := setCompact nBits
  if c.negative || c.overflow || c.value == 0 then 0 else ~~~c.value / (c.value + 1) + 1

end ConnectCoin
