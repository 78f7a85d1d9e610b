/-
Digests and the outside functions the program is built on (`uint256.h`, `hash.h`, `pubkey.h`, `crypto/sha256.h`).

- `Uint256`: a blob of exactly 32 bytes.
- `Crypto`: SHA-256, the curve check of an x-only key and the RandomX hash. They are DATA, not axioms: every definition
  of the model runs under any `Crypto`, and a result that needs a hash not to collide says so for the messages it
  compares (`Set.InjOn`), never for all byte strings (32 bytes cannot carry those).
- `hash256`: double SHA-256 (`CHash256`, `HashWriter::GetHash`); `taggedHash`: the tag's digest twice, then the message.
-/
import ConnectCoin.Lib.Bytes

namespace ConnectCoin

open Lib

/-- a 256-bit blob, least significant byte first when read as a number -/
structure Uint256 where
  bytes : Bytes
  size_eq : bytes.length = 32
  deriving DecidableEq

namespace Uint256

@[ext] theorem ext {a b : Uint256} (h : a.bytes = b.bytes) : a = b := by
  cases a; cases b; cases h; rfl

variable (a : Uint256)

@[simp] theorem bytes_length : a.bytes.length = 32 := a.size_eq

/-- the 32 low bytes of a number (`ArithToUint256`) -/
def ofNat (n : ℕ) : Uint256 := ⟨leBytes 32 n, leBytes_length 32 n⟩

/-- the blob at a 32-byte slice (a shorter slice is padded, a longer one cut; the program only takes 32 bytes) -/
def ofSlice (b : Bytes) : Uint256 := ofNat (leNat b)

/-- `UintToArith256` -/
def toNat : ℕ := leNat a.bytes

def null : Uint256 := ofNat 0

/-- `IsNull`: every byte is zero -/
def isNull : Bool := a.bytes.all (· == 0)

instance : Inhabited Uint256 := ⟨null⟩

theorem bytes_inj {a b : Uint256} : a.bytes = b.bytes ↔ a = b := ⟨ext, fun h => h ▸ rfl⟩

theorem bytes_ofSlice {b : Bytes} (h : b.length = 32) : (ofSlice b).bytes = b := by
  change leBytes 32 (leNat b) = b
  rw [← h, leBytes_leNat]

@[simp] theorem ofSlice_bytes : ofSlice a.bytes = a := ext (bytes_ofSlice a.size_eq)

theorem toNat_lt : a.toNat < 2 ^ 256 := by
  have h := leNat_lt a.bytes
  rw [a.size_eq] at h
  exact lt_of_lt_of_eq h (by norm_num)

theorem toNat_ofNat {n : ℕ} (h : n < 2 ^ 256) : (ofNat n).toNat = n :=
  leNat_leBytes_of_lt (lt_of_lt_of_eq h (by norm_num))

theorem isNull_iff : a.isNull = true ↔ a = null := by
  rw [← bytes_inj, isNull, List.all_eq_true]
  have hz : null.bytes = List.replicate 32 0 := by decide
  rw [hz, List.eq_replicate_iff]
  simp

end Uint256

/-- the functions of the outside world: hashing, the curve check, RandomX -/
class Crypto where
  /-- `CSHA256` over a whole message -/
  sha256 : Bytes → Uint256
  /-- `XOnlyPubKey::IsFullyValid` -/
  isFullyValid : Uint256 → Bool
  /-- `GetRandomXHash` of header bytes under a key -/
  randomX : Uint256 → Bytes → Uint256

/-- A stand-in for runs on concrete inputs: the first 32 bytes of the message, padded. -/
@[reducible] def toyCrypto : Crypto where
  sha256 b := Uint256.ofSlice (b.take 32)
  isFullyValid k := !k.isNull
  randomX _ b := Uint256.ofSlice (b.take 32)

theorem toyKey_valid : toyCrypto.isFullyValid (Uint256.ofNat 1) = true := by decide

section
variable [Crypto]

/-- double SHA-256 -/
def hash256 (b : Bytes) : Uint256 := Crypto.sha256 (Crypto.sha256 b).bytes

/-- the bytes `TaggedHash(tag)` has absorbed before the message -/
def taggedPrefix (tag : Bytes) : Bytes := (Crypto.sha256 tag).bytes ++ (Crypto.sha256 tag).bytes

/-- `TaggedHash(tag) << message`, finished with a single SHA-256 (`GetSHA256`) -/
def taggedHash (tag message : Bytes) : Uint256 := Crypto.sha256 (taggedPrefix tag ++ message)

end

end ConnectCoin
