/-
Hexadecimal text (`HexStr` and `HexDigit` in `crypto/hex_base.cpp`, `IsHex` and `ParseHex` in `util/strencodings.cpp`).

- `hexStr`: two lower-case digits for each byte; `isHex`: an even, positive number of digits; `parseHex` skips white
  space between bytes and takes text that is not hexadecimal for no bytes at all.
Results: `parseHex_hexStr`, `isHex_hexStr`.
-/
import ConnectCoin.Lib.Bytes

namespace ConnectCoin

open Lib List

/-- "0123456789abcdef" -/
def hexmap (digit : UInt8) : UInt8 := if digit < 10 then 48 + digit else 87 + digit

/-- `HexStr` -/
def hexStr (s : Bytes) : Bytes := s.flatMap fun v : UInt8 => [hexmap (v >>> 4), hexmap (v &&& 15)]

/-- `HexDigit`; none for the −1 of its table -/
def hexDigit (c : UInt8) : Option UInt8 :=
  if 48 ≤ c ∧ c ≤ 57 then some (c - 48)
  else if 65 ≤ c ∧ c ≤ 70 then some (c - 55)
  else if 97 ≤ c ∧ c ≤ 102 then some (c - 87)
  else none

/-- `IsSpace` -/
def isSpace (c : UInt8) : Bool := c == 32 || c == 12 || c == 10 || c == 13 || c == 9 || c == 11

/-- `IsHex` -/
def isHex (str : Bytes) : Bool := str.all (fun c => (hexDigit c).isSome) && 0 < str.length && str.length % 2 == 0

/-- `TryParseHex` -/
def tryParseHex : Bytes → Option Bytes
  | [] => some []
  | [c] => if isSpace c then some [] else none
  | c :: d :: rest =>
    if isSpace c then tryParseHex (d :: rest)
    else match hexDigit c, hexDigit d with
      | some c1, some c2 => (tryParseHex rest).map fun vch => (c1 <<< 4 ||| c2) :: vch
      | _, _ => none

/-- `ParseHex` -/
def parseHex (str : Bytes) : Bytes := (tryParseHex str).getD []

/-- The digits of a byte are read back, and neither is a space. -/
theorem hexDigit_hexmap (v : UInt8) :
    hexDigit (hexmap (v >>> 4)) = some (v >>> 4) ∧ hexDigit (hexmap (v &&& 15)) = some (v &&& 15) ∧
      isSpace (hexmap (v >>> 4)) = false ∧ (v >>> 4) <<< 4 ||| (v &&& 15) = v := by
  have hbytes : ∀ n < 256, hexDigit (hexmap (UInt8.ofNat n >>> 4)) = some (UInt8.ofNat n >>> 4) ∧
      hexDigit (hexmap (UInt8.ofNat n &&& 15)) = some (UInt8.ofNat n &&& 15) ∧
      isSpace (hexmap (UInt8.ofNat n >>> 4)) = false ∧
      (UInt8.ofNat n >>> 4) <<< 4 ||| (UInt8.ofNat n &&& 15) = UInt8.ofNat n := by decide +kernel
  have hv := hbytes v.toNat v.toNat_lt
  rwa [UInt8.ofNat_toNat] at hv

theorem tryParseHex_hexStr (s : Bytes) : tryParseHex (hexStr s) = some s := by
  induction s with
  | nil => rfl
  | cons v s ih =>
    obtain ⟨hhigh, hlow, hspace, hv⟩ := hexDigit_hexmap v
    change tryParseHex (hexmap (v >>> 4) :: hexmap (v &&& 15) :: hexStr s) = _
    rw [tryParseHex, if_neg (by rw [hspace]; decide), hhigh, hlow, ih]
    simp only [Option.map_some, hv]

theorem parseHex_hexStr (s : Bytes) : parseHex (hexStr s) = s := by rw [parseHex, tryParseHex_hexStr, Option.getD_some]

theorem hexStr_length (s : Bytes) : (hexStr s).length = 2 * s.length := by
  simp [hexStr, length_flatMap, Nat.mul_comm]

theorem isHex_hexStr {s : Bytes} (h : s ≠ []) : isHex (hexStr s) = true := by
  have hpos := length_pos_iff.2 h
  simp only [isHex, hexStr_length, Bool.and_eq_true, all_eq_true, decide_eq_true_eq, beq_iff_eq]
  refine ⟨⟨?_, by omega⟩, by omega⟩
  intro c hc
  obtain ⟨v, -, hmem⟩ := mem_flatMap.1 hc
  obtain ⟨hhigh, hlow, -, -⟩ := hexDigit_hexmap v
  rcases mem_pair.1 hmem with rfl | rfl
  · rw [hhigh]; rfl
  · rw [hlow]; rfl

end ConnectCoin
