/-
The stored form of a coin (`Coin::Serialize` and `Coin::Unserialize` in `coins.h`, `TxInUndoFormatter` in `undo.h`).

- `Coin.serialize`, `readCoin`: height and flag in one number, then amount and payload; a spent coin is not written.
- `Coin.serializeUndo` has a zero byte behind a height that is not 0; `readTxInUndo` reads it.
Result: `coin_storage_lossless`: a coin with a valid output and an amount in range comes back from both forms as it was,
with nothing left over, and no step of the amount code or of the integer code passes its type.
-/
import ConnectCoin.Coins.Undo

namespace ConnectCoin

open Lib

section
variable [Crypto]

/-- the height and the coinbase flag in 32 bits -/
def Coin.code (c : Coin) : ℕ := c.nHeight * 2 + c.fCoinBase.toNat

/-- `TxOutCompression::Ser`; a throw from the payload stops it -/
def CTxOut.serializeCompressed (o : CTxOut) : Except String Bytes :=
  o.serializePayload.map fun payload => varInt (compressAmount o.nValue.toUInt64.toNat) ++ payload

/-- `Coin::Serialize` -/
def Coin.serialize (c : Coin) : Except String Bytes :=
  if c.isSpent then .error "assertion failed: !IsSpent()" else
    c.out.serializeCompressed.map fun out => varInt c.code ++ out

/-- `Coin::Unserialize` -/
def readCoin : Reader Coin := do
  let code ← readVarInt (2 ^ 32 - 1) endOfData
  let out ← readTxOut
  return Coin.ofOutput out (code / 2) (code % 2 == 1)

theorem CTxOut.Valid.serializes {o : CTxOut} (h : o.Valid) : o.serializePayload = .ok o.payload := by
  rcases h with ⟨k, hk⟩ | ⟨p, hp⟩
  · rw [payload_p2pk hk, CTxOut.serializePayload, (CTxOut.getP2PKPubKey_eq_some.1 hk).1, hk]
    rfl
  · rw [payload_p2c hp, CTxOut.serializePayload, (CTxOut.getPayToDomain_eq_some hp).1, hp]
    rfl

theorem Coin.code_lt (c : Coin) : c.code < 2 ^ 32 := by
  have hheight := c.height_lt
  have hflag := Bool.toNat_lt c.fCoinBase
  unfold Coin.code
  omega

theorem Coin.ofOutput_code (c : Coin) : Coin.ofOutput c.out (c.code / 2) (c.code % 2 == 1) = c := by
  have hheight := c.height_lt
  have hflag := Bool.toNat_lt c.fCoinBase
  have hdiv : c.code / 2 = c.nHeight := by
    unfold Coin.code
    omega
  have hmod : (c.code % 2 == 1) = c.fCoinBase := by
    rw [Coin.code, show (c.nHeight * 2 + c.fCoinBase.toNat) % 2 = c.fCoinBase.toNat by omega]
    cases c.fCoinBase <;> rfl
  obtain ⟨out, fCoinBase, nHeight, hlt⟩ := c
  simp only [hdiv, hmod, Coin.ofOutput, Nat.mod_eq_of_lt hheight]

/-- a coin that storage keeps as it is -/
structure Coin.Storable (c : Coin) : Prop where
  valid : c.out.Valid
  amount : c.AmountOk

namespace Coin.Storable

variable {c : Coin}

theorem unspent (h : c.Storable) : c.isSpent = false := by
  have hpos := h.amount.1
  rw [Coin.isSpent, CTxOut.isNull, beq_eq_false_iff_ne]
  intro hnull
  rw [CTxOut.value, hnull] at hpos
  exact absurd hpos (by decide)

theorem payload (h : c.Storable) : c.out.serializePayload.isOk = true := by
  rw [h.valid.serializes]
  rfl

theorem compressed (h : c.Storable) :
    c.out.serializeCompressed = .ok (varInt (compressAmount c.out.nValue.toUInt64.toNat) ++ c.out.payload) := by
  rw [CTxOut.serializeCompressed, h.valid.serializes]
  rfl

/-- `Coin::Serialize` and back. -/
theorem read_serialize (h : c.Storable) :
    ∃ bytes, c.serialize = .ok bytes ∧ ∀ t, readCoin (bytes ++ t) = .ok (c, t) := by
  have hunspent : ¬ c.isSpent = true := by
    rw [h.unspent]
    decide
  refine ⟨_, by rw [Coin.serialize, if_neg hunspent, h.compressed]; rfl, fun t => ?_⟩
  have hcode := c.code_lt
  have hout := readTxOut_bytes h.payload h.amount.1 h.amount.2 t
  rw [h.valid.stored] at hout
  simp only [readCoin, List.append_assoc, reads_bind]
  refine ⟨_, _, readVarInt_varInt (by omega) (by omega) _, c.out, t, hout, ?_⟩
  rw [c.ofOutput_code]
  rfl

/-- `TxInUndoFormatter` and back. -/
theorem read_serializeUndo (h : c.Storable) :
    ∃ bytes, c.serializeUndo = .ok bytes ∧ ∀ t, readTxInUndo (bytes ++ t) = .ok (c, t) := by
  have hstored : c.stored = c := by rw [Coin.stored, h.valid.stored]
  refine ⟨c.undoBytes, ?_, fun t => ?_⟩
  · rw [Coin.serializeUndo, h.valid.serializes]
    rfl
  · rw [readTxInUndo_undoBytes c t ⟨h.payload, h.amount⟩, hstored]

end Coin.Storable

/-- Stored bytes that are read back are different for different coins. -/
theorem bytes_injective {write : Coin → Except String Bytes} {read : Reader Coin}
    (h : ∀ c : Coin, c.Storable → ∃ bytes, write c = .ok bytes ∧ ∀ t, read (bytes ++ t) = .ok (c, t)) {c c' : Coin}
    (hc : c.Storable) (hc' : c'.Storable) (heq : write c = write c') : c = c' := by
  obtain ⟨bytes, hbytes, hread⟩ := h c hc
  obtain ⟨bytes', hbytes', hread'⟩ := h c' hc'
  obtain rfl : bytes = bytes' := Except.ok.inj (hbytes.symm.trans (heq.trans hbytes'))
  exact congrArg Prod.fst (Except.ok.inj ((hread []).symm.trans (hread' [])))

/-- Compact coin and undo storage keeps everything, on every coin with a valid output and an amount in range: both forms
are read back as the coin, using exactly the bytes written, and differ for different coins; the amount code is inverted;
and with every operation checked, neither the amount code nor the integer code fails. -/
theorem coin_storage_lossless : (∀ c : Coin, c.out.Valid → 0 ≤ c.out.value → c.out.value ≤ MAX_MONEY →
      (∃ bytes, c.serialize = .ok bytes ∧ ∀ t, readCoin (bytes ++ t) = .ok (c, t)) ∧
      (∃ bytes, c.serializeUndo = .ok bytes ∧ ∀ t, readTxInUndo (bytes ++ t) = .ok (c, t)) ∧
      ∀ c' : Coin, c'.out.Valid → 0 ≤ c'.out.value → c'.out.value ≤ MAX_MONEY →
        (c.serialize = c'.serialize ∨ c.serializeUndo = c'.serializeUndo) → c = c') ∧ (∀ n : ℕ, (n : ℤ) ≤ MAX_MONEY →
      decompressAmount (compressAmount n) = n ∧ compressAmountChecked n = some (compressAmount n) ∧
      decompressAmountChecked (compressAmount n) = some n) ∧
    (∀ n : ℕ, (n < 2 ^ 32 → varIntChecked 32 n = some (varInt n)) ∧
      (n < 2 ^ 64 → varIntChecked 64 n = some (varInt n))) ∧
    ∀ (eof : String) (s : Bytes), readVarIntChecked 32 eof s = readVarInt (2 ^ 32 - 1) eof s ∧
      readVarIntChecked 64 eof s = readVarInt (2 ^ 64 - 1) eof s := by
  refine ⟨fun c hvalid hmin hmax => ?_, fun n hn => ?_, fun n => ?_, fun eof s => ?_⟩
  · have hc : c.Storable := ⟨hvalid, hmin, hmax⟩
    refine ⟨hc.read_serialize, hc.read_serializeUndo, fun c' hvalid' hmin' hmax' heq => ?_⟩
    have hc' : c'.Storable := ⟨hvalid', hmin', hmax'⟩
    rcases heq with heq | heq
    · exact bytes_injective (fun c hc => hc.read_serialize) hc hc' heq
    · exact bytes_injective (fun c hc => hc.read_serializeUndo) hc hc' heq
  · obtain ⟨hback, hchecked⟩ := decompressAmount_compressAmount hn
    exact ⟨hback, compressAmountChecked_eq hn, hchecked⟩
  · exact ⟨fun h => varIntChecked_eq (by decide) (by decide) h, fun h => varIntChecked_eq (by decide) (by decide) h⟩
  · exact ⟨readVarIntChecked_eq (by decide) eof s, readVarIntChecked_eq (by decide) eof s⟩

end

section
attribute [local instance] toyCrypto

/-- the largest amount, in a coinbase at the largest height -/
def largestCoin : Coin := ⟨p2pkOutput 1000000000000000000 (Uint256.ofNat 1) toyKey_valid, true, 2 ^ 31 - 1, by decide⟩

/-- The largest coin is written in 43 bytes, and read back. -/
theorem largestCoin_stored : ∃ bytes, largestCoin.serialize = .ok bytes ∧ bytes.length = 43 ∧
    readCoin bytes = .ok (largestCoin, []) := by
  have hvalid : largestCoin.out.Valid := Or.inl ⟨_, getP2PKPubKey_p2pkOutput _ _ _⟩
  obtain ⟨⟨bytes, hbytes, hread⟩, -⟩ := coin_storage_lossless.1 largestCoin hvalid (by decide) (by decide)
  refine ⟨bytes, hbytes, ?_, ?_⟩
  · have hlength : (largestCoin.serialize.map List.length).toOption = some 43 := by decide +kernel
    rw [hbytes] at hlength
    exact Option.some_inj.1 hlength
  · have hread := hread []
    rwa [List.append_nil] at hread

end

end ConnectCoin
