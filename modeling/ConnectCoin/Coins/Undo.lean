/-
Coins and the undo record of a block (`coins.h`, `compressor.h`, `undo.h`).

- `Coin`: an output with the height and coinbase flag of its transaction; the height has 31 bits.
- `TxOutCompression`, `TxInUndoFormatter`: amount and payload; for an undo record the height and the flag in front, and
  a zero byte where older versions had a version number.
- `CTxUndo`, `CBlockUndo`: for every transaction but the coinbase, the coins it spent.
- `Coin.stored`: what is left of a coin after it was written and read back.
Result: `readBlockUndo_serialize`: an undo record with amounts in range is read back, coin by coin as `Coin.stored`.
-/
import ConnectCoin.Coins.Compressor
import ConnectCoin.Consensus.TxOutCode

namespace ConnectCoin

open Lib

theorem toNat_toUInt64_of_nonneg {x : Int64} (h : 0 ≤ x.toInt) : (x.toUInt64.toNat : ℤ) = x.toInt := by
  change 0 ≤ x.toBitVec.toInt at h
  change (x.toBitVec.toNat : ℤ) = x.toBitVec.toInt
  have hlt := x.toBitVec.isLt
  rw [BitVec.toInt_eq_toNat_cond] at h ⊢
  split_ifs at h ⊢
  · rfl
  · omega

section
variable [Crypto]

/-! ## Coins -/

/-- an output with the height and the coinbase flag of its transaction -/
structure Coin where
  out : CTxOut
  fCoinBase : Bool
  nHeight : ℕ
  height_lt : nHeight < 2 ^ 31
  deriving DecidableEq

namespace Coin

/-- the constructor; the height goes into 31 bits -/
def ofOutput (out : CTxOut) (nHeight : ℕ) (fCoinBase : Bool) : Coin :=
  ⟨out, fCoinBase, nHeight % 2 ^ 31, Nat.mod_lt _ (by decide)⟩

/-- `IsSpent` -/
def isSpent (c : Coin) : Bool := c.out.isNull

/-- the same amount, typed payload, height and coinbase flag -/
def Same (a b : Coin) : Prop := a.out.Same b.out ∧ a.nHeight = b.nHeight ∧ a.fCoinBase = b.fCoinBase

/-- what is left of a coin after it was written and read back -/
def stored (c : Coin) : Coin := { c with out := c.out.stored }

theorem stored_same (c : Coin) : Same c.stored c := ⟨c.out.stored_same, rfl, rfl⟩

/-- the amount, which is in range for every coin that is spent -/
def AmountOk (c : Coin) : Prop := 0 ≤ c.out.value ∧ c.out.value ≤ MAX_MONEY

/-- what `TxInUndoFormatter::Ser` writes -/
def undoBytes (c : Coin) : Bytes :=
  let nCode := c.nHeight * 2 + c.fCoinBase.toNat
  varInt nCode ++ (if c.nHeight > 0 then [0] else []) ++ varInt (compressAmount c.out.nValue.toUInt64.toNat) ++
    c.out.payload

/-- `TxInUndoFormatter::Ser`; a throw from the payload stops it -/
def serializeUndo (c : Coin) : Except String Bytes := c.out.serializePayload.map fun _ => c.undoBytes

end Coin

/-- `TxOutCompression::Unser` -/
def readTxOut : Reader CTxOut := do
  let v ← readVarInt (2 ^ 64 - 1) endOfData
  unserializePayload (UInt64.ofNat (decompressAmount v)).toInt64

/-- the version number of older undo records -/
def readVersionDummy (nHeight : ℕ) : Reader ℕ := if nHeight > 0 then readVarInt (2 ^ 32 - 1) endOfData else pure 0

/-- `TxInUndoFormatter::Unser` -/
def readTxInUndo : Reader Coin := do
  let nCode ← readVarInt (2 ^ 32 - 1) endOfData
  let _ ← readVersionDummy (nCode / 2)
  let out ← readTxOut
  return Coin.ofOutput out (nCode / 2) (nCode % 2 == 1)

theorem readTxOut_bytes {o : CTxOut} (hpayload : o.serializePayload.isOk = true) (hmin : 0 ≤ o.value)
    (hmax : o.value ≤ MAX_MONEY) (t : Bytes) :
    readTxOut (varInt (compressAmount o.nValue.toUInt64.toNat) ++ (o.payload ++ t)) = .ok (o.stored, t) := by
  have hc := compressAmount_lt o.nValue.toUInt64.toNat
  have hn : (o.nValue.toUInt64.toNat : ℤ) ≤ MAX_MONEY := (toNat_toUInt64_of_nonneg hmin).le.trans hmax
  rw [readTxOut, reads_bind]
  refine ⟨_, _, readVarInt_varInt hc (by omega) _, ?_⟩
  rw [(decompressAmount_compressAmount hn).1, UInt64.ofNat_toNat, Int64.toInt64_toUInt64]
  exact unserializePayload_payload hpayload t

/-- A coin with its amount in range is read back as the stored coin. -/
theorem readTxInUndo_undoBytes :
    ReadsBack readTxInUndo (fun c : Coin => c.out.serializePayload.isOk = true ∧ c.AmountOk) Coin.undoBytes
      Coin.stored := by
  intro c t hc
  obtain ⟨hpayload, hmin, hmax⟩ := hc
  have hheight := c.height_lt
  have hflag : c.fCoinBase.toNat < 2 := Bool.toNat_lt c.fCoinBase
  have hdiv : (c.nHeight * 2 + c.fCoinBase.toNat) / 2 = c.nHeight := by omega
  have hmod : ((c.nHeight * 2 + c.fCoinBase.toNat) % 2 == 1) = c.fCoinBase := by
    rw [show (c.nHeight * 2 + c.fCoinBase.toNat) % 2 = c.fCoinBase.toNat by omega]
    cases c.fCoinBase <;> rfl
  have hdummy : ∀ s, readVersionDummy c.nHeight ((if c.nHeight > 0 then [0] else []) ++ s) = .ok (0, s) := by
    intro s
    unfold readVersionDummy
    split_ifs
    · exact readVarInt_varInt (n := 0) (by decide) (by decide) s
    · rfl
  simp only [readTxInUndo, Coin.undoBytes, List.append_assoc, reads_bind]
  refine ⟨_, _, readVarInt_varInt (by omega) (by omega) _, 0, _, ?_, c.out.stored, t,
    readTxOut_bytes hpayload hmin hmax t, ?_⟩
  · rw [hdiv]
    exact hdummy _
  · have hcoin : Coin.ofOutput c.out.stored c.nHeight c.fCoinBase = c.stored := by
      simp only [Coin.ofOutput, Coin.stored, Nat.mod_eq_of_lt hheight]
    rw [hdiv, hmod, hcoin]
    rfl

/-! ## Undo records -/

/-- the coins a transaction spent -/
abbrev CTxUndo := List Coin

/-- the coins every transaction but the coinbase spent -/
abbrev CBlockUndo := List CTxUndo

/-- the undo record as it is written; a throw from a payload stops it -/
def CBlockUndo.serialize (u : CBlockUndo) : Except String Bytes := do
  u.flatten.foldlM (fun _ c => c.out.serializePayload.map fun _ => ()) ()
  return vector (vector Coin.undoBytes) u

def readBlockUndo : Reader CBlockUndo := readVector (readVector readTxInUndo)

theorem serializePayloads_ok {cs : List Coin} {u v : Unit}
    (h : cs.foldlM (fun _ c => c.out.serializePayload.map fun _ => ()) u = .ok v) :
    ∀ c ∈ cs, c.out.serializePayload.isOk = true := by
  induction cs generalizing u with
  | nil => simp
  | cons c cs ih =>
    obtain ⟨m, hm, hrest⟩ := foldlM_cons_ok.1 h
    refine List.forall_mem_cons.2 ⟨?_, ih hrest⟩
    cases hp : c.out.serializePayload with
    | error e => simp [hp, Except.map] at hm
    | ok b => rfl

/-- An undo record with amounts in range is read back, each coin as it is stored. -/
theorem readBlockUndo_serialize {u : CBlockUndo} {bytes : Bytes} (h : u.serialize = .ok bytes)
    (hsize : u.length ≤ MAX_SIZE) (hsizes : ∀ txundo ∈ u, txundo.length ≤ MAX_SIZE)
    (hamount : ∀ txundo ∈ u, ∀ c ∈ txundo, c.AmountOk) (t : Bytes) :
    readBlockUndo (bytes ++ t) = .ok (u.map (List.map Coin.stored), t) := by
  rw [CBlockUndo.serialize, bind_ok] at h
  obtain ⟨_, hpayloads, hbytes⟩ := h
  obtain rfl := Except.ok.inj hbytes
  refine readVector_readsBack (readVector_readsBack readTxInUndo_undoBytes) u t
    ⟨hsize, fun txundo hu => ⟨hsizes txundo hu, fun c hc => ⟨?_, hamount txundo hu c hc⟩⟩⟩
  exact serializePayloads_ok hpayloads c (List.mem_flatten.2 ⟨txundo, hu, hc⟩)

end

end ConnectCoin
