/-
Checks of a block that need no context (`consensus/merkle.cpp`, `consensus/validation.h`, `CheckMerkleRoot`,
`CheckWitnessMalleation` and `CheckBlock` in `validation.cpp`).

- `computeMerkleRoot`: the root and whether a level had equal neighbours.
- `getWitnessCommitmentOffset`: the last 36-byte push of the coinbase's scriptSig that starts with the commitment
  header.
- `checkBlock`, `checkWitnessMalleation`: a failure is the rejection with its texts; a success is the block with its
  cache flags.
The signet solution is a function taken from outside. A block's legacy sigop count is 0, as in the source.
Results: `checkMerkleRoot_ok`, `checkBlock_ok`, `checkWitnessMalleation_ok`: what a block without cached checks has
passed.
-/
import ConnectCoin.Consensus.TxCheck
import ConnectCoin.Lib.Merkle
import ConnectCoin.Sync.Pow

namespace ConnectCoin

open Lib List

/-! ## Rejections -/

inductive BlockValidationResult where
  | BLOCK_CONSENSUS
  | BLOCK_CACHED_INVALID
  | BLOCK_INVALID_HEADER
  | BLOCK_MUTATED
  | BLOCK_MISSING_PREV
  | BLOCK_INVALID_PREV
  | BLOCK_TIME_FUTURE
  | BLOCK_HEADER_LOW_WORK
  deriving DecidableEq, Repr

/-- an invalid `BlockValidationState` -/
structure BlockInvalid where
  result : BlockValidationResult
  rejectReason : String
  debugMessage : String
  deriving DecidableEq, Repr

/-- two hexadecimal digits -/
def hexByte (b : UInt8) : String :=
  let digit (n : ℕ) : Char := if n < 10 then Char.ofNat (48 + n) else Char.ofNat (87 + n)
  String.ofList [digit (b.toNat / 16), digit (b.toNat % 16)]

/-- `uint256::ToString`: hexadecimal, last byte first -/
def Uint256.toString (u : Uint256) : String := u.bytes.reverse.foldl (fun s b => s ++ hexByte b) ""

section
variable [Crypto]

/-! ## Merkle roots -/

/-- `SHA256D64` of two nodes -/
def merkleCombine (a b : Uint256) : Uint256 := hash256 (a.bytes ++ b.bytes)

/-- `ComputeMerkleRoot`, with the mutation flag -/
def computeMerkleRoot (hashes : List Uint256) : Uint256 × Bool :=
  climb merkleCombine Uint256.null hashes.length false hashes

/-- the leaves of `BlockMerkleRoot` -/
def merkleLeaves (vtx : List CTransaction) : List Uint256 := vtx.map CTransaction.getHash

/-- the leaves of `BlockWitnessMerkleRoot`: the coinbase counts as 0 -/
def witnessLeaves (vtx : List CTransaction) : List Uint256 := Uint256.null :: vtx.tail.map CTransaction.getWitnessHash

variable (block : CBlock)

/-- `BlockMerkleRoot` -/
def blockMerkleRoot : Uint256 × Bool := computeMerkleRoot (merkleLeaves block.vtx)

/-- `BlockWitnessMerkleRoot` -/
def blockWitnessMerkleRoot : Uint256 := (computeMerkleRoot (witnessLeaves block.vtx)).1

/-- `CheckMerkleRoot` -/
def checkMerkleRoot : Except BlockInvalid CBlock :=
  if block.checkedMerkleRoot then .ok block
  else
    let (merkleRoot, mutated) := blockMerkleRoot block
    if block.header.hashMerkleRoot ≠ merkleRoot then
      .error ⟨.BLOCK_MUTATED, "bad-txnmrklroot", "hashMerkleRoot mismatch"⟩
    else if mutated then .error ⟨.BLOCK_MUTATED, "bad-txns-duplicate", "duplicate transaction"⟩
    else .ok { block with checkedMerkleRoot := true }

end

/-! ## The witness commitment -/

def OP_PUSHDATA1 : UInt8 := 0x4c
def OP_PUSHDATA2 : UInt8 := 0x4d
def OP_PUSHDATA4 : UInt8 := 0x4e

/-- the size operand of a push and what follows it -/
def pushSize (opcode : UInt8) (pc : Bytes) : Option (ℕ × Bytes) :=
  let operand (width : ℕ) : Option (ℕ × Bytes) :=
    if pc.length < width then none else some (leNat (pc.take width), pc.drop width)
  if opcode < OP_PUSHDATA1 then some (opcode.toNat, pc)
  else if opcode = OP_PUSHDATA1 then operand 1
  else if opcode = OP_PUSHDATA2 then operand 2
  else operand 4

/-- `GetScriptOp`: the opcode, the pushed data and the rest of the script -/
def getScriptOp : Bytes → Option (UInt8 × Bytes × Bytes)
  | [] => none
  | opcode :: pc =>
    if opcode ≤ OP_PUSHDATA4 then
      match pushSize opcode pc with
      | none => none
      | some (nSize, pc) => if pc.length < nSize then none else some (opcode, pc.take nSize, pc.drop nSize)
    else some (opcode, [], pc)

/-- `WITNESS_COMMITMENT_HEADER` -/
def WITNESS_COMMITMENT_HEADER : Bytes := [0xaa, 0x21, 0xa9, 0xed]

/-- `MINIMUM_WITNESS_COMMITMENT` -/
def MINIMUM_WITNESS_COMMITMENT : ℕ := 36

/-- the loop of `GetWitnessCommitmentOffset` over the rest of the metadata; each turn takes at least one byte -/
def commitmentLoop (size : ℕ) : ℕ → Bytes → Option ℕ → Option ℕ
  | 0, _, commitpos => commitpos
  | fuel + 1, pc, commitpos =>
    match getScriptOp pc with
    | none => commitpos
    | some (opcode, pushdata, rest) =>
      let found := opcode.toNat = MINIMUM_WITNESS_COMMITMENT ∧ pushdata.length = MINIMUM_WITNESS_COMMITMENT ∧
        pushdata.take 4 = WITNESS_COMMITMENT_HEADER
      commitmentLoop size fuel rest (if found then some (size - pc.length + 1) else commitpos)

section
variable [Crypto] (block : CBlock)

/-- the coinbase's input, where the commitment and its nonce are -/
def coinbaseInput : Option CTxIn := block.vtx.head?.bind fun tx => tx.vin.head?

/-- `GetWitnessCommitmentOffset`; none for `NO_WITNESS_COMMITMENT` -/
def getWitnessCommitmentOffset : Option ℕ :=
  match coinbaseInput block with
  | some txin => commitmentLoop txin.scriptSig.length txin.scriptSig.length txin.scriptSig none
  | none => none

/-- the last loop of `CheckWitnessMalleation` -/
def refuseWitnesses : Except BlockInvalid CBlock :=
  if block.vtx.any CTransaction.hasWitness then
    .error ⟨.BLOCK_MUTATED, "unexpected-witness", "CheckWitnessMalleation : unexpected witness data found"⟩
  else .ok block

/-- `CheckWitnessMalleation` -/
def checkWitnessMalleation (expectWitnessCommitment : Bool) : Except BlockInvalid CBlock :=
  if !expectWitnessCommitment then refuseWitnesses block
  else if block.checkedWitnessCommitment then .ok block
  else match getWitnessCommitmentOffset block, coinbaseInput block with
    | some commitpos, some txin =>
      match txin.scriptWitness with
      | [nonce] =>
        if nonce.length ≠ 32 then
          .error ⟨.BLOCK_MUTATED, "bad-witness-nonce-size",
            "CheckWitnessMalleation : invalid witness reserved value size"⟩
        else
          let hashWitness := hash256 ((blockWitnessMerkleRoot block).bytes ++ nonce)
          if hashWitness.bytes ≠ (txin.scriptSig.drop (commitpos + WITNESS_COMMITMENT_HEADER.length)).take 32 then
            .error ⟨.BLOCK_MUTATED, "bad-witness-merkle-match",
              "CheckWitnessMalleation : witness merkle commitment mismatch"⟩
          else .ok { block with checkedWitnessCommitment := true }
      | _ => .error ⟨.BLOCK_MUTATED, "bad-witness-nonce-size",
          "CheckWitnessMalleation : invalid witness reserved value size"⟩
    | _, _ => refuseWitnesses block

/-! ## CheckBlock -/

/-- the bytes of a block -/
def CBlock.serialize (allowWitness : Bool) (block : CBlock) : Bytes :=
  block.header.serialize ++ vector (CTransaction.serialize allowWitness) block.vtx

/-- `CheckBlockHeader` -/
def checkBlockHeader (P : Params) (header : CBlockHeader) (randomxKey : Uint256) (blockHeight : ℕ) (fCheckPOW : Bool) :
    Except BlockInvalid Unit :=
  refuseIf (fCheckPOW && !checkProofOfWork P header randomxKey blockHeight)
    ⟨.BLOCK_INVALID_HEADER, "high-hash", "proof of work failed"⟩

/-- `GetLegacySigOpCount`: there is no legacy script execution -/
def getLegacySigOpCount (_ : CTransaction) : ℕ := 0

def MAX_BLOCK_SIGOPS_COST : ℕ := 80000

/-- one turn of the loop over the transactions -/
def checkBlockTx (_ : Unit) (tx : CTransaction) : Except BlockInvalid Unit :=
  match checkTransaction tx with
  | .ok () => .ok ()
  | .error e => .error ⟨.BLOCK_CONSENSUS, e.rejectReason,
      "Transaction check failed (tx hash " ++ tx.getHash.toString ++ ") " ++ e.debugMessage⟩

/-- the checks behind the Merkle root -/
def checkBlockBody : Except BlockInvalid Unit := do
  refuseIf (block.vtx.isEmpty || block.vtx.length * WITNESS_SCALE_FACTOR > MAX_BLOCK_WEIGHT ||
    (block.serialize false).length * WITNESS_SCALE_FACTOR > MAX_BLOCK_WEIGHT) ⟨.BLOCK_CONSENSUS, "bad-blk-length",
    "size limits failed"⟩
  refuseIf (!(block.vtx.head?.any CTransaction.isCoinBase)) ⟨.BLOCK_CONSENSUS, "bad-cb-missing",
    "first tx is not coinbase"⟩
  refuseIf (block.vtx.tail.any CTransaction.isCoinBase) ⟨.BLOCK_CONSENSUS, "bad-cb-multiple", "more than one coinbase"⟩
  block.vtx.foldlM checkBlockTx ()
  refuseIf ((block.vtx.map getLegacySigOpCount).sum * WITNESS_SCALE_FACTOR > MAX_BLOCK_SIGOPS_COST)
    ⟨.BLOCK_CONSENSUS, "bad-blk-sigops", "out-of-bounds SigOpCount"⟩

/-- `CheckBlock`; a missing key is the bootstrap key -/
def checkBlock (P : Params) (checkSignetBlockSolution : CBlock → Bool) (block : CBlock)
    (fCheckPOW fCheckMerkleRoot : Bool) (randomxKey : Option Uint256) (blockHeight : ℕ) : Except BlockInvalid CBlock :=
  if block.fChecked && !fCheckPOW then .ok block
  else do
    checkBlockHeader P block.header (randomxKey.getD P.randomxBootstrapKey) blockHeight fCheckPOW
    refuseIf (P.signetBlocks && fCheckPOW && !checkSignetBlockSolution block)
      ⟨.BLOCK_CONSENSUS, "bad-signet-blksig", "signet block signature validation failure"⟩
    let block ← if fCheckMerkleRoot then checkMerkleRoot block else .ok block
    checkBlockBody block
    return if !fCheckPOW && fCheckMerkleRoot then { block with fChecked := true } else block

/-! ## Specification -/

/-- what the checks behind the Merkle root ask for -/
structure BodyOk : Prop where
  coinbase : ∃ cb rest, block.vtx = cb :: rest ∧ cb.isCoinBase = true ∧ ∀ tx ∈ rest, tx.isCoinBase = false
  txs : ∀ tx ∈ block.vtx, TxOk tx
  count : block.vtx.length * WITNESS_SCALE_FACTOR ≤ MAX_BLOCK_WEIGHT
  size : (block.serialize false).length * WITNESS_SCALE_FACTOR ≤ MAX_BLOCK_WEIGHT

theorem checkBlockTx_ok {tx : CTransaction} {u v : Unit} : checkBlockTx u tx = .ok v ↔ TxOk tx := by
  rw [← checkTransaction_ok, checkBlockTx]
  cases h : checkTransaction tx with
  | error e => simp
  | ok u => simp

theorem checkBlockTxs_ok {vtx : List CTransaction} {u v : Unit} :
    vtx.foldlM checkBlockTx u = .ok v ↔ ∀ tx ∈ vtx, TxOk tx := by
  induction vtx generalizing u with
  | nil => simp [pure, Except.pure]
  | cons tx vtx ih =>
    rw [foldlM_cons_ok, forall_mem_cons]
    simp only [checkBlockTx_ok, ih]
    exact ⟨fun h => h.choose_spec, fun h => ⟨(), h⟩⟩

variable {key : Option Uint256} {P : Params} {height : ℕ} {fCheckPOW fCheckMerkleRoot : Bool} {e : BlockInvalid}
  {block : CBlock}

theorem checkBlockBody_ok {u : Unit} (h : checkBlockBody block = .ok u) : BodyOk block := by
  simp only [checkBlockBody, bind_ok, refuseIf_ok, checkBlockTxs_ok, Bool.or_eq_false_iff, Bool.not_eq_false',
    decide_eq_false_iff_not, not_lt, gt_iff_lt] at h
  obtain ⟨-, ⟨⟨hne, hcount⟩, hsize⟩, -, hcb, -, hrest, -, htxs, -⟩ := h
  obtain ⟨cb, rest, hvtx⟩ := exists_cons_of_ne_nil (isEmpty_eq_false_iff.1 hne)
  rw [hvtx] at hcb hrest
  refine ⟨⟨cb, rest, hvtx, by simpa using hcb, fun tx htx => ?_⟩, htxs, hcount, hsize⟩
  exact Bool.eq_false_iff.2 (any_eq_false.1 hrest tx htx)

variable {block b : CBlock} {signet : CBlock → Bool}

theorem checkMerkleRoot_ok (hfresh : block.checkedMerkleRoot = false) (h : checkMerkleRoot block = .ok b) :
    block.header.hashMerkleRoot = (blockMerkleRoot block).1 ∧ (blockMerkleRoot block).2 = false ∧
      b = { block with checkedMerkleRoot := true } := by
  simp only [checkMerkleRoot, hfresh, Bool.false_eq_true, if_false, ite_error_ok, not_not, ne_eq, Bool.not_eq_true,
    Except.ok.injEq] at h
  exact ⟨h.1, h.2.1, h.2.2.symm⟩

theorem checkMerkleRoot_same (h : checkMerkleRoot block = .ok b) : b.vtx = block.vtx ∧ b.header = block.header := by
  unfold checkMerkleRoot at h
  split_ifs at h with hcached
  · cases h
    exact ⟨rfl, rfl⟩
  · simp only [ite_error_ok, Except.ok.injEq] at h
    obtain ⟨-, -, rfl⟩ := h
    exact ⟨rfl, rfl⟩

/-- The flags of a block are not part of what is checked. -/
theorem BodyOk.same {x y : CBlock} (h : BodyOk x) (hvtx : y.vtx = x.vtx) (hheader : y.header = x.header) :
    BodyOk y := by
  refine ⟨by rw [hvtx]; exact h.coinbase, by rw [hvtx]; exact h.txs, by rw [hvtx]; exact h.count, ?_⟩
  rw [CBlock.serialize, hvtx, hheader]
  exact h.size

theorem checkBlockBody_same {x y : CBlock} (hvtx : y.vtx = x.vtx) (hheader : y.header = x.header) :
    checkBlockBody y = checkBlockBody x := by
  unfold checkBlockBody CBlock.serialize
  rw [hvtx, hheader]

/-- `CheckBlock` only sets flags; a block that passed was flagged, or its body passed. -/
theorem checkBlock_passed (h : checkBlock P signet block fCheckPOW fCheckMerkleRoot key height = .ok b) :
    (block.fChecked = true ∨ checkBlockBody block = .ok ()) ∧ b.vtx = block.vtx ∧ b.header = block.header := by
  unfold checkBlock at h
  by_cases hcached : (block.fChecked && !fCheckPOW) = true
  · rw [if_pos hcached] at h
    cases h
    exact ⟨Or.inl (Bool.and_eq_true_iff.1 hcached).1, rfl, rfl⟩
  · rw [if_neg hcached] at h
    cases fCheckMerkleRoot with
    | false =>
      simp only [Bool.and_false, Bool.false_eq_true, if_false, bind_ok, pure, Except.pure, Except.ok.injEq] at h
      obtain ⟨_, _, _, _, _, rfl, _, hok, rfl⟩ := h
      exact ⟨Or.inr hok, rfl, rfl⟩
    | true =>
      simp only [Bool.and_true, if_true, bind_ok, pure, Except.pure, Except.ok.injEq] at h
      obtain ⟨_, _, _, _, b', hb', _, hok, rfl⟩ := h
      obtain ⟨hvtx, hheader⟩ := checkMerkleRoot_same hb'
      rw [checkBlockBody_same hvtx hheader] at hok
      split_ifs <;> exact ⟨Or.inr hok, hvtx, hheader⟩

/-- A block that passes is well formed, if a flag that was set says the truth. -/
theorem checkBlock_body (hflag : block.fChecked = true → BodyOk block)
    (h : checkBlock P signet block fCheckPOW fCheckMerkleRoot key height = .ok b) :
    BodyOk b ∧ b.vtx = block.vtx ∧ b.header = block.header := by
  obtain ⟨hpassed, hvtx, hheader⟩ := checkBlock_passed h
  have hbody := hpassed.elim hflag checkBlockBody_ok
  exact ⟨hbody.same hvtx hheader, hvtx, hheader⟩

theorem checkMerkleRoot_error (h : checkMerkleRoot block = .error e) : e.result = .BLOCK_MUTATED := by
  unfold checkMerkleRoot at h
  simp only at h
  split_ifs at h
  · cases h
    rfl
  · cases h
    rfl

/-- A block that passed and is checked again without its work can only fail for its Merkle root. -/
theorem checkBlock_again {fCheckMerkleRoot' : Bool} {key' : Option Uint256} {height' : ℕ}
    (h : checkBlock P signet block fCheckPOW fCheckMerkleRoot key height = .ok b)
    (hagain : checkBlock P signet block false fCheckMerkleRoot' key' height' = .error e) :
    e.result = .BLOCK_MUTATED := by
  rcases (checkBlock_passed h).1 with hflag | hok
  · rw [checkBlock, if_pos (by rw [hflag]; rfl)] at hagain
    cases hagain
  · by_cases hcached : (block.fChecked && !false) = true
    · rw [checkBlock, if_pos hcached] at hagain
      cases hagain
    · rw [checkBlock, if_neg hcached] at hagain
      cases fCheckMerkleRoot' with
      | false =>
        simp only [checkBlockHeader, Bool.false_and, Bool.and_false, Bool.false_eq_true, if_false,
          bind_error, refuseIf_error, refuseIf_ok, Except.ok.injEq] at hagain
        rcases hagain with ⟨hf, -⟩ | ⟨_, _, ⟨hf, -⟩ | ⟨_, _, hf | ⟨_, rfl, hf | ⟨_, _, hf⟩⟩⟩⟩
        · cases hf
        · cases hf
        · cases hf
        · rw [hok] at hf
          cases hf
        · cases hf
      | true =>
        simp only [checkBlockHeader, Bool.false_and, Bool.and_false, if_true, bind_error, refuseIf_error, refuseIf_ok]
          at hagain
        rcases hagain with ⟨hf, -⟩ | ⟨_, _, ⟨hf, -⟩ | ⟨_, _, hf | ⟨b', hb', hf | ⟨_, _, hf⟩⟩⟩⟩
        · cases hf
        · cases hf
        · exact checkMerkleRoot_error hf
        · obtain ⟨hvtx, hheader⟩ := checkMerkleRoot_same hb'
          rw [checkBlockBody_same hvtx hheader, hok] at hf
          cases hf
        · cases hf

/-- A block without cached checks that passes with its Merkle root. -/
theorem checkBlock_ok (hchecked : block.fChecked = false) (hmerkle : block.checkedMerkleRoot = false)
    (h : checkBlock P signet block fCheckPOW true key height = .ok b) :
    (fCheckPOW = true → checkProofOfWork P block.header (key.getD P.randomxBootstrapKey) height = true) ∧
    block.header.hashMerkleRoot = (blockMerkleRoot block).1 ∧ (blockMerkleRoot block).2 = false ∧ BodyOk block := by
  simp only [checkBlock, hchecked, Bool.false_and, Bool.false_eq_true, if_false, if_true, bind_ok, checkBlockHeader,
    refuseIf_ok] at h
  obtain ⟨_, hpow, _, _, b', hb', _, hbody, _⟩ := h
  obtain ⟨hroot, hmutated, rfl⟩ := checkMerkleRoot_ok hmerkle hb'
  have hok := checkBlockBody_ok hbody
  refine ⟨fun hc => ?_, hroot, hmutated, ⟨hok.coinbase, hok.txs, hok.count, hok.size⟩⟩
  simpa [hc] using hpow

theorem refuseWitnesses_ok (h : refuseWitnesses block = .ok b) : ∀ tx ∈ block.vtx, tx.hasWitness = false := by
  rw [refuseWitnesses, ite_error_ok] at h
  intro tx htx
  exact Bool.eq_false_iff.2 fun hw => h.1 (any_eq_true.2 ⟨tx, htx, hw⟩)

/-- A block without cached checks whose witnesses are committed to: a nonce and the commitment, or no witness at all. -/
theorem checkWitnessMalleation_ok (hfresh : block.checkedWitnessCommitment = false)
    (h : checkWitnessMalleation block true = .ok b) :
      (∃ commitpos txin nonce, getWitnessCommitmentOffset block = some commitpos ∧ coinbaseInput block = some txin ∧
      txin.scriptWitness = [nonce] ∧ nonce.length = 32 ∧
      (hash256 ((blockWitnessMerkleRoot block).bytes ++ nonce)).bytes = (txin.scriptSig.drop (commitpos + 4)).take 32) ∨
    (getWitnessCommitmentOffset block = none ∧ ∀ tx ∈ block.vtx, tx.hasWitness = false) := by
  rw [checkWitnessMalleation, if_neg (by simp), hfresh, if_neg (by simp)] at h
  cases hpos : getWitnessCommitmentOffset block with
  | none =>
    rw [hpos] at h
    exact Or.inr ⟨rfl, refuseWitnesses_ok h⟩
  | some commitpos =>
    refine Or.inl ?_
    cases hin : coinbaseInput block with
    | none => simp [getWitnessCommitmentOffset, hin] at hpos
    | some txin =>
      simp only [hpos, hin] at h
      split at h
      · next nonce hstack =>
        simp only [ite_error_ok, not_not, ne_eq, Except.ok.injEq] at h
        exact ⟨commitpos, txin, nonce, rfl, rfl, hstack, h.1, h.2.1⟩
      · cases h

end

end ConnectCoin
