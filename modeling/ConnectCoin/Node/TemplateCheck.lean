/-
The template's check of a chunk agrees with the consensus check of its inputs (`TestChunkTransactions`).

The template looks the spent outputs up in the mempool and in the tip's coins, skips inputs by the shape of their
witness, and repeats the proof check at the tip's median time past. Consensus dispatches on the spent output.

- `getCoin`: the coin behind an outpoint while a transaction was accepted (`CCoinsViewMemPool::GetCoin`).
- `parsed_proof_size`: what the parser accepts is longer than a signature, so no proof is skipped.
- `testInput_iff`: for an input that passed once, one turn of the loop is the script check at the new time.

Result: `template_recheck_agrees`. Premise: each input passed its script check at some time, for the coin behind it.
-/
import ConnectCoin.Node.BlockAssembler
import ConnectCoin.P2C.Replay

namespace ConnectCoin

open Lib P2C List

section
variable [Crypto]

/-! ## Coins of mempool transactions -/

def MEMPOOL_HEIGHT : ℕ := 0x7fffffff

variable (ctx : AssemblerContext)

/-- `CCoinsViewMemPool::GetCoin`, with the tip's coins below -/
def getCoin (outpoint : COutPoint) : Option Coin :=
  match ctx.getIter outpoint.hash with
  | some ptx => (ptx.vout[outpoint.n.toNat]?).map fun out => Coin.ofOutput out MEMPOOL_HEIGHT false
  | none => ctx.coinsTip.coins.lookup outpoint

/-- the outputs that the transaction's inputs spend -/
def spentOutputs (tx : CTransaction) : List CTxOut :=
  tx.vin.filterMap fun txin => (getCoin ctx txin.prevout).map Coin.out

/-- every input of the transaction passed the script check, at some time, for the coin it spends -/
def PassedOnce (tx : CTransaction) : Prop :=
  ∀ nIn txin, tx.vin[UInt32.toNat nIn]? = some txin → ∃ coin time, getCoin ctx txin.prevout = some coin ∧
      scriptCheck ctx.script coin.out (spentOutputs ctx tx) tx nIn time = none

/-- every input of the transaction passes the script check at this time -/
def ScriptsPass (tx : CTransaction) (time : Int64) : Prop :=
  ∀ nIn txin coin, tx.vin[UInt32.toNat nIn]? = some txin → getCoin ctx txin.prevout = some coin →
    scriptCheck ctx.script coin.out (spentOutputs ctx tx) tx nIn time = none

/-- The template's lookup finds the same outputs. -/
theorem spentOutput_eq (prevout : COutPoint) : spentOutput ctx prevout = (getCoin ctx prevout).map Coin.out := by
  unfold spentOutput getCoin
  cases ctx.getIter prevout.hash with
  | none => rfl
  | some ptx => simp [Function.comp_def, Coin.ofOutput]

/-! ## No proof is skipped -/

/-- Two hello messages alone are longer than a signature. -/
theorem parsed_proof_size {proof domain : Bytes} {challenge : Uint256} {view : P2CTlsProofView}
    (h : parseP2CTlsProof proof domain challenge = .ok view) : 64 < proof.length := by
  obtain ⟨-, -, p, hp, rfl, -⟩ := (parseP2CTlsProof_ok _ _ _ _).1 h
  have hclient : 32 ≤ p.clientHello.encode.length := by
    simp only [ClientHello.encode, length_append, hp.client_hello.random_eq, Uint256.bytes_length]
    omega
  have hserver : 32 ≤ p.serverHello.encode.length := by
    simp only [ServerHello.encode, length_append, hp.server_hello.random_size]
    omega
  simp only [TlsProof.encode, TlsProof.clientHelloMessage, TlsProof.serverHelloMessage, length_cons, length_append,
    handshake_length]
  omega

theorem skipsInput_of_proof {txin : CTxIn} {proof domain : Bytes} {challenge : Uint256} {view : P2CTlsProofView}
    (hw : txin.scriptWitness = [proof]) (h : parseP2CTlsProof proof domain challenge = .ok view) :
    skipsInput txin = false := by
  have hsize := parsed_proof_size h
  unfold skipsInput
  rw [hw]
  cases proof with
  | nil => simp at hsize
  | cons b proof => simpa using Nat.ne_of_gt hsize

/-! ## One input -/

section
variable {ctx : AssemblerContext} {tx : CTransaction} {nIn : UInt32} {txin : CTxIn} {out : CTxOut} {spent : List CTxOut}
  {time : Int64} (hin : tx.vin[nIn.toNat]? = some txin) (hout : spentOutput ctx txin.prevout = some out)
  (hpassed : scriptCheck ctx.script out spent tx nIn time = none)
include hin hout hpassed

/-- An input of a pay-to-connect output is checked as consensus does. -/
theorem testInput_p2c (htype : out.type = .PAY_TO_CONNECT) : skipsInput txin = false ∧
      (testInput ctx tx nIn txin = true ↔ scriptCheck ctx.script out spent tx nIn ctx.lockTimeCutoff = none) := by
  obtain ⟨proof, ⟨txin', hin', hsig, hw⟩, ⟨p2c, v, hp, hroot, hparse, hwork, -⟩, hne, hsize⟩ :=
    (scriptCheck_p2c htype).1 hpassed
  obtain rfl : txin = txin' := Option.some_inj.1 (hin.symm.trans hin')
  have hskip := skipsInput_of_proof hw hparse
  refine ⟨hskip, ?_⟩
  have htest : testInput ctx tx nIn txin = (ctx.script.verifyP2CCertificateProof out v ctx.lockTimeCutoff).isOk := by
    simp [testInput, hskip, hout, hp, testProof, hw, hsig, hne, Nat.not_lt.2 hsize, hparse, hwork]
  rw [htest, scriptCheck_p2c htype]
  apply Iff.intro
  · intro h
    cases hverify : ctx.script.verifyP2CCertificateProof out v ctx.lockTimeCutoff with
    | error e => simp [hverify, Except.isOk, Except.toBool] at h
    | ok u => exact ⟨proof, ⟨txin, hin, hsig, hw⟩, ⟨p2c, v, hp, hroot, hparse, hwork, hverify⟩, hne, hsize⟩
  · intro h
    -- the proof, the terms and the parsed view are those of the earlier check
    obtain ⟨proof', ⟨txin', hin', -, hw'⟩, ⟨p2c', v', hp', -, hparse', -, hverify⟩, -, -⟩ := h
    obtain rfl : txin = txin' := Option.some_inj.1 (hin.symm.trans hin')
    obtain rfl : proof = proof' := (List.cons.inj (hw.symm.trans hw')).1
    obtain rfl : p2c = p2c' := Option.some_inj.1 (hp.symm.trans hp')
    obtain rfl : v = v' := Except.ok.inj (hparse.symm.trans hparse')
    rw [hverify]
    rfl

/-- For an input that passed once, one turn of the loop is the script check at the new time. -/
theorem testInput_iff :
    testInput ctx tx nIn txin = true ↔ scriptCheck ctx.script out spent tx nIn ctx.lockTimeCutoff = none := by
  by_cases htype : out.type = .PAY_TO_CONNECT
  · exact (testInput_p2c hin hout hpassed htype).2
  · -- a signature: skipped, and the time does not matter
    obtain ⟨txin', signature, hin', hw, hsize⟩ := scriptCheck_p2pk htype hpassed
    obtain rfl : txin = txin' := Option.some_inj.1 (hin.symm.trans hin')
    have hskip : skipsInput txin = true := by simp [skipsInput, hw, hsize]
    have htest : testInput ctx tx nIn txin = true := by simp [testInput, hskip]
    have hpasses : scriptCheck ctx.script out spent tx nIn ctx.lockTimeCutoff = none :=
      (scriptCheck_time _ htype _ _ _ _ _).trans hpassed
    exact iff_of_true htest hpasses

end

/-! ## A list of transactions -/

/-- Checked transactions have few enough inputs for 32-bit indices. -/
theorem CTxMemPoolEntry.index_lt (entry : CTxMemPoolEntry) {i : ℕ} {txin : CTxIn} (h : entry.tx.vin[i]? = some txin) :
    (UInt32.ofNat i).toNat = i := by
  have hcount := (checkTransaction_ok.1 entry.checked).counts.1
  have hi := (List.getElem?_eq_some_iff.1 h).1
  rw [WITNESS_SCALE_FACTOR, MAX_BLOCK_WEIGHT] at hcount
  apply UInt32.toNat_ofNat_of_lt'
  exact lt_of_lt_of_le hi (le_trans (by omega : entry.tx.vin.length ≤ 50000000) (by decide))

/-- The loop over the inputs of a transaction that passed once. -/
theorem testInputs_iff {ctx : AssemblerContext} {entry : CTxMemPoolEntry} (hpassed : PassedOnce ctx entry.tx) :
    (entry.tx.vin.zipIdx.all fun input => testInput ctx entry.tx (UInt32.ofNat input.2) input.1) = true ↔
      ScriptsPass ctx entry.tx ctx.lockTimeCutoff := by
  rw [all_eq_true]
  apply Iff.intro
  · intro h nIn txin coin hin hcoin
    obtain ⟨coin', time, hcoin', hcheck⟩ := hpassed nIn txin hin
    obtain rfl : coin = coin' := Option.some_inj.1 (hcoin.symm.trans hcoin')
    have hout : spentOutput ctx txin.prevout = some coin.out := by rw [spentOutput_eq, hcoin, Option.map_some]
    have hturn := h (txin, nIn.toNat) (mem_zipIdx_iff_getElem?.2 hin)
    rw [UInt32.ofNat_toNat] at hturn
    exact (testInput_iff hin hout hcheck).1 hturn
  · intro h input hinput
    obtain ⟨txin, i⟩ := input
    have hin := mem_zipIdx_iff_getElem?.1 hinput
    rw [← entry.index_lt hin] at hin
    obtain ⟨coin, time, hcoin, hcheck⟩ := hpassed _ txin hin
    have hout : spentOutput ctx txin.prevout = some coin.out := by rw [spentOutput_eq, hcoin, Option.map_some]
    exact (testInput_iff hin hout hcheck).2 (h _ txin coin hin hcoin)

/-- The template takes a chunk iff its transactions are final and all their inputs pass the script check at the tip's
median time past; no parsable proof, and so no pay-to-connect input, is passed by. -/
theorem template_recheck_agrees (ctx : AssemblerContext) (txs : List CTxMemPoolEntry)
    (hpassed : ∀ entry ∈ txs, PassedOnce ctx entry.tx) : (testChunkTransactions ctx txs = true ↔
      ∀ entry ∈ txs, isFinalTx entry.tx ctx.nHeight ctx.lockTimeCutoff = true ∧
      ScriptsPass ctx entry.tx ctx.lockTimeCutoff) ∧
    (∀ entry ∈ txs, ∀ nIn txin coin, entry.tx.vin[UInt32.toNat nIn]? = some txin →
      getCoin ctx txin.prevout = some coin → coin.out.type = .PAY_TO_CONNECT → skipsInput txin = false) ∧
    ∀ txin proof domain challenge view, txin.scriptWitness = [proof] →
      parseP2CTlsProof proof domain challenge = .ok view → skipsInput txin = false := by
  refine ⟨?_, ?_, fun txin proof domain challenge view hw hparse => skipsInput_of_proof hw hparse⟩
  · rw [testChunkTransactions, all_eq_true]
    apply forall₂_congr
    intro entry hentry
    rw [Bool.and_eq_true, testInputs_iff (hpassed entry hentry)]
  · intro entry hentry nIn txin coin hin hcoin htype
    obtain ⟨coin', time, hcoin', hcheck⟩ := hpassed entry hentry nIn txin hin
    obtain rfl : coin = coin' := Option.some_inj.1 (hcoin.symm.trans hcoin')
    have hout : spentOutput ctx txin.prevout = some coin.out := by rw [spentOutput_eq, hcoin, Option.map_some]
    exact (testInput_p2c hin hout hcheck htype).1

end

/-! ## A chain that expires -/

section
attribute [local instance] toyCrypto

/-- certificates are good until 100 -/
def expiringEnv : ScriptEnv := ⟨fun _ _ _ _ _ => false, fun _ _ time => if time ≤ 100 then .ok () else .error "expired"⟩

/-- the tip holds the sample output -/
def expiringContext (time : Int64) : AssemblerContext where
  P := mainParams
  script := expiringEnv
  options := flattenMiningOptions {}
  checked := ⟨{}, default_options_pass (by decide) false⟩
  nHeight := 5
  lockTimeCutoff := time
  getIter _ := none
  coinsTip := CoinsView.empty.withCoin ⟨Uint256.ofNat 7, 0⟩ ⟨sampleP2COutput, false, 1, Nat.one_lt_two_pow' 30⟩ rfl

/-- the sample connection, made for the transaction's input; witnesses do not enter the challenge -/
def expiringProof : Bytes := (sampleProof (p2cClaimChallenge bareSpend 0) [0x30]).encode

theorem expiringProof_size : ∀ w ∈ [expiringProof], w.length < 2 ^ 64 := by
  intro w hw
  obtain rfl := mem_singleton.1 hw
  exact lt_of_le_of_lt (sampleProof_size _ 0x30) (by decide)

def expiringSpend : CTransaction := spendWith [] [expiringProof] nil_fits (by decide) expiringProof_size

theorem expiringSpend_check {spent : List CTxOut} {time : Int64} (htime : time ≤ 100) :
    scriptCheck expiringEnv sampleP2COutput spent expiringSpend 0 time = none := by
  have hchallenge : p2cClaimChallenge expiringSpend 0 = p2cClaimChallenge bareSpend 0 := by
    rw [p2cClaimChallenge, claimMessage, CTransaction.getHash, CTransaction.serialize_noWitness]
    rw [p2cClaimChallenge, claimMessage, CTransaction.getHash, CTransaction.serialize_noWitness]
    rfl
  apply sampleProof_spends rfl rfl
  · rw [hchallenge]
    rfl
  · intro v
    exact if_pos htime

def expiringEntry : CTxMemPoolEntry where
  tx := expiringSpend
  nFee := 1
  modifiedFee := 1
  nTxWeight := 500
  sigOpCost := 1
  checked := by decide +kernel
  plain := rfl

/-- It passed while the certificates were good. -/
theorem expiringEntry_passed (time : Int64) : PassedOnce (expiringContext time) expiringEntry.tx := by
  intro nIn txin hin
  have hone : nIn.toNat < 1 := (List.getElem?_eq_some_iff.1 hin).1
  obtain rfl : nIn = 0 := UInt32.toNat_inj.1 (Nat.lt_one_iff.1 hone)
  obtain rfl := Option.some_inj.1 hin
  exact ⟨⟨sampleP2COutput, false, 1, Nat.one_lt_two_pow' 30⟩, 50, Finmap.lookup_insert _,
    expiringSpend_check (by decide)⟩

/-- The template takes the transaction while its certificates are good, and not afterwards. -/
theorem expiringEntry_rechecked : testChunkTransactions (expiringContext 60) [expiringEntry] = true ∧
      testChunkTransactions (expiringContext 200) [expiringEntry] = false := by
  have hpassed : ∀ time, ∀ entry ∈ [expiringEntry], PassedOnce (expiringContext time) entry.tx := by
    intro time entry hentry
    obtain rfl := mem_singleton.1 hentry
    exact expiringEntry_passed time
  apply And.intro
  · apply (template_recheck_agrees (expiringContext 60) [expiringEntry] (hpassed 60)).1.2
    intro entry hentry
    obtain rfl := mem_singleton.1 hentry
    refine ⟨rfl, ?_⟩
    intro nIn txin coin hin hcoin
    have hone : nIn.toNat < 1 := (List.getElem?_eq_some_iff.1 hin).1
    obtain rfl : nIn = 0 := UInt32.toNat_inj.1 (Nat.lt_one_iff.1 hone)
    obtain rfl := Option.some_inj.1 hin
    obtain rfl := Option.some_inj.1 ((Finmap.lookup_insert _).symm.trans hcoin)
    exact expiringSpend_check (by decide)
  · rw [Bool.eq_false_iff]
    intro h
    have hscripts := ((template_recheck_agrees (expiringContext 200) [expiringEntry] (hpassed 200)).1.1 h expiringEntry
      (mem_singleton.2 rfl)).2
    have hlate := hscripts 0 _ _ rfl (Finmap.lookup_insert _)
    obtain ⟨proof, -, ⟨p2c, v, -, -, -, -, hverify⟩, -, -⟩ := (scriptCheck_p2c rfl).1 hlate
    cases hverify

end

end ConnectCoin
