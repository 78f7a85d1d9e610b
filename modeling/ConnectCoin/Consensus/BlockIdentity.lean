/-
A block hash identifies one acceptable block.

Two blocks with one header that both pass `CheckBlock` (with the Merkle root) and `CheckWitnessMalleation` (with a
commitment expected) hold the same transactions, witnesses included. Premise: double SHA-256 does not collide on what is
hashed for these two blocks (`hashedBy`): transactions, inner nodes of both trees, and the witness commitment.

- Transaction tree: `Climb.unique`. A passing transaction is longer than 64 bytes, so no transaction is an inner node,
  and the mutation flag excludes a repeated tail.
- Witness tree: it has as many leaves, so the flag is not needed (`Climb.leaves_eq`).
Result: `block_hash_identifies_block`.
-/
import ConnectCoin.Consensus.BlockCheck
import ConnectCoin.Consensus.TxIdentity

namespace ConnectCoin

open Lib List Option

section
variable [Crypto]

/-! ## What is hashed -/

/-- the messages of the inner nodes over some leaves -/
def nodeMessages (leaves : List Uint256) : Set Bytes :=
  { m | ∃ p ∈ climbPairs merkleCombine leaves.length leaves, m = p.1.bytes ++ p.2.bytes }

/-- everything that checking a block hashes -/
def hashedBy (block : CBlock) : Set Bytes :=
  { m | ∃ tx ∈ block.vtx, m = tx.serialize false ∨ m = tx.serialize true } ∪ nodeMessages (merkleLeaves block.vtx) ∪
    nodeMessages (witnessLeaves block.vtx) ∪
    { m | ∃ txin nonce, coinbaseInput block = some txin ∧ txin.scriptWitness = [nonce] ∧
      m = (blockWitnessMerkleRoot block).bytes ++ nonce }

/-- the pairs of nodes whose message is in M -/
def pairsIn (M : Set Bytes) : Set (Uint256 × Uint256) := { p | p.1.bytes ++ p.2.bytes ∈ M }

variable {M : Set Bytes}

/-- The Merkle loop over leaves whose nodes are in M, as a climb. -/
theorem computeMerkleRoot_climb {leaves : List Uint256} (hne : leaves ≠ []) (hM : nodeMessages leaves ⊆ M)
    {clean : Bool} (hclean : clean = true → (computeMerkleRoot leaves).2 = false) :
    ∃ d, Climb merkleCombine (pairsIn M) clean leaves d (computeMerkleRoot leaves).1 :=
  climb_spec hne (le_refl _) (fun p hp => hM ⟨p, hp, rfl⟩) hclean

variable {block : CBlock} {tx : CTransaction}

theorem BodyOk.leaves_ne (h : BodyOk block) : merkleLeaves block.vtx ≠ [] := by
  obtain ⟨cb, rest, hvtx, -⟩ := h.coinbase
  simp [merkleLeaves, hvtx]

theorem serialize_mem_hashedBy (h : tx ∈ block.vtx) :
    tx.serialize false ∈ hashedBy block ∧ tx.serialize true ∈ hashedBy block :=
  ⟨Or.inl (Or.inl (Or.inl ⟨tx, h, Or.inl rfl⟩)), Or.inl (Or.inl (Or.inl ⟨tx, h, Or.inr rfl⟩))⟩

variable (hinj : Set.InjOn hash256 M)
include hinj

theorem merkleCombine_injOn : Set.InjOn (fun p : Uint256 × Uint256 => merkleCombine p.1 p.2) (pairsIn M) := by
  intro p hp q hq h
  obtain ⟨h₁, h₂⟩ := append_inj (hinj hp hq h) (by simp)
  exact Prod.ext (Uint256.ext h₁) (Uint256.ext h₂)

/-! ## Transactions -/

/-- Equal txids of hashed transactions that pass: the bytes agree. -/
theorem serialize_eq_of_txids {vtx vtx' : List CTransaction} (hM : ∀ tx ∈ vtx, tx.serialize false ∈ M)
    (hM' : ∀ tx ∈ vtx', tx.serialize false ∈ M) (h : merkleLeaves vtx = merkleLeaves vtx') :
    List.Forall₂ (fun a b => a.serialize false = b.serialize false) vtx vtx' := by
  induction vtx generalizing vtx' with
  | nil =>
    rw [map_eq_nil_iff.1 h.symm]
    exact .nil
  | cons tx vtx ih =>
    cases vtx' with
    | nil => simp [merkleLeaves] at h
    | cons tx' vtx' =>
      rw [forall_mem_cons] at hM hM'
      obtain ⟨hhead, htail⟩ := List.cons.inj h
      exact .cons (hinj hM.1 hM'.1 hhead) (ih hM.2 hM'.2 htail)

/-- Transactions with equal bytes but for the witnesses, and equal wtxids, are equal. -/
theorem eq_of_wtxids {a b : CTransaction} (ha : TxOk a) (hb : TxOk b)
    (hMa : a.serialize false ∈ M ∧ a.serialize true ∈ M) (hMb : b.serialize false ∈ M ∧ b.serialize true ∈ M)
    (hser : a.serialize false = b.serialize false) (h : a.getWitnessHash = b.getWitnessHash) : a = b := by
  unfold CTransaction.getWitnessHash at h
  cases hwa : a.hasWitness <;> cases hwb : b.hasWitness
    <;> simp only [hwa, hwb, if_true, Bool.false_eq_true, if_false] at h
  · exact eq_of_no_witness (stripped_inj ha.validOutputs hb.validOutputs hser) hwa hwb
  · have heq := hinj hMa.1 hMb.2 h
    have hlt := serialize_lengths_differ hwb
    rw [← hser, heq] at hlt
    omega
  · have heq := hinj hMa.2 hMb.1 h
    have hlt := serialize_lengths_differ hwa
    rw [hser, heq] at hlt
    omega
  · exact serialize_inj_of_witness ha.validOutputs hb.validOutputs hwa hwb (hinj hMa.2 hMb.2 h)

/-! ## The transaction tree -/

/-- No transaction that passes is an inner node: it is longer than two hashes. -/
theorem txid_ne_node (hok : BodyOk block) (hM : hashedBy block ⊆ M) :
    ∀ x ∈ merkleLeaves block.vtx, ∀ p ∈ pairsIn M, x ≠ merkleCombine p.1 p.2 := by
  intro x hx p hp heq
  obtain ⟨tx, htx, rfl⟩ := mem_map.1 hx
  have hbytes := congrArg List.length (hinj (hM (serialize_mem_hashedBy htx).1) hp heq)
  have hlong := (hok.txs tx htx).serialize_length
  simp only [length_append, Uint256.bytes_length] at hbytes
  omega

/-- One Merkle root, no mutation: the blocks agree but for the witnesses. -/
theorem txBytes_eq {A B : CBlock} (hA : BodyOk A) (hB : BodyOk B) (hMA : hashedBy A ⊆ M) (hMB : hashedBy B ⊆ M)
    (hcleanA : (blockMerkleRoot A).2 = false) (hcleanB : (blockMerkleRoot B).2 = false)
    (hroot : (blockMerkleRoot A).1 = (blockMerkleRoot B).1) :
    List.Forall₂ (fun a b => a.serialize false = b.serialize false) A.vtx B.vtx := by
  obtain ⟨d, hd⟩ := computeMerkleRoot_climb hA.leaves_ne (fun m hm => hMA (Or.inl (Or.inl (Or.inr hm))))
    (fun _ => hcleanA)
  obtain ⟨e, he⟩ := computeMerkleRoot_climb hB.leaves_ne (fun m hm => hMB (Or.inl (Or.inl (Or.inr hm))))
    (fun _ => hcleanB)
  have hd' : Climb merkleCombine (pairsIn M) true (merkleLeaves A.vtx) d (blockMerkleRoot A).1 := hd
  have he' : Climb merkleCombine (pairsIn M) true (merkleLeaves B.vtx) e (blockMerkleRoot A).1 := by
    rw [hroot]
    exact he
  have hleaves := hd'.unique (merkleCombine_injOn hinj) he' (txid_ne_node hinj hA hMA) (txid_ne_node hinj hB hMB)
  exact serialize_eq_of_txids hinj (fun tx h => hMA (serialize_mem_hashedBy h).1)
    (fun tx h => hMB (serialize_mem_hashedBy h).1) hleaves

/-! ## The witness tree -/

/-- One witness root over equally many leaves: equal wtxids. -/
theorem witnessLeaves_eq {A B : CBlock} (hMA : hashedBy A ⊆ M) (hMB : hashedBy B ⊆ M)
    (hlen : A.vtx.length = B.vtx.length) (hroot : blockWitnessMerkleRoot A = blockWitnessMerkleRoot B) :
    witnessLeaves A.vtx = witnessLeaves B.vtx := by
  have hleaves : (witnessLeaves A.vtx).length = (witnessLeaves B.vtx).length := by simp [witnessLeaves, hlen]
  have hclimb : ∀ block : CBlock, hashedBy block ⊆ M →
    ∃ d, Climb merkleCombine (pairsIn M) false (witnessLeaves block.vtx) d (blockWitnessMerkleRoot block) := by
    intro block hM
    exact computeMerkleRoot_climb (by simp [witnessLeaves]) (fun m hm => hM (Or.inl (Or.inr hm))) (fun h => by cases h)
  obtain ⟨d, hd⟩ := hclimb A hMA
  obtain ⟨e, he⟩ := hclimb B hMB
  obtain rfl := hd.depth_eq he hleaves
  rw [hroot] at hd
  exact hd.leaves_eq (merkleCombine_injOn hinj) he (Or.inr hleaves)

/-- Transactions pairwise equal in their bytes and their wtxids. -/
theorem vtx_eq_of_wtxids {xs ys : List CTransaction}
    (hxs : ∀ tx ∈ xs, TxOk tx ∧ tx.serialize false ∈ M ∧ tx.serialize true ∈ M)
    (hys : ∀ tx ∈ ys, TxOk tx ∧ tx.serialize false ∈ M ∧ tx.serialize true ∈ M)
    (hser : List.Forall₂ (fun a b => a.serialize false = b.serialize false) xs ys)
    (hwit : xs.map CTransaction.getWitnessHash = ys.map CTransaction.getWitnessHash) : xs = ys := by
  induction hser with
  | nil => rfl
  | cons hhead htail ih =>
    rw [forall_mem_cons] at hxs hys
    obtain ⟨hw, hws⟩ := List.cons.inj hwit
    rw [eq_of_wtxids hinj hxs.1.1 hys.1.1 hxs.1.2 hys.1.2 hhead hw, ih hxs.2 hys.2 hws]

omit hinj

theorem vtx_eq_of_no_witness {xs ys : List CTransaction} (hxs : ∀ tx ∈ xs, TxOk tx ∧ tx.hasWitness = false)
    (hys : ∀ tx ∈ ys, TxOk tx ∧ tx.hasWitness = false)
    (hser : List.Forall₂ (fun a b => a.serialize false = b.serialize false) xs ys) : xs = ys := by
  induction hser with
  | nil => rfl
  | cons hhead htail ih =>
    rw [forall_mem_cons] at hxs hys
    rw [eq_of_no_witness (stripped_inj hxs.1.1.validOutputs hys.1.1.validOutputs hhead) hxs.1.2 hys.1.2, ih hxs.2 hys.2]

/-! ## Identity -/

/-- a block object on which no check is remembered -/
def CBlock.Fresh (block : CBlock) : Prop :=
  block.fChecked = false ∧ block.checkedMerkleRoot = false ∧ block.checkedWitnessCommitment = false

theorem isCoinBase_vin (h : tx.isCoinBase = true) : ∃ i, tx.vin = [i] := by
  unfold CTransaction.isCoinBase at h
  split at h
  · next i hi => exact ⟨i, hi⟩
  · cases h

/-- The coinbases of blocks that agree but for the witnesses: one input each, with one scriptSig. -/
theorem coinbase_inputs {A B : CBlock} {ca cb : CTransaction} {ra rb : List CTransaction} (hA : A.vtx = ca :: ra)
    (hB : B.vtx = cb :: rb) (hca : ca.isCoinBase = true) (hcb : cb.isCoinBase = true) (hsame : SameStripped ca cb) :
    ∃ ia ib, ca.vin = [ia] ∧ cb.vin = [ib] ∧ coinbaseInput A = some ia ∧ coinbaseInput B = some ib ∧
      ia.scriptSig = ib.scriptSig := by
  obtain ⟨ia, hia⟩ := isCoinBase_vin hca
  obtain ⟨ib, hib⟩ := isCoinBase_vin hcb
  have hstripped := hsame.1
  rw [hia, hib, map_singleton, map_singleton, singleton_inj] at hstripped
  have hsig : ia.stripped.scriptSig = ib.stripped.scriptSig := by rw [hstripped]
  exact ⟨ia, ib, hia, hib, by simp [coinbaseInput, hA, hia], by simp [coinbaseInput, hB, hib], hsig⟩

/-- One header, both blocks pass: the same transactions, with all witnesses and the coinbase's nonce. -/
theorem block_hash_identifies_block (P : Params) (signet : CBlock → Bool) (A B : CBlock) (hfreshA : A.Fresh)
    (hfreshB : B.Fresh) (hinj : Set.InjOn hash256 (hashedBy A ∪ hashedBy B))
    (hheader : A.header.serialize = B.header.serialize) (powA powB : Bool) (keyA keyB : Option Uint256)
    (heightA heightB : ℕ) (hA : (checkBlock P signet A powA true keyA heightA).isOk = true)
    (hB : (checkBlock P signet B powB true keyB heightB).isOk = true)
    (hwA : (checkWitnessMalleation A true).isOk = true) (hwB : (checkWitnessMalleation B true).isOk = true) :
    A.vtx = B.vtx := by
  obtain ⟨-, hrootA, hcleanA, hokA⟩ := checkBlock_ok hfreshA.1 hfreshA.2.1 (isOk_iff.1 hA).choose_spec
  obtain ⟨-, hrootB, hcleanB, hokB⟩ := checkBlock_ok hfreshB.1 hfreshB.2.1 (isOk_iff.1 hB).choose_spec
  have hMA : hashedBy A ⊆ hashedBy A ∪ hashedBy B := Set.subset_union_left
  have hMB : hashedBy B ⊆ hashedBy A ∪ hashedBy B := Set.subset_union_right
  have hser := txBytes_eq hinj hokA hokB hMA hMB hcleanA hcleanB
    (by rw [← hrootA, ← hrootB, CBlockHeader.serialize_inj hheader])
  obtain ⟨ca, ra, hvA, hca, -⟩ := hokA.coinbase
  obtain ⟨cb, rb, hvB, hcb, -⟩ := hokB.coinbase
  have hser' := hser
  rw [hvA, hvB, List.forall₂_cons] at hser'
  have hsame : SameStripped ca cb := stripped_inj (hokA.txs ca (by simp [hvA])).validOutputs
    (hokB.txs cb (by simp [hvB])).validOutputs hser'.1
  obtain ⟨ia, ib, hia, hib, hinA, hinB, hsig⟩ := coinbase_inputs hvA hvB hca hcb hsame
  have hoffset : getWitnessCommitmentOffset A = getWitnessCommitmentOffset B := by
    simp only [getWitnessCommitmentOffset, hinA, hinB, hsig]
  rcases checkWitnessMalleation_ok hfreshA.2.2 (isOk_iff.1 hwA).choose_spec with
    ⟨pos, txin, nonce, hpos, hin, hstack, -, hcommit⟩ | ⟨hpos, hnone⟩ <;>
  rcases checkWitnessMalleation_ok hfreshB.2.2 (isOk_iff.1 hwB).choose_spec with
    ⟨pos', txin', nonce', hpos', hin', hstack', -, hcommit'⟩ | ⟨hpos', hnone'⟩
  · -- both commit, at the same place of the same scriptSig
    obtain rfl : ia = txin := some_inj.1 (hinA.symm.trans hin)
    obtain rfl : ib = txin' := some_inj.1 (hinB.symm.trans hin')
    obtain rfl : pos = pos' := some_inj.1 (hpos.symm.trans (hoffset.trans hpos'))
    rw [hsig, ← hcommit'] at hcommit
    -- equal commitments: equal witness roots and nonces
    have hbytes := hinj (hMA (Or.inr ⟨ia, nonce, hinA, hstack, rfl⟩)) (hMB (Or.inr ⟨ib, nonce', hinB, hstack', rfl⟩))
      (Uint256.ext hcommit)
    obtain ⟨hroot, rfl⟩ := append_inj hbytes (by simp)
    have hleaves := witnessLeaves_eq hinj hMA hMB hser.length_eq (Uint256.ext hroot)
    have hcoinbase : ca = cb := hsame.eq (by simp [witnesses, hia, hib, hstack, hstack'])
    have hrest : ra = rb := by
      refine vtx_eq_of_wtxids hinj (fun tx h => ?_) (fun tx h => ?_) hser'.2 ?_
      · have htx : tx ∈ A.vtx := by simp [hvA, h]
        exact ⟨hokA.txs tx htx, hMA (serialize_mem_hashedBy htx).1, hMA (serialize_mem_hashedBy htx).2⟩
      · have htx : tx ∈ B.vtx := by simp [hvB, h]
        exact ⟨hokB.txs tx htx, hMB (serialize_mem_hashedBy htx).1, hMB (serialize_mem_hashedBy htx).2⟩
      · simpa [witnessLeaves, hvA, hvB] using hleaves
    rw [hvA, hvB, hcoinbase, hrest]
  · rw [hoffset, hpos'] at hpos
    cases hpos
  · rw [hoffset, hpos'] at hpos
    cases hpos
  · exact vtx_eq_of_no_witness (fun tx h => ⟨hokA.txs tx h, hnone tx h⟩) (fun tx h => ⟨hokB.txs tx h, hnone' tx h⟩) hser

end

/-! ## A block with a witness commitment -/

/-- a stand-in for SHA-256 that tells the few messages of a block apart: a polynomial in the bytes -/
@[reducible] def polynomialCrypto : Crypto where
  sha256 b := Uint256.ofNat (b.foldl (fun h x => 263 * h + x.toNat + 1) 0)
  isFullyValid k := !k.isNull
  randomX _ _ := Uint256.null

section
attribute [local instance] polynomialCrypto

def sampleKey : Uint256 := Uint256.ofNat 1

def sampleOutput : CTxOut where
  type := .P2PK
  p2pkPubkey := sampleKey
  nValue := 0
  scriptPubKey := OP_1 :: 32 :: sampleKey.bytes
  key_valid := by decide
  key_null := by simp

/-- one input, one output -/
def sampleTransaction (txin : CTxIn) (hscript : txin.scriptSig.length < 2 ^ 64)
    (hstack : txin.scriptWitness.length < 2 ^ 64 ∧ ∀ w ∈ txin.scriptWitness, w.length < 2 ^ 64) : CTransaction where
  vin := [txin]
  vout := [sampleOutput]
  version := 2
  nLockTime := 0
  payloads := by decide
  vin_size := by simp
  vout_size := by simp
  scriptSig_size := forall_mem_singleton.2 hscript
  stack_size := forall_mem_singleton.2 hstack

/-- a spend with one witness item -/
def sampleSpend : CTransaction := sampleTransaction ⟨⟨Uint256.ofNat 7, 0⟩, [], 0, [[3]]⟩ (by decide) (by decide)

def sampleNonce : Bytes := replicate 32 0

/-- the commitment to a block with this spend, under the nonce -/
def sampleCommitment : Uint256 :=
  hash256 ((computeMerkleRoot [Uint256.null, sampleSpend.getWitnessHash]).1.bytes ++ sampleNonce)

def sampleCoinbase : CTransaction :=
  sampleTransaction ⟨⟨Uint256.null, NULL_INDEX⟩, 36 :: (WITNESS_COMMITMENT_HEADER ++ sampleCommitment.bytes), 0,
    [sampleNonce]⟩ (by simp [WITNESS_COMMITMENT_HEADER]) (by decide)

def sampleBlock : CBlock :=
  ⟨⟨4, Uint256.null, (computeMerkleRoot [sampleCoinbase.getHash, sampleSpend.getHash]).1, 0, 0, 0⟩,
    [sampleCoinbase, sampleSpend], false, false, false⟩

theorem sampleBlock_passes : (checkBlock mainParams (fun _ => true) sampleBlock false true none 1).isOk = true ∧
    (checkWitnessMalleation sampleBlock true).isOk = true := by
  decide +kernel

/-- both transactions without and with their witnesses, the nodes of the two trees, and the commitment -/
def sampleMessages : List Bytes :=
  (sampleBlock.vtx.flatMap fun tx => [tx.serialize false, tx.serialize true]) ++
    ((climbPairs merkleCombine 2 (merkleLeaves sampleBlock.vtx) ++
      climbPairs merkleCombine 2 (witnessLeaves sampleBlock.vtx)).map fun p => p.1.bytes ++ p.2.bytes) ++
    [(blockWitnessMerkleRoot sampleBlock).bytes ++ sampleNonce]

theorem sampleBlock_hashed : hashedBy sampleBlock ⊆ { m | m ∈ sampleMessages } := by
  intro m hm
  change m ∈ sampleMessages
  rw [sampleMessages, mem_append, mem_append]
  rcases hm with ((⟨tx, htx, hm⟩ | ⟨p, hp, rfl⟩) | ⟨p, hp, rfl⟩) | ⟨txin, nonce, hin, hstack, rfl⟩
  · exact Or.inl (Or.inl (mem_flatMap.2 ⟨tx, htx, by simpa using hm⟩))
  · exact Or.inl (Or.inr (mem_map_of_mem (mem_append_left _ hp)))
  · exact Or.inl (Or.inr (mem_map_of_mem (mem_append_right _ hp)))
  · obtain rfl := some_inj.1 hin
    obtain rfl := singleton_inj.1 hstack
    exact Or.inr (mem_singleton_self _)

theorem sampleBlock_injOn : Set.InjOn hash256 (hashedBy sampleBlock ∪ hashedBy sampleBlock) := by
  have hnodup : (sampleMessages.map hash256).Nodup := by decide +kernel
  rw [Set.union_self]
  intro a ha b hb h
  exact inj_on_of_nodup_map hnodup (sampleBlock_hashed ha) (sampleBlock_hashed hb) h

/-- A block of two transactions: its coinbase commits to the witness of the other one. -/
theorem sampleBlock_identified : (checkBlock mainParams (fun _ => true) sampleBlock false true none 1).isOk = true ∧
    (checkWitnessMalleation sampleBlock true).isOk = true ∧ sampleBlock.vtx = sampleBlock.vtx :=
  ⟨sampleBlock_passes.1, sampleBlock_passes.2,
    block_hash_identifies_block mainParams (fun _ => true) sampleBlock sampleBlock
    ⟨rfl, rfl, rfl⟩ ⟨rfl, rfl, rfl⟩ sampleBlock_injOn rfl false false none none 1 1 sampleBlock_passes.1
      sampleBlock_passes.1 sampleBlock_passes.2 sampleBlock_passes.2⟩

end

end ConnectCoin
