/-
A generated witness commitment is valid (`GenerateCoinbaseCommitment` against `CheckWitnessMalleation`, and the extra
nonce of `node/cpu_miner_impl.cpp`).

- `Operations`: the bytes of a script are these operations, to the last byte.
- `IsMarker`: an operation that `GetWitnessCommitmentOffset` takes for the commitment.
- `Committed`: operations, the push of the commitment, and operations none of which is a marker. The loop takes the last
  marker, so what comes before the push is free.
Results: `writeCommitment_committed`: generation leaves such a script, whether it pushes the commitment or writes over
one; `Committed.append`: other operations may follow; `commitments_valid`.
-/
import ConnectCoin.Node.TemplateReward

namespace ConnectCoin

open Lib Option

/-! ## Operations of a script -/

/-- the bytes are these operations, each an opcode with what it pushes -/
inductive Operations : Bytes → List (UInt8 × Bytes) → Prop where
  | nil : Operations [] []
  | cons {pc rest : Bytes} {opcode : UInt8} {pushdata : Bytes} {ops : List (UInt8 × Bytes)}
      (hop : getScriptOp pc = some (opcode, pushdata, rest)) (hrest : Operations rest ops) : Operations pc
        ((opcode, pushdata) :: ops)

/-- the operation counts as a commitment: a direct push of 36 bytes that start with the header -/
def IsMarker (op : UInt8 × Bytes) : Prop :=
  op.1.toNat = MINIMUM_WITNESS_COMMITMENT ∧ op.2.length = MINIMUM_WITNESS_COMMITMENT ∧
    op.2.take 4 = WITNESS_COMMITMENT_HEADER

instance (op : UInt8 × Bytes) : Decidable (IsMarker op) := inferInstanceAs (Decidable (_ ∧ _ ∧ _))

variable {opcode : UInt8} {commitpos : Option ℕ} {ops : List (UInt8 × Bytes)}
  {pc pushdata rest data scriptSig commitment : Bytes} {size fuel : ℕ}

/-- A size is read from bytes of its own. -/
theorem pushSize_reads {n : ℕ} (h : pushSize opcode pc = some (n, rest)) :
    ∃ operand, pc = operand ++ rest ∧ (∀ rest', pushSize opcode (operand ++ rest') = some (n, rest')) ∧
      (opcode < OP_PUSHDATA1 → operand = [] ∧ n = opcode.toNat) := by
  have hwidth : ∀ width, (if pc.length < width then none else some (leNat (pc.take width), pc.drop width)) =
      some (n, rest) → pc = pc.take width ++ rest ∧ ∀ rest', (if (pc.take width ++ rest').length < width then none
        else some (leNat ((pc.take width ++ rest').take width), (pc.take width ++ rest').drop width)) =
          some (n, rest') := by
    intro width hread
    split_ifs at hread with hshort
    cases hread
    have hlen : (pc.take width).length = width := List.length_take_of_le (by omega)
    refine ⟨(List.take_append_drop width pc).symm, fun rest' => ?_⟩
    rw [if_neg (by rw [List.length_append, hlen]; omega), List.take_left' hlen, List.drop_left' hlen]
  unfold pushSize at h ⊢
  dsimp only at h ⊢
  by_cases hdirect : opcode < OP_PUSHDATA1
  · simp only [if_pos hdirect] at h ⊢
    cases h
    exact ⟨[], rfl, fun _ => rfl, fun _ => ⟨rfl, rfl⟩⟩
  · simp only [if_neg hdirect] at h ⊢
    by_cases h1 : opcode = OP_PUSHDATA1
    · simp only [if_pos h1] at h ⊢
      obtain ⟨hpc, hread⟩ := hwidth 1 h
      exact ⟨pc.take 1, hpc, hread, fun hlt => absurd hlt hdirect⟩
    · simp only [if_neg h1] at h ⊢
      by_cases h2 : opcode = OP_PUSHDATA2
      · simp only [if_pos h2] at h ⊢
        obtain ⟨hpc, hread⟩ := hwidth 2 h
        exact ⟨pc.take 2, hpc, hread, fun hlt => absurd hlt hdirect⟩
      · simp only [if_neg h2] at h ⊢
        obtain ⟨hpc, hread⟩ := hwidth 4 h
        exact ⟨pc.take 4, hpc, hread, fun hlt => absurd hlt hdirect⟩

theorem direct_le (h : opcode < OP_PUSHDATA1) : opcode ≤ OP_PUSHDATA4 := UInt8.le_of_lt (UInt8.lt_trans h (by decide))

/-- An operation is read from bytes of its own; a direct push is its size and its data. -/
theorem getScriptOp_reads (h : getScriptOp pc = some (opcode, pushdata, rest)) :
    ∃ taken, taken ≠ [] ∧ pc = taken ++ rest ∧
      (∀ rest', getScriptOp (taken ++ rest') = some (opcode, pushdata, rest')) ∧
      (opcode < OP_PUSHDATA1 → taken = opcode :: pushdata) := by
  rcases pc with _ | ⟨op, pc⟩
  · cases h
  · rw [getScriptOp] at h
    by_cases hpush : op ≤ OP_PUSHDATA4
    · rw [if_pos hpush] at h
      rcases hsize : pushSize op pc with _ | ⟨n, pc'⟩
      · rw [hsize] at h
        cases h
      · rw [hsize] at h
        dsimp only at h
        split_ifs at h with hshort
        cases h
        obtain ⟨operand, rfl, hread, hdirect⟩ := pushSize_reads hsize
        have hlen : (pc'.take n).length = n := List.length_take_of_le (by omega)
        refine ⟨opcode :: (operand ++ pc'.take n),
          by simp, by simp, fun rest' => ?_, fun hlt => by rw [(hdirect hlt).1]; rfl⟩
        rw [List.cons_append, getScriptOp, if_pos hpush, List.append_assoc, hread]
        dsimp only
        rw [if_neg (by rw [List.length_append, hlen]; omega), List.take_left' hlen, List.drop_left' hlen]
    · rw [if_neg hpush] at h
      cases h
      refine ⟨[opcode], by simp, rfl, fun rest' => ?_, fun hlt => absurd (direct_le hlt) hpush⟩
      rw [List.singleton_append, getScriptOp, if_neg hpush]

theorem getScriptOp_direct (hlt : opcode < OP_PUSHDATA1) (hlen : data.length = opcode.toNat) (rest : Bytes) :
    getScriptOp (opcode :: (data ++ rest)) = some (opcode, data, rest) := by
  rw [getScriptOp, if_pos (direct_le hlt), pushSize, if_pos hlt]
  dsimp only
  rw [if_neg (by rw [List.length_append]; omega), List.take_left' hlen, List.drop_left' hlen]

theorem Operations.append {xs ys : Bytes} {as bs : List (UInt8 × Bytes)} (hx : Operations xs as)
    (hy : Operations ys bs) : Operations (xs ++ ys) (as ++ bs) := by
  induction hx with
  | nil => exact hy
  | cons hop _ ih =>
    obtain ⟨taken, -, rfl, hread, -⟩ := getScriptOp_reads hop
    rw [List.append_assoc]
    exact .cons (hread _) ih

theorem Operations.direct (hlt : opcode < OP_PUSHDATA1) (hlen : data.length = opcode.toNat) :
    Operations (opcode :: data) [(opcode, data)] := by
  have hread := getScriptOp_direct hlt hlen []
  rw [List.append_nil] at hread
  exact .cons hread .nil

/-! ## The loop -/

theorem getScriptOp_shorter (h : getScriptOp pc = some (opcode, pushdata, rest)) : rest.length < pc.length := by
  obtain ⟨taken, hne, rfl, -, -⟩ := getScriptOp_reads h
  rw [List.length_append]
  exact Nat.lt_add_of_pos_left (List.length_pos_iff.2 hne)

theorem commitmentLoop_step (hop : getScriptOp pc = some (opcode, pushdata, rest)) (hfuel : pc.length ≤ fuel) :
    ∃ fuel', rest.length ≤ fuel' ∧ commitmentLoop size fuel pc commitpos = commitmentLoop size fuel' rest
        (if IsMarker (opcode, pushdata) then some (size - pc.length + 1) else commitpos) := by
  have hshorter := getScriptOp_shorter hop
  obtain ⟨fuel, rfl⟩ : ∃ n, fuel = n + 1 := ⟨fuel - 1, by omega⟩
  refine ⟨fuel, by omega, ?_⟩
  rw [commitmentLoop, hop]
  rfl

/-- Operations that are no markers leave the position as it is. -/
theorem commitmentLoop_plain (hops : Operations pc ops) (hplain : ∀ op ∈ ops, ¬ IsMarker op)
    (hfuel : pc.length ≤ fuel) : commitmentLoop size fuel pc commitpos = commitpos := by
  induction hops generalizing fuel with
  | nil => cases fuel <;> rfl
  | cons hop _ ih =>
    obtain ⟨fuel', hfuel', hstep⟩ := commitmentLoop_step hop hfuel
    rw [hstep, if_neg (hplain _ List.mem_cons_self)]
    exact ih (fun op hmem => hplain op (List.mem_cons_of_mem _ hmem)) hfuel'

/-- The last marker wins, whatever operations stand before it. -/
theorem commitmentLoop_marker {before after : Bytes} {opsBefore opsAfter : List (UInt8 × Bytes)}
    (hbefore : Operations before opsBefore) (hdata : IsMarker (36, data)) (hafter : Operations after opsAfter)
    (hplain : ∀ op ∈ opsAfter, ¬ IsMarker op) (hfuel : (before ++ 36 :: (data ++ after)).length ≤ fuel) :
    commitmentLoop size fuel (before ++ 36 :: (data ++ after)) commitpos =
      some (size - (36 :: (data ++ after)).length + 1) := by
  induction hbefore generalizing fuel commitpos with
  | nil =>
    obtain ⟨fuel', hfuel', hstep⟩ := commitmentLoop_step (getScriptOp_direct (by decide) hdata.2.1 after) hfuel
    rw [List.nil_append, hstep, if_pos hdata]
    exact commitmentLoop_plain hafter hplain hfuel'
  | cons hop _ ih =>
    obtain ⟨taken, -, rfl, hread, -⟩ := getScriptOp_reads hop
    rw [List.append_assoc] at hfuel ⊢
    obtain ⟨fuel', hfuel', hstep⟩ := commitmentLoop_step (hread _) hfuel
    rw [hstep]
    exact ih hfuel'

/-- A script has no marker, or a last one. -/
theorem Operations.lastMarker (hops : Operations pc ops) :
    (∀ op ∈ ops, ¬ IsMarker op) ∨ ∃ before data after opsBefore opsAfter, pc = before ++ 36 :: (data ++ after) ∧
      Operations before opsBefore ∧ IsMarker (36, data) ∧ Operations after opsAfter ∧
      ∀ op ∈ opsAfter, ¬ IsMarker op := by
  induction hops with
  | nil => exact Or.inl (by simp)
  | @cons pc rest opcode pushdata ops hop hrest ih =>
    obtain ⟨taken, -, rfl, hread, hdirect⟩ := getScriptOp_reads hop
    rcases ih with hplain | ⟨before, data, after, opsBefore, opsAfter, rfl, hbefore, hdata, hafter, hplain⟩
    · by_cases hmarker : IsMarker (opcode, pushdata)
      · have hcode : opcode = 36 := UInt8.toNat_inj.1 hmarker.1
        subst hcode
        refine Or.inr ⟨[], pushdata, rest, [], ops, ?_, .nil, hmarker, hrest, hplain⟩
        rw [hdirect (by decide)]
        rfl
      · refine Or.inl fun op hmem => ?_
        rcases List.mem_cons.1 hmem with rfl | hmem
        · exact hmarker
        · exact hplain op hmem
    · refine Or.inr ⟨taken ++ before, data, after, (opcode, pushdata) :: opsBefore, opsAfter,
        (List.append_assoc _ _ _).symm, ?_, hdata, hafter, hplain⟩
      exact .cons (hread before) hbefore

/-- A position that the loop returns has a whole push behind it. -/
theorem commitmentLoop_bound {pos : ℕ} (hsize : pc.length ≤ size)
    (hpos : ∀ p, commitpos = some p → p + MINIMUM_WITNESS_COMMITMENT ≤ size)
    (h : commitmentLoop size fuel pc commitpos = some pos) : pos + MINIMUM_WITNESS_COMMITMENT ≤ size := by
  induction fuel generalizing pc commitpos with
  | zero => exact hpos pos h
  | succ fuel ih =>
    rw [commitmentLoop] at h
    rcases hop : getScriptOp pc with _ | ⟨opcode, pushdata, rest⟩
    · rw [hop] at h
      exact hpos pos h
    · rw [hop] at h
      obtain ⟨taken, -, rfl, -, hdirect⟩ := getScriptOp_reads hop
      rw [List.length_append] at hsize
      refine ih (by omega) (fun p hp => ?_) h
      split_ifs at hp with hmarker
      · -- the marker is its opcode and 36 bytes of data
        obtain ⟨hcode, hlen, -⟩ := hmarker
        have htaken := congrArg List.length (hdirect (UInt8.lt_iff_toNat_lt.2 (by rw [hcode]; decide)))
        rw [List.length_cons, hlen] at htaken
        cases hp
        rw [List.length_append]
        omega
      · exact hpos p hp

/-! ## Scripts with a commitment -/

/-- operations, the push of the commitment, and operations that are no markers -/
def Committed (scriptSig commitment : Bytes) : Prop :=
  ∃ before after opsBefore opsAfter, scriptSig = before ++ 36 :: (WITNESS_COMMITMENT_HEADER ++ commitment ++ after) ∧
    Operations before opsBefore ∧ Operations after opsAfter ∧ ∀ op ∈ opsAfter, ¬ IsMarker op

theorem isMarker_header (h : commitment.length = 32) : IsMarker (36, WITNESS_COMMITMENT_HEADER ++ commitment) := by
  refine ⟨rfl, ?_, rfl⟩
  rw [List.length_append, h]
  rfl

/-- The commitment is what stands at the position that the loop returns. -/
theorem Committed.read (h : Committed scriptSig commitment) (hlen : commitment.length = 32) :
    ∃ pos, commitmentLoop scriptSig.length scriptSig.length scriptSig none = some pos ∧
      (scriptSig.drop (pos + WITNESS_COMMITMENT_HEADER.length)).take 32 = commitment := by
  obtain ⟨before, after, opsBefore, opsAfter, rfl, hbefore, hafter, hplain⟩ := h
  refine ⟨before.length + 1, ?_, ?_⟩
  · rw [commitmentLoop_marker hbefore (isMarker_header hlen) hafter hplain le_rfl, List.length_append,
      Nat.add_sub_cancel]
  · have hsplit : before ++ 36 :: (WITNESS_COMMITMENT_HEADER ++ commitment ++ after) =
        (before ++ 36 :: WITNESS_COMMITMENT_HEADER) ++ (commitment ++ after) := by simp
    rw [hsplit, List.drop_left' (by rw [List.length_append, List.length_cons]; omega), List.take_left' hlen]

/-- Other operations may follow. -/
theorem Committed.append {extra : Bytes} (h : Committed scriptSig commitment) (hextra : Operations extra ops)
    (hplain : ∀ op ∈ ops, ¬ IsMarker op) : Committed (scriptSig ++ extra) commitment := by
  obtain ⟨before, after, opsBefore, opsAfter, rfl, hbefore, hafter, hplainAfter⟩ := h
  refine ⟨before, after ++ extra, opsBefore, opsAfter ++ ops, by simp, hbefore, hafter.append hextra, fun op hmem => ?_⟩
  rcases List.mem_append.1 hmem with hmem | hmem
  · exact hplainAfter op hmem
  · exact hplain op hmem

/-- The commitment is written behind the script, or over the last one. -/
theorem writeCommitment_committed (hops : Operations scriptSig ops) (witnessroot : Uint256) :
    Committed (writeCommitment (commitmentLoop scriptSig.length scriptSig.length scriptSig none) witnessroot scriptSig)
      witnessroot.bytes ∧
    (writeCommitment (commitmentLoop scriptSig.length scriptSig.length scriptSig none) witnessroot scriptSig).length ≤
      scriptSig.length + 37 := by
  have hpushed : (WITNESS_COMMITMENT_HEADER ++ witnessroot.bytes).length = 36 :=
    (isMarker_header witnessroot.bytes_length).2.1
  rcases hops.lastMarker with hplain | ⟨before, data, after, opsBefore, opsAfter, rfl, hbefore, hdata, hafter, hplain⟩
  · rw [commitmentLoop_plain hops hplain le_rfl]
    have hpush : pushData (WITNESS_COMMITMENT_HEADER ++ witnessroot.bytes) =
        36 :: (WITNESS_COMMITMENT_HEADER ++ witnessroot.bytes) := by
      rw [pushData, hpushed, if_pos (by decide)]
      rfl
    rw [writeCommitment, hpush]
    refine ⟨⟨scriptSig, [], ops, [], by rw [List.append_nil], hops, .nil, by simp⟩, ?_⟩
    rw [List.length_append, List.length_cons, hpushed]
  · rw [commitmentLoop_marker hbefore hdata hafter hplain le_rfl, List.length_append, Nat.add_sub_cancel,
      writeCommitment]
    obtain ⟨-, hlen, hheader⟩ := hdata
    -- the old commitment is what the marker holds behind the header
    have hold : data = WITNESS_COMMITMENT_HEADER ++ data.drop 4 := by rw [← hheader, List.take_append_drop]
    have hleft : before ++ 36 :: (data ++ after) = (before ++ 36 :: WITNESS_COMMITMENT_HEADER) ++
        (data.drop 4 ++ after) := by
      nth_rewrite 1 [hold]
      simp
    have hright : before ++ 36 :: (data ++ after) = (before ++ 36 :: data) ++ after := by simp
    have htake : (before ++ 36 :: (data ++ after)).take (before.length + 1 + WITNESS_COMMITMENT_HEADER.length) =
        before ++ 36 :: WITNESS_COMMITMENT_HEADER := by
      rw [hleft, List.take_left' (by rw [List.length_append, List.length_cons]; omega)]
    have hdrop : (before ++ 36 :: (data ++ after)).drop (before.length + 1 + WITNESS_COMMITMENT_HEADER.length + 32) =
        after := by
      have hcount : (before ++ 36 :: data).length = before.length + 1 + WITNESS_COMMITMENT_HEADER.length + 32 := by
        rw [List.length_append, List.length_cons, hlen]
        rfl
      rw [hright, List.drop_left' hcount]
    rw [htake, hdrop]
    refine ⟨⟨before, after, opsBefore, opsAfter, by simp, hbefore, hafter, hplain⟩, ?_⟩
    simp only [List.length_append, List.length_cons, hlen, witnessroot.bytes_length, WITNESS_COMMITMENT_HEADER,
      List.length_nil]
    omega

section
variable [Crypto]

/-! ## Blocks -/

/-- the extra nonce that the miner appends to the coinbase of a template -/
def addExtraNonce (block : CBlock) (extraNonce : Vector UInt8 16) : Except String CBlock :=
  if (coinbaseInput block).any fun txin => 100 < (txin.scriptSig ++ pushData extraNonce.toList).length then
    .error "Coinbase extraNonce exceeds consensus limit"
  else do
    let mined ← changeCoinbase block fun txin => { txin with scriptSig := txin.scriptSig ++ pushData extraNonce.toList }
    return { mined with header := { mined.header with hashMerkleRoot := (blockMerkleRoot mined).1 } }

/-- `CheckWitnessMalleation` looks at the block and accepts it -/
def CommitmentAccepted (block : CBlock) : Prop :=
  checkWitnessMalleation { block with checkedWitnessCommitment := false } true =
    .ok { block with checkedWitnessCommitment := true }

/-- the coinbase's only input has the nonce and commits to the other transactions -/
structure CommittedBlock (block : CBlock) (coinbase : CTransaction) (rest : List CTransaction) (txin : CTxIn) :
    Prop where
  vtx : block.vtx = coinbase :: rest
  vin : coinbase.vin = [txin]
  nonce : txin.scriptWitness = [List.replicate 32 0]
  commitment : Committed txin.scriptSig (hash256 ((blockWitnessMerkleRoot block).bytes ++ List.replicate 32 0)).bytes

variable {rest : List CTransaction} {coinbase : CTransaction} {block : CBlock} {txin : CTxIn}

theorem coinbaseInput_of (hvtx : block.vtx = coinbase :: rest) (hvin : coinbase.vin = [txin]) :
    coinbaseInput block = some txin := by
  rw [coinbaseInput, hvtx, List.head?_cons, bind_some, hvin, List.head?_cons]

theorem CommittedBlock.accepted (h : CommittedBlock block coinbase rest txin) : CommitmentAccepted block := by
  have hin : coinbaseInput { block with checkedWitnessCommitment := false } = some txin := coinbaseInput_of h.vtx h.vin
  obtain ⟨pos, hpos, hread⟩ := h.commitment.read (Uint256.bytes_length _)
  have hoffset : getWitnessCommitmentOffset { block with checkedWitnessCommitment := false } = some pos := by
    rw [getWitnessCommitmentOffset, hin]
    exact hpos
  rw [CommitmentAccepted, checkWitnessMalleation, if_neg (by simp), if_neg (by simp), hoffset, hin]
  dsimp only
  rw [h.nonce]
  dsimp only
  rw [if_neg (by simp)]
  exact if_neg (not_not.2 hread.symm)

/-- A change of the coinbase's only input. -/
theorem changeCoinbase_input (change : CTxIn → CTxIn) (hvtx : block.vtx = coinbase :: rest)
    (hvin : coinbase.vin = [txin]) (hscript : (change txin).scriptSig.length < 2 ^ 64)
    (hstack : (change txin).scriptWitness.length < 2 ^ 64 ∧ ∀ w ∈ (change txin).scriptWitness, w.length < 2 ^ 64) :
    ∃ coinbase' : CTransaction, changeCoinbase block change = .ok { block with vtx := coinbase' :: rest } ∧
      coinbase'.vin = [change txin] := by
  have honly : ∀ i ∈ coinbase.vin, i = txin := by
    rw [hvin]
    exact fun i hi => List.mem_singleton.1 hi
  obtain ⟨coinbase', hchanged⟩ :=
    exists_changeCoinbase change hvtx (fun i hi => honly i hi ▸ hscript) (fun i hi => honly i hi ▸ hstack)
  refine ⟨coinbase', hchanged, ?_⟩
  simp only [changeCoinbase, hvtx, bind_ok, pure, Except.pure, Except.ok.injEq] at hchanged
  obtain ⟨ref, href, heq⟩ := hchanged
  have hsame : ref = coinbase' := (List.cons.inj (congrArg CBlock.vtx heq)).1
  rw [← hsame, (makeTransactionRef_ok href).1, hvin]
  rfl

theorem witnessRoot_rest {block block' : CBlock} {coinbase coinbase' : CTransaction}
    (hvtx : block.vtx = coinbase :: rest) (hvtx' : block'.vtx = coinbase' :: rest) :
    blockWitnessMerkleRoot block' = blockWitnessMerkleRoot block := by
  rw [blockWitnessMerkleRoot, blockWitnessMerkleRoot, witnessLeaves, witnessLeaves, hvtx, hvtx',
    List.tail_cons, List.tail_cons]

theorem exists_committed (hvtx : block.vtx = coinbase :: rest) (hvin : coinbase.vin = [txin])
    (hwitness : txin.scriptWitness = []) (hops : Operations txin.scriptSig ops)
    (hfit : txin.scriptSig.length + 37 < 2 ^ 64) :
    ∃ block' coinbase' txin', generateCoinbaseCommitment true block = .ok block' ∧
      CommittedBlock block' coinbase' rest txin' ∧ txin'.scriptSig.length ≤ txin.scriptSig.length + 37 := by
  have hoffset : getWitnessCommitmentOffset block =
      commitmentLoop txin.scriptSig.length txin.scriptSig.length txin.scriptSig none := by
    rw [getWitnessCommitmentOffset, coinbaseInput_of hvtx hvin]
  obtain ⟨hcommitted, hlength⟩ :=
    writeCommitment_committed hops (hash256 ((blockWitnessMerkleRoot block).bytes ++ List.replicate 32 0))
  rw [← hoffset] at hcommitted hlength
  -- the commitment is written
  obtain ⟨written, hwritten, hinput⟩ := changeCoinbase_input (commitInput block) hvtx hvin (lt_of_le_of_lt hlength hfit)
    (by rw [commitInput, hwitness]; simp)
  have hvtx' : CBlock.vtx { block with vtx := written :: rest } = written :: rest := rfl
  -- it is found again, and the nonce is set
  obtain ⟨pos, hpos, -⟩ := hcommitted.read (Uint256.bytes_length _)
  have hupdate : updateUncommittedBlockStructures true { block with vtx := written :: rest } =
      changeCoinbase { block with vtx := written :: rest } fun i =>
      { i with scriptWitness := [List.replicate 32 0] } := by
    rw [updateUncommittedBlockStructures, if_pos]
    refine ⟨?_, rfl, ?_⟩
    · rw [getWitnessCommitmentOffset, coinbaseInput_of hvtx' hinput]
      exact isSome_iff_exists.2 ⟨pos, hpos⟩
    · simp [CTransaction.hasWitness, hinput, commitInput, hwitness]
  obtain ⟨final, hfinal, hfinalInput⟩ :=
    changeCoinbase_input (fun i => { i with scriptWitness := [List.replicate 32 0] }) hvtx' hinput
    (lt_of_le_of_lt hlength hfit) (by simp)
  refine ⟨{ block with vtx := final :: rest }, final, _, ?_, ⟨rfl, hfinalInput, rfl, ?_⟩, hlength⟩
  · rw [generateCoinbaseCommitment, hwritten]
    exact hupdate.trans hfinal
  · rw [witnessRoot_rest hvtx rfl]
    exact hcommitted

/-- Operations that are appended to the coinbase's input leave the commitment as it is. -/
theorem CommittedBlock.append (h : CommittedBlock block coinbase rest txin) {extra : Bytes}
    (hextra : Operations extra ops) (hplain : ∀ op ∈ ops, ¬ IsMarker op)
    (hfit : (txin.scriptSig ++ extra).length < 2 ^ 64) :
    ∃ block' coinbase', changeCoinbase block (fun i => { i with scriptSig := i.scriptSig ++ extra }) = .ok block' ∧
      CommittedBlock block' coinbase' rest { txin with scriptSig := txin.scriptSig ++ extra } := by
  obtain ⟨coinbase', hchanged, hinput⟩ :=
    changeCoinbase_input (fun i => { i with scriptSig := i.scriptSig ++ extra }) h.vtx h.vin hfit
    (by rw [h.nonce]; simp)
  refine ⟨_, coinbase', hchanged, rfl, hinput, h.nonce, ?_⟩
  rw [witnessRoot_rest h.vtx rfl]
  exact h.commitment.append hextra hplain

omit [Crypto] in
/-- The extra nonce is a push that is no marker. -/
theorem extraNonce_operations (extraNonce : Vector UInt8 16) :
    Operations (pushData extraNonce.toList) [(16, extraNonce.toList)] ∧ ¬ IsMarker (16, extraNonce.toList) := by
  have hlen : extraNonce.toList.length = 16 := extraNonce.length_toList
  refine ⟨?_, fun hmarker => absurd (show (16 : ℕ) = 36 from hmarker.1) (by decide)⟩
  rw [pushData, hlen, if_pos (by decide)]
  exact .direct (by decide) hlen

theorem CommittedBlock.addExtraNonce (h : CommittedBlock block coinbase rest txin) (extraNonce : Vector UInt8 16) :
    (∃ mined, ConnectCoin.addExtraNonce block extraNonce = .ok mined ∧ CommitmentAccepted mined) ∨
      ConnectCoin.addExtraNonce block extraNonce = .error "Coinbase extraNonce exceeds consensus limit" := by
  rw [ConnectCoin.addExtraNonce, coinbaseInput_of h.vtx h.vin, any_some]
  by_cases hlong : 100 < (txin.scriptSig ++ pushData extraNonce.toList).length
  · exact Or.inr (if_pos (decide_eq_true hlong))
  · obtain ⟨hops, hmarker⟩ := extraNonce_operations extraNonce
    obtain ⟨mined, coinbase', hchanged, hmined⟩ := h.append hops (by simpa using hmarker) (by omega)
    refine Or.inl ⟨{ mined with header := { mined.header with hashMerkleRoot := (blockMerkleRoot mined).1 } }, ?_, ?_⟩
    · rw [if_neg (by simpa using hlong), hchanged]
      rfl
    · -- the header is not looked at
      exact CommittedBlock.accepted ⟨hmined.vtx, hmined.vin, hmined.nonce, hmined.commitment⟩

/-- A generated commitment is accepted, also behind other operations and an extra nonce, and a commitment lies within
its script. -/
theorem commitments_valid : (∀ (block : CBlock) (coinbase : CTransaction) (rest : List CTransaction) (txin : CTxIn)
      (ops : List (UInt8 × Bytes)), block.vtx = coinbase :: rest → coinbase.vin = [txin] → txin.scriptWitness = [] →
        Operations txin.scriptSig ops → txin.scriptSig.length + 37 < 2 ^ 64 →
        ∃ block', generateCoinbaseCommitment true block = .ok block' ∧ CommitmentAccepted block' ∧
          (∀ (extra : Bytes) (extraOps : List (UInt8 × Bytes)), Operations extra extraOps →
            (∀ op ∈ extraOps, ¬ IsMarker op) → txin.scriptSig.length + 37 + extra.length < 2 ^ 64 →
              ∃ appended, changeCoinbase block' (fun i => { i with scriptSig := i.scriptSig ++ extra }) = .ok appended ∧
                CommitmentAccepted appended) ∧ ∀ extraNonce : Vector UInt8 16,
            (∃ mined, addExtraNonce block' extraNonce = .ok mined ∧ CommitmentAccepted mined) ∨
            addExtraNonce block' extraNonce = .error "Coinbase extraNonce exceeds consensus limit") ∧
    ∀ (block : CBlock) (pos : ℕ), getWitnessCommitmentOffset block = some pos →
      ∃ txin, coinbaseInput block = some txin ∧ pos + MINIMUM_WITNESS_COMMITMENT ≤ txin.scriptSig.length := by
  refine ⟨?_, ?_⟩
  · intro block coinbase rest txin ops hvtx hvin hwitness hops hfit
    obtain ⟨block', coinbase', txin', hgenerated, hcommitted, hlength⟩ := exists_committed hvtx hvin hwitness hops hfit
    refine ⟨block', hgenerated, hcommitted.accepted, ?_, hcommitted.addExtraNonce⟩
    intro extra extraOps hextra hplain hroom
    obtain ⟨appended, _, hchanged, happended⟩ := hcommitted.append hextra hplain (by rw [List.length_append]; omega)
    exact ⟨appended, hchanged, happended.accepted⟩
  · intro block pos hpos
    rw [getWitnessCommitmentOffset] at hpos
    rcases hin : coinbaseInput block with _ | txin
    · rw [hin] at hpos
      cases hpos
    · rw [hin] at hpos
      exact ⟨txin, rfl, commitmentLoop_bound le_rfl (fun p hp => absurd hp.symm (some_ne_none p)) hpos⟩

end

section
attribute [local instance] toyCrypto

/-- a coinbase with a height of 1 before a spend with a witness -/
def uncommittedBlock : CBlock :=
  ⟨CBlockHeader.null, [spendWith [OP_1, OP_0] [] (by decide) nil_fits (by decide), smallSpend], false, false, false⟩

/-- The commitment to the spend is accepted, with three bytes pushed behind it. -/
theorem uncommittedBlock_committed : ∃ block' appended, generateCoinbaseCommitment true uncommittedBlock = .ok block' ∧
    CommitmentAccepted block' ∧ changeCoinbase block' (fun i => { i with scriptSig := i.scriptSig ++ [3, 1, 2, 3] }) =
      .ok appended ∧ CommitmentAccepted appended := by
  have hops : Operations [OP_1, OP_0] [(OP_1, []), (OP_0, [])] := .cons rfl (.cons rfl .nil)
  have hextra : Operations [3, 1, 2, 3] [(3, [1, 2, 3])] := .cons rfl .nil
  obtain ⟨block', hgenerated, haccepted, happend, -⟩ :=
    commitments_valid.1 uncommittedBlock _ _ _ _ rfl rfl rfl hops (by decide)
  obtain ⟨appended, hchanged, hstill⟩ := happend [3, 1, 2, 3] _ hextra (by decide) (by decide)
  exact ⟨block', appended, hgenerated, haccepted, hchanged, hstill⟩

end

end ConnectCoin
