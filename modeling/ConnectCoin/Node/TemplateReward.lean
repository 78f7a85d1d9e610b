/-
What a block template pays (`CreateNewBlock` and `addChunks` against `ConnectBlock`).

- `Included`: one accepted chunk; `addChunks_trace` reads the selection loop as a run of accepted chunks.
- `Counts`: the assembler's counters are sums over the included entries; `ConnectCounts`: so are those of
  `ConnectBlock`.
- `EntryExact`: the premise. An entry's weight, sigop cost and fee are those that `ConnectBlock` computes where it comes
  to it.

Results: `template_reward_exact`. The coinbase pays the limit of `ConnectBlock`, the counters stay within the options'
limits, and without changed priorities every chunk raises fees plus reduced subsidy. `createNewBlock_error`: a template
fails only for `TestBlockValidity`. `full_template`: the reserved weight alone may reach the weight limit.
-/
import ConnectCoin.Node.BlockAssembler

namespace ConnectCoin

open Lib List

/-! ## Sizes of scripts -/

theorem absBytes_length (fuel n : ℕ) : (absBytes fuel n).length ≤ fuel := by
  induction fuel generalizing n with
  | zero => simp [absBytes]
  | succ fuel ih =>
    unfold absBytes
    split_ifs
    · simp
    · simpa using ih (n / 256)

theorem pushData_length (data : Bytes) : (pushData data).length ≤ data.length + 5 := by
  unfold pushData
  split_ifs <;> simp <;> omega

theorem coinbaseScriptSig_length (nHeight : ℕ) : (coinbaseScriptSig nHeight).length ≤ 15 := by
  have hnum : (scriptNum nHeight).length ≤ 9 := by
    have habs := absBytes_length 8 nHeight
    unfold scriptNum
    dsimp only
    split_ifs
    · rw [length_append]
      exact Nat.add_le_add_right habs 1
    · omega
  have hpush : (pushInt64 nHeight).length ≤ 14 := by
    have hdata := pushData_length (scriptNum nHeight)
    unfold pushInt64
    split_ifs
    · simp
    · simp
    · omega
  unfold coinbaseScriptSig
  rw [length_append]
  split_ifs <;> simp <;> omega

theorem writeCommitment_length (commitpos : Option ℕ) (witnessroot : Uint256) (scriptSig : Bytes) :
    (writeCommitment commitpos witnessroot scriptSig).length ≤ scriptSig.length + 41 := by
  unfold writeCommitment
  cases commitpos with
  | none =>
    have hdata := pushData_length (WITNESS_COMMITMENT_HEADER ++ witnessroot.bytes)
    simp only [length_append, Uint256.bytes_length, WITNESS_COMMITMENT_HEADER, length_cons, length_nil] at hdata ⊢
    omega
  | some pos =>
    simp only [length_append, length_take, length_drop, Uint256.bytes_length]
    omega

section
variable [Crypto]

/-! ## Counters -/

variable (entries : List CTxMemPoolEntry)

def chunkFees : CAmount := (entries.map CTxMemPoolEntry.nFee).sum

variable (e : CTxMemPoolEntry)

@[simp] theorem chunkWeight_concat : chunkWeight (entries ++ [e]) = chunkWeight entries + e.nTxWeight.toInt64 := by
  simp [chunkWeight]

@[simp] theorem chunkSigOps_concat : chunkSigOps (entries ++ [e]) = chunkSigOps entries + e.sigOpCost := by
  simp [chunkSigOps]

@[simp] theorem chunkModifiedFees_concat :
    chunkModifiedFees (entries ++ [e]) = chunkModifiedFees entries + e.modifiedFee := by
  simp [chunkModifiedFees]

@[simp] theorem chunkFees_append (entries' : List CTxMemPoolEntry) :
    chunkFees (entries ++ entries') = chunkFees entries + chunkFees entries' := by
  simp [chunkFees]

theorem chunkFees_singleton : chunkFees [e] = e.nFee := by simp [chunkFees]

/-- what the assembler has counted since a state, for these entries -/
structure Counts (s : BlockAssembler) (entries : List CTxMemPoolEntry) (s' : BlockAssembler) : Prop where
  vtx : s'.vtx = s.vtx ++ entries.map CTxMemPoolEntry.tx
  weight : s'.nBlockWeight = s.nBlockWeight + (chunkWeight entries).toUInt64
  txWeight : s'.nBlockTxWeight = s.nBlockTxWeight + (chunkWeight entries).toUInt64
  sigOps : s'.nBlockSigOpsCost = s.nBlockSigOpsCost + (chunkSigOps entries).toUInt64
  fees : s'.nFees = s.nFees + chunkFees entries

theorem Counts.refl (s : BlockAssembler) : Counts s [] s := by
  refine ⟨by simp, ?_, ?_, ?_, by simp [chunkFees]⟩
  all_goals exact (UInt64.add_zero _).symm

variable {entries : List CTxMemPoolEntry} {s s' : BlockAssembler} {ctx : AssemblerContext}
  {chunk : List CTxMemPoolEntry} {chunks : List (List CTxMemPoolEntry)} {cb : CTransaction}

theorem Counts.addToBlock (h : Counts s entries s') (e : CTxMemPoolEntry) :
    Counts s (entries ++ [e]) (addToBlock s' e) where
  vtx := by simp [ConnectCoin.addToBlock, h.vtx]
  weight := by simp [ConnectCoin.addToBlock, h.weight, UInt64.add_assoc]
  txWeight := by simp [ConnectCoin.addToBlock, h.txWeight, UInt64.add_assoc]
  sigOps := by simp [ConnectCoin.addToBlock, h.sigOps, UInt64.add_assoc]
  fees := by
    rw [chunkFees_append, chunkFees_singleton, ← add_assoc, ← h.fees]
    rfl

/-- The counters after some more entries. -/
theorem Counts.foldl (h : Counts s entries s')
    (more : List CTxMemPoolEntry) : Counts s (entries ++ more) (more.foldl ConnectCoin.addToBlock s') := by
  induction more generalizing s' entries with
  | nil => simpa using h
  | cons e more ih =>
    have hnext := ih (h.addToBlock e)
    rwa [append_assoc] at hnext

theorem Counts.includeChunk (h : Counts s entries s') (chunk : List CTxMemPoolEntry) (feerateVSize : FeeFrac) :
    Counts s (entries ++ chunk) (includeChunk s' chunk feerateVSize) :=
  let hall := h.foldl chunk
  ⟨hall.vtx, hall.weight, hall.txWeight, hall.sigOps, hall.fees⟩

/-! ## The loop as a run -/

/-- one accepted chunk -/
structure Included (ctx : AssemblerContext) (s : BlockAssembler) (chunk : List CTxMemPoolEntry) (s' : BlockAssembler) :
    Prop where
  chunk_ne : chunk ≠ []
  worth : packagePenalty ctx s chunk < chunkModifiedFees chunk
  fits : chunkFits ctx s chunk = true
  next : ∃ feerateVSize, s' = includeChunk s chunk feerateVSize

/-- The selection loop includes chunks that were offered, one after the other. -/
theorem addChunks_trace (ctx : AssemblerContext) (builder : BlockBuilder) (nConsecutiveFailed : ℕ)
    (s : BlockAssembler) : ∃ chunks, (∀ c ∈ chunks, c ∈ builder.chunks) ∧
      Trace (Included ctx) s chunks (addChunks ctx builder nConsecutiveFailed s) := by
  induction builder generalizing nConsecutiveFailed s with
  | finished => exact ⟨[], by simp, Trace.nil s⟩
  | chunk entries feerate skipped included ihSkipped ihIncluded =>
    have hstop : ∃ chunks, (∀ c ∈ chunks, c ∈ (BlockBuilder.chunk entries feerate skipped included).chunks) ∧
        Trace (Included ctx) s chunks s := ⟨[], by simp, Trace.nil s⟩
    unfold addChunks
    split_ifs with hempty hrate hworth hfits hgiveUp
    · exact hstop
    · exact hstop
    · exact hstop
    · obtain ⟨chunks, hoffered, htrace⟩ := ihIncluded 0 (includeChunk s entries (toFeePerVSize feerate))
      have hfirst : Included ctx s entries (includeChunk s entries (toFeePerVSize feerate)) :=
        ⟨fun h => hempty (by rw [h]; rfl), not_le.1 hworth, hfits, _, rfl⟩
      refine ⟨entries :: chunks, ?_, Trace.cons hfirst htrace⟩
      intro c hc
      rcases mem_cons.1 hc with rfl | hc
      · exact mem_cons_self
      · exact mem_cons_of_mem _ (mem_append_right _ (hoffered c hc))
    · exact hstop
    · obtain ⟨chunks, hoffered, htrace⟩ := ihSkipped (nConsecutiveFailed + 1) s
      exact ⟨chunks, fun c hc => mem_cons_of_mem _ (mem_append_left _ (hoffered c hc)), htrace⟩

theorem Included.counts (h : Included ctx s chunk s') : Counts s chunk s' := by
  obtain ⟨feerate, rfl⟩ := h.next
  exact (Counts.refl s).includeChunk chunk feerate

/-- The counters of a run, over all its chunks. -/
theorem counts_of_trace {s₀ s s' : BlockAssembler} (hcounts : Counts s₀ entries s)
    (h : Trace (Included ctx) s chunks s') : Counts s₀ (entries ++ chunks.flatten) s' := by
  induction h generalizing entries with
  | nil s => simpa using hcounts
  | cons hfirst _ ih =>
    obtain ⟨feerate, rfl⟩ := hfirst.next
    have hrest := ih (hcounts.includeChunk _ feerate)
    rwa [append_assoc] at hrest

/-! ## Limits -/

/-- the counters against the options: the weight limit is only reached by the reserved weight itself -/
structure WithinLimits (ctx : AssemblerContext) (s : BlockAssembler) : Prop where
  weight_le : s.nBlockWeight ≤ ctx.options.blockMaxWeight
  weight_lt : s.vtx ≠ [] → s.nBlockWeight < ctx.options.blockMaxWeight
  sigOps_lt : s.nBlockSigOpsCost < UInt64.ofNat MAX_BLOCK_SIGOPS_COST

theorem checkMiningOptions_ok {given : BlockCreateOptions} {useArgnames : Bool} {options : FlatOptions}
    (h : checkMiningOptions given useArgnames = .ok options) : options.blockReservedWeight ≤ options.blockMaxWeight ∧
      ∃ pubkey, (CTxOut.ofScript 0 options.coinbaseOutputScript).getP2PKPubKey = some pubkey := by
  simp only [checkMiningOptions, bind_ok, refuseIf_ok, pure, Except.pure, Except.ok.injEq] at h
  obtain ⟨-, -, -, -, -, -, -, hle, -, -, -, hkey, rfl⟩ := h
  rw [Bool.or_eq_false_iff] at hkey
  exact ⟨by simpa using hle, Option.isSome_iff_exists.1 (by simpa using hkey.2)⟩

theorem withinLimits_reset (ctx : AssemblerContext) : WithinLimits ctx (resetBlock ctx) := by
  obtain ⟨given, hgiven⟩ := ctx.checked
  have hsigOps : (0 : UInt64) < UInt64.ofNat MAX_BLOCK_SIGOPS_COST := by decide
  exact ⟨(checkMiningOptions_ok hgiven).1, fun h => absurd rfl h, hsigOps⟩

/-- A chunk that fits leaves both counters below their limits. -/
theorem Included.withinLimits (h : Included ctx s chunk s') : WithinLimits ctx s' := by
  have hfits := h.fits
  rw [chunkFits, Bool.and_eq_true, testChunkBlockLimits] at hfits
  obtain ⟨hlimits, -⟩ := hfits
  split_ifs at hlimits with hweight hsigOps
  rw [← h.counts.weight, ge_iff_le, UInt64.not_le] at hweight
  rw [← h.counts.sigOps, ge_iff_le, UInt64.not_le] at hsigOps
  exact ⟨UInt64.le_of_lt hweight, fun _ => hweight, hsigOps⟩

theorem withinLimits_of_trace (hs : WithinLimits ctx s) (h : Trace (Included ctx) s chunks s') :
    WithinLimits ctx s' := by
  induction h with
  | nil s => exact hs
  | cons hfirst _ ih => exact ih hfirst.withinLimits

/-! ## Every chunk pays -/

/-- fees plus reduced subsidy of a block with these entries -/
def rewardOf (ctx : AssemblerContext) (entries : List CTxMemPoolEntry) : CAmount :=
  chunkFees entries + getBlockSubsidyForWeight ctx.nHeight (chunkWeight entries).toUInt64 ctx.P

/-- each chunk strictly raised the reward when it was added -/
def EachPays (ctx : AssemblerContext) (chunks : List (List CTxMemPoolEntry)) : Prop :=
  ∀ done chunk rest, chunks = done ++ chunk :: rest → rewardOf ctx done.flatten < rewardOf ctx (done.flatten ++ chunk)

theorem blockReward_eq {s : BlockAssembler} (h : Counts (resetBlock ctx) entries s) :
    blockReward ctx s = rewardOf ctx entries := by
  have hfees : s.nFees = chunkFees entries := h.fees.trans (zero_add _)
  have hweight : s.nBlockTxWeight = (chunkWeight entries).toUInt64 := h.txWeight.trans (UInt64.zero_add _)
  rw [blockReward, rewardOf, hfees, hweight]

theorem chunkModifiedFees_eq (h : ∀ e ∈ chunk, e.modifiedFee = e.nFee) : chunkModifiedFees chunk = chunkFees chunk := by
  induction chunk using List.reverseRecOn with
  | nil => rfl
  | append_singleton chunk e ih =>
    rw [chunkModifiedFees_concat, chunkFees_append, chunkFees_singleton, ih fun e' he' => h e' (mem_append_left _ he'),
      h e (mem_append_right _ (mem_singleton.2 rfl))]

/-- Without changed priorities an accepted chunk brings more than it destroys. -/
theorem Included.reward_lt (h : Included ctx s chunk s') (hfee : ∀ e ∈ chunk, e.modifiedFee = e.nFee) :
    blockReward ctx s < blockReward ctx s' := by
  have hworth := h.worth
  rw [chunkModifiedFees_eq hfee] at hworth
  simp only [packagePenalty] at hworth
  simp only [blockReward, getBlockSubsidyForWeight, h.counts.fees, h.counts.txWeight]
  linarith

theorem eachPays_of_trace (hcounts : Counts (resetBlock ctx) entries s) (h : Trace (Included ctx) s chunks s')
    (hfee : ∀ chunk ∈ chunks, ∀ e ∈ chunk, e.modifiedFee = e.nFee) : ∀ done chunk rest, chunks = done ++ chunk :: rest →
      rewardOf ctx (entries ++ done.flatten) < rewardOf ctx (entries ++ (done.flatten ++ chunk)) := by
  induction h generalizing entries with
  | nil s => simp
  | @cons s t u b bs hfirst _ ih =>
    have hnext : Counts (resetBlock ctx) (entries ++ b) t := by
      obtain ⟨feerate, rfl⟩ := hfirst.next
      exact hcounts.includeChunk b feerate
    obtain ⟨hb, hbs⟩ := forall_mem_cons.1 hfee
    intro done chunk rest hsplit
    cases done with
    | nil =>
      obtain ⟨rfl, rfl⟩ := List.cons.inj hsplit
      rw [flatten_nil, append_nil, nil_append, ← blockReward_eq hcounts, ← blockReward_eq hnext]
      exact hfirst.reward_lt hb
    | cons d done =>
      obtain ⟨rfl, hrest⟩ := List.cons.inj hsplit
      have hlater := ih hnext hbs done chunk rest hrest
      rwa [append_assoc, append_assoc, ← append_assoc b, ← flatten_cons] at hlater

/-- The reward of all chunks against that of none. -/
theorem EachPays.reward_le (h : EachPays ctx chunks) :
    rewardOf ctx [] ≤ rewardOf ctx chunks.flatten ∧ (chunks ≠ [] → rewardOf ctx [] < rewardOf ctx chunks.flatten) := by
  induction chunks using List.reverseRecOn with
  | nil => exact ⟨le_refl _, fun hne => absurd rfl hne⟩
  | append_singleton chunks chunk ih =>
    have hbefore : EachPays ctx chunks := by
      intro done c rest hsplit
      exact h done c (rest ++ [chunk]) (by rw [hsplit, append_assoc, cons_append])
    have hlast := h chunks chunk [] rfl
    have hlt : rewardOf ctx [] < rewardOf ctx (chunks ++ [chunk]).flatten := by
      rw [flatten_concat]
      exact lt_of_le_of_lt (ih hbefore).1 hlast
    exact ⟨le_of_lt hlt, fun _ => hlt⟩

/-! ## The sums of ConnectBlock -/

/-- An entry's values are those that `ConnectBlock` computes for the transaction: the fee where it comes to it in the
block. -/
structure EntryExact (ctx : ConnectContext) (block : CBlock) (view : CoinsView) (e : CTxMemPoolEntry) : Prop where
  weight : e.nTxWeight = getTransactionWeight e.tx
  sigOpCost : e.sigOpCost = Int64.ofNat (getTransactionSigOpCost e.tx)
  fee : ∀ done rest st fee, block.vtx = done ++ e.tx :: rest →
    done.zipIdx.foldlM (connectTx ctx) (ConnectState.start view) = .ok st →
    checkTxInputs e.tx st.view ctx.pindex.nHeight = .ok fee → e.nFee = fee

/-- the sums of `ConnectBlock` over these entries -/
structure ConnectCounts (st : ConnectState) (entries : List CTxMemPoolEntry) : Prop where
  fees : st.nFees = chunkFees entries
  range : moneyRange st.nFees = true
  weight : st.nonCoinbaseWeight = (chunkWeight entries).toUInt64
  sigOps : UInt64.ofNat st.nSigOpsCost = (chunkSigOps entries).toUInt64
  sigOps_le : st.nSigOpsCost ≤ MAX_BLOCK_SIGOPS_COST

variable {block block' : CBlock} {st : ConnectState} {mempool : Option BlockBuilder} {tx : CMutableTransaction}
  {rest : List CTransaction} {t : CBlockTemplate} {env : TemplateEnv}

/-- One more entry. -/
theorem ConnectCounts.next {ctx : ConnectContext} {st' : ConnectState} {e : CTxMemPoolEntry} {i : ℕ}
    (hst : ConnectCounts st entries) (hweight : e.nTxWeight = getTransactionWeight e.tx)
    (hsigOps : e.sigOpCost = Int64.ofNat (getTransactionSigOpCost e.tx))
    (hfee : ∀ fee, checkTxInputs e.tx st.view ctx.pindex.nHeight = .ok fee → e.nFee = fee)
    (h : connectTx ctx st (e.tx, i) = .ok st') : ConnectCounts st' (entries ++ [e]) := by
  obtain ⟨hcost, hcost_le, hplain⟩ := connectTx_sums h
  rw [if_neg (Bool.eq_false_iff.1 e.plain)] at hplain
  obtain ⟨fee, hinputs, hrange, hfees, hweights⟩ := hplain
  obtain rfl := hfee fee hinputs
  have hcount : (Int64.ofNat (getTransactionSigOpCost e.tx)).toUInt64 =
      UInt64.ofNat (getTransactionSigOpCost e.tx) := rfl
  refine ⟨?_, ?_, ?_, ?_, hcost_le⟩
  · rw [hfees, hst.fees, chunkFees_append, chunkFees_singleton]
  · rwa [hfees]
  · rw [hweights, hst.weight, chunkWeight_concat, Int64.toUInt64_add, hweight]
  · rw [hcost, UInt64.ofNat_add, hst.sigOps, chunkSigOps_concat, Int64.toUInt64_add, hsigOps, hcount]

/-- The loop over a coinbase and the entries behind it. -/
theorem connectCounts_of_loop {ctx : ConnectContext} {view : CoinsView} (hcb : cb.isCoinBase = true)
    {rest : List CTxMemPoolEntry} (hexact : ∀ e ∈ entries, EntryExact ctx block view e)
    (hvtx : block.vtx = cb :: (entries ++ rest).map CTxMemPoolEntry.tx)
    (h : (cb :: entries.map CTxMemPoolEntry.tx).zipIdx.foldlM (connectTx ctx) (ConnectState.start view) = .ok st) :
    ConnectCounts st entries := by
  induction entries using List.reverseRecOn generalizing rest st with
  | nil =>
    rw [map_nil, zipIdx_singleton, foldlM_cons_ok] at h
    obtain ⟨mid, hfirst, hlast⟩ := h
    cases hlast
    obtain ⟨hcost, hcost_le, hplain⟩ := connectTx_sums hfirst
    rw [if_pos hcb] at hplain
    have hzero : getTransactionSigOpCost cb = 0 := by rw [getTransactionSigOpCost, if_pos hcb]
    have hrange : moneyRange (0 : CAmount) = true := by decide
    rw [hzero] at hcost
    exact ⟨hplain.1, by rw [hplain.1]; exact hrange, hplain.2, by rw [hcost]; rfl, hcost_le⟩
  | append_singleton entries e ih =>
    have hlist : (cb :: (entries ++ [e]).map CTxMemPoolEntry.tx) = (cb :: entries.map CTxMemPoolEntry.tx) ++
        [e.tx] := by simp
    rw [hlist, zipIdx_append, foldlM_append, bind_ok] at h
    obtain ⟨mid, hmid, hlast⟩ := h
    rw [zipIdx_singleton, foldlM_cons_ok] at hlast
    obtain ⟨st', hturn, hdone⟩ := hlast
    cases hdone
    have hsplit : block.vtx = (cb :: entries.map CTxMemPoolEntry.tx) ++ e.tx :: rest.map CTxMemPoolEntry.tx := by
      simp [hvtx]
    have hvtx' : block.vtx = cb :: (entries ++ e :: rest).map CTxMemPoolEntry.tx := by simp [hvtx]
    have hbefore : ConnectCounts mid entries := ih (fun e' he' => hexact e' (mem_append_left _ he')) hvtx' hmid
    have he := hexact e (mem_append_right _ (mem_singleton.2 rfl))
    exact hbefore.next he.weight he.sigOpCost (fun fee => he.fee _ _ mid fee hsplit hmid) hturn

/-! ## The coinbase -/

theorem ofScript_nValue (nValue : Int64) (scriptPubKey : Bytes) :
    (CTxOut.ofScript nValue scriptPubKey).nValue = nValue := by
  unfold CTxOut.ofScript
  dsimp only
  split_ifs <;> rfl

theorem exists_makeTransactionRef (h : tx.Constructible) : ∃ ref, makeTransactionRef tx = .ok ref := ⟨_, dif_pos h⟩

theorem makeTransactionRef_ok {ref : CTransaction} (h : makeTransactionRef tx = .ok ref) :
    ref.vin = tx.vin ∧ ref.vout = tx.vout := by
  unfold makeTransactionRef at h
  split_ifs at h
  · cases h
    exact ⟨rfl, rfl⟩
  · split at h <;> cases h

/-- a change of the block keeps the coinbase's outputs, and that it is a coinbase, and all transactions behind it -/
def KeepsPayment (block block' : CBlock) : Prop :=
  ∃ cb cb' rest, block.vtx = cb :: rest ∧ block'.vtx = cb' :: rest ∧ cb'.vout = cb.vout ∧ cb'.isCoinBase = cb.isCoinBase

theorem KeepsPayment.trans {a b c : CBlock} (hab : KeepsPayment a b) (hbc : KeepsPayment b c) : KeepsPayment a c := by
  obtain ⟨cb, cb₁, rest, ha, hb, hout, hflag⟩ := hab
  obtain ⟨cb₁', cb₂, rest', hb', hc, hout', hflag'⟩ := hbc
  obtain ⟨rfl, rfl⟩ := List.cons.inj (hb.symm.trans hb')
  exact ⟨cb, cb₂, rest, ha, hc, hout'.trans hout, hflag'.trans hflag⟩

theorem changeCoinbase_keeps {change : CTxIn → CTxIn} (h : changeCoinbase block change = .ok block')
    (hchange : ∀ i, (change i).prevout = i.prevout) : KeepsPayment block block' := by
  unfold changeCoinbase at h
  cases hvtx : block.vtx with
  | nil => simp [hvtx] at h
  | cons cb rest =>
    simp only [hvtx, bind_ok, pure, Except.pure, Except.ok.injEq] at h
    obtain ⟨cb', hcb', rfl⟩ := h
    obtain ⟨hvin, hvout⟩ := makeTransactionRef_ok hcb'
    refine ⟨cb, cb', rest, hvtx, rfl, hvout, ?_⟩
    unfold CTransaction.isCoinBase
    rw [hvin]
    cases cb.vin with
    | nil => rfl
    | cons i vin => cases vin <;> simp [hchange]

theorem generateCoinbaseCommitment_keeps {segwitActive : Bool}
    (h : generateCoinbaseCommitment segwitActive block = .ok block') : KeepsPayment block block' := by
  simp only [generateCoinbaseCommitment, bind_ok] at h
  obtain ⟨committed, hcommitted, hrest⟩ := h
  have hfirst : KeepsPayment block committed := changeCoinbase_keeps hcommitted fun _ => rfl
  unfold updateUncommittedBlockStructures at hrest
  split_ifs at hrest
  · exact hfirst.trans (changeCoinbase_keeps hrest fun _ => rfl)
  · cases hrest
    exact hfirst

/-! ## A template is always built -/

theorem ofScript_p2pk {nValue : Int64} (nValue' : Int64) {scriptPubKey : Bytes} {pubkey : Uint256}
    (h : (CTxOut.ofScript nValue scriptPubKey).getP2PKPubKey = some pubkey) :
    (CTxOut.ofScript nValue' scriptPubKey).getP2PKPubKey = some pubkey := by
  unfold CTxOut.ofScript at h ⊢
  dsimp only at h ⊢
  by_cases hform : scriptPubKey.length = 34 ∧ scriptPubKey[0]? = some OP_1 ∧ scriptPubKey[1]? = some 32
  · rw [if_pos hform] at h ⊢
    split_ifs at h ⊢ with hkey
    · exact h
    · simp [CTxOut.getP2PKPubKey] at h
  · rw [if_neg hform] at h
    split_ifs at h <;> simp [CTxOut.getP2PKPubKey] at h

/-- A change to inputs of an allowed size makes a transaction again. -/
theorem exists_changeCoinbase (change : CTxIn → CTxIn) (hvtx : block.vtx = cb :: rest)
    (hscript : ∀ i ∈ cb.vin, (change i).scriptSig.length < 2 ^ 64)
    (hstack : ∀ i ∈ cb.vin, (change i).scriptWitness.length < 2 ^ 64 ∧ ∀ w ∈ (change i).scriptWitness,
      w.length < 2 ^ 64) :
    ∃ cb' : CTransaction, changeCoinbase block change = .ok { block with vtx := cb' :: rest } := by
  have hmem : ∀ i ∈ cb.vin.modifyHead change, i ∈ cb.vin ∨ ∃ j ∈ cb.vin, i = change j := by
    intro i hi
    cases hvin : cb.vin with
    | nil => simp [hvin] at hi
    | cons j vin =>
      rw [hvin, modifyHead_cons] at hi
      rcases mem_cons.1 hi with rfl | hi
      · exact Or.inr ⟨j, mem_cons_self, rfl⟩
      · exact Or.inl (mem_cons_of_mem _ hi)
  have hparts : CMutableTransaction.Constructible { cb.toMutable with vin := cb.vin.modifyHead change } := by
    refine ⟨cb.payloads, by rw [length_modifyHead]; exact cb.vin_size, cb.vout_size, ?_, ?_⟩
    · intro i hi
      rcases hmem i hi with hold | ⟨j, hj, rfl⟩
      · exact cb.scriptSig_size i hold
      · exact hscript j hj
    · intro i hi
      rcases hmem i hi with hold | ⟨j, hj, rfl⟩
      · exact cb.stack_size i hold
      · exact hstack j hj
  obtain ⟨cb', hcb'⟩ := exists_makeTransactionRef hparts
  refine ⟨cb', ?_⟩
  simp only [changeCoinbase, hvtx, hcb']
  rfl

theorem exists_generateCoinbaseCommitment (segwitActive : Bool) (hvtx : block.vtx = cb :: rest)
    (hscript : ∀ i ∈ cb.vin, i.scriptSig.length ≤ 15) :
    ∃ block', generateCoinbaseCommitment segwitActive block = .ok block' := by
  obtain ⟨cb', hcommitted⟩ : ∃ cb' : CTransaction, changeCoinbase block (commitInput block) =
      .ok { block with vtx := cb' :: rest } := by
    apply exists_changeCoinbase (commitInput block) hvtx _ cb.stack_size
    intro i hi
    have hshort := hscript i hi
    exact lt_of_le_of_lt (writeCommitment_length _ _ _) (by omega)
  obtain ⟨block', hupdated⟩ : ∃ block',
      updateUncommittedBlockStructures segwitActive { block with vtx := cb' :: rest } = .ok block' := by
    unfold updateUncommittedBlockStructures
    split_ifs
    · have hvtx' : CBlock.vtx { block with vtx := cb' :: rest } = cb' :: rest := rfl
      obtain ⟨cb₂, hcb₂⟩ := exists_changeCoinbase (fun txin => { txin with scriptWitness := [List.replicate 32 0] })
        hvtx' cb'.scriptSig_size (fun i _ => by simp)
      exact ⟨_, hcb₂⟩
    · exact ⟨_, rfl⟩
  exact ⟨block', bind_ok.2 ⟨_, hcommitted, hupdated⟩⟩

/-- The coinbase of an assembler whose options were checked is a transaction. -/
theorem coinbaseTx_constructible (ctx : AssemblerContext) (s : BlockAssembler) : (coinbaseTx ctx s).Constructible := by
  obtain ⟨given, hgiven⟩ := ctx.checked
  obtain ⟨-, pubkey, hkey⟩ := checkMiningOptions_ok hgiven
  have hout := ofScript_p2pk (Int64.ofInt (blockReward ctx s)) hkey
  refine ⟨?_, by simp [coinbaseTx], by simp [coinbaseTx], ?_, by simp [coinbaseTx]⟩
  · intro o ho
    obtain rfl := mem_singleton.1 ho
    exact serializePayload_isOk.2 (Or.inr (Or.inl ⟨_, hout⟩))
  · intro i hi
    obtain rfl := mem_singleton.1 hi
    exact lt_of_le_of_lt (coinbaseScriptSig_length ctx.nHeight) (by decide)

/-- Only `TestBlockValidity` keeps a template back. -/
theorem createNewBlock_error {what : String} (h : createNewBlock ctx env mempool = .error what) :
    ctx.options.testBlockValidity = true ∧
      ∃ block state, env.testBlockValidity block = some state ∧ what = "TestBlockValidity failed: " ++ state := by
  obtain ⟨coinbase, hcoinbase⟩ :=
    exists_makeTransactionRef (coinbaseTx_constructible ctx (selectTransactions ctx mempool))
  have hscript : ∀ i ∈ coinbase.vin, i.scriptSig.length ≤ 15 := by
    intro i hi
    rw [(makeTransactionRef_ok hcoinbase).1] at hi
    obtain rfl := mem_singleton.1 hi
    exact coinbaseScriptSig_length ctx.nHeight
  obtain ⟨committed, hcommitted⟩ : ∃ committed, generateCoinbaseCommitment env.segwitActive
      ⟨CBlockHeader.null, coinbase :: (selectTransactions ctx mempool).vtx, false, false, false⟩ = .ok committed :=
    exists_generateCoinbaseCommitment env.segwitActive rfl hscript
  simp only [createNewBlock, hcoinbase, hcommitted, bind, Except.bind] at h
  split at h
  · next state hstate =>
    split_ifs at hstate with htest
    cases h
    exact ⟨htest, _, state, hstate, rfl⟩
  · cases h

/-- A template's transactions are a coinbase that pays the reward, and the selected ones. -/
theorem createNewBlock_ok (h : createNewBlock ctx env mempool = .ok t) : t.assembler = selectTransactions ctx mempool ∧
      ∃ cb, t.block.vtx = cb :: t.assembler.vtx ∧ cb.isCoinBase = true ∧
        cb.outputSum = (Int64.ofInt (blockReward ctx t.assembler)).toInt := by
  simp only [createNewBlock, bind_ok] at h
  obtain ⟨coinbase, hcoinbase, committed, hcommitted, hvalid⟩ := h
  split at hvalid
  · cases hvalid
  · cases hvalid
    refine ⟨rfl, ?_⟩
    obtain ⟨cb, cb', rest, hvtx, hvtx', hout, hflag⟩ := generateCoinbaseCommitment_keeps hcommitted
    obtain ⟨rfl, rfl⟩ := List.cons.inj hvtx
    obtain ⟨hvin, hvout⟩ := makeTransactionRef_ok hcoinbase
    refine ⟨cb', hvtx', ?_, ?_⟩
    · have hnull : COutPoint.isNull ⟨Uint256.null, NULL_INDEX⟩ = true := by decide
      rw [hflag, CTransaction.isCoinBase, hvin]
      exact hnull
    · rw [CTransaction.outputSum, hout, hvout, coinbaseTx, map_singleton, sum_singleton, CTxOut.value, ofScript_nValue]

/-! ## The template against ConnectBlock -/

/-- The reward of connected transactions is an amount of 64 bits. -/
theorem ConnectCounts.reward_fits (h : ConnectCounts st entries) :
    (Int64.ofInt (rewardOf ctx entries)).toInt = rewardOf ctx entries := by
  have hfees := moneyRange_iff.1 h.range
  have hsubsidy := getBlockSubsidyForWeight_range ctx.nHeight (chunkWeight entries).toUInt64 ctx.P
  rw [h.fees, MAX_MONEY, COIN] at hfees
  rw [COIN] at hsubsidy
  apply Int64.toInt_ofInt_of_le <;> rw [rewardOf] <;> linarith

/-- the coinbase pays what `ConnectBlock` allows, which ended its loop over the template in this state -/
structure PaysLimit (ctx : AssemblerContext) (cctx : ConnectContext) (t : CBlockTemplate) (cb : CTransaction)
    (st : ConnectState) : Prop where
  value : cb.outputSum = st.nFees + getBlockSubsidyForWeight ctx.nHeight st.nonCoinbaseWeight ctx.P
  /-- a coinbase in its place may pay that and no more -/
  greatest : ∀ cb' v, CTransaction.getValueOut cb' = .ok v →
    (checkReward cctx { t.block with vtx := cb' :: t.assembler.vtx } st.toConnectSums = .ok () ↔ v ≤ cb.outputSum)
  weight : t.assembler.nBlockWeight = ctx.options.blockReservedWeight + st.nonCoinbaseWeight
  sigOps : t.assembler.nBlockSigOpsCost.toNat = st.nSigOpsCost

/-- the chunks of the mempool, if there is one -/
def offered (mempool : Option BlockBuilder) : List (List CTxMemPoolEntry) := (mempool.map BlockBuilder.chunks).getD []

theorem selectTransactions_trace (ctx : AssemblerContext) (mempool : Option BlockBuilder) :
    ∃ chunks, (∀ c ∈ chunks, c ∈ offered mempool) ∧
      Trace (Included ctx) (resetBlock ctx) chunks (selectTransactions ctx mempool) := by
  have hnone : ∃ chunks, (∀ c ∈ chunks, c ∈ offered mempool) ∧
      Trace (Included ctx) (resetBlock ctx) chunks (resetBlock ctx) := ⟨[], by simp, Trace.nil _⟩
  unfold selectTransactions
  cases mempool with
  | none => exact hnone
  | some builder =>
    dsimp only
    split_ifs
    · exact addChunks_trace ctx builder 0 (resetBlock ctx)
    · exact hnone

theorem paysLimit_of_counts {cctx : ConnectContext} (hP : cctx.P = ctx.P) (hheight : cctx.pindex.nHeight = ctx.nHeight)
    (hcounts : Counts (resetBlock ctx) entries t.assembler) (hst : ConnectCounts st entries)
    (hvalue : cb.outputSum = (Int64.ofInt (blockReward ctx t.assembler)).toInt) : PaysLimit ctx cctx t cb st := by
  have hpays : cb.outputSum = st.nFees + getBlockSubsidyForWeight ctx.nHeight st.nonCoinbaseWeight ctx.P := by
    rw [hvalue, blockReward_eq hcounts, hst.reward_fits, rewardOf, hst.fees, hst.weight]
  refine ⟨hpays, ?_, ?_, ?_⟩
  · intro cb' v hv
    simp only [checkReward, bind_ok, mapError_ok, hv, Except.ok.injEq, exists_eq_left', refuseIf_ok, gt_iff_lt,
      decide_eq_false_iff_not, not_lt, hP, hheight, hpays]
  · rw [hcounts.weight, hst.weight]
    rfl
  · have hsigOps : t.assembler.nBlockSigOpsCost = UInt64.ofNat st.nSigOpsCost := by
      rw [hcounts.sigOps, hst.sigOps]
      exact UInt64.zero_add _
    rw [hsigOps]
    exact UInt64.toNat_ofNat_of_lt' (lt_of_le_of_lt hst.sigOps_le (by decide))

/-- The template pays the limit of `ConnectBlock`, within the options' limits; without changed priorities every chunk
pays, and the template no less than an empty one. -/
theorem template_reward_exact {ctx : AssemblerContext} {env : TemplateEnv} {mempool : Option BlockBuilder}
    {t : CBlockTemplate} (h : createNewBlock ctx env mempool = .ok t) :
    ∃ cb chunks, t.block.vtx = cb :: t.assembler.vtx ∧ t.assembler.vtx = chunks.flatten.map CTxMemPoolEntry.tx ∧
      (∀ c ∈ chunks, c ∈ offered mempool) ∧ WithinLimits ctx t.assembler ∧
      ((∀ c ∈ offered mempool, ∀ e ∈ c, e.modifiedFee = e.nFee) → EachPays ctx chunks) ∧
      ∀ (cctx : ConnectContext) (view : CoinsView) (st : ConnectState), cctx.P = ctx.P →
        cctx.pindex.nHeight = ctx.nHeight → (∀ c ∈ offered mempool, ∀ e ∈ c, EntryExact cctx t.block view e) →
        t.block.vtx.zipIdx.foldlM (connectTx cctx) (ConnectState.start view) = .ok st → PaysLimit ctx cctx t cb st ∧
          ((∀ c ∈ offered mempool, ∀ e ∈ c, e.modifiedFee = e.nFee) →
            getBlockSubsidyForWeight ctx.nHeight 0 ctx.P ≤ (cb.vout.map CTxOut.value).sum ∧
              (t.assembler.vtx ≠ [] → getBlockSubsidyForWeight ctx.nHeight 0 ctx.P <
                (cb.vout.map CTxOut.value).sum)) := by
  obtain ⟨hselected, cb, hvtx, hcb, hvalue⟩ := createNewBlock_ok h
  obtain ⟨chunks, hoffered, htrace⟩ := selectTransactions_trace ctx mempool
  rw [← hselected] at htrace
  have hcounts : Counts (resetBlock ctx) chunks.flatten t.assembler := counts_of_trace (Counts.refl _) htrace
  have hincluded : t.assembler.vtx = chunks.flatten.map CTxMemPoolEntry.tx := hcounts.vtx
  have hpays : (∀ c ∈ offered mempool, ∀ e ∈ c, e.modifiedFee = e.nFee) → EachPays ctx chunks := fun hfee =>
    eachPays_of_trace (Counts.refl _) htrace fun c hc => hfee c (hoffered c hc)
  refine ⟨cb, chunks, hvtx, hincluded, hoffered, withinLimits_of_trace (withinLimits_reset ctx) htrace, hpays, ?_⟩
  intro cctx view st hP hheight hexact hloop
  have hentries : ∀ e ∈ chunks.flatten, EntryExact cctx t.block view e := by
    intro e he
    obtain ⟨c, hc, hec⟩ := mem_flatten.1 he
    exact hexact c (hoffered c hc) e hec
  have hblock : t.block.vtx = cb :: (chunks.flatten ++ []).map CTxMemPoolEntry.tx := by rw [append_nil, hvtx, hincluded]
  have hst : ConnectCounts st chunks.flatten := by
    rw [hvtx, hincluded] at hloop
    exact connectCounts_of_loop hcb hentries hblock hloop
  refine ⟨paysLimit_of_counts hP hheight hcounts hst hvalue, ?_⟩
  intro hfee
  have hempty : rewardOf ctx [] = getBlockSubsidyForWeight ctx.nHeight 0 ctx.P := zero_add _
  rw [← CTransaction.outputSum, hvalue, blockReward_eq hcounts, hst.reward_fits, ← hempty]
  obtain ⟨hle, hlt⟩ := (hpays hfee).reward_le
  refine ⟨hle, fun hne => hlt ?_⟩
  intro hchunks
  apply hne
  rw [hincluded, hchunks]
  rfl

end

/-! ## Concrete templates -/

section
attribute [local instance] toyCrypto

/-- the tip's coins: one, worth 2000005 -/
def smallTip : CoinsView :=
  CoinsView.empty.withCoin ⟨Uint256.ofNat 7, 0⟩
    (Coin.ofOutput (p2pkOutput 2000005 (Uint256.ofNat 1) toyKey_valid) 0 false) rfl

def smallContext (given : BlockCreateOptions) (h : checkMiningOptions given false = .ok (flattenMiningOptions given)) :
    AssemblerContext where
  P := mainParams
  script := plainEnv.script
  options := flattenMiningOptions given
  checked := ⟨given, h⟩
  nHeight := 1
  lockTimeCutoff := 1
  getIter _ := none
  coinsTip := smallTip

def smallEnv : TemplateEnv := ⟨CBlockHeader.null, true, fun _ => none⟩

theorem exists_template (ctx : AssemblerContext) (mempool : Option BlockBuilder) :
    ∃ t, createNewBlock ctx smallEnv mempool = .ok t := by
  cases h : createNewBlock ctx smallEnv mempool with
  | ok t => exact ⟨t, rfl⟩
  | error what =>
    obtain ⟨-, block, state, hstate, -⟩ := createNewBlock_error h
    cases hstate

/-- as much is reserved as the block may weigh -/
def fullContext : AssemblerContext := smallContext { blockReservedWeight := some 2000, blockMaxWeight := some 2000 } rfl

/-- An empty template whose counted weight is not below the limit. -/
theorem full_template : ∃ t, createNewBlock fullContext smallEnv none = .ok t ∧
    ¬ t.assembler.nBlockWeight < fullContext.options.blockMaxWeight := by
  obtain ⟨t, ht⟩ := exists_template fullContext none
  refine ⟨t, ht, ?_⟩
  rw [(createNewBlock_ok ht).1]
  decide

/-- a transaction that pays two million -/
def smallEntry : CTxMemPoolEntry where
  tx := bareSpend
  nFee := 2000000
  modifiedFee := 2000000
  nTxWeight := getTransactionWeight bareSpend
  sigOpCost := 1
  checked := by decide +kernel
  plain := rfl

def smallBuilder : BlockBuilder := .chunk [smallEntry] ⟨2000000, 400⟩ .finished .finished

/-- the block is connected above the genesis block -/
def smallConnect : ConnectContext where
  P := mainParams
  env := plainEnv
  pindex := (CBlockIndex.root CBlockHeader.null).child CBlockHeader.null
  pprev := CBlockIndex.root CBlockHeader.null

def defaultContext : AssemblerContext := smallContext {} rfl

/-- the template is two transactions, its loop ends, and the fee there is that of the entry -/
def smallRun (t : CBlockTemplate) : Bool :=
  (t.block.vtx.zipIdx.foldlM (connectTx smallConnect) (ConnectState.start smallTip)).isOk && match t.block.vtx with
    | [cb, tx] => tx == smallEntry.tx && cb != smallEntry.tx &&
        (connectTx smallConnect (ConnectState.start smallTip) (cb, 0)).toOption.any fun st =>
          checkTxInputs tx st.view 1 = .ok 2000000
    | _ => false

theorem smallRun_ok : (createNewBlock defaultContext smallEnv (some smallBuilder)).toOption.any smallRun = true := by
  decide +kernel

/-- what `smallRun` checks -/
structure SmallRun (t : CBlockTemplate) (cb : CTransaction) (st : ConnectState) : Prop where
  vtx : t.block.vtx = [cb, smallEntry.tx]
  ends : t.block.vtx.zipIdx.foldlM (connectTx smallConnect) (ConnectState.start smallTip) = .ok st
  cb_ne : cb ≠ smallEntry.tx
  fee : ∀ mid, connectTx smallConnect (ConnectState.start smallTip) (cb, 0) = .ok mid →
    checkTxInputs smallEntry.tx mid.view 1 = .ok 2000000

theorem smallRun_spec {t : CBlockTemplate} (h : smallRun t = true) : ∃ cb st, SmallRun t cb st := by
  rw [smallRun, Bool.and_eq_true] at h
  obtain ⟨hends, hvtx⟩ := h
  obtain ⟨st, hst⟩ := exists_ok hends
  split at hvtx
  · next cb tx heq =>
    simp only [Bool.and_eq_true, beq_iff_eq, bne_iff_ne] at hvtx
    obtain ⟨⟨rfl, hne⟩, hfee⟩ := hvtx
    refine ⟨cb, st, heq, hst, hne, ?_⟩
    intro mid hmid
    rw [hmid] at hfee
    simpa [Except.toOption] using hfee
  · cases hvtx

theorem SmallRun.exact {t : CBlockTemplate} {cb : CTransaction} {st : ConnectState} (h : SmallRun t cb st) :
    ∀ c ∈ offered (some smallBuilder), ∀ e ∈ c, EntryExact smallConnect t.block smallTip e := by
  intro c hc e he
  obtain rfl : c = [smallEntry] := by simpa [offered, smallBuilder, BlockBuilder.chunks] using hc
  obtain rfl := mem_singleton.1 he
  refine ⟨rfl, by decide +kernel, ?_⟩
  intro done rest mid fee hsplit hfold hinputs
  rw [h.vtx] at hsplit
  match done, hsplit with
  | [], hsplit => exact absurd (List.cons.inj hsplit).1 h.cb_ne
  | [d], hsplit =>
    obtain ⟨rfl, -⟩ := List.cons.inj hsplit
    rw [zipIdx_singleton, foldlM_cons_ok] at hfold
    obtain ⟨mid', hturn, hlast⟩ := hfold
    cases hlast
    exact Except.ok.inj ((h.fee _ hturn).symm.trans hinputs)
  | d :: d' :: done, hsplit =>
    have hlength := congrArg List.length hsplit
    simp at hlength

/-- The template with the transaction pays more than an empty one. -/
theorem small_template_pays : ∃ t cb, createNewBlock defaultContext smallEnv (some smallBuilder) = .ok t ∧
    t.block.vtx = [cb, smallEntry.tx] ∧ getBlockSubsidyForWeight 1 0 mainParams < (cb.vout.map CTxOut.value).sum := by
  obtain ⟨t, ht⟩ := exists_template defaultContext (some smallBuilder)
  have hrun := smallRun_ok
  rw [ht] at hrun
  obtain ⟨cb, st, hsmall⟩ := smallRun_spec hrun
  obtain ⟨cb', chunks, hvtx, -, -, -, -, hconnect⟩ := template_reward_exact ht
  obtain ⟨rfl, hbehind⟩ := List.cons.inj (hsmall.vtx.symm.trans hvtx)
  have hpriority : ∀ c ∈ offered (some smallBuilder), ∀ e ∈ c, e.modifiedFee = e.nFee := by
    intro c hc e he
    obtain rfl : c = [smallEntry] := by simpa [offered, smallBuilder, BlockBuilder.chunks] using hc
    obtain rfl := mem_singleton.1 he
    rfl
  obtain ⟨-, hgain⟩ := hconnect smallConnect smallTip st rfl rfl hsmall.exact hsmall.ends
  refine ⟨t, cb, ht, hsmall.vtx, (hgain hpriority).2 ?_⟩
  rw [← hbehind]
  exact cons_ne_nil _ _

end

end ConnectCoin
