/-
The script execution cache never changes a verdict (`CheckInputScripts`, `CheckInputsFromMempoolAndCache`).

Model: the cache is a set of digests. The digest of a call is over the salt, the wtxid, the flags and, only if a spent
coin is a pay-to-connect output, the verification time. An entry is written when all checks of a call were run and
passed and the caller asked for it; a call with deferred checks hands them out and writes nothing. Before each access
any entries may be lost (`keep`), which covers the cuckoo cache's evictions and the entries that a block marks as done.

- `ScriptCall`: one call of `CheckInputScripts` with all it reads; `ScriptOp` adds the mempool caller and its
  assertions.
- Invariant: a stored digest is that of a call of the history all of whose checks pass.
- `scriptCheck_time` is why the digest may leave the time out: it matters only for pay-to-connect outputs.

Result: `script_cache_transparent`. In every history each call, together with its deferred checks, ends as with an empty
cache.

Premises: the salted digests and the wtxids of the history do not collide; the coin behind an outpoint is the output
created by that txid, and txids do not collide (`ScriptCall.Genuine`). The signature cache is part of `ScriptEnv`, as a
function.
-/
import ConnectCoin.Chainstate.ConnectBlock
import ConnectCoin.Lib.Triple

namespace ConnectCoin

open Lib P2C List

/-! ## The cache -/

/-- `m_script_execution_cache`, and how often it was accessed -/
structure ScriptExecutionCache where
  entries : List Uint256
  accesses : ℕ

namespace ScriptExecutionCache

def empty : ScriptExecutionCache := ⟨[], 0⟩

variable (keep : ℕ → Uint256 → Bool)

/-- before each access some entries may be gone -/
def lose (cache : ScriptExecutionCache) : ScriptExecutionCache :=
  ⟨cache.entries.filter (keep cache.accesses), cache.accesses + 1⟩

/-- `contains`; to be erased later is only a mark -/
def contains (entry : Uint256) : StateM ScriptExecutionCache Bool := fun cache =>
  (decide (entry ∈ (cache.lose keep).entries), cache.lose keep)

/-- `insert` -/
def insert (entry : Uint256) : StateM ScriptExecutionCache Unit :=
  modify fun cache => { cache.lose keep with entries := entry :: (cache.lose keep).entries }

end ScriptExecutionCache

/-! ## One call -/

/-- bits of `STANDARD_NOT_MANDATORY_VERIFY_FLAGS` -/
def STANDARD_NOT_MANDATORY_VERIFY_FLAGS : UInt64 :=
  ([1, 3, 6, 7, 8, 12, 13, 14, 15, 16, 18, 19, 20] : List UInt64).foldl
    (fun flags bit => flags ||| (1 : UInt64) <<< bit) 0

section
variable [Crypto]

/-- a `CScriptCheck`; the signature cache is in the environment -/
structure CScriptCheck where
  out : CTxOut
  /-- `txdata.m_spent_outputs` -/
  spent : List CTxOut
  tx : CTransaction
  nIn : UInt32
  p2cValidationTime : Int64

/-- the parameters of `CheckInputScripts` -/
structure ScriptCall where
  tx : CTransaction
  inputs : CoinsView
  flags : UInt64
  cacheFullScriptStore : Bool
  /-- `txdata.m_spent_outputs`, if ready -/
  spentOutputs : Option (List CTxOut)
  /-- the checks are pushed for later instead of being run -/
  pvChecks : Bool
  p2cValidationTime : Int64

def CScriptCheck.run (env : ScriptEnv) (check : CScriptCheck) : Option ScriptFailure :=
  scriptCheck env check.out check.spent check.tx check.nIn check.p2cValidationTime

namespace ScriptCall

/-- a spent coin is a pay-to-connect output -/
def spendsP2C (call : ScriptCall) : Bool :=
  call.tx.vin.any fun txin => (call.inputs.coins.lookup txin.prevout).any fun coin => coin.out.type == .PAY_TO_CONNECT

/-- what the salted hasher is fed -/
def cacheMessage (nonce : Uint256) (call : ScriptCall) : Bytes :=
  nonce.bytes ++ nonce.bytes ++ call.tx.getWitnessHash.bytes ++ leBytes 8 call.flags.toNat ++
    (if call.spendsP2C then leBytes 8 call.p2cValidationTime.toUInt64.toNat else [])

/-- `hashCacheEntry` -/
def hashCacheEntry (nonce : Uint256) (call : ScriptCall) : Uint256 := Crypto.sha256 (call.cacheMessage nonce)

/-- the outputs in the view that the inputs spend; none if a coin is missing -/
def viewOutputs (call : ScriptCall) : Option (List CTxOut) :=
  call.tx.vin.mapM fun txin => (call.inputs.coins.lookup txin.prevout).map Coin.out

/-- the checks of the call; none where an assertion fails -/
def checks (call : ScriptCall) : Option (List CScriptCheck) := do
  let outputs ← call.spentOutputs.orElse fun _ => call.viewOutputs
  if outputs.length = call.tx.vin.length then
    some (outputs.zipIdx.map fun output => ⟨output.1, outputs, call.tx, UInt32.ofNat output.2, call.p2cValidationTime⟩)
  else none

/-- the state set for a failed check -/
def failed (call : ScriptCall) (failure : ScriptFailure) : TxFailure :=
  if call.flags &&& STANDARD_NOT_MANDATORY_VERIFY_FLAGS ≠ 0 then
    .invalid ⟨.TX_NOT_STANDARD, "mempool-script-verify-flag-failed (" ++ failure.error.toString ++ ")", failure.debug⟩
  else .invalid ⟨.TX_CONSENSUS, "block-script-verify-flag-failed (" ++ failure.error.toString ++ ")", failure.debug⟩

variable (env : ScriptEnv)

/-- the loop over the inputs, and the new entry: the checks pushed for later -/
def runChecks (nonce : Uint256) (keep : ℕ → Uint256 → Bool) (call : ScriptCall)
    (checks : List CScriptCheck) : StateM ScriptExecutionCache (Except TxFailure (List CScriptCheck)) :=
  if call.pvChecks then pure (.ok checks)
  else
    match checks.findSome? (CScriptCheck.run env) with
    | some failure => pure (.error (call.failed failure))
    | none =>
      if call.cacheFullScriptStore then do
        ScriptExecutionCache.insert keep (call.hashCacheEntry nonce)
        pure (.ok [])
      else pure (.ok [])

/-- `CheckInputScripts` -/
def checkInputScripts (nonce : Uint256) (keep : ℕ → Uint256 → Bool) (call : ScriptCall) :
    StateM ScriptExecutionCache (Except TxFailure (List CScriptCheck)) :=
  if call.tx.isCoinBase then pure (.ok [])
  else if call.spendsP2C && decide (call.p2cValidationTime ≤ 0) then
    pure (.error (.invalid (txConsensus "p2c-validation-time-unavailable" "")))
  else do
    let cached ← ScriptExecutionCache.contains keep (call.hashCacheEntry nonce)
    if cached then pure (.ok [])
    else
      match call.checks with
      | none => pure (.error (.exception "assertion failed in CheckInputScripts"))
      | some checks => call.runChecks env nonce keep checks

/-- the deferred checks are run: those that fail -/
def settle (result : Except TxFailure (List CScriptCheck)) : Except TxFailure (List ScriptFailure) :=
  result.map fun checks => checks.filterMap (CScriptCheck.run env)

end ScriptCall

/-! ## Callers -/

/-- a call, directly or through `CheckInputsFromMempoolAndCache` with the mempool and the coins of the tip -/
inductive ScriptOp where
  | check (call : ScriptCall)
  | mempool (call : ScriptCall) (pool : Uint256 → Option CTransaction) (coinsTip : CoinsView)

/-- the assertions about one input of a mempool transaction -/
def mempoolInputFault (call : ScriptCall) (pool : Uint256 → Option CTransaction) (coinsTip : CoinsView) (txin : CTxIn) :
    Option TxFailure :=
  match call.inputs.coins.lookup txin.prevout with
  | none => some (.exception "assumption failed: !coin.IsSpent()")
  | some coin =>
    match pool txin.prevout.hash with
    | some txFrom =>
      if txFrom.getHash = txin.prevout.hash ∧ txFrom.vout[txin.prevout.n.toNat]? = some coin.out then none
      else some (.exception "assertion failed in CheckInputsFromMempoolAndCache")
    | none =>
      if (coinsTip.coins.lookup txin.prevout).map Coin.out = some coin.out then none
      else some (.exception "assertion failed in CheckInputsFromMempoolAndCache")

namespace ScriptOp

/-- the call of `CheckInputScripts` that is made -/
def call : ScriptOp → ScriptCall
  | .check call => call
  | .mempool call _ _ => { call with cacheFullScriptStore := true, pvChecks := false }

/-- what is checked before it -/
def fault : ScriptOp → Option TxFailure
  | .check _ => none
  | .mempool call pool coinsTip =>
    if call.tx.isCoinBase then some (.exception "assertion failed: !tx.IsCoinBase()")
    else call.tx.vin.findSome? (mempoolInputFault call pool coinsTip)

/-- the caller, with the checks that it defers run afterwards -/
def run (env : ScriptEnv) (nonce : Uint256) (keep : ℕ → Uint256 → Bool) (op : ScriptOp) :
    StateM ScriptExecutionCache (Except TxFailure (List ScriptFailure)) :=
  match op.fault with
  | some failure => pure (.error failure)
  | none => ScriptCall.settle env <$> op.call.checkInputScripts env nonce keep

/-- the verdict with an empty cache -/
def verdict (env : ScriptEnv) (nonce : Uint256) (op : ScriptOp) : Except TxFailure (List ScriptFailure) :=
  ((op.run env nonce fun _ _ => true).run ScriptExecutionCache.empty).1

end ScriptOp

/-! ## What a digest stands for -/

variable {call : ScriptCall}

namespace ScriptCall

variable {created : Set CTransaction} {nonce : Uint256} {a b : ScriptCall}

/-- The digest's preimage determines wtxid and flags, and the time for a call that spends a pay-to-connect output. -/
theorem cacheMessage_inj (h : a.cacheMessage nonce = b.cacheMessage nonce) :
    a.tx.getWitnessHash = b.tx.getWitnessHash ∧ a.spendsP2C = b.spendsP2C ∧
      (a.spendsP2C = true → a.p2cValidationTime = b.p2cValidationTime) := by
  unfold cacheMessage at h
  simp only [append_assoc] at h
  obtain ⟨-, h⟩ := append_inj h rfl
  obtain ⟨-, h⟩ := append_inj h rfl
  obtain ⟨hwtxid, h⟩ := append_inj h (by simp)
  obtain ⟨-, h⟩ := append_inj h (by simp)
  refine ⟨Uint256.bytes_inj.1 hwtxid, ?_⟩
  have hlength := congrArg List.length h
  cases ha : a.spendsP2C <;> cases hb : b.spendsP2C <;> simp [ha, hb] at h hlength ⊢
  have hnat := leBytes_inj (by exact UInt64.toNat_lt _) (by exact UInt64.toNat_lt _) h
  exact Int64.toBitVec_inj.1 (congrArg UInt64.toBitVec (UInt64.toNat_inj.1 hnat))

/-- The coin behind each input is the output created by that txid, and prepared outputs are those of the view. -/
structure Genuine (created : Set CTransaction) (call : ScriptCall) : Prop where
  coins : ∀ txin ∈ call.tx.vin, ∃ coin, call.inputs.coins.lookup txin.prevout = some coin ∧
    ∃ t ∈ created, t.getHash = txin.prevout.hash ∧ t.vout[txin.prevout.n.toNat]? = some coin.out
  prepared : ∀ outputs, call.spentOutputs = some outputs → call.viewOutputs = some outputs

/-- Two genuine calls for one transaction find the same outputs behind its inputs. -/
theorem Genuine.viewOutputs_eq (htxid : Set.InjOn CTransaction.getHash created) (ha : a.Genuine created)
    (hb : b.Genuine created) (htx : a.tx = b.tx) : a.viewOutputs = b.viewOutputs := by
  have hout : ∀ txin ∈ a.tx.vin,
      (a.inputs.coins.lookup txin.prevout).map Coin.out = (b.inputs.coins.lookup txin.prevout).map Coin.out := by
    intro txin hin
    obtain ⟨coin, hcoin, t, ht, hhash, hout⟩ := ha.coins txin hin
    obtain ⟨coin', hcoin', t', ht', hhash', hout'⟩ := hb.coins txin (htx ▸ hin)
    obtain rfl := htxid ht ht' (hhash.trans hhash'.symm)
    rw [hcoin, hcoin', Option.map_some, Option.map_some, ← hout, ← hout']
  unfold viewOutputs
  rw [← htx]
  exact mapM_congr hout

/-- A genuine call checks the outputs of its view, each once. -/
theorem Genuine.checks_eq (h : call.Genuine created) : ∃ outputs, call.viewOutputs = some outputs ∧ call.checks =
      some (outputs.zipIdx.map fun output => ⟨output.1, outputs, call.tx, UInt32.ofNat output.2,
      call.p2cValidationTime⟩) := by
  have hview : ∃ outputs, call.viewOutputs = some outputs := by
    apply exists_mapM_eq_some
    intro txin hin
    obtain ⟨coin, hcoin, -⟩ := h.coins txin hin
    exact ⟨coin.out, by rw [hcoin, Option.map_some]⟩
  obtain ⟨outputs, hview⟩ := hview
  refine ⟨outputs, hview, ?_⟩
  have hlength : outputs.length = call.tx.vin.length := (mapM_eq_some.1 hview).length_eq.symm
  have hready : (call.spentOutputs.orElse fun _ => call.viewOutputs) = some outputs := by
    cases hprepared : call.spentOutputs with
    | none => exact hview
    | some outputs' => exact (h.prepared outputs' hprepared).symm.trans hview
  unfold checks
  rw [hready]
  exact if_pos hlength

variable (env : ScriptEnv)

/-- every check of the call passes -/
def Passes (call : ScriptCall) : Prop := ∀ checks, call.checks = some checks → ∀ check ∈ checks, check.run env = none

theorem type_of_not_spendsP2C (h : call.spendsP2C = false) {outputs : List CTxOut}
    (houtputs : call.viewOutputs = some outputs) : ∀ out ∈ outputs, out.type ≠ .PAY_TO_CONNECT := by
  intro out hout htype
  obtain ⟨txin, hin, hlookup⟩ := exists_of_mem_mapM houtputs hout
  obtain ⟨coin, hcoin, rfl⟩ := Option.map_eq_some_iff.1 hlookup
  have hspends : call.spendsP2C = true := by
    unfold spendsP2C
    rw [any_eq_true]
    exact ⟨txin, hin, by simp [hcoin, htype]⟩
  rw [h] at hspends
  cases hspends

/-- A verdict may be reused under the same digest. -/
theorem Passes.reuse {env : ScriptEnv} (htxid : Set.InjOn CTransaction.getHash created) (ha : a.Genuine created)
    (hb : b.Genuine created) (htx : a.tx = b.tx) (hmessage : a.cacheMessage nonce = b.cacheMessage nonce)
    (h : a.Passes env) : b.Passes env := by
  obtain ⟨-, hspends, htime⟩ := cacheMessage_inj hmessage
  obtain ⟨outputs, hview, hchecks⟩ := ha.checks_eq
  obtain ⟨outputs', hview', hchecks'⟩ := hb.checks_eq
  obtain rfl : outputs = outputs' := by
    rw [ha.viewOutputs_eq htxid hb htx, hview'] at hview
    exact (Option.some.inj hview).symm
  intro checks hb' check hcheck
  rw [hchecks'] at hb'
  cases hb'
  obtain ⟨⟨out, i⟩, hin, rfl⟩ := mem_map.1 hcheck
  have hpassed := h _ hchecks _ (mem_map.2 ⟨(out, i), hin, rfl⟩)
  rw [← hpassed]
  dsimp only [CScriptCheck.run]
  rw [htx]
  cases hp2c : a.spendsP2C with
  | true => rw [htime hp2c]
  | false =>
    -- no spent output is a pay-to-connect output, so the times need not agree
    have hmem : out ∈ outputs := fst_mem_of_mem_zipIdx hin
    exact scriptCheck_time env (type_of_not_spendsP2C hp2c hview out hmem) _ _ _ _ _

/-! ## Every history -/

/-- a stored digest is that of a call of the history which passes -/
def Stored (nonce : Uint256) (calls : Set ScriptCall) (cache : ScriptExecutionCache) : Prop :=
  ∀ entry ∈ cache.entries, ∃ call ∈ calls, entry = call.hashCacheEntry nonce ∧ call.Passes env

/-- the verdict of the checks -/
def checksVerdict (call : ScriptCall) (checks : List CScriptCheck) : Except TxFailure (List ScriptFailure) :=
  if call.pvChecks then .ok (checks.filterMap (CScriptCheck.run env))
  else
    match checks.findSome? (CScriptCheck.run env) with
    | some failure => .error (call.failed failure)
    | none => .ok []

/-- the verdict without looking at any cache -/
def plainVerdict (call : ScriptCall) : Except TxFailure (List ScriptFailure) :=
  if call.tx.isCoinBase then .ok []
  else if call.spendsP2C && decide (call.p2cValidationTime ≤ 0) then
    .error (.invalid (txConsensus "p2c-validation-time-unavailable" ""))
  else
    match call.checks with
    | none => .error (.exception "assertion failed in CheckInputScripts")
    | some checks => call.checksVerdict env checks

section
variable {env : ScriptEnv} {nonce : Uint256} {calls : Set ScriptCall} {keep : ℕ → Uint256 → Bool}

theorem Stored.lose {cache : ScriptExecutionCache} (h : Stored env nonce calls cache) :
    Stored env nonce calls (cache.lose keep) :=
  fun entry he => h entry (mem_of_mem_filter he)

theorem contains_triple (entry : Uint256) :
    Triple (Stored env nonce calls) (ScriptExecutionCache.contains keep entry) fun cached s =>
    (cached = true → ∃ call ∈ calls, entry = call.hashCacheEntry nonce ∧ call.Passes env) ∧
      Stored env nonce calls s := by
  intro s hs
  refine ⟨?_, hs.lose⟩
  intro hcached
  exact hs.lose entry (of_decide_eq_true hcached)

theorem insert_triple (hcall : call ∈ calls) (hpasses : call.Passes env) :
    Triple (Stored env nonce calls) (ScriptExecutionCache.insert keep (call.hashCacheEntry nonce)) fun _ s =>
      Stored env nonce calls s := by
  apply Triple.modify
  intro s hs entry he
  rcases mem_cons.1 he with rfl | he
  · exact ⟨call, hcall, rfl, hpasses⟩
  · exact hs.lose entry he

theorem checksVerdict_of_passes {checks : List CScriptCheck} (hpasses : ∀ check ∈ checks, check.run env = none) :
    call.checksVerdict env checks = .ok [] := by
  have hsome : checks.findSome? (CScriptCheck.run env) = none := findSome?_eq_none_iff.2 hpasses
  have hfilter : checks.filterMap (CScriptCheck.run env) = [] := filterMap_eq_nil_iff.2 hpasses
  unfold checksVerdict
  rw [hsome, hfilter]
  cases call.pvChecks <;> rfl

/-- Running the checks gives their verdict and stores no digest but that of a call that passes. -/
theorem runChecks_answers (hcall : call ∈ calls) {checks : List CScriptCheck} (hchecks : call.checks = some checks) :
    Answers (Stored env nonce calls) (settle env <$> call.runChecks env nonce keep checks)
    (call.checksVerdict env checks) := by
  unfold runChecks checksVerdict
  by_cases hpush : call.pvChecks = true
  · rw [if_pos hpush, if_pos hpush]
    exact Answers.map Answers.pure
  rw [if_neg hpush, if_neg hpush]
  cases hfail : checks.findSome? (CScriptCheck.run env) with
  | some failure => exact Answers.map Answers.pure
  | none =>
    dsimp only
    by_cases hstore : call.cacheFullScriptStore = true
    · rw [if_pos hstore]
      have hpasses : call.Passes env := by
        intro checks' hchecks' check hcheck
        rw [hchecks] at hchecks'
        cases hchecks'
        exact findSome?_eq_none_iff.1 hfail check hcheck
      refine Answers.map (f := settle env) (a := .ok []) ?_
      exact Triple.bind (insert_triple hcall hpasses) fun _ => Answers.pure
    · rw [if_neg hstore]
      exact Answers.map Answers.pure

/-- **One call.** From any cache that the history can leave, the verdict is the one without a cache. -/
theorem checkInputScripts_answers {created : Set CTransaction} (htxid : Set.InjOn CTransaction.getHash created)
    (hgenuine : ∀ call ∈ calls, call.Genuine created) (hsalt : Set.InjOn Crypto.sha256 (cacheMessage nonce '' calls))
    (hwtxid : Set.InjOn CTransaction.getWitnessHash (tx '' calls)) (hcall : call ∈ calls) :
    Answers (Stored env nonce calls) (settle env <$> call.checkInputScripts env nonce keep)
    (call.plainVerdict env) := by
  unfold checkInputScripts plainVerdict
  split_ifs with hcoinbase htime
  · exact Answers.map Answers.pure
  · exact Answers.map Answers.pure
  rw [map_bind]
  refine Triple.bind (contains_triple (call.hashCacheEntry nonce)) fun cached => Triple.of_fact ?_
  intro hcached
  obtain ⟨outputs, hview, hchecks⟩ := (hgenuine call hcall).checks_eq
  cases cached with
  | false =>
    rw [if_neg Bool.false_ne_true, hchecks]
    exact runChecks_answers hcall hchecks
  | true =>
    obtain ⟨other, hother, hentry, hpasses⟩ := hcached rfl
    have hmessage : other.cacheMessage nonce = call.cacheMessage nonce :=
      hsalt (Set.mem_image_of_mem _ hother) (Set.mem_image_of_mem _ hcall) hentry.symm
    have htx : other.tx = call.tx :=
      hwtxid (Set.mem_image_of_mem _ hother) (Set.mem_image_of_mem _ hcall) (cacheMessage_inj hmessage).1
    have hreused := hpasses.reuse htxid (hgenuine other hother) (hgenuine call hcall) htx hmessage
    rw [if_pos rfl, hchecks]
    dsimp only
    rw [checksVerdict_of_passes (hreused _ hchecks)]
    exact Answers.map Answers.pure

end

end ScriptCall

/-! ## Whole histories -/

/-- the calls of a history that reach the cache: the caller's assertions hold and the transaction is no coinbase -/
def madeCalls (history : List ScriptOp) : Set ScriptCall :=
  {call | ∃ op ∈ history, op.fault = none ∧ call.tx.isCoinBase = false ∧ op.call = call}

section
variable {env : ScriptEnv} {nonce : Uint256} {history : List ScriptOp} {created : Set CTransaction}

/-- One answer for every cache that the history can leave, the empty one among them. -/
theorem ScriptOp.exists_answer (htxid : Set.InjOn CTransaction.getHash created)
    (hgenuine : ∀ call ∈ madeCalls history, call.Genuine created)
    (hsalt : Set.InjOn Crypto.sha256 (ScriptCall.cacheMessage nonce '' madeCalls history))
    (hwtxid : Set.InjOn CTransaction.getWitnessHash (ScriptCall.tx '' madeCalls history)) {op : ScriptOp}
    (hop : op ∈ history) :
    ∃ answer, ∀ keep, Answers (ScriptCall.Stored env nonce (madeCalls history)) (op.run env nonce keep) answer := by
  unfold ScriptOp.run
  cases hfault : op.fault with
  | some failure => exact ⟨_, fun _ => Answers.pure⟩
  | none =>
    cases hcoinbase : op.call.tx.isCoinBase with
    | true =>
      refine ⟨.ok [], fun keep => ?_⟩
      unfold ScriptCall.checkInputScripts
      rw [if_pos hcoinbase]
      exact Answers.map Answers.pure
    | false =>
      have hcall : op.call ∈ madeCalls history := ⟨op, hop, hfault, hcoinbase, rfl⟩
      exact ⟨_, fun keep => ScriptCall.checkInputScripts_answers htxid hgenuine hsalt hwtxid hcall⟩

end

/-- **The script execution cache is transparent.** In every history of calls, with any flags, times, store and deferral
options, from blocks or the mempool, and with any loss of entries, each call together with its deferred checks ends as
with an empty cache. -/
theorem script_cache_transparent (env : ScriptEnv) (nonce : Uint256) (keep : ℕ → Uint256 → Bool)
    (history : List ScriptOp) (created : Set CTransaction) (htxid : Set.InjOn CTransaction.getHash created)
    (hgenuine : ∀ call ∈ madeCalls history, call.Genuine created)
    (hsalt : Set.InjOn Crypto.sha256 (ScriptCall.cacheMessage nonce '' madeCalls history))
    (hwtxid : Set.InjOn CTransaction.getWitnessHash (ScriptCall.tx '' madeCalls history)) :
    ((history.mapM (ScriptOp.run env nonce keep)).run ScriptExecutionCache.empty).1 =
      history.map (ScriptOp.verdict env nonce) := by
  have hempty : ScriptCall.Stored env nonce (madeCalls history) ScriptExecutionCache.empty :=
    fun _ he => absurd he not_mem_nil
  have hverdict : ∀ op ∈ history,
      Answers (ScriptCall.Stored env nonce (madeCalls history)) (op.run env nonce keep) (op.verdict env nonce) := by
    intro op hop
    obtain ⟨answer, hanswer⟩ := ScriptOp.exists_answer htxid hgenuine hsalt hwtxid hop
    have hverdict : op.verdict env nonce = answer := (hanswer (fun _ _ => true) _ hempty).1
    rw [hverdict]
    exact hanswer keep
  exact (Answers.mapM hverdict _ hempty).1

end

section
attribute [local instance] toyCrypto

def cachedOutput : CTxOut where
  type := .P2PK
  p2pkPubkey := Uint256.ofNat 1
  nValue := 5
  scriptPubKey := OP_1 :: 32 :: (Uint256.ofNat 1).bytes
  key_valid := by decide
  key_null := by simp

/-- one input with a signature of 64 bytes -/
def cachedSpend (prevout : COutPoint) : CTransaction where
  vin := [⟨prevout, [], 0, [List.replicate 64 1]⟩]
  vout := [cachedOutput]
  version := 2
  nLockTime := 0
  payloads := by decide
  vin_size := by simp
  vout_size := by decide
  scriptSig_size := by simp
  stack_size := by
    intro i hi
    obtain rfl := mem_singleton.1 hi
    simp

def cachedParent : CTransaction := cachedSpend ⟨Uint256.ofNat 7, 0⟩

def cachedCall : ScriptCall where
  tx := cachedSpend ⟨cachedParent.getHash, 0⟩
  inputs := CoinsView.empty.withCoin ⟨cachedParent.getHash, 0⟩ ⟨cachedOutput, false, 1, by decide⟩ rfl
  flags := 0
  cacheFullScriptStore := true
  spentOutputs := none
  pvChecks := false
  p2cValidationTime := 100

theorem cachedCall_genuine : cachedCall.Genuine {cachedParent} := by
  refine ⟨?_, by simp [cachedCall]⟩
  intro txin hin
  obtain rfl := mem_singleton.1 hin
  exact ⟨⟨cachedOutput, false, 1, by decide⟩, Finmap.lookup_insert _, cachedParent, rfl, rfl, rfl⟩

theorem madeCalls_cachedCall : madeCalls [.check cachedCall, .check cachedCall] ⊆ {cachedCall} := by
  intro call hcall
  obtain ⟨op, hop, -, -, rfl⟩ := hcall
  simp only [mem_cons, not_mem_nil, or_false, or_self] at hop
  rw [hop]
  rfl

/-- The second call is answered from the cache. -/
theorem cachedCall_transparent : ((([ScriptOp.check cachedCall, ScriptOp.check cachedCall]).mapM
      (ScriptOp.run plainEnv.script Uint256.null fun _ _ => true)).run ScriptExecutionCache.empty).1 =
      [ScriptOp.verdict plainEnv.script Uint256.null (.check cachedCall),
      ScriptOp.verdict plainEnv.script Uint256.null (.check cachedCall)] ∧
    (ScriptOp.verdict plainEnv.script Uint256.null (.check cachedCall)).toBool = true := by
  have hone := Set.subsingleton_singleton.anti madeCalls_cachedCall
  refine ⟨?_, by decide +kernel⟩
  exact script_cache_transparent plainEnv.script Uint256.null (fun _ _ => true) [.check cachedCall,
    .check cachedCall] {cachedParent}
    (Set.injOn_singleton _ _) (fun call hcall => by rw [madeCalls_cachedCall hcall]; exact cachedCall_genuine)
    ((hone.image _).injOn _) ((hone.image _).injOn _)

end

end ConnectCoin
