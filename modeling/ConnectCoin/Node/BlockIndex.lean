/-
How headers enter the block index (`AddToBlockIndex` in `node/blockstorage.cpp`; `AcceptBlockHeader`,
`ProcessNewBlockHeaders`, `AcceptBlock` and `ProcessNewBlock` in `validation.cpp`).

- `BlockIndex`: the entries; the key of an entry is its hash (`lookupBlockIndex`).
- `HeaderEnv`: what a call finds around it, arbitrary in every call: which entries are marked invalid, and the verdict
  of the checks against the headers before and the clock (`ContextualCheckBlockHeader`).
- A failed assertion on the RandomX key is `HeaderFailure.assertion`: the program stops there.
Left out: what does not change which headers are indexed (block files, best header, notifications, the checks of
`AcceptBlock` behind the header).
-/
import ConnectCoin.Consensus.BlockCheck

namespace ConnectCoin

open Lib

section
variable [Crypto]

/-! ## The index -/

abbrev BlockIndex := List CBlockIndex

/-- `LookupBlockIndex` -/
def lookupBlockIndex (index : BlockIndex) (hash : Uint256) : Option CBlockIndex :=
  index.find? fun e => e.getBlockHash == hash

/-- `AddToBlockIndex` -/
def addToBlockIndex (index : BlockIndex) (block : CBlockHeader) : BlockIndex :=
  match lookupBlockIndex index block.getHash with
  | some _ => index
  | none =>
    match lookupBlockIndex index block.hashPrevBlock with
    | some prev => index ++ [prev.child block]
    | none => index ++ [CBlockIndex.root block]

variable {index index' : BlockIndex} {block : CBlockHeader} {P : Params} {e : CBlockIndex}

theorem lookup_some {hash : Uint256} (h : lookupBlockIndex index hash = some e) : e ∈ index ∧ e.getBlockHash = hash :=
  ⟨List.mem_of_find?_eq_some h, by simpa using List.find?_some h⟩

/-- an entry with the hash is found, though perhaps another one with the same hash -/
theorem lookup_ne_none (he : e ∈ index) : lookupBlockIndex index e.getBlockHash ≠ none := by
  intro h
  have hall := List.find?_eq_none.1 h e he
  simp at hall

/-! ## Accepting headers -/

/-- what a call finds around it -/
structure HeaderEnv where
  /-- `nStatus & BLOCK_FAILED_VALID` of the entry with this hash -/
  failedValid : Uint256 → Bool
  /-- `ContextualCheckBlockHeader` of a header after this entry -/
  contextualCheckBlockHeader : CBlockIndex → CBlockHeader → Except BlockInvalid Unit

/-- a rejection, or a failed assertion -/
inductive HeaderFailure where
  | invalid (state : BlockInvalid)
  | assertion
  deriving DecidableEq

/-- the checks of `AcceptBlockHeader` on a header that is new and not the genesis header -/
def checkNewHeader (P : Params) (env : HeaderEnv) (index : BlockIndex) (block : CBlockHeader) (powChecked : Bool) :
    Except HeaderFailure Unit :=
  match lookupBlockIndex index block.hashPrevBlock with
  | none => .error (.invalid ⟨.BLOCK_MISSING_PREV, "prev-blk-not-found", ""⟩)
  | some pindexPrev => do
    refuseIf (env.failedValid pindexPrev.getBlockHash) (.invalid ⟨.BLOCK_INVALID_PREV, "bad-prevblk", ""⟩)
    match getRandomXKey P (some pindexPrev) with
    | none => .error .assertion
    | some randomxKey => do
      (checkBlockHeader P block randomxKey (pindexPrev.nHeight + 1) (!powChecked)).mapError .invalid
      (env.contextualCheckBlockHeader pindexPrev block).mapError .invalid

/-- the end of `AcceptBlockHeader` -/
def addHeader (index : BlockIndex) (block : CBlockHeader) (minPowChecked : Bool) : Except HeaderFailure BlockIndex := do
  refuseIf (!minPowChecked) (.invalid ⟨.BLOCK_HEADER_LOW_WORK, "too-little-chainwork", ""⟩)
  return addToBlockIndex index block

/-- `AcceptBlockHeader`: the index afterwards -/
def acceptBlockHeader (P : Params) (env : HeaderEnv) (index : BlockIndex) (block : CBlockHeader)
    (minPowChecked powChecked : Bool) : Except HeaderFailure BlockIndex :=
  let hash := block.getHash
  if hash = P.hashGenesisBlock then addHeader index block minPowChecked
  else match lookupBlockIndex index hash with
    | some _ =>
      if env.failedValid hash then
        .error (.invalid ⟨.BLOCK_CACHED_INVALID, "duplicate-invalid",
          "block " ++ hash.toString ++ " was previously marked invalid"⟩)
      else .ok index
    | none => do
      checkNewHeader P env index block powChecked
      addHeader index block minPowChecked

/-- `ProcessNewBlockHeaders`: the index afterwards, and whether all headers were accepted -/
def processNewBlockHeaders (P : Params) (env : HeaderEnv) (minPowChecked powChecked : Bool) :
    BlockIndex → List CBlockHeader → BlockIndex × Bool
  | index, [] => (index, true)
  | index, header :: headers =>
    match acceptBlockHeader P env index header minPowChecked powChecked with
    | .error _ => (index, false)
    | .ok index => processNewBlockHeaders P env minPowChecked powChecked index headers

/-! ## Blocks -/

/-- `AcceptBlock`, as far as it changes the index -/
def acceptBlock (P : Params) (env : HeaderEnv) (index : BlockIndex) (block : CBlock) (minPowChecked powChecked : Bool) :
    BlockIndex :=
  match acceptBlockHeader P env index block.header minPowChecked powChecked with
  | .error _ => index
  | .ok index => index

/-- `ProcessNewBlock`, as far as it changes the index: the proof of work is checked with the body and not again with the
header -/
def processNewBlock (P : Params) (checkSignetBlockSolution : CBlock → Bool) (env : HeaderEnv) (index : BlockIndex)
    (block : CBlock) (minPowChecked : Bool) : BlockIndex :=
  let pindexPrev := lookupBlockIndex index block.header.hashPrevBlock
  let isGenesis := block.header.getHash == P.hashGenesisBlock
  if !isGenesis && pindexPrev.isNone then index
  else match getRandomXKey P pindexPrev with
    | none => index
    | some randomxKey =>
      match checkBlock P checkSignetBlockSolution block true true (some randomxKey) (nextHeight pindexPrev) with
      | .error _ => index
      | .ok block => acceptBlock P env index block minPowChecked true

/-! ## What acceptance means -/

/-- h has the work that the key schedule asks for after b -/
def PowAfter (P : Params) (b : CBlockIndex) (h : CBlockHeader) : Prop :=
  ∃ key, getRandomXKey P (some b) = some key ∧ checkProofOfWork P h key (b.nHeight + 1) = true

variable {env : HeaderEnv} {powChecked minPowChecked : Bool}

/-- A new header is checked against an indexed predecessor: either its work is, or the caller said that it was. -/
theorem checkNewHeader_ok {u : Unit} (h : checkNewHeader P env index block powChecked = .ok u) :
    ∃ prev, lookupBlockIndex index block.hashPrevBlock = some prev ∧ (powChecked = false → PowAfter P prev block) := by
  unfold checkNewHeader at h
  cases hprev : lookupBlockIndex index block.hashPrevBlock with
  | none => simp [hprev] at h
  | some prev =>
    simp only [hprev, bind_ok] at h
    obtain ⟨_, _, hkey⟩ := h
    refine ⟨prev, rfl, fun hflag => ?_⟩
    cases hk : getRandomXKey P (some prev) with
    | none => simp [hk] at hkey
    | some key =>
      simp only [hk, bind_ok, mapError_ok, checkBlockHeader, refuseIf_ok, hflag] at hkey
      obtain ⟨_, hpow, _⟩ := hkey
      exact ⟨key, hk, by simpa using hpow⟩

theorem addHeader_ok (h : addHeader index block minPowChecked = .ok index') : index' = addToBlockIndex index block := by
  simp only [addHeader, bind_ok, pure, Except.pure, Except.ok.injEq] at h
  obtain ⟨_, _, rfl⟩ := h
  rfl

/-- An accepted header is the genesis header, is known, or is new after an indexed predecessor. -/
theorem acceptBlockHeader_ok (h : acceptBlockHeader P env index block minPowChecked powChecked = .ok index') :
    (block.getHash = P.hashGenesisBlock ∧ index' = addToBlockIndex index block) ∨ index' = index ∨
    (∃ prev, lookupBlockIndex index block.hashPrevBlock = some prev ∧ (powChecked = false → PowAfter P prev block) ∧
      index' = index ++ [prev.child block]) := by
  unfold acceptBlockHeader at h
  by_cases hgen : block.getHash = P.hashGenesisBlock
  · rw [if_pos hgen] at h
    exact Or.inl ⟨hgen, addHeader_ok h⟩
  · rw [if_neg hgen] at h
    cases hknown : lookupBlockIndex index block.getHash with
    | some e =>
      simp only [hknown, ite_error_ok, Except.ok.injEq] at h
      exact Or.inr (Or.inl h.2.symm)
    | none =>
      simp only [hknown, bind_ok] at h
      obtain ⟨_, hcheck, hadd⟩ := h
      obtain ⟨prev, hprev, hpow⟩ := checkNewHeader_ok hcheck
      refine Or.inr (Or.inr ⟨prev, hprev, hpow, ?_⟩)
      rw [addHeader_ok hadd, addToBlockIndex, hknown, hprev]

/-- A block checked with its work keeps its header, and the work is checked whatever the cached flags say. -/
theorem checkBlock_header {signet : CBlock → Bool} {block b : CBlock} {key : Uint256} {height : ℕ}
    (h : checkBlock P signet block true true (some key) height = .ok b) :
    b.header = block.header ∧ checkProofOfWork P block.header key height = true := by
  simp only [checkBlock, Bool.not_true, Bool.and_false, Bool.false_eq_true, if_false, if_true, bind_ok,
    checkBlockHeader, refuseIf_ok, Option.getD_some, Bool.true_and, Bool.not_eq_false', Bool.false_and, pure,
    Except.pure, Except.ok.injEq] at h
  obtain ⟨_, hpow, _, _, b', hb', _, _, rfl⟩ := h
  exact ⟨(checkMerkleRoot_same hb').2, hpow⟩

/-- Either the index stays, or an accepted header was checked at the place where it is indexed. -/
theorem processNewBlock_cases (P : Params) (signet : CBlock → Bool) (env : HeaderEnv) (index : BlockIndex)
    (block : CBlock) (minPowChecked : Bool) : processNewBlock P signet env index block minPowChecked = index ∨
    (∃ index', processNewBlock P signet env index block minPowChecked = index' ∧
      acceptBlockHeader P env index block.header minPowChecked true = .ok index' ∧
      ∀ prev, lookupBlockIndex index block.header.hashPrevBlock = some prev → PowAfter P prev block.header) := by
  unfold processNewBlock
  simp only
  split_ifs
  · exact Or.inl rfl
  · cases hkey : getRandomXKey P (lookupBlockIndex index block.header.hashPrevBlock) with
    | none => exact Or.inl rfl
    | some key =>
      simp only
      cases hcheck : checkBlock P signet block true true (some key)
        (nextHeight (lookupBlockIndex index block.header.hashPrevBlock)) with
      | error e => exact Or.inl rfl
      | ok b =>
        obtain ⟨hheader, hpow⟩ := checkBlock_header hcheck
        simp only [acceptBlock, hheader]
        cases haccept : acceptBlockHeader P env index block.header minPowChecked true with
        | error e => exact Or.inl rfl
        | ok index' =>
          refine Or.inr ⟨index', rfl, rfl, fun prev hprev => ?_⟩
          rw [hprev] at hkey hpow
          exact ⟨key, hkey, hpow⟩

end

end ConnectCoin
