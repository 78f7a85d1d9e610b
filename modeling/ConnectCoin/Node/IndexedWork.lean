/-
Every indexed header carries proof of work, in every run of the node.

The flag `pow_checked` of a batch is computed before the batch may be exchanged for headers of earlier messages, so the
invariant is about headers and not about flags: a header has `Worked` if it has the work asked for at every place where
it could be indexed. With distinct hashes there is one such place (`BuiltFrom.unique`), so a check made anywhere (in the
index, in a batch, in a headers sync) is a check made for all.

- `Distinct`: the hashes of the headers in play are distinct, and none is null, the hash that stands for no block.
- `BuiltFrom`: index entries made of headers in play; there are no more heights than headers (`BuiltFrom.nHeight_lt`).
- `IndexOk`, `SyncOk`, `Node.Inv`: the invariant of the index, of a peer's sync and of the node.
Results:
- `checkHeadersPoW_worked`: the flag is justified when it is set;
- `SyncOk.call`: what a sync releases has the work, and the sync stays ok;
- `indexed_headers_have_work`: the result on the node.
Premise: heights are of type `int`, so fewer than 2^31 headers are in play.
-/
import ConnectCoin.Node.HeadersMessage
import ConnectCoin.Sync.KeySchedule

namespace ConnectCoin

open Lib CBlockIndex List

section
variable [Crypto]

/-! ## Headers in play -/

/-- no two headers have the same hash, and none has the hash that stands for no block -/
structure Distinct (L : List CBlockHeader) : Prop where
  inj : Set.InjOn CBlockHeader.getHash {h | h ∈ L}
  ne_null : ∀ h ∈ L, h.getHash ≠ Uint256.null

/-- index entries made of the headers L -/
inductive BuiltFrom (L : List CBlockHeader) : CBlockIndex → Prop
  | root (header : CBlockHeader) (hL : header ∈ L) (h : header.hashPrevBlock = Uint256.null) : BuiltFrom L (root header)
  | child {p : CBlockIndex} (header : CBlockHeader) (hL : header ∈ L) (hp : BuiltFrom L p)
      (h : header.hashPrevBlock = p.getBlockHash) : BuiltFrom L (p.child header)

namespace BuiltFrom

variable {L : List CBlockHeader} {a b : CBlockIndex}

theorem built (hb : BuiltFrom L b) : Built b := by
  induction hb with
  | root header _ h => exact .root header h
  | child header _ _ h ih => exact .child header ih h

theorem header_mem (hb : BuiltFrom L b) : b.header ∈ L := by
  cases hb with
  | root header hL _ => exact hL
  | child header hL _ _ => exact hL

theorem extend (hb : BuiltFrom L b) {hs : List CBlockHeader} (hl : Linked b hs) (hL : ∀ h ∈ hs, h ∈ L) :
    BuiltFrom L (b.extend hs) := by
  induction hs generalizing b with
  | nil => exact hb
  | cons h hs ih =>
    obtain ⟨hh, hhs⟩ := forall_mem_cons.1 hL
    exact ih (hb.child h hh hl.1) hl.2 hhs

variable (hd : Distinct L)
include hd

theorem hash_ne_null (hb : BuiltFrom L b) : b.getBlockHash ≠ Uint256.null := hd.ne_null _ hb.header_mem

/-- An entry is determined by its hash. -/
theorem unique (ha : BuiltFrom L a) (hb : BuiltFrom L b) (hhash : a.getBlockHash = b.getBlockHash) : a = b := by
  induction ha generalizing b with
  | root x hx hxprev =>
    cases hb with
    | root y hy _ =>
      obtain rfl := hd.inj hx hy hhash
      rfl
    | child y hy hq hyprev =>
      obtain rfl := hd.inj hx hy hhash
      exact absurd (hyprev.symm.trans hxprev) (hash_ne_null hd hq)
  | child x hx hp hxprev ih =>
    cases hb with
    | root y hy hyprev =>
      obtain rfl := hd.inj hx hy hhash
      exact absurd (hxprev.symm.trans hyprev) (hash_ne_null hd hp)
    | child y hy hq hyprev =>
      obtain rfl := hd.inj hx hy hhash
      rw [ih hq (hxprev.symm.trans hyprev)]

/-- The headers down to the root are distinct. -/
theorem exists_nodup (hb : BuiltFrom L b) : ∃ hs : List CBlockHeader, hs.Nodup ∧ hs ⊆ L ∧ hs.length = b.nHeight + 1 ∧
      ∀ h ∈ hs, ∃ a, BuiltFrom L a ∧ a.header = h ∧ a.nHeight ≤ b.nHeight := by
  induction hb with
  | root header hL h =>
    refine ⟨[header], nodup_singleton header, by simpa using hL, rfl, ?_⟩
    intro x hx
    obtain rfl := mem_singleton.1 hx
    exact ⟨_, .root x hL h, rfl, le_refl _⟩
  | @child p header hL hp h ih =>
    obtain ⟨hs, hnodup, hsub, hlen, hentries⟩ := ih
    have hself : BuiltFrom L (p.child header) := .child header hL hp h
    refine ⟨header :: hs, nodup_cons.2 ⟨?_, hnodup⟩, cons_subset.2 ⟨hL, hsub⟩, by simp [hlen], ?_⟩
    · -- an entry below p with this header would be the child of p
      intro hmem
      obtain ⟨a, ha, hheader, hle⟩ := hentries header hmem
      have heq : a = p.child header := unique hd ha hself (by rw [getBlockHash, hheader, child_getBlockHash])
      rw [heq, child_nHeight] at hle
      omega
    · intro x hx
      rcases mem_cons.1 hx with rfl | hold
      · exact ⟨_, hself, rfl, le_refl _⟩
      · obtain ⟨a, ha, hheader, hle⟩ := hentries x hold
        exact ⟨a, ha, hheader, by rw [child_nHeight]; omega⟩

theorem nHeight_lt (hb : BuiltFrom L b) : b.nHeight < L.length := by
  obtain ⟨hs, hnodup, hsub, hlen, -⟩ := exists_nodup hd hb
  have hle := (subperm_of_subset hnodup hsub).length_le
  omega

end BuiltFrom

/-! ## Work at every place -/

/-- h has the work asked for wherever it could be indexed -/
def Worked (P : Params) (L : List CBlockHeader) (h : CBlockHeader) : Prop :=
  ∀ b, BuiltFrom L b → h.hashPrevBlock = b.getBlockHash → PowAfter P b h

variable {h : CBlockHeader} {headers : List CBlockHeader}

theorem worked_of_powAfter {P : Params} {L : List CBlockHeader} (hd : Distinct L) {b : CBlockIndex} (hb : BuiltFrom L b)
    (hprev : h.hashPrevBlock = b.getBlockHash) (hpow : PowAfter P b h) : Worked P L h := by
  intro b' hb' hprev'
  rw [← BuiltFrom.unique hd hb hb' (hprev.symm.trans hprev')]
  exact hpow

/-! ## The index -/

structure IndexOk (C : NodeConfig) (L : List CBlockHeader) (index : BlockIndex) : Prop where
  built : ∀ e ∈ index, BuiltFrom L e
  genesis : CBlockIndex.root C.genesis ∈ index
  worked : ∀ e ∈ index, e = CBlockIndex.root C.genesis ∨
    ∃ p ∈ index, e = p.child e.header ∧ e.header.hashPrevBlock = p.getBlockHash ∧ PowAfter C.P p e.header

namespace IndexOk

variable {C : NodeConfig} {L : List CBlockHeader} {index : BlockIndex}

theorem append (hi : IndexOk C L index) {p : CBlockIndex} (hp : p ∈ index) (hL : h ∈ L)
    (hprev : h.hashPrevBlock = p.getBlockHash) (hpow : PowAfter C.P p h) : IndexOk C L (index ++ [p.child h]) where
  built := by
    intro e he
    rcases mem_append.1 he with hold | hnew
    · exact hi.built e hold
    · rw [mem_singleton.1 hnew]
      exact .child h hL (hi.built p hp) hprev
  genesis := mem_append_left _ hi.genesis
  worked := by
    intro e he
    rcases mem_append.1 he with hold | hnew
    · rcases hi.worked e hold with hgen | ⟨q, hq, hrest⟩
      · exact Or.inl hgen
      · exact Or.inr ⟨q, mem_append_left _ hq, hrest⟩
    · rw [mem_singleton.1 hnew]
      exact Or.inr ⟨p, mem_append_left _ hp, rfl, hprev, hpow⟩

variable (hd : Distinct L) (hi : IndexOk C L index)
include hd hi

/-- A known header has the work. -/
theorem known_worked {e : CBlockIndex} (he : e ∈ index) : Worked C.P L e.header := by
  rcases hi.worked e he with rfl | ⟨p, hp, -, hprev, hpow⟩
  · intro b hb hprev
    exact absurd (hprev.symm.trans C.genesis_prev) (hb.hash_ne_null hd)
  · exact worked_of_powAfter hd (hi.built p hp) hprev hpow

variable (hgen : C.genesis ∈ L)
include hgen

/-- Accepting a header keeps the index ok if the header has its work wherever the check is skipped. -/
theorem acceptBlockHeader {env : HeaderEnv} {header : CBlockHeader} (hL : header ∈ L) {minPowChecked powChecked : Bool}
    (hpow : powChecked = true → ∀ p ∈ index, header.hashPrevBlock = p.getBlockHash → PowAfter C.P p header)
    {index' : BlockIndex} (h : acceptBlockHeader C.P env index header minPowChecked powChecked = .ok index') :
    IndexOk C L index' := by
  rcases acceptBlockHeader_ok h with ⟨hhash, rfl⟩ | rfl | ⟨prev, hprev, hnew, rfl⟩
  · -- the genesis header is known
    obtain rfl : header = C.genesis := hd.inj hL hgen (hhash.trans C.genesis_hash.symm)
    have hknown := lookup_ne_none hi.genesis
    rw [root_getBlockHash] at hknown
    obtain ⟨e, he⟩ := Option.ne_none_iff_exists'.1 hknown
    rw [addToBlockIndex, he]
    exact hi
  · exact hi
  · obtain ⟨hmem, hhash⟩ := lookup_some hprev
    refine hi.append hmem hL hhash.symm ?_
    cases powChecked with
    | false => exact hnew rfl
    | true => exact hpow rfl prev hmem hhash.symm

theorem processNewBlockHeaders {env : HeaderEnv} (hL : ∀ h ∈ headers, h ∈ L) {minPowChecked powChecked : Bool}
    (hpow : powChecked = true → ∀ h ∈ headers, Worked C.P L h) :
    IndexOk C L (processNewBlockHeaders C.P env minPowChecked powChecked index headers).1 := by
  induction headers generalizing index with
  | nil => exact hi
  | cons h hs ih =>
    obtain ⟨hh, hhs⟩ := forall_mem_cons.1 hL
    rw [ConnectCoin.processNewBlockHeaders]
    cases haccept : ConnectCoin.acceptBlockHeader C.P env index h minPowChecked powChecked with
    | error e => exact hi
    | ok index' =>
      refine ih (acceptBlockHeader hd hi hgen hh ?_ haccept) hhs fun hflag x hx => hpow hflag x (mem_cons_of_mem h hx)
      intro hflag p hp hprev
      exact hpow hflag h mem_cons_self p (hi.built p hp) hprev

theorem acceptBlock {env : HeaderEnv} {block : CBlock} (hL : block.header ∈ L) {minPowChecked : Bool} :
    IndexOk C L (acceptBlock C.P env index block minPowChecked false) := by
  rw [ConnectCoin.acceptBlock]
  cases haccept : ConnectCoin.acceptBlockHeader C.P env index block.header minPowChecked false with
  | error e => exact hi
  | ok index' => exact acceptBlockHeader hd hi hgen hL (by simp) haccept

theorem processNewBlock {signet : CBlock → Bool} {env : HeaderEnv}
    {block : CBlock} (hL : block.header ∈ L) {minPowChecked : Bool} :
    IndexOk C L (processNewBlock C.P signet env index block minPowChecked) := by
  rcases processNewBlock_cases C.P signet env index block minPowChecked with hsame | ⟨index', heq, haccept, hpow⟩
  · rw [hsame]
    exact hi
  · rw [heq]
    refine acceptBlockHeader hd hi hgen hL (fun _ p hp hprev => ?_) haccept
    -- the check was made after the entry found under the hash, which is p
    cases hlookup : lookupBlockIndex index block.header.hashPrevBlock with
    | none => exact absurd (hprev ▸ hlookup) (lookup_ne_none hp)
    | some q =>
      obtain ⟨hq, hhash⟩ := lookup_some hlookup
      rw [BuiltFrom.unique hd (hi.built p hp) (hi.built q hq) (hprev.symm.trans hhash.symm)]
      exact hpow q hlookup

end IndexOk

/-! ## Batches -/

variable {L : List CBlockHeader} {index : BlockIndex} {powChecked : Bool} {b prev : CBlockIndex} {C : NodeConfig}

theorem linked_of_continuous (hd : Distinct L) (hb : BuiltFrom L b) (hL : ∀ h ∈ headers, h ∈ L)
    (h : continuousAfter b.getBlockHash headers = true) : Linked b headers := by
  induction headers generalizing b with
  | nil => trivial
  | cons x xs ih =>
    obtain ⟨hx, hxs⟩ := forall_mem_cons.1 hL
    have hnull : b.getBlockHash.isNull = false := by
      rw [Bool.eq_false_iff, Ne, Uint256.isNull_iff]
      exact hb.hash_ne_null hd
    simp only [continuousAfter, hnull, Bool.not_false, Bool.true_and, bne_iff_ne, ne_eq, ite_not] at h
    split_ifs at h with hprev
    exact ⟨hprev, ih (hb.child x hx hprev) hxs h⟩

theorem linked_get {hs : List CBlockHeader} (hl : Linked b hs) {i : ℕ} (hi : hs[i]? = some h) :
    Linked b (hs.take i) ∧ h.hashPrevBlock = (b.extend (hs.take i)).getBlockHash := by
  obtain ⟨hlt, rfl⟩ := List.getElem?_eq_some_iff.1 hi
  rw [← take_append_drop i hs, drop_eq_getElem_cons hlt, linked_append] at hl
  exact ⟨hl.1, hl.2.1⟩

/-- The known headers in front are passed over; what is left is linked to the last of them. -/
theorem skipKnown_spec (hd : Distinct L) (hi : IndexOk C L index) {last : CBlockIndex} (hprev : prev ∈ index)
    {headers unknown : List CBlockHeader} (hL : ∀ h ∈ headers, h ∈ L) (hl : Linked prev headers)
    (hskip : skipKnown index prev headers = (last, unknown)) :
    last ∈ index ∧ Linked last unknown ∧ (∀ h ∈ unknown, h ∈ L) ∧ ∀ h ∈ headers, Worked C.P L h ∨ h ∈ unknown := by
  induction headers generalizing prev with
  | nil =>
    cases hskip
    exact ⟨hprev, hl, hL, by simp⟩
  | cons x xs ih =>
    obtain ⟨hx, hxs⟩ := forall_mem_cons.1 hL
    rw [skipKnown] at hskip
    cases hlookup : lookupBlockIndex index x.getHash with
    | none =>
      rw [hlookup] at hskip
      cases hskip
      exact ⟨hprev, hl, hL, fun h hh => Or.inr hh⟩
    | some known =>
      rw [hlookup] at hskip
      obtain ⟨hknown, hhash⟩ := lookup_some hlookup
      have hheader : known.header = x := hd.inj (hi.built known hknown).header_mem hx hhash
      have hchild : known = prev.child x :=
        BuiltFrom.unique hd (hi.built known hknown) (.child x hx (hi.built prev hprev) hl.1)
          (by rw [getBlockHash, hheader]; rfl)
      obtain ⟨hlast, hlinked, hunknown, hall⟩ := ih hknown hxs (by rw [hchild]; exact hl.2) hskip
      refine ⟨hlast, hlinked, hunknown, forall_mem_cons.2 ⟨Or.inl ?_, hall⟩⟩
      rw [← hheader]
      exact hi.known_worked hd hknown

/-- The batch check is the check at the places where the headers of the batch would be indexed. -/
theorem hasValidProofOfWork_worked {P : Params} (hd : Distinct L) (hint : L.length < 2 ^ 31) (hprev : BuiltFrom L prev)
    (hL : ∀ h ∈ headers, h ∈ L) (hl : Linked prev headers) (hpow : hasValidProofOfWork P headers (some prev) = true) :
    ∀ h ∈ headers, Worked P L h := by
  intro h hh
  obtain ⟨i, hi⟩ := mem_iff_getElem?.1 hh
  obtain ⟨hlt, -⟩ := List.getElem?_eq_some_iff.1 hi
  obtain ⟨hbefore, hlink⟩ := linked_get hl hi
  have hplace : BuiltFrom L (prev.extend (headers.take i)) := hprev.extend hbefore fun x hx => hL x (mem_of_mem_take hx)
  have hheight : (prev.extend (headers.take i)).nHeight = prev.nHeight + i := by
    rw [extend_nHeight, length_take_of_le hlt.le]
  have hbound := hplace.nHeight_lt hd
  have hkey := batchKey_eq (P := P) hprev.built hl hlt (by omega)
  refine worked_of_powAfter hd hplace hlink ?_
  have hcheck := all_eq_true.1 hpow (h, i) (mem_zipIdx_iff_getElem?.2 hi)
  simp only [hkey] at hcheck
  cases hk : getRandomXKey P (some (prev.extend (headers.take i))) with
  | none => simp [hk] at hcheck
  | some key =>
    refine ⟨key, hk, ?_⟩
    rw [hheight, show prev.nHeight + i + 1 = nextHeight (some prev) + i by simp [nextHeight]; omega]
    simpa [hk] using hcheck

/-- **The flag is justified.** If `CheckHeadersPoW` sets `pow_checked`, every header of the batch has its work. -/
theorem checkHeadersPoW_worked (hd : Distinct L) (hint : L.length < 2 ^ 31) (hi : IndexOk C L index)
    (hL : ∀ h ∈ headers, h ∈ L) (h : checkHeadersPoW C.P index headers = some true) :
    ∀ x ∈ headers, Worked C.P L x := by
  cases headers with
  | nil => simp
  | cons first rest =>
    rw [checkHeadersPoW] at h
    split_ifs at h with hcont
    simp only [head?_cons, Option.bind_some] at h
    cases hlookup : lookupBlockIndex index first.hashPrevBlock with
    | none => simp [hlookup] at h
    | some prev =>
      obtain ⟨hprev, hhash⟩ := lookup_some hlookup
      obtain ⟨hfirst, hrest⟩ := forall_mem_cons.1 hL
      have hcont' : continuousAfter first.getHash rest = true := by
        simpa [checkHeadersAreContinuous, continuousAfter, (Uint256.isNull_iff _).2 rfl] using hcont
      have hlinked : Linked prev (first :: rest) :=
        ⟨hhash.symm, linked_of_continuous hd ((hi.built prev hprev).child first hfirst hhash.symm) hrest hcont'⟩
      obtain ⟨last, unknown, hskip⟩ : ∃ last unknown, skipKnown index prev (first :: rest) = (last, unknown) :=
        ⟨_, _, rfl⟩
      obtain ⟨hlast, hunlinked, hunknown, hall⟩ := skipKnown_spec hd hi hprev hL hlinked hskip
      simp only [hlookup, hskip] at h
      intro x hx
      rcases hall x hx with hworked | hmem
      · exact hworked
      · split_ifs at h with hempty hvalid
        · rw [List.isEmpty_iff.1 hempty] at hmem
          simp at hmem
        · exact hasValidProofOfWork_worked hd hint (hi.built _ hlast) hunknown hunlinked (by simpa using hvalid) x hmem

/-! ## Headers syncs -/

/-- a sync above an entry made of headers in play, whose redownloaded headers have their work -/
structure SyncOk (C : NodeConfig) (L : List CBlockHeader) (E : SyncEnv) (s : HeadersSyncState) : Prop where
  params : E.P = C.P
  start : BuiltFrom L E.chainStart
  tracked : ∃ P A r, Tracks E s P A r ∧ r ≤ A.length ∧ Linked E.chainStart A ∧
    checkedBits E E.chainStart A <+: commitments E E.chainStart P ∧ ∀ h ∈ A, h ∈ L ∧ Worked C.P L h

/-- A header accepted in REDOWNLOAD has its work: the sync checked it, or the caller did. -/
theorem RedownloadOk.worked {E : SyncEnv} {P A : List CBlockHeader} {r : ℕ} (hok : RedownloadOk E P r powChecked A h)
    (hd : Distinct L) (hint : L.length < 2 ^ 31) (hplace : BuiltFrom L (E.chainStart.extend A))
    (hstart : BuiltFrom L E.chainStart)
    (hl : Linked E.chainStart A) (hflag : powChecked = true → Worked E.P L h) : Worked E.P L h := by
  cases powChecked with
  | true => exact hflag rfl
  | false =>
    refine worked_of_powAfter hd hplace hok.linked ?_
    have hbound := hplace.nHeight_lt hd
    have hpow := hok.pow
    rw [SyncEnv.powOk, syncKey_eq hstart.built hl (by omega)] at hpow
    cases hk : getRandomXKey E.P (some (E.chainStart.extend A)) with
    | none => simp [hk] at hpow
    | some key => exact ⟨key, hk, by simpa [hk] using hpow⟩

theorem redownload_worked {E : SyncEnv} {P A new : List CBlockHeader} {r : ℕ}
    (hok : AllOk (RedownloadOk E P r powChecked) A new) (hd : Distinct L) (hint : L.length < 2 ^ 31)
    (hstart : BuiltFrom L E.chainStart) (hl : Linked E.chainStart A) (hA : ∀ h ∈ A, h ∈ L)
    (hnew : ∀ h ∈ new, h ∈ L) (hflag : powChecked = true → ∀ h ∈ new, Worked E.P L h) : ∀ h ∈ new, Worked E.P L h := by
  intro h hh
  obtain ⟨i, hi⟩ := mem_iff_getElem?.1 hh
  have hlinked : Linked E.chainStart (A ++ new.take i) :=
    linked_append.2 ⟨hl, (linked_get (RedownloadOk.linkedAll hok) hi).1⟩
  have hplace : BuiltFrom L (E.chainStart.extend (A ++ new.take i)) := by
    refine hstart.extend hlinked fun x hx => ?_
    rcases mem_append.1 hx with hold | htake
    · exact hA x hold
    · exact hnew x (mem_of_mem_take htake)
  exact (hok.get hi).worked hd hint hplace hstart hlinked fun hf => hflag hf h hh

theorem acceptedInCall_subset (E : SyncEnv) (s : HeadersSyncState) (call : SyncCall) :
    ∀ h ∈ acceptedInCall E s call, h ∈ call.headers := by
  intro h hh
  unfold acceptedInCall at hh
  split at hh
  · simp at hh
  · split_ifs at hh
    · exact (accepted_isInitial _ _ _).subset hh
    · simp at hh
  · exact (accepted_isInitial _ _ _).subset hh

namespace SyncOk

variable {C : NodeConfig} {L : List CBlockHeader} {E : SyncEnv} {s : HeadersSyncState}

theorem init (hstart : BuiltFrom L E.chainStart) (hparams : E.P = C.P) : SyncOk C L E (HeadersSyncState.init E) :=
  ⟨hparams, hstart, [], [], 0, .presync [], le_refl _, trivial, nil_prefix, by simp⟩

/-- **What a sync releases has its work**, and the sync stays ok, if the flag of the call is justified. -/
theorem call (hd : Distinct L) (hint : L.length < 2 ^ 31) (hs : SyncOk C L E s) (call : SyncCall)
    (hL : ∀ h ∈ call.headers, h ∈ L) (hflag : call.powChecked = true → ∀ h ∈ call.headers, Worked C.P L h) :
    (∀ h ∈ (processNextHeaders E s call).1.powValidatedHeaders, h ∈ L ∧ Worked C.P L h) ∧
      SyncOk C L E (processNextHeaders E s call).2 := by
  obtain ⟨P, A, r, htracks, hr, hl, hcommitted, hA⟩ := hs.tracked
  cases htracks with
  | presync P =>
    obtain ⟨hnone, htracks'⟩ := presync_call E P call
    rw [hnone]
    exact ⟨by simp, hs.params, hs.start, _, [], 0, htracks', le_refl _, trivial, nil_prefix, by simp⟩
  | redownload P A r =>
    obtain ⟨r', hcall⟩ := redownload_call E P A r call hr hcommitted hl
    have hsub := acceptedInCall_subset E (redownloading E P A r) call
    generalize acceptedInCall E (redownloading E P A r) call = new at hcall hsub
    have hnew : ∀ h ∈ new, Worked C.P L h := by
      rw [← hs.params] at hflag ⊢
      exact redownload_worked hcall.ok hd hint hs.start hl (fun h hh => (hA h hh).1) (fun h hh => hL h (hsub h hh))
        fun hf h hh => hflag hf h (hsub h hh)
    have hall : ∀ h ∈ A ++ new, h ∈ L ∧ Worked C.P L h := by
      intro h hh
      rcases mem_append.1 hh with hold | hmem
      · exact hA h hold
      · exact ⟨hL h (hsub h hmem), hnew h hmem⟩
    refine ⟨fun h hh => ?_, hs.params, hs.start, P, A ++ new, r', hcall.tracks, ?_, ?_,
      committed_batch hcall.ok hcommitted, hall⟩
    · rw [hcall.stretch] at hh
      exact hall h (mem_of_mem_drop (mem_of_mem_take hh))
    · have hle : r ≤ (A ++ new).length := by
        rw [length_append]
        omega
      rcases hcall.count with ⟨rfl, -⟩ | ⟨-, rfl⟩
      · exact hle
      · exact (releasedCount_le E hle).2
    · exact linked_append.2 ⟨hl, RedownloadOk.linkedAll hcall.ok⟩
  | final s P A r hfinal =>
    have hsame : processNextHeaders E s call = (⟨[], false, false⟩, s) := by
      simp [processNextHeaders, hfinal]
    rw [hsame]
    exact ⟨by simp, hs⟩

end SyncOk

/-- a peer without a sync, or with one that is ok -/
def PeerOk (C : NodeConfig) (L : List CBlockHeader) (sync : Option PeerSync) : Prop :=
  ∀ E s, sync = some (E, s) → SyncOk C L E s

theorem peerOk_none (C : NodeConfig) (L : List CBlockHeader) : PeerOk C L none := by
  intro E s h
  cases h

/-- After the running sync had the batch: the headers to go on with are in play; they have their work if the sync
vouches for them, and are the batch itself if not. -/
theorem continuation_ok {C : NodeConfig} {L : List CBlockHeader} (hd : Distinct L) (hint : L.length < 2 ^ 31)
    {sync sync' : Option PeerSync} (hsync : PeerOk C L sync) {headers ready : List CBlockHeader}
    (hL : ∀ h ∈ headers, h ∈ L) {powChecked vouched : Bool} (hflag : powChecked = true → ∀ h ∈ headers, Worked C.P L h)
    (h : isContinuationOfLowWorkHeadersSync C sync headers powChecked = (vouched, ready, sync')) :
    PeerOk C L sync' ∧ (∀ x ∈ ready, x ∈ L) ∧ (vouched = true → ∀ x ∈ ready, Worked C.P L x) ∧
    (vouched = false → ready = headers) := by
  cases sync with
  | none =>
    cases h
    exact ⟨peerOk_none C L, hL, by simp, fun _ => rfl⟩
  | some p =>
    obtain ⟨E, s⟩ := p
    simp only [isContinuationOfLowWorkHeadersSync] at h
    obtain ⟨hreleased, hs'⟩ := (hsync E s rfl).call hd hint
      ⟨headers, headers.length == C.maxHeadersResult, powChecked⟩ hL hflag
    generalize processNextHeaders E s ⟨headers, headers.length == C.maxHeadersResult, powChecked⟩ =
      result at h hreleased hs'
    have hpeer : PeerOk C L (if result.2.downloadState = .FINAL then none else some (E, result.2)) := by
      intro E' s' heq
      split_ifs at heq
      cases heq
      exact hs'
    generalize (if result.2.downloadState = .FINAL then none else some (E, result.2)) = remaining at h hpeer
    split_ifs at h
    · cases h
      exact ⟨hpeer, fun x hx => (hreleased x hx).1, fun _ x hx => (hreleased x hx).2, by simp⟩
    · cases h
      exact ⟨hpeer, hL, by simp, fun _ => rfl⟩

/-! ## The node -/

/-- what holds of the node between messages -/
structure Node.Inv (C : NodeConfig) (L : List CBlockHeader) (node : Node) : Prop where
  index : IndexOk C L node.blockIndex
  peers : ∀ peer, PeerOk C L (node.headersSync peer)

namespace Node.Inv

variable {C : NodeConfig} {L : List CBlockHeader} {node : Node}

theorem setSync (h : Node.Inv C L node) (peer : ℕ) {sync : Option PeerSync} (hsync : PeerOk C L sync) :
    Node.Inv C L (node.setSync peer sync) where
  index := h.index
  peers := by
    intro p
    simp only [Node.setSync]
    split_ifs
    · exact hsync
    · exact h.peers p

theorem init (hgen : C.genesis ∈ L) : Node.Inv C L (Node.init C) where
  index :=
    { built := by
        intro e he
        rw [mem_singleton.1 he]
        exact .root C.genesis hgen C.genesis_prev
      genesis := mem_singleton.2 rfl
      worked := fun e he => Or.inl (mem_singleton.1 he) }
  peers := fun _ => peerOk_none C L

variable (hd : Distinct L) (hint : L.length < 2 ^ 31)
include hd hint

theorem tryLowWork (h : Node.Inv C L node) {env : MessageEnv} {peer : ℕ}
    {start : CBlockIndex} (hstart : start ∈ node.blockIndex) (hL : ∀ x ∈ headers, x ∈ L)
    {powChecked : Bool} (hflag : powChecked = true → ∀ x ∈ headers, Worked C.P L x) {sync : Option PeerSync}
    (htry : tryLowWorkHeadersSync C env (node.headersSync peer) start headers powChecked = some sync) :
    PeerOk C L sync := by
  simp only [tryLowWorkHeadersSync] at htry
  split_ifs at htry
  · cases htry
    have hnew : PeerOk C L (some (newHeadersSync C env start)) := by
      intro E s heq
      cases heq
      exact SyncOk.init (h.index.built start hstart) rfl
    exact (continuation_ok hd hint hnew hL hflag rfl).1
  · cases htry
    exact h.peers peer

variable (hgen : C.genesis ∈ L)
include hgen

theorem processReadyHeaders (h : Node.Inv C L node) {env : MessageEnv} {peer : ℕ} (hL : ∀ x ∈ headers, x ∈ L)
    {powChecked vouched : Bool} (hvouched : vouched = true → ∀ x ∈ headers, Worked C.P L x)
    (hflag : vouched = false → powChecked = true → ∀ x ∈ headers, Worked C.P L x) :
    Node.Inv C L (processReadyHeaders C env node peer headers powChecked vouched) := by
  cases headers with
  | nil => exact h
  | cons first rest =>
    simp only [ConnectCoin.processReadyHeaders]
    cases hlookup : lookupBlockIndex node.blockIndex first.hashPrevBlock with
    | none => exact h
    | some start =>
      simp only
      split
      · next sync hlow =>
        -- a new sync is only tried when no sync vouches for the headers
        split_ifs at hlow with hvalidated
        have hunvouched : vouched = false := by
          cases vouched with
          | false => rfl
          | true => simp at hvalidated
        exact h.setSync peer (tryLowWork hd hint h (lookup_some hlookup).1 hL (hflag hunvouched) hlow)
      · refine ⟨h.index.processNewBlockHeaders hd hgen hL fun hor => ?_, h.peers⟩
        cases vouched with
        | true => exact hvouched rfl
        | false => exact hflag rfl (by simpa using hor)

theorem processHeadersMessage (h : Node.Inv C L node) {env : MessageEnv} {peer : ℕ} (hL : ∀ x ∈ headers, x ∈ L) :
    Node.Inv C L (processHeadersMessage C env node peer headers) := by
  rw [ConnectCoin.processHeadersMessage]
  split_ifs
  · exact h.setSync peer (peerOk_none C L)
  · cases hcheck : checkHeadersPoW C.P node.blockIndex headers with
    | none => exact h
    | some powChecked =>
      have hflag : powChecked = true → ∀ x ∈ headers, Worked C.P L x := by
        intro hset
        rw [hset] at hcheck
        exact checkHeadersPoW_worked hd hint h.index hL hcheck
      obtain ⟨vouched, ready, sync, hcont⟩ : ∃ vouched ready sync,
          isContinuationOfLowWorkHeadersSync C (node.headersSync peer) headers powChecked = (vouched, ready, sync) :=
          ⟨_, _, _, rfl⟩
      obtain ⟨hsync, hready, hvouched, hsame⟩ := continuation_ok hd hint (h.peers peer) hL hflag hcont
      simp only [hcont]
      refine processReadyHeaders hd hint hgen (h.setSync peer hsync) hready hvouched fun hfalse hset => ?_
      rw [hsame hfalse]
      exact hflag hset

theorem step (h : Node.Inv C L node) (event : NodeEvent)
    (hL : ∀ x ∈ event.headers, x ∈ L) : Node.Inv C L (node.step C event) := by
  cases event with
  | headersMessage peer headers env => exact h.processHeadersMessage hd hint hgen hL
  | newBlockHeader header minPowChecked env => exact ⟨h.index.processNewBlockHeaders hd hgen hL (by simp), h.peers⟩
  | newBlock block minPowChecked env => exact ⟨h.index.processNewBlock hd hgen (hL _ mem_cons_self), h.peers⟩
  | importedBlock block minPowChecked env => exact ⟨h.index.acceptBlock hd hgen (hL _ mem_cons_self), h.peers⟩
  | finalizeNode peer => exact h.setSync peer (peerOk_none C L)

theorem run (events : List NodeEvent)
    (hL : ∀ event ∈ events, ∀ x ∈ event.headers, x ∈ L) : Node.Inv C L (Node.run C events) := by
  induction events using List.reverseRecOn with
  | nil => exact init hgen
  | append_singleton events event ih =>
    rw [Node.run, foldl_append]
    exact (ih fun e he => hL e (mem_append_left _ he)).step hd hint hgen event (hL event (by simp))

end Node.Inv

/-- the genesis header and all headers that a run brings -/
def headersInPlay (C : NodeConfig) (events : List NodeEvent) : List CBlockHeader :=
  C.genesis :: events.flatMap NodeEvent.headers

/-- In every run of the node, with any peers, syncs, blocks and imports in any order, every indexed header other than
the genesis header has its predecessor in the index and satisfies `CheckProofOfWork` under the key that `GetRandomXKey`
gives there. -/
theorem indexed_headers_have_work (C : NodeConfig) (events : List NodeEvent) (hd : Distinct (headersInPlay C events))
    (hint : (headersInPlay C events).length < 2 ^ 31) :
    ∀ e ∈ (Node.run C events).blockIndex, e.header ≠ C.genesis → ∃ p ∈ (Node.run C events).blockIndex,
      e.pprev = some p ∧ e.nHeight = p.nHeight + 1 ∧ p.getBlockHash = e.header.hashPrevBlock ∧
      ∃ key, getRandomXKey C.P (some p) = some key ∧ checkProofOfWork C.P e.header key e.nHeight = true := by
  intro e he hne
  have hinv : Node.Inv C (headersInPlay C events) (Node.run C events) := by
    refine Node.Inv.run hd hint mem_cons_self events fun event hevent x hx => ?_
    exact mem_cons_of_mem _ (mem_flatMap.2 ⟨event, hevent, hx⟩)
  rcases hinv.index.worked e he with hroot | ⟨p, hp, hchild, hprev, key, hkey, hpow⟩
  · rw [hroot] at hne
    exact absurd rfl hne
  · have hheight : e.nHeight = p.nHeight + 1 := by
      rw [hchild]
      rfl
    refine ⟨p, hp, by rw [hchild]; rfl, hheight, hprev.symm, key, hkey, ?_⟩
    rw [hheight]
    exact hpow

end

section
attribute [local instance] toyCrypto

/-- a node that takes one header a message -/
def sampleNode : NodeConfig where
  P := { sampleParams with
    hashGenesisBlock := sampleStart.getHash
    powLimit := Uint256.ofNat (2 ^ 255) }
  genesis := sampleStart
  commitmentPeriod := 2
  redownloadBufferSize := 1
  maxHeadersResult := 1
  checkSignetBlockSolution := fun _ => true
  period_pos := sampleSync.period_pos
  genesis_hash := rfl
  genesis_prev := rfl

def sampleEnv : MessageEnv where
  headerEnv := ⟨fun _ => false, fun _ _ => .ok ()⟩
  antiDoSWorkThreshold := 6
  isAncestorOfBestHeaderOrTip := fun _ => false
  noBan := false
  commitOffset := 1
  hasher := fun h => UInt64.ofNat (h.bytes.headD 0).toNat
  maxCommitments := 10

/-- a peer sends a chain of two headers in PRESYNC and again in REDOWNLOAD; the last message releases both -/
def sampleEvents : List NodeEvent :=
  [.headersMessage 0 [sampleFirst] sampleEnv, .headersMessage 0 [sampleSecond] sampleEnv,
    .headersMessage 0 [sampleFirst] sampleEnv, .headersMessage 0 [sampleSecond] sampleEnv]

theorem sampleNode_distinct : Distinct (headersInPlay sampleNode sampleEvents) := by
  refine ⟨?_, by decide +kernel⟩
  have h : ∀ a ∈ headersInPlay sampleNode sampleEvents, ∀ b ∈ headersInPlay sampleNode sampleEvents,
      a.getHash = b.getHash → a = b := by
    decide +kernel
  exact fun a ha b hb heq => h a ha b hb heq

theorem sampleNode_indexed : (Node.run sampleNode sampleEvents).blockIndex.map CBlockIndex.header =
    [sampleStart, sampleFirst, sampleSecond] := by
  decide +kernel

theorem sampleNode_has_work : ∃ e ∈ (Node.run sampleNode sampleEvents).blockIndex, e.header = sampleSecond ∧
    ∃ p ∈ (Node.run sampleNode sampleEvents).blockIndex, p.getBlockHash = e.header.hashPrevBlock ∧
      ∃ key, getRandomXKey sampleNode.P (some p) = some key ∧
      checkProofOfWork sampleNode.P e.header key e.nHeight = true := by
  have hmem : sampleSecond ∈ (Node.run sampleNode sampleEvents).blockIndex.map CBlockIndex.header := by
    rw [sampleNode_indexed]
    simp
  obtain ⟨e, he, hheader⟩ := mem_map.1 hmem
  obtain ⟨p, hp, -, -, hwork⟩ := indexed_headers_have_work sampleNode sampleEvents sampleNode_distinct (by decide) e he
    (by rw [hheader]; decide)
  exact ⟨e, he, hheader, p, hp, hwork⟩

end

end ConnectCoin
