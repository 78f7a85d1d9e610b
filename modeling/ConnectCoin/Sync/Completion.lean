/-
An honest peer completes the headers sync.

Model: the peer sends a chain L in PRESYNC, in any batches, until the sync asks for it again. It then sends L again,
perhaps with a valid extension X, in other batches that are full until the position p at which the work of L first meets
the requirement. A `pow_checked` flag is a promise of the caller (`PowFlagsTruthful`).

Results:
- `presync_calls`: what a PRESYNC that has not failed has checked;
- `redownload_calls`: the induction over the second pass;
- `honest_peer_completes`: with a buffer of at least one header, every call of the second pass succeeds, all that was
  sent is released by the batch that covers p, and the sync is over;
- `unbuffered_peer_fails`: with a buffer of none, the first header of a later batch is compared with the start block's
  nBits, and an honest chain fails.
-/
import ConnectCoin.Sync.Release

namespace ConnectCoin

open Lib CBlockIndex List

/-- the headers of a sequence of calls -/
def sent (calls : List SyncCall) : List CBlockHeader := calls.flatMap SyncCall.headers

theorem sent_append (cs ds : List SyncCall) : sent (cs ++ ds) = sent cs ++ sent ds := flatMap_append
theorem sent_singleton (c : SyncCall) : sent [c] = c.headers := flatMap_singleton ..

/-- A stretch from r to n, and then everything from n on. -/
theorem take_drop_append_drop {B : List CBlockHeader} (Y : List CBlockHeader) {r n : ℕ} (hr : r ≤ n)
    (hn : n ≤ B.length) : (B.drop r).take (n - r) ++ (B ++ Y).drop n = (B ++ Y).drop r := by
  have hdrop : B.drop n = (B.drop r).drop (n - r) := by rw [drop_drop, Nat.add_sub_cancel' hr]
  rw [drop_append_of_le_length hn, drop_append_of_le_length (hr.trans hn), hdrop, ← append_assoc, take_append_drop]

/-- the work of L over the start block first meets the requirement at position p -/
structure FirstMeets (E : SyncEnv) (L : List CBlockHeader) (p : ℕ) : Prop where
  pos : 1 ≤ p
  le : p ≤ L.length
  meets : (E.chainStart.extend (L.take p)).nChainWork ≥ E.minimumRequiredWork
  first : ∀ j, 1 ≤ j → j < p → (E.chainStart.extend (L.take j)).nChainWork < E.minimumRequiredWork

variable {E : SyncEnv}

/-- On a prefix of L and an extension, the work is met exactly from position p on. -/
theorem FirstMeets.workMet_iff_le {L X A : List CBlockHeader} {p : ℕ} (hp : FirstMeets E L p)
    (hA : A <+: L ++ X) : workMet E E.chainStart A = true ↔ p ≤ A.length := by
  obtain ⟨rest, hrest⟩ := hA
  have htake : ∀ j, j ≤ p → j ≤ A.length → A.take j = L.take j := by
    intro j hj hjA
    rw [← take_append_of_le_length hjA, hrest, take_append_of_le_length (hj.trans hp.le)]
  rw [workMet_iff]
  refine ⟨?_, fun hle => ⟨p, hp.pos, hle, by rw [htake p (le_refl p) hle]; exact hp.meets⟩⟩
  rintro ⟨j, hj, hjA, hwork⟩
  by_contra hlt
  rw [htake j (by omega) hjA] at hwork
  exact absurd hwork (BitVec.not_le.2 (hp.first j hj (by omega)))

section
variable [Crypto]

/-- a sequence of calls, with all results -/
def runCalls (E : SyncEnv) : HeadersSyncState → List SyncCall → List ProcessingResult × HeadersSyncState
  | s, [] => ([], s)
  | s, c :: cs =>
    let (ret, s) := processNextHeaders E s c
    let (rets, s) := runCalls E s cs
    (ret :: rets, s)

theorem runCalls_cons (E : SyncEnv) (s : HeadersSyncState) (c : SyncCall) (cs : List SyncCall) :
    (runCalls E s (c :: cs)).2 = (runCalls E (processNextHeaders E s c).2 cs).2 := rfl

theorem runCalls_append (E : SyncEnv) (s : HeadersSyncState) (cs ds : List SyncCall) :
    runCalls E s (cs ++ ds) = ((runCalls E s cs).1 ++ (runCalls E (runCalls E s cs).2 ds).1,
      (runCalls E (runCalls E s cs).2 ds).2) := by
  induction cs generalizing s with
  | nil => rfl
  | cons c cs ih => simp [runCalls, ih]

/-- h has proof of work after A, under the key of the sync -/
def PowValid (E : SyncEnv) (A : List CBlockHeader) (h : CBlockHeader) : Prop :=
  E.powOk h ((E.chainStart.extend A).nHeight + 1) (keyBlocks E [] E.chainStart A) false = true

/-- the checks on a header that do not depend on the phase -/
def HeaderOk (E : SyncEnv) (A : List CBlockHeader) (h : CBlockHeader) : Prop := DifficultyOk E A h ∧ PowValid E A h

/-- a call with `pow_checked` has headers with proof of work -/
def PowFlagsTruthful (E : SyncEnv) : List CBlockHeader → List SyncCall → Prop
  | _, [] => True
  | A, c :: cs => (c.powChecked = true → AllOk (PowValid E) A c.headers) ∧ PowFlagsTruthful E (A ++ c.headers) cs

/-! ## PRESYNC -/

variable {c : SyncCall} {pre : List SyncCall} {powChecked : Bool} {A hs P L X : List CBlockHeader}

theorem powFlagsTruthful_append {cs ds : List SyncCall} :
    PowFlagsTruthful E A (cs ++ ds) ↔ PowFlagsTruthful E A cs ∧ PowFlagsTruthful E (A ++ sent cs) ds := by
  induction cs generalizing A with
  | nil => simp [PowFlagsTruthful, sent]
  | cons c cs ih => simp [PowFlagsTruthful, ih, sent, and_assoc]

theorem foldlM_redownload_state {s t : HeadersSyncState}
    (h : hs.foldlM (validateAndStoreRedownloadedHeader E powChecked) s = .ok t) :
    t.downloadState = s.downloadState := by
  induction hs generalizing s with
  | nil =>
    obtain rfl : s = t := by simpa [pure, Except.pure] using h
    rfl
  | cons x hs ih =>
    obtain ⟨m, hm, ht⟩ := foldlM_cons_ok.1 h
    rw [ih ht]
    obtain ⟨-, -, -, -, rfl⟩ := (redownloadedHeader_ok E powChecked s m x).1 hm
    rfl

/-- No call leads back to PRESYNC. -/
theorem presync_of_call {s : HeadersSyncState} (h : (processNextHeaders E s c).2.downloadState = .PRESYNC) :
    s.downloadState = .PRESYNC := by
  cases hs : s.downloadState with
  | PRESYNC => rfl
  | FINAL =>
    have hcall : processNextHeaders E s c = (⟨[], false, false⟩, s) := by simp [processNextHeaders, hs]
    rw [hcall, hs] at h
    cases h
  | REDOWNLOAD =>
    by_cases hempty : c.headers = []
    · have hcall : processNextHeaders E s c = (⟨[], false, false⟩, s) := by simp [processNextHeaders, hempty]
      rw [hcall, hs] at h
      cases h
    · rw [processNextHeaders, if_neg (by simpa using hempty), hs] at h
      cases hf : c.headers.foldlM (validateAndStoreRedownloadedHeader E c.powChecked) s with
      | error e => simp [hf, HeadersSyncState.finalize] at h
      | ok m =>
        have hpop : (popHeadersReadyForAcceptance E m).2.downloadState = .REDOWNLOAD :=
          (foldlM_redownload_state hf).trans hs
        rw [hf] at h
        simp only at h
        split_ifs at h
        · cases h
        · rw [hpop] at h
          cases h
        · cases h

theorem presyncOk_headerOk (hok : AllOk (PresyncOk E powChecked) P hs)
    (htrue : powChecked = true → AllOk (PowValid E) P hs) : AllOk (HeaderOk E) P hs := by
  refine AllOk.of_get fun i x hx => ?_
  have hx' := hok.get hx
  refine ⟨?_, ?_⟩
  · have hd := hx'.difficulty
    rwa [extend_nHeight] at hd
  · cases powChecked with
    | false => exact hx'.pow
    | true => exact (htrue rfl).get hx

/-- A PRESYNC call that does not end the sync accepted all its headers. -/
theorem presync_call_continues (h : (processNextHeaders E (presynced E P) c).2.downloadState ≠ .FINAL) :
    AllOk (PresyncOk E c.powChecked) P c.headers ∧
      (processNextHeaders E (presynced E P) c).2 = if c.headers = [] then presynced E P else
        afterPresync E (P ++ c.headers) := by
  by_cases hempty : c.headers = []
  · have hcall : processNextHeaders E (presynced E P) c = (⟨[], false, false⟩, presynced E P) := by
      simp [processNextHeaders, hempty]
    rw [hcall, if_pos hempty, hempty]
    exact ⟨trivial, rfl⟩
  · rw [if_neg hempty]
    rw [processNextHeaders, if_neg (by simpa using hempty), presynced_downloadState] at h ⊢
    cases hv : validateAndStoreHeadersCommitments E c.powChecked (presynced E P) c.headers with
    | error s =>
      rw [hv] at h
      exact absurd rfl h
    | ok s =>
      obtain ⟨-, hok, rfl⟩ := (validateAndStoreHeadersCommitments_ok E c.powChecked P c.headers hempty s).1 hv
      refine ⟨hok, ?_⟩
      rw [hv] at h
      simp only at h ⊢
      split_ifs at h ⊢
      · rfl
      · exact absurd rfl h

theorem presync_calls (h : (runCalls E (HeadersSyncState.init E) pre).2.downloadState = .PRESYNC) :
    (runCalls E (HeadersSyncState.init E) pre).2 = presynced E (sent pre) ∧
      (PowFlagsTruthful E [] pre → AllOk (HeaderOk E) [] (sent pre)) := by
  induction pre using List.reverseRecOn with
  | nil => exact ⟨rfl, fun _ => trivial⟩
  | append_singleton cs c ih =>
    rw [runCalls_append] at h ⊢
    rw [powFlagsTruthful_append, nil_append]
    obtain ⟨hstate, hok⟩ := ih (presync_of_call h)
    have hcall : (processNextHeaders E (presynced E (sent cs)) c).2.downloadState = .PRESYNC := by
      rw [← hstate]
      exact h
    obtain ⟨hnew, hnext⟩ := presync_call_continues (by rw [hcall]; decide)
    rw [hnext] at hcall
    simp only [runCalls, hstate, hnext, sent_append, sent_singleton]
    refine ⟨?_, fun htrue => AllOk.append.2 ⟨hok htrue.1, presyncOk_headerOk hnew htrue.2.1⟩⟩
    split_ifs with hempty
    · rw [hempty, append_nil]
    · rw [if_neg hempty, afterPresync] at hcall
      rw [afterPresync]
      split_ifs at hcall ⊢
      · cases hcall
      · rfl

/-- The call that turns to REDOWNLOAD. -/
theorem presync_turns {last : SyncCall} (hpre : (runCalls E (HeadersSyncState.init E) pre).2.downloadState = .PRESYNC)
    (hlast : (runCalls E (HeadersSyncState.init E) (pre ++ [last])).2.downloadState = .REDOWNLOAD) :
    (runCalls E (HeadersSyncState.init E) (pre ++ [last])).2 = redownloading E (sent (pre ++ [last])) [] 0 ∧
      (PowFlagsTruthful E [] (pre ++ [last]) → AllOk (HeaderOk E) [] (sent (pre ++ [last]))) := by
  rw [powFlagsTruthful_append, nil_append]
  obtain ⟨hstate, hok⟩ := presync_calls hpre
  rw [runCalls_append] at hlast ⊢
  simp only [runCalls, hstate, sent_append, sent_singleton] at hlast ⊢
  obtain ⟨hnew, hnext⟩ := presync_call_continues (by rw [hlast]; decide)
  rw [hnext] at hlast ⊢
  refine ⟨?_, fun htrue => AllOk.append.2 ⟨hok htrue.1, presyncOk_headerOk hnew htrue.2.1⟩⟩
  split_ifs at hlast ⊢ with hempty
  · cases hlast
  · rw [afterPresync] at hlast ⊢
    split_ifs at hlast ⊢
    · rfl
    · cases hlast

/-! ## REDOWNLOAD -/

theorem runCalls_final {s : HeadersSyncState} (h : s.downloadState = .FINAL) (calls : List SyncCall) :
    (runCalls E s calls).2 = s := by
  have hcall : ∀ c, (processNextHeaders E s c).2 = s := fun c => by simp [processNextHeaders, h]
  induction calls with
  | nil => rfl
  | cons c calls ih => rw [runCalls_cons, hcall c, ih]

/-- Calls that do not end the sync accepted all their headers. -/
theorem redownload_calls_continue {calls : List SyncCall} {r : ℕ} (hr : r ≤ A.length)
    (hA : checkedBits E E.chainStart A <+: commitments E E.chainStart P) (hl : Linked E.chainStart A)
    (h : (runCalls E (redownloading E P A r) calls).2.downloadState ≠ .FINAL) :
    ∃ r', (runCalls E (redownloading E P A r) calls).2 = redownloading E P (A ++ sent calls) r' ∧
      r' ≤ (A ++ sent calls).length ∧
      checkedBits E E.chainStart (A ++ sent calls) <+: commitments E E.chainStart P := by
  induction calls generalizing A r with
  | nil =>
    rw [sent, flatMap_nil, append_nil]
    exact ⟨r, rfl, hr, hA⟩
  | cons c calls ih =>
    obtain ⟨r', hcall⟩ := redownload_call E P A r c hr hA hl
    have hgoes : (processNextHeaders E (redownloading E P A r) c).2.downloadState ≠ .FINAL := by
      intro hfinal
      rw [runCalls_cons, runCalls_final hfinal] at h
      exact h hfinal
    obtain ⟨hnew, hstate⟩ := hcall.goesOn hgoes
    have hle := (hcall.count_le hr).2
    have hok := hcall.ok
    rw [hnew] at hstate hle hok
    rw [runCalls_cons, hstate] at h ⊢
    rw [show sent (c :: calls) = c.headers ++ sent calls from flatMap_cons, ← append_assoc]
    exact ih hle (committed_batch hok hA) (linked_append.2 ⟨hl, RedownloadOk.linkedAll hok⟩) h

theorem powOk_of_unchecked {h : CBlockHeader} {height : ℕ} {m : KeyBlocks} (powChecked : Bool)
    (hpow : E.powOk h height m false = true) : E.powOk h height m powChecked = true := by
  unfold SyncEnv.powOk at hpow ⊢
  cases hkey : E.getRandomXKey height m with
  | none => simp [hkey] at hpow
  | some key =>
    simp only [hkey, Bool.false_or] at hpow
    simp [hpow]

/-- The bits of a second pass over L and an extension are among those of L. -/
theorem honest_committed {b : CBlockIndex} (hmet : workMet E b L = true) (hsends : A <+: L ++ X) :
    checkedBits E b A <+: commitments E b L := by
  obtain ⟨rest, hrest⟩ := hsends
  have hall : checkedBits E b (L ++ X) = checkedBits E b L := by
    rw [checkedBits_append, hmet, if_pos rfl, append_nil]
  refine List.IsPrefix.trans ?_ (checkedBits_prefix_commitments E b L)
  rw [← hall, ← hrest, checkedBits_append]
  exact prefix_append _ _

/-- In a second pass over L and a valid extension X, every next header is acceptable. -/
theorem honest_redownloadOk {r : ℕ} (powChecked : Bool) (hlinked : Linked E.chainStart (L ++ X))
    (hok : AllOk (HeaderOk E) [] (L ++ X)) (hmet : workMet E E.chainStart L = true) (hsends : A ++ hs <+: L ++ X)
    (hbuf : (A = [] ∧ r = 0) ∨ r < A.length) : AllOk (RedownloadOk E L r powChecked) A hs := by
  refine AllOk.of_get fun i x hx => ?_
  obtain ⟨rest, hrest⟩ : A ++ hs.take i ++ [x] <+: L ++ X := by
    refine List.IsPrefix.trans ?_ hsends
    have htake : hs.take i ++ [x] = hs.take (i + 1) := by
      rw [take_add_one, hx]
      rfl
    rw [append_assoc, prefix_append_right_inj, htake]
    exact take_prefix _ _
  have hcommitted := honest_committed hmet ⟨rest, hrest⟩
  have hbuf' : A ++ hs.take i = [] ∨ r < (A ++ hs.take i).length := by
    rcases hbuf with ⟨rfl, rfl⟩ | hlt
    · exact (eq_or_ne _ []).imp_right length_pos_of_ne_nil
    · refine Or.inr ?_
      rw [length_append]
      omega
  rw [append_assoc] at hrest
  rw [← hrest, linked_append] at hlinked
  rw [← hrest, AllOk.append, nil_append] at hok
  obtain ⟨hd, hp⟩ := hok.2.1
  refine ⟨hlinked.2.1, ?_, powOk_of_unchecked powChecked hp, hcommitted⟩
  rw [extend_nHeight]
  rcases hbuf' with hnil | hlt
  · rw [hnil] at hd ⊢
    simpa [DifficultyOk, SyncEnv.previousNBits] using hd
  · rw [previousNBits_buffered E hlt]
    exact hd

/-- the call accepts its headers behind A, releases from position r on, and is the last one if the work is met -/
def AcceptedCall (E : SyncEnv) (P A : List CBlockHeader) (r : ℕ) (c : SyncCall) : Prop :=
  (processNextHeaders E (redownloading E P A r) c).1.success = true ∧
  (processNextHeaders E (redownloading E P A r) c).1.powValidatedHeaders =
    ((A ++ c.headers).drop r).take (releasedCount E (A ++ c.headers) r - r) ∧
  (processNextHeaders E (redownloading E P A r) c).2 = if workMet E E.chainStart (A ++ c.headers) then
    (redownloading E P (A ++ c.headers) (releasedCount E (A ++ c.headers) r)).finalize
    else redownloading E P (A ++ c.headers) (releasedCount E (A ++ c.headers) r)

/-- A REDOWNLOAD call with acceptable headers succeeds; below the required work it must be full to go on. -/
theorem redownload_call_ok {r : ℕ} (hne : c.headers ≠ []) (hr : r ≤ A.length)
    (hA : checkedBits E E.chainStart A <+: commitments E E.chainStart P) (hl : Linked E.chainStart A)
    (hok : AllOk (RedownloadOk E P r c.powChecked) A c.headers)
    (hfull : workMet E E.chainStart (A ++ c.headers) = true ∨ c.fullHeadersMessage = true) :
    AcceptedCall E P A r c := by
  have hloop := (redownload_batch E P r c.powChecked A c.headers _ hr hA).2 ⟨hok, rfl⟩
  have hlinked : Linked E.chainStart (A ++ c.headers) := linked_append.2 ⟨hl, RedownloadOk.linkedAll hok⟩
  have hle : r ≤ (A ++ c.headers).length := by rw [length_append]; omega
  have hpop := popHeadersReadyForAcceptance_eq E P (A ++ c.headers) r hle hlinked
  rw [AcceptedCall, processNextHeaders, if_neg (by simpa using hne), redownloading_downloadState]
  simp only [hloop, hpop]
  by_cases hmet : workMet E E.chainStart (A ++ c.headers) = true
  · have hdone :
        ((redownloading E P (A ++ c.headers) (releasedCount E (A ++ c.headers) r)).redownloadedHeaders.isEmpty &&
        (redownloading E P (A ++ c.headers) (releasedCount E (A ++ c.headers) r)).processAllRemainingHeaders) =
        true := by
      simp [redownloading, releasedCount, hmet]
    rw [if_pos hdone, if_pos hmet]
    exact ⟨rfl, rfl, rfl⟩
  · have hmore :
        ¬ ((redownloading E P (A ++ c.headers) (releasedCount E (A ++ c.headers) r)).redownloadedHeaders.isEmpty &&
        (redownloading E P (A ++ c.headers) (releasedCount E (A ++ c.headers) r)).processAllRemainingHeaders) =
        true := by
      simp [redownloading, hmet]
    rw [if_neg hmore, if_pos (hfull.resolve_left hmet), if_neg hmet]
    exact ⟨rfl, rfl, rfl⟩

section
variable {L X : List CBlockHeader} (hlinked : Linked E.chainStart (L ++ X)) (hok : AllOk (HeaderOk E) [] (L ++ X))
  (hmet : workMet E E.chainStart L = true) {A : List CBlockHeader} {r : ℕ}
include hlinked hok hmet

/-- One batch of an honest second pass. -/
theorem honest_call {c : SyncCall} (hne : c.headers ≠ []) (hbuf : (A = [] ∧ r = 0) ∨ r < A.length)
    (hsends : A ++ c.headers <+: L ++ X)
    (hfull : workMet E E.chainStart (A ++ c.headers) = true ∨ c.fullHeadersMessage = true) :
    AcceptedCall E L A r c := by
  have hr : r ≤ A.length := by
    rcases hbuf with ⟨rfl, rfl⟩ | hlt
    · exact le_refl _
    · exact hlt.le
  have hA := (prefix_append A c.headers).trans hsends
  have hnext := honest_redownloadOk c.powChecked hlinked hok hmet hsends hbuf
  have hl : Linked E.chainStart A := by
    obtain ⟨rest, hrest⟩ := hA
    rw [← hrest, linked_append] at hlinked
    exact hlinked.1
  exact redownload_call_ok hne hr (honest_committed hmet hA) hl hnext hfull

theorem redownload_calls (hsize : 1 ≤ E.redownloadBufferSize) {mid : List SyncCall} {cover : SyncCall}
    (hbuf : (A = [] ∧ r = 0) ∨ r < A.length) (hsends : A ++ sent (mid ++ [cover]) <+: L ++ X)
    (hne : ∀ c ∈ mid ++ [cover], c.headers ≠ [])
    (hfull : ∀ c ∈ mid, c.fullHeadersMessage = true) (hbelow : workMet E E.chainStart (A ++ sent mid) = false)
    (hcover : workMet E E.chainStart (A ++ sent (mid ++ [cover])) = true) :
    let out := runCalls E (redownloading E L A r) (mid ++ [cover])
    (∀ ret ∈ out.1, ret.success = true) ∧
      out.1.flatMap ProcessingResult.powValidatedHeaders = (A ++ sent (mid ++ [cover])).drop r ∧
      out.2.downloadState = .FINAL := by
  -- one batch more of the second pass: by induction on the batches before the covering one
  induction mid generalizing A r with
  | nil =>
    simp only [nil_append, sent_singleton] at hsends hcover hne ⊢
    obtain ⟨hsucc, hret, hstate⟩ := honest_call hlinked hok hmet (hne cover (by simp)) hbuf hsends (Or.inl hcover)
    rw [if_pos hcover] at hstate
    rw [releasedCount, if_pos hcover, take_of_length_le (by simp)] at hret
    simp [runCalls, hsucc, hret, hstate, HeadersSyncState.finalize]
  | cons c mid ih =>
    have hsplit : ∀ ds, A ++ sent (c :: ds) = A ++ c.headers ++ sent ds := fun ds => by simp [sent]
    rw [cons_append, hsplit] at hsends hcover
    rw [hsplit] at hbelow
    have hunmet : workMet E E.chainStart (A ++ c.headers) = false := by
      rw [workMet_append, Bool.or_eq_false_iff] at hbelow
      exact hbelow.1
    obtain ⟨hsucc, hret, hstate⟩ := honest_call hlinked hok hmet (hne c (by simp)) hbuf
      ((prefix_append _ _).trans hsends) (Or.inr (hfull c (by simp)))
    rw [hunmet, if_neg (by simp)] at hstate
    -- a buffer of at least one header keeps the last one
    have hcount : r ≤ releasedCount E (A ++ c.headers) r ∧
        releasedCount E (A ++ c.headers) r < (A ++ c.headers).length := by
      have hpos := length_pos_of_ne_nil (hne c (by simp))
      rw [releasedCount, hunmet, if_neg (by simp), length_append]
      rcases hbuf with ⟨rfl, rfl⟩ | hlt
      · simp only [length_nil]
        omega
      · omega
    obtain ⟨hrest, hreleased, hfinal⟩ := ih (Or.inr hcount.2) hsends (fun d hd => hne d (mem_cons_of_mem _ hd))
      (fun d hd => hfull d (mem_cons_of_mem _ hd)) hbelow hcover
    rw [cons_append, hsplit]
    simp only [runCalls, hstate, mem_cons, forall_eq_or_imp, flatMap_cons, hsucc, hret, hreleased, hfinal, true_and]
    refine ⟨hrest, ?_, trivial⟩
    exact take_drop_append_drop _ hcount.1 hcount.2.le

end

/-! ## Completion -/

/-- A chain that PRESYNC accepted and that is sent again, up to position p and perhaps beyond, is released as a
whole. -/
theorem honest_peer_completes (E : SyncEnv) (hsize : 1 ≤ E.redownloadBufferSize)
    -- PRESYNC accepts L and turns to REDOWNLOAD with its last batch
    (pre : List SyncCall) (last : SyncCall) (hflags : PowFlagsTruthful E [] (pre ++ [last]))
    (hpre : (runCalls E (HeadersSyncState.init E) pre).2.downloadState = .PRESYNC)
    (hlast : (runCalls E (HeadersSyncState.init E) (pre ++ [last])).2.downloadState = .REDOWNLOAD)
    (hL : Linked E.chainStart (sent (pre ++ [last]))) (p : ℕ) (hp : FirstMeets E (sent (pre ++ [last])) p)
    -- a valid extension
    (X : List CBlockHeader) (hX : Linked (E.chainStart.extend (sent (pre ++ [last]))) X)
    (hvalid : AllOk (HeaderOk E) (sent (pre ++ [last])) X)
    -- the second pass, up to the batch that covers p
    (mid : List SyncCall) (cover : SyncCall) (hsends : sent (mid ++ [cover]) <+: sent (pre ++ [last]) ++ X)
    (hne : ∀ c ∈ mid ++ [cover], c.headers ≠ []) (hfull : ∀ c ∈ mid, c.fullHeadersMessage = true)
    (hbelow : (sent mid).length < p) (hcover : p ≤ (sent (mid ++ [cover])).length) :
    let out := runCalls E (runCalls E (HeadersSyncState.init E) (pre ++ [last])).2 (mid ++ [cover])
    (∀ ret ∈ out.1, ret.success = true) ∧ out.1.flatMap ProcessingResult.powValidatedHeaders = sent (mid ++ [cover]) ∧
      out.2.downloadState = .FINAL := by
  intro out
  obtain ⟨hstate, hok⟩ := presync_turns hpre hlast
  have hmid : sent mid <+: sent (pre ++ [last]) ++ X := by
    rw [sent_append] at hsends
    exact (prefix_append _ _).trans hsends
  have hout : out = runCalls E (redownloading E (sent (pre ++ [last])) [] 0) (mid ++ [cover]) := by rw [← hstate]
  rw [hout]
  refine redownload_calls (linked_append.2 ⟨hL, hX⟩) (AllOk.append.2 ⟨hok hflags, hvalid⟩) ?_ hsize (Or.inl ⟨rfl, rfl⟩)
    hsends hne hfull ?_ ?_
  · exact (hp.workMet_iff_le (X := []) (by simp)).2 hp.le
  · rw [nil_append, ← Bool.not_eq_true, hp.workMet_iff_le hmid]
    omega
  · exact (hp.workMet_iff_le hsends).2 hcover

end

/-! ## The buffer size matters -/

section
attribute [local instance] toyCrypto

/-- parameters with one RandomX key that adjust the difficulty at every block -/
def steepParams : Params :=
  { mainParams with
    randomxEpochBlocks := 0
    schedule_ok := sampleParams.schedule_ok
    powLimit := Uint256.ofNat (0x7fffff * 2 ^ 232)
    nPowTargetSpacing := 4
    nPowTargetTimespan := 4
    timespan_ok := by decide }

def steepHeader (nVersion : Int32) (hashPrevBlock : Uint256) (nBits : UInt32) : CBlockHeader :=
  ⟨nVersion, hashPrevBlock, Uint256.null, 0, nBits, 0⟩

/-- a chain whose target falls to a quarter at each block: works 2, 8 and 32 -/
def steepStart : CBlockHeader := steepHeader 1 Uint256.null 0x207fffff
def steepFirst : CBlockHeader := steepHeader 2 steepStart.getHash 0x201fffff
def steepSecond : CBlockHeader := steepHeader 3 steepFirst.getHash 0x2007ffff

def steepSync (bufferSize : ℕ) : SyncEnv where
  P := steepParams
  commitmentPeriod := 2
  redownloadBufferSize := bufferSize
  chainStart := CBlockIndex.root steepStart
  minimumRequiredWork := 42
  commitOffset := 1
  hasher := fun h => UInt64.ofNat (h.bytes.headD 0).toNat
  maxCommitments := 10
  period_pos := sampleSync.period_pos
  offset_lt := sampleSync.offset_lt

/-- the first pass in one batch, the second in two -/
def steepPresync : SyncCall := ⟨[steepFirst, steepSecond], true, false⟩
def steepAgain : SyncCall := ⟨[steepFirst], true, false⟩
def steepCover : SyncCall := ⟨[steepSecond], true, false⟩

theorem steep_linked (bufferSize : ℕ) : Linked (steepSync bufferSize).chainStart [steepFirst, steepSecond] :=
  ⟨rfl, rfl, trivial⟩

theorem steep_firstMeets (bufferSize : ℕ) : FirstMeets (steepSync bufferSize) [steepFirst, steepSecond] 2 where
  pos := by decide
  le := by decide
  meets := by
    change (((CBlockIndex.root steepStart).child steepFirst).child steepSecond).nChainWork ≥ 42
    decide +kernel
  first := by
    intro j hj hlt
    obtain rfl : j = 1 := by omega
    change ((CBlockIndex.root steepStart).child steepFirst).nChainWork < 42
    decide +kernel

theorem steep_completes :
    let out := runCalls (steepSync 1)
      (runCalls (steepSync 1) (HeadersSyncState.init (steepSync 1)) ([] ++ [steepPresync])).2
      ([steepAgain] ++ [steepCover])
    (∀ ret ∈ out.1, ret.success = true) ∧
      out.1.flatMap ProcessingResult.powValidatedHeaders = sent ([steepAgain] ++ [steepCover]) ∧
      out.2.downloadState = .FINAL := by
  have hturns : (runCalls (steepSync 1) (HeadersSyncState.init (steepSync 1)) ([] ++ [steepPresync])).2.downloadState =
      .REDOWNLOAD := by
    decide +kernel
  have hflags : PowFlagsTruthful (steepSync 1) [] ([] ++ [steepPresync]) :=
    ⟨fun h => by simp [steepPresync] at h, trivial⟩
  exact honest_peer_completes (steepSync 1) (le_refl 1) [] steepPresync hflags rfl hturns (steep_linked 1) 2
    (steep_firstMeets 1)
    [] trivial trivial [steepAgain] steepCover prefix_rfl (by simp [steepAgain, steepCover]) (by simp [steepAgain])
    (by decide) (by decide)

/-- With a buffer of no header, an honest peer fails: its second header is compared with the start block. -/
theorem unbuffered_peer_fails : let L := sent ([] ++ [steepPresync])
    let presync := (runCalls (steepSync 0) (HeadersSyncState.init (steepSync 0)) ([] ++ [steepPresync])).2
    Linked (steepSync 0).chainStart L ∧ presync.downloadState = .REDOWNLOAD ∧ FirstMeets (steepSync 0) L 2 ∧
    sent ([steepAgain] ++ [steepCover]) = L ∧ (runCalls (steepSync 0) presync ([steepAgain] ++ [steepCover])).1 =
      [⟨[steepFirst], true, true⟩, ⟨[], false, false⟩] :=
  ⟨steep_linked 0, by decide +kernel, steep_firstMeets 0, rfl, by decide +kernel⟩

end

end ConnectCoin
