/-
What a headers sync releases, over every run of calls.

Model: `SyncRun` is the sync with ghost lists: the headers accepted in PRESYNC, those accepted in REDOWNLOAD (one by
one, also of a batch that fails later on), those returned to the caller, and for each of these how many headers had been
accepted in REDOWNLOAD when it was returned. Batches, fullness and `pow_checked` flags are arbitrary.

Results:
- `SyncRun.Inv`: the invariant, kept by every call (`inv_step`), hence true of every run (`inv_run`);
- `released_redownloaded`: what is released is a prefix of the redownloaded chain, with the checks made on it.
-/
import ConnectCoin.Sync.SyncModel

namespace ConnectCoin

open Lib CBlockIndex List

section
variable [Crypto]

/-! ## Runs -/

/-- the headers a call accepts before it fails or ends -/
def acceptedInCall (E : SyncEnv) (s : HeadersSyncState) (call : SyncCall) : List CBlockHeader :=
  match s.downloadState with
  | .FINAL => []
  | .PRESYNC =>
    if call.headers.head?.map CBlockHeader.hashPrevBlock = some s.lastHeaderReceived.getHash then
      accepted (validateAndProcessSingleHeader E call.powChecked) s call.headers
    else []
  | .REDOWNLOAD => accepted (validateAndStoreRedownloadedHeader E call.powChecked) s call.headers

structure SyncRun where
  state : HeadersSyncState
  presynced : List CBlockHeader
  redownloaded : List CBlockHeader
  released : List CBlockHeader
  /-- for each released header, how many headers had been redownloaded -/
  releasedAt : List ℕ

namespace SyncRun

variable (E : SyncEnv)

def init : SyncRun := ⟨HeadersSyncState.init E, [], [], [], []⟩

def step (t : SyncRun) (call : SyncCall) : SyncRun :=
  let (ret, state) := processNextHeaders E t.state call
  let new := acceptedInCall E t.state call
  let redownloaded := if t.state.downloadState = .REDOWNLOAD then t.redownloaded ++ new else t.redownloaded
  { state := state
    presynced := if t.state.downloadState = .PRESYNC then t.presynced ++ new else t.presynced
    redownloaded := redownloaded
    released := t.released ++ ret.powValidatedHeaders
    releasedAt := t.releasedAt ++ ret.powValidatedHeaders.map fun _ => redownloaded.length }

def run (calls : List SyncCall) : SyncRun := calls.foldl (step E) (init E)

end SyncRun

/-! ## One call -/

variable (E : SyncEnv) (P : List CBlockHeader)

@[simp] theorem presynced_downloadState : (presynced E P).downloadState = .PRESYNC := rfl
@[simp] theorem redownloading_downloadState (A : List CBlockHeader) (r : ℕ) :
    (redownloading E P A r).downloadState = .REDOWNLOAD := rfl

/-- the members of the sync are those of the model, or the sync is over -/
inductive Tracks (E : SyncEnv) : HeadersSyncState → List CBlockHeader → List CBlockHeader → ℕ → Prop
  | presync (P : List CBlockHeader) : Tracks E (presynced E P) P [] 0
  | redownload (P A : List CBlockHeader) (r : ℕ) : Tracks E (redownloading E P A r) P A r
  | final (s : HeadersSyncState) (P A : List CBlockHeader) (r : ℕ) (h : s.downloadState = .FINAL) : Tracks E s P A r

theorem finalize_tracks (s : HeadersSyncState) (P A : List CBlockHeader) (r : ℕ) : Tracks E s.finalize P A r :=
  .final _ _ _ _ rfl

theorem redownloading_nil : redownloading E P [] 0 = { presynced E P with
      redownloadedHeaders := []
      redownloadBufferLastHeight := E.chainStart.nHeight
      redownloadBufferFirstPrevHash := E.chainStart.getBlockHash
      redownloadBufferLastHash := E.chainStart.getBlockHash
      redownloadChainWork := E.chainStart.nChainWork
      downloadState := .REDOWNLOAD } := rfl

/-- The phase after a PRESYNC batch. -/
def afterPresync : HeadersSyncState :=
  if (E.chainStart.extend P).nChainWork ≥ E.minimumRequiredWork then redownloading E P [] 0 else presynced E P

theorem validateAndStoreHeadersCommitments_ok (powChecked : Bool)
    (P hs : List CBlockHeader) (hne : hs ≠ []) (t : HeadersSyncState) :
    validateAndStoreHeadersCommitments E powChecked (presynced E P) hs = .ok t ↔
      hs.head?.map CBlockHeader.hashPrevBlock = some (E.chainStart.extend P).getBlockHash ∧
      AllOk (PresyncOk E powChecked) P hs ∧ t = afterPresync E (P ++ hs) := by
  obtain ⟨first, rest, rfl⟩ := exists_cons_of_ne_nil hne
  rw [validateAndStoreHeadersCommitments, ite_error_ok, not_not]
  refine and_congr (by simp [presynced, getBlockHash]) ?_
  cases hf : (first :: rest).foldlM (validateAndProcessSingleHeader E powChecked) (presynced E P) with
  | error e =>
    refine ⟨fun h => by simp at h, fun h => ?_⟩
    rw [(presync_batch E powChecked P (first :: rest) _).2 ⟨h.1, rfl⟩] at hf
    cases hf
  | ok m =>
    obtain ⟨hok, rfl⟩ := (presync_batch E powChecked P (first :: rest) m).1 hf
    by_cases hwork : (E.chainStart.extend (P ++ first :: rest)).nChainWork ≥ E.minimumRequiredWork
    · simp [presynced, afterPresync, hwork, hok, redownloading_nil, eq_comm]
    · simp [presynced, afterPresync, hwork, hok, eq_comm]

theorem presync_call (call : SyncCall) : (processNextHeaders E (presynced E P) call).1.powValidatedHeaders = [] ∧
      Tracks E (processNextHeaders E (presynced E P) call).2 (P ++ acceptedInCall E (presynced E P) call) [] 0 := by
  by_cases hempty : call.headers = []
  · have hnone : acceptedInCall E (presynced E P) call = [] := by
      simp [acceptedInCall, hempty]
    rw [hnone, append_nil, processNextHeaders, if_pos (by simp [hempty])]
    exact ⟨rfl, .presync P⟩
  · rw [processNextHeaders, if_neg (by simpa using hempty)]
    rw [presynced_downloadState]
    cases hv : validateAndStoreHeadersCommitments E call.powChecked (presynced E P) call.headers with
    | error s => exact ⟨rfl, finalize_tracks ..⟩
    | ok s =>
      obtain ⟨hfirst, hok, rfl⟩ :=
        (validateAndStoreHeadersCommitments_ok E call.powChecked P call.headers hempty s).1 hv
      have hall : acceptedInCall E (presynced E P) call = call.headers := by
        have hloop := (presync_batch E call.powChecked P call.headers _).2 ⟨hok, rfl⟩
        rw [acceptedInCall, presynced_downloadState]
        exact (if_pos hfirst).trans (accepted_eq_self hloop)
      simp only [hall]
      split_ifs
      · refine ⟨rfl, ?_⟩
        unfold afterPresync
        split_ifs
        · exact .redownload (P ++ call.headers) [] 0
        · exact .presync (P ++ call.headers)
      · exact ⟨rfl, finalize_tracks ..⟩

/-- what a REDOWNLOAD call does: it accepts headers one by one, and returns a stretch of the accepted headers or
nothing -/
structure RedownloadCall (A : List CBlockHeader) (r : ℕ) (call : SyncCall) (new : List CBlockHeader)
    (ret : List CBlockHeader) (s : HeadersSyncState) (r' : ℕ) : Prop where
  ok : AllOk (RedownloadOk E P r call.powChecked) A new
  tracks : Tracks E s P (A ++ new) r'
  stretch : ret = ((A ++ new).drop r).take (r' - r)
  count : (r' = r ∧ (new = [] ∨ s.downloadState = .FINAL)) ∨ (new ≠ [] ∧ r' = releasedCount E (A ++ new) r)
  finished : new ≠ [] → workMet E E.chainStart (A ++ new) = true → s.downloadState = .FINAL
  goesOn : s.downloadState ≠ .FINAL → new = call.headers ∧ s = redownloading E P (A ++ new) r'

variable {E : SyncEnv} {powChecked : Bool}

theorem RedownloadOk.linkedAll {P A hs : List CBlockHeader} {r : ℕ}
    (h : AllOk (RedownloadOk E P r powChecked) A hs) : Linked (E.chainStart.extend A) hs := by
  induction hs generalizing A with
  | nil => trivial
  | cons x hs ih =>
    refine ⟨h.1.linked, ?_⟩
    have hrest := ih h.2
    rwa [extend_append] at hrest

theorem redownload_call (E : SyncEnv) (P A : List CBlockHeader) (r : ℕ) (call : SyncCall) (hr : r ≤ A.length)
    (hA : checkedBits E E.chainStart A <+: commitments E E.chainStart P) (hl : Linked E.chainStart A) :
    ∃ r', RedownloadCall E P A r call (acceptedInCall E (redownloading E P A r) call)
      (processNextHeaders E (redownloading E P A r) call).1.powValidatedHeaders
      (processNextHeaders E (redownloading E P A r) call).2 r' := by
  have hnew : acceptedInCall E (redownloading E P A r) call =
      accepted (validateAndStoreRedownloadedHeader E call.powChecked) (redownloading E P A r) call.headers := rfl
  have hok : AllOk (RedownloadOk E P r call.powChecked) A (acceptedInCall E (redownloading E P A r) call) := by
    obtain ⟨t, ht⟩ := foldlM_accepted (validateAndStoreRedownloadedHeader E call.powChecked)
      (redownloading E P A r) call.headers
    exact ((redownload_batch E P r call.powChecked A _ t hr hA).1 ht).1
  by_cases hempty : call.headers = []
  · have hnone : acceptedInCall E (redownloading E P A r) call = [] := by rw [hnew, hempty]; rfl
    rw [hnone, processNextHeaders, if_pos (by simp [hempty])]
    refine ⟨r, trivial, ?_, by simp, Or.inl ⟨rfl, Or.inl rfl⟩, fun h => absurd rfl h, fun _ => ⟨hempty.symm, ?_⟩⟩
    · rw [append_nil]
      exact .redownload P A r
    · rw [append_nil]
  · rw [processNextHeaders, if_neg (by simpa using hempty), redownloading_downloadState]
    cases hf : call.headers.foldlM (validateAndStoreRedownloadedHeader E call.powChecked) (redownloading E P A r) with
    | error s =>
      exact ⟨r, hok, finalize_tracks .., by simp, Or.inl ⟨rfl, Or.inr rfl⟩, fun _ _ => rfl, fun h => absurd rfl h⟩
    | ok s =>
      obtain ⟨-, rfl⟩ := (redownload_batch E P r call.powChecked A call.headers s hr hA).1 hf
      have hall : acceptedInCall E (redownloading E P A r) call = call.headers := by
        rw [hnew]; exact accepted_eq_self hf
      rw [hall] at hok ⊢
      have hlinked : Linked E.chainStart (A ++ call.headers) := linked_append.2 ⟨hl, RedownloadOk.linkedAll hok⟩
      have hle : r ≤ (A ++ call.headers).length := by rw [length_append]; omega
      simp only [popHeadersReadyForAcceptance_eq E P (A ++ call.headers) r hle hlinked]
      refine ⟨releasedCount E (A ++ call.headers) r, ?_⟩
      split_ifs with hdone
      · exact ⟨hok, finalize_tracks .., rfl, Or.inr ⟨hempty, rfl⟩, fun _ _ => rfl, fun h => absurd rfl h⟩
      · refine ⟨hok, .redownload .., rfl, Or.inr ⟨hempty, rfl⟩, fun _ hmet => absurd ?_ hdone, fun _ => ⟨rfl, rfl⟩⟩
        simp [redownloading, releasedCount, hmet]
      · exact ⟨hok, finalize_tracks .., rfl, Or.inr ⟨hempty, rfl⟩, fun _ _ => rfl, fun h => absurd rfl h⟩

/-! ## The invariant -/

/-- the difficulty check of h against its true predecessor -/
def DifficultyOk (E : SyncEnv) (A : List CBlockHeader) (h : CBlockHeader) : Prop :=
  permittedDifficultyTransition E.P (E.chainStart.nHeight + A.length + 1) (E.chainStart.extend A).header.nBits h.nBits =
    true

/-- what holds of a sync and its history between calls -/
structure SyncRun.Inv (E : SyncEnv) (t : SyncRun) : Prop where
  tracks : Tracks E t.state t.presynced t.redownloaded t.released.length
  /-- between calls the buffer is empty only before the first header -/
  buffered : t.state.downloadState = .REDOWNLOAD → t.redownloaded = [] ∨ t.released.length < t.redownloaded.length
  unreleased : t.released = t.redownloaded.take t.released.length
  linked : Linked E.chainStart t.redownloaded
  difficulty : AllOk (DifficultyOk E) [] t.redownloaded
  committed : checkedBits E E.chainStart t.redownloaded <+: commitments E E.chainStart t.presynced
  times : t.releasedAt.length = t.released.length
  lookahead : ∀ i n, t.releasedAt[i]? = some n → n ≤ t.redownloaded.length ∧
    (workMet E E.chainStart (t.redownloaded.take n) = false → i + E.redownloadBufferSize < n)

/-- While the buffer holds the last header, the difficulty check is made against it. -/
theorem RedownloadOk.difficultyOk {P A : List CBlockHeader} {r : ℕ} {h : CBlockHeader}
    (hok : RedownloadOk E P r powChecked A h) (hbuf : A = [] ∨ r < A.length) : DifficultyOk E A h := by
  have hd := hok.difficulty
  rw [extend_nHeight] at hd
  rcases hbuf with rfl | hlt
  · simpa [DifficultyOk, SyncEnv.previousNBits] using hd
  · rwa [previousNBits_buffered E hlt] at hd

theorem difficulty_batch {P A hs : List CBlockHeader} {r : ℕ}
    (hok : AllOk (RedownloadOk E P r powChecked) A hs) (hbuf : (A = [] ∧ r = 0) ∨ r < A.length) :
    AllOk (DifficultyOk E) A hs := by
  refine AllOk.of_get fun i x hx => (hok.get hx).difficultyOk ?_
  rcases hbuf with ⟨rfl, rfl⟩ | hlt
  · exact (eq_or_ne _ []).imp_right length_pos_of_ne_nil
  · refine Or.inr ?_
    rw [length_append]
    omega

theorem committed_batch {P A hs : List CBlockHeader} {r : ℕ} (hok : AllOk (RedownloadOk E P r powChecked) A hs)
    (hA : checkedBits E E.chainStart A <+: commitments E E.chainStart P) :
    checkedBits E E.chainStart (A ++ hs) <+: commitments E E.chainStart P :=
  AllOk.keeps (I := fun A => checkedBits E E.chainStart A <+: commitments E E.chainStart P)
    (fun _ _ _ h => h.committed) hA hok

/-- A call moves the count of released headers on, within what was accepted. -/
theorem RedownloadCall.count_le {P A new ret : List CBlockHeader} {r r' : ℕ} {call : SyncCall} {s : HeadersSyncState}
    (h : RedownloadCall E P A r call new ret s r') (hr : r ≤ A.length) : r ≤ r' ∧ r' ≤ (A ++ new).length := by
  have hle : r ≤ (A ++ new).length := by
    rw [length_append]
    omega
  rcases h.count with ⟨rfl, -⟩ | ⟨-, rfl⟩
  · exact ⟨le_refl _, hle⟩
  · exact releasedCount_le E hle

theorem SyncRun.Inv.released_le {t : SyncRun} (h : Inv E t) : t.released.length ≤ t.redownloaded.length := by
  have hlen := congrArg List.length h.unreleased
  rw [length_take] at hlen
  omega

theorem inv_redownload_call (hbuf : 1 ≤ E.redownloadBufferSize) {P A R : List CBlockHeader} {T : List ℕ}
    (h : SyncRun.Inv E ⟨redownloading E P A R.length, P, A, R, T⟩) {call : SyncCall} {new ret : List CBlockHeader}
    {s : HeadersSyncState} {r' : ℕ} (hcall : RedownloadCall E P A R.length call new ret s r') :
    SyncRun.Inv E ⟨s, P, A ++ new, R ++ ret, T ++ ret.map fun _ => (A ++ new).length⟩ := by
  have hR : R.length ≤ A.length := h.released_le
  have hr' := hcall.count_le hR
  have hreleased : R ++ ret = (A ++ new).take r' := by
    have htake : (A ++ new).take R.length = R := by
      rw [take_append_of_le_length hR]
      exact h.unreleased.symm
    nth_rewrite 1 [← htake]
    rw [hcall.stretch, ← take_add, Nat.add_sub_cancel' hr'.1]
  have hlen : (R ++ ret).length = r' := by
    rw [hreleased, length_take]
    omega
  refine { tracks := ?_, buffered := ?_, unreleased := ?_, linked := ?_, difficulty := ?_, committed := ?_,
           times := ?_, lookahead := ?_ }
  · rw [hlen]
    exact hcall.tracks
  · intro hstate
    rw [hlen]
    rcases hcall.count with ⟨rfl, hnew | hfinal⟩ | ⟨hnew, rfl⟩
    · rw [hnew, append_nil]
      exact h.buffered rfl
    · rw [hfinal] at hstate
      cases hstate
    · -- the work is not met yet, so a whole buffer stays
      refine Or.inr ?_
      have hpos := length_pos_of_ne_nil hnew
      have hunmet : workMet E E.chainStart (A ++ new) = false := by
        by_contra hmet
        rw [hcall.finished hnew (by simpa using hmet)] at hstate
        cases hstate
      rw [releasedCount, hunmet, if_neg (by simp), length_append]
      omega
  · rw [hlen]
    exact hreleased
  · exact linked_append.2 ⟨h.linked, RedownloadOk.linkedAll hcall.ok⟩
  · refine AllOk.append.2 ⟨h.difficulty, difficulty_batch hcall.ok ?_⟩
    have hbuffered : A = [] ∨ R.length < A.length := h.buffered rfl
    rcases hbuffered with rfl | hlt
    · exact Or.inl ⟨rfl, Nat.le_zero.1 hR⟩
    · exact Or.inr hlt
  · exact committed_batch hcall.ok h.committed
  · have hT : T.length = R.length := h.times
    simp [hT]
  · intro i n hn
    rw [getElem?_append] at hn
    split_ifs at hn with hi
    · -- a header released by an earlier call
      obtain ⟨hle, hahead⟩ := h.lookahead i n hn
      refine ⟨by rw [length_append]; exact hle.trans (Nat.le_add_right _ _), ?_⟩
      rw [take_append_of_le_length hle]
      exact hahead
    · have hT : T.length = R.length := h.times
      rw [getElem?_map, Option.map_eq_some_iff] at hn
      obtain ⟨x, hx, rfl⟩ := hn
      obtain ⟨hlt, -⟩ := List.getElem?_eq_some_iff.1 hx
      have hi' : i < r' := by
        rw [length_append] at hlen
        omega
      refine ⟨le_refl _, fun hunmet => ?_⟩
      rw [take_length] at hunmet
      rcases hcall.count with ⟨rfl, -⟩ | ⟨-, rfl⟩
      · omega
      · rw [releasedCount, hunmet, if_neg (by simp)] at hi'
        omega

theorem SyncRun.inv_init (E : SyncEnv) : Inv E (init E) where
  tracks := .presync []
  buffered := fun _ => Or.inl rfl
  unreleased := rfl
  linked := trivial
  difficulty := trivial
  committed := nil_prefix
  times := rfl
  lookahead := by
    intro i n hn
    simp [init] at hn

theorem SyncRun.inv_step (hbuf : 1 ≤ E.redownloadBufferSize) {t : SyncRun} (h : Inv E t) (call : SyncCall) :
    Inv E (step E t call) := by
  obtain ⟨s, P, A, R, T⟩ := t
  have htracks : Tracks E s P A R.length := h.tracks
  generalize hr : R.length = r at htracks
  cases htracks with
  | presync P =>
    obtain rfl : R = [] := length_eq_zero_iff.1 hr
    obtain ⟨hnone, hstep⟩ := presync_call E P call
    have hT : T = [] := length_eq_zero_iff.1 h.times
    simp only [step, presynced_downloadState, hnone, hT, if_true, append_nil, map_nil]
    exact
      { tracks := hstep
        buffered := fun _ => Or.inl rfl
        unreleased := rfl
        linked := trivial
        difficulty := trivial
        committed := nil_prefix
        times := rfl
        lookahead := by simp }
  | redownload P A r =>
    subst hr
    obtain ⟨r', hcall⟩ := redownload_call E P A R.length call h.released_le h.committed h.linked
    exact inv_redownload_call hbuf h hcall
  | final s P A r hfinal =>
    -- a finished sync returns nothing and stays as it is
    have hcall : processNextHeaders E s call = (⟨[], false, false⟩, s) := by
      simp [processNextHeaders, hfinal]
    have hstep : step E ⟨s, P, A, R, T⟩ call = ⟨s, P, A, R, T⟩ := by
      simp [step, hcall, hfinal]
    rw [hstep]
    exact h

theorem SyncRun.inv_run (hbuf : 1 ≤ E.redownloadBufferSize) (calls : List SyncCall) : Inv E (run E calls) := by
  induction calls using List.reverseRecOn with
  | nil => exact inv_init E
  | append_singleton calls call ih =>
    rw [run, foldl_append]
    exact inv_step hbuf ih call

/-- In every run, what is released is a prefix of the chain accepted in REDOWNLOAD, linked to the start block. Each
header of that chain passed the difficulty check against its true predecessor. A released header at a commitment height
that was reached below the required work shows the bit of the PRESYNC header of that height. A header released while the
redownloaded work was below the required work had more than the buffer size of headers buffered, itself included. -/
theorem released_redownloaded (E : SyncEnv) (hbuf : 1 ≤ E.redownloadBufferSize) (calls : List SyncCall) :
    let t := SyncRun.run E calls
    let work (j : ℕ) := (E.chainStart.extend (t.redownloaded.take j)).nChainWork
    t.released <+: t.redownloaded ∧ Linked E.chainStart t.released ∧
    (∀ i h, t.redownloaded[i]? = some h → permittedDifficultyTransition E.P (E.chainStart.nHeight + i + 1)
      (E.chainStart.extend (t.redownloaded.take i)).header.nBits h.nBits = true) ∧
    (∀ i h, t.released[i]? = some h → E.isCommitHeight (E.chainStart.nHeight + i + 1) = true →
      (∀ j, 1 ≤ j → j ≤ i + 1 → work j < E.minimumRequiredWork) →
      ∃ p, t.presynced[i]? = some p ∧ E.commitment h = E.commitment p) ∧
    t.releasedAt.length = t.released.length ∧
    (∀ i n, t.releasedAt[i]? = some n → (∀ j, 1 ≤ j → j ≤ n → work j < E.minimumRequiredWork) →
      E.redownloadBufferSize < n - i) := by
  intro t work
  have hinv : SyncRun.Inv E t := SyncRun.inv_run hbuf calls
  have hpre : t.released <+: t.redownloaded := by
    rw [hinv.unreleased]
    exact take_prefix _ _
  have hunmet : ∀ n, (∀ j, 1 ≤ j → j ≤ n → work j < E.minimumRequiredWork) →
      workMet E E.chainStart (t.redownloaded.take n) = false := by
    intro n hlow
    by_contra hmet
    obtain ⟨j, hj, hle, hwork⟩ := (workMet_iff E _ _).1 (by simpa using hmet)
    rw [length_take] at hle
    rw [take_take, min_eq_left (by omega)] at hwork
    exact absurd hwork (by simpa [work] using hlow j hj (by omega))
  refine ⟨hpre, ?_, ?_, ?_, hinv.times, ?_⟩
  · obtain ⟨rest, hrest⟩ := hpre
    have hlinked := hinv.linked
    rw [← hrest, linked_append] at hlinked
    exact hlinked.1
  · intro i h hi
    have hd := hinv.difficulty.get hi
    obtain ⟨hlt, -⟩ := List.getElem?_eq_some_iff.1 hi
    rw [nil_append, DifficultyOk, length_take, min_eq_left hlt.le] at hd
    exact hd
  · intro i h hi hcommit hlow
    have hall : t.redownloaded[i]? = some h := by
      obtain ⟨rest, hrest⟩ := hpre
      obtain ⟨hlt, -⟩ := List.getElem?_eq_some_iff.1 hi
      rw [← hrest, getElem?_append_left hlt]
      exact hi
    exact commitment_eq_of_prefix E rfl hinv.committed hall hcommit (hunmet (i + 1) hlow)
  · intro i n hi hlow
    have hahead := (hinv.lookahead i n hi).2 (hunmet n hlow)
    omega

end

/-! ## A run -/

section
attribute [local instance] toyCrypto

/-- parameters with one RandomX key and free difficulty -/
def sampleParams : Params :=
  { mainParams with
    randomxEpochBlocks := 0
    schedule_ok := Or.inl rfl
    fPowAllowMinDifficultyBlocks := true }

def sampleHeader (nVersion : Int32) (hashPrevBlock : Uint256) : CBlockHeader :=
  ⟨nVersion, hashPrevBlock, Uint256.null, 0, 0x207fffff, 0⟩

/-- two headers over a start block, worth 2 each; 6 are required -/
def sampleStart : CBlockHeader := sampleHeader 1 Uint256.null
def sampleFirst : CBlockHeader := sampleHeader 2 sampleStart.getHash
def sampleSecond : CBlockHeader := sampleHeader 3 sampleFirst.getHash

def sampleSync : SyncEnv where
  P := sampleParams
  commitmentPeriod := 2
  redownloadBufferSize := 1
  chainStart := CBlockIndex.root sampleStart
  minimumRequiredWork := 6
  commitOffset := 1
  hasher := fun h => UInt64.ofNat (h.bytes.headD 0).toNat
  maxCommitments := 10
  period_pos := by decide
  offset_lt := by decide

def sampleCalls : List SyncCall :=
  [⟨[sampleFirst, sampleSecond], true, true⟩, ⟨[sampleFirst], true, true⟩, ⟨[sampleSecond], true, true⟩]

theorem sampleSync_released : (SyncRun.run sampleSync sampleCalls).released = [sampleFirst, sampleSecond] ∧
    (SyncRun.run sampleSync sampleCalls).released <+: (SyncRun.run sampleSync sampleCalls).redownloaded :=
  ⟨by decide +kernel, (released_redownloaded sampleSync (by decide) sampleCalls).1⟩

end

end ConnectCoin
