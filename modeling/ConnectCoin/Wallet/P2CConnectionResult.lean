/-
One completed TLS attempt against a pay-to-connect output (`ObserveP2CTlsCapture` in `wallet/p2c_connection_result.h`,
`P2CCapturedProof` and the end of `CaptureP2CTlsParsed` in `wallet/p2c_tls.cpp`).

There are two overloads. One gets the captured bytes and parses them under the output's domain and the challenge; the
other gets the capture object, which holds the parse made at capture time, and compares the stored domain and challenge
instead.
- `P2CCapturedProof`: the capture object. It exists only with a parse that succeeded (`parsed`); `storeProof` makes it.
- `observeBytes`, `observeCaptured`: the two overloads, as programs that call a certificate verifier and an observer.
  Both may keep a state and answer as they like (`Handler`). The text is an output of the verifier.
Result: `reuse_same_verdict`: against every verifier and observer the two overloads make the same calls with the same
arguments and return the same verdict. What a parse that fails leaves in `view` is left out.
-/
import ConnectCoin.Lib.Calls
import ConnectCoin.P2C.Replay
import ConnectCoin.P2C.X509

namespace ConnectCoin.Wallet

open Lib P2C

section
variable [Crypto]

/-! ## The capture object -/

/-- `P2CCapturedProof::Storage` of a capture that was handed out -/
structure Storage where
  bytes : Bytes
  domain : Bytes
  challenge : Uint256
  view : P2CTlsProofView
  parsed : parseP2CTlsProof bytes domain challenge = .ok view

/-- none is an object that was moved from -/
structure P2CCapturedProof where
  storage : Option Storage

/-- the capture after the CertificateVerify message: the proof is parsed once, and its scheme has to be allowed -/
def storeProof (signatureAlgorithmsMask : UInt8) (proof domain : Bytes) (challenge : Uint256) (capturedOrder : String) :
    Except String P2CCapturedProof :=
  match h : parseP2CTlsProof proof domain challenge with
  | .error error => .error (error ++ "; capture" ++ capturedOrder)
  | .ok view =>
    if p2cSignatureSchemeAllowed signatureAlgorithmsMask view.certificateVerifyScheme then
      .ok ⟨some ⟨proof, domain, challenge, view, h⟩⟩
    else .error "TLS server used a disallowed P2C signature scheme"

namespace P2CCapturedProof

variable (captured : P2CCapturedProof)

/-- `Bytes` -/
def bytes : Except String Bytes :=
  match captured.storage with
  | none => .error "Moved-from P2C captured proof"
  | some storage => .ok storage.bytes

/-- `View` -/
def view : Except String P2CTlsProofView :=
  match captured.storage with
  | none => .error "Moved-from P2C captured proof"
  | some storage => .ok storage.view

/-- `MatchesCaptureContext` -/
def matchesCaptureContext (domain : Bytes) (challenge : Uint256) : Bool :=
  match captured.storage with
  | none => false
  | some storage => storage.domain == domain && storage.challenge == challenge

end P2CCapturedProof

/-! ## The two overloads -/

/-- what the caller supplies -/
inductive CaptureCall : Type → Type where
  /-- `verify_certificate`: the verdict and the text it leaves -/
  | verifyCertificate (spentOutput : CTxOut) (view : P2CTlsProofView) (validationTime : Int64) :
      CaptureCall (Bool × String)
  | observe (valid : Bool) : CaptureCall Unit

abbrev Observing := Calls CaptureCall String

/-- what both overloads do without a capture -/
def observeFailure (cancelled : Bool) (error : String) : Observing (Bool × String) := do
  if !cancelled then Calls.ask (.observe false)
  return (false, error)

/-- `ObserveP2CTlsCapture` of captured bytes: the verdict and the text -/
def observeBytes (captured : Except String Bytes) (spentOutput : CTxOut) (challenge : Uint256) (validationTime : Int64)
    (cancelled : Bool) (error : String) : Observing (Bool × String) :=
  match captured with
  | .error _ => observeFailure cancelled error
  | .ok bytes => do
    let (valid, error) ← match spentOutput.getPayToDomain with
      | none => pure (false, error)
      | some domain =>
        match parseP2CTlsProof bytes domain.domain challenge with
        | .error error => pure (false, error)
        | .ok view => Calls.ask (.verifyCertificate spentOutput view validationTime)
    Calls.ask (.observe valid)
    return (valid, error)

/-- `ObserveP2CTlsCapture` of a capture object -/
def observeCaptured (captured : Except String P2CCapturedProof) (spentOutput : CTxOut) (challenge : Uint256)
    (validationTime : Int64) (cancelled : Bool) (error : String) : Observing (Bool × String) :=
  match captured with
  | .error _ => observeFailure cancelled error
  | .ok captured =>
    match spentOutput.getPayToDomain with
    | some domain =>
      if captured.matchesCaptureContext domain.domain challenge then do
        let view ← Calls.lift captured.view
        let (valid, error) ← Calls.ask (.verifyCertificate spentOutput view validationTime)
        Calls.ask (.observe valid)
        return (valid, error)
      else do
        Calls.ask (.observe false)
        return (false, "P2C capture context mismatch")
    | none => do
      Calls.ask (.observe false)
      return (false, "P2C capture context mismatch")

/-! ## Both overloads agree -/

/-- Reusing the captured parse changes no verdict: against every certificate verifier and observer, whatever their
state, the overload for a capture object returns the verdict of the overload for its bytes, after the same calls with
the same arguments, and leaves the same state. The object is one that a capture has stored, or the capture has
failed. -/
theorem reuse_same_verdict {σ : Type} (handle : Handler CaptureCall σ) (s : σ) (captured : Except String Storage)
    (spentOutput : CTxOut) (challenge : Uint256) (validationTime : Int64) (cancelled : Bool) (error : String) :
    let reused := observeCaptured (captured.map fun storage => ⟨some storage⟩) spentOutput challenge
      validationTime cancelled error
    let parsed := observeBytes (captured.map Storage.bytes) spentOutput challenge validationTime cancelled error
    (∃ valid text text', (reused.run handle s).1 = .ok (valid, text) ∧ (parsed.run handle s).1 = .ok (valid, text')) ∧
      (reused.run handle s).2 = (parsed.run handle s).2 ∧ reused.log handle s = parsed.log handle s := by
  intro reused parsed
  cases captured with
  | error e =>
    refine ⟨?_, rfl, rfl⟩
    cases cancelled <;> exact ⟨false, error, error, rfl, rfl⟩
  | ok storage =>
    cases hterms : spentOutput.getPayToDomain with
    | none =>
      simp only [reused, parsed, observeCaptured, observeBytes, Except.map, hterms]
      exact ⟨⟨false, _, _, rfl, rfl⟩, rfl, rfl⟩
    | some terms =>
      by_cases hcontext : terms.domain = storage.domain ∧ challenge = storage.challenge
      · have hmatch : (⟨some storage⟩ : P2CCapturedProof).matchesCaptureContext terms.domain challenge = true := by
          simp [P2CCapturedProof.matchesCaptureContext, hcontext.1, hcontext.2]
        have hparse : parseP2CTlsProof storage.bytes terms.domain challenge = .ok storage.view := by
          rw [hcontext.1, hcontext.2]
          exact storage.parsed
        simp only [reused, parsed, observeCaptured, observeBytes, Except.map, hterms, hparse, hmatch, if_true]
        exact ⟨⟨_, _, _, rfl, rfl⟩, rfl, rfl⟩
      · have hmatch : (⟨some storage⟩ : P2CCapturedProof).matchesCaptureContext terms.domain challenge = false := by
          apply Bool.eq_false_iff.2
          intro hm
          simp only [P2CCapturedProof.matchesCaptureContext, Bool.and_eq_true, beq_iff_eq] at hm
          exact hcontext ⟨hm.1.symm, hm.2.symm⟩
        -- bytes that are accepted in one context are refused in every other
        obtain ⟨text, hparse⟩ : ∃ text, parseP2CTlsProof storage.bytes terms.domain challenge = .error text := by
          cases hresult : parseP2CTlsProof storage.bytes terms.domain challenge with
          | error text => exact ⟨text, rfl⟩
          | ok view => exact absurd (domain_challenge_unique hresult storage.parsed) hcontext
        simp only [reused, parsed, observeCaptured, observeBytes, Except.map, hterms, hparse, hmatch,
          Bool.false_eq_true, if_false]
        exact ⟨⟨false, _, _, rfl, rfl⟩, rfl, rfl⟩

end

end ConnectCoin.Wallet
