/-
Certificate checks on a connection proof, without any cache (`consensus/p2c_x509.cpp`, `consensus/p2c.cpp`).

Model: parsing, key fields and signatures are taken from the certificate library (`X509Library`), the dates and every
rule of the program's own are computed.
- a certificate is a function of its DER bytes: the bytes retained by the parser parse to the same certificate, and
  whether one certificate signed another depends on the retained bytes of the two;
- `x509TimeToUnix`: seconds since 1970 of a calendar date;
- `freshChain`: parse the supplied certificates, bound their RSA exponents, note dates and leaf usage;
- `verifyP2CCertificateProof`: the verdict on a proof. Where the chain comes from and what answers for signatures is a
  parameter (`CertificateServices`); `uncached` parses and checks everything anew.
-/
import ConnectCoin.P2C.PathVerify
import ConnectCoin.Consensus.ScriptCheck
import ConnectCoin.Lib.Fold

namespace ConnectCoin.P2C

open Lib

/-! ## The library -/

/-- `mbedtls_x509_time` -/
structure X509Time where
  year : ℤ
  mon : ℤ
  day : ℤ
  hour : ℤ
  min : ℤ
  sec : ℤ
  deriving DecidableEq, Repr

/-- what the public key check finds: another kind of key, no RSA context, an exponent that cannot be read, or its bit
length -/
inductive RsaExponent where
  | notRsa
  | unavailable
  | unreadable
  | bits (n : ℕ)
  deriving DecidableEq, Repr

/-- the certificate library, on one certificate at a time -/
structure X509Library (Cert : Type) extends X509 Cert where
  /-- `mbedtls_x509_crt_parse_der` -/
  parseDer : Bytes → Option Cert
  /-- the bytes that the parser retains -/
  raw : Cert → Bytes
  validFrom : Cert → X509Time
  validTo : Cert → X509Time
  /-- `mbedtls_x509_crt_check_key_usage` for digital signatures -/
  mayDigitallySign : Cert → Bool
  /-- `mbedtls_x509_crt_check_extended_key_usage` for TLS servers -/
  mayServeTls : Cert → Bool
  rsaExponent : Cert → RsaExponent
  /-- the key is an EC key on secp256r1 -/
  isSecp256r1 : Cert → Bool
  /-- `connectcoin_mbedtls_rsa_tls_scheme_matches` -/
  rsaTlsSchemeMatches : Cert → UInt16 → Bool
  pkBitlen : Cert → ℕ
  /-- `mbedtls_pk_verify_ext` for ECDSA over (digest, signature) -/
  verifyEcdsa : Cert → Bytes → Bytes → Bool
  /-- `mbedtls_pk_verify_ext` for RSA-PSS with SHA256 and a salt of 32 bytes -/
  verifyRsaPss : Cert → Bytes → Bytes → Bool
  /-- the roots compiled into the program; none if their PEM text does not parse -/
  p2cRootsV1 : Option (List Cert)
  parseDer_raw : ∀ der crt, parseDer der = some crt → parseDer (raw crt) = some crt
  checkSignature_raw : ∀ child parent child' parent', raw child = raw child' → raw parent = raw parent' →
    checkSignature child parent = checkSignature child' parent'

/-- `InitializeP2CCrypto`: installing the mutex callbacks does not fail -/
def initializeP2CCrypto : Bool := true

/-! ## Dates -/

/-- `IsLeapYear` -/
def isLeapYear (year : ℤ) : Bool := (year.tmod 4 == 0 && year.tmod 100 != 0) || year.tmod 400 == 0

/-- `DaysInMonth` -/
def daysInMonth (year month : ℤ) : ℤ :=
  if month < 1 ∨ month > 12 then 0
  else [31, 28, 31, 30, 31, 30, 31, 31, 30, 31, 30, 31].getD (month - 1).toNat 0 +
    (if month = 2 ∧ isLeapYear year then 1 else 0)

/-- `DaysFromCivil`: days since 1970-01-01 -/
def daysFromCivil (year month day : ℤ) : ℤ :=
  let adjustedYear := year - (if month ≤ 2 then 1 else 0)
  let era := (if adjustedYear ≥ 0 then adjustedYear else adjustedYear - 399).tdiv 400
  let yearOfEra := adjustedYear - era * 400
  let adjustedMonth := if month > 2 then month - 3 else month + 9
  let dayOfYear := (153 * adjustedMonth + 2).tdiv 5 + day - 1
  let dayOfEra := yearOfEra * 365 + yearOfEra.tdiv 4 - yearOfEra.tdiv 100 + dayOfYear
  era * 146097 + dayOfEra - 719468

/-- `X509TimeToUnix` -/
def x509TimeToUnix (time : X509Time) : Option ℤ :=
  if time.year < 1970 ∨ time.mon < 1 ∨ time.mon > 12 ∨ time.day < 1 ∨ time.day > daysInMonth time.year time.mon ∨
      time.hour < 0 ∨ time.hour > 23 ∨ time.min < 0 ∨ time.min > 59 ∨ time.sec < 0 ∨ time.sec > 59 then none
  else
    let days := daysFromCivil time.year time.mon time.day
    if days > ((2 ^ 63 - 1) - 86399 : ℤ).tdiv 86400 then none
    else some (days * 86400 + time.hour * 3600 + time.min * 60 + time.sec)

/-! ## A supplied chain -/

section
variable {Cert : Type}

def MAX_P2C_RSA_PUBLIC_EXPONENT_BITS : ℕ := 64

variable (lib : X509Library Cert)

/-- one turn of the loop in `CheckP2CCertificatePublicKeys` -/
def checkPublicKey (certificate : Cert) : Except String Unit :=
  match lib.rsaExponent certificate with
  | .notRsa => .ok ()
  | .unavailable => .error "P2C certificate RSA public key is unavailable"
  | .unreadable => .error "failed to read P2C certificate RSA public exponent"
  | .bits n =>
    if n > MAX_P2C_RSA_PUBLIC_EXPONENT_BITS then .error "P2C certificate RSA public exponent exceeds 64 bits" else
      .ok ()

/-- `CheckP2CCertificatePublicKeys` -/
def checkP2CCertificatePublicKeys (chain : List Cert) : Except String Unit :=
  if initializeP2CCrypto then chain.forM (checkPublicKey lib) else .error "TLS crypto initialization failed"

/-- one turn of the loop in `ParseCertificateChain` -/
def parseSupplied (certificate : Bytes) : Except String Cert :=
  match lib.parseDer certificate with
  | none => .error "P2C proof contains an invalid DER certificate"
  | some crt => .ok crt

/-- `ParseCertificateChain` -/
def parseCertificateChain (certificateChain : List Bytes) : Except String (List Cert) :=
  if certificateChain.isEmpty then .error "P2C proof contains no leaf certificate"
  else certificateChain.mapM (parseSupplied lib)

/-- `CheckLeafUsage`, on a chain given leaf first -/
def checkLeafUsage (chain : List Cert) : Bool :=
  chain.head?.any fun leaf => lib.mayDigitallySign leaf && lib.mayServeTls leaf

/-- `CachedCertificateChain` -/
structure CachedCertificateChain (Cert : Type) where
  parsed : List Cert
  /-- from and to, 0 where the date is not one -/
  times : List (ℤ × ℤ)
  datesValid : Bool
  leafUsageValid : Bool

/-- the constructor of `CachedCertificateChain` -/
def CachedCertificateChain.ofChain (chain : List Cert) : CachedCertificateChain Cert where
  parsed := chain
  times := chain.map fun crt => ((x509TimeToUnix (lib.validFrom crt)).getD 0, (x509TimeToUnix (lib.validTo crt)).getD 0)
  datesValid := chain.all fun crt =>
    (x509TimeToUnix (lib.validFrom crt)).isSome && (x509TimeToUnix (lib.validTo crt)).isSome
  leafUsageValid := checkLeafUsage lib chain

/-- `CachedChain` where nothing is found: parse, check the keys, note dates and usage -/
def freshChain (certificateChain : List Bytes) : Except String (CachedCertificateChain Cert) := do
  let chain ← parseCertificateChain lib certificateChain
  checkP2CCertificatePublicKeys lib chain
  return .ofChain lib chain

/-- `CheckSuppliedCertificateTimes` -/
def checkSuppliedCertificateTimes (chain : CachedCertificateChain Cert) (validationTime : Int64) : Except String Unit :=
  if validationTime ≤ 0 then .error "P2C certificate validation time is unavailable"
  else if !chain.datesValid then .error "P2C certificate is not valid at block median time"
  else if chain.times.any fun bounds => decide (validationTime.toInt < bounds.1) ||
    decide (validationTime.toInt > bounds.2) then
    .error "P2C certificate is not valid at block median time"
  else .ok ()

/-! ## A proof -/

def SIGNATURE_ALGORITHM_ECDSA_P256_SHA256 : UInt8 := 0x01
def SIGNATURE_ALGORITHM_RSA_PSS_RSAE_SHA256 : UInt8 := 0x02
def SIGNATURE_ALGORITHM_RSA_PSS_PSS_SHA256 : UInt8 := 0x04

/-- `P2CSignatureSchemeAllowed` -/
def p2cSignatureSchemeAllowed (mask : UInt8) (scheme : UInt16) : Bool :=
  if isValidP2CSignatureAlgorithmsMask mask then
    if scheme = TLS_ECDSA_SECP256R1_SHA256 then mask &&& SIGNATURE_ALGORITHM_ECDSA_P256_SHA256 != 0
    else if scheme = TLS_RSA_PSS_RSAE_SHA256 then mask &&& SIGNATURE_ALGORITHM_RSA_PSS_RSAE_SHA256 != 0
    else if scheme = TLS_RSA_PSS_PSS_SHA256 then mask &&& SIGNATURE_ALGORITHM_RSA_PSS_PSS_SHA256 != 0
    else false
  else false

/-- "TLS 1.3, server CertificateVerify" -/
def TLS13_SERVER_CERTIFICATE_VERIFY_CONTEXT : Bytes := "TLS 1.3, server CertificateVerify".toUTF8.toList

/-- the digest that the leaf key has signed -/
def certificateVerifyHash [Crypto] (transcriptHash : Uint256) : Bytes :=
  (Crypto.sha256 (List.replicate 64 0x20 ++ TLS13_SERVER_CERTIFICATE_VERIFY_CONTEXT ++ [0] ++
    transcriptHash.bytes)).bytes

/-- `VerifyCertificateVerify` -/
def verifyCertificateVerify [Crypto] (lib : X509Library Cert) (leaf : Cert) (proof : P2CTlsProofView) :
    Except String Unit :=
  let signedHash := certificateVerifyHash proof.transcriptHash
  let conclude (good : Bool) : Except String Unit :=
    if good then .ok () else .error "invalid P2C TLS CertificateVerify signature"
  if proof.certificateVerifyScheme = TLS_ECDSA_SECP256R1_SHA256 then
    if lib.isSecp256r1 leaf then conclude (lib.verifyEcdsa leaf signedHash proof.certificateVerifySignature)
    else .error "CertificateVerify scheme does not match leaf EC key"
  else if proof.certificateVerifyScheme = TLS_RSA_PSS_RSAE_SHA256 ∨
    proof.certificateVerifyScheme = TLS_RSA_PSS_PSS_SHA256 then
    if !lib.rsaTlsSchemeMatches leaf proof.certificateVerifyScheme ∨ lib.pkBitlen leaf < 2048 then
      .error "CertificateVerify scheme does not match leaf RSA key"
    else conclude (lib.verifyRsaPss leaf signedHash proof.certificateVerifySignature)
  else conclude false

/-- `RootStoreV1` -/
def rootStoreV1 : Option (List Cert) :=
  if initializeP2CCrypto then
    lib.p2cRootsV1.filter fun roots => (checkP2CCertificatePublicKeys lib roots).toBool
  else none

/-- where the parsed chain comes from, and who is asked before a signature is checked -/
structure CertificateServices (Cert σ : Type) where
  chain : List Bytes → StateM σ (Except String (CachedCertificateChain Cert))
  hooks : SignatureHooks Cert σ

/-- both caches disabled -/
def CertificateServices.uncached : CertificateServices Cert Unit where
  chain certificateChain := pure (freshChain lib certificateChain)
  hooks := .none

/-- what `VerifyDomainPath` makes of the path verifier's result; none is a write outside the array -/
def pathVerdict : Option VerifyResult → Except String Unit
  | some ⟨none, 0⟩ => .ok ()
  | _ => .error "P2C certificate path or domain validation failed"

section
variable [Crypto] {σ : Type}

/-- `VerifyP2CCertificateProofImpl` up to the path: dates, leaf usage, output, scheme -/
def checkBeforePath (chain : CachedCertificateChain Cert) (spentOutput : CTxOut) (proof : P2CTlsProofView)
    (validationTime : Int64) : Except String PayToDomainOutput := do
  checkSuppliedCertificateTimes chain validationTime
  if !chain.leafUsageValid then .error "P2C leaf certificate is not authorized for TLS server signatures"
  else
    match spentOutput.getPayToDomain with
    | none => .error "spent output is not a canonical PAY_TO_CONNECT output"
    | some output =>
      if p2cSignatureSchemeAllowed output.signatureAlgorithmsMask proof.certificateVerifyScheme then .ok output
      else .error "P2C CertificateVerify scheme is not allowed by the output"

variable (lib : X509Library Cert)

/-- the handshake signature by the leaf; a chain that got this far has one -/
def verifyLeafSignature (chain : List Cert) (proof : P2CTlsProofView) : Except String Unit :=
  match chain with
  | [] => .error "P2C proof contains no leaf certificate"
  | leaf :: _ => verifyCertificateVerify lib leaf proof

/-- `VerifyP2CCertificateProofImpl` -/
def verifyP2CCertificateProofImpl (services : CertificateServices Cert σ)
    (spentOutput : CTxOut) (proof : P2CTlsProofView) (validationTime : Int64) (roots : List Cert) :
    StateM σ (Except String Unit) := do
  match ← services.chain proof.certificateChain with
  | .error e => pure (.error e)
  | .ok chain =>
    match checkBeforePath chain spentOutput proof validationTime with
    | .error e => pure (.error e)
    | .ok output => do
      let result ← verifyRootFirstCached lib.toX509 services.hooks chain.parsed roots (some output.domain)
      pure (pathVerdict result >>= fun _ => verifyLeafSignature lib chain.parsed proof)

/-- `VerifyP2CCertificateProof` -/
def verifyP2CCertificateProof (services : CertificateServices Cert σ) (spentOutput : CTxOut)
    (proof : P2CTlsProofView) (validationTime : Int64) : StateM σ (Except String Unit) :=
  match spentOutput.getPayToDomain with
  | none => pure (.error "spent output is not a canonical PAY_TO_CONNECT output")
  | some output =>
    if isSupportedP2CRootCertificatesVersion output.rootCertificatesVersion then
      match rootStoreV1 lib with
      | none => pure (.error "failed to initialize immutable P2C root store")
      | some roots => verifyP2CCertificateProofImpl lib services spentOutput proof validationTime roots
    else pure (.error "spent output is not a canonical PAY_TO_CONNECT output")

/-- `ValidateP2CCertificateMessage` -/
def validateP2CCertificateMessage (services : CertificateServices Cert σ) (message : Bytes) :
    StateM σ (Except String Unit) :=
  match parseP2CCertificateMessage message with
  | .error e => pure (.error e)
  | .ok (_, certificateChain) => do
    let chain ← services.chain certificateChain
    pure (chain.map fun _ => ())

/-- a call of one of the two entry points -/
inductive CertificateCall where
  | verify (spentOutput : CTxOut) (proof : P2CTlsProofView) (validationTime : Int64)
  | validate (message : Bytes)

def CertificateCall.run (services : CertificateServices Cert σ) : CertificateCall → StateM σ (Except String Unit)
  | .verify spentOutput proof validationTime => verifyP2CCertificateProof lib services spentOutput proof validationTime
  | .validate message => validateP2CCertificateMessage services message

/-- the verdict with both caches disabled -/
def CertificateCall.verdict (call : CertificateCall) : Except String Unit := ((call.run lib (.uncached lib)).run ()).1

end

end

/-! ## Answers that do not depend on the services -/

section
variable {Cert σ : Type} {lib : X509Library Cert}

theorem parseSupplied_ok {certificate : Bytes} {crt : Cert} :
    parseSupplied lib certificate = .ok crt ↔ lib.parseDer certificate = some crt := by
  unfold parseSupplied
  cases lib.parseDer certificate with
  | none => simp
  | some c => simp

theorem parseCertificateChain_raw {certificateChain : List Bytes} {parsed : List Cert}
    (h : parseCertificateChain lib certificateChain = .ok parsed) :
    parseCertificateChain lib (parsed.map lib.raw) = .ok parsed := by
  unfold parseCertificateChain at h ⊢
  by_cases hempty : certificateChain.isEmpty = true
  · rw [if_pos hempty] at h
    cases h
  rw [if_neg hempty, mapM_eq_ok] at h
  have hnonempty : ¬ (parsed.map lib.raw).isEmpty = true := by
    have hlength := h.length_eq
    simp only [List.isEmpty_iff_length_eq_zero, List.length_map] at hempty ⊢
    omega
  rw [if_neg hnonempty, mapM_eq_ok, List.forall₂_map_left_iff]
  clear hempty hnonempty
  induction h with
  | nil => exact .nil
  | cons hcrt _ ih =>
    have hraw := lib.parseDer_raw _ _ (parseSupplied_ok.1 hcrt)
    exact .cons (parseSupplied_ok.2 hraw) ih

/-- Parsing the bytes that were retained gives the same chain. -/
theorem freshChain_raw {certificateChain : List Bytes} {chain : CachedCertificateChain Cert}
    (h : freshChain lib certificateChain = .ok chain) : freshChain lib (chain.parsed.map lib.raw) = .ok chain := by
  obtain ⟨parsed, hparse, h⟩ := bind_ok.1 h
  obtain ⟨u, hkeys, h⟩ := bind_ok.1 h
  cases h
  exact bind_ok.2 ⟨parsed, parseCertificateChain_raw hparse, bind_ok.2 ⟨u, hkeys, rfl⟩⟩

/-- services that give what parsing and checking anew would give, from every state with I -/
structure CertificateServices.Transparent (lib : X509Library Cert) (services : CertificateServices Cert σ)
    (I : σ → Prop) : Prop where
  chain : ∀ certificateChain, Answers I (services.chain certificateChain) (freshChain lib certificateChain)
  signature : ∀ child parent, Answers I (checkSignature lib.toX509 services.hooks child parent)
    (lib.checkSignature child parent)

theorem CertificateServices.uncached_transparent (lib : X509Library Cert) :
    (CertificateServices.uncached lib).Transparent lib fun _ => True := ⟨fun _ => Answers.pure, fun _ _ => Answers.pure⟩

/-- `VerifyDomainPath` by the eager reference -/
def eagerPathVerdict (x : X509 Cert) (chain roots : List Cert) (cn : Option Bytes) : Except String Unit :=
  if eagerVerify x chain roots cn then .ok () else .error "P2C certificate path or domain validation failed"

/-- The path's verdict is that of the eager reference. -/
theorem pathVerdict_triple {services : CertificateServices Cert σ} {I : σ → Prop} (h : services.Transparent lib I)
    (chain roots : List Cert) (cn : Option Bytes) :
    Triple I (verifyRootFirstCached lib.toX509 services.hooks chain roots cn) fun result s =>
      pathVerdict result = eagerPathVerdict lib.toX509 chain roots cn ∧ I s := by
  have hroots : RootChecks lib.toX509 services.hooks roots I fun _ _ => I :=
    ⟨fun child root _ => (h.signature child root).post fun good s hs => ⟨hs.1, hs.2, fun _ => hs.2⟩⟩
  have hpath : PathChecks lib.toX509 services.hooks chain I := ⟨fun child _ parent _ => h.signature child parent⟩
  have hrun := verifyRootFirstCached_triple cn hroots (fun _ _ _ _ => hpath) (fun _ _ _ hs => hs)
  refine hrun.post ?_
  intro answer s hpost
  obtain ⟨⟨error, flags⟩, rfl, hflags, hverdict, hs⟩ := hpost
  refine ⟨?_, ?_⟩
  · dsimp only at hflags hverdict
    unfold eagerPathVerdict
    cases error with
    | some e =>
      rw [if_neg (fun heager => Option.some_ne_none e (hverdict.2 heager))]
      rfl
    | none =>
      rw [if_pos (hverdict.1 rfl), hflags rfl]
      rfl
  · rcases hs with hs | ⟨_, _, _, _, hs⟩
    · exact hs
    · exact hs

variable [Crypto]

/-- the verdict on a proof, by the eager reference -/
def eagerProofVerdict (lib : X509Library Cert) (spentOutput : CTxOut) (proof : P2CTlsProofView) (validationTime : Int64)
    (roots : List Cert) : Except String Unit := do
  let chain ← freshChain lib proof.certificateChain
  let output ← checkBeforePath chain spentOutput proof validationTime
  eagerPathVerdict lib.toX509 chain.parsed roots (some output.domain)
  verifyLeafSignature lib chain.parsed proof

variable {services : CertificateServices Cert σ} {I : σ → Prop}

theorem verifyP2CCertificateProofImpl_answers (h : services.Transparent lib I) (spentOutput : CTxOut)
    (proof : P2CTlsProofView) (validationTime : Int64) (roots : List Cert) :
    Answers I (verifyP2CCertificateProofImpl lib services spentOutput proof validationTime roots)
      (eagerProofVerdict lib spentOutput proof validationTime roots) := by
  apply Answers.bind (h.chain proof.certificateChain)
  unfold eagerProofVerdict
  cases freshChain lib proof.certificateChain with
  | error e => exact Answers.pure
  | ok chain =>
    dsimp only [bind, Except.bind]
    cases checkBeforePath chain spentOutput proof validationTime with
    | error e => exact Answers.pure
    | ok output =>
      refine Triple.bind (pathVerdict_triple h chain.parsed roots (some output.domain)) fun result => Triple.of_fact ?_
      intro hresult
      rw [hresult]
      exact Answers.pure

/-- All transparent services give one answer. -/
theorem CertificateCall.exists_answer (lib : X509Library Cert) (call : CertificateCall) :
    ∃ answer, ∀ {σ : Type} {services : CertificateServices Cert σ} {I : σ → Prop}, services.Transparent lib I →
      Answers I (call.run lib services) answer := by
  cases call with
  | verify spentOutput proof validationTime =>
    unfold CertificateCall.run
    dsimp only [verifyP2CCertificateProof]
    cases spentOutput.getPayToDomain with
    | none => exact ⟨_, fun _ => Answers.pure⟩
    | some output =>
      dsimp only
      cases isSupportedP2CRootCertificatesVersion output.rootCertificatesVersion with
      | false => exact ⟨_, fun _ => Answers.pure⟩
      | true =>
        simp only [if_true]
        cases rootStoreV1 lib with
        | none => exact ⟨_, fun _ => Answers.pure⟩
        | some roots =>
          exact ⟨_, fun h => verifyP2CCertificateProofImpl_answers h spentOutput proof validationTime roots⟩
  | validate message =>
    unfold CertificateCall.run
    dsimp only [validateP2CCertificateMessage]
    cases parseP2CCertificateMessage message with
    | error e => exact ⟨_, fun _ => Answers.pure⟩
    | ok parsed => exact ⟨_, fun h => Answers.bind (h.chain parsed.2) Answers.pure⟩

/-- Transparent services give the verdict that no cache gives. -/
theorem CertificateCall.run_answers (h : services.Transparent lib I) (call : CertificateCall) :
    Answers I (call.run lib services) (call.verdict lib) := by
  obtain ⟨answer, hanswer⟩ := call.exists_answer lib
  have huncached : call.verdict lib = answer := (hanswer (CertificateServices.uncached_transparent lib) () trivial).1
  rw [huncached]
  exact hanswer h

end

end ConnectCoin.P2C
