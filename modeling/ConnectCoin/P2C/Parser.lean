/-
The parser of pay-to-connect TLS proofs (`consensus/p2c.cpp`), line by line, with its error texts.

A proof is one version byte and five TLS 1.3 handshake messages. `ByteReader` is `Lib.Reader` (the unread bytes); a
chain of reads and tests under one `if` stops with that `if`'s text. `while (!reader.Empty())` is `Lib.consumeAll`.

- `readHandshake`, `readExtensions`, `findExtension`, `parseServerName`
- `parseClientHello`, `parseServerHello`, `parseEncryptedExtensions`, `parseCertificate`, `parseCertificateVerify`
- `parseP2CTlsProof`: envelope, the five messages, then the two hashes of the transcript.
- `parseP2CCertificateMessage`: one Certificate message alone.
-/
import ConnectCoin.Core.Transaction

namespace ConnectCoin.P2C

open Lib

/-! ## Constants -/

def P2C_PROOF_VERSION : UInt8 := 2
def MAX_P2C_PROOF_SIZE : ℕ := 64 * 1024
def MAX_P2C_CERTIFICATE_MESSAGE_SIZE : ℕ := 48 * 1024
def MAX_P2C_CERTIFICATES : ℕ := 8
def MAX_P2C_CERTIFICATE_SIZE : ℕ := 16 * 1024

def TLS_HANDSHAKE_CLIENT_HELLO : UInt8 := 1
def TLS_HANDSHAKE_SERVER_HELLO : UInt8 := 2
def TLS_HANDSHAKE_ENCRYPTED_EXTENSIONS : UInt8 := 8
def TLS_HANDSHAKE_CERTIFICATE : UInt8 := 11
def TLS_HANDSHAKE_CERTIFICATE_VERIFY : UInt8 := 15

def TLS_EXTENSION_SERVER_NAME : UInt16 := 0
def TLS_EXTENSION_SIGNATURE_ALGORITHMS : UInt16 := 13
def TLS_EXTENSION_COMPRESS_CERTIFICATE : UInt16 := 27
def TLS_EXTENSION_PRE_SHARED_KEY : UInt16 := 41
def TLS_EXTENSION_EARLY_DATA : UInt16 := 42
def TLS_EXTENSION_SUPPORTED_VERSIONS : UInt16 := 43
def TLS_EXTENSION_COOKIE : UInt16 := 44
def TLS_EXTENSION_PSK_KEY_EXCHANGE_MODES : UInt16 := 45
def TLS_EXTENSION_KEY_SHARE : UInt16 := 51
def TLS_EXTENSION_ENCRYPTED_CLIENT_HELLO : UInt16 := 0xfe0d

def TLS_VERSION_1_2 : UInt16 := 0x0303
def TLS_VERSION_1_3 : UInt16 := 0x0304
def TLS_AES_128_GCM_SHA256 : UInt16 := 0x1301
def TLS_CHACHA20_POLY1305_SHA256 : UInt16 := 0x1303

def TLS_ECDSA_SECP256R1_SHA256 : UInt16 := 0x0403
def TLS_RSA_PSS_RSAE_SHA256 : UInt16 := 0x0804
def TLS_RSA_PSS_PSS_SHA256 : UInt16 := 0x0809
def TLS_GROUP_SECP256R1 : UInt16 := 0x0017
def TLS_GROUP_X25519 : UInt16 := 0x001d

def MAX_CLIENT_HELLO_SIZE : ℕ := 4096
def MAX_SERVER_HELLO_SIZE : ℕ := 2048
def MAX_ENCRYPTED_EXTENSIONS_SIZE : ℕ := 4096
def MAX_CERTIFICATE_VERIFY_SIZE : ℕ := 8192

def HELLO_RETRY_REQUEST_RANDOM : Bytes :=
  [0xcf, 0x21, 0xad, 0x74, 0xe5, 0x9a, 0x61, 0x11, 0xbe, 0x1d, 0x8c, 0x02, 0x1e, 0x65, 0xb8, 0x91,
   0xc2, 0xa2, 0x11, 0x16, 0x7a, 0xbb, 0x8c, 0x5e, 0x07, 0x9e, 0x09, 0xe2, 0xc8, 0xa8, 0x33, 0x9c]

/-- the extensions a ClientHello may not carry -/
def forbiddenClientExtensions : List UInt16 :=
  [TLS_EXTENSION_COMPRESS_CERTIFICATE, TLS_EXTENSION_PRE_SHARED_KEY, TLS_EXTENSION_EARLY_DATA, TLS_EXTENSION_COOKIE,
   TLS_EXTENSION_PSK_KEY_EXCHANGE_MODES, TLS_EXTENSION_ENCRYPTED_CLIENT_HELLO]

/-! ## Parsed values -/

structure TlsExtension where
  type : UInt16
  data : Bytes
  deriving DecidableEq

/-- what the ClientHello offered -/
structure ClientHelloState where
  cipherSuites : List UInt16
  signatureAlgorithms : List UInt16
  keyShareGroups : List UInt16
  legacySessionId : Bytes
  deriving DecidableEq

/-- `P2CTlsProofView` -/
structure P2CTlsProofView where
  clientHello : Bytes
  serverHello : Bytes
  encryptedExtensions : Bytes
  certificate : Bytes
  certificateVerify : Bytes
  certificateChain : List Bytes
  certificateVerifyScheme : UInt16
  certificateVerifySignature : Bytes
  transcriptHash : Uint256
  connectionWorkHash : Uint256
  deriving DecidableEq

/-! ## Pieces -/

/-- the unread bytes are used up -/
def ensureEmpty (msg : String) : Reader Unit := do
  let n ← remaining
  ensure (n = 0) msg

/-- consecutive big-endian 16-bit values, as the `i += 2` loops read them -/
def u16s : Bytes → List UInt16
  | hi :: lo :: rest => UInt16.ofNat (beNat [hi, lo]) :: u16s rest
  | _ => []

/-- `IsValidKeyShare` -/
def isValidKeyShare (group : UInt16) (exchange : Bytes) : Bool :=
  if group = TLS_GROUP_X25519 then exchange.length == 32
  else group == TLS_GROUP_SECP256R1 && exchange.length == 65 && exchange.head? == some 0x04

/-- `ReadHandshake`: the whole message and its body -/
def readHandshake (expectedType : UInt8) (maximumSize : ℕ) : Reader (Bytes × Bytes) := do
  let start ← remaining
  let type ← readByte "truncated TLS handshake header"
  let size ← readBE "truncated TLS handshake header" 3
  ensure (type = expectedType) "unexpected TLS handshake message order"
  ensure (¬ size + 4 > maximumSize) "TLS handshake message exceeds P2C limit"
  let body ← readBytes "truncated TLS handshake message" size
  let full := type :: (beBytes 3 size ++ body)
  let position ← remaining
  ensure (start = position + full.length) "internal TLS parser offset mismatch"
  return (full, body)

variable (extensions : List TlsExtension)

/-- one turn of the extension loop -/
def readExtension : Reader (List TlsExtension) := do
  let type ← readU16 "truncated TLS extension"
  let size ← readBE "truncated TLS extension" 2
  let data ← readBytes "truncated TLS extension" size
  ensure (∀ e ∈ extensions, e.type ≠ type) "duplicate TLS extension"
  return extensions ++ [⟨type, data⟩]

/-- `ReadExtensions`: they fill the rest of the message -/
def readExtensions : Reader (List TlsExtension) := do
  let totalSize ← readBE "invalid TLS extensions length" 2
  let rest ← remaining
  ensure (rest = totalSize) "invalid TLS extensions length"
  let encoded ← readBytes "truncated TLS extensions" totalSize
  fromExcept (consumeAll readExtension encoded.length [] encoded)

/-- `FindExtension` -/
def findExtension (type : UInt16) : Option TlsExtension := extensions.find? fun e => e.type == type

/-- a required extension, or the caller's error -/
def requireExtension (type : UInt16) (msg : String) : Reader TlsExtension :=
  fromExcept (match findExtension extensions type with | some e => .ok e | none => .error msg)

/-- `ParseServerName`, on the extension's data -/
def parseServerName (expectedDomain : Bytes) : Reader Unit := do
  let msg := "P2C ClientHello must contain exactly one DNS server_name"
  let listSize ← readBE msg 2
  let rest ← remaining
  ensure (listSize = rest) msg
  let nameType ← readByte msg
  ensure (nameType = 0) msg
  let nameSize ← readBE msg 2
  let name ← readBytes msg nameSize
  ensureEmpty msg
  ensure (name = expectedDomain) "ClientHello server_name does not match P2C domain"

/-- the supported_versions list of a ClientHello: a byte count, then the versions -/
def parseVersions : Reader Unit := do
  let msg := "invalid supported_versions extension"
  let versionSize ← readBE msg 1
  ensure (¬ versionSize < 2) msg
  ensure (versionSize % 2 = 0) msg
  let versionList ← readBytes msg versionSize
  ensureEmpty msg
  ensure (TLS_VERSION_1_3 ∈ u16s versionList) "ClientHello does not offer TLS 1.3"

/-- the signature_algorithms list -/
def parseSignatureAlgorithms : Reader (List UInt16) := do
  let msg := "invalid signature_algorithms extension"
  let signatureSize ← readBE msg 2
  ensure (¬ signatureSize < 2) msg
  ensure (signatureSize % 2 = 0) msg
  let signatureList ← readBytes msg signatureSize
  ensureEmpty msg
  return u16s signatureList

/-- one turn of the key share loop -/
def readKeyShare (groups : List UInt16) : Reader (List UInt16) := do
  let msg := "invalid ClientHello key share"
  let group ← readU16 msg
  let exchangeSize ← readBE msg 2
  ensure (exchangeSize ≠ 0) msg
  let exchange ← readBytes msg exchangeSize
  ensure (isValidKeyShare group exchange = true) msg
  ensure (group ∉ groups) msg
  return groups ++ [group]

/-- the key_share list of a ClientHello -/
def parseKeyShares : Reader (List UInt16) := do
  let msg := "invalid ClientHello key_share extension"
  let sharesSize ← readBE msg 2
  ensure (sharesSize ≠ 0) msg
  let shares ← readBytes msg sharesSize
  ensureEmpty msg
  fromExcept (consumeAll readKeyShare shares.length [] shares)

/-! ## The five messages -/

-- asks for the list's members, not for every type there is
instance (exts : List TlsExtension) : Decidable (∀ t ∈ forbiddenClientExtensions, findExtension exts t = none) :=
  List.decidableBAll _ _

/-- `ParseClientHello` -/
def parseClientHello (expectedDomain : Bytes) (expectedChallenge : Uint256) : Reader ClientHelloState := do
  let msg := "invalid canonical P2C ClientHello"
  let legacyVersion ← readU16 msg
  ensure (legacyVersion = TLS_VERSION_1_2) msg
  let random ← readBytes msg 32
  let sessionIdSize ← readBE msg 1
  ensure (¬ sessionIdSize > 32) msg
  let sessionId ← readBytes msg sessionIdSize
  let cipherSuitesSize ← readBE msg 2
  ensure (¬ cipherSuitesSize < 2) msg
  ensure (cipherSuitesSize % 2 = 0) msg
  let cipherSuites ← readBytes msg cipherSuitesSize
  let compressionSize ← readBE msg 1
  ensure (compressionSize = 1) msg
  let compression ← readBytes msg compressionSize
  ensure (compression = [0]) msg
  ensure (random = expectedChallenge.bytes) "ClientHello.random does not match P2C claim challenge"
  let extensions ← readExtensions
  ensureEmpty ""
  let missing := "P2C ClientHello is missing a required TLS 1.3 extension"
  let serverName ← requireExtension extensions TLS_EXTENSION_SERVER_NAME missing
  let versions ← requireExtension extensions TLS_EXTENSION_SUPPORTED_VERSIONS missing
  let signatures ← requireExtension extensions TLS_EXTENSION_SIGNATURE_ALGORITHMS missing
  let keyShare ← requireExtension extensions TLS_EXTENSION_KEY_SHARE missing
  fromExcept ((parseServerName expectedDomain).run serverName.data)
  ensure (∀ t ∈ forbiddenClientExtensions, findExtension extensions t = none) "forbidden P2C ClientHello extension"
  fromExcept (parseVersions.run versions.data)
  let signatureAlgorithms ← fromExcept (parseSignatureAlgorithms.run signatures.data)
  let keyShareGroups ← fromExcept (parseKeyShares.run keyShare.data)
  return ⟨u16s cipherSuites, signatureAlgorithms, keyShareGroups, sessionId⟩

/-- the key share a server selected -/
def parseServerKeyShare (client : ClientHelloState) : Reader Unit := do
  let msg := "invalid or unoffered ServerHello key share"
  let group ← readU16 msg
  let exchangeSize ← readBE msg 2
  ensure (exchangeSize ≠ 0) msg
  let exchange ← readBytes msg exchangeSize
  ensureEmpty msg
  ensure (isValidKeyShare group exchange = true) msg
  ensure (group ∈ client.keyShareGroups) msg

/-- `ParseServerHello` -/
def parseServerHello (client : ClientHelloState) : Reader Unit := do
  let msg := "invalid canonical P2C ServerHello"
  let legacyVersion ← readU16 msg
  ensure (legacyVersion = TLS_VERSION_1_2) msg
  let random ← readBytes msg 32
  let sessionIdSize ← readBE msg 1
  ensure (¬ sessionIdSize > 32) msg
  let sessionId ← readBytes msg sessionIdSize
  let cipherSuite ← readU16 msg
  let compression ← readByte msg
  ensure (compression = 0) msg
  ensure (random ≠ HELLO_RETRY_REQUEST_RANDOM) "HelloRetryRequest is forbidden in P2C v2"
  ensure (sessionId = client.legacySessionId) "ServerHello session id mismatch"
  ensure (cipherSuite = TLS_AES_128_GCM_SHA256 ∨ cipherSuite = TLS_CHACHA20_POLY1305_SHA256)
    "P2C v2 requires a SHA-256 TLS 1.3 cipher suite"
  ensure (cipherSuite ∈ client.cipherSuites) "ServerHello selected an unoffered cipher suite"
  let extensions ← readExtensions
  ensureEmpty ""
  ensure (extensions.length = 2) "P2C ServerHello must contain only supported_versions and key_share"
  let noVersion := "ServerHello did not select TLS 1.3"
  let versions ← requireExtension extensions TLS_EXTENSION_SUPPORTED_VERSIONS noVersion
  let keyShare ← requireExtension extensions TLS_EXTENSION_KEY_SHARE noVersion
  ensure (versions.data.length = 2) noVersion
  ensure (UInt16.ofNat (beNat versions.data) = TLS_VERSION_1_3) noVersion
  fromExcept ((parseServerKeyShare client).run keyShare.data)

/-- `ParseEncryptedExtensions` -/
def parseEncryptedExtensions : Reader Unit := do
  let extensions ← readExtensions
  ensureEmpty ""
  ensure (findExtension extensions TLS_EXTENSION_EARLY_DATA = none) "TLS early_data is forbidden in P2C v2"

/-- one turn of the certificate loop -/
def readCertificateEntry (chain : List Bytes) : Reader (List Bytes) := do
  let msg := "invalid certificate entry in P2C proof"
  let certificateSize ← readBE msg 3
  ensure (certificateSize ≠ 0) msg
  ensure (¬ certificateSize > MAX_P2C_CERTIFICATE_SIZE) msg
  let certificate ← readBytes msg certificateSize
  let extensionsSize ← readBE msg 2
  let _extensions ← readBytes msg extensionsSize
  ensure (¬ (chain ++ [certificate]).length > MAX_P2C_CERTIFICATES) "too many certificates in P2C proof"
  return chain ++ [certificate]

/-- `ParseCertificate` -/
def parseCertificate : Reader (List Bytes) := do
  let msg := "invalid canonical P2C Certificate message"
  let contextSize ← readBE msg 1
  ensure (contextSize = 0) msg
  let _context ← readBytes msg contextSize
  let listSize ← readBE msg 3
  ensure (listSize ≠ 0) msg
  let rest ← remaining
  ensure (listSize = rest) msg
  let list ← readBytes msg listSize
  ensureEmpty msg
  fromExcept (consumeAll readCertificateEntry list.length [] list)

/-- `IsSupportedCertificateVerifyScheme` -/
def isSupportedCertificateVerifyScheme (scheme : UInt16) : Bool :=
  scheme == TLS_ECDSA_SECP256R1_SHA256 || scheme == TLS_RSA_PSS_RSAE_SHA256 || scheme == TLS_RSA_PSS_PSS_SHA256

/-- `ParseCertificateVerify`: scheme and signature -/
def parseCertificateVerify (client : ClientHelloState) : Reader (UInt16 × Bytes) := do
  let msg := "invalid P2C CertificateVerify message"
  let scheme ← readU16 msg
  let signatureSize ← readBE msg 2
  ensure (signatureSize ≠ 0) msg
  let signature ← readBytes msg signatureSize
  ensureEmpty msg
  ensure (isSupportedCertificateVerifyScheme scheme = true) "unsupported P2C CertificateVerify signature scheme"
  ensure (scheme ∈ client.signatureAlgorithms) "CertificateVerify used an unoffered signature scheme"
  return (scheme, signature)

/-! ## The proof -/

/-- the tag of the connection work hash -/
def workTag : Bytes := "ConnectCoin/P2C/work/v2".toUTF8.toList

/-- the five messages of a proof, each whole and as a body -/
def readMessages : Reader ((Bytes × Bytes) × (Bytes × Bytes) × (Bytes × Bytes) × (Bytes × Bytes) ×
    (Bytes × Bytes)) := do
  let clientHello ← readHandshake TLS_HANDSHAKE_CLIENT_HELLO MAX_CLIENT_HELLO_SIZE
  let serverHello ← readHandshake TLS_HANDSHAKE_SERVER_HELLO MAX_SERVER_HELLO_SIZE
  let encryptedExtensions ← readHandshake TLS_HANDSHAKE_ENCRYPTED_EXTENSIONS MAX_ENCRYPTED_EXTENSIONS_SIZE
  let certificate ← readHandshake TLS_HANDSHAKE_CERTIFICATE MAX_P2C_CERTIFICATE_MESSAGE_SIZE
  let certificateVerify ← readHandshake TLS_HANDSHAKE_CERTIFICATE_VERIFY MAX_CERTIFICATE_VERIFY_SIZE
  return (clientHello, serverHello, encryptedExtensions, certificate, certificateVerify)

/-- `ParseP2CTlsProof` -/
def parseP2CTlsProof [Crypto] (encodedProof expectedDomain : Bytes) (expectedChallenge : Uint256) :
    Except String P2CTlsProofView :=
  Reader.run (s := encodedProof) do
    ensure (isCanonicalP2CDomain expectedDomain = true) "invalid expected P2C domain"
    let size ← remaining
    ensure (¬ (size = 0 ∨ size > MAX_P2C_PROOF_SIZE)) "invalid P2C proof size"
    let version ← readByte "unsupported P2C proof version"
    ensure (version = P2C_PROOF_VERSION) "unsupported P2C proof version"
    let (ch, sh, ee, cert, cv) ← readMessages
    ensureEmpty "trailing bytes after P2C CertificateVerify"
    let client ← fromExcept ((parseClientHello expectedDomain expectedChallenge).run ch.2)
    fromExcept ((parseServerHello client).run sh.2)
    fromExcept (parseEncryptedExtensions.run ee.2)
    let chain ← fromExcept (parseCertificate.run cert.2)
    let (scheme, signature) ← fromExcept ((parseCertificateVerify client).run cv.2)
    -- the CertificateVerify message is in neither hash
    let transcript := ch.1 ++ sh.1 ++ ee.1 ++ cert.1
    return { clientHello := ch.1, serverHello := sh.1, encryptedExtensions := ee.1, certificate := cert.1,
             certificateVerify := cv.1, certificateChain := chain, certificateVerifyScheme := scheme,
             certificateVerifySignature := signature,
             transcriptHash := Crypto.sha256 transcript, connectionWorkHash := taggedHash workTag transcript }

/-- `ParseP2CCertificateMessage`: the message and its chain -/
def parseP2CCertificateMessage (message : Bytes) : Except String (Bytes × List Bytes) :=
  Reader.run (s := message) do
    let (full, body) ← readHandshake TLS_HANDSHAKE_CERTIFICATE MAX_P2C_CERTIFICATE_MESSAGE_SIZE
    ensureEmpty "trailing P2C Certificate message data"
    let chain ← fromExcept (parseCertificate.run body)
    return (full, chain)

end ConnectCoin.P2C
