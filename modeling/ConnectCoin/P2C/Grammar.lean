/-
The language of pay-to-connect proofs, stated without a parser.

A proof is a value of `TlsProof` (five messages, each a record of what it says), `encode` writes it down, `WellFormed`
says which values are proofs for a domain and a challenge. Lengths occur only in `encode`, as `sized w`: a field behind
its own w-byte length, so a length field can neither hide nor skip data.
The parser accepts exactly this language (`P2C.Exactness`).
-/
import ConnectCoin.P2C.Parser

namespace ConnectCoin.P2C

open Lib

/-! ## Encodings -/

/-- a field behind its w-byte length -/
def sized (w : ℕ) (b : Bytes) : Bytes := beBytes w b.length ++ b

def encodeU16s (vs : List UInt16) : Bytes := vs.flatMap fun v => beBytes 2 v.toNat

def TlsExtension.encode (e : TlsExtension) : Bytes := beBytes 2 e.type.toNat ++ sized 2 e.data

def encodeExtensions (exts : List TlsExtension) : Bytes := sized 2 (exts.flatMap TlsExtension.encode)

/-- duplicate free, and short enough for their length fields -/
structure ExtensionsOk (exts : List TlsExtension) : Prop where
  distinct : (exts.map TlsExtension.type).Nodup
  data_fits : ∀ e ∈ exts, e.data.length < 2 ^ 16
  total_fits : (exts.flatMap TlsExtension.encode).length < 2 ^ 16

structure KeyShare where
  group : UInt16
  exchange : Bytes

def KeyShare.encode (k : KeyShare) : Bytes := beBytes 2 k.group.toNat ++ sized 2 k.exchange

/-! ## Messages -/

/-- a ClientHello: its own fields, all its extensions, and the contents of three of them -/
structure ClientHello where
  random : Bytes
  sessionId : Bytes
  cipherSuites : List UInt16
  extensions : List TlsExtension
  versions : List UInt16
  signatureAlgorithms : List UInt16
  keyShares : List KeyShare

namespace ClientHello

def encode (m : ClientHello) : Bytes :=
  beBytes 2 TLS_VERSION_1_2.toNat ++ m.random ++ sized 1 m.sessionId ++
    sized 2 (encodeU16s m.cipherSuites) ++ sized 1 [0] ++ encodeExtensions m.extensions

/-- what the message offers to the server -/
def state (m : ClientHello) : ClientHelloState :=
  ⟨m.cipherSuites, m.signatureAlgorithms, m.keyShares.map KeyShare.group, m.sessionId⟩

structure WellFormed (d : Bytes) (c : Uint256) (m : ClientHello) : Prop where
  random_eq : m.random = c.bytes
  session_size : m.sessionId.length ≤ 32
  suites_ne : m.cipherSuites ≠ []
  suites_fit : (encodeU16s m.cipherSuites).length < 2 ^ 16
  extensions_ok : ExtensionsOk m.extensions
  server_name : ⟨TLS_EXTENSION_SERVER_NAME, sized 2 (0 :: sized 2 d)⟩ ∈ m.extensions
  supported_versions : ⟨TLS_EXTENSION_SUPPORTED_VERSIONS, sized 1 (encodeU16s m.versions)⟩ ∈ m.extensions
  versions_fit : (encodeU16s m.versions).length < 2 ^ 8
  offers_tls13 : TLS_VERSION_1_3 ∈ m.versions
  signature_algorithms : ⟨TLS_EXTENSION_SIGNATURE_ALGORITHMS, sized 2 (encodeU16s m.signatureAlgorithms)⟩ ∈ m.extensions
  signatures_ne : m.signatureAlgorithms ≠ []
  key_share : ⟨TLS_EXTENSION_KEY_SHARE, sized 2 (m.keyShares.flatMap KeyShare.encode)⟩ ∈ m.extensions
  shares_ne : m.keyShares ≠ []
  shares_valid : ∀ k ∈ m.keyShares, isValidKeyShare k.group k.exchange = true
  groups_distinct : (m.keyShares.map KeyShare.group).Nodup
  no_forbidden : ∀ e ∈ m.extensions, e.type ∉ forbiddenClientExtensions

end ClientHello

structure ServerHello where
  random : Bytes
  sessionId : Bytes
  cipherSuite : UInt16
  extensions : List TlsExtension
  keyShare : KeyShare

namespace ServerHello

def encode (m : ServerHello) : Bytes :=
  beBytes 2 TLS_VERSION_1_2.toNat ++ m.random ++ sized 1 m.sessionId ++ beBytes 2 m.cipherSuite.toNat ++ [0] ++
    encodeExtensions m.extensions

structure WellFormed (client : ClientHelloState) (m : ServerHello) : Prop where
  random_size : m.random.length = 32
  not_retry : m.random ≠ HELLO_RETRY_REQUEST_RANDOM
  session_size : m.sessionId.length ≤ 32
  session_echo : m.sessionId = client.legacySessionId
  suite_sha256 : m.cipherSuite = TLS_AES_128_GCM_SHA256 ∨ m.cipherSuite = TLS_CHACHA20_POLY1305_SHA256
  suite_offered : m.cipherSuite ∈ client.cipherSuites
  extensions_ok : ExtensionsOk m.extensions
  two_extensions : m.extensions.length = 2
  supported_versions : ⟨TLS_EXTENSION_SUPPORTED_VERSIONS, beBytes 2 TLS_VERSION_1_3.toNat⟩ ∈ m.extensions
  key_share : ⟨TLS_EXTENSION_KEY_SHARE, m.keyShare.encode⟩ ∈ m.extensions
  share_valid : isValidKeyShare m.keyShare.group m.keyShare.exchange = true
  group_offered : m.keyShare.group ∈ client.keyShareGroups

end ServerHello

/-- the extensions of an EncryptedExtensions message -/
structure EncryptedExtensionsOk (exts : List TlsExtension) : Prop where
  extensions_ok : ExtensionsOk exts
  no_early_data : ∀ e ∈ exts, e.type ≠ TLS_EXTENSION_EARLY_DATA

/-- one entry of a Certificate message -/
structure CertificateEntry where
  certificate : Bytes
  extensions : Bytes

def CertificateEntry.encode (e : CertificateEntry) : Bytes := sized 3 e.certificate ++ sized 2 e.extensions

structure CertificateEntry.WellFormed (e : CertificateEntry) : Prop where
  ne : e.certificate ≠ []
  size : e.certificate.length ≤ MAX_P2C_CERTIFICATE_SIZE
  extensions_fit : e.extensions.length < 2 ^ 16

/-- a Certificate message: an empty context, then the entries -/
def encodeCertificate (entries : List CertificateEntry) : Bytes :=
  sized 1 [] ++ sized 3 (entries.flatMap CertificateEntry.encode)

structure CertificateOk (entries : List CertificateEntry) : Prop where
  ne : entries ≠ []
  count : entries.length ≤ MAX_P2C_CERTIFICATES
  entry : ∀ e ∈ entries, e.WellFormed
  total_fits : (entries.flatMap CertificateEntry.encode).length < 2 ^ 24

structure CertificateVerify where
  scheme : UInt16
  signature : Bytes

def CertificateVerify.encode (m : CertificateVerify) : Bytes := beBytes 2 m.scheme.toNat ++ sized 2 m.signature

structure CertificateVerify.WellFormed (client : ClientHelloState) (m : CertificateVerify) : Prop where
  signature_ne : m.signature ≠ []
  signature_fits : m.signature.length < 2 ^ 16
  supported : isSupportedCertificateVerifyScheme m.scheme = true
  offered : m.scheme ∈ client.signatureAlgorithms

/-! ## Proofs -/

/-- a handshake message: type, 24-bit length, body -/
def handshake (type : UInt8) (body : Bytes) : Bytes := type :: sized 3 body

structure TlsProof where
  clientHello : ClientHello
  serverHello : ServerHello
  encryptedExtensions : List TlsExtension
  certificate : List CertificateEntry
  certificateVerify : CertificateVerify

namespace TlsProof

variable (p : TlsProof)

def clientHelloMessage : Bytes := handshake TLS_HANDSHAKE_CLIENT_HELLO p.clientHello.encode
def serverHelloMessage : Bytes := handshake TLS_HANDSHAKE_SERVER_HELLO p.serverHello.encode
def encryptedExtensionsMessage : Bytes :=
  handshake TLS_HANDSHAKE_ENCRYPTED_EXTENSIONS (encodeExtensions p.encryptedExtensions)
def certificateMessage : Bytes := handshake TLS_HANDSHAKE_CERTIFICATE (encodeCertificate p.certificate)
def certificateVerifyMessage : Bytes := handshake TLS_HANDSHAKE_CERTIFICATE_VERIFY p.certificateVerify.encode

/-- the version byte, then the five messages and nothing else -/
def encode : Bytes :=
  P2C_PROOF_VERSION :: (p.clientHelloMessage ++ p.serverHelloMessage ++ p.encryptedExtensionsMessage ++
    p.certificateMessage ++ p.certificateVerifyMessage)

/-- the bytes CertificateVerify authenticates -/
def transcript : Bytes :=
  p.clientHelloMessage ++ p.serverHelloMessage ++ p.encryptedExtensionsMessage ++ p.certificateMessage

/-- what the parser hands out for this proof -/
def view [Crypto] (p : TlsProof) : P2CTlsProofView where
  clientHello := p.clientHelloMessage
  serverHello := p.serverHelloMessage
  encryptedExtensions := p.encryptedExtensionsMessage
  certificate := p.certificateMessage
  certificateVerify := p.certificateVerifyMessage
  certificateChain := p.certificate.map CertificateEntry.certificate
  certificateVerifyScheme := p.certificateVerify.scheme
  certificateVerifySignature := p.certificateVerify.signature
  transcriptHash := Crypto.sha256 p.transcript
  connectionWorkHash := taggedHash workTag p.transcript

structure WellFormed (d : Bytes) (c : Uint256) (p : TlsProof) : Prop where
  client_hello : p.clientHello.WellFormed d c
  client_hello_size : p.clientHelloMessage.length ≤ MAX_CLIENT_HELLO_SIZE
  server_hello : p.serverHello.WellFormed p.clientHello.state
  server_hello_size : p.serverHelloMessage.length ≤ MAX_SERVER_HELLO_SIZE
  encrypted_extensions : EncryptedExtensionsOk p.encryptedExtensions
  encrypted_extensions_size : p.encryptedExtensionsMessage.length ≤ MAX_ENCRYPTED_EXTENSIONS_SIZE
  certificate : CertificateOk p.certificate
  certificate_size : p.certificateMessage.length ≤ MAX_P2C_CERTIFICATE_MESSAGE_SIZE
  certificate_verify : p.certificateVerify.WellFormed p.clientHello.state
  certificate_verify_size : p.certificateVerifyMessage.length ≤ MAX_CERTIFICATE_VERIFY_SIZE

end TlsProof

end ConnectCoin.P2C
