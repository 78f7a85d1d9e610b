/-
What the two hashes of a proof commit to.

The transcript hash and the connection work hash cover the concatenation ClientHello ‖ ServerHello ‖ EncryptedExtensions
‖ Certificate, without separators. `handshake_selfDelimiting`: a message of a known type announces its own end, so the
concatenation splits in one way only (`transcript_inj`). Hence equal hashes mean four equal messages, and
CertificateVerify, which is in neither hash, cannot make a second work candidate out of one connection.
-/
import ConnectCoin.P2C.Exactness

namespace ConnectCoin.P2C

open Lib

theorem handshake_selfDelimiting (type : UInt8) :
    SelfDelimiting (fun b : Bytes => b.length < 2 ^ 24) (handshake type) := by
  intro a b s t ha hb h
  have htail : sized 3 a ++ s = sized 3 b ++ t := (List.cons.inj h).2
  exact SelfDelimiting.bytes (SelfDelimiting.be 3) ha hb htail

namespace TlsProof

/-- the bodies of the four hashed messages fit their length fields -/
theorem bodies_fit {d : Bytes} {c : Uint256} {p : TlsProof} (h : p.WellFormed d c) :
    p.clientHello.encode.length < 2 ^ 24 ∧ p.serverHello.encode.length < 2 ^ 24 ∧
      (encodeExtensions p.encryptedExtensions).length < 2 ^ 24 ∧ (encodeCertificate p.certificate).length < 2 ^ 24 := by
  have h₁ := h.client_hello_size
  have h₂ := h.server_hello_size
  have h₃ := h.encrypted_extensions_size
  have h₄ := h.certificate_size
  simp only [clientHelloMessage, serverHelloMessage, encryptedExtensionsMessage, certificateMessage, handshake_length,
    MAX_CLIENT_HELLO_SIZE, MAX_SERVER_HELLO_SIZE, MAX_ENCRYPTED_EXTENSIONS_SIZE,
    MAX_P2C_CERTIFICATE_MESSAGE_SIZE] at h₁ h₂ h₃ h₄
  omega

end TlsProof

namespace P2CTlsProofView

/-- the bytes CertificateVerify authenticates -/
def transcript (v : P2CTlsProofView) : Bytes := v.clientHello ++ v.serverHello ++ v.encryptedExtensions ++ v.certificate

/-- the four hashed messages agree bytewise -/
def SameTranscript (v₁ v₂ : P2CTlsProofView) : Prop :=
  v₁.clientHello = v₂.clientHello ∧ v₁.serverHello = v₂.serverHello ∧ v₁.encryptedExtensions = v₂.encryptedExtensions ∧
    v₁.certificate = v₂.certificate

/-- what SHA-256 is applied to for the two hashes of a proof -/
def hashed [Crypto] (v : P2CTlsProofView) : Set Bytes := {v.transcript, taggedPrefix workTag ++ v.transcript}

end P2CTlsProofView

section
variable [Crypto] {b₁ b₂ d₁ d₂ : Bytes} {c₁ c₂ : Uint256} {v₁ v₂ : P2CTlsProofView}

theorem hashes_of_parse (h : parseP2CTlsProof b₁ d₁ c₁ = .ok v₁) : v₁.transcriptHash = Crypto.sha256 v₁.transcript ∧
      v₁.connectionWorkHash = Crypto.sha256 (taggedPrefix workTag ++ v₁.transcript) := by
  obtain ⟨-, -, p, -, -, rfl⟩ := (parseP2CTlsProof_ok b₁ d₁ c₁ v₁).1 h
  exact ⟨rfl, rfl⟩

/-- The transcript of an accepted proof splits into its four messages in one way only. -/
theorem transcript_inj (h₁ : parseP2CTlsProof b₁ d₁ c₁ = .ok v₁) (h₂ : parseP2CTlsProof b₂ d₂ c₂ = .ok v₂)
    (h : v₁.transcript = v₂.transcript) : v₁.SameTranscript v₂ := by
  obtain ⟨-, -, p₁, hp₁, -, rfl⟩ := (parseP2CTlsProof_ok b₁ d₁ c₁ v₁).1 h₁
  obtain ⟨-, -, p₂, hp₂, -, rfl⟩ := (parseP2CTlsProof_ok b₂ d₂ c₂ v₂).1 h₂
  obtain ⟨hch₁, hsh₁, hee₁, hcert₁⟩ := TlsProof.bodies_fit hp₁
  obtain ⟨hch₂, hsh₂, hee₂, hcert₂⟩ := TlsProof.bodies_fit hp₂
  -- peel the messages off from the front
  have hcat : p₁.clientHelloMessage ++ (p₁.serverHelloMessage ++ (p₁.encryptedExtensionsMessage ++
      (p₁.certificateMessage ++ []))) = p₂.clientHelloMessage ++ (p₂.serverHelloMessage ++
      (p₂.encryptedExtensionsMessage ++ (p₂.certificateMessage ++ []))) := by
    simpa [P2CTlsProofView.transcript, TlsProof.view] using h
  obtain ⟨hch, hcat⟩ := handshake_selfDelimiting _ hch₁ hch₂ hcat
  obtain ⟨hsh, hcat⟩ := handshake_selfDelimiting _ hsh₁ hsh₂ hcat
  obtain ⟨hee, hcat⟩ := handshake_selfDelimiting _ hee₁ hee₂ hcat
  obtain ⟨hcert, -⟩ := handshake_selfDelimiting _ hcert₁ hcert₂ hcat
  exact ⟨congrArg (handshake _) hch, congrArg (handshake _) hsh, congrArg (handshake _) hee,
    congrArg (handshake _) hcert⟩

/-- Connection work counts server transcripts: the four messages determine both hashes, whatever the CertificateVerify
messages are, and where SHA-256 does not collide on what was hashed, either hash determines the four messages. -/
theorem work_counts_transcripts (h₁ : parseP2CTlsProof b₁ d₁ c₁ = .ok v₁) (h₂ : parseP2CTlsProof b₂ d₂ c₂ = .ok v₂) :
    (v₁.SameTranscript v₂ → v₁.transcriptHash = v₂.transcriptHash ∧ v₁.connectionWorkHash = v₂.connectionWorkHash) ∧
    (Set.InjOn Crypto.sha256 (v₁.hashed ∪ v₂.hashed) →
      v₁.connectionWorkHash = v₂.connectionWorkHash ∨ v₁.transcriptHash = v₂.transcriptHash →
        v₁.SameTranscript v₂) := by
  obtain ⟨ht₁, hw₁⟩ := hashes_of_parse h₁
  obtain ⟨ht₂, hw₂⟩ := hashes_of_parse h₂
  rw [ht₁, ht₂, hw₁, hw₂]
  constructor
  · rintro ⟨hch, hsh, hee, hcert⟩
    have htr : v₁.transcript = v₂.transcript := by
      rw [P2CTlsProofView.transcript, hch, hsh, hee, hcert, P2CTlsProofView.transcript]
    rw [htr]
    exact ⟨rfl, rfl⟩
  · intro hinj h
    rcases h with hwork | htrans
    · have heq := hinj (Or.inl (Or.inr rfl)) (Or.inr (Or.inr rfl)) hwork
      exact transcript_inj h₁ h₂ (List.append_cancel_left heq)
    · exact transcript_inj h₁ h₂ (hinj (Or.inl (Or.inl rfl)) (Or.inr (Or.inl rfl)) htrans)

end

section
attribute [local instance] toyCrypto

/-- Two accepted proofs of one connection that differ in CertificateVerify only: one work hash, one transcript. -/
theorem resigned_same_work : (sampleProof Uint256.null [0x30]).certificateVerifyMessage ≠
      (sampleProof Uint256.null [0x31]).certificateVerifyMessage ∧
    (sampleProof Uint256.null [0x30]).view.connectionWorkHash =
      (sampleProof Uint256.null [0x31]).view.connectionWorkHash ∧
    (sampleProof Uint256.null [0x30]).view.SameTranscript (sampleProof Uint256.null [0x31]).view := by
  have hok : ∀ b : UInt8, parseP2CTlsProof (sampleProof Uint256.null [b]).encode sampleDomain Uint256.null =
      .ok (sampleProof Uint256.null [b]).view := fun b =>
    (parseP2CTlsProof_ok _ _ _ _).2 ⟨by decide, sampleProof_size _ _, _, sampleProof_wellFormed _ _, rfl, rfl⟩
  -- the work preimage starts with the tag's digest, the transcript with a handshake type
  have hne : Crypto.sha256 (sampleProof Uint256.null [0x30]).transcript ≠
      Crypto.sha256 (taggedPrefix workTag ++ (sampleProof Uint256.null [0x30]).transcript) := by
    decide +kernel
  have hinj : Set.InjOn Crypto.sha256 ((sampleProof Uint256.null [0x30]).view.hashed ∪
      (sampleProof Uint256.null [0x31]).view.hashed) := by
    have hset : (sampleProof Uint256.null [0x31]).view.hashed = (sampleProof Uint256.null [0x30]).view.hashed := rfl
    rw [hset, Set.union_self]
    rintro x (rfl | rfl) y (rfl | rfl) h
    · rfl
    · exact absurd h hne
    · exact absurd h.symm hne
    · rfl
  obtain ⟨hsame, hback⟩ := work_counts_transcripts (hok 0x30) (hok 0x31)
  have hwork := (hsame ⟨rfl, rfl, rfl, rfl⟩).2
  exact ⟨by decide, hwork, hback hinj (Or.inl hwork)⟩

end

end ConnectCoin.P2C
