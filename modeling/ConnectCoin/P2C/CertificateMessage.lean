/-
The Certificate message alone and in a proof (`ParseP2CCertificateMessage` and `ParseP2CTlsProof`, `consensus/p2c.cpp`).

A capture checks the Certificate message as soon as it arrives, before the rest of the proof is there. The message
announces its length and the certificate list inside announces its own, so neither parser reads past the message or
stops before its end.
- `parseP2CCertificateMessage_ok`: the messages that are accepted alone, by the grammar of the proof parser.
- `withCertificate`: a proof with another Certificate message.
Result: `certificate_message_agrees`: both parsers accept the same Certificate messages and return the same
certificates.
-/
import ConnectCoin.P2C.Exactness

namespace ConnectCoin.P2C

open Lib

/-- The parser of one message succeeds on the framed encodings of certificate lists in form. -/
theorem parseP2CCertificateMessage_ok (b full : Bytes) (chain : List Bytes) :
    parseP2CCertificateMessage b = .ok (full, chain) ↔ ∃ entries, CertificateOk entries ∧ full = b ∧
      b = handshake TLS_HANDSHAKE_CERTIFICATE (encodeCertificate entries) ∧
      b.length ≤ MAX_P2C_CERTIFICATE_MESSAGE_SIZE ∧ chain = entries.map CertificateEntry.certificate := by
  rw [parseP2CCertificateMessage, run_eq_ok]
  simp only [then_handshake, then_ensureEmpty, then_fromExcept, parseCertificate_ok, reads_pure, Prod.mk.injEq]
  constructor
  · rintro ⟨t, body, t', -, hsize, rfl, rfl, chain', ⟨entries, hentries, rfl, rfl⟩, ⟨rfl, rfl⟩, -⟩
    rw [List.append_nil]
    exact ⟨entries, hentries, rfl, rfl, hsize, rfl⟩
  · rintro ⟨entries, hentries, rfl, rfl, hsize, rfl⟩
    have hbody : (encodeCertificate entries).length < 2 ^ 24 := by
      rw [handshake_length] at hsize
      exact lt_of_le_of_lt (Nat.le_of_add_left_le hsize) (by decide)
    exact ⟨[], encodeCertificate entries, [], hbody, hsize, (List.append_nil _).symm, rfl, _,
      ⟨entries, hentries, rfl, rfl⟩, ⟨rfl, rfl⟩, rfl⟩

/-- the bytes of a proof, with another Certificate message in its place -/
def P2CTlsProofView.withCertificate (v : P2CTlsProofView) (b : Bytes) : Bytes :=
  P2C_PROOF_VERSION :: (v.clientHello ++ v.serverHello ++ v.encryptedExtensions ++ b ++ v.certificateVerify)

/-- The capture-time check agrees with the proof parser. The fourth message of an accepted proof is accepted alone, with
the same certificates. And a message that is accepted alone may take the place of the Certificate message of every
accepted proof, as long as the whole is not too long: the proof is accepted with these certificates, and with the other
messages as they were. -/
theorem certificate_message_agrees [Crypto] : (∀ b proof d c v, parseP2CTlsProof proof d c = .ok v → v.certificate = b →
      proof = v.withCertificate b ∧ parseP2CCertificateMessage b = .ok (b, v.certificateChain)) ∧
    ∀ b full chain, parseP2CCertificateMessage b = .ok (full, chain) → full = b ∧
      ∀ proof d c v, parseP2CTlsProof proof d c = .ok v → (v.withCertificate b).length ≤ MAX_P2C_PROOF_SIZE →
        ∃ v', parseP2CTlsProof (v.withCertificate b) d c = .ok v' ∧ v'.certificateChain = chain ∧ v'.certificate = b ∧
          v'.clientHello = v.clientHello ∧ v'.serverHello = v.serverHello ∧
          v'.encryptedExtensions = v.encryptedExtensions ∧ v'.certificateVerify = v.certificateVerify := by
  constructor
  · rintro b proof d c v hproof rfl
    obtain ⟨-, -, p, hp, rfl, rfl⟩ := (parseP2CTlsProof_ok _ _ _ _).1 hproof
    refine ⟨rfl, (parseP2CCertificateMessage_ok _ _ _).2 ⟨p.certificate, hp.certificate, rfl, rfl,
      hp.certificate_size, rfl⟩⟩
  · intro b full chain hb
    obtain ⟨entries, hentries, rfl, hmessage, hsize, rfl⟩ := (parseP2CCertificateMessage_ok _ _ _).1 hb
    refine ⟨rfl, fun proof d c v hproof htotal => ?_⟩
    obtain ⟨hdomain, -, p, hp, rfl, rfl⟩ := (parseP2CTlsProof_ok _ _ _ _).1 hproof
    -- no other message depends on the certificates
    let q : TlsProof := { p with certificate := entries }
    have hencode : p.view.withCertificate full = q.encode := by
      rw [hmessage]
      rfl
    have hfits : q.certificateMessage.length ≤ MAX_P2C_CERTIFICATE_MESSAGE_SIZE := by
      rw [hmessage] at hsize
      exact hsize
    have hq : q.WellFormed d c := { hp with certificate := hentries, certificate_size := hfits }
    refine ⟨q.view, (parseP2CTlsProof_ok _ _ _ _).2 ⟨hdomain, htotal, q, hq, hencode, rfl⟩, rfl, ?_, rfl, rfl, rfl, rfl⟩
    rw [hmessage]
    rfl

end ConnectCoin.P2C
