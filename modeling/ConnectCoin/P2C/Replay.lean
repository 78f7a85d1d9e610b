/-
A connection proof cannot be replayed.

The bytes of a proof alone determine the domain and the challenge it is accepted for (`domain_challenge_unique`):
version, random and session id have fixed places or announce their length, the extension block fills the message, and
one extension type occurs once. Since the challenge hashes the txid and the input index, two inputs that pass with the
same proof are the same input of the same transaction, up to witnesses.
-/
import ConnectCoin.P2C.Transcript
import ConnectCoin.Consensus.ScriptCheck

namespace ConnectCoin.P2C

open Lib List

/-! ## Domain and challenge are in the bytes -/

/-- An extension block is read in one way. -/
theorem encodeExtensions_inj {e₁ e₂ : List TlsExtension} (h₁ : ExtensionsOk e₁) (h₂ : ExtensionsOk e₂)
    (h : encodeExtensions e₁ = encodeExtensions e₂) : e₁ = e₂ := by
  have hr₁ := (reads_extensions e₁ (encodeExtensions e₁) []).2 ⟨h₁, rfl, rfl⟩
  have hr₂ := (reads_extensions e₂ (encodeExtensions e₁) []).2 ⟨h₂, rfl, h⟩
  rw [hr₁] at hr₂
  simpa using hr₂

theorem sized_inj {w : ℕ} {a b : Bytes} (ha : a.length < 256 ^ w) (hb : b.length < 256 ^ w)
    (h : sized w a = sized w b) : a = b := (SelfDelimiting.bytes (SelfDelimiting.be w)).inj ha hb h

/-- Random and extensions of a ClientHello are determined by its bytes. -/
theorem clientHello_inj {d₁ d₂ : Bytes} {c₁ c₂ : Uint256} {m₁ m₂ : ClientHello} (h₁ : m₁.WellFormed d₁ c₁)
    (h₂ : m₂.WellFormed d₂ c₂) (h : m₁.encode = m₂.encode) : m₁.random = m₂.random ∧ m₁.extensions = m₂.extensions := by
  have hlen : m₁.random.length = m₂.random.length := by
    rw [h₁.random_eq, h₂.random_eq, Uint256.bytes_length, Uint256.bytes_length]
  have hs₁ : m₁.sessionId.length < 256 ^ 1 := by have := h₁.session_size; omega
  have hs₂ : m₂.sessionId.length < 256 ^ 1 := by have := h₂.session_size; omega
  simp only [ClientHello.encode, append_assoc] at h
  obtain ⟨-, h⟩ := append_inj h rfl
  obtain ⟨hrandom, h⟩ := append_inj h hlen
  obtain ⟨-, h⟩ := SelfDelimiting.bytes (SelfDelimiting.be 1) hs₁ hs₂ h
  obtain ⟨-, h⟩ := SelfDelimiting.bytes (SelfDelimiting.be 2) h₁.suites_fit h₂.suites_fit h
  obtain ⟨-, h⟩ := append_inj h rfl
  exact ⟨hrandom, encodeExtensions_inj h₁.extensions_ok h₂.extensions_ok h⟩

theorem domain_challenge_unique [Crypto] {b d₁ d₂ : Bytes} {c₁ c₂ : Uint256} {v₁ v₂ : P2CTlsProofView}
    (h₁ : parseP2CTlsProof b d₁ c₁ = .ok v₁) (h₂ : parseP2CTlsProof b d₂ c₂ = .ok v₂) : d₁ = d₂ ∧ c₁ = c₂ := by
  obtain ⟨hd₁, -, p₁, hp₁, rfl, -⟩ := (parseP2CTlsProof_ok b d₁ c₁ v₁).1 h₁
  obtain ⟨hd₂, -, p₂, hp₂, he, -⟩ := (parseP2CTlsProof_ok _ d₂ c₂ v₂).1 h₂
  -- the ClientHello bodies agree
  have hfit₁ := hp₁.client_hello_size
  have hfit₂ := hp₂.client_hello_size
  simp only [TlsProof.clientHelloMessage, handshake_length, MAX_CLIENT_HELLO_SIZE] at hfit₁ hfit₂
  have hbody : p₁.clientHello.encode = p₂.clientHello.encode := by
    have htail := (List.cons.inj he).2
    simp only [append_assoc] at htail
    exact (handshake_selfDelimiting _ (show _ < 2 ^ 24 by omega) (show _ < 2 ^ 24 by omega) htail).1
  obtain ⟨hrandom, hexts⟩ := clientHello_inj hp₁.client_hello hp₂.client_hello hbody
  have hc : c₁ = c₂ := by
    rw [← Uint256.bytes_inj, ← hp₁.client_hello.random_eq, ← hp₂.client_hello.random_eq, hrandom]
  -- one server_name extension, hence one name
  have hn₁ := hp₁.client_hello.server_name
  have hn₂ := hp₂.client_hello.server_name
  rw [← hexts] at hn₂
  have hname := inj_on_of_nodup_map hp₁.client_hello.extensions_ok.distinct hn₁ hn₂ rfl
  have hdata : sized 2 (0 :: sized 2 d₁) = sized 2 (0 :: sized 2 d₂) := congrArg TlsExtension.data hname
  have hlen₁ : d₁.length ≤ 253 := isCanonicalP2CDomain_length hd₁
  have hlen₂ : d₂.length ≤ 253 := isCanonicalP2CDomain_length hd₂
  have hinner := sized_inj (by simp; omega) (by simp; omega) hdata
  exact ⟨sized_inj (show _ < 256 ^ 2 by omega) (show _ < 256 ^ 2 by omega) (List.cons.inj hinner).2, hc⟩

/-! ## One proof, one input -/

/-- what SHA-256 is applied to for the challenge of an input -/
def claimPreimage [Crypto] (tx : CTransaction) (i : UInt32) : Bytes := taggedPrefix claimTag ++ claimMessage tx i

theorem claimPreimage_inj [Crypto] {t₁ t₂ : CTransaction} {i₁ i₂ : UInt32}
    (h : claimPreimage t₁ i₁ = claimPreimage t₂ i₂) : t₁.getHash = t₂.getHash ∧ i₁ = i₂ := by
  have hmsg : claimMessage t₁ i₁ = claimMessage t₂ i₂ := append_cancel_left h
  obtain ⟨htx, hi⟩ := append_inj hmsg (by rw [Uint256.bytes_length, Uint256.bytes_length])
  exact ⟨Uint256.ext htx, UInt32.toNat_inj.1 (leBytes_inj i₁.toNat_lt i₂.toNat_lt hi)⟩

/-- A proof is accepted for one domain and one challenge only; and two pay-to-connect inputs that pass with the same
witness proof are the same input of one txid, where SHA-256 does not collide on their two claim preimages. -/
theorem proof_not_replayable [Crypto] :
    (∀ (b d₁ d₂ : Bytes) (c₁ c₂ : Uint256), (∃ v, parseP2CTlsProof b d₁ c₁ = .ok v) →
      (∃ v, parseP2CTlsProof b d₂ c₂ = .ok v) → d₁ = d₂ ∧ c₁ = c₂) ∧
    ∀ (env : ScriptEnv) (o₁ o₂ : CTxOut) (spent₁ spent₂ : List CTxOut) (t₁ t₂ : CTransaction) (i₁ i₂ : UInt32)
      (time₁ time₂ : Int64) (in₁ in₂ : CTxIn), o₁.type = .PAY_TO_CONNECT → o₂.type = .PAY_TO_CONNECT →
      t₁.vin[i₁.toNat]? = some in₁ → t₂.vin[i₂.toNat]? = some in₂ → in₁.scriptWitness = in₂.scriptWitness →
      scriptCheck env o₁ spent₁ t₁ i₁ time₁ = none → scriptCheck env o₂ spent₂ t₂ i₂ time₂ = none →
      Set.InjOn Crypto.sha256 {claimPreimage t₁ i₁, claimPreimage t₂ i₂} → t₁.getHash = t₂.getHash ∧ i₁ = i₂ := by
  refine ⟨fun b d₁ d₂ c₁ c₂ ⟨v₁, h₁⟩ ⟨v₂, h₂⟩ => domain_challenge_unique h₁ h₂, ?_⟩
  intro env o₁ o₂ spent₁ spent₂ t₁ t₂ i₁ i₂ time₁ time₂ in₁ in₂ ho₁ ho₂ hin₁ hin₂ hwit hs₁ hs₂ hinj
  obtain ⟨proof₁, ⟨in₁', hi₁, -, hw₁⟩, ⟨p₁, v₁, -, -, hp₁, -⟩, -, -⟩ := (scriptCheck_p2c ho₁).1 hs₁
  obtain ⟨proof₂, ⟨in₂', hi₂, -, hw₂⟩, ⟨p₂, v₂, -, -, hp₂, -⟩, -, -⟩ := (scriptCheck_p2c ho₂).1 hs₂
  obtain rfl : in₁ = in₁' := Option.some_inj.1 (hin₁.symm.trans hi₁)
  obtain rfl : in₂ = in₂' := Option.some_inj.1 (hin₂.symm.trans hi₂)
  have hproof : proof₁ = proof₂ := by
    rw [hw₁, hw₂] at hwit
    exact (List.cons.inj hwit).1
  rw [← hproof] at hp₂
  have hchallenge : p2cClaimChallenge t₁ i₁ = p2cClaimChallenge t₂ i₂ := (domain_challenge_unique hp₁ hp₂).2
  exact claimPreimage_inj (hinj (Or.inl rfl) (Or.inr rfl) hchallenge)

/-! ## A concrete claim -/

section
attribute [local instance] toyCrypto

/-- what the sample output asks for: the sample domain, any work -/
def sampleTerms : PayToDomainOutput := ⟨sampleDomain, Uint256.ofNat (2 ^ 256 - 1), 1, 7⟩

theorem sampleTerms_met (workHash : Uint256) : p2cMeetsWorkTarget workHash sampleTerms.connectionWorkTarget = true := by
  have htarget : sampleTerms.connectionWorkTarget.toNat = 2 ^ 256 - 1 := Uint256.toNat_ofNat (by norm_num)
  rw [p2cMeetsWorkTarget, decide_eq_true_eq, htarget]
  exact Nat.le_sub_one_of_lt (Uint256.toNat_lt _)

/-- The sample connection is parsed. -/
theorem sampleProof_parsed (challenge : Uint256) (b : UInt8) :
    parseP2CTlsProof (sampleProof challenge [b]).encode sampleTerms.domain challenge =
      .ok (TlsProof.view (sampleProof challenge [b])) :=
  (parseP2CTlsProof_ok _ _ _ _).2 ⟨by decide, sampleProof_size _ _, _, sampleProof_wellFormed _ _, rfl, rfl⟩

def sampleP2COutput : CTxOut :=
  ⟨.PAY_TO_CONNECT, Uint256.null, 1, p2cCompatibilityView sampleTerms, by decide, fun _ => rfl⟩

/-- a transaction of two inputs and no output, with these witnesses -/
def sampleClaim (w₀ w₁ : Bytes) (h₀ : w₀.length < 2 ^ 64) (h₁ : w₁.length < 2 ^ 64) : CTransaction :=
  { vin := [⟨⟨Uint256.ofNat 7, 0⟩, [], 0, [w₀]⟩, ⟨⟨Uint256.ofNat 7, 1⟩, [], 0, [w₁]⟩]
    vout := []
    version := 2
    nLockTime := 0
    payloads := by simp
    vin_size := by simp
    vout_size := by simp
    scriptSig_size := by simp
    stack_size := by
      intro i hi
      rcases mem_pair.1 hi with rfl | rfl
      · exact ⟨(by decide : 1 < 2 ^ 64), fun w hw => by rwa [mem_singleton.1 hw]⟩
      · exact ⟨(by decide : 1 < 2 ^ 64), fun w hw => by rwa [mem_singleton.1 hw]⟩ }

/-- Witnesses do not enter the txid. -/
theorem sampleClaim_hash (w₀ w₁ : Bytes) (h₀ : w₀.length < 2 ^ 64) (h₁ : w₁.length < 2 ^ 64) :
    CTransaction.getHash (sampleClaim w₀ w₁ h₀ h₁) =
      CTransaction.getHash (sampleClaim [] [] (by decide) (by decide)) := by
  rw [CTransaction.getHash, CTransaction.getHash, CTransaction.serialize_noWitness, CTransaction.serialize_noWitness]
  rfl

/-- the challenge of input 0; witnesses do not enter it -/
def sampleChallenge : Uint256 := p2cClaimChallenge (sampleClaim [] [] nil_fits nil_fits) 0

/-- the sample connection made for input 0 -/
def sampleClaimProof : Bytes := (sampleProof sampleChallenge [0x30]).encode

theorem sampleClaimProof_size : sampleClaimProof.length < 2 ^ 64 :=
  lt_of_le_of_lt (sampleProof_size sampleChallenge 0x30) (by decide)

/-- an environment that accepts every certificate chain -/
def sampleEnv : ScriptEnv := ⟨fun _ _ _ _ _ => false, fun _ _ _ => .ok ()⟩

/-- An input that carries the sample connection, made for it, spends the sample output. -/
theorem sampleProof_spends {env : ScriptEnv} {spent : List CTxOut} {tx : CTransaction} {nIn : UInt32}
    {txin : CTxIn} {time : Int64} (hin : tx.vin[nIn.toNat]? = some txin) (hsig : txin.scriptSig = [])
    (hw : txin.scriptWitness = [(sampleProof (p2cClaimChallenge tx nIn) [0x30]).encode])
    (hverify : ∀ v, env.verifyP2CCertificateProof sampleP2COutput v time = .ok ()) :
    scriptCheck env sampleP2COutput spent tx nIn time = none := by
  exact (scriptCheck_p2c rfl).2 ⟨_, ⟨txin, hin, hsig, hw⟩,
    ⟨sampleTerms, _, by decide +kernel, rfl, sampleProof_parsed _ _, sampleTerms_met _, hverify _⟩, cons_ne_nil _ _,
    sampleProof_size _ _⟩

theorem sampleClaim_passes (spent : List CTxOut) (w : Bytes) (hw : w.length < 2 ^ 64) :
    scriptCheck sampleEnv sampleP2COutput spent (sampleClaim sampleClaimProof w sampleClaimProof_size hw) 0 0 =
      none := by
  have hchallenge : p2cClaimChallenge (sampleClaim sampleClaimProof w sampleClaimProof_size hw) 0 =
      sampleChallenge := by
    rw [p2cClaimChallenge, claimMessage, sampleClaim_hash]
    rfl
  apply sampleProof_spends rfl rfl
  · rw [hchallenge]
    rfl
  · intro v
    rfl

/-- Both transactions carry the proof at input 0 and differ in the other witness: one txid, and the same input. -/
theorem sampleClaim_not_replayed :
    CTransaction.getHash (sampleClaim sampleClaimProof [1] sampleClaimProof_size (by decide)) =
        CTransaction.getHash (sampleClaim sampleClaimProof [2] sampleClaimProof_size (by decide)) ∧
      (0 : UInt32) = 0 :=
  proof_not_replayable.2 sampleEnv sampleP2COutput sampleP2COutput [sampleP2COutput] [sampleP2COutput] _ _ 0 0 0 0 _ _
    rfl rfl rfl rfl rfl
    (sampleClaim_passes _ [1] _) (sampleClaim_passes _ [2] _) (by
      have hsame : claimPreimage (sampleClaim sampleClaimProof [1] sampleClaimProof_size (by decide)) 0 =
          claimPreimage (sampleClaim sampleClaimProof [2] sampleClaimProof_size (by decide)) 0 := by
        rw [claimPreimage, claimPreimage, claimMessage, claimMessage, sampleClaim_hash, sampleClaim_hash _ [2]]
      rw [hsame, Set.pair_eq_singleton]
      exact Set.injOn_singleton _ _)

end

end ConnectCoin.P2C
