/-
The parser accepts exactly the grammar.

Results, one for each function of the parser: it succeeds iff its input is the encoding of a well-formed value, and then
it returns what that value says.
- `reads_handshake`, `readExtensions_ok`, `parseServerName_ok`, `parseVersions_ok`, `parseSignatureAlgorithms_ok`,
  `parseKeyShares_ok`
- `parseClientHello_ok`, `parseServerHello_ok`, `parseEncryptedExtensions_ok`, `parseCertificate_ok`,
  `parseCertificateVerify_ok`
- `parseP2CTlsProof_ok`: the whole proof, with the view the parser hands out.
-/
import ConnectCoin.P2C.Grammar

namespace ConnectCoin.P2C

open Lib List

/-! ## Sized fields and 16-bit lists -/

@[simp] theorem sized_length (w : ℕ) (b : Bytes) : (sized w b).length = w + b.length := by
  simp [sized]

variable {exts : List TlsExtension} {β : Type} (challenge : Uint256) (msg : String) (type : UInt8)
  (client : ClientHelloState) (b d data s : Bytes) (chain : List Bytes) (u : Unit) (groups vs : List UInt16)

@[simp] theorem encodeU16s_length : (encodeU16s vs).length = 2 * vs.length := by
  induction vs with
  | nil => rfl
  | cons v vs ih =>
    rw [encodeU16s, flatMap_cons, length_append, beBytes_length, length_cons]
    rw [encodeU16s] at ih
    omega

theorem u16s_encodeU16s : u16s (encodeU16s vs) = vs := by
  induction vs with
  | nil => rfl
  | cons v vs ih =>
    -- the two bytes of a value, read back
    have hv : ∃ hi lo, beBytes 2 v.toNat = [hi, lo] := ⟨_, _, rfl⟩
    obtain ⟨hi, lo, hb⟩ := hv
    have hback : UInt16.ofNat (beNat [hi, lo]) = v := by
      rw [← hb, beNat_beBytes_of_lt v.toNat_lt, UInt16.ofNat_toNat]
    have hcons : encodeU16s (v :: vs) = hi :: lo :: encodeU16s vs := by
      rw [encodeU16s, flatMap_cons, hb]; rfl
    rw [hcons, u16s, hback, ih]

theorem encodeU16s_u16s (n : ℕ) (b : Bytes) (h : b.length = 2 * n) : encodeU16s (u16s b) = b := by
  induction n generalizing b with
  | zero =>
    obtain rfl : b = [] := length_eq_zero_iff.1 h
    rfl
  | succ n ih =>
    match b, h with
    | hi :: lo :: rest, h =>
      have hlt : beNat [hi, lo] < 2 ^ 16 := lt_of_lt_of_le (beNat_lt [hi, lo]) (by simp)
      have hb : beBytes 2 (beNat [hi, lo]) = [hi, lo] := beBytes_beNat [hi, lo]
      have hrest : rest.length = 2 * n := by simp at h; omega
      rw [u16s, encodeU16s, flatMap_cons, UInt16.toNat_ofNat_of_lt' hlt, hb]
      change hi :: lo :: encodeU16s (u16s rest) = hi :: lo :: rest
      rw [ih rest hrest]

/-- The test of a list's byte length says that the bytes are a list of 16-bit values. -/
theorem even_bytes_iff : ¬ b.length < 2 ∧ b.length % 2 = 0 ↔ ∃ vs, vs ≠ [] ∧ b = encodeU16s vs := by
  constructor
  · rintro ⟨hlow, heven⟩
    have hb : encodeU16s (u16s b) = b := encodeU16s_u16s (b.length / 2) b (by omega)
    refine ⟨u16s b, fun hnil => ?_, hb.symm⟩
    rw [hnil] at hb
    rw [← hb] at hlow
    exact hlow (by decide)
  · rintro ⟨vs, hne, rfl⟩
    have hpos := length_pos_of_ne_nil hne
    rw [encodeU16s_length]
    omega

/-! ## Envelope -/

theorem reads_ensureEmpty (s t : Bytes) : ensureEmpty msg s = .ok (u, t) ↔ s = [] ∧ t = s := by
  rw [ensureEmpty, then_remaining, reads_ensure, length_eq_zero_iff]

theorem then_ensureEmpty (f : Unit → Reader β) (s : Bytes) (r : β × Bytes) :
    (ensureEmpty msg >>= f) s = .ok r ↔ s = [] ∧ f () s = .ok r := by
  rw [reads_bind]
  simp only [reads_ensureEmpty]
  exact ⟨fun ⟨_, _, ⟨hs, ht⟩, h⟩ => ⟨hs, ht ▸ h⟩, fun ⟨hs, h⟩ => ⟨(), s, ⟨hs, rfl⟩, h⟩⟩

/-- A handshake message is its header and its body; the offset test never fails. -/
theorem reads_handshake (max : ℕ) (full body s t : Bytes) : readHandshake type max s = .ok ((full, body), t) ↔
      body.length < 2 ^ 24 ∧ full = handshake type body ∧ full.length ≤ max ∧ s = full ++ t := by
  simp only [readHandshake, then_remaining, then_byte, then_be, then_ensure, then_bytes, reads_pure, Prod.mk.injEq]
  constructor
  · rintro ⟨ty, t₁, rfl, size, t₂, hsize, rfl, rfl, hmax, b, t₃, rfl, rfl, -, ⟨rfl, rfl⟩, rfl⟩
    refine ⟨hsize, rfl, ?_, ?_⟩
    · simp only [length_cons, length_append, beBytes_length]
      omega
    · simp
  · rintro ⟨hsize, rfl, hmax, rfl⟩
    refine ⟨type, _, rfl, body.length, body ++ t, hsize, ?_, rfl, ?_, body, t, rfl, rfl, ?_, ⟨rfl, rfl⟩, rfl⟩
    · simp [sized]
    · simp [handshake] at hmax; omega
    · simp [handshake]; omega

@[simp] theorem handshake_length (body : Bytes) : (handshake type body).length = 4 + body.length := by
  rw [handshake, length_cons, sized_length]
  omega

theorem then_handshake (max : ℕ) (f : Bytes × Bytes → Reader β) (s : Bytes) (r : β × Bytes) :
    (readHandshake type max >>= f) s = .ok r ↔
      ∃ body t, body.length < 2 ^ 24 ∧ (handshake type body).length ≤ max ∧ s = handshake type body ++ t ∧
        f (handshake type body, body) t = .ok r := by
  simp only [reads_bind, Prod.exists, reads_handshake]
  constructor
  · rintro ⟨full, body, t, ⟨hsize, rfl, hmax, rfl⟩, h⟩
    exact ⟨body, t, hsize, hmax, rfl, h⟩
  · rintro ⟨body, t, hsize, hmax, rfl, h⟩
    exact ⟨_, body, t, ⟨hsize, rfl, hmax, rfl⟩, h⟩

/-! ## Extensions -/

theorem TlsExtension.encode_ne_nil (e : TlsExtension) : e.encode ≠ [] := by
  intro h
  have hlen := congrArg List.length h
  simp [TlsExtension.encode] at hlen

theorem reads_extension (acc acc' : List TlsExtension) (s t : Bytes) : readExtension acc s = .ok (acc', t) ↔
      ∃ e : TlsExtension, (e.data.length < 2 ^ 16 ∧ ∀ x ∈ acc, x.type ≠ e.type) ∧ acc' = acc ++ [e] ∧
      s = e.encode ++ t := by
  simp only [readExtension, then_u16, then_be, then_bytes, then_ensure, reads_pure]
  constructor
  · rintro ⟨ty, t₁, rfl, size, t₂, hsize, rfl, data, t₃, rfl, rfl, hnew, rfl, rfl⟩
    exact ⟨⟨ty, data⟩, ⟨hsize, hnew⟩, rfl, by simp [TlsExtension.encode, sized]⟩
  · rintro ⟨⟨ty, data⟩, ⟨hsize, hnew⟩, rfl, rfl⟩
    refine ⟨ty, _, ?_, data.length, data ++ t, hsize, rfl, data, t, rfl, rfl, hnew, rfl, rfl⟩
    simp [TlsExtension.encode, sized]

/-- The extension loop reads distinct extensions that use up its bytes. -/
theorem extensionLoop_ok (exts : List TlsExtension) : consumeAll readExtension s.length [] s = .ok exts ↔
      ((∀ e ∈ exts, e.data.length < 2 ^ 16) ∧ (exts.map TlsExtension.type).Nodup) ∧
        s = exts.flatMap TlsExtension.encode := by
  rw [consumeAll_ok readExtension _ _ _ reads_extension (fun _ e _ => e.encode_ne_nil) s.length [] exts s le_rfl]
  simp only [itemsOk_distinct (fun e : TlsExtension => e), foldl_collect (fun e : TlsExtension => e), map_id',
    nil_append, not_mem_nil, false_implies, implies_true, and_true]
  constructor
  · rintro ⟨as, hok, rfl, rfl⟩
    exact ⟨hok, rfl⟩
  · rintro ⟨hok, rfl⟩
    exact ⟨exts, hok, rfl, rfl⟩

/-- Extensions fill the rest of the message. -/
theorem reads_extensions (exts : List TlsExtension) (s t : Bytes) :
    readExtensions s = .ok (exts, t) ↔ ExtensionsOk exts ∧ t = [] ∧ s = encodeExtensions exts := by
  simp only [readExtensions, then_be, then_remaining, then_ensure, then_bytes, reads_fromExcept, extensionLoop_ok]
  constructor
  · rintro ⟨n, t₁, hn, rfl, hrest, b, t₂, rfl, rfl, ⟨⟨hfit, hnd⟩, rfl⟩, rfl⟩
    have ht : t = [] := by
      rw [length_append] at hrest
      exact length_eq_zero_iff.1 (by omega)
    subst ht
    exact ⟨⟨hnd, hfit, hn⟩, rfl, by simp [encodeExtensions, sized]⟩
  · rintro ⟨hok, rfl, rfl⟩
    exact ⟨_, _, hok.total_fits, rfl, rfl, _, [], rfl, by simp, ⟨⟨hok.data_fits, hok.distinct⟩, rfl⟩, rfl⟩

theorem then_extensions (f : List TlsExtension → Reader β) (s : Bytes) (r : β × Bytes) :
    (readExtensions >>= f) s = .ok r ↔ ∃ exts, ExtensionsOk exts ∧ s = encodeExtensions exts ∧ f exts [] = .ok r := by
  rw [reads_bind]
  simp only [reads_extensions]
  exact ⟨fun ⟨exts, _, ⟨hok, ht, hs⟩, h⟩ => ⟨exts, hok, hs, ht ▸ h⟩,
    fun ⟨exts, hok, hs, h⟩ => ⟨exts, [], ⟨hok, rfl, hs⟩, h⟩⟩

theorem findExtension_eq_none {ty : UInt16} : findExtension exts ty = none ↔ ∀ e ∈ exts, e.type ≠ ty := by
  simp [findExtension]

/-- Among distinct extensions, the one found is the one of that type. -/
theorem findExtension_eq_some (h : (exts.map TlsExtension.type).Nodup) {ty : UInt16} {e : TlsExtension} :
    findExtension exts ty = some e ↔ e ∈ exts ∧ e.type = ty := by
  constructor
  · intro hf
    exact ⟨mem_of_find?_eq_some hf, by simpa using find?_some hf⟩
  · rintro ⟨hmem, hty⟩
    cases hf : findExtension exts ty with
    | none => exact absurd hty (findExtension_eq_none.1 hf e hmem)
    | some e' =>
      have hty' : e'.type = ty := by simpa using find?_some hf
      have heq := inj_on_of_nodup_map h (mem_of_find?_eq_some hf) hmem (hty'.trans hty.symm)
      rw [heq]

theorem then_requireExtension (h : (exts.map TlsExtension.type).Nodup) (ty : UInt16) (msg : String)
    (f : TlsExtension → Reader β) (s : Bytes) (r : β × Bytes) :
    (requireExtension exts ty msg >>= f) s = .ok r ↔ ∃ data, ⟨ty, data⟩ ∈ exts ∧ f ⟨ty, data⟩ s = .ok r := by
  rw [requireExtension, then_fromExcept]
  constructor
  · rintro ⟨e, he, hr⟩
    split at he
    · next e' hf =>
      cases he
      obtain ⟨hmem, rfl⟩ := (findExtension_eq_some h).1 hf
      exact ⟨e.data, hmem, hr⟩
    · cases he
  · rintro ⟨data, hmem, hr⟩
    refine ⟨⟨ty, data⟩, ?_, hr⟩
    rw [(findExtension_eq_some h).2 ⟨hmem, rfl⟩]

/-! ## Contents of ClientHello extensions -/

theorem parseServerName_ok (hd : d.length < 2 ^ 16) :
    (parseServerName d).run data = .ok u ↔ (0 :: sized 2 d).length < 2 ^ 16 ∧ data = sized 2 (0 :: sized 2 d) := by
  simp only [run_eq_ok, parseServerName, then_be, then_remaining, then_ensure, then_byte, then_bytes, then_ensureEmpty,
    reads_ensure]
  constructor
  · rintro ⟨-, n, t₁, hn, rfl, rfl, b, t₂, rfl, rfl, m, t₃, hm, rfl, name, t₄, rfl, rfl, rfl, rfl, -⟩
    have hbody : (0 :: (beBytes 2 name.length ++ (name ++ [])) : Bytes) = 0 :: sized 2 name := by simp [sized]
    rw [hbody] at hn ⊢
    exact ⟨hn, rfl⟩
  · rintro ⟨hn, rfl⟩
    exact ⟨[], _, _, hn, rfl, rfl, 0, _, rfl, rfl, d.length, d, hd, rfl, d, [], rfl, by simp, rfl, rfl, rfl⟩

theorem parseVersions_ok : parseVersions.run data = .ok u ↔
      ∃ vs, TLS_VERSION_1_3 ∈ vs ∧ (encodeU16s vs).length < 2 ^ 8 ∧ data = sized 1 (encodeU16s vs) := by
  simp only [run_eq_ok, parseVersions, then_be, then_ensure, then_bytes, then_ensureEmpty, reads_ensure]
  constructor
  · rintro ⟨-, n, t₁, hn, rfl, hlow, heven, b, t₂, rfl, rfl, rfl, htls, -⟩
    obtain ⟨vs, _, rfl⟩ := (even_bytes_iff b).1 ⟨hlow, heven⟩
    rw [u16s_encodeU16s] at htls
    exact ⟨vs, htls, hn, by simp [sized]⟩
  · rintro ⟨vs, htls, hn, rfl⟩
    obtain ⟨hlow, heven⟩ := (even_bytes_iff _).2 ⟨vs, ne_nil_of_mem htls, rfl⟩
    exact ⟨[], _, _, hn, rfl, hlow, heven, encodeU16s vs, [], rfl, by simp, rfl, by rwa [u16s_encodeU16s], rfl⟩

theorem parseSignatureAlgorithms_ok : parseSignatureAlgorithms.run data = .ok vs ↔
      vs ≠ [] ∧ (encodeU16s vs).length < 2 ^ 16 ∧ data = sized 2 (encodeU16s vs) := by
  simp only [run_eq_ok, parseSignatureAlgorithms, then_be, then_ensure, then_bytes, then_ensureEmpty, reads_pure]
  constructor
  · rintro ⟨-, n, t₁, hn, rfl, hlow, heven, b, t₂, rfl, rfl, rfl, rfl, -⟩
    obtain ⟨vs, hne, rfl⟩ := (even_bytes_iff b).1 ⟨hlow, heven⟩
    rw [u16s_encodeU16s]
    exact ⟨hne, hn, by simp [sized]⟩
  · rintro ⟨hne, hn, rfl⟩
    obtain ⟨hlow, heven⟩ := (even_bytes_iff _).2 ⟨vs, hne, rfl⟩
    exact ⟨[], _, _, hn, rfl, hlow, heven, encodeU16s vs, [], rfl, by simp, rfl, by rw [u16s_encodeU16s], rfl⟩

theorem isValidKeyShare_length {g : UInt16} {x : Bytes} (h : isValidKeyShare g x = true) :
    0 < x.length ∧ x.length ≤ 65 := by
  unfold isValidKeyShare at h
  split_ifs at h with hg
  · rw [beq_iff_eq] at h
    omega
  · simp only [Bool.and_eq_true, beq_iff_eq] at h
    omega

theorem KeyShare.encode_ne_nil (k : KeyShare) : k.encode ≠ [] := by
  intro h
  have hlen := congrArg List.length h
  simp [KeyShare.encode] at hlen

theorem reads_keyShare (acc acc' : List UInt16) (s t : Bytes) : readKeyShare acc s = .ok (acc', t) ↔
      ∃ k : KeyShare, (isValidKeyShare k.group k.exchange = true ∧ ∀ x ∈ acc, x ≠ k.group) ∧
        acc' = acc ++ [k.group] ∧ s = k.encode ++ t := by
  simp only [readKeyShare, then_u16, then_be, then_bytes, then_ensure, reads_pure]
  constructor
  · rintro ⟨g, t₁, rfl, n, t₂, hn, rfl, hpos, x, t₃, rfl, rfl, hval, hnew, rfl, rfl⟩
    refine ⟨⟨g, x⟩, ⟨hval, ?_⟩, rfl, by simp [KeyShare.encode, sized]⟩
    rintro _ hy rfl
    exact hnew hy
  · rintro ⟨⟨g, x⟩, ⟨hval, hnew⟩, rfl, rfl⟩
    have hlen : 0 < x.length ∧ x.length ≤ 65 := isValidKeyShare_length hval
    refine ⟨g, _, ?_, x.length, x ++ t, by omega, rfl, by omega, x, t, rfl, rfl, hval, fun h => hnew g h rfl, rfl, rfl⟩
    simp [KeyShare.encode, sized]

/-- The key share loop reads valid shares of distinct groups that use up its bytes. -/
theorem keyShareLoop_ok : consumeAll readKeyShare s.length [] s = .ok groups ↔
      ∃ ks : List KeyShare, ((∀ k ∈ ks, isValidKeyShare k.group k.exchange = true) ∧ (ks.map KeyShare.group).Nodup) ∧
        groups = ks.map KeyShare.group ∧ s = ks.flatMap KeyShare.encode := by
  rw [consumeAll_ok readKeyShare _ _ _ reads_keyShare (fun _ k _ => k.encode_ne_nil) s.length [] groups s le_rfl]
  simp only [itemsOk_distinct KeyShare.group _ (fun g : UInt16 => g), foldl_collect KeyShare.group, nil_append,
    not_mem_nil, false_implies, implies_true, and_true]

theorem parseKeyShares_ok : parseKeyShares.run data = .ok groups ↔
      ∃ ks : List KeyShare, ks ≠ [] ∧ ((∀ k ∈ ks, isValidKeyShare k.group k.exchange = true) ∧
        (ks.map KeyShare.group).Nodup) ∧ groups = ks.map KeyShare.group ∧
        (ks.flatMap KeyShare.encode).length < 2 ^ 16 ∧ data = sized 2 (ks.flatMap KeyShare.encode) := by
  simp only [run_eq_ok, parseKeyShares, then_be, then_ensure, then_bytes, then_ensureEmpty, reads_fromExcept,
    keyShareLoop_ok]
  constructor
  · rintro ⟨-, n, t₁, hn, rfl, hpos, b, t₂, rfl, rfl, rfl, ⟨ks, hok, rfl, rfl⟩, rfl⟩
    refine ⟨ks, fun hnil => ?_, hok, rfl, hn, by simp [sized]⟩
    subst hnil
    exact hpos rfl
  · rintro ⟨ks, hne, hok, rfl, hn, rfl⟩
    refine ⟨[], _, _, hn, rfl, ?_, ks.flatMap KeyShare.encode, [], rfl, by simp, rfl, ⟨ks, hok, rfl, rfl⟩, rfl⟩
    -- a share is never empty, so neither is a non-empty list of them
    intro hzero
    obtain ⟨k, ks', rfl⟩ := exists_cons_of_ne_nil hne
    rw [flatMap_cons, length_append] at hzero
    exact k.encode_ne_nil (length_eq_zero_iff.1 (by omega))

/-! ## The five messages -/

theorem forbidden_iff : (∀ t ∈ forbiddenClientExtensions, findExtension exts t = none) ↔
      ∀ e ∈ exts, e.type ∉ forbiddenClientExtensions := by
  simp only [findExtension_eq_none]
  exact ⟨fun h e he ht => h _ ht e he rfl, fun h t ht e he hty => h e he (hty ▸ ht)⟩

theorem parseClientHello_ok (c : Uint256) (hd : d.length < 2 ^ 16) (s : Bytes) (st : ClientHelloState) :
    (parseClientHello d c).run s = .ok st ↔ ∃ m : ClientHello, m.WellFormed d c ∧ s = m.encode ∧ st = m.state := by
  simp only [run_eq_ok, parseClientHello, then_u16, then_be, then_ensure, then_bytes, then_extensions]
  constructor
  · rintro ⟨t, v, t₁, rfl, rfl, random, t₂, hrandom, rfl, sidSize, t₃, hsid, rfl, hsid32, sid, t₄, rfl, rfl,
      csSize, t₅, hcs, rfl, hlow, heven, cs, t₆, rfl, rfl, cmpSize, t₇, hcmp, rfl, rfl, cmp, t₈, hcmp1, rfl, rfl, rfl,
      exts, hok, rfl, h⟩
    simp only [then_ensureEmpty, then_requireExtension hok.distinct, then_fromExcept, then_ensure,
      reads_pure, forbidden_iff, parseServerName_ok d _ _ hd, parseVersions_ok, parseSignatureAlgorithms_ok,
      parseKeyShares_ok] at h
    obtain ⟨-, sn, hsn, vers, hvers, sigs, hsigs, ks, hks, -, ⟨-, rfl⟩, hforb, -, ⟨vs, htls, hvs, rfl⟩, algs,
      ⟨hane, -, rfl⟩, groups, ⟨shares, hne, ⟨hval, hnd⟩, rfl, -, rfl⟩, rfl, -⟩ := h
    obtain ⟨suites, hsne, rfl⟩ := (even_bytes_iff cs).1 ⟨hlow, heven⟩
    rw [u16s_encodeU16s]
    refine ⟨⟨c.bytes, sid, suites, exts, vs, algs, shares⟩, ?_, ?_, rfl⟩
    · exact ⟨rfl, not_lt.1 hsid32, hsne, hcs, hok, hsn, hvers, hvs, htls, hsigs, hane, hks, hne, hval, hnd, hforb⟩
    · simp [ClientHello.encode, sized]
  · rintro ⟨m, hm, rfl, rfl⟩
    have hrandom : m.random.length = 32 := by rw [hm.random_eq, Uint256.bytes_length]
    have hsid := hm.session_size
    obtain ⟨hlow, heven⟩ := (even_bytes_iff _).2 ⟨m.cipherSuites, hm.suites_ne, rfl⟩
    refine ⟨[], TLS_VERSION_1_2, _, ?_, rfl, m.random, _, hrandom, rfl, m.sessionId.length, _, by omega, rfl, by omega,
      m.sessionId, _, rfl, rfl, _, _, hm.suites_fit, rfl, hlow, heven, encodeU16s m.cipherSuites, _, rfl, rfl, 1, _,
      by decide, rfl, rfl, [0], _, rfl, rfl, rfl, hm.random_eq, m.extensions, hm.extensions_ok, rfl, ?_⟩
    · simp [ClientHello.encode, sized]
    -- an extension's data fit its length field, so do the lists inside
    have hname := hm.extensions_ok.data_fits _ hm.server_name
    have hsigs := hm.extensions_ok.data_fits _ hm.signature_algorithms
    have hshares := hm.extensions_ok.data_fits _ hm.key_share
    simp only [sized_length] at hname hsigs hshares
    simp only [then_ensureEmpty, then_requireExtension hm.extensions_ok.distinct, then_fromExcept,
      then_ensure, reads_pure, forbidden_iff, parseServerName_ok d _ _ hd, parseVersions_ok,
      parseSignatureAlgorithms_ok, parseKeyShares_ok]
    refine ⟨trivial, _, hm.server_name, _, hm.supported_versions, _, hm.signature_algorithms, _, hm.key_share, (),
      ⟨by omega, rfl⟩, hm.no_forbidden, (), ⟨m.versions, hm.offers_tls13, hm.versions_fit, rfl⟩, m.signatureAlgorithms,
      ⟨hm.signatures_ne, by omega, rfl⟩, _, ⟨m.keyShares, hm.shares_ne, ⟨hm.shares_valid, hm.groups_distinct⟩, rfl,
        by omega, rfl⟩, ?_, trivial⟩
    rw [u16s_encodeU16s]
    rfl

theorem parseServerKeyShare_ok : (parseServerKeyShare client).run data = .ok u ↔
      ∃ k : KeyShare, isValidKeyShare k.group k.exchange = true ∧ k.group ∈ client.keyShareGroups ∧
      data = k.encode := by
  simp only [run_eq_ok, parseServerKeyShare, then_u16, then_be, then_ensure, then_bytes, then_ensureEmpty, reads_ensure]
  constructor
  · rintro ⟨-, g, t₁, rfl, n, t₂, hn, rfl, hpos, x, t₃, rfl, rfl, rfl, hval, hoff, -⟩
    exact ⟨⟨g, x⟩, hval, hoff, by simp [KeyShare.encode, sized]⟩
  · rintro ⟨⟨g, x⟩, hval, hoff, rfl⟩
    have hlen : 0 < x.length ∧ x.length ≤ 65 := isValidKeyShare_length hval
    refine ⟨[], g, sized 2 x, rfl, x.length, x, by omega, rfl, by omega, x, [], rfl, by simp, rfl, hval, hoff, rfl⟩

/-- Two bytes that spell TLS 1.3. -/
theorem version13_iff :
    b.length = 2 ∧ UInt16.ofNat (beNat b) = TLS_VERSION_1_3 ↔ b = beBytes 2 TLS_VERSION_1_3.toNat := by
  constructor
  · rintro ⟨hlen, hv⟩
    have hlt : beNat b < 2 ^ 16 := by
      have h := beNat_lt b
      rwa [hlen] at h
    rw [← hv, UInt16.toNat_ofNat_of_lt' hlt, ← hlen, beBytes_beNat]
  · rintro rfl
    decide

theorem parseServerHello_ok :
    (parseServerHello client).run s = .ok u ↔ ∃ m : ServerHello, m.WellFormed client ∧ s = m.encode := by
  simp only [run_eq_ok, parseServerHello, then_u16, then_be, then_byte, then_ensure, then_bytes, then_extensions]
  constructor
  · rintro ⟨t, v, t₁, rfl, rfl, random, t₂, hrandom, rfl, sidSize, t₃, hsid, rfl, hsid32, sid, t₄, rfl,
      rfl, suite, t₅, rfl, cmp, t₆, rfl, rfl, hretry, hecho, hsha, hoff, exts, hok, rfl, h⟩
    simp only [then_ensureEmpty, then_requireExtension hok.distinct, then_ensure, reads_fromExcept,
      parseServerKeyShare_ok] at h
    obtain ⟨-, htwo, vers, hvers, ks, hks, hvlen, hv13, ⟨k, hval, hgroup, rfl⟩, -⟩ := h
    obtain rfl := (version13_iff vers).1 ⟨hvlen, hv13⟩
    refine ⟨⟨random, sid, suite, exts, k⟩, ?_, ?_⟩
    · exact ⟨hrandom, hretry, not_lt.1 hsid32, hecho, hsha, hoff, hok, htwo, hvers, hks, hval, hgroup⟩
    · simp [ServerHello.encode, sized]
  · rintro ⟨m, hm, rfl⟩
    have hsid := hm.session_size
    refine ⟨[], TLS_VERSION_1_2, _, ?_, rfl, m.random, _, hm.random_size, rfl, m.sessionId.length, _, by omega, rfl,
      by omega, m.sessionId, _, rfl, rfl, m.cipherSuite, _, rfl, 0, _, rfl, rfl, hm.not_retry, hm.session_echo,
      hm.suite_sha256, hm.suite_offered, m.extensions, hm.extensions_ok, rfl, ?_⟩
    · simp [ServerHello.encode, sized]
    simp only [then_ensureEmpty, then_requireExtension hm.extensions_ok.distinct, then_ensure, reads_fromExcept,
      parseServerKeyShare_ok]
    obtain ⟨hvlen, hv13⟩ := (version13_iff _).2 rfl
    exact ⟨trivial, hm.two_extensions, _, hm.supported_versions, _, hm.key_share, hvlen, hv13,
      ⟨m.keyShare, hm.share_valid, hm.group_offered, rfl⟩, trivial⟩

theorem parseEncryptedExtensions_ok :
    parseEncryptedExtensions.run s = .ok u ↔ ∃ exts, EncryptedExtensionsOk exts ∧ s = encodeExtensions exts := by
  simp only [run_eq_ok, parseEncryptedExtensions, then_extensions, then_ensureEmpty, reads_ensure,
    findExtension_eq_none]
  constructor
  · rintro ⟨-, exts, hok, rfl, -, hearly, -⟩
    exact ⟨exts, ⟨hok, hearly⟩, rfl⟩
  · rintro ⟨exts, hexts, rfl⟩
    exact ⟨[], exts, hexts.extensions_ok, rfl, trivial, hexts.no_early_data, rfl⟩

theorem CertificateEntry.encode_ne_nil (e : CertificateEntry) : e.encode ≠ [] := by
  intro h
  have hlen := congrArg List.length h
  simp [CertificateEntry.encode] at hlen

theorem reads_certificateEntry (acc acc' : List Bytes) (s t : Bytes) : readCertificateEntry acc s = .ok (acc', t) ↔
      ∃ e : CertificateEntry, (e.WellFormed ∧ (acc ++ [e.certificate]).length ≤ MAX_P2C_CERTIFICATES) ∧
        acc' = acc ++ [e.certificate] ∧ s = e.encode ++ t := by
  simp only [readCertificateEntry, then_be, then_ensure, then_bytes, reads_pure]
  constructor
  · rintro ⟨n, t₁, hn, rfl, hpos, hmax, cert, t₂, rfl, rfl, m, t₃, hm, rfl, ext, t₄, rfl, rfl, hcount, rfl, rfl⟩
    refine ⟨⟨cert, ext⟩, ⟨⟨?_, not_lt.1 hmax, hm⟩, not_lt.1 hcount⟩, rfl, by simp [CertificateEntry.encode, sized]⟩
    exact fun hnil => hpos (length_eq_zero_iff.2 hnil)
  · rintro ⟨⟨cert, ext⟩, ⟨⟨hne, hmax, hfit⟩, hcount⟩, rfl, rfl⟩
    have hlt : cert.length < 256 ^ 3 := lt_of_le_of_lt hmax (by decide)
    refine ⟨cert.length, _, hlt, ?_, fun h => hne (length_eq_zero_iff.1 h), not_lt.2 hmax, cert, _, rfl,
      rfl, ext.length, _, hfit, rfl, ext, t, rfl, rfl, not_lt.2 hcount, rfl, rfl⟩
    simp [CertificateEntry.encode, sized]

/-- The certificate loop reads at most `MAX_P2C_CERTIFICATES` entries that use up its bytes. -/
theorem certificateLoop_ok : consumeAll readCertificateEntry s.length [] s = .ok chain ↔
      ∃ entries : List CertificateEntry, ((∀ e ∈ entries, e.WellFormed) ∧ entries.length ≤ MAX_P2C_CERTIFICATES) ∧
        chain = entries.map CertificateEntry.certificate ∧ s = entries.flatMap CertificateEntry.encode := by
  rw [consumeAll_ok readCertificateEntry _ _ _ reads_certificateEntry (fun _ e _ => e.encode_ne_nil) s.length
    [] chain s le_rfl]
  simp only [itemsOk_bounded CertificateEntry.certificate _ MAX_P2C_CERTIFICATES [] _ (Nat.zero_le _),
    foldl_collect CertificateEntry.certificate, nil_append, length_nil, Nat.zero_add]

theorem parseCertificate_ok : parseCertificate.run s = .ok chain ↔
      ∃ entries, CertificateOk entries ∧ s = encodeCertificate entries ∧
        chain = entries.map CertificateEntry.certificate := by
  simp only [run_eq_ok, parseCertificate, then_be, then_ensure, then_remaining, then_bytes, then_ensureEmpty,
    reads_fromExcept, certificateLoop_ok]
  constructor
  · rintro ⟨-, n, t₁, hn, rfl, rfl, context, t₂, hctx, rfl, size, t₃, hsize, rfl, hpos, hrest, list, t₄, rfl, rfl, rfl,
      ⟨entries, ⟨hwf, hcount⟩, rfl, rfl⟩, rfl⟩
    obtain rfl : context = [] := length_eq_zero_iff.1 hctx
    refine ⟨entries, ⟨fun hnil => ?_, hcount, hwf, hsize⟩, by simp [encodeCertificate, sized], rfl⟩
    subst hnil
    exact hpos rfl
  · rintro ⟨entries, hok, rfl, rfl⟩
    refine ⟨[], 0, _, by decide, ?_, rfl, [], _, rfl, rfl, _, _, hok.total_fits, rfl, ?_, rfl,
      entries.flatMap CertificateEntry.encode, [], rfl, by simp, rfl, ⟨entries, ⟨hok.entry, hok.count⟩, rfl, rfl⟩, rfl⟩
    · simp [encodeCertificate, sized]
    · intro hzero
      obtain ⟨e, es, rfl⟩ := exists_cons_of_ne_nil hok.ne
      rw [flatMap_cons, length_append] at hzero
      exact e.encode_ne_nil (length_eq_zero_iff.1 (by omega))

theorem parseCertificateVerify_ok (r : UInt16 × Bytes) : (parseCertificateVerify client).run s = .ok r ↔
      ∃ m : CertificateVerify, m.WellFormed client ∧ s = m.encode ∧ r = (m.scheme, m.signature) := by
  obtain ⟨scheme, signature⟩ := r
  simp only [run_eq_ok, parseCertificateVerify, then_u16, then_be, then_ensure, then_bytes,
    then_ensureEmpty, reads_pure, Prod.mk.injEq]
  constructor
  · rintro ⟨-, sch, t₁, rfl, n, t₂, hn, rfl, hpos, sig, t₃, rfl, rfl, rfl, hsup, hoff, ⟨rfl, rfl⟩, -⟩
    refine ⟨⟨scheme, signature⟩, ⟨?_, hn, hsup, hoff⟩, by simp [CertificateVerify.encode, sized], rfl, rfl⟩
    exact fun hnil => hpos (length_eq_zero_iff.2 hnil)
  · rintro ⟨m, hm, rfl, rfl, rfl⟩
    exact ⟨[], m.scheme, _, rfl, m.signature.length, _, hm.signature_fits, rfl,
      fun h => hm.signature_ne (length_eq_zero_iff.1 h), m.signature, [], rfl, by simp, rfl, hm.supported, hm.offered,
      ⟨rfl, rfl⟩, rfl⟩

/-! ## The whole proof -/

theorem then_messages (f : _ → Reader β) (s : Bytes) (r : β × Bytes) :
    (readMessages >>= f) s = .ok r ↔ ∃ ch sh ee cert cv t,
      ((handshake TLS_HANDSHAKE_CLIENT_HELLO ch).length ≤ MAX_CLIENT_HELLO_SIZE ∧
        (handshake TLS_HANDSHAKE_SERVER_HELLO sh).length ≤ MAX_SERVER_HELLO_SIZE ∧
        (handshake TLS_HANDSHAKE_ENCRYPTED_EXTENSIONS ee).length ≤ MAX_ENCRYPTED_EXTENSIONS_SIZE ∧
        (handshake TLS_HANDSHAKE_CERTIFICATE cert).length ≤ MAX_P2C_CERTIFICATE_MESSAGE_SIZE ∧
        (handshake TLS_HANDSHAKE_CERTIFICATE_VERIFY cv).length ≤ MAX_CERTIFICATE_VERIFY_SIZE) ∧
      s = handshake TLS_HANDSHAKE_CLIENT_HELLO ch ++ (handshake TLS_HANDSHAKE_SERVER_HELLO sh ++
        (handshake TLS_HANDSHAKE_ENCRYPTED_EXTENSIONS ee ++ (handshake TLS_HANDSHAKE_CERTIFICATE cert ++
          (handshake TLS_HANDSHAKE_CERTIFICATE_VERIFY cv ++ t)))) ∧
      f ((handshake TLS_HANDSHAKE_CLIENT_HELLO ch, ch), (handshake TLS_HANDSHAKE_SERVER_HELLO sh, sh),
        (handshake TLS_HANDSHAKE_ENCRYPTED_EXTENSIONS ee, ee), (handshake TLS_HANDSHAKE_CERTIFICATE cert, cert),
        (handshake TLS_HANDSHAKE_CERTIFICATE_VERIFY cv, cv)) t = .ok r := by
  have hfit : ∀ (ty : UInt8) (b : Bytes) (max : ℕ), max ≤ 2 ^ 16 → (handshake ty b).length ≤ max →
      b.length < 2 ^ 24 := by
    intro ty b max hmax h
    rw [handshake_length] at h
    omega
  simp only [readMessages, bind_assoc, pure_bind, then_handshake]
  constructor
  · rintro ⟨ch, t₁, -, h₁, rfl, sh, t₂, -, h₂, rfl, ee, t₃, -, h₃, rfl, cert, t₄, -, h₄, rfl, cv, t₅, -, h₅, rfl, h⟩
    exact ⟨ch, sh, ee, cert, cv, t₅, ⟨h₁, h₂, h₃, h₄, h₅⟩, rfl, h⟩
  · rintro ⟨ch, sh, ee, cert, cv, t, ⟨h₁, h₂, h₃, h₄, h₅⟩, rfl, h⟩
    exact ⟨ch, _, hfit _ _ _ (by decide) h₁, h₁, rfl, sh, _, hfit _ _ _ (by decide) h₂, h₂, rfl,
      ee, _, hfit _ _ _ (by decide) h₃, h₃, rfl, cert, _, hfit _ _ _ (by decide) h₄, h₄, rfl,
      cv, t, hfit _ _ _ (by decide) h₅, h₅, rfl, h⟩

/-- The parser succeeds on the encodings of well-formed proofs of bounded size, and returns their view. -/
theorem parseP2CTlsProof_ok [Crypto] (c : Uint256) (v : P2CTlsProofView) :
    parseP2CTlsProof b d c = .ok v ↔ isCanonicalP2CDomain d = true ∧ b.length ≤ MAX_P2C_PROOF_SIZE ∧
      ∃ p : TlsProof, p.WellFormed d c ∧ b = p.encode ∧ v = p.view := by
  have hdom : isCanonicalP2CDomain d = true → d.length < 2 ^ 16 := fun h =>
    lt_of_le_of_lt (isCanonicalP2CDomain_length h) (by decide)
  rw [parseP2CTlsProof, run_eq_ok]
  simp only [then_ensure, then_remaining, then_byte, then_messages, then_ensureEmpty, then_fromExcept,
    parseServerHello_ok, parseEncryptedExtensions_ok, parseCertificate_ok, parseCertificateVerify_ok, reads_pure]
  constructor
  · rintro ⟨-, hd, hsize, ver, t₁, rfl, rfl, ch, sh, ee, cert, cv, t₂, ⟨h₁, h₂, h₃, h₄, h₅⟩, rfl, rfl,
      client, hclient, -, ⟨mSh, hSh, rfl⟩, -, ⟨exts, hEe, rfl⟩, chain, ⟨entries, hCert, rfl, rfl⟩, r,
      ⟨mCv, hCv, rfl, rfl⟩, rfl, -⟩
    obtain ⟨mCh, hCh, rfl, rfl⟩ := (parseClientHello_ok d c (hdom hd) ch client).1 hclient
    have hle := not_or.1 hsize
    refine ⟨hd, not_lt.1 hle.2, ⟨mCh, mSh, exts, entries, mCv⟩, ⟨hCh, h₁, hSh, h₂, hEe, h₃, hCert, h₄, hCv, h₅⟩, ?_,
      rfl⟩
    simp [TlsProof.encode, TlsProof.clientHelloMessage, TlsProof.serverHelloMessage,
      TlsProof.encryptedExtensionsMessage, TlsProof.certificateMessage, TlsProof.certificateVerifyMessage]
  · rintro ⟨hd, hsize, p, hp, rfl, rfl⟩
    refine ⟨[], hd, ?_, P2C_PROOF_VERSION, _, rfl, rfl, p.clientHello.encode, p.serverHello.encode,
      encodeExtensions p.encryptedExtensions, encodeCertificate p.certificate, p.certificateVerify.encode, [],
      ⟨hp.client_hello_size, hp.server_hello_size, hp.encrypted_extensions_size, hp.certificate_size,
        hp.certificate_verify_size⟩, ?_, rfl, p.clientHello.state, ?_, (), ⟨_, hp.server_hello, rfl⟩, (),
      ⟨_, hp.encrypted_extensions, rfl⟩, _, ⟨_, hp.certificate, rfl, rfl⟩, _, ⟨_, hp.certificate_verify, rfl, rfl⟩, rfl,
      rfl⟩
    · intro h
      rcases h with h | h
      · simp [TlsProof.encode] at h
      · omega
    · simp [TlsProof.clientHelloMessage, TlsProof.serverHelloMessage, TlsProof.encryptedExtensionsMessage,
        TlsProof.certificateMessage, TlsProof.certificateVerifyMessage]
    · exact (parseClientHello_ok d c (hdom hd) _ _).2 ⟨_, hp.client_hello, rfl, rfl⟩

/-- Acceptance is membership in the grammar. -/
theorem parse_accepts_iff [Crypto] (b d : Bytes) (c : Uint256) (hd : isCanonicalP2CDomain d = true) :
    (∃ v, parseP2CTlsProof b d c = .ok v) ↔
      b.length ≤ MAX_P2C_PROOF_SIZE ∧ ∃ p : TlsProof, p.WellFormed d c ∧ b = p.encode := by
  simp only [parseP2CTlsProof_ok]
  constructor
  · rintro ⟨v, -, hsize, p, hp, rfl, -⟩
    exact ⟨hsize, p, hp, rfl⟩
  · rintro ⟨hsize, p, hp, rfl⟩
    exact ⟨p.view, hd, hsize, p, hp, rfl, rfl⟩

/-! ## A concrete proof -/

/-- "example.com" -/
def sampleDomain : Bytes := [101, 120, 97, 109, 112, 108, 101, 46, 99, 111, 109]

/-- the extensions of the sample ClientHello -/
def sampleExtensions : List TlsExtension :=
  [⟨TLS_EXTENSION_SERVER_NAME, sized 2 (0 :: sized 2 sampleDomain)⟩,
   ⟨TLS_EXTENSION_SUPPORTED_VERSIONS, sized 1 (encodeU16s [TLS_VERSION_1_3])⟩,
   ⟨TLS_EXTENSION_SIGNATURE_ALGORITHMS, sized 2 (encodeU16s [TLS_ECDSA_SECP256R1_SHA256])⟩,
   ⟨TLS_EXTENSION_KEY_SHARE, sized 2 (KeyShare.encode ⟨TLS_GROUP_X25519, List.replicate 32 1⟩)⟩]

def sampleServerHello : ServerHello where
  random := List.replicate 32 3
  sessionId := []
  cipherSuite := TLS_AES_128_GCM_SHA256
  extensions :=
    [⟨TLS_EXTENSION_SUPPORTED_VERSIONS, beBytes 2 TLS_VERSION_1_3.toNat⟩,
     ⟨TLS_EXTENSION_KEY_SHARE, KeyShare.encode ⟨TLS_GROUP_X25519, List.replicate 32 2⟩⟩]
  keyShare := ⟨TLS_GROUP_X25519, List.replicate 32 2⟩

/-- the shortest shape of a connection: one suite, one share, one one-byte certificate -/
def sampleProof (challenge : Uint256) (signature : Bytes) : TlsProof where
  clientHello :=
    { random := challenge.bytes
      sessionId := []
      cipherSuites := [TLS_AES_128_GCM_SHA256]
      extensions := sampleExtensions
      versions := [TLS_VERSION_1_3]
      signatureAlgorithms := [TLS_ECDSA_SECP256R1_SHA256]
      keyShares := [⟨TLS_GROUP_X25519, List.replicate 32 1⟩] }
  serverHello := sampleServerHello
  encryptedExtensions := []
  certificate := [⟨[0x30], []⟩]
  certificateVerify := ⟨TLS_ECDSA_SECP256R1_SHA256, signature⟩

/-- The sample is a proof for its challenge, with any one-byte signature. -/
theorem sampleProof_wellFormed (b : UInt8) : (sampleProof challenge [b]).WellFormed sampleDomain challenge where
  client_hello :=
    { random_eq := rfl
      session_size := Nat.zero_le 32
      suites_ne := cons_ne_nil _ _
      suites_fit := (by decide : (encodeU16s [TLS_AES_128_GCM_SHA256]).length < 2 ^ 16)
      extensions_ok := (⟨by decide, by decide, by decide⟩ : ExtensionsOk sampleExtensions)
      server_name := mem_cons_self
      supported_versions := mem_cons_of_mem _ mem_cons_self
      versions_fit := (by decide : (encodeU16s [TLS_VERSION_1_3]).length < 2 ^ 8)
      offers_tls13 := mem_cons_self
      signature_algorithms := mem_cons_of_mem _ (mem_cons_of_mem _ mem_cons_self)
      signatures_ne := cons_ne_nil _ _
      key_share := mem_cons_of_mem _ (mem_cons_of_mem _ (mem_cons_of_mem _ mem_cons_self))
      shares_ne := cons_ne_nil _ _
      shares_valid := by simp [sampleProof, isValidKeyShare]
      groups_distinct := nodup_singleton _
      no_forbidden := (by decide : ∀ e ∈ sampleExtensions, e.type ∉ forbiddenClientExtensions) }
  client_hello_size := by
    have hexts : (encodeExtensions sampleExtensions).length = 79 := by decide
    simp [TlsProof.clientHelloMessage, ClientHello.encode, sampleProof, hexts, MAX_CLIENT_HELLO_SIZE]
  server_hello :=
    { random_size := length_replicate
      not_retry := (by decide : List.replicate 32 3 ≠ HELLO_RETRY_REQUEST_RANDOM)
      session_size := Nat.zero_le 32
      session_echo := rfl
      suite_sha256 := Or.inl rfl
      suite_offered := mem_cons_self
      extensions_ok := (⟨by decide, by decide, by decide⟩ : ExtensionsOk sampleServerHello.extensions)
      two_extensions := rfl
      supported_versions := mem_cons_self
      key_share := mem_cons_of_mem _ mem_cons_self
      share_valid := (by decide : isValidKeyShare TLS_GROUP_X25519 (List.replicate 32 2) = true)
      group_offered := mem_cons_self }
  server_hello_size := by
    have hexts : (encodeExtensions sampleServerHello.extensions).length = 48 := by decide
    simp [TlsProof.serverHelloMessage, ServerHello.encode, sampleProof, hexts, MAX_SERVER_HELLO_SIZE]
    simp [sampleServerHello]
  encrypted_extensions := (⟨⟨by decide, by decide, by decide⟩, by decide⟩ : EncryptedExtensionsOk [])
  encrypted_extensions_size := (by decide : (handshake _ (encodeExtensions [])).length ≤ MAX_ENCRYPTED_EXTENSIONS_SIZE)
  certificate :=
    { ne := cons_ne_nil _ _
      count := (by decide : 1 ≤ MAX_P2C_CERTIFICATES)
      entry := fun e he => by
        obtain rfl := mem_singleton.1 he
        exact ⟨cons_ne_nil _ _, (by decide : 1 ≤ MAX_P2C_CERTIFICATE_SIZE), (by decide : 0 < 2 ^ 16)⟩
      total_fits := (by decide : ([⟨[0x30], []⟩].flatMap CertificateEntry.encode).length < 2 ^ 24) }
  certificate_size :=
    (by decide : (handshake _ (encodeCertificate [⟨[0x30], []⟩])).length ≤ MAX_P2C_CERTIFICATE_MESSAGE_SIZE)
  certificate_verify :=
    { signature_ne := cons_ne_nil _ _
      signature_fits := (by decide : 1 < 2 ^ 16)
      supported := (by decide : isSupportedCertificateVerifyScheme TLS_ECDSA_SECP256R1_SHA256 = true)
      offered := mem_cons_self }
  certificate_verify_size := by
    simp [TlsProof.certificateVerifyMessage, CertificateVerify.encode, sampleProof, MAX_CERTIFICATE_VERIFY_SIZE]

theorem sampleProof_size (b : UInt8) : (sampleProof challenge [b]).encode.length ≤ MAX_P2C_PROOF_SIZE := by
  have h := sampleProof_wellFormed challenge b
  have h₁ := h.client_hello_size
  have h₂ := h.server_hello_size
  have h₃ := h.encrypted_extensions_size
  have h₄ : (sampleProof challenge [b]).certificateMessage.length ≤ 14 :=
    (by decide : (handshake _ (encodeCertificate [⟨[0x30], []⟩])).length ≤ 14)
  have h₅ := h.certificate_verify_size
  simp only [MAX_CLIENT_HELLO_SIZE, MAX_SERVER_HELLO_SIZE, MAX_ENCRYPTED_EXTENSIONS_SIZE,
    MAX_CERTIFICATE_VERIFY_SIZE] at h₁ h₂ h₃ h₅
  simp only [TlsProof.encode, length_cons, length_append, MAX_P2C_PROOF_SIZE]
  omega

section
attribute [local instance] toyCrypto

theorem parse_accepts_sample : isCanonicalP2CDomain sampleDomain = true ∧
      ∃ v, parseP2CTlsProof (sampleProof Uint256.null [0x30]).encode sampleDomain Uint256.null = .ok v :=
  have hd : isCanonicalP2CDomain sampleDomain = true := by decide
  ⟨hd, (parse_accepts_iff _ sampleDomain Uint256.null hd).2 ⟨sampleProof_size _ _, _, sampleProof_wellFormed _ _, rfl⟩⟩

end

end ConnectCoin.P2C
