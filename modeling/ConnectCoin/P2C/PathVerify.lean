/-
Root-first verification of a certificate path (`crypto/mbedtls_x509_root_first.c`), and that it equals the eager
reference.

Model: a certificate is an abstract value; parsing, names, usages, profiles and signatures are the predicates of `X509`.
- `climb` is the selection loop: at each level the first root that matches and has signed the child, else the first
  later supplied certificate that matches, whose signature is left for later;
- `verifyDeferred` checks the signatures left over once a root is reached, highest first;
- the chain array is a list, newest certificate first, and every write goes through `writeChain`, which knows the bound;
- an observer sees each signature that is about to be checked, a cache may answer in its place (`SignatureHooks`).
`eagerVerify` is the reference: it checks the signature of an edge when it chooses the edge.

Result: `root_first_equals_eager`. The status is success exactly when the reference accepts, no write leaves the array,
and a signature between two supplied certificates is checked only after the path has reached a root.

Premise: a cache answers only for pairs whose signature is valid (`SignatureMemo.Sound`).
-/
import ConnectCoin.Lib.Triple
import ConnectCoin.Lib.Bytes

namespace ConnectCoin.P2C

open Lib List

variable {Cert σ : Type}

/-! ## What is taken from the library -/

/-- the certificate library's predicates, under the profile the verifier is called with -/
structure X509 (Cert : Type) where
  /-- `x509_crt_check_parent` (child, parent, parent is a root) -/
  checkParent : Cert → Cert → Bool → Bool
  /-- the stored path length constraint plus one, 0 when there is none -/
  maxPathlen : Cert → ℤ
  /-- `x509_crt_check_signature` (child, parent) -/
  checkSignature : Cert → Cert → Bool
  /-- `x509_crt_verify_name` -/
  verifyName : Cert → Bytes → Bool
  /-- `mbedtls_x509_profile_check_pk_alg` on the certificate's own key -/
  checkPkAlg : Cert → Bool
  /-- `x509_profile_check_key` -/
  checkKey : Cert → Bool
  /-- `mbedtls_x509_profile_check_md_alg` on the digest it is signed with -/
  checkSigMd : Cert → Bool
  /-- `mbedtls_x509_profile_check_pk_alg` on the algorithm it is signed with -/
  checkSigPk : Cert → Bool
  /-- `x509_crt_check_ee_locally_trusted` -/
  eeLocallyTrusted : Cert → List Cert → Bool
  /-- issuer and subject are the same name -/
  selfIssued : Cert → Bool
  /-- `MBEDTLS_X509_MAX_INTERMEDIATE_CA` -/
  maxIntermediateCa : ℕ

variable (x : X509 Cert)

/-- `MBEDTLS_X509_MAX_VERIFY_CHAIN_SIZE` -/
def X509.maxVerifyChainSize : ℕ := x.maxIntermediateCa + 2

/-! ## Signatures -/

/-- `connectcoin_mbedtls_x509_signature_cache` -/
structure SignatureMemo (Cert σ : Type) where
  lookup : Cert → Cert → StateM σ Bool
  remember : Cert → Cert → StateM σ Unit

/-- the callbacks; an observer that is not given does nothing -/
structure SignatureHooks (Cert σ : Type) where
  observer : Cert → Cert → StateM σ Unit
  cache : Option (SignatureMemo Cert σ)

/-- no observer, no cache -/
def SignatureHooks.none : SignatureHooks Cert σ := ⟨fun _ _ => pure (), Option.none⟩

/-- a hit is final; otherwise the signature is checked, and remembered if it is good -/
def SignatureMemo.checkSignature (cache : SignatureMemo Cert σ) (child parent : Cert) : StateM σ Bool := do
  let hit ← cache.lookup child parent
  if hit then pure true
  else if x.checkSignature child parent then do
    cache.remember child parent
    pure true
  else pure false

/-- `connectcoin_x509_check_signature` -/
def checkSignature (hooks : SignatureHooks Cert σ) (child parent : Cert) : StateM σ Bool := do
  hooks.observer child parent
  match hooks.cache with
  | none => pure (x.checkSignature child parent)
  | some cache => cache.checkSignature x child parent

/-! ## The verifier -/

def BADCERT_CN_MISMATCH : UInt32 := 0x04
def BADCERT_NOT_TRUSTED : UInt32 := 0x08
def BADCERT_BAD_MD : UInt32 := 0x4000
def BADCERT_BAD_PK : UInt32 := 0x8000
def BADCERT_BAD_KEY : UInt32 := 0x10000

inductive X509Error where
  | BAD_INPUT_DATA
  | CERT_VERIFY_FAILED
  | FATAL_ERROR
  deriving DecidableEq, Repr

/-- the returned code, none for 0, and what the caller reads in *flags -/
structure VerifyResult where
  error : Option X509Error
  flags : UInt32
  deriving DecidableEq, Repr

def VerifyResult.success : VerifyResult := ⟨none, 0⟩
def VerifyResult.failed (flags : UInt32) : VerifyResult := ⟨some .CERT_VERIFY_FAILED, flags⟩
def VerifyResult.fatal : VerifyResult := ⟨some .FATAL_ERROR, -1⟩

/-- the bit if the check fails -/
def flagUnless (ok : Bool) (flag : UInt32) : UInt32 := if ok then 0 else flag

/-- `connectcoin_x509_parent_matches`; self_count never exceeds path_count, so the unsigned difference does not wrap -/
def parentMatches (child parent : Cert) (trusted : Bool) (pathCount selfCount : ℕ) : Bool :=
  x.checkParent child parent trusted &&
    !(decide (0 < x.maxPathlen parent) && decide (x.maxPathlen parent < (1 + pathCount : ℕ) - (selfCount : ℤ)))

/-- chain[length++] = child; none is a write outside the array -/
def writeChain (chain : List Cert) (child : Cert) : Option (List Cert) :=
  if chain.length < x.maxVerifyChainSize then some (child :: chain) else none

/-- the loop over trust_ca -/
def selectRoot (x : X509 Cert) (hooks : SignatureHooks Cert σ) (child : Cert) (pathCount selfCount : ℕ) :
    List Cert → StateM σ (Option Cert)
  | [] => pure none
  | parent :: roots =>
    if parentMatches x child parent true pathCount selfCount then do
      let good ← checkSignature x hooks child parent
      if good then pure (some parent) else selectRoot x hooks child pathCount selfCount roots
    else selectRoot x hooks child pathCount selfCount roots

/-- the loop over child->next; with the parent, what is supplied after it -/
def selectSupplied (x : X509 Cert) (child : Cert) (pathCount selfCount : ℕ) : List Cert → Option (Cert × List Cert)
  | [] => none
  | parent :: rest =>
    if parentMatches x child parent false pathCount selfCount then some (parent, rest)
    else selectSupplied x child pathCount selfCount rest

theorem selectSupplied_suffix {x : X509 Cert} {child : Cert} {pathCount selfCount : ℕ}
    {rest rest' : List Cert} {parent : Cert}
    (h : selectSupplied x child pathCount selfCount rest = some (parent, rest')) : parent :: rest' <:+ rest := by
  induction rest with
  | nil => cases h
  | cons p rest ih =>
    unfold selectSupplied at h
    split_ifs at h
    · cases h
      exact suffix_rfl
    · exact (ih h).trans (suffix_cons p rest)

/-- how the selection loop ends -/
inductive Climb (Cert : Type) where
  | returned (result : VerifyResult)
  | anchored (chain : List Cert)
  | overrun

/-- the iteration that enters a trusted certificate: it is written and the loop is left -/
def enterRoot (chain : List Cert) (root : Cert) : Climb Cert :=
  if chain.length ≥ x.maxVerifyChainSize then .returned .fatal
  else
    match writeChain x chain root with
    | none => .overrun
    | some chain => .anchored chain

/-- the selection loop, entered with a supplied certificate and those supplied after it -/
def climb (x : X509 Cert) (hooks : SignatureHooks Cert σ) (trustCa : List Cert) (child : Cert) (rest chain : List Cert)
    (selfCount : ℕ) : StateM σ (Climb Cert) :=
  if chain.length ≥ x.maxVerifyChainSize then pure (.returned .fatal)
  else
    match writeChain x chain child with
    | none => pure .overrun
    | some chain =>
      let length := chain.length
      let flags := flagUnless (x.checkSigMd child) BADCERT_BAD_MD ||| flagUnless (x.checkSigPk child) BADCERT_BAD_PK
      if flags ≠ 0 then pure (.returned (.failed flags))
      else if length = 1 ∧ x.eeLocallyTrusted child trustCa then pure (.returned .success)
      else do
        match ← selectRoot x hooks child (length - 1) selfCount trustCa with
        | some root =>
          if x.checkKey root then pure (enterRoot x chain root)
          else pure (.returned (.failed BADCERT_BAD_KEY))
        | none =>
          match hparent : selectSupplied x child (length - 1) selfCount rest with
          | none => pure (.returned (.failed BADCERT_NOT_TRUSTED))
          | some (parent, rest') =>
            -- counted after the selection, so not in the selection's own path length test
            let selfCount := if length ≠ 1 ∧ x.selfIssued child then selfCount + 1 else selfCount
            if length > x.maxIntermediateCa then pure (.returned .fatal)
            else if x.checkKey parent then climb x hooks trustCa parent rest' chain selfCount
            else pure (.returned (.failed BADCERT_BAD_KEY))
termination_by rest.length
decreasing_by exact (selectSupplied_suffix hparent).length_le

/-- the signatures left over, from the top of the path down to the leaf -/
def verifyDeferred (x : X509 Cert) (hooks : SignatureHooks Cert σ) : List Cert → StateM σ Bool
  | parent :: child :: chain => do
    let good ← checkSignature x hooks child parent
    if good then verifyDeferred x hooks (child :: chain) else pure false
  | _ => pure true

/-- after the loop; the edge to the root itself was checked when the root was chosen -/
def finishClimb (hooks : SignatureHooks Cert σ) : Climb Cert → StateM σ (Option VerifyResult)
  | .returned result => pure (some result)
  | .overrun => pure none
  | .anchored chain => do
    let good ← verifyDeferred x hooks chain.tail
    pure (some (if good then .success else .failed BADCERT_NOT_TRUSTED))

/-- the end-entity checks made before the loop -/
def leafFlags (crt : Cert) (cn : Option Bytes) : UInt32 :=
  flagUnless (cn.all (x.verifyName crt)) BADCERT_CN_MISMATCH ||| flagUnless (x.checkPkAlg crt) BADCERT_BAD_PK |||
    flagUnless (x.checkKey crt) BADCERT_BAD_KEY

/-- `connectcoin_mbedtls_x509_crt_verify_root_first_cached`; no certificate at all is the null pointer -/
def verifyRootFirstCached (hooks : SignatureHooks Cert σ) (crt trustCa : List Cert)
    (cn : Option Bytes) : StateM σ (Option VerifyResult) :=
  match crt with
  | [] => pure (some ⟨some .BAD_INPUT_DATA, -1⟩)
  | leaf :: rest =>
    let flags := leafFlags x leaf cn
    if flags ≠ 0 then pure (some (.failed flags))
    else do
      let reached ← climb x hooks trustCa leaf rest [] 0
      finishClimb x hooks reached

/-! ## The eager reference

`below` is the path under the child, newest certificate first, so its last element is the leaf. -/

/-- intermediates counted for the parent of a child: the child unless it is the leaf, and those below it that are not
self-issued -/
def countedIntermediates : List Cert → ℕ
  | [] => 0
  | below => 1 + below.dropLast.countP fun c => !x.selfIssued c

/-- issuer, usage and path length -/
def suitsAsParent (below : List Cert) (child parent : Cert) (trusted : Bool) : Bool :=
  x.checkParent child parent trusted &&
    (decide (x.maxPathlen parent ≤ 0) || decide (1 + (countedIntermediates x below : ℤ) ≤ x.maxPathlen parent))

/-- the path above a child: a root that has signed it, else the first supplied certificate that suits, checked at
once -/
def eagerFrom (x : X509 Cert) (roots below : List Cert) (child : Cert) (rest : List Cert) : Bool :=
  (x.checkSigMd child && x.checkSigPk child) && ((below.isEmpty && x.eeLocallyTrusted child roots) ||
      match roots.find? fun root => suitsAsParent x below child root true && x.checkSignature child root with
      | some root => x.checkKey root
      | none =>
        match _h : rest.dropWhile fun parent => !suitsAsParent x below child parent false with
        | [] => false
        | parent :: rest' =>
          x.checkSignature child parent && decide (below.length + 1 ≤ x.maxIntermediateCa) && x.checkKey parent &&
            eagerFrom x roots (child :: below) parent rest')
termination_by rest.length
decreasing_by
  have hlength := (dropWhile_sublist (fun parent => !suitsAsParent x below child parent false) (l := rest)).length_le
  rw [_h] at hlength
  exact hlength

/-- the eager algorithm on a supplied chain, leaf first -/
def eagerVerify (supplied roots : List Cert) (cn : Option Bytes) : Bool :=
  match supplied with
  | [] => false
  | leaf :: rest => cn.all (x.verifyName leaf) && x.checkPkAlg leaf && x.checkKey leaf && eagerFrom x roots [] leaf rest

/-! ## The selection loops and the reference -/

/-- the counter that the loop carries -/
def selfBelow (below : List Cert) : ℕ := below.dropLast.countP x.selfIssued

variable {memo : SignatureMemo Cert σ} {pool path : List Cert} {D : σ → Prop} (x : X509 Cert) (below : List Cert)
  (child : Cert) (rest : List Cert)

theorem selfBelow_cons (below : List Cert) :
    selfBelow x (child :: below) = if (child :: below).length ≠ 1 ∧ x.selfIssued child then selfBelow x below + 1 else
      selfBelow x below := by
  cases below with
  | nil => simp [selfBelow]
  | cons c below => simp [selfBelow, dropLast_cons_of_ne_nil, countP_cons]; split_ifs <;> simp

theorem counted_add_selfBelow : countedIntermediates x below + selfBelow x below = below.length := by
  cases below with
  | nil => rfl
  | cons c below =>
    have hsplit := length_eq_countP_add_countP x.selfIssued (l := (c :: below).dropLast)
    have hlength : (c :: below).dropLast.length + 1 = (c :: below).length := by simp
    simp only [Bool.not_eq_true, Bool.decide_eq_false] at hsplit
    simp only [countedIntermediates, selfBelow]
    omega

theorem parentMatches_eq (parent : Cert) (trusted : Bool) :
    parentMatches x child parent trusted below.length (selfBelow x below) =
      suitsAsParent x below child parent trusted := by
  have hcount := counted_add_selfBelow x below
  unfold parentMatches suitsAsParent
  congr 1
  rw [Bool.eq_iff_iff]
  simp
  omega

theorem selectSupplied_eq : selectSupplied x child below.length (selfBelow x below) rest =
      match rest.dropWhile fun parent => !suitsAsParent x below child parent false with
      | [] => none
      | parent :: rest' => some (parent, rest') := by
  induction rest with
  | nil => rfl
  | cons p rest ih =>
    rw [selectSupplied, parentMatches_eq]
    cases hsuits : suitsAsParent x below child p false with
    | true => simp [hsuits]
    | false => simp [hsuits, ih]

/-! ## One run of the verifier

J holds of the state while the path is open. Once the root has been accepted for the top of the path, A top root
holds. -/

/-- what the callbacks must do around a signature check by a root -/
structure RootChecks (x : X509 Cert) (hooks : SignatureHooks Cert σ) (roots : List Cert) (J : σ → Prop)
    (A : Cert → Cert → σ → Prop) : Prop where
  check : ∀ child, ∀ root ∈ roots, Triple J (checkSignature x hooks child root) fun good s =>
    good = x.checkSignature child root ∧ J s ∧ (good = true → A child root s)

variable {x : X509 Cert} {hooks : SignatureHooks Cert σ} {roots : List Cert} {J : σ → Prop} {A : Cert → Cert → σ → Prop}

/-- The first root that suits and has signed the child is taken. -/
theorem selectRoot_triple (h : RootChecks x hooks roots J A) (below : List Cert) (child : Cert) {candidates : List Cert}
    (hsub : candidates ⊆ roots) :
    Triple J (selectRoot x hooks child below.length (selfBelow x below) candidates) fun found s =>
      found = (candidates.find? fun root => suitsAsParent x below child root true && x.checkSignature child root) ∧
        J s ∧ ∀ root, found = some root → A child root s := by
  induction candidates with
  | nil =>
    apply Triple.pure
    intro s hs
    exact ⟨rfl, hs, by simp⟩
  | cons root candidates ih =>
    obtain ⟨hroot, hsub⟩ := cons_subset.1 hsub
    rw [selectRoot, parentMatches_eq]
    cases hsuits : suitsAsParent x below child root true with
    | false => simpa [hsuits] using ih hsub
    | true =>
      rw [if_pos rfl]
      refine Triple.bind (h.check child root hroot) fun good => Triple.of_fact ?_
      rintro rfl
      cases hsig : x.checkSignature child root with
      | false => simpa [hsuits, hsig] using ih hsub
      | true =>
        apply Triple.pure
        intro s hs
        refine ⟨by simp [hsuits, hsig], hs.1, ?_⟩
        intro r hr
        cases hr
        exact hs.2 rfl

/-- every edge of a path, given from its top, carries a valid signature -/
def edgesSigned (x : X509 Cert) : List Cert → Bool
  | parent :: child :: below => x.checkSignature child parent && edgesSigned x (child :: below)
  | _ => true

/-- What the loop leaves, for a path that is to be accepted iff `verdict`; `pool` holds the supplied certificates. -/
def ClimbPost (x : X509 Cert) (roots pool : List Cert) (J : σ → Prop) (A : Cert → Cert → σ → Prop)
    (verdict : Bool) (s : σ) : Climb Cert → Prop
  | .overrun => False
  | .returned result => (result.error = none → result.flags = 0) ∧ (result.error = none ↔ verdict = true) ∧ J s
  | .anchored chain => ∃ root top below, chain = root :: top :: below ∧ root ∈ roots ∧
      x.checkSignature top root = true ∧ top :: below ⊆ pool ∧ A top root s ∧ edgesSigned x (top :: below) = verdict

theorem flags_eq_zero {a b : Bool} :
    flagUnless a BADCERT_BAD_MD ||| flagUnless b BADCERT_BAD_PK = 0 ↔ (a && b) = true := by
  cases a <;> cases b <;> decide

theorem leafFlags_eq_zero (crt : Cert) (cn : Option Bytes) :
    leafFlags x crt cn = 0 ↔ (cn.all (x.verifyName crt) && x.checkPkAlg crt && x.checkKey crt) = true := by
  unfold leafFlags
  cases cn.all (x.verifyName crt) <;> cases x.checkPkAlg crt <;> cases x.checkKey crt <;> decide

theorem enterRoot_eq {chain : List Cert} (root : Cert) (h : chain.length ≤ x.maxIntermediateCa + 1) :
    enterRoot x chain root = .anchored (root :: chain) := by
  have hlt : chain.length < x.maxVerifyChainSize := by simp only [X509.maxVerifyChainSize]; omega
  rw [enterRoot, if_neg (by omega), writeChain, if_pos hlt]

/-- The reference once the child has passed its profile and is not a trusted leaf. -/
theorem eagerFrom_open {below : List Cert} {child : Cert} (hprofile : (x.checkSigMd child && x.checkSigPk child) = true)
    (hopen : (below.isEmpty && x.eeLocallyTrusted child roots) = false) :
    eagerFrom x roots below child rest =
      match roots.find? fun root => suitsAsParent x below child root true && x.checkSignature child root with
      | some root => x.checkKey root
      | none =>
        match selectSupplied x child below.length (selfBelow x below) rest with
        | none => false
        | some (parent, rest') =>
          x.checkSignature child parent && decide (below.length + 1 ≤ x.maxIntermediateCa) && x.checkKey parent &&
            eagerFrom x roots (child :: below) parent rest' := by
  rw [eagerFrom, hprofile, hopen, Bool.true_and, Bool.false_or, selectSupplied_eq]
  cases roots.find? fun root => suitsAsParent x below child root true && x.checkSignature child root with
  | some root => rfl
  | none =>
    dsimp only
    split
    · next hrest => rw [hrest]
    · next parent rest' hrest => rw [hrest]

/-- The loop decides as the reference does, up to the edges it has left open. -/
theorem climb_triple (h : RootChecks x hooks roots J A) (pool : List Cert) (child : Cert) (rest below : List Cert)
    (hlength : below.length ≤ x.maxIntermediateCa) (hpool : child :: (rest ++ below) ⊆ pool) :
    Triple J (climb x hooks roots child rest below (selfBelow x below)) fun reached s =>
      ClimbPost x roots pool J A (edgesSigned x (child :: below) && eagerFrom x roots below child rest) s reached := by
  have hlt : below.length < x.maxVerifyChainSize := by simp only [X509.maxVerifyChainSize]; omega
  rw [climb, if_neg (by omega), writeChain, if_pos hlt]
  dsimp only
  by_cases hflags : flagUnless (x.checkSigMd child) BADCERT_BAD_MD |||
    flagUnless (x.checkSigPk child) BADCERT_BAD_PK = 0
  swap
  · rw [if_pos hflags]
    rw [flags_eq_zero, Bool.not_eq_true] at hflags
    apply Triple.pure
    intro s hs
    refine ⟨by simp [VerifyResult.failed], ?_, hs⟩
    rw [eagerFrom, hflags]
    simp [VerifyResult.failed]
  rw [if_neg (not_not.2 hflags)]
  rw [flags_eq_zero] at hflags
  by_cases htrusted : (child :: below).length = 1 ∧ x.eeLocallyTrusted child roots = true
  · rw [if_pos htrusted]
    obtain ⟨hone, htrusted⟩ := htrusted
    obtain rfl : below = [] := by simpa using hone
    apply Triple.pure
    intro s hs
    refine ⟨by simp [VerifyResult.success], ?_, hs⟩
    rw [eagerFrom, hflags, htrusted]
    simp [VerifyResult.success, edgesSigned]
  rw [if_neg htrusted]
  have hopen : (below.isEmpty && x.eeLocallyTrusted child roots) = false := by
    rw [← Bool.not_eq_true, Bool.and_eq_true, List.isEmpty_iff]
    intro hboth
    exact htrusted ⟨by rw [hboth.1]; rfl, hboth.2⟩
  have heager := eagerFrom_open rest hflags hopen
  refine Triple.bind (selectRoot_triple h below child (List.Subset.refl roots)) fun found => Triple.of_fact ?_
  intro hfound
  rw [← hfound] at heager
  cases found with
  | some root =>
    have hroot := find?_some hfound.symm
    simp only [Bool.and_eq_true] at hroot
    dsimp only at heager ⊢
    rw [heager]
    cases hkey : x.checkKey root with
    | false =>
      apply Triple.pure
      intro s hs
      exact ⟨by simp [VerifyResult.failed], by simp [VerifyResult.failed], hs.1⟩
    | true =>
      rw [if_pos rfl, enterRoot_eq root (show (child :: below).length ≤ _ by simpa using hlength)]
      apply Triple.pure
      intro s hs
      have hpath : child :: below ⊆ pool := fun c hc => hpool (by simp at hc ⊢; tauto)
      exact ⟨root, child, below, rfl, mem_of_find?_eq_some hfound.symm, hroot.2, hpath, hs.2 root rfl, by simp⟩
  | none =>
    dsimp only at heager ⊢
    split
    · next hnone =>
      have hnone : selectSupplied x child below.length (selfBelow x below) rest = none := hnone
      rw [hnone] at heager
      apply Triple.pure
      intro s hs
      refine ⟨by simp [VerifyResult.failed], ?_, hs.1⟩
      simp [VerifyResult.failed, heager]
    · next parent rest' hparent =>
      have hparent : selectSupplied x child below.length (selfBelow x below) rest = some (parent, rest') := hparent
      rw [hparent] at heager
      dsimp only at heager
      by_cases hlong : (child :: below).length > x.maxIntermediateCa
      · rw [if_pos hlong]
        rw [decide_eq_false (by simpa using hlong)] at heager
        apply Triple.pure
        intro s hs
        refine ⟨by simp [VerifyResult.fatal], ?_, hs.1⟩
        simp [VerifyResult.fatal, heager]
      rw [if_neg hlong]
      cases hkey : x.checkKey parent with
      | false =>
        apply Triple.pure
        intro s hs
        refine ⟨by simp [VerifyResult.failed], ?_, hs.1⟩
        simp [VerifyResult.failed, heager, hkey]
      | true =>
        rw [if_pos rfl, ← selfBelow_cons]
        have hsuffix := (selectSupplied_suffix hparent).subset
        have hpool' : parent :: (rest' ++ child :: below) ⊆ pool := by
          intro c hc
          apply hpool
          have hrest : c ∈ parent :: rest' → c ∈ rest := fun hc => hsuffix hc
          simp only [mem_cons, mem_append] at hc hrest ⊢
          tauto
        have hshort : (child :: below).length ≤ x.maxIntermediateCa := Nat.le_of_not_lt hlong
        have hclimb := climb_triple h pool parent rest' (child :: below) hshort hpool'
        have hverdict : (edgesSigned x (parent :: child :: below) && eagerFrom x roots (child :: below) parent rest') =
            (edgesSigned x (child :: below) && eagerFrom x roots below child rest) := by
          rw [heager, hkey, decide_eq_true (show below.length + 1 ≤ _ from hshort), edgesSigned]
          cases x.checkSignature child parent <;> simp
        rw [hverdict] at hclimb
        exact hclimb.pre fun s hs => hs.1
termination_by rest.length
decreasing_by exact (selectSupplied_suffix hparent).length_le

/-- what the callbacks must do around the signature checks that were left over -/
structure PathChecks (x : X509 Cert) (hooks : SignatureHooks Cert σ) (pool : List Cert) (D : σ → Prop) : Prop where
  check : ∀ child ∈ pool, ∀ parent ∈ pool,
    Answers D (checkSignature x hooks child parent) (x.checkSignature child parent)

theorem verifyDeferred_answers (h : PathChecks x hooks pool D) (hpath : path ⊆ pool) :
    Answers D (verifyDeferred x hooks path) (edgesSigned x path) := by
  induction path with
  | nil => exact Answers.pure
  | cons parent path ih =>
    cases path with
    | nil => exact Answers.pure
    | cons child below =>
      obtain ⟨hparent, hbelow⟩ := cons_subset.1 hpath
      rw [verifyDeferred, edgesSigned]
      apply Answers.bind (h.check child (hbelow mem_cons_self) parent hparent)
      cases x.checkSignature child parent with
      | false => exact Answers.pure
      | true => exact ih hbelow

/-- Once anchored, the result is that of the edges left over. -/
theorem finishClimb_anchored (h : PathChecks x hooks pool D) (root : Cert) (hpath : path ⊆ pool) :
    Answers D (finishClimb x hooks (.anchored (root :: path)))
      (some (if edgesSigned x path then .success else .failed BADCERT_NOT_TRUSTED)) :=
  Answers.bind (verifyDeferred_answers h hpath) Answers.pure

/-- The whole verifier: while the path is open J, afterwards D for the edges that were left. -/
theorem verifyRootFirstCached_triple {supplied : List Cert} (cn : Option Bytes) {D : Cert → Cert → σ → Prop}
    (h : RootChecks x hooks roots J A) (hD : ∀ top root, root ∈ roots → x.checkSignature top root = true →
      PathChecks x hooks supplied (D top root)) (hA : ∀ top root s, A top root s → D top root s) :
    Triple J (verifyRootFirstCached x hooks supplied roots cn) fun answer s => ∃ result, answer = some result ∧
      (result.error = none → result.flags = 0) ∧ (result.error = none ↔ eagerVerify x supplied roots cn = true) ∧
      (J s ∨ ∃ top root, root ∈ roots ∧ x.checkSignature top root = true ∧ D top root s) := by
  cases supplied with
  | nil =>
    apply Triple.pure
    intro s hs
    exact ⟨_, rfl, by simp, by simp [eagerVerify], Or.inl hs⟩
  | cons leaf rest =>
    rw [verifyRootFirstCached]
    by_cases hflags : leafFlags x leaf cn = 0
    swap
    · rw [if_pos hflags]
      rw [leafFlags_eq_zero, Bool.not_eq_true] at hflags
      apply Triple.pure
      intro s hs
      refine ⟨_, rfl, by simp [VerifyResult.failed], ?_, Or.inl hs⟩
      rw [eagerVerify, hflags]
      simp [VerifyResult.failed]
    rw [if_neg (not_not.2 hflags)]
    rw [leafFlags_eq_zero] at hflags
    have hclimb := climb_triple h (leaf :: rest) leaf rest [] (Nat.zero_le _) (by simp)
    rw [show edgesSigned x [leaf] = true from rfl, Bool.true_and] at hclimb
    rw [eagerVerify, hflags, Bool.true_and]
    refine Triple.bind hclimb fun reached => ?_
    cases reached with
    | overrun => exact fun s hs => hs.elim
    | returned result =>
      apply Triple.pure
      intro s hs
      exact ⟨result, rfl, hs.1, hs.2.1, Or.inl hs.2.2⟩
    | anchored chain =>
      intro s hs
      obtain ⟨root, top, below, rfl, hroot, hsigned, hpath, hs, hverdict⟩ := hs
      obtain ⟨hanswer, hs⟩ := finishClimb_anchored (hD top root hroot hsigned) root hpath s (hA top root s hs)
      rw [hverdict] at hanswer
      refine ⟨_, hanswer, ?_, ?_, Or.inr ⟨top, root, hroot, hsigned, hs⟩⟩
      · cases eagerFrom x roots [] leaf rest <;> simp [VerifyResult.success, VerifyResult.failed]
      · cases eagerFrom x roots [] leaf rest <;> simp [VerifyResult.success, VerifyResult.failed]

/-! ## A cache that answers only for valid pairs -/

/-- a hit is a valid signature, and remembering a valid one keeps this so -/
structure SignatureMemo.Sound (x : X509 Cert) (memo : SignatureMemo Cert σ) (I : σ → Prop) : Prop where
  lookup : ∀ child parent, Triple I (memo.lookup child parent) fun hit s =>
    (hit = true → x.checkSignature child parent = true) ∧ I s
  remember : ∀ child parent, x.checkSignature child parent = true → Triple I (memo.remember child parent) fun _ s => I s

variable {I : σ → Prop} {cache : Option (SignatureMemo Cert σ)}

theorem SignatureMemo.Sound.checkSignature (h : memo.Sound x I) (child parent : Cert) :
    Answers I (memo.checkSignature x child parent) (x.checkSignature child parent) := by
  refine Triple.bind (h.lookup child parent) fun hit => Triple.of_fact ?_
  intro hhit
  cases hit with
  | true =>
    rw [hhit rfl]
    exact Answers.pure
  | false =>
    rw [if_neg Bool.false_ne_true]
    cases hvalid : x.checkSignature child parent with
    | false => exact Answers.pure
    | true =>
      refine Triple.bind (h.remember child parent hvalid) fun _ => ?_
      exact Answers.pure

/-! ## The order of the signature checks -/

/-- the cache as a part of a larger state -/
def SignatureMemo.onFirst {τ : Type} (memo : SignatureMemo Cert σ) : SignatureMemo Cert (σ × τ) where
  lookup child parent := Lib.onFirst (memo.lookup child parent)
  remember child parent := Lib.onFirst (memo.remember child parent)

theorem SignatureMemo.Sound.onFirst {τ : Type} (h : memo.Sound x I) (F : τ → Prop) :
    SignatureMemo.Sound x (memo.onFirst (τ := τ)) fun s => I s.1 ∧ F s.2 := by
  refine ⟨?_, ?_⟩
  · intro child parent
    refine ((h.lookup child parent).onFirst F).post ?_
    intro hit s hs
    exact ⟨hs.1.1, hs.1.2, hs.2⟩
  · intro child parent hvalid
    exact (h.remember child parent hvalid).onFirst F

/-- an observer that writes down each check, beside the caller's own cache -/
def recording (cache : Option (SignatureMemo Cert σ)) : SignatureHooks Cert (σ × List (Cert × Cert)) where
  observer child parent := modify fun s => (s.1, s.2 ++ [(child, parent)])
  cache := cache.map SignatureMemo.onFirst

theorem recording_checkSignature (h : ∀ memo ∈ cache, memo.Sound x I) (child parent : Cert) (log : List (Cert × Cert)) :
    Triple (fun s => I s.1 ∧ s.2 = log) (checkSignature x (recording cache) child parent) fun good s =>
      good = x.checkSignature child parent ∧ I s.1 ∧ s.2 = log ++ [(child, parent)] := by
  have hobserve : Triple (fun s => I s.1 ∧ s.2 = log) ((recording cache).observer child parent) fun _ s =>
      I s.1 ∧ s.2 = log ++ [(child, parent)] := by
    apply Triple.modify
    intro s hs
    exact ⟨hs.1, by rw [hs.2]⟩
  refine Triple.bind hobserve fun _ => ?_
  cases cache with
  | none => exact Answers.pure
  | some memo => exact ((h memo rfl).onFirst fun l => l = log ++ [(child, parent)]).checkSignature child parent

/-- the checks made while the path is open are by roots -/
def OpenLog (roots : List Cert) (I : σ → Prop) (s : σ × List (Cert × Cert)) : Prop := I s.1 ∧ ∀ e ∈ s.2, e.2 ∈ roots

/-- and the last of them has anchored the path -/
def AnchoredLog (roots : List Cert) (I : σ → Prop) (top root : Cert) (s : σ × List (Cert × Cert)) : Prop :=
  OpenLog roots I s ∧ s.2.getLast? = some (top, root)

/-- only then the edges between supplied certificates follow -/
def DeferredLog (roots supplied : List Cert) (I : σ → Prop) (top root : Cert) (s : σ × List (Cert × Cert)) : Prop :=
  ∃ attempts deferred, AnchoredLog roots I top root (s.1, attempts) ∧ s.2 = attempts ++ deferred ∧
    ∀ e ∈ deferred, e.1 ∈ supplied ∧ e.2 ∈ supplied

theorem recording_rootChecks (h : ∀ memo ∈ cache, memo.Sound x I)
    (roots : List Cert) : RootChecks x (recording cache) roots (OpenLog roots I) (AnchoredLog roots I) := by
  refine ⟨?_⟩
  intro child root hroot s hs
  obtain ⟨hI, hlog⟩ := hs
  obtain ⟨hgood, hI, hlog'⟩ := recording_checkSignature h child root s.2 s ⟨hI, rfl⟩
  have hopen : OpenLog roots I ((checkSignature x (recording cache) child root).run s).2 := by
    refine ⟨hI, ?_⟩
    rw [hlog']
    intro e he
    rcases mem_append.1 he with he | he
    · exact hlog e he
    · rw [mem_singleton.1 he]
      exact hroot
  refine ⟨hgood, hopen, ?_⟩
  intro _
  exact ⟨hopen, by rw [hlog']; simp⟩

theorem recording_pathChecks (h : ∀ memo ∈ cache, memo.Sound x I) (roots supplied : List Cert) (top root : Cert) :
    PathChecks x (recording cache) supplied (DeferredLog roots supplied I top root) := by
  refine ⟨?_⟩
  intro child hchild parent hparent s hs
  obtain ⟨attempts, deferred, hanchored, hlog, hdeferred⟩ := hs
  obtain ⟨hgood, hI, hlog'⟩ := recording_checkSignature h child parent s.2 s ⟨hanchored.1.1, rfl⟩
  refine ⟨hgood, attempts, deferred ++ [(child, parent)], ⟨⟨hI, hanchored.1.2⟩, hanchored.2⟩, ?_, ?_⟩
  · rw [hlog', hlog, append_assoc]
  · intro e he
    rcases mem_append.1 he with he | he
    · exact hdeferred e he
    · rw [mem_singleton.1 he]
      exact ⟨hchild, hparent⟩

/-- **Root-first equals eager.** On every supplied chain and root list, with any sound cache or none, the verifier
returns without writing outside its array, succeeds (with no flag set) exactly when the eager reference accepts, and its
signature checks are first by roots only; edges between supplied certificates follow only after a root has signed the
top of the path. -/
theorem root_first_equals_eager (x : X509 Cert) (cache : Option (SignatureMemo Cert σ)) (I : σ → Prop)
    (hsound : ∀ memo ∈ cache, memo.Sound x I) (supplied roots : List Cert) (cn : Option Bytes) (s : σ) (hs : I s) :
    ∃ result s' attempts deferred, (verifyRootFirstCached x (recording cache) supplied roots cn).run (s, []) =
        (some result, s', attempts ++ deferred) ∧
      (result.error = none ↔ eagerVerify x supplied roots cn = true) ∧ (result.error = none → result.flags = 0) ∧
      (∀ e ∈ attempts, e.2 ∈ roots) ∧ (∀ e ∈ deferred, e.1 ∈ supplied ∧ e.2 ∈ supplied) ∧
      (deferred ≠ [] → ∃ top root, attempts.getLast? = some (top, root) ∧ root ∈ roots ∧
      x.checkSignature top root = true) := by
  have hrun := verifyRootFirstCached_triple cn (recording_rootChecks hsound roots)
    (fun top root _ _ => recording_pathChecks hsound roots supplied top root)
    (fun top root s hs => ⟨s.2, [], hs, by simp, by simp⟩) (s, []) ⟨hs, by simp⟩
  obtain ⟨result, hanswer, hflags, hverdict, hstate⟩ := hrun
  rcases hstate with hopen | ⟨top, root, hroot, hsigned, attempts, deferred, hanchored, hlog, hdeferred⟩
  · exact ⟨result, _, _, [], Prod.ext hanswer (Prod.ext rfl (append_nil _).symm), hverdict, hflags, hopen.2,
      by simp, by simp⟩
  · exact ⟨result, _, attempts, deferred, Prod.ext hanswer (Prod.ext rfl hlog), hverdict, hflags,
      hanchored.1.2, hdeferred, fun _ => ⟨top, root, hanchored.2, hroot, hsigned⟩⟩

/-- each certificate has one issuer -/
def issuedBy {Cert : Type} [DecidableEq Cert] (issuer : Cert → Cert) : X509 Cert where
  checkParent child parent _ := parent == issuer child
  maxPathlen _ := 0
  checkSignature child parent := parent == issuer child
  verifyName _ _ := true
  checkPkAlg _ := true
  checkKey _ := true
  checkSigMd _ := true
  checkSigPk _ := true
  eeLocallyTrusted _ _ := false
  selfIssued _ := false
  maxIntermediateCa := 8

/-- certificate n is signed by certificate n + 1 -/
def ladder : X509 ℕ := issuedBy (· + 1)

theorem ladder_root_first : eagerVerify ladder [0, 7, 1] [3, 2] none = true ∧ ∃ result s' attempts deferred,
    (verifyRootFirstCached ladder (recording none) [0, 7, 1] [3, 2] none).run ((), []) =
      (some result, s', attempts ++ deferred) ∧ result.error = none ∧ result.flags = 0 := by
  have heager : eagerVerify ladder [0, 7, 1] [3, 2] none = true := by decide +kernel
  obtain ⟨result, s', attempts, deferred, hrun, hverdict, hflags, -⟩ :=
    root_first_equals_eager ladder (none : Option (SignatureMemo ℕ Unit)) (fun _ => True) (by simp) [0, 7, 1] [3,
      2] none () trivial
  have hok := hverdict.2 heager
  exact ⟨heager, result, s', attempts, deferred, hrun, hok, hflags hok⟩

end ConnectCoin.P2C
