/-
The block tree: index entries with parent and skip pointers (`chain.h`, `chain.cpp`, `AddToBlockIndex`).

- `CBlockIndex`: header, height, chain work, `pprev` and `pskip`. Pointers are values: an entry is never changed after
  `BuildSkip`.
- `getSkipHeight`, `getAncestor` (the walk that prefers skip pointers), `buildSkip`.
- `lastCommonAncestor`: both entries to one height, then down together until they meet.
- `extend`, `Linked`: a list of headers indexed over an entry.
- `Grown`: the entries of any tree; `Built`: those that `AddToBlockIndex` makes, a root or a child of a built entry
  whose hash it names.
Result: `skip_list_ancestry`. At every height from 0 to its own, `getAncestor` finds the entry that the parent links
lead to, and the walk ends; `LastCommonAncestor` of two entries over one root is their highest common ancestor.
-/
import ConnectCoin.Core.Block
import ConnectCoin.Lib.Ancestry

namespace ConnectCoin

open Lib List Option

/-- an entry of the block index -/
inductive CBlockIndex where
  | mk (header : CBlockHeader) (nHeight : ℕ) (nChainWork : ArithUint256) (pprev pskip : Option CBlockIndex)

namespace CBlockIndex

def header : CBlockIndex → CBlockHeader
  | mk h _ _ _ _ => h
def nHeight : CBlockIndex → ℕ
  | mk _ n _ _ _ => n
def nChainWork : CBlockIndex → ArithUint256
  | mk _ _ w _ _ => w
def pprev : CBlockIndex → Option CBlockIndex
  | mk _ _ _ p _ => p
def pskip : CBlockIndex → Option CBlockIndex
  | mk _ _ _ _ s => s

variable (b : CBlockIndex)

/-- `GetBlockHash`: the key under which the entry is indexed -/
def getBlockHash [Crypto] (b : CBlockIndex) : Uint256 := b.header.getHash

/-! ## Skip heights -/

/-- `InvertLowestOne` -/
def invertLowestOne (n : ℕ) : ℕ := n &&& (n - 1)

/-- `GetSkipHeight` -/
def getSkipHeight (height : ℕ) : ℕ :=
  if height < 2 then 0
  else if height % 2 = 1 then invertLowestOne (invertLowestOne (height - 1)) + 1
  else invertLowestOne height

theorem invertLowestOne_le (n : ℕ) : invertLowestOne n ≤ n - 1 := Nat.and_le_right

theorem getSkipHeight_lt {height : ℕ} (h : 0 < height) : getSkipHeight height < height := by
  have h₁ := invertLowestOne_le height
  have h₂ := invertLowestOne_le (height - 1)
  have h₃ := invertLowestOne_le (invertLowestOne (height - 1))
  unfold getSkipHeight
  split_ifs <;> omega

/-! ## Ancestors -/

/-- the loop of `GetAncestor`: from w at heightWalk down to height; none where the source would assert -/
def walkTo : ℕ → CBlockIndex → ℕ → ℕ → Option CBlockIndex
  | 0, w, heightWalk, height => if heightWalk > height then none else some w
  | fuel + 1, w, heightWalk, height =>
    if heightWalk > height then
      let heightSkip := getSkipHeight heightWalk
      let heightSkipPrev := getSkipHeight (heightWalk - 1)
      -- only follow pskip if pprev's pskip isn't better than pskip's pprev
      match w.pskip with
      | some skip =>
        if heightSkip = height ∨
          (heightSkip > height ∧ ¬ (heightSkipPrev + 2 < heightSkip ∧ heightSkipPrev ≥ height)) then
          walkTo fuel skip heightSkip height
        else w.pprev.bind fun prev => walkTo fuel prev (heightWalk - 1) height
      | none => w.pprev.bind fun prev => walkTo fuel prev (heightWalk - 1) height
    else some w

/-- `GetAncestor` -/
def getAncestor (height : ℤ) : Option CBlockIndex :=
  if height > b.nHeight ∨ height < 0 then none else walkTo b.nHeight b b.nHeight height.toNat

theorem getAncestor_of_neg {height : ℤ} (h : height < 0) : b.getAncestor height = none := if_pos (Or.inr h)

/-! ## Equality of entries -/

mutual

def decEq : (a b : CBlockIndex) → Decidable (a = b)
  | mk h n w p s, mk h' n' w' p' s' =>
    match decEqOption p p', decEqOption s s' with
    | isTrue hp, isTrue hs =>
      if hfields : h = h' ∧ n = n' ∧ w = w' then isTrue (by rw [hfields.1, hfields.2.1, hfields.2.2, hp, hs])
      else isFalse fun heq => hfields (by cases heq; exact ⟨rfl, rfl, rfl⟩)
    | isFalse hp, _ => isFalse fun heq => hp (by cases heq; rfl)
    | _, isFalse hs => isFalse fun heq => hs (by cases heq; rfl)

def decEqOption : (a b : Option CBlockIndex) → Decidable (a = b)
  | none, none => isTrue rfl
  | none, some _ => isFalse nofun
  | some _, none => isFalse nofun
  | some a, some b =>
    match decEq a b with
    | isTrue h => isTrue (by rw [h])
    | isFalse h => isFalse fun heq => h (Option.some.inj heq)

end

instance : DecidableEq CBlockIndex := decEq

/-- the loops of `LastCommonAncestor` for two entries of one height; none where a null pointer would be followed -/
def commonLoop : ℕ → CBlockIndex → CBlockIndex → Option CBlockIndex
  | 0, _, _ => none
  | fuel + 1, pa, pb =>
    if pa = pb then some pa
    else if pa.pskip ≠ pb.pskip then
      match pa.pskip, pb.pskip with
      | some a, some b => commonLoop fuel a b
      | _, _ => none
    else
      match pa.pprev, pb.pprev with
      | some a, some b => commonLoop fuel a b
      | _, _ => none

/-- the entry, or its ancestor at a lower height -/
def rewind (p : CBlockIndex) (height : ℕ) : Option CBlockIndex :=
  if p.nHeight > height then p.getAncestor height else some p

/-- `LastCommonAncestor` -/
def lastCommonAncestor (pa pb : CBlockIndex) : Option CBlockIndex := do
  let height := min pa.nHeight pb.nHeight
  let a ← rewind pa height
  let b ← rewind pb height
  commonLoop (height + 1) a b

/-- the entry `AddToBlockIndex` makes for a header whose predecessor is not indexed -/
def root (header : CBlockHeader) : CBlockIndex := mk header 0 (getBlockProof header) none none

/-- the entry `AddToBlockIndex` makes below p, with its `BuildSkip` -/
def child (p : CBlockIndex) (header : CBlockHeader) : CBlockIndex :=
  mk header (p.nHeight + 1) (p.nChainWork + getBlockProof header) (some p)
    (p.getAncestor (getSkipHeight (p.nHeight + 1)))

variable {height j n i : ℕ} {pa pb : CBlockIndex} (p b : CBlockIndex) (h : CBlockHeader) (hs : List CBlockHeader)

@[simp] theorem root_nHeight : (root h).nHeight = 0 := rfl
@[simp] theorem root_pprev : (root h).pprev = none := rfl
@[simp] theorem child_nHeight : (p.child h).nHeight = p.nHeight + 1 := rfl
@[simp] theorem child_pprev : (p.child h).pprev = some p := rfl
@[simp] theorem child_header : (p.child h).header = h := rfl
@[simp] theorem child_nChainWork : (p.child h).nChainWork = p.nChainWork + getBlockProof h := rfl

/-- n parent links above -/
abbrev above (n : ℕ) : Option CBlockIndex := up pprev n b

/-- every skip pointer on the way up from b leads to the ancestor at its skip height -/
def SkipsOk : Prop :=
  ∀ n a s, b.above n = some a → a.pskip = some s →
    s.nHeight = getSkipHeight a.nHeight ∧ a.above (a.nHeight - getSkipHeight a.nHeight) = some s

theorem SkipsOk.above {b a : CBlockIndex} (h : SkipsOk b) (ha : b.above n = some a) : SkipsOk a := by
  intro m c s hc hs
  refine h (n + m) c s ?_ hs
  have hn : up pprev n b = some a := ha
  rw [CBlockIndex.above, up_add, hn]
  exact hc

/-- an ancestor of both -/
def CommonAncestor (pa pb f : CBlockIndex) : Prop := ∃ i j, pa.above i = some f ∧ pb.above j = some f

theorem CommonAncestor.lift {a b f : CBlockIndex} (ha : pa.above i = some a) (hb : pb.above j = some b)
    (h : CommonAncestor a b f) : CommonAncestor pa pb f := by
  obtain ⟨m, n, hm, hn⟩ := h
  refine ⟨i + m, j + n, ?_, ?_⟩
  · rw [CBlockIndex.above, up_add, show up pprev i pa = some a from ha]
    exact hm
  · rw [CBlockIndex.above, up_add, show up pprev j pb = some b from hb]
    exact hn

/-! ## Header lists over an entry -/

/-- the entry that indexing a list of headers over b ends in -/
def extend (hs : List CBlockHeader) : CBlockIndex := hs.foldl child b

@[simp] theorem extend_nil : b.extend [] = b := rfl
@[simp] theorem extend_cons : b.extend (h :: hs) = (b.child h).extend hs := rfl
theorem extend_append (xs ys : List CBlockHeader) : b.extend (xs ++ ys) = (b.extend xs).extend ys := foldl_append

@[simp] theorem extend_nHeight : (b.extend hs).nHeight = b.nHeight + hs.length := by
  induction hs generalizing b with
  | nil => rfl
  | cons h hs ih =>
    rw [extend_cons, ih, child_nHeight, length_cons]
    omega

theorem extend_getLast_header {hs : List CBlockHeader} {h : CBlockHeader} (hlast : hs.getLast? = some h) :
    (b.extend hs).header = h := by
  obtain ⟨xs, rfl⟩ := getLast?_eq_some_iff.1 hlast
  simp [extend_append]

/-- going up from the end of an extension stays in the extension -/
theorem extend_above (xs ys : List CBlockHeader) : (b.extend (xs ++ ys)).above ys.length = some (b.extend xs) := by
  induction ys using List.reverseRecOn with
  | nil => simp [above, up]
  | append_singleton ys y ih =>
    rw [← append_assoc, extend_append, length_append, length_singleton, Nat.add_comm, above, up_add]
    simpa [up] using ih

/-- the entries of block trees: a root, or a child of an entry -/
inductive Grown : CBlockIndex → Prop
  | root (header : CBlockHeader) : Grown (root header)
  | child {p : CBlockIndex} (header : CBlockHeader) (hp : Grown p) : Grown (p.child header)

theorem grown_graded : Graded pprev nHeight Grown where
  root := by
    intro b hb h
    cases hb with
    | root header => rfl
    | child header hp => simp at h
  link := by
    intro b p hb h
    cases hb with
    | root header => simp [root, pprev] at h
    | child header hp =>
      obtain rfl : _ = p := some_inj.1 h
      rfl
  closed := by
    intro b p hb h
    cases hb with
    | root header => simp [root, pprev] at h
    | child header hp =>
      obtain rfl : _ = p := some_inj.1 h
      exact hp

/-! ## The walk finds the ancestor -/

variable {b}

theorem above_grown {a : CBlockIndex} (hb : Grown b) (hn : n ≤ b.nHeight) (ha : b.above n = some a) :
    Grown a ∧ a.nHeight + n = b.nHeight := by
  obtain ⟨a', ha', hheight, hgrown⟩ := grown_graded.up_exists hb hn
  obtain rfl : a' = a := some_inj.1 (ha'.symm.trans ha)
  exact ⟨hgrown, hheight⟩

theorem walkTo_eq (fuel : ℕ) (w : CBlockIndex) (hw : Grown w) (hskip : SkipsOk w) (height : ℕ)
    (hle : height ≤ w.nHeight) (hfuel : w.nHeight - height ≤ fuel) :
    walkTo fuel w w.nHeight height = w.above (w.nHeight - height) := by
  induction fuel generalizing w with
  | zero =>
    have heq : w.nHeight - height = 0 := Nat.le_zero.1 hfuel
    rw [walkTo, if_neg (by omega), heq]
    rfl
  | succ fuel ih =>
    rw [walkTo]
    by_cases hgt : w.nHeight > height
    · rw [if_pos hgt]
      -- one step up by the parent link
      have hprev : (w.pprev.bind fun prev => walkTo fuel prev (w.nHeight - 1) height) =
          w.above (w.nHeight - height) := by
        obtain ⟨p, hp⟩ := grown_graded.parent_exists hw (by omega)
        have hlink := grown_graded.link w p hw hp
        have hone : w.above 1 = some p := by rw [CBlockIndex.above, up, hp]; rfl
        have hheight : w.nHeight - 1 = p.nHeight := by omega
        rw [hp, bind_some, hheight, ih p (grown_graded.closed w p hw hp) (hskip.above hone) (by omega) (by omega)]
        exact up_via pprev (by rw [show w.nHeight - p.nHeight = 1 by omega]; exact hone) (by omega) (by omega)
      cases hs : w.pskip with
      | none => exact hprev
      | some skip =>
        simp only
        split_ifs with hcond
        · -- a jump to the skip height, which is not below the target
          obtain ⟨hsheight, hsabove⟩ := hskip 0 w skip rfl hs
          have hlt := getSkipHeight_lt (show 0 < w.nHeight by omega)
          obtain ⟨hsgrown, -⟩ := above_grown hw (by omega) hsabove
          rw [← hsheight] at hcond hsabove hlt ⊢
          rw [ih skip hsgrown (hskip.above hsabove) (by omega) (by omega)]
          exact up_via pprev hsabove (by omega) (by omega)
        · exact hprev
    · rw [if_neg hgt, show w.nHeight - height = 0 by omega]
      rfl

theorem getAncestor_of_skipsOk (hb : Grown b) (hskip : SkipsOk b) (hle : height ≤ b.nHeight) :
    b.getAncestor height = b.above (b.nHeight - height) := by
  rw [getAncestor, if_neg (by omega), Int.toNat_natCast]
  exact walkTo_eq b.nHeight b hb hskip height hle (by omega)

theorem Grown.skipsOk (hb : Grown b) : SkipsOk b := by
  induction hb with
  | root header =>
    intro n a s ha hs
    cases n with
    | zero =>
      obtain rfl : CBlockIndex.root header = a := some_inj.1 ha
      simp [CBlockIndex.root, pskip] at hs
    | succ n => simp [CBlockIndex.above, up, CBlockIndex.root, pprev] at ha
  | @child p header hp ih =>
    intro n a s ha hs
    cases n with
    | succ n => exact ih n a s ha hs
    | zero =>
      obtain rfl : p.child header = a := some_inj.1 ha
      have hlt := getSkipHeight_lt (Nat.succ_pos p.nHeight)
      have hle : getSkipHeight (p.nHeight + 1) ≤ p.nHeight := Nat.le_of_lt_succ hlt
      have hfind : p.above (p.nHeight - getSkipHeight (p.nHeight + 1)) = some s := by
        rw [← getAncestor_of_skipsOk hp ih hle]
        exact hs
      obtain ⟨-, hheight⟩ := above_grown hp (by omega) hfind
      refine ⟨by rw [child_nHeight]; omega, ?_⟩
      rw [child_nHeight, Nat.succ_sub hle]
      exact hfind

/-- The skip walk finds what the parent links lead to. -/
theorem Grown.getAncestor_eq (hb : Grown b) (hle : height ≤ b.nHeight) :
    b.getAncestor height = b.above (b.nHeight - height) := getAncestor_of_skipsOk hb hb.skipsOk hle

/-- Above height 0 the skip pointer is an ancestor at the skip height. -/
theorem Grown.skip_exists (hb : Grown b) (hpos : 0 < b.nHeight) :
    ∃ s, b.pskip = some s ∧ s.nHeight = getSkipHeight b.nHeight ∧
      b.above (b.nHeight - getSkipHeight b.nHeight) = some s := by
  have hsome : ∃ s, b.pskip = some s := by
    cases hb with
    | root header => simp at hpos
    | @child p header hp =>
      have hle : getSkipHeight (p.nHeight + 1) ≤ p.nHeight := Nat.le_of_lt_succ (getSkipHeight_lt (Nat.succ_pos _))
      obtain ⟨a, ha, -, -⟩ := grown_graded.up_exists hp (Nat.sub_le p.nHeight (getSkipHeight (p.nHeight + 1)))
      exact ⟨a, (hp.getAncestor_eq hle).trans ha⟩
  obtain ⟨s, hs⟩ := hsome
  obtain ⟨hheight, habove⟩ := hb.skipsOk 0 b s rfl hs
  exact ⟨s, hs, hheight, habove⟩

/-! ## The common ancestor -/

/-- The way up keeps the root. -/
theorem Grown.root_above {p a : CBlockIndex} (hp : Grown p) (hi : i ≤ p.nHeight) (ha : p.above i = some a) :
    a.above a.nHeight = p.above p.nHeight := by
  obtain ⟨-, hheight⟩ := above_grown hp hi ha
  rw [show p.nHeight = i + a.nHeight by omega, CBlockIndex.above, CBlockIndex.above, up_add,
    show up pprev i p = some a from ha]
  rfl

theorem Grown.above_height {p f : CBlockIndex} (hp : Grown p) (hf : p.above i = some f) : f.nHeight + i = p.nHeight :=
  (above_grown hp (grown_graded.up_le hp hf) hf).2

/-- Two entries have a common ancestor above both of their ancestors. -/
theorem CommonAncestor.above {a f : CBlockIndex} (ha : Grown pa) (hb : Grown pb) (hai : pa.above i = some a)
    (hbj : pb.above j = some b) (h : CommonAncestor pa pb f) (hi : f.nHeight + i ≤ pa.nHeight)
    (hj : f.nHeight + j ≤ pb.nHeight) : CommonAncestor a b f := by
  have hrest : ∀ {p a : CBlockIndex} {i n : ℕ}, p.above i = some a → p.above n = some f → i ≤ n →
      a.above (n - i) = some f := by
    intro p a i n ha hn hle
    rw [CBlockIndex.above, ← Nat.add_sub_cancel' hle, up_add, show up pprev i p = some a from ha] at hn
    exact hn
  obtain ⟨m, n, hm, hn⟩ := h
  have hheightm := ha.above_height hm
  have hheightn := hb.above_height hn
  exact ⟨m - i, n - j, hrest hai hm (by omega), hrest hbj hn (by omega)⟩

variable (b)

/-- an ancestor of both, the highest -/
structure HighestCommon (pa pb f : CBlockIndex) : Prop where
  common : CommonAncestor pa pb f
  highest : ∀ f', CommonAncestor pa pb f' → f'.nHeight ≤ f.nHeight

/-- The loops end, at the highest ancestor of both. -/
theorem commonLoop_eq (fuel : ℕ) (ha : Grown pa) (hb : Grown pb) (hheight : pa.nHeight = pb.nHeight)
    (hroot : pa.above pa.nHeight = pb.above pb.nHeight) (hfuel : pa.nHeight < fuel) :
    ∃ f, commonLoop fuel pa pb = some f ∧ HighestCommon pa pb f := by
  induction fuel generalizing pa pb with
  | zero => omega
  | succ fuel ih =>
    rw [commonLoop]
    by_cases heq : pa = pb
    · subst heq
      refine ⟨pa, if_pos rfl, ⟨0, 0, rfl, rfl⟩, ?_⟩
      rintro f' ⟨i, -, hi, -⟩
      exact Nat.le.intro (ha.above_height hi)
    · have hpos : 0 < pa.nHeight := by
        rw [Nat.pos_iff_ne_zero]
        intro hzero
        rw [← hheight, hzero] at hroot
        exact heq (Option.some.inj hroot)
      -- one jump, by the skip pointers or by the parents, over entries that differ to a pair of one lower height
      have hjump : ∀ a b i, i ≤ pa.nHeight → 0 < i → pa.above i = some a → pb.above i = some b →
          (∀ k < i, pa.above k ≠ pb.above k) → ∃ f, commonLoop fuel a b = some f ∧ HighestCommon pa pb f := by
        intro a b i hi hipos hai hbi hne
        obtain ⟨hgrowna, hha⟩ := above_grown ha hi hai
        obtain ⟨hgrownb, hhb⟩ := above_grown hb (hheight ▸ hi) hbi
        have hroots : a.above a.nHeight = b.above b.nHeight := by
          rw [ha.root_above hi hai, hb.root_above (hheight ▸ hi) hbi, hroot]
        obtain ⟨f, hf, hcommon, hhighest⟩ := ih hgrowna hgrownb (by omega) hroots (by omega)
        refine ⟨f, hf, hcommon.lift hai hbi, fun f' h' => hhighest f' ?_⟩
        obtain ⟨m, n, hm, hn⟩ := h'
        have hheightm := ha.above_height hm
        have hheightn := hb.above_height hn
        obtain rfl : m = n := by omega
        have him : i ≤ m := not_lt.1 fun hlt => hne m hlt (hm.trans hn.symm)
        exact CommonAncestor.above ha hb hai hbi ⟨m, m, hm, hn⟩ (by omega) (by omega)
      rw [if_neg heq]
      by_cases hskip : pa.pskip ≠ pb.pskip
      · obtain ⟨sa, hsa, -, habove⟩ := ha.skip_exists hpos
        obtain ⟨sb, hsb, -, hbbove⟩ := hb.skip_exists (hheight ▸ hpos)
        have hlt := getSkipHeight_lt hpos
        rw [← hheight] at hbbove
        rw [if_pos hskip, hsa, hsb]
        refine hjump sa sb _ (Nat.sub_le _ _) (by omega) habove hbbove fun k hk hsame => hskip ?_
        rw [hsa, hsb, ← habove, ← hbbove, ← Nat.add_sub_cancel' hk.le, CBlockIndex.above,
          CBlockIndex.above, up_add, up_add]
        exact congrArg (Option.bind · _) hsame
      · obtain ⟨p, hp⟩ := grown_graded.parent_exists ha hpos
        obtain ⟨q, hq⟩ := grown_graded.parent_exists hb (hheight ▸ hpos)
        rw [if_neg hskip, hp, hq]
        refine hjump p q 1 hpos Nat.one_pos ?_ ?_ fun k hk hsame => heq ?_
        · rw [CBlockIndex.above, up, hp]
          rfl
        · rw [CBlockIndex.above, up, hq]
          rfl
        · obtain rfl := Nat.lt_one_iff.1 hk
          exact Option.some.inj hsame

theorem Grown.rewind_exists {p : CBlockIndex} (hp : Grown p) (hle : height ≤ p.nHeight) :
    ∃ a, rewind p height = some a ∧ p.above (p.nHeight - height) = some a := by
  obtain ⟨a, ha, -, -⟩ := grown_graded.up_exists hp (Nat.sub_le p.nHeight height)
  refine ⟨a, ?_, ha⟩
  unfold rewind
  split_ifs with hgt
  · exact (hp.getAncestor_eq hle).trans ha
  · rw [Nat.sub_eq_zero_of_le (not_lt.1 hgt)] at ha
    exact ha

/-- `LastCommonAncestor` of two entries over the same root is their highest common ancestor. -/
theorem lastCommonAncestor_eq (ha : Grown pa) (hb : Grown pb) (hroot : pa.above pa.nHeight = pb.above pb.nHeight) :
    ∃ f, lastCommonAncestor pa pb = some f ∧ HighestCommon pa pb f := by
  obtain ⟨a, hga, haa⟩ := ha.rewind_exists (min_le_left pa.nHeight pb.nHeight)
  obtain ⟨b, hgb, hbb⟩ := hb.rewind_exists (min_le_right pa.nHeight pb.nHeight)
  obtain ⟨hgrowna, hha⟩ := above_grown ha (Nat.sub_le _ _) haa
  obtain ⟨hgrownb, hhb⟩ := above_grown hb (Nat.sub_le _ _) hbb
  have hminl := min_le_left pa.nHeight pb.nHeight
  have hminr := min_le_right pa.nHeight pb.nHeight
  have hroots : a.above a.nHeight = b.above b.nHeight := by
    rw [ha.root_above (Nat.sub_le _ _) haa, hb.root_above (Nat.sub_le _ _) hbb, hroot]
  obtain ⟨f, hf, hcommon, hhighest⟩ :=
    commonLoop_eq (min pa.nHeight pb.nHeight + 1) hgrowna hgrownb (by omega) hroots (by omega)
  refine ⟨f, ?_, hcommon.lift haa hbb, fun f' h' => hhighest f' ?_⟩
  · simp only [lastCommonAncestor, hga, hgb, bind_eq_bind, bind_some, hf]
  · obtain ⟨m, n, hm, hn⟩ := h'
    have hlea := Nat.le.intro (ha.above_height hm)
    have hleb := Nat.le.intro (hb.above_height hn)
    have hmin := le_min hlea hleb
    exact CommonAncestor.above ha hb haa hbb ⟨m, n, hm, hn⟩ (by omega) (by omega)

/-- **Ancestry.** In every block tree, `GetAncestor` finds at each height up to an entry's own the entry that its parent
links lead to, and `LastCommonAncestor` of two entries finds the highest one above both. -/
theorem skip_list_ancestry : (∀ b : CBlockIndex, Grown b → ∀ height ≤ b.nHeight,
      ∃ a, b.getAncestor height = some a ∧ b.above (b.nHeight - height) = some a ∧ a.nHeight = height) ∧
    ∀ pa pb : CBlockIndex, Grown pa → Grown pb → pa.above pa.nHeight = pb.above pb.nHeight →
      ∃ f, lastCommonAncestor pa pb = some f ∧ HighestCommon pa pb f := by
  refine ⟨fun b hb height hle => ?_, fun pa pb ha hb hroot => lastCommonAncestor_eq ha hb hroot⟩
  obtain ⟨a, ha, hheight, -⟩ := grown_graded.up_exists hb (Nat.sub_le b.nHeight height)
  exact ⟨a, (hb.getAncestor_eq hle).trans ha, ha, by omega⟩

/-- Two children of a root meet. -/
theorem siblings_meet : ∃ pa pb f : CBlockIndex, pa ≠ pb ∧ lastCommonAncestor pa pb = some f ∧
    HighestCommon pa pb f := by
  obtain ⟨f, hf⟩ := skip_list_ancestry.2 ((root CBlockHeader.null).child CBlockHeader.null)
    ((root CBlockHeader.null).child { CBlockHeader.null with nNonce := 1 }) (.child _ (.root _))
      (.child _ (.root _)) rfl
  exact ⟨_, _, f, by decide, hf⟩

variable [Crypto]

@[simp] theorem root_getBlockHash (h : CBlockHeader) : (root h).getBlockHash = h.getHash := rfl
@[simp] theorem child_getBlockHash (p : CBlockIndex) (h : CBlockHeader) : (p.child h).getBlockHash = h.getHash := rfl

/-- the entries that indexing makes: a root, or a child of a built entry whose hash the header names -/
inductive Built : CBlockIndex → Prop
  | root (header : CBlockHeader) (h : header.hashPrevBlock = Uint256.null) : Built (root header)
  | child {p : CBlockIndex} (header : CBlockHeader) (hp : Built p) (h : header.hashPrevBlock = p.getBlockHash) :
      Built (p.child header)

variable {b : CBlockIndex}

theorem Built.grown (hb : Built b) : Grown b := by
  induction hb with
  | root header _ => exact .root header
  | child header _ _ ih => exact .child header ih

theorem Built.getAncestor_eq (hb : Built b) {height : ℕ} (hle : height ≤ b.nHeight) :
    b.getAncestor height = b.above (b.nHeight - height) := hb.grown.getAncestor_eq hle

/-! ## Linked headers -/

/-- each header names the hash of the one before it, the first that of b -/
def Linked (b : CBlockIndex) : List CBlockHeader → Prop
  | [] => True
  | h :: hs => h.hashPrevBlock = b.getBlockHash ∧ Linked (b.child h) hs

theorem linked_append {xs ys : List CBlockHeader} : Linked b (xs ++ ys) ↔ Linked b xs ∧ Linked (b.extend xs) ys := by
  induction xs generalizing b with
  | nil => simp [Linked]
  | cons h xs ih => simp [Linked, ih, and_assoc]

theorem Built.extend (hb : Built b) {hs : List CBlockHeader} (hl : Linked b hs) : Built (b.extend hs) := by
  induction hs generalizing b with
  | nil => exact hb
  | cons h hs ih => exact ih (hb.child h hl.1) hl.2

end CBlockIndex

end ConnectCoin
