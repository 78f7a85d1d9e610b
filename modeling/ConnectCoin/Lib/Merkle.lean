/-
Merkle trees that pair the last node of an odd level with itself. GENERAL: nodes of any type, any way to combine two of
them.

- `pairUp`, `levelUp`: one level. `twins`: an equal pair, the sign of a duplicated tail.
- `climb`: the loop up to the root, which also reports twins; `climbPairs`: every pair it combines.
- `Climb combine S clean hs d r`: hs leads to r in d levels, combining pairs of S, without twins if clean.
Results, where combining is injective on S:
- `Climb.leaves_eq`: two lists that reach one root in the same number of levels are equal, if both are free of twins or
  equally long;
- `Climb.unique`: without twins, and where no leaf is a combination, one root has one list of leaves.
-/
import Mathlib.Tactic

namespace ConnectCoin.Lib

open List

variable {H : Type}

/-! ## Levels -/

/-- neighbours; the last of an odd list is paired with itself -/
def pairUp : List H → List (H × H)
  | [] => []
  | [a] => [(a, a)]
  | a :: b :: rest => (a, b) :: pairUp rest

/-- the next level -/
def levelUp (combine : H → H → H) (hs : List H) : List H := (pairUp hs).map fun p => combine p.1 p.2

/-- some neighbours are equal -/
def twins [DecidableEq H] : List H → Bool
  | a :: b :: rest => a == b || twins rest
  | _ => false

theorem pairUp_length (hs : List H) : (pairUp hs).length = (hs.length + 1) / 2 := by
  induction hs using pairUp.induct with
  | case1 => simp [pairUp]
  | case2 a => simp [pairUp]
  | case3 a b rest ih =>
    simp only [pairUp, length_cons, ih]
    omega

theorem levelUp_length (combine : H → H → H) (hs : List H) : (levelUp combine hs).length = (hs.length + 1) / 2 := by
  rw [levelUp, length_map, pairUp_length]

variable {xs ys : List H} {S : Set (H × H)}

/-- Equal pairs come from equal lists, unless one list repeats its last node. -/
theorem pairUp_inj [DecidableEq H] (h : pairUp xs = pairUp ys)
    (hclean : (twins xs = false ∧ twins ys = false) ∨ xs.length = ys.length) : xs = ys := by
  induction xs using pairUp.induct generalizing ys with
  | case1 =>
    have hlen := congrArg List.length h
    rw [pairUp_length, pairUp_length, length_nil] at hlen
    exact (length_eq_zero_iff.1 (by omega)).symm
  | case2 a =>
    match ys, h with
    | [b], h =>
      simp only [pairUp, List.cons.injEq, Prod.mk.injEq, and_true] at h
      rw [h.1]
    | b :: c :: [], h =>
      simp only [pairUp, List.cons.injEq, Prod.mk.injEq, and_true] at h
      simp [twins, ← h.1, ← h.2] at hclean
    | b :: c :: d :: rest, h =>
      have hlen := congrArg List.length h
      simp only [pairUp_length, length_cons, length_nil] at hlen
      omega
  | case3 a b rest ih =>
    match ys, h with
    | [c], h =>
      have hlen := congrArg List.length h
      rw [pairUp_length, pairUp_length, length_cons, length_cons, length_singleton] at hlen
      obtain rfl : rest = [] := length_eq_zero_iff.1 (by omega)
      simp only [pairUp, List.cons.injEq, Prod.mk.injEq, and_true] at h
      simp [twins, h.1, h.2] at hclean
    | c :: d :: rest', h =>
      simp only [pairUp, List.cons.injEq, Prod.mk.injEq] at h
      obtain ⟨⟨rfl, rfl⟩, hrest⟩ := h
      rw [ih hrest]
      simp only [twins, Bool.or_eq_false_iff, length_cons] at hclean
      rcases hclean with ⟨h₁, h₂⟩ | hlen
      · exact Or.inl ⟨h₁.2, h₂.2⟩
      · exact Or.inr (by omega)

theorem map_eq_of_injOn {α β : Type} {f : α → β} {S : Set α} (hinj : Set.InjOn f S) {xs ys : List α}
    (hxs : ∀ x ∈ xs, x ∈ S) (hys : ∀ y ∈ ys, y ∈ S) (h : xs.map f = ys.map f) : xs = ys := by
  induction xs generalizing ys with
  | nil => exact (map_eq_nil_iff.1 h.symm).symm
  | cons x xs ih =>
    cases ys with
    | nil => simp at h
    | cons y ys =>
      rw [map_cons, map_cons, List.cons.injEq] at h
      rw [forall_mem_cons] at hxs hys
      rw [hinj hxs.1 hys.1 h.1, ih hxs.2 hys.2 h.2]

/-! ## Climbs -/

section
variable [DecidableEq H] (combine : H → H → H)

/-- the loop to the root, with enough fuel; it also reports twins on any level -/
def climb (top : H) : ℕ → Bool → List H → H × Bool
  | 0, mutated, hs => (hs.headD top, mutated)
  | fuel + 1, mutated, hs =>
    if hs.length > 1 then climb top fuel (mutated || twins hs) (levelUp combine hs) else (hs.headD top, mutated)

/-- all pairs that the loop combines -/
def climbPairs : ℕ → List H → List (H × H)
  | 0, _ => []
  | fuel + 1, hs => if hs.length > 1 then pairUp hs ++ climbPairs fuel (levelUp combine hs) else []

/-- hs leads to the root in a number of levels; pairs are in S, and no level has twins if clean -/
inductive Climb (S : Set (H × H)) (clean : Bool) : List H → ℕ → H → Prop
  | top (r : H) : Climb S clean [r] 0 r
  | up {hs : List H} {d : ℕ} {r : H} (hlen : hs.length > 1) (hS : ∀ p ∈ pairUp hs, p ∈ S)
      (hclean : clean = true → twins hs = false) (rest : Climb S clean (levelUp combine hs) d r) :
    Climb S clean hs (d + 1) r

variable {combine} {hs : List H} {r top : H} {d fuel e : ℕ} {mutated : Bool}

theorem climb_mutated (h : (climb combine top fuel mutated hs).2 = false) : mutated = false := by
  induction fuel generalizing mutated hs with
  | zero => exact h
  | succ fuel ih =>
    rw [climb] at h
    split_ifs at h
    · exact (Bool.or_eq_false_iff.1 (ih h)).1
    · exact h

variable {clean : Bool}

/-- The loop is a climb, as long as the fuel is not below the number of nodes. -/
theorem climb_spec (hne : hs ≠ []) (hfuel : hs.length ≤ fuel) (hS : ∀ p ∈ climbPairs combine fuel hs, p ∈ S)
    (hclean : clean = true → (climb combine top fuel mutated hs).2 = false) :
    ∃ d, Climb combine S clean hs d (climb combine top fuel mutated hs).1 := by
  induction fuel generalizing mutated hs with
  | zero => exact absurd (length_eq_zero_iff.1 (Nat.le_zero.1 hfuel)) hne
  | succ fuel ih =>
    rw [climb] at hclean ⊢
    rw [climbPairs] at hS
    by_cases hlen : hs.length > 1
    · rw [if_pos hlen] at hclean hS ⊢
      rw [forall_mem_append] at hS
      have hup := levelUp_length combine hs
      obtain ⟨d, hd⟩ := ih (ne_nil_of_length_pos (by omega)) (by omega) hS.2 hclean
      refine ⟨d + 1, .up hlen hS.1 (fun hc => ?_) hd⟩
      exact (Bool.or_eq_false_iff.1 (climb_mutated (hclean hc))).2
    · rw [if_neg hlen]
      have hpos := length_pos_of_ne_nil hne
      obtain ⟨x, rfl⟩ := length_eq_one_iff.1 (show hs.length = 1 by omega)
      exact ⟨0, .top x⟩

theorem Climb.ne_nil (h : Climb combine S clean hs d r) : hs ≠ [] := by
  cases h with
  | top r => exact cons_ne_nil _ _
  | up hlen hS hclean rest => exact ne_nil_of_length_pos (by omega)

theorem Climb.leaves_eq (hinj : Set.InjOn (fun p => combine p.1 p.2) S) (hx : Climb combine S clean xs d r)
    (hy : Climb combine S clean ys d r) (h : clean = true ∨ xs.length = ys.length) : xs = ys := by
  induction d generalizing xs ys with
  | zero =>
    cases hx
    cases hy
    rfl
  | succ d ih =>
    cases hx with
    | up hlenx hSx hcleanx restx =>
      cases hy with
      | up hleny hSy hcleany resty =>
        have hup : levelUp combine xs = levelUp combine ys := by
          refine ih restx resty (h.imp_right fun hlen => ?_)
          rw [levelUp_length, levelUp_length, hlen]
        exact pairUp_inj (map_eq_of_injOn hinj hSx hSy hup) (h.imp_left fun hc => ⟨hcleanx hc, hcleany hc⟩)

/-- The number of levels only depends on the number of leaves. -/
theorem Climb.depth_eq {q : H} (hx : Climb combine S clean xs d r) (hy : Climb combine S clean ys e q)
    (hlen : xs.length = ys.length) : d = e := by
  induction hx generalizing ys e with
  | top r =>
    cases hy with
    | top q => rfl
    | up hlen' _ _ _ =>
      rw [length_singleton] at hlen
      omega
  | up hlen' hS hclean rest ih =>
    cases hy with
    | top q =>
      rw [length_singleton] at hlen
      omega
    | up hlen'' hS' hclean' rest' => rw [ih rest' (by rw [levelUp_length, levelUp_length, hlen])]

/-- Some level of a longer climb is d levels below the root, and its nodes are combinations. -/
theorem Climb.inner_level {k : ℕ} (h : Climb combine S clean hs (d + k + 1) r) :
    ∃ zs, (∀ p ∈ pairUp zs, p ∈ S) ∧ Climb combine S clean (levelUp combine zs) d r := by
  induction k generalizing hs with
  | zero =>
    cases h with
    | up hlen hS hclean rest => exact ⟨hs, hS, rest⟩
  | succ k ih =>
    cases h with
    | up hlen hS hclean rest => exact ih rest

theorem Climb.depth_le (hinj : Set.InjOn (fun p => combine p.1 p.2) S) (hx : Climb combine S true xs d r)
    (hy : Climb combine S true ys e r) (hleaf : ∀ x ∈ xs, ∀ p ∈ S, x ≠ combine p.1 p.2) : e ≤ d := by
  by_contra hlt
  obtain ⟨k, rfl⟩ : ∃ k, e = d + k + 1 := ⟨e - d - 1, by omega⟩
  obtain ⟨zs, hzs, hclimb⟩ := hy.inner_level
  have heq := hx.leaves_eq hinj hclimb (Or.inl rfl)
  obtain ⟨x, rest, rfl⟩ := exists_cons_of_ne_nil hx.ne_nil
  have hmem : x ∈ levelUp combine zs := by
    rw [← heq]
    exact mem_cons_self
  obtain ⟨p, hp, rfl⟩ := mem_map.1 hmem
  exact hleaf _ mem_cons_self p (hzs p hp) rfl

/-- Where no leaf is a combination, one root has one list of leaves without twins. -/
theorem Climb.unique (hinj : Set.InjOn (fun p => combine p.1 p.2) S) (hx : Climb combine S true xs d r)
    (hy : Climb combine S true ys e r) (hleafx : ∀ x ∈ xs, ∀ p ∈ S, x ≠ combine p.1 p.2)
    (hleafy : ∀ y ∈ ys, ∀ p ∈ S, y ≠ combine p.1 p.2) : xs = ys := by
  obtain rfl : d = e := le_antisymm (hy.depth_le hinj hx hleafy) (hx.depth_le hinj hy hleafx)
  exact hx.leaves_eq hinj hy (Or.inl rfl)

end

end ConnectCoin.Lib
