/-
Smooth weighted round robin. GENERAL: finitely many members of any type, credits and shares in an ordered field.

In a turn every credit grows by the member's share; a member with the greatest credit is chosen and pays 1. The shares
of a turn are positive and make up 1, and may be others in every turn.
Results: `FairTurn.balanced`: credits that make up 0 and are above -1 stay so; `FairTurns.fair`: over any turns, how
often a member is chosen differs from the sum of its shares by less than the number of members; `FairTurns.chosen`: so
it is chosen where that sum is as large.
-/
import Mathlib.Algebra.BigOperators.Group.Finset.Piecewise
import Mathlib.Algebra.Order.BigOperators.Group.Finset
import Mathlib.Algebra.Order.Field.Basic
import Mathlib.Tactic

namespace ConnectCoin.Lib

open List

variable {ι K : Type} [Fintype ι] [Field K] [LinearOrder K] [IsStrictOrderedRing K]

structure Balanced (credit : ι → K) : Prop where
  sum : ∑ i, credit i = 0
  low : ∀ i, -1 < credit i

section
variable {credit : ι → K}

omit [IsStrictOrderedRing K] in
theorem Balanced.sum_succ (h : Balanced credit) : ∑ i, (credit i + 1) = Fintype.card ι := by
  rw [Finset.sum_add_distrib, h.sum, zero_add, Finset.sum_const, nsmul_one, Finset.card_univ]

theorem Balanced.high (h : Balanced credit) (i : ι) : credit i ≤ Fintype.card ι - 1 := by
  have hone : credit i + 1 ≤ ∑ j, (credit j + 1) :=
    Finset.single_le_sum (f := fun j => credit j + 1) (fun j _ => by linarith [h.low j]) (Finset.mem_univ i)
  rw [h.sum_succ] at hone
  linarith

theorem Balanced.high_lt [Nontrivial ι] (h : Balanced credit) (i : ι) : credit i < Fintype.card ι - 1 := by
  obtain ⟨j, hj⟩ := exists_ne i
  have hone : credit i + 1 < ∑ k, (credit k + 1) :=
    Finset.single_lt_sum (f := fun k => credit k + 1) hj (Finset.mem_univ i)
    (Finset.mem_univ j) (by linarith [h.low j]) fun k _ _ => by linarith [h.low k]
  rw [h.sum_succ] at hone
  linarith

end

variable [DecidableEq ι]

structure FairTurn (credit share : ι → K) (chosen : ι) (credit' : ι → K) : Prop where
  positive : ∀ i, 0 < share i
  total : ∑ i, share i = 1
  greatest : ∀ i, credit i + share i ≤ credit chosen + share chosen
  pays : ∀ i, credit' i = credit i + share i - if i = chosen then 1 else 0

theorem FairTurn.balanced {credit share credit' : ι → K} {chosen : ι} (h : FairTurn credit share chosen credit')
    (hc : Balanced credit) : Balanced credit' := by
  have hgrown : ∑ i, (credit i + share i) = 1 := by rw [Finset.sum_add_distrib, hc.sum, h.total, zero_add]
  constructor
  · simp only [h.pays, Finset.sum_sub_distrib, hgrown, Finset.sum_ite_eq', Finset.mem_univ, if_true, sub_self]
  · intro i
    rw [h.pays]
    split_ifs with hi
    · -- the greatest of credits that make up 1 is positive
      have hpos : 0 < credit i + share i := by
        by_contra hle
        rw [hi] at hle
        have hnonpos : ∑ i, (credit i + share i) ≤ 0 := Finset.sum_nonpos fun j _ => (h.greatest j).trans (not_lt.1 hle)
        rw [hgrown] at hnonpos
        exact absurd hnonpos (not_le.2 zero_lt_one)
      linarith
    · linarith [hc.low i, h.positive i]

/-- turns one after the other, each with its shares and its choice -/
inductive FairTurns : (ι → K) → List ((ι → K) × ι) → (ι → K) → Prop
  | nil (credit : ι → K) : FairTurns credit [] credit
  | cons {credit share credit' last : ι → K} {chosen : ι} {turns : List ((ι → K) × ι)}
      (h : FairTurn credit share chosen credit') (rest : FairTurns credit' turns last) :
    FairTurns credit ((share, chosen) :: turns) last

/-- how often a member is chosen -/
def chosenCount (turns : List ((ι → K) × ι)) (i : ι) : ℕ := (turns.map Prod.snd).count i

/-- the sum of a member's shares -/
def shareSum (turns : List ((ι → K) × ι)) (i : ι) : K := (turns.map fun t => t.1 i).sum

namespace FairTurns

variable {credit last : ι → K} {turns : List ((ι → K) × ι)}

theorem balanced (h : FairTurns credit turns last) (hc : Balanced credit) : Balanced last := by
  induction h with
  | nil => exact hc
  | cons hturn _ ih => exact ih (hturn.balanced hc)

/-- A credit is what the member's shares have made it, less what it paid. -/
theorem account (h : FairTurns credit turns last) (i : ι) :
    last i = credit i + shareSum turns i - chosenCount turns i := by
  induction h with
  | nil => simp [shareSum, chosenCount]
  | @cons credit share credit' last chosen turns hturn _ ih =>
    have hcount : chosenCount ((share, chosen) :: turns) i = chosenCount turns i + if i = chosen then 1 else 0 := by
      rw [chosenCount, map_cons, count_cons]
      simp only [beq_iff_eq, eq_comm (a := chosen)]
      rfl
    have hsum : shareSum ((share, chosen) :: turns) i = share i + shareSum turns i := sum_cons
    rw [ih, hturn.pays, hsum, hcount]
    push_cast
    ring

theorem fair (h : FairTurns credit turns last) (hc : Balanced credit) (i : ι) :
    |(chosenCount turns i : K) - shareSum turns i| < Fintype.card ι := by
  have haccount := h.account i
  have hlast := h.balanced hc
  have hbounds := And.intro (hc.low i) (hc.high i)
  have hbounds' := And.intro (hlast.low i) (hlast.high i)
  rw [abs_lt]
  constructor <;> linarith [hbounds.1, hbounds.2, hbounds'.1, hbounds'.2]

theorem chosen (h : FairTurns credit turns last) (hc : Balanced credit) {i : ι}
    {least : K} (hleast : ∀ t ∈ turns, least ≤ t.1 i) (hlong : (Fintype.card ι : K) ≤ turns.length * least) :
    1 ≤ chosenCount turns i := by
  have hsum : turns.length * least ≤ shareSum turns i := by
    have hle := card_nsmul_le_sum (turns.map fun t => t.1 i) least (forall_mem_map.2 hleast)
    rwa [length_map, nsmul_eq_mul] at hle
  have hfair := (abs_lt.1 (h.fair hc i)).1
  have hpos : (0 : K) < chosenCount turns i := by linarith
  exact_mod_cast hpos

end FairTurns

end ConnectCoin.Lib
