/-
Linked nodes with heights. GENERAL: a node has at most one parent; nothing here is about a particular program.

- `up parent n b`: the node n parent links above b.
- `Graded parent height S`: on the nodes of S, heights count parent links.
Results: `up_add`; on graded nodes every height up to a node's own is reached (`Graded.up_exists`), and a walk that
follows parents or jumps to ancestors ends where the parent links alone would (`up_via`).
-/
import Mathlib.Tactic

namespace ConnectCoin.Lib

variable {N : Type} (parent : N → Option N)

/-- n parent links above b -/
def up : ℕ → N → Option N
  | 0, b => some b
  | n + 1, b => (parent b).bind (up n)

theorem up_add (m n : ℕ) (b : N) : up parent (m + n) b = (up parent m b).bind (up parent n) := by
  induction m generalizing b with
  | zero => rw [Nat.zero_add]; rfl
  | succ m ih =>
    rw [Nat.succ_add, up, up]
    cases parent b with
    | none => rfl
    | some p => exact ih p

/-- A jump from height k to an ancestor s at height j does not change what is found at height i. -/
theorem up_via {b s : N} {i j k : ℕ} (hs : up parent (k - j) b = some s) (hij : i ≤ j) (hjk : j ≤ k) :
    up parent (j - i) s = up parent (k - i) b := by
  have hsplit : k - i = (k - j) + (j - i) := by omega
  rw [hsplit, up_add, hs]
  rfl

/-- heights count parent links on S, and S is closed under parents -/
structure Graded (height : N → ℕ) (S : N → Prop) : Prop where
  root : ∀ b, S b → parent b = none → height b = 0
  link : ∀ b p, S b → parent b = some p → height b = height p + 1
  closed : ∀ b p, S b → parent b = some p → S p

namespace Graded

variable {parent} {height : N → ℕ} {S : N → Prop}

theorem parent_exists (g : Graded parent height S) {b : N} (hb : S b) (hpos : 0 < height b) :
    ∃ p, parent b = some p := by
  cases hp : parent b with
  | none =>
    have h := g.root b hb hp
    omega
  | some p => exact ⟨p, rfl⟩

theorem up_exists (g : Graded parent height S) {b : N} (hb : S b) {n : ℕ} (hn : n ≤ height b) :
    ∃ a, up parent n b = some a ∧ height a + n = height b ∧ S a := by
  induction n generalizing b with
  | zero => exact ⟨b, rfl, rfl, hb⟩
  | succ n ih =>
    obtain ⟨p, hp⟩ := g.parent_exists hb (by omega)
    have hlink := g.link b p hb hp
    obtain ⟨a, ha, hheight, hS⟩ := ih (g.closed b p hb hp) (by omega)
    refine ⟨a, ?_, by omega, hS⟩
    rw [up, hp]
    exact ha

/-- There are no more nodes above one than its height. -/
theorem up_le (g : Graded parent height S) {b a : N} (hb : S b) {n : ℕ} (ha : up parent n b = some a) :
    n ≤ height b := by
  induction n generalizing b with
  | zero => exact Nat.zero_le _
  | succ n ih =>
    obtain ⟨p, hp, ha⟩ := Option.bind_eq_some_iff.1 ha
    rw [g.link b p hb hp]
    exact Nat.succ_le_succ (ih (g.closed b p hb hp) ha)

end Graded

end ConnectCoin.Lib
