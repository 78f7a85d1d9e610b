/-
Pre- and postconditions for stateful computations. GENERAL: a computation is an `m : StateM σ α`.

- `Triple P m Q`: from every state with P, m answers a and leaves s such that Q a s.
- `Answers I m a`: from every state with I the answer is a, and I is kept. The answer does not depend on the state: a
  memo table that holds only true entries is such a state.
- one rule for each construct: `pure`, `bind`, `map`, `mapM`, `modify`, `onFirst`, `onPart`; the rule of consequence is
  `pre` and `post`.
-/
import Mathlib.Tactic

namespace ConnectCoin.Lib

variable {σ α β : Type}

/-- from every state with P, the answer and the new state are in Q -/
def Triple (P : σ → Prop) (m : StateM σ α) (Q : α → σ → Prop) : Prop := ∀ s, P s → Q (m.run s).1 (m.run s).2

/-- the answer is a from every state with I, and I is kept -/
def Answers (I : σ → Prop) (m : StateM σ α) (a : α) : Prop := Triple I m fun b s => b = a ∧ I s

/-- a computation on the first part of a larger state -/
def onFirst {τ : Type} (m : StateM σ α) : StateM (σ × τ) α := fun s => ((m.run s.1).1, (m.run s.1).2, s.2)

/-- a computation on one member of a family of states -/
def onPart {τ : Type} [DecidableEq τ] (t : τ) (m : StateM σ α) : StateM (τ → σ) α :=
  fun s => ((m.run (s t)).1, Function.update s t (m.run (s t)).2)

namespace Triple

variable {P : σ → Prop} {Q : α → σ → Prop} {m : StateM σ α}

theorem pure {a : α} (h : ∀ s, P s → Q a s) : Triple P (Pure.pure a) Q := h

theorem bind {k : α → StateM σ β} {R : β → σ → Prop} (hm : Triple P m Q) (hk : ∀ a, Triple (Q a) (k a) R) :
    Triple P (m >>= k) R := by
  intro s hs
  exact hk _ _ (hm s hs)

theorem pre {P' : σ → Prop} (hm : Triple P m Q) (h : ∀ s, P' s → P s) : Triple P' m Q := by
  intro s hs
  exact hm s (h s hs)

theorem post {Q R : α → σ → Prop} (hm : Triple P m Q) (h : ∀ a s, Q a s → R a s) : Triple P m R := by
  intro s hs
  exact h _ _ (hm s hs)

theorem modify {f : σ → σ} {Q : σ → Prop} (h : ∀ s, P s → Q (f s)) : Triple P (modify f) fun _ s => Q s := h

/-- A part of the precondition that does not speak about the state. -/
theorem of_fact {p : Prop} (h : p → Triple P m Q) : Triple (fun s => p ∧ P s) m Q := by
  intro s hs
  exact h hs.1 s hs.2

theorem onFirst {τ : Type} (hm : Triple P m Q) (F : τ → Prop) :
    Triple (fun s => P s.1 ∧ F s.2) (onFirst m) fun a s => Q a s.1 ∧ F s.2 := by
  intro s hs
  exact ⟨hm s.1 hs.1, hs.2⟩

end Triple

namespace Answers

variable {I : σ → Prop}

theorem pure {a : α} : Answers I (Pure.pure a) a := by
  apply Triple.pure
  intro s hs
  exact ⟨rfl, hs⟩

theorem bind {m : StateM σ α} {k : α → StateM σ β} {a : α} {b : β} (hm : Answers I m a) (hk : Answers I (k a) b) :
    Answers I (m >>= k) b := by
  refine Triple.bind hm fun a' => Triple.of_fact ?_
  intro ha
  rw [ha]
  exact hk

theorem map {m : StateM σ α} {f : α → β} {a : α} (hm : Answers I m a) : Answers I (f <$> m) (f a) := by
  intro s hs
  obtain ⟨ha, hI⟩ := hm s hs
  exact ⟨congrArg f ha, hI⟩

/-- Members of a family answer each for itself. -/
theorem onPart {τ : Type} [DecidableEq τ] {t : τ} {m : StateM σ α} {a : α} (hm : Answers I m a) :
    Answers (fun s : τ → σ => ∀ t, I (s t)) (onPart t m) a := by
  intro s hs
  obtain ⟨ha, hI⟩ := hm (s t) (hs t)
  refine ⟨ha, ?_⟩
  intro t'
  change I (Function.update s t (m.run (s t)).2 t')
  by_cases h : t' = t
  · rw [h, Function.update_self]
    exact hI
  · rw [Function.update_of_ne h]
    exact hs t'

/-- Calls that answer one by one answer as a whole history. -/
theorem mapM {f : α → StateM σ β} {g : α → β} {xs : List α} (h : ∀ x ∈ xs, Answers I (f x) (g x)) :
    Answers I (xs.mapM f) (xs.map g) := by
  induction xs with
  | nil => exact Answers.pure
  | cons x xs ih =>
    have hxs := ih fun y hy => h y (List.mem_cons_of_mem x hy)
    rw [List.mapM_cons]
    exact Answers.bind (h x List.mem_cons_self) (Answers.bind hxs Answers.pure)

end Answers

end ConnectCoin.Lib
