/-
Machines that take one action after the other. GENERAL: the states σ and the actions α are arbitrary.

- a machine is a function `step : σ → α → Option σ`; none where the action cannot be taken.
- `runs step s as`: the state behind a list of actions.
Results: `runs_keep`: what the steps of a run keep, the run keeps, and `runs_inv` for every step; `runs_append`: a run
in two parts.
-/
import Mathlib.Tactic

namespace ConnectCoin.Lib

open List Option

universe u v

variable {σ : Type u} {α : Type v} {step : σ → α → Option σ}

/-- the state behind a list of actions -/
def runs (step : σ → α → Option σ) (s : σ) (as : List α) : Option σ := as.foldlM step s

theorem runs_cons {s t : σ} {a : α} {as : List α} :
    runs step s (a :: as) = some t ↔ ∃ m, step s a = some m ∧ runs step m as = some t := by
  rw [runs, foldlM_cons, bind_eq_bind, bind_eq_some_iff]
  rfl

theorem runs_append {s m t : σ} {as bs : List α} (has : runs step s as = some m) (hbs : runs step m bs = some t) :
    runs step s (as ++ bs) = some t := by
  rw [runs, foldlM_append, bind_eq_bind, bind_eq_some_iff]
  exact ⟨m, has, hbs⟩

/-- What the steps of a run keep, the run keeps. -/
theorem runs_keep {I : σ → Prop} {as : List α} (hstep : ∀ a ∈ as, ∀ s t, I s → step s a = some t → I t) {s t : σ}
    (hs : I s) (h : runs step s as = some t) : I t := by
  induction as generalizing s with
  | nil =>
    obtain rfl : s = t := some_inj.1 h
    exact hs
  | cons a as ih =>
    obtain ⟨m, hm, hrest⟩ := runs_cons.1 h
    exact ih (fun b hb => hstep b (mem_cons_of_mem _ hb)) (hstep a mem_cons_self s m hs hm) hrest

/-- What every step keeps, every run keeps. -/
theorem runs_inv {I : σ → Prop} (hstep : ∀ s a t, I s → step s a = some t → I t) {s t : σ} {as : List α} (hs : I s)
    (h : runs step s as = some t) : I t := runs_keep (fun a _ s t => hstep s a t) hs h

end ConnectCoin.Lib
