/-
Programs that call an interface. GENERAL: the calls `C β` with their answers in β, the states σ and the errors ε are
arbitrary.

- `Calls C ε α`: a program. It ends with a value or an error, or it makes a call and goes on with the answer.
- `Handler C σ`: an implementation of the interface on states σ. `run` is the program against it, `log` the calls made
  and their answers.
- `exec`: the value and the state behind the program, or its error; one equation for each construct.
- `Ends handle P m Q`: from every state with P, m ends in Q or with an error. One rule for each construct: `done`,
  `fail`, `call`, `bind`, `lift`, `foldlM`; `mono` is the rule of consequence.
Results: `run_sim`, `log_sim`: no program tells two handlers apart that simulate each other.
-/
import Mathlib.Tactic

namespace ConnectCoin.Lib

variable {C : Type → Type} {ε α β σ τ : Type}

/-- a program that calls an interface -/
inductive Calls (C : Type → Type) (ε α : Type) : Type 1 where
  | done (a : α)
  | fail (e : ε)
  | call {β : Type} (c : C β) (k : β → Calls C ε α)

/-- an implementation of the interface -/
def Handler (C : Type → Type) (σ : Type) := ∀ β : Type, C β → σ → β × σ

/-- a call and its answer -/
abbrev Answered (C : Type → Type) := Σ β : Type, C β × β

namespace Calls

def bind : Calls C ε α → (α → Calls C ε β) → Calls C ε β
  | .done a, f => f a
  | .fail e, _ => .fail e
  | .call c k, f => .call c fun b => (k b).bind f

instance : Monad (Calls C ε) where
  pure := .done
  bind := Calls.bind

/-- one call -/
def ask (c : C β) : Calls C ε β := .call c .done

/-- a computation that makes no call -/
def lift : Except ε α → Calls C ε α
  | .ok a => .done a
  | .error e => .fail e

/-- the program against an implementation -/
def run (handle : Handler C σ) : Calls C ε α → σ → Except ε α × σ
  | .done a, s => (.ok a, s)
  | .fail e, s => (.error e, s)
  | .call c k, s => (k (handle _ c s).1).run handle (handle _ c s).2

/-- the calls that the program makes, with their answers -/
def log (handle : Handler C σ) : Calls C ε α → σ → List (Answered C)
  | .done _, _ => []
  | .fail _, _ => []
  | .call c k, s => ⟨_, c, (handle _ c s).1⟩ :: (k (handle _ c s).1).log handle (handle _ c s).2

theorem run_bind (handle : Handler C σ) (m : Calls C ε α) (f : α → Calls C ε β) (s : σ) :
    (m >>= f).run handle s = match m.run handle s with
      | (.ok a, t) => (f a).run handle t
      | (.error e, t) => (.error e, t) := by
  induction m generalizing s with
  | done a => rfl
  | fail e => rfl
  | call c k ih => exact ih _ _

theorem run_lift (handle : Handler C σ) (x : Except ε α) (s : σ) : (lift x : Calls C ε α).run handle s = (x, s) := by
  cases x <;> rfl

/-! ## Value and state -/

/-- the value of the program and the state behind it, or its error -/
def exec (handle : Handler C σ) (m : Calls C ε α) (s : σ) : Except ε (α × σ) :=
  (·, (m.run handle s).2) <$> (m.run handle s).1

section
variable {γ : Type} (handle : Handler C σ) (s : σ)

theorem exec_pure (a : α) : (pure a : Calls C ε α).exec handle s = pure (a, s) := rfl

theorem exec_ask (c : C β) : (ask c : Calls C ε β).exec handle s = pure (handle _ c s) := rfl

theorem exec_lift (x : Except ε α) : (lift x : Calls C ε α).exec handle s = (·, s) <$> x := by
  cases x <;> rfl

theorem exec_bind (m : Calls C ε α) (f : α → Calls C ε β) :
    (m >>= f).exec handle s = m.exec handle s >>= fun r => (f r.1).exec handle r.2 := by
  unfold exec
  rw [run_bind]
  rcases m.run handle s with ⟨e | a, t⟩ <;> rfl

theorem exec_foldlM (f : α → γ → Calls C ε α) (xs : List γ) (a : α) :
    (xs.foldlM f a).exec handle s = xs.foldlM (fun r x => (f r.1 x).exec handle r.2) (a, s) := by
  induction xs generalizing a s with
  | nil => rfl
  | cons x xs ih =>
    rw [List.foldlM_cons, List.foldlM_cons, exec_bind]
    exact bind_congr fun r => ih r.2 r.1

/-- A loop whose turns leave the state. -/
theorem exec_turns {f : α → γ → Calls C ε α} {g : α → γ → α}
    (h : ∀ a x, (f a x).exec handle s = pure (g a x, s)) (xs : List γ) (a : α) :
    (xs.foldlM f a).exec handle s = pure (xs.foldl g a, s) := by
  induction xs generalizing a with
  | nil => rfl
  | cons x xs ih =>
    rw [List.foldlM_cons, exec_bind, h a x]
    exact ih (g a x)

end

/-! ## Two implementations -/

/-- the implementations answer alike, from states in R to states in R -/
def Simulates (R : σ → τ → Prop) (handle : Handler C σ) (other : Handler C τ) : Prop :=
  ∀ (β : Type) (c : C β) s t, R s t → (handle β c s).1 = (other β c t).1 ∧ R (handle β c s).2 (other β c t).2

section
variable {R : σ → τ → Prop} {handle : Handler C σ} {other : Handler C τ}

theorem run_sim (hsim : Simulates R handle other) (m : Calls C ε α) {s : σ} {t : τ} (h : R s t) :
    (m.run handle s).1 = (m.run other t).1 ∧ R (m.run handle s).2 (m.run other t).2 := by
  induction m generalizing s t with
  | done a => exact ⟨rfl, h⟩
  | fail e => exact ⟨rfl, h⟩
  | call c k ih =>
    obtain ⟨hanswer, hnext⟩ := hsim _ c s t h
    rw [run, run, hanswer]
    exact ih _ hnext

theorem log_sim (hsim : Simulates R handle other) (m : Calls C ε α) {s : σ} {t : τ} (h : R s t) :
    m.log handle s = m.log other t := by
  induction m generalizing s t with
  | done a => rfl
  | fail e => rfl
  | call c k ih =>
    obtain ⟨hanswer, hnext⟩ := hsim _ c s t h
    rw [log, log, hanswer, ih _ hnext]

end

/-! ## Postconditions -/

/-- from every state with P, the program ends in Q or with an error -/
def Ends (handle : Handler C σ) (P : σ → Prop) (m : Calls C ε α) (Q : α → σ → Prop) : Prop :=
  ∀ s, P s → ∀ a t, m.run handle s = (.ok a, t) → Q a t

namespace Ends

variable {handle : Handler C σ} {P : σ → Prop} {Q : α → σ → Prop} {m : Calls C ε α}

theorem pure {a : α} (h : ∀ s, P s → Q a s) : Ends handle P (Pure.pure a : Calls C ε α) Q := by
  intro s hs a' t hrun
  cases hrun
  exact h s hs

theorem fail {e : ε} : Ends handle P (.fail e) Q := by
  intro s _ a t hrun
  cases hrun

theorem ask {c : C β} {Q : β → σ → Prop} (h : ∀ s, P s → Q (handle _ c s).1 (handle _ c s).2) :
    Ends handle P (Calls.ask c : Calls C ε β) Q := by
  intro s hs a t hrun
  cases hrun
  exact h s hs

theorem lift {x : Except ε α} (h : ∀ a, x = .ok a → ∀ s, P s → Q a s) : Ends handle P (Calls.lift x) Q := by
  intro s hs a t hrun
  rw [run_lift] at hrun
  obtain ⟨hx, rfl⟩ := Prod.mk.inj hrun
  exact h a hx s hs

theorem bind {f : α → Calls C ε β} {M : α → σ → Prop} {Q : β → σ → Prop} (hm : Ends handle P m M)
    (hf : ∀ a, Ends handle (M a) (f a) Q) : Ends handle P (m >>= f) Q := by
  intro s hs b t hrun
  rw [run_bind] at hrun
  cases hfirst : m.run handle s with
  | mk r mid =>
    rw [hfirst] at hrun
    cases r with
    | ok a => exact hf a mid (hm s hs a mid hfirst) b t hrun
    | error e => cases hrun

/-- Nothing is done. -/
theorem skip {a : α} : Ends handle P (Pure.pure a : Calls C ε α) fun _ => P := pure fun _ hs => hs

/-- A computation that makes no call comes first. -/
theorem lift_bind {x : Except ε α} {f : α → Calls C ε β} {Q : β → σ → Prop} (hf : ∀ a, Ends handle P (f a) Q) :
    Ends handle P (Calls.lift x >>= f) Q := bind (lift fun _ _ _ hs => hs) hf

theorem mono {P' : σ → Prop} {Q' : α → σ → Prop} (hm : Ends handle P m Q) (hP : ∀ s, P' s → P s)
    (hQ : ∀ a s, Q a s → Q' a s) : Ends handle P' m Q' := by
  intro s hs a t hrun
  exact hQ a t (hm s (hP s hs) a t hrun)

/-- A loop: I at the items that are left. -/
theorem foldlM {γ : Type} {f : α → γ → Calls C ε α} {I : List γ → α → σ → Prop}
    (h : ∀ x xs a, Ends handle (I (x :: xs) a) (f a x) (I xs)) (xs : List γ) (a : α) :
    Ends handle (I xs a) (xs.foldlM f a) (I []) := by
  induction xs generalizing a with
  | nil => exact Ends.pure fun s hs => hs
  | cons x xs ih =>
    rw [List.foldlM_cons]
    exact Ends.bind (h x xs a) ih

/-- A program that leaves the state as it is. -/
theorem of_exec {s : σ} {x : Except ε α} (h : m.exec handle s = (·, s) <$> x) :
    Ends handle (· = s) m fun a t => t = s ∧ x = .ok a := by
  rintro _ rfl a t hrun
  rw [exec, hrun] at h
  cases x with
  | error e => cases h
  | ok b =>
    cases h
    exact ⟨rfl, rfl⟩

/-- One state after the other. -/
theorem of_state (h : ∀ t, P t → Ends handle (· = t) m Q) : Ends handle P m Q := by
  intro s hs a t hrun
  exact h s hs s rfl a t hrun

end Ends

end Calls

end ConnectCoin.Lib
