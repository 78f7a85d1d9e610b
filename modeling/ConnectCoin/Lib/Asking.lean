/-
Computations that ask their surroundings at each point whether they may go on. GENERAL: the state σ is arbitrary.

- `Answer`: go on, stop, or an exception. A question with no answer left is answered `go`.
- `Asking σ α`: a computation on σ and the answers to come. One that halts keeps what it did to the state.
- `Runs calm P m Q R`: from every state with P, m ends in Q, or halts in R. If calm holds, the answers to come are all
  `go`, so that a question halts only where calm fails: with calm := True, R false says that nothing else halts m.
- one rule for each construct: `pure`, `bind`, `ask`, `act`, `here`, `halt`, `recover`, `forM`; `mono` is the rule of
  consequence.
-/
import Mathlib.Tactic

namespace ConnectCoin.Lib

/-- what the surroundings say where they are asked -/
inductive Answer where
  | go
  | stop
  | raise
  deriving DecidableEq

/-- why a computation ended early: it gave up, or an exception went through it -/
inductive Halt where
  | no
  | exception
  deriving DecidableEq

/-- a computation on a state, with the answers to come -/
def Asking (σ α : Type) := σ × List Answer → Except Halt α × (σ × List Answer)

namespace Asking

variable {σ α β : Type}

/-- the second computation does not begin where the first halts -/
instance : Monad (Asking σ) where
  pure a := fun s => (.ok a, s)
  bind m k := fun s =>
    match m s with
    | (.ok a, s') => k a s'
    | (.error e, s') => (.error e, s')

/-- one question -/
def ask : Asking σ Unit := fun s =>
  match s.2 with
  | [] => (.ok (), s)
  | .go :: rest => (.ok (), s.1, rest)
  | .stop :: rest => (.error .no, s.1, rest)
  | .raise :: rest => (.error .exception, s.1, rest)

def act (f : σ → σ) : Asking σ Unit := fun s => (.ok (), f s.1, s.2)

def here : Asking σ σ := fun s => (.ok s.1, s)

def halt (e : Halt) : Asking σ α := fun s => (.error e, s)

/-- go on with k where m halted -/
def recover (m : Asking σ α) (k : Halt → Asking σ α) : Asking σ α := fun s =>
  match m s with
  | (.ok a, s') => (.ok a, s')
  | (.error e, s') => k e s'

/-- no question will be answered otherwise -/
def Quiet (answers : List Answer) : Prop := ∀ a ∈ answers, a = .go

/-- how m ends, from every state with P -/
def Runs (calm : Prop) (P : σ → Prop) (m : Asking σ α) (Q : α → σ → Prop) (R : Halt → σ → Prop) : Prop :=
  ∀ s, P s.1 → (calm → Quiet s.2) → (calm → Quiet (m s).2.2) ∧ match (m s).1 with
    | .ok a => Q a (m s).2.1
    | .error e => R e (m s).2.1

namespace Runs

variable {calm : Prop} {P : σ → Prop} {R : Halt → σ → Prop} {Q : α → σ → Prop} {m : Asking σ α}

theorem pure {a : α} (h : ∀ s, P s → Q a s) : Runs calm P (Pure.pure a) Q R :=
  fun s hs hcalm => ⟨hcalm, h s.1 hs⟩

theorem bind {k : α → Asking σ β} {M : α → σ → Prop} {Q : β → σ → Prop} (hm : Runs calm P m M R)
    (hk : ∀ a, Runs calm (M a) (k a) Q R) : Runs calm P (m >>= k) Q R := by
  intro s hs hcalm
  obtain ⟨hquiet, hend⟩ := hm s hs hcalm
  simp only [Bind.bind]
  cases hrun : m s with
  | mk r s' =>
    rw [hrun] at hquiet hend
    cases r with
    | ok a => exact hk a s' hend hquiet
    | error e => exact ⟨hquiet, hend⟩

theorem mono {P' : σ → Prop} {Q Q' : α → σ → Prop} {R' : Halt → σ → Prop} (hm : Runs calm P m Q R)
    (hP : ∀ s, P' s → P s) (hQ : ∀ a s, Q a s → Q' a s) (hR : ∀ e s, R e s → R' e s) : Runs calm P' m Q' R' := by
  intro s hs hcalm
  obtain ⟨hquiet, hend⟩ := hm s (hP s.1 hs) hcalm
  refine ⟨hquiet, ?_⟩
  cases hrun : (m s).1 with
  | ok a =>
    rw [hrun] at hend
    exact hQ a _ hend
  | error e =>
    rw [hrun] at hend
    exact hR e _ hend

/-- A question leaves the state as it was, and halts only where not all is calm. -/
theorem ask (h : ∀ e s, P s → ¬ calm → R e s) : Runs calm P ask (fun _ => P) R := by
  intro s hs hcalm
  obtain ⟨t, answers⟩ := s
  cases answers with
  | nil => exact ⟨hcalm, hs⟩
  | cons a rest =>
    have hrest : calm → Quiet rest := fun hc b hb => hcalm hc b (List.mem_cons_of_mem a hb)
    have hloud : a ≠ .go → ¬ calm := fun ha hc => ha (hcalm hc a List.mem_cons_self)
    cases a with
    | go => exact ⟨hrest, hs⟩
    | stop => exact ⟨hrest, h .no t hs (hloud (by simp))⟩
    | raise => exact ⟨hrest, h .exception t hs (hloud (by simp))⟩

theorem act {f : σ → σ} {Q : Unit → σ → Prop} (h : ∀ s, P s → Q () (f s)) : Runs calm P (act f) Q R :=
  fun s hs hcalm => ⟨hcalm, h s.1 hs⟩

/-- What is read is the state. -/
theorem here {k : σ → Asking σ α} (h : ∀ t, P t → Runs calm (· = t) (k t) Q R) :
    Runs calm P (here >>= k) Q R := fun s hs hcalm => h s.1 hs s rfl hcalm

theorem halt {e : Halt} (h : ∀ s, P s → R e s) : Runs calm P (halt e) Q R :=
  fun s hs hcalm => ⟨hcalm, h s.1 hs⟩

theorem recover {k : Halt → Asking σ α} {R' : Halt → σ → Prop} (hm : Runs calm P m Q R)
    (hk : ∀ e, Runs calm (R e) (k e) Q R') : Runs calm P (m.recover k) Q R' := by
  intro s hs hcalm
  obtain ⟨hquiet, hend⟩ := hm s hs hcalm
  unfold Asking.recover
  cases hrun : m s with
  | mk r s' =>
    rw [hrun] at hquiet hend
    cases r with
    | ok a => exact ⟨hquiet, hend⟩
    | error e => exact hk e s' hend hquiet

/-- A loop: I at the entries that are left. -/
theorem forM {f : β → Asking σ Unit} {I : List β → σ → Prop}
    (h : ∀ x xs, Runs calm (I (x :: xs)) (f x) (fun _ => I xs) R) (xs : List β) :
    Runs calm (I xs) (xs.forM f) (fun _ => I []) R := by
  induction xs with
  | nil => exact Runs.pure fun s hs => hs
  | cons x xs ih => exact Runs.bind (h x xs) fun _ => ih

/-- A part of the precondition that does not speak about the state. -/
theorem of_fact {p : Prop} (h : p → Runs calm P m Q R) :
    Runs calm (fun s => p ∧ P s) m Q R := fun s hs hcalm => h hs.1 s hs.2 hcalm

/-- A precondition with a witness. -/
theorem of_exists {ι : Type} {P : ι → σ → Prop} (h : ∀ i, Runs calm (P i) m Q R) :
    Runs calm (fun s => ∃ i, P i s) m Q R := fun s hs hcalm => hs.elim fun i hi => h i s hi hcalm

end Runs

end Asking

end ConnectCoin.Lib
