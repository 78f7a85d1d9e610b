/-
Loops that stop at their first failure. GENERAL: a loop body is `f : σ → α → Except ε σ`, the loop is `List.foldlM f`.

- `refuseIf`: a guard; `bind_ok`, `refuseIf_ok` take a sequence of them apart.
- `accepted f s xs`: the items processed before the first failure.
- `AllOk Ok as xs`: every item of xs is acceptable after the items before it, the first ones being as.
Result: `foldlM_track`. Where the state is a function g of the items processed so far, the loop is determined by
`AllOk`; the body's own specification (an iff) is all it needs. `accepted_track` is the same for a loop that may fail.
`foldlM_trace`: a loop that ends well is a `Trace` of the steps that its body makes, under an invariant that the body
keeps.
-/
import Mathlib.Tactic

namespace ConnectCoin.Lib

open List

variable {σ α ε : Type}

/-- the items processed before the first failure -/
def accepted (f : σ → α → Except ε σ) : σ → List α → List α
  | _, [] => []
  | s, x :: xs =>
    match f s x with
    | .ok t => x :: accepted f t xs
    | .error _ => []

/-- fail with e if c holds -/
def refuseIf (c : Bool) (e : ε) : Except ε Unit := if c then .error e else .ok ()

variable {Ok : List α → α → Prop} {β τ ε' : Type} {f : α → Option β} {ys : List β} {e : ε}

theorem refuseIf_ok {c : Bool} {u : Unit} : refuseIf c e = .ok u ↔ c = false := by
  cases c <;> simp [refuseIf]

variable {x : Except ε α} {xs : List α}

theorem bind_ok {f : α → Except ε σ} {t : σ} : (x >>= f) = .ok t ↔ ∃ a, x = .ok a ∧ f a = .ok t := by
  cases x with
  | error e => simp [bind, Except.bind]
  | ok a => simp [bind, Except.bind]

theorem mapError_ok {f : ε → ε'} {a : α} : x.mapError f = .ok a ↔ x = .ok a := by
  cases x with
  | error e => simp [Except.mapError]
  | ok b => simp [Except.mapError]

/-- A guard in front of a computation. -/
theorem refuseIf_error {c : Bool} {e' : ε} : refuseIf c e = .error e' ↔ c = true ∧ e = e' := by
  cases c <;> simp [refuseIf]

theorem bind_error {f : α → Except ε σ} : (x >>= f) = .error e ↔ x = .error e ∨ ∃ a, x = .ok a ∧ f a = .error e := by
  cases x with
  | error e' => simp [bind, Except.bind]
  | ok a => simp [bind, Except.bind]

theorem mapError_error {f : ε → ε'} {e : ε'} : x.mapError f = .error e ↔ ∃ e', x = .error e' ∧ f e' = e := by
  cases x with
  | error e' => simp [Except.mapError]
  | ok a => simp [Except.mapError]

theorem exists_ok (h : x.isOk = true) : ∃ a, x = .ok a := by
  cases x with
  | error e => cases h
  | ok a => exact ⟨a, rfl⟩

theorem exists_ok_and {P : α → Prop} [DecidablePred P] (h : x.toOption.any P = true) : ∃ a, x = .ok a ∧ P a := by
  cases x with
  | error e => cases h
  | ok a => exact ⟨a, rfl, of_decide_eq_true h⟩

theorem bind_mapError (x : Except ε σ) (f : σ → Except ε τ) (φ : ε → ε') :
    (x >>= f).mapError φ = x.mapError φ >>= fun a => (f a).mapError φ := by
  cases x <;> rfl

theorem bind_congr_ok {x : Except ε α} {f g : α → Except ε σ} (h : ∀ a, x = .ok a → f a = g a) : x >>= f = x >>= g := by
  cases x with
  | error e => rfl
  | ok a => exact h a rfl

/-- A list is mapped if each of its items is. -/
theorem mapM_eq_ok {f : α → Except ε β} : xs.mapM f = .ok ys ↔ List.Forall₂ (fun x y => f x = .ok y) xs ys := by
  induction xs generalizing ys with
  | nil => simp [pure, Except.pure, eq_comm]
  | cons x xs ih =>
    rw [mapM_cons, bind_ok, List.forall₂_cons_left_iff]
    apply exists_congr
    intro y
    rw [bind_ok]
    apply Iff.intro
    · rintro ⟨hy, rest, hrest, h⟩
      cases h
      exact ⟨rest, hy, ih.1 hrest, rfl⟩
    · rintro ⟨rest, hy, hrest, rfl⟩
      exact ⟨hy, rest, ih.2 hrest, rfl⟩

theorem mapM_eq_some : xs.mapM f = some ys ↔ List.Forall₂ (fun x y => f x = some y) xs ys := by
  induction xs generalizing ys with
  | nil => simp [eq_comm]
  | cons x xs ih =>
    simp only [mapM_cons, Option.pure_def, Option.bind_eq_bind, Option.bind_eq_some_iff, Option.some.injEq,
      List.forall₂_cons_left_iff, ih]
    apply exists_congr
    intro y
    apply Iff.intro
    · rintro ⟨hy, rest, hrest, rfl⟩
      exact ⟨rest, hy, hrest, rfl⟩
    · rintro ⟨rest, hy, hrest, rfl⟩
      exact ⟨hy, rest, hrest, rfl⟩

theorem exists_mapM_eq_some (h : ∀ x ∈ xs, ∃ y, f x = some y) : ∃ ys, xs.mapM f = some ys := by
  induction xs with
  | nil => exact ⟨[], rfl⟩
  | cons x xs ih =>
    obtain ⟨y, hy⟩ := h x mem_cons_self
    obtain ⟨ys, hys⟩ := ih fun x' hx => h x' (mem_cons_of_mem x hx)
    exact ⟨y :: ys, mapM_eq_some.2 (.cons hy (mapM_eq_some.1 hys))⟩

theorem exists_of_mem_mapM (h : xs.mapM f = some ys) {y : β} (hy : y ∈ ys) : ∃ x ∈ xs, f x = some y := by
  have hall := mapM_eq_some.1 h
  clear h
  induction hall with
  | nil => cases hy
  | cons hx _ ih =>
    rcases mem_cons.1 hy with rfl | hy
    · exact ⟨_, mem_cons_self, hx⟩
    · obtain ⟨x, hin, hx⟩ := ih hy
      exact ⟨x, mem_cons_of_mem _ hin, hx⟩

theorem mapM_congr {g : α → Option β} (h : ∀ x ∈ xs, f x = g x) : xs.mapM f = xs.mapM g := by
  induction xs with
  | nil => rfl
  | cons x xs ih =>
    have hxs := ih fun x' hx => h x' (mem_cons_of_mem x hx)
    rw [mapM_cons, mapM_cons, h x mem_cons_self, hxs]

theorem mapM_ok {f : α → Except ε β} {g : α → β} (h : ∀ x ∈ xs, f x = .ok (g x)) : xs.mapM f = .ok (xs.map g) := by
  induction xs with
  | nil => rfl
  | cons x xs ih =>
    obtain ⟨hx, hxs⟩ := forall_mem_cons.1 h
    rw [mapM_cons, hx, ih hxs]
    rfl

theorem ite_error_ok {c : Prop} [Decidable c] {x : Except ε σ} {t : σ} :
    (if c then .error e else x) = .ok t ↔ ¬ c ∧ x = .ok t := by
  by_cases hc : c
  · simp [hc]
  · simp [hc]

theorem foldlM_cons_ok {f : σ → α → Except ε σ} {s t : σ} {x : α} :
    (x :: xs).foldlM f s = .ok t ↔ ∃ m, f s x = .ok m ∧ xs.foldlM f m = .ok t := by
  rw [foldlM_cons]
  cases f s x with
  | error e => simp [bind, Except.bind]
  | ok m => simp [bind, Except.bind]

theorem accepted_eq_self {f : σ → α → Except ε σ} {s t : σ} (h : xs.foldlM f s = .ok t) : accepted f s xs = xs := by
  induction xs generalizing s with
  | nil => rfl
  | cons x xs ih =>
    obtain ⟨m, hx, hxs⟩ := foldlM_cons_ok.1 h
    rw [accepted, hx]
    exact congrArg (x :: ·) (ih hxs)

theorem accepted_isInitial (f : σ → α → Except ε σ) (s : σ) (xs : List α) : accepted f s xs <+: xs := by
  induction xs generalizing s with
  | nil => exact prefix_rfl
  | cons x xs ih =>
    rw [accepted]
    cases f s x with
    | error e => exact nil_prefix
    | ok t => exact (cons_prefix_cons.2 ⟨rfl, ih t⟩)

theorem foldlM_accepted (f : σ → α → Except ε σ) (s : σ) (xs : List α) : ∃ t, (accepted f s xs).foldlM f s = .ok t := by
  induction xs generalizing s with
  | nil => exact ⟨s, rfl⟩
  | cons x xs ih =>
    rw [accepted]
    cases hx : f s x with
    | error e => exact ⟨s, rfl⟩
    | ok m =>
      obtain ⟨t, ht⟩ := ih m
      exact ⟨t, foldlM_cons_ok.2 ⟨m, hx, ht⟩⟩

/-- each item is acceptable after those before it -/
def AllOk (Ok : List α → α → Prop) : List α → List α → Prop
  | _, [] => True
  | as, x :: xs => Ok as x ∧ AllOk Ok (as ++ [x]) xs

theorem AllOk.append {as xs ys : List α} : AllOk Ok as (xs ++ ys) ↔ AllOk Ok as xs ∧ AllOk Ok (as ++ xs) ys := by
  induction xs generalizing as with
  | nil => simp [AllOk]
  | cons x xs ih => simp [AllOk, ih, and_assoc]

theorem AllOk.get {as xs : List α} (h : AllOk Ok as xs) {i : ℕ} {x : α} (hx : xs[i]? = some x) :
    Ok (as ++ xs.take i) x := by
  induction xs generalizing as i with
  | nil => simp at hx
  | cons y xs ih =>
    cases i with
    | zero =>
      obtain rfl : y = x := Option.some_inj.1 hx
      simpa using h.1
    | succ i =>
      have hrest := ih h.2 hx
      simpa using hrest

theorem AllOk.of_get {as xs : List α} (h : ∀ i x, xs[i]? = some x → Ok (as ++ xs.take i) x) : AllOk Ok as xs := by
  induction xs generalizing as with
  | nil => trivial
  | cons y xs ih =>
    refine ⟨by simpa using h 0 y rfl, ih fun i x hx => ?_⟩
    simpa using h (i + 1) x hx

section
variable {f : σ → α → Except ε σ} {g : List α → σ} {I : List α → Prop} {Ok : List α → α → Prop}

/-- The loop succeeds iff every item is acceptable, and then its state is that of all items. -/
theorem foldlM_track (hstep : ∀ as x t, I as → (f (g as) x = .ok t ↔ Ok as x ∧ t = g (as ++ [x])))
    (hkeep : ∀ as x, I as → Ok as x → I (as ++ [x])) {as xs : List α} {t : σ} (hI : I as) :
    xs.foldlM f (g as) = .ok t ↔ AllOk Ok as xs ∧ t = g (as ++ xs) := by
  induction xs generalizing as with
  | nil => simp [AllOk, pure, Except.pure, eq_comm]
  | cons x xs ih =>
    rw [foldlM_cons_ok]
    constructor
    · rintro ⟨m, hm, ht⟩
      obtain ⟨hok, rfl⟩ := (hstep as x m hI).1 hm
      obtain ⟨hrest, rfl⟩ := (ih (hkeep as x hI hok)).1 ht
      exact ⟨⟨hok, hrest⟩, by simp⟩
    · rintro ⟨⟨hok, hrest⟩, rfl⟩
      refine ⟨_, (hstep as x _ hI).2 ⟨hok, rfl⟩, (ih (hkeep as x hI hok)).2 ⟨hrest, by simp⟩⟩

/-- An invariant that each acceptable item keeps. -/
theorem AllOk.keeps (hkeep : ∀ as x, I as → Ok as x → I (as ++ [x])) {as xs : List α} (hI : I as) (h : AllOk Ok as xs) :
    I (as ++ xs) := by
  induction xs generalizing as with
  | nil => simpa using hI
  | cons x xs ih =>
    have hnext := ih (hkeep as x hI h.1) h.2
    simpa using hnext

end

variable {f : σ → α → Except ε σ} {I : σ → Prop} {β : Type} {Step : σ → β → σ → Prop}

/-- What a failed loop failed with: under an invariant that the body keeps, every failure of the body has the
property. -/
theorem foldlM_error {Q : ε → Prop} {s : σ} {e : ε} (hkeep : ∀ s x t, x ∈ xs → I s → f s x = .ok t → I t)
    (hfail : ∀ s x e, x ∈ xs → I s → f s x = .error e → Q e) (hI : I s) (h : xs.foldlM f s = .error e) : Q e := by
  induction xs generalizing s with
  | nil => cases h
  | cons x xs ih =>
    rw [foldlM_cons, bind_error] at h
    rcases h with hfirst | ⟨t, ht, hrest⟩
    · exact hfail s x e mem_cons_self hI hfirst
    · exact ih (fun s y t hy => hkeep s y t (mem_cons_of_mem x hy)) (fun s y e hy => hfail s y e (mem_cons_of_mem x hy))
        (hkeep s x t mem_cons_self hI ht) hrest

theorem foldlM_mapError (f : σ → α → Except ε σ) (φ : ε → ε') (xs : List α) (s : σ) :
    (xs.foldlM f s).mapError φ = xs.foldlM (fun s x => (f s x).mapError φ) s := by
  induction xs generalizing s with
  | nil => rfl
  | cons x xs ih =>
    rw [foldlM_cons, foldlM_cons, bind_mapError]
    exact bind_congr ih

/-- A loop on states that stand for others. -/
theorem foldlM_encode {f : σ → α → Except ε σ} {g : τ → α → Except ε τ} (φ : σ → τ)
    (h : ∀ s x, g (φ s) x = φ <$> f s x) (xs : List α) (s : σ) : xs.foldlM g (φ s) = φ <$> xs.foldlM f s := by
  induction xs generalizing s with
  | nil => rfl
  | cons x xs ih =>
    rw [foldlM_cons, foldlM_cons, h s x, bind_map_left, map_bind]
    exact bind_congr ih

/-! ## Traces -/

/-- steps from one state to another, each with its label -/
inductive Trace {σ β : Type} (Step : σ → β → σ → Prop) : σ → List β → σ → Prop
  | nil (s : σ) : Trace Step s [] s
  | cons {s t u : σ} {b : β} {bs : List β} : Step s b t → Trace Step t bs u → Trace Step s (b :: bs) u

/-- A loop that ends well, step by step. -/
theorem foldlM_trace {item : β → α} {s t : σ}
    (hstep : ∀ s x t, x ∈ xs → I s → f s x = .ok t → I t ∧ ∃ b, item b = x ∧ Step s b t) (hI : I s)
    (h : xs.foldlM f s = .ok t) : I t ∧ ∃ bs, bs.map item = xs ∧ Trace Step s bs t := by
  induction xs generalizing s with
  | nil =>
    cases h
    exact ⟨hI, [], rfl, Trace.nil _⟩
  | cons x xs ih =>
    obtain ⟨m, hm, hrest⟩ := foldlM_cons_ok.1 h
    obtain ⟨hI', b, hb, hfirst⟩ := hstep s x m mem_cons_self hI hm
    obtain ⟨hIt, bs, hbs, htrace⟩ := ih (fun s x t hx => hstep s x t (mem_cons_of_mem _ hx)) hI' hrest
    exact ⟨hIt, b :: bs, by rw [map_cons, hb, hbs], Trace.cons hfirst htrace⟩

theorem Trace.relabel {γ : Type} {Step : σ → γ → σ → Prop} {g : β → γ} {s t : σ} {bs : List β}
    (h : Trace (fun s b t => Step s (g b) t) s bs t) : Trace Step s (bs.map g) t := by
  induction h with
  | nil s => exact Trace.nil s
  | cons hfirst _ ih => exact Trace.cons hfirst ih

/-- What every step says about its label. -/
theorem Trace.forall_mem {Q : β → Prop} (hstep : ∀ s b t, Step s b t → Q b) {s t : σ} {bs : List β}
    (h : Trace Step s bs t) : ∀ b ∈ bs, Q b := by
  induction h with
  | nil s => simp
  | cons hfirst _ ih => exact forall_mem_cons.2 ⟨hstep _ _ _ hfirst, ih⟩

end ConnectCoin.Lib
