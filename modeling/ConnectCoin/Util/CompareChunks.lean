/-
Comparing feerate diagrams (`util/feefrac.cpp`).

A list of chunks has a diagram: from the origin through the cumulative (size, fee) points, then horizontally on.
`CompareChunks` walks through the points of both diagrams by size, compares each with the line of the other diagram, and
remembers which side was above.

- `Cursor`: one side of the walk; `compareTurn`: a turn, given the side with the next point; `compareChunks`: the loop.
  Sums and differences are checked, none stands for a signed overflow.
- `diagram`: the function over the reals; `diagramOrder`: what the comparison is for.
- `FeeDifferencesFit`: every difference P - A that the walk takes, before it finds that the diagrams cross, has 64 bits.
Results:
- `Inv`: the two flags say which diagram was above at a breakpoint so far, and nothing between the breakpoints is above
  without a breakpoint being; `Inv.turn` keeps it, `compareLoop_eq` follows it to the end;
- `compareChunks_iff`: the result is the order of the diagrams exactly if the differences fit, which sums that fit do
  not ensure: `mixedSigns_overflow`.
-/
import ConnectCoin.Util.FeeFrac

namespace ConnectCoin

open Lib List Option

/-! ## Points -/

/-- `operator+` -/
def FeeFrac.add (a b : FeeFrac) : Option FeeFrac := do
  let fee ← i64 (a.fee + b.fee)
  let size ← i32 (a.size + b.size)
  return ⟨fee, size⟩

/-- `operator-` -/
def FeeFrac.sub (a b : FeeFrac) : Option FeeFrac := do
  let fee ← i64 (a.fee - b.fee)
  let size ← i32 (a.size - b.size)
  return ⟨fee, size⟩

/-- the exact sum -/
def FeeFrac.plus (a b : FeeFrac) : FeeFrac := ⟨a.fee + b.fee, a.size + b.size⟩

@[simp] theorem FeeFrac.plus_fee (a b : FeeFrac) : (a.plus b).fee = a.fee + b.fee := rfl

@[simp] theorem FeeFrac.plus_size (a b : FeeFrac) : (a.plus b).size = a.size + b.size := rfl

theorem FeeFrac.add_eq {a b : FeeFrac} (h : Signed 64 (b.plus a).fee ∧ Signed 32 (b.plus a).size) :
    a.add b = some (b.plus a) := by
  rw [FeeFrac.plus_fee, FeeFrac.plus_size, add_comm b.fee, add_comm b.size] at h
  simp only [FeeFrac.add, i64, i32, signed_of h.1, signed_of h.2, Option.bind_eq_bind, Option.bind_some,
    Option.pure_def, FeeFrac.plus, add_comm]

theorem FeeFrac.sub_eq {a b : FeeFrac} (hfee : Signed 64 (a.fee - b.fee)) (hsize : Signed 32 (a.size - b.size)) :
    a.sub b = some ⟨a.fee - b.fee, a.size - b.size⟩ := by
  simp only [FeeFrac.sub, i64, i32, signed_of hfee, signed_of hsize, Option.bind_eq_bind, Option.bind_some,
    Option.pure_def]

theorem FeeFrac.sub_overflow {a b : FeeFrac} (hfee : ¬ Signed 64 (a.fee - b.fee)) : a.sub b = none := by
  simp only [FeeFrac.sub, i64, signed, if_neg hfee, bind_eq_bind, bind_none]

namespace CompareChunks

/-! ## The walk -/

/-- `std::partial_ordering` -/
inductive PartialOrdering where
  | less
  | equivalent
  | greater
  | unordered
  deriving DecidableEq, Repr

/-- one input of the walk: the chunks behind `next_index`, `accum` and `better_somewhere` -/
structure Cursor where
  rest : List FeeFrac
  accum : FeeFrac
  better : Bool
  deriving DecidableEq

/-- a side that has no points left has slope 0, as if by `FeeFrac(0, 1)` -/
def TAIL_FEERATE : FeeFrac := ⟨0, 1⟩

/-- `advance`, and the side is found better -/
def Cursor.advance (d : Cursor) (point : FeeFrac) (better : Bool) : Cursor := ⟨d.rest.tail, point, d.better || better⟩

/-- a turn: `unproc` has the first unprocessed point P, the other side the points A and, unless it is done, B -/
def compareTurn (W : WideArith) (unproc other : Cursor) : Option (Cursor × Cursor) := do
  let chunk ← unproc.rest.head?
  let pointP ← chunk.add unproc.accum
  let slopeAP ← pointP.sub other.accum
  match other.rest with
  | [] =>
    let cmp ← byRatio W slopeAP TAIL_FEERATE
    return (unproc.advance pointP (cmp == .gt), { other with better := other.better || cmp == .lt })
  | next :: _ =>
    let pointB ← next.add other.accum
    let slopeAB ← pointB.sub other.accum
    let cmp ← byRatio W slopeAP slopeAB
    return (unproc.advance pointP (cmp == .gt),
      if pointB.size = pointP.size then other.advance pointB (cmp == .lt) else { other
      with better := other.better || cmp == .lt })

/-- the first side has the next point: it is the only one left, or its next point is not behind the other's -/
def firstIsNext (d₀ d₁ : Cursor) : Option Bool :=
  match d₀.rest, d₁.rest with
  | _, [] => some true
  | [], _ => some false
  | chunk₀ :: _, chunk₁ :: _ => do
    let next₀ ← chunk₀.add d₀.accum
    let next₁ ← chunk₁.add d₁.accum
    return !(next₀.size > next₁.size)

/-- `better_somewhere[0] <=> better_somewhere[1]` -/
def finalOrder (better₀ better₁ : Bool) : PartialOrdering :=
  match better₀, better₁ with
  | true, false => .greater
  | false, true => .less
  | _, _ => .equivalent

/-- a turn of the side that has the next point -/
def compareStep (W : WideArith) (d₀ d₁ : Cursor) : Option (Cursor × Cursor) := do
  if ← firstIsNext d₀ d₁ then compareTurn W d₀ d₁ else (compareTurn W d₁ d₀).map Prod.swap

/-- the loop; its argument bounds the turns left -/
def compareLoop (W : WideArith) : ℕ → Cursor → Cursor → Option PartialOrdering
  | turns, d₀, d₁ =>
    if d₀.rest = [] ∧ d₁.rest = [] then some (finalOrder d₀.better d₁.better)
    else match turns with
      | 0 => none
      | turns + 1 => do
        let (d₀, d₁) ← compareStep W d₀ d₁
        if d₀.better && d₁.better then return .unordered else compareLoop W turns d₀ d₁

/-- `CompareChunks` -/
def compareChunks (W : WideArith) (chunks₀ chunks₁ : List FeeFrac) : Option PartialOrdering :=
  compareLoop W (chunks₀.length + chunks₁.length) ⟨chunks₀, ⟨0, 0⟩, false⟩ ⟨chunks₁, ⟨0, 0⟩, false⟩

/-! ## Diagrams -/

def origin : FeeFrac := ⟨0, 0⟩

/-- the cumulative points behind a start -/
def pointsFrom (start : FeeFrac) : List FeeFrac → List FeeFrac
  | [] => []
  | c :: cs => start.plus c :: pointsFrom (start.plus c) cs

/-- the last of them -/
def sumFrom (start : FeeFrac) : List FeeFrac → FeeFrac
  | [] => start
  | c :: cs => sumFrom (start.plus c) cs

variable (cs : List FeeFrac)

def points : List FeeFrac := pointsFrom origin cs

/-- the line through the points behind a start, horizontal after the last -/
noncomputable def diagramFrom (start : FeeFrac) : List FeeFrac → ℝ → ℝ
  | [], _ => start.fee
  | c :: cs, x =>
    if x < start.size + c.size then start.fee + c.fee / c.size * (x - start.size) else diagramFrom (start.plus c) cs x

/-- the feerate diagram of a list of chunks -/
noncomputable def diagram : ℝ → ℝ := diagramFrom origin cs

open Classical in
/-- the order of two diagrams -/
noncomputable def diagramOrder (c₀ c₁ : List FeeFrac) : PartialOrdering :=
  if ∀ x ≥ 0, diagram c₀ x = diagram c₁ x then .equivalent
  else if ∀ x ≥ 0, diagram c₁ x ≤ diagram c₀ x then .greater
  else if ∀ x ≥ 0, diagram c₀ x ≤ diagram c₁ x then .less
  else .unordered

/-- chunks with positive sizes whose partial sums do not overflow -/
structure Chunks : Prop where
  positive : ∀ c ∈ cs, 0 < c.size
  fees : ∀ c ∈ cs, Signed 64 c.fee
  sums : ∀ p ∈ points cs, Signed 64 p.fee ∧ Signed 32 p.size

/-! ## What the walk compares -/

/-- a size at which one of the diagrams has a point -/
def Breakpoint (c₀ c₁ : List FeeFrac) (t : ℤ) : Prop :=
  t ∈ (points c₀).map FeeFrac.size ∨ t ∈ (points c₁).map FeeFrac.size

/-- below a size each diagram is above the other at some breakpoint -/
def CrossedBefore (c₀ c₁ : List FeeFrac) (s : ℤ) : Prop :=
  (∃ t < s, Breakpoint c₀ c₁ t ∧ diagram c₁ t < diagram c₀ t) ∧
    ∃ t < s, Breakpoint c₀ c₁ t ∧ diagram c₀ t < diagram c₁ t

/-- the last point of a diagram below a size -/
def lastBelow (s : ℤ) : FeeFrac := ((points cs).filter (·.size < s)).getLastD origin

/-- a point P of one diagram, and the last point A of the other one before it; of two points of one size the first
diagram's counts -/
def Compared (c₀ c₁ : List FeeFrac) (P A : FeeFrac) : Prop :=
  P ∈ points c₀ ∧ A = lastBelow c₁ P.size ∨ P ∈ points c₁ ∧ P.size ∉ (points c₀).map FeeFrac.size ∧
    A = lastBelow c₀ P.size

/-- as long as the diagrams have not crossed, the fee from A to P has 64 bits -/
def FeeDifferencesFit (c₀ c₁ : List FeeFrac) : Prop :=
  ∀ P A, Compared c₀ c₁ P A → ¬ CrossedBefore c₀ c₁ P.size → Signed 64 (P.fee - A.fee)

/-! ## Points and lines -/

theorem pointsFrom_append (start : FeeFrac) (as bs : List FeeFrac) :
    pointsFrom start (as ++ bs) = pointsFrom start as ++ pointsFrom (sumFrom start as) bs := by
  induction as generalizing start with
  | nil => rfl
  | cons a as ih => simp [pointsFrom, sumFrom, ih]

theorem sumFrom_append (start : FeeFrac) (as bs : List FeeFrac) :
    sumFrom start (as ++ bs) = sumFrom (sumFrom start as) bs := by
  induction as generalizing start with
  | nil => rfl
  | cons a as ih => simp [sumFrom, ih]

theorem getLastD_pointsFrom (start : FeeFrac) (cs : List FeeFrac) :
    (pointsFrom start cs).getLastD start = sumFrom start cs := by
  induction cs generalizing start with
  | nil => rfl
  | cons c cs ih => rw [pointsFrom, getLastD_cons, ih, sumFrom]

variable {cs}

theorem start_lt_pointsFrom {start : FeeFrac} (hpos : ∀ c ∈ cs, 0 < c.size) {p : FeeFrac}
    (hp : p ∈ pointsFrom start cs) : start.size < p.size := by
  induction cs generalizing start with
  | nil => simp [pointsFrom] at hp
  | cons c cs ih =>
    have hc := hpos c mem_cons_self
    rw [pointsFrom, mem_cons] at hp
    rcases hp with rfl | hp
    · rw [FeeFrac.plus_size]; omega
    · have hlt := ih (fun c' hc' => hpos c' (mem_cons_of_mem _ hc')) hp
      rw [FeeFrac.plus_size] at hlt
      omega

/-- Behind its first points a diagram is the diagram of the rest. -/
theorem diagramFrom_append {start : FeeFrac} {as bs : List FeeFrac} {x : ℝ}
    (h : ∀ p ∈ pointsFrom start as, (p.size : ℝ) ≤ x) :
    diagramFrom start (as ++ bs) x = diagramFrom (sumFrom start as) bs x := by
  induction as generalizing start with
  | nil => rfl
  | cons a as ih =>
    have ha : ((start.size + a.size : ℤ) : ℝ) ≤ x := h (start.plus a) mem_cons_self
    push_cast at ha
    rw [cons_append, diagramFrom, if_neg (not_lt.mpr ha), sumFrom]
    exact ih fun p hp => h p (mem_cons_of_mem _ hp)

theorem diagramFrom_start (start : FeeFrac) (hpos : ∀ c ∈ cs, 0 < c.size) :
    diagramFrom start cs start.size = start.fee := by
  cases cs with
  | nil => rfl
  | cons c cs =>
    have hc : (0 : ℝ) < c.size := by exact_mod_cast hpos c mem_cons_self
    rw [diagramFrom, if_pos (by linarith), sub_self, mul_zero, add_zero]

/-- Up to its next point a diagram is a line. -/
theorem diagramFrom_line {start c : FeeFrac} (hpos : ∀ k ∈ c :: cs, 0 < k.size) {x : ℝ}
    (hx : x ≤ start.size + c.size) : diagramFrom start (c :: cs) x = start.fee + c.fee / c.size * (x - start.size) := by
  have hc : (0 : ℝ) < c.size := by exact_mod_cast hpos c mem_cons_self
  rcases hx.lt_or_eq with hlt | heq
  · rw [diagramFrom, if_pos hlt]
  · have hend : x = ((start.plus c).size : ℝ) := by rw [heq, FeeFrac.plus_size]; push_cast; ring
    rw [diagramFrom, if_neg (by linarith), hend, diagramFrom_start _ fun k hk => hpos k (mem_cons_of_mem _ hk),
      FeeFrac.plus_fee, FeeFrac.plus_size]
    push_cast
    field_simp
    ring

/-- a line from m to s -/
def AffineOn (f : ℝ → ℝ) (m s : ℝ) : Prop := ∃ a b, ∀ x, m ≤ x → x ≤ s → f x = a + b * x

/-- Of two lines one is above the other only if it is so at an end. -/
theorem AffineOn.lt_at_end {f g : ℝ → ℝ} {m s x : ℝ} (hf : AffineOn f m s) (hg : AffineOn g m s)
    (hm : m ≤ x) (hs : x ≤ s) (hlt : g x < f x) : g m < f m ∨ g s < f s := by
  obtain ⟨a, b, hf⟩ := hf
  obtain ⟨a', b', hg⟩ := hg
  have hms := hm.trans hs
  by_contra hnot
  rw [not_or, not_lt, not_lt, hf m le_rfl hms, hg m le_rfl hms, hf s hms le_rfl, hg s hms le_rfl] at hnot
  obtain ⟨hleft, hright⟩ := hnot
  rw [hf x hm hs, hg x hm hs] at hlt
  have hsum := add_nonneg (mul_nonneg (sub_nonneg.mpr hs) (sub_nonneg.mpr hleft))
    (mul_nonneg (sub_nonneg.mpr hm) (sub_nonneg.mpr hright))
  have hscaled : (s - m) * (a + b * x - (a' + b' * x)) ≤ 0 := by linarith
  rcases hms.lt_or_eq with hwide | hpoint
  · exact absurd (mul_pos (sub_pos.mpr hwide) (sub_pos.mpr hlt)) (not_lt.mpr hscaled)
  · have hx : x = m := by linarith
    rw [hx] at hlt
    exact absurd hlt (not_lt.mpr hleft)

/-! ## One side of the walk -/

/-- a side after all points up to size m: the points behind are at most m, those ahead are beyond m -/
structure Walked (cs : List FeeFrac) (d : Cursor) (m : ℤ) : Prop where
  chunks : Chunks cs
  behind : ∃ done, cs = done ++ d.rest ∧ d.accum = sumFrom origin done ∧ ∀ p ∈ points done, p.size ≤ m
  accum_le : d.accum.size ≤ m
  accum_fits : Signed 64 d.accum.fee ∧ 0 ≤ d.accum.size
  ahead : ∀ p ∈ pointsFrom d.accum d.rest, m < p.size

/-- the slope of the diagram behind the last point -/
def Cursor.slope (d : Cursor) : FeeFrac := d.rest.headD TAIL_FEERATE

namespace Walked

variable {cs : List FeeFrac} {d : Cursor} {m : ℤ}

theorem rest_positive (h : Walked cs d m) : ∀ c ∈ d.rest, 0 < c.size := by
  obtain ⟨done, hcs, -, -⟩ := h.behind
  intro c hc
  exact h.chunks.positive c (by rw [hcs]; exact mem_append_right _ hc)

theorem mem_points (h : Walked cs d m) {p : FeeFrac} (hp : p ∈ pointsFrom d.accum d.rest) : p ∈ points cs := by
  obtain ⟨done, hcs, haccum, -⟩ := h.behind
  rw [points, hcs, pointsFrom_append, ← haccum]
  exact mem_append_right _ hp

/-- A point beyond m is still ahead. -/
theorem mem_ahead (h : Walked cs d m) {p : FeeFrac} (hp : p ∈ points cs) (hlt : m < p.size) :
    p ∈ pointsFrom d.accum d.rest := by
  obtain ⟨done, hcs, haccum, hbehind⟩ := h.behind
  rw [points, hcs, pointsFrom_append, ← haccum, mem_append] at hp
  exact hp.resolve_left fun hdone => absurd (hbehind p hdone) (not_le.mpr hlt)

theorem point_fits (h : Walked cs d m) {p : FeeFrac} (hp : p ∈ pointsFrom d.accum d.rest) :
    Signed 64 p.fee ∧ Signed 32 p.size := h.chunks.sums p (h.mem_points hp)

/-- From m to the next point the diagram is a line through the last point. -/
theorem value (h : Walked cs d m) {x : ℝ} (hm : (m : ℝ) ≤ x) (hnext : ∀ c ∈ d.rest.head?, x ≤ d.accum.size + c.size) :
    diagram cs x = d.accum.fee + d.slope.fee / d.slope.size * (x - d.accum.size) := by
  obtain ⟨done, hcs, haccum, hbehind⟩ := h.behind
  have hpos := h.rest_positive
  rw [diagram, hcs, diagramFrom_append fun p hp => (Int.cast_le.mpr (hbehind p hp)).trans hm, ← haccum, Cursor.slope]
  cases hrest : d.rest with
  | nil => simp [diagramFrom, TAIL_FEERATE]
  | cons c rest =>
    rw [hrest] at hpos hnext
    exact diagramFrom_line hpos (hnext c rfl)

theorem lastBelow_eq (h : Walked cs d m) {s : ℤ} (hs : m < s) (hahead : ∀ p ∈ pointsFrom d.accum d.rest, s ≤ p.size) :
    lastBelow cs s = d.accum := by
  obtain ⟨done, hcs, haccum, hbehind⟩ := h.behind
  have hdone : (pointsFrom origin done).filter (·.size < s) = pointsFrom origin done :=
    filter_eq_self.mpr fun p hp => decide_eq_true (lt_of_le_of_lt (hbehind p hp) hs)
  have hrest : (pointsFrom d.accum d.rest).filter (·.size < s) = [] :=
    filter_eq_nil_iff.mpr fun p hp => by simpa using hahead p hp
  rw [lastBelow, points, hcs, pointsFrom_append, ← haccum, filter_append, hdone, hrest, append_nil,
    getLastD_pointsFrom, haccum]

/-- The side that has a point at s goes on to it. -/
theorem advance (h : Walked cs d m) {c : FeeFrac} {rest : List FeeFrac} (hrest : d.rest = c :: rest) (better : Bool) :
    Walked cs (d.advance (d.accum.plus c) better) (d.accum.size + c.size) := by
  obtain ⟨done, hcs, haccum, hbehind⟩ := h.behind
  have hpos := h.rest_positive
  have hpoint : d.accum.plus c ∈ pointsFrom d.accum d.rest := by rw [hrest]; exact mem_cons_self
  have hbeyond := h.ahead _ hpoint
  rw [FeeFrac.plus_size] at hbeyond
  refine ⟨h.chunks, ⟨done ++ [c], ?_, ?_, ?_⟩, le_rfl, ⟨(h.point_fits hpoint).1, ?_⟩, ?_⟩
  · simp [Cursor.advance, hcs, hrest]
  · simp [Cursor.advance, sumFrom_append, ← haccum, sumFrom]
  · intro p hp
    rw [points, pointsFrom_append, ← haccum, mem_append] at hp
    rcases hp with hp | hp
    · exact (hbehind p hp).trans hbeyond.le
    · rw [pointsFrom, pointsFrom, mem_singleton] at hp
      rw [hp, FeeFrac.plus_size]
  · have hc := hpos c (by rw [hrest]; exact mem_cons_self)
    have hsize := h.accum_fits.2
    simp only [Cursor.advance, FeeFrac.plus_size]
    omega
  · intro p hp
    simp only [Cursor.advance, hrest, tail_cons] at hp
    have hlt := start_lt_pointsFrom (fun k hk => hpos k (by rw [hrest]; exact mem_cons_of_mem _ hk)) hp
    rwa [FeeFrac.plus_size] at hlt

/-- The side that has none waits. -/
theorem wait (h : Walked cs d m) {s : ℤ} (hs : m ≤ s) (hahead : ∀ p ∈ pointsFrom d.accum d.rest, s < p.size)
    (better : Bool) : Walked cs { d with better := better } s := by
  obtain ⟨done, hcs, haccum, hbehind⟩ := h.behind
  exact ⟨h.chunks, ⟨done, hcs, haccum, fun p hp => (hbehind p hp).trans hs⟩, h.accum_le.trans hs, h.accum_fits, hahead⟩

theorem start (h : Chunks cs) : Walked cs ⟨cs, origin, false⟩ 0 where
  chunks := h
  behind := ⟨[], rfl, rfl, by simp [points, pointsFrom]⟩
  accum_le := le_rfl
  accum_fits := (by decide : Signed 64 0 ∧ (0 : ℤ) ≤ 0)
  ahead := fun _ hp => start_lt_pointsFrom h.positive hp

end Walked

/-! ## A turn -/

/-- how P lies to the line behind A -/
def sideOf (P : FeeFrac) (other : Cursor) : Ordering :=
  compare ((P.fee - other.accum.fee) * other.slope.size) (other.slope.fee * (P.size - other.accum.size))

/-- the other side after P: it goes on if it has a point of the same size -/
def otherAfter (P : FeeFrac) (other : Cursor) : Cursor :=
  match other.rest with
  | [] => { other with better := other.better || sideOf P other == .lt }
  | next :: _ =>
    if (other.accum.plus next).size = P.size then other.advance (other.accum.plus next) (sideOf P other == .lt)
    else { other with better := other.better || sideOf P other == .lt }

/-- the walk up to size m: the flags and what they stand for -/
structure Inv (cu co : List FeeFrac) (u o : Cursor) (m : ℤ) : Prop where
  walked : Walked cu u m
  other : Walked co o m
  nonneg : 0 ≤ m
  found : u.better = true → ∃ t ≤ m, Breakpoint cu co t ∧ diagram co t < diagram cu t
  found_other : o.better = true → ∃ t ≤ m, Breakpoint cu co t ∧ diagram cu t < diagram co t
  missed : ∀ x : ℝ, 0 ≤ x → x ≤ m → diagram co x < diagram cu x → u.better = true
  missed_other : ∀ x : ℝ, 0 ≤ x → x ≤ m → diagram cu x < diagram co x → o.better = true

theorem Breakpoint.swap {c₀ c₁ : List FeeFrac} {t : ℤ} (h : Breakpoint c₀ c₁ t) : Breakpoint c₁ c₀ t := Or.symm h

theorem Inv.swap {cu co : List FeeFrac} {u o : Cursor} {m : ℤ} (h : Inv cu co u o m) : Inv co cu o u m where
  walked := h.other
  other := h.walked
  nonneg := h.nonneg
  found hbetter := by
    obtain ⟨t, ht, hbreak, hlt⟩ := h.found_other hbetter
    exact ⟨t, ht, hbreak.swap, hlt⟩
  found_other hbetter := by
    obtain ⟨t, ht, hbreak, hlt⟩ := h.found hbetter
    exact ⟨t, ht, hbreak.swap, hlt⟩
  missed := h.missed_other
  missed_other := h.missed

section
variable {W : WideArith} (hW : W.Exact) {cu co : List FeeFrac} {u o : Cursor} {m : ℤ} (h : Inv cu co u o m)
  {c : FeeFrac} {rest : List FeeFrac} (hrest : u.rest = c :: rest)
include hrest

theorem Cursor.next_mem : u.accum.plus c ∈ pointsFrom u.accum u.rest := by
  rw [hrest]
  exact mem_cons_self

include h

theorem Inv.next_sizes : o.accum.size ≤ m ∧ m < (u.accum.plus c).size ∧ (u.accum.plus c).size < 2 ^ 31 ∧
    0 ≤ o.accum.size :=
  ⟨h.other.accum_le, h.walked.ahead _ (Cursor.next_mem hrest), (h.walked.point_fits (Cursor.next_mem hrest)).2.2,
    h.other.accum_fits.2⟩

/-- If the fee from A to P overflows, so does the turn. -/
theorem compareTurn_overflow (hfits : ¬ Signed 64 ((u.accum.plus c).fee - o.accum.fee)) : compareTurn W u o = none := by
  have hadd := FeeFrac.add_eq (h.walked.point_fits (Cursor.next_mem hrest))
  simp only [compareTurn, hrest, head?_cons, hadd, bind_eq_bind, bind_some, FeeFrac.sub_overflow hfits, bind_none]

include hW

/-- Else it compares P with the line behind A. -/
theorem compareTurn_some (hfits : Signed 64 ((u.accum.plus c).fee - o.accum.fee)) :
    compareTurn W u o = some (u.advance (u.accum.plus c) (sideOf (u.accum.plus c) o == .gt),
      otherAfter (u.accum.plus c) o) := by
  have hadd := FeeFrac.add_eq (h.walked.point_fits (Cursor.next_mem hrest))
  obtain ⟨hA, hm, hP, hzero⟩ := h.next_sizes hrest
  have hsize : Signed 32 ((u.accum.plus c).size - o.accum.size) := by simp only [Signed, Nat.reduceSub]; omega
  have hsub := FeeFrac.sub_eq hfits hsize
  cases hother : o.rest with
  | nil =>
    have hcmp : byRatio W ⟨(u.accum.plus c).fee - o.accum.fee, (u.accum.plus c).size - o.accum.size⟩ TAIL_FEERATE =
        some (sideOf (u.accum.plus c) o) := by
      rw [byRatio_eq hW hfits hsize (by decide) (by decide), sideOf, Cursor.slope, hother, headD_nil]
    simp only [compareTurn, hrest, head?_cons, hadd, hsub, hcmp, hother, Option.bind_eq_bind, Option.bind_some,
      Option.pure_def, otherAfter]
  | cons next others =>
    have hnext : o.accum.plus next ∈ pointsFrom o.accum o.rest := by rw [hother]; exact mem_cons_self
    have hnext_fits := h.other.point_fits hnext
    have hnext_pos := h.other.rest_positive next (by rw [hother]; exact mem_cons_self)
    have hfee : Signed 64 next.fee := by
      obtain ⟨done, hcs, -, -⟩ := h.other.behind
      exact h.other.chunks.fees next (by rw [hcs, hother]; simp)
    have hnext_size : Signed 32 next.size := by
      have hend := hnext_fits.2.2
      simp only [FeeFrac.plus_size, Nat.reduceSub] at hend
      simp only [Signed, Nat.reduceSub]
      omega
    have hline : (o.accum.plus next).sub o.accum = some next := by
      have hfee' : (o.accum.plus next).fee - o.accum.fee = next.fee := by rw [FeeFrac.plus_fee]; ring
      have hsize' : (o.accum.plus next).size - o.accum.size = next.size := by rw [FeeFrac.plus_size]; ring
      rw [FeeFrac.sub_eq (by rwa [hfee']) (by rwa [hsize']), hfee', hsize']
    have hcmp : byRatio W ⟨(u.accum.plus c).fee - o.accum.fee, (u.accum.plus c).size - o.accum.size⟩ next =
        some (sideOf (u.accum.plus c) o) := by
      rw [byRatio_eq hW hfits hsize hfee hnext_size, sideOf, Cursor.slope, hother, headD_cons]
    simp only [compareTurn, hrest, head?_cons, hadd, hsub, hother, FeeFrac.add_eq hnext_fits, hline, hcmp, bind_eq_bind,
      Option.bind_some, Option.pure_def, otherAfter]

end

/-! ## What a turn finds -/

theorem Cursor.slope_pos {cs : List FeeFrac} {d : Cursor} {m : ℤ} (h : Walked cs d m) : 0 < d.slope.size := by
  have hpos := h.rest_positive
  rw [Cursor.slope]
  cases hrest : d.rest with
  | nil => decide
  | cons c rest => exact hpos c (by rw [hrest]; exact mem_cons_self)

section
variable {cu co : List FeeFrac} {u o : Cursor} {m : ℤ} (h : Inv cu co u o m) {c : FeeFrac} {rest : List FeeFrac}
  (hrest : u.rest = c :: rest) (hnext : ∀ p ∈ pointsFrom o.accum o.rest, (u.accum.plus c).size ≤ p.size)
include h hrest

/-- Up to P the side that has it is a line. -/
theorem Inv.line {x : ℝ} (hm : (m : ℝ) ≤ x) (hx : x ≤ (u.accum.plus c).size) :
    diagram cu x = u.accum.fee + c.fee / c.size * (x - u.accum.size) := by
  have hline := h.walked.value hm (fun k hk => by
    rw [hrest, head?_cons, mem_some_iff] at hk
    rw [FeeFrac.plus_size, hk] at hx
    exact_mod_cast hx)
  rwa [Cursor.slope, hrest, headD_cons] at hline

theorem Inv.value_next : diagram cu (u.accum.plus c).size = (u.accum.plus c).fee := by
  have hm : (m : ℝ) ≤ (u.accum.plus c).size := Int.cast_le.mpr (h.next_sizes hrest).2.1.le
  have hc : (0 : ℝ) < c.size := Int.cast_pos.mpr (h.walked.rest_positive c (by rw [hrest]; exact mem_cons_self))
  rw [h.line hrest hm le_rfl, FeeFrac.plus_size, FeeFrac.plus_fee]
  push_cast
  field_simp
  ring

include hnext

omit hrest in
/-- Up to P the other side is a line too. -/
theorem Inv.line_other {x : ℝ} (hm : (m : ℝ) ≤ x) (hx : x ≤ (u.accum.plus c).size) :
    diagram co x = o.accum.fee + o.slope.fee / o.slope.size * (x - o.accum.size) := by
  refine h.other.value hm fun k hk => ?_
  cases hother : o.rest with
  | nil => simp [hother] at hk
  | cons k' others =>
    rw [hother, head?_cons, mem_some_iff] at hk
    have hle := hnext (o.accum.plus k) (by rw [hother, hk]; exact mem_cons_self)
    rw [FeeFrac.plus_size o.accum] at hle
    exact hx.trans (by exact_mod_cast hle)

/-- The comparison of slopes is the comparison of the diagrams at P. -/
theorem Inv.sideOf_eq : sideOf (u.accum.plus c) o =
    compare (diagram cu (u.accum.plus c).size) (diagram co (u.accum.plus c).size) := by
  have hm : (m : ℝ) ≤ (u.accum.plus c).size := Int.cast_le.mpr (h.next_sizes hrest).2.1.le
  have hslope : (0 : ℝ) < o.slope.size := Int.cast_pos.mpr (Cursor.slope_pos h.other)
  rw [h.value_next hrest, h.line_other hnext hm le_rfl, sideOf]
  set P := u.accum.plus c
  set A := o.accum
  set slope := o.slope
  have hcross : ((P.fee : ℝ) - (A.fee + slope.fee / slope.size * (P.size - A.size))) * slope.size =
      (((P.fee - A.fee) * slope.size - slope.fee * (P.size - A.size) : ℤ) : ℝ) := by
    push_cast
    field_simp
    ring
  rcases lt_trichotomy ((P.fee - A.fee) * slope.size) (slope.fee * (P.size - A.size)) with hlt | heq | hgt
  · have hneg : (((P.fee - A.fee) * slope.size - slope.fee * (P.size - A.size) : ℤ) : ℝ) < 0 := by
      exact_mod_cast sub_neg.mpr hlt
    rw [← hcross] at hneg
    rw [compare_lt_iff_lt.mpr hlt, compare_lt_iff_lt.mpr (sub_neg.mp (neg_of_mul_neg_left hneg hslope.le))]
  · rw [heq, sub_self, Int.cast_zero] at hcross
    have hzero := (mul_eq_zero.mp hcross).resolve_right hslope.ne'
    rw [compare_eq_iff_eq.mpr heq, compare_eq_iff_eq.mpr (sub_eq_zero.mp hzero)]
  · have hpos : 0 < (((P.fee - A.fee) * slope.size - slope.fee * (P.size - A.size) : ℤ) : ℝ) := by
      exact_mod_cast sub_pos.mpr hgt
    rw [← hcross] at hpos
    rw [compare_gt_iff_gt.mpr hgt, compare_gt_iff_gt.mpr (sub_pos.mp (pos_of_mul_pos_left hpos hslope.le))]

omit hnext in
theorem Inv.affine : AffineOn (diagram cu) m (u.accum.plus c).size :=
  ⟨u.accum.fee - c.fee / c.size * u.accum.size, c.fee / c.size, fun x hm hx => by rw [h.line hrest hm hx]; ring⟩

omit hrest in
theorem Inv.affine_other : AffineOn (diagram co) m (u.accum.plus c).size :=
  ⟨o.accum.fee - o.slope.fee / o.slope.size * o.accum.size, o.slope.fee / o.slope.size,
    fun x hm hx => by rw [h.line_other hnext hm hx]; ring⟩

/-- The other side after P. -/
theorem Inv.other_after : Walked co (otherAfter (u.accum.plus c) o) (u.accum.plus c).size := by
  have hm := (h.next_sizes hrest).2.1
  rw [otherAfter]
  split
  next hother => exact h.other.wait hm.le (by rw [hother]; intro p hp; simp [pointsFrom] at hp) _
  next next others hother =>
    split_ifs with hsize
    · rw [← hsize]
      exact h.other.advance hother _
    · refine h.other.wait hm.le (fun p hp => ?_) _
      have hpos := h.other.rest_positive
      have hfirst := hnext (o.accum.plus next) (by rw [hother]; exact mem_cons_self)
      rw [hother, pointsFrom, mem_cons] at hp
      rw [hother] at hpos
      have hbefore := lt_of_le_of_ne hfirst (Ne.symm hsize)
      rcases hp with rfl | hp
      · exact hbefore
      · exact hbefore.trans (start_lt_pointsFrom (fun k hk => hpos k (mem_cons_of_mem _ hk)) hp)

/-- A turn keeps the invariant. -/
theorem Inv.turn : Inv cu co (u.advance (u.accum.plus c) (sideOf (u.accum.plus c) o == .gt))
    (otherAfter (u.accum.plus c) o) (u.accum.plus c).size := by
  have hm := (h.next_sizes hrest).2.1
  have hside := h.sideOf_eq hrest hnext
  have hbreak : Breakpoint cu co (u.accum.plus c).size :=
    Or.inl (mem_map_of_mem (h.walked.mem_points (Cursor.next_mem hrest)))
  have hgt : (sideOf (u.accum.plus c) o == .gt) = true ↔
      diagram co (u.accum.plus c).size < diagram cu (u.accum.plus c).size := by
    rw [hside, beq_iff_eq, compare_gt_iff_gt]
  have hlt : (sideOf (u.accum.plus c) o == .lt) = true ↔
      diagram cu (u.accum.plus c).size < diagram co (u.accum.plus c).size := by
    rw [hside, beq_iff_eq, compare_lt_iff_lt]
  have hother : (otherAfter (u.accum.plus c) o).better = (o.better || sideOf (u.accum.plus c) o == .lt) := by
    rw [otherAfter]
    cases o.rest with
    | nil => rfl
    | cons next others =>
      dsimp only
      split_ifs
      · rfl
      · rfl
  refine ⟨h.walked.advance hrest _, h.other_after hrest hnext, h.nonneg.trans hm.le, ?_, ?_, ?_, ?_⟩
  · intro hbetter
    rcases Bool.or_eq_true_iff.mp hbetter with hold | hnew
    · obtain ⟨t, ht, hbreak', habove⟩ := h.found hold
      exact ⟨t, ht.trans hm.le, hbreak', habove⟩
    · exact ⟨_, le_rfl, hbreak, hgt.mp hnew⟩
  · intro hbetter
    rw [hother] at hbetter
    rcases Bool.or_eq_true_iff.mp hbetter with hold | hnew
    · obtain ⟨t, ht, hbreak', habove⟩ := h.found_other hold
      exact ⟨t, ht.trans hm.le, hbreak', habove⟩
    · exact ⟨_, le_rfl, hbreak, hlt.mp hnew⟩
  · intro x hx hxs habove
    refine Bool.or_eq_true_iff.mpr ?_
    rcases le_total x m with hxm | hmx
    · exact Or.inl (h.missed x hx hxm habove)
    · rcases (h.affine hrest).lt_at_end (h.affine_other hnext) hmx hxs habove with hstart | hend
      · exact Or.inl (h.missed m (Int.cast_nonneg h.nonneg) le_rfl hstart)
      · exact Or.inr (hgt.mpr hend)
  · intro x hx hxs habove
    rw [hother]
    refine Bool.or_eq_true_iff.mpr ?_
    rcases le_total x m with hxm | hmx
    · exact Or.inl (h.missed_other x hx hxm habove)
    · rcases (h.affine_other hnext).lt_at_end (h.affine hrest) hmx hxs habove with hstart | hend
      · exact Or.inl (h.missed_other m (Int.cast_nonneg h.nonneg) le_rfl hstart)
      · exact Or.inr (hlt.mpr hend)

omit hnext in
/-- Of the side's own points beyond m the first is P. -/
theorem Inv.beyond {p : FeeFrac} (hp : p ∈ points cu) (hlt : m < p.size) :
    (u.accum.plus c).size < p.size ∨ p = u.accum.plus c := by
  have hpos := h.walked.rest_positive
  have hahead := h.walked.mem_ahead hp hlt
  rw [hrest] at hpos
  rw [hrest, pointsFrom, mem_cons] at hahead
  rcases hahead with heq | hlater
  · exact Or.inr heq
  · exact Or.inl (start_lt_pointsFrom (fun k hk => hpos k (mem_cons_of_mem _ hk)) hlater)

omit hnext in
theorem Inv.next_le {p : FeeFrac} (hp : p ∈ pointsFrom u.accum u.rest) : (u.accum.plus c).size ≤ p.size := by
  rcases h.beyond hrest (h.walked.mem_points hp) (h.walked.ahead p hp) with hlt | rfl
  · exact hlt.le
  · exact le_rfl

theorem Inv.breakpoint_le {t : ℤ} (ht : Breakpoint cu co t) (hlt : t < (u.accum.plus c).size) : t ≤ m := by
  by_contra hnot
  rw [not_le] at hnot
  rcases ht with hown | hother
  · obtain ⟨p, hp, rfl⟩ := mem_map.mp hown
    rcases h.beyond hrest hp hnot with hlater | rfl
    · exact absurd hlater (not_lt.mpr hlt.le)
    · exact absurd hlt (lt_irrefl _)
  · obtain ⟨p, hp, rfl⟩ := mem_map.mp hother
    exact absurd (hnext p (h.other.mem_ahead hp hnot)) (not_le.mpr hlt)

theorem Inv.lastBelow_other : lastBelow co (u.accum.plus c).size = o.accum :=
  h.other.lastBelow_eq (h.next_sizes hrest).2.1 hnext

omit h hnext in
theorem turn_shorter : (u.advance (u.accum.plus c) (sideOf (u.accum.plus c) o == .gt)).rest.length +
    (otherAfter (u.accum.plus c) o).rest.length < u.rest.length + o.rest.length := by
  have hother : (otherAfter (u.accum.plus c) o).rest.length ≤ o.rest.length := by
    rw [otherAfter]
    split
    · exact le_rfl
    · split_ifs
      · simp [Cursor.advance]
      · exact le_rfl
  have hown : (u.advance (u.accum.plus c) (sideOf (u.accum.plus c) o == .gt)).rest.length < u.rest.length := by
    simp [Cursor.advance, hrest]
  omega

end

/-- what a turn compares: P with A, unless the fee between them overflows -/
structure NextTurn (W : WideArith) (c₀ c₁ : List FeeFrac) (d₀ d₁ : Cursor) (m : ℤ) (P A : FeeFrac) : Prop where
  compared : Compared c₀ c₁ P A
  only : ∀ P' A', Compared c₀ c₁ P' A' → m < P'.size → P.size < P'.size ∨ P' = P ∧ A' = A
  between : ∀ t, Breakpoint c₀ c₁ t → t < P.size → t ≤ m
  overflow : ¬ Signed 64 (P.fee - A.fee) → compareStep W d₀ d₁ = none
  turn : Signed 64 (P.fee - A.fee) → ∃ e₀ e₁, compareStep W d₀ d₁ = some (e₀, e₁) ∧ Inv c₀ c₁ e₀ e₁ P.size ∧
    e₀.rest.length + e₁.rest.length < d₀.rest.length + d₁.rest.length

section
variable {W : WideArith} (hW : W.Exact) {c₀ c₁ : List FeeFrac} {d₀ d₁ : Cursor} {m : ℤ} (h : Inv c₀ c₁ d₀ d₁ m)
  {c : FeeFrac} {rest : List FeeFrac}
include hW h

theorem turn_first (hrest : d₀.rest = c :: rest) (hfirst : firstIsNext d₀ d₁ = some true)
    (hnext : ∀ p ∈ pointsFrom d₁.accum d₁.rest, (d₀.accum.plus c).size ≤ p.size) :
    NextTurn W c₀ c₁ d₀ d₁ m (d₀.accum.plus c) d₁.accum := by
  have hlast := h.lastBelow_other hrest hnext
  have hstep : compareStep W d₀ d₁ = compareTurn W d₀ d₁ := by rw [compareStep, hfirst]; rfl
  have hpoint := h.walked.mem_points (Cursor.next_mem hrest)
  refine ⟨Or.inl ⟨hpoint, hlast.symm⟩, ?_, fun t ht => h.breakpoint_le hrest hnext ht, ?_, ?_⟩
  · rintro P' A' (⟨hP', hA'⟩ | ⟨hP', hnone, -⟩) hlt
    · rcases h.beyond hrest hP' hlt with hlater | rfl
      · exact Or.inl hlater
      · exact Or.inr ⟨rfl, hA'.trans hlast⟩
    · refine Or.inl (lt_of_le_of_ne (hnext P' (h.other.mem_ahead hP' hlt)) fun heq => hnone ?_)
      rw [← heq]
      exact mem_map_of_mem hpoint
  · intro hfits
    rw [hstep]
    exact compareTurn_overflow h hrest hfits
  · intro hfits
    refine ⟨_, _, hstep.trans (compareTurn_some hW h hrest hfits), h.turn hrest hnext, turn_shorter hrest⟩

theorem turn_second (hrest : d₁.rest = c :: rest) (hfirst : firstIsNext d₀ d₁ = some false)
    (hnext : ∀ p ∈ pointsFrom d₀.accum d₀.rest, (d₁.accum.plus c).size < p.size) :
    NextTurn W c₀ c₁ d₀ d₁ m (d₁.accum.plus c) d₀.accum := by
  have hle := fun p hp => (hnext p hp).le
  have hlast := h.swap.lastBelow_other hrest hle
  have hstep : compareStep W d₀ d₁ = (compareTurn W d₁ d₀).map Prod.swap := by rw [compareStep, hfirst]; rfl
  have hpoint := h.other.mem_points (Cursor.next_mem hrest)
  have hm := (h.swap.next_sizes hrest).2.1
  refine ⟨Or.inr ⟨hpoint, ?_, hlast.symm⟩, ?_, fun t ht => h.swap.breakpoint_le hrest hle ht.swap, ?_, ?_⟩
  · intro hsame
    obtain ⟨p, hp, hsize⟩ := mem_map.mp hsame
    exact absurd hsize (hnext p (h.walked.mem_ahead hp (by rw [hsize]; exact hm))).ne'
  · rintro P' A' (⟨hP', -⟩ | ⟨hP', -, hA'⟩) hlt
    · exact Or.inl (hnext P' (h.walked.mem_ahead hP' hlt))
    · rcases h.swap.beyond hrest hP' hlt with hlater | rfl
      · exact Or.inl hlater
      · exact Or.inr ⟨rfl, hA'.trans hlast⟩
  · intro hfits
    rw [hstep, compareTurn_overflow h.swap hrest hfits]
    rfl
  · intro hfits
    refine ⟨_, _, ?_, (h.swap.turn hrest hle).swap, ?_⟩
    · rw [hstep, compareTurn_some hW h.swap hrest hfits]
      rfl
    · have hshorter := turn_shorter (o := d₀) hrest
      omega

/-- As long as a side has a point left there is a turn. -/
theorem exists_turn (hleft : ¬ (d₀.rest = [] ∧ d₁.rest = [])) : ∃ P A, NextTurn W c₀ c₁ d₀ d₁ m P A := by
  cases h₀ : d₀.rest with
  | nil =>
    cases h₁ : d₁.rest with
    | nil => exact absurd ⟨h₀, h₁⟩ hleft
    | cons c₁' rest₁ =>
      refine ⟨_, _, turn_second hW h h₁ (by rw [firstIsNext, h₀, h₁]) fun p hp => ?_⟩
      rw [h₀] at hp
      simp [pointsFrom] at hp
  | cons c₀' rest₀ =>
    cases h₁ : d₁.rest with
    | nil =>
      refine ⟨_, _, turn_first hW h h₀ (by rw [firstIsNext, h₀, h₁]) fun p hp => ?_⟩
      rw [h₁] at hp
      simp [pointsFrom] at hp
    | cons c₁' rest₁ =>
      have hadd₀ := FeeFrac.add_eq (h.walked.point_fits (Cursor.next_mem h₀))
      have hadd₁ := FeeFrac.add_eq (h.other.point_fits (Cursor.next_mem h₁))
      have hfirst : firstIsNext d₀ d₁ = some (!decide ((d₀.accum.plus c₀').size > (d₁.accum.plus c₁').size)) := by
        simp only [firstIsNext, h₀, h₁, hadd₀, hadd₁, Option.bind_eq_bind, Option.bind_some, Option.pure_def]
      by_cases hsize : (d₀.accum.plus c₀').size > (d₁.accum.plus c₁').size
      · rw [decide_eq_true hsize] at hfirst
        exact ⟨_, _, turn_second hW h h₁ hfirst fun p hp => lt_of_lt_of_le hsize (h.next_le h₀ hp)⟩
      · rw [decide_eq_false hsize] at hfirst
        exact ⟨_, _, turn_first hW h h₀ hfirst fun p hp => (not_lt.mp hsize).trans (h.swap.next_le h₁ hp)⟩

end

/-! ## The result -/

/-- D₀ is somewhere above D₁ -/
def Above (c₀ c₁ : List FeeFrac) : Prop := ∃ x ≥ 0, diagram c₁ x < diagram c₀ x

theorem not_above {c₀ c₁ : List FeeFrac} : ¬ Above c₀ c₁ ↔ ∀ x ≥ 0, diagram c₀ x ≤ diagram c₁ x := by
  simp only [Above, not_exists, not_and, not_lt]

theorem diagramOrder_eq {c₀ c₁ : List FeeFrac} {better₀ better₁ : Bool} (h₀ : better₀ = true ↔ Above c₀ c₁)
    (h₁ : better₁ = true ↔ Above c₁ c₀) :
    diagramOrder c₀ c₁ = if better₀ && better₁ then .unordered else finalOrder better₀ better₁ := by
  have hequal : (∀ x ≥ 0, diagram c₀ x = diagram c₁ x) ↔ ¬ Above c₀ c₁ ∧ ¬ Above c₁ c₀ := by
    rw [not_above, not_above]
    constructor
    · intro heq
      exact ⟨fun x hx => (heq x hx).le, fun x hx => (heq x hx).ge⟩
    · rintro ⟨hle, hge⟩ x hx
      exact le_antisymm (hle x hx) (hge x hx)
  rw [diagramOrder, hequal, ← not_above, ← not_above, ← h₀, ← h₁]
  cases better₀ <;> cases better₁ <;> simp [finalOrder]

/-- the other way round -/
def PartialOrdering.swap : PartialOrdering → PartialOrdering
  | .less => .greater
  | .greater => .less
  | order => order

theorem diagramOrder_swap (c₀ c₁ : List FeeFrac) : diagramOrder c₁ c₀ = (diagramOrder c₀ c₁).swap := by
  classical
  have h₀ := decide_eq_true_iff (p := Above c₀ c₁)
  have h₁ := decide_eq_true_iff (p := Above c₁ c₀)
  rw [diagramOrder_eq h₀ h₁, diagramOrder_eq h₁ h₀]
  cases decide (Above c₀ c₁) <;> cases decide (Above c₁ c₀) <;> rfl

/-- less or equivalent -/
def PartialOrdering.AtMost (order : PartialOrdering) : Prop := order = .less ∨ order = .equivalent

/-- two steps upwards together -/
def PartialOrdering.trans (first second : PartialOrdering) : PartialOrdering :=
  if first = .equivalent then second else first

theorem diagramOrder_atMost {c₀ c₁ : List FeeFrac} (h : (diagramOrder c₀ c₁).AtMost) : ¬ Above c₀ c₁ := by
  classical
  intro habove
  rw [diagramOrder_eq (decide_eq_true_iff (p := Above c₀ c₁)) (decide_eq_true_iff (p := Above c₁ c₀)),
    decide_eq_true habove] at h
  cases hother : decide (Above c₁ c₀) <;> simp [hother, PartialOrdering.AtMost, finalOrder] at h

open Classical in
theorem diagramOrder_of_not_above {c₀ c₁ : List FeeFrac} (h : ¬ Above c₀ c₁) :
    diagramOrder c₀ c₁ = if Above c₁ c₀ then .less else .equivalent := by
  rw [diagramOrder_eq (decide_eq_true_iff (p := Above c₀ c₁)) (decide_eq_true_iff (p := Above c₁ c₀)),
    decide_eq_false h]
  by_cases hother : Above c₁ c₀
  · simp [hother, finalOrder]
  · simp [hother, finalOrder]

theorem diagramOrder_trans {c₀ c₁ c₂ : List FeeFrac} (h₁ : (diagramOrder c₀ c₁).AtMost)
    (h₂ : (diagramOrder c₁ c₂).AtMost) : diagramOrder c₀ c₂ = (diagramOrder c₀ c₁).trans (diagramOrder c₁ c₂) := by
  have hno₁ := diagramOrder_atMost h₁
  have hno₂ := diagramOrder_atMost h₂
  have hle₁ := not_above.mp hno₁
  have hle₂ := not_above.mp hno₂
  have hno : ¬ Above c₀ c₂ := not_above.mpr fun x hx => (hle₁ x hx).trans (hle₂ x hx)
  have habove : Above c₂ c₀ ↔ Above c₁ c₀ ∨ Above c₂ c₁ := by
    constructor
    · rintro ⟨x, hx, hlt⟩
      by_contra hnot
      rw [not_or] at hnot
      exact absurd hlt (not_lt.mpr ((not_above.mp hnot.2 x hx).trans (not_above.mp hnot.1 x hx)))
    · rintro (⟨x, hx, hlt⟩ | ⟨x, hx, hlt⟩)
      · exact ⟨x, hx, hlt.trans_le (hle₂ x hx)⟩
      · exact ⟨x, hx, (hle₁ x hx).trans_lt hlt⟩
  rw [diagramOrder_of_not_above hno, diagramOrder_of_not_above hno₁, diagramOrder_of_not_above hno₂]
  by_cases hfirst : Above c₁ c₀
  · rw [if_pos (habove.mpr (Or.inl hfirst)), if_pos hfirst]
    rfl
  · rw [if_neg hfirst, PartialOrdering.trans, if_pos rfl]
    by_cases hsecond : Above c₂ c₁
    · rw [if_pos hsecond, if_pos (habove.mpr (Or.inr hsecond))]
    · rw [if_neg hsecond, if_neg fun hboth => (habove.mp hboth).elim hfirst hsecond]

section
variable {c₀ c₁ : List FeeFrac} {d₀ d₁ : Cursor} {m : ℤ} (h : Inv c₀ c₁ d₀ d₁ m)
include h

theorem Inv.breakpoint_nonneg {t : ℤ} (ht : Breakpoint c₀ c₁ t) : 0 ≤ t := by
  rcases ht with hown | hother
  · obtain ⟨p, hp, rfl⟩ := mem_map.mp hown
    exact (start_lt_pointsFrom h.walked.chunks.positive hp).le
  · obtain ⟨p, hp, rfl⟩ := mem_map.mp hother
    exact (start_lt_pointsFrom h.other.chunks.positive hp).le

theorem Inv.above (hbetter : d₀.better = true) : Above c₀ c₁ := by
  obtain ⟨t, -, hbreak, hlt⟩ := h.found hbetter
  exact ⟨t, Int.cast_nonneg (h.breakpoint_nonneg hbreak), hlt⟩

/-- Behind the last points the diagrams do not change. -/
theorem Inv.better_of_above (h₀ : d₀.rest = []) (h₁ : d₁.rest = []) (habove : Above c₀ c₁) : d₀.better = true := by
  obtain ⟨x, hx, hlt⟩ := habove
  rcases le_total x m with hxm | hmx
  · exact h.missed x hx hxm hlt
  · have hlevel : ∀ {cs : List FeeFrac} {d : Cursor}, Walked cs d m → d.rest = [] → diagram cs x = diagram cs m := by
      intro cs d hwalked hrest
      have hnone : ∀ y : ℝ, ∀ c ∈ d.rest.head?, y ≤ d.accum.size + c.size := fun y c hc => by simp [hrest] at hc
      rw [hwalked.value hmx (hnone x), hwalked.value le_rfl (hnone m), Cursor.slope, hrest]
      simp [TAIL_FEERATE]
    rw [hlevel h.walked h₀, hlevel h.other h₁] at hlt
    exact h.missed m (Int.cast_nonneg h.nonneg) le_rfl hlt

theorem Inv.not_crossed (hbetter : (d₀.better && d₁.better) = false) {s : ℤ}
    (hbetween : ∀ t, Breakpoint c₀ c₁ t → t < s → t ≤ m) : ¬ CrossedBefore c₀ c₁ s := by
  rintro ⟨⟨t₀, ht₀, hbreak₀, hlt₀⟩, t₁, ht₁, hbreak₁, hlt₁⟩
  have hbetter₀ := h.missed t₀ (Int.cast_nonneg (h.breakpoint_nonneg hbreak₀))
    (Int.cast_le.mpr (hbetween t₀ hbreak₀ ht₀)) hlt₀
  have hbetter₁ := h.missed_other t₁ (Int.cast_nonneg (h.breakpoint_nonneg hbreak₁))
    (Int.cast_le.mpr (hbetween t₁ hbreak₁ ht₁)) hlt₁
  rw [hbetter₀, hbetter₁] at hbetter
  exact absurd hbetter (by decide)

theorem Inv.crossed (hbetter₀ : d₀.better = true) (hbetter₁ : d₁.better = true) {s : ℤ} (hs : m < s) :
    CrossedBefore c₀ c₁ s := by
  obtain ⟨t₀, ht₀, hbreak₀, hlt₀⟩ := h.found hbetter₀
  obtain ⟨t₁, ht₁, hbreak₁, hlt₁⟩ := h.found_other hbetter₁
  exact ⟨⟨t₀, ht₀.trans_lt hs, hbreak₀, hlt₀⟩, t₁, ht₁.trans_lt hs, hbreak₁, hlt₁⟩

/-- At the end the flags are the order, and no comparison is left. -/
theorem Inv.walked_out (hbetter : (d₀.better && d₁.better) = false) (h₀ : d₀.rest = []) (h₁ : d₁.rest = [])
    {W : WideArith} (turns : ℕ) : compareLoop W turns d₀ d₁ = some (diagramOrder c₀ c₁) ∧
      ∀ P A, Compared c₀ c₁ P A → m < P.size → ¬ CrossedBefore c₀ c₁ P.size → Signed 64 (P.fee - A.fee) := by
  have horder := diagramOrder_eq ⟨h.above, h.better_of_above h₀ h₁⟩ ⟨h.swap.above, h.swap.better_of_above h₁ h₀⟩
  rw [hbetter, if_neg Bool.false_ne_true] at horder
  refine ⟨by rw [compareLoop.eq_def]; simp only [h₀, h₁, and_self, if_true, horder], fun P A hcompared hlt => ?_⟩
  rcases hcompared with ⟨hP, -⟩ | ⟨hP, -, -⟩
  · have hahead := h.walked.mem_ahead hP hlt
    rw [h₀] at hahead
    simp [pointsFrom] at hahead
  · have hahead := h.other.mem_ahead hP hlt
    rw [h₁] at hahead
    simp [pointsFrom] at hahead

end

theorem Inv.start {c₀ c₁ : List FeeFrac} (h₀ : Chunks c₀) (h₁ : Chunks c₁) :
    Inv c₀ c₁ ⟨c₀, origin, false⟩ ⟨c₁, origin, false⟩ 0 := by
  have hzero : ∀ {cs : List FeeFrac}, Chunks cs → ∀ x : ℝ, 0 ≤ x → x ≤ ((0 : ℤ) : ℝ) → diagram cs x = 0 := by
    intro cs hcs x hx hle
    rw [Int.cast_zero] at hle
    rw [le_antisymm hle hx]
    simpa [diagram, origin] using diagramFrom_start origin hcs.positive
  have hlevel : ∀ x : ℝ, 0 ≤ x → x ≤ ((0 : ℤ) : ℝ) → diagram c₀ x = diagram c₁ x := fun x hx hle => by
    rw [hzero h₀ x hx hle, hzero h₁ x hx hle]
  refine ⟨Walked.start h₀, Walked.start h₁, le_rfl, fun hfalse => ?_, fun hfalse => ?_, fun x hx hle hlt => ?_,
    fun x hx hle hlt => ?_⟩
  · exact absurd hfalse Bool.false_ne_true
  · exact absurd hfalse Bool.false_ne_true
  · exact absurd (hlevel x hx hle) hlt.ne'
  · exact absurd (hlevel x hx hle) hlt.ne

/-- From any point of the walk it ends with the order of the diagrams, or at a fee that overflows. -/
theorem compareLoop_eq {W : WideArith} (hW : W.Exact) {c₀ c₁ : List FeeFrac} (turns : ℕ) {d₀ d₁ : Cursor} {m : ℤ}
    (h : Inv c₀ c₁ d₀ d₁ m) (hbetter : (d₀.better && d₁.better) = false)
    (hturns : d₀.rest.length + d₁.rest.length ≤ turns) : (compareLoop W turns d₀ d₁ = some (diagramOrder c₀ c₁) ∧
      ∀ P A, Compared c₀ c₁ P A → m < P.size → ¬ CrossedBefore c₀ c₁ P.size → Signed 64 (P.fee - A.fee)) ∨
    compareLoop W turns d₀ d₁ = none ∧ ∃ P A, Compared c₀ c₁ P A ∧ ¬ CrossedBefore c₀ c₁ P.size ∧
      ¬ Signed 64 (P.fee - A.fee) := by
  induction turns generalizing d₀ d₁ m with
  | zero =>
    have h₀ : d₀.rest = [] := eq_nil_of_length_eq_zero (by omega)
    have h₁ : d₁.rest = [] := eq_nil_of_length_eq_zero (by omega)
    exact Or.inl (h.walked_out hbetter h₀ h₁ 0)
  | succ turns ih =>
    by_cases hleft : d₀.rest = [] ∧ d₁.rest = []
    · exact Or.inl (h.walked_out hbetter hleft.1 hleft.2 (turns + 1))
    obtain ⟨P, A, hturn⟩ := exists_turn hW h hleft
    rw [compareLoop, if_neg hleft]
    by_cases hfits : Signed 64 (P.fee - A.fee)
    · obtain ⟨e₀, e₁, hstep, hinv, hshorter⟩ := hturn.turn hfits
      simp only [hstep, Option.bind_eq_bind, Option.bind_some, Option.pure_def]
      cases hboth : e₀.better && e₁.better with
      | true =>
        obtain ⟨hbetter₀, hbetter₁⟩ := Bool.and_eq_true_iff.mp hboth
        have horder := diagramOrder_eq (iff_of_true hbetter₀ (hinv.above hbetter₀))
          (iff_of_true hbetter₁ (hinv.swap.above hbetter₁))
        rw [hboth, if_pos rfl] at horder
        refine Or.inl ⟨by rw [if_pos rfl, horder], fun P' A' hcompared hlt hnot => ?_⟩
        rcases hturn.only P' A' hcompared hlt with hlater | ⟨rfl, rfl⟩
        · exact absurd (hinv.crossed hbetter₀ hbetter₁ hlater) hnot
        · exact hfits
      | false =>
        rw [if_neg Bool.false_ne_true]
        rcases ih hinv hboth (by omega) with ⟨hresult, hrest⟩ | hoverflow
        · refine Or.inl ⟨hresult, fun P' A' hcompared hlt hnot => ?_⟩
          rcases hturn.only P' A' hcompared hlt with hlater | ⟨rfl, rfl⟩
          · exact hrest P' A' hcompared hlater hnot
          · exact hfits
        · exact Or.inr hoverflow
    · refine Or.inr ⟨?_, P, A, hturn.compared, h.not_crossed hbetter hturn.between, hfits⟩
      rw [hturn.overflow hfits]
      rfl

theorem Compared.positive {c₀ c₁ : List FeeFrac} (h₀ : Chunks c₀) (h₁ : Chunks c₁) {P A : FeeFrac}
    (h : Compared c₀ c₁ P A) : 0 < P.size := by
  rcases h with ⟨hP, -⟩ | ⟨hP, -, -⟩
  · exact start_lt_pointsFrom h₀.positive hP
  · exact start_lt_pointsFrom h₁.positive hP

section
variable {W : WideArith} (hW : W.Exact) {c₀ c₁ : List FeeFrac} (h₀ : Chunks c₀) (h₁ : Chunks c₁)
include hW h₀ h₁

theorem compareChunks_fits : compareChunks W c₀ c₁ = some (diagramOrder c₀ c₁) ↔ FeeDifferencesFit c₀ c₁ := by
  rcases compareLoop_eq hW (c₀.length + c₁.length) (Inv.start h₀ h₁) rfl le_rfl with ⟨hresult, hfits⟩ | ⟨hresult, P, A,
    hcompared, hnot, hfits⟩
  · exact iff_of_true hresult fun P A hcompared => hfits P A hcompared (hcompared.positive h₀ h₁)
  · refine iff_of_false (fun hsome => ?_) fun hall => hfits (hall P A hcompared hnot)
    exact absurd (hresult.symm.trans hsome) (by simp)

theorem compareChunks_result {order : PartialOrdering} (h : compareChunks W c₀ c₁ = some order) :
    order = diagramOrder c₀ c₁ := by
  rcases compareLoop_eq hW (c₀.length + c₁.length) (Inv.start h₀ h₁) rfl le_rfl with ⟨hresult, -⟩ | ⟨hresult, -⟩
  · exact Option.some.inj (h.symm.trans hresult)
  · exact absurd (hresult.symm.trans h) (by simp)

end

/-- `CompareChunks` gives the order of the diagrams exactly if the fees between the points that it compares fit. It
gives nothing else, so that its results are antisymmetric and transitive. -/
theorem compareChunks_iff (W : WideArith) (hW : W = native ∨ W = fallback) (c₀ c₁ : List FeeFrac) (h₀ : Chunks c₀)
    (h₁ : Chunks c₁) : (compareChunks W c₀ c₁ = some (diagramOrder c₀ c₁) ↔ FeeDifferencesFit c₀ c₁) ∧
    (∀ order order', compareChunks W c₀ c₁ = some order → compareChunks W c₁ c₀ = some order' → order' = order.swap) ∧
    ∀ c₂, Chunks c₂ → ∀ order order' order'', compareChunks W c₀ c₁ = some order → compareChunks W c₁ c₂ = some order' →
      compareChunks W c₀ c₂ = some order'' → order.AtMost → order'.AtMost → order'' = order.trans order' := by
  have hexact := exact_of_platform hW
  refine ⟨compareChunks_fits hexact h₀ h₁, fun order order' hfirst hsecond => ?_,
    fun c₂ h₂ order order' order'' hfirst hsecond hboth hle hle' => ?_⟩
  · rw [compareChunks_result hexact h₀ h₁ hfirst, compareChunks_result hexact h₁ h₀ hsecond]
    exact diagramOrder_swap c₀ c₁
  · rw [compareChunks_result hexact h₀ h₁ hfirst] at hle ⊢
    rw [compareChunks_result hexact h₁ h₂ hsecond] at hle' ⊢
    rw [compareChunks_result hexact h₀ h₂ hboth]
    exact diagramOrder_trans hle hle'

theorem Chunks.single {c : FeeFrac} (hpos : 0 < c.size) (hfee : Signed 64 c.fee) (hsize : Signed 32 c.size) :
    Chunks [c] := by
  refine ⟨by simpa using hpos, by simpa using hfee, ?_⟩
  simpa [points, pointsFrom, FeeFrac.plus, origin] using And.intro hfee hsize

/-- Two chunks against two: the first diagram is above, and the comparison the other way round agrees. -/
theorem two_chunks_compared : FeeDifferencesFit [⟨3, 1⟩, ⟨1, 2⟩] [⟨2, 1⟩, ⟨2, 2⟩] ∧
    diagramOrder [⟨3, 1⟩, ⟨1, 2⟩] [⟨2, 1⟩, ⟨2, 2⟩] = .greater ∧
      PartialOrdering.less = PartialOrdering.greater.swap := by
  have h₀ : Chunks [⟨3, 1⟩, ⟨1, 2⟩] := ⟨by decide, by decide, by decide⟩
  have h₁ : Chunks [⟨2, 1⟩, ⟨2, 2⟩] := ⟨by decide, by decide, by decide⟩
  have hgreater : compareChunks native [⟨3, 1⟩, ⟨1, 2⟩] [⟨2, 1⟩, ⟨2, 2⟩] = some .greater := by decide +kernel
  have hless : compareChunks native [⟨2, 1⟩, ⟨2, 2⟩] [⟨3, 1⟩, ⟨1, 2⟩] = some .less := by decide +kernel
  have horder := compareChunks_result (exact_of_platform (Or.inl rfl)) h₀ h₁ hgreater
  have hcompared := compareChunks_iff native (Or.inl rfl) _ _ h₀ h₁
  exact ⟨hcompared.1.1 (hgreater.trans (congrArg some horder)), horder.symm, hcompared.2.1 _ _ hgreater hless⟩

/-- A chunk that costs and one that pays nearly all that 64 bits hold: each fits alone, the fee from the first to the
second does not. -/
theorem mixedSigns_overflow : Chunks [⟨-1, 1⟩] ∧ Chunks [⟨2 ^ 63 - 1, 2⟩] ∧
    diagramOrder [⟨-1, 1⟩] [⟨2 ^ 63 - 1, 2⟩] = .less ∧ compareChunks native [⟨-1, 1⟩] [⟨2 ^ 63 - 1, 2⟩] = none := by
  have h₀ : Chunks [⟨-1, 1⟩] := Chunks.single (by decide) (by decide) (by decide)
  have h₁ : Chunks [⟨2 ^ 63 - 1, 2⟩] := Chunks.single (by decide) (by decide) (by decide)
  refine ⟨h₀, h₁, ?_, by decide +kernel⟩
  have hvalue₀ : ∀ x : ℝ, diagram [⟨-1, 1⟩] x = if x < 1 then -x else -1 := by
    simp [diagram, diagramFrom, origin, FeeFrac.plus]
  have hvalue₁ : ∀ x : ℝ, diagram [⟨2 ^ 63 - 1, 2⟩] x = if x < 2 then 9223372036854775807 / 2 * x else
      9223372036854775807 := by
    simp [diagram, diagramFrom, origin, FeeFrac.plus]
  have hnot : ¬ Above [⟨-1, 1⟩] [⟨2 ^ 63 - 1, 2⟩] := not_above.mpr fun x hx => by
    rw [hvalue₀, hvalue₁]
    split_ifs <;> nlinarith
  have habove : Above [⟨2 ^ 63 - 1, 2⟩] [⟨-1, 1⟩] := ⟨1, zero_le_one, by
    rw [hvalue₀, hvalue₁]
    norm_num⟩
  rw [diagramOrder_of_not_above hnot, if_pos habove]

end CompareChunks

end ConnectCoin
