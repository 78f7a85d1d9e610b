/-
Pacing of connection starts (`P2CConnectionRateLimiter` in `wallet/p2c_connection_rate.h`). Times are nanoseconds of a
monotone clock.

- `P2CConnectionRateLimiter`: the next deadline and the idle flag; `blockedUntil`, `markIdle`, `recordStart`.
- `Step rate`, `Run rate`: the clock moves on, the limiter is asked or marked idle, and starts are recorded, each at or
  behind an instant at which `BlockedUntil` returned nothing and since which there was no other start (clear). A start
  is recorded while idle if it is the first, or if `MarkIdle` was called since the last one.
Result: `start_rate_bounded`. A window of length L has at most 2 + (L + 1 s) / interval starts, and at most 1 + L /
interval if its first start was recorded while idle.
-/
import Mathlib.Tactic

namespace ConnectCoin.Wallet

open List

/-! ## The limiter -/

structure P2CConnectionRateLimiter where
  next : Option ℤ
  idle : Bool

namespace P2CConnectionRateLimiter

def init : P2CConnectionRateLimiter := ⟨none, true⟩

variable (l : P2CConnectionRateLimiter)

def blockedUntil (now : ℤ) : Option ℤ := l.next.filter (now < ·)

def markIdle : P2CConnectionRateLimiter := { l with idle := true }

/-- the time between two starts -/
def interval (rate : ℤ) : ℤ := (1000000000 + rate - 1) / rate

/-- the deadline behind a start -/
def deadline (rate now : ℤ) : ℤ :=
  let base := match l.next with
    | none => now
    | some next => if l.idle then max next now else next
  max (base + interval rate) (now - 1000000000)

def recordStart (rate now : ℤ) : P2CConnectionRateLimiter := ⟨some (l.deadline rate now), false⟩

variable {l : P2CConnectionRateLimiter} {rate : ℤ}

theorem deadline_next {next : ℤ} (h : next ∈ l.next) (rate now : ℤ) : next + interval rate ≤ l.deadline rate now := by
  rw [deadline, Option.mem_def.1 h]
  refine le_max_of_le_left (add_le_add_left ?_ _)
  dsimp only
  split
  · exact le_max_left _ _
  · exact le_rfl

/-- an idle limiter gives no credit for the time it was idle -/
theorem deadline_idle (h : l.idle = true) (rate now : ℤ) : now + interval rate ≤ l.deadline rate now := by
  refine le_max_of_le_left (add_le_add_left ?_ _)
  split
  · exact le_rfl
  · exact (le_max_right _ _).trans_eq (if_pos h).symm

theorem interval_eq_ceil (h : 0 < rate) : interval rate = ⌈(1000000000 : ℚ) / rate⌉ := by
  have hrate : (0 : ℚ) < rate := by exact_mod_cast h
  refine (Int.ceil_eq_iff.2 ⟨?_, ?_⟩).symm
  · rw [lt_div_iff₀ hrate]
    have hle := Int.ediv_mul_le (1000000000 + rate - 1) h.ne'
    have hlt : (interval rate - 1) * rate < 1000000000 := by rw [interval]; linarith
    exact_mod_cast hlt
  · rw [div_le_iff₀ hrate]
    have hlt := Int.lt_ediv_add_one_mul_self (1000000000 + rate - 1) h
    have hle : 1000000000 ≤ interval rate * rate := by rw [interval]; linarith
    exact_mod_cast hle

theorem interval_pos (h : 0 < rate) : 0 < interval rate := by
  rw [interval_eq_ceil h, Int.ceil_pos]
  have hrate : (0 : ℚ) < rate := by exact_mod_cast h
  positivity

/-! ## Runs -/

/-- a start: its time, whether it was recorded while idle, and the deadline behind it -/
structure Start where
  time : ℤ
  idle : Bool
  next : ℤ

structure Pacing where
  limiter : P2CConnectionRateLimiter
  clock : ℤ
  /-- `BlockedUntil` returned nothing since the last start -/
  clear : Bool
  /-- there was no start yet, or `MarkIdle` was called since the last one -/
  idle : Bool
  starts : List Start

inductive Step (rate : ℤ) : Pacing → Pacing → Prop
  | tick (s : Pacing) (clock : ℤ) (h : s.clock ≤ clock) : Step rate s { s with clock := clock }
  | ask (s : Pacing) (h : s.limiter.blockedUntil s.clock = none) : Step rate s { s with clear := true }
  | markIdle (s : Pacing) : Step rate s { s with limiter := s.limiter.markIdle, idle := true }
  | start (s : Pacing) (h : s.clear = true) : Step rate s { s with
      limiter := s.limiter.recordStart rate s.clock
      clear := false
      idle := false
      starts := s.starts ++ [⟨s.clock, s.idle, s.limiter.deadline rate s.clock⟩] }

/-- a run from a new limiter -/
def Run (rate : ℤ) (s : Pacing) : Prop := ∃ clock, Relation.ReflTransGen (Step rate) ⟨init, clock, false, true, []⟩ s

/-- the deadline behind x is kept by y, and y's is an interval later -/
def Spaced (rate : ℤ) (x y : Start) : Prop := x.next ≤ y.time ∧ x.next + interval rate ≤ y.next

/-- the deadline behind a start: at most a second late, and not at all behind an idle one -/
structure Charged (rate : ℤ) (x : Start) : Prop where
  late : x.time - 1000000000 ≤ x.next
  idle : x.idle = true → x.time + interval rate ≤ x.next

structure Paced (rate : ℤ) (s : Pacing) : Prop where
  spaced : s.starts.Pairwise (Spaced rate)
  charged : ∀ x ∈ s.starts, Charged rate x
  next : ∀ x ∈ s.starts, ∃ next, s.limiter.next = some next ∧ x.next ≤ next
  clear : s.clear = true → ∀ next ∈ s.limiter.next, next ≤ s.clock
  idle : s.limiter.idle = s.idle

theorem Step.paced (hrate : 0 < rate) {s t : Pacing} (h : Step rate s t) (hs : Paced rate s) : Paced rate t := by
  obtain ⟨hspaced, hcharged, hnext, hclear, hidle⟩ := hs
  cases h with
  | tick clock hclock => exact ⟨hspaced, hcharged, hnext, fun h next hmem => (hclear h next hmem).trans hclock, hidle⟩
  | ask hfree => exact ⟨hspaced, hcharged, hnext, fun _ => by simpa [blockedUntil] using hfree, hidle⟩
  | markIdle => exact ⟨hspaced, hcharged, hnext, hclear, rfl⟩
  | start h =>
    have hbehind : ∀ x ∈ s.starts, Spaced rate x ⟨s.clock, s.idle, s.limiter.deadline rate s.clock⟩ := by
      intro x hx
      obtain ⟨next, hmem, hle⟩ := hnext x hx
      exact ⟨hle.trans (hclear h next hmem), (add_le_add_left hle _).trans (deadline_next hmem rate s.clock)⟩
    refine ⟨?_, ?_, ?_, (fun h => by cases h), rfl⟩
    · rw [pairwise_append]
      refine ⟨hspaced, pairwise_singleton _ _, fun x hx y hy => ?_⟩
      rw [mem_singleton.1 hy]
      exact hbehind x hx
    · rw [forall_mem_append, forall_mem_singleton]
      exact ⟨hcharged, le_max_right _ _, fun hghost => deadline_idle (hidle.trans hghost) rate s.clock⟩
    · rw [forall_mem_append, forall_mem_singleton]
      refine ⟨fun x hx => ⟨_, rfl, ?_⟩, _, rfl, le_rfl⟩
      exact (le_add_of_nonneg_right (interval_pos hrate).le).trans (hbehind x hx).2

theorem Run.paced (hrate : 0 < rate) {s : Pacing} (h : Run rate s) : Paced rate s := by
  obtain ⟨clock, hrun⟩ := h
  induction hrun with
  | refl => exact ⟨.nil, by simp, by simp, by simp, rfl⟩
  | tail _ hstep ih => exact hstep.paced hrate ih

/-! ## Windows -/

variable {ys : List Start}

/-- Behind the deadline of x, n starts take n - 1 intervals. -/
theorem spaced_length {b : ℤ} {x y : Start} (h : (x :: y :: ys).Pairwise (Spaced rate))
    (hb : ∀ z ∈ y :: ys, z.time ≤ b) : x.next + ys.length * interval rate ≤ b := by
  induction ys generalizing x y with
  | nil =>
    have hxy : Spaced rate x y := rel_of_pairwise_cons h (by simp)
    simpa using hxy.1.trans (hb y (by simp))
  | cons z ys ih =>
    have hxy : Spaced rate x y := rel_of_pairwise_cons h (by simp)
    have hrest := ih h.of_cons fun w hw => hb w (mem_cons_of_mem _ hw)
    calc x.next + (z :: ys).length * interval rate
        = x.next + interval rate + ys.length * interval rate := by rw [length_cons]; push_cast; ring
      _ ≤ y.next + ys.length * interval rate := add_le_add_left hxy.2 _
      _ ≤ b := hrest

/-- A start whose deadline is c behind its time has at most 1 + (L - c) / interval starts in the time L after it. -/
theorem window_length {c L : ℤ} (hrate : 0 < rate) {x : Start} (h : (x :: ys).Pairwise (Spaced rate))
    (hx : x.time + c ≤ x.next) (hc : c ≤ interval rate) (hL : 0 ≤ L) (hys : ∀ y ∈ ys, y.time ≤ x.time + L) :
    ((x :: ys).length : ℤ) ≤ 2 + (L - c) / interval rate := by
  have hpos := interval_pos hrate
  rcases ys with _ | ⟨y, ys⟩
  · have hle : -1 ≤ (L - c) / interval rate := by
      rw [Int.le_ediv_iff_mul_le hpos]
      linarith
    rw [length_singleton]
    push_cast
    linarith
  · have hlen := spaced_length h hys
    have hle : (ys.length : ℤ) ≤ (L - c) / interval rate := by
      rw [Int.le_ediv_iff_mul_le hpos]
      linarith
    simp only [length_cons]
    push_cast
    linarith

/-- **Start rate.** In every run at a positive rate a closed window of length L has at most 2 + (L + 1 s) / interval
starts. A window whose first start is the first of all, or has a `MarkIdle` between it and the start before, has at most
1 + L / interval: time without work gives no credit. -/
theorem start_rate_bounded {rate : ℤ} (hrate : 0 < rate) {s : Pacing} (h : Run rate s) {L : ℤ} (hL : 0 ≤ L) :
    (∀ a, ((s.starts.filter fun x => a ≤ x.time ∧ x.time ≤ a + L).length : ℤ) ≤
      2 + (L + 1000000000) / ⌈(1000000000 : ℚ) / rate⌉) ∧
        ∀ before x rest, s.starts = before ++ x :: rest → x.idle = true →
          (((x :: rest).filter fun y => y.time ≤ x.time + L).length : ℤ) ≤ 1 + L / ⌈(1000000000 : ℚ) / rate⌉ := by
  obtain ⟨hspaced, hcharged, -, -, -⟩ := h.paced hrate
  have hpos := interval_pos hrate
  rw [← interval_eq_ceil hrate]
  constructor
  · intro a
    have hwindow := hspaced.filter (fun x => decide (a ≤ x.time ∧ x.time ≤ a + L))
    have hmem : ∀ x ∈ s.starts.filter (fun x => decide (a ≤ x.time ∧ x.time ≤ a + L)), x ∈ s.starts ∧ a ≤ x.time ∧
        x.time ≤ a + L := by
      intro x hx
      simpa using hx
    generalize s.starts.filter (fun x => decide (a ≤ x.time ∧ x.time ≤ a + L)) = window at hwindow hmem ⊢
    rcases window with _ | ⟨x, ys⟩
    · have hnonneg : 0 ≤ (L + 1000000000) / interval rate := Int.ediv_nonneg (by linarith) hpos.le
      rw [length_nil, Nat.cast_zero]
      linarith
    · obtain ⟨hx, hax, -⟩ := hmem x (by simp)
      have hlate := (hcharged x hx).late
      have hlen := window_length hrate (c := -1000000000) hwindow (by linarith) (by linarith) hL fun y hy => by
        linarith [(hmem y (mem_cons_of_mem _ hy)).2.2]
      rwa [sub_neg_eq_add] at hlen
  · intro before x rest hstarts hidle
    rw [hstarts] at hspaced hcharged
    have hcharge := (hcharged x (by simp)).idle hidle
    have htail := ((pairwise_append.1 hspaced).2.1).filter (fun y => decide (y.time ≤ x.time + L))
    rw [filter_cons_of_pos (by simpa using hL)] at htail ⊢
    have hlen := window_length hrate htail hcharge le_rfl hL fun y hy => by simpa using (mem_filter.1 hy).2
    rw [Int.sub_ediv_of_dvd _ dvd_rfl, Int.ediv_self hpos.ne'] at hlen
    linarith

/-- Three starts at a rate of one a second. `MarkIdle` is called behind the first one, and the second comes ten seconds
later: it begins a window of its own, in which the third has to wait. -/
theorem two_starts_bounded : ∃ s, Run 1 s ∧ s.starts.map (fun x => (x.time, x.idle)) =
      [(0, true), (10000000000, true), (11000000000, false)] ∧
    ((s.starts.filter fun x => 0 ≤ x.time ∧ x.time ≤ 0 + 11000000000).length : ℤ) ≤
      2 + (11000000000 + 1000000000) / ⌈(1000000000 : ℚ) / ((1 : ℤ) : ℚ)⌉ ∧
    (((s.starts.drop 1).filter fun x => x.time ≤ 10000000000 + 1999999999).length : ℤ) ≤
      1 + 1999999999 / ⌈(1000000000 : ℚ) / ((1 : ℤ) : ℚ)⌉ := by
  have first := (Relation.ReflTransGen.single (.ask ⟨init, 0, false, true, []⟩ rfl : Step 1 _ _)).tail (.start _ rfl)
  have rested := (first.tail (.markIdle _)).tail (.tick _ 10000000000 (by decide))
  have second := (rested.tail (.ask _ (by decide))).tail (.start _ rfl)
  have later := second.tail (.tick _ 11000000000 (by decide))
  have third := (later.tail (.ask _ (by decide))).tail (.start _ rfl)
  refine ⟨_, ⟨0, third⟩, rfl, (start_rate_bounded (by decide) ⟨0, third⟩ (by decide)).1 0, ?_⟩
  exact (start_rate_bounded (by decide) ⟨0, third⟩ (by decide)).2 [_] _ [_] rfl rfl

end P2CConnectionRateLimiter

end ConnectCoin.Wallet
