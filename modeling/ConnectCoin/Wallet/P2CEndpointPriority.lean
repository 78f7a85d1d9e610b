/-
Which address of a domain is tried next (`P2CEndpointPriority::Select` in `wallet/p2c_endpoint_priority.h`).

Every signature mask has its own credits and its own cursor. A selection measures the rates of the available endpoints,
gives each its share of the turn, and takes the greatest credit from the cursor on.
- `P2CEndpointPriority`: n endpoints with their credits, of any ordered field K in the place of `double`. A rate is what
  `ConnectionRate` of the endpoint's statistics returns in that turn, and is an argument.
- `select`: `Select`; it returns the place of the selected endpoint. `runSelect`: one selection after the other, of any
  masks.
Results: `select_turn`: a selection is a turn of smooth weighted round robin; `endpoints_sampled`: credits make up 0 and
are bounded, every endpoint gets its shares up to n, and is chosen once in 100 n^2 selections; `lone_credit`: the credit
of a lone endpoint is not below n - 1.
Left out: `Refresh`, and the statistics objects that a selection hands out.
-/
import ConnectCoin.Core.Transaction
import ConnectCoin.Lib.RoundRobin

namespace ConnectCoin.Wallet

open Lib List

/-- `MASK_COUNT` -/
def MASK_COUNT : ℕ := SIGNATURE_ALGORITHMS_ALL.toNat

/-- the state of n endpoints κ -/
structure P2CEndpointPriority (κ K : Type) (n : ℕ) where
  endpoint : Fin n → κ
  credit : ℕ → Fin n → K
  next : ℕ → ℕ

section
variable {κ K : Type} {n : ℕ} [Field K] [LinearOrder K]

/-- `EXPLORATION` -/
def EXPLORATION : K := 1 / 100

variable (eligible : Fin n → Bool)

/-- `maximum`: the greatest rate -/
def maximumRate (rate : Fin n → K) : K :=
  (List.finRange n).foldl (fun maximum i => if eligible i then max maximum (rate i) else maximum) 0

/-- `total`: the sum of the rates, each divided by the greatest -/
def totalRate (rate : Fin n → K) : K :=
  (List.finRange n).foldl (fun total i => if eligible i then total + rate i / maximumRate eligible rate else total) 0

def eligibleCount : ℕ := (List.finRange n).countP eligible

/-- what an endpoint is credited in a turn -/
def shareOf (rate : Fin n → K) (i : Fin n) : K :=
  EXPLORATION / eligibleCount eligible + (1 - EXPLORATION) * (rate i / maximumRate eligible rate) /
    totalRate eligible rate

/-- one turn of the loop over the candidates -/
def consider (credit : Fin n → K) (selected : Option (Fin n)) (candidate : Fin n) : Option (Fin n) :=
  if eligible candidate then
    match selected with
    | none => some candidate
    | some best => if credit candidate > credit best then some candidate else some best
  else selected

/-- the endpoints in the order in which they are candidates -/
def candidates [NeZero n] (cursor : ℕ) : List (Fin n) := (List.range n).map fun offset => Fin.ofNat n (cursor + offset)

/-- `Select`, of endpoints that are there, and a mask that is in range -/
def selectMask [NeZero n] (s : P2CEndpointPriority κ K n) (mask : ℕ) (rate : Fin n → K) (available : κ → Bool) :
    Option (Fin n) × P2CEndpointPriority κ K n :=
  let eligible := fun i => available (s.endpoint i)
  if eligibleCount eligible = 0 then (none, s)
  else
    let credit := fun i => if eligible i then s.credit mask i + shareOf eligible rate i else s.credit mask i
    match (candidates (s.next mask % n)).foldl (consider eligible credit) none with
    | none => (none, s)
    | some selected =>
      (some selected, { s with
          credit := Function.update s.credit mask (Function.update credit selected (credit selected - 1))
          next := Function.update s.next mask ((selected.val + 1) % n) })

variable (s : P2CEndpointPriority κ K n)

/-- `Select` -/
def select (signatureAlgorithmsMask : UInt8) (rate : Fin n → K) (available : κ → Bool) :
    Option (Fin n) × P2CEndpointPriority κ K n :=
  if h : n = 0 then (none, s)
  else if signatureAlgorithmsMask = 0 ∨ signatureAlgorithmsMask.toNat > MASK_COUNT then (none, s)
  else
    haveI : NeZero n := ⟨h⟩
    selectMask s (signatureAlgorithmsMask.toNat - 1) rate available

/-- endpoints without a history -/
def P2CEndpointPriority.fresh (endpoint : Fin n → κ) : P2CEndpointPriority κ K n := ⟨endpoint, fun _ _ => 0, fun _ => 0⟩

/-- all endpoints are available -/
def selectAll (call : UInt8 × (Fin n → K)) : Option (Fin n) × P2CEndpointPriority κ K n :=
  select s call.1 call.2 fun _ => true

/-- the state after selections, each with its mask and the rates it measures -/
def runSelect (calls : List (UInt8 × (Fin n → K))) : P2CEndpointPriority κ K n :=
  calls.foldl (fun s call => (selectAll s call).2) s

/-- the selections of one mask: the shares of the endpoints, and the endpoint that is selected -/
def turnsOf (mask : UInt8) : P2CEndpointPriority κ K n → List (UInt8 × (Fin n → K)) → List ((Fin n → K) × Fin n)
  | _, [] => []
  | s, call :: calls =>
    (if call.1 = mask then (selectAll s call).1.toList.map fun i => (shareOf (fun _ => true) call.2, i) else []) ++
      turnsOf mask (selectAll s call).2 calls

/-! ## A turn -/

theorem eligibleCount_all : eligibleCount (fun _ : Fin n => true) = n := by simp [eligibleCount]

theorem totalRate_eq (rate : Fin n → K) :
    totalRate (fun _ => true) rate = ∑ i, rate i / maximumRate (fun _ => true) rate := by
  simp only [totalRate, if_true]
  rw [Fin.sum_univ_def, sum_eq_foldl, foldl_map]

section
variable [NeZero n] {rate : Fin n → K} (hrate : ∀ i, 0 < rate i)
include hrate

theorem maximumRate_pos : 0 < maximumRate (fun _ => true) rate := by
  have hfold : ∀ (xs : List (Fin n)) (m : K), 0 < m ∨ xs ≠ [] → 0 < xs.foldl (fun m i => max m (rate i)) m := by
    intro xs
    induction xs with
    | nil => exact fun m h => h.resolve_right fun hne => hne rfl
    | cons i xs ih => exact fun m _ => ih _ (Or.inl (lt_max_of_lt_right (hrate i)))
  exact hfold _ 0 (Or.inr (ne_nil_of_mem (mem_finRange 0)))

variable [IsStrictOrderedRing K]

theorem totalRate_pos : 0 < totalRate (fun _ => true) rate := by
  rw [totalRate_eq]
  exact Finset.sum_pos (fun i _ => div_pos (hrate i) (maximumRate_pos hrate)) Finset.univ_nonempty

/-- Every endpoint gets its part of the exploration, and something for its rate. -/
theorem lt_shareOf (i : Fin n) : 1 / (100 * n) < shareOf (fun _ => true) rate i := by
  have hrated : 0 < (1 - EXPLORATION) * (rate i / maximumRate (fun _ => true) rate) / totalRate (fun _ => true) rate :=
    div_pos (mul_pos (by norm_num [EXPLORATION]) (div_pos (hrate i) (maximumRate_pos hrate))) (totalRate_pos hrate)
  rw [shareOf, eligibleCount_all, EXPLORATION, div_div]
  rw [EXPLORATION] at hrated
  linarith

theorem sum_shareOf : ∑ i, shareOf (fun _ => true) rate i = 1 := by
  have hn : (n : K) ≠ 0 := NeZero.ne _
  have htotal := (totalRate_pos hrate).ne'
  simp only [shareOf, eligibleCount_all, Finset.sum_add_distrib, Finset.sum_const, Finset.card_univ,
    Fintype.card_fin, nsmul_eq_mul]
  rw [← Finset.sum_div, ← Finset.mul_sum, ← totalRate_eq, mul_div_cancel₀ _ hn,
    mul_div_cancel_right₀ _ htotal, add_sub_cancel]

end

omit [Field K] in
/-- The loop over the candidates ends with a greatest credit. -/
theorem foldl_consider (credit : Fin n → K) {xs : List (Fin n)} (hne : xs ≠ []) :
    ∃ best, xs.foldl (consider (fun _ => true) credit) none = some best ∧ ∀ i ∈ xs, credit i ≤ credit best := by
  have hfold : ∀ (xs : List (Fin n)) (b : Fin n),
      ∃ best, xs.foldl (consider (fun _ => true) credit) (some b) = some best ∧ credit b ≤ credit best ∧
      ∀ i ∈ xs, credit i ≤ credit best := by
    intro xs
    induction xs with
    | nil => exact fun b => ⟨b, rfl, le_rfl, by simp⟩
    | cons i xs ih =>
      intro b
      by_cases hgreater : credit i > credit b
      · obtain ⟨best, hbest, hi, hxs⟩ := ih i
        refine ⟨best, ?_, hgreater.le.trans hi, forall_mem_cons.2 ⟨hi, hxs⟩⟩
        rw [foldl_cons, consider, if_pos rfl]
        simp only [if_pos hgreater, hbest]
      · obtain ⟨best, hbest, hb, hxs⟩ := ih b
        refine ⟨best, ?_, hb, forall_mem_cons.2 ⟨(not_lt.1 hgreater).trans hb, hxs⟩⟩
        rw [foldl_cons, consider, if_pos rfl]
        simp only [if_neg hgreater, hbest]
  obtain ⟨i, xs, rfl⟩ := exists_cons_of_ne_nil hne
  obtain ⟨best, hbest, hi, hxs⟩ := hfold xs i
  exact ⟨best, hbest, forall_mem_cons.2 ⟨hi, hxs⟩⟩

theorem mem_candidates [NeZero n] {cursor : ℕ} (h : cursor < n) (i : Fin n) : i ∈ candidates cursor := by
  refine mem_map.2 ⟨(i + (n - cursor)) % n, mem_range.2 (Nat.mod_lt _ (Nat.pos_of_neZero n)), Fin.ext ?_⟩
  have hround : cursor + (i + (n - cursor)) = i + n := by omega
  rw [Fin.val_ofNat, Nat.add_mod_mod, hround, Nat.add_mod_right, Nat.mod_eq_of_lt i.isLt]

variable [IsStrictOrderedRing K] {call : UInt8 × (Fin n → K)} (s : P2CEndpointPriority κ K n)

/-- A selection is a turn of the credits of its mask, and leaves those of the other masks. -/
theorem selectAll_turn [NeZero n] (hrate : ∀ i, 0 < call.2 i) (hmask : call.1 ≠ 0 ∧ call.1.toNat ≤ MASK_COUNT) :
    ∃ chosen, (selectAll s call).1 = some chosen ∧
      FairTurn (s.credit (call.1.toNat - 1)) (shareOf (fun _ => true) call.2) chosen
        ((selectAll s call).2.credit (call.1.toNat - 1)) ∧
      ∀ m, m ≠ call.1.toNat - 1 → (selectAll s call).2.credit m = s.credit m := by
  have hn : ¬ n = 0 := NeZero.ne n
  have hvalid : ¬ (call.1 = 0 ∨ call.1.toNat > MASK_COUNT) := by
    rw [not_or, gt_iff_lt, not_lt]
    exact hmask
  have hselect : selectAll s call = selectMask s (call.1.toNat - 1) call.2 fun _ => true := by
    rw [selectAll, select, dif_neg hn, if_neg hvalid]
  have hall := mem_candidates (Nat.mod_lt (s.next (call.1.toNat - 1)) (Nat.pos_of_neZero n))
  obtain ⟨best, hbest, hgreatest⟩ :=
    foldl_consider (fun i => s.credit (call.1.toNat - 1) i + shareOf (fun _ => true) call.2 i)
    (ne_nil_of_mem (hall 0))
  have hresult : selectAll s call = (some best, { s with
      credit := Function.update s.credit (call.1.toNat - 1) (Function.update (fun i => s.credit (call.1.toNat - 1) i +
        shareOf (fun _ => true) call.2 i) best (s.credit (call.1.toNat - 1) best +
        shareOf (fun _ => true) call.2 best - 1))
      next := Function.update s.next (call.1.toNat - 1) ((best.val + 1) % n) }) := by
    rw [hselect, selectMask]
    simp only [eligibleCount_all, hn, if_false, if_true, hbest]
  rw [hresult]
  refine ⟨best, rfl, ⟨fun i => ?_, sum_shareOf hrate, fun i => hgreatest i (hall i), fun i => ?_⟩,
    fun m hm => Function.update_of_ne hm _ _⟩
  · exact lt_trans (by have := Nat.pos_of_neZero n; positivity) (lt_shareOf hrate i)
  · simp only [Function.update_self]
    split_ifs with hi
    · rw [hi, Function.update_self]
    · rw [Function.update_of_ne hi, sub_zero]

theorem selectAll_other [NeZero n] (hrate : ∀ i, 0 < call.2 i) {mask : UInt8} (hmask : mask ≠ 0)
    (hother : call.1 ≠ mask) : (selectAll s call).2.credit (mask.toNat - 1) = s.credit (mask.toNat - 1) := by
  by_cases hcall : call.1 ≠ 0 ∧ call.1.toNat ≤ MASK_COUNT
  · obtain ⟨_, _, _, hrest⟩ := selectAll_turn s hrate hcall
    apply hrest
    have hpos : mask.toNat ≠ 0 := fun h => hmask (UInt8.toNat_inj.1 h)
    have hpos' : call.1.toNat ≠ 0 := fun h => hcall.1 (UInt8.toNat_inj.1 h)
    have hne : call.1.toNat ≠ mask.toNat := fun h => hother (UInt8.toNat_inj.1 h)
    omega
  · have hinvalid : call.1 = 0 ∨ call.1.toNat > MASK_COUNT := by
      rwa [not_and_or, not_not, not_le] at hcall
    rw [selectAll, select, dif_neg (NeZero.ne n), if_pos hinvalid]

/-! ## Runs -/

/-- The selections of a mask are turns of its credits, with a share for every endpoint. -/
theorem runSelect_turns [NeZero n] (mask : UInt8) (hmask : mask ≠ 0 ∧ mask.toNat ≤ MASK_COUNT)
    (s : P2CEndpointPriority κ K n) {calls : List (UInt8 × (Fin n → K))} (hrates : ∀ call ∈ calls, ∀ i, 0 < call.2 i) :
    FairTurns (s.credit (mask.toNat - 1)) (turnsOf mask s calls) ((runSelect s calls).credit (mask.toNat - 1)) ∧
      (turnsOf mask s calls).length = calls.countP (·.1 = mask) ∧
      ∀ t ∈ turnsOf mask s calls, ∀ i, 1 / (100 * n) ≤ t.1 i := by
  induction calls generalizing s with
  | nil => exact ⟨FairTurns.nil _, rfl, by simp [turnsOf]⟩
  | cons call calls ih =>
    obtain ⟨hrate, hrates⟩ := forall_mem_cons.1 hrates
    obtain ⟨hturns, hlength, hleast⟩ := ih (selectAll s call).2 hrates
    by_cases hcall : call.1 = mask
    · obtain ⟨chosen, hchosen, hturn, -⟩ := selectAll_turn s hrate (hcall ▸ hmask)
      rw [hcall] at hturn
      have hcons : turnsOf mask s (call :: calls) = (shareOf (fun _ => true) call.2, chosen) :: turnsOf mask
          (selectAll s call).2 calls := by
        rw [turnsOf, if_pos hcall, hchosen]
        rfl
      rw [hcons, countP_cons_of_pos (by simpa using hcall), length_cons, hlength]
      exact ⟨FairTurns.cons hturn hturns, rfl, forall_mem_cons.2 ⟨fun i => (lt_shareOf hrate i).le, hleast⟩⟩
    · rw [turnsOf, if_neg hcall, nil_append, countP_cons_of_neg (by simpa using hcall),
        ← selectAll_other s hrate hmask.1 hcall]
      exact ⟨hturns, hlength, hleast⟩

theorem fresh_balanced (endpoint : Fin n → κ) (m : ℕ) :
    Balanced ((P2CEndpointPriority.fresh endpoint : P2CEndpointPriority κ K n).credit m) :=
  ⟨Finset.sum_const_zero, fun _ => neg_one_lt_zero⟩

/-- **Every endpoint is sampled.** After any selections of any masks, and with any rates, the credits of a mask make up
0 and lie above -1 and, unless there is one endpoint only, below n - 1. Over any further selections of the mask, an
endpoint is chosen as often as the sum of its shares says, up to less than n; so it is chosen in any 100 n^2 of them. -/
theorem endpoints_sampled (endpoint : Fin n → κ) (mask : UInt8) (hmask : mask ≠ 0 ∧ mask.toNat ≤ MASK_COUNT)
    (before calls : List (UInt8 × (Fin n → K))) (hrates : ∀ call ∈ before ++ calls, ∀ i, 0 < call.2 i) :
    let s := runSelect (P2CEndpointPriority.fresh endpoint) before
    ∑ i, s.credit (mask.toNat - 1) i = 0 ∧
      ∀ i, (-1 < s.credit (mask.toNat - 1) i ∧ s.credit (mask.toNat - 1) i ≤ n - 1 ∧
      (n ≠ 1 → s.credit (mask.toNat - 1) i < n - 1)) ∧
        |(chosenCount (turnsOf mask s calls) i : K) - shareSum (turnsOf mask s calls) i| < n ∧
        (100 * n ^ 2 ≤ calls.countP (·.1 = mask) → 1 ≤ chosenCount (turnsOf mask s calls) i) := by
  intro s
  obtain rfl | hn := eq_or_ne n 0
  · exact ⟨rfl, fun i => i.elim0⟩
  have : NeZero n := ⟨hn⟩
  rw [forall_mem_append] at hrates
  have hbalanced := (runSelect_turns mask hmask (P2CEndpointPriority.fresh endpoint) hrates.1).1.balanced
    (fresh_balanced endpoint _)
  obtain ⟨hturns, hlength, hleast⟩ := runSelect_turns mask hmask s hrates.2
  refine ⟨hbalanced.sum, fun i => ⟨⟨hbalanced.low i, ?_, fun hone => ?_⟩, ?_, fun hlong => ?_⟩⟩
  · simpa only [Fintype.card_fin] using hbalanced.high i
  · have : Nontrivial (Fin n) := Fin.nontrivial_iff_two_le.2 (by omega)
    simpa only [Fintype.card_fin] using hbalanced.high_lt i
  · simpa only [Fintype.card_fin] using hturns.fair hbalanced i
  · apply hturns.chosen hbalanced fun t ht => hleast t ht i
    have hpos : (0 : K) < n := Nat.cast_pos.2 (Nat.pos_of_neZero n)
    have hmany : (100 * n ^ 2 : K) ≤ (turnsOf mask s calls).length := by
      rw [hlength]
      exact_mod_cast hlong
    rw [Fintype.card_fin, mul_one_div, le_div_iff₀ (by positivity)]
    linarith

end

/-- two endpoints, one of them three times as fast, after selections of two masks -/
def twoEndpoints : P2CEndpointPriority ℕ ℚ 2 :=
  runSelect (P2CEndpointPriority.fresh Fin.val) [(3, ![1, 3]), (7, ![2, 5])]

/-- The slower one is chosen in 400 further selections, and about as often as its share says. -/
theorem two_endpoints_sampled :
    |(chosenCount (turnsOf 7 twoEndpoints (List.replicate 400 (7, ![1, 3]))) 0 : ℚ) -
      shareSum (turnsOf 7 twoEndpoints (List.replicate 400 (7, ![1, 3]))) 0| < (2 : ℕ) ∧
    1 ≤ chosenCount (turnsOf 7 twoEndpoints (List.replicate 400 (7, ![1, 3]))) 0 := by
  have hrates : ∀ call ∈ [(3, ![1, 3]), (7, ![2, 5])] ++ List.replicate 400 ((7 : UInt8), (![1, 3] : Fin 2 → ℚ)),
      ∀ i, 0 < call.2 i := by
    rw [forall_mem_append, forall_mem_replicate]
    decide
  obtain ⟨-, hfair, hchosen⟩ := (endpoints_sampled Fin.val 7 (by decide) _ _ hrates).2 0
  exact ⟨hfair, hchosen (by rw [countP_replicate]; decide)⟩

/-- one endpoint, selected once -/
noncomputable def loneEndpoint : P2CEndpointPriority ℕ ℝ 1 :=
  runSelect (P2CEndpointPriority.fresh Fin.val) [(7, fun _ => 5)]

/-- The credit of a lone endpoint is 0, which is not below n - 1. -/
theorem lone_credit : ¬ loneEndpoint.credit 6 0 < (1 : ℕ) - 1 := by
  have hturns : FairTurns _ _ (loneEndpoint.credit 6) :=
    (runSelect_turns 7 (by decide) (P2CEndpointPriority.fresh Fin.val) (by simp)).1
  have hsum := (hturns.balanced (fresh_balanced _ _)).sum
  rw [Fin.sum_univ_one] at hsum
  rw [hsum, Nat.cast_one, sub_self]
  exact lt_irrefl 0

end ConnectCoin.Wallet
