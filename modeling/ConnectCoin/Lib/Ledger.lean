/-
Finite maps of holdings. GENERAL: keys α, holdings β, maps `Finmap`; nothing here is about a particular kind of holding.

- `Sub m n`: every holding of m is in n. `Agree R m n`: the same keys, with holdings that R relates. `Shows p c m`: c is
  m restricted to the holdings with property p.
- `erases`, `inserts`: taking out a list of keys, putting in a list of entries; `transfer` does one after the other.
- `weight w m`: the sum of w over all holdings.
Results:
- `Sub` is kept by `transfer` (`Sub.transfer`), and undoing a transfer on a smaller map stays below the map before it
  (`Sub.undo`);
- undoing a transfer whose new keys were free gives back the map before it, up to R (`Agree.undo`);
- a map that shows the holdings with a property follows transfers (`Shows.transfer`) and their undoing (`Shows.undo`);
- taking out distinct holdings lowers the weight by exactly theirs (`weight_erases`), putting in entries raises it by at
  most theirs (`weight_inserts_le`): an entry put on an occupied key replaces what was there. On free keys it raises it
  by exactly theirs (`weight_inserts`).
-/
import Mathlib.Data.Finmap
import Mathlib.Algebra.BigOperators.Group.Finset.Basic
import Mathlib.Algebra.Order.BigOperators.Group.Finset
import Mathlib.Tactic

namespace ConnectCoin.Lib

open List Option

/-- holdings by key -/
abbrev Ledger (α β : Type) := Finmap fun _ : α => β

variable {α β : Type} [DecidableEq α]

theorem lookup_erase_if (m : Ledger α β) (k k' : α) : (m.erase k).lookup k' = if k' = k then none else m.lookup k' := by
  split_ifs with heq
  · rw [heq, Finmap.lookup_erase]
  · exact Finmap.lookup_erase_ne heq

theorem lookup_insert_if (m : Ledger α β) (k : α) (b : β) (k' : α) :
    (m.insert k b).lookup k' = if k' = k then some b else m.lookup k' := by
  split_ifs with heq
  · rw [heq, Finmap.lookup_insert]
  · exact Finmap.lookup_insert_of_ne _ heq

/-! ## Lists of keys and entries -/

/-- without the keys -/
def erases (ks : List α) (m : Ledger α β) : Ledger α β := ks.foldl (fun m k => m.erase k) m

/-- with the entries, later ones replacing earlier ones -/
def inserts (es : List (α × β)) (m : Ledger α β) : Ledger α β := es.foldl (fun m e => m.insert e.1 e.2) m

/-- spend some keys, then create some entries -/
def transfer (spent : List α) (created : List (α × β)) (m : Ledger α β) : Ledger α β := inserts created (erases spent m)

theorem erases_cons (k : α) (ks : List α) (m : Ledger α β) : erases (k :: ks) m = erases ks (m.erase k) := rfl
theorem inserts_cons (e : α × β) (es : List (α × β)) (m : Ledger α β) :
    inserts (e :: es) m = inserts es (m.insert e.1 e.2) := rfl

theorem lookup_erases (ks : List α) (m : Ledger α β) (k : α) :
    (erases ks m).lookup k = if k ∈ ks then none else m.lookup k := by
  induction ks generalizing m with
  | nil => simp [erases]
  | cons k' ks ih =>
    rw [erases_cons, ih, lookup_erase_if]
    by_cases heq : k = k' <;> simp [heq]

variable {es : List (α × β)} {m c n : Ledger α β} {spent : List α} {k : α} {created restored : List (α × β)}

theorem lookup_inserts_of_notMem (h : k ∉ es.map Prod.fst) (m : Ledger α β) : (inserts es m).lookup k = m.lookup k := by
  induction es generalizing m with
  | nil => rfl
  | cons e es ih =>
    obtain ⟨hne, hrest⟩ := not_or.1 (mt mem_cons.2 h)
    rw [inserts_cons, ih hrest, Finmap.lookup_insert_of_ne _ hne]

/-- A holding after insertions is one of the entries or was there before. -/
theorem lookup_inserts {b : β} (h : (inserts es m).lookup k = some b) :
    (k, b) ∈ es ∨ (k ∉ es.map Prod.fst ∧ m.lookup k = some b) := by
  induction es generalizing m with
  | nil => exact Or.inr ⟨not_mem_nil, h⟩
  | cons e es ih =>
    rw [inserts_cons] at h
    rcases ih h with hmem | ⟨hnot, hlookup⟩
    · exact Or.inl (mem_cons_of_mem e hmem)
    · rw [lookup_insert_if] at hlookup
      split_ifs at hlookup with heq
      · cases hlookup
        exact Or.inl (heq ▸ mem_cons_self)
      · exact Or.inr ⟨by simp [heq, hnot], hlookup⟩

theorem lookup_inserts_of_mem (h : k ∈ es.map Prod.fst) (m : Ledger α β) :
    ∃ b, (k, b) ∈ es ∧ (inserts es m).lookup k = some b := by
  induction es generalizing m with
  | nil => simp at h
  | cons e es ih =>
    by_cases hlater : k ∈ es.map Prod.fst
    · obtain ⟨b, hb, hlookup⟩ := ih hlater (m.insert e.1 e.2)
      exact ⟨b, mem_cons_of_mem e hb, hlookup⟩
    · have heq : k = e.1 := (mem_cons.1 h).resolve_right hlater
      subst heq
      refine ⟨e.2, mem_cons_self, ?_⟩
      rw [inserts_cons, lookup_inserts_of_notMem hlater, Finmap.lookup_insert]

/-- With distinct keys every entry is found. -/
theorem lookup_inserts_of_nodup (hnodup : (es.map Prod.fst).Nodup) {e : α × β} (he : e ∈ es) (m : Ledger α β) :
    (inserts es m).lookup e.1 = some e.2 := by
  obtain ⟨b, hb, hlookup⟩ := lookup_inserts_of_mem (mem_map_of_mem he) m
  have hsame : (e.1, b) = e := inj_on_of_nodup_map hnodup hb he rfl
  rw [hlookup, ← hsame]

/-- With distinct keys, what is put in at the first leaves the others free. -/
theorem lookup_insert_free {e : α × β} (hnew : e.1 ∉ es.map Prod.fst) (hfree : ∀ e' ∈ es, m.lookup e'.1 = none) :
    ∀ e' ∈ es, (m.insert e.1 e.2).lookup e'.1 = none := by
  intro e' he'
  have hne : e'.1 ≠ e.1 := fun heq => hnew (heq ▸ mem_map_of_mem he')
  rw [lookup_insert_if, if_neg hne, hfree e' he']

theorem erase_of_lookup_eq_none (h : m.lookup k = none) : m.erase k = m := by
  refine Finmap.ext_lookup fun k' => ?_
  rw [lookup_erase_if]
  split_ifs with heq
  · rw [heq, h]
  · rfl

/-- how many holdings are at a key -/
def held (m : Ledger α β) (k : α) : ℕ := if (m.lookup k).isSome then 1 else 0

/-- Spending distinct holdings and creating distinct ones on free keys keeps the balance of each key. -/
theorem count_transfer {spent : List α} {created : List (α × β)} (hspent : spent.Nodup)
    (hthere : ∀ k ∈ spent, (m.lookup k).isSome = true) (hcreated : (created.map Prod.fst).Nodup)
    (hfree : ∀ e ∈ created, (erases spent m).lookup e.1 = none) (k : α) :
    (created.map Prod.fst).count k + held m k = spent.count k + held (transfer spent created m) k := by
  rw [hcreated.count, hspent.count, held, held, transfer]
  by_cases hnew : k ∈ created.map Prod.fst
  · obtain ⟨b, -, hlookup⟩ := lookup_inserts_of_mem hnew (erases spent m)
    obtain ⟨e, he, rfl⟩ := mem_map.1 hnew
    have hgone := hfree e he
    rw [lookup_erases] at hgone
    rw [if_pos hnew, hlookup]
    by_cases hold : e.1 ∈ spent
    · rw [if_pos (hthere _ hold), if_pos hold]
      rfl
    · rw [if_neg hold] at hgone
      rw [hgone, if_neg hold]
      rfl
  · rw [if_neg hnew, lookup_inserts_of_notMem hnew, lookup_erases]
    by_cases hold : k ∈ spent
    · rw [if_pos (hthere k hold), if_pos hold, if_pos hold]
      rfl
    · rw [if_neg hold, if_neg hold]

/-! ## Smaller maps -/

/-- every holding of m is in n -/
def Sub (m n : Ledger α β) : Prop := ∀ k b, m.lookup k = some b → n.lookup k = some b

theorem Sub.erase (h : Sub m n) (k : α) : Sub (m.erase k) (n.erase k) := by
  intro k' b hb
  rw [lookup_erase_if] at hb ⊢
  split_ifs at hb ⊢
  exact h k' b hb

theorem Sub.insert (h : Sub m n) (k : α) (b : β) : Sub (m.insert k b) (n.insert k b) := by
  intro k' b' hb
  rw [lookup_insert_if] at hb ⊢
  split_ifs at hb ⊢
  · exact hb
  · exact h k' b' hb

theorem Sub.erases (h : Sub m n) (ks : List α) : Sub (Lib.erases ks m) (Lib.erases ks n) := by
  induction ks generalizing m n with
  | nil => exact h
  | cons k ks ih => exact ih (h.erase k)

theorem Sub.inserts (h : Sub m n) (es : List (α × β)) : Sub (Lib.inserts es m) (Lib.inserts es n) := by
  induction es generalizing m n with
  | nil => exact h
  | cons e es ih => exact ih (h.insert e.1 e.2)

/-- The same transfer on both. -/
theorem Sub.transfer (h : Sub m n) (spent : List α) (created : List (α × β)) :
    Sub (Lib.transfer spent created m) (Lib.transfer spent created n) := (h.erases spent).inserts created

/-- Undoing a transfer: without what it created and with some of what it spent, a map below the outcome is below the
origin. -/
theorem Sub.undo (h : Sub m (Lib.transfer spent created n)) (hrestored : ∀ e ∈ restored, n.lookup e.1 = some e.2) :
    Sub (Lib.inserts restored (Lib.erases (created.map Prod.fst) m)) n := by
  intro k b hb
  rcases lookup_inserts hb with hmem | ⟨-, hold⟩
  · exact hrestored (k, b) hmem
  · rw [lookup_erases] at hold
    split_ifs at hold with hcreated
    have hafter := h k b hold
    rw [Lib.transfer, lookup_inserts_of_notMem hcreated, lookup_erases] at hafter
    split_ifs at hafter
    exact hafter

/-! ## Related maps -/

/-- the same keys, with related holdings -/
def Agree (R : β → β → Prop) (m n : Ledger α β) : Prop := ∀ k, Option.Rel R (m.lookup k) (n.lookup k)

/-- Undoing a transfer that created its entries on free keys: all spent keys are restored, with holdings related to the
old ones. -/
theorem Agree.undo {R : β → β → Prop} (h : Agree R m (Lib.transfer spent created n))
    (hfree : ∀ e ∈ created, (Lib.erases spent n).lookup e.1 = none) (hall : ∀ k ∈ spent, k ∈ restored.map Prod.fst)
    (hrestored : ∀ e ∈ restored, ∃ b, n.lookup e.1 = some b ∧ R e.2 b) :
    Agree R (Lib.inserts restored (Lib.erases (created.map Prod.fst) m)) n := by
  intro k
  by_cases hk : k ∈ restored.map Prod.fst
  · obtain ⟨b, hb, hlookup⟩ := lookup_inserts_of_mem hk (Lib.erases (created.map Prod.fst) m)
    obtain ⟨b', hb', hR⟩ := hrestored (k, b) hb
    rw [hlookup, hb']
    exact Option.Rel.some hR
  · have hkept : (Lib.erases spent n).lookup k = n.lookup k := by
      rw [lookup_erases, if_neg (mt (hall k) hk)]
    rw [lookup_inserts_of_notMem hk, lookup_erases]
    split_ifs with hcreated
    · obtain ⟨e, he, rfl⟩ := mem_map.1 hcreated
      rw [← hkept, hfree e he]
      exact Option.Rel.none
    · have hafter := h k
      rwa [Lib.transfer, lookup_inserts_of_notMem hcreated, hkept] at hafter

/-! ## The part with a property -/

/-- c holds exactly what m holds with the property -/
def Shows (p : β → Bool) (c m : Ledger α β) : Prop := ∀ k, c.lookup k = (m.lookup k).filter p

variable {p : β → Bool}

theorem Shows.erases (h : Shows p c m) (ks : List α) : Shows p (Lib.erases ks c) (Lib.erases ks m) := by
  intro k
  rw [lookup_erases, lookup_erases]
  split_ifs
  · rfl
  · exact h k

/-- Of new entries on free keys, those with the property are put in. -/
theorem Shows.inserts (h : Shows p c m) (hnodup : (es.map Prod.fst).Nodup) (hfree : ∀ e ∈ es, m.lookup e.1 = none) :
    Shows p (Lib.inserts (es.filter fun e => p e.2) c) (Lib.inserts es m) := by
  induction es generalizing c m with
  | nil => exact h
  | cons e es ih =>
    obtain ⟨hnew, hnodup⟩ := nodup_cons.1 hnodup
    obtain ⟨hefree, hfree⟩ := forall_mem_cons.1 hfree
    have hlater := lookup_insert_free hnew hfree
    have hcase : ∀ c' : Ledger α β, (∀ k, k ≠ e.1 → c'.lookup k = c.lookup k) →
        c'.lookup e.1 = (some e.2).filter p → Shows p c' (m.insert e.1 e.2) := by
      intro c' hframe hhere k
      rw [lookup_insert_if]
      split_ifs with hk
      · rw [hk, hhere]
      · rw [hframe k hk, h k]
    rw [inserts_cons, filter_cons]
    split_ifs with hp
    · refine ih (hcase _ (fun k hk => Finmap.lookup_insert_of_ne _ hk) ?_) hnodup hlater
      rw [Finmap.lookup_insert, filter_some_pos hp]
    · refine ih (hcase c (fun _ _ => rfl) ?_) hnodup hlater
      rw [h e.1, hefree, filter_some_neg (Bool.eq_false_iff.2 hp)]
      rfl

/-- The same transfer on both, of entries on free keys. -/
theorem Shows.transfer (h : Shows p c m) (hnodup : (created.map Prod.fst).Nodup)
    (hfree : ∀ e ∈ created, m.lookup e.1 = none) :
    Shows p (Lib.inserts (created.filter fun e => p e.2) (Lib.erases spent c)) (Lib.transfer spent created m) := by
  refine (h.erases spent).inserts hnodup fun e he => ?_
  rw [lookup_erases, hfree e he]
  split_ifs <;> rfl

/-- Undoing a transfer: the created keys, which were free, are taken out, and of the spent entries those with the
property put in. -/
theorem Shows.undo {created : List α} {entries : List (α × β)} (h : Shows p c (Lib.transfer spent entries m))
    (hcreated : ∀ e ∈ entries, e.1 ∈ created) (hfree : ∀ k ∈ created, m.lookup k = none)
    (hall : ∀ k ∈ spent, k ∈ restored.map Prod.fst) (hrestored : ∀ e ∈ restored, m.lookup e.1 = some e.2) :
    Shows p (Lib.inserts (restored.filter fun e => p e.2) (Lib.erases created c)) m := by
  intro k
  by_cases hk : k ∈ (restored.filter fun e => p e.2).map Prod.fst
  · obtain ⟨b, hb, hlookup⟩ := lookup_inserts_of_mem hk (Lib.erases created c)
    obtain ⟨hmem, hp⟩ := mem_filter.1 hb
    rw [hlookup, hrestored (k, b) hmem, filter_some_pos hp]
  · rw [lookup_inserts_of_notMem hk, lookup_erases]
    split_ifs with hnew
    · rw [hfree k hnew]
      rfl
    · have hout : k ∉ entries.map Prod.fst := by
        intro hin
        obtain ⟨e, he, rfl⟩ := mem_map.1 hin
        exact hnew (hcreated e he)
      rw [h k, Lib.transfer, lookup_inserts_of_notMem hout, lookup_erases]
      split_ifs with hspent
      · -- a spent entry that was not put back does not have the property
        obtain ⟨e, he, rfl⟩ := mem_map.1 (hall k hspent)
        have hp : ¬ p e.2 = true := fun hp => hk (mem_map_of_mem (mem_filter.2 ⟨he, hp⟩))
        rw [hrestored e he, filter_some_neg (Bool.eq_false_iff.2 hp)]
        rfl
      · rfl

/-! ## Weights -/

/-- the sum of w over all holdings -/
def weight (w : β → ℤ) (m : Ledger α β) : ℤ := ∑ k ∈ m.keys, ((m.lookup k).map w).getD 0

/-- no holding has negative weight -/
def NonNeg (w : β → ℤ) (m : Ledger α β) : Prop := ∀ k b, m.lookup k = some b → 0 ≤ w b

section
variable {w : β → ℤ} {m n : Ledger α β}

theorem term_nonneg (h : NonNeg w m) (k : α) : 0 ≤ ((m.lookup k).map w).getD 0 := by
  cases hk : m.lookup k with
  | none => simp
  | some b => simpa using h k b hk

theorem weight_nonneg (h : NonNeg w m) : 0 ≤ weight w m := Finset.sum_nonneg fun k _ => term_nonneg h k

theorem weight_mono (hsub : Sub m n) (h : NonNeg w n) : weight w m ≤ weight w n := by
  have hkeys : m.keys ⊆ n.keys := by
    intro k hk
    rw [Finmap.mem_keys, Finmap.mem_iff] at hk ⊢
    obtain ⟨b, hb⟩ := hk
    exact ⟨b, hsub k b hb⟩
  calc weight w m = ∑ k ∈ m.keys, ((n.lookup k).map w).getD 0 := by
        refine Finset.sum_congr rfl fun k hk => ?_
        obtain ⟨b, hb⟩ := Finmap.mem_iff.1 (Finmap.mem_keys.1 hk)
        rw [hb, hsub k b hb]
    _ ≤ weight w n := Finset.sum_le_sum_of_subset_of_nonneg hkeys fun k _ _ => term_nonneg h k

theorem weight_erase {k : α} {b : β} (hb : m.lookup k = some b) : weight w (m.erase k) = weight w m - w b := by
  have hk : k ∈ m.keys := Finmap.mem_keys.2 (Finmap.mem_of_lookup_eq_some hb)
  have hterm : ((m.lookup k).map w).getD 0 = w b := by rw [hb]; rfl
  rw [weight, weight, Finmap.keys_erase, ← hterm, ← Finset.sum_erase_eq_sub hk]
  refine Finset.sum_congr rfl fun k' hk' => ?_
  rw [Finmap.lookup_erase_ne (Finset.ne_of_mem_erase hk')]

theorem weight_erase_le (h : NonNeg w m) (k : α) : weight w (m.erase k) ≤ weight w m := by
  refine weight_mono (fun k' b hb => ?_) h
  rw [lookup_erase_if] at hb
  split_ifs at hb
  exact hb

theorem weight_insert (k : α) (b : β) : weight w (m.insert k b) = weight w (m.erase k) + w b := by
  have hkeys : (m.insert k b).keys = insert k (m.erase k).keys := by
    ext k'
    rw [Finmap.mem_keys, Finmap.mem_insert, Finset.mem_insert, Finmap.mem_keys, Finmap.mem_erase]
    tauto
  have hnot : k ∉ (m.erase k).keys := fun hk => Finmap.notMem_erase_self (Finmap.mem_keys.1 hk)
  rw [weight, hkeys, Finset.sum_insert hnot, Finmap.lookup_insert, add_comm, weight]
  congr 1
  refine Finset.sum_congr rfl fun k' hk' => ?_
  have hne : k' ≠ k := fun heq => hnot (heq ▸ hk')
  rw [Finmap.lookup_insert_of_ne _ hne, Finmap.lookup_erase_ne hne]

theorem weight_insert_le (h : NonNeg w m) (k : α) (b : β) : weight w (m.insert k b) ≤ weight w m + w b := by
  rw [weight_insert]
  linarith [weight_erase_le h k]

theorem NonNeg.erases (h : NonNeg w m) (ks : List α) : NonNeg w (Lib.erases ks m) := by
  intro k b hb
  rw [lookup_erases] at hb
  split_ifs at hb
  exact h k b hb

theorem NonNeg.insert (h : NonNeg w m) {k : α} {b : β} (hb : 0 ≤ w b) : NonNeg w (m.insert k b) := by
  intro k' b' hb'
  rw [lookup_insert_if] at hb'
  split_ifs at hb'
  · cases hb'
    exact hb
  · exact h k' b' hb'

theorem NonNeg.inserts (h : NonNeg w m) (hes : ∀ e ∈ es, 0 ≤ w e.2) : NonNeg w (Lib.inserts es m) := by
  intro k b hb
  rcases lookup_inserts hb with hmem | ⟨-, hold⟩
  · exact hes (k, b) hmem
  · exact h k b hold

/-- Distinct holdings leave with their weight. -/
theorem weight_erases (hnodup : (es.map Prod.fst).Nodup) (hes : ∀ e ∈ es, m.lookup e.1 = some e.2) :
    weight w (erases (es.map Prod.fst) m) = weight w m - (es.map fun e => w e.2).sum := by
  induction es generalizing m with
  | nil => simp [erases]
  | cons e es ih =>
    rw [map_cons, nodup_cons] at hnodup
    obtain ⟨he, hrest⟩ := forall_mem_cons.1 hes
    have hkeep : ∀ e' ∈ es, (m.erase e.1).lookup e'.1 = some e'.2 := by
      intro e' he'
      have hne : e'.1 ≠ e.1 := fun heq => hnodup.1 (heq ▸ mem_map_of_mem he')
      rw [Finmap.lookup_erase_ne hne]
      exact hrest e' he'
    rw [map_cons, erases_cons, ih hnodup.2 hkeep, weight_erase he, map_cons, sum_cons]
    ring

/-- Distinct holdings weigh at most as much as all of them. -/
theorem sum_le_weight (h : NonNeg w m) (hnodup : (es.map Prod.fst).Nodup)
    (hes : ∀ e ∈ es, m.lookup e.1 = some e.2) : (es.map fun e => w e.2).sum ≤ weight w m := by
  have hleft := weight_nonneg (h.erases (es.map Prod.fst))
  rw [weight_erases hnodup hes] at hleft
  linarith

theorem weight_inserts_le (h : NonNeg w m) (hes : ∀ e ∈ es, 0 ≤ w e.2) :
    weight w (inserts es m) ≤ weight w m + (es.map fun e => w e.2).sum := by
  induction es generalizing m with
  | nil => simp [inserts]
  | cons e es ih =>
    obtain ⟨he, hrest⟩ := forall_mem_cons.1 hes
    calc weight w (inserts (e :: es) m) ≤ weight w (m.insert e.1 e.2) +
      (es.map fun e => w e.2).sum := ih (h.insert he) hrest
      _ ≤ weight w m + w e.2 + (es.map fun e => w e.2).sum := by linarith [weight_insert_le h e.1 e.2]
      _ = weight w m + ((e :: es).map fun e => w e.2).sum := by
        rw [map_cons, sum_cons]
        ring

/-- New entries on free keys come with their weight. -/
theorem weight_inserts (hnodup : (es.map Prod.fst).Nodup) (hfree : ∀ e ∈ es, m.lookup e.1 = none) :
    weight w (inserts es m) = weight w m + (es.map fun e => w e.2).sum := by
  induction es generalizing m with
  | nil => simp [inserts]
  | cons e es ih =>
    obtain ⟨hnew, hnodup⟩ := nodup_cons.1 hnodup
    obtain ⟨hefree, hfree⟩ := forall_mem_cons.1 hfree
    have hlater := lookup_insert_free hnew hfree
    rw [inserts_cons, ih hnodup hlater, weight_insert, erase_of_lookup_eq_none hefree, map_cons, sum_cons]
    ring

/-- The number of holdings as a weight. -/
theorem weight_one : weight (fun _ => 1) m = m.keys.card := by
  have hterm : ∀ k ∈ m.keys, ((m.lookup k).map fun _ : β => (1 : ℤ)).getD 0 = 1 := by
    intro k hk
    obtain ⟨b, hb⟩ := Finmap.mem_iff.1 (Finmap.mem_keys.1 hk)
    rw [hb]
    rfl
  rw [weight, Finset.sum_congr rfl hterm, Finset.sum_const, nsmul_eq_mul, mul_one]

end

end ConnectCoin.Lib
