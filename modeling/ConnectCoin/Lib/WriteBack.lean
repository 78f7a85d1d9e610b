/-
Write-back caches in layers, one key at a time. GENERAL: V is any type of values; nothing here is about a particular
store.

A layer holds nothing for the key, or a slot. What is seen through the layer is the slot's value, or else what is seen
below the layer.

- `Slot`: the value (none where the key was taken out), and two flags: `dirty` where the value may differ from what is
  below, `fresh` where nothing is below.
- `Fits s b`: the flags tell the truth about what is seen below, b.
- The transitions: `fetched` (a lookup keeps what it found below), `added`, `taken`, `uncached`, `merged` (a dirty slot
  is written into the layer below), `settled` (what is left of a slot that was written).
Results: each transition keeps `Fits` and changes what is seen only as it should. In particular a slot is never merged
onto a value that its fresh flag denies (`not_misapplied`).
-/
import Mathlib.Tactic

namespace ConnectCoin.Lib.WriteBack

open Option

variable {V : Type}

structure Slot (V : Type) where
  value : Option V
  dirty : Bool
  fresh : Bool

variable (s : Option (Slot V)) (b : Option V)

/-- what is seen through a layer that holds s over b -/
def through : Option V :=
  match s with
  | some x => x.value
  | none => b

variable (x : Slot V)

/-- the flags of a slot over b tell the truth; a clean slot holds a value -/
structure SlotOk (b : Option V) : Prop where
  clean : x.dirty = false → x.value = b ∧ x.value ≠ none
  fresh : x.fresh = true → x.dirty = true ∧ x.value ≠ none ∧ b = none

def Fits : Prop := ∀ x, s = some x → SlotOk x b

theorem fits_none (b : Option V) : Fits none b := fun _ h => by cases h

theorem fits_some {x : Slot V} {b : Option V} (h : SlotOk x b) : Fits (some x) b := by
  intro y hy
  cases hy
  exact h

theorem slotOk_dirty (v : Option V) (b : Option V) :
    SlotOk ⟨v, true, false⟩ b := ⟨fun h => (by cases h), fun h => (by cases h)⟩

theorem slotOk_clean (v : V) : SlotOk ⟨some v, false, false⟩ (some v) :=
  ⟨fun _ => ⟨rfl, some_ne_none v⟩, fun h => (by cases h)⟩

/-! ## Lookups -/

/-- a lookup keeps what it found below as a clean slot -/
def fetched : Option (Slot V) :=
  match s with
  | some x => some x
  | none => b.map fun v => ⟨some v, false, false⟩

theorem Fits.fetched {s : Option (Slot V)} {b : Option V} (h : Fits s b) : Fits (fetched s b) b := by
  cases s with
  | some x => exact h
  | none =>
    cases b with
    | none => exact fits_none none
    | some v => exact fits_some (slotOk_clean v)

/-- a clean slot is dropped -/
def uncached : Option (Slot V) := s.filter fun x => x.dirty

theorem Fits.uncached {s : Option (Slot V)} {b : Option V} (h : Fits s b) :
    Fits (uncached s) b ∧ through (uncached s) b = through s b := by
  cases s with
  | none => exact ⟨fits_none b, rfl⟩
  | some x =>
    obtain ⟨value, dirty, fresh⟩ := x
    cases dirty with
    | true => exact ⟨h, rfl⟩
    | false => exact ⟨fits_none b, ((h _ rfl).clean rfl).1.symm⟩

/-! ## Changes -/

/-- a value is put in; without an overwrite nothing was seen there, and a slot that is not dirty says so -/
def added (v : V) (overwrite : Bool) : Slot V :=
  ⟨some v, true, s.any (fun x => x.fresh) || (!overwrite && !s.any fun x => x.dirty)⟩

theorem Fits.added {s : Option (Slot V)} {b : Option V} (h : Fits s b) {v : V} {overwrite : Bool}
    (hunseen : overwrite = false → through s b = none) : SlotOk (added s v overwrite) b := by
  refine ⟨fun hclean => (by cases hclean), fun hfresh => ⟨rfl, some_ne_none v, ?_⟩⟩
  rcases Bool.or_eq_true_iff.1 hfresh with hwas | hnew
  · obtain ⟨x, rfl, hx⟩ := (any_eq_true _ _).1 hwas
    exact ((h x rfl).fresh hx).2.2
  · obtain ⟨hover, hdirty⟩ := Bool.and_eq_true_iff.1 hnew
    have hnone := hunseen (by simpa using hover)
    cases s with
    | none => exact hnone
    | some x =>
      have hclean : x.dirty = false := by simpa using hdirty
      exact absurd hnone ((h x rfl).clean hclean).2

/-- the value is taken out: a fresh slot goes, any other stays to say so below -/
def taken : Option (Slot V) := if x.fresh then none else some ⟨none, true, false⟩

theorem SlotOk.taken {x : Slot V} {b : Option V} (h : SlotOk x b) : Fits (taken x) b ∧ through (taken x) b = none := by
  unfold WriteBack.taken
  by_cases hfresh : x.fresh = true
  · rw [if_pos hfresh]
    exact ⟨fits_none b, (h.fresh hfresh).2.2⟩
  · rw [if_neg hfresh]
    exact ⟨fits_some (slotOk_dirty none b), rfl⟩

/-! ## Writing a layer into the one below -/

/-- a fresh slot meets a value below -/
def misapplied (p : Option (Slot V)) : Bool := x.fresh && p.any fun y => y.value.isSome

/-- the slot below after a dirty slot x was written into it -/
def merged (p : Option (Slot V)) : Option (Slot V) :=
  match p with
  | none => if x.fresh && x.value.isNone then none else some ⟨x.value, true, x.fresh⟩
  | some y => if y.fresh && x.value.isNone then none else some ⟨x.value, true, y.fresh⟩

theorem SlotOk.not_misapplied {x : Slot V} {p : Option (Slot V)} {b : Option V} (h : SlotOk x (through p b)) :
    misapplied x p = false := by
  by_contra hmis
  obtain ⟨hfresh, hany⟩ := Bool.and_eq_true_iff.1 (Bool.eq_true_of_not_eq_false hmis)
  obtain ⟨y, rfl, hy⟩ := (any_eq_true _ _).1 hany
  have hnone : y.value = none := (h.fresh hfresh).2.2
  rw [hnone] at hy
  cases hy

/-- The layer below keeps telling the truth, and shows the value written. -/
theorem SlotOk.merged {x : Slot V} {p : Option (Slot V)} {b : Option V} (h : SlotOk x (through p b)) (hp : Fits p b) :
    Fits (merged x p) b ∧ through (merged x p) b = x.value := by
  cases p with
  | none =>
    have hvalue : ¬ (x.fresh && x.value.isNone) = true := by
      intro hc
      obtain ⟨hfresh, hnone⟩ := Bool.and_eq_true_iff.1 hc
      exact (h.fresh hfresh).2.1 (isNone_iff_eq_none.1 hnone)
    rw [WriteBack.merged, if_neg hvalue]
    refine ⟨fits_some ⟨fun hclean => (by cases hclean), fun hfresh => ?_⟩, rfl⟩
    exact ⟨rfl, (h.fresh hfresh).2⟩
  | some y =>
    have hy := hp y rfl
    by_cases hgone : (y.fresh && x.value.isNone) = true
    · obtain ⟨hfresh, hnone⟩ := Bool.and_eq_true_iff.1 hgone
      rw [WriteBack.merged, if_pos hgone]
      refine ⟨fits_none b, ?_⟩
      rw [isNone_iff_eq_none.1 hnone]
      exact (hy.fresh hfresh).2.2
    · rw [WriteBack.merged, if_neg hgone]
      refine ⟨fits_some ⟨fun hclean => (by cases hclean), fun hfresh => ⟨rfl, ?_, (hy.fresh hfresh).2.2⟩⟩, rfl⟩
      intro hnone
      have hvalue : x.value = none := hnone
      have hfresh' : y.fresh = true := hfresh
      rw [hfresh', hvalue] at hgone
      exact hgone rfl

/-- what is left of a slot that was written: its value, clean -/
def settled : Option (Slot V) := x.value.map fun v => ⟨some v, false, false⟩

theorem settled_fits : Fits (settled x) x.value ∧ through (settled x) x.value = x.value := by
  unfold settled
  cases x.value with
  | none => exact ⟨fits_none none, rfl⟩
  | some v => exact ⟨fits_some (slotOk_clean v), rfl⟩

end ConnectCoin.Lib.WriteBack
