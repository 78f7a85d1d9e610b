/-
Self-delimiting codes. GENERAL: when two encodings, each followed by anything, spell the same bytes, the values and the
rests agree. Nothing here is about a particular format.

- `SelfDelimiting P enc`: the code `enc`, on the values with P, is recovered from any byte string that starts with it.
Rules: `of_length` (fixed-width codes), `flatMap` (equally long lists, item by item), `counted` (a count, then the
items), `bytes` (a byte string behind its length).
-/
import ConnectCoin.Lib.Bytes

namespace ConnectCoin.Lib

open List

/-- what follows an encoding cannot be mistaken for a part of it -/
def SelfDelimiting {α : Type} (P : α → Prop) (enc : α → Bytes) : Prop :=
  ∀ ⦃a b : α⦄ ⦃s t : Bytes⦄, P a → P b → enc a ++ s = enc b ++ t → a = b ∧ s = t

namespace SelfDelimiting

variable {α : Type} {P : α → Prop} {enc : α → Bytes}

/-- Values with no rest: the code is injective. -/
theorem inj (h : SelfDelimiting P enc) {a b : α} (ha : P a) (hb : P b) (he : enc a = enc b) : a = b :=
  (h ha hb (congrArg (· ++ []) he)).1

theorem of_length (w : ℕ) (hlen : ∀ a, P a → (enc a).length = w) (hinj : ∀ a b, P a → P b → enc a = enc b → a = b) :
    SelfDelimiting P enc := by
  intro a b s t ha hb h
  obtain ⟨he, hst⟩ := append_inj h (by rw [hlen a ha, hlen b hb])
  exact ⟨hinj a b ha hb he, hst⟩

theorem flatMap (h : SelfDelimiting P enc) {as bs : List α} {s t : Bytes} (ha : ∀ a ∈ as, P a) (hb : ∀ b ∈ bs, P b)
    (hlen : as.length = bs.length) (he : as.flatMap enc ++ s = bs.flatMap enc ++ t) : as = bs ∧ s = t := by
  induction as generalizing bs with
  | nil =>
    obtain rfl : bs = [] := length_eq_zero_iff.1 hlen.symm
    exact ⟨rfl, by simpa using he⟩
  | cons a as ih =>
    cases bs with
    | nil => simp at hlen
    | cons b bs =>
      simp only [flatMap_cons, append_assoc] at he
      obtain ⟨rfl, hrest⟩ := h (ha a (by simp)) (hb b (by simp)) he
      have hlen' : as.length = bs.length := by simpa using hlen
      obtain ⟨rfl, rfl⟩ := ih (fun x hx => ha x (by simp [hx])) (fun x hx => hb x (by simp [hx])) hlen' hrest
      exact ⟨rfl, rfl⟩

/-- A count in front of the items makes the list self-delimiting. -/
theorem counted (h : SelfDelimiting P enc) {size : ℕ → Bytes} {fits : ℕ → Prop} (hsize : SelfDelimiting fits size) :
    SelfDelimiting (fun as : List α => fits as.length ∧ ∀ a ∈ as, P a)
    (fun as => size as.length ++ as.flatMap enc) := by
  intro as bs s t ha hb he
  simp only [append_assoc] at he
  obtain ⟨hlen, he⟩ := hsize ha.1 hb.1 he
  exact h.flatMap ha.2 hb.2 hlen he

/-- A byte string behind its length. -/
theorem bytes {size : ℕ → Bytes} {fits : ℕ → Prop} (hsize : SelfDelimiting fits size) :
    SelfDelimiting (fun b : Bytes => fits b.length) (fun b => size b.length ++ b) := by
  intro a b s t ha hb he
  simp only [append_assoc] at he
  obtain ⟨hlen, he⟩ := hsize ha hb he
  exact append_inj he hlen

theorem be (w : ℕ) : SelfDelimiting (fun n => n < 256 ^ w) (beBytes w) :=
  of_length w (fun n _ => beBytes_length w n) fun _ _ ha hb => beBytes_inj ha hb

end SelfDelimiting

end ConnectCoin.Lib
