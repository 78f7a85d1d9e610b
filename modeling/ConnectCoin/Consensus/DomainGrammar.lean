/-
The grammar of domain names (`IsCanonicalP2CDomain`, `primitives/transaction.cpp`).

- `IsLabel`: 1 to 63 lower-case letters, digits and hyphens, with no hyphen at either end.
- `DomainName`: labels with single dots between them, and the dots where the grammar wants none.
- `LabelSoFar`: what the loop has checked of a label that it has not read to its end.
Results: `domainLoop_iff`: behind a label so far, the loop accepts the rest if and only if the labels of the whole are
in form; `canonical_iff_grammar`.
-/
import ConnectCoin.Core.Transaction

namespace ConnectCoin

open Lib List

/-! ## The grammar -/

/-- a-z, 0-9 or a hyphen -/
def IsLabelChar (ch : UInt8) : Prop := 97 ≤ ch ∧ ch ≤ 122 ∨ 48 ≤ ch ∧ ch ≤ 57 ∨ ch = 45

structure IsLabel (label : Bytes) : Prop where
  size : 1 ≤ label.length ∧ label.length ≤ 63
  chars : ∀ ch ∈ label, IsLabelChar ch
  head : label.head? ≠ some 45
  last : label.getLast? ≠ some 45

structure DomainName (s : Bytes) : Prop where
  labels : ∃ labels : List Bytes, s = [46].intercalate labels ∧ ∀ label ∈ labels, IsLabel label
  noLeading : s.head? ≠ some 46
  noTrailing : s.getLast? ≠ some 46
  noDoubled : ¬ [46, 46] <:+: s

/-- every part between dots is a label -/
def LabelsOk (s : Bytes) : Prop := ∀ label ∈ s.splitOn 46, IsLabel label

theorem isDomainChar_iff (ch : UInt8) : isDomainChar ch = true ↔ IsLabelChar ch := by
  simp only [isDomainChar, IsLabelChar, Bool.or_eq_true, Bool.and_eq_true, decide_eq_true_eq, beq_iff_eq, or_assoc]

theorem not_isLabelChar_dot : ¬ IsLabelChar 46 := by
  rw [← isDomainChar_iff]
  decide

/-- Without a dot in front, the first part begins with what is in front. -/
theorem splitOn_append {xs : Bytes} (h : 46 ∉ xs) (ys : Bytes) :
    ∃ more parts, (xs ++ ys).splitOn 46 = (xs ++ more) :: parts := by
  induction xs with
  | nil =>
    obtain ⟨more, parts, hsplit⟩ := exists_cons_of_ne_nil (splitOn_ne_nil 46 ys)
    exact ⟨more, parts, hsplit⟩
  | cons x xs ih =>
    rw [mem_cons, not_or] at h
    obtain ⟨more, parts, hsplit⟩ := ih h.2
    refine ⟨more, parts, ?_⟩
    rw [cons_append, splitOn_cons_eq_if_modifyHead, if_neg (by simpa using Ne.symm h.1), hsplit]
    rfl

/-! ## The loop -/

/-- the beginning of a label -/
structure LabelSoFar (label : Bytes) : Prop where
  size : label.length ≤ 63
  chars : ∀ ch ∈ label, IsLabelChar ch
  head : label.head? ≠ some 45

variable {label s rest : Bytes}

theorem LabelSoFar.noDot (h : LabelSoFar label) : 46 ∉ label := fun hmem => not_isLabelChar_dot (h.chars 46 hmem)

theorem LabelSoFar.isLabel_iff (h : LabelSoFar label) :
    IsLabel label ↔ label.length ≠ 0 ∧ label.getLast? ≠ some 45 := by
  constructor
  · intro hlabel
    exact ⟨Nat.ne_of_gt hlabel.size.1, hlabel.last⟩
  · rintro ⟨hsize, hlast⟩
    exact ⟨⟨Nat.one_le_iff_ne_zero.2 hsize, h.size⟩, h.chars, h.head, hlast⟩

theorem labelsOk_dot (h : 46 ∉ label) : LabelsOk (label ++ 46 :: rest) ↔ IsLabel label ∧ LabelsOk rest := by
  rw [LabelsOk, splitOn_append_cons_self_of_not_mem h, forall_mem_cons]
  rfl

/-- A part that begins with characters that no label begins with. -/
theorem not_labelsOk {begun : Bytes} (h : 46 ∉ begun) (hbad : ∀ more, ¬ IsLabel (begun ++ more)) :
    ¬ LabelsOk (begun ++ rest) := by
  intro hok
  obtain ⟨more, parts, hsplit⟩ := splitOn_append h rest
  rw [LabelsOk, hsplit] at hok
  exact hbad more (hok _ mem_cons_self)

/-- Behind the beginning of a label, the loop accepts the rest if and only if the whole is labels between dots. -/
theorem domainLoop_iff {prev : UInt8} (hlabel : LabelSoFar label) (hprev : ∀ ch, label.getLast? = some ch → prev = ch) :
    (∃ n, domainLoop label.length prev rest = some n ∧ n ≠ 0 ∧ (label ++ rest).getLast? ≠ some 45) ↔
      LabelsOk (label ++ rest) := by
  induction rest generalizing label prev with
  | nil =>
    rw [append_nil, LabelsOk, splitOn_eq_singleton hlabel.noDot, forall_mem_singleton, hlabel.isLabel_iff, domainLoop]
    simp
  | cons ch rest ih =>
    rw [domainLoop]
    by_cases hdot : ch = 46
    · subst hdot
      rw [if_pos rfl, labelsOk_dot hlabel.noDot, hlabel.isLabel_iff]
      by_cases hbad : label.length = 0 ∨ label.length > 63 ∨ prev = 45
      · rw [if_pos hbad]
        refine iff_of_false (fun ⟨n, hn, _⟩ => by cases hn) fun ⟨⟨hsize, hlast⟩, _⟩ => ?_
        rcases hbad with hempty | hlong | hhyphen
        · exact absurd hempty hsize
        · exact absurd hlabel.size (not_le.2 hlong)
        · have hne : label ≠ [] := fun h => hsize (by rw [h]; rfl)
          have hget := getLast?_eq_some_getLast hne
          rw [← hprev _ hget, hhyphen] at hget
          exact absurd hget hlast
      · rw [if_neg hbad]
        rw [not_or, not_or] at hbad
        have hlast : (label ++ 46 :: rest).getLast? ≠ some 45 ↔ ([] ++ rest).getLast? ≠ some 45 := by
          rw [getLast?_append_cons, getLast?_cons, nil_append]
          cases rest.getLast? <;> simp
        have hhyphen : label.getLast? ≠ some 45 := fun h => hbad.2.2 (hprev 45 h)
        have hnew : LabelSoFar [] := ⟨Nat.zero_le _, by simp, by simp⟩
        rw [hlast, show domainLoop 0 46 rest = domainLoop ([] : Bytes).length 46 rest from rfl, ih hnew (by simp)]
        exact ⟨fun hrest => ⟨⟨hbad.1, hhyphen⟩, hrest⟩, fun h => h.2⟩
    · -- the character belongs to the label that has begun
      have hwhole : label ++ ch :: rest = (label ++ [ch]) ++ rest := by simp
      have hnoDot : 46 ∉ label ++ [ch] := by
        rw [mem_append, mem_singleton, not_or]
        exact ⟨hlabel.noDot, fun h => hdot h.symm⟩
      rw [if_neg hdot, hwhole]
      by_cases hchar : isDomainChar ch = true
      · rw [if_neg (by simp [hchar])]
        by_cases hfirst : label.length = 0 ∧ ch = 45
        · rw [if_pos hfirst]
          refine iff_of_false (fun ⟨n, hn, _⟩ => by cases hn) (not_labelsOk hnoDot fun more hmore => ?_)
          rw [length_eq_zero_iff.1 hfirst.1, hfirst.2] at hmore
          exact hmore.head rfl
        · rw [if_neg hfirst]
          by_cases hlong : label.length + 1 > 63
          · rw [if_pos hlong]
            refine iff_of_false (fun ⟨n, hn, _⟩ => by cases hn) (not_labelsOk hnoDot fun more hmore => ?_)
            have hsize := hmore.size.2
            rw [length_append, length_append, length_singleton] at hsize
            exact absurd hsize (by omega)
          · rw [if_neg hlong, show label.length + 1 = (label ++ [ch]).length by simp]
            refine ih ⟨by simpa using hlong, ?_, ?_⟩ (by simp)
            · intro c hc
              rcases mem_append.1 hc with hc | hc
              · exact hlabel.chars c hc
              · rw [mem_singleton.1 hc]
                exact (isDomainChar_iff ch).1 hchar
            · rcases label with _ | ⟨c, label⟩
              · intro hhead
                exact hfirst ⟨rfl, Option.some_inj.1 hhead⟩
              · exact hlabel.head
      · rw [if_pos (by simp [hchar])]
        refine iff_of_false (fun ⟨n, hn, _⟩ => by cases hn) (not_labelsOk hnoDot fun more hmore => ?_)
        exact hchar ((isDomainChar_iff ch).2 (hmore.chars ch (by simp)))

/-! ## Dots -/

/-- The parts between dots are labels if and only if the string is labels with dots between them. -/
theorem labelsOk_iff (hne : s ≠ []) :
    LabelsOk s ↔ ∃ labels : List Bytes, s = [46].intercalate labels ∧ ∀ label ∈ labels, IsLabel label := by
  constructor
  · intro hok
    exact ⟨s.splitOn 46, (intercalate_splitOn 46).symm, hok⟩
  · rintro ⟨labels, rfl, hlabels⟩
    have hsome : labels ≠ [] := by
      rintro rfl
      exact hne rfl
    have hnoDot : ∀ label ∈ labels, 46 ∉ label :=
      fun label hmem hdot => not_isLabelChar_dot ((hlabels label hmem).chars 46 hdot)
    rw [LabelsOk, splitOn_intercalate 46 hnoDot hsome]
    exact hlabels

/-- No dot stands at an end or beside another: there would be an empty part. -/
theorem LabelsOk.dots (h : LabelsOk s) : s.head? ≠ some 46 ∧ s.getLast? ≠ some 46 ∧ ¬ [46, 46] <:+: s := by
  have hpart : [] ∉ s.splitOn 46 := fun hmem => absurd (h [] hmem).size.1 (by simp)
  refine ⟨fun hhead => hpart ?_, fun hlast => hpart ?_, fun ⟨xs, ys, hdoubled⟩ => hpart ?_⟩
  · obtain ⟨rest, rfl⟩ := head?_eq_some_iff.1 hhead
    rw [splitOn_cons_eq_if_modifyHead, if_pos (by decide)]
    exact mem_cons_self
  · obtain ⟨front, rfl⟩ := getLast?_eq_some_iff.1 hlast
    rw [splitOn_append_cons_self, splitOn_nil]
    exact mem_append_right _ mem_cons_self
  · rw [← hdoubled, append_assoc, cons_append, splitOn_append_cons_self, cons_append, nil_append,
      splitOn_cons_eq_if_modifyHead, if_pos (by decide)]
    exact mem_append_right _ mem_cons_self

/-- A domain is canonical if and only if it is a name of the grammar within the length limit. -/
theorem canonical_iff_grammar (s : Bytes) :
    isCanonicalP2CDomain s = true ↔ 1 ≤ s.length ∧ s.length ≤ MAX_P2C_DOMAIN_LENGTH ∧ DomainName s := by
  have hstart : LabelSoFar [] := ⟨Nat.zero_le _, by simp, by simp⟩
  have hloop : (∃ n, domainLoop 0 0 s = some n ∧ n ≠ 0 ∧ s.getLast? ≠ some 45) ↔ LabelsOk s :=
    domainLoop_iff hstart (by simp)
  by_cases hguard : s = [] ∨ s.length > MAX_P2C_DOMAIN_LENGTH ∨ s.getLast? = some 46
  · rw [isCanonicalP2CDomain, if_pos hguard]
    apply iff_of_false Bool.false_ne_true
    rintro ⟨hsize, hshort, hname⟩
    rcases hguard with rfl | hlong | hlast
    · exact absurd hsize (by decide)
    · exact absurd hshort (not_le.2 hlong)
    · exact hname.noTrailing hlast
  · have haccepted : isCanonicalP2CDomain s = true ↔ LabelsOk s := by
      rw [isCanonicalP2CDomain, if_neg hguard, ← hloop]
      cases domainLoop 0 0 s <;> simp
    rw [not_or, not_or] at hguard
    obtain ⟨hne, hshort, -⟩ := hguard
    rw [haccepted]
    constructor
    · intro hok
      obtain ⟨hleading, htrailing, hdoubled⟩ := hok.dots
      exact ⟨length_pos_iff.2 hne, not_lt.1 hshort, (labelsOk_iff hne).1 hok, hleading, htrailing, hdoubled⟩
    · rintro ⟨-, -, hname⟩
      exact (labelsOk_iff hne).2 hname.labels

/-- a name with two labels, and names with a dot, a hyphen or a character out of place -/
example : isCanonicalP2CDomain [97, 45, 98, 46, 99] = true ∧ isCanonicalP2CDomain [97, 46, 46, 98] = false ∧
    isCanonicalP2CDomain [97, 45, 46, 98] = false ∧ isCanonicalP2CDomain [65] = false := by decide

end ConnectCoin
