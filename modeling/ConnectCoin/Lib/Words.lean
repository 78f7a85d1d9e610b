/-
Numbers of several 32-bit words. GENERAL: nothing here is about a particular program.

- `wordsNat`: the number that words spell, least significant first; `beWordsNat`: most significant first.
Results:
- `wordsNat_append`, `wordsNat_lt`, `wordsNat_inj`: concatenation, the bound, and that words of one length are their
  number;
- `toNat_getD`, `wordsNat_modify_or`: reading a word and or-ing into one, in terms of the number;
- `beWordsNat_set`: writing one word changes the number by that word's weight;
- `beWordsNat_lt_iff`: for one length the order of the numbers is the lexicographic order of the words;
- `carryLoop_spec`: a loop from the least significant word on that keeps the value in every turn keeps it as a whole.
-/
import Mathlib.Tactic

namespace ConnectCoin.Lib

open List

/-- the number spelled by words, least significant first -/
def wordsNat : List UInt32 → ℕ
  | [] => 0
  | w :: ws => w.toNat + 2 ^ 32 * wordsNat ws

/-- the number spelled by words, most significant first -/
def beWordsNat (ws : List UInt32) : ℕ := wordsNat ws.reverse

@[simp] theorem wordsNat_nil : wordsNat [] = 0 := rfl

variable (w : UInt32) (ws : List UInt32)

@[simp] theorem wordsNat_cons : wordsNat (w :: ws) = w.toNat + 2 ^ 32 * wordsNat ws := rfl

theorem wordsNat_append (us vs : List UInt32) :
    wordsNat (us ++ vs) = wordsNat us + 2 ^ (32 * us.length) * wordsNat vs := by
  induction us with
  | nil => simp
  | cons u us ih =>
    rw [cons_append, wordsNat_cons, wordsNat_cons, ih, length_cons, Nat.mul_succ, pow_add]
    ring

theorem wordsNat_lt : wordsNat ws < 2 ^ (32 * ws.length) := by
  induction ws with
  | nil => simp
  | cons w ws ih =>
    have hw := w.toNat_lt
    rw [wordsNat_cons, length_cons, Nat.mul_succ, pow_add]
    omega

theorem wordsNat_inj {us vs : List UInt32} (hlen : us.length = vs.length) (h : wordsNat us = wordsNat vs) :
    us = vs := by
  induction us generalizing vs with
  | nil => exact (eq_nil_of_length_eq_zero hlen.symm).symm
  | cons u us ih =>
    cases vs with
    | nil => simp at hlen
    | cons v vs =>
      have hu := u.toNat_lt
      have hv := v.toNat_lt
      rw [wordsNat_cons, wordsNat_cons] at h
      have hhead : u = v := UInt32.toNat_inj.mp (by omega)
      have htail : us = vs := ih (by simpa using hlen) (by omega)
      rw [hhead, htail]

/-! ## Words as bits -/

/-- The word at a place. -/
theorem toNat_getD (i : ℕ) : (ws.getD i 0).toNat = (wordsNat ws >>> (32 * i)) % 2 ^ 32 := by
  induction ws generalizing i with
  | nil => simp
  | cons w ws ih =>
    have hw := w.toNat_lt
    cases i with
    | zero => simp only [getD_cons_zero, wordsNat_cons, Nat.mul_zero, Nat.shiftRight_zero]; omega
    | succ i =>
      have hdrop : (w.toNat + 2 ^ 32 * wordsNat ws) >>> 32 = wordsNat ws := by rw [Nat.shiftRight_eq_div_pow]; omega
      rw [getD_cons_succ, ih, wordsNat_cons, Nat.mul_succ, Nat.add_comm (32 * i), Nat.shiftRight_add, hdrop]

/-- Or-ing into a word is or-ing into the number. -/
theorem wordsNat_modify_or (i : ℕ) (hi : i < ws.length) (v : UInt32) :
    wordsNat (ws.modify i (· ||| v)) = wordsNat ws ||| v.toNat <<< (32 * i) := by
  induction ws generalizing i with
  | nil => simp at hi
  | cons w ws ih =>
    have hw := w.toNat_lt
    have hv := v.toNat_lt
    refine Nat.eq_of_testBit_eq fun j => ?_
    cases i with
    | zero =>
      have hwv := (w ||| v).toNat_lt
      rw [modify_zero_cons, wordsNat_cons, wordsNat_cons, Nat.testBit_or, Nat.add_comm, Nat.add_comm w.toNat,
        Nat.testBit_two_pow_mul_add _ hwv, Nat.testBit_two_pow_mul_add _ hw, Nat.mul_zero, Nat.shiftLeft_zero,
        UInt32.toNat_or, Nat.testBit_or]
      split_ifs with hj
      · rfl
      · rw [Nat.testBit_lt_two_pow (hv.trans_le (Nat.pow_le_pow_right two_pos (not_lt.mp hj))), Bool.or_false]
    | succ i =>
      rw [modify_succ_cons, wordsNat_cons, wordsNat_cons, ih i (by simpa using hi), Nat.testBit_or, Nat.add_comm,
        Nat.add_comm w.toNat, Nat.testBit_two_pow_mul_add _ hw, Nat.testBit_two_pow_mul_add _ hw, Nat.testBit_or,
        Nat.testBit_shiftLeft, Nat.testBit_shiftLeft]
      split_ifs with hj
      · have hbelow : ¬ 32 * (i + 1) ≤ j := by omega
        simp [hbelow]
      · have hplace : j - 32 - 32 * i = j - 32 * (i + 1) := by omega
        have habove : 32 * i ≤ j - 32 ↔ 32 * (i + 1) ≤ j := by omega
        simp [hplace, habove]

/-- The low words and one more. -/
theorem mod_two_pow_succ_word (x m : ℕ) :
    x % 2 ^ (32 * (m + 1)) = x % 2 ^ (32 * m) ||| ((x >>> (32 * m)) % 2 ^ 32) <<< (32 * m) := by
  refine Nat.eq_of_testBit_eq fun j => ?_
  rw [Nat.testBit_or, Nat.testBit_mod_two_pow, Nat.testBit_mod_two_pow, Nat.testBit_shiftLeft, Nat.testBit_mod_two_pow,
    Nat.testBit_shiftRight]
  rcases Nat.lt_or_ge j (32 * m) with hj | hj
  · have hnext : j < 32 * (m + 1) := by omega
    have hlow : ¬ 32 * m ≤ j := by omega
    simp [hj, hnext, hlow]
  · have hhigh : ¬ j < 32 * m := by omega
    have hnext : j - 32 * m < 32 ↔ j < 32 * (m + 1) := by omega
    simp [hj, hhigh, hnext, Nat.add_sub_cancel' hj]
/-! ## Most significant first -/

@[simp] theorem beWordsNat_nil : beWordsNat [] = 0 := rfl

theorem beWordsNat_cons : beWordsNat (w :: ws) = 2 ^ (32 * ws.length) * w.toNat + beWordsNat ws := by
  rw [beWordsNat, reverse_cons, wordsNat_append, length_reverse, wordsNat_cons, wordsNat_nil, beWordsNat]
  ring

theorem beWordsNat_lt : beWordsNat ws < 2 ^ (32 * ws.length) := by
  simpa [beWordsNat] using wordsNat_lt ws.reverse

/-- A word weighs as much as its place says. -/
theorem beWordsNat_set (k : ℕ) (hk : k < ws.length) (w : UInt32) :
    beWordsNat (ws.set k w) + 2 ^ (32 * (ws.length - 1 - k)) * ws[k].toNat =
      beWordsNat ws + 2 ^ (32 * (ws.length - 1 - k)) * w.toNat := by
  induction ws generalizing k with
  | nil => simp at hk
  | cons v vs ih =>
    cases k with
    | zero =>
      simp only [set_cons_zero, beWordsNat_cons, length_cons, getElem_cons_zero, Nat.add_sub_cancel, Nat.sub_zero]
      omega
    | succ k =>
      have hk' : k < vs.length := by simpa using hk
      have hplace : (v :: vs).length - 1 - (k + 1) = vs.length - 1 - k := by simp only [length_cons]; omega
      have hrest := ih k hk'
      simp only [set_cons_succ, beWordsNat_cons, length_set, getElem_cons_succ, hplace]
      omega

theorem beWordsNat_getElem_le (k : ℕ) (hk : k < ws.length) :
    2 ^ (32 * (ws.length - 1 - k)) * ws[k].toNat ≤ beWordsNat ws := by
  have h := beWordsNat_set ws k hk 0
  simp only [UInt32.toNat_zero, Nat.mul_zero, Nat.add_zero] at h
  omega

/-- Words of one length are ordered as their numbers are. -/
theorem beWordsNat_lt_iff {us vs : List UInt32} (hlen : us.length = vs.length) :
    us < vs ↔ beWordsNat us < beWordsNat vs := by
  induction us generalizing vs with
  | nil =>
    have hnil : vs = [] := eq_nil_of_length_eq_zero hlen.symm
    subst hnil
    simp
  | cons u us ih =>
    cases vs with
    | nil => simp at hlen
    | cons v vs =>
      have htail : us.length = vs.length := by simpa using hlen
      have hus := beWordsNat_lt us
      have hvs := beWordsNat_lt vs
      rw [cons_lt_cons_iff, ih htail, beWordsNat_cons, beWordsNat_cons, UInt32.lt_iff_toNat_lt,
        ← UInt32.toNat_inj, htail]
      rw [htail] at hus
      constructor
      · rintro (hlt | ⟨heq, hlt⟩)
        · -- a smaller leading word is worth more than all the words behind it
          have hstep : 2 ^ (32 * vs.length) * (u.toNat + 1) ≤ 2 ^ (32 * vs.length) * v.toNat :=
            Nat.mul_le_mul_left _ hlt
          rw [Nat.mul_succ] at hstep
          omega
        · rw [heq]; omega
      · intro h
        rcases lt_trichotomy u.toNat v.toNat with hlt | heq | hgt
        · exact Or.inl hlt
        · rw [heq] at h
          exact Or.inr ⟨heq, by omega⟩
        · have hstep : 2 ^ (32 * vs.length) * (v.toNat + 1) ≤ 2 ^ (32 * vs.length) * u.toNat :=
            Nat.mul_le_mul_left _ hgt
          rw [Nat.mul_succ] at hstep
          omega

/-! ## Carry loops -/

section
variable {m : Type → Type} [Monad m] {α : Type}

/-- one turn per element: it makes a word and hands a carry on -/
def carryLoop (turn : α → ℕ → m (UInt32 × ℕ)) : List α → ℕ → m (List UInt32 × ℕ)
  | [], carry => pure ([], carry)
  | x :: xs, carry => do
    let (w, carry) ← turn x carry
    let (ws, last) ← carryLoop turn xs carry
    return (w :: ws, last)

/-- the number of a list whose elements are worth `f`, least significant first -/
def weighted (f : α → ℕ) : List α → ℕ
  | [] => 0
  | x :: xs => f x + 2 ^ 32 * weighted f xs

theorem weighted_mul_toNat (k : ℕ) (ws : List UInt32) : weighted (fun w => k * w.toNat) ws = k * wordsNat ws := by
  induction ws with
  | nil => rfl
  | cons w ws ih =>
    rw [weighted, ih, wordsNat_cons]
    ring

theorem weighted_zip (k : ℕ) {us vs : List UInt32} (h : us.length ≤ vs.length) :
    weighted (fun p : UInt32 × UInt32 => p.1.toNat + k * p.2.toNat) (us.zip vs) =
      wordsNat us + k * wordsNat (vs.take us.length) := by
  induction us generalizing vs with
  | nil => simp [weighted]
  | cons u us ih =>
    cases vs with
    | nil => simp at h
    | cons v vs =>
      rw [zip_cons_cons, weighted, ih (by simpa using h), wordsNat_cons, length_cons, take_succ_cons, wordsNat_cons]
      ring

theorem carryLoop_spec [LawfulMonad m] {turn : α → ℕ → m (UInt32 × ℕ)} {f : α → ℕ} {Carry : ℕ → Prop} (xs : List α)
    (hturn : ∀ x ∈ xs, ∀ carry, Carry carry →
      ∃ w next, turn x carry = pure (w, next) ∧ Carry next ∧ w.toNat + 2 ^ 32 * next = f x + carry)
    (carry : ℕ) (hcarry : Carry carry) :
    ∃ ws last, carryLoop turn xs carry = pure (ws, last) ∧ Carry last ∧ ws.length = xs.length ∧
      wordsNat ws + 2 ^ (32 * xs.length) * last = weighted f xs + carry := by
  induction xs generalizing carry with
  | nil => exact ⟨[], carry, rfl, hcarry, rfl, by simp [weighted]⟩
  | cons x xs ih =>
    obtain ⟨w, next, hx, hnext, hvalue⟩ := hturn x mem_cons_self carry hcarry
    obtain ⟨ws, last, hxs, hlast, hlength, hrest⟩ := ih (fun y hy => hturn y (mem_cons_of_mem _ hy)) next hnext
    refine ⟨w :: ws, last, ?_, hlast, by simp [hlength], ?_⟩
    · simp [carryLoop, hx, hxs]
    · calc wordsNat (w :: ws) + 2 ^ (32 * (x :: xs).length) * last
          = w.toNat + 2 ^ 32 * (wordsNat ws + 2 ^ (32 * xs.length) * last) := by
            rw [wordsNat_cons, length_cons, Nat.mul_succ, pow_add]; ring
        _ = (w.toNat + 2 ^ 32 * next) + 2 ^ 32 * weighted f xs := by rw [hrest]; ring
        _ = weighted f (x :: xs) + carry := by rw [hvalue, weighted]; ring

end

theorem carryLoop_length {α : Type} {turn : α → ℕ → Option (UInt32 × ℕ)} {xs : List α} {carry last : ℕ}
    {ws : List UInt32} (h : carryLoop turn xs carry = some (ws, last)) : ws.length = xs.length := by
  induction xs generalizing carry ws last with
  | nil =>
    simp only [carryLoop, Option.pure_def, Option.some.injEq, Prod.mk.injEq] at h
    simp [← h.1]
  | cons x xs ih =>
    simp only [carryLoop, Option.bind_eq_bind, Option.bind_eq_some_iff, Option.pure_def, Option.some.injEq] at h
    obtain ⟨⟨w, next⟩, _, ⟨vs, end'⟩, hxs, heq⟩ := h
    cases heq
    simp [ih hxs]

/-- a carry loop that cannot fail -/
def carryPass {α : Type} (turn : α → ℕ → UInt32 × ℕ) (xs : List α) (carry : ℕ) : List UInt32 × ℕ :=
  carryLoop (m := Id) turn xs carry

theorem carryPass_length {α : Type} (turn : α → ℕ → UInt32 × ℕ) (xs : List α) (carry : ℕ) :
    (carryPass turn xs carry).1.length = xs.length := by
  induction xs generalizing carry with
  | nil => rfl
  | cons x xs ih => exact congrArg (· + 1) (ih (turn x carry).2)

theorem carryPass_spec {α : Type} {turn : α → ℕ → UInt32 × ℕ} {f : α → ℕ} (Carry : ℕ → Prop) (xs : List α)
    (hturn : ∀ x ∈ xs, ∀ carry, Carry carry → Carry (turn x carry).2 ∧
      (turn x carry).1.toNat + 2 ^ 32 * (turn x carry).2 = f x + carry) (carry : ℕ) (hcarry : Carry carry) :
    wordsNat (carryPass turn xs carry).1 + 2 ^ (32 * xs.length) * (carryPass turn xs carry).2 =
      weighted f xs + carry := by
  obtain ⟨ws, last, hpass, -, -, hvalue⟩ := carryLoop_spec (m := Id) xs
    (fun x hx carry hcarry => ⟨_, _, rfl, hturn x hx carry hcarry⟩) carry hcarry
  have hpair : carryPass turn xs carry = (ws, last) := hpass
  rw [hpair]
  exact hvalue

/-! ## Arrays of words -/

/-- an array of n words, most significant first -/
structure WordArray (n : ℕ) where
  words : List UInt32
  size_eq : words.length = n

namespace WordArray

variable {n : ℕ}

def zero (n : ℕ) : WordArray n := ⟨List.replicate n 0, length_replicate⟩

def get (a : WordArray n) (k : ℕ) : UInt32 := a.words.getD k 0

def set (a : WordArray n) (k : ℕ) (w : UInt32) : WordArray n := ⟨a.words.set k w, by rw [length_set, a.size_eq]⟩

def toNat (a : WordArray n) : ℕ := beWordsNat a.words

/-- the order of `std::array`: lexicographic -/
instance : LT (WordArray n) := ⟨fun a b => a.words < b.words⟩

instance (a b : WordArray n) : Decidable (a < b) := inferInstanceAs (Decidable (a.words < b.words))

/-- a carry loop over the words, from the last one to the first -/
def carryThrough (turn : UInt32 → ℕ → Option (UInt32 × ℕ)) (a : WordArray n) (carry : ℕ) : Option (WordArray n × ℕ) :=
  match h : carryLoop turn a.words.reverse carry with
  | none => none
  | some (ws, last) => some (⟨ws.reverse, by rw [length_reverse, carryLoop_length h, length_reverse, a.size_eq]⟩, last)

variable {k : ℕ} (a : WordArray n)

theorem lt_iff {a b : WordArray n} : a < b ↔ a.toNat < b.toNat := beWordsNat_lt_iff (by rw [a.size_eq, b.size_eq])

theorem toNat_inj {a b : WordArray n} : a.toNat = b.toNat ↔ a = b := by
  refine ⟨fun h => ?_, fun h => h ▸ rfl⟩
  have hwords := wordsNat_inj (by rw [length_reverse, length_reverse, a.size_eq, b.size_eq]) h
  cases a
  cases b
  simpa using hwords

@[simp] theorem toNat_zero : (zero n).toNat = 0 := by
  rw [toNat, zero, beWordsNat, reverse_replicate]
  induction n with
  | zero => rfl
  | succ n ih => simp [replicate_succ, ih]

theorem get_eq (hk : k < n) : ∃ h : k < a.words.length, a.get k = a.words[k] := by
  have h : k < a.words.length := by rw [a.size_eq]; exact hk
  exact ⟨h, by rw [get, getD_eq_getElem?_getD, getElem?_eq_getElem h, Option.getD_some]⟩

theorem toNat_set (hk : k < n) (w : UInt32) :
    (a.set k w).toNat + 2 ^ (32 * (n - 1 - k)) * (a.get k).toNat = a.toNat + 2 ^ (32 * (n - 1 - k)) * w.toNat := by
  obtain ⟨h, hget⟩ := a.get_eq hk
  have hset := beWordsNat_set a.words k h w
  rw [a.size_eq] at hset
  rw [hget]
  exact hset

theorem get_le (hk : k < n) : 2 ^ (32 * (n - 1 - k)) * (a.get k).toNat ≤ a.toNat := by
  obtain ⟨h, hget⟩ := a.get_eq hk
  have hle := beWordsNat_getElem_le a.words k h
  rw [a.size_eq] at hle
  rw [hget]
  exact hle

theorem get_set_ne {l : ℕ} (h : k ≠ l) (w : UInt32) : (a.set k w).get l = a.get l := by
  simp only [get, set, getD_eq_getElem?_getD, getElem?_set_ne h]

/-- A carry loop over an array multiplies it and adds the carry, if every turn does. -/
theorem carryThrough_spec {turn : UInt32 → ℕ → Option (UInt32 × ℕ)} {factor : ℕ} {Carry : ℕ → Prop}
      (hturn : ∀ x carry, Carry carry → ∃ w next, turn x carry = some (w, next) ∧ Carry next ∧
      w.toNat + 2 ^ 32 * next = factor * x.toNat + carry) (carry : ℕ) (hcarry : Carry carry) :
    ∃ b last, carryThrough turn a carry = some (b, last) ∧ Carry last ∧
      b.toNat + 2 ^ (32 * n) * last = factor * a.toNat + carry := by
  obtain ⟨ws, last, hloop, hlast, hlength, hvalue⟩ := carryLoop_spec a.words.reverse (fun x _ => hturn x) carry hcarry
  rw [weighted_mul_toNat, length_reverse, a.size_eq] at hvalue
  rw [length_reverse, a.size_eq] at hlength
  refine ⟨⟨ws.reverse, by rw [length_reverse, hlength]⟩, last, ?_, hlast, ?_⟩
  · unfold carryThrough
    split
    · next h => rw [h] at hloop; cases hloop
    · next us last' h =>
      rw [h] at hloop
      cases hloop
      rfl
  · simpa [toNat, beWordsNat] using hvalue

end WordArray

end ConnectCoin.Lib
