/-
Wire formats shared by every serialized object (`serialize.h`).

- `compactSize` / `readCompactSize`: 1, 3, 5 or 9 bytes; a longer form than needed is refused.
- `vector enc`: the count as a compact size, then the elements; `readVector` reads it back.
- `byteVector`: the same for a vector of bytes.
Results: `readCompactSize_exact`, `readVector_exact`; compact sizes, vectors and byte strings are self-delimiting
(`compactSize_selfDelimiting`, `vector_selfDelimiting`, `byteVector_selfDelimiting`).
-/
import ConnectCoin.Lib.Reader

namespace ConnectCoin

open Lib List

/-- `MAX_SIZE`, the largest size a reader accepts -/
def MAX_SIZE : ℕ := 0x04000000

/-- text of a read past the end of the stream -/
def endOfData : String := "end of data"

/-! ## Compact sizes -/

/-- `WriteCompactSize` of a 64-bit size -/
def compactSize (n : ℕ) : Bytes :=
  if n < 253 then [UInt8.ofNat n]
  else if n ≤ 0xffff then 253 :: leBytes 2 n
  else if n ≤ 0xffffffff then 254 :: leBytes 4 n
  else 255 :: leBytes 8 n

/-- a w-byte size that a shorter form could not carry -/
def readLongSize (w least : ℕ) : Reader ℕ := do
  let n ← readLE endOfData w
  ensure (¬ n < least) "non-canonical ReadCompactSize()"
  return n

/-- the size that follows its first byte -/
def readSizeAfter (chSize : UInt8) : Reader ℕ :=
  if chSize.toNat < 253 then pure chSize.toNat
  else if chSize.toNat = 253 then readLongSize 2 253
  else if chSize.toNat = 254 then readLongSize 4 0x10000
  else readLongSize 8 0x100000000

/-- `ReadCompactSize` -/
def readCompactSize (rangeCheck : Bool) : Reader ℕ := do
  let chSize ← readByte endOfData
  let nSizeRet ← readSizeAfter chSize
  ensure (¬ (rangeCheck = true ∧ nSizeRet > MAX_SIZE)) "ReadCompactSize(): size too large"
  return nSizeRet

theorem compactSize_length_pos (n : ℕ) : 0 < (compactSize n).length := by
  unfold compactSize
  split_ifs <;> simp

theorem reads_longSize (w least n : ℕ) (s t : Bytes) :
    readLongSize w least s = .ok (n, t) ↔ least ≤ n ∧ n < 256 ^ w ∧ s = leBytes w n ++ t := by
  simp only [readLongSize, reads_bind, reads_le, reads_ensure, reads_pure]
  constructor
  · rintro ⟨m, t₁, ⟨hm, rfl⟩, -, t₂, ⟨hl, rfl⟩, rfl, rfl⟩
    exact ⟨not_lt.1 hl, hm, rfl⟩
  · rintro ⟨hl, hn, rfl⟩
    exact ⟨n, t, ⟨hn, rfl⟩, (), t, ⟨not_lt.2 hl, rfl⟩, rfl, rfl⟩

/-- What a compact size looks like, by its first byte. -/
theorem cons_eq_compactSize (b : UInt8) (n : ℕ) (s t : Bytes) : b :: s = compactSize n ++ t ↔
      n < 253 ∧ b.toNat = n ∧ s = t ∨ 253 ≤ n ∧ n ≤ 0xffff ∧ b.toNat = 253 ∧ s = leBytes 2 n ++ t ∨
      0x10000 ≤ n ∧ n ≤ 0xffffffff ∧ b.toNat = 254 ∧ s = leBytes 4 n ++ t ∨
      0x100000000 ≤ n ∧ b.toNat = 255 ∧ s = leBytes 8 n ++ t := by
  have hbyte : ∀ k : ℕ, k < 256 → (b = UInt8.ofNat k ↔ b.toNat = k) := by
    intro k hk
    rw [← UInt8.toNat_inj, UInt8.toNat_ofNat_of_lt' hk]
  unfold compactSize
  split_ifs with h₁ h₂ h₃
  · simp only [cons_append, nil_append, List.cons.injEq, hbyte n (by omega)]
    grind
  · have hb : b = 253 ↔ b.toNat = 253 := hbyte 253 (by decide)
    simp only [cons_append, List.cons.injEq, hb]
    grind
  · have hb : b = 254 ↔ b.toNat = 254 := hbyte 254 (by decide)
    simp only [cons_append, List.cons.injEq, hb]
    grind
  · have hb : b = 255 ↔ b.toNat = 255 := hbyte 255 (by decide)
    simp only [cons_append, List.cons.injEq, hb]
    grind

/-- The first byte and what it announces are the shortest form of the size. -/
theorem reads_sizeAfter (chSize : UInt8) (n : ℕ) (s t : Bytes) :
    readSizeAfter chSize s = .ok (n, t) ↔ n < 2 ^ 64 ∧ chSize :: s = compactSize n ++ t := by
  have hb := chSize.toNat_lt
  rw [cons_eq_compactSize]
  unfold readSizeAfter
  split_ifs with h₁ h₂ h₃
  · rw [reads_pure]
    grind
  · rw [reads_longSize]
    grind
  · rw [reads_longSize]
    grind
  · rw [reads_longSize]
    grind

/-- The reader accepts the shortest form of a size and nothing else. -/
theorem readCompactSize_exact (rangeCheck : Bool) :
    Exact (readCompactSize rangeCheck) (fun n => n < 2 ^ 64 ∧ (rangeCheck = true → n ≤ MAX_SIZE)) compactSize := by
  intro n s t
  simp only [readCompactSize, reads_bind, reads_byte, reads_sizeAfter, reads_ensure, reads_pure]
  constructor
  · rintro ⟨b, t₁, rfl, m, t₂, ⟨hm, he⟩, -, t₃, ⟨hr, rfl⟩, rfl, rfl⟩
    exact ⟨⟨hm, fun hc => not_lt.1 fun hl => hr ⟨hc, hl⟩⟩, he⟩
  · rintro ⟨⟨hn, hr⟩, rfl⟩
    cases hc : compactSize n with
    | nil => simpa [hc] using compactSize_length_pos n
    | cons b bs =>
      exact ⟨b, bs ++ t, rfl, n, t, ⟨hn, by rw [hc, cons_append]⟩, (), t,
        ⟨fun h => absurd (hr h.1) (not_le.2 h.2), rfl⟩, rfl, rfl⟩

theorem compactSize_selfDelimiting : SelfDelimiting (· < 2 ^ 64) compactSize := by
  intro m n s t hm hn h
  exact (readCompactSize_exact false).selfDelimiting ⟨hm, fun hc => by simp at hc⟩ ⟨hn, fun hc => by simp at hc⟩ h

/-! ## Vectors -/

/-- a vector: its size, then its elements -/
def vector {α : Type} (enc : α → Bytes) (as : List α) : Bytes := compactSize as.length ++ as.flatMap enc

/-- a vector of bytes: its size, then the bytes -/
def byteVector (b : Bytes) : Bytes := compactSize b.length ++ b

def readVector {α : Type} (r : Reader α) : Reader (List α) := do readN r (← readCompactSize true)

variable {α : Type} {enc : α → Bytes} {P : α → Prop}

theorem readVector_exact {r : Reader α} (h : Exact r P enc) :
    Exact (readVector r) (fun as => as.length ≤ MAX_SIZE ∧ ∀ a ∈ as, P a) (vector enc) := by
  intro as s t
  simp only [readVector, reads_bind, readCompactSize_exact true _ _ _, h.readN _ _ _ _, vector, append_assoc]
  constructor
  · rintro ⟨n, t₁, ⟨⟨_, hn⟩, rfl⟩, ⟨rfl, has⟩, rfl⟩
    exact ⟨⟨hn trivial, has⟩, rfl⟩
  · rintro ⟨⟨hlen, has⟩, rfl⟩
    have h64 : as.length < 2 ^ 64 := lt_of_le_of_lt hlen (by decide)
    exact ⟨_, _, ⟨⟨h64, fun _ => hlen⟩, rfl⟩, ⟨rfl, has⟩, rfl⟩

theorem readVector_readsBack {β : Type} {r : Reader β} {view : α → β} (h : ReadsBack r P enc view) :
    ReadsBack (readVector r) (fun as => as.length ≤ MAX_SIZE ∧ ∀ a ∈ as, P a) (vector enc) (List.map view) := by
  intro as t has
  have h64 : as.length < 2 ^ 64 := lt_of_le_of_lt has.1 (by decide)
  rw [readVector, reads_bind, vector, append_assoc]
  exact ⟨as.length, _, (readCompactSize_exact true _ _ _).2 ⟨⟨h64, fun _ => has.1⟩, rfl⟩, h.readN as t has.2⟩

/-- A vector is at least as long as the lengths of its elements together, so as any sum of parts of them. -/
theorem sum_le_vector {part : α → ℕ} {as : List α} (h : ∀ a ∈ as, part a ≤ (enc a).length) :
    (as.map part).sum ≤ (vector enc as).length := by
  have hflat : (as.map part).sum ≤ (as.flatMap enc).length := by
    induction as with
    | nil => exact le_refl _
    | cons a as ih =>
      obtain ⟨ha, hrest⟩ := forall_mem_cons.1 h
      rw [flatMap_cons, length_append, map_cons, sum_cons]
      exact add_le_add ha (ih hrest)
  rw [vector, length_append]
  omega

/-- A vector of elements that take a byte each is at least as long as its count. -/
theorem length_le_vector {as : List α} (h : ∀ a ∈ as, 0 < (enc a).length) : as.length ≤ (vector enc as).length := by
  have hsum : (as.map fun _ => 1).sum ≤ (vector enc as).length := sum_le_vector h
  simpa using hsum

theorem vector_selfDelimiting (h : SelfDelimiting P enc) :
    SelfDelimiting (fun as : List α => as.length < 2 ^ 64 ∧ ∀ a ∈ as, P a) (vector enc) :=
  h.counted compactSize_selfDelimiting

theorem byteVector_selfDelimiting : SelfDelimiting (fun b : Bytes => b.length < 2 ^ 64) byteVector :=
  SelfDelimiting.bytes compactSize_selfDelimiting

end ConnectCoin
