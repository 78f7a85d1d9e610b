/-
Readers over byte strings. GENERAL: a reader consumes bytes from the front of its input and returns a value, or stops
with an error text. Nothing here is about a particular format.

- `Reader α`: state is the unread input; failure carries a text.
- primitives: `readByte`, `readBytes n`, `readBE w`, `readLE w`, `readU16`, `ensure`, `remaining`, `fromExcept`.
- `readN`: a fixed number of items.
- `consumeAll`: run one item reader until the input is used up (the `while (!reader.Empty())` loop), threading an
  accumulator.

Each primitive has ONE lemma that says exactly when it succeeds (`reads_…`), as an equation between the input and what
was read. A straight-line reader is then the conjunction of its primitives' equations (`reads_bind`), that is, a
declarative grammar. `Exact r P enc` says it of a whole reader: what it accepts is an encoding of the value it returns,
and every encoding is accepted, whatever follows it. `consumeAll_ok` does the same for a loop: it succeeds iff the input
is the concatenation of encodings of items each of which was acceptable when it was met.
-/
import ConnectCoin.Lib.Code

namespace ConnectCoin.Lib

open List

abbrev Reader := StateT Bytes (Except String)

/-! ## Primitives -/

/-- stop with `msg` unless the condition holds -/
def ensure (c : Prop) [Decidable c] (msg : String) : Reader Unit := fun s => if c then .ok ((), s) else .error msg

variable (msg : String)

/-- the next n bytes -/
def readBytes (n : ℕ) : Reader Bytes := fun s =>
  if n ≤ s.length then .ok (s.take n, s.drop n) else .error msg

def readByte : Reader UInt8
  | [] => .error msg
  | b :: s => .ok (b, s)

/-- a w-byte number, most significant byte first -/
def readBE (w : ℕ) : Reader ℕ := do return beNat (← readBytes msg w)

/-- a w-byte number, least significant byte first -/
def readLE (w : ℕ) : Reader ℕ := do return leNat (← readBytes msg w)

/-- a 16-bit value, most significant byte first -/
def readU16 : Reader UInt16 := do return UInt16.ofNat (← readBE msg 2)

/-- how many bytes are left -/
def remaining : Reader ℕ := fun s => .ok (s.length, s)

/-- a check that reads nothing -/
def fromExcept {α : Type} (e : Except String α) : Reader α := fun s => e.map (·, s)

/-- the value a reader returns on a whole input, whatever is left over -/
def Reader.run {α : Type} (r : Reader α) (s : Bytes) : Except String α := (r s).map Prod.fst

/-! ## When a reader succeeds -/

variable {α : Type} (msg : String)

theorem reads_bind {β : Type} (x : Reader α) (f : α → Reader β) (s : Bytes) (r : β × Bytes) :
    (x >>= f) s = .ok r ↔ ∃ a t, x s = .ok (a, t) ∧ f a t = .ok r := by
  change (x s >>= fun p => f p.1 p.2) = .ok r ↔ _
  cases h : x s with
  | error e => simp [bind, Except.bind]
  | ok p =>
    obtain ⟨a, t⟩ := p
    simp [bind, Except.bind]

theorem reads_pure (a b : α) (s t : Bytes) : (pure a : Reader α) s = .ok (b, t) ↔ b = a ∧ t = s := by
  change Except.ok (a, s) = Except.ok (b, t) ↔ _
  simp [eq_comm]

theorem reads_ensure (c : Prop) [Decidable c] (msg : String) (u : Unit) (s t : Bytes) :
    ensure c msg s = .ok (u, t) ↔ c ∧ t = s := by
  unfold ensure
  split_ifs with h
  · simp [h, eq_comm]
  · simp [h]

theorem reads_bytes (n : ℕ) (b s t : Bytes) : readBytes msg n s = .ok (b, t) ↔ b.length = n ∧ s = b ++ t := by
  unfold readBytes
  constructor
  · intro h
    split_ifs at h with hn
    simp only [Except.ok.injEq, Prod.mk.injEq] at h
    obtain ⟨rfl, rfl⟩ := h
    exact ⟨length_take_of_le hn, (take_append_drop n s).symm⟩
  · rintro ⟨rfl, rfl⟩
    simp

theorem reads_byte (b : UInt8) (s t : Bytes) : readByte msg s = .ok (b, t) ↔ s = b :: t := by
  cases s with
  | nil => simp [readByte]
  | cons c s => simp [readByte]

theorem reads_be (w v : ℕ) (s t : Bytes) : readBE msg w s = .ok (v, t) ↔ v < 256 ^ w ∧ s = beBytes w v ++ t := by
  simp only [readBE, reads_bind, reads_pure, reads_bytes]
  constructor
  · rintro ⟨b, t', ⟨rfl, rfl⟩, rfl, rfl⟩
    exact ⟨beNat_lt b, by rw [beBytes_beNat]⟩
  · rintro ⟨hv, rfl⟩
    exact ⟨_, _, ⟨beBytes_length w v, rfl⟩, (beNat_beBytes_of_lt hv).symm, rfl⟩

theorem reads_le (w v : ℕ) (s t : Bytes) : readLE msg w s = .ok (v, t) ↔ v < 256 ^ w ∧ s = leBytes w v ++ t := by
  simp only [readLE, reads_bind, reads_pure, reads_bytes]
  constructor
  · rintro ⟨b, t', ⟨rfl, rfl⟩, rfl, rfl⟩
    exact ⟨leNat_lt b, by rw [leBytes_leNat]⟩
  · rintro ⟨hv, rfl⟩
    exact ⟨_, _, ⟨leBytes_length w v, rfl⟩, (leNat_leBytes_of_lt hv).symm, rfl⟩

theorem reads_u16 (v : UInt16) (s t : Bytes) : readU16 msg s = .ok (v, t) ↔ s = beBytes 2 v.toNat ++ t := by
  simp only [readU16, reads_bind, reads_pure, reads_be]
  constructor
  · rintro ⟨n, t', ⟨hn, rfl⟩, rfl, rfl⟩
    rw [UInt16.toNat_ofNat_of_lt' hn]
  · rintro rfl
    exact ⟨_, _, ⟨v.toNat_lt, rfl⟩, (UInt16.ofNat_toNat).symm, rfl⟩

theorem reads_remaining (n : ℕ) (s t : Bytes) : remaining s = .ok (n, t) ↔ n = s.length ∧ t = s := by
  simp [remaining, eq_comm]

theorem reads_fromExcept (e : Except String α) (a : α) (s t : Bytes) :
    fromExcept e s = .ok (a, t) ↔ e = .ok a ∧ t = s := by
  cases e with
  | error m => simp [fromExcept, Except.map]
  | ok b => simp [fromExcept, Except.map, eq_comm]

theorem isOk_iff {ε : Type} {e : Except ε α} : e.isOk = true ↔ ∃ a, e = .ok a := by
  cases e with
  | error m => simp [Except.isOk, Except.toBool]
  | ok a => simp [Except.isOk, Except.toBool]

theorem run_eq_ok (r : Reader α) (s : Bytes) (a : α) : r.run s = .ok a ↔ ∃ t, r s = .ok (a, t) := by
  unfold Reader.run
  cases h : r s with
  | error m => simp [Except.map]
  | ok p =>
    obtain ⟨b, t⟩ := p
    simp [Except.map]

/-! ## One primitive, then the rest

`reads_bind` with the primitive's own equation put in, so that a straight-line reader unfolds to the pieces of its input
and the conditions on them, without a variable for each intermediate state. -/

section
variable {α β : Type} (msg : String) (s : Bytes) (r : β × Bytes)

theorem then_ensure (c : Prop) [Decidable c] (f : Unit → Reader β) :
    (ensure c msg >>= f) s = .ok r ↔ c ∧ f () s = .ok r := by
  simp only [reads_bind, reads_ensure]
  exact ⟨fun ⟨_, _, ⟨hc, ht⟩, h⟩ => ⟨hc, ht ▸ h⟩, fun ⟨hc, h⟩ => ⟨(), s, ⟨hc, rfl⟩, h⟩⟩

variable (w : ℕ) (f : ℕ → Reader β)

theorem then_remaining : (remaining >>= f) s = .ok r ↔ f s.length s = .ok r := by
  simp only [reads_bind, reads_remaining]
  exact ⟨fun ⟨_, _, ⟨hn, ht⟩, h⟩ => by rwa [hn, ht] at h, fun h => ⟨_, _, ⟨rfl, rfl⟩, h⟩⟩

theorem then_fromExcept (e : Except String α) (f : α → Reader β) :
    (fromExcept e >>= f) s = .ok r ↔ ∃ a, e = .ok a ∧ f a s = .ok r := by
  simp only [reads_bind, reads_fromExcept]
  exact ⟨fun ⟨a, _, ⟨he, ht⟩, h⟩ => ⟨a, he, ht ▸ h⟩, fun ⟨a, he, h⟩ => ⟨a, s, ⟨he, rfl⟩, h⟩⟩

theorem then_bytes (n : ℕ) (f : Bytes → Reader β) :
    (readBytes msg n >>= f) s = .ok r ↔ ∃ b t, b.length = n ∧ s = b ++ t ∧ f b t = .ok r := by
  simp only [reads_bind, reads_bytes, and_assoc]

theorem then_byte (f : UInt8 → Reader β) : (readByte msg >>= f) s = .ok r ↔ ∃ b t, s = b :: t ∧ f b t = .ok r := by
  simp only [reads_bind, reads_byte]

theorem then_be : (readBE msg w >>= f) s = .ok r ↔ ∃ v t, v < 256 ^ w ∧ s = beBytes w v ++ t ∧ f v t = .ok r := by
  simp only [reads_bind, reads_be, and_assoc]

theorem then_le : (readLE msg w >>= f) s = .ok r ↔ ∃ v t, v < 256 ^ w ∧ s = leBytes w v ++ t ∧ f v t = .ok r := by
  simp only [reads_bind, reads_le, and_assoc]

theorem then_u16 (f : UInt16 → Reader β) :
    (readU16 msg >>= f) s = .ok r ↔ ∃ v t, s = beBytes 2 v.toNat ++ t ∧ f v t = .ok r := by
  simp only [reads_bind, reads_u16]

end

/-! ## Exact readers -/

/-- r accepts exactly the encodings of the values with P, and returns the encoded value -/
def Exact {α : Type} (r : Reader α) (P : α → Prop) (enc : α → Bytes) : Prop :=
  ∀ (a : α) (s t : Bytes), r s = .ok (a, t) ↔ P a ∧ s = enc a ++ t

variable {α : Type} {enc : α → Bytes} {P : α → Prop} {r : Reader α}

theorem Exact.selfDelimiting (h : Exact r P enc) : SelfDelimiting P enc := by
  intro a b s t ha hb he
  have h₁ := (h a (enc a ++ s) s).2 ⟨ha, rfl⟩
  have h₂ := (h b (enc a ++ s) t).2 ⟨hb, he⟩
  rw [h₁] at h₂
  simpa using h₂

/-- n items in a row -/
def readN {α : Type} (r : Reader α) : ℕ → Reader (List α)
  | 0 => pure []
  | n + 1 => do
    let a ← r
    let as ← readN r n
    return a :: as

theorem Exact.readN (h : Exact r P enc) (n : ℕ) :
    Exact (Lib.readN r n) (fun as => as.length = n ∧ ∀ a ∈ as, P a) (fun as => as.flatMap enc) := by
  induction n with
  | zero =>
    intro as s t
    rw [Lib.readN, reads_pure]
    constructor
    · rintro ⟨rfl, rfl⟩
      simp
    · rintro ⟨⟨hlen, _⟩, rfl⟩
      simp [length_eq_zero_iff.1 hlen]
  | succ n ih =>
    intro as s t
    simp only [Lib.readN, reads_bind, reads_pure, h _ _ _, ih _ _ _]
    constructor
    · rintro ⟨a, t₁, ⟨ha, rfl⟩, as', t₂, ⟨⟨hlen, has⟩, rfl⟩, rfl, rfl⟩
      simpa [hlen, ha] using has
    · rintro ⟨⟨hlen, has⟩, rfl⟩
      cases as with
      | nil => simp at hlen
      | cons a as =>
        refine ⟨a, _, ⟨has a (by simp), by rw [flatMap_cons, append_assoc]⟩, as, t, ⟨⟨?_, ?_⟩, rfl⟩, rfl, rfl⟩
        · simpa using hlen
        · exact fun x hx => has x (by simp [hx])

/-! ## Reading back -/

/-- r reads what enc writes, as its view, whatever follows; the view may be less than what was written -/
def ReadsBack {α β : Type} (r : Reader β) (P : α → Prop) (enc : α → Bytes) (view : α → β) : Prop :=
  ∀ (a : α) (t : Bytes), P a → r (enc a ++ t) = .ok (view a, t)

theorem ReadsBack.readN {β : Type} {r : Reader β} {view : α → β} (h : ReadsBack r P enc view) (as : List α) (t : Bytes)
    (has : ∀ a ∈ as, P a) : Lib.readN r as.length (as.flatMap enc ++ t) = .ok (as.map view, t) := by
  induction as with
  | nil => rfl
  | cons a as ih =>
    obtain ⟨ha, has'⟩ := forall_mem_cons.1 has
    rw [length_cons, Lib.readN, flatMap_cons, append_assoc, reads_bind]
    exact ⟨view a, _, h a _ ha, (reads_bind ..).2 ⟨as.map view, t, ih has', rfl⟩⟩

/-! ## Loops that use up their input -/

/-- Run `step` until the input is empty. Fuel: one unit a turn; the input's length is enough when every turn consumes
a byte (`consumeAll_ok`). -/
def consumeAll {σ : Type} (step : σ → Reader σ) : ℕ → σ → Bytes → Except String σ
  | _, acc, [] => .ok acc
  | 0, _, _ :: _ => .error "fuel"
  | n + 1, acc, b :: bs => do
    let (acc', rest) ← step acc (b :: bs)
    consumeAll step n acc' rest

/-- the items of a loop, each acceptable for the accumulator it meets -/
def ItemsOk {σ α : Type} (ok : σ → α → Prop) (upd : σ → α → σ) : σ → List α → Prop
  | _, [] => True
  | acc, a :: as => ok acc a ∧ ItemsOk ok upd (upd acc a) as

/-- A loop whose turn reads exactly one acceptable item succeeds iff its input is a concatenation of item encodings,
each acceptable when met. -/
theorem consumeAll_ok {σ : Type} (step : σ → Reader σ) (ok : σ → α → Prop) (upd : σ → α → σ) (enc : α → Bytes)
    (hstep : ∀ acc acc' s t, step acc s = .ok (acc', t) ↔ ∃ a, ok acc a ∧ acc' = upd acc a ∧ s = enc a ++ t)
    (hpos : ∀ acc a, ok acc a → enc a ≠ []) (fuel : ℕ) (acc acc' : σ) (s : Bytes) (hfuel : s.length ≤ fuel) :
    consumeAll step fuel acc s = .ok acc' ↔
      ∃ as, ItemsOk ok upd acc as ∧ acc' = as.foldl upd acc ∧ s = as.flatMap enc := by
  induction fuel generalizing acc s with
  | zero =>
    obtain rfl : s = [] := length_eq_zero_iff.1 (Nat.le_zero.1 hfuel)
    constructor
    · intro h
      exact ⟨[], trivial, by simpa [consumeAll, eq_comm] using h, rfl⟩
    · rintro ⟨as, hok, rfl, has⟩
      cases as with
      | nil => rfl
      | cons a as => exact absurd (append_eq_nil_iff.1 has.symm).1 (hpos _ _ hok.1)
  | succ fuel ih =>
    cases s with
    | nil =>
      constructor
      · intro h
        exact ⟨[], trivial, by simpa [consumeAll, eq_comm] using h, rfl⟩
      · rintro ⟨as, hok, rfl, has⟩
        cases as with
        | nil => rfl
        | cons a as => exact absurd (append_eq_nil_iff.1 has.symm).1 (hpos _ _ hok.1)
    | cons b bs =>
      -- one turn, then the induction hypothesis on what it left unread
      have hturn : consumeAll step (fuel + 1) acc (b :: bs) = .ok acc' ↔
          ∃ mid t, step acc (b :: bs) = .ok (mid, t) ∧ consumeAll step fuel mid t = .ok acc' := by
        rw [consumeAll]
        cases step acc (b :: bs) with
        | error e => simp [bind, Except.bind]
        | ok p =>
          obtain ⟨mid, t⟩ := p
          simp [bind, Except.bind]
      rw [hturn]
      constructor
      · rintro ⟨mid, t, hs, hc⟩
        obtain ⟨a, hok, rfl, hbs⟩ := (hstep _ _ _ _).1 hs
        have hlen := congrArg List.length hbs
        have hne := length_pos_of_ne_nil (hpos acc a hok)
        simp only [length_append, length_cons] at hlen hfuel
        obtain ⟨as, hoks, rfl, rfl⟩ := (ih _ t (by omega)).1 hc
        exact ⟨a :: as, ⟨hok, hoks⟩, rfl, hbs⟩
      · rintro ⟨as, hok, rfl, has⟩
        cases as with
        | nil => simp at has
        | cons a as =>
          have hlen := congrArg List.length has
          have hne := length_pos_of_ne_nil (hpos acc a hok.1)
          simp only [flatMap_cons, length_append, length_cons] at hlen hfuel
          have hrest : (as.flatMap enc).length ≤ fuel := by omega
          exact ⟨_, _, (hstep _ _ _ _).2 ⟨a, hok.1, rfl, has⟩, (ih _ _ hrest).2 ⟨as, hok.2, rfl, rfl⟩⟩

/-! ## Loops that collect what they read -/

section
variable {α β κ : Type} (view : α → β) (Q : α → Prop)

theorem foldl_collect (acc : List β) (as : List α) :
    as.foldl (fun acc a => acc ++ [view a]) acc = acc ++ as.map view := by
  rw [foldl_append_eq_append, ← flatMap_def, ← map_eq_flatMap]

/-- Items refused when their key was collected before: all keys are distinct, and new to the accumulator. -/
theorem itemsOk_distinct (key : β → κ) (acc : List β) (as : List α) :
    ItemsOk (fun acc a => Q a ∧ ∀ x ∈ acc, key x ≠ key (view a)) (fun acc a => acc ++ [view a]) acc as ↔
      (∀ a ∈ as, Q a) ∧ (as.map (fun a => key (view a))).Nodup ∧ ∀ a ∈ as, ∀ x ∈ acc, key x ≠ key (view a) := by
  induction as generalizing acc with
  | nil => simp [ItemsOk]
  | cons a as ih =>
    simp only [ItemsOk, ih, map_cons, nodup_cons, mem_cons, forall_eq_or_imp, mem_append,
      not_mem_nil, or_false, mem_map, not_exists, not_and]
    constructor
    · rintro ⟨⟨hq, hnew⟩, hqs, hnd, hold⟩
      exact ⟨⟨hq, hqs⟩, ⟨fun b hb h => hold b hb (view a) (Or.inr rfl) h.symm, hnd⟩, hnew,
        fun b hb x hx => hold b hb x (Or.inl hx)⟩
    · rintro ⟨⟨hq, hqs⟩, ⟨hself, hnd⟩, hnew, hold⟩
      refine ⟨⟨hq, hnew⟩, hqs, hnd, fun b hb x hx => ?_⟩
      rcases hx with hx | rfl
      · exact hold b hb x hx
      · exact fun h => hself b hb h.symm

/-- Items refused when the collection grows past N: there are at most N of them. -/
theorem itemsOk_bounded (N : ℕ) (acc : List β) (as : List α) (hacc : acc.length ≤ N) :
    ItemsOk (fun acc a => Q a ∧ (acc ++ [view a]).length ≤ N) (fun acc a => acc ++ [view a]) acc as ↔
      (∀ a ∈ as, Q a) ∧ acc.length + as.length ≤ N := by
  induction as generalizing acc with
  | nil => simp [ItemsOk, hacc]
  | cons a as ih =>
    simp only [ItemsOk, mem_cons, forall_eq_or_imp, length_cons]
    constructor
    · rintro ⟨⟨hq, hlen⟩, hrest⟩
      obtain ⟨hqs, hle⟩ := (ih _ hlen).1 hrest
      rw [length_append, length_singleton] at hle
      exact ⟨⟨hq, hqs⟩, by omega⟩
    · rintro ⟨⟨hq, hqs⟩, hle⟩
      have hlen : (acc ++ [view a]).length ≤ N := by
        rw [length_append, length_singleton]; omega
      refine ⟨⟨hq, hlen⟩, (ih _ hlen).2 ⟨hqs, ?_⟩⟩
      rw [length_append, length_singleton]
      omega

end

end ConnectCoin.Lib
