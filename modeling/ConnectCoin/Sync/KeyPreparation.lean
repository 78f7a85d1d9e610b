/-
Preparing RandomX datasets ahead of the tip (`PrepareRandomXKeys` in `pow.cpp`).

At every new tip the node asks the context cache for the key of the next block, and inside the lag after an epoch block
also for the key that this block will be.

- `prepareRandomXKeys`: the keys asked for, in order. The epoch length is cast to `int` here, unlike in
  `RandomXSeedHeight`. None stands for a failed assertion or a signed overflow.
- `neededKey`: the key of a block that extends the tip.
- `Call`, `Calls`: the cache during the calls of `Prepare`, with builds that end meanwhile.
Results:
- `seedHeights`: the seed heights of the next `lag` blocks are those of the first and of the last;
- `requested_exact`: with an epoch length that fits an `int`, the keys asked for are exactly the keys needed;
- `Kept.call`: a call keeps the keys that were prepared last, while `m_clock` has not wrapped;
- `preparation_covers`: both; `largestEpoch_extra_key`: an epoch of 2^32 - 1 blocks asks for a key that no block needs.
-/
import ConnectCoin.Crypto.RandomXCache
import ConnectCoin.Lib.Checked
import ConnectCoin.Sync.KeySchedule

namespace ConnectCoin

open Lib CBlockIndex List

/-! ## The keys asked for -/

section
variable [Crypto]

/-- `PrepareRandomXKeys`: the keys of its calls of `PrepareRandomXKey` -/
def prepareRandomXKeys (P : Params) (tip : Option CBlockIndex) : Option (List Uint256) := do
  let current ← getRandomXKey P tip
  match tip with
  | none => return [current]
  | some tip =>
    if P.randomxEpochBlocks = 0 then return [current]
    let epochBlocks : ℤ := P.randomxEpochBlocks.toInt32.toInt
    let keyHeight : ℤ := tip.nHeight - (tip.nHeight : ℤ).tmod epochBlocks
    if keyHeight = 0 then return [current]
    let usable ← i32 (keyHeight + P.randomxEpochLag.toInt32.toInt)
    if (tip.nHeight : ℤ) ≥ usable then return [current]
    let keyBlock ← tip.getAncestor keyHeight
    return [current, keyBlock.getBlockHash]

/-- the key of the block after tip and i more blocks of a chain -/
def neededKey (P : Params) (tip : CBlockIndex) (chain : List CBlockHeader) (i : ℕ) : Option Uint256 :=
  getRandomXKey P (some (tip.extend (chain.take i)))

/-- the key at a seed height up to the tip's -/
def keyAt (P : Params) (tip : CBlockIndex) (seed : ℕ) : Option Uint256 :=
  if seed = 0 then some P.randomxBootstrapKey else (tip.getAncestor seed).map getBlockHash

/-- the seed height of the block after the tip and i more -/
def seedAfter (P : Params) (height i : ℕ) : ℕ :=
  (height + 1 + i - P.randomxEpochLag.toNat) / P.randomxEpochBlocks.toNat * P.randomxEpochBlocks.toNat

/-- the last epoch block up to a height -/
def lastEpoch (P : Params) (height : ℕ) : ℕ := height / P.randomxEpochBlocks.toNat * P.randomxEpochBlocks.toNat

/-! ## Seed heights ahead of the tip -/

section
variable {P : Params} (hepoch : P.randomxEpochBlocks ≠ 0)
include hepoch

omit [Crypto] in
theorem schedule_lt : 0 < P.randomxEpochLag.toNat ∧ P.randomxEpochLag.toNat < P.randomxEpochBlocks.toNat := by
  obtain ⟨hpos, hlt⟩ := P.schedule_ok.resolve_left hepoch
  rw [UInt32.lt_iff_toNat_lt] at hpos hlt
  exact ⟨hpos, hlt⟩

/-- The block i after the tip has the key at its seed height, which is not above the tip. -/
theorem neededKey_eq {tip : CBlockIndex} (htip : Built tip) (hint : tip.nHeight + P.randomxEpochLag.toNat < 2 ^ 31)
    {chain : List CBlockHeader} (hchain : Linked tip chain) {i : ℕ} (hi : i < P.randomxEpochLag.toNat)
    (hlen : i ≤ chain.length) : neededKey P tip chain i = keyAt P tip (seedAfter P tip.nHeight i) := by
  have hlinked : Linked tip (chain.take i) := by
    rw [← take_append_drop i chain, linked_append] at hchain
    exact hchain.1
  have hseed := seed_of_small_lag P (show tip.nHeight + 1 + i < 2 ^ 31 by omega) hepoch (by omega)
  have hle : seedAfter P tip.nHeight i ≤ tip.nHeight := (Nat.div_mul_le_self _ _).trans (by omega)
  rw [neededKey, getRandomXKey_some, extend_nHeight, length_take_of_le hlen,
    show tip.nHeight + i + 1 = tip.nHeight + 1 + i by omega, hseed, keyAt]
  change (if ((seedAfter P tip.nHeight i : ℕ) : ℤ) = 0 then _ else _) = _
  by_cases hzero : seedAfter P tip.nHeight i = 0
  · rw [if_pos hzero, if_pos (by exact_mod_cast hzero)]
  · rw [if_neg hzero, if_neg (by exact_mod_cast hzero)]
    exact congrArg _ (extend_getAncestor_below htip hlinked hle)

omit [Crypto] in
/-- The seed heights ahead are the first one and the last epoch block, which the tip reaches only inside the lag. -/
theorem seedHeights (height : ℕ) {i : ℕ} (hi : i < P.randomxEpochLag.toNat) :
    seedAfter P height i = seedAfter P height 0 ∨
      seedAfter P height i = lastEpoch P height ∧ height < lastEpoch P height + P.randomxEpochLag.toNat := by
  obtain ⟨hpos, hlt⟩ := schedule_lt hepoch
  rw [seedAfter, seedAfter, lastEpoch]
  generalize P.randomxEpochBlocks.toNat = epoch at *
  generalize P.randomxEpochLag.toNat = lag at *
  obtain ⟨q, r, hr, rfl⟩ : ∃ q r, r < epoch ∧ height = q * epoch + r :=
    ⟨height / epoch, height % epoch, Nat.mod_lt _ (by omega), by rw [Nat.mul_comm, Nat.div_add_mod]⟩
  have hheight : (q * epoch + r) / epoch = q := Nat.div_eq_of_lt_le (by omega) (by rw [Nat.succ_mul]; omega)
  have hin : ∀ x, q * epoch ≤ x → x ≤ q * epoch + r → x / epoch = q := fun x hlow hhigh =>
    Nat.div_eq_of_lt_le hlow (by rw [Nat.succ_mul]; omega)
  rw [hheight]
  rcases Nat.lt_or_ge (q * epoch + r + 1 + i - lag) (q * epoch) with hbefore | hafter
  · -- before the last epoch block: in the epoch before it, as the first block is
    obtain ⟨p, rfl⟩ : ∃ p, q = p + 1 := Nat.exists_eq_succ_of_ne_zero fun hq => by
      rw [hq, Nat.zero_mul] at hbefore; omega
    rw [Nat.succ_mul] at hbefore ⊢
    have hprev : ∀ x, p * epoch ≤ x → x < p * epoch + epoch → x / epoch = p := fun x hlow hhigh =>
      Nat.div_eq_of_lt_le hlow (by rw [Nat.succ_mul]; exact hhigh)
    exact Or.inl (by rw [hprev _ (by omega) hbefore, hprev _ (by omega) (by omega)])
  · rcases Nat.lt_or_ge r lag with hinside | houtside
    · exact Or.inr ⟨by rw [hin _ hafter (by omega)], by omega⟩
    · exact Or.inl (by rw [hin _ hafter (by omega), hin _ (by omega) (by omega)])

omit [Crypto] in
/-- The last of the blocks ahead has the last epoch block as its seed. -/
theorem seedAfter_last (height : ℕ) : seedAfter P height (P.randomxEpochLag.toNat - 1) = lastEpoch P height := by
  obtain ⟨hpos, -⟩ := schedule_lt hepoch
  rw [seedAfter, lastEpoch, show height + 1 + (P.randomxEpochLag.toNat - 1) - P.randomxEpochLag.toNat = height by omega]

omit [Crypto] in
/-- Outside the lag it is the seed of the first one too. -/
theorem seedAfter_outside {height : ℕ} (h : lastEpoch P height + P.randomxEpochLag.toNat ≤ height) :
    seedAfter P height 0 = lastEpoch P height := by
  obtain ⟨hpos, hlt⟩ := schedule_lt hepoch
  rcases seedHeights hepoch height (show P.randomxEpochLag.toNat - 1 < P.randomxEpochLag.toNat by omega)
    with hfirst | ⟨-, hinside⟩
  · rw [← hfirst, seedAfter_last hepoch]
  · omega

end

/-! ## Asked for and needed -/

section
variable {P : Params} (hepoch : P.randomxEpochBlocks ≠ 0) (hsmall : P.randomxEpochBlocks.toNat < 2 ^ 31)
  {tip : CBlockIndex} (htip : Built tip) (hint : tip.nHeight + P.randomxEpochLag.toNat < 2 ^ 31)

omit [Crypto] in
include hsmall in
/-- `key_height` -/
theorem lastEpoch_eq (height : ℕ) :
    (height : ℤ) - (height : ℤ).tmod P.randomxEpochBlocks.toInt32.toInt = (lastEpoch P height : ℤ) := by
  have hmod : (height : ℤ).tmod (P.randomxEpochBlocks.toNat : ℤ) = (height % P.randomxEpochBlocks.toNat : ℕ) := rfl
  have hdiv := Nat.div_add_mod' height P.randomxEpochBlocks.toNat
  rw [toInt32_toInt, if_pos hsmall, hmod, lastEpoch]
  omega

include htip in
theorem keyAt_some {seed : ℕ} (hle : seed ≤ tip.nHeight) : ∃ key, keyAt P tip seed = some key := by
  rw [keyAt]
  split_ifs
  · exact ⟨_, rfl⟩
  · obtain ⟨a, ha, -⟩ := grown_graded.up_exists htip.grown (Nat.sub_le tip.nHeight seed)
    exact ⟨a.getBlockHash, by rw [htip.getAncestor_eq hle, CBlockIndex.above, ha]; rfl⟩

include hepoch htip hint

include hsmall in
/-- What a call asks for. -/
theorem prepareRandomXKeys_eq : ∃ current, keyAt P tip (seedAfter P tip.nHeight 0) = some current ∧
    ((lastEpoch P tip.nHeight = 0 ∨ lastEpoch P tip.nHeight + P.randomxEpochLag.toNat ≤ tip.nHeight) ∧
        prepareRandomXKeys P (some tip) = some [current] ∨ ∃ next, keyAt P tip (lastEpoch P tip.nHeight) = some next ∧
        prepareRandomXKeys P (some tip) = some [current, next]) := by
  obtain ⟨hpos, -⟩ := schedule_lt hepoch
  have hlinked : Linked tip [] := trivial
  have hneeded := neededKey_eq hepoch htip hint hlinked hpos (Nat.zero_le _)
  have hkey_le : lastEpoch P tip.nHeight ≤ tip.nHeight := Nat.div_mul_le_self _ _
  have hfirst_le : seedAfter P tip.nHeight 0 ≤ tip.nHeight := (Nat.div_mul_le_self _ _).trans (by omega)
  obtain ⟨current, hcurrent⟩ := keyAt_some (P := P) htip hfirst_le
  obtain ⟨next, hnext⟩ := keyAt_some (P := P) htip hkey_le
  have hget : getRandomXKey P (some tip) = some current := hneeded.trans hcurrent
  have hlag : P.randomxEpochLag.toInt32.toInt = P.randomxEpochLag.toNat := by rw [toInt32_toInt, if_pos (by omega)]
  have husable : i32 (lastEpoch P tip.nHeight + (P.randomxEpochLag.toNat : ℤ)) =
      some (lastEpoch P tip.nHeight + (P.randomxEpochLag.toNat : ℤ)) :=
    signed_of (by simp only [Signed, Nat.reduceSub]; omega)
  refine ⟨current, hcurrent, ?_⟩
  simp only [prepareRandomXKeys, hget, lastEpoch_eq hsmall, hlag, husable, hepoch, if_false, Option.bind_eq_bind,
    Option.bind_some, Option.pure_def]
  by_cases hzero : lastEpoch P tip.nHeight = 0
  · exact Or.inl ⟨Or.inl hzero, by rw [if_pos (by omega)]⟩
  · rw [if_neg (by omega)]
    by_cases hout : lastEpoch P tip.nHeight + P.randomxEpochLag.toNat ≤ tip.nHeight
    · exact Or.inl ⟨Or.inr hout, by rw [if_pos (by omega)]⟩
    · rw [if_neg (by omega)]
      refine Or.inr ⟨next, hnext, ?_⟩
      rw [keyAt, if_neg hzero, Option.map_eq_some_iff] at hnext
      obtain ⟨block, hblock, rfl⟩ := hnext
      rw [hblock]
      rfl

variable {chain : List CBlockHeader} (hchain : Linked tip chain) (hlen : P.randomxEpochLag.toNat ≤ chain.length + 1)
include hchain hlen

/-- The keys that the blocks ahead need: those at the first seed height and at the last epoch block. -/
theorem needed_iff (key : Uint256) : (∃ i < P.randomxEpochLag.toNat, neededKey P tip chain i = some key) ↔
    keyAt P tip (seedAfter P tip.nHeight 0) = some key ∨ keyAt P tip (lastEpoch P tip.nHeight) = some key := by
  obtain ⟨hpos, -⟩ := schedule_lt hepoch
  constructor
  · rintro ⟨i, hi, hkey⟩
    rw [neededKey_eq hepoch htip hint hchain hi (by omega)] at hkey
    rcases seedHeights hepoch tip.nHeight hi with hfirst | ⟨hlast, -⟩
    · exact Or.inl (hfirst ▸ hkey)
    · exact Or.inr (hlast ▸ hkey)
  · rintro (hkey | hkey)
    · exact ⟨0, hpos, by rwa [neededKey_eq hepoch htip hint hchain hpos (Nat.zero_le _)]⟩
    · refine ⟨P.randomxEpochLag.toNat - 1, by omega, ?_⟩
      rwa [neededKey_eq hepoch htip hint hchain (by omega) (by omega), seedAfter_last hepoch]

include hsmall in
/-- The keys asked for are exactly the keys needed. -/
theorem requested_exact : ∃ keys, prepareRandomXKeys P (some tip) = some keys ∧ keys.length ≤ 2 ∧
    ∀ key, key ∈ keys ↔ ∃ i < P.randomxEpochLag.toNat, neededKey P tip chain i = some key := by
  simp only [needed_iff hepoch htip hint hchain hlen]
  obtain ⟨current, hcurrent, ⟨hout, hkeys⟩ | ⟨next, hnext, hkeys⟩⟩ := prepareRandomXKeys_eq hepoch hsmall htip hint
  · have hsame : seedAfter P tip.nHeight 0 = lastEpoch P tip.nHeight := by
      rcases hout with hzero | hout
      · obtain ⟨hpos, -⟩ := schedule_lt hepoch
        have hle : seedAfter P tip.nHeight 0 ≤ lastEpoch P tip.nHeight :=
          Nat.mul_le_mul_right _ (Nat.div_le_div_right (by omega))
        omega
      · exact seedAfter_outside hepoch hout
    refine ⟨_, hkeys, by simp, fun key => ?_⟩
    rw [← hsame, hcurrent, Option.some.injEq, or_self, mem_singleton, eq_comm]
  · refine ⟨_, hkeys, by simp, fun key => ?_⟩
    rw [hcurrent, hnext, Option.some.injEq, Option.some.injEq, mem_cons, mem_singleton, @eq_comm _ key, @eq_comm _ key]

end

end

/-! ## The cache during a call -/

namespace RandomXCache

variable {κ γ τ : Type} [DecidableEq κ] [DecidableEq τ] (s : Cache κ γ τ)

/-- one call of `Prepare` in FAST mode: its first section, its scan if there is one, and builds that end meanwhile -/
def Call (key : κ) (s' : Cache κ γ τ) : Prop :=
  ∃ actions, (∀ a ∈ actions, a = .scan ∨ ∃ id result, a = .buildDone id result) ∧
    runs step s (.prepare key .FAST :: actions) = some s' ∧ s'.scan = none

/-- the calls for a list of keys, one after the other -/
def Calls : Cache κ γ τ → List κ → Cache κ γ τ → Prop
  | s, [], s' => s' = s
  | s, key :: keys, s' => ∃ m, Call s key m ∧ Calls m keys s'

/-- a key has an entry, finished or not -/
def Held (key : κ) : Prop := ∃ e ∈ s.fast, e.key = key

/-- these keys, the last one first, were prepared last and have entries; all other entries are finished -/
structure Kept (keys : List κ) : Prop where
  inv : Inv s
  held : ∀ key ∈ keys, Held s key
  last : keys <+: s.prepared
  others : ∀ e ∈ s.fast, e.key ∉ keys → s.ready e = true

/-- a call for a key has come to its scan, which will find an entry other than those of the keys -/
def Scanning (keys : List κ) (key : κ) : Prop := ∃ c, s.scan = some c ∧ c.key = key ∧ ∃ e ∈ c.finished, e.key ∉ keys

omit [DecidableEq τ] in
/-- With no build running every entry is finished. -/
theorem Inv.kept_nil {s : Cache κ γ τ} (h : Inv s) (hdone : s.unfinished = []) : Kept s [] := by
  refine ⟨h, by simp, nil_prefix, fun e he _ => ?_⟩
  obtain ⟨b, hb, -⟩ := h.fast.futures e he
  rw [Cache.ready_iff hb]
  intro hrunning
  have hmem : e.context ∈ s.unfinished := Cache.mem_unfinished.2 ⟨b, hb, hrunning⟩
  rw [hdone] at hmem
  exact absurd hmem not_mem_nil

namespace Kept

variable {s s' m : Cache κ γ τ} {keys : List κ} {key : κ} (h : Kept s keys)
include h

omit [DecidableEq τ] in
/-- A full cache has a finished entry other than those of fewer keys. -/
theorem other_finished (hfull : s.fast.length = MAX_FAST_CONTEXTS) (hkeys : keys.length < MAX_FAST_CONTEXTS) :
    ∃ e ∈ s.fast, s.ready e = true ∧ e.key ∉ keys := by
  by_contra hall
  push Not at hall
  have hsub : s.fast.map Entry.key ⊆ keys := by
    intro k hk
    obtain ⟨e, he, rfl⟩ := mem_map.1 hk
    by_contra hnot
    exact hnot (hall e he (h.others e he hnot))
  have hle := (h.inv.fast.keys.subperm hsub).length_le
  rw [length_map, hfull] at hle
  exact absurd hle (not_le.2 hkeys)

omit [DecidableEq τ] in
/-- A build starts, where the entries of the keys stayed. -/
theorem launch (hsub : m.fast ⊆ s.fast) (hheld : ∀ k ∈ keys, Held m k) (hbuilds : m.builds = s.builds)
    (hprepared : m.prepared = s.prepared) (hinv : Inv { m.launch key with scan := none }) :
    Kept { m.launch key with scan := none } (key :: keys) := by
  refine ⟨hinv, fun k hk => ?_, ?_, fun e he hne => ?_⟩
  · rcases mem_cons.1 hk with rfl | hk
    · exact ⟨_, mem_append_right _ mem_cons_self, rfl⟩
    · obtain ⟨e, he, hkey⟩ := hheld k hk
      exact ⟨e, mem_append_left _ he, hkey⟩
  · exact (prefix_cons_inj key).2 (hprepared ▸ h.last)
  · rw [mem_cons, not_or] at hne
    rcases mem_append.1 he with hold | hnew
    · have hready := h.others e (hsub hold) hne.2
      rw [Cache.ready, ← hbuilds] at hready
      exact Cache.ready_launch key hready
    · rw [mem_singleton.1 hnew] at hne
      exact absurd rfl hne.1

omit [DecidableEq τ] in
/-- The first section of a call: the key has an entry, or the scan begins. -/
theorem prepare (hkeys : keys.length < MAX_FAST_CONTEXTS) (hs' : s.prepare key .FAST = some s') :
    Kept s' (key :: keys) ∧ s'.scan = none ∧ s'.prepared = key :: s.prepared ∨
      Kept s' keys ∧ Scanning s' keys key ∧ s'.prepared = s.prepared := by
  have hinv := h.inv.prepare hs'
  rcases Cache.prepare_cases hs' with ⟨hmode, -⟩ | ⟨hfree, ⟨p, hp, hkey, rfl⟩ | ⟨hnew, ⟨-, rfl⟩ | ⟨hfull, rfl⟩⟩⟩
  · exact absurd rfl hmode
  · have hmem := h.inv.fast.mem_touch hp key
    refine Or.inl ⟨⟨hinv, fun k hk => ?_, (prefix_cons_inj key).2 h.last, fun e he hne => ?_⟩, hfree, rfl⟩
    · rcases eq_or_ne k p.1.key with rfl | hother
      · exact ⟨_, (hmem _).2 (Or.inl rfl), rfl⟩
      · obtain ⟨e, he, rfl⟩ := h.held k ((mem_cons.1 hk).resolve_left fun heq => hother (heq.trans hkey.symm))
        exact ⟨e, (hmem e).2 (Or.inr ⟨he, hother⟩), rfl⟩
    · rw [mem_cons, not_or] at hne
      rcases (hmem e).1 he with rfl | ⟨hold, -⟩
      · exact absurd hkey hne.1
      · exact h.others e hold hne.2
  · have hsame : { s.launch key with scan := none } = s.launch key := by rw [← hfree]; rfl
    have hkept := h.launch (fun _ he => he) h.held rfl rfl (hsame ▸ hinv)
    exact Or.inl ⟨hsame ▸ hkept, hfree, rfl⟩
  · obtain ⟨e, he, hready, hne⟩ := h.other_finished hfull hkeys
    exact Or.inr ⟨⟨hinv, h.held, h.last, h.others⟩, ⟨_, rfl, rfl, e, mem_filter.2 ⟨he, hready⟩, hne⟩, rfl⟩

omit [DecidableEq τ] in
/-- The keys were prepared after every other one. -/
theorem idxOf_lt {k k' : κ} (hk : k ∈ keys) (hk' : k' ∉ keys) : s.prepared.idxOf k < s.prepared.idxOf k' := by
  obtain ⟨before, hbefore⟩ := h.last
  rw [← hbefore, idxOf_append_of_mem hk, idxOf_append_of_notMem hk']
  exact Nat.lt_add_right _ (idxOf_lt_length_of_mem hk)

/-- A step of the scan: it goes on, or an entry other than those of the keys goes. -/
theorem scan (hscanning : Scanning s keys key) (hclock : s.prepared.length < 2 ^ 64) (hs' : step s .scan = some s') :
    Kept s' (key :: keys) ∧ s'.scan = none ∧ s'.prepared = key :: s.prepared ∨
      Kept s' keys ∧ Scanning s' keys key ∧ s'.prepared = s.prepared := by
  have hinv := step_inv s _ s' h.inv hs'
  obtain ⟨c, hc, rfl, e, he, hne⟩ := hscanning
  have hscan := h.inv.scan c hc
  rw [step, hc] at hs'
  rcases Cache.scanStep_cases hs' with ⟨x, -, rfl⟩ | ⟨hend, ⟨hnone, -⟩ | ⟨p, r, hold, hr, rfl⟩⟩
  · have hsame : (Cache.ask c x (s.ready x)).key = c.key ∧ (Cache.ask c x (s.ready x)).finished = c.finished := by
      rw [Cache.ask]
      split_ifs <;> exact ⟨rfl, rfl⟩
    exact Or.inr ⟨⟨hinv, h.held, h.last, h.others⟩, ⟨_, rfl, hsame.1, e, hsame.2.symm ▸ he, hne⟩, rfl⟩
  · have hfound := hscan.found_of_finished hend he
    rw [hscan.nothing hnone] at hfound
    cases hfound
  · obtain ⟨hp, -, hleast⟩ := hscan.oldest p hold
    obtain ⟨-, -, -, hsub, hrest, -, hbuilds⟩ := h.inv.fast.erase hp hr
    have hother : p.1.key ∉ keys := by
      intro hin
      have hrecent := h.inv.fast.recent hclock (mem_of_getElem? hp) (hscan.finished e he).1
        (hleast e (hscan.found_of_finished hend he)) fun heq => hne (heq ▸ hin)
      exact lt_asymm hrecent (h.idxOf_lt hin hne)
    have hprepared : r.prepared = s.prepared := by rw [Cache.erase_eq hr]
    refine Or.inl ⟨h.launch hsub (fun k hk => ?_) hbuilds hprepared hinv, rfl, ?_⟩
    · obtain ⟨x, hx, rfl⟩ := h.held k hk
      exact ⟨x, hrest x hx fun heq => hother (heq ▸ hk), rfl⟩
    · rw [← hprepared]
      rfl

/-- A build that ends changes nothing of it. -/
theorem buildDone {id : ℕ} {result : Option (Option γ)} (hs' : step s (.buildDone id result) = some s') :
    Kept s' keys ∧ s'.scan = s.scan ∧ s'.prepared = s.prepared := by
  have hinv := step_inv s _ s' h.inv hs'
  simp only [step] at hs'
  split at hs'
  · next key hid =>
    obtain rfl := Option.some_inj.1 hs'
    have hready := fun e => Cache.ready_buildDone (e := e) hid result
    cases result <;> exact ⟨⟨hinv, h.held, h.last, fun e he hne => hready e (h.others e he hne)⟩, rfl, rfl⟩
  · cases hs'

/-- A call keeps the keys and adds its own. -/
theorem call (hkeys : keys.length < MAX_FAST_CONTEXTS) (hclock : s.prepared.length < 2 ^ 64) (hcall : Call s key s') :
    Kept s' (key :: keys) ∧ s'.prepared = key :: s.prepared := by
  obtain ⟨actions, hinside, hrun, hfree⟩ := hcall
  obtain ⟨m, hm, hrest⟩ := runs_cons.1 hrun
  have hend := runs_keep (I := fun t => Kept t (key :: keys) ∧ t.scan = none ∧ t.prepared = key :: s.prepared ∨
    Kept t keys ∧ Scanning t keys key ∧ t.prepared = s.prepared) (fun a ha t t' ht hstep => ?_)
    (h.prepare hkeys hm) hrest
  · rcases hend with ⟨hkept, -, hprepared⟩ | ⟨-, ⟨c, hc, -⟩, -⟩
    · exact ⟨hkept, hprepared⟩
    · rw [hfree] at hc
      cases hc
  · rcases hinside a ha with rfl | ⟨id, result, rfl⟩
    · rcases ht with ⟨-, hnone, -⟩ | ⟨hkept, hscanning, hprepared⟩
      · rw [step, hnone] at hstep
        cases hstep
      · have hstep := hkept.scan hscanning (hprepared ▸ hclock) hstep
        rwa [hprepared] at hstep
    · rcases ht with ⟨hkept, hnone, hprepared⟩ | ⟨hkept, hscanning, hprepared⟩
      · obtain ⟨hkept', hscan, hsame⟩ := hkept.buildDone hstep
        exact Or.inl ⟨hkept', hscan.trans hnone, hsame.trans hprepared⟩
      · obtain ⟨hkept', hscan, hsame⟩ := hkept.buildDone hstep
        exact Or.inr ⟨hkept', by rwa [Scanning, hscan], hsame.trans hprepared⟩

theorem calls {more : List κ} (hkeys : keys.length + more.length ≤ MAX_FAST_CONTEXTS)
    (hclock : s.prepared.length + more.length ≤ 2 ^ 64) (hcalls : Calls s more s') :
    Kept s' (more.reverse ++ keys) := by
  induction more generalizing s keys with
  | nil =>
    obtain rfl := hcalls
    exact h
  | cons key more ih =>
    obtain ⟨m, hcall, hrest⟩ := hcalls
    rw [length_cons] at hkeys hclock
    obtain ⟨hkept, hprepared⟩ := h.call (by omega) (by omega) hcall
    have hall := ih hkept (by rw [length_cons]; omega) (by rw [hprepared, length_cons]; omega) hrest
    rwa [reverse_cons, append_assoc]

end Kept

variable {s : Cache κ γ τ}

/-- A scan ends after a few steps. -/
theorem Inv.scan_ends (h : Inv s) : ∃ n s', runs step s (List.replicate n .scan) = some s' ∧ s'.scan = none := by
  suffices hsteps : ∀ k (s : Cache κ γ τ), Inv s → (∀ c, s.scan = some c → MAX_FAST_CONTEXTS < c.it + k) →
      ∃ n s', runs step s (List.replicate n .scan) = some s' ∧ s'.scan = none from
    hsteps (MAX_FAST_CONTEXTS + 1) s h fun c _ => by omega
  intro k
  induction k with
  | zero =>
    intro s h hit
    cases hc : s.scan with
    | none => exact ⟨0, s, rfl, hc⟩
    | some c =>
      obtain ⟨s', hs', hnext⟩ := h.neverWaits.scan c hc
      refine ⟨1, s', runs_cons.2 ⟨s', hs', rfl⟩, Option.eq_none_iff_forall_ne_some.2 fun c' hc' => ?_⟩
      exact absurd (hnext c' hc').2 (Nat.not_lt.2 (hit c hc).le)
  | succ k ih =>
    intro s h hit
    cases hc : s.scan with
    | none => exact ⟨0, s, rfl, hc⟩
    | some c =>
      obtain ⟨s', hs', hnext⟩ := h.neverWaits.scan c hc
      have hbound := hit c hc
      obtain ⟨n, t, hrun, ht⟩ := ih s' (step_inv s _ s' h hs') fun c' hc' => by rw [(hnext c' hc').1]; omega
      exact ⟨n + 1, t, runs_cons.2 ⟨s', hs', hrun⟩, ht⟩

/-- Calls end. -/
theorem Inv.calls_end (h : Inv s) (hfree : s.scan = none) (keys : List κ) : ∃ s', Calls s keys s' := by
  induction keys generalizing s with
  | nil => exact ⟨s, rfl⟩
  | cons key keys ih =>
    obtain ⟨m, hm⟩ := Option.isSome_iff_exists.1 (h.neverWaits.prepare hfree key .FAST)
    obtain ⟨n, t, hrun, ht⟩ := (step_inv s _ m h hm).scan_ends
    have hall : runs step s (.prepare key .FAST :: List.replicate n .scan) = some t := runs_cons.2 ⟨m, hm, hrun⟩
    obtain ⟨s', hs'⟩ := ih (runs_inv step_inv h hall) ht
    exact ⟨s', t, ⟨_, fun a ha => Or.inl (eq_of_mem_replicate ha), hall, ht⟩, hs'⟩

theorem Calls.reachable {s' : Cache κ γ τ} {keys : List κ} (h : Calls s keys s') (hs : Reachable s)
    (hfree : s.scan = none) : Reachable s' ∧ s'.scan = none := by
  induction keys generalizing s with
  | nil =>
    obtain rfl := h
    exact ⟨hs, hfree⟩
  | cons key keys ih =>
    obtain ⟨m, ⟨actions, -, hrun, hnone⟩, hrest⟩ := h
    obtain ⟨lightKey, before, hbefore⟩ := hs
    exact ih hrest ⟨lightKey, _, runs_append hbefore hrun⟩ hnone

end RandomXCache

open RandomXCache in
/-- For every schedule whose epoch length fits an `int`, every tip and every continuation of its chain,
`PrepareRandomXKeys` asks for exactly the keys that the next `lag` blocks need. In any cache with all builds finished,
however it came about, its calls of `Prepare` end, whatever builds end meanwhile, and leave an entry for each of these
keys, as long as there were no more than 2^64 preparations. -/
theorem preparation_covers [Crypto] (P : Params) (hepoch : P.randomxEpochBlocks ≠ 0)
    (hsmall : P.randomxEpochBlocks.toNat < 2 ^ 31) (tip : CBlockIndex) (htip : Built tip)
    (hint : tip.nHeight + P.randomxEpochLag.toNat < 2 ^ 31) (chain : List CBlockHeader) (hchain : Linked tip chain)
    (hlen : P.randomxEpochLag.toNat ≤ chain.length + 1) :
    ∃ keys, prepareRandomXKeys P (some tip) = some keys ∧ keys.length ≤ 2 ∧
      (∀ key, key ∈ keys ↔ ∃ i < P.randomxEpochLag.toNat, neededKey P tip chain i = some key) ∧
      ∀ (γ τ : Type) [DecidableEq τ] (s : Cache Uint256 γ τ), Reachable s → s.scan = none → s.unfinished = [] →
        s.prepared.length + keys.length ≤ 2 ^ 64 → (∃ s', Calls s keys s') ∧
        ∀ s', Calls s keys s' → Reachable s' ∧ s'.scan = none ∧ ∀ key ∈ keys, Held s' key := by
  obtain ⟨keys, hkeys, htwo, hexact⟩ := requested_exact hepoch hsmall htip hint hchain hlen
  refine ⟨keys, hkeys, htwo, hexact, fun γ τ _ s hs hfree hdone hclock => ⟨hs.inv.calls_end hfree keys, ?_⟩⟩
  intro s' hcalls
  obtain ⟨hreach, hnone⟩ := hcalls.reachable hs hfree
  have hkept := (hs.inv.kept_nil hdone).calls (by rwa [length_nil, Nat.zero_add]) hclock hcalls
  exact ⟨hreach, hnone, fun key hkey => hkept.held key (by simpa using hkey)⟩

section
attribute [local instance] toyCrypto

/-- the first epoch block of `epochSync` -/
def epochTip : CBlockIndex := epochSync.chainStart.extend (epochChain.take 3)

/-- a cache with two finished entries -/
def filledRun : List (RandomXCache.Action Uint256 Unit Unit) :=
  [.prepare (Uint256.ofNat 10) .FAST, .prepare (Uint256.ofNat 20) .FAST, .buildDone 0 (some none), .buildDone 1 none]

open RandomXCache in
/-- Inside the lag the bootstrap key and the hash of the epoch block are asked for, and needed. Behind the calls they
have taken the place of two other keys. -/
theorem epochTip_prepared :
    prepareRandomXKeys epochSync.P (some epochTip) = some [epochSync.P.randomxBootstrapKey, epochTip.getBlockHash] ∧
    (∀ key, key ∈ [epochSync.P.randomxBootstrapKey, epochTip.getBlockHash] ↔
      ∃ i < 2, neededKey epochSync.P epochTip (epochChain.drop 3) i = some key) ∧
    (behind filledRun).fast.map Entry.key = [Uint256.ofNat 10, Uint256.ofNat 20] ∧
    ∃ s', Calls (behind filledRun) [epochSync.P.randomxBootstrapKey, epochTip.getBlockHash] s' ∧
      Held s' epochSync.P.randomxBootstrapKey ∧ Held s' epochTip.getBlockHash := by
  have hbuilt : Built epochTip := Built.extend (.root _ rfl) ⟨rfl, rfl, rfl, trivial⟩
  obtain ⟨keys, hkeys, -, hexact, hcache⟩ := preparation_covers epochSync.P (by decide) (by decide) epochTip hbuilt
    (by decide +kernel) (epochChain.drop 3) ⟨rfl, rfl, rfl, trivial⟩ (by decide +kernel)
  have hvalue : prepareRandomXKeys epochSync.P (some epochTip) =
      some [epochSync.P.randomxBootstrapKey, epochTip.getBlockHash] := by decide +kernel
  obtain rfl := Option.some.inj (hkeys.symm.trans hvalue)
  have hscan : (behind filledRun).scan.isSome = false := by decide +kernel
  have hcount : (behind filledRun).prepared.length = 2 := by decide +kernel
  obtain ⟨⟨s', hcalls⟩, hheld⟩ := hcache Unit Unit (behind filledRun) (behind_reachable (by decide +kernel))
    (by simpa using hscan) (by decide +kernel) (by rw [hcount]; decide)
  refine ⟨hvalue, hexact, by decide +kernel, s', hcalls, ?_⟩
  exact ⟨(hheld s' hcalls).2.2 _ (by simp), (hheld s' hcalls).2.2 _ (by simp)⟩

/-- the longest epoch, a lag of one -/
def largestEpoch : Params :=
  { mainParams with randomxEpochBlocks := 4294967295, randomxEpochLag := 1, schedule_ok := Or.inr (by decide) }

/-- the second block -/
def secondBlock : CBlockIndex := epochSync.chainStart.extend (epochChain.take 1)

/-- The longest epoch becomes -1: the tip itself is taken for an epoch block, and its hash is asked for, which the next
block does not need. -/
theorem largestEpoch_extra_key : prepareRandomXKeys largestEpoch (some secondBlock) =
      some [largestEpoch.randomxBootstrapKey, secondBlock.getBlockHash] ∧
    neededKey largestEpoch secondBlock [] 0 = some largestEpoch.randomxBootstrapKey ∧
    secondBlock.getBlockHash ≠ largestEpoch.randomxBootstrapKey := by
  decide +kernel

end

end ConnectCoin
