/-
The cache of RandomX contexts under concurrent calls (`crypto/randomx_cache.h`).

- `Cache`: the FAST entries and their clock, the one LIGHT context, every FAST build that was started, where each thread
  stands in `Get`, who holds `m_light_mutex`, and a record of what the factory made and what calls returned.
- `prepare`, `peekPrepared`, `getFast`: the critical sections under `m_fast_mutex`. Here none means that the call waits,
  for the mutex or for an unfinished FAST build: `futureGet` does, and so does dropping the last reference to its future
  (`erase`).
- `Scan`, `scanStep`: the loop of `Prepare` over full entries asks `Ready` of one after the other. It holds
  `m_fast_mutex`, but builds end without it, so an entry may finish behind the iterator.
- `step`: one section of one call, one step of a scan, or the end of a build. The factory answers a pointer, maybe null,
  or throws.
Premise: allocation does not fail. `m_clock` has 64 bits.
Results:
- `Inv`, `step_inv`: what holds between any two sections;
- `randomx_cache_safe`: the whole of it. An eviction takes the least recent of the entries that the scan found finished,
  while `m_clock` has not wrapped; an older one that finished too late stays (`late_build_stays`).
-/
import ConnectCoin.Core.Hash
import ConnectCoin.Lib.Machine

namespace ConnectCoin.RandomXCache

open Lib List Option

/-! ## The cache -/

inductive RandomXMemoryMode where
  | LIGHT
  | FAST
  deriving DecidableEq

/-- what a FAST build has come to -/
inductive BuildStatus (γ : Type) where
  | running
  | returned (context : Option γ)
  | threw
  deriving DecidableEq

/-- a call of the factory in its own thread -/
structure Build (κ γ : Type) where
  key : κ
  status : BuildStatus γ

/-- an entry; its future is that of a build -/
structure Entry (κ : Type) where
  key : κ
  lastPrepare : UInt64
  context : ℕ
  deriving DecidableEq

/-- where a thread stands in `Get` -/
inductive Pc (κ : Type) where
  | idle
  | atLight (key : κ)
  | inFactory (key : κ)

/-- the loop of `Prepare` for a key that has no entry, before the entry at position it -/
structure Scan (κ : Type) where
  key : κ
  it : ℕ
  oldest : Option (Entry κ × ℕ)
  -- the entries that were finished when the call began, and those that `Ready` found finished
  finished : List (Entry κ)
  found : List (Entry κ)

structure Cache (κ γ τ : Type) where
  clock : UInt64
  fast : List (Entry κ)
  -- a scan holds `m_fast_mutex`
  scan : Option (Scan κ)
  lightKey : κ
  light : Option γ
  builds : List (Build κ γ)
  threads : τ → Pc κ
  holder : Option τ
  -- what the factory made, what calls returned, and which keys were prepared, the last one first
  made : List (κ × RandomXMemoryMode × Option γ)
  returned : List (κ × Option γ)
  prepared : List κ

def MAX_FAST_CONTEXTS : ℕ := 2

variable {κ γ τ : Type}

namespace Cache

/-- an empty cache; the LIGHT key is whatever `uint256` begins with -/
def init (lightKey : κ) : Cache κ γ τ := ⟨0, [], none, lightKey, none, [], fun _ => .idle, none, [], [], []⟩

variable (s : Cache κ γ τ)

/-- `Ready` -/
def ready (e : Entry κ) : Bool :=
  match s.builds[e.context]? with
  | some ⟨_, .running⟩ => false
  | some _ => true
  | none => false

/-- `get` of a shared future: none waits, an error is what the factory threw -/
def futureGet (e : Entry κ) : Option (Except Unit (Option γ)) :=
  match s.builds[e.context]? with
  | some ⟨_, .returned context⟩ => some (.ok context)
  | some ⟨_, .threw⟩ => some (.error ())
  | _ => none

/-- an entry and with it its future are dropped: none waits -/
def erase (p : Entry κ × ℕ) : Option (Cache κ γ τ) :=
  if s.ready p.1 then some { s with fast := s.fast.eraseIdx p.2 } else none

variable {s : Cache κ γ τ} {p : Entry κ × ℕ} {e : Entry κ} {key : κ}

theorem erase_eq {s' : Cache κ γ τ} (h : s.erase p = some s') : s' = { s with fast := s.fast.eraseIdx p.2 } := by
  unfold erase at h
  split_ifs at h
  exact (some_inj.1 h).symm

variable (s)

/-- a new build, and its entry at the end -/
def launch (key : κ) : Cache κ γ τ :=
  { s with
    clock := s.clock + 1
    fast := s.fast ++ [⟨key, s.clock + 1, s.builds.length⟩]
    builds := s.builds ++ [⟨key, .running⟩]
    prepared := key :: s.prepared }

/-- an entry is prepared again -/
def touch (key : κ) (p : Entry κ × ℕ) : Cache κ γ τ :=
  { s with
    clock := s.clock + 1
    fast := s.fast.set p.2 { p.1 with lastPrepare := s.clock + 1 }
    prepared := key :: s.prepared }

/-- the scan begins -/
def beginScan (key : κ) : Cache κ γ τ := { s with scan := some ⟨key, 0, none, s.fast.filter fun e => s.ready e, []⟩ }

/-- what the scan makes of an entry, finished or not -/
def ask (c : Scan κ) (e : Entry κ) (ready : Bool) : Scan κ :=
  if ready then
    { c with
      it := c.it + 1
      oldest := match c.oldest with
        | none => some (e, c.it)
        | some o => if e.lastPrepare < o.1.lastPrepare then some (e, c.it) else some o
      found := e :: c.found }
  else { c with it := c.it + 1 }

/-- the scan asks the next entry; at the end it gives up, or the oldest goes and the build starts -/
def scanStep (c : Scan κ) : Option (Cache κ γ τ) :=
  match s.fast[c.it]? with
  | some e => some { s with scan := some (ask c e (s.ready e)) }
  | none =>
    match c.oldest with
    | none => some { s with scan := none }
    | some p => (s.erase p).map fun m => { m.launch c.key with scan := none }

/-- a call for a key returned -/
def answer (key : κ) (context : Option γ) : Cache κ γ τ := { s with returned := (key, context) :: s.returned }

/-- a FAST build ends: a pointer, or a throw -/
def buildDone (id : ℕ) (key : κ) : Option (Option γ) → Cache κ γ τ
  | some context =>
    { s with builds := s.builds.set id ⟨key, .returned context⟩, made := (key, .FAST, context) :: s.made }
  | none => { s with builds := s.builds.set id ⟨key, .threw⟩ }

variable {s}

theorem futureGet_of_ready (h : s.ready e = true) : ∃ r, s.futureGet e = some r := by
  unfold ready at h
  unfold futureGet
  split at h
  · cases h
  · next b hne hb =>
    rw [hb]
    obtain ⟨k, status⟩ := b
    cases status with
    | running => exact absurd rfl (hne k)
    | returned context => exact ⟨_, rfl⟩
    | threw => exact ⟨_, rfl⟩
  · cases h

/-- What a future holds is what its build returned. -/
theorem futureGet_ok {context : Option γ} (h : s.futureGet e = some (.ok context)) :
    ∃ b, s.builds[e.context]? = some b ∧ b.status = .returned context := by
  unfold futureGet at h
  split at h
  · next b hb =>
    cases h
    exact ⟨_, hb, rfl⟩
  · cases h
  · cases h

/-- What a step of a scan does: it asks an entry, gives up, or lets the oldest go. -/
theorem scanStep_cases {s' : Cache κ γ τ} {c : Scan κ} (h : s.scanStep c = some s') :
    (∃ e, s.fast[c.it]? = some e ∧ s' = { s with scan := some (ask c e (s.ready e)) }) ∨
      s.fast.length ≤ c.it ∧ (c.oldest = none ∧ s' = { s with scan := none } ∨
        ∃ p m, c.oldest = some p ∧ s.erase p = some m ∧ s' = { m.launch c.key with scan := none }) := by
  unfold scanStep at h
  cases he : s.fast[c.it]? with
  | some e =>
    rw [he] at h
    exact Or.inl ⟨e, rfl, (some_inj.1 h).symm⟩
  | none =>
    rw [he] at h
    refine Or.inr ⟨List.getElem?_eq_none_iff.1 he, ?_⟩
    cases hold : c.oldest with
    | none =>
      rw [hold] at h
      exact Or.inl ⟨rfl, (some_inj.1 h).symm⟩
    | some p =>
      rw [hold] at h
      obtain ⟨m, hm, rfl⟩ := map_eq_some_iff.1 h
      exact Or.inr ⟨p, m, rfl, hm, rfl⟩

theorem ready_iff {b : Build κ γ} (hb : s.builds[e.context]? = some b) : s.ready e = true ↔ b.status ≠ .running := by
  obtain ⟨key, status⟩ := b
  rw [ready, hb]
  cases status <;> simp

theorem ready_eq_some (h : s.ready e = true) : ∃ b, s.builds[e.context]? = some b := by
  cases hb : s.builds[e.context]? with
  | none => simp [ready, hb] at h
  | some b => exact ⟨b, rfl⟩

theorem ready_launch (key : κ) (h : s.ready e = true) : (s.launch key).ready e = true := by
  obtain ⟨b, hb⟩ := ready_eq_some h
  have hlt := (List.getElem?_eq_some_iff.1 hb).1
  have hsame : (s.launch key).builds[e.context]? = some b := by rw [launch, getElem?_append_left hlt, hb]
  exact (ready_iff hsame).2 ((ready_iff hb).1 h)

/-- A finished entry stays finished when another build ends. -/
theorem ready_buildDone {id : ℕ} (hid : s.builds[id]? = some ⟨key, .running⟩) (result : Option (Option γ))
    (h : s.ready e = true) : (s.buildDone id key result).ready e = true := by
  obtain ⟨b, hb⟩ := ready_eq_some h
  have hdone := (ready_iff hb).1 h
  have hne : id ≠ e.context := by
    intro heq
    rw [← heq, hid] at hb
    rw [← some_inj.1 hb] at hdone
    exact hdone rfl
  have hsame : (s.buildDone id key result).builds[e.context]? = some b := by
    cases result <;> rw [← hb] <;> exact getElem?_set_ne hne
  exact (ready_iff hsame).2 hdone

/-- the FAST builds that have not ended -/
def unfinished (s : Cache κ γ τ) : List ℕ :=
  (List.range s.builds.length).filter fun id =>
    match s.builds[id]? with
    | some ⟨_, .running⟩ => true
    | _ => false

theorem mem_unfinished {id : ℕ} : id ∈ s.unfinished ↔ ∃ b, s.builds[id]? = some b ∧ b.status = .running := by
  rw [unfinished, mem_filter, mem_range]
  apply Iff.intro
  · rintro ⟨-, hrunning⟩
    split at hrunning
    · next key hb => exact ⟨_, hb, rfl⟩
    · cases hrunning
  · rintro ⟨⟨key, status⟩, hb, hrunning⟩
    dsimp only at hrunning
    subst hrunning
    exact ⟨(List.getElem?_eq_some_iff.1 hb).1, by rw [hb]⟩

theorem ready_of_unfinished (h : e.context ∈ s.unfinished) : s.ready e = false := by
  obtain ⟨⟨key, status⟩, hb, hrunning⟩ := mem_unfinished.1 h
  dsimp only at hrunning
  subst hrunning
  rw [ready, hb]

variable [DecidableEq κ]

/-- `FindFast` -/
def findFast (s : Cache κ γ τ) (key : κ) : Option (Entry κ × ℕ) := s.fast.zipIdx.find? fun p => p.1.key = key

theorem findFast_some (h : s.findFast key = some p) : s.fast[p.2]? = some p.1 ∧ p.1.key = key := by
  have hmem := mem_of_find?_eq_some h
  have hkey := find?_some h
  exact ⟨mem_zipIdx_iff_getElem?.1 hmem, of_decide_eq_true hkey⟩

theorem findFast_none (h : s.findFast key = none) : ∀ e ∈ s.fast, e.key ≠ key := by
  intro e he heq
  obtain ⟨i, hi⟩ := mem_iff_getElem?.1 he
  have hnot := find?_eq_none.1 h (e, i) (mem_zipIdx_iff_getElem?.2 hi)
  exact hnot (decide_eq_true heq)

/-- `PeekPrepared` -/
def peekPrepared (s : Cache κ γ τ) (key : κ) : Option (Option γ) :=
  match s.findFast key with
  | none => some none
  | some p =>
    if s.ready p.1 = false then some none
    else match s.futureGet p.1 with
      | none => none
      | some (.ok context) => some context
      | some (.error _) => some none

/-- `Prepare`, up to the scan -/
def prepare (s : Cache κ γ τ) (key : κ) (mode : RandomXMemoryMode) : Option (Cache κ γ τ) :=
  if mode ≠ .FAST then some s
  else if s.scan.isSome then none
  else match s.findFast key with
    | some p => some (s.touch key p)
    | none => if s.fast.length = MAX_FAST_CONTEXTS then some (s.beginScan key) else some (s.launch key)

/-- What `Prepare` does: nothing, a new number, a new build, or, if there is no room, a scan. -/
theorem prepare_cases {s' : Cache κ γ τ} {mode : RandomXMemoryMode} (h : s.prepare key mode = some s') :
    mode ≠ .FAST ∧ s' = s ∨ s.scan = none ∧ ((∃ p, s.fast[p.2]? = some p.1 ∧ p.1.key = key ∧ s' = s.touch key p) ∨
        (∀ e ∈ s.fast, e.key ≠ key) ∧ (s.fast.length ≠ MAX_FAST_CONTEXTS ∧ s' = s.launch key ∨
          s.fast.length = MAX_FAST_CONTEXTS ∧ s' = s.beginScan key)) := by
  rw [prepare, ite_eq_iff, ite_eq_iff] at h
  rcases h with ⟨hmode, h⟩ | ⟨-, ⟨-, h⟩ | ⟨hscan, h⟩⟩
  · exact Or.inl ⟨hmode, (some_inj.1 h).symm⟩
  · cases h
  · refine Or.inr ⟨by simpa using hscan, ?_⟩
    cases hfind : s.findFast key with
    | some p =>
      rw [hfind] at h
      obtain ⟨hp, hkey⟩ := findFast_some hfind
      exact Or.inl ⟨p, hp, hkey, (some_inj.1 h).symm⟩
    | none =>
      rw [hfind] at h
      refine Or.inr ⟨findFast_none hfind, ?_⟩
      dsimp only at h
      split_ifs at h with hfull
      · exact Or.inr ⟨hfull, (some_inj.1 h).symm⟩
      · exact Or.inl ⟨hfull, (some_inj.1 h).symm⟩

variable [DecidableEq τ] (s)

/-- a thread goes on -/
def goTo (t : τ) (pc : Pc κ) : Cache κ γ τ := { s with threads := Function.update s.threads t pc }

/-- `Get` under `m_fast_mutex`: it returns, or goes on to the LIGHT part; an entry that failed is dropped -/
def getFast (t : τ) (key : κ) : Option (Cache κ γ τ) :=
  match s.findFast key with
  | none => some (s.goTo t (.atLight key))
  | some p =>
    if s.ready p.1 = false then some (s.goTo t (.atLight key))
    else match s.futureGet p.1 with
      | none => none
      | some (.ok context) => some (s.answer key context)
      | some (.error _) => (s.erase p).map fun s => s.goTo t (.atLight key)

/-- `Get` under `m_light_mutex`, up to the call of the factory -/
def lightEnter (t : τ) (key : κ) : Cache κ γ τ :=
  if s.light = none ∨ key ≠ s.lightKey then { s.goTo t (.inFactory key) with light := none, holder := some t }
  else (s.answer key s.light).goTo t .idle

/-- the factory call for the LIGHT context ends: a pointer, or a throw -/
def lightDone (t : τ) (key : κ) : Option (Option γ) → Cache κ γ τ
  | some context =>
    { (s.goTo t .idle).answer key context with
      light := context
      lightKey := key
      holder := none
      made := (key, .LIGHT, context) :: s.made }
  | none => { s.goTo t .idle with holder := none }

end Cache

/-! ## A scan -/

/-- what holds of a scan: it stands in a full cache without its key, and has found what was finished up to the
iterator -/
structure ScanInv (s : Cache κ γ τ) (c : Scan κ) : Prop where
  full : s.fast.length = MAX_FAST_CONTEXTS
  new : ∀ e ∈ s.fast, e.key ≠ c.key
  finished : ∀ e ∈ c.finished, e ∈ s.fast ∧ s.ready e = true
  found : ∀ e ∈ c.found, e ∈ s.fast ∧ s.ready e = true
  asked : ∀ i e, s.fast[i]? = some e → i < c.it → e ∈ c.finished → e ∈ c.found
  nothing : c.oldest = none → c.found = []
  oldest : ∀ p, c.oldest = some p → s.fast[p.2]? = some p.1 ∧ p.1 ∈ c.found ∧
    ∀ e ∈ c.found, p.1.lastPrepare.toNat ≤ e.lastPrepare.toNat

namespace ScanInv

variable {s s' : Cache κ γ τ} {c : Scan κ} {key : κ} {e : Entry κ}

theorem start (hfull : s.fast.length = MAX_FAST_CONTEXTS) (hnew : ∀ e ∈ s.fast, e.key ≠ key) :
    ScanInv s ⟨key, 0, none, s.fast.filter fun e => s.ready e, []⟩ where
  full := hfull
  new := hnew
  finished := fun e he => mem_filter.1 he
  found := by simp
  asked := by simp
  nothing := fun _ => rfl
  oldest := by simp

variable (h : ScanInv s c)
include h

/-- The entries are as they were, and finished ones stay so. -/
theorem mono (hfast : s'.fast = s.fast) (hready : ∀ e, s.ready e = true → s'.ready e = true) : ScanInv s' c where
  full := by rw [hfast]; exact h.full
  new := by rw [hfast]; exact h.new
  finished := by rw [hfast]; exact fun e he => ⟨(h.finished e he).1, hready e (h.finished e he).2⟩
  found := by rw [hfast]; exact fun e he => ⟨(h.found e he).1, hready e (h.found e he).2⟩
  asked := by rw [hfast]; exact h.asked
  nothing := h.nothing
  oldest := by rw [hfast]; exact h.oldest

/-- One more entry is asked. -/
theorem ask (he : s.fast[c.it]? = some e) : ScanInv s (Cache.ask c e (s.ready e)) := by
  have hmem := mem_of_getElem? he
  have hlast : ∀ i e', s.fast[i]? = some e' → i < c.it + 1 → i < c.it ∨ e' = e := by
    intro i e' hi hlt
    rcases Nat.lt_succ_iff_lt_or_eq.1 hlt with hbefore | rfl
    · exact Or.inl hbefore
    · exact Or.inr (some_inj.1 (hi.symm.trans he))
  cases hready : s.ready e with
  | false =>
    refine { h with asked := fun i e' hi hlt hfinished => ?_ }
    rcases hlast i e' hi hlt with hbefore | rfl
    · exact h.asked i e' hi hbefore hfinished
    · rw [(h.finished e' hfinished).2] at hready
      cases hready
  | true =>
    have hfound : ∀ x ∈ e :: c.found, x ∈ s.fast ∧ s.ready x = true := by
      rw [forall_mem_cons]
      exact ⟨⟨hmem, hready⟩, h.found⟩
    refine ⟨h.full, h.new, h.finished, hfound, fun i e' hi hlt hfinished => ?_, fun hnone => ?_, fun p hp => ?_⟩
    · rcases hlast i e' hi hlt with hbefore | rfl
      · exact mem_cons_of_mem _ (h.asked i e' hi hbefore hfinished)
      · exact mem_cons_self
    · rw [Cache.ask, if_pos rfl] at hnone
      dsimp only at hnone
      split at hnone
      · cases hnone
      · split_ifs at hnone
    · rw [Cache.ask, if_pos rfl] at hp ⊢
      dsimp only at hp ⊢
      rw [forall_mem_cons]
      split at hp
      · next hold =>
        obtain rfl := some_inj.1 hp
        rw [h.nothing hold]
        exact ⟨he, mem_cons_self, le_rfl, by simp⟩
      · next o hold =>
        obtain ⟨ho, hin, hleast⟩ := h.oldest o hold
        split_ifs at hp with hlt
        · obtain rfl := some_inj.1 hp
          exact ⟨he, mem_cons_self, le_rfl, fun x hx => (UInt64.lt_iff_toNat_lt.1 hlt).le.trans (hleast x hx)⟩
        · obtain rfl := some_inj.1 hp
          exact ⟨ho, mem_cons_of_mem _ hin, not_lt.1 fun hle => hlt (UInt64.lt_iff_toNat_lt.2 hle), hleast⟩

/-- At the end of a scan everything that was finished when it began was found. -/
theorem found_of_finished (hend : s.fast.length ≤ c.it) (he : e ∈ c.finished) : e ∈ c.found := by
  obtain ⟨i, hi⟩ := mem_iff_getElem?.1 (h.finished e he).1
  exact h.asked i e hi ((List.getElem?_eq_some_iff.1 hi).1.trans_le hend) he

/-- A scan does not wait, and ends. -/
theorem goes_on : ∃ s', s.scanStep c = some s' ∧ ∀ c', s'.scan = some c' → c'.it = c.it + 1 ∧
    c.it < MAX_FAST_CONTEXTS := by
  unfold Cache.scanStep
  cases he : s.fast[c.it]? with
  | some e =>
    refine ⟨_, rfl, fun c' hc' => ?_⟩
    obtain rfl := some_inj.1 hc'
    refine ⟨?_, h.full ▸ (List.getElem?_eq_some_iff.1 he).1⟩
    rw [Cache.ask]
    split_ifs <;> rfl
  | none =>
    cases hold : c.oldest with
    | none => exact ⟨_, rfl, by simp⟩
    | some p =>
      obtain ⟨-, hin, -⟩ := h.oldest p hold
      have hm : s.erase p = some { s with fast := s.fast.eraseIdx p.2 } := if_pos (h.found p.1 hin).2
      exact ⟨_, by dsimp only; rw [hm]; rfl, by simp⟩

end ScanInv

variable [DecidableEq κ]

/-! ## The FAST entries -/

/-- what holds of the FAST part between any two sections -/
structure FastInv (s : Cache κ γ τ) : Prop where
  keys : (s.fast.map Entry.key).Nodup
  size : s.fast.length ≤ MAX_FAST_CONTEXTS
  futures : ∀ e ∈ s.fast, ∃ b, s.builds[e.context]? = some b ∧ b.key = e.key
  kept : ∀ id b, s.builds[id]? = some b → b.status = .running → ∃ e ∈ s.fast, e.context = id
  built : ∀ b ∈ s.builds, ∀ context, b.status = .returned context → (b.key, .FAST, context) ∈ s.made
  clock : s.clock = UInt64.ofNat s.prepared.length
  recency : ∀ e ∈ s.fast, e.key ∈ s.prepared ∧ e.lastPrepare = UInt64.ofNat (s.prepared.length - s.prepared.idxOf e.key)

namespace FastInv

variable {s s' : Cache κ γ τ} {key : κ} {p : Entry κ × ℕ} {e e' : Entry κ} {mode : RandomXMemoryMode}

theorem init (lightKey : κ) : FastInv (Cache.init lightKey : Cache κ γ τ) := by
  constructor <;> simp [Cache.init, MAX_FAST_CONTEXTS]

/-- Only these parts matter. -/
theorem same (h : FastInv s) (hfast : s'.fast = s.fast) (hbuilds : s'.builds = s.builds) (hmade : s.made ⊆ s'.made)
    (hclock : s'.clock = s.clock) (hprepared : s'.prepared = s.prepared) : FastInv s' where
  keys := by rw [hfast]; exact h.keys
  size := by rw [hfast]; exact h.size
  futures := by rw [hfast, hbuilds]; exact h.futures
  kept := by rw [hfast, hbuilds]; exact h.kept
  built := by rw [hbuilds]; exact fun b hb context hstatus => hmade (h.built b hb context hstatus)
  clock := by rw [hclock, hprepared]; exact h.clock
  recency := by rw [hfast, hprepared]; exact h.recency

variable (h : FastInv s)
include h

theorem key_unique (he : e ∈ s.fast) (he' : e' ∈ s.fast) (hkey : e.key = e'.key) : e = e' :=
  inj_on_of_nodup_map h.keys he he' hkey

theorem index_unique {i j : ℕ} (hi : s.fast[i]? = some e) (hj : s.fast[j]? = some e')
    (hkey : e.key = e'.key) : i = j := by
  have hi' : (s.fast.map Entry.key)[i]? = some e.key := by rw [getElem?_map, hi]; rfl
  have hj' : (s.fast.map Entry.key)[j]? = some e.key := by rw [getElem?_map, hj, hkey]; rfl
  obtain ⟨hlt, -⟩ := List.getElem?_eq_some_iff.1 hi'
  exact (getElem?_inj hlt h.keys).1 (hi'.trans hj'.symm)

/-- A finished entry is dropped. -/
theorem erase (hp : s.fast[p.2]? = some p.1) (herase : s.erase p = some s') :
    FastInv s' ∧ s.ready p.1 = true ∧ s'.fast.length + 1 = s.fast.length ∧ s'.fast ⊆ s.fast ∧
      (∀ e ∈ s.fast, e ≠ p.1 → e ∈ s'.fast) ∧ p.1 ∉ s'.fast ∧ s'.builds = s.builds := by
  unfold Cache.erase at herase
  split_ifs at herase with hready
  obtain rfl := some_inj.1 herase
  obtain ⟨hlt, hget⟩ := List.getElem?_eq_some_iff.1 hp
  have hsub : (s.fast.eraseIdx p.2).Sublist s.fast := eraseIdx_sublist _ _
  have hrest : ∀ e ∈ s.fast, e ≠ p.1 → e ∈ s.fast.eraseIdx p.2 := by
    intro e he hne
    obtain ⟨i, hi⟩ := mem_iff_getElem?.1 he
    refine mem_eraseIdx_iff_getElem?.2 ⟨i, ?_, hi⟩
    intro hip
    rw [hip, hp] at hi
    exact hne (some_inj.1 hi).symm
  have hgone : p.1 ∉ s.fast.eraseIdx p.2 := by
    intro hin
    obtain ⟨i, hne, hi⟩ := mem_eraseIdx_iff_getElem?.1 hin
    exact hne (h.index_unique hi hp rfl)
  refine ⟨⟨h.keys.sublist (hsub.map _), hsub.length_le.trans h.size, fun e he => h.futures e (hsub.subset he), ?_,
    h.built, h.clock, fun e he => h.recency e (hsub.subset he)⟩, hready, ?_, hsub.subset, hrest, hgone, rfl⟩
  · -- a running build is not that of the entry that is dropped
    intro id b hb hrunning
    obtain ⟨e, he, hcontext⟩ := h.kept id b hb hrunning
    refine ⟨e, hrest e he ?_, hcontext⟩
    intro heq
    rw [← heq, Cache.ready, hcontext, hb] at hready
    obtain ⟨k, status⟩ := b
    dsimp only at hrunning
    subst hrunning
    cases hready
  · rw [length_eraseIdx_of_lt hlt]
    omega

theorem clock_succ : s.clock + 1 = UInt64.ofNat (key :: s.prepared).length := by
  rw [h.clock, length_cons, UInt64.ofNat_add]
  rfl

/-- One more preparation leaves the numbers of the other keys. -/
theorem recency_cons (he : e ∈ s.fast) (hne : e.key ≠ key) : e.key ∈ key :: s.prepared ∧ e.lastPrepare = UInt64.ofNat
    ((key :: s.prepared).length - (key :: s.prepared).idxOf e.key) := by
  obtain ⟨hmem, hnumber⟩ := h.recency e he
  refine ⟨mem_cons_of_mem _ hmem, ?_⟩
  rw [idxOf_cons_ne _ hne.symm, length_cons, Nat.add_sub_add_right]
  exact hnumber

/-- The entries after one was prepared again: it, with a new number, and the others. -/
theorem mem_touch (hp : s.fast[p.2]? = some p.1) (key : κ) (e : Entry κ) :
    e ∈ (s.touch key p).fast ↔ e = { p.1 with lastPrepare := s.clock + 1 } ∨ (e ∈ s.fast ∧ e.key ≠ p.1.key) := by
  obtain ⟨hlt, -⟩ := List.getElem?_eq_some_iff.1 hp
  rw [Cache.touch, mem_iff_getElem?]
  apply Iff.intro
  · rintro ⟨i, hi⟩
    by_cases hip : p.2 = i
    · subst hip
      rw [getElem?_set_self hlt] at hi
      exact Or.inl (some_inj.1 hi).symm
    · rw [getElem?_set_ne hip] at hi
      exact Or.inr ⟨mem_of_getElem? hi, fun hkey => hip (h.index_unique hi hp hkey).symm⟩
  · intro he
    rcases he with rfl | ⟨he, hne⟩
    · exact ⟨p.2, getElem?_set_self hlt⟩
    · obtain ⟨i, hi⟩ := mem_iff_getElem?.1 he
      refine ⟨i, ?_⟩
      rw [getElem?_set_ne, hi]
      intro hip
      rw [← hip, hp] at hi
      exact hne (congrArg Entry.key (some_inj.1 hi)).symm

/-- An entry is prepared again. -/
theorem touch (hp : s.fast[p.2]? = some p.1) (hkey : p.1.key = key) : FastInv (s.touch key p) := by
  obtain ⟨hlt, hget⟩ := List.getElem?_eq_some_iff.1 hp
  have hpmem : p.1 ∈ s.fast := mem_of_getElem? hp
  have hmem := h.mem_touch hp key
  refine ⟨?_, ?_, ?_, ?_, h.built, h.clock_succ, ?_⟩
  · have hmap : (s.touch key p).fast.map Entry.key = s.fast.map Entry.key := by
      apply ext_getElem?
      intro i
      rw [Cache.touch, getElem?_map, getElem?_map]
      by_cases hip : p.2 = i
      · rw [← hip, getElem?_set_self hlt, hp]
        rfl
      · rw [getElem?_set_ne hip]
    rw [hmap]
    exact h.keys
  · rw [Cache.touch, length_set]
    exact h.size
  · intro e he
    rcases (hmem e).1 he with rfl | ⟨he, -⟩
    · exact h.futures p.1 hpmem
    · exact h.futures e he
  · intro id b hb hrunning
    obtain ⟨e, he, hcontext⟩ := h.kept id b hb hrunning
    by_cases hsame : e.key = p.1.key
    · obtain rfl := h.key_unique he hpmem hsame
      exact ⟨_, (hmem _).2 (Or.inl rfl), hcontext⟩
    · exact ⟨e, (hmem e).2 (Or.inr ⟨he, hsame⟩), hcontext⟩
  · intro e he
    rcases (hmem e).1 he with rfl | ⟨he, hne⟩
    · change p.1.key ∈ key :: s.prepared ∧
        s.clock + 1 = UInt64.ofNat ((key :: s.prepared).length - (key :: s.prepared).idxOf p.1.key)
      rw [hkey, idxOf_cons_self, Nat.sub_zero]
      exact ⟨mem_cons_self, h.clock_succ⟩
    · exact h.recency_cons he (hkey ▸ hne)

/-- A build is started for a key that has no entry. -/
theorem launch (hroom : s.fast.length < MAX_FAST_CONTEXTS) (hnew : ∀ e ∈ s.fast, e.key ≠ key) :
    FastInv (s.launch key) := by
  have hmem : ∀ e, e ∈ (s.launch key).fast ↔ e ∈ s.fast ∨ e = ⟨key, s.clock + 1, s.builds.length⟩ := by
    intro e
    rw [Cache.launch, mem_append, mem_singleton]
  refine ⟨?_, ?_, ?_, ?_, ?_, h.clock_succ, ?_⟩
  · rw [Cache.launch, map_append, nodup_append]
    refine ⟨h.keys, nodup_singleton _, ?_⟩
    intro a ha b hb
    obtain ⟨e, he, rfl⟩ := mem_map.1 ha
    rw [map_singleton, mem_singleton] at hb
    rw [hb]
    exact hnew e he
  · rw [Cache.launch, length_append]
    exact hroom
  · intro e he
    rcases (hmem e).1 he with he | rfl
    · obtain ⟨b, hb, hkey⟩ := h.futures e he
      exact ⟨b, getElem?_append_left (List.getElem?_eq_some_iff.1 hb).1 ▸ hb, hkey⟩
    · exact ⟨⟨key, .running⟩, getElem?_concat_length, rfl⟩
  · intro id b hb hrunning
    by_cases hid : id < s.builds.length
    · rw [Cache.launch, getElem?_append_left hid] at hb
      obtain ⟨e, he, hcontext⟩ := h.kept id b hb hrunning
      exact ⟨e, (hmem e).2 (Or.inl he), hcontext⟩
    · obtain ⟨hlt, -⟩ := List.getElem?_eq_some_iff.1 hb
      rw [Cache.launch, length_append, length_singleton] at hlt
      exact ⟨_, (hmem _).2 (Or.inr rfl), by dsimp only; omega⟩
  · intro b hb context hstatus
    rw [Cache.launch, mem_append, mem_singleton] at hb
    rcases hb with hb | rfl
    · exact h.built b hb context hstatus
    · cases hstatus
  · intro e he
    rcases (hmem e).1 he with he | rfl
    · exact h.recency_cons he (hnew e he)
    · change key ∈ key :: s.prepared ∧
        s.clock + 1 = UInt64.ofNat ((key :: s.prepared).length - (key :: s.prepared).idxOf key)
      rw [idxOf_cons_self, Nat.sub_zero]
      exact ⟨mem_cons_self, h.clock_succ⟩

/-- A build ends, with a status that says so. -/
theorem setBuild {id : ℕ} (hid : s.builds[id]? = some ⟨key, .running⟩) {status : BuildStatus γ}
    (hdone : status ≠ .running) {made : List (κ × RandomXMemoryMode × Option γ)} (hmade : s.made ⊆ made)
    (hstatus : ∀ context, status = .returned context → (key, .FAST, context) ∈ made) :
    FastInv { s with builds := s.builds.set id ⟨key, status⟩, made := made } := by
  obtain ⟨hlt, -⟩ := List.getElem?_eq_some_iff.1 hid
  refine ⟨h.keys, h.size, ?_, ?_, ?_, h.clock, h.recency⟩
  · intro e he
    obtain ⟨b, hb, hkey⟩ := h.futures e he
    by_cases hcontext : id = e.context
    · rw [← hcontext, hid] at hb
      obtain rfl := some_inj.1 hb
      refine ⟨⟨key, status⟩, ?_, hkey⟩
      rw [← hcontext]
      exact getElem?_set_self hlt
    · refine ⟨b, ?_, hkey⟩
      rw [← hb]
      exact getElem?_set_ne hcontext
  · intro id' b hb hrunning
    by_cases hsame : id = id'
    · subst hsame
      rw [getElem?_set_self hlt] at hb
      obtain rfl := some_inj.1 hb
      exact absurd hrunning hdone
    · rw [getElem?_set_ne hsame] at hb
      exact h.kept id' b hb hrunning
  · intro b hb context hcontext
    rcases mem_or_eq_of_mem_set hb with hold | rfl
    · exact hmade (h.built b hold context hcontext)
    · exact hstatus context hcontext

theorem buildDone {id : ℕ} (hid : s.builds[id]? = some ⟨key, .running⟩) (result : Option (Option γ)) :
    FastInv (s.buildDone id key result) := by
  cases result with
  | none => exact h.setBuild hid (by simp) (fun _ hm => hm) (by simp)
  | some context =>
    refine h.setBuild hid (by simp) (subset_cons_self _ _) ?_
    intro context' heq
    cases heq
    exact mem_cons_self

/-- What the future of an entry holds was made for its key. -/
theorem future_made (hp : s.findFast key = some p) {context : Option γ}
    (hget : s.futureGet p.1 = some (.ok context)) : (key, .FAST, context) ∈ s.made := by
  obtain ⟨hmem, hkey⟩ := Cache.findFast_some hp
  obtain ⟨b, hb, hstatus⟩ := Cache.futureGet_ok hget
  obtain ⟨b', hb', hsame⟩ := h.futures p.1 (mem_of_getElem? hmem)
  obtain rfl : b = b' := some_inj.1 (hb.symm.trans hb')
  rw [← hkey, ← hsame]
  exact h.built b (mem_of_getElem? hb) context hstatus

/-- Unfinished builds are among the entries. -/
theorem unfinished_le : s.unfinished.length ≤ MAX_FAST_CONTEXTS := by
  have hsub : s.unfinished ⊆ s.fast.map Entry.context := by
    intro id hid
    obtain ⟨b, hb, hrunning⟩ := Cache.mem_unfinished.1 hid
    obtain ⟨e, he, hcontext⟩ := h.kept id b hb hrunning
    exact hcontext ▸ mem_map_of_mem he
  have hnodup : s.unfinished.Nodup := nodup_range.filter _
  calc s.unfinished.length ≤ (s.fast.map Entry.context).length := (hnodup.subperm hsub).length_le
    _ = s.fast.length := length_map _
    _ ≤ MAX_FAST_CONTEXTS := h.size

theorem prepare (hs' : s.prepare key mode = some s') : FastInv s' := by
  rcases Cache.prepare_cases hs' with ⟨-, rfl⟩ | ⟨-, ⟨p, hp, hkey, rfl⟩ | ⟨hnew, ⟨hroom, rfl⟩ | ⟨-, rfl⟩⟩⟩
  · exact h
  · exact h.touch hp hkey
  · exact h.launch (lt_of_le_of_ne h.size hroom) hnew
  · exact h.same rfl rfl (fun _ hm => hm) rfl rfl

/-- While `m_clock` has not wrapped, a smaller number is an earlier preparation. -/
theorem recent (hclock : s.prepared.length < 2 ^ 64) (he : e ∈ s.fast) (he' : e' ∈ s.fast)
    (hle : e.lastPrepare.toNat ≤ e'.lastPrepare.toNat) (hne : e ≠ e') :
    s.prepared.idxOf e'.key < s.prepared.idxOf e.key := by
  obtain ⟨hmem, hnumber⟩ := h.recency e he
  obtain ⟨hmem', hnumber'⟩ := h.recency e' he'
  have hlt := idxOf_lt_length_of_mem hmem
  have hlt' := idxOf_lt_length_of_mem hmem'
  rw [hnumber, hnumber', UInt64.toNat_ofNat_of_lt' (by rw [UInt64.size]; omega),
    UInt64.toNat_ofNat_of_lt' (by rw [UInt64.size]; omega)] at hle
  have hindex : s.prepared.idxOf e.key ≠ s.prepared.idxOf e'.key := by
    intro hsame
    exact hne (h.key_unique he he' ((idxOf_inj hmem).1 hsame))
  omega

/-- An entry whose build is unfinished stays when another one goes. -/
theorem erase_keeps (hp : s.fast[p.2]? = some p.1) (herase : s.erase p = some s') (he : e ∈ s.fast)
    (hunfinished : e.context ∈ s.unfinished) : e ∈ s'.fast := by
  obtain ⟨-, hready, -, -, hrest, -⟩ := h.erase hp herase
  refine hrest e he ?_
  intro heq
  rw [← heq, Cache.ready_of_unfinished hunfinished] at hready
  cases hready

/-- The first section of `Prepare` keeps every entry, maybe with a new number. -/
theorem prepare_keeps (hs' : s.prepare key mode = some s') (he : e ∈ s.fast) :
    ∃ e' ∈ s'.fast, e'.key = e.key ∧ e'.context = e.context := by
  rcases Cache.prepare_cases hs' with ⟨-, rfl⟩ | ⟨-, ⟨p, hp, -, rfl⟩ | ⟨-, ⟨-, rfl⟩ | ⟨-, rfl⟩⟩⟩
  · exact ⟨e, he, rfl, rfl⟩
  · by_cases hkey : e.key = p.1.key
    · obtain rfl := h.key_unique he (mem_of_getElem? hp) hkey
      exact ⟨_, (h.mem_touch hp key _).2 (Or.inl rfl), rfl, rfl⟩
    · exact ⟨e, (h.mem_touch hp key e).2 (Or.inr ⟨he, hkey⟩), rfl, rfl⟩
  · exact ⟨e, mem_append_left _ he, rfl, rfl⟩
  · exact ⟨e, he, rfl, rfl⟩

/-- What `PeekPrepared` finds was made for the key. -/
theorem peekPrepared_cases (key : κ) :
    ∃ context, s.peekPrepared key = some context ∧ ∀ c, context = some c → (key, .FAST, some c) ∈ s.made := by
  unfold Cache.peekPrepared
  cases hfind : s.findFast key with
  | none => exact ⟨none, rfl, by simp⟩
  | some p =>
    dsimp only
    by_cases hready : s.ready p.1 = false
    · rw [if_pos hready]
      exact ⟨none, rfl, by simp⟩
    · rw [if_neg hready]
      obtain ⟨r, hr⟩ := Cache.futureGet_of_ready (Bool.eq_true_of_not_eq_false hready)
      rw [hr]
      cases r with
      | error u => exact ⟨none, rfl, by simp⟩
      | ok context => exact ⟨context, rfl, fun c hc => hc ▸ h.future_made hfind hr⟩

end FastInv

namespace ScanInv

variable {s s' : Cache κ γ τ} {c : Scan κ} {e : Entry κ} {p : Entry κ × ℕ} (h : ScanInv s c) (hfast : FastInv s)
include h hfast

/-- The oldest goes, and the build starts. -/
theorem evict (hold : c.oldest = some p) {m : Cache κ γ τ} (hm : s.erase p = some m) : FastInv (m.launch c.key) := by
  obtain ⟨hinv, -, hlength, hsub, -⟩ := hfast.erase (h.oldest p hold).1 hm
  refine hinv.launch ?_ fun e he => h.new e (hsub he)
  have hfull := h.full
  omega

/-- What a step of a scan evicts: what it found finished, and while the clock has not wrapped the least recent of it. -/
theorem evicted (hs' : s.scanStep c = some s') (he : e ∈ s.fast) (hgone : e.key ∉ s'.fast.map Entry.key) :
    e ∈ c.found ∧ (∀ e' ∈ c.finished, e' ∈ c.found) ∧ (s.prepared.length < 2 ^ 64 → ∀ e' ∈ c.found, e' ≠ e →
      s.prepared.idxOf e'.key < s.prepared.idxOf e.key) := by
  have hkeep : e ∉ s'.fast := fun hin => hgone (mem_map_of_mem hin)
  rcases Cache.scanStep_cases hs' with ⟨_, -, rfl⟩ | ⟨hend, ⟨-, rfl⟩ | ⟨p, m, hold, hm, rfl⟩⟩
  · exact absurd he hkeep
  · exact absurd he hkeep
  · obtain ⟨hp, hin, hleast⟩ := h.oldest p hold
    obtain ⟨-, -, -, -, hrest, -⟩ := hfast.erase hp hm
    have heq : e = p.1 := by
      by_contra hne
      exact hkeep (mem_append_left _ (hrest e he hne))
    rw [heq]
    refine ⟨hin, fun e' he' => h.found_of_finished hend he', fun hclock e' he' hne => ?_⟩
    exact hfast.recent hclock (mem_of_getElem? hp) (h.found e' he').1 (hleast e' he') (Ne.symm hne)

end ScanInv

/-! ## The whole cache -/

/-- what holds between any two sections -/
structure Inv (s : Cache κ γ τ) : Prop where
  fast : FastInv s
  scan : ∀ c, s.scan = some c → ScanInv s c
  light : ∀ c, s.light = some c → (s.lightKey, .LIGHT, some c) ∈ s.made
  returned : ∀ key c, (key, some c) ∈ s.returned → ∃ mode, (key, mode, some c) ∈ s.made
  holder : ∀ t, s.holder = some t ↔ ∃ key, s.threads t = .inFactory key

namespace Inv

variable {s s' : Cache κ γ τ}

theorem init (lightKey : κ) : Inv (Cache.init lightKey : Cache κ γ τ) where
  fast := FastInv.init lightKey
  scan := by simp [Cache.init]
  light := by simp [Cache.init]
  returned := by simp [Cache.init]
  holder := by simp [Cache.init]

/-- A change of the FAST part only. -/
theorem ofFast (h : Inv s) (hfast : FastInv s') (hscan : ∀ c, s'.scan = some c → ScanInv s' c)
    (hmade : s.made ⊆ s'.made) (hsame : s'.light = s.light ∧ s'.lightKey = s.lightKey ∧ s'.returned = s.returned ∧
      s'.holder = s.holder ∧ s'.threads = s.threads) : Inv s' where
  fast := hfast
  scan := hscan
  light := by
    rw [hsame.1, hsame.2.1]
    exact fun c hc => hmade (h.light c hc)
  returned := by
    rw [hsame.2.2.1]
    intro key c hc
    obtain ⟨mode, hmode⟩ := h.returned key c hc
    exact ⟨mode, hmade hmode⟩
  holder := by
    rw [hsame.2.2.2.1, hsame.2.2.2.2]
    exact h.holder

/-- A call returned what was made for its key. -/
theorem answer (h : Inv s) {key : κ} {context : Option γ}
    (hmade : ∀ c, context = some c → ∃ mode, (key, mode, some c) ∈ s.made) : Inv (s.answer key context) where
  fast := h.fast.same rfl rfl (fun _ hm => hm) rfl rfl
  scan := fun c hc => (h.scan c hc).mono rfl fun _ hready => hready
  light := h.light
  returned := by
    intro key' c hc
    rcases mem_cons.1 hc with heq | hold
    · obtain ⟨rfl, hcontext⟩ := Prod.mk.inj heq
      exact hmade c hcontext.symm
    · exact h.returned key' c hold
  holder := h.holder

theorem prepare (h : Inv s) {key : κ} {mode : RandomXMemoryMode} (hs' : s.prepare key mode = some s') : Inv s' := by
  have hfast := h.fast.prepare hs'
  rcases Cache.prepare_cases hs' with ⟨-, rfl⟩ | ⟨hfree, ⟨p, -, -, rfl⟩ | ⟨hnew, ⟨-, rfl⟩ | ⟨hfull, rfl⟩⟩⟩
  · exact h
  · exact h.ofFast hfast (by simp [Cache.touch, hfree]) (fun _ hm => hm) ⟨rfl, rfl, rfl, rfl, rfl⟩
  · exact h.ofFast hfast (by simp [Cache.launch, hfree]) (fun _ hm => hm) ⟨rfl, rfl, rfl, rfl, rfl⟩
  · refine h.ofFast hfast (fun c hc => ?_) (fun _ hm => hm) ⟨rfl, rfl, rfl, rfl, rfl⟩
    obtain rfl := some_inj.1 hc
    exact (ScanInv.start hfull hnew).mono rfl fun _ hready => hready

theorem scanStep (h : Inv s) {c : Scan κ} (hc : s.scan = some c) (hs' : s.scanStep c = some s') : Inv s' := by
  have hscan := h.scan c hc
  rcases Cache.scanStep_cases hs' with ⟨e, he, rfl⟩ | ⟨-, ⟨-, rfl⟩ | ⟨p, m, hold, hm, rfl⟩⟩
  · refine h.ofFast (h.fast.same rfl rfl (fun _ hm => hm) rfl rfl) (fun c' hc' => ?_) (fun _ hm => hm)
      ⟨rfl, rfl, rfl, rfl, rfl⟩
    obtain rfl := some_inj.1 hc'
    exact (hscan.ask he).mono rfl fun _ hready => hready
  · exact h.ofFast (h.fast.same rfl rfl (fun _ hm => hm) rfl rfl) (by simp) (fun _ hm => hm) ⟨rfl, rfl, rfl, rfl, rfl⟩
  · have hfast := hscan.evict h.fast hold hm
    rw [Cache.erase_eq hm] at hfast ⊢
    exact h.ofFast (hfast.same rfl rfl (fun _ hm => hm) rfl rfl) (by simp) (fun _ hm => hm) ⟨rfl, rfl, rfl, rfl, rfl⟩

theorem buildDone (h : Inv s) {id : ℕ} {key : κ} (hid : s.builds[id]? = some ⟨key, .running⟩)
    (result : Option (Option γ)) : Inv (s.buildDone id key result) := by
  have hfast := h.fast.buildDone hid result
  have hready : ∀ e, s.ready e = true → (s.buildDone id key result).ready e = true :=
    fun _ => Cache.ready_buildDone hid result
  cases result with
  | none => exact h.ofFast hfast (fun c hc => (h.scan c hc).mono rfl hready) (fun _ hm => hm) ⟨rfl, rfl, rfl, rfl, rfl⟩
  | some context =>
    exact h.ofFast hfast (fun c hc => (h.scan c hc).mono rfl hready) (subset_cons_self _ _) ⟨rfl, rfl, rfl, rfl, rfl⟩

end Inv

section
variable [DecidableEq τ]

/-! ## Steps -/

/-- one section of one call, one step of a scan, or the end of a build -/
inductive Action (κ γ τ : Type) where
  | prepare (key : κ) (mode : RandomXMemoryMode)
  | scan
  | peekPrepared (key : κ)
  | get (t : τ) (key : κ) (preferFast : Bool)
  | lightEnter (t : τ)
  | lightDone (t : τ) (result : Option (Option γ))
  | buildDone (id : ℕ) (result : Option (Option γ))

/-- an action is taken; none where it cannot be, or where the call waits -/
def step (s : Cache κ γ τ) : Action κ γ τ → Option (Cache κ γ τ)
  | .prepare key mode => s.prepare key mode
  | .scan => s.scan.bind s.scanStep
  | .peekPrepared key => if s.scan.isSome then none else (s.peekPrepared key).map fun context => s.answer key context
  | .get t key preferFast =>
    match s.threads t with
    | .idle =>
      if preferFast then if s.scan.isSome then none else s.getFast t key
      else some (s.goTo t (.atLight key))
    | _ => none
  | .lightEnter t =>
    match s.threads t, s.holder with
    | .atLight key, none => some (s.lightEnter t key)
    | _, _ => none
  | .lightDone t result =>
    match s.threads t with
    | .inFactory key => some (s.lightDone t key result)
    | _ => none
  | .buildDone id result =>
    match s.builds[id]? with
    | some ⟨key, .running⟩ => some (s.buildDone id key result)
    | _ => none

/-- What `Get` does under `m_fast_mutex`; it does not wait. -/
theorem FastInv.getFast_cases {s : Cache κ γ τ} (h : FastInv s) (t : τ) (key : κ) : ∃ s', s.getFast t key = some s' ∧
      (s' = s.goTo t (.atLight key) ∨ (∃ context, (key, .FAST, context) ∈ s.made ∧ s' = s.answer key context) ∨
        ∃ p m, s.fast[p.2]? = some p.1 ∧ s.erase p = some m ∧ s' = m.goTo t (.atLight key)) := by
  unfold Cache.getFast
  cases hfind : s.findFast key with
  | none => exact ⟨_, rfl, Or.inl rfl⟩
  | some p =>
    dsimp only
    by_cases hready : s.ready p.1 = false
    · rw [if_pos hready]
      exact ⟨_, rfl, Or.inl rfl⟩
    · rw [if_neg hready]
      have hfinished := Bool.eq_true_of_not_eq_false hready
      obtain ⟨r, hr⟩ := Cache.futureGet_of_ready hfinished
      rw [hr]
      cases r with
      | ok context => exact ⟨_, rfl, Or.inr (Or.inl ⟨context, h.future_made hfind hr, rfl⟩)⟩
      | error u =>
        obtain ⟨m, hm⟩ : ∃ m, s.erase p = some m := ⟨_, if_pos hfinished⟩
        refine ⟨m.goTo t (.atLight key), ?_, Or.inr (Or.inr ⟨p, m, (Cache.findFast_some hfind).1, hm, rfl⟩)⟩
        dsimp only
        rw [hm]
        rfl

namespace Inv

variable {s s' : Cache κ γ τ}

/-- A thread that is not in the factory goes on, not into it. -/
theorem goTo (h : Inv s) {t : τ} (hfrom : ∀ key, s.threads t ≠ .inFactory key) {pc : Pc κ}
    (hto : ∀ key, pc ≠ .inFactory key) : Inv (s.goTo t pc) where
  fast := h.fast.same rfl rfl (fun _ hm => hm) rfl rfl
  scan := fun c hc => (h.scan c hc).mono rfl fun _ hready => hready
  light := h.light
  returned := h.returned
  holder := by
    intro t'
    change s.holder = some t' ↔ ∃ key, Function.update s.threads t pc t' = .inFactory key
    by_cases ht : t' = t
    · subst ht
      rw [Function.update_self]
      apply Iff.intro
      · intro hholder
        obtain ⟨key, hkey⟩ := (h.holder t').1 hholder
        exact absurd hkey (hfrom key)
      · rintro ⟨key, hkey⟩
        exact absurd hkey (hto key)
    · rw [Function.update_of_ne ht]
      exact h.holder t'

theorem getFast (h : Inv s) {t : τ} {key : κ} (hidle : s.threads t = .idle) (hfree : s.scan = none)
    (hs' : s.getFast t key = some s') : Inv s' := by
  have hfrom : ∀ k, s.threads t ≠ .inFactory k := by simp [hidle]
  have hto : ∀ k, (Pc.atLight key) ≠ .inFactory k := by simp
  obtain ⟨r, hr, hcases⟩ := h.fast.getFast_cases t key
  obtain rfl : s' = r := some_inj.1 (hs'.symm.trans hr)
  rcases hcases with rfl | ⟨context, hmade, rfl⟩ | ⟨p, m, hp, hm, rfl⟩
  · exact h.goTo hfrom hto
  · exact h.answer fun c hc => ⟨.FAST, hc ▸ hmade⟩
  · have hfast := (h.fast.erase hp hm).1
    rw [Cache.erase_eq hm] at hfast ⊢
    have hinv : Inv { s with fast := s.fast.eraseIdx p.2 } :=
      h.ofFast hfast (by simp [hfree]) (fun _ hm => hm) ⟨rfl, rfl, rfl, rfl, rfl⟩
    exact hinv.goTo hfrom hto

theorem lightEnter (h : Inv s) {t : τ} {key : κ} (hat : s.threads t = .atLight key) (hfree : s.holder = none) :
    Inv (s.lightEnter t key) := by
  have hfrom : ∀ k, s.threads t ≠ .inFactory k := by simp [hat]
  unfold Cache.lightEnter
  split_ifs with hcold
  · refine ⟨h.fast.same rfl rfl (fun _ hm => hm) rfl rfl, fun c hc => (h.scan c hc).mono rfl fun _ hready => hready,
      by simp, h.returned, fun t' => ?_⟩
    change some t = some t' ↔ ∃ k, Function.update s.threads t (.inFactory key) t' = .inFactory k
    by_cases ht : t' = t
    · subst ht
      simp
    · rw [Function.update_of_ne ht, some_inj, ← h.holder t', hfree]
      simp [Ne.symm ht]
  · rw [not_or, not_not] at hcold
    have hinv : Inv (s.answer key s.light) := h.answer fun c hc => ⟨.LIGHT, hcold.2 ▸ h.light c hc⟩
    exact hinv.goTo hfrom (by simp)

theorem lightDone (h : Inv s) {t : τ} {key : κ} (hin : s.threads t = .inFactory key) (result : Option (Option γ)) :
    Inv (s.lightDone t key result) := by
  have hholder : s.holder = some t := (h.holder t).2 ⟨key, hin⟩
  have hnone : ∀ t', (none : Option τ) = some t' ↔ ∃ k, Function.update s.threads t .idle t' = .inFactory k := by
    intro t'
    by_cases ht : t' = t
    · subst ht
      simp
    · rw [Function.update_of_ne ht, ← h.holder t', hholder]
      simp [Ne.symm ht]
  have hscan : ∀ s' : Cache κ γ τ, s'.fast = s.fast → s'.builds = s.builds → s'.scan = s.scan →
      ∀ c, s'.scan = some c → ScanInv s' c := by
    intro s' hfast hbuilds hsame c hc
    refine (h.scan c (hsame ▸ hc)).mono hfast fun e hready => ?_
    rwa [Cache.ready, hbuilds]
  cases result with
  | none => exact ⟨h.fast.same rfl rfl (fun _ hm => hm) rfl rfl, hscan _ rfl rfl rfl, h.light, h.returned, hnone⟩
  | some context =>
    refine ⟨h.fast.same rfl rfl (subset_cons_self _ _) rfl rfl, hscan _ rfl rfl rfl, ?_, ?_, hnone⟩
    · intro c hc
      obtain rfl : context = some c := hc
      exact mem_cons_self
    · intro key' c hc
      rcases mem_cons.1 hc with heq | hold
      · obtain ⟨rfl, hcontext⟩ := Prod.mk.inj heq
        exact ⟨.LIGHT, hcontext ▸ mem_cons_self⟩
      · obtain ⟨mode, hmode⟩ := h.returned key' c hold
        exact ⟨mode, mem_cons_of_mem _ hmode⟩

end Inv

variable (s : Cache κ γ τ)

theorem step_inv (a : Action κ γ τ) (s' : Cache κ γ τ) (h : Inv s) (hstep : step s a = some s') : Inv s' := by
  cases a with
  | prepare key mode => exact h.prepare hstep
  | scan =>
    obtain ⟨c, hc, hs'⟩ := bind_eq_some_iff.1 hstep
    exact h.scanStep hc hs'
  | peekPrepared key =>
    obtain ⟨context, hcontext, hmade⟩ := h.fast.peekPrepared_cases key
    rw [step, ite_none_left_eq_some, hcontext] at hstep
    obtain rfl := some_inj.1 hstep.2
    exact h.answer fun c hc => ⟨.FAST, hmade c hc⟩
  | get t key preferFast =>
    simp only [step] at hstep
    split at hstep
    · next hidle =>
      split_ifs at hstep with hfast hscan
      · exact h.getFast hidle (by simpa using hscan) hstep
      · obtain rfl := some_inj.1 hstep
        exact h.goTo (by simp [hidle]) (by simp)
    · cases hstep
  | lightEnter t =>
    simp only [step] at hstep
    split at hstep
    · next key hat hfree =>
      obtain rfl := some_inj.1 hstep
      exact h.lightEnter hat hfree
    · cases hstep
  | lightDone t result =>
    simp only [step] at hstep
    split at hstep
    · next key hin =>
      obtain rfl := some_inj.1 hstep
      exact h.lightDone hin result
    · cases hstep
  | buildDone id result =>
    simp only [step] at hstep
    split at hstep
    · next key hid =>
      obtain rfl := some_inj.1 hstep
      exact h.buildDone hid result
    · cases hstep

/-- what the calls of any number of threads, in any order, with any answers of the factory, lead to -/
def Reachable : Prop := ∃ lightKey actions, runs step (Cache.init lightKey) actions = some s

theorem Reachable.inv {s : Cache κ γ τ} (h : Reachable s) : Inv s := by
  obtain ⟨lightKey, actions, hrun⟩ := h
  exact runs_inv step_inv (Inv.init lightKey) hrun

omit [DecidableEq τ] in
/-- A step of a scan keeps the entries of unfinished builds. -/
theorem Inv.scan_keeps {s s' : Cache κ γ τ} (h : Inv s) {c : Scan κ} (hc : s.scan = some c)
    (hs' : s.scanStep c = some s')
    {e : Entry κ} (he : e ∈ s.fast) (hunfinished : e.context ∈ s.unfinished) : e ∈ s'.fast := by
  rcases Cache.scanStep_cases hs' with ⟨_, -, rfl⟩ | ⟨-, ⟨-, rfl⟩ | ⟨p, m, hold, hm, rfl⟩⟩
  · exact he
  · exact he
  · exact mem_append_left _ (h.fast.erase_keeps ((h.scan c hc).oldest p hold).1 hm he hunfinished)

/-- An unfinished build keeps its entry, and only `Prepare` starts a build. -/
theorem step_keeps {s s' : Cache κ γ τ} {a : Action κ γ τ} (h : Inv s) (hstep : step s a = some s') :
    (∀ e ∈ s.fast, e.context ∈ s.unfinished → ∃ e' ∈ s'.fast, e'.key = e.key ∧ e'.context = e.context) ∧
      ((∀ key mode, a ≠ .prepare key mode) → a ≠ .scan → s'.builds.length = s.builds.length) := by
  have hsame : s'.fast = s.fast → ∀ e ∈ s.fast, e.context ∈ s.unfinished →
      ∃ e' ∈ s'.fast, e'.key = e.key ∧ e'.context = e.context := by
    intro hfast e he _
    exact ⟨e, hfast ▸ he, rfl, rfl⟩
  cases a with
  | prepare key mode => exact ⟨fun e he _ => h.fast.prepare_keeps hstep he, fun hne => absurd rfl (hne key mode)⟩
  | scan =>
    obtain ⟨c, hc, hs'⟩ := bind_eq_some_iff.1 hstep
    exact ⟨fun e he hunfinished => ⟨e, h.scan_keeps hc hs' he hunfinished, rfl, rfl⟩, fun _ hne => absurd rfl hne⟩
  | peekPrepared key =>
    rw [step, ite_none_left_eq_some] at hstep
    obtain ⟨context, -, rfl⟩ := map_eq_some_iff.1 hstep.2
    exact ⟨hsame rfl, fun _ _ => rfl⟩
  | get t key preferFast =>
    simp only [step] at hstep
    split at hstep
    · split_ifs at hstep
      · obtain ⟨r, hr, hcases⟩ := h.fast.getFast_cases t key
        obtain rfl : s' = r := some_inj.1 (hstep.symm.trans hr)
        rcases hcases with rfl | ⟨context, -, rfl⟩ | ⟨p, m, hp, hm, rfl⟩
        · exact ⟨hsame rfl, fun _ _ => rfl⟩
        · exact ⟨hsame rfl, fun _ _ => rfl⟩
        · refine ⟨fun e he hunfinished => ⟨e, (h.fast.erase_keeps hp hm he hunfinished :), rfl, rfl⟩, fun _ _ => ?_⟩
          rw [Cache.erase_eq hm]
          rfl
      · obtain rfl := some_inj.1 hstep
        exact ⟨hsame rfl, fun _ _ => rfl⟩
    · cases hstep
  | lightEnter t =>
    simp only [step] at hstep
    split at hstep
    · obtain rfl := some_inj.1 hstep
      unfold Cache.lightEnter
      split_ifs <;> exact ⟨fun e he _ => ⟨e, he, rfl, rfl⟩, fun _ _ => rfl⟩
    · cases hstep
  | lightDone t result =>
    simp only [step] at hstep
    split at hstep
    · obtain rfl := some_inj.1 hstep
      cases result <;> exact ⟨fun e he _ => ⟨e, he, rfl, rfl⟩, fun _ _ => rfl⟩
    · cases hstep
  | buildDone id result =>
    simp only [step] at hstep
    split at hstep
    · obtain rfl := some_inj.1 hstep
      cases result <;> exact ⟨fun e he _ => ⟨e, he, rfl, rfl⟩, fun _ _ => length_set⟩
    · cases hstep

/-! ## The cache is safe -/

/-- what never waits for a FAST build: each section of each call can be taken, or a scan or a LIGHT build has to end
first; a scan goes on and ends, and a LIGHT build can end -/
structure NeverWaits : Prop where
  prepare : s.scan = none → ∀ key mode, (step s (.prepare key mode)).isSome = true
  scan : ∀ c, s.scan = some c → ∃ s', step s .scan = some s' ∧
    ∀ c', s'.scan = some c' → c'.it = c.it + 1 ∧ c.it < MAX_FAST_CONTEXTS
  peekPrepared : s.scan = none → ∀ key, (step s (.peekPrepared key)).isSome = true
  get : ∀ t key preferFast, s.threads t = .idle → preferFast = false ∨ s.scan = none →
    (step s (.get t key preferFast)).isSome = true
  light : ∀ t key, s.threads t = .atLight key →
    (step s (.lightEnter t)).isSome = true ∨ ∃ t' key', t' ≠ t ∧ s.threads t' = .inFactory key'
  factory : ∀ t key result, s.threads t = .inFactory key → (step s (.lightDone t result)).isSome = true

theorem Inv.neverWaits {s : Cache κ γ τ} (h : Inv s) : NeverWaits s where
  prepare := by
    intro hfree key mode
    rw [step, Cache.prepare, hfree]
    cases s.findFast key <;> split_ifs <;> simp_all
  scan := by
    intro c hc
    obtain ⟨s', hs', hend⟩ := (h.scan c hc).goes_on
    exact ⟨s', by rw [step, hc]; exact hs', hend⟩
  peekPrepared := by
    intro hfree key
    obtain ⟨context, hcontext, -⟩ := h.fast.peekPrepared_cases key
    simp [step, hcontext, hfree]
  get := by
    intro t key preferFast hidle hfree
    obtain ⟨s', hs', -⟩ := h.fast.getFast_cases t key
    rcases hfree with rfl | hfree
    · simp [step, hidle]
    · cases preferFast <;> simp [step, hidle, hs', hfree]
  light := by
    intro t key hat
    cases hholder : s.holder with
    | none => exact Or.inl (by simp [step, hat, hholder])
    | some t' =>
      obtain ⟨key', hkey'⟩ := (h.holder t').1 hholder
      refine Or.inr ⟨t', key', ?_, hkey'⟩
      rintro rfl
      rw [hat] at hkey'
      cases hkey'
  factory := by
    intro t key result hin
    simp [step, hin]

/-- what an eviction at the end of a scan takes: an entry that the scan found finished, and of those the one that was
prepared least recently, while there were fewer than 2^64 preparations. The scan has found all that was finished when it
began, and nothing that is not finished now. -/
structure Evicted (c : Scan κ) (e : Entry κ) : Prop where
  found : e ∈ c.found
  all : ∀ e' ∈ c.finished, e' ∈ c.found
  only : ∀ e' ∈ c.found, e' ∈ s.fast ∧ s.ready e' = true
  least : s.prepared.length < 2 ^ 64 → ∀ e' ∈ c.found, e' ≠ e → s.prepared.idxOf e'.key < s.prepared.idxOf e.key

/-- Whatever the calls and builds of any number of threads have led to: returned contexts were made for their keys, the
FAST keys are distinct, there are at most two FAST entries and two unfinished FAST builds, only `Prepare` starts one, no
call waits for one, none is evicted, and `Prepare` evicts only at the end of a scan, of what the scan found finished. -/
theorem randomx_cache_safe (s : Cache κ γ τ) (h : Reachable s) :
    (∀ key c, (key, some c) ∈ s.returned → ∃ mode, (key, mode, some c) ∈ s.made) ∧
    (s.fast.map Entry.key).Nodup ∧ s.fast.length ≤ 2 ∧ s.unfinished.length ≤ 2 ∧ NeverWaits s ∧
    (∀ a s', step s a = some s' →
      (∀ e ∈ s.fast, e.context ∈ s.unfinished → ∃ e' ∈ s'.fast, e'.key = e.key ∧ e'.context = e.context) ∧
      ((∀ key mode, a ≠ .prepare key mode) → a ≠ .scan → s'.builds.length = s.builds.length)) ∧
    (∀ key mode s' e, step s (.prepare key mode) = some s' → e ∈ s.fast → e.key ∈ s'.fast.map Entry.key) ∧
    ∀ c s' e, s.scan = some c → step s .scan = some s' → e ∈ s.fast → e.key ∉ s'.fast.map Entry.key →
      Evicted s c e := by
  have hinv := h.inv
  refine ⟨hinv.returned, hinv.fast.keys, hinv.fast.size, hinv.fast.unfinished_le, hinv.neverWaits,
    fun a s' hstep => step_keeps hinv hstep, fun key mode s' e hs' he => ?_, fun c s' e hc hs' he hgone => ?_⟩
  · obtain ⟨e', he', hkey, -⟩ := hinv.fast.prepare_keeps hs' he
    exact hkey ▸ mem_map_of_mem he'
  · rw [step, hc] at hs'
    obtain ⟨hfound, hall, hleast⟩ := (hinv.scan c hc).evicted hinv.fast hs' he hgone
    exact ⟨hfound, hall, (hinv.scan c hc).found, hleast⟩

/-! ## Evictions -/

/-- the cache behind a run -/
def behind (actions : List (Action Uint256 Unit Unit)) : Cache Uint256 Unit Unit :=
  (runs step (Cache.init Uint256.null) actions).getD (Cache.init Uint256.null)

theorem behind_reachable {actions : List (Action Uint256 Unit Unit)}
    (h : (runs step (Cache.init Uint256.null : Cache Uint256 Unit Unit) actions).isSome = true) :
    Reachable (behind actions) := by
  obtain ⟨s, hs⟩ := isSome_iff_exists.1 h
  exact ⟨Uint256.null, actions, by rw [behind, hs]; rfl⟩

/-- two preparations, whose builds end, one with an error, and a third one that has asked both entries -/
def fullRun : List (Action Uint256 Unit Unit) :=
  [.prepare (Uint256.ofNat 10) .FAST, .prepare (Uint256.ofNat 20) .FAST, .buildDone 1 (some none), .buildDone 0 none,
    .prepare (Uint256.ofNat 30) .FAST, .scan, .scan]

/-- A third preparation evicts the first of two finished entries, which was prepared less recently. -/
theorem third_evicts_first : ∃ c s', (behind fullRun).scan = some c ∧ step (behind fullRun) .scan = some s' ∧
    s'.fast.map Entry.key = [Uint256.ofNat 20, Uint256.ofNat 30] ∧ Evicted
    (behind fullRun) c ⟨Uint256.ofNat 10, 1, 0⟩ := by
  obtain ⟨c, hc⟩ := isSome_iff_exists.1 (by decide +kernel : (behind fullRun).scan.isSome = true)
  have hkeys : (step (behind fullRun) .scan).map (fun s' => s'.fast.map Entry.key) =
      some [Uint256.ofNat 20, Uint256.ofNat 30] := by decide +kernel
  obtain ⟨s', hs', hkeys⟩ := map_eq_some_iff.1 hkeys
  obtain ⟨-, -, -, -, -, -, -, hevicted⟩ := randomx_cache_safe (behind fullRun) (behind_reachable (by decide +kernel))
  refine ⟨c, s', hc, hs', hkeys, hevicted c s' _ hc hs' (by decide +kernel) ?_⟩
  rw [hkeys]
  decide

/-- the third preparation has asked the first entry before its build ends, and the second one behind the end of both -/
def lateRun : List (Action Uint256 Unit Unit) :=
  [.prepare (Uint256.ofNat 10) .FAST, .prepare (Uint256.ofNat 20) .FAST, .prepare (Uint256.ofNat 30) .FAST, .scan,
    .buildDone 0 (some none), .buildDone 1 (some none), .scan]

/-- The second entry goes, although the first one is finished and was prepared less recently. -/
theorem late_build_stays : Reachable (behind lateRun) ∧
    (step (behind lateRun) .scan).map (fun s' => s'.fast.map Entry.key) = some [Uint256.ofNat 10, Uint256.ofNat 30] ∧
    (behind lateRun).fast = [⟨Uint256.ofNat 10, 1, 0⟩, ⟨Uint256.ofNat 20, 2, 1⟩] ∧
    (behind lateRun).ready ⟨Uint256.ofNat 10, 1, 0⟩ = true ∧
    (behind lateRun).prepared.idxOf (Uint256.ofNat 20) < (behind lateRun).prepared.idxOf (Uint256.ofNat 10) :=
  ⟨behind_reachable (by decide +kernel), by decide +kernel⟩

end

end ConnectCoin.RandomXCache
