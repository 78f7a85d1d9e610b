/-
Scanning for bounties (`scanP2CBounties` in `node/interfaces.cpp`).

- `P2CScanner` (from `Node.BountyCatalog`): `m_p2c_tip`, `m_p2c_bounties`, and what the visitor was given in the last
  call. The mutex is held until the snapshot is taken, so calls come one after the other; the visitor works on the
  snapshot.
- `rebuild`, `apply`, `updateCatalog`, `scanP2CBounties`: `Asking` computations. A question is a call of `cancelled`, a
  read from disk that may fail, or a place where an exception may come.
- `ScanCall`: what a call finds: the active tip, and the coins database where the catalog is rebuilt. Disk reads that
  succeed give the body and the undo record that are stored.
Results:
- `scan_sound`: whatever is answered, a scan leaves the catalog of the block recorded as its tip, or an empty one and no
  tip, and what it gave to its visitor is in the catalog it leaves; with no answer but `go`, it ends at the active tip;
- `bounty_catalog_mirrors_utxo`: so it is over every sequence of scans.
-/
import ConnectCoin.Node.BountyCatalog
import ConnectCoin.P2C.Replay

namespace ConnectCoin.BountyScan

open Lib P2C Asking CBlockIndex List Option

section
variable [Crypto]

/-! ## The scan -/

/-- a cursor of the coins database, and the index entry of its best block -/
structure CoinsCursor where
  entries : List (COutPoint × Coin)
  bestBlock : Option CBlockIndex

/-- what a call finds and was called with; a catalog is rebuilt at two places -/
structure ScanCall where
  waits : ℕ
  initialBlockDownload : Bool
  database : CoinsCursor
  target : Option CBlockIndex
  databaseAfter : CoinsCursor
  recentBlocks : ℤ
  visitor : COutPoint → CTxOut → Bool

/-- the loop over the cursor -/
def loadCoins : List (COutPoint × Coin) → P2CBountyCatalog → Asking P2CScanner P2CBountyCatalog
  | [], fresh => pure fresh
  | entry :: rest, fresh => do
    ask -- `cancelled`
    ask -- `GetKey`, `GetValue`
    loadCoins rest (fresh.insertCanonical [entry])

/-- the lambda `rebuild` -/
def rebuild (cursor : CoinsCursor) : Asking P2CScanner Unit := do
  ask -- `ForceFlushStateToDisk`
  let fresh ← loadCoins cursor.entries .empty
  match cursor.bestBlock with
  | none => halt .no
  | some tip => act fun s => { s with tip := some tip, bounties := fresh }

/-- no tip, and nothing in the catalog -/
def invalidate : Asking P2CScanner Unit := act fun s => { s with tip := none, bounties := .empty }

/-- the try block of `apply` -/
def guarded (m : Asking P2CScanner Unit) : Asking P2CScanner Unit :=
  m.recover fun e =>
    match e with
    | .no => halt .no
    | .exception => do
      invalidate
      halt .exception

variable (tree : BlockTree) (undo : UndoRecords)

/-- what `ReadBlockUndo` gives -/
def readBlockUndoAt (index : CBlockIndex) : Option CBlockUndo :=
  index.pprev.bind fun p => (undo index).bind (readUndoRecord p)

/-- the lambda `apply` to disconnect -/
def applyUndo (index : CBlockIndex) : Asking P2CScanner Unit := do
  ask -- `cancelled`
  ask -- `ReadBlock`
  ask -- `ReadBlockUndo`
  match readBlockUndoAt undo index with
  | none => halt .no
  | some vtxundo =>
    if vtxundo.length + 1 ≠ (tree.body index).vtx.length then halt .no
    else guarded (applyP2CBountyBlock (tree.body index) index.nHeight (some vtxundo))

/-- the lambda `apply` to connect -/
def applyNew (index : CBlockIndex) : Asking P2CScanner Unit := do
  ask -- `cancelled`
  ask -- `ReadBlock`
  guarded (applyP2CBountyBlock (tree.body index) index.nHeight none)

def setTip (tip : Option CBlockIndex) : Asking P2CScanner Unit := act fun s => { s with tip := tip }

/-- the loop down to the fork; the fuel is the number of blocks there are, and below the first one is a null pointer -/
def undoLoop (tree : BlockTree) (undo : UndoRecords) (fork : CBlockIndex) : ℕ → Asking P2CScanner Unit
  | 0 => halt .exception
  | fuel + 1 => do
    let s ← here
    match s.tip with
    | none => halt .exception
    | some tip =>
      if tip = fork then pure ()
      else do
        applyUndo tree undo tip
        setTip tip.pprev
        undoLoop tree undo fork fuel

/-- the blocks above the fork, the lowest first -/
def blocksAbove (fork : CBlockIndex) : ℕ → CBlockIndex → List CBlockIndex → Option (List CBlockIndex)
  | 0, _, _ => none
  | fuel + 1, index, connected =>
    if index = fork then some connected
    else match index.pprev with
      | none => none
      | some p => blocksAbove fork fuel p (index :: connected)

/-- the update without the recovery: down to the fork, up to the target -/
def moveTo (tip target fork : CBlockIndex) : Asking P2CScanner Unit := do
  undoLoop tree undo fork (tip.nHeight + 1)
  match blocksAbove fork (target.nHeight + 1) target [] with
  | none => halt .exception
  | some connected => connected.forM fun index => do
    applyNew tree index
    setTip (some index)

/-- the update: where it fails, the catalog is dropped and rebuilt -/
def updateCatalog (call : ScanCall) (tip target fork : CBlockIndex) : Asking P2CScanner Unit :=
  (moveTo tree undo tip target fork).recover fun e =>
    match e with
    | .exception => halt .exception
    | .no => do
      invalidate
      ask
      rebuild call.databaseAfter

/-- the lowest height of a recent search -/
def minHeight (nHeight : ℕ) (recentBlocks : ℤ) : ℕ :=
  if recentBlocks > 0 then (max 0 ((nHeight : ℤ) - recentBlocks + 1)).toNat else 0

/-- the loop over the snapshot -/
def visitLoop (visitor : COutPoint → CTxOut → Bool) : List (COutPoint × Coin) → Asking P2CScanner Unit
  | [] => pure ()
  | (outpoint, coin) :: rest => do
    ask
    act fun s => { s with visited := s.visited ++ [(outpoint, coin.out)] }
    if visitor outpoint coin.out then visitLoop visitor rest else pure ()

/-- the entries of a map in their order -/
def inOrder (snap : Utxos) : List (COutPoint × Coin) := (sorted snap.keys).filterMap fun o => (snap.lookup o).map (o, ·)

/-- from the snapshot on -/
def report (call : ScanCall) : Asking P2CScanner Unit := do
  let s ← here
  match s.tip with
  | none => halt .exception
  | some tip => do
    let snap ← snapshot (minHeight tip.nHeight call.recentBlocks)
    visitLoop call.visitor (inOrder snap)

/-- with a tip, to the end -/
def scanFrom (call : ScanCall) (tip : CBlockIndex) : Asking P2CScanner Unit :=
  match call.target with
  | none => halt .no
  | some target =>
    match lastCommonAncestor tip target with
    | none => halt .exception
    | some fork => do
      updateCatalog tree undo call tip target fork
      report call

/-- a catalog without a tip is rebuilt first -/
def ensureTip (call : ScanCall) : Asking P2CScanner Unit := do
  let s ← here
  match s.tip with
  | some _ => pure ()
  | none => rebuild call.database

/-- the wait for the mutex -/
def waitLock : ℕ → Asking P2CScanner Unit
  | 0 => pure ()
  | n + 1 => do
    ask
    waitLock n

/-- `scanP2CBounties` -/
def scanP2CBounties (call : ScanCall) : Asking P2CScanner Unit := do
  act fun s => { s with visited := [] }
  waitLock call.waits
  ask
  if call.initialBlockDownload then halt .no
  else do
    ensureTip call
    let s ← here
    match s.tip with
    | none => halt .exception
    | some tip => scanFrom tree undo call tip

/-! ## What a scanner knows -/

section
variable {P : Params} {tree : BlockTree} {undo : UndoRecords} {calm : Prop} {visited : List (COutPoint × CTxOut)}

/-- the catalog of a block, under a tip -/
def Holds (P : Params) (tree : BlockTree) (undo : UndoRecords) (visited : List (COutPoint × CTxOut))
    (tip : Option CBlockIndex) (b : CBlockIndex) (s : P2CScanner) : Prop :=
  ∃ m, UnspentAt P tree undo b m ∧ CatalogAt tip visited m s

/-- the catalog of a block that is recorded as the tip -/
def AtBlock (P : Params) (tree : BlockTree) (undo : UndoRecords) (visited : List (COutPoint × CTxOut))
    (b : CBlockIndex) (s : P2CScanner) : Prop := Holds P tree undo visited (some b) b s

/-- the catalog of the recorded tip, or an empty one -/
structure Sound (P : Params) (tree : BlockTree) (undo : UndoRecords) (s : P2CScanner) : Prop where
  blank : s.tip = none → s.bounties = .empty
  mirrors : ∀ b, s.tip = some b → ∃ m, UnspentAt P tree undo b m ∧ Mirrors s.bounties m

variable {R : Halt → P2CScanner → Prop} {X : P2CScanner → Prop} {call : ScanCall} {s : P2CScanner} {m m' : Utxos}
  {entries : List (COutPoint × Coin)} {target tip fork p b : CBlockIndex}

theorem AtBlock.sound (h : AtBlock P tree undo visited b s) : Sound P tree undo s := by
  obtain ⟨m, hm, htip, -, hmirrors⟩ := h
  refine ⟨fun hnone => ?_, fun b' hb' => ?_⟩
  · rw [hnone] at htip
    cases htip
  · rw [htip] at hb'
    exact ⟨m, some_inj.1 hb' ▸ hm, hmirrors⟩

/-- how an update ends early: after an exception the scanner is sound, otherwise the caller drops the catalog -/
def Broken (P : Params) (tree : BlockTree) (undo : UndoRecords) (calm : Prop)
    (visited : List (COutPoint × CTxOut)) (e : Halt) (s : P2CScanner) : Prop :=
  s.visited = visited ∧ ¬ calm ∧ (e = .exception → Sound P tree undo s)

theorem AtBlock.ask : Runs calm (AtBlock P tree undo visited b) ask (fun _ => AtBlock P tree undo visited b)
    (Broken P tree undo calm visited) := by
  apply Runs.ask
  intro e s hs hloud
  obtain ⟨m, -, -, hvisited, -⟩ := id hs
  exact ⟨hvisited, hloud, fun _ => hs.sound⟩

/-! ## One block -/

/-- An exception inside the try block leaves no tip and an empty catalog. -/
theorem guarded_runs {m : Asking P2CScanner Unit} {Y : P2CScanner → Prop}
    (h : Runs calm X m (fun _ => Y) (fun _ s => s.visited = visited ∧ ¬ calm)) :
    Runs calm X (guarded m) (fun _ => Y) (Broken P tree undo calm visited) := by
  refine Runs.recover h fun e => ?_
  cases e with
  | no =>
    apply Runs.halt
    intro s hs
    exact ⟨hs.1, hs.2, fun hexc => by cases hexc⟩
  | exception =>
    have hclear : Runs calm (fun s : P2CScanner => s.visited = visited ∧ ¬ calm) invalidate
        (fun _ s => Broken P tree undo calm visited .exception s) (Broken P tree undo calm visited) := by
      apply Runs.act
      intro s hs
      exact ⟨hs.1, hs.2, fun _ => ⟨fun _ => rfl, fun b hb => by cases hb⟩⟩
    exact Runs.bind hclear fun _ => Runs.halt fun s hs => hs

theorem setTip_runs {tip : Option CBlockIndex} :
    Runs calm (Holds P tree undo visited tip b) (setTip (some b)) (fun _ => AtBlock P tree undo visited b) R := by
  apply Runs.act
  intro s hs
  obtain ⟨m, hm, -, hvisited, hmirrors⟩ := hs
  exact ⟨m, hm, rfl, hvisited, hmirrors⟩

theorem applyUndo_runs (hm' : UnspentAt P tree undo b m') (hp : b.pprev = some p) :
    Runs calm (AtBlock P tree undo visited b) (applyUndo tree undo b) (fun _ => Holds P tree undo visited (some b) p)
      (Broken P tree undo calm visited) := by
  obtain ⟨m, u, hm, hstep⟩ := hm'.parent hp
  have hread : readBlockUndoAt undo b = some u := by
    rw [readBlockUndoAt, hp]
    exact hstep.record
  refine Runs.bind AtBlock.ask fun _ => Runs.bind AtBlock.ask fun _ => Runs.bind AtBlock.ask fun _ => ?_
  rw [hread]
  dsimp only
  rw [if_neg (not_not.2 hstep.length)]
  apply guarded_runs
  refine Runs.mono (applyP2CBountyBlock_disconnect (fun e s hs hloud => ⟨hs.2, hloud⟩) hstep) ?_
    (fun _ s hs => ⟨m, hm, hs⟩) fun e s hs => hs
  intro s hs
  obtain ⟨m₁, hm₁, hcatalog⟩ := hs
  rwa [hm'.unique hm₁]

theorem applyNew_runs (hm' : UnspentAt P tree undo b m') (hp : b.pprev = some p) :
    Runs calm (AtBlock P tree undo visited p) (applyNew tree b) (fun _ => Holds P tree undo visited (some p) b)
      (Broken P tree undo calm visited) := by
  obtain ⟨m, u, hm, hstep⟩ := hm'.parent hp
  refine Runs.bind AtBlock.ask fun _ => Runs.bind AtBlock.ask fun _ => ?_
  apply guarded_runs
  refine Runs.mono (applyP2CBountyBlock_connect (fun e s hs hloud => ⟨hs.2, hloud⟩) hstep hm.regular.2) ?_
    (fun _ s hs => ⟨m', hm', hs⟩) fun e s hs => hs
  intro s hs
  obtain ⟨m₁, hm₁, hcatalog⟩ := hs
  rwa [hm.unique hm₁]

/-! ## The way to the target -/

theorem undoLoop_runs {i fuel : ℕ} (hfuel : i < fuel) (hm : UnspentAt P tree undo b m) (hfork : b.above i = some fork) :
    Runs calm (AtBlock P tree undo visited b) (undoLoop tree undo fork fuel) (fun _ => AtBlock P tree undo visited fork)
      (Broken P tree undo calm visited) := by
  induction fuel generalizing i b m with
  | zero => omega
  | succ fuel ih =>
    apply Runs.here
    intro t ht
    obtain ⟨m₁, hm₁, htip, hcatalog⟩ := id ht
    rw [htip]
    dsimp only
    by_cases heq : b = fork
    · rw [if_pos heq]
      apply Runs.pure
      intro s hs
      rw [hs, ← heq]
      exact ht
    · rw [if_neg heq]
      cases i with
      | zero => exact absurd (some_inj.1 hfork) heq
      | succ i =>
        obtain ⟨p, hp, hfork⟩ := bind_eq_some_iff.1 hfork
        obtain ⟨m', u, hm', -⟩ := hm.parent hp
        refine Runs.bind (Runs.mono (applyUndo_runs hm hp) (fun s hs => hs ▸ ht) (fun _ s hs => hs) fun e s hs => hs)
          fun _ => ?_
        rw [hp]
        exact Runs.bind setTip_runs fun _ => ih (by omega) hm' hfork

/-- each block is valid, and stands on the one before it -/
def Climbs (P : Params) (tree : BlockTree) (undo : UndoRecords) (target : CBlockIndex) :
    CBlockIndex → List CBlockIndex → Prop
  | a, [] => a = target
  | a, b :: rest => b.pprev = some a ∧ (∃ m, UnspentAt P tree undo b m) ∧ Climbs P tree undo target b rest

theorem blocksAbove_climbs {i fuel : ℕ} (hfuel : i < fuel) (hm : UnspentAt P tree undo b m)
    (hfork : b.above i = some fork)
    {connected : List CBlockIndex} (hconnected : Climbs P tree undo target b connected) :
    ∃ blocks, blocksAbove fork fuel b connected = some blocks ∧ Climbs P tree undo target fork blocks := by
  induction fuel generalizing i b m connected with
  | zero => omega
  | succ fuel ih =>
    rw [blocksAbove]
    by_cases heq : b = fork
    · rw [if_pos heq]
      exact ⟨connected, rfl, heq ▸ hconnected⟩
    · rw [if_neg heq]
      cases i with
      | zero => exact absurd (some_inj.1 hfork) heq
      | succ i =>
        obtain ⟨p, hp, hfork⟩ := bind_eq_some_iff.1 hfork
        obtain ⟨m', u, hm', -⟩ := hm.parent hp
        rw [hp]
        exact ih (by omega) hm' hfork ⟨hp, ⟨m, hm⟩, hconnected⟩

/-- Up the blocks, one after the other. -/
theorem climb_runs (blocks : List CBlockIndex) (a : CBlockIndex) (hclimbs : Climbs P tree undo target a blocks) :
    Runs calm (AtBlock P tree undo visited a)
      (blocks.forM fun index => do
        applyNew tree index
        setTip (some index))
      (fun _ => AtBlock P tree undo visited target) (Broken P tree undo calm visited) := by
  induction blocks generalizing a with
  | nil =>
    cases hclimbs
    exact Runs.pure fun s hs => hs
  | cons b rest ih =>
    obtain ⟨hp, ⟨m, hm⟩, hclimbs⟩ := hclimbs
    exact Runs.bind (Runs.bind (applyNew_runs hm hp) fun _ => setTip_runs) fun _ => ih b hclimbs

/-- Down to the common ancestor and up to the target. -/
theorem moveTo_runs (hm : UnspentAt P tree undo tip m) (hm' : UnspentAt P tree undo target m')
    (hfork : CommonAncestor tip target fork) :
      Runs calm (AtBlock P tree undo visited tip) (moveTo tree undo tip target fork)
        (fun _ => AtBlock P tree undo visited target) (Broken P tree undo calm visited) := by
  obtain ⟨i, j, hi, hj⟩ := hfork
  have hilt := Nat.lt_succ_of_le (grown_graded.up_le hm.built.grown hi)
  have hjlt := Nat.lt_succ_of_le (grown_graded.up_le hm'.built.grown hj)
  have hnone : Climbs P tree undo target target [] := rfl
  obtain ⟨blocks, hblocks, hclimbs⟩ := blocksAbove_climbs hjlt hm' hj hnone
  refine Runs.bind (undoLoop_runs hilt hm hi) fun _ => ?_
  rw [hblocks]
  exact climb_runs blocks fork hclimbs

/-! ## Rebuilding -/

/-- the database holds what is unspent at its best block -/
def CursorOk (P : Params) (tree : BlockTree) (undo : UndoRecords) (cursor : CoinsCursor) : Prop :=
  ∀ b, cursor.bestBlock = some b → ∃ m, UnspentAt P tree undo b m ∧ ∀ o c, (o, c) ∈ cursor.entries ↔ m.lookup o = some c

/-- no tip, and nothing in the catalog -/
def Blank (visited : List (COutPoint × CTxOut)) (s : P2CScanner) : Prop :=
  s.tip = none ∧ s.bounties = .empty ∧ s.visited = visited

theorem Blank.sound (h : Blank visited s) : Sound P tree undo s where
  blank := fun _ => h.2.1
  mirrors := by
    intro b hb
    rw [h.1] at hb
    cases hb

theorem loadCoins_runs (hR : ∀ e s, X s → ¬ calm → R e s) (entries : List (COutPoint × Coin))
    (fresh : P2CBountyCatalog) : Runs calm X (loadCoins entries fresh)
    (fun r s => r = fresh.insertCanonical entries ∧ X s) R := by
  induction entries generalizing fresh with
  | nil => exact Runs.pure fun s hs => ⟨rfl, hs⟩
  | cons entry rest ih =>
    refine Runs.bind (Runs.ask hR) fun _ => Runs.bind (Runs.ask hR) fun _ => ?_
    exact ih (fresh.insertCanonical [entry])

theorem empty_insertCanonical_mirrors (h : ∀ o c, (o, c) ∈ entries ↔ m.lookup o = some c) :
    Mirrors (P2CBountyCatalog.empty.insertCanonical entries) m := by
  intro o
  rw [P2CBountyCatalog.insertCanonical_coins]
  by_cases ho : o ∈ (entries.filter fun e => isCanonicalP2COutput e.2.out).map Prod.fst
  · obtain ⟨c, hc, hlookup⟩ := lookup_inserts_of_mem ho P2CBountyCatalog.empty.coins
    obtain ⟨hmem, hcanonical⟩ := mem_filter.1 hc
    have hbounty : c.isBounty = true := hcanonical
    rw [hlookup, (h o c).1 hmem, filter_some_pos hbounty]
  · have hblank : P2CBountyCatalog.empty.coins.lookup o = none := Finmap.lookup_empty o
    rw [lookup_inserts_of_notMem ho, hblank]
    cases hc : m.lookup o with
    | none => rfl
    | some c =>
      have hbounty : c.isBounty = false := by
        rw [Bool.eq_false_iff]
        intro hcanonical
        exact ho (mem_map_of_mem (mem_filter.2 ⟨(h o c).2 hc, hcanonical⟩))
      rw [filter_some_neg hbounty]

theorem rebuild_runs {cursor : CoinsCursor} (hcursor : CursorOk P tree undo cursor) :
    Runs calm (Blank visited) (rebuild cursor)
      (fun _ s => ∃ b, cursor.bestBlock = some b ∧ AtBlock P tree undo visited b s)
        (fun _ s => Blank visited s ∧ (calm → cursor.bestBlock = none)) := by
  have hR : ∀ (e : Halt) s, Blank visited s → ¬ calm → Blank visited s ∧ (calm → cursor.bestBlock = none) :=
    fun _ s hs hloud => ⟨hs, fun hcalm => absurd hcalm hloud⟩
  refine Runs.bind (Runs.ask hR) fun _ =>
    Runs.bind (loadCoins_runs hR cursor.entries .empty) fun fresh => Runs.of_fact ?_
  intro hfresh
  cases hbest : cursor.bestBlock with
  | none =>
    apply Runs.halt
    intro s hs
    exact ⟨hs, fun _ => rfl⟩
  | some b =>
    obtain ⟨m, hm, hentries⟩ := hcursor b hbest
    apply Runs.act
    intro s hs
    refine ⟨b, rfl, m, hm, rfl, hs.2.2, ?_⟩
    dsimp only
    rw [hfresh]
    exact empty_insertCanonical_mirrors hentries

/-! ## One scan -/

/-- what a call finds is valid -/
structure CallOk (P : Params) (tree : BlockTree) (undo : UndoRecords) (call : ScanCall) : Prop where
  database : CursorOk P tree undo call.database
  target : ∀ b, call.target = some b → ∃ m, UnspentAt P tree undo b m
  databaseAfter : CursorOk P tree undo call.databaseAfter

/-- The update ends at the target, or where the catalog was rebuilt. -/
theorem updateCatalog_runs (hcall : CallOk P tree undo call) (hm : UnspentAt P tree undo tip m)
    (hm' : UnspentAt P tree undo target m') (hfork : CommonAncestor tip target fork) :
    Runs calm (AtBlock P tree undo visited tip) (updateCatalog tree undo call tip target fork)
      (fun _ s => ∃ b, (calm → b = target) ∧ AtBlock P tree undo visited b s)
      (fun _ s => Sound P tree undo s ∧ s.visited = visited ∧ ¬ calm) := by
  have hmove : Runs calm (AtBlock P tree undo visited tip) (moveTo tree undo tip target fork)
      (fun _ s => ∃ b, (calm → b = target) ∧ AtBlock P tree undo visited b s) (Broken P tree undo calm visited) :=
    Runs.mono (moveTo_runs hm hm' hfork) (fun s hs => hs) (fun _ s hs => ⟨target, fun _ => rfl, hs⟩) fun e s hs => hs
  refine Runs.recover hmove fun e => ?_
  cases e with
  | exception =>
    apply Runs.halt
    intro s hs
    exact ⟨hs.2.2 rfl, hs.1, hs.2.1⟩
  | no =>
    have hclear : Runs calm (Broken P tree undo calm visited .no) invalidate (fun _ s => ¬ calm ∧ Blank visited s)
        (fun _ s => Sound P tree undo s ∧ s.visited = visited ∧ ¬ calm) := by
      apply Runs.act
      intro s hs
      exact ⟨hs.2.1, rfl, rfl, hs.1⟩
    refine Runs.bind hclear fun _ => Runs.of_fact fun hloud => ?_
    have hend : ∀ (e : Halt) s, Blank visited s → Sound P tree undo s ∧ s.visited = visited ∧ ¬ calm :=
      fun _ s hs => ⟨hs.sound, hs.2.2, hloud⟩
    refine Runs.bind (Runs.ask fun e s hs _ => hend e s hs) fun _ => ?_
    refine Runs.mono (rebuild_runs hcall.databaseAfter) (fun s hs => hs) (fun _ s hs => ?_) fun e s hs => hend e s hs.1
    obtain ⟨b, -, hb⟩ := hs
    exact ⟨b, fun hcalm => absurd hcalm hloud, hb⟩

/-- what the visitor was given is in the catalog -/
def Reported (s : P2CScanner) : Prop :=
  ∀ e ∈ s.visited, ∃ coin, s.bounties.coins.lookup e.1 = some coin ∧ coin.out = e.2

theorem visitLoop_runs {t : P2CScanner} (visitor : COutPoint → CTxOut → Bool)
    (hentries : ∀ e ∈ entries, t.bounties.coins.lookup e.1 = some e.2) :
    Runs calm (fun s => s.tip = t.tip ∧ s.bounties = t.bounties ∧ Reported s) (visitLoop visitor entries)
      (fun _ s => s.tip = t.tip ∧ s.bounties = t.bounties ∧ Reported s)
      (fun _ s => (s.tip = t.tip ∧ s.bounties = t.bounties ∧ Reported s) ∧ ¬ calm) := by
  induction entries with
  | nil => exact Runs.pure fun s hs => hs
  | cons entry rest ih =>
    obtain ⟨outpoint, coin⟩ := entry
    obtain ⟨hcoin, hrest⟩ := forall_mem_cons.1 hentries
    refine Runs.bind (Runs.ask fun e s hs hloud => ⟨hs, hloud⟩) fun _ => ?_
    have hvisit : Runs calm (fun s => s.tip = t.tip ∧ s.bounties = t.bounties ∧ Reported s)
        (act fun s => { s with visited := s.visited ++ [(outpoint, coin.out)] })
        (fun _ s => s.tip = t.tip ∧ s.bounties = t.bounties ∧ Reported s)
        (fun _ s => (s.tip = t.tip ∧ s.bounties = t.bounties ∧ Reported s) ∧ ¬ calm) := by
      apply Runs.act
      intro s hs
      obtain ⟨htip, hbounties, hreported⟩ := hs
      refine ⟨htip, hbounties, fun e he => ?_⟩
      rcases mem_append.1 he with hold | hnew
      · exact hreported e hold
      · rw [mem_singleton.1 hnew]
        dsimp only
        rw [hbounties]
        exact ⟨coin, hcoin, rfl⟩
    refine Runs.bind hvisit fun _ => ?_
    split_ifs
    · exact ih hrest
    · exact Runs.pure fun s hs => hs

/-- how a scan ends: sound, and nothing was reported that is not in the catalog -/
def Ended (P : Params) (tree : BlockTree) (undo : UndoRecords) (s : P2CScanner) : Prop :=
  Sound P tree undo s ∧ Reported s

theorem Sound.ended (h : Sound P tree undo s) (hvisited : s.visited = []) : Ended P tree undo s := by
  refine ⟨h, fun e he => ?_⟩
  rw [hvisited] at he
  cases he

theorem report_runs (call : ScanCall) :
    Runs calm (AtBlock P tree undo [] b) (report call) (fun _ s => Ended P tree undo s ∧ s.tip = some b)
      (fun _ s => Ended P tree undo s ∧ ¬ calm) := by
  apply Runs.here
  intro t ht
  obtain ⟨m, hm, htip, hvisited, hmirrors⟩ := id ht
  have hended := ht.sound.ended hvisited
  have hkeep : ∀ s : P2CScanner, s.tip = t.tip ∧ s.bounties = t.bounties ∧ Reported s → Ended P tree undo s := by
    intro s hs
    refine ⟨⟨fun hnone => ?_, fun b' hb' => ?_⟩, hs.2.2⟩
    · rw [hs.2.1]
      exact ht.sound.blank (hs.1 ▸ hnone)
    · rw [hs.2.1]
      exact ht.sound.mirrors b' (hs.1 ▸ hb')
  rw [htip]
  refine Runs.bind (Runs.mono (snapshot_runs calm t _) (fun s hs => hs) (fun _ s hs => And.symm hs) ?_)
    fun snap => Runs.of_fact ?_
  · intro e s hs
    rw [hs.1]
    exact ⟨hended, hs.2⟩
  · intro hsnap
    have hentries : ∀ e ∈ inOrder snap, t.bounties.coins.lookup e.1 = some e.2 := by
      intro e he
      obtain ⟨o, -, ho⟩ := mem_filterMap.1 he
      obtain ⟨coin, hcoin, rfl⟩ := map_eq_some_iff.1 ho
      exact ((hsnap o coin).1 hcoin).1
    refine Runs.mono (visitLoop_runs call.visitor hentries) ?_ (fun _ s hs => ⟨hkeep s hs, hs.1.trans htip⟩)
      fun e s hs => ⟨hkeep s hs.1, hs.2⟩
    intro s hs
    rw [hs]
    exact ⟨rfl, rfl, hended.2⟩

/-- where a scan that nothing stops ends -/
def CallComplete (call : ScanCall) (b : CBlockIndex) : Prop :=
  call.initialBlockDownload = false ∧ call.target = some b ∧ call.database.bestBlock.isSome = true

theorem scanFrom_runs (hcall : CallOk P tree undo call) :
    Runs calm (AtBlock P tree undo [] tip) (scanFrom tree undo call tip)
      (fun _ s => Ended P tree undo s ∧ (calm → s.tip = call.target))
      (fun _ s => Ended P tree undo s ∧ (calm → call.target = none)) := by
  unfold scanFrom
  cases htarget : call.target with
  | none =>
    apply Runs.halt
    intro s hs
    obtain ⟨m, hm, htip, hvisited, -⟩ := id hs
    exact ⟨hs.sound.ended hvisited, fun _ => rfl⟩
  | some target =>
    obtain ⟨m', hm'⟩ := hcall.target target htarget
    apply Runs.of_exists
    intro m
    apply Runs.of_fact
    intro hm
    obtain ⟨fork, hfork, hcommon, -⟩ := lastCommonAncestor_eq hm.built.grown hm'.built.grown (by rw [hm.root, hm'.root])
    dsimp only
    rw [hfork]
    refine Runs.bind (Runs.mono (updateCatalog_runs hcall hm hm' hcommon) (fun s hs => ⟨m, hm, hs⟩)
      (fun _ s hs => hs) ?_) fun _ => ?_
    · intro e s hs
      exact ⟨hs.1.ended hs.2.1, fun hcalm => absurd hcalm hs.2.2⟩
    · apply Runs.of_exists
      intro b
      apply Runs.of_fact
      intro hb
      refine Runs.mono (report_runs call) (fun s hs => hs) ?_ ?_
      · intro _ s hs
        exact ⟨hs.1, fun hcalm => by rw [hs.2, hb hcalm]⟩
      · intro e s hs
        exact ⟨hs.1, fun hcalm => absurd hcalm hs.2⟩

theorem ensureTip_runs (hcall : CallOk P tree undo call) :
    Runs calm (fun s => Sound P tree undo s ∧ s.visited = []) (ensureTip call)
      (fun _ s => ∃ b, AtBlock P tree undo [] b s)
        (fun _ s => Ended P tree undo s ∧ (calm → call.database.bestBlock = none)) := by
  apply Runs.here
  intro t ht
  cases htip : t.tip with
  | some b =>
    apply Runs.pure
    intro s hs
    obtain ⟨m, hm, hmirrors⟩ := ht.1.mirrors b htip
    rw [hs]
    exact ⟨b, m, hm, htip, ht.2, hmirrors⟩
  | none =>
    have hblank : Blank [] t := ⟨htip, ht.1.blank htip, ht.2⟩
    refine Runs.mono (rebuild_runs hcall.database) (fun s hs => hs ▸ hblank) ?_ ?_
    · intro _ s hs
      obtain ⟨b, -, hb⟩ := hs
      exact ⟨b, hb⟩
    · intro e s hs
      exact ⟨hs.1.sound.ended hs.1.2.2, hs.2⟩

theorem waitLock_runs (hR : ∀ e s, X s → ¬ calm → R e s) (n : ℕ) : Runs calm X (waitLock n) (fun _ => X) R := by
  induction n with
  | zero => exact Runs.pure fun s hs => hs
  | succ n ih => exact Runs.bind (Runs.ask hR) fun _ => ih

/-- A scan, whatever it is answered; if nothing stops it, it ends at the active tip. -/
theorem scan_sound (calm : Prop) (hcall : CallOk P tree undo call) :
    Runs calm (Sound P tree undo) (scanP2CBounties tree undo call)
      (fun _ s => Ended P tree undo s ∧ (calm → s.tip = call.target))
        (fun _ s => Ended P tree undo s ∧ (calm → ∀ b, ¬ CallComplete call b)) := by
  have hR : ∀ (e : Halt) (s : P2CScanner), Sound P tree undo s ∧ s.visited = [] → ¬ calm →
      Ended P tree undo s ∧ (calm → ∀ b, ¬ CallComplete call b) :=
    fun e s hs hloud => ⟨hs.1.ended hs.2, fun hcalm => absurd hcalm hloud⟩
  have hstart : Runs calm (Sound P tree undo) (act fun s => { s with visited := [] })
      (fun _ s => Sound P tree undo s ∧ s.visited = [])
        (fun _ s => Ended P tree undo s ∧ (calm → ∀ b, ¬ CallComplete call b)) := by
    apply Runs.act
    intro s hs
    exact ⟨⟨hs.blank, hs.mirrors⟩, rfl⟩
  refine Runs.bind hstart fun _ => Runs.bind (waitLock_runs hR call.waits) fun _ => Runs.bind (Runs.ask hR) fun _ => ?_
  split_ifs with hibd
  · apply Runs.halt
    intro s hs
    refine ⟨hs.1.ended hs.2, fun _ b hb => ?_⟩
    rw [hb.1] at hibd
    cases hibd
  · refine Runs.bind (Runs.mono (ensureTip_runs hcall) (fun s hs => hs) (fun _ s hs => hs) ?_) fun _ => Runs.here ?_
    · intro e s hs
      refine ⟨hs.1, fun hcalm b hb => ?_⟩
      have hsome := hb.2.2
      rw [hs.2 hcalm] at hsome
      cases hsome
    · intro t ht
      obtain ⟨b, hb⟩ := ht
      obtain ⟨m, hm, htip, -⟩ := id hb
      rw [htip]
      refine Runs.mono (scanFrom_runs hcall) (fun s hs => hs ▸ hb) (fun _ s hs => hs) ?_
      intro e s hs
      refine ⟨hs.1, fun hcalm b' hb' => ?_⟩
      have hnone := hs.2 hcalm
      rw [hb'.2.1] at hnone
      cases hnone

/-! ## Every sequence of scans -/

/-- before the first scan -/
def blankScanner : P2CScanner := ⟨none, .empty, []⟩

/-- the scans, one after the other, each with its answers -/
def runScans (tree : BlockTree) (undo : UndoRecords) (calls : List (ScanCall × List Answer)) : P2CScanner :=
  calls.foldl (fun s c => (scanP2CBounties tree undo c.1 (s, c.2)).2.1) blankScanner

theorem runScans_sound {calls : List (ScanCall × List Answer)} (hcalls : ∀ c ∈ calls, CallOk P tree undo c.1) :
    Sound P tree undo (runScans tree undo calls) := by
  have hfrom : ∀ s, Sound P tree undo s →
      Sound P tree undo (calls.foldl (fun s c => (scanP2CBounties tree undo c.1 (s, c.2)).2.1) s) := by
    induction calls with
    | nil => exact fun s hs => hs
    | cons c calls ih =>
      intro s hs
      obtain ⟨hc, hcalls⟩ := forall_mem_cons.1 hcalls
      obtain ⟨-, hend⟩ := scan_sound False hc (s, c.2) hs (fun hfalse => hfalse.elim)
      apply ih hcalls
      cases hr : (scanP2CBounties tree undo c.1 (s, c.2)).1 with
      | ok a =>
        rw [hr] at hend
        exact hend.1.1
      | error e =>
        rw [hr] at hend
        exact hend.1.1
  exact hfrom blankScanner ⟨fun _ => rfl, fun b hb => by cases hb⟩

/-- the catalog of a scanner is exactly the canonical part of m, in both indexes and in every snapshot -/
structure Exact (s : P2CScanner) (m : Utxos) : Prop where
  entries : ∀ o coin, s.bounties.coins.lookup o = some coin ↔ m.lookup o = some coin ∧
    isCanonicalP2COutput coin.out = true
  heights : ∀ h o, o ∈ (s.bounties.byHeight.lookup h).getD ∅ ↔ ∃ coin, s.bounties.coins.lookup o = some coin ∧
    coin.nHeight = h
  snapshots : ∀ h answers snap t, snapshot h (s, answers) = (.ok snap, t) →
    ∀ o coin, snap.lookup o = some coin ↔ s.bounties.coins.lookup o = some coin ∧ h ≤ coin.nHeight
  taken : ∀ h answers, Quiet answers → ∃ snap t, snapshot h (s, answers) = (.ok snap, t)

theorem exact_of_mirrors (h : Mirrors s.bounties m) : Exact s m where
  entries := by
    intro o coin
    rw [h o, filter_eq_some_iff]
    rfl
  heights := s.bounties.indexed.same
  snapshots := by
    intro height answers snap t hsnap
    obtain ⟨-, hend⟩ := snapshot_runs False s height (s, answers) rfl (fun hfalse => hfalse.elim)
    rw [hsnap] at hend
    exact hend.2
  taken := by
    intro height answers hquiet
    obtain ⟨-, hend⟩ := snapshot_runs True s height (s, answers) rfl (fun _ => hquiet)
    cases hr : snapshot height (s, answers) with
    | mk r t =>
      rw [hr] at hend
      cases r with
      | ok snap => exact ⟨snap, t, rfl⟩
      | error e => exact absurd trivial hend.2

/-- After every sequence of scans over a tree of valid blocks, each with any active tip, any rebuilt database and any
answers, a scan leaves exactly the canonical outputs that are unspent at the recorded tip, or nothing at all. What it
reports is in the catalog it leaves, and if nothing stops it, it ends at the active tip. -/
theorem bounty_catalog_mirrors_utxo (calls : List (ScanCall × List Answer))
    (hcalls : ∀ c ∈ calls, CallOk P tree undo c.1) (call : ScanCall) (hcall : CallOk P tree undo call)
    (answers : List Answer) (r : Except Halt Unit) (s : P2CScanner)
    (left : List Answer) (hscan : scanP2CBounties tree undo call (runScans tree undo calls, answers) = (r, s, left)) :
    (∀ b, s.tip = some b → ∃ m, UnspentAt P tree undo b m ∧ Exact s m) ∧ (s.tip = none → s.bounties = .empty) ∧
    (∀ e ∈ s.visited, ∃ coin, s.bounties.coins.lookup e.1 = some coin ∧ coin.out = e.2) ∧
    (Quiet answers → ∀ b, CallComplete call b → r = .ok () ∧ s.tip = some b) := by
  obtain ⟨-, hend⟩ := scan_sound (Quiet answers) hcall (runScans tree undo calls, answers) (runScans_sound hcalls) id
  rw [hscan] at hend
  have hended : Ended P tree undo s := by
    cases r with
    | ok a => exact hend.1
    | error e => exact hend.1
  refine ⟨fun b hb => ?_, hended.1.blank, hended.2, fun hquiet b hb => ?_⟩
  · obtain ⟨m, hm, hmirrors⟩ := hended.1.mirrors b hb
    exact ⟨m, hm, exact_of_mirrors hmirrors⟩
  · cases r with
    | ok a => exact ⟨rfl, (hend.2 hquiet).trans hb.2.1⟩
    | error e => exact absurd hb (hend.2 hquiet b)

end

end

/-! ## Two blocks with bounties -/

section
attribute [local instance] toyCrypto

/-- a coinbase that pays one bounty -/
def bountyCoinbase (version : UInt32) : CTransaction := coinbaseOf sampleP2COutput version rfl

def bountyBlock (prev : Uint256) (version : UInt32) : CBlock :=
  ⟨⟨1, prev, (bountyCoinbase version).getHash, 0, 0, 0⟩, [bountyCoinbase version], false, false, false⟩

def bountyGenesis : CBlock := bountyBlock Uint256.null 2

def bountyNext : CBlock := bountyBlock bountyGenesis.header.getHash 3

def bountyTree : BlockTree where
  genesis := bountyGenesis.header
  body b := if b.nHeight = 0 then bountyGenesis else bountyNext
  honest := by
    intro b h
    split_ifs at h
    · cases h
    · cases h

def bountyRoot : CBlockIndex := bountyTree.root

def bountyTip : CBlockIndex := bountyRoot.child bountyNext.header

/-- the mainnet parameters, with the genesis block of the tree -/
def bountyParams : Params := { mainParams with hashGenesisBlock := bountyTree.genesis.getHash }

/-- the bounty of a block -/
def bountyEntry (version : UInt32) (nHeight : ℕ) : COutPoint × Coin :=
  outputCoin (bountyCoinbase version) nHeight (sampleP2COutput, 0)

/-- a scan with an active tip, and the database of the genesis block -/
def bountyScan (tip : CBlockIndex) : ScanCall where
  waits := 0
  initialBlockDownload := false
  database := ⟨[bountyEntry 2 0], some bountyRoot⟩
  target := some tip
  databaseAfter := ⟨[], none⟩
  recentBlocks := 0
  visitor := fun _ _ => true

theorem bountyTree_unspent : ∃ undo m m', UnspentAt bountyParams bountyTree undo bountyRoot m ∧
    UnspentAt bountyParams bountyTree undo bountyTip m' ∧ (∀ o c, (o, c) ∈ [bountyEntry 2 0] ↔ m.lookup o = some c) ∧
    m'.lookup (bountyEntry 3 1).1 = some (bountyEntry 3 1).2 := by
  obtain ⟨⟨view, record⟩, hgenesis⟩ : ∃ r, bountyTree.connectRoot bountyParams plainEnv = .ok r :=
    exists_ok (by decide +kernel)
  have hnext : (bountyTree.connectRoot bountyParams plainEnv).toOption.any
      (fun r => (bountyTree.connect bountyParams plainEnv bountyTip r.1 none).toOption.any
      fun r' => r'.1.coins.lookup (bountyEntry 3 1).1 = some (bountyEntry 3 1).2) = true := by
    decide +kernel
  rw [hgenesis] at hnext
  simp only [Except.toOption, Option.any_some] at hnext
  cases hconnect : bountyTree.connect bountyParams plainEnv bountyTip view none with
  | error e => simp [hconnect] at hnext
  | ok r' =>
    simp only [hconnect, Option.any_some, decide_eq_true_eq] at hnext
    have hcreated : createdCoins (bountyCoinbase 2) 0 = [bountyEntry 2 0] := by decide +kernel
    have hentries : ∀ o c, (o, c) ∈ [bountyEntry 2 0] ↔ view.coins.lookup o = some c := by
      intro o c
      have hspendable : bountyParams.genesisCoinbaseSpendable = true := rfl
      rw [(genesis_coins hgenesis).1, if_pos hspendable]
      change _ ↔ (inserts (createdCoins (bountyCoinbase 2) 0) ∅).lookup o = some c
      rw [hcreated, mem_singleton]
      change _ ↔ (Finmap.insert (bountyEntry 2 0).1 (bountyEntry 2 0).2 (∅ : Utxos)).lookup o = some c
      by_cases ho : o = (bountyEntry 2 0).1
      · rw [ho, Finmap.lookup_insert, Prod.ext_iff, some_inj]
        exact ⟨fun h => h.2.symm, fun h => ⟨rfl, h.symm⟩⟩
      · rw [Finmap.lookup_insert_of_ne _ ho, Prod.ext_iff]
        exact ⟨fun h => absurd h.1 ho, fun h => by cases h⟩
    have hroot : UnspentAt bountyParams bountyTree (fun _ => r'.2) bountyRoot view.coins :=
      .genesis plainEnv rfl hgenesis
    refine ⟨_, _, _, hroot, .child hroot plainEnv _ rfl (by decide) (by decide +kernel) hconnect ⟨fun o c hc => ?_,
      trivial⟩, hentries, hnext⟩
    obtain ⟨rfl, -⟩ := Prod.ext_iff.1 (mem_singleton.1 ((hentries o c).2 hc))
    decide +kernel

/-- A scan at the genesis block, one that applies the next block and one that undoes it. -/
theorem bounties_mirrored : ∃ undo s s' left left', scanP2CBounties bountyTree undo (bountyScan bountyTip)
      (runScans bountyTree undo [(bountyScan bountyRoot, [])], []) = (.ok (), s, left) ∧ s.tip = some bountyTip ∧
    s.bounties.coins.lookup (bountyEntry 3 1).1 = some (bountyEntry 3 1).2 ∧
    scanP2CBounties bountyTree undo (bountyScan bountyRoot)
      (runScans bountyTree undo [(bountyScan bountyRoot, []), (bountyScan bountyTip, [])], []) = (.ok (), s', left') ∧
    s'.tip = some bountyRoot ∧ ∀ o c, s'.bounties.coins.lookup o = some c ↔ (o, c) = bountyEntry 2 0 := by
  obtain ⟨undo, m, m', hm, hm', hentries, hnext⟩ := bountyTree_unspent
  have hcall : ∀ tip m, UnspentAt bountyParams bountyTree undo tip m →
      CallOk bountyParams bountyTree undo (bountyScan tip) := by
    intro tip m₁ htip
    refine ⟨fun b hb => ?_, fun b hb => ?_, fun b hb => by cases hb⟩
    · cases hb
      exact ⟨m, hm, hentries⟩
    · cases hb
      exact ⟨m₁, htip⟩
  have hends : ∀ calls, (∀ c ∈ calls, CallOk bountyParams bountyTree undo c.1) → ∀ tip m,
      UnspentAt bountyParams bountyTree undo tip m → ∃ s left, scanP2CBounties bountyTree undo (bountyScan tip)
        (runScans bountyTree undo calls, []) = (.ok (), s, left) ∧ s.tip = some tip ∧ Exact s m := by
    intro calls hcalls tip m htip
    obtain ⟨hmirrors, -, -, hends⟩ := bounty_catalog_mirrors_utxo calls hcalls _ (hcall tip m htip) [] _ _ _ rfl
    obtain ⟨hok, hat⟩ := hends (forall_mem_nil _) tip ⟨rfl, rfl, rfl⟩
    obtain ⟨m', hm', hexact⟩ := hmirrors tip hat
    exact ⟨_, _, Prod.ext hok rfl, hat, htip.unique hm' ▸ hexact⟩
  obtain ⟨s, left, hscan, htip, hexact⟩ :=
    hends [(bountyScan bountyRoot, [])] (forall_mem_singleton.2 (hcall _ _ hm)) _ _ hm'
  obtain ⟨s', left', hscan', htip', hexact'⟩ :=
    hends [(bountyScan bountyRoot, []), (bountyScan bountyTip, [])]
      (forall_mem_cons.2 ⟨hcall _ _ hm, forall_mem_singleton.2 (hcall _ _ hm')⟩) _ _ hm
  refine ⟨undo, s, s', left, left', hscan, htip, (hexact.entries _ _).2 ⟨hnext, by decide +kernel⟩, hscan', htip', ?_⟩
  intro o c
  rw [hexact'.entries, ← hentries, mem_singleton]
  refine ⟨And.left, fun h => ⟨h, ?_⟩⟩
  obtain ⟨-, rfl⟩ := Prod.ext_iff.1 h
  decide +kernel

end

end ConnectCoin.BountyScan
