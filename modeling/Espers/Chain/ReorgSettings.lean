import Espers.Chain.Simnet

/-!
# The settings of a reorganisation

`BLOCK_REORG_OVERRIDE_DEPTH`, `BLOCK_REORG_THRESHOLD` and `PEER_REORG_TYPE` are `static` variables
of a header, so that every translation unit has its own: `init.cpp` reads the settings into its
copies, `Reorganize` looks at those of `main.cpp`, `RollingCheckpoints` at those of `velocity.cpp`.

* `reorganizeWith_initial` : with the initial values `reorganizeWith` is `reorganize`.
* `Process.Later.statics` : nothing after the start changes a copy.
* `reorgSettings_applied_iff` : **the settings are applied exactly when they are the defaults**.
-/

namespace Espers

open Exec

/-! ### One copy of the variables -/

/-- The copies that one translation unit has. -/
structure ReorgStatics where
  blockReorgOverrideDepth : ℤ
  blockReorgThreshold : ℤ
  peerReorgType : ℤ
  deriving DecidableEq

/-- The values that `main.h` gives them. -/
def ReorgStatics.initial : ReorgStatics where
  blockReorgOverrideDepth := 0
  blockReorgThreshold := blockReorgMaxDepth + 0
  peerReorgType := 0

/-! ### The functions that look at them -/

/-- `RollingCheckpoints`, in a unit with the copies `s`. -/
def rollingCheckpointsWith (s : ReorgStatics) (nHeight : ℤ) (pindexRequest : Uint256) : Node Bool :=
  if nHeight < 5000 then pure false
  else do
    let current ← deref (some pindexRequest)
    let w ← get
    let past := nHeight - (blockTempCheckpointDepth + s.blockReorgThreshold)
    let e ← deref (rollBack w.mapBlockIndex current.nHeight
      ((current.nHeight - past).toNat + 1) past pindexRequest)
    modify fun w => { w with rollingBlock := e.hashBlock, rollingHeight := e.nHeight }
    pure true

/-- The direction and depth checks of `Reorganize`, in a unit with the copies `s`. -/
def checkMergeWith (s : ReorgStatics) (ctx : Ctx) (fRollBackCall : Bool) (m : MergeShape) :
    Except Stop ℤ := do
  rejectIf (m.fMergeReverse ∧ ¬ authorized ctx fRollBackCall ∧ s.peerReorgType ≠ 1)
    (.error "Reorganize() : Denied a reverse-reorganize - Not authorized!")
  if m.nMergeDepth > blockReorgMaxDepth then
    if authorized ctx fRollBackCall then
      if m.nMergeDepth > s.blockReorgThreshold then
        if fRollBackCall then .ok (ctx.nNewHeight - 1)
        else .error (.error "Reorganize() : Threshold depth exceeded")
      else .ok (m.nReorgMax - s.blockReorgOverrideDepth)
    else .error (.error "Reorganize() : Maximum depth exceeded")
  else if !ctx.fDemiPeerRelay && ctx.fDemiNodes && !ctx.fDemiSelf then
    .error (.error "Reorganize() : Not toggled self as a Demi-node")
  else .ok m.nReorgMax

/-- `planReorganize`, with the copies of `main.cpp` and of `velocity.cpp`. -/
def planReorganizeWith (main velocity : ReorgStatics) (ctx : Ctx) (pindexNew : Uint256) :
    Node ReorgPlan := do
  let w ← get
  let pindexBest := w.pindexBest.getD 0
  let best ← bestIndex
  let new ← deref (some pindexNew)
  modify fun w => { w with fRollbacktoBlock := false }
  let shape := mergeShape best new
  let nReorgMax ← lift (checkMergeWith main ctx w.fRollbacktoBlock shape)
  let fRollingCheckpoint ← rollingCheckpointsWith velocity shape.nHeightShorter pindexBest
  modify fun w => { w with fRollingCheckpoint := fRollingCheckpoint }
  lift (rejectIf (¬ fRollingCheckpoint)
    (.error "Reorganize() : Chain quality failed, blockheight is invalid"))
  let w ← get
  lift (checkQuality w new pindexNew)
  let pfork ← lift (findFork w.mapBlockIndex (best.nHeight + new.nHeight + 2) pindexBest pindexNew)
  let fork ← deref (some pfork)
  lift (rejectIf (¬ bIndexFactor fork fork) (.error "Reorganize() : Invalid branch coin supply"))
  let vDisconnect ← branchAbove w pfork pindexBest
  let vConnect ← branchAbove w pfork pindexNew
  pure ⟨pfork, vDisconnect, vConnect.reverse, nReorgMax⟩

/-- `switchBranch`, with the copies of `main.cpp` and of `velocity.cpp`. -/
def switchBranchWith (main velocity : ReorgStatics) (E : Env) (ctx : Ctx) (pindexNew : Uint256) :
    Node (ReorgPlan × List CTransaction × List CTransaction) := do
  let plan ← planReorganizeWith main velocity ctx pindexNew
  let vResurrect ← disconnectBranch E ctx plan.nReorgMax plan.vDisconnect []
  let vDelete ← connectBranch E ctx plan.vConnect []
  let new ← deref (some pindexNew)
  modifyDb fun txdb => txdb.writeHashBestChain new.hashBlock
  pure (plan, vResurrect, vDelete)

/-- `Reorganize`, with the copies of `main.cpp` and of `velocity.cpp`. -/
def reorganizeWith (main velocity : ReorgStatics) (E : Env) (ctx : Ctx) (pindexNew : Uint256) :
    Node Unit := do
  let (plan, vResurrect, vDelete) ← switchBranchWith main velocity E ctx pindexNew
  txnCommit ctx (.error "Reorganize() : TxnCommit failed")
  modify fun w => w.relink plan.vDisconnect plan.vConnect
  resurrect E ctx vResurrect
  deleteFromPool E vDelete

theorem rollingCheckpointsWith_initial : rollingCheckpointsWith .initial = rollingCheckpoints := rfl

variable {ctx : Ctx}

theorem checkMergeWith_initial (h : ctx.peerReorgType = 0) :
    checkMergeWith .initial ctx = checkMerge ctx := by
  unfold checkMerge
  rw [h]
  rfl

theorem planReorganizeWith_initial (h : ctx.peerReorgType = 0) :
    planReorganizeWith .initial .initial ctx = planReorganize ctx := by
  unfold planReorganizeWith
  rw [checkMergeWith_initial h, rollingCheckpointsWith_initial]
  rfl

theorem reorganizeWith_initial (E : Env) (h : ctx.peerReorgType = 0) :
    reorganizeWith .initial .initial E ctx = reorganize E ctx := by
  unfold reorganizeWith switchBranchWith
  rw [planReorganizeWith_initial h]
  rfl

/-! ### Reading the settings -/

/-- `isspace` in the C locale. -/
def isSpace (c : Char) : Bool := c = ' ' || (9 ≤ c.toNat && c.toNat ≤ 13)

/-- The value of the decimal digits that a text begins with. -/
def leadingDigits (text : List Char) : ℕ :=
  (text.takeWhile Char.isDigit).foldl (fun n c => 10 * n + (c.toNat - 48)) 0

/-- `std::istringstream(text) >> n` for an `int n` that is `0`: what has no digits leaves `0`, and a
number that does not fit becomes the nearest one that does. -/
def streamInt (text : List Char) : ℤ :=
  let n : ℤ :=
    match text.dropWhile isSpace with
    | '-' :: rest => -(leadingDigits rest : ℤ)
    | '+' :: rest => leadingDigits rest
    | rest => leadingDigits rest
  max (-2 ^ 31) (min (2 ^ 31 - 1) n)

/-- The arguments on Demi-nodes; an argument that is not given is the empty text. -/
structure DemiArgs where
  deminodes : Bool
  demimaxdepth : List Char
  demireorgtype : List Char

/-- `BLOCK_REORG_OVERRIDE_DEPTH` as `AppInit2` reads it. -/
def DemiArgs.overrideDepth (args : DemiArgs) : ℤ :=
  if args.demimaxdepth = [] then 0 else streamInt args.demimaxdepth

/-- `PEER_REORG_TYPE` as `AppInit2` reads it. -/
def DemiArgs.reorganizeType (args : DemiArgs) : ℤ :=
  if args.demireorgtype = [] then 0 else streamInt args.demireorgtype

/-- `AppInit2` reads `-demimaxdepth`. -/
def readOverrideDepth (strOverrideDepth : List Char) (s : ReorgStatics) :
    Except String ReorgStatics :=
  if strOverrideDepth = [] then .ok s
  else
    let s := { s with blockReorgOverrideDepth := streamInt strOverrideDepth }
    if s.blockReorgOverrideDepth = 0 then .ok s
    else if s.blockReorgOverrideDepth < 0 then
      .error "Invalid Demi-node depth override, selected value must be higher than Zero!\n"
    else .ok { s with blockReorgThreshold := blockReorgMaxDepth + s.blockReorgOverrideDepth }

/-- `AppInit2` reads `-demireorgtype`. -/
def readReorganizeType (strReorganizeType : List Char) (s : ReorgStatics) :
    Except String ReorgStatics :=
  if strReorganizeType = [] then .ok s
  else
    let s := { s with peerReorgType := streamInt strReorganizeType }
    if s.peerReorgType = 0 then .ok s
    else if s.peerReorgType < 0 ∨ s.peerReorgType > 1 then
      .error "Invalid Demi-node reorganize peer type selected, value must be either 0 or 1\n"
    else .ok s

/-- What `AppInit2` does to the copies of `init.cpp`. -/
def readDemiSettings (args : DemiArgs) (s : ReorgStatics) : Except String ReorgStatics :=
  if args.deminodes then do
    let s ← readOverrideDepth args.demimaxdepth s
    readReorganizeType args.demireorgtype s
  else .ok s

/-- The program: the copies of the three units and the globals they share. -/
structure Process where
  init : ReorgStatics
  main : ReorgStatics
  velocity : ReorgStatics
  world : World

/-- `AppInit2`, from where it reads the settings on Demi-nodes; every copy has its initial value. -/
def appInit2 (args : DemiArgs) (w : World) : Except String Process := do
  let init ← readDemiSettings args .initial
  .ok { init := init, main := .initial, velocity := .initial, world := w }

/-! ### After the start -/

/-- What the program does later: reorganisations, and anything else, which changes no copy. -/
inductive Process.Later (E : Env) (p : Process) : Process → Prop
  | start : Later E p p
  | reorganize {q : Process} (ctx : Ctx) (pindexNew : Uint256) : Later E p q →
      Later E p { q with world :=
        match reorganizeWith q.main q.velocity E ctx pindexNew q.world with
        | .ok _ w => w
        | .error _ w => w }
  | elsewhere {q : Process} (w : World) : Later E p q → Later E p { q with world := w }

theorem Process.Later.statics {E : Env} {p q : Process} (h : p.Later E q) :
    q.init = p.init ∧ q.main = p.main ∧ q.velocity = p.velocity := by
  induction h with
  | start => exact ⟨rfl, rfl, rfl⟩
  | reorganize ctx pindexNew _ ih => exact ih
  | elsewhere w _ ih => exact ih

/-- The settings asked for. -/
def DemiArgs.settings (args : DemiArgs) : ReorgStatics where
  blockReorgOverrideDepth := args.overrideDepth
  blockReorgThreshold :=
    if 0 < args.overrideDepth then blockReorgMaxDepth + args.overrideDepth else blockReorgMaxDepth
  peerReorgType := args.reorganizeType

/-- The checks of a reorganisation are those of a program whose settings are `s`, whoever asks for
whatever fork. -/
structure Process.Applies (q : Process) (s : ReorgStatics) : Prop where
  merge : ∀ (ctx : Ctx) (fRollBackCall : Bool) (m : MergeShape), ctx.fDemiNodes = true →
    checkMergeWith q.main ctx fRollBackCall m = checkMergeWith s ctx fRollBackCall m
  rolling : ∀ (nHeight : ℤ) (pindexRequest : Uint256),
    rollingCheckpointsWith q.velocity nHeight pindexRequest =
      rollingCheckpointsWith s nHeight pindexRequest

variable {args : DemiArgs} {s : ReorgStatics}

theorem readOverrideDepth_eq_ok (h : readOverrideDepth args.demimaxdepth .initial = .ok s) :
    0 ≤ args.overrideDepth ∧ s = { args.settings with peerReorgType := 0 } := by
  unfold readOverrideDepth at h
  dsimp only at h
  split_ifs at h with hempty hzero hneg
  · have hd : args.overrideDepth = 0 := if_pos hempty
    cases h
    exact ⟨by omega, by simp [DemiArgs.settings, hd, ReorgStatics.initial]⟩
  · have hd : args.overrideDepth = 0 := (if_neg hempty).trans hzero
    cases h
    exact ⟨by omega, by simp [DemiArgs.settings, hd, hzero, ReorgStatics.initial]⟩
  · have hd : args.overrideDepth = streamInt args.demimaxdepth := if_neg hempty
    have hpos : 0 < args.overrideDepth := by omega
    cases h
    exact ⟨hpos.le, by simp [DemiArgs.settings, hpos, ← hd, ReorgStatics.initial]⟩

theorem readReorganizeType_eq_ok {s s' : ReorgStatics} (hs : s.peerReorgType = 0)
    (h : readReorganizeType args.demireorgtype s = .ok s') :
    (args.reorganizeType = 0 ∨ args.reorganizeType = 1) ∧
      s' = { s with peerReorgType := args.reorganizeType } := by
  unfold readReorganizeType at h
  unfold DemiArgs.reorganizeType
  dsimp only at h
  split_ifs at h ⊢ with hempty hzero hrange
  · cases h
    exact ⟨Or.inl rfl, by rw [← hs]⟩
  · cases h
    exact ⟨Or.inl hzero, rfl⟩
  · cases h
    exact ⟨Or.inr (by omega), rfl⟩

theorem readDemiSettings_eq_ok (hon : args.deminodes = true)
    (h : readDemiSettings args .initial = .ok s) :
    0 ≤ args.overrideDepth ∧ (args.reorganizeType = 0 ∨ args.reorganizeType = 1) ∧
      s = args.settings := by
  unfold readDemiSettings at h
  rw [if_pos hon] at h
  obtain ⟨s1, h1, h2⟩ := except_bind_eq_ok.1 h
  obtain ⟨hdepth, rfl⟩ := readOverrideDepth_eq_ok h1
  obtain ⟨htype, rfl⟩ := readReorganizeType_eq_ok rfl h2
  exact ⟨hdepth, htype, rfl⟩

theorem appInit2_eq_ok {w : World} {p : Process} (hon : args.deminodes = true)
    (h : appInit2 args w = .ok p) :
    0 ≤ args.overrideDepth ∧ (args.reorganizeType = 0 ∨ args.reorganizeType = 1) ∧
      p = { init := args.settings, main := .initial, velocity := .initial, world := w } := by
  obtain ⟨s, hs, h⟩ := except_bind_eq_ok.1 h
  obtain ⟨hdepth, htype, rfl⟩ := readDemiSettings_eq_ok hon hs
  cases h
  exact ⟨hdepth, htype, rfl⟩

/-! ### What is applied -/

theorem DemiArgs.settings_eq_initial (hdepth : args.overrideDepth = 0)
    (htype : args.reorganizeType = 0) : args.settings = .initial := by
  simp [settings, hdepth, htype, ReorgStatics.initial]

open Simnet

/-- A call on a node with Demi-nodes on that says itself whether it is one. -/
def demiContext (fDemiPeerRelay fDemiSelf : Bool) : Ctx :=
  { context fDemiPeerRelay true with fDemiSelf := fDemiSelf }

theorem checkMergeWith_initial_deep (fDemiSelf : Bool) :
    checkMergeWith .initial (demiContext true fDemiSelf) false ⟨2, 0, 0, false⟩ =
      .error (.error "Reorganize() : Threshold depth exceeded") := rfl

theorem checkMergeWith_deep (fDemiSelf : Bool) (h : 2 ≤ s.blockReorgThreshold) :
    checkMergeWith s (demiContext true fDemiSelf) false ⟨2, 0, 0, false⟩ =
      .ok (0 - s.blockReorgOverrideDepth) := by
  have hle : ¬ (2 : ℤ) > s.blockReorgThreshold := by omega
  simp [checkMergeWith, authorized, demiContext, context, blockReorgMaxDepth, hle, rejectIf]

theorem checkMergeWith_initial_reverse :
    checkMergeWith .initial (demiContext false true) false ⟨0, 0, 0, true⟩ =
      .error (.error "Reorganize() : Denied a reverse-reorganize - Not authorized!") := rfl

theorem checkMergeWith_reverse (h : s.peerReorgType = 1) :
    checkMergeWith s (demiContext false true) false ⟨0, 0, 0, true⟩ = .ok 0 := by
  simp [checkMergeWith, demiContext, blockReorgMaxDepth, rejectIf, h]

theorem Process.Applies.defaults {q : Process} (hmain : q.main = .initial)
    (h : q.Applies args.settings) : ¬ 0 < args.overrideDepth ∧ args.reorganizeType ≠ 1 := by
  constructor
  · intro hpos
    have hthreshold : 2 ≤ args.settings.blockReorgThreshold := by
      simp only [DemiArgs.settings, blockReorgMaxDepth]
      omega
    have hmerge := h.merge (demiContext true false) false ⟨2, 0, 0, false⟩ rfl
    rw [hmain, checkMergeWith_initial_deep, checkMergeWith_deep false hthreshold] at hmerge
    cases hmerge
  · intro htype
    have hmerge := h.merge (demiContext false true) false ⟨0, 0, 0, true⟩ rfl
    rw [hmain, checkMergeWith_initial_reverse, checkMergeWith_reverse htype] at hmerge
    cases hmerge

/-- **The settings that `AppInit2` accepts with Demi-nodes on are those of every later
reorganisation exactly when the depth is not positive and the type is not `1`**. -/
theorem reorgSettings_applied_iff (E : Env) {args : DemiArgs} {w : World} {p : Process}
    (hon : args.deminodes = true) (hp : appInit2 args w = .ok p) :
    (∀ q, p.Later E q → q.Applies args.settings) ↔
      ¬ 0 < args.overrideDepth ∧ args.reorganizeType ≠ 1 := by
  obtain ⟨hdepth, htype, rfl⟩ := appInit2_eq_ok hon hp
  constructor
  · intro h
    exact (h _ .start).defaults rfl
  · intro ⟨hpos, hne⟩ q hq
    have hs : args.settings = .initial :=
      DemiArgs.settings_eq_initial (by omega) (htype.resolve_right hne)
    obtain ⟨-, hmain, hvelocity⟩ := hq.statics
    constructor
    · intro ctx fRollBackCall m _
      rw [hmain, hs]
    · intro nHeight pindexRequest
      rw [hvelocity, hs]

/-- Demi-nodes on, with a depth and a type. -/
def demiArgs (demimaxdepth demireorgtype : List Char) : DemiArgs where
  deminodes := true
  demimaxdepth := demimaxdepth
  demireorgtype := demireorgtype

/-- With `-demimaxdepth=0` nothing has to be applied. -/
theorem reorgSettings_applied_zero :
    (∀ q, Process.Later env ⟨.initial, .initial, .initial, emptyWorld⟩ q →
      q.Applies (demiArgs ['0'] []).settings) ↔
      ¬ 0 < (demiArgs ['0'] []).overrideDepth ∧ (demiArgs ['0'] []).reorganizeType ≠ 1 :=
  reorgSettings_applied_iff env (w := emptyWorld) rfl rfl

/-- `-demimaxdepth=5` is accepted, and a Demi-node that asks for a branch two blocks higher is
refused all the same. -/
theorem reorgSettings_ignored_five : ∃ p, appInit2 (demiArgs ['5'] []) emptyWorld = .ok p ∧
      (demiArgs ['5'] []).settings.blockReorgThreshold = 6 ∧
      checkMergeWith p.main (demiContext true false) false ⟨2, 0, 0, false⟩ =
        .error (.error "Reorganize() : Threshold depth exceeded") ∧
      checkMergeWith (demiArgs ['5'] []).settings (demiContext true false) false ⟨2, 0, 0, false⟩ =
        .ok (-5) ∧
      ¬ ∀ q, p.Later env q → q.Applies (demiArgs ['5'] []).settings := by
  refine ⟨⟨(demiArgs ['5'] []).settings, .initial, .initial, emptyWorld⟩, rfl, rfl, rfl, rfl, ?_⟩
  intro h
  have hmerge := (h _ .start).merge (demiContext true false) false ⟨2, 0, 0, false⟩ rfl
  exact absurd hmerge nofun

end Espers
