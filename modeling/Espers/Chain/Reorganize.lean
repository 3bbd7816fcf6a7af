import Espers.Chain.Fork
import Espers.Chain.Mempool
import Espers.Chain.Supply

/-!
# Reorganisation

`reorganize` is `Reorganize`, cut into `planReorganize` (who may ask for what, the rolling
checkpoint, the fork, the two lists of blocks) and the loops that follow it.

* `planReorganize_spec` : what is known about a plan (`PlanTrace`).
* `PlanTrace.checkpoint`, `PlanTrace.fork_above` : the rolling checkpoint is an ancestor of both
  tips, and the fork is not below it.
* `PlanTrace.length_le_one_iff` : when a plan disconnects one block at most.
-/

namespace Espers

open Exec Forest BlockMap

/-! ### Parameters -/

/-- `BLOCK_REORG_MAX_DEPTH`. -/
def blockReorgMaxDepth : ℤ := 1

/-- `BLOCK_REORG_OVERRIDE_DEPTH`. -/
def blockReorgOverrideDepth : ℤ := 0

/-- `BLOCK_REORG_THRESHOLD`. -/
def blockReorgThreshold : ℤ := blockReorgMaxDepth + blockReorgOverrideDepth

/-- `BLOCK_TEMP_CHECKPOINT_DEPTH`. -/
def blockTempCheckpointDepth : ℤ := 120

/-! ### The source -/

/-- `RollingCheckpoints`. -/
def rollingCheckpoints (nHeight : ℤ) (pindexRequest : Uint256) : Node Bool :=
  if nHeight < 5000 then pure false
  else do
    let current ← deref (some pindexRequest)
    let w ← get
    let past := nHeight - (blockTempCheckpointDepth + blockReorgThreshold)
    let e ← deref (rollBack w.mapBlockIndex current.nHeight
      ((current.nHeight - past).toNat + 1) past pindexRequest)
    modify fun w => { w with rollingBlock := e.hashBlock, rollingHeight := e.nHeight }
    pure true

/-- What `Reorganize` works out from the two tips. -/
structure MergeShape where
  nMergeDepth : ℤ
  nHeightShorter : ℤ
  nReorgMax : ℤ
  fMergeReverse : Bool

/-- The direction of the merge and the values that depend on it. -/
def mergeShape (best new : CBlockIndex) : MergeShape :=
  if new.nHeight > best.nHeight then
    ⟨(new.nHeight : ℤ) - best.nHeight, best.nHeight, best.nHeight - blockReorgMaxDepth, false⟩
  else ⟨(best.nHeight : ℤ) - new.nHeight, new.nHeight, new.nHeight - blockReorgMaxDepth, true⟩

/-- The relaying peer is a Demi-node and Demi-nodes are on, or this is a roll-back. -/
def authorized (ctx : Ctx) (fRollBackCall : Bool) : Bool :=
  (ctx.fDemiPeerRelay && ctx.fDemiNodes) || fRollBackCall

/-- The direction and depth checks; the result is `nReorgMax`. -/
def checkMerge (ctx : Ctx) (fRollBackCall : Bool) (s : MergeShape) : Except Stop ℤ := do
  rejectIf (s.fMergeReverse ∧ ¬ authorized ctx fRollBackCall ∧ ctx.peerReorgType ≠ 1)
    (.error "Reorganize() : Denied a reverse-reorganize - Not authorized!")
  if s.nMergeDepth > blockReorgMaxDepth then
    if authorized ctx fRollBackCall then
      if s.nMergeDepth > blockReorgThreshold then
        if fRollBackCall then .ok (ctx.nNewHeight - 1)
        else .error (.error "Reorganize() : Threshold depth exceeded")
      else .ok (s.nReorgMax - blockReorgOverrideDepth)
    else .error (.error "Reorganize() : Maximum depth exceeded")
  else if !ctx.fDemiPeerRelay && ctx.fDemiNodes && !ctx.fDemiSelf then
    .error (.error "Reorganize() : Not toggled self as a Demi-node")
  else .ok s.nReorgMax

/-- The check of the merging branch against the rolling checkpoint. -/
def checkQuality (w : World) (new : CBlockIndex) (p : Uint256) : Except Stop Unit :=
  match (qualityWalk w.mapBlockIndex w.rollingBlock w.rollingHeight
    (((new.nHeight : ℤ) - w.rollingHeight).toNat + 1) new.nHeight p).bind
    w.mapBlockIndex.lookup with
  | none => .error (.crash "null pointer")
  | some e => rejectIf (e.hashBlock ≠ w.rollingBlock)
      (.error "Reorganize() : Chain quality failed, blockhash is invalid")

/-- `bIndex_Factor`. -/
def bIndexFactor (inSplitPoint inSplitEnd : CBlockIndex) : Bool :=
  !decide (inSplitPoint.nMoneySupply.tdiv coin < inSplitEnd.nMoneySupply.tdiv coin)

/-- The branch above the fork, tip first. -/
def branchAbove (w : World) (pfork p : Uint256) : Node (List Uint256) :=
  match listBranch w.mapBlockIndex pfork (height w.mapBlockIndex p + 2) p with
  | some l => pure l
  | none => throw (.crash "null pointer")

/-- What is to be disconnected, tip first, and connected, from the fork on. -/
structure ReorgPlan where
  pfork : Uint256
  vDisconnect : List Uint256
  vConnect : List Uint256
  nReorgMax : ℤ

/-- The first half of `Reorganize`, up to the two lists. -/
def planReorganize (ctx : Ctx) (pindexNew : Uint256) : Node ReorgPlan := do
  let w ← get
  let pindexBest := w.pindexBest.getD 0
  let best ← bestIndex
  let new ← deref (some pindexNew)
  modify fun w => { w with fRollbacktoBlock := false }
  let shape := mergeShape best new
  let nReorgMax ← lift (checkMerge ctx w.fRollbacktoBlock shape)
  let fRollingCheckpoint ← rollingCheckpoints shape.nHeightShorter pindexBest
  modify fun w => { w with fRollingCheckpoint := fRollingCheckpoint }
  lift (rejectIf (¬ fRollingCheckpoint)
    (.error "Reorganize() : Chain quality failed, blockheight is invalid"))
  let w ← get
  lift (checkQuality w new pindexNew)
  let pfork ← lift (findFork w.mapBlockIndex (best.nHeight + new.nHeight + 2) pindexBest pindexNew)
  let fork ← deref (some pfork)
  -- both ends of the branch whose supply is compared are the fork itself by now
  lift (rejectIf (¬ bIndexFactor fork fork) (.error "Reorganize() : Invalid branch coin supply"))
  let vDisconnect ← branchAbove w pfork pindexBest
  let vConnect ← branchAbove w pfork pindexNew
  pure ⟨pfork, vDisconnect, vConnect.reverse, nReorgMax⟩

/-- `block.ReadFromDisk(pindex)`. -/
def readBlock (E : Env) (ctx : Ctx) (p : Uint256) (msg : String) : Node CBlock := do
  let e ← deref (some p)
  let w ← get
  match readBlockFromDisk E ctx w e with
  | some block => pure block
  | none => throw (.error msg)

/-- The transactions of a disconnected block that are offered back to the memory pool. -/
def resurrectable (block : CBlock) (nHeight : ℕ) (nReorgMax : ℤ) : List CTransaction :=
  block.vtx.filter fun tx =>
    !(tx.isCoinBase || tx.isCoinStake) && decide ((nHeight : ℤ) > nReorgMax)

/-- The loop of `Reorganize` that disconnects; the result is `vResurrect`. -/
def disconnectBranch (E : Env) (ctx : Ctx) (nReorgMax : ℤ) :
    List Uint256 → List CTransaction → Node (List CTransaction)
  | [], vResurrect => pure vResurrect
  | p :: ps, vResurrect => do
    let block ← readBlock E ctx p "Reorganize() : ReadFromDisk for disconnect failed"
    mapError (Stop.report (.error "Reorganize() : DisconnectBlock failed for block"))
      (disconnectBlock E block p)
    let e ← deref (some p)
    disconnectBranch E ctx nReorgMax ps
      ((resurrectable block e.nHeight nReorgMax).reverse ++ vResurrect)

/-- One pass of the loop of `Reorganize` that connects. -/
def connectOne (E : Env) (ctx : Ctx) (p : Uint256) : Node CBlock := do
  let block ← readBlock E ctx p "Reorganize() : ReadFromDisk for connect failed"
  mapError (Stop.report (.error "Reorganize() : ConnectBlock failed for block"))
    (connectBlock E ctx block p)
  let e ← deref (some p)
  lift (rejectIf (ctx.velocityCheck e.nHeight ∧ ¬ ctx.velocity (e.pprev.getD 0) block)
    (.error "Reorganize() : Velocity failed at height"))
  pure block

/-- The loop of `Reorganize` that connects; the result is `vDelete`. -/
def connectBranch (E : Env) (ctx : Ctx) : List Uint256 → List CTransaction →
    Node (List CTransaction)
  | [], vDelete => pure vDelete
  | p :: ps, vDelete => do
    let block ← connectOne E ctx p
    connectBranch E ctx ps (vDelete ++ block.vtx)

/-- `pindex->pprev->pnext = pnext`, if there is a previous entry. -/
def World.setPrevNext (w : World) (p : Uint256) (pnext : Option Uint256) : World :=
  match parent w.mapBlockIndex p with
  | none => w
  | some q => w.updateIndex q fun d => { d with pnext := pnext }

/-- The links of the disconnected branch are cut, those of the connected branch are made. -/
def World.relink (w : World) (vDisconnect vConnect : List Uint256) : World :=
  vConnect.foldl (fun w p => w.setPrevNext p (some p))
    (vDisconnect.foldl (fun w p => w.setPrevNext p none) w)

/-- Offer the transactions of the disconnected branch to the memory pool. -/
def resurrect (E : Env) (ctx : Ctx) : List CTransaction → Node Unit
  | [] => pure ()
  | tx :: vResurrect => do
    let _ ← returned (acceptToMemoryPool E ctx tx false)
    resurrect E ctx vResurrect

/-- `mempool.remove(tx)`. -/
def removeFromPool (E : Env) (tx : CTransaction) : Node Unit := do
  let w ← get
  let pool ← lift (w.mempool.remove E 1 false tx)
  modify fun w => { w with mempool := pool }

/-- `mempool.removeConflicts(tx)`. -/
def removeConflicts (E : Env) (tx : CTransaction) : Node Unit := do
  let w ← get
  let pool ← lift (w.mempool.removeConflicts E tx)
  modify fun w => { w with mempool := pool }

/-- Take the transactions of the connected branch, and what conflicts with them, off the pool. -/
def deleteFromPool (E : Env) : List CTransaction → Node Unit
  | [] => pure ()
  | tx :: vDelete => do
    removeFromPool E tx
    removeConflicts E tx
    deleteFromPool E vDelete

/-- The part of `Reorganize` up to the commit. -/
def switchBranch (E : Env) (ctx : Ctx) (pindexNew : Uint256) :
    Node (ReorgPlan × List CTransaction × List CTransaction) := do
  let plan ← planReorganize ctx pindexNew
  let vResurrect ← disconnectBranch E ctx plan.nReorgMax plan.vDisconnect []
  let vDelete ← connectBranch E ctx plan.vConnect []
  let new ← deref (some pindexNew)
  modifyDb fun txdb => txdb.writeHashBestChain new.hashBlock
  pure (plan, vResurrect, vDelete)

/-- `Reorganize`. -/
def reorganize (E : Env) (ctx : Ctx) (pindexNew : Uint256) : Node Unit := do
  let (plan, vResurrect, vDelete) ← switchBranch E ctx pindexNew
  txnCommit ctx (.error "Reorganize() : TxnCommit failed")
  modify fun w => w.relink plan.vDisconnect plan.vConnect
  resurrect E ctx vResurrect
  deleteFromPool E vDelete

/-! ### The plan -/

/-- Only the roll-back flag, which is not set, and the rolling checkpoint have changed. -/
structure RollingOnly (w w' : World) : Prop where
  eq : w' = { w with
    fRollbacktoBlock := w'.fRollbacktoBlock, rollingBlock := w'.rollingBlock,
    rollingHeight := w'.rollingHeight, fRollingCheckpoint := w'.fRollingCheckpoint }
  rollback : w'.fRollbacktoBlock = true → w.fRollbacktoBlock = true

instance : IsPreorder World RollingOnly where
  refl _ := ⟨rfl, id⟩
  trans a b c h1 h2 := by
    refine ⟨?_, fun h => h1.rollback (h2.rollback h)⟩
    rw [h2.eq, h1.eq]

theorem rollingCheckpoints_keeps (nHeight : ℤ) (p : Uint256) :
    Keeps RollingOnly (rollingCheckpoints nHeight p) := by
  refine .ite (.pure _) (.bind (deref_keeps _) fun current =>
    Keeps.bind Keeps.get fun w => .bind (deref_keeps _) fun e =>
    Keeps.bind (.modify fun w => ?_) fun _ => .pure _)
  exact ⟨rfl, id⟩

theorem branchAbove_keeps {R : World → World → Prop} [IsPreorder World R] (w : World)
    (pfork p : Uint256) : Keeps R (branchAbove w pfork p) := by
  unfold branchAbove
  split
  · exact .pure _
  · exact .throw _

theorem planReorganize_keeps (ctx : Ctx) (p : Uint256) :
    Keeps RollingOnly (planReorganize ctx p) := by
  refine .bind Keeps.get fun w => .bind bestIndex_keeps fun best =>
    Keeps.bind (deref_keeps _) fun new =>
    Keeps.bind (.modify fun _ => ⟨rfl, Bool.noConfusion⟩) fun _ =>
    Keeps.bind (.lift _) fun nReorgMax => .bind (rollingCheckpoints_keeps _ _) fun b =>
    Keeps.bind (.modify fun _ => ⟨rfl, id⟩) fun _ => .bind (.lift _) fun _ =>
    Keeps.bind Keeps.get fun w => .bind (.lift _) fun _ =>
    Keeps.bind (.lift _) fun pfork => .bind (deref_keeps _) fun fork =>
    Keeps.bind (.lift _) fun _ => .bind (branchAbove_keeps _ _ _) fun _ =>
    Keeps.bind (branchAbove_keeps _ _ _) fun _ => .pure _

variable {p : Uint256}

theorem rollingCheckpoints_eq_true {nHeight : ℤ} {w w' : World}
    (h : rollingCheckpoints nHeight p w = .ok true w') :
    5000 ≤ nHeight ∧ ∃ current pCkpt ckpt, w.mapBlockIndex.lookup p = some current ∧
      rollBack w.mapBlockIndex current.nHeight
        (((current.nHeight : ℤ) - (nHeight - 121)).toNat + 1) (nHeight - 121) p = some pCkpt ∧
      w.mapBlockIndex.lookup pCkpt = some ckpt ∧
      w' = { w with rollingBlock := ckpt.hashBlock, rollingHeight := ckpt.nHeight } := by
  unfold rollingCheckpoints at h
  split_ifs at h with hlt
  · simp at h
  · simp only [bind_eq_ok, deref_eq_ok] at h
    obtain ⟨current, _, ⟨hcur, rfl⟩, _, _, ⟨rfl, rfl⟩, ckpt, _, ⟨hck, rfl⟩, _, _,
      ⟨-, rfl⟩, -, rfl⟩ := h
    obtain ⟨pCkpt, hroll, hck⟩ := Option.bind_eq_some_iff.1 hck
    exact ⟨by omega, current, pCkpt, ckpt, hcur, hroll, hck, rfl⟩

/-- A plan, with how it was made. -/
structure PlanTrace (ctx : Ctx) (pindexNew : Uint256) (w w' : World) (plan : ReorgPlan) where
  pBest : Uint256
  best : CBlockIndex
  new : CBlockIndex
  /-- The rolling checkpoint. -/
  pCkpt : Uint256
  ckpt : CBlockIndex
  pindexBest : w.pindexBest = some pBest
  best_eq : w.mapBlockIndex.lookup pBest = some best
  new_eq : w.mapBlockIndex.lookup pindexNew = some new
  merge : checkMerge ctx w.fRollbacktoBlock (mergeShape best new) = .ok plan.nReorgMax
  height : 5000 ≤ (mergeShape best new).nHeightShorter
  rolled : rollBack w.mapBlockIndex best.nHeight
    (((best.nHeight : ℤ) - ((mergeShape best new).nHeightShorter - 121)).toNat + 1)
    ((mergeShape best new).nHeightShorter - 121) pBest = some pCkpt
  ckpt_eq : w.mapBlockIndex.lookup pCkpt = some ckpt
  quality : ∃ q e, Anc (parent w.mapBlockIndex) pindexNew q ∧
    w.mapBlockIndex.lookup q = some e ∧ e.hashBlock = ckpt.hashBlock
  fork : findFork w.mapBlockIndex (best.nHeight + new.nHeight + 2) pBest pindexNew = .ok plan.pfork
  fork_mem : (w.mapBlockIndex.lookup plan.pfork).isSome
  down : Down (parent w.mapBlockIndex) pBest plan.vDisconnect plan.pfork
  downNew : Down (parent w.mapBlockIndex) pindexNew plan.vConnect.reverse plan.pfork
  final : w' = { w with
    fRollbacktoBlock := false, rollingBlock := ckpt.hashBlock, rollingHeight := ckpt.nHeight,
    fRollingCheckpoint := true }

theorem checkQuality_eq_ok {w : World} {new : CBlockIndex} {u : Unit}
    (h : checkQuality w new p = .ok u) :
    ∃ q e, Anc (parent w.mapBlockIndex) p q ∧ w.mapBlockIndex.lookup q = some e ∧
      e.hashBlock = w.rollingBlock := by
  unfold checkQuality at h
  generalize hw : qualityWalk w.mapBlockIndex w.rollingBlock w.rollingHeight
    (((new.nHeight : ℤ) - w.rollingHeight).toNat + 1) new.nHeight p = r at h
  cases he : r.bind w.mapBlockIndex.lookup with
  | none => rw [he] at h; cases h
  | some e =>
    rw [he] at h
    obtain ⟨q, rfl, he⟩ := Option.bind_eq_some_iff.1 he
    exact ⟨q, e, qualityWalk_spec hw, he, by simpa using h⟩

theorem branchAbove_eq_ok {w w1 w2 : World} {pfork p : Uint256} {l : List Uint256}
    (h : branchAbove w pfork p w1 = .ok l w2) :
    Down (parent w.mapBlockIndex) p l pfork ∧ w2 = w1 := by
  unfold branchAbove at h
  cases hl : listBranch w.mapBlockIndex pfork (height w.mapBlockIndex p + 2) p with
  | none => rw [hl] at h; simp at h
  | some l' =>
    rw [hl] at h
    obtain ⟨rfl, rfl⟩ := h
    exact ⟨listBranch_spec hl, rfl⟩

theorem planReorganize_spec {ctx : Ctx} {w w' : World} {plan : ReorgPlan}
    (h : planReorganize ctx p w = .ok plan w') : Nonempty (PlanTrace ctx p w w' plan) := by
  unfold planReorganize at h
  rw [bind_apply] at h
  obtain ⟨best, _, hbest, h⟩ := bind_eq_ok.1 h
  simp only [bestIndex, bind_apply, get_apply, deref_eq_ok] at hbest
  obtain ⟨hbest, rfl⟩ := hbest
  obtain ⟨pBest, hpb, hbest⟩ := Option.bind_eq_some_iff.1 hbest
  rw [hpb] at h
  simp only [bind_eq_ok, deref_eq_ok, lift_eq_ok, rejectIf_eq_ok, not_not, Option.bind_some] at h
  obtain ⟨new, _, ⟨hnew, rfl⟩, _, _, ⟨-, rfl⟩, nReorgMax, _, ⟨hmerge, rfl⟩, b, w1, hroll, _, _,
    ⟨-, rfl⟩, _, _, ⟨rfl, rfl⟩, _, _, ⟨rfl, rfl⟩, _, _, ⟨hq, rfl⟩, pfork, _, ⟨hfork, rfl⟩, fork, _,
    ⟨hforkm, rfl⟩, _, _, ⟨-, rfl⟩, vd, _, hvd, vc, _, hvc, rfl, rfl⟩ := h
  obtain ⟨h5000, current, pCkpt, ckpt, hcur, hrolled, hck, rfl⟩ := rollingCheckpoints_eq_true hroll
  obtain ⟨hdown, rfl⟩ := branchAbove_eq_ok hvd
  obtain ⟨hup, rfl⟩ := branchAbove_eq_ok hvc
  obtain rfl : best = current := Option.some.inj (hbest.symm.trans hcur)
  exact ⟨{
    pBest := pBest, best := best, new := new, pCkpt := pCkpt, ckpt := ckpt
    pindexBest := hpb, best_eq := hbest, new_eq := hnew, merge := hmerge, height := h5000
    rolled := hrolled, ckpt_eq := hck, quality := checkQuality_eq_ok hq, fork := hfork
    fork_mem := by rw [hforkm]; rfl
    down := hdown, downNew := by simpa using hup, final := rfl }⟩

/-! ### The rolling checkpoint -/

/-- The walk of `RollingCheckpoints` ends at an entry of the index: it never passes genesis. -/
theorem rollingCheckpoints_ok {w : World} {root p : Uint256} (ht : IndexTree w.mapBlockIndex root)
    (hp : (w.mapBlockIndex.lookup p).isSome) (nHeight : ℤ) :
    ∃ b w', rollingCheckpoints nHeight p w = .ok b w' := by
  unfold rollingCheckpoints
  split_ifs with hlt
  · exact ⟨false, w, rfl⟩
  · obtain ⟨current, hcur⟩ := Option.isSome_iff_exists.1 hp
    have hhp := height_of_lookup hcur
    obtain ⟨k, hk, hkle⟩ : ∃ k : ℕ, rollBack w.mapBlockIndex current.nHeight
        (((current.nHeight : ℤ) - (nHeight - 121)).toNat + 1) (nHeight - 121) p =
          walk (parent w.mapBlockIndex) k p ∧ k ≤ current.nHeight := by
      rcases le_or_gt (nHeight - 121) current.nHeight with hle | hgt
      · refine ⟨((current.nHeight : ℤ) - (nHeight - 121)).toNat, rollBack_eq_walk (by omega) ?_, ?_⟩
          <;> omega
      · refine ⟨0, ?_, Nat.zero_le _⟩
        rw [rollBack, if_neg (by omega)]
        rfl
    obtain ⟨c, hc, hcm⟩ := exists_walk (P := fun p => (w.mapBlockIndex.lookup p).isSome)
      ht.graded (fun a ha hpos => ht.exists_parent ha hpos) hp (hkle.trans hhp.ge)
    obtain ⟨e, he⟩ := Option.isSome_iff_exists.1 hcm
    have hd : deref (some p) w = .ok current w := deref_eq_ok.2 ⟨hcur, rfl⟩
    have hd' : deref (rollBack w.mapBlockIndex current.nHeight
        (((current.nHeight : ℤ) - (nHeight - 121)).toNat + 1) (nHeight - 121) p) w = .ok e w := by
      rw [hk, hc]
      exact deref_eq_ok.2 ⟨he, rfl⟩
    refine ⟨true, { w with rollingBlock := e.hashBlock, rollingHeight := e.nHeight }, ?_⟩
    rw [bind_of_ok hd, bind_apply]
    exact bind_of_ok hd'

namespace PlanTrace

variable {ctx : Ctx} {p root : Uint256} {w w' : World} {plan : ReorgPlan}

section

variable (c : PlanTrace ctx p w w' plan)
include c

theorem meet (ht : IndexTree w.mapBlockIndex root) :
    IsMeet (parent w.mapBlockIndex) plan.pfork c.pBest p := findFork_spec ht c.fork

theorem up : Up (parent w.mapBlockIndex) plan.pfork plan.vConnect p := by
  simpa using c.downNew.reverse

theorem mem_vConnect (ht : IndexTree w.mapBlockIndex root)
    {q : Uint256} : q ∈ plan.vConnect ↔ Anc (parent w.mapBlockIndex) p q ∧
      BlockMap.height w.mapBlockIndex plan.pfork < BlockMap.height w.mapBlockIndex q := by
  rw [← List.mem_reverse, c.downNew.mem_iff ht.graded]

theorem not_anc_of_mem_vConnect
    (ht : IndexTree w.mapBlockIndex root) {q : Uint256} (hq : q ∈ plan.vConnect) :
    ¬ Forest.Anc (parent w.mapBlockIndex) c.pBest q := by
  intro hb
  obtain ⟨hn, hlt⟩ := (c.mem_vConnect ht).1 hq
  have := ((c.meet ht).last q hb hn).height_le ht.graded
  omega

theorem height_best :
    BlockMap.height w.mapBlockIndex c.pBest = c.best.nHeight := height_of_lookup c.best_eq

theorem height_new : BlockMap.height w.mapBlockIndex p = c.new.nHeight := height_of_lookup c.new_eq

theorem shorter : (mergeShape c.best c.new).nHeightShorter = min c.best.nHeight c.new.nHeight := by
  unfold mergeShape
  split_ifs <;> simp only <;> omega

theorem checkpoint (ht : IndexTree w.mapBlockIndex root) :
    Anc (parent w.mapBlockIndex) c.pBest c.pCkpt ∧ Anc (parent w.mapBlockIndex) p c.pCkpt ∧
      (BlockMap.height w.mapBlockIndex c.pCkpt : ℤ) = min c.best.nHeight c.new.nHeight - 121 := by
  have hs := c.shorter
  have h5 := c.height
  have hb := c.height_best
  have hroll := c.rolled
  rw [rollBack_eq_walk (k := c.best.nHeight - (min c.best.nHeight c.new.nHeight - 121)) (by omega)
    (by omega)] at hroll
  obtain ⟨hanc, hheight⟩ := (walk_eq_some ht.graded).1 hroll
  obtain ⟨q, e, hq, he, heq⟩ := c.quality
  rw [ht.hash _ _ he, ht.hash _ _ c.ckpt_eq] at heq
  exact ⟨hanc, heq ▸ hq, by omega⟩

theorem fork_above (ht : IndexTree w.mapBlockIndex root) :
    Anc (parent w.mapBlockIndex) plan.pfork c.pCkpt :=
  let ⟨hb, hn, _⟩ := c.checkpoint ht
  (c.meet ht).last _ hb hn

theorem unauthorised
    (hauth : authorized ctx w.fRollbacktoBlock = false) (hpeer : ctx.peerReorgType = 0) :
    c.new.nHeight = c.best.nHeight + 1 := by
  have hm := c.merge
  simp only [checkMerge, hauth, hpeer, except_bind_eq_ok, rejectIf_eq_ok, exists_const] at hm
  obtain ⟨hrev, hm⟩ := hm
  have hone : blockReorgMaxDepth = 1 := rfl
  by_cases hlt : c.new.nHeight > c.best.nHeight
  · simp only [mergeShape, hlt, ↓reduceIte] at hm
    by_contra hne
    rw [if_pos (by omega)] at hm
    cases hm
  · simp [mergeShape, hlt] at hrev

/-- With tips one block apart, at most one block is disconnected exactly when the grandparent of the
new tip is the parent of the old one. -/
theorem length_le_one_iff (ht : IndexTree w.mapBlockIndex root)
    (hh : c.new.nHeight = c.best.nHeight + 1) :
    plan.vDisconnect.length ≤ 1 ↔ (parent w.mapBlockIndex p).bind (parent w.mapBlockIndex) =
        parent w.mapBlockIndex c.pBest := by
  have hg := ht.graded
  have hmeet := c.meet ht
  have hlen := c.down.length hg
  have hb := c.height_best
  have hn := c.height_new
  have hwalk : (parent w.mapBlockIndex p).bind (parent w.mapBlockIndex) =
      walk (parent w.mapBlockIndex) 2 p := by
    simp only [walk]
    cases parent w.mapBlockIndex p with
    | none => rfl
    | some q => cases hq : parent w.mapBlockIndex q <;> simp [hq]
  have h5 := c.height
  have hs := c.shorter
  obtain ⟨q, hq, -⟩ := ht.exists_parent (p := c.pBest) (by rw [c.best_eq]; rfl) (by omega)
  have hqh := hg hq
  rw [hwalk, hq]
  constructor
  · intro hle
    -- the fork is the old tip or its parent, so the parent is below both tips
    have hfq : Anc (parent w.mapBlockIndex) plan.pfork q :=
      hmeet.left.of_height_le hg (Anc.of_parent hq) (by omega)
    exact (walk_eq_some hg).2 ⟨hmeet.right.trans hfq, by omega⟩
  · intro hw
    have hanc := ((walk_eq_some hg).1 hw).1
    have := (hmeet.last q (Anc.of_parent hq) hanc).height_le hg
    omega

end

end PlanTrace

theorem planReorganize_of_reorganize {E : Env} {ctx : Ctx} {w w' : World}
    (h : reorganize E ctx p w = .ok () w') : ∃ plan w1, planReorganize ctx p w = .ok plan w1 := by
  obtain ⟨⟨plan, vr, vd⟩, w2, h, -⟩ := bind_eq_ok.1 h
  obtain ⟨plan', w1, h, -⟩ := bind_eq_ok.1 h
  exact ⟨plan', w1, h⟩

end Espers
