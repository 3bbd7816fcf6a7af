import Espers.Chain.Accept

/-!
# Runs of a node

A run starts with the genesis block in an empty database and goes on with calls of `AcceptBlock`, of
`SetBestChain` for a block of the index, of `AcceptToMemoryPool` and of `FindBlockByHeight`, in any
order, whether they succeed or return `false` (`Run`).

* `GoodRun.inv` : **every state of a run is coherent**, if no postponed block ever fails to connect.
-/

namespace Espers

open Exec

variable {E : Env} {ctx : Ctx} {g p q tip hash : Uint256} {w w' w1 : World} {e d : CBlockIndex}
  {block : CBlock}

/-! ### Runs -/

/-- What a node is asked to do. -/
inductive Call where
  /-- `AcceptBlock` of a block received. -/
  | acceptBlock (ctx : Ctx) (block : CBlock)
  /-- `SetBestChain` of a block of the index, read from its file. -/
  | setBestChain (ctx : Ctx) (block : CBlock) (p : Uint256)
  /-- `AcceptToMemoryPool` of a transaction received. -/
  | acceptToMemoryPool (ctx : Ctx) (tx : CTransaction) (fLimitFree : Bool)
  /-- `FindBlockByHeight`. -/
  | findBlockByHeight (nHeight : ℤ)
  /-- The option `-backtoblock` asks for a roll-back. -/
  | backToBlock

namespace Call

/-- The function called. -/
def run (E : Env) : Call → Node Unit
  | acceptBlock ctx block => Espers.acceptBlock E ctx block
  | setBestChain ctx block p => Espers.setBestChain E ctx block p
  | acceptToMemoryPool ctx tx fLimitFree => Espers.acceptToMemoryPool E ctx tx fLimitFree
  | findBlockByHeight nHeight => do
    let _ ← Espers.findBlockByHeight nHeight
  | backToBlock => modify fun w => { w with fRollbacktoBlock := true }

/-- `SetBestChain` is called for a block above genesis that has been read from where its entry
points. -/
def Allowed (w : World) : Call → Prop
  | setBestChain _ block p => ∃ e q, w.mapBlockIndex.lookup p = some e ∧ e.pprev = some q ∧
      w.files.readBlock e.nFile e.nBlockPos = some block
  | _ => True

/-- No postponed block fails to connect. -/
def noPostponedFails (E : Env) (w : World) : Call → Bool
  | acceptBlock ctx block => acceptNoPostponedFails E ctx block w
  | setBestChain ctx block p => Espers.noPostponedFails E ctx block p w
  | _ => true

end Call

/-- The states a node goes through from its first start on, as long as its calls return and satisfy
`C` in the state they are made in. -/
inductive Run (E : Env) (genesis : CBlock) (C : World → Call → Prop) : World → Prop
  | start {ctx : Ctx} {w : World} : GenesisBlock E genesis →
      loadGenesis E ctx genesis emptyWorld = .ok () w → w.pindexBest = some (genesis.getHash E) →
      Run E genesis C w
  | step {w w' : World} {c : Call} : Run E genesis C w → c.Allowed w → C w c →
      Returns (c.run E) w w' → Run E genesis C w'

/-- A run in which no postponed block ever fails to connect. -/
abbrev GoodRun (E : Env) (genesis : CBlock) : World → Prop :=
  Run E genesis fun w c => c.noPostponedFails E w = true

theorem Run.any {genesis : CBlock} {C : World → Call → Prop} (h : Run E genesis C w) :
    Run E genesis (fun _ _ => True) w := by
  induction h with
  | start hg hload hbest => exact .start hg hload hbest
  | step _ hal _ hret ih => exact ih.step hal trivial hret

theorem Call.filesGrow {c : Call} (h : Returns (c.run E) w w') : w.files.txs ⊆ w'.files.txs := by
  have hsame : SameFiles w w' → w.files.txs ⊆ w'.files.txs := SameFiles.filesGrow
  cases c with
  | acceptBlock ctx block => exact Keeps.returns acceptBlock_filesGrow h
  | setBestChain ctx block p => exact hsame (Keeps.returns setBestChain_sameFiles h)
  | acceptToMemoryPool ctx tx fLimitFree =>
    exact hsame (Keeps.returns (acceptToMemoryPool_keeps E ctx tx fLimitFree) h).sameBlocks.files
  | findBlockByHeight nHeight =>
    refine hsame (SizesOnly.files (Keeps.returns ?_ h))
    exact Keeps.bind (findBlockByHeight_keeps nHeight) fun _ => Keeps.pure _
  | backToBlock =>
    rcases h with ⟨_, h⟩ | ⟨s, h, -⟩ <;> cases h
    exact List.Subset.refl _

theorem Call.inv {c : Call} (hc : Inv E g w tip) (hnc : NoCollision E w'.files.txs)
    (hal : c.Allowed w) (hall : c.noPostponedFails E w = true) (h : Returns (c.run E) w w') :
    ∃ tip', Inv E g w' tip' := by
  cases c with
  | acceptBlock ctx block => exact acceptBlock_returns hc hnc hall h
  | setBestChain ctx block p =>
    obtain ⟨e, q, he, hq, hrd⟩ := hal
    obtain ⟨b, hst⟩ := hc.stored p e q he hq
    obtain rfl := Option.some.inj (hst.read.symm.trans hrd)
    have hf : w'.files = w.files := Keeps.returns setBestChain_sameFiles h
    exact setBestChain_returns hc (hf ▸ hnc) he hq hst hall h
  | acceptToMemoryPool ctx tx fLimitFree =>
    exact ⟨tip, hc.of_poolOnly (Keeps.returns (acceptToMemoryPool_keeps E ctx tx fLimitFree) h)⟩
  | findBlockByHeight nHeight =>
    refine ⟨tip, hc.of_sizesOnly (Keeps.returns ?_ h)⟩
    exact Keeps.bind (findBlockByHeight_keeps nHeight) fun _ => Keeps.pure _
  | backToBlock =>
    rcases h with ⟨_, h⟩ | ⟨s, h, -⟩ <;> cases h
    exact ⟨tip, hc.congr rfl rfl rfl rfl rfl rfl rfl rfl⟩

/-- **Every state of a run is coherent**, if no postponed block ever fails to connect and no two
transactions in the block files have the same hash. -/
theorem GoodRun.inv {genesis : CBlock} (h : GoodRun E genesis w) (hnc : NoCollision E w.files.txs) :
    GenesisBlock E genesis ∧ ∃ tip, Inv E (genesis.getHash E) w tip := by
  induction h with
  | start hg hload hbest => exact ⟨hg, _, loadGenesis_inv hg hload hbest⟩
  | @step w w' c hrun hal hall hret ih =>
    obtain ⟨hg, tip, hi⟩ := ih (hnc.subset (Call.filesGrow hret))
    exact ⟨hg, Call.inv hi hnc hal hall hret⟩

end Espers
