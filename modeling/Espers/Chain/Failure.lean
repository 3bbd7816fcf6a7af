import Espers.Chain.BestChain

/-!
# When a switch of branch fails

`SetBestChain` works in a batch and changes the links, the memory pool and the best-chain pointers
only after the commit.

* `connectBranch_keeps`, `disconnectBranch_keeps` : the loops of `Reorganize` stay within the batch.
* `setBestChain_false` : **where `SetBestChain` returns `false`**, the store is as before, except
  for the best-invalid-trust record, and so are the index, the pool and the pointers (`Frame
  StoreKept`).
-/

namespace Espers

open Exec BlockMap

variable {E : Env} {ctx : Ctx} {block : CBlock} {p : Uint256} {w w' : World} {M : Set Uint256}

/-! ### Which errors can occur after a commit -/

/-- The function does not return `false`: it returns `true`, throws or crashes. -/
abbrev NoFalse {α : Type} (x : Node α) : Prop := Never (fun e => Stop.returnsFalse e = true) x

theorem deref_noFalse (q : Option Uint256) : NoFalse (deref q) := by
  refine .bind Never.get fun w => ?_
  split
  · exact .pure _
  · exact .throw (by simp [Stop.returnsFalse])

theorem bestIndex_noFalse : NoFalse bestIndex := .bind Never.get fun _ => deref_noFalse _

theorem txnBegin_noFalse : NoFalse txnBegin := by
  refine .bind Never.get fun w => .ite ?_ (.set _)
  exact .throw (by simp [Stop.returnsFalse])

variable {e : Stop}

theorem remove_error {fuel : ℕ} {fRecursive : Bool} {tx : CTransaction}
    {pool : CTxMemPool} (h : pool.remove E fuel fRecursive tx = .error e) :
    e.returnsFalse = false := by
  induction fuel generalizing fRecursive tx pool e with
  | zero => cases h; rfl
  | succ fuel ih =>
    rw [CTxMemPool.remove] at h
    by_cases hc : (!pool.contains (E.txHash tx)) = true
    · rw [if_pos hc] at h; cases h
    · rw [if_neg hc] at h
      rcases except_bind_eq_error.1 h with hf | ⟨pool', -, h⟩
      · refine foldlM_error (P := fun e => e.returnsFalse = false) (fun pool i e he => ?_) hf
        split at he
        · cases he
        · split at he
          · cases he; rfl
          · exact ih he
      · cases h

theorem removeConflicts_error {tx : CTransaction} {pool : CTxMemPool}
    (h : pool.removeConflicts E tx = .error e) : e.returnsFalse = false := by
  refine foldlM_error (P := fun e => e.returnsFalse = false) (fun pool txin e he => ?_) h
  split at he
  · cases he
  · split at he
    · cases he; rfl
    · split_ifs at he
      exact remove_error he

theorem removeFromPool_ok (tx : CTransaction) (w : World) :
    ∃ pool, removeFromPool E tx w = .ok () { w with mempool := pool } := by
  have hrm : ∃ pool, w.mempool.remove E 1 false tx = .ok pool := by
    by_cases hc : (!w.mempool.contains (E.txHash tx)) = true
    · exact ⟨_, if_pos hc⟩
    · exact ⟨_, if_neg hc⟩
  obtain ⟨pool, hrm⟩ := hrm
  refine ⟨pool, ?_⟩
  unfold removeFromPool
  rw [bind_apply]
  simp only [get_apply, hrm]
  rfl

theorem removeFromPool_noFalse (tx : CTransaction) : NoFalse (removeFromPool E tx) :=
  Never.of_ok fun w => let ⟨_, h⟩ := removeFromPool_ok tx w; ⟨(), _, h⟩

theorem removeConflicts_noFalse (tx : CTransaction) : NoFalse (removeConflicts E tx) := by
  refine .bind Never.get fun w => .bind (.lift fun e he => ?_) fun _ =>
    Never.modify _
  simp [removeConflicts_error he]

theorem removeBlockFromPool_noFalse (vtx : List CTransaction) :
    NoFalse (removeBlockFromPool E vtx) := by
  induction vtx with
  | nil => exact .pure _
  | cons tx vtx ih => exact .bind (removeFromPool_noFalse tx) fun _ => ih

theorem deleteFromPool_noFalse (vtx : List CTransaction) : NoFalse (deleteFromPool E vtx) := by
  induction vtx with
  | nil => exact .pure _
  | cons tx vtx ih =>
    exact .bind (removeFromPool_noFalse tx) fun _ =>
      Never.bind (removeConflicts_noFalse tx) fun _ => ih

theorem resurrect_noFalse (vtx : List CTransaction) : NoFalse (resurrect E ctx vtx) := by
  induction vtx with
  | nil => exact .pure _
  | cons tx vtx ih => exact .bind (.attempt _) fun _ => ih

theorem connectPostponed_noFalse (ps : List Uint256) : NoFalse (connectPostponed E ctx ps) := by
  induction ps with
  | nil => exact .pure _
  | cons p ps ih =>
    refine .bind (deref_noFalse _) fun e => .bind Never.get fun w => ?_
    split
    · exact .pure _
    · exact .bind txnBegin_noFalse fun _ => .bind (.attempt _) fun connected =>
        Never.ite ih (.pure _)

theorem invalidChainFound_noFalse (p : Uint256) : NoFalse (invalidChainFound p) := by
  refine .bind (deref_noFalse _) fun new => .bind (.modify _) fun _ =>
    Never.bind (deref_noFalse _) fun _ => .bind bestIndex_noFalse fun best =>
    Never.ite ?_ (.pure _)
  exact .bind (deref_noFalse _) fun _ => .pure _

theorem newBestBlock_noFalse (hash p : Uint256) : NoFalse (newBestBlock hash p) := by
  refine .bind (deref_noFalse _) fun new => .bind (.modify _) fun _ =>
    Never.ite ?_ (.pure _)
  exact .bind (deref_noFalse _) fun _ => .pure _

/-! ### The database after a failure -/

/-- The store is unchanged, except for the best-invalid-trust record; no batch is opened. -/
structure StoreKept (txdb txdb' : CTxDB) : Prop where
  lookup : ∀ k, k ≠ .bnBestInvalidTrust → txdb'.pdb.lookup k = txdb.pdb.lookup k
  batch : txdb.activeBatch = none → txdb'.activeBatch = none

instance : IsPreorder CTxDB StoreKept where
  refl _ := ⟨fun _ _ => rfl, id⟩
  trans _ _ _ h1 h2 :=
    ⟨fun k hk => (h2.lookup k hk).trans (h1.lookup k hk), fun h => h2.batch (h1.batch h)⟩

theorem StoreKept.abort (txdb : CTxDB) : StoreKept txdb txdb.abort := ⟨fun _ _ => rfl, fun _ => rfl⟩

theorem Frame.storeKept (h : Frame BatchOnly M w w') (hb : w.txdb.activeBatch.isSome) :
    Frame StoreKept M w w' := by
  refine h.mono (fun hd => ⟨fun k _ => ?_, fun hn => ?_⟩) subset_rfl
  · rw [(hd hb).1]
  · rw [hn] at hb; cases hb

theorem noteInvalid_frame (w : World) (trust : Uint256) :
    Frame StoreKept M w (w.noteInvalid trust) := by
  unfold World.noteInvalid
  split_ifs
  · refine ⟨fun _ => rfl, fun _ _ => rfl, rfl, rfl, rfl, rfl, rfl, rfl, rfl, rfl, ⟨?_, id⟩,
      ⟨[], by simp⟩, fun _ => ⟨rfl, rfl⟩, id, fun _ _ h => h⟩
    intro k hk
    exact AList.lookup_insert_ne hk
  · exact Std.Refl.refl w

theorem invalidChainFound_keeps (p : Uint256) : Keeps (Frame StoreKept M) (invalidChainFound p) :=
  Keeps.bind (deref_keeps _) fun new =>
    Keeps.bind (.modify fun w => noteInvalid_frame w new.nChainTrust) fun _ =>
    Keeps.bind (deref_keeps _) fun _ => .bind bestIndex_keeps fun _ =>
    Keeps.ite (.bind (deref_keeps _) fun _ => .pure _) (.pure _)

theorem txnCommit_cases (ctx : Ctx) (fail : Stop) (w : World) :
    txnCommit ctx fail w = .ok () { w with txdb := w.txdb.commit } ∧ w.txdb.activeBatch.isSome ∧
        ctx.commitFails w.txdb = false ∨
      txnCommit ctx fail w = .error fail { w with txdb := w.txdb.abort } ∧
        ctx.commitFails w.txdb = true ∨
      txnCommit ctx fail w = .error (.crash "assert(activeBatch)") w ∧
        w.txdb.activeBatch = none := by
  unfold txnCommit
  rw [get_bind_apply]
  cases hb : w.txdb.activeBatch with
  | none => exact .inr (.inr ⟨rfl, rfl⟩)
  | some b =>
    cases hc : ctx.commitFails w.txdb with
    | true => exact .inr (.inl ⟨rfl, rfl⟩)
    | false => exact .inl ⟨rfl, rfl, rfl⟩

theorem txnCommit_false {fail e : Stop} (h : txnCommit ctx fail w = .error e w')
    (he : e.returnsFalse = true) : w' = { w with txdb := w.txdb.abort } := by
  rcases txnCommit_cases ctx fail w with ⟨h', -⟩ | ⟨h', -⟩ | ⟨h', -⟩
  · rw [h'] at h; cases h
  · rw [h'] at h; cases h; rfl
  · rw [h'] at h; cases h; cases he

/-! ### The loops of `Reorganize` -/

theorem readBlock_keeps {R : World → World → Prop} [IsPreorder World R] (msg : String) :
    Keeps R (readBlock E ctx p msg) := by
  refine .bind (deref_keeps _) fun e => .bind Keeps.get fun w => ?_
  split
  · exact .pure _
  · exact .throw _

theorem disconnectBranch_keeps (nReorgMax : ℤ) (ps : List Uint256) (acc : List CTransaction) :
    Keeps (Frame BatchOnly M) (disconnectBranch E ctx nReorgMax ps acc) := by
  induction ps generalizing acc with
  | nil => exact .pure _
  | cons p ps ih =>
    exact .bind (readBlock_keeps _) fun block =>
      Keeps.bind (.mapError _ disconnectBlock_keeps) fun _ =>
      Keeps.bind (deref_keeps _) fun e => ih _

theorem connectOne_keeps (hp : p ∈ M) : Keeps (Frame BatchOnly M) (connectOne E ctx p) :=
  Keeps.bind (readBlock_keeps _) fun _ =>
    Keeps.bind (.mapError _ (connectBlock_keeps hp)) fun _ =>
    Keeps.bind (deref_keeps _) fun _ => .bind (.lift _) fun _ => .pure _

theorem connectBranch_keeps {ps : List Uint256} (hp : ∀ p ∈ ps, p ∈ M) (acc : List CTransaction) :
    Keeps (Frame BatchOnly M) (connectBranch E ctx ps acc) := by
  induction ps generalizing acc with
  | nil => exact .pure _
  | cons p ps ih =>
    exact .bind (connectOne_keeps (hp p List.mem_cons_self)) fun block =>
      ih (fun q hq => hp q (List.mem_cons_of_mem _ hq)) _

theorem Frame.of_rollingOnly {D : CTxDB → CTxDB → Prop} [IsPreorder CTxDB D]
    (h : RollingOnly w w') : Frame D M w w' := by
  have hroll := h.rollback
  rw [h.eq] at hroll ⊢
  exact ⟨fun _ => rfl, fun _ _ => rfl, rfl, rfl, rfl, rfl, rfl, rfl, rfl, rfl,
    Std.Refl.refl w.txdb, ⟨[], by simp⟩, fun _ => ⟨rfl, rfl⟩, hroll, fun _ _ h => h⟩

/-- The entries of `M` are not on the branch of the best block. -/
def OffBest (w : World) (M : Set Uint256) : Prop :=
  ∀ root b, IndexTree w.mapBlockIndex root → w.pindexBest = some b →
    ∀ q ∈ M, ¬ Forest.Anc (parent w.mapBlockIndex) b q

/-- However `Reorganize` ends before its commit, it has stayed within the batch, and set the supply
of no block of the best chain. -/
theorem switchBranch_frame (E : Env) (ctx : Ctx) (p : Uint256) (w : World) :
    ∃ M, OffBest w M ∧ Frame BatchOnly M w (finalState (switchBranch E ctx p w)) := by
  unfold switchBranch
  rw [bind_apply]
  cases hplan : planReorganize ctx p w with
  | error e w1 =>
    exact ⟨∅, fun _ _ _ _ q hq => absurd hq (Set.notMem_empty q),
      Frame.of_rollingOnly ((planReorganize_keeps ctx p).error hplan)⟩
  | ok plan w1 =>
    obtain ⟨c⟩ := planReorganize_spec hplan
    refine ⟨{q | q ∈ plan.vConnect}, fun root b ht hb q hq => ?_, ?_⟩
    · obtain rfl : c.pBest = b := Option.some.inj (c.pindexBest.symm.trans hb)
      exact c.not_anc_of_mem_vConnect ht hq
    · refine IsTrans.trans _ _ _
        (Frame.of_rollingOnly ((planReorganize_keeps ctx p).ok hplan)) ?_
      have hk : Keeps (Frame BatchOnly {q | q ∈ plan.vConnect}) (do
          let vResurrect ← disconnectBranch E ctx plan.nReorgMax plan.vDisconnect []
          let vDelete ← connectBranch E ctx plan.vConnect []
          let new ← deref (some p)
          modifyDb fun txdb => CTxDB.writeHashBestChain txdb new.hashBlock
          pure (plan, vResurrect, vDelete)) := by
        refine Keeps.bind (disconnectBranch_keeps _ _ _) fun vr =>
          Keeps.bind (connectBranch_keeps (fun _ h => h) _) fun vd =>
          Keeps.bind (deref_keeps _) fun new =>
          Keeps.bind (Frame.of_modifyDb fun txdb => ?_) fun _ => Keeps.pure _
        exact .write _ _ _
      exact hk w1

/-- Where `Reorganize` returns `false`: before its commit, or the batch was not written. -/
theorem reorganize_eq_false (h : reorganize E ctx p w = .error e w') (he : e.returnsFalse = true) :
    switchBranch E ctx p w = .error e w' ∨ ∃ r w1, switchBranch E ctx p w = .ok r w1 ∧
      w' = { w1 with txdb := w1.txdb.abort } := by
  rcases bind_eq_error.1 h with h | ⟨⟨plan, vr, vd⟩, w1, h1, h⟩
  · exact .inl h
  · rcases bind_eq_error.1 h with h | ⟨_, w2, -, h⟩
    · exact .inr ⟨_, w1, h1, txnCommit_false h he⟩
    · have hn : NoFalse (do
          modify fun w : World => w.relink plan.vDisconnect plan.vConnect
          resurrect E ctx vr
          deleteFromPool E vd) :=
        Never.bind (.modify _) fun _ => .bind (resurrect_noFalse _) fun _ =>
          deleteFromPool_noFalse _
      exact absurd he (hn _ _ _ h)

theorem reorganize_false (h : reorganize E ctx p w = .error e w')
    (he : e.returnsFalse = true) (hb : w.txdb.activeBatch.isSome) :
    ∃ M, OffBest w M ∧ Frame StoreKept M w w' := by
  obtain ⟨M, hM, hframe⟩ := switchBranch_frame E ctx p w
  refine ⟨M, hM, ?_⟩
  rcases reorganize_eq_false h he with h1 | ⟨r, w1, h1, rfl⟩
  · rw [h1] at hframe
    exact hframe.storeKept hb
  · rw [h1] at hframe
    exact IsTrans.trans _ _ _ (hframe.storeKept hb) (Frame.of_db (.abort _))

/-! ### `SetBestChain` -/

/-- Where `SetBestChainInner` returns `false`: the block was refused, or the batch was not
written. -/
theorem setBestChainInner_eq_false (h : setBestChainInner E ctx block p w = .error e w')
    (he : e.returnsFalse = true) :
    (∃ e' w1, connectBlock E ctx block p w = .error e' w1 ∧
      invalidChainFound p { w1 with txdb := w1.txdb.abort } = .ok () w') ∨
    ∃ w1, connectBlock E ctx block p w = .ok () w1 ∧
      w' = { w1 with txdb := (w1.txdb.writeHashBestChain (block.getHash E)).abort } := by
  rcases bind_eq_error.1 h with h | ⟨connected, w1, h1, h⟩
  · exact absurd he (Never.attempt _ _ _ _ h)
  cases connected with
  | false =>
    obtain ⟨e', h1, -⟩ := attempt_eq_false.1 h1
    simp only [Bool.not_false, ↓reduceIte] at h
    rw [bind_of_ok (txnAbort_apply w1)] at h
    rcases bind_eq_error.1 h with h | ⟨_, w2, h2, h⟩
    · exact absurd he (invalidChainFound_noFalse p _ _ _ h)
    · obtain rfl : w2 = w' := by cases h; rfl
      exact .inl ⟨e', w1, h1, h2⟩
  | true =>
    obtain ⟨_, h1⟩ := attempt_eq_true.1 h1
    simp only [Bool.not_true, Bool.false_eq_true, ↓reduceIte] at h
    rw [bind_of_ok (modifyDb_apply _ _)] at h
    rcases bind_eq_error.1 h with h | ⟨_, w2, -, h⟩
    · exact .inr ⟨w1, h1, txnCommit_false h he⟩
    · have hn : NoFalse (do
          let e ← deref (some p)
          let _ ← deref e.pprev
          modify fun w : World => w.setPrevNext p (some p)
          removeBlockFromPool E block.vtx) :=
        Never.bind (deref_noFalse _) fun e => .bind (deref_noFalse _) fun _ =>
          Never.bind (.modify _) fun _ => removeBlockFromPool_noFalse _
      exact absurd he (hn _ _ _ h)

theorem setBestChainInner_false (h : setBestChainInner E ctx block p w = .error e w')
    (he : e.returnsFalse = true) (hb : w.txdb.activeBatch.isSome) :
    Frame StoreKept {p} w w' ∧ w'.txdb.activeBatch = none := by
  have hk : Keeps (Frame BatchOnly {p}) (connectBlock E ctx block p) := connectBlock_keeps rfl
  rcases setBestChainInner_eq_false h he with ⟨e', w1, h1, h2⟩ | ⟨w1, h1, rfl⟩
  · have hf2 : Frame StoreKept {p} _ w' := (invalidChainFound_keeps p).ok h2
    exact ⟨IsTrans.trans _ _ _ ((hk.error h1).storeKept hb)
      (IsTrans.trans _ _ _ (Frame.of_db (.abort _)) hf2), hf2.db.batch rfl⟩
  · exact ⟨IsTrans.trans _ _ _ ((IsTrans.trans _ _ _ (hk.ok h1)
      (.of_db (.write _ _ _))).storeKept hb) (.of_db (.abort _)), rfl⟩

/-- Where a switch of branch returns `false`: `Reorganize` did. -/
theorem switchChain_eq_false (h : switchChain E ctx p w = .error e w')
    (he : e.returnsFalse = true) : ∃ best r e' w2,
    w.pindexBest.bind w.mapBlockIndex.lookup = some best ∧
    postpone w.mapBlockIndex best.nChainTrust (height w.mapBlockIndex p + 1) p [] = some r ∧
    reorganize E ctx r.1 w = .error e' w2 ∧ e'.returnsFalse = true ∧
    invalidChainFound p { w2 with txdb := w2.txdb.abort } = .ok () w' := by
  rcases bind_eq_error.1 h with h | ⟨best, w1, h1, h⟩
  · exact absurd he (bestIndex_noFalse _ _ _ h)
  obtain ⟨hbest, hw⟩ := bestIndex_eq_ok.1 h1
  rw [hw, get_bind_apply] at h
  cases hpost : postpone w.mapBlockIndex best.nChainTrust
      (height w.mapBlockIndex p + 1) p [] with
  | none => rw [hpost] at h; cases h; cases he
  | some r =>
    rw [hpost] at h
    rcases bind_eq_error.1 h with h | ⟨switched, w2, h2, h⟩
    · exact absurd he (Never.attempt _ _ _ _ h)
    cases switched with
    | true => exact absurd he (connectPostponed_noFalse _ _ _ _ h)
    | false =>
      obtain ⟨e', h2, he'⟩ := attempt_eq_false.1 h2
      simp only [Bool.not_false, ↓reduceIte] at h
      rw [bind_of_ok (txnAbort_apply w2)] at h
      rcases bind_eq_error.1 h with h | ⟨_, w3, h3, h⟩
      · exact absurd he (invalidChainFound_noFalse p _ _ _ h)
      · obtain rfl : w3 = w' := by cases h; rfl
        exact ⟨best, r, e', w2, hbest, hpost, h2, he', h3⟩

theorem switchChain_false (h : switchChain E ctx p w = .error e w')
    (he : e.returnsFalse = true) (hb : w.txdb.activeBatch.isSome) :
    (∃ M, OffBest w M ∧ Frame StoreKept M w w') ∧ w'.txdb.activeBatch = none := by
  obtain ⟨best, r, e', w2, -, -, h2, he', h3⟩ := switchChain_eq_false h he
  obtain ⟨M, hM, hframe⟩ := reorganize_false h2 he' hb
  have hf3 : Frame StoreKept M _ w' := (invalidChainFound_keeps p).ok h3
  exact ⟨⟨M, hM, IsTrans.trans _ _ _ hframe (IsTrans.trans _ _ _ (Frame.of_db (.abort _)) hf3)⟩,
    hf3.db.batch rfl⟩

theorem startChain_false {hash : Uint256} (h : startChain ctx hash p w = .error e w')
    (he : e.returnsFalse = true) (hb : w.txdb.activeBatch.isSome) :
    Frame StoreKept ∅ w w' ∧ w'.txdb.activeBatch = none := by
  have hframe : Frame BatchOnly ∅ w { w with txdb := .writeHashBestChain w.txdb hash } :=
    Frame.of_db (.write _ _ _)
  unfold startChain at h
  rw [bind_of_ok (modifyDb_apply _ _)] at h
  rcases bind_eq_error.1 h with h | ⟨_, w1, -, h⟩
  · rw [txnCommit_false h he]
    exact ⟨IsTrans.trans _ _ _ (hframe.storeKept hb) (Frame.of_db (.abort _)), rfl⟩
  · have hn : NoFalse (modify fun w : World => { w with pindexGenesisBlock := some p }) :=
      Never.modify _
    exact absurd he (hn _ _ _ h)

/-- Where `SetBestChain` returns `false`: which supplies may have been set, and what is as
before. -/
theorem attachBlock_false (h : attachBlock E ctx block p w = .error e w')
    (he : e.returnsFalse = true) (hb : w.txdb.activeBatch.isSome) :
    (∃ M, (OffBest w M ∨ M = {p} ∧ block.hashPrevBlock = w.hashBestChain) ∧
    Frame StoreKept M w w') ∧ w'.txdb.activeBatch = none := by
  unfold attachBlock at h
  rw [get_bind_apply] at h
  split_ifs at h with hg hd
  · obtain ⟨hf, hn⟩ := startChain_false h he hb
    exact ⟨⟨∅, .inl fun _ _ _ _ q hq => absurd hq (Set.notMem_empty q), hf⟩, hn⟩
  · obtain ⟨e', h', rfl⟩ := mapError_eq_error.1 h
    obtain ⟨hf, hn⟩ := setBestChainInner_false h' (Stop.returnsFalse_of_report he) hb
    exact ⟨⟨{p}, .inr ⟨rfl, hd⟩, hf⟩, hn⟩
  · obtain ⟨⟨M, hM, hf⟩, hn⟩ := switchChain_false h he hb
    exact ⟨⟨M, .inl hM, hf⟩, hn⟩

theorem Frame.of_begin (hf : Frame StoreKept M { w with txdb := w.txdb.begin } w')
    (hn : w'.txdb.activeBatch = none) : Frame StoreKept M w w' :=
  { hf with
    db := ⟨hf.db.lookup, fun _ => hn⟩
    cache := fun S hS => hf.cache S ⟨hS.genesis, hS.best, hS.prev, hS.next⟩ }

theorem setBestChain_false (h : setBestChain E ctx block p w = .error e w')
    (he : e.returnsFalse = true) :
    (∃ M, (OffBest w M ∨ M = {p} ∧ block.hashPrevBlock = w.hashBestChain) ∧
    Frame StoreKept M w w') ∧ w'.txdb.activeBatch = none := by
  rcases bind_eq_error.1 h with h | ⟨_, w1, h1, h⟩
  · exact absurd he (txnBegin_noFalse _ _ _ h)
  · obtain ⟨hnone, rfl⟩ : w.txdb.activeBatch.isSome = false ∧
      w1 = { w with txdb := w.txdb.begin } := by
      unfold txnBegin at h1
      rw [get_bind_apply] at h1
      split_ifs at h1 with hs
      · cases h1
      · cases h1; exact ⟨by simpa using hs, rfl⟩
    rcases bind_eq_error.1 h with h | ⟨_, w2, -, h⟩
    · obtain ⟨⟨M, hM, hf⟩, hn⟩ := attachBlock_false h he rfl
      exact ⟨⟨M, hM, hf.of_begin hn⟩, hn⟩
    · exact absurd he (newBestBlock_noFalse _ _ _ _ _ h)

end Espers
