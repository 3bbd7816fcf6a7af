import Espers.Chain.Run

/-!
# What a node does with good blocks

The other modules say what holds when a call succeeds; here calls are shown to succeed.

* `planReorganize_ok` : on a tree the walks of `Reorganize` always end, so its plan is made whenever
  the direction and depth checks pass and the fork is not below the checkpoint.
* `connectBlock_plain` : a block that holds nothing but a coinbase paying the exact reward connects
  (`PlainBlock`).
* `reorganize_plain` : **a switch between two branches of plain blocks succeeds whenever its plan is
  made**.
-/

namespace Espers

open Exec BlockMap List Forest
open Option (isSome_iff_exists bind_some getD_some)

variable {E : Env} {ctx : Ctx} {g p q tip hash : Uint256} {w w' : World} {e d : CBlockIndex}
  {block : CBlock}

theorem deref_of_lookup (h : w.mapBlockIndex.lookup p = some e) : deref (some p) w = .ok e w :=
  deref_eq_ok.2 ⟨h, rfl⟩

theorem returned_of_ok {x : Node Unit} (h : x w = .ok () w') : returned x w = .ok true w' :=
  attempt_eq_true.2 ⟨(), h⟩

theorem returned_of_false {x : Node Unit} {s : Stop} (h : x w = .error s w')
    (hs : s.returnsFalse = true) : returned x w = .ok false w' :=
  attempt_eq_false.2 ⟨s, h, hs⟩

/-! ### The walks end -/

section Walks

variable {m : BlockMap} {a b f : Uint256}

theorem findFork_ok (ht : IndexTree m g) (fuel : ℕ) (ha : (m.lookup a).isSome)
    (hb : (m.lookup b).isSome) (hf : height m a + height m b < fuel) :
    ∃ f, findFork m fuel a b = .ok f := by
  induction fuel generalizing a b with
  | zero => omega
  | succ fuel ih =>
    rw [findFork]
    by_cases hab : a = b
    · exact ⟨a, if_pos hab⟩
    obtain ⟨ea, hea⟩ := isSome_iff_exists.1 ha
    obtain ⟨eb, heb⟩ := isSome_iff_exists.1 hb
    have hha := height_of_lookup hea
    have hhb := height_of_lookup heb
    simp only [if_neg hab, hea, heb]
    by_cases hlt : eb.nHeight > ea.nHeight
    · obtain ⟨q, hq, hqs⟩ := ht.exists_parent hb (by omega)
      have hqh := ht.graded hq
      rw [parent_of_lookup heb] at hq
      simp only [if_pos hlt, hq]
      exact ih ha hqs (by omega)
    · have hpos : 0 < height m a := by
        by_contra h0
        -- both entries are at height 0, so both are the root
        exact hab ((ht.eq_root ha (by omega)).trans (ht.eq_root hb (by omega)).symm)
      obtain ⟨q, hq, hqs⟩ := ht.exists_parent ha hpos
      have hqh := ht.graded hq
      rw [parent_of_lookup hea] at hq
      simp only [if_neg hlt, hq]
      exact ih hqs hb (by omega)

theorem listBranch_ok (ht : IndexTree m g) (fuel : ℕ) (h : Anc (parent m) p f)
    (hf : height m p < fuel) : ∃ l, listBranch m f fuel p = some l := by
  induction fuel generalizing p with
  | zero => omega
  | succ fuel ih =>
    rw [listBranch]
    by_cases hp : p = f
    · exact ⟨[], if_pos hp⟩
    obtain ⟨q, hq, hqf⟩ := (Anc.cases h).resolve_left hp
    have hqh := ht.graded hq
    obtain ⟨l, hl⟩ := ih hqf (by omega)
    refine ⟨p :: l, ?_⟩
    rw [if_neg hp, show (m.lookup p).bind CBlockIndex.pprev = some q from hq, bind_some, hl]
    rfl

theorem qualityWalk_ok (ht : IndexTree m g) (fuel : ℕ) (hp : (m.lookup p).isSome)
    (h : Anc (parent m) p f)
    (hf : height m p - height m f < fuel) :
    qualityWalk m f (height m f) fuel (height m p) p = some f := by
  induction fuel generalizing p with
  | zero => omega
  | succ fuel ih =>
    rw [qualityWalk]
    by_cases hpf : p = f
    · subst hpf
      rw [if_neg (by omega)]
    obtain ⟨q, hq, hqf⟩ := (Anc.cases h).resolve_left hpf
    have hqh := ht.graded hq
    have hle := hqf.height_le ht.graded
    obtain ⟨e, he⟩ := isSome_iff_exists.1 hp
    have hqs := ht.mem_of_anc (.of_parent hq) hp
    rw [if_pos (by omega), he]
    simp only
    rw [if_neg (by rw [ht.hash p e he]; exact hpf), ← parent_of_lookup he, hq,
      bind_some, show (height m p : ℤ) - 1 = height m q by omega]
    exact ih hqs hqf (by omega)

end Walks

variable {nHeight : ℕ}

/-- The checkpoint that is set for tips high enough. -/
theorem rollingCheckpoints_eq {k : Uint256} {ek : CBlockIndex} (h5 : 5000 ≤ nHeight)
    (he : w.mapBlockIndex.lookup p = some e) (hle : nHeight ≤ e.nHeight + 121)
    (hk : walk (parent w.mapBlockIndex) (e.nHeight + 121 - nHeight) p = some k)
    (hek : w.mapBlockIndex.lookup k = some ek) : rollingCheckpoints nHeight p w =
      .ok true { w with rollingBlock := ek.hashBlock, rollingHeight := ek.nHeight } := by
  have hroll : rollBack w.mapBlockIndex e.nHeight
      (((e.nHeight : ℤ) - ((nHeight : ℤ) - 121)).toNat + 1) ((nHeight : ℤ) - 121) p = some k := by
    rw [rollBack_eq_walk (k := e.nHeight + 121 - nHeight) (by omega) (by omega)]
    exact hk
  have hd := deref_of_lookup he
  have hd' : deref (rollBack w.mapBlockIndex e.nHeight
      (((e.nHeight : ℤ) - ((nHeight : ℤ) - 121)).toNat + 1) ((nHeight : ℤ) - 121) p) w =
      .ok ek w := by
    rw [hroll]
    exact deref_of_lookup hek
  rw [rollingCheckpoints, if_neg (by omega), bind_of_ok hd, bind_apply]
  exact bind_of_ok hd'

theorem checkQuality_ok (ht : IndexTree w.mapBlockIndex g) (he : w.mapBlockIndex.lookup p = some e)
    {c : Uint256} (hc : Anc (parent w.mapBlockIndex) p c) (hb : w.rollingBlock = c)
    (hh : w.rollingHeight = height w.mapBlockIndex c) : checkQuality w e p = .ok () := by
  have hs : (w.mapBlockIndex.lookup p).isSome := by simp [he]
  obtain ⟨d, hd⟩ := isSome_iff_exists.1 (ht.mem_of_anc hc hs)
  have hheight := height_of_lookup he
  have hwalk := qualityWalk_ok ht (((e.nHeight : ℤ) - w.rollingHeight).toNat + 1) hs hc
    (by omega)
  rw [checkQuality, hb, hh, ← hheight]
  rw [hh, ← hheight] at hwalk
  rw [hwalk, bind_some, hd]
  simp [ht.hash c d hd]

theorem branchAbove_ok (ht : IndexTree w.mapBlockIndex g) {f : Uint256} (w1 : World)
    (h : Anc (parent w.mapBlockIndex) p f) :
    ∃ l, branchAbove w f p w1 = .ok l w1 := by
  obtain ⟨l, hl⟩ := listBranch_ok ht (height w.mapBlockIndex p + 2) h (by omega)
  exact ⟨l, by rw [branchAbove, hl]; rfl⟩

/-- **The plan of a reorganisation is made** whenever the direction and depth checks pass, both tips
are high enough, and they have a common ancestor not below the checkpoint. -/
theorem planReorganize_ok {b c : Uint256} {best new : CBlockIndex} {nReorgMax : ℤ}
    (ht : IndexTree w.mapBlockIndex g) (hb : w.pindexBest = some b)
    (hbest : w.mapBlockIndex.lookup b = some best) (hnew : w.mapBlockIndex.lookup p = some new)
    (hm : checkMerge ctx w.fRollbacktoBlock (mergeShape best new) = .ok nReorgMax)
    (h5 : 5000 ≤ min best.nHeight new.nHeight)
    (hcb : Anc (parent w.mapBlockIndex) b c)
    (hcp : Anc (parent w.mapBlockIndex) p c)
    (hc : min best.nHeight new.nHeight ≤ height w.mapBlockIndex c + 121) :
    ∃ plan w', planReorganize ctx p w = .ok plan w' := by
  have hshort : (mergeShape best new).nHeightShorter =
    ((min best.nHeight new.nHeight : ℕ) : ℤ) := by
    unfold mergeShape
    split_ifs <;> simp only <;> omega
  have hhb := height_of_lookup hbest
  have hhp := height_of_lookup hnew
  -- the checkpoint is the ancestor of the best block 121 blocks below the lower tip
  obtain ⟨k, hk, hks⟩ := exists_walk (P := fun a => (w.mapBlockIndex.lookup a).isSome)
    (k := best.nHeight - (min best.nHeight new.nHeight - 121)) ht.graded
    (fun a ha hpos => ht.exists_parent ha hpos)
    (show (w.mapBlockIndex.lookup b).isSome by simp [hbest]) (by omega)
  obtain ⟨ek, hek⟩ := isSome_iff_exists.1 hks
  obtain ⟨hbk, hkh⟩ := (walk_eq_some ht.graded).1 hk
  have hkh' := height_of_lookup hek
  have hck : Anc (parent w.mapBlockIndex) c k :=
    hcb.of_height_le ht.graded hbk (by omega)
  have hbi : bestIndex w = .ok best w := bestIndex_eq_ok.2 ⟨by rw [hb]; exact hbest, rfl⟩
  have hdn := deref_of_lookup hnew
  set w1 : World := { w with fRollbacktoBlock := false }
  set w2 : World := { w1 with rollingBlock := ek.hashBlock, rollingHeight := ek.nHeight }
  set w3 : World := { w2 with fRollingCheckpoint := true }
  have hroll : rollingCheckpoints (mergeShape best new).nHeightShorter (w.pindexBest.getD 0) w1 =
      .ok true w2 := by
    have hk' : walk (parent w.mapBlockIndex)
        (best.nHeight + 121 - min best.nHeight new.nHeight) b = some k := by
      have hsteps : best.nHeight + 121 - min best.nHeight new.nHeight =
        best.nHeight - (min best.nHeight new.nHeight - 121) := by omega
      rw [hsteps]
      exact hk
    have h := rollingCheckpoints_eq (w := w1) (p := b) h5 hbest (by omega) hk' hek
    rw [hshort, hb, getD_some]
    exact h
  have hqual : checkQuality w3 new p = .ok () :=
    checkQuality_ok (w := w3) (c := k) ht hnew (hcp.trans hck) (ht.hash k ek hek) (by
      show (ek.nHeight : ℤ) = _
      rw [← hkh'])
  obtain ⟨f, hf⟩ := findFork_ok ht (best.nHeight + new.nHeight + 2)
    (show (w.mapBlockIndex.lookup b).isSome by simp [hbest])
    (show (w.mapBlockIndex.lookup p).isSome by simp [hnew]) (by omega)
  have hmeet := findFork_spec ht hf
  obtain ⟨ef, hef⟩ := isSome_iff_exists.1
    (ht.mem_of_anc hmeet.left (show (w.mapBlockIndex.lookup b).isSome by simp [hbest]))
  obtain ⟨vd, hvd⟩ := branchAbove_ok (w := w3) ht w3 hmeet.left
  obtain ⟨vc, hvc⟩ := branchAbove_ok (w := w3) ht w3 hmeet.right
  refine ⟨⟨f, vd, vc.reverse, nReorgMax⟩, w3, ?_⟩
  have hdf : deref (some f) w3 = .ok ef w3 := deref_of_lookup hef
  rw [planReorganize, get_bind_apply]
  rw [bind_of_ok hbi, bind_of_ok hdn,
    bind_of_ok (show (modify (fun w => { w with fRollbacktoBlock := false }) : Node Unit) w =
      .ok () w1 from rfl), hm,
    bind_of_ok (lift_ok nReorgMax w1), bind_of_ok hroll,
    bind_of_ok (show (modify (fun w => { w with fRollingCheckpoint := true }) : Node Unit) w2 =
      .ok () w3 from rfl)]
  rw [bind_of_ok (t := w3) (a := ()) (by simp [rejectIf]), bind_apply]
  simp only [get_apply]
  rw [hqual, bind_of_ok (lift_ok () w3), hb, getD_some]
  rw [show findFork w3.mapBlockIndex (best.nHeight + new.nHeight + 2) b p = .ok f from hf,
    bind_of_ok (lift_ok f w3), bind_of_ok hdf,
    bind_of_ok (t := w3) (a := ()) (by simp [rejectIf, bIndexFactor]), bind_of_ok hvd,
    bind_of_ok hvc]
  rfl

/-! ### Plain blocks -/

/-- A block that holds nothing but a coinbase, which pays exactly what a block of height `nHeight`
may pay, and that passes `CheckBlock` under the first size limits. -/
structure PlainBlock (E : Env) (ctx : Ctx) (nHeight : ℕ) (block : CBlock) : Prop where
  coinbase : ∃ cb, block.vtx = [cb] ∧ E.getLegacySigOpCount cb ≤ 300000 ∧
    ∀ supply, calculatedCoinbaseReward supply nHeight 0 = cb.valueOut
  checked : ∀ bestHeight, checkBlock E ⟨15000000, 300000, ctx.getAdjustedTime⟩ bestHeight block true
    true false = .ok ()

/-- The first size limits are in force. -/
structure FirstLimits (w : World) : Prop where
  size : w.maxBlockSize = 15000000
  sigops : w.maxBlockSigops = 300000
  height : w.nBestHeight ≤ sysUpgrade01

theorem Frame.firstLimits {D : CTxDB → CTxDB → Prop} {M : Set Uint256} (h : Frame D M w w')
    (hl : FirstLimits w) : FirstLimits w' := by
  obtain ⟨hs, ho⟩ := h.limits hl.height
  exact ⟨hs.trans hl.size, ho.trans hl.sigops, h.bestHeight ▸ hl.height⟩

theorem PlainBlock.sane (h : PlainBlock E ctx nHeight block) : BlockSane E block :=
  checkBlock_spec (h.checked 0)

theorem PlainBlock.isProofOfStake (h : PlainBlock E ctx nHeight block) :
    block.isProofOfStake = false := by
  obtain ⟨cb, hv, -⟩ := h.coinbase
  simp [CBlock.isProofOfStake, hv]

theorem PlainBlock.spendable {nHeight pos : ℕ} (h : PlainBlock E ctx nHeight block) (v : View) :
    AllSpendable E e pos block.vtx v := by
  obtain ⟨cb, hv, -⟩ := h.coinbase
  obtain ⟨cb', rest, hv', hcb, -⟩ := h.sane.coinbase
  obtain ⟨rfl, -⟩ := cons_eq_cons.1 (hv.symm.trans hv')
  rw [hv]
  exact ⟨by simp [Spendable, CTransaction.spends, hcb], trivial⟩

/-- What the loop of `ConnectBlock` counts in a plain block. -/
theorem connectTransactions_plain (p : Uint256) (e : CBlockIndex) (pos flags : ℕ)
    (hb : PlainBlock E ctx nHeight block) (hl : FirstLimits w)
    (hf : ∀ tx ∈ block.vtx, w.txdb.readTxIndex (E.txHash tx) = none) :
    ∃ t, connectTransactions E w ctx p e flags (.init pos) block.vtx = .ok t ∧ t.nFees = 0 ∧
      t.nValueIn = 0 ∧ (∀ supply, calculatedCoinbaseReward supply nHeight 0 = t.nValueOut) ∧
      t.nCoinbaseReward = t.nValueOut ∧ wrap64 t.nValueOut = t.nValueOut := by
  obtain ⟨cb, hv, hsig, hval⟩ := hb.coinbase
  obtain ⟨cb', rest, hv', hcb, -⟩ := hb.sane.coinbase
  obtain ⟨rfl, -⟩ := cons_eq_cons.1 (hv.symm.trans hv')
  have hsane : TxSane cb := hb.sane.txs cb (by simp [hv])
  have habs : w.txdb.readTxIndex (E.txHash cb) = none := hf cb (by simp [hv])
  have h0 := hsane.nonneg
  have h1 := hsane.le_max
  have hwrap : wrap64 cb.valueOut = cb.valueOut := wrap64_of_range (by omega) (by omega)
  have hno : overwrites w.txdb (E.txHash cb) = false := by simp [overwrites, habs]
  have hsig' : ¬ ((BlockTally.init pos).nSigOps + E.getLegacySigOpCount cb > w.maxBlockSigops) := by
    rw [hl.sigops]
    simpa [BlockTally.init] using hsig
  have hadd : add64 0 cb.valueOut = cb.valueOut := zero_add64 (by omega) (by omega)
  refine ⟨⟨0, 0, cb.valueOut, cb.valueOut, 0, 0 + E.getLegacySigOpCount cb,
    pos + cb.getSerializeSize, (∅ : MapTxIndex).insert (E.txHash cb)
      (.ofOutputs (e.txPos pos) cb.vout.length)⟩, ?_, rfl, rfl, hval, rfl, hwrap⟩
  rw [hv]
  rw [connectTransactions, connectTransaction, rejectIf_of_not (by simp [hno]), except_ok_bind]
  simp only [rejectIf_of_not hsig', except_ok_bind, if_pos hcb, connectCoinBase, hsane.getValueOut,
    connectTransactions]
  simp only [BlockTally.init, hadd]

variable {best : CBlockIndex}

/-- **A plain block connects.** -/
theorem connectBlock_plain (hb : PlainBlock E ctx e.nHeight block) (hl : FirstLimits w)
    (hbest : (w.pindexBest.bind fun hash => w.mapBlockIndex.lookup hash) = some best)
    (he : w.mapBlockIndex.lookup p = some e) (hq : e.pprev = some q)
    (hd : w.mapBlockIndex.lookup q = some d)
    (hf : ∀ tx ∈ block.vtx, w.txdb.readTxIndex (E.txHash tx) = none) :
    ∃ w', connectBlock E ctx block p w = .ok () w' := by
  obtain ⟨t, ht, hfees, hin, hval, hcb, hwrap⟩ := connectTransactions_plain p e
    (firstTxPos e.nBlockPos block) (blockFlags E block.nTime) hb hl hf
  have hpos := hb.isProofOfStake
  have hchk := hb.checked best.nHeight
  have hrew : checkReward E w ctx block e best t = .ok (sub64 t.nValueOut 0) := by
    simp only [checkReward, hpos, hfees, hval]
    rw [rejectIf_of_not (by omega)]
    rfl
  have hsub : sub64 t.nValueOut 0 = t.nValueOut := by rw [sub64, sub_zero, hwrap]
  have hsize : updateBlockSize p w = .ok () w := by
    rw [updateBlockSize, get_bind_apply]
    rw [if_neg (not_lt.2 hl.height)]
    rfl
  refine ⟨w.recordConnected E block p e (some d) t, ?_⟩
  rw [connectBlock, bind_of_ok (t := w) (a := (e, some d, t))]
  · rfl
  rw [checkConnect, bind_of_ok (bestIndex_eq_ok.2 ⟨hbest, rfl⟩), get_bind_apply]
  rw [hl.size, hl.sigops, CBlock.isProofOfWork, hpos, Bool.not_false, hchk,
    bind_of_ok (lift_ok () w), bind_of_ok hsize, bind_of_ok (deref_of_lookup he), bind_apply]
  simp only [get_apply]
  rw [ht, bind_of_ok (lift_ok t w), hrew, bind_of_ok (lift_ok _ w), hin, hsub,
    rejectIf_of_not (by rw [add64, zero_add, hwrap]; omega), bind_of_ok (lift_ok () w),
    bind_of_ok (derefPrev_eq_ok.2 ⟨show some d = _ by rw [hq]; exact hd.symm, fun _ => rfl, rfl⟩)]
  rfl

/-! ### Stored plain blocks -/

/-- The block of the entry under `p` is a plain one. -/
def PlainAt (E : Env) (ctx : Ctx) (w : World) (p : Uint256) : Prop :=
  ∀ e q block, w.mapBlockIndex.lookup p = some e → Stored E w.files p q e block →
    PlainBlock E ctx e.nHeight block

theorem PlainAt.of_sameBlocks (h : PlainAt E ctx w p) (hs : SameBlocks w w') :
    PlainAt E ctx w' p := by
  intro e' q block he hst
  obtain ⟨e, hm, hfix⟩ := hs.tree.lookup he
  rw [CBlockIndex.fixed_nHeight hfix]
  refine h e q block hm (hst.mono hfix.symm ?_)
  rw [hs.files]
  exact .refl _

theorem PlainBlock.work (h : PlainBlock E ctx nHeight block) :
    (checkProofOfWork E (block.getHash E) block.nBits).isOk = true := by
  have hchk := h.checked 0
  simp only [checkBlock, except_bind_eq_ok, rejectIf_eq_ok, exists_const] at hchk
  obtain ⟨-, _, hwork, -⟩ := hchk
  simp only [checkHeaderWork, CBlock.isProofOfWork, h.isProofOfStake] at hwork
  cases hpw : checkProofOfWork E (block.getHash E) block.nBits with
  | ok u => rfl
  | error s => rw [hpw] at hwork; cases hwork

theorem readBlockFromDisk_stored (hr : ctx.blockReadFails p = false) (hp : e.hashBlock = p)
    (hst : Stored E w.files p q e block)
    (hw : (checkProofOfWork E (block.getHash E) block.nBits).isOk = true) :
    readBlockFromDisk E ctx w e = some block := by
  rw [hst.hash] at hw
  simp [readBlockFromDisk, hp, hr, hst.read, hw, hst.hash]

theorem readBlock_stored {msg : String} (hi : Indexed E g w) (hr : ctx.blockReadFails p = false)
    (he : w.mapBlockIndex.lookup p = some e) (hst : Stored E w.files p q e block)
    (hw : (checkProofOfWork E (block.getHash E) block.nBits).isOk = true) :
    readBlock E ctx p msg w = .ok block w := by
  rw [readBlock, bind_of_ok (deref_of_lookup he), bind_apply]
  simp only [get_apply, readBlockFromDisk_stored hr (hi.tree.hash p e he) hst hw]
  rfl

/-- What a call needs from its surroundings to connect plain blocks: the disk works and no velocity
constraint applies. -/
structure Calm (ctx : Ctx) : Prop where
  reads : ∀ p, ctx.blockReadFails p = false
  commits : ∀ txdb, ctx.commitFails txdb = false
  velocity : ∀ nHeight, ctx.velocityCheck nHeight = false

theorem connectBlock_plainAt (hi : Indexed E g w) (hr : Reads E g w q)
    (hnc : NoCollision E w.files.txs) (hl : FirstLimits w)
    (hbest : (w.pindexBest.bind fun hash => w.mapBlockIndex.lookup hash) = some best)
    (he : w.mapBlockIndex.lookup p = some e) (hprev : e.pprev = some q)
    (hst : Stored E w.files p q e block) (hp : PlainBlock E ctx e.nHeight block) :
    ∃ w', connectBlock E ctx block p w = .ok () w' := by
  obtain ⟨l, hch⟩ := hr
  obtain ⟨d, hd, -⟩ := hi.tree.prev p e q he hprev
  have hfresh : Fresh E block.vtx w.txdb.view := by
    refine hch.fresh hi.tree hp.sane he hprev hst.height (hp.spendable _) (hnc.subset ?_)
    intro x hx
    rw [ledger_cons, mem_append, mem_reverse] at hx
    rcases hx with hx | hx
    · exact hst.mem_files hx
    · exact hch.mem_files hx
  exact connectBlock_plain hp hl hbest he hprev hd hfresh.absent

/-! ### Switching between branches of plain blocks -/

theorem connectOne_plain (hi : Indexed E g w) (hr : Reads E g w q)
    (hnc : NoCollision E w.files.txs) (hl : FirstLimits w) (hctx : Calm ctx)
    (hbest : (w.pindexBest.bind fun hash => w.mapBlockIndex.lookup hash) = some best)
    (hpar : parent w.mapBlockIndex p = some q) (hp : PlainAt E ctx w p) :
    ∃ block w', connectOne E ctx p w = .ok block w' := by
  obtain ⟨e, he, hprev⟩ := parent_eq_some.1 hpar
  obtain ⟨block, hst⟩ := hi.stored p e q he hprev
  have hplain := hp e q block he hst
  obtain ⟨w', hw'⟩ := connectBlock_plainAt hi hr hnc hl hbest he hprev hst hplain
  obtain ⟨c⟩ := connectBlock_spec hw'
  refine ⟨block, w', ?_⟩
  rw [connectOne, bind_of_ok (readBlock_stored hi (hctx.reads p) he hst hplain.work),
    bind_of_ok (mapError_eq_ok.2 hw'), bind_of_ok (deref_of_lookup c.entry'),
    rejectIf_of_not (by simp [hctx.velocity])]
  rfl

theorem Frame.exists_best {D : CTxDB → CTxDB → Prop} {M : Set Uint256} (h : Frame D M w w')
    (hb : (w.pindexBest.bind fun hash => w.mapBlockIndex.lookup hash) = some best) :
    ∃ best', (w'.pindexBest.bind fun hash => w'.mapBlockIndex.lookup hash) = some best' := by
  obtain ⟨b, hb, hl⟩ := Option.bind_eq_some_iff.1 hb
  obtain ⟨best', hl'⟩ := isSome_iff_exists.1
    ((h.sameTree.isSome b).trans (isSome_iff_exists.2 ⟨best, hl⟩))
  exact ⟨best', by rw [h.best, hb]; exact hl'⟩

theorem connectBranch_plain {ps : List Uint256} (acc : List CTransaction)
    {f n : Uint256} (hi : Indexed E g w) (hr : Reads E g w f) (hnc : NoCollision E w.files.txs)
    (hl : FirstLimits w) (hctx : Calm ctx)
    (hbest : (w.pindexBest.bind fun hash => w.mapBlockIndex.lookup hash) = some best)
    (hu : Up (parent w.mapBlockIndex) f ps n) (hp : ∀ x ∈ ps, PlainAt E ctx w x) :
    ∃ vDelete w', connectBranch E ctx ps acc w = .ok vDelete w' := by
  induction ps generalizing acc w f best with
  | nil => exact ⟨acc, w, rfl⟩
  | cons x ps ih =>
    cases hu with
    | cons hpar hu =>
    obtain ⟨block, w1, h1⟩ :=
      connectOne_plain hi hr hnc hl hctx hbest hpar (hp x mem_cons_self)
    have hframe : Frame BatchOnly {x} w w1 := (connectOne_keeps (M := {x}) rfl).ok h1
    obtain ⟨best', hbest'⟩ := hframe.exists_best hbest
    obtain ⟨vDelete, w', h'⟩ := ih (acc ++ block.vtx) (hi.frame hframe)
      (reads_connectOne hi hr hnc hpar h1) (by rw [hframe.files]; exact hnc) (hframe.firstLimits hl)
      hbest' (by rw [hframe.sameTree.parent]; exact hu)
      fun y hy => (hp y (mem_cons_of_mem _ hy)).of_sameBlocks hframe.sameBlocks
    exact ⟨vDelete, w', by rw [connectBranch, bind_of_ok h1, h']⟩

theorem PlainBlock.resurrectable {nHeight n : ℕ} {nReorgMax : ℤ}
    (h : PlainBlock E ctx nHeight block) : resurrectable block n nReorgMax = [] := by
  obtain ⟨cb, hv, -⟩ := h.coinbase
  obtain ⟨cb', rest, hv', hcb, -⟩ := h.sane.coinbase
  obtain ⟨rfl, -⟩ := cons_eq_cons.1 (hv.symm.trans hv')
  simp [Espers.resurrectable, hv, hcb]

theorem disconnectBranch_plain (nReorgMax : ℤ) {ps : List Uint256} {b f : Uint256}
    (hi : Indexed E g w) (hr : Reads E g w b) (hnc : NoCollision E w.files.txs) (hctx : Calm ctx)
    (hd : Down (parent w.mapBlockIndex) b ps f) (hp : ∀ x ∈ ps, PlainAt E ctx w x) :
    ∃ w', disconnectBranch E ctx nReorgMax ps [] w = .ok [] w' := by
  induction ps generalizing w b with
  | nil => exact ⟨w, rfl⟩
  | cons x ps ih =>
    cases hd with
    | @cons _ c _ _ hpar hd =>
    obtain ⟨e, he, hprev⟩ := parent_eq_some.1 hpar
    obtain ⟨block, hst⟩ := hi.stored x e c he hprev
    have hplain := hp x mem_cons_self e c block he hst
    obtain ⟨w1, h1, hr1, -⟩ := disconnectBlock_ok hi hr hnc he hprev hst.read
    have hframe : Frame BatchOnly ∅ w w1 := disconnectBlock_keeps.ok h1
    have he1 : w1.mapBlockIndex.lookup x = some e := by
      rw [hframe.untouched x (Set.notMem_empty x)]
      exact he
    obtain ⟨w', h'⟩ := ih (hi.frame hframe) hr1 (by rw [hframe.files]; exact hnc)
      (by rw [hframe.sameTree.parent]; exact hd)
      fun y hy => (hp y (mem_cons_of_mem _ hy)).of_sameBlocks hframe.sameBlocks
    refine ⟨w', ?_⟩
    rw [disconnectBranch, bind_of_ok (readBlock_stored hi (hctx.reads x) he hst hplain.work),
      bind_of_ok (mapError_eq_ok.2 h1), bind_of_ok (deref_of_lookup he1), hplain.resurrectable]
    exact h'

/-- The memory pool is empty. -/
structure EmptyPool (w : World) : Prop where
  mapTx : w.mempool.mapTx = ∅
  mapNextTx : w.mempool.mapNextTx = ∅

theorem removeFromPool_empty (h : EmptyPool w) (tx : CTransaction) :
    removeFromPool E tx w = .ok () w := by
  have hrm : w.mempool.remove E 1 false tx = .ok w.mempool := by
    rw [CTxMemPool.remove, if_pos (by simp [CTxMemPool.contains, h.mapTx])]
  rw [removeFromPool, bind_apply]
  simp only [get_apply, hrm]
  rfl

theorem removeConflicts_empty (h : EmptyPool w) (tx : CTransaction) :
    removeConflicts E tx w = .ok () w := by
  have hrm : w.mempool.removeConflicts E tx = .ok w.mempool := by
    unfold CTxMemPool.removeConflicts
    induction tx.vin with
    | nil => rfl
    | cons txin vin ih =>
      rw [foldlM_cons, h.mapNextTx, AList.lookup_empty]
      exact ih
  rw [removeConflicts, bind_apply]
  simp only [get_apply, hrm]
  rfl

theorem deleteFromPool_empty (h : EmptyPool w) (vtx : List CTransaction) :
    deleteFromPool E vtx w = .ok () w := by
  induction vtx with
  | nil => rfl
  | cons tx vtx ih =>
    rw [deleteFromPool, bind_of_ok (removeFromPool_empty h tx),
      bind_of_ok (removeConflicts_empty h tx)]
    exact ih

theorem removeBlockFromPool_empty (h : EmptyPool w) (vtx : List CTransaction) :
    removeBlockFromPool E vtx w = .ok () w := by
  induction vtx with
  | nil => rfl
  | cons tx vtx ih =>
    rw [removeBlockFromPool, bind_of_ok (removeFromPool_empty h tx)]
    exact ih

theorem txnCommit_ok {fail : Stop} (hctx : Calm ctx) (hb : w.txdb.activeBatch.isSome) :
    txnCommit ctx fail w = .ok () { w with txdb := w.txdb.commit } := by
  rw [txnCommit, get_bind_apply]
  rw [if_neg (by simpa using Option.isSome_iff_ne_none.1 hb), if_neg (by simp [hctx.commits])]
  rfl

/-- The state of a reorganisation between its two loops. -/
structure Between (E : Env) (g f : Uint256) (w w2 : World) : Prop extends Indexed E g w2 where
  reads : Reads E g w2 f
  same : SameBlocks w w2
  limits : FirstLimits w2
  best : ∃ best, (w2.pindexBest.bind fun hash => w2.mapBlockIndex.lookup hash) = some best
  batch : w2.txdb.activeBatch.isSome
  pool : w2.mempool = w.mempool

section

variable (hc : Coherent E g w tip) (hb : w.pindexBest = some tip) (hnc : NoCollision E w.files.txs)
  (hl : FirstLimits w) (hctx : Calm ctx)
include hc hb hnc hl hctx

/-- The first loop of a planned reorganisation away from plain blocks. -/
theorem disconnectBranch_planned {plan : ReorgPlan} {w1 : World}
    (hplan : planReorganize ctx p { w with txdb := w.txdb.begin } = .ok plan w1)
    (hvd : ∀ x ∈ plan.vDisconnect, PlainAt E ctx w x) :
    ∃ w2, disconnectBranch E ctx plan.nReorgMax plan.vDisconnect [] w1 = .ok [] w2 ∧
      Between E g plan.pfork w w2 := by
  obtain ⟨hi1, hr1, hs1, -, hdown, -, -⟩ := planReorganize_begin hc hb hplan
  obtain ⟨c⟩ := planReorganize_spec hplan
  have hf1 : Frame BatchOnly ∅ { w with txdb := w.txdb.begin } w1 :=
    Frame.of_rollingOnly ((planReorganize_keeps ctx p).ok hplan)
  have hnc1 : NoCollision E w1.files.txs := by rw [hs1.files]; exact hnc
  have hl0 : FirstLimits { w with txdb := w.txdb.begin } := ⟨hl.size, hl.sigops, hl.height⟩
  have hdown1 : Down (parent w1.mapBlockIndex) tip plan.vDisconnect plan.pfork := by
    rw [hs1.tree.parent]
    exact hdown
  obtain ⟨w2, h2⟩ := disconnectBranch_plain plan.nReorgMax hi1 hr1 hnc1 hctx hdown1
    fun x hx => (hvd x hx).of_sameBlocks hs1
  have hf2 : Frame BatchOnly ∅ w1 w2 := (disconnectBranch_keeps _ _ _).ok h2
  obtain ⟨best1, hbest1⟩ := hf1.exists_best
    (Option.bind_eq_some_iff.2 ⟨c.pBest, c.pindexBest, c.best_eq⟩)
  exact ⟨w2, h2, hi1.frame hf2, reads_disconnectBranch hi1 hr1 hnc1 hdown1 h2,
    hs1.trans hf2.sameBlocks, hf2.firstLimits (hf1.firstLimits hl0), hf2.exists_best hbest1,
    (hf2.db (hf1.db rfl).2).2, hf2.pool.trans hf1.pool⟩

/-- **A switch between two branches of plain blocks succeeds whenever its plan is made.** -/
theorem reorganize_plain {plan : ReorgPlan} {w1 : World}
    (hpool : EmptyPool w)
    (hplan : planReorganize ctx p { w with txdb := w.txdb.begin } = .ok plan w1)
    (hvd : ∀ x ∈ plan.vDisconnect, PlainAt E ctx w x)
    (hvc : ∀ x ∈ plan.vConnect, PlainAt E ctx w x) :
    ∃ w', reorganize E ctx p { w with txdb := w.txdb.begin } = .ok () w' ∧ EmptyPool w' := by
  obtain ⟨c⟩ := planReorganize_spec hplan
  obtain ⟨w2, h2, hbt⟩ := disconnectBranch_planned hc hb hnc hl hctx hplan hvd
  obtain ⟨best2, hbest2⟩ := hbt.best
  obtain ⟨vDelete, w3, h3⟩ := connectBranch_plain [] hbt.toIndexed hbt.reads
    (by rw [hbt.same.files]; exact hnc) hbt.limits hctx hbest2
    (by rw [hbt.same.tree.parent]; exact c.up) fun x hx => (hvc x hx).of_sameBlocks hbt.same
  have hf3 : Frame BatchOnly {q | q ∈ plan.vConnect} w2 w3 :=
    (connectBranch_keeps (fun _ h => h) _).ok h3
  have hnew : (w3.mapBlockIndex.lookup p).isSome := by
    rw [(hbt.same.tree.trans hf3.sameTree).isSome]
    exact isSome_iff_exists.2 ⟨c.new, c.new_eq⟩
  obtain ⟨new, hnew⟩ := isSome_iff_exists.1 hnew
  have hwrite := (BatchOnly.write w3.txdb .hashBestChain new.hashBlock (hf3.db hbt.batch).2).2
  have hpool3 : w3.mempool = w.mempool := hf3.pool.trans hbt.pool
  set w4 : World := { w3 with txdb := CTxDB.writeHashBestChain w3.txdb new.hashBlock }
  set w5 : World :=
    World.relink { w4 with txdb := Store.Db.commit w4.txdb } plan.vDisconnect plan.vConnect
  have hpool5 : EmptyPool w5 := by
    have hlo := (relink_linksOnly { w4 with txdb := Store.Db.commit w4.txdb } plan.vDisconnect
      plan.vConnect).eq
    have hm : w5.mempool = w.mempool := by
      rw [show w5 = _ from hlo]
      exact hpool3
    exact ⟨by rw [hm]; exact hpool.mapTx, by rw [hm]; exact hpool.mapNextTx⟩
  refine ⟨w5, ?_, hpool5⟩
  have hswitch : switchBranch E ctx p { w with txdb := w.txdb.begin } =
      .ok (plan, [], vDelete) w4 := by
    rw [switchBranch, bind_of_ok hplan, bind_of_ok h2, bind_of_ok h3,
      bind_of_ok (deref_of_lookup hnew)]
    rfl
  rw [reorganize, bind_of_ok hswitch]
  simp only
  rw [bind_of_ok (txnCommit_ok hctx hwrite)]
  exact deleteFromPool_empty hpool5 vDelete

end

end Espers
