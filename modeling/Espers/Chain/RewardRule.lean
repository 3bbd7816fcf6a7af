import Espers.Chain.Simnet

/-!
# The reward of a proof-of-work block

`ConnectBlock` compares the reward of a block twice.  The test on the coinbase rejects a block whose
calculated reward is **greater** than what the coinbase pays, and the test on the whole block
rejects one that puts out more than it takes in and the subsidy; for a proof-of-work block that is a
coinbase that pays too much.

* `ConnectBlockInput` : a block and a state in which every other check of `ConnectBlock` passes.
* `connectTransactions_fees` : the loop counts the fees and the coinbase of the block exactly.
* `ConnectBlockInput.accepted_iff` : **a proof-of-work block is accepted if its coinbase pays the
  calculated reward, not a unit more or less.**
* `rewardRule_iff` : the rule that a coinbase may claim the calculated reward at most is kept for
  the blocks whose coinbase claims all of it.
-/

namespace Espers

open Exec List Except Bool

/-- What the coinbase pays. -/
def CBlock.coinbaseValue (block : CBlock) : ℤ := totalOut (block.vtx.take 1)

/-- The verdict of `ConnectBlock` is about the reward. -/
def onRewardGrounds (verdict : Except Stop Unit) : Bool :=
  decide (verdict = .error (.dos 50 "ConnectBlock() : coinbase reward exceeded")) ||
    decide (verdict =
      .error (.dos 100 "ConnectBlock() : block contains inputs that are less that outputs"))

/-- A block and a state in which the checks of `ConnectBlock` that are not about the reward pass,
with what they have computed. -/
structure ConnectBlockInput (E : Env) (ctx : Ctx) (block : CBlock) (p : Uint256) (w : World) where
  best : CBlockIndex
  e : CBlockIndex
  t : BlockTally
  /-- The state once the size limits are set. -/
  mid : World
  best_eq : (w.pindexBest.bind fun hash => w.mapBlockIndex.lookup hash) = some best
  checked : checkBlock E ⟨w.maxBlockSize, w.maxBlockSigops, ctx.getAdjustedTime⟩ best.nHeight block
    block.isProofOfWork true block.isProofOfStake = .ok ()
  sizes : updateBlockSize p w = .ok () mid
  entry : w.mapBlockIndex.lookup p = some e
  prev_some : e.pprev.isSome → (e.pprev.bind fun q => w.mapBlockIndex.lookup q).isSome
  txs : connectTransactions E mid ctx p e (blockFlags E block.nTime)
    (.init (firstTxPos e.nBlockPos block)) block.vtx = .ok t

/-! ### What the loop counts -/

section Loop

variable {E : Env} {w : World} {ctx : Ctx} {p : Uint256} {e : CBlockIndex} {flags : ℕ}
  {t t' : BlockTally} {tx : CTransaction} {vtx : List CTransaction}

/-- The fees are what came in with the transactions after the coinbase less what they put out. -/
def BlockTally.Fees (t : BlockTally) : Prop :=
  t.nValueOut + t.nFees = t.nCoinbaseReward + t.nValueIn

theorem connectTransaction_coinBase_fees (hcb : tx.isCoinBase = true) (hs : TxSane tx) (pos : ℕ)
    (h : connectTransaction E w ctx p e flags (.init pos) tx = .ok t') :
    t'.Fees ∧ t'.nCoinbaseReward = tx.valueOut := by
  simp only [connectTransaction, hcb, ↓reduceIte, connectCoinBase, hs.getValueOut,
    except_bind_eq_ok, rejectIf_eq_ok, exists_const, ok.injEq,
    except_ok_bind] at h
  obtain ⟨-, -, rfl⟩ := h
  have h0 := hs.nonneg
  have h1 := hs.le_max
  have hadd : add64 0 tx.valueOut = tx.valueOut := zero_add64 (by omega) (by omega)
  exact ⟨by simp [BlockTally.Fees, BlockTally.init, hadd], rfl⟩

/-- A transaction that is neither a coinbase nor a coinstake adds its own fee. -/
theorem connectTransaction_spender_fees (hcb : tx.isCoinBase = false) (hst : tx.isCoinStake = false)
    (hs : TxSane tx) (hr : t.InRange) (hf : t.Fees)
    (h : connectTransaction E w ctx p e flags t tx = .ok t') :
    t'.Fees ∧ t'.nCoinbaseReward = t.nCoinbaseReward := by
  simp only [connectTransaction, hcb, false_eq_true, ↓reduceIte, connectSpender,
    hs.getValueOut, except_bind_eq_ok, rejectIf_eq_ok, exists_const,
    ok.injEq, exists_eq_left'] at h
  obtain ⟨-, -, t2, ⟨m, hm, -, a, ha, t1, ht1, q, hq, rfl⟩, rfl⟩ := h
  rw [addValues_mapQueuedChanges ht1] at hq
  -- the inputs are worth what they are said to be, and no less than the outputs
  obtain ⟨-, -, hval, h0, h1, hfee⟩ := connectInputs_spec hs hcb (fetchInputs_sound hm) hq
  rw [ha, ok.injEq] at hval
  subst hval
  have hb0 := hs.nonneg
  simp only [BlockTally.addValues, hst, false_eq_true, ↓reduceIte, except_bind_eq_ok,
    rejectIf_eq_ok, exists_const, not_lt, ok.injEq] at ht1
  obtain ⟨hin, hout, rfl⟩ := ht1
  have hvi := hr.valueIn
  have hvo := hr.valueOut
  have hvf := hr.fees
  have hmax := hs.le_max
  obtain ⟨hi, hi'⟩ := add64_of_nonneg hvi.1 hvi.2 h0 h1 hin
  obtain ⟨ho, -⟩ := add64_of_nonneg hvo.1 hvo.2 hb0 hmax hout
  unfold BlockTally.Fees at hf ⊢
  dsimp only at hi ho hi' ⊢
  generalize valueIn w.files.diskTx (overlay t.mapQueuedChanges w.txdb.view) tx = x at *
  have hsub : sub64 x tx.valueOut = x - tx.valueOut := wrap64_of_range (by omega) (by omega)
  have hadd : add64 t.nFees (x - tx.valueOut) = t.nFees + (x - tx.valueOut) :=
    wrap64_of_range (by omega) (by omega)
  rw [hsub, hadd]
  omega

theorem connectTransactions_spender_fees (hs : ∀ tx ∈ vtx, TxSane tx)
    (hcb : ∀ tx ∈ vtx, tx.isCoinBase = false) (hst : ∀ tx ∈ vtx, tx.isCoinStake = false)
    (hr : t.InRange) (hf : t.Fees) (h : connectTransactions E w ctx p e flags t vtx = .ok t') :
    t'.Fees ∧ t'.nCoinbaseReward = t.nCoinbaseReward := by
  induction vtx generalizing t with
  | nil =>
    simp only [connectTransactions, ok.injEq] at h
    subst h
    exact ⟨hf, rfl⟩
  | cons tx vtx ih =>
    obtain ⟨t1, h1, h⟩ := except_bind_eq_ok.1 h
    have htx : tx ∈ tx :: vtx := mem_cons_self
    obtain ⟨hstep, -⟩ := connectTransaction_spender (hcb tx htx) (hs tx htx) hr h1
    obtain ⟨hf1, hc1⟩ := connectTransaction_spender_fees (hcb tx htx) (hst tx htx)
      (hs tx htx) hr hf h1
    obtain ⟨hf', hc'⟩ := ih (fun x hx => hs x (mem_cons_of_mem _ hx))
      (fun x hx => hcb x (mem_cons_of_mem _ hx))
      (fun x hx => hst x (mem_cons_of_mem _ hx)) hstep.range hf1 h
    exact ⟨hf', hc'.trans hc1⟩

/-- The loop of `ConnectBlock` over a proof-of-work block counts the fees and the coinbase. -/
theorem connectTransactions_fees {block : CBlock} {pos : ℕ} (hb : BlockSane E block)
    (hpow : block.isProofOfStake = false)
    (h : connectTransactions E w ctx p e flags (.init pos) block.vtx = .ok t') :
    t'.Fees ∧ t'.nCoinbaseReward = block.coinbaseValue := by
  obtain ⟨cb, rest, hv, hcb, hrest⟩ := hb.coinbase
  have hs := hb.txs
  have hst := hb.pow hpow
  rw [hv] at h hs hst
  obtain ⟨t1, h1, h⟩ := except_bind_eq_ok.1 h
  have hcbs : TxSane cb := hs cb mem_cons_self
  obtain ⟨hstep, -⟩ := connectTransaction_coinBase hcb hcbs rfl (BlockTally.init_inRange pos) h1
  obtain ⟨hf1, hc1⟩ := connectTransaction_coinBase_fees hcb hcbs pos h1
  obtain ⟨hf, hc⟩ := connectTransactions_spender_fees
    (fun x hx => hs x (mem_cons_of_mem _ hx)) hrest hst hstep.range hf1 h
  refine ⟨hf, ?_⟩
  rw [hc, hc1, CBlock.coinbaseValue, hv]
  simp [totalOut]

end Loop

/-! ### The two comparisons -/

theorem wrap64_calculatedCoinbaseReward (supply nHeight : ℤ) {nFees : ℤ}
    (hf : wrap64 nFees = nFees) : wrap64 (calculatedCoinbaseReward supply nHeight nFees) =
      calculatedCoinbaseReward supply nHeight nFees := by
  have hadd : ∀ a b : ℤ, wrap64 (add64 a b) = add64 a b := fun a b => wrap64_wrap64 (a + b)
  have hgen : wrap64 nGenesisBlockReward = nGenesisBlockReward := by decide
  unfold calculatedCoinbaseReward getProofOfWorkReward
  split_ifs
  all_goals first | exact hadd _ _ | exact hgen | exact hf

namespace ConnectBlockInput

variable {E : Env} {ctx : Ctx} {block : CBlock} {p : Uint256} {w : World}

/-- The fees of the block: what its transactions take in less what those after the coinbase put
out. -/
def fees (c : ConnectBlockInput E ctx block p w) : ℤ :=
  totalIn w.files.diskTx E c.e (firstTxPos c.e.nBlockPos block) block.vtx w.txdb.view -
    totalOut (block.vtx.drop 1)

/-- The calculated reward: the subsidy of the height and the fees. -/
def reward (c : ConnectBlockInput E ctx block p w) : ℤ :=
  calculatedCoinbaseReward c.best.nMoneySupply c.e.nHeight c.fees

section

variable (c : ConnectBlockInput E ctx block p w)
include c

theorem sane : BlockSane E block :=
    checkBlock_spec c.checked

theorem sizesOnly : SizesOnly w c.mid :=
  (updateBlockSize_keeps p).ok c.sizes

/-- What is left of `ConnectBlock` once the other checks have passed. -/
theorem connectBlock_eq : connectBlock E ctx block p w = (do
        let nReward ← lift (checkReward E c.mid ctx block c.e c.best c.t)
        lift (rejectIf (add64 c.t.nValueIn nReward < c.t.nValueOut)
          (.dos 100 "ConnectBlock() : block contains inputs that are less that outputs"))
        modify fun w' => w'.recordConnected E block p c.e
          (c.e.pprev.bind fun q => w.mapBlockIndex.lookup q) c.t : Node Unit) c.mid := by
  have hidx := c.sizesOnly.index
  have hentry : c.mid.mapBlockIndex.lookup p = some c.e := by rw [hidx]; exact c.entry
  have hprev : derefPrev c.e c.mid = .ok (c.e.pprev.bind fun q => w.mapBlockIndex.lookup q) c.mid :=
    derefPrev_eq_ok.2 ⟨by rw [hidx], c.prev_some, rfl⟩
  rw [connectBlock, checkConnect]
  rw [bind_apply, bind_of_ok (bestIndex_eq_ok.2 ⟨c.best_eq, rfl⟩), get_bind_apply, c.checked,
    bind_of_ok (lift_ok () w), bind_of_ok c.sizes, bind_of_ok (deref_of_lookup hentry),
    get_bind_apply, c.txs, bind_of_ok (lift_ok c.t c.mid)]
  cases hrew : checkReward E c.mid ctx block c.e c.best c.t with
  | error s => rfl
  | ok nReward =>
    rw [bind_of_ok (lift_ok nReward c.mid), bind_of_ok (lift_ok nReward c.mid)]
    by_cases hbal : add64 c.t.nValueIn nReward < c.t.nValueOut
    · rw [rejectIf, if_pos hbal]
      rfl
    · rw [rejectIf_of_not hbal, bind_of_ok (lift_ok () c.mid), bind_of_ok hprev]
      rfl

variable (hpow : block.isProofOfStake = false)
include hpow

theorem counts :
    c.t.InRange ∧ c.t.nFees = c.fees ∧ c.t.nCoinbaseReward = block.coinbaseValue ∧ c.t.Fees := by
  have ht := connectTransactions_spec c.sane c.txs
  obtain ⟨hf, hc⟩ := connectTransactions_fees c.sane hpow c.txs
  have hin := ht.valueIn
  have hout := ht.valueOut
  rw [c.sizesOnly.txdb, c.sizesOnly.files] at hin
  simp only [BlockTally.init, overlay_empty] at hin hout
  have hsplit : totalOut block.vtx = block.coinbaseValue + totalOut (block.vtx.drop 1) := by
    rw [CBlock.coinbaseValue, totalOut, totalOut, totalOut, ← sum_append, ← map_append,
      take_append_drop]
  refine ⟨ht.range, ?_, hc, hf⟩
  unfold BlockTally.Fees at hf
  unfold fees
  omega

theorem rejected_of_lt (h : block.coinbaseValue < c.reward) :
    answer (connectBlock E ctx block p w) =
      .error (.dos 50 "ConnectBlock() : coinbase reward exceeded") := by
  obtain ⟨-, hfee, hcb, -⟩ := c.counts hpow
  have hgt : calculatedCoinbaseReward c.best.nMoneySupply c.e.nHeight
    c.fees > block.coinbaseValue := h
  have hrew : checkReward E c.mid ctx block c.e c.best c.t =
      .error (.dos 50 "ConnectBlock() : coinbase reward exceeded") := by
    simp only [checkReward, hpow, false_eq_true, ↓reduceIte, hfee, hcb, rejectIf, hgt,
      except_error_bind]
  rw [c.connectBlock_eq, hrew]
  rfl

/-- Past the test on the coinbase, the test on the whole block decides. -/
theorem answer_of_le (h : c.reward ≤ block.coinbaseValue) : answer (connectBlock E ctx block p w) =
      if c.reward < block.coinbaseValue then
        .error (.dos 100 "ConnectBlock() : block contains inputs that are less that outputs")
      else .ok () := by
  obtain ⟨hr, hfee, hcb, hf⟩ := c.counts hpow
  have hle : ¬ calculatedCoinbaseReward c.best.nMoneySupply c.e.nHeight
    c.fees > block.coinbaseValue :=
    not_lt.2 h
  have hrew : checkReward E c.mid ctx block c.e c.best c.t = .ok (sub64 c.reward c.t.nFees) := by
    simp only [checkReward, hpow, hfee, hcb, rejectIf_of_not hle]
    rfl
  have hvi := hr.valueIn
  have hvo := hr.valueOut
  have hvf := hr.fees
  have hrange : wrap64 c.reward = c.reward := by
    refine wrap64_calculatedCoinbaseReward _ _ ?_
    exact wrap64_of_range (by omega) (by omega)
  have hlow := wrap64_range c.reward
  -- the block takes in and mints what the other transactions put out and the calculated reward
  have hbal : add64 c.t.nValueIn (sub64 c.reward c.t.nFees) =
      c.t.nValueOut - block.coinbaseValue + c.reward := by
    unfold BlockTally.Fees at hf
    rw [add64, sub64, add_comm, wrap64_wrap_add]
    have hsum : c.reward - c.t.nFees + c.t.nValueIn =
        c.t.nValueOut - block.coinbaseValue + c.reward := by omega
    rw [hsum]
    exact wrap64_of_range (by omega) (by omega)
  rw [c.connectBlock_eq, hrew, bind_of_ok (lift_ok _ c.mid), hbal]
  by_cases hlt : c.reward < block.coinbaseValue
  · rw [rejectIf, if_pos (by omega), if_pos hlt]
    rfl
  · rw [rejectIf_of_not (by omega), if_neg hlt]
    rfl

/-- **A proof-of-work block is accepted if and only if its coinbase pays the calculated reward.** -/
theorem accepted_iff :
    answer (connectBlock E ctx block p w) = .ok () ↔ block.coinbaseValue = c.reward := by
  rcases lt_or_ge block.coinbaseValue c.reward with h | h
  · rw [c.rejected_of_lt hpow h]
    exact ⟨fun hok => absurd hok (by simp), fun heq => absurd heq h.ne⟩
  · rw [c.answer_of_le hpow h]
    by_cases hlt : c.reward < block.coinbaseValue
    · rw [if_pos hlt]
      exact ⟨fun hok => absurd hok (by simp), fun heq => absurd heq hlt.ne'⟩
    · rw [if_neg hlt]
      exact ⟨fun _ => by omega, fun _ => rfl⟩

theorem onRewardGrounds_iff : onRewardGrounds (answer (connectBlock E ctx block p w)) = true ↔
      block.coinbaseValue ≠ c.reward := by
  rcases lt_or_ge block.coinbaseValue c.reward with h | h
  · rw [c.rejected_of_lt hpow h]
    exact ⟨fun _ => h.ne, fun _ => by decide⟩
  · rw [c.answer_of_le hpow h]
    by_cases hlt : c.reward < block.coinbaseValue
    · rw [if_pos hlt]
      exact ⟨fun _ => hlt.ne', fun _ => by decide⟩
    · rw [if_neg hlt]
      exact ⟨fun hrej => absurd hrej (by decide), fun hne => absurd (by omega) hne⟩

end

end ConnectBlockInput

/-! ### Two blocks -/

namespace Simnet

/-- The first block after genesis, with a coinbase that pays `v`. -/
def payingBlock (v : ℤ) : CBlock :=
  { Shape.block ⟨0, 1⟩ 2 with vtx := [{ coinbase 2 with vout := [⟨v, [0x51]⟩] }] }

/-- The index entry of the block with code `c`, stored at `nBlockPos`. -/
def storedEntry (c nBlockPos : ℕ) (pprev : Option Uint256) : CBlockIndex :=
  { linkEntry (hash c) pprev (c / 2) with
    nBlockPos := nBlockPos, nChainTrust := trust c, hashMerkleRoot := hash c, nTime := c + 1,
    nBits := 0x207fffff }

/-- A node whose best block is genesis; the entry of the next block is in the index. -/
def payingWorld (v : ℤ) : World := { emptyWorld with
  mapBlockIndex := AList.insert (hash 2) (storedEntry 2 250 (some (hash 0)))
    (AList.insert (hash 0) (storedEntry 0 8 none) ∅)
  pindexGenesisBlock := some (hash 0)
  pindexBest := some (hash 0)
  hashBestChain := hash 0
  nBestHeight := 0
  nBestChainTrust := trust 0
  files := ⟨1, [⟨1, 250, payingBlock v⟩, ⟨1, 8, Shape.block ⟨0, 1⟩ 0⟩]⟩ }

theorem eq_ok_of_isOk {ε α : Type} {x : Except ε α} (d : α) (h : x.isOk = true) :
    x = .ok (x.toOption.getD d) := by
  cases x with
  | ok a => rfl
  | error e => cases h

/-- The node and the block pass the checks that are not about the reward. -/
def payingInput (v : ℤ)
    (hchk : checkBlock env ⟨15000000, 300000, (context false false).getAdjustedTime⟩ 0
    (payingBlock v)
      true true false = .ok ())
    (htxs : (connectTransactions env (payingWorld v) (context false false) (hash 2)
      (storedEntry 2 250 (some (hash 0))) 1 (.init (firstTxPos 250 (payingBlock v)))
      (payingBlock v).vtx).isOk = true) :
    ConnectBlockInput env (context false false) (payingBlock v) (hash 2) (payingWorld v) where
  best := storedEntry 0 8 none
  e := storedEntry 2 250 (some (hash 0))
  t := _
  mid := payingWorld v
  best_eq := rfl
  checked := hchk
  sizes := rfl
  entry := rfl
  prev_some := fun _ => rfl
  txs := eq_ok_of_isOk (.init 0) htxs

/-- A coinbase that pays the tenth of a coin it may. -/
def exactInput : ConnectBlockInput env (context false false) (payingBlock 10000000) (hash 2)
    (payingWorld 10000000) :=
  payingInput 10000000 (by decide) (by decide)

/-- A coinbase that pays one unit less. -/
def underpaidInput : ConnectBlockInput env (context false false) (payingBlock 9999999) (hash 2)
    (payingWorld 9999999) :=
  payingInput 9999999 (by decide) (by decide)

end Simnet

open Simnet

/-- **When the rule is kept.**  That a proof-of-work block which passes the other checks is rejected
on reward grounds exactly if its coinbase pays more than the calculated reward, and is accepted
otherwise, is true of the blocks whose coinbase pays the calculated reward at least: one that claims
less is rejected too. -/
theorem rewardRule_iff {E : Env} {ctx : Ctx} {block : CBlock} {p : Uint256} {w : World}
    (c : ConnectBlockInput E ctx block p w) (hpow : block.isProofOfStake = false) :
    ((onRewardGrounds (answer (connectBlock E ctx block p w)) = true ↔
        c.reward < block.coinbaseValue) ∧
      (block.coinbaseValue ≤ c.reward → answer (connectBlock E ctx block p w) = .ok ())) ↔
    c.reward ≤ block.coinbaseValue := by
  rw [c.onRewardGrounds_iff hpow, c.accepted_iff hpow]
  constructor
  · rintro ⟨-, hacc⟩
    by_contra hlt
    exact absurd (hacc (by omega)) (by omega)
  · intro h
    exact ⟨⟨fun hne => by omega, fun hlt => hlt.ne'⟩, fun hle => le_antisymm hle h⟩

/-- The block that pays what it may is accepted. -/
theorem rewardRule_exact : (payingBlock 10000000).isProofOfStake = false ∧
    exactInput.reward = 10000000 ∧
    answer (connectBlock env (context false false) (payingBlock 10000000)
      (hash 2) (payingWorld 10000000)) = .ok () := by
  have hrew : exactInput.reward = 10000000 := by decide
  have hval : (payingBlock 10000000).coinbaseValue = 10000000 := by decide
  have hle : exactInput.reward = (payingBlock 10000000).coinbaseValue :=
    hrew.trans hval.symm
  exact ⟨by decide, hrew, ((rewardRule_iff exactInput (by decide)).2 hle.le).2 hle.ge⟩

/-- **A modest coinbase is rejected**: the first block after genesis may be paid a tenth of a coin;
the coinbase claims one unit less, and the block is rejected because of its reward. -/
theorem rewardRule_underpaid : ¬ (∀ (E : Env) (ctx : Ctx) (block : CBlock) (p : Uint256) (w : World)
      (c : ConnectBlockInput E ctx block p w), block.isProofOfStake = false →
      (onRewardGrounds (answer (connectBlock E ctx block p w)) = true ↔
        c.reward < block.coinbaseValue) ∧
      (block.coinbaseValue ≤ c.reward → answer (connectBlock E ctx block p w) = .ok ())) ∧
    underpaidInput.reward = 10000000 ∧
    answer (connectBlock env (context false false) (payingBlock 9999999)
      (hash 2) (payingWorld 9999999)) =
        .error (.dos 50 "ConnectBlock() : coinbase reward exceeded") := by
  have hrew : underpaidInput.reward = 10000000 := by decide
  have hval : (payingBlock 9999999).coinbaseValue = 9999999 := by decide
  have hrej : answer (connectBlock env (context false false) (payingBlock 9999999)
      (hash 2) (payingWorld 9999999)) =
        .error (.dos 50 "ConnectBlock() : coinbase reward exceeded") := by decide
  refine ⟨fun h => ?_, hrew, hrej⟩
  have hacc := (h _ _ _ _ _ underpaidInput (by decide)).2 (by omega)
  cases hacc

end Espers
