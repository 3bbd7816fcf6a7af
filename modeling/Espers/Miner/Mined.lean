import Espers.Chain.RewardRule
import Espers.Miner.Limits
import Espers.Miner.Taken

/-!
# Mined templates connect

A template that has been mined is written to disk and gets an entry in the index, and `ConnectBlock`
goes through its transactions again: it reads their inputs from the view of the chain and from the
records of the block, which point to the block on disk.

* `Submitted` : the state in which `ConnectBlock` is called, when no block was connected since the
  template was made.
* `passesPayments` : the loop, the test on the coinbase and the test on the whole block.
* `createNewBlock_connects` : **a proof-of-work template passes them**, if what it takes in and
  mints is in the range of amounts.
-/

namespace Espers

open Exec Option AList Bool Except
open List hiding Vector

/-! ### The block that is submitted -/

/-- The block is the template with another script in the coinbase, and another header. -/
structure Mined (T : Template) (block : CBlock) : Prop where
  vtx : ∃ cb cb' vtx, T.pblock.vtx = cb :: vtx ∧ block.vtx = cb' :: vtx ∧ cb'.isCoinBase ∧
    cb'.vout = cb.vout

/-- `ConnectBlock` is called on `w'` for the block with the entry `e`, which is built on the best
block of `w`.  Since then no block was connected, the index and the files have grown, and the block
lies where nothing lay before. -/
structure Submitted (ctx' : Ctx) (w w' : World) (hash : Uint256) (e : CBlockIndex) : Prop where
  best : w'.pindexBest = w.pindexBest
  entry : w'.mapBlockIndex.lookup hash = some e
  parent : e.pprev = w.pindexBest
  height : ∀ p d, w.pindexBest = some p → w.mapBlockIndex.lookup p = some d →
    e.nHeight = d.nHeight + 1
  index : ∀ q d, w.mapBlockIndex.lookup q = some d → w'.mapBlockIndex.lookup q = some d
  linked : ∀ q d r, w.mapBlockIndex.lookup q = some d → d.pprev = some r →
    (w.mapBlockIndex.lookup r).isSome
  view : w'.txdb.view = w.chainView
  read : ∀ pos tx, w.files.diskTx pos = some tx → w'.readTxFromDisk ctx' pos = some tx
  place : ∀ h r, w.chainView h = some r → ¬ (e.nBlockPos = r.pos.nBlockPos ∧ e.nFile = r.pos.nFile)

variable {E : Env} {ctx ctx' : Ctx} {w w' : World} {args : MinerArgs} {heap : HeapLayout}
  {hash : Uint256} {e best : CBlockIndex} {T : Template} {block : CBlock}

/-! ### Maturity -/

/-- Seen from one block higher, no further back is looked for a block at the place. -/
theorem isConfirmed_of_higher {m m' : BlockMap} {pos : CDiskTxPos} {n D k : ℕ} {o : Option Uint256}
    (hgrow : ∀ q d, m.lookup q = some d → m'.lookup q = some d)
    (hlinked : ∀ q d r, m.lookup q = some d → d.pprev = some r → (m.lookup r).isSome)
    (ho : ∀ q, o = some q → (m.lookup q).isSome)
    (h : isConfirmedInNPrevBlocks m pos n D (k + 1) o = none) :
    isConfirmedInNPrevBlocks m' pos (n + 1) D k o = none := by
  induction k generalizing o with
  | zero => rfl
  | succ k ih =>
    rw [isConfirmedInNPrevBlocks] at h ⊢
    cases o with
    | none => rfl
    | some q =>
      obtain ⟨d, hd⟩ := isSome_iff_exists.1 (ho q rfl)
      rw [bind_some, hd] at h
      rw [bind_some, hgrow q d hd]
      simp only at h ⊢
      by_cases hlow : ((n + 1 : ℕ) : ℤ) - d.nHeight < D
      · rw [if_pos hlow]
        rw [if_pos (by omega)] at h
        by_cases hat : d.nBlockPos = pos.nBlockPos ∧ d.nFile = pos.nFile
        · rw [if_pos hat] at h
          cases h
        · rw [if_neg hat] at h ⊢
          exact ih (fun r hr => hlinked q d r hd hr) h
      · rw [if_neg hlow]

/-- **What is mature at the best block is mature at the block built on it.** -/
theorem Submitted.mature {p h : Uint256} {r r' : CTxIndex} {t : CTransaction}
    (hsub : Submitted ctx' w w' hash e) (hbest : w.pindexBest = some p)
    (hentry : w.mapBlockIndex.lookup p = some best) (hrec : w.chainView h = some r)
    (hpos : r'.pos = r.pos) (hm : immature w.mapBlockIndex (some p) r t = false) :
    immature w'.mapBlockIndex (some hash) r' t = false := by
  rw [immature_congr hpos]
  unfold immature at hm ⊢
  cases hgen : (t.isCoinBase || t.isCoinStake)
  · rfl
  rw [hgen, Bool.true_and, bind_some, hentry] at hm
  rw [Bool.true_and, bind_some, hsub.entry]
  rw [isSome_eq_false_iff, isNone_iff_eq_none] at hm ⊢
  -- the block itself lies elsewhere, and the walk goes on at its parent
  have hheight := hsub.height p best hbest hentry
  rw [isConfirmedInNPrevBlocks, bind_some, hsub.entry]
  simp only
  rw [if_neg (hsub.place h r hrec), hsub.parent, hbest, hheight]
  split_ifs
  · exact isConfirmed_of_higher hsub.index hsub.linked
      (fun q hq => by rw [← some.inj hq, hentry]; rfl) hm
  · rfl

/-- The signature cache is no part of the answer: a check under `SCRIPT_VERIFY_NOCACHE` is not
stricter. -/
def Env.CacheTransparent (E : Env) : Prop := ∀ txPrev tx i,
  E.verifySignature txPrev tx i mandatoryScriptVerifyFlags = true →
    E.verifySignature txPrev tx i (1 ||| mandatoryScriptVerifyFlags) = true

theorem Env.withScripts_cacheTransparent (S : ScriptEnv) (E : Env) :
    (E.withScripts S).CacheTransparent := fun _ _ _ h =>
  verifySignature_looser (by constructor <;> decide) h

theorem blockFlags_v3 {nTime : ℕ} (h : isProtocolV3 E nTime = true) :
    blockFlags E nTime = 1 ||| mandatoryScriptVerifyFlags := by
  rw [blockFlags, if_pos h]
  decide

variable {p : Uint256} {tx : CTransaction}

/-- **What joins the chain when the template is made joins it when the block is connected.** -/
theorem Submitted.joins {nTime : ℕ}
    (hsub : Submitted ctx' w w' hash e) (hbest : w.pindexBest = some p)
    (hentry : w.mapBlockIndex.lookup p = some best) (hcache : E.CacheTransparent)
    (hv3 : isProtocolV3 E nTime = true)
    (h : Joins E w.mapBlockIndex (some p) w.files.diskTx w.chainView
    mandatoryScriptVerifyFlags tx) : Joins E w'.mapBlockIndex (some hash)
    (w'.readTxFromDisk ctx') w'.txdb.view (blockFlags E nTime) tx ∧
      valueIn (w'.readTxFromDisk ctx') w'.txdb.view tx = valueIn w.files.diskTx w.chainView tx := by
  rw [hsub.view, blockFlags_v3 hv3]
  refine h.transfer (fun o _ r t hs => ⟨r, ⟨hs.record, hsub.read _ _ hs.read, hs.unspent⟩, rfl⟩)
    (fun o r r' t hs hpos hm => hsub.mature hbest hentry hs.record hpos hm)
    fun t i hver => hcache t tx i hver

/-- What a template mints: the subsidy of its height. -/
def subsidy (best : CBlockIndex) (nHeight : ℕ) : ℤ :=
    getProofOfWorkReward best.nMoneySupply nHeight 0

variable {nHeight nBits : ℕ}

theorem subsidy_range (best : CBlockIndex) (h : nHeight ≠ 0) :
    0 < subsidy best nHeight ∧ subsidy best nHeight ≤ 5000000000000000 :=
  getProofOfWorkReward_zero (by
    rw [nGenesisHeight]
    omega)

theorem getProofOfWorkReward_eq (best : CBlockIndex) {nFees : ℤ} (h : nHeight ≠ 0)
    (h0 : 0 ≤ nFees) (h1 : subsidy best nHeight + nFees < 9223372036854775808) :
    getProofOfWorkReward best.nMoneySupply nHeight nFees = subsidy best nHeight + nFees := by
  have hs := subsidy_range best h
  rw [getProofOfWorkReward_fees nFees (by rw [nGenesisHeight]; omega)]
  exact wrap64_of_range (by rw [subsidy] at hs; omega) h1

theorem calculatedCoinbaseReward_eq {supply nFees : ℤ} (h : nHeight < 980950 ∨ 989999 < nHeight) :
    calculatedCoinbaseReward supply nHeight nFees = getProofOfWorkReward supply nHeight nFees := by
  rw [calculatedCoinbaseReward, if_neg (by omega)]

/-! ### The checks -/

/-- The loop of `ConnectBlock`, the test on the coinbase and the test on the whole block: they pass,
with the fees `nFees`, or the loop ends with a verdict that is about BIP30 or the limit of signature
operations. -/
def passesPayments (E : Env) (w : World) (ctx : Ctx) (block : CBlock) (hash : Uint256)
    (e best : CBlockIndex) (nFees : ℤ) : Prop :=
  match connectTransactions E w ctx hash e (blockFlags E block.nTime)
    (.init (firstTxPos e.nBlockPos block)) block.vtx with
  | .error s => s ∈ limitVerdicts
  | .ok t => t.nFees = nFees ∧ ∃ nReward, checkReward E w ctx block e best t = .ok nReward ∧
      ¬ add64 t.nValueIn nReward < t.nValueOut

/-- The payments of a template: what follows the coinbase. -/
def Template.payments (T : Template) : List CTransaction := T.pblock.vtx.tail

/-- What a template takes in. -/
def Template.takenIn (T : Template) (w : World) : ℤ :=
  paymentsIn w.files.diskTx w.chainView T.payments

/-- A block of payments that join the chain, with a coinbase that pays the reward. -/
theorem passesPayments_of_joins {cb : CTransaction} {vtx : List CTransaction}
    {supplied : CBlockIndex} {fees : ℤ} (hvtx : block.vtx = cb :: vtx) (hcb : cb.isCoinBase = true)
    (hst : ∀ tx ∈ vtx, tx.isCoinStake = false)
    (hjoin : ∀ tx ∈ vtx, Joins E w.mapBlockIndex (some hash) (w.readTxFromDisk ctx) w.txdb.view
      (blockFlags E block.nTime) tx)
    (hnd : (vtx.flatMap CTransaction.spends).Nodup)
    (hfees : fees = paymentsIn (w.readTxFromDisk ctx) w.txdb.view vtx - totalOut vtx)
    (hheight : e.nHeight ≠ 0) (hlegacy : e.nHeight < 980950 ∨ 989999 < e.nHeight)
    (hout : cb.getValueOut = .ok cb.valueOut) (hmax : cb.valueOut ≤ 5000000000000000000)
    (hpays : cb.valueOut = subsidy supplied e.nHeight + fees)
    (hrange : subsidy supplied e.nHeight + paymentsIn (w.readTxFromDisk ctx) w.txdb.view vtx <
      9223372036854775808) : passesPayments E w ctx block hash e supplied fees := by
  have hin0 := paymentsIn_nonneg hjoin
  have hfees0 : 0 ≤ fees := by
    have hle := totalOut_le_paymentsIn hjoin
    omega
  have hs := subsidy_range supplied hheight
  have hpow : block.isProofOfStake = false := by
    rw [CBlock.isProofOfStake, hvtx]
    cases vtx with
    | nil => rfl
    | cons tx vtx => exact hst tx mem_cons_self
  unfold passesPayments
  rw [hvtx, connectTransactions]
  rcases connectTransaction_coinBase_of E w ctx hash e (blockFlags E block.nTime)
    (firstTxPos e.nBlockPos block) hcb hout (by omega) hmax with
    ⟨s, hs, hrun⟩ | ⟨b, hrun, hr, hin, hout', hfee, hpaid, hview⟩
  · rw [hrun, except_error_bind]
    exact hs
  rw [hrun, except_ok_bind]
  rcases connectTransactions_of_joins (e := e) hjoin hnd (fun _ _ => not_mem_nil) hview hr
    (by omega) (by omega) with ⟨s, hs, hrun⟩ | ⟨b', hrun, hr', hin', hout'', hfee', hpaid'⟩
  · rw [hrun]
    exact hs
  rw [hrun]
  have hnFees : b'.nFees = fees := by omega
  have hreward : getProofOfWorkReward supplied.nMoneySupply e.nHeight b'.nFees =
      subsidy supplied e.nHeight + fees := by
    rw [hnFees]
    exact getProofOfWorkReward_eq supplied hheight hfees0 (by omega)
  have hsub : sub64 (subsidy supplied e.nHeight + fees) b'.nFees = subsidy supplied e.nHeight := by
    rw [hnFees, sub64, add_sub_cancel_right]
    exact wrap64_of_range (by omega) (by omega)
  refine ⟨hnFees, subsidy supplied e.nHeight, ?_, ?_⟩
  · rw [checkReward, hpow]
    simp only [false_eq_true, ↓reduceIte]
    rw [calculatedCoinbaseReward_eq hlegacy, hreward, rejectIf_of_not (by omega),
      except_ok_bind, hsub]
  · have hadd : add64 b'.nValueIn (subsidy supplied e.nHeight) =
        b'.nValueIn + subsidy supplied e.nHeight := wrap64_of_range (by omega) (by omega)
    omega

/-! ### The template -/

variable {a : Assembly}

theorem Taken.payments_nodup (h : Taken E w p a) : a.vtx.Nodup := by
  -- every transaction spends something, and nothing is spent twice
  have hspends : ∀ tx ∈ a.vtx, tx.spends ≠ [] := by
    intro tx htx hnil
    have hpay := h.paying tx htx
    have h0 := (h.joins tx htx).valueOut_nonneg
    rw [valueIn, hnil, map_nil, sum_nil] at hpay
    omega
  have hnd := h.nodup
  generalize a.vtx = vtx at hspends hnd
  induction vtx with
  | nil => exact nodup_nil
  | cons tx vtx ih =>
    obtain ⟨-, hnd, hdisj⟩ := nodup_append'.1 hnd
    refine nodup_cons.2 ⟨fun hmem => ?_, ih (fun x hx => hspends x (mem_cons_of_mem _ hx)) hnd⟩
    obtain ⟨o, ho⟩ := exists_mem_of_ne_nil _ (hspends tx mem_cons_self)
    exact hdisj ho (mem_flatMap.2 ⟨tx, hmem, ho⟩)

theorem mem_members_of_poolTxs (hpool : w.mempool.Indexed E)
    (h : tx ∈ poolTxs w) : tx ∈ w.mempool.members E := by
  obtain ⟨⟨k, t⟩, hmem, rfl⟩ := mem_map.1 h
  exact hpool.mem (mem_lookup_iff.2 ((mergeSort_perm _ _).subset hmem))

/-- What is taken spends outputs of the chain only: **no template holds a transaction together with
one that it spends.** -/
theorem Taken.parents (h : Taken E w p a)
    (htx : tx ∈ a.vtx) {o : COutPoint} (ho : o ∈ tx.spends) : (w.chainView o.hash).isSome := by
  obtain ⟨r, t, hs⟩ := (h.joins tx htx).source ho
  rw [hs.record]
  rfl

theorem fillTemplate_coinbaseValue {id : Vector UInt8 20} :
    (fillTemplate ctx false p best nHeight nBits (newCoinBase ctx nHeight (some id))
    a).pblock.coinbaseValue = getProofOfWorkReward best.nMoneySupply nHeight a.nFees := by
  simp [CBlock.coinbaseValue, fillTemplate, totalOut, newCoinBase, CTransaction.paying,
    CTransaction.valueOut]

/-- What the template takes in and mints is in the range of amounts: the coinbase is no larger than
one transaction may be, and the totals of `ConnectBlock` do not overflow. -/
structure Template.AmountsFit (T : Template) (w : World) (best : CBlockIndex) : Prop where
  coinbase : T.pblock.coinbaseValue ≤ maxSingleTx
  total : T.takenIn w + subsidy best (best.nHeight + 1) < 2 ^ 63

/-- The loop, the test on the coinbase and the test on the whole block pass for a mined template. -/
theorem passesPayments_of_taken {id : Vector UInt8 20}
    (hT : T = fillTemplate ctx false p best (best.nHeight + 1) nBits
      (newCoinBase ctx (best.nHeight + 1) (some id)) a) (htaken : Taken E w p a)
    (hbest : w.pindexBest = some p) (hentry : w.mapBlockIndex.lookup p = some best)
    (hcache : E.CacheTransparent) (hmined : Mined T block) (hsub : Submitted ctx' w w' hash e)
    (hv3 : isProtocolV3 E block.nTime = true) (hlegacy : e.nHeight < 980950 ∨ 989999 < e.nHeight)
    (hfit : T.AmountsFit w best) : passesPayments E w' ctx' block hash e best T.nFees := by
  have hheight := hsub.height p best hbest hentry
  obtain ⟨cb, cb', vtx, hvtx, hvtx', hcb, hvout⟩ := hmined.vtx
  -- the payments of the block are those that were taken
  have hcbT : T.pblock.vtx = (newCoinBase ctx (best.nHeight + 1) (some id)).paying
      (getProofOfWorkReward best.nMoneySupply (best.nHeight + 1 : ℕ) a.nFees) :: a.vtx := by
    rw [hT]
    rfl
  obtain ⟨rfl, rfl⟩ := List.cons.inj (hvtx.symm.trans hcbT)
  have hjoin := fun tx htx => (hsub.joins hbest hentry hcache hv3 (htaken.joins tx htx)).1
  have hin : paymentsIn (w'.readTxFromDisk ctx') w'.txdb.view a.vtx =
      paymentsIn w.files.diskTx w.chainView a.vtx := by
    unfold paymentsIn
    rw [map_congr_left fun tx htx =>
      (hsub.joins hbest hentry hcache hv3 (htaken.joins tx htx)).2]
  -- the fees are counted without an overflow
  have hpay0 := paymentsIn_nonneg htaken.joins
  have hle := totalOut_le_paymentsIn htaken.joins
  have hout0 : 0 ≤ totalOut a.vtx := sum_nonneg fun x hx => by
    obtain ⟨y, hy, rfl⟩ := mem_map.1 hx
    exact (htaken.joins y hy).valueOut_nonneg
  have hne : best.nHeight + 1 ≠ 0 := Nat.succ_ne_zero _
  have hs := subsidy_range best hne
  have htotal : paymentsIn w.files.diskTx w.chainView a.vtx + subsidy best (best.nHeight + 1) <
      9223372036854775808 := by
    have htot := hfit.total
    rw [Template.takenIn, Template.payments, hcbT, tail_cons] at htot
    simpa using htot
  have hfees : a.nFees = paymentsIn w.files.diskTx w.chainView a.vtx - totalOut a.vtx := by
    rw [htaken.fees]
    exact wrap64_of_range (by omega) (by omega)
  have hnFees : T.nFees = a.nFees := by rw [hT]; rfl
  -- what the coinbase pays
  have hfees0 : 0 ≤ a.nFees := by omega
  have hreward := getProofOfWorkReward_eq best hne hfees0 (by omega)
  have hvalue : cb'.vout = [⟨subsidy best (best.nHeight + 1) + a.nFees, payToKey id⟩] := by
    rw [hvout, hreward]
    rfl
  have hpays : cb'.valueOut = subsidy best (best.nHeight + 1) + a.nFees := by
    simp [CTransaction.valueOut, hvalue]
  have hmax : subsidy best (best.nHeight + 1) + a.nFees ≤ 5000000000000000000 := by
    have hcoin := hfit.coinbase
    rw [hT, fillTemplate_coinbaseValue, hreward] at hcoin
    exact hcoin.trans (by decide)
  have hget : cb'.getValueOut = .ok cb'.valueOut := by
    have hmoney : moneyRange (subsidy best (best.nHeight + 1) + a.nFees) = true :=
      moneyRange_iff.2 ⟨by omega, hmax⟩
    have hadd : add64 0 (subsidy best (best.nHeight + 1) + a.nFees) =
        subsidy best (best.nHeight + 1) + a.nFees := zero_add64 (by omega) (by omega)
    rw [CTransaction.getValueOut, hvalue, hpays]
    simp [sumValues, hadd, hmoney]
  rw [hnFees]
  refine passesPayments_of_joins hvtx' hcb (fun tx htx => (htaken.candidates tx htx).notCoinStake)
    hjoin htaken.nodup (by rw [hin, hfees]) (by omega) hlegacy hget (hpays.trans_le hmax) ?_ ?_
  · rw [hheight, hpays]
  · rw [hheight, hin]
    omega

/-- **Mined templates connect.**  The payments of a proof-of-work template are transactions of the
pool, each listed once and after those of the pool that it spends and the chain does not have; none
spends an outpoint that another one spends.  As long as no block is connected after the template was
made and its amounts fit, `ConnectBlock` finds nothing wrong with the inputs, the coinbase and the
balance of the block, and counts the same fees. -/
theorem createNewBlock_connects {key : Option (Vector UInt8 20)}
    (hT : createNewBlock E ctx args heap w false key = .ok T) (hpool : w.mempool.Indexed E)
    (hcache : E.CacheTransparent) :
    (∀ tx ∈ T.payments, tx ∈ w.mempool.members E) ∧
    (T.payments.map E.txHash).Nodup ∧
    (∀ before tx after, T.payments = before ++ tx :: after → ∀ o ∈ tx.spends, ∀ parent,
      w.mempool.mapTx.lookup o.hash = some parent → w.chainView o.hash = none → parent ∈ before) ∧
    (T.payments.flatMap CTransaction.spends).Nodup ∧
    ∀ (ctx' : Ctx) (w' : World) (block : CBlock) (hash p : Uint256) (e best : CBlockIndex),
      w.pindexBest = some p → w.mapBlockIndex.lookup p = some best → Mined T block →
      Submitted ctx' w w' hash e → isProtocolV3 E block.nTime = true →
      (e.nHeight < 980950 ∨ 989999 < e.nHeight) → T.AmountsFit w best →
      passesPayments E w' ctx' block hash e best T.nFees := by
  obtain ⟨p, best, nBits, a, hbest, hentry, hfill, hkey, htaken⟩ := createNewBlock_taken hT
  obtain ⟨id, rfl⟩ := isSome_iff_exists.1 (hkey rfl)
  have hpayments : T.payments = a.vtx := by
    rw [Template.payments, hfill]
    rfl
  rw [hpayments]
  have hmem : ∀ tx ∈ a.vtx, tx ∈ w.mempool.members E := fun tx htx =>
    mem_members_of_poolTxs hpool (htaken.candidates tx htx).pooled
  refine ⟨hmem, ?_, ?_, htaken.nodup, ?_⟩
  · refine htaken.payments_nodup.map_on fun x hx y hy heq => ?_
    have hx' : w.mempool.mapTx.lookup (E.txHash x) = some x := hmem x hx
    rw [heq] at hx'
    exact some.inj (hx'.symm.trans (hmem y hy))
  · intro before tx after hsplit o ho parent _ hnone
    have htx : tx ∈ a.vtx := by
      rw [hsplit]
      exact mem_append_right _ mem_cons_self
    have hsome := htaken.parents htx ho
    rw [hnone] at hsome
    cases hsome
  · intro ctx' w' block hash p' e best' hbest' hentry' hmined hsub hv3 hlegacy hfit
    obtain rfl := some.inj (hbest.symm.trans hbest')
    obtain rfl := some.inj (hentry.symm.trans hentry')
    exact passesPayments_of_taken hfill htaken hbest hentry hcache hmined hsub hv3 hlegacy hfit

/-! ### A template with one payment -/

namespace Simnet

/-- The scripts of the draws. -/
def plainScript (_ : ℕ) : CScript := [0x51]

/-- The entry of the block after the bank, where it is written. -/
def minedEntry : CBlockIndex := { bankEntry with
  hashBlock := 2
  pprev := some 1
  nBlockPos := 163
  nHeight := 700001 }

/-- The node of the bank, once a block is written and indexed. -/
def minedWorld (v : ℤ) (block : CBlock) : World := { bankWorld 1 v plainScript with
  mapBlockIndex := AList.insert 2 minedEntry (AList.insert 1 bankEntry ∅)
  files := ((bankWorld 1 v plainScript).files.writeToDisk block).1 }

theorem bankWorld_pool_indexed (v : ℤ) :
    (bankWorld 1 v plainScript).mempool.Indexed countingEnv := by
  have hnone : CTxMemPool.empty.mapTx.lookup (countingEnv.txHash (drawTx 0 (plainScript 0))) =
    none :=
    lookup_empty _
  refine CTxMemPool.addUnchecked_indexed CTxMemPool.empty_indexed hnone ?_ ?_
  · intro txin _
    exact lookup_empty _
  · exact nodup_singleton _

theorem countingEnv_cacheTransparent : countingEnv.CacheTransparent := fun _ _ _ _ => rfl

theorem bankWorld_chainView {v : ℤ} {h : Uint256} {r : CTxIndex}
    (hr : (bankWorld 1 v plainScript).chainView h = some r) : r = .ofOutputs bankPos 1 := by
  by_cases hh : h = 1
  · subst hh
    exact (some.inj ((bank_readTxIndex (v := v) (s := plainScript) (n := 1)).symm.trans hr)).symm
  · have hne : DbKey.tx h ≠ DbKey.tx 1 := fun heq => hh (DbKey.tx.inj heq)
    have hnone : (bankWorld 1 v plainScript).chainView h = none := by
      exact (lookup_insert_ne hne).trans (lookup_empty _)
    rw [hnone] at hr
    cases hr

theorem bankWorld_lookup_ne {q : Uint256} (hq : q ≠ 1) :
    (bankWorld 1 v plainScript).mapBlockIndex.lookup q = none :=
  (lookup_insert_ne hq).trans (lookup_empty _)

theorem minedWorld_submitted (v : ℤ) (block : CBlock) :
    Submitted (context false false) (bankWorld 1 v plainScript)
    (minedWorld v block) 2 minedEntry where
  best := rfl
  entry := lookup_insert _
  parent := rfl
  height := by
    rintro p d ⟨⟩ hd
    obtain rfl := some.inj ((lookup_insert _).symm.trans hd)
    rfl
  index := by
    intro q d hq
    by_cases hq1 : q = 1
    · subst hq1
      exact (lookup_insert_ne (by decide)).trans hq
    · cases (bankWorld_lookup_ne hq1).symm.trans hq
  linked := by
    intro q d r hq hr
    by_cases hq1 : q = 1
    · subst hq1
      obtain rfl := some.inj ((lookup_insert _).symm.trans hq)
      cases hr
    · cases (bankWorld_lookup_ne hq1).symm.trans hq
  view := rfl
  read := (writeToDisk_grows _ block).diskTx
  place := by
    rintro h r hr ⟨hpos, -⟩
    rw [bankWorld_chainView hr] at hpos
    exact absurd hpos (by decide)

/-- The template that is made on the bank, from the draw of `v` and with the arguments. -/
def bankTemplate (args : MinerArgs) (v : ℤ) : Except Stop Template :=
  createNewBlock countingEnv (context false false) args plainHeap (bankWorld 1 v plainScript) false
    (some minerKey)

theorem mined_self {T : Template}
    (h : (T.pblock.vtx.head?.map CTransaction.isCoinBase) = some true) : Mined T T.pblock := by
  cases hvtx : T.pblock.vtx with
  | nil =>
    rw [hvtx] at h
    cases h
  | cons cb vtx =>
    rw [hvtx] at h
    exact ⟨cb, cb, vtx, hvtx, hvtx, some.inj h, rfl⟩

theorem map_of_ok {ε α β : Type} {x : Except ε α} {a : α} {f : α → β} {b : β} (h : x = .ok a)
    (hb : x.map f = .ok b) : f a = b := by
  rw [h] at hb
  exact ok.inj hb

end Simnet

open Simnet

/-- The theorem at the bank: one draw of ten thousand coins is taken for fees, the block that is
mined is connected. -/
theorem createNewBlock_connects_draw : ∃ T, bankTemplate {} 1000000000000 = .ok T ∧
    T.nFees = 1000000000000 ∧ T.payments.length = 1 ∧
    (T.payments.map countingEnv.txHash).Nodup ∧
    passesPayments countingEnv (minedWorld 1000000000000 T.pblock)
      (context false false) T.pblock 2 minedEntry bankEntry 1000000000000 := by
  obtain ⟨T, hT⟩ : ∃ T, bankTemplate {} 1000000000000 = .ok T := by
    cases h : bankTemplate {} 1000000000000 with
    | ok T => exact ⟨T, rfl⟩
    | error s =>
      have hok : (bankTemplate {} 1000000000000).isOk = true := by decide +kernel
      rw [h] at hok
      cases hok
  have hfees : T.nFees = 1000000000000 :=
    map_of_ok (f := Template.nFees) hT (by decide +kernel)
  have hcount : T.payments.length = 1 :=
    map_of_ok (f := fun T => T.payments.length) hT (by decide +kernel)
  have hhead : (T.pblock.vtx.head?.map CTransaction.isCoinBase) = some true :=
    map_of_ok (f := fun T => T.pblock.vtx.head?.map CTransaction.isCoinBase) hT (by decide +kernel)
  have hcoin : T.pblock.coinbaseValue = 1500000000000 :=
    map_of_ok (f := fun T => T.pblock.coinbaseValue) hT (by decide +kernel)
  have hin : T.takenIn (bankWorld 1 1000000000000 plainScript) = 1000000000000 :=
    map_of_ok (f := fun T => T.takenIn (bankWorld 1 1000000000000 plainScript))
      hT (by decide +kernel)
  have hsubsidy : subsidy bankEntry (bankEntry.nHeight + 1) =
    500000000000 := by decide
  obtain ⟨-, hnd, -, -, hconn⟩ := createNewBlock_connects hT (bankWorld_pool_indexed _)
    countingEnv_cacheTransparent
  have hfit : T.AmountsFit (bankWorld 1 1000000000000 plainScript)
    bankEntry := by
    refine ⟨?_, ?_⟩
    · rw [hcoin]
      decide
    · rw [hin, hsubsidy]
      norm_num
  have hpass := hconn _ _ T.pblock 2 1 minedEntry bankEntry rfl
    (lookup_insert _) (mined_self hhead) (minedWorld_submitted _ T.pblock) rfl
    (.inl (by decide)) hfit
  rw [hfees] at hpass
  exact ⟨T, hT, hfees, hcount, hnd, hpass⟩

/-- **A template that does not connect.**  The draw is of the largest amount a transaction may put
out, and with the subsidy the coinbase is to be paid more than that: `ConnectBlock` throws when it
adds up the outputs of the coinbase. -/
theorem createNewBlock_lavish :
    ¬ (∀ (E : Env) (ctx ctx' : Ctx) (args : MinerArgs) (heap : HeapLayout) (w w' : World)
      (key : Option (Vector UInt8 20)) (T : Template) (block : CBlock) (hash p : Uint256)
      (e best : CBlockIndex), createNewBlock E ctx args heap w false key = .ok T →
      w.mempool.Indexed E → (∀ tx ∈ w.mempool.members E, ∀ o ∈ tx.spends,
        (w.chainView o.hash).isSome ∨ (w.mempool.mapTx.lookup o.hash).isSome) → E.CacheTransparent →
      w.pindexBest = some p → w.mapBlockIndex.lookup p = some best → Mined T block →
      Submitted ctx' w w' hash e → isProtocolV3 E block.nTime = true →
      (e.nHeight < 980950 ∨ 989999 < e.nHeight) →
      passesPayments E w' ctx' block hash e best T.nFees) ∧
    ∃ T, bankTemplate greedyArgs 5000000000000000000 = .ok T ∧
      connectTransactions countingEnv (minedWorld 5000000000000000000 T.pblock)
        (context false false) 2 minedEntry
        (blockFlags countingEnv T.pblock.nTime)
        (.init (firstTxPos minedEntry.nBlockPos T.pblock)) T.pblock.vtx =
      .error (.exception "CTransaction::GetValueOut() : value out of range") := by
  obtain ⟨T, hT⟩ : ∃ T, bankTemplate greedyArgs 5000000000000000000 = .ok T := by
    cases h : bankTemplate greedyArgs 5000000000000000000 with
    | ok T => exact ⟨T, rfl⟩
    | error s =>
      have hok : (bankTemplate greedyArgs 5000000000000000000).isOk = true := by
        decide +kernel
      rw [h] at hok
      cases hok
  have hhead : (T.pblock.vtx.head?.map CTransaction.isCoinBase) = some true :=
    map_of_ok (f := fun T => T.pblock.vtx.head?.map CTransaction.isCoinBase) hT (by decide +kernel)
  have hrun : connectTransactions countingEnv
    (minedWorld 5000000000000000000 T.pblock)
      (context false false) 2 minedEntry
      (blockFlags countingEnv T.pblock.nTime)
      (.init (firstTxPos minedEntry.nBlockPos T.pblock)) T.pblock.vtx =
      .error (.exception "CTransaction::GetValueOut() : value out of range") := by
    have hmap : (connectTransactions countingEnv (minedWorld 5000000000000000000 T.pblock)
        (context false false) 2 minedEntry
        (blockFlags countingEnv T.pblock.nTime)
        (.init (firstTxPos minedEntry.nBlockPos T.pblock)) T.pblock.vtx).map (fun _ => ()) =
        .error (.exception "CTransaction::GetValueOut() : value out of range") :=
      map_of_ok (f := fun T => (connectTransactions countingEnv
        (minedWorld 5000000000000000000 T.pblock)
        (context false false) 2 minedEntry
        (blockFlags countingEnv T.pblock.nTime)
        (.init (firstTxPos minedEntry.nBlockPos T.pblock)) T.pblock.vtx).map (fun _ => ()))
        hT (by decide +kernel)
    revert hmap
    cases connectTransactions countingEnv (minedWorld 5000000000000000000 T.pblock)
      (context false false) 2 minedEntry
      (blockFlags countingEnv T.pblock.nTime)
      (.init (firstTxPos minedEntry.nBlockPos T.pblock)) T.pblock.vtx with
    | ok t => exact fun hmap => absurd hmap (by simp [Except.map])
    | error s => exact fun hmap => congrArg Except.error (error.inj hmap)
  refine ⟨fun h => ?_, T, hT, hrun⟩
  have hpass := h countingEnv (context false false) (context false false)
    greedyArgs plainHeap (bankWorld 1 5000000000000000000 plainScript)
    (minedWorld 5000000000000000000 T.pblock) (some minerKey) T T.pblock 2 1
    minedEntry bankEntry hT (bankWorld_pool_indexed _) ?_
    countingEnv_cacheTransparent rfl (lookup_insert _) (mined_self hhead)
    (minedWorld_submitted _ _) rfl (.inl (by decide))
  · unfold passesPayments at hpass
    rw [hrun] at hpass
    have hnot : ¬ Stop.exception
      "CTransaction::GetValueOut() : value out of range" ∈ limitVerdicts := by
      decide
    exact hnot hpass
  · -- the draw spends the bank
    intro tx htx o ho
    have hlook : (bankWorld 1 5000000000000000000 plainScript).mempool.mapTx.lookup
      2 = some (drawTx 0 (plainScript 0)) := lookup_insert _
    have hmem : (bankWorld 1 5000000000000000000 plainScript).mempool.mapTx.lookup
        (countingEnv.txHash tx) = some tx := htx
    by_cases hh : countingEnv.txHash tx = 2
    · rw [hh, hlook, some.injEq] at hmem
      subst hmem
      have ho' : o = ⟨1, 0⟩ := mem_singleton.1 ho
      subst ho'
      exact .inl (by decide)
    · rw [show (bankWorld 1 5000000000000000000 plainScript).mempool.mapTx.lookup
        (countingEnv.txHash tx) = none from
        (lookup_insert_ne hh).trans (lookup_empty _)] at hmem
      cases hmem

end Espers
