import Espers.Chain.Postponed

/-!
# A simulated network

A small network on which whole runs can be followed: hashes are time stamps, signatures are valid,
every block has the same target.  The block with code `c` has height `c / 2`; even codes are the
main chain and odd codes a side branch that leaves it above the height `fork` (`Shape`).

* `plainBlock` : the blocks of the network are plain, except for one that spends an output nobody
  has made.
* `exists_mainChain` : **the main chain can be grown to any height** below the first change of the
  size limits.
-/

namespace Espers.Simnet

open Exec List Option AList Nat BlockMap

/-! ### The network -/

/-- The hash of the block with code `c`, and of its coinbase. -/
def hash (c : ℕ) : Uint256 := BitVec.ofNat 256 (c + 1)

/-- Codes in use are smaller. -/
def codes : ℕ := 1300000

/-- Hashes are time stamps, and every signature is valid. -/
def env : Env where
  txHash tx := BitVec.ofNat 256 tx.nTime
  headerHash header := BitVec.ofNat 256 header.nTime
  pairHash a b := a + b
  verifySignature _ _ _ _ := true
  getLegacySigOpCount _ := 0
  getP2SHSigOpCount _ _ := 0
  checkBlockSignature _ := true
  isStandardTx _ := true
  areInputsStandard _ _ := true
  testNet := false
  hashGenesisBlock := hash 0
  proofOfWorkLimit := 2 ^ 255 - 1
  startPoSBlock := 1000000
  getTotalBlocksEstimate := 0

/-- A call on a node whose disk works, of a block relayed by a peer that is a Demi-node or not. -/
def context (fDemiPeerRelay fDemiNodes : Bool) : Ctx where
  getTime := 10000000
  getAdjustedTime := 10000000
  fDemiPeerRelay := fDemiPeerRelay
  fDemiNodes := fDemiNodes
  fDemiSelf := false
  peerReorgType := 0
  nNewHeight := 0
  velocityCheck _ := false
  velocity _ _ := true
  blockReadFails _ := false
  txReadFails _ := false
  commitFails _ := false
  freeLimiter _ := false
  getNextTargetRequired _ _ := .ok 0x207fffff
  checkHardened _ _ := true
  checkSync _ := true
  checkProofOfStake _ _ := (true, 0)
  computeNextStakeModifier _ := some (0, false)
  computeStakeModifierV2 _ _ := 0
  checkDiskSpace := true
  writeFails := false

/-- What the block with code `c` pays. -/
def reward (c : ℕ) : ℤ := calculatedCoinbaseReward 0 (c / 2 : ℕ) 0

/-- The coinbase of the block with code `c`. -/
def coinbase (c : ℕ) : CTransaction where
  nVersion := 1
  nTime := c + 1
  vin := [⟨.null, pushInt (c / 2) ++ [0, 0], uintMax⟩]
  vout := [⟨reward c, [0x51]⟩]
  nLockTime := 0

/-- A transaction that spends an output nobody has made. -/
def strayTx : CTransaction where
  nVersion := 1
  nTime := 0
  vin := [⟨⟨BitVec.ofNat 256 (2 ^ 255), 0⟩, [], uintMax⟩]
  vout := [⟨1, [0x51]⟩]
  nLockTime := 0

/-- The height at which the side branch leaves the main chain, and the code of the block that holds
`strayTx`. -/
structure Shape where
  fork : ℕ
  bad : ℕ

namespace Shape

/-- The code of the block below. -/
def parent (s : Shape) (c : ℕ) : ℕ := if c % 2 = 1 ∧ c / 2 = s.fork + 1 then 2 * s.fork else c - 2

/-- The transactions of a block. -/
def vtx (s : Shape) (c : ℕ) : List CTransaction :=
  coinbase c :: if c = s.bad then [strayTx] else []

/-- The block with code `c`. -/
def block (s : Shape) (c : ℕ) : CBlock where
  nVersion := 7
  hashPrevBlock := if c = 0 then 0 else hash (s.parent c)
  hashMerkleRoot := (merkleRows env (s.vtx c).length ((s.vtx c).map env.txHash) 0
    (s.vtx c).length).getLastD 0
  nTime := c + 1
  nBits := 0x207fffff
  nNonce := 0
  vtx := s.vtx c
  vchBlockSig := []

end Shape

variable {s : Shape} {c d : ℕ} {a b : Bool}

theorem context_calm : Calm (context a b) := ⟨fun _ => rfl, fun _ => rfl, fun _ => rfl⟩

theorem hash_inj (hc : c < codes) (hd : d < codes) : hash c = hash d ↔ c = d := by
  unfold codes at hc hd
  constructor
  · intro h
    have := congrArg BitVec.toNat h
    simp only [hash, BitVec.toNat_ofNat] at this
    omega
  · rintro rfl; rfl

theorem getHash_block : (s.block c).getHash env = hash c := rfl

theorem blockTrust : getBlockTrust 0x207fffff = 2 := by decide

/-! ### The blocks pass their checks -/

theorem calculatedCoinbaseReward_supply (supply nHeight nFees : ℤ) :
    calculatedCoinbaseReward supply nHeight nFees = calculatedCoinbaseReward 0 nHeight nFees := by
  unfold calculatedCoinbaseReward getProofOfWorkReward
  split_ifs <;> first | rfl | omega

theorem reward_range (c : ℕ) : 0 < reward c ∧ reward c ≤ 5000000000000000 := by
  unfold reward calculatedCoinbaseReward
  split_ifs with h
  · decide
  · by_cases h0 : ((c / 2 : ℕ) : ℤ) = nGenesisHeight
    · rw [getProofOfWorkReward, if_pos h0]
      decide
    · exact getProofOfWorkReward_zero h0

theorem pushInt_length (n : ℕ) (hn : n < codes) : (pushInt n).length ≤ 5 := by
  have hdig : (Nat.digits 256 n).length ≤ 3 := by
    rw [digits_length_le_iff (by norm_num)]
    unfold codes at hn
    omega
  have hvch : (getvch n).length ≤ 4 := by
    unfold getvch
    simp only
    split_ifs <;> simp <;> omega
  unfold pushInt pushData
  split_ifs <;> simp only [length_cons, length_nil] <;> omega

theorem coinbase_isCoinBase : (coinbase c).isCoinBase = true := by
  simp [CTransaction.isCoinBase, coinbase, COutPoint.isNull, COutPoint.null]

theorem getSizeOfCompactSize_of_lt {n : ℕ} (h : n < 253) : getSizeOfCompactSize n = 1 := if_pos h

theorem coinbase_size (hc : c < codes) : (coinbase c).getSerializeSize ≤ 100 := by
  have := pushInt_length (c / 2) (by omega)
  simp only [CTransaction.getSerializeSize, coinbase, map_cons, map_nil, sum_cons,
    sum_nil, CTxIn.getSerializeSize, CTxOut.getSerializeSize, sizeOfBytes, length_append,
    length_cons, length_nil]
  rw [getSizeOfCompactSize_of_lt (by omega), getSizeOfCompactSize_of_lt (by omega)]
  omega

theorem checkOutputs_single {v : ℤ} (h0 : 0 < v) (h1 : v ≤ 5000000000000000000) (tx : CTransaction)
    (script : CScript) : checkOutputs tx 0 [⟨v, script⟩] = .ok v := by
  have hadd : add64 0 v = v := zero_add64 (by omega) (by omega)
  have hmax : maxSingleTx = 5000000000000000000 := by decide
  have hempty : (⟨v, script⟩ : CTxOut).isEmpty = false := by
    simp [CTxOut.isEmpty, h0.ne']
  have hrange : moneyRange v = true := moneyRange_iff.2 ⟨h0.le, h1⟩
  simp only [checkOutputs, hadd, hempty, hrange]
  rw [rejectIf_of_not (by simp), except_ok_bind, rejectIf_of_not (not_lt.2 h0.le), except_ok_bind,
    rejectIf_of_not (not_lt.2 (hmax ▸ h1)), except_ok_bind, rejectIf_of_not (by simp),
    except_ok_bind]

theorem coinbase_checks (hc : c < codes) : checkTransaction 15000000 (coinbase c) = .ok () := by
  obtain ⟨h0, h1⟩ := reward_range c
  have hsize := coinbase_size hc
  have hle := pushInt_length (c / 2) (by omega)
  have hout : checkOutputs (coinbase c) 0 (coinbase c).vout = .ok (reward c) :=
    checkOutputs_single h0 (h1.trans (by norm_num)) _ _
  rw [checkTransaction, rejectIf_of_not (by simp [coinbase]), except_ok_bind,
    rejectIf_of_not (by simp [coinbase]), except_ok_bind, rejectIf_of_not (by omega),
    except_ok_bind, hout, except_ok_bind, show checkDuplicates [] (coinbase c).vin =
    .ok () from rfl, except_ok_bind, if_pos coinbase_isCoinBase]
  refine rejectIf_of_not (?_ : ¬ (_ ∨ _)) _
  simp only [coinbase, head?_cons, map_some, getD_some, length_append, length_cons, length_nil]
  omega

theorem strayTx_checks : checkTransaction 15000000 strayTx = .ok () := by decide

theorem block_isProofOfStake : (s.block c).isProofOfStake = false := by
  unfold CBlock.isProofOfStake Shape.block Shape.vtx
  split_ifs <;> rfl

theorem block_size (hc : c < codes) : (s.block c).getSerializeSize ≤ 400 := by
  have := coinbase_size hc
  have hs : strayTx.getSerializeSize ≤ 100 := by decide
  simp only [CBlock.getSerializeSize, Shape.block, Shape.vtx, headerSize]
  split_ifs <;>
  simp only [map_cons, map_nil, sum_cons, sum_nil,
    length_nil, sizeOfBytes, getSizeOfCompactSize] <;> split_ifs <;> omega

theorem block_work (hc : c < codes) : checkProofOfWork env (hash c) 0x207fffff = .ok () := by
  have htarget : setCompact 0x207fffff = 0x7fffff * 256 ^ 29 := by decide
  have hlimit : (0x7fffff * 256 ^ 29 : ℤ) ≤ 2 ^ 255 - 1 := by norm_num
  have hnat : (hash c).toNat = c + 1 := by
    unfold codes at hc
    rw [hash, BitVec.toNat_ofNat]
    omega
  unfold codes at hc
  rw [checkProofOfWork, htarget, rejectIf_of_not, except_ok_bind, rejectIf_of_not]
  · rw [hnat]
    omega
  · rw [not_or, not_le, not_lt]
    exact ⟨by norm_num, hlimit⟩

theorem stray_ne : BitVec.ofNat 256 (2 ^ 255) ≠ hash c ∨ codes ≤ c := by
  rcases lt_or_ge c codes with hc | hc
  · refine .inl fun h => ?_
    unfold codes at hc
    have := congrArg BitVec.toNat h
    rw [hash, BitVec.toNat_ofNat, BitVec.toNat_ofNat] at this
    omega
  · exact .inr hc

theorem checkTransactions_cons {maxBlockSize nTime : ℕ} {tx : CTransaction}
    {vtx : List CTransaction} (h : checkTransaction maxBlockSize tx = .ok ())
    (ht : tx.nTime ≤ nTime) :
    checkTransactions maxBlockSize nTime (tx :: vtx) =
    checkTransactions maxBlockSize nTime vtx := by
  rw [checkTransactions, h]
  show (do rejectIf (nTime < tx.nTime) _; checkTransactions maxBlockSize nTime vtx :
    Except Stop Unit) = _
  rw [rejectIf_of_not (not_lt.2 ht), except_ok_bind]

theorem vtx_drop : (s.vtx c).drop 1 = if c = s.bad then [strayTx] else [] := rfl

/-- **Every block of the network passes `CheckBlock`**, the one with `strayTx` too. -/
theorem block_checks (hc : c < codes) (bestHeight : ℕ) (sig : Bool) :
    checkBlock env ⟨15000000, 300000, (context a b).getAdjustedTime⟩ bestHeight (s.block c)
    true true sig = .ok () := by
  have hsize := block_size (s := s) hc
  have hpos := block_isProofOfStake (s := s) (c := c)
  have hvtx : (s.block c).vtx = s.vtx c := rfl
  have hlen : (s.vtx c).length ≤ 2 := by
    unfold Shape.vtx
    split_ifs <;> simp
  have hwork : checkHeaderWork env (s.block c) true = .ok () := by
    rw [checkHeaderWork, CBlock.isProofOfWork, hpos]
    rw [getHash_block, show (s.block c).nBits = 0x207fffff from rfl, block_work hc]
    rfl
  have htime : ¬ (((s.block c).nTime : ℤ) > futureDrift env (context a b).getAdjustedTime
    bestHeight) := by
    unfold codes at hc
    unfold futureDrift
    simp only [context, Shape.block]
    split_ifs <;> omega
  have hstake : checkStakeShape (s.block c) = .ok () := by
    rw [checkStakeShape, hpos]
    simp only [Bool.false_eq_true, ↓reduceIte]
    rw [hvtx, vtx_drop]
    split_ifs <;> decide
  have htxs : checkTransactions 15000000 (s.block c).nTime (s.block c).vtx = .ok () := by
    rw [hvtx, Shape.vtx, checkTransactions_cons (coinbase_checks hc)
      (show (coinbase c).nTime ≤ (s.block c).nTime from le_rfl)]
    split_ifs
    · rw [checkTransactions_cons strayTx_checks (zero_le _)]
      rfl
    · rfl
  have hnodup : ((s.block c).vtx.map env.txHash).Nodup := by
    rw [hvtx, Shape.vtx]
    unfold codes at hc
    split_ifs
    · simp only [map_cons, map_nil, nodup_cons, mem_singleton, not_mem_nil,
        not_false_eq_true, nodup_nil, and_true]
      intro h
      have := congrArg BitVec.toNat h
      simp only [env, coinbase, strayTx, BitVec.toNat_ofNat] at this
      omega
    · simp
  have hsig : ((s.block c).vtx.map env.getLegacySigOpCount).sum = 0 := by
    rw [hvtx, Shape.vtx]
    split_ifs <;> rfl
  rw [checkBlock, rejectIf_of_not, except_ok_bind, hwork, except_ok_bind, rejectIf_of_not htime,
    except_ok_bind, rejectIf_of_not, except_ok_bind, rejectIf_of_not, except_ok_bind,
    rejectIf_of_not, except_ok_bind, hstake, except_ok_bind, rejectIf_of_not, except_ok_bind, htxs,
    except_ok_bind,
    rejectIf_of_not (not_not.2 hnodup), except_ok_bind, rejectIf_of_not (by rw [hsig]; omega),
    except_ok_bind, rejectIf_of_not]
  · exact fun h => h.2 rfl
  · simp [env]
  · rw [hvtx, Shape.vtx]
    split_ifs <;> simp
  · rw [hvtx, vtx_drop]
    split_ifs <;> decide
  · rw [hvtx, Shape.vtx]
    simp [coinbase_isCoinBase]
  · rw [hvtx, not_or, not_or, not_lt, not_lt]
    exact ⟨cons_ne_nil _ _, hlen.trans (by norm_num), hsize.trans (by norm_num)⟩

theorem coinbase_valueOut : (coinbase c).valueOut = reward c := by
  rw [CTransaction.valueOut, coinbase, map_singleton, sum_singleton]

/-- **The blocks of the network are plain**, except for the one with `strayTx`. -/
theorem plainBlock (hc : c < codes) (hb : c ≠ s.bad) :
    PlainBlock env (context a b) (c / 2) (s.block c) := by
  refine ⟨⟨coinbase c, ?_, by simp [env], fun supply => ?_⟩, fun bestHeight =>
    block_checks hc bestHeight _⟩
  · simp [Shape.block, Shape.vtx, hb]
  · rw [calculatedCoinbaseReward_supply, coinbase_valueOut, reward]

/-! ### States of the network -/

/-- The trust of the block with code `c`. -/
def trust (c : ℕ) : Uint256 := BitVec.ofNat 256 (2 * (c / 2 + 1))

theorem trust_lt_iff (hc : c < codes) (hd : d < codes) : trust c < trust d ↔ c / 2 < d / 2 := by
  unfold codes at hc hd
  rw [BitVec.lt_def, trust, trust, BitVec.toNat_ofNat, BitVec.toNat_ofNat]
  omega

/-- The index and the files of `w` hold the blocks with codes in `D`, and no more than `n` blocks
have been written. -/
structure Sim (s : Shape) (D : Set ℕ) (n : ℕ) (w : World) : Prop where
  entry : ∀ p e, w.mapBlockIndex.lookup p = some e → ∃ c ∈ D, p = hash c ∧ e.nHeight = c / 2 ∧
    e.nTime = c + 1 ∧ e.nChainTrust = trust c ∧ e.pprev = if c = 0 then none else
    some (hash (s.parent c))
  mem : ∀ c ∈ D, c < codes ∧ (w.mapBlockIndex.lookup (hash c)).isSome
  blocks : ∀ sb ∈ w.files.blocks, ∃ c < codes, sb.block = s.block c
  file : w.files.nCurrentBlockFile = 1
  room : w.files.ftell 1 ≤ 408 * w.files.blocks.length
  length : w.files.blocks.length ≤ n

namespace Sim

variable {D : Set ℕ} {n : ℕ} {w w' w1 : World} {e : CBlockIndex}

theorem lookup (h : Sim s D n w) (hc : c ∈ D) : ∃ e, w.mapBlockIndex.lookup (hash c) = some e ∧
    e.nHeight = c / 2 ∧ e.nTime = c + 1 ∧ e.nChainTrust = trust c ∧
    e.pprev = if c = 0 then none else some (hash (s.parent c)) := by
  obtain ⟨hlt, hs⟩ := h.mem c hc
  obtain ⟨e, he⟩ := isSome_iff_exists.1 hs
  obtain ⟨d, hd, hp, hrest⟩ := h.entry _ e he
  obtain rfl := (hash_inj hlt (h.mem d hd).1).1 hp
  exact ⟨e, he, hrest⟩

theorem lookup_none (h : Sim s D n w) (hlt : c < codes) (hc : c ∉ D) :
    w.mapBlockIndex.lookup (hash c) = none := by
  cases he : w.mapBlockIndex.lookup (hash c) with
  | none => rfl
  | some e =>
    obtain ⟨d, hd, hp, -⟩ := h.entry _ e he
    exact absurd ((hash_inj hlt (h.mem d hd).1).1 hp ▸ hd) hc

theorem height (h : Sim s D n w) (hc : c ∈ D) : height w.mapBlockIndex (hash c) = c / 2 := by
  obtain ⟨e, he, hh, -⟩ := h.lookup hc
  rw [height_of_lookup he, hh]

theorem parent (h : Sim s D n w) (hc : c ∈ D) (h0 : c ≠ 0) :
    parent w.mapBlockIndex (hash c) = some (hash (s.parent c)) := by
  obtain ⟨e, he, -, -, -, hp⟩ := h.lookup hc
  rw [parent_of_lookup he, hp, if_neg h0]

theorem of_sameBlocks (h : Sim s D n w) (hs : SameBlocks w w') : Sim s D n w' := by
  refine ⟨fun p e he => ?_, fun c hc => ⟨(h.mem c hc).1, ?_⟩, ?_, ?_, ?_, ?_⟩
  · obtain ⟨e0, he0, hfix⟩ := hs.tree.lookup he
    rw [CBlockIndex.fixed_nHeight hfix, CBlockIndex.fixed_nTime hfix,
      CBlockIndex.fixed_nChainTrust hfix, CBlockIndex.fixed_pprev hfix]
    exact h.entry p e0 he0
  · rw [hs.tree.isSome]
    exact (h.mem c hc).2
  · rw [hs.files]; exact h.blocks
  · rw [hs.files]; exact h.file
  · rw [hs.files]; exact h.room
  · rw [hs.files]; exact h.length

end Sim

/-- The transactions of the network have different hashes. -/
theorem noCollision {fs : BlockFiles} (h : ∀ sb ∈ fs.blocks, ∃ c < codes, sb.block = s.block c) :
    NoCollision env fs.txs := by
  have hmem : ∀ tx ∈ fs.txs, (∃ c < codes, tx = coinbase c) ∨ tx = strayTx := by
    intro tx htx
    obtain ⟨sb, hsb, hin⟩ := mem_flatMap.1 htx
    obtain ⟨c, hc, hb⟩ := h sb hsb
    rw [hb, show (s.block c).vtx = s.vtx c from rfl, Shape.vtx] at hin
    rcases mem_cons.1 hin with rfl | hin
    · exact .inl ⟨c, hc, rfl⟩
    · split_ifs at hin
      · exact .inr (mem_singleton.1 hin)
      · cases hin
  have hco : ∀ c < codes, (env.txHash (coinbase c)).toNat = c + 1 := by
    intro c hc
    unfold codes at hc
    simp only [env, coinbase, BitVec.toNat_ofNat]
    omega
  have hst : (env.txHash strayTx).toNat = 0 := by decide
  intro x hx y hy heq
  have hnat := congrArg BitVec.toNat heq
  rcases hmem x hx with ⟨c, hc, rfl⟩ | rfl <;> rcases hmem y hy with ⟨d, hd, rfl⟩ | rfl
  · rw [hco c hc, hco d hd, add_right_cancel_iff] at hnat
    rw [hnat]
  · rw [hco c hc, hst] at hnat
    cases hnat
  · rw [hco d hd, hst] at hnat
    cases hnat
  · rfl

theorem appendBlockFile_eq {fs : BlockFiles} (hf : fs.nCurrentBlockFile = 1) {n : ℕ}
    (hn : n < codes) (hl : fs.blocks.length ≤ n) (hr : fs.ftell 1 ≤ 408 * fs.blocks.length) :
    fs.appendBlockFile (fs.blocks.length + 1) fs.nCurrentBlockFile = 1 := by
  unfold codes at hn
  rw [hf, BlockFiles.appendBlockFile, if_pos (by omega)]

theorem Shape.parent_height (h : 2 ≤ c) : s.parent c / 2 + 1 = c / 2 := by
  unfold parent
  split_ifs <;> omega

theorem block_hashPrevBlock (h : 2 ≤ c) : (s.block c).hashPrevBlock = hash (s.parent c) :=
  if_neg (by omega)

theorem trust_parent (h : 2 ≤ c) :
    trust (s.parent c) + getBlockTrust (s.block c).nBits = trust c := by
  have hph := Shape.parent_height (s := s) h
  have h2 : (2 : Uint256).toNat = 2 := rfl
  rw [show (s.block c).nBits = 0x207fffff from rfl, blockTrust]
  refine BitVec.eq_of_toNat_eq ?_
  rw [trust, trust, BitVec.toNat_add, BitVec.toNat_ofNat, BitVec.toNat_ofNat, h2]
  omega

/-- `AcceptBlock` has nothing against a new block whose parent is known. -/
theorem Sim.acceptable {D : Set ℕ} {n : ℕ} {w : World} (h : Sim s D n w)
    (hn : n < codes) (h2 : 2 ≤ c) (hc : c < codes) (hnew : c ∉ D) (hp : s.parent c ∈ D) :
    ∃ d, Acceptable env (context a b) w (s.block c) d ∧ d.nHeight + 1 = c / 2 ∧
      d.nChainTrust = trust (s.parent c) := by
  obtain ⟨d, hd, hheight, htime, htrust, -⟩ := h.lookup hp
  have hph := Shape.parent_height (s := s) h2
  have hprev := block_hashPrevBlock (s := s) h2
  have hpos := block_isProofOfStake (s := s) (c := c)
  have hheight' : d.nHeight + 1 = c / 2 := by omega
  refine ⟨d, ⟨h.lookup_none hc hnew, by rw [hprev]; exact hd, ?_, rfl, ?_⟩, hheight', htrust⟩
  · have hdrift : ¬ (((s.block c).nTime : ℤ) >
        futureDrift env (((s.block c).vtx.getD 0 default).nTime : ℤ) (d.nHeight + 1 : ℕ)) := by
      unfold futureDrift
      simp only [Shape.block, Shape.vtx, coinbase, getD_cons_zero]
      split_ifs <;> omega
    have hafter : ¬ ((s.block c).nTime ≤ d.nTime ∨
        futureDrift env ((s.block c).nTime : ℤ) (d.nHeight + 1 : ℕ) < d.nTime) := by
      unfold futureDrift
      simp only [Shape.block]
      split_ifs <;> omega
    have hfinal : (s.block c).vtx.all fun tx => isFinalTx tx (d.nHeight + 1) (s.block c).nTime := by
      simp only [Shape.block, Shape.vtx]
      split_ifs <;> simp [isFinalTx, coinbase, strayTx]
    have hscript : pushInt (d.nHeight + 1) <+:
        (((s.block c).vtx.getD 0 default).vin.getD 0 default).scriptSig := by
      rw [hheight']
      exact prefix_append _ _
    have hbits : (context a b).getNextTargetRequired (s.block c).hashPrevBlock
        (s.block c).isProofOfStake = .ok 0x207fffff := rfl
    have hchk : checkAcceptBlock env (context a b) d (s.block c) = .ok (hash c) := by
      rw [checkAcceptBlock, rejectIf_of_not (by simp [Shape.block]), except_ok_bind,
        rejectIf_of_not (by simp [Shape.block]), except_ok_bind,
        rejectIf_of_not (by simp [context]), except_ok_bind, rejectIf_of_not hdrift, except_ok_bind,
        checkStake, if_neg (by simp [hpos]),
        except_ok_bind, hbits, except_ok_bind, rejectIf_of_not (by simp [Shape.block]),
        except_ok_bind, rejectIf_of_not hafter, except_ok_bind, rejectIf_of_not (not_not.2 hfinal),
        except_ok_bind, rejectIf_of_not (by simp [context]), except_ok_bind, checkKernel,
        if_neg (by simp [hpos]), rejectIf_of_not (not_not.2 hscript), except_ok_bind,
        rejectIf_of_not (by simp [context]), except_ok_bind, rejectIf_of_not (by simp [context]),
        except_ok_bind]
      rfl
    rw [hchk]
    rfl
  · show w.files.appendBlockFile _ _ < uintMax
    rw [appendBlockFile_eq h.file hn h.length h.room]
    decide

namespace Sim

variable {D : Set ℕ} {n : ℕ} {w w' w1 : World} {d e : CBlockIndex} {t : ℕ}

/-- The state after a block has been written and indexed. -/
theorem indexed (h : Sim s D n w) (hn : n < codes) (h2 : 2 ≤ c) (hc : c < codes) (hnew : c ∉ D)
    (hd : d.nHeight + 1 = c / 2) (ht : d.nChainTrust = trust (s.parent c))
    (hj : JustIndexed env w w1 (s.block c) d e) : Sim s (insert c D) (n + 1) w1 := by
  have hfiles : w1.files = ⟨1, ⟨1, w.files.ftell 1 + 8, s.block c⟩ :: w.files.blocks⟩ := by
    rw [hj.files, BlockFiles.writeToDisk]
    simp only [appendBlockFile_eq h.file hn h.length h.room]
  have hsize := block_size (s := s) hc
  refine ⟨fun p x hx => ?_, fun y hy => ?_, ?_, ?_, ?_, ?_⟩
  · rcases eq_or_ne p (hash c) with rfl | hp
    · obtain rfl := some.inj (hx.symm.trans hj.entry)
      refine ⟨c, Set.mem_insert _ _, rfl, hj.height.trans hd, hj.time, ?_, ?_⟩
      · rw [hj.trust, ht]
        exact trust_parent h2
      · rw [hj.prev, block_hashPrevBlock h2, if_neg (by omega)]
    · rw [hj.lookup_of_ne hp] at hx
      obtain ⟨y, hy, hrest⟩ := h.entry p x hx
      exact ⟨y, Set.mem_insert_of_mem _ hy, hrest⟩
  · rcases Set.mem_insert_iff.1 hy with rfl | hy
    · exact ⟨hc, by rw [← getHash_block (s := s), hj.entry]; rfl⟩
    · obtain ⟨hlt, hs⟩ := h.mem y hy
      have hne : y ≠ c := fun heq => hnew (heq ▸ hy)
      refine ⟨hlt, ?_⟩
      rw [hj.lookup_of_ne (by rw [getHash_block, ne_eq, hash_inj hlt hc]; exact hne)]
      exact hs
  · rw [hfiles]
    intro sb hsb
    rcases mem_cons.1 hsb with rfl | hsb
    · exact ⟨c, hc, rfl⟩
    · exact h.blocks sb hsb
  · rw [hfiles]
  · have hr := h.room
    unfold BlockFiles.ftell at hr
    rw [hfiles]
    simp only [BlockFiles.ftell, foldr_cons, ↓reduceIte, length_cons]
    omega
  · rw [hfiles]
    exact succ_le_succ h.length

theorem noCollision_write (h : Sim s D n w) (hc : c < codes) :
    NoCollision env (w.files.writeToDisk (s.block c)).1.txs := by
  refine noCollision (s := s) fun sb hsb => ?_
  rcases mem_cons.1 hsb with rfl | hsb
  · exact ⟨c, hc, rfl⟩
  · exact h.blocks sb hsb

theorem block_eq (h : Sim s D n w) (hc : c < codes) {q : Uint256} {block : CBlock}
    (hst : Stored env w.files (hash c) q e block) : block = s.block c := by
  obtain ⟨sb, hsb, -, -, rfl⟩ := readBlock_eq_some hst.read
  obtain ⟨x, hx, hblock⟩ := h.blocks sb hsb
  have hhash := hst.hash
  rw [hblock, getHash_block, hash_inj hx hc] at hhash
  rw [hblock, hhash]

theorem plainAt (h : Sim s D n w) (hc : c < codes) (hb : c ≠ s.bad) (hd : c ∈ D) :
    PlainAt env (context a b) w (hash c) := by
  intro e q block he hst
  obtain ⟨e', he', hh, -⟩ := h.lookup hd
  rw [some.inj (he.symm.trans he'), hh, h.block_eq hc hst]
  exact plainBlock hc hb

/-- **A plain block of the network extends the best chain.** -/
theorem extend (h : Sim s D n w) (hr : Ready env (hash 0) w (hash (s.parent c))) (hn : n < codes)
    (h2 : 2 ≤ c) (hc : c < codes) (hnew : c ∉ D) (hp : s.parent c ∈ D) (hb : c ≠ s.bad) :
    ∃ w', acceptBlock env (context a b) (s.block c) w = .ok () w' ∧ Ready env (hash 0) w' (hash c) ∧
      Sim s (insert c D) (n + 1) w' := by
  obtain ⟨d, ha, hheight, htrust⟩ := h.acceptable (a := a) (b := b) hn h2 hc hnew hp
  have hlt := (h.mem _ hp).1
  have hph := Shape.parent_height (s := s) h2
  obtain ⟨e, w1, w', hrun, hr', hj, hs⟩ :=
    acceptBlock_extends context_calm hr (h.noCollision_write hc) ha (block_hashPrevBlock h2)
    (by rw [hheight]; exact plainBlock hc hb)
    (by unfold codes at hc; rw [show sysUpgrade01 = 674400 from rfl]; omega)
    (by rw [htrust, trust_parent h2, gt_iff_lt, trust_lt_iff hlt hc]; omega)
  exact ⟨w', hrun, hr', (h.indexed hn h2 hc hnew hheight htrust hj).of_sameBlocks hs⟩

end Sim

/-! ### The main chain -/

/-- The codes of the main chain up to height `n`. -/
def mainCodes (n : ℕ) : Set ℕ := {c | c % 2 = 0 ∧ c ≤ 2 * n}

theorem mainCodes_succ (n : ℕ) : insert (2 * (n + 1)) (mainCodes n) = mainCodes (n + 1) := by
  ext c
  simp only [mainCodes, Set.mem_insert_iff, Set.mem_ofPred_eq]
  omega

theorem genesisBlock (hb : s.bad ≠ 0) : GenesisBlock env (s.block 0) :=
  ⟨rfl, coinbase 0, by simp [Shape.block, Shape.vtx, hb.symm], coinbase_isCoinBase⟩

/-- The first start of the network. -/
theorem exists_start (hb : s.bad ≠ 0) :
    ∃ w, GoodRun env (s.block 0) w ∧ Ready env (hash 0) w (hash 0) ∧ Sim s (mainCodes 0) 1 w := by
  obtain ⟨e, w, hload, hbest, hr, hm, hprev, hheight, htime, htrust, hfiles⟩ :=
    loadGenesis_ready (context_calm (a := false) (b := false)) (genesisBlock hb) rfl
      (show getBlockTrust 0x207fffff > 0 by rw [blockTrust]; decide)
  refine ⟨w, .start (genesisBlock hb) hload hbest, hr, fun p x hx => ?_, fun y hy => ?_,
    ?_, ?_, ?_, ?_⟩
  · rw [hm] at hx
    rcases eq_or_ne p (hash 0) with rfl | hp
    · obtain rfl := some.inj ((lookup_insert (∅ : BlockMap)).symm.trans hx)
      exact ⟨0, ⟨rfl, le_rfl⟩, rfl, hheight, htime, htrust.trans blockTrust, hprev⟩
    · rw [getHash_block, lookup_insert_ne hp, lookup_empty] at hx
      cases hx
  · obtain rfl : y = 0 := by simpa [mainCodes] using hy.2
    exact ⟨by decide, by rw [hm, getHash_block, lookup_insert]; rfl⟩
  · rw [hfiles]
    intro sb hsb
    obtain rfl := mem_singleton.1 hsb
    exact ⟨0, by decide, rfl⟩
  · rw [hfiles]
    rfl
  · have hsize := block_size (s := s) (c := 0) (by decide)
    rw [hfiles]
    show max 0 (0 + 8 + (s.block 0).getSerializeSize) ≤ 408 * 1
    omega
  · rw [hfiles]
    exact le_rfl

/-- **The main chain can be grown to any height** below the first change of the size limits. -/
theorem exists_mainChain (hb : s.bad % 2 = 1) (n : ℕ) (hn : 2 * n < codes) :
    ∃ w, GoodRun env (s.block 0) w ∧ Ready env (hash 0) w (hash (2 * n)) ∧
      Sim s (mainCodes n) (n + 1) w := by
  induction n with
  | zero => exact exists_start (by omega)
  | succ n ih =>
    obtain ⟨w, hrun, hr, hsim⟩ := ih (by omega)
    have hpar : s.parent (2 * (n + 1)) = 2 * n := by
      unfold Shape.parent
      rw [if_neg (by omega)]
      omega
    obtain ⟨w', hw', hr', hsim'⟩ := hsim.extend (c := 2 * (n + 1)) (a := false) (b := false)
      (by rw [hpar]; exact hr) (by omega) (by omega) hn (fun h => by have := h.2; omega)
      (by rw [hpar]; exact ⟨by omega, le_rfl⟩) (by omega)
    rw [mainCodes_succ] at hsim'
    refine ⟨w', hrun.step (c := .acceptBlock (context false false) (s.block (2 * (n + 1)))) trivial
      ?_ (.inl ⟨(), hw'⟩), hr', hsim'⟩
    refine acceptNoPostponedFails_extends hr.batch ?_
    rw [hr.hashBestChain, block_hashPrevBlock (by omega), hpar]

end Espers.Simnet
