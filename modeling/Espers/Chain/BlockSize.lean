import Espers.Chain.World

/-!
# Finding blocks by height, and the adaptive block size

`findBlockByHeight` walks the main chain from genesis, from the best block or from the block found
last.  `computeBlockSize` is the median rule of `blocksizecalculator.cpp` with its static list of
sizes; it looks up the block that leaves the window by height.

* `findByHeight_mem` : the entry found lies in every set of entries that contains the starting
  points and is closed under the links.
* `updateBlockSize_keeps` : the rule changes the size limits and its own caches only (`SizesOnly`).
-/

namespace Espers

open Exec

/-- `while (pblockindex->nHeight > nHeight) pblockindex = pblockindex->pprev`. -/
def walkPrev (m : BlockMap) (nHeight : ℤ) : ℕ → Uint256 → Option Uint256
  | 0, _ => none
  | fuel + 1, p =>
    match m.lookup p with
    | none => none
    | some e => if (e.nHeight : ℤ) > nHeight then e.pprev.bind (walkPrev m nHeight fuel) else some p

/-- `while (pblockindex->nHeight < nHeight) pblockindex = pblockindex->pnext`. -/
def walkNext (m : BlockMap) (nHeight : ℤ) : ℕ → Uint256 → Option Uint256
  | 0, _ => none
  | fuel + 1, p =>
    match m.lookup p with
    | none => none
    | some e => if (e.nHeight : ℤ) < nHeight then e.pnext.bind (walkNext m nHeight fuel) else some p

/-- The entry `FindBlockByHeight` starts from. -/
def findStart (w : World) (nHeight : ℤ) : Option Uint256 :=
  let pblockindex := if nHeight < w.nBestHeight.tdiv 2 then w.pindexGenesisBlock else w.pindexBest
  match pblockindex.bind w.mapBlockIndex.lookup,
    w.pblockindexFBBHLast.bind w.mapBlockIndex.lookup with
  | some e, some last =>
    if |nHeight - e.nHeight| > |nHeight - last.nHeight| then w.pblockindexFBBHLast else pblockindex
  | _, _ => pblockindex

/-- The search of `FindBlockByHeight`; its loops run at most as long as there are heights to
pass. -/
def findByHeight (w : World) (nHeight : ℤ) : Option Uint256 :=
  (findStart w nHeight).bind fun start =>
    let fuel := ((w.mapBlockIndex.lookup start).map CBlockIndex.nHeight).getD 0
    (walkPrev w.mapBlockIndex nHeight (fuel + 2) start).bind
      (walkNext w.mapBlockIndex nHeight (nHeight.toNat + 2))

/-- `FindBlockByHeight`: the entry found is remembered. -/
def findBlockByHeight (nHeight : ℤ) : Node Uint256 := do
  let w ← get
  match findByHeight w nHeight with
  | some p => do
    set { w with pblockindexFBBHLast := some p }
    pure p
  | none => throw (.crash "null pointer")

/-! ### The size limit -/

/-- `MIN_BLOCK_SIZE`. -/
def minBlockSize : ℕ := 1500000

/-- `NUM_BLOCKS_FOR_MEDIAN_BLOCK`. -/
def numBlocksForMedianBlock : ℕ := 125

/-- `GetBlockSize`: the four bytes in front of the block's offset, in a file of `blocks/`. -/
def getBlockSize (p : Uint256) : Node ℕ := do
  let w ← get
  let e ← deref (some p)
  pure (w.blockDir e.nFile e.nBlockPos).toNat

/-- `std::lower_bound`: the binary search, on a list that need not be sorted. -/
def lowerBound (l : List ℕ) (x : ℕ) : ℕ → ℕ → ℕ → ℕ
  | 0, first, _ => first
  | fuel + 1, first, len =>
    if len = 0 then first
    else if l.getD (first + len / 2) 0 < x then
      lowerBound l x fuel (first + len / 2 + 1) (len - len / 2 - 1)
    else lowerBound l x fuel first (len / 2)

/-- The sizes of a block and its ancestors down to `firstBlock`; the largest `unsigned int` is the
`-1` of a size that is left out. -/
def collectSizes (firstBlock : ℤ) : ℕ → Option Uint256 → List ℕ → Node (List ℕ)
  | 0, _, blocksizes => pure blocksizes
  | fuel + 1, p, blocksizes =>
    match p with
    | none => pure blocksizes
    | some q => do
      let e ← deref (some q)
      if (e.nHeight : ℤ) > firstBlock then do
        let size ← getBlockSize q
        collectSizes firstBlock fuel e.pprev
          (if size = uintMax then blocksizes else blocksizes ++ [size])
      else pure blocksizes

/-- `GetBlockSizes`. -/
def getBlockSizes (p : Uint256) (pastblocks : ℕ) : Node (List ℕ) := do
  let w ← get
  let e ← deref (some p)
  if e.nHeight < pastblocks then pure w.blocksizes
  else
    let firstBlock : ℤ := (e.nHeight : ℤ) - pastblocks
    if w.blocksizes ≠ [] then do
      let latest ← getBlockSize p
      if latest = uintMax then pure w.blocksizes
      else do
        let first ← findBlockByHeight firstBlock
        let oldest ← getBlockSize first
        if oldest ≠ uintMax ∧ oldest ∈ w.blocksizes then
          let rest := w.blocksizes.erase oldest
          pure (rest.insertIdx (lowerBound rest latest (rest.length + 1) 0 rest.length) latest)
        else pure w.blocksizes
    else collectSizes firstBlock (pastblocks + 1) (some p) []

/-- `GetMedianBlockSize`; the list is sorted the first time only. -/
def getMedianBlockSize (p : Uint256) (pastblocks : ℕ) : Node ℕ := do
  let sizes ← getBlockSizes p pastblocks
  let w ← get
  let sizes := if w.sorted then sizes else sizes.mergeSort (· ≤ ·)
  set { w with blocksizes := sizes, sorted := true }
  let vsize := sizes.length
  pure (if vsize = pastblocks then
    if vsize % 2 = 0 then
      (sizes.getD (vsize / 2) 0 + sizes.getD (vsize / 2 - 1) 0) % 2 ^ 32 / 2
    else sizes.getD (vsize / 2) 0
  else 0)

/-- `ComputeBlockSize`: twice the median, within `MIN_BLOCK_SIZE` and the largest `unsigned int`. -/
def computeBlockSize (p : Uint256) : Node ℕ := do
  let proposed ← getMedianBlockSize p numBlocksForMedianBlock
  pure (if proposed > 0 then
    let result := proposed * 2 % 2 ^ 32
    max minBlockSize (if result < proposed then 2 ^ 32 - 1 else result)
  else minBlockSize)

/-- The first step of `ConnectBlock` after `CheckBlock`: set the limits for the block. -/
def updateBlockSize (p : Uint256) : Node Unit := do
  let w ← get
  if w.nBestHeight > sysUpgrade01 then do
    let size ← computeBlockSize p
    modify fun w =>
      { w with maxBlockSize := size, maxBlockSigops := size / 50, maxTxSigops := size / 50 / 5 }
  else pure ()

/-! ### What the search can reach -/

/-- A set of entries that contains genesis and the best block and is closed under the links. -/
structure LinkClosed (w : World) (S : Set Uint256) : Prop where
  genesis : ∀ p, w.pindexGenesisBlock = some p → p ∈ S
  best : ∀ p, w.pindexBest = some p → p ∈ S
  prev : ∀ p e q, p ∈ S → w.mapBlockIndex.lookup p = some e → e.pprev = some q → q ∈ S
  next : ∀ p e q, p ∈ S → w.mapBlockIndex.lookup p = some e → e.pnext = some q → q ∈ S

variable {w : World} {S : Set Uint256}

variable {nHeight : ℤ}

theorem walkPrev_mem (hS : LinkClosed w S) {fuel : ℕ} {p q : Uint256} (hp : p ∈ S)
    (h : walkPrev w.mapBlockIndex nHeight fuel p = some q) : q ∈ S := by
  induction fuel generalizing p with
  | zero => cases h
  | succ fuel ih =>
    rw [walkPrev] at h
    cases he : w.mapBlockIndex.lookup p with
    | none => rw [he] at h; cases h
    | some e =>
      rw [he] at h
      simp only at h
      split_ifs at h with hc
      · obtain ⟨r, hr, h⟩ := Option.bind_eq_some_iff.1 h
        exact ih (hS.prev p e r hp he hr) h
      · cases h; exact hp

theorem walkNext_mem (hS : LinkClosed w S) {fuel : ℕ} {p q : Uint256} (hp : p ∈ S)
    (h : walkNext w.mapBlockIndex nHeight fuel p = some q) : q ∈ S := by
  induction fuel generalizing p with
  | zero => cases h
  | succ fuel ih =>
    rw [walkNext] at h
    cases he : w.mapBlockIndex.lookup p with
    | none => rw [he] at h; cases h
    | some e =>
      rw [he] at h
      simp only at h
      split_ifs at h with hc
      · obtain ⟨r, hr, h⟩ := Option.bind_eq_some_iff.1 h
        exact ih (hS.next p e r hp he hr) h
      · cases h; exact hp

section

variable (hS : LinkClosed w S) (hlast : ∀ p, w.pblockindexFBBHLast = some p → p ∈ S) {p : Uint256}
include hS hlast

theorem findStart_mem (h : findStart w nHeight = some p) : p ∈ S := by
  have hend : ∀ q, (if nHeight < w.nBestHeight.tdiv 2 then w.pindexGenesisBlock else w.pindexBest) =
      some q → q ∈ S := by
    intro q hq
    split_ifs at hq
    · exact hS.genesis q hq
    · exact hS.best q hq
  unfold findStart at h
  generalize (if nHeight < w.nBestHeight.tdiv 2 then w.pindexGenesisBlock else w.pindexBest) = b
    at h hend
  simp only at h
  split at h
  · split_ifs at h with hc
    · exact hlast p h
    · exact hend p h
  · exact hend p h

/-- **The search stays within the links.** -/
theorem findByHeight_mem (h : findByHeight w nHeight = some p) : p ∈ S := by
  obtain ⟨start, hstart, h⟩ := Option.bind_eq_some_iff.1 h
  obtain ⟨mid, hmid, h⟩ := Option.bind_eq_some_iff.1 h
  exact walkNext_mem hS (walkPrev_mem hS (findStart_mem hS hlast hstart) hmid) h

end

/-! ### What the rule changes -/

/-- The limits on the size of a block are those from before, as long as the rule does not apply. -/
def LimitsKept (w w' : World) : Prop :=
  w.nBestHeight ≤ sysUpgrade01 →
    w'.maxBlockSize = w.maxBlockSize ∧ w'.maxBlockSigops = w.maxBlockSigops

/-- Only the size limits, the list of sizes and the search cache have changed, and the cache is an
entry that the links lead to. -/
structure SizesOnly (w w' : World) : Prop where
  eq : w' = { w with
    maxBlockSize := w'.maxBlockSize, maxBlockSigops := w'.maxBlockSigops,
    maxTxSigops := w'.maxTxSigops, blocksizes := w'.blocksizes, sorted := w'.sorted,
    pblockindexFBBHLast := w'.pblockindexFBBHLast }
  limits : LimitsKept w w'
  cache : ∀ S, LinkClosed w S → (∀ p, w.pblockindexFBBHLast = some p → p ∈ S) →
    ∀ p, w'.pblockindexFBBHLast = some p → p ∈ S

variable {w' : World}

theorem SizesOnly.linkClosed (h : SizesOnly w w') (hS : LinkClosed w S) : LinkClosed w' S := by
  rw [h.eq]
  exact ⟨hS.genesis, hS.best, hS.prev, hS.next⟩

theorem SizesOnly.index (h : SizesOnly w w') : w'.mapBlockIndex = w.mapBlockIndex := by
  rw [h.eq]

theorem SizesOnly.txdb (h : SizesOnly w w') : w'.txdb = w.txdb := by
  rw [h.eq]

theorem SizesOnly.files (h : SizesOnly w w') : w'.files = w.files := by
  rw [h.eq]

instance : IsPreorder World SizesOnly where
  refl w := ⟨rfl, fun _ => ⟨rfl, rfl⟩, fun _ _ h => h⟩
  trans w1 w2 w3 h1 h2 := by
    have hh : w2.nBestHeight = w1.nBestHeight := by rw [h1.eq]
    refine ⟨?_, fun h => ?_, fun S hS hlast => h2.cache S (h1.linkClosed hS) (h1.cache S hS hlast)⟩
    · rw [h2.eq, h1.eq]
    · obtain ⟨hs, ho⟩ := h1.limits h
      obtain ⟨hs', ho'⟩ := h2.limits (hh ▸ h)
      exact ⟨hs'.trans hs, ho'.trans ho⟩

theorem deref_keeps {R : World → World → Prop} [IsPreorder World R] (p : Option Uint256) :
    Keeps R (deref p) := by
  refine .bind Keeps.get fun w => ?_
  split
  · exact .pure _
  · exact .throw _

theorem getBlockSize_keeps {R : World → World → Prop} [IsPreorder World R] (p : Uint256) :
    Keeps R (getBlockSize p) := by
  exact .bind Keeps.get fun w => .bind (deref_keeps _) fun e => .pure _

theorem findBlockByHeight_keeps (nHeight : ℤ) : Keeps SizesOnly (findBlockByHeight nHeight) := by
  intro w
  unfold findBlockByHeight
  rw [get_bind_apply]
  cases hp : findByHeight w nHeight with
  | none => exact Std.Refl.refl w
  | some p =>
    refine ⟨rfl, fun _ => ⟨rfl, rfl⟩, fun S hS hlast q hq => ?_⟩
    cases hq
    exact findByHeight_mem hS hlast hp

theorem collectSizes_keeps (firstBlock : ℤ) (fuel : ℕ) (p : Option Uint256) (l : List ℕ) :
    Keeps SizesOnly (collectSizes firstBlock fuel p l) := by
  induction fuel generalizing p l with
  | zero => exact .pure _
  | succ fuel ih =>
    cases p with
    | none => exact .pure _
    | some q =>
      refine .bind (deref_keeps _) fun e => .ite ?_ (.pure _)
      exact .bind (getBlockSize_keeps q) fun size => ih _ _

theorem getBlockSizes_keeps (p : Uint256) (pastblocks : ℕ) :
    Keeps SizesOnly (getBlockSizes p pastblocks) := by
  refine .bind Keeps.get fun w => .bind (deref_keeps _) fun e =>
    Keeps.ite (.pure _) (.ite ?_ (collectSizes_keeps _ _ _ _))
  refine .bind (getBlockSize_keeps p) fun latest => .ite (.pure _) ?_
  exact .bind (findBlockByHeight_keeps _) fun first =>
    Keeps.bind (getBlockSize_keeps first) fun oldest => .ite (.pure _) (.pure _)

theorem computeBlockSize_keeps (p : Uint256) : Keeps SizesOnly (computeBlockSize p) := by
  refine .bind (.bind (getBlockSizes_keeps _ _) fun sizes => ?_) fun _ => .pure _
  intro w
  exact ⟨rfl, fun _ => ⟨rfl, rfl⟩, fun _ _ h => h⟩

theorem updateBlockSize_keeps (p : Uint256) : Keeps SizesOnly (updateBlockSize p) := by
  intro w
  unfold updateBlockSize
  rw [get_bind_apply]
  by_cases hh : w.nBestHeight > sysUpgrade01
  · rw [if_pos hh, bind_apply]
    cases hc : computeBlockSize p w with
    | error s w1 => exact (computeBlockSize_keeps p).error hc
    | ok size w1 =>
      -- the rule applies, so nothing is said about the limits
      have hs := (computeBlockSize_keeps p).ok hc
      refine ⟨?_, fun hle => absurd hle (not_le.2 hh), hs.cache⟩
      simp only [modify_apply, finalState_ok]
      rw [hs.eq]
  · rw [if_neg hh]
    exact Std.Refl.refl w

end Espers
