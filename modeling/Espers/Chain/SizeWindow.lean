import Espers.Chain.Simnet
import Mathlib.Data.List.GetD

/-!
# The adaptive block size and the median of the last blocks

`ComputeBlockSize` is meant to be twice the median of the sizes of the last 125 blocks
(`adaptiveBlockSize`).  The sizes are kept in a static list from one call to the next: a call takes
out the size of the main-chain block 125 below its own and puts in the size of its own block.

* `putSize_sorted` : the new size goes to its place in a sorted list.
* `computeBlockSize_consecutive` : **the result is the plain definition** for calls each of which
  turns the window (`SizeCall.Turns`), as a call for a child of the block of the call before does
  when the main-chain block taken out is its own ancestor (`SizeCall.Follows.turns`).
* `computeBlockSize_repeated` : a second call for the same block takes out a size too many.
-/

namespace Espers

open Exec List Nat BlockMap AList Forest
open Option (bind_eq_some_iff map_some getD_some isSome_iff_exists bind_some)

/-! ### The list -/

/-- What the binary search finds in a sorted list: the first element that is not smaller. -/
theorem lowerBound_spec {l : List ℕ} (hs : l.Pairwise (· ≤ ·)) (x fuel first len : ℕ)
    (hlen : first + len ≤ l.length) (hfuel : len < fuel) (hlo : ∀ j < first, l.getD j 0 < x)
    (hhi : ∀ j, first + len ≤ j → j < l.length → x ≤ l.getD j 0) :
    lowerBound l x fuel first len ≤ l.length ∧
      (∀ j < lowerBound l x fuel first len, l.getD j 0 < x) ∧
      ∀ j, lowerBound l x fuel first len ≤ j → j < l.length → x ≤ l.getD j 0 := by
  have hmono : ∀ i j, i ≤ j → j < l.length → l.getD i 0 ≤ l.getD j 0 := by
    intro i j hij hj
    rw [getD_eq_getElem _ _ hj, getD_eq_getElem _ _ (by omega)]
    rcases eq_or_lt_of_le hij with rfl | hlt
    · exact le_rfl
    · exact pairwise_iff_getElem.1 hs i j _ hj hlt
  induction fuel generalizing first len with
  | zero => exact absurd hfuel (not_lt_zero _)
  | succ fuel ih =>
    rw [lowerBound]
    split_ifs with h0 hlt
    · subst h0
      exact ⟨by omega, hlo, hhi⟩
    · -- the middle element is smaller, so is everything before it
      refine ih _ _ (by omega) (by omega) ?_ ?_
      · intro j hj
        exact (hmono j (first + len / 2) (by omega) (by omega)).trans_lt hlt
      · intro j hj hjl
        exact hhi j (by omega) hjl
    · refine ih _ _ (by omega) (by omega) hlo ?_
      intro j hj hjl
      exact (not_lt.1 hlt).trans (hmono _ j hj hjl)

/-- A size put where the binary search says. -/
def putSize (l : List ℕ) (x : ℕ) : List ℕ :=
    l.insertIdx (lowerBound l x (l.length + 1) 0 l.length) x

/-- A new element goes to its place in a sorted list. -/
theorem putSize_sorted {l : List ℕ} (hs : l.Pairwise (· ≤ ·)) (x : ℕ) :
    (putSize l x).Pairwise (· ≤ ·) ∧ (putSize l x).Perm (x :: l) := by
  unfold putSize
  obtain ⟨hle, hlo, hhi⟩ := lowerBound_spec hs x (l.length + 1) 0 l.length (by omega)
    (lt_succ_self _) (fun j hj => absurd hj (not_lt_zero _)) (fun j h1 h2 => by omega)
  set i := lowerBound l x (l.length + 1) 0 l.length
  refine ⟨?_, perm_insertIdx x l hle⟩
  -- the elements before the place are smaller, those from it on are not
  have hbefore : ∀ j (hj : j < l.length), j < i → l[j] ≤ x := by
    intro j hj hji
    have := hlo j hji
    rw [getD_eq_getElem _ _ hj] at this
    exact this.le
  have hafter : ∀ j (hj : j < l.length), i ≤ j → x ≤ l[j] := by
    intro j hj hij
    have := hhi j hij hj
    rwa [getD_eq_getElem _ _ hj] at this
  rw [pairwise_iff_getElem] at hs ⊢
  intro a b ha hb hab
  rw [length_insertIdx_of_le_length hle] at ha hb
  rw [getElem_insertIdx, getElem_insertIdx]
  rcases lt_trichotomy a i with h1 | rfl | h1
  · rw [dif_pos h1]
    split_ifs with h2 h3
    · exact hs a b _ _ hab
    · exact hbefore a _ h1
    · exact hs a (b - 1) _ _ (by omega)
  · rw [dif_neg (lt_irrefl _), dif_pos rfl, dif_neg (by omega), dif_neg (by omega)]
    exact hafter (b - 1) (by omega) (by omega)
  · rw [dif_neg (by omega), dif_neg (by omega), dif_neg (by omega), dif_neg (by omega)]
    exact hs (a - 1) (b - 1) _ _ (by omega)

theorem eq_of_sorted_perm {l l' : List ℕ} (hs : l.Pairwise (· ≤ ·)) (hs' : l'.Pairwise (· ≤ ·))
    (h : l.Perm l') : l = l' :=
  h.eq_of_pairwise (fun _ _ _ _ hab hba => le_antisymm hab hba) hs hs'

theorem mergeSort_sorted (l : List ℕ) : (l.mergeSort (· ≤ ·)).Pairwise (· ≤ ·) := by
  have h : (l.mergeSort (· ≤ ·)).Pairwise fun a b => decide (a ≤ b) = true := by
    refine pairwise_mergeSort ?_ ?_ l
    · intro a b c hab hbc
      simp only [decide_eq_true_eq] at *
      omega
    · intro a b
      simp only [Bool.or_eq_true, decide_eq_true_eq]
      omega
  simpa using h

/-- The median, rounded down. -/
def median (l : List ℕ) : ℕ :=
  let s := l.mergeSort (· ≤ ·)
  if s.length % 2 = 0 then (s.getD (s.length / 2) 0 + s.getD (s.length / 2 - 1) 0) / 2
  else s.getD (s.length / 2) 0

/-- The limit for a block that follows blocks of these sizes. -/
def adaptiveBlockSize (sizes : List ℕ) : ℕ :=
  max minBlockSize (min (2 ^ 32 - 1) (2 * median sizes))

/-- The sizes of a block and of its ancestors, `n` blocks in all. -/
def branchSizes (m : BlockMap) (size : Uint256 → ℕ) : ℕ → Uint256 → List ℕ
  | 0, _ => []
  | n + 1, p => size p :: ((parent m p).map (branchSizes m size n)).getD []

/-! ### One call -/

/-- `size` is what `GetBlockSize` reads for the blocks of the index, and it reads no `-1`. -/
def Sized (size : Uint256 → ℕ) (w : World) : Prop :=
  ∀ p e, w.mapBlockIndex.lookup p = some e →
    (w.blockDir e.nFile e.nBlockPos).toNat = size p ∧ size p ≠ uintMax

variable {w : World} {size : Uint256 → ℕ} {g p q : Uint256} {e : CBlockIndex}

theorem getBlockSize_of_sized (hw : Sized size w) (he : w.mapBlockIndex.lookup p = some e) :
    getBlockSize p w = .ok (size p) w := by
  unfold getBlockSize
  rw [get_bind_apply, bind_of_ok (deref_of_lookup he), ← (hw p e he).1]
  rfl

theorem collectSizes_spec (ht : IndexTree w.mapBlockIndex g) (hw : Sized size w) {n fuel : ℕ}
    (acc : List ℕ) (he : w.mapBlockIndex.lookup p = some e) (hn : n ≤ e.nHeight)
    (hfuel : n < fuel) : collectSizes ((e.nHeight : ℤ) - n) fuel (some p) acc w =
      .ok (acc ++ branchSizes w.mapBlockIndex size n p) w := by
  induction n generalizing fuel acc p e with
  | zero =>
    obtain ⟨fuel, rfl⟩ : ∃ k, fuel = k + 1 := ⟨fuel - 1, by omega⟩
    rw [collectSizes, bind_of_ok (deref_of_lookup he), if_neg (by simp)]
    simp [branchSizes]
  | succ n ih =>
    obtain ⟨fuel, rfl⟩ : ∃ k, fuel = k + 1 := ⟨fuel - 1, by omega⟩
    rw [collectSizes, bind_of_ok (deref_of_lookup he), if_pos (by push_cast; omega),
      bind_of_ok (getBlockSize_of_sized hw he)]
    -- the block is not at height 0, so it has a parent
    obtain ⟨q, hq, -⟩ := ht.exists_parent (p := p) (by simp [he])
      (by rw [height_of_lookup he]; omega)
    have hprev : e.pprev = some q := (parent_of_lookup he).symm.trans hq
    obtain ⟨d, hd, hheight⟩ := ht.prev p e q he hprev
    have hfirst : (e.nHeight : ℤ) - (n + 1 : ℕ) = (d.nHeight : ℤ) - n := by
      omega
    rw [if_neg (hw p e he).2, hprev, hfirst, ih (acc ++ [size p]) hd (by omega) (by omega)]
    simp [branchSizes, hq]

theorem branchSizes_succ {n : ℕ} (h : walk (parent w.mapBlockIndex) n p = some q) :
    branchSizes w.mapBlockIndex size (n + 1) p = branchSizes w.mapBlockIndex size n p ++
    [size q] := by
  induction n generalizing p with
  | zero =>
    cases h
    cases hp : parent w.mapBlockIndex q <;> simp [branchSizes, hp]
  | succ n ih =>
    simp only [walk, bind_eq_some_iff] at h
    obtain ⟨r, hr, hq⟩ := h
    rw [branchSizes, hr, map_some, getD_some, ih hq, branchSizes, hr]
    simp

theorem length_branchSizes (ht : IndexTree w.mapBlockIndex g) {n : ℕ}
    (he : w.mapBlockIndex.lookup p = some e) (hn : n ≤ e.nHeight + 1) :
    (branchSizes w.mapBlockIndex size n p).length = n := by
  induction n generalizing p e with
  | zero => rfl
  | succ n ih =>
    cases n with
    | zero => cases h : parent w.mapBlockIndex p <;> simp [branchSizes, h]
    | succ n =>
      obtain ⟨q, hq, -⟩ := ht.exists_parent (p := p) (by simp [he])
        (by rw [height_of_lookup he]; omega)
      obtain ⟨d, hd, hheight⟩ := ht.prev p e q he ((parent_of_lookup he).symm.trans hq)
      rw [branchSizes, hq, map_some, getD_some, length_cons, ih hd (by omega)]

theorem branchSizes_lt (hw : Sized size w) (ht : IndexTree w.mapBlockIndex g) {n : ℕ}
    (he : (w.mapBlockIndex.lookup p).isSome) :
    ∀ x ∈ branchSizes w.mapBlockIndex size n p, x < 2 ^ 32 := by
  induction n generalizing p with
  | zero => simp [branchSizes]
  | succ n ih =>
    intro x hx
    rw [branchSizes, mem_cons] at hx
    rcases hx with rfl | hx
    · obtain ⟨e, he⟩ := isSome_iff_exists.1 he
      rw [← (hw p e he).1]
      exact BitVec.isLt _
    · cases hq : parent w.mapBlockIndex p with
      | none => simp [hq] at hx
      | some q =>
        rw [hq, map_some, getD_some] at hx
        exact ih (ht.mem_of_anc (.of_parent hq) he) x hx

theorem median_of_sorted {s : List ℕ} (hs : s.Pairwise (· ≤ ·))
    (hlen : s.length = numBlocksForMedianBlock) : median s = s.getD 62 0 := by
  have hmerge : s.mergeSort (· ≤ ·) = s :=
    eq_of_sorted_perm (mergeSort_sorted s) hs (mergeSort_perm s _)
  simp only [median, hmerge, hlen]
  rfl

/-- The end of a call, once the list is known: it is sorted, or it is sorted now. -/
theorem computeBlockSize_of_sizes {w1 : World} {l s : List ℕ}
    (h : getBlockSizes p numBlocksForMedianBlock w = .ok l w1)
    (hs : s = if w1.sorted then l else l.mergeSort (· ≤ ·)) (hsorted : s.Pairwise (· ≤ ·))
    (hlen : s.length = numBlocksForMedianBlock) (hlt : ∀ x ∈ s, x < 2 ^ 32) :
    computeBlockSize p w =
      .ok (adaptiveBlockSize s) { w1 with blocksizes := s, sorted := true } := by
  have hmedian := median_of_sorted hsorted hlen
  have hmed : getMedianBlockSize p numBlocksForMedianBlock w =
      .ok (median s) { w1 with blocksizes := s, sorted := true } := by
    unfold getMedianBlockSize
    rw [bind_of_ok h, get_bind_apply]
    simp only [← hs]
    rw [hmedian, hlen, if_pos rfl]
    rfl
  -- twice the median does not fit into 32 bits exactly when it wraps around below it
  have hbound : median s < 2 ^ 32 := by
    rw [hmedian, getD_eq_getElem _ _ (by rw [hlen]; decide)]
    exact hlt _ (getElem_mem _)
  unfold computeBlockSize
  rw [bind_of_ok hmed, adaptiveBlockSize]
  simp only [pure_apply]
  congr 1
  split_ifs with hpos hwrap
  · omega
  · omega
  · unfold minBlockSize
    omega

theorem adaptiveBlockSize_perm {l l' : List ℕ} (h : l.Perm l') :
    adaptiveBlockSize l = adaptiveBlockSize l' := by
  have hsort : l.mergeSort (· ≤ ·) = l'.mergeSort (· ≤ ·) :=
    eq_of_sorted_perm (mergeSort_sorted l) (mergeSort_sorted l')
      ((mergeSort_perm l _).trans (h.trans (mergeSort_perm l' _).symm))
  simp only [adaptiveBlockSize, median, hsort]

/-- The list holds the sizes of the last blocks up to `p`, and it is sorted. -/
structure Holding (size : Uint256 → ℕ) (m : BlockMap) (p : Uint256) (l : List ℕ) : Prop where
  perm : l.Perm (branchSizes m size numBlocksForMedianBlock p)
  sorted : l.Pairwise (· ≤ ·)

section

variable (ht : IndexTree w.mapBlockIndex g) (hw : Sized size w)
  (he : w.mapBlockIndex.lookup p = some e) (hheight : numBlocksForMedianBlock ≤ e.nHeight)
include ht hw he hheight

theorem Holding.computeBlockSize {w1 : World} {l s : List ℕ}
    (h : getBlockSizes p numBlocksForMedianBlock w = .ok l w1)
    (hs : s = if w1.sorted then l else l.mergeSort (· ≤ ·))
    (hold : Holding size w.mapBlockIndex p s) :
    computeBlockSize p w =
      .ok (adaptiveBlockSize (branchSizes w.mapBlockIndex size numBlocksForMedianBlock p))
        { w1 with blocksizes := s, sorted := true } := by
  rw [← adaptiveBlockSize_perm hold.perm]
  refine computeBlockSize_of_sizes h hs hold.sorted ?_ ?_
  · rw [hold.perm.length_eq, length_branchSizes ht he (by omega)]
  · intro x hx
    exact branchSizes_lt hw ht (by simp [he]) x (hold.perm.mem_iff.1 hx)

/-- **The first call** reads the sizes of all the blocks. -/
theorem computeBlockSize_first (hempty : w.blocksizes = []) (hflag : w.sorted = false) :
    ∃ w', computeBlockSize p w =
        .ok (adaptiveBlockSize (branchSizes w.mapBlockIndex size numBlocksForMedianBlock p)) w' ∧
      w'.sorted = true ∧ Holding size w.mapBlockIndex p w'.blocksizes := by
  have h : getBlockSizes p numBlocksForMedianBlock w =
      .ok (branchSizes w.mapBlockIndex size numBlocksForMedianBlock p) w := by
    unfold getBlockSizes
    rw [get_bind_apply, bind_of_ok (deref_of_lookup he), if_neg (by omega), hempty,
      if_neg (by simp)]
    rw [collectSizes_spec ht hw [] he hheight (lt_succ_self _)]
    rfl
  have hold : Holding size w.mapBlockIndex p
      ((branchSizes w.mapBlockIndex size numBlocksForMedianBlock p).mergeSort (· ≤ ·)) :=
    ⟨mergeSort_perm _ _, mergeSort_sorted _⟩
  exact ⟨_, hold.computeBlockSize ht hw he hheight h (by rw [hflag]; rfl), rfl, hold⟩

end

/-- **A later call** takes out the size of the block that `FindBlockByHeight` finds, if it is in the
list, and puts in the size of its own block. -/
theorem getBlockSizes_later {r : Uint256} {d : CBlockIndex} (hw : Sized size w)
    (he : w.mapBlockIndex.lookup p = some e) (hheight : numBlocksForMedianBlock ≤ e.nHeight)
    (hne : w.blocksizes ≠ [])
    (hfind : findByHeight w ((e.nHeight : ℤ) - numBlocksForMedianBlock) = some r)
    (hr : w.mapBlockIndex.lookup r = some d) :
    getBlockSizes p numBlocksForMedianBlock w =
      .ok (if size r ∈ w.blocksizes then putSize (w.blocksizes.erase (size r)) (size p)
        else w.blocksizes) { w with pblockindexFBBHLast := some r } := by
  have hfound : findBlockByHeight ((e.nHeight : ℤ) - numBlocksForMedianBlock) w =
      .ok r { w with pblockindexFBBHLast := some r } := by
    unfold findBlockByHeight
    rw [get_bind_apply, hfind]
    rfl
  have holdest : getBlockSize r { w with pblockindexFBBHLast := some r } =
      .ok (size r) { w with pblockindexFBBHLast := some r } :=
    getBlockSize_of_sized (w := { w with pblockindexFBBHLast := some r }) hw hr
  unfold getBlockSizes
  rw [get_bind_apply, bind_of_ok (deref_of_lookup he), if_neg (by omega)]
  rw [if_pos hne, bind_of_ok (getBlockSize_of_sized hw he), if_neg (hw p e he).2,
    bind_of_ok hfound, bind_of_ok holdest]
  simp only [ne_eq, (hw r d hr).2, not_false_eq_true, true_and]
  split_ifs <;> rfl

theorem walkNext_lookup {m : BlockMap} {nHeight : ℤ} {fuel : ℕ} {r : Uint256}
    (h : walkNext m nHeight fuel p = some r) : (m.lookup r).isSome := by
  induction fuel generalizing p with
  | zero => cases h
  | succ fuel ih =>
    rw [walkNext] at h
    cases he : m.lookup p with
    | none => rw [he] at h; cases h
    | some e =>
      rw [he] at h
      simp only at h
      split_ifs at h
      · obtain ⟨q, -, hq⟩ := bind_eq_some_iff.1 h
        exact ih hq
      · cases h
        simp [he]

theorem findByHeight_lookup {nHeight : ℤ} {r : Uint256} (h : findByHeight w nHeight = some r) :
    ∃ d, w.mapBlockIndex.lookup r = some d := by
  obtain ⟨start, -, h⟩ := bind_eq_some_iff.1 h
  obtain ⟨mid, -, h⟩ := bind_eq_some_iff.1 h
  exact isSome_iff_exists.1 (walkNext_lookup h)

/-- **A call that turns the window**: with the size that is taken out, the window of the block has
the sizes of the window before and its own. -/
theorem computeBlockSize_turn {r : Uint256} (ht : IndexTree w.mapBlockIndex g) (hw : Sized size w)
    (he : w.mapBlockIndex.lookup p = some e) (hheight : numBlocksForMedianBlock ≤ e.nHeight)
    (hold : Holding size w.mapBlockIndex q w.blocksizes) (hflag : w.sorted = true)
    (hfind : findByHeight w ((e.nHeight : ℤ) - numBlocksForMedianBlock) = some r)
    (hturn : (size r :: branchSizes w.mapBlockIndex size numBlocksForMedianBlock p).Perm
      (size p :: branchSizes w.mapBlockIndex size numBlocksForMedianBlock q)) :
    ∃ w', computeBlockSize p w =
        .ok (adaptiveBlockSize (branchSizes w.mapBlockIndex size numBlocksForMedianBlock p)) w' ∧
      w'.sorted = true ∧ Holding size w.mapBlockIndex p w'.blocksizes := by
  obtain ⟨d, hd⟩ := findByHeight_lookup hfind
  have hperm : (size r :: branchSizes w.mapBlockIndex size numBlocksForMedianBlock p).Perm
      (size p :: w.blocksizes) := hturn.trans (hold.perm.symm.cons _)
  have hne : w.blocksizes ≠ [] := by
    intro hnil
    have hlen := hperm.length_eq
    rw [hnil, length_cons, length_branchSizes ht he (by omega)] at hlen
    cases hlen
  have h := getBlockSizes_later hw he hheight hne hfind hd
  by_cases hmem : size r ∈ w.blocksizes
  · rw [if_pos hmem] at h
    obtain ⟨hsorted, hput⟩ := putSize_sorted (hold.sorted.sublist erase_sublist) (size p)
    have hswap : (size p :: w.blocksizes).Perm
        (size r :: size p :: w.blocksizes.erase (size r)) :=
      ((perm_cons_erase hmem).cons _).trans (.swap _ _ _)
    have hold' : Holding size w.mapBlockIndex p (putSize (w.blocksizes.erase (size r)) (size p)) :=
      ⟨hput.trans (hperm.trans hswap).cons_inv.symm, hsorted⟩
    exact ⟨_, hold'.computeBlockSize ht hw he hheight h (by simp [hflag]), rfl, hold'⟩
  · -- the size that is not in the list is the one of the block itself, and the list stays
    rw [if_neg hmem] at h
    have heq : size r = size p :=
      (mem_cons.1 (hperm.mem_iff.1 mem_cons_self)).resolve_right hmem
    rw [heq] at hperm
    have hold' : Holding size w.mapBlockIndex p w.blocksizes := ⟨hperm.cons_inv.symm, hold.sorted⟩
    exact ⟨_, hold'.computeBlockSize ht hw he hheight h (by simp [hflag]), rfl, hold'⟩

/-! ### Runs -/

/-- A call of `ComputeBlockSize`: the globals, but for the list of sizes and its flag, and the
block. -/
structure SizeCall where
  world : World
  pindex : Uint256

/-- The static variables of `blocksizecalculator.cpp`. -/
structure SizeStatics where
  blocksizes : List ℕ
  sorted : Bool

/-- Before the first call. -/
def SizeStatics.initial : SizeStatics := ⟨[], false⟩

namespace SizeCall

/-- The result of a call and the static variables after it. -/
def exec (st : SizeStatics) (c : SizeCall) : Except Stop (ℕ × SizeStatics) :=
  match computeBlockSize c.pindex { c.world with blocksizes := st.blocksizes, sorted :=
    st.sorted } with
  | .ok n w => .ok (n, ⟨w.blocksizes, w.sorted⟩)
  | .error e _ => .error e

/-- The results of a list of calls. -/
def results : SizeStatics → List SizeCall → Except Stop (List ℕ)
  | _, [] => .ok []
  | st, c :: calls => do
    let (n, st) ← c.exec st
    let ns ← results st calls
    .ok (n :: ns)

/-- The height of the block. -/
def height (c : SizeCall) : ℕ := BlockMap.height c.world.mapBlockIndex c.pindex

/-- The sizes of the blocks that the result is the median of. -/
def window (size : Uint256 → ℕ) (c : SizeCall) : List ℕ :=
  branchSizes c.world.mapBlockIndex size numBlocksForMedianBlock c.pindex

/-- What the call is meant to return: the plain definition, on the branch of the block. -/
def plain (size : Uint256 → ℕ) (c : SizeCall) : ℕ :=
  adaptiveBlockSize (c.window size)

/-- The index is a tree that holds the block, and `size` is what `GetBlockSize` reads. -/
structure Sound (size : Uint256 → ℕ) (g : Uint256) (c : SizeCall) : Prop where
  tree : IndexTree c.world.mapBlockIndex g
  sized : Sized size c.world
  mem : (c.world.mapBlockIndex.lookup c.pindex).isSome

/-- From one call to the next the index may grow, and no block gets another parent. -/
def Later (c c' : SizeCall) : Prop :=
  ∀ p, (c.world.mapBlockIndex.lookup p).isSome → (c'.world.mapBlockIndex.lookup p).isSome ∧
    parent c'.world.mapBlockIndex p = parent c.world.mapBlockIndex p

/-- From one window to the next, the size of the main-chain block below the height of the window
goes out and the size of the block comes in. -/
def Turns (size : Uint256 → ℕ) (c c' : SizeCall) : Prop :=
  ∃ r, findByHeight c'.world ((c'.height : ℤ) - numBlocksForMedianBlock) = some r ∧
    (size r :: c'.window size).Perm (size c'.pindex :: c.window size)

/-- The call is for a child of the block of the call before, and the block that `FindBlockByHeight`
finds on the main chain below the window is its own ancestor. -/
structure Follows (c c' : SizeCall) : Prop where
  child : parent c'.world.mapBlockIndex c'.pindex = some c.pindex
  ancestor : findByHeight c'.world ((c'.height : ℤ) - numBlocksForMedianBlock) =
    walk (parent c'.world.mapBlockIndex) numBlocksForMedianBlock c'.pindex

end SizeCall

/-- Calls such as `ConnectBlock` makes them, in any order and for any blocks of the index. -/
structure SizeRun (size : Uint256 → ℕ) (g : Uint256) (calls : List SizeCall) : Prop where
  sound : ∀ c ∈ calls, c.Sound size g
  later : calls.IsChain SizeCall.Later

theorem branchSizes_later {c c' : SizeCall} {size : Uint256 → ℕ} {g p : Uint256}
    (ht : IndexTree c.world.mapBlockIndex g) (h : c.Later c')
    (hp : (c.world.mapBlockIndex.lookup p).isSome) (n : ℕ) :
    branchSizes c'.world.mapBlockIndex size n p = branchSizes c.world.mapBlockIndex size n p := by
  induction n generalizing p with
  | zero => rfl
  | succ n ih =>
    rw [branchSizes, branchSizes, (h p hp).2]
    cases hq : parent c.world.mapBlockIndex p with
    | none => rfl
    | some q =>
      rw [map_some, map_some, ih (ht.mem_of_anc (Anc.of_parent hq) hp)]

/-- **A call for a child of the block of the call before turns the window**, if the main-chain block
below is its own ancestor. -/
theorem SizeCall.Follows.turns {c c' : SizeCall} {size : Uint256 → ℕ} {g : Uint256}
    (h : c.Follows c') (hc : c.Sound size g) (hc' : c'.Sound size g) (hlater : c.Later c')
    (hheight : numBlocksForMedianBlock ≤ c'.height) : c.Turns size c' := by
  obtain ⟨r, hr, -⟩ :=
    exists_walk hc'.tree.graded (P := fun a => (c'.world.mapBlockIndex.lookup a).isSome)
      (fun a ha h0 => hc'.tree.exists_parent ha h0) hc'.mem hheight
  have hwalk : walk (parent c'.world.mapBlockIndex) 124 c.pindex = some r := by
    rw [show numBlocksForMedianBlock = 124 + 1 from rfl, walk, h.child, bind_some] at hr
    exact hr
  -- the window of the parent ends with the block that is taken out
  have hold : c.window size = branchSizes c'.world.mapBlockIndex size 124 c.pindex ++ [size r] := by
    rw [window, ← branchSizes_later hc.tree hlater hc.mem]
    exact branchSizes_succ hwalk
  have hnew : c'.window size =
      size c'.pindex :: branchSizes c'.world.mapBlockIndex size 124 c.pindex := by
    rw [window, show numBlocksForMedianBlock = 124 + 1 from rfl, branchSizes, h.child]
    rfl
  refine ⟨r, h.ancestor.trans hr, ?_⟩
  rw [hold, hnew]
  exact (Perm.swap _ _ _).trans ((perm_append_singleton _ _).symm.cons _)

/-- The calls after one that left the sizes of its own window. -/
theorem results_of_holding {size : Uint256 → ℕ} {g : Uint256} {c : SizeCall} {calls : List SizeCall}
    {l : List ℕ} (hrun : SizeRun size g (c :: calls))
    (hheight : ∀ d ∈ calls, numBlocksForMedianBlock ≤ d.height)
    (hgood : (c :: calls).IsChain (SizeCall.Turns size))
    (hold : Holding size c.world.mapBlockIndex c.pindex l) :
    SizeCall.results ⟨l, true⟩ calls = .ok (calls.map (SizeCall.plain size)) := by
  induction calls generalizing c l with
  | nil => rfl
  | cons d calls ih =>
    obtain ⟨hlater, hlaters⟩ := isChain_cons_cons.1 hrun.later
    obtain ⟨⟨r, hfind, hturn⟩, hgoods⟩ := isChain_cons_cons.1 hgood
    have hc := hrun.sound c mem_cons_self
    have hd := hrun.sound d (by simp)
    obtain ⟨e, he⟩ := isSome_iff_exists.1 hd.mem
    have hh : d.height = e.nHeight := height_of_lookup he
    -- the window of the call before is the same in the state of this call
    have hwindow := @branchSizes_later _ _ size _ _ hc.tree hlater hc.mem numBlocksForMedianBlock
    have hold' : Holding size d.world.mapBlockIndex c.pindex l :=
      ⟨by rw [hwindow]; exact hold.perm, hold.sorted⟩
    have hle : numBlocksForMedianBlock ≤ e.nHeight := hh ▸ hheight d mem_cons_self
    rw [hh] at hfind
    rw [SizeCall.window, SizeCall.window, ← hwindow] at hturn
    obtain ⟨w', hw', hflag, hnext⟩ := computeBlockSize_turn
      (w := { d.world with blocksizes := l, sorted := true }) hd.tree hd.sized he hle hold' rfl
      hfind hturn
    have hexec : d.exec ⟨l, true⟩ = .ok (d.plain size, ⟨w'.blocksizes, w'.sorted⟩) := by
      rw [SizeCall.exec, hw']
      rfl
    rw [SizeCall.results, hexec, except_ok_bind, hflag]
    simp only
    rw [ih ⟨fun x hx => hrun.sound x (mem_cons_of_mem _ hx), hlaters⟩
      (fun x hx => hheight x (mem_cons_of_mem _ hx)) hgoods hnext]
    rfl

/-- **Calls that turn the window return the plain definition.**  The first call may be for any
block; at each later one the window of the block is that of the call before without the size of the
main-chain block below it and with the size of the block, and the blocks have at least the height of
the window. -/
theorem computeBlockSize_consecutive {size : Uint256 → ℕ} {g : Uint256} {calls : List SizeCall}
    (hrun : SizeRun size g calls)
    (hheight : ∀ c ∈ calls, numBlocksForMedianBlock ≤ c.height)
    (hgood : calls.IsChain (SizeCall.Turns size)) :
    SizeCall.results .initial calls = .ok (calls.map (SizeCall.plain size)) := by
  cases calls with
  | nil => rfl
  | cons c calls =>
    have hc := hrun.sound c mem_cons_self
    obtain ⟨e, he⟩ := isSome_iff_exists.1 hc.mem
    have hle : numBlocksForMedianBlock ≤ e.nHeight := by
      have := hheight c mem_cons_self
      rwa [SizeCall.height, height_of_lookup he] at this
    obtain ⟨w', hw', hflag, hold⟩ := computeBlockSize_first
      (w := { c.world with blocksizes := [], sorted := false }) hc.tree hc.sized he hle rfl rfl
    have hexec : c.exec .initial = .ok (c.plain size, ⟨w'.blocksizes, w'.sorted⟩) := by
      rw [SizeCall.exec, SizeStatics.initial, hw']
      rfl
    rw [SizeCall.results, hexec, except_ok_bind, hflag]
    simp only
    rw [results_of_holding hrun (fun x hx => hheight x (mem_cons_of_mem _ hx)) hgood hold]
    rfl

/-! ### A second call for the same block -/

namespace Simnet

/-- The size of the block of height `i`: two million bytes in the last 62 blocks up to height `top`
and after it, one million before. -/
def bulk (top i : ℕ) : ℕ := if top < i + 62 then 2000000 else 1000000

/-- The entry of the block of height `i` on a chain whose best block has height `n - 1`. -/
def chainEntry (n i : ℕ) : CBlockIndex :=
  { linkEntry (hash i) (if i = 0 then none else some (hash (i - 1))) i with
    pnext := if i + 1 < n then some (hash (i + 1)) else none, nBlockPos := 1000 * i + 8,
    nTime := i, nBits := 0x207fffff }

/-- The entries of the blocks below height `k`. -/
def chainMap (n : ℕ) : ℕ → BlockMap
  | 0 => ∅
  | k + 1 => (chainMap n k).insert (hash k) (chainEntry n k)

/-- A node with a chain of blocks up to height `n - 1` and one more block on top of it. -/
def chainWorld (top n : ℕ) : World := { emptyWorld with
  mapBlockIndex := chainMap n (n + 1)
  pindexGenesisBlock := some (hash 0)
  pindexBest := some (hash (n - 1))
  hashBestChain := hash (n - 1)
  nBestHeight := (n - 1 : ℕ)
  blockDir := fun _ pos => BitVec.ofNat 32 (bulk top (pos / 1000)) }

section Chain

variable {t n i k : ℕ}

theorem chainMap_lookup (hk : k ≤ codes) (hi : i < codes) :
    (chainMap n k).lookup (hash i) = if i < k then some (chainEntry n i) else none := by
  induction k with
  | zero => simp [chainMap]
  | succ k ih =>
    by_cases heq : i = k
    · subst heq
      rw [chainMap, lookup_insert, if_pos (lt_succ_self _)]
    · have hne : hash i ≠ hash k := fun h => heq ((hash_inj hi (by omega)).1 h)
      rw [chainMap, lookup_insert_ne hne, ih (by omega)]
      split_ifs <;> first | rfl | omega

theorem chainMap_eq_some {p : Uint256} {e : CBlockIndex} (hk : k ≤ codes)
    (h : (chainMap n k).lookup p = some e) : ∃ i < k, p = hash i ∧ e = chainEntry n i := by
  induction k with
  | zero => simp [chainMap] at h
  | succ k ih =>
    by_cases heq : p = hash k
    · subst heq
      rw [chainMap, lookup_insert, Option.some.injEq] at h
      exact ⟨k, lt_succ_self _, rfl, h.symm⟩
    · rw [chainMap, lookup_insert_ne heq] at h
      obtain ⟨i, hi, hp, he⟩ := ih (by omega) h
      exact ⟨i, by omega, hp, he⟩

theorem chainMap_tree (hn : n < codes) : IndexTree (chainMap n (n + 1)) (hash 0) := by
  refine ⟨?_, ?_, ?_⟩
  · intro p e h
    obtain ⟨i, -, rfl, rfl⟩ := chainMap_eq_some (by omega) h
    rfl
  · intro p e q h hq
    obtain ⟨i, hi, rfl, rfl⟩ := chainMap_eq_some (by omega) h
    by_cases h0 : i = 0
    · simp [chainEntry, linkEntry, h0] at hq
    · obtain rfl : hash (i - 1) = q := by simpa [chainEntry, linkEntry, h0] using hq
      refine ⟨chainEntry n (i - 1), ?_, ?_⟩
      · rw [chainMap_lookup (by omega) (by omega), if_pos (by omega)]
      · simp only [chainEntry, linkEntry]
        omega
  · intro p e h hq
    obtain ⟨i, hi, rfl, rfl⟩ := chainMap_eq_some (by omega) h
    by_cases h0 : i = 0
    · subst h0
      exact ⟨rfl, rfl⟩
    · simp [chainEntry, linkEntry, h0] at hq

/-- The size of a block, from its hash. -/
def chainSize (t : ℕ) (p : Uint256) : ℕ := bulk t (p.toNat - 1)

theorem chainSize_hash (hi : i < codes) : chainSize t (hash i) = bulk t i := by
  have : (hash i).toNat = i + 1 := by
    unfold codes at hi
    rw [hash, BitVec.toNat_ofNat, mod_eq_of_lt (by omega)]
  rw [chainSize, this, Nat.add_sub_cancel]

theorem bulk_lt : bulk t i < uintMax := by
  unfold bulk
  split_ifs <;> decide

theorem chainWorld_sized (hn : n < codes) : Sized (chainSize t) (chainWorld t n) := by
  intro p e h
  obtain ⟨i, hi, rfl, rfl⟩ := chainMap_eq_some (by omega) h
  have hdiv : (1000 * i + 8) / 1000 = i := by omega
  have hlt : bulk t i < 4294967295 := bulk_lt
  rw [chainSize_hash (by omega)]
  refine ⟨?_, bulk_lt.ne⟩
  simp only [chainWorld, chainEntry, linkEntry, hdiv, BitVec.toNat_ofNat]
  exact mod_eq_of_lt (by omega)

theorem chainMap_parent (hn : n < codes) (hi : i + 1 < n + 1) :
    parent (chainMap n (n + 1)) (hash (i + 1)) = some (hash i) := by
  have h := chainMap_lookup (n := n) (k := n + 1) (i := i + 1) (by omega) (by omega)
  rw [if_pos hi] at h
  rw [parent_of_lookup h]
  simp [chainEntry, linkEntry]

theorem chainMap_walk (hn : n < codes) (hi : i ≤ n) (hk : k ≤ i) :
    walk (parent (chainMap n (n + 1))) k (hash i) = some (hash (i - k)) := by
  induction k generalizing i with
  | zero => rfl
  | succ k ih =>
    obtain ⟨j, rfl⟩ : ∃ j, i = j + 1 := ⟨i - 1, by omega⟩
    rw [walk, chainMap_parent hn (by omega), bind_some, ih (by omega) (by omega)]
    congr 2
    omega

theorem chainMap_branchSizes (hn : n < codes) (hi : i ≤ n) (hk : k ≤ i + 1) :
    branchSizes (chainMap n (n + 1)) (chainSize t) k (hash i) =
      (List.range k).map fun j => bulk t (i - j) := by
  induction k generalizing i with
  | zero => rfl
  | succ k ih =>
    rw [branchSizes, range_succ_eq_map, map_cons, chainSize_hash (by omega), Nat.sub_zero]
    congr 1
    by_cases h0 : i = 0
    · obtain rfl : k = 0 := by omega
      cases parent (chainMap n (n + 1)) (hash i) <;> rfl
    · obtain ⟨j, rfl⟩ : ∃ j, i = j + 1 := ⟨i - 1, by omega⟩
      rw [chainMap_parent hn (by omega), map_some, getD_some, ih (by omega) (by omega), map_map]
      refine map_congr_left fun x _ => ?_
      simp only [Function.comp_apply, Nat.succ_eq_add_one, Nat.add_sub_add_right]

/-- The best chain is walked from its tip. -/
theorem chainWorld_findByHeight (hn : n < codes) (h0 : 1 ≤ n) (hi : i < n) (hhalf : n ≤ 2 * i) :
    findByHeight (chainWorld t n) i = some (hash i) := by
  have ht := chainMap_tree hn
  have hbest : ((chainMap n (n + 1)).lookup (hash (n - 1))).isSome := by
    rw [chainMap_lookup (by omega) (by omega), if_pos (by omega)]
    rfl
  have hheight : ∀ j ≤ n, height (chainMap n (n + 1)) (hash j) = j := by
    intro j hj
    have h := chainMap_lookup (n := n) (k := n + 1) (i := j) (by omega) (by omega)
    rw [if_pos (by omega)] at h
    rw [height_of_lookup h]
    rfl
  have hstart : findStart (chainWorld t n) i = some (hash (n - 1)) := by
    unfold findStart
    have : ¬ (i : ℤ) < (chainWorld t n).nBestHeight.tdiv 2 := by
      simp only [chainWorld]
      rw [Int.tdiv_eq_ediv_of_nonneg (by omega)]
      omega
    simp only [if_neg this]
    split
    · rename_i hlast
      simp [chainWorld, emptyWorld] at hlast
    · rfl
  -- the walk back ends at the ancestor of that height, which is the block
  obtain ⟨r, hr, hanc, hrh⟩ := walkPrev_ok ht hbest (Int.natCast_nonneg i)
    ((((chainMap n (n + 1)).lookup (hash (n - 1))).map CBlockIndex.nHeight).getD 0 + 2)
    (by simp only [height]; omega) (by omega)
  rw [hheight (n - 1) (by omega)] at hrh
  have hwalk := chainMap_walk hn (sub_le n 1) (sub_le (n - 1) i)
  rw [Nat.sub_sub_self (by omega)] at hwalk
  obtain rfl : r = hash i := by
    refine hanc.eq_of_height ht.graded (anc_of_walk hwalk) ?_
    rw [hheight i (by omega)]
    omega
  rw [findByHeight, hstart, bind_some]
  simp only [chainWorld] at hr ⊢
  rw [hr, bind_some, walkNext, chainMap_lookup (by omega) (by omega), if_pos (by omega)]
  simp [chainEntry, linkEntry]

/-- The call for the block on top of the chain. -/
def chainCall (t n : ℕ) : SizeCall := ⟨chainWorld t n, hash n⟩

theorem chainMap_top (hn : n < codes) :
    (chainMap n (n + 1)).lookup (hash n) = some (chainEntry n n) := by
  rw [chainMap_lookup (by omega) hn, if_pos (lt_succ_self n)]

theorem chainCall_sound (hn : n < codes) : (chainCall t n).Sound (chainSize t) (hash 0) where
  tree := chainMap_tree hn
  sized := chainWorld_sized hn
  mem := by
    rw [chainCall, chainWorld, chainMap_top hn]
    rfl

theorem chainCall_height (hn : n < codes) : (chainCall t n).height = n :=
  height_of_lookup (chainMap_top hn)

theorem chainCall_later (hn : n + 1 < codes) : (chainCall t n).Later (chainCall t (n + 1)) := by
  intro p hp
  obtain ⟨e, he⟩ := isSome_iff_exists.1 hp
  obtain ⟨i, hi, rfl, rfl⟩ := chainMap_eq_some (by omega) he
  have h' := chainMap_lookup (n := n + 1) (k := n + 1 + 1) (i := i) (by omega) (by omega)
  rw [if_pos (by omega)] at h'
  refine ⟨?_, ?_⟩
  · rw [show (chainCall t (n + 1)).world.mapBlockIndex = chainMap (n + 1) (n + 1 + 1) from rfl,
      h']
    rfl
  · exact (parent_of_lookup h').trans (parent_of_lookup he).symm

theorem chainCall_follows (hn : n + 1 < codes) (h250 : 250 ≤ n) :
    (chainCall t n).Follows (chainCall t (n + 1)) where
  child := chainMap_parent hn (by omega)
  ancestor := by
    have hfind := chainWorld_findByHeight (t := t) (n := n + 1) (i := n - 124) hn (by omega)
      (by omega) (by omega)
    have hwalk := chainMap_walk (k := numBlocksForMedianBlock) hn le_rfl
      (show 125 ≤ n + 1 by omega)
    have hheight : ((chainCall t (n + 1)).height : ℤ) - numBlocksForMedianBlock =
        ((n - 124 : ℕ) : ℤ) := by
      rw [chainCall_height hn, numBlocksForMedianBlock]
      omega
    have hsub : n + 1 - numBlocksForMedianBlock = n - 124 := by
      rw [numBlocksForMedianBlock]
      omega
    rw [hheight]
    exact hfind.trans (hsub ▸ hwalk).symm

/-- The window of the block at height `t`: 62 blocks of two million bytes and 63 of one million.
-/
def windowSizes : List ℕ := replicate 63 1000000 ++ replicate 62 2000000

/-- The window one block later: one of the smaller sizes has been replaced by a larger one. -/
def shiftedSizes : List ℕ := replicate 62 1000000 ++ replicate 63 2000000

theorem windowSizes_sorted : windowSizes.Pairwise (· ≤ ·) := by decide

theorem shiftedSizes_sorted : shiftedSizes.Pairwise (· ≤ ·) := by decide

/-- `d` blocks after the height `t`, there are `62 + d` blocks of the larger size in the window.
-/
theorem chainCall_window (d : ℕ) (hn : t + d < codes) (h125 : 125 ≤ t) :
    (chainCall t (t + d)).window (chainSize t) =
      (List.range numBlocksForMedianBlock).map fun j =>
        if j < 62 + d then 2000000 else 1000000 := by
  rw [SizeCall.window, chainCall, chainWorld,
    chainMap_branchSizes hn le_rfl (by unfold numBlocksForMedianBlock; omega)]
  refine map_congr_left fun j hj => ?_
  have hlt : j < 125 := mem_range.1 hj
  unfold bulk
  split_ifs <;> omega

theorem chainCall_window_top (hn : t < codes) (h125 : 125 ≤ t) :
    ((chainCall t t).window (chainSize t)).Perm windowSizes := by
  rw [show (chainCall t t).window _ = _ from chainCall_window 0 hn h125]
  decide

theorem chainCall_window_next (hn : t + 1 < codes) (h125 : 125 ≤ t) :
    ((chainCall t (t + 1)).window (chainSize t)).Perm shiftedSizes := by
  rw [chainCall_window 1 hn h125]
  decide

theorem adaptiveBlockSize_windowSizes : adaptiveBlockSize windowSizes = 2000000 := by
  rw [adaptiveBlockSize, median_of_sorted windowSizes_sorted (by decide +kernel)]
  decide

theorem adaptiveBlockSize_shiftedSizes : adaptiveBlockSize shiftedSizes = 4000000 := by
  rw [adaptiveBlockSize, median_of_sorted shiftedSizes_sorted (by decide +kernel)]
  decide

theorem chainCall_plain (hn : t < codes) (h125 : 125 ≤ t) :
    (chainCall t t).plain (chainSize t) = 2000000 := by
  rw [SizeCall.plain, ← adaptiveBlockSize_windowSizes]
  exact adaptiveBlockSize_perm (chainCall_window_top hn h125)

theorem chainCall_plain_next (hn : t + 1 < codes) (h125 : 125 ≤ t) :
    (chainCall t (t + 1)).plain (chainSize t) = 4000000 := by
  rw [SizeCall.plain, ← adaptiveBlockSize_shiftedSizes]
  exact adaptiveBlockSize_perm (chainCall_window_next hn h125)

theorem chainCall_first (hn : t < codes) (h125 : 125 ≤ t) :
    (chainCall t t).exec .initial = .ok (2000000, ⟨windowSizes, true⟩) := by
  have hc := chainCall_sound (t := t) hn
  obtain ⟨w', hw', hflag, hold⟩ := computeBlockSize_first
    (w := { chainWorld t t with blocksizes := [], sorted := false }) hc.tree hc.sized
    (chainMap_top hn) h125 rfl rfl
  have hlist : w'.blocksizes = windowSizes :=
    eq_of_sorted_perm hold.sorted windowSizes_sorted
      (hold.perm.trans (chainCall_window_top hn h125))
  have hplain : adaptiveBlockSize (branchSizes (chainWorld t t).mapBlockIndex (chainSize t)
      numBlocksForMedianBlock (hash t)) = 2000000 := chainCall_plain hn h125
  rw [SizeCall.exec, SizeStatics.initial]
  simp only [chainCall, hw', hlist, hflag, hplain]

/-- The second call takes out the size of a block that has left the window already. -/
theorem chainCall_second (hn : t < codes) (h250 : 250 ≤ t) :
    (chainCall t t).exec ⟨windowSizes, true⟩ = .ok (4000000, ⟨shiftedSizes, true⟩) := by
  have hc := chainCall_sound (t := t) hn
  have hr := chainMap_lookup (n := t) (k := t + 1) (i := t - 125) (by omega) (by omega)
  rw [if_pos (by omega)] at hr
  have hfind : findByHeight { chainWorld t t with blocksizes := windowSizes, sorted := true }
      (((chainEntry t t).nHeight : ℤ) - numBlocksForMedianBlock) = some (hash (t - 125)) := by
    have h := chainWorld_findByHeight (t := t) (i := t - 125) hn (by omega) (by omega)
      (by omega)
    rw [← h]
    have : ((chainEntry t t).nHeight : ℤ) - numBlocksForMedianBlock =
        ((t - 125 : ℕ) : ℤ) := by
      simp only [chainEntry, linkEntry, numBlocksForMedianBlock]
      omega
    rw [this]
    rfl
  have hlater := getBlockSizes_later
    (w := { chainWorld t t with blocksizes := windowSizes, sorted := true }) hc.sized
    (chainMap_top hn) (show numBlocksForMedianBlock ≤ t by unfold numBlocksForMedianBlock; omega)
    (by simp [windowSizes]) hfind hr
  have hdropped : chainSize t (hash (t - 125)) = 1000000 := by
    rw [chainSize_hash (by omega), bulk, if_neg (by omega)]
  have hlast : chainSize t (hash t) = 2000000 := by
    rw [chainSize_hash hn, bulk, if_pos (by omega)]
  have hmem : (1000000 : ℕ) ∈ windowSizes := by decide
  rw [hdropped, hlast, if_pos hmem] at hlater
  -- the sizes that are left, with the size of the block once more
  obtain ⟨hsorted, hperm⟩ := putSize_sorted
    (windowSizes_sorted.sublist (erase_sublist (a := 1000000))) 2000000
  have hshift : putSize (windowSizes.erase 1000000) 2000000 = shiftedSizes :=
    eq_of_sorted_perm hsorted shiftedSizes_sorted (hperm.trans (by decide))
  have hcompute := computeBlockSize_of_sizes hlater (s := shiftedSizes)
    (by rw [if_pos rfl]; exact hshift.symm) shiftedSizes_sorted (by decide +kernel)
    (by decide +kernel)
  rw [adaptiveBlockSize_shiftedSizes] at hcompute
  rw [SizeCall.exec]
  simp only [chainCall, hcompute]

end Chain

end Simnet

open Simnet

/-- **The window is wrong after a repeated call.**  A block at height 674526 is connected for the
second time, as when its first attempt failed: the median of its last 125 blocks is one million
bytes, and the second call computes it as two million. -/
theorem computeBlockSize_repeated :
    ¬ ∀ (size : Uint256 → ℕ) (g : Uint256) (calls : List SizeCall), SizeRun size g calls →
      (∀ c ∈ calls, numBlocksForMedianBlock ≤ c.height) →
      SizeCall.results .initial calls = .ok (calls.map (SizeCall.plain size)) := by
  intro h
  have hn : 674526 < codes := by decide
  have hc := chainCall_sound (t := 674526) hn
  have hrun : SizeRun (chainSize 674526) (hash 0)
      [chainCall 674526 674526, chainCall 674526 674526] := by
    refine ⟨by simpa using hc, ?_⟩
    have hlater : (chainCall 674526 674526).Later (chainCall 674526 674526) :=
      fun p hp => ⟨hp, rfl⟩
    simpa using hlater
  have hres := h _ _ _ hrun (by simp [chainCall_height hn, numBlocksForMedianBlock])
  rw [SizeCall.results, chainCall_first hn (by norm_num), except_ok_bind] at hres
  simp only at hres
  rw [SizeCall.results, chainCall_second hn (by norm_num), except_ok_bind] at hres
  simp only [map_cons, chainCall_plain hn (by norm_num)] at hres
  cases hres

/-- Two blocks one after the other: the second call takes a size of one million out of the list of
the first and puts one of two million in. -/
theorem computeBlockSize_consecutive_two :
    SizeCall.results .initial [chainCall 674526 674526, chainCall 674526 674527] =
      .ok [2000000, 4000000] := by
  have hn : 674527 < codes := by decide
  have hc := chainCall_sound (t := 674526) (n := 674526) (by decide)
  have hc' := chainCall_sound (t := 674526) hn
  have hlater : (chainCall 674526 674526).Later (chainCall 674526 674527) :=
    chainCall_later hn
  have hheight : (chainCall 674526 674526).height = 674526 :=
    chainCall_height (by decide)
  have hheight' : (chainCall 674526 674527).height = 674527 := chainCall_height hn
  have hrun : SizeRun (chainSize 674526) (hash 0)
      [chainCall 674526 674526, chainCall 674526 674527] :=
    ⟨by simp [hc, hc'], by simpa using hlater⟩
  have hturns : (chainCall 674526 674526).Turns (chainSize 674526)
      (chainCall 674526 674527) :=
    (chainCall_follows hn (by norm_num)).turns hc hc' hlater
      (by rw [hheight', numBlocksForMedianBlock]; norm_num)
  rw [computeBlockSize_consecutive hrun (by simp [hheight, hheight', numBlocksForMedianBlock])
    (by simpa using hturns)]
  rw [map_cons, map_cons, map_nil, chainCall_plain (by decide) (by norm_num),
    chainCall_plain_next hn (by norm_num)]

end Espers
