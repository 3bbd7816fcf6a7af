import Espers.Core.Block
import Espers.Lib.Merkle

/-!
# Merkle trees of blocks

The vector of `BuildMerkleTree`, the branches that `GetMerkleBranch` reads from it, and their check.

* `tower_vMerkleTree` : the vector is the rows over the transaction ids, the root at its end.
* `merkleBranch_verifies` : **the branch of every transaction leads to the root**.
* `merkleRoot_inj` : **no second list of transactions passes the duplicate test under the same
  root**, while no pair hashes collide and no transaction id is the hash of a pair.
-/

namespace Espers

open Exec List

/-! ### Branches -/

/-- The member `vMerkleTree`, as `BuildMerkleTree` leaves it. -/
def CBlock.vMerkleTree (E : Env) (block : CBlock) : List Uint256 :=
  merkleRows E block.vtx.length (block.vtx.map E.txHash) 0 block.vtx.length

/-- The loop of `GetMerkleBranch`. -/
def merkleBranch (vMerkleTree : List Uint256) : ℕ → ℕ → ℕ → ℕ → List Uint256
  | 0, _, _, _ => []
  | fuel + 1, nIndex, j, nSize =>
    if nSize ≤ 1 then []
    else
      let i := min (nIndex ^^^ 1) (nSize - 1)
      vMerkleTree.getD (j + i) 0 :: merkleBranch vMerkleTree fuel (nIndex / 2) (j + nSize)
        ((nSize + 1) / 2)

/-- `CBlock::GetMerkleBranch`, which builds the tree if the member `vMerkleTree` is empty. -/
def CBlock.getMerkleBranch (E : Env) (block : CBlock) (vMerkleTree : List Uint256) (nIndex : ℕ) :
    List Uint256 :=
  merkleBranch (if vMerkleTree = [] then block.vMerkleTree E else vMerkleTree)
    block.vtx.length nIndex 0 block.vtx.length

/-- The loop of `CheckMerkleBranch`. -/
def climbMerkleBranch (E : Env) (hash : Uint256) (nIndex : ℤ) : List Uint256 → Uint256
  | [] => hash
  | otherside :: vMerkleBranch =>
    climbMerkleBranch E (if nIndex % 2 = 1 then E.pairHash otherside hash else
      E.pairHash hash otherside) (nIndex / 2) vMerkleBranch

/-- `CBlock::CheckMerkleBranch`. -/
def checkMerkleBranch (E : Env) (hash : Uint256) (vMerkleBranch : List Uint256) (nIndex : ℤ) :
    Uint256 :=
  if nIndex = -1 then 0 else climbMerkleBranch E hash nIndex vMerkleBranch

/-- `CMerkleTx::SetMerkleBranch` of a block: where the transaction is in it, and its branch. -/
def CTransaction.setMerkleBranch (E : Env) (block : CBlock) (vMerkleTree : List Uint256)
    (tx : CTransaction) : ℤ × List Uint256 :=
  match block.vtx.findIdx? (· = tx) with
  | none => (-1, [])
  | some nIndex => (nIndex, block.getMerkleBranch E vMerkleTree nIndex)

/-! ### The vector and its rows -/

variable {E : Env} {pre l t : List Uint256} {r : Uint256}

/-- A row that is read from the vector. -/
theorem merkleRow_eq (E : Env) (pre l : List Uint256) :
    merkleRow E (pre ++ l) pre.length l.length = Merkle.up E.pairHash l := by
  have hget : ∀ k < l.length, (pre ++ l).getD (pre.length + k) 0 = l.getD k 0 := by
    intro k _
    rw [getD_eq_getElem?_getD, getD_eq_getElem?_getD,
      getElem?_append_right (by omega), Nat.add_sub_cancel_left]
  refine ext_getElem (by simp [merkleRow]) fun k hk hk' => ?_
  have hlt : k < (l.length + 1) / 2 := by simpa using hk'
  have ha : l[2 * k]? = some (l.getD (2 * k) 0) := by
    rw [getD_eq_getElem _ _ (by omega), getElem?_eq_getElem]
  have hb : l[min (2 * k + 1) (l.length - 1)]? =
    some (l.getD (min (2 * k + 1) (l.length - 1)) 0) := by
    rw [getD_eq_getElem _ _ (by omega), getElem?_eq_getElem]
  have hup : (Merkle.up E.pairHash l)[k]? =
      some (E.pairHash (l.getD (2 * k) 0) (l.getD (min (2 * k + 1) (l.length - 1)) 0)) := by
    rw [Merkle.up, getElem?_map, Merkle.getElem?_pairs, ha, hb]
    rfl
  rw [getElem?_eq_getElem hk', Option.some.injEq] at hup
  rw [hup]
  simp only [merkleRow, getElem_map, getElem_range]
  rw [hget _ (by omega), hget _ (by omega)]

theorem merkleRows_eq {fuel : ℕ} (h : Merkle.Tower E.pairHash l t r) (hfuel : l.length ≤ fuel) :
    merkleRows E fuel (pre ++ l) pre.length l.length = pre ++ t := by
  induction h generalizing pre fuel with
  | top a =>
    cases fuel with
    | zero => rfl
    | succ fuel => rw [merkleRows, if_pos (by simp)]
  | @row l t r hl h ih =>
    cases fuel with
    | zero => omega
    | succ fuel =>
      rw [merkleRows, if_neg (by omega), merkleRow_eq]
      have := @ih (pre ++ l) fuel (by rw [Merkle.length_up]; omega)
      rw [Merkle.length_up, length_append] at this
      rw [this, append_assoc]

/-- **The vector is the rows over the transaction ids.** -/
theorem tower_vMerkleTree {block : CBlock} (h : block.vtx ≠ []) :
    ∃ r, Merkle.Tower E.pairHash (block.vtx.map E.txHash) (block.vMerkleTree E) r ∧
      block.buildMerkleTree E = r := by
  obtain ⟨t, r, htower⟩ := Merkle.exists_tower (H := E.pairHash) (l := block.vtx.map E.txHash)
    (by simpa using h)
  have htree : block.vMerkleTree E = t := by
    have hlen : (block.vtx.map E.txHash).length ≤ block.vtx.length := by simp
    rw [CBlock.vMerkleTree, ← nil_append t, ← merkleRows_eq htower hlen, nil_append,
      length_nil, length_map]
  refine ⟨r, htree ▸ htower, ?_⟩
  show (block.vMerkleTree E).getLastD 0 = r
  rw [htree, getLastD_eq_getLast?, htower.getLast?, Option.getD_some]

/-- What `GetMerkleBranch` reads is a branch. -/
theorem branch_merkleBranch {fuel i : ℕ} (h : Merkle.Tower E.pairHash l t r)
    (hfuel : l.length ≤ fuel) (hi : i < l.length) :
    Merkle.Branch E.pairHash l i (merkleBranch (pre ++ t) fuel i pre.length l.length) := by
  induction h generalizing pre fuel i with
  | top a =>
    obtain rfl : i = 0 := by simpa using hi
    cases fuel with
    | zero => exact .top a
    | succ fuel =>
      exact .top a
  | @row l t r hl h ih =>
    cases fuel with
    | zero => omega
    | succ fuel =>
      rw [merkleBranch, if_neg (by omega)]
      refine .row hl ?_ ?_
      · have hlt : min (i ^^^ 1) (l.length - 1) < l.length := by omega
        rw [getD_eq_getElem?_getD, getElem?_append_right (by omega),
          Nat.add_sub_cancel_left, getElem?_append_left hlt, getElem?_eq_getElem hlt,
          Option.getD_some]
      · have := @ih (pre ++ l) fuel (i / 2) (by rw [Merkle.length_up]; omega)
          (by rw [Merkle.length_up]; omega)
        rwa [Merkle.length_up, length_append, append_assoc] at this

theorem climbMerkleBranch_eq (E : Env) (x : Uint256) (i : ℕ) (b : List Uint256) :
    climbMerkleBranch E x i b = Merkle.climb E.pairHash x i b := by
  induction b generalizing x i with
  | nil => rfl
  | cons s b ih =>
    have hmod : (i : ℤ) % 2 = 1 ↔ i % 2 = 1 := by omega
    have hdiv : (i : ℤ) / 2 = (i / 2 : ℕ) := by omega
    rw [climbMerkleBranch, Merkle.climb, hdiv, ih]
    simp only [hmod]

section

variable (E : Env) (block : CBlock) {vMerkleTree : List Uint256}
  (hcache : vMerkleTree = [] ∨ vMerkleTree = block.vMerkleTree E)
include hcache

theorem check_getMerkleBranch {i : ℕ} {tx : CTransaction} (hi : block.vtx[i]? = some tx) :
    checkMerkleBranch E (E.txHash tx) (block.getMerkleBranch E vMerkleTree i) i =
    block.buildMerkleTree E := by
  have hlt := (List.getElem?_eq_some_iff.mp hi).1
  obtain ⟨r, htower, hroot⟩ := @tower_vMerkleTree E block
    (List.ne_nil_of_length_pos (by omega))
  have htree : (if vMerkleTree = [] then block.vMerkleTree E else vMerkleTree) =
    block.vMerkleTree E := by
    split_ifs with hempty
    · rfl
    · exact hcache.resolve_left hempty
  have hlen : (block.vtx.map E.txHash).length ≤ block.vtx.length := by simp
  have hbranch : Merkle.Branch E.pairHash (block.vtx.map E.txHash) i
    (merkleBranch ([] ++ block.vMerkleTree E)
      block.vtx.length i ([] : List Uint256).length (block.vtx.map E.txHash).length) :=
    branch_merkleBranch htower hlen (by simpa using hlt)
  rw [nil_append, length_nil, length_map] at hbranch
  rw [checkMerkleBranch, if_neg (by omega), climbMerkleBranch_eq,
    CBlock.getMerkleBranch, htree, hroot]
  exact hbranch.climb_eq htower (by rw [getElem?_map, hi]; rfl)

/-- The branch that `SetMerkleBranch` stores leads to the root, for a transaction of the block. -/
theorem setMerkleBranch_eq (tx : CTransaction) :
    checkMerkleBranch E (E.txHash tx) (tx.setMerkleBranch E block vMerkleTree).2
        (tx.setMerkleBranch E block vMerkleTree).1 =
      if tx ∈ block.vtx then block.buildMerkleTree E else 0 := by
  unfold CTransaction.setMerkleBranch
  cases hfind : block.vtx.findIdx? (· = tx) with
  | none =>
    rw [if_neg]
    · rfl
    · intro hmem
      have := findIdx?_eq_none_iff.mp hfind tx hmem
      simp at this
  | some nIndex =>
    obtain ⟨hlt, heq, -⟩ := findIdx?_eq_some_iff_getElem.mp hfind
    have hget : block.vtx[nIndex]? = some tx := by
      rw [getElem?_eq_getElem hlt, of_decide_eq_true heq]
    rw [if_pos (mem_of_getElem? hget)]
    exact check_getMerkleBranch E block hcache hget

/-- **The branch of every transaction leads to the root**, read by index or stored by
`SetMerkleBranch`. -/
theorem merkleBranch_verifies : (∀ (i : ℕ) (tx : CTransaction), block.vtx[i]? = some tx →
      checkMerkleBranch E (E.txHash tx) (block.getMerkleBranch E vMerkleTree i) i =
      block.buildMerkleTree E) ∧
    ∀ tx ∈ block.vtx, checkMerkleBranch E (E.txHash tx) (tx.setMerkleBranch E block vMerkleTree).2
      (tx.setMerkleBranch E block vMerkleTree).1 = block.buildMerkleTree E :=
  ⟨fun _ _ hi => check_getMerkleBranch E block hcache hi, fun tx hmem => by
    rw [setMerkleBranch_eq E block hcache, if_pos hmem]⟩

end

/-! ### Roots and lists of transactions -/

/-- The pairs that `BuildMerkleTree` hashes. -/
def CBlock.hashedPairs (E : Env) (block : CBlock) : List (Uint256 × Uint256) :=
  Merkle.hashed E.pairHash block.vtx.length (block.vtx.map E.txHash)

/-- The duplicate test of `CheckBlock`, which only blocks with transactions reach. -/
def CBlock.PassesDuplicateTest (E : Env) (block : CBlock) : Prop :=
  block.vtx ≠ [] ∧ (block.vtx.map E.txHash).Nodup

/-- No hashed pairs collide, and no transaction id is the hash of a pair. -/
structure MerkleSafe (E : Env) (pairs : List (Uint256 × Uint256)) (vtx : List CTransaction) :
    Prop where
  pairHash_inj : ∀ p ∈ pairs, ∀ q ∈ pairs, E.pairHash p.1 p.2 = E.pairHash q.1 q.2 → p = q
  txHash_ne : ∀ tx ∈ vtx, ∀ p ∈ pairs, E.txHash tx ≠ E.pairHash p.1 p.2

/-- The ids are the same, and so are the transactions if no two of them share an id. -/
def SameByIds (E : Env) (vtx vtx' : List CTransaction) : Prop :=
  vtx.map E.txHash = vtx'.map E.txHash ∧ ({tx | tx ∈ vtx ++ vtx'}.InjOn E.txHash → vtx = vtx')

theorem sameByIds_of_ids {vtx vtx' : List CTransaction} (h : vtx.map E.txHash = vtx'.map E.txHash) :
    SameByIds E vtx vtx' :=
  ⟨h, fun hinj => Merkle.eq_of_map_eq hinj (fun _ hx => mem_append_left _ hx)
    (fun _ hx => mem_append_right _ hx) h⟩

theorem passes_of_checkBlock {lim : Limits} {nHeight : ℕ} {block : CBlock}
    {fCheckPOW fCheckSig : Bool}
    (h : checkBlock E lim nHeight block fCheckPOW true fCheckSig = .ok ()) :
    block.PassesDuplicateTest E ∧ block.hashMerkleRoot = block.buildMerkleTree E := by
  have hsane := checkBlock_spec h
  simp only [checkBlock, except_bind_eq_ok, rejectIf_eq_ok, exists_const] at h
  obtain ⟨-, _, -, -, -, -, -, _, -, -, _, -, -, -, hroot⟩ := h
  exact ⟨⟨hsane.vtx_ne, hsane.nodup⟩, by simpa using hroot⟩

section

variable {block block' : CBlock}
  (h : MerkleSafe E (block.hashedPairs E ++ block'.hashedPairs E) (block.vtx ++ block'.vtx))
include h

/-- The duplicate test leaves one list of ids for a root. -/
theorem ids_of_root (hpass : block.PassesDuplicateTest E) (hpass' : block'.PassesDuplicateTest E)
    (hroot : block.buildMerkleTree E = block'.buildMerkleTree E) :
    block.vtx.map E.txHash = block'.vtx.map E.txHash := by
  obtain ⟨r, ht, hr⟩ := tower_vMerkleTree (E := E) hpass.1
  obtain ⟨r', ht', hr'⟩ := tower_vMerkleTree (E := E) hpass'.1
  obtain rfl : r = r' := by rw [← hr, ← hr', hroot]
  obtain ⟨P, hP⟩ : ∃ P : Set (Uint256 × Uint256),
    P = {p | p ∈ block.hashedPairs E ++ block'.hashedPairs E} :=
    ⟨_, rfl⟩
  have hinj : P.InjOn fun p => E.pairHash p.1 p.2 := by
    rw [hP]
    exact fun p hp q hq => h.pairHash_inj p hp q hq
  refine ht.inj (n := 0) hinj ht' (.of_hashed (by rw [length_map]) ?_)
    (.of_hashed (by rw [length_map]) ?_) ?_ ?_ hpass.2 hpass'.2
  · rw [hP]
    exact fun p hp => mem_append_left _ hp
  · rw [hP]
    exact fun p hp => mem_append_right _ hp
  · intro x hx
    obtain ⟨tx, hmem, rfl⟩ := mem_map.mp hx
    rw [hP]
    exact h.txHash_ne tx (mem_append_left _ hmem)
  · intro x hx
    obtain ⟨tx, hmem, rfl⟩ := mem_map.mp hx
    rw [hP]
    exact h.txHash_ne tx (mem_append_right _ hmem)

/-- **A Merkle root stands for one list of transactions**: of two lists that pass the duplicate
test, and of two blocks that `CheckBlock` accepts under one root. -/
theorem merkleRoot_inj : (block.PassesDuplicateTest E → block'.PassesDuplicateTest E →
      block.buildMerkleTree E = block'.buildMerkleTree E → SameByIds E block.vtx block'.vtx) ∧
    ∀ (lim lim' : Limits) (nHeight nHeight' : ℕ) (fCheckPOW fCheckPOW' fCheckSig fCheckSig' : Bool),
      checkBlock E lim nHeight block fCheckPOW true fCheckSig = .ok () →
      checkBlock E lim' nHeight' block' fCheckPOW' true fCheckSig' = .ok () →
      block.hashMerkleRoot = block'.hashMerkleRoot → SameByIds E block.vtx block'.vtx := by
  refine ⟨fun hpass hpass' hroot => sameByIds_of_ids (ids_of_root h hpass hpass' hroot), ?_⟩
  intro lim lim' nHeight nHeight' _ _ _ _ hcheck hcheck' hroot
  obtain ⟨hpass, hmerkle⟩ := passes_of_checkBlock hcheck
  obtain ⟨hpass', hmerkle'⟩ := passes_of_checkBlock hcheck'
  exact sameByIds_of_ids (ids_of_root h hpass hpass' (by rw [← hmerkle, ← hmerkle', hroot]))

end

/-! ### Small blocks -/

/-- The id of a transaction is its time; pairs have ids of their own. -/
def pairingEnv : Env where
  txHash tx := BitVec.ofNat 256 tx.nTime
  headerHash header := BitVec.ofNat 256 header.nTime
  pairHash a b := 1000 + 100 * a + b
  verifySignature _ _ _ _ := true
  getLegacySigOpCount _ := 0
  getP2SHSigOpCount _ _ := 0
  checkBlockSignature _ := true
  isStandardTx _ := true
  areInputsStandard _ _ := true
  testNet := false
  hashGenesisBlock := 0
  proofOfWorkLimit := 2 ^ 255 - 1
  startPoSBlock := 0
  getTotalBlocksEstimate := 0

/-- A block of `n` transactions, with ids from `1` on. -/
def numberedBlock (n : ℕ) : CBlock where
  nVersion := 1
  hashPrevBlock := 0
  hashMerkleRoot := 0
  nTime := 0
  nBits := 0
  nNonce := 0
  vtx := (List.range n).map fun i => ⟨1, i + 1, [], [], 0⟩
  vchBlockSig := []

/-- The last of five transactions, whose branch holds its own id. -/
theorem merkleBranch_verifies_last :
    checkMerkleBranch pairingEnv 5 ((numberedBlock 5).getMerkleBranch pairingEnv [] 4) 4 =
      (numberedBlock 5).buildMerkleTree pairingEnv :=
  (merkleBranch_verifies pairingEnv (numberedBlock 5) (.inl rfl)).1 4 ⟨1, 5, [], [], 0⟩ (by decide)

/-- Three and four transactions. -/
theorem merkleRoot_inj_numbered : (numberedBlock 3).buildMerkleTree pairingEnv ≠
    (numberedBlock 4).buildMerkleTree pairingEnv := by
  intro hroot
  -- The tests run over the pairs that are hashed, not over the type of all pairs.
  have hinj : ((numberedBlock 3).hashedPairs pairingEnv ++
    (numberedBlock 4).hashedPairs pairingEnv).all (fun p =>
      ((numberedBlock 3).hashedPairs pairingEnv ++ (numberedBlock 4).hashedPairs pairingEnv).all
        fun q =>
        pairingEnv.pairHash p.1 p.2 = pairingEnv.pairHash q.1 q.2 → p = q) = true :=
          by decide
  have hne : ((numberedBlock 3).vtx ++ (numberedBlock 4).vtx).all (fun tx =>
      ((numberedBlock 3).hashedPairs pairingEnv ++ (numberedBlock 4).hashedPairs pairingEnv).all
        fun p =>
        pairingEnv.txHash tx ≠ pairingEnv.pairHash p.1 p.2) = true := by decide
  have hsafe : MerkleSafe pairingEnv ((numberedBlock 3).hashedPairs pairingEnv ++
      (numberedBlock 4).hashedPairs pairingEnv) ((numberedBlock 3).vtx ++ (numberedBlock 4).vtx) :=
    ⟨by simpa only [all_eq_true, decide_eq_true_eq] using hinj,
      by simpa only [all_eq_true, decide_eq_true_eq] using hne⟩
  have hsame := (merkleRoot_inj hsafe).1 ⟨by decide, by decide⟩
    ⟨by decide, by decide⟩ hroot
  exact absurd hsame.1 (by decide)

end Espers
