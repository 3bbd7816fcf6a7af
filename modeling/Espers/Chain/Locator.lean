import Espers.Chain.Simfork

/-!
# Block locators

A node tells another where it is by a list of hashes (`CBlockLocator`): its block, the blocks before
it at growing distances, and the genesis block.  `Set` writes the list and doubles its step by the
length of the list; `GetDistanceBack` reads it on the other node and doubles its step by the
distance counted so far; `GetBlockIndex` looks for the first hash on the reader's main chain.

Both schedules are one: the `i`-th hash is that of the ancestor `distance i` blocks back.

* `setLoop_spec` : the loop of `Set` lists the ancestors at `distance 0`, `distance 1`, … while
  there are any.
* `getDistanceBack_eq` : `GetDistanceBack` counts `distance i` for a match at the `i`-th hash.
* `locator_finds_trunk` : **what a locator lists and what another node finds with it.**
-/

namespace Espers

open List Option Nat Forest BlockMap

/-! ### The source -/

/-- `CBlockLocator`. -/
structure CBlockLocator where
  vHave : List Uint256
  deriving DecidableEq

/-- `for (int i = 0; pindex && i < nStep; i++) pindex = pindex->pprev`. -/
def stepBack (m : BlockMap) : ℕ → Option Uint256 → Option Uint256
  | _, none => none
  | 0, some p => some p
  | nStep + 1, some p => stepBack m nStep (parent m p)

/-- The loop of `CBlockLocator::Set`.  (`nStep` is an `int`, which a chain below height `2 ^ 30`
cannot exhaust.) -/
def setLoop (m : BlockMap) : ℕ → List Uint256 → ℕ → Option Uint256 → Option (List Uint256)
  | _, vHave, _, none => some vHave
  | 0, _, _, some _ => none
  | fuel + 1, vHave, nStep, some p =>
    (m.lookup p).bind fun e =>
      let vHave := vHave ++ [e.hashBlock]
      setLoop m fuel vHave (if vHave.length > 10 then nStep * 2 else nStep)
        (stepBack m nStep (some p))

/-- `CBlockLocator::Set`. -/
def CBlockLocator.set (E : Env) (m : BlockMap) (pindex : Option Uint256) : Option CBlockLocator :=
  (setLoop m ((pindex.map (height m)).getD 0 + 1) [] 1 pindex).map fun vHave =>
    ⟨vHave ++ [E.hashGenesisBlock]⟩

/-- The test both readers make for a hash of the list. -/
def World.knowsInMainChain (w : World) (hash : Uint256) : Bool :=
  (w.mapBlockIndex.lookup hash).isSome && w.isInMainChain hash

/-- The loop of `CBlockLocator::GetDistanceBack`. -/
def distanceLoop (w : World) : List Uint256 → ℕ → ℕ → ℕ
  | [], nDistance, _ => nDistance
  | hash :: vHave, nDistance, nStep =>
    if w.knowsInMainChain hash then nDistance
    else
      let nDistance := nDistance + nStep
      distanceLoop w vHave nDistance (if nDistance > 10 then nStep * 2 else nStep)

/-- `CBlockLocator::GetDistanceBack`. -/
def CBlockLocator.getDistanceBack (locator : CBlockLocator) (w : World) : ℕ :=
  distanceLoop w locator.vHave 0 1

/-- `CBlockLocator::GetBlockIndex`. -/
def CBlockLocator.getBlockIndex (locator : CBlockLocator) (w : World) : Option Uint256 :=
  (locator.vHave.find? w.knowsInMainChain).or w.pindexGenesisBlock

/-! ### The schedule -/

namespace Locator

/-- How far back the `i`-th hash is. -/
def distance (i : ℕ) : ℕ := if i ≤ 10 then i else 9 + 2 ^ (i - 10)

/-- The step from the `i`-th hash to the next. -/
def step (i : ℕ) : ℕ := if i ≤ 10 then 1 else 2 ^ (i - 10)

theorem distance_succ (i : ℕ) : distance (i + 1) = distance i + step i := by
  unfold distance step
  rcases lt_trichotomy i 10 with h | rfl | h
  · rw [if_pos (by omega), if_pos (by omega), if_pos (by omega)]
  · rfl
  · rw [if_neg (by omega), if_neg (by omega), if_neg (by omega), show i + 1 - 10 =
      i - 10 + 1 by omega, pow_succ]
    omega

example : (List.range 15).map distance = [0, 1, 2, 3, 4, 5, 6, 7, 8, 9, 10, 11, 13, 17, 25] :=
    by decide

theorem step_succ (i : ℕ) : step (i + 1) = if i + 1 > 10 then step i * 2 else step i := by
  unfold step
  rcases lt_trichotomy i 10 with h | rfl | h
  · rw [if_pos (by omega), if_neg (by omega), if_pos (by omega)]
  · rfl
  · rw [if_neg (by omega), if_pos (by omega), if_neg (by omega), show i + 1 - 10 =
      i - 10 + 1 by omega, pow_succ]

theorem step_pos (i : ℕ) : 0 < step i := by
  unfold step
  split_ifs
  · exact one_pos
  · exact Nat.two_pow_pos _

theorem distance_strictMono : StrictMono distance :=
  strictMono_nat_of_lt_succ fun i => by
    have := step_pos i
    rw [distance_succ]
    omega

theorem distance_gt_iff (i : ℕ) : distance i > 10 ↔ i > 10 := by
  have h10 : distance 10 = 10 := rfl
  constructor
  · intro h
    by_contra hi
    have := distance_strictMono.monotone (Nat.le_of_not_lt hi)
    omega
  · intro h
    have := distance_strictMono h
    omega

theorem length_le {n h : ℕ} (hn : distance n ≤ h) : n ≤ 11 + Nat.log2 h := by
  by_cases h10 : n ≤ 10
  · omega
  · rw [distance, if_neg h10] at hn
    have hpow : 2 ^ (n - 10) ≤ h := by omega
    have := (Nat.le_log2 (by have := Nat.two_pow_pos (n - 10); omega)).2 hpow
    omega

end Locator

open Locator

variable {E : Env} {m : BlockMap} {g p q tip : Uint256} {w : World} {l : List Uint256}

/-! ### Writing a locator -/

theorem stepBack_eq_walk (m : BlockMap) (n : ℕ) (o : Option Uint256) :
    stepBack m n o = o.bind (walk (parent m) n) := by
  induction n generalizing o with
  | zero => cases o <;> rfl
  | succ n ih =>
    cases o with
    | none => rfl
    | some p => exact ih _

theorem walk_add {α : Type*} (parent : α → Option α) (j k : ℕ) (a : α) :
    walk parent (j + k) a = (walk parent j a).bind (walk parent k) := by
  induction j generalizing a with
  | zero => rw [zero_add]; rfl
  | succ j ih =>
    rw [succ_add, walk, walk, bind_assoc]
    congr 1
    funext b
    exact ih b

/-- `l` lists the ancestors of `p` at the distances of the schedule, from the `i`-th on. -/
def Lists (m : BlockMap) (p : Uint256) (i : ℕ) (l : List Uint256) : Prop :=
  ∀ j, l[j]? = walk (parent m) (distance (i + j)) p

theorem lists_nil {i : ℕ} (h : walk (parent m) (distance i) p = none) : Lists m p i [] := by
  intro j
  have hle : distance i ≤ distance (i + j) := distance_strictMono.monotone (le_add_right i j)
  obtain ⟨d, hd⟩ := Nat.exists_eq_add_of_le hle
  rw [hd, walk_add, h]
  rfl

/-- **The loop lists the ancestors at the distances of the schedule.** -/
theorem setLoop_spec (ht : IndexTree m g) (hp : (m.lookup p).isSome) (fuel : ℕ)
    (vHave : List Uint256) (hfuel : height m p < distance vHave.length + fuel) :
    ∃ l, setLoop m fuel vHave (step vHave.length)
        (walk (parent m) (distance vHave.length) p) = some (vHave ++ l) ∧
      Lists m p vHave.length l := by
  induction fuel generalizing vHave with
  | zero =>
    have hnone : walk (parent m) (distance vHave.length) p = none := by
      by_contra hne
      obtain ⟨q, hq⟩ := ne_none_iff_exists'.1 hne
      have := height_of_walk ht.graded hq
      omega
    exact ⟨[], by rw [hnone, setLoop, append_nil], lists_nil hnone⟩
  | succ fuel ih =>
    cases hq : walk (parent m) (distance vHave.length) p with
    | none => exact ⟨[], by rw [setLoop, append_nil], lists_nil hq⟩
    | some q =>
      obtain ⟨e, he⟩ := isSome_iff_exists.1 (ht.mem_of_anc (anc_of_walk hq) hp)
      -- one turn of the loop: the hash is listed, and the walk goes on by the step
      have hlen : (vHave ++ [q]).length = vHave.length + 1 := length_append
      have hwalk : stepBack m (step vHave.length) (some q) =
          walk (parent m) (distance (vHave ++ [q]).length) p := by
        rw [hlen, distance_succ, walk_add, hq, stepBack_eq_walk]
      have hstep : (if (vHave ++ [q]).length > 10 then step vHave.length * 2 else
        step vHave.length) = step (vHave ++ [q]).length := by
        rw [hlen, step_succ]
      obtain ⟨l, hl, hlists⟩ := ih (vHave ++ [q]) (by
        have := step_pos vHave.length
        rw [hlen, distance_succ]
        omega)
      refine ⟨q :: l, ?_, fun j => ?_⟩
      · rw [setLoop, he, bind_some, ht.hash q e he]
        simp only
        rw [hstep, hwalk, hl, append_assoc, singleton_append]
      · cases j with
        | zero => exact hq.symm
        | succ j =>
          rw [getElem?_cons_succ, hlists j, hlen, add_right_comm, add_assoc]

/-- **`Set` ends**, with the ancestors of the schedule and the genesis block. -/
theorem set_spec (E : Env) (ht : IndexTree m g) (hp : (m.lookup p).isSome) :
    ∃ l, CBlockLocator.set E m (some p) = some ⟨l ++ [E.hashGenesisBlock]⟩ ∧ Lists m p 0 l := by
  obtain ⟨l, hl, hlists⟩ := setLoop_spec ht hp (height m p + 1) [] (by omega)
  refine ⟨l, ?_, hlists⟩
  exact congrArg (Option.map _) hl

namespace Lists

theorem walk_of_getElem? {i : ℕ} (h : Lists m p 0 l) (hq : l[i]? = some q) :
    walk (parent m) (distance i) p = some q := by
  rw [← hq, h i, zero_add]

theorem anc_of_mem (h : Lists m p 0 l) (hq : q ∈ l) : Anc (parent m) p q := by
  obtain ⟨i, hi⟩ := mem_iff_getElem?.1 hq
  exact anc_of_walk (h.walk_of_getElem? hi)

theorem head (h : Lists m p 0 l) : l.head? = some p := by
  rw [head?_eq_getElem?, h 0]
  rfl

theorem pairwise (ht : IndexTree m g) (h : Lists m p 0 l) :
    l.Pairwise fun a b => height m b < height m a := by
  refine pairwise_iff_getElem.2 fun i j hi hj hij => ?_
  have hwi := height_of_walk ht.graded (h.walk_of_getElem? (getElem?_eq_getElem hi))
  have hwj := height_of_walk ht.graded (h.walk_of_getElem? (getElem?_eq_getElem hj))
  have := distance_strictMono hij
  omega

theorem length (ht : IndexTree m g) (h : Lists m p 0 l) :
    l.length ≤ 12 + Nat.log2 (height m p) := by
  cases hl : l.length with
  | zero => omega
  | succ n =>
    have hn : n < l.length := by omega
    have := height_of_walk ht.graded (h.walk_of_getElem? (getElem?_eq_getElem hn))
    have := @length_le n (height m p) (by omega)
    omega

end Lists

/-! ### Reading a locator -/

/-- The first match of a list, with the index `GetDistanceBack` has reached there. -/
theorem distanceLoop_eq (w : World) (l r : List Uint256) (i j : ℕ) (hj : l[j]? = some q)
    (hq : w.knowsInMainChain q = true)
    (hbefore : ∀ k < j, ∀ x, l[k]? = some x → w.knowsInMainChain x = false) :
    distanceLoop w (l ++ r) (distance i) (step i) = distance (i + j) := by
  induction j generalizing l i with
  | zero =>
    cases l with
    | nil => cases hj
    | cons x l =>
      obtain rfl : x = q := some.inj hj
      rw [cons_append, distanceLoop, if_pos hq]
      rfl
  | succ j ih =>
    cases l with
    | nil => cases hj
    | cons x l =>
      have hx : w.knowsInMainChain x = false := hbefore 0 (succ_pos j) x rfl
      have hstep : (if distance i + step i > 10 then step i * 2 else step i) = step (i + 1) := by
        rw [← distance_succ, step_succ]
        simp only [distance_gt_iff]
      rw [cons_append, distanceLoop, if_neg (by rw [hx]; exact Bool.false_ne_true)]
      simp only
      rw [hstep, ← distance_succ, ih l (i + 1) hj fun k hk y hy => hbefore (k + 1) (by omega) y hy,
        add_right_comm, add_assoc]

theorem getDistanceBack_eq {i : ℕ} {r : List Uint256} (hi : l[i]? = some q)
    (hfind : l.find? w.knowsInMainChain = some q) (hnodup : l.Nodup) :
    (⟨l ++ r⟩ : CBlockLocator).getDistanceBack w = distance i := by
  obtain ⟨hq, j, hj, hjq, hbefore⟩ := find?_eq_some_iff_getElem.1 hfind
  have hjq' : l[j]? = some q := by rw [getElem?_eq_getElem hj, hjq]
  obtain rfl : i = j :=
    (List.getElem?_inj (List.getElem?_eq_some_iff.1 hi).1 hnodup).1 (hi.trans hjq'.symm)
  have := distanceLoop_eq w l r 0 i hi hq fun k hk x hx => by
    obtain ⟨hlt, rfl⟩ := List.getElem?_eq_some_iff.1 hx
    simpa using hbefore k hk
  rwa [zero_add] at this

/-- A node with a main chain: its index is a tree over the genesis block, and the links are those of
the branch of its best block. -/
structure OwnChain (E : Env) (w : World) (tip : Uint256) : Prop where
  tree : IndexTree w.mapBlockIndex E.hashGenesisBlock
  genesis : w.pindexGenesisBlock = some E.hashGenesisBlock
  best : w.pindexBest = some tip
  known : (w.mapBlockIndex.lookup tip).isSome
  links : Links w.mapBlockIndex tip

/-- The index `m'` has the entries of the branch of `p` in `m`, with the same blocks below them. -/
def KnowsBranch (m m' : BlockMap) (p : Uint256) : Prop :=
  ∀ q e, Anc (parent m) p q → m.lookup q = some e → ∃ e', m'.lookup q = some e' ∧ e'.pprev = e.pprev

namespace KnowsBranch

variable {m' : BlockMap}

theorem refl (m : BlockMap) (p : Uint256) : KnowsBranch m m p := fun _ e _ he => ⟨e, he, rfl⟩

theorem walk (h : KnowsBranch m m' p) {k : ℕ} (hq : walk (parent m) k p = some q) :
    walk (parent m') k p = some q := by
  induction k generalizing p with
  | zero => exact hq
  | succ k ih =>
    obtain ⟨b, hb, hq⟩ := bind_eq_some_iff.1 hq
    obtain ⟨e, he, hprev⟩ := parent_eq_some.1 hb
    obtain ⟨e', he', hprev'⟩ := h p e (.refl p) he
    have hbranch : KnowsBranch m m' b := fun x d hx hd => h x d (.head hb hx) hd
    rw [walk, parent_eq_some.2 ⟨e', he', hprev'.trans hprev⟩, bind_some]
    exact ih hbranch hq

end KnowsBranch

/-- What `Set` lists before the genesis hash. -/
structure FallingBranch (m : BlockMap) (p : Uint256) (l : List Uint256) : Prop where
  head : l.head? = some p
  anc : ∀ q ∈ l, Anc (parent m) p q
  decreasing : l.Pairwise fun a b => height m b < height m a

/-- What a node with the best block `tip` finds with the locator of `p` that lists `l` and then the
genesis hash: the entry `r`. -/
structure FindsTrunk (E : Env) (w : World) (tip p : Uint256) (l : List Uint256) (r : Uint256) :
    Prop where
  index : (⟨l ++ [E.hashGenesisBlock]⟩ : CBlockLocator).getBlockIndex w = some r
  main : w.isInMainChain r = true
  best : Anc (parent w.mapBlockIndex) tip r
  branch : Anc (parent w.mapBlockIndex) p r
  distance : (∃ q ∈ l, w.knowsInMainChain q = true) →
    ((⟨l ++ [E.hashGenesisBlock]⟩ : CBlockLocator).getDistanceBack w : ℤ) =
      height w.mapBlockIndex p - height w.mapBlockIndex r

theorem exists_findsTrunk (ht : IndexTree m g) (hp : (m.lookup p).isSome) (hl : Lists m p 0 l)
    (ho : OwnChain E w tip) (hk : KnowsBranch m w.mapBlockIndex p) :
    ∃ r, FindsTrunk E w tip p l r := by
  cases hfind : l.find? w.knowsInMainChain with
  | none =>
    -- no entry of the list: the genesis block, which is on every branch
    obtain ⟨e, he⟩ := isSome_iff_exists.1 hp
    obtain ⟨e', he', -⟩ := hk p e (.refl p) he
    have hroot := ho.tree.anc_root ho.known
    have hmain := (isInMainChain_iff ho.links ho.best).2 hroot
    refine ⟨E.hashGenesisBlock, ?_, hmain, hroot, ho.tree.anc_root (by rw [he']; rfl), ?_⟩
    · unfold CBlockLocator.getBlockIndex
      simp only [find?_append, hfind, ho.genesis]
      cases hg : [E.hashGenesisBlock].find? w.knowsInMainChain with
      | none => rfl
      | some x =>
        rw [mem_singleton.1 (mem_of_find?_eq_some hg)]
        rfl
    · rintro ⟨q, hq, hknown⟩
      exact absurd hknown (find?_eq_none.1 hfind q hq)
  | some r =>
    obtain ⟨i, hi⟩ := mem_iff_getElem?.1 (mem_of_find?_eq_some hfind)
    have hwalk := hk.walk (hl.walk_of_getElem? hi)
    have hknown := find?_some hfind
    have hmain : w.isInMainChain r = true := (Bool.and_eq_true_iff.1 hknown).2
    have hnodup : l.Nodup := (hl.pairwise ht).imp fun {a b} hlt hab => by
      rw [hab] at hlt
      exact lt_irrefl _ hlt
    refine ⟨r, ?_, hmain, (isInMainChain_iff ho.links ho.best).1 hmain,
      anc_of_walk hwalk, fun _ => ?_⟩
    · unfold CBlockLocator.getBlockIndex
      simp only [find?_append, hfind, some_or]
    · have := height_of_walk ho.tree.graded hwalk
      rw [getDistanceBack_eq hi hfind hnodup]
      omega

/-- **A locator leads another node to the trunk.**  `Set` lists `p` and ancestors of `p` at falling
heights, and the genesis block, in `13` hashes more than the binary logarithm of the height at most.
A node that knows the branch of `p` finds a block of its main chain below `p` with it, and the
distance to that block when it is listed. -/
theorem locator_finds_trunk (ht : IndexTree m E.hashGenesisBlock) (hp : (m.lookup p).isSome) :
    ∃ l, CBlockLocator.set E m (some p) = some ⟨l ++ [E.hashGenesisBlock]⟩ ∧ FallingBranch m p l ∧
      (l ++ [E.hashGenesisBlock]).length ≤ 11 + Nat.log2 (height m p) + 2 ∧
      ∀ w tip, OwnChain E w tip → KnowsBranch m w.mapBlockIndex p → ∃ r,
      FindsTrunk E w tip p l r := by
  obtain ⟨l, hset, hl⟩ := set_spec E ht hp
  refine ⟨l, hset, ⟨hl.head, fun q => hl.anc_of_mem, hl.pairwise ht⟩, ?_, fun w tip => ?_⟩
  · have := hl.length ht
    rw [length_append, length_singleton]
    omega
  · exact exists_findsTrunk ht hp hl

/-- The locator of a side branch that leaves the main chain at height 9, read on the same node. -/
theorem locator_finds_trunk_fork :
    ∃ w l r, CBlockLocator.set Simnet.env w.mapBlockIndex (some (Simnet.hash 43)) =
        some ⟨l ++ [Simnet.hash 0]⟩ ∧
      FindsTrunk Simnet.env w (Simnet.hash 40) (Simnet.hash 43) l r := by
  obtain ⟨w, -, hr, hsim⟩ := Simnet.exists_fork (s := ⟨9, 1001⟩) (N := 20) (by decide)
    (by decide) (by decide)
  obtain ⟨-, hp⟩ := hsim.mem 43 (.inr ⟨by decide, by decide, by decide⟩)
  obtain ⟨_, hl⟩ := hr.reads
  have ho : OwnChain Simnet.env w (Simnet.hash 40) :=
    ⟨hr.tree, hr.genesis, hr.best, hl.lookup_isSome, hr.links⟩
  obtain ⟨l, hset, -, -, hfind⟩ := locator_finds_trunk (E := Simnet.env) hr.tree hp
  obtain ⟨r, hr⟩ := hfind w _ ho (.refl _ _)
  exact ⟨w, l, r, hset, hr⟩

end Espers
