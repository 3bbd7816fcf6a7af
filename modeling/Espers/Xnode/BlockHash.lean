import Espers.Chain.Fork
import Mathlib.Data.List.Induction

/-!
# Block hashes for the scores of services

The scores of xnodes and of alias services are taken against the hash of a block of the main chain
that is looked up by height (`xnodecomponent.cpp`, `GetBlockHash`; `pas.cpp`, `GetBlockHashPAS`).
Each of the two keeps the answers in a map by height that nothing ever clears; height 0 stands for
the best height.

* `computeBlockHash_eq` : what is not in the map is answered from the main chain, with the block one
  below the height asked for.
* `current_iff_undisturbed` : the answers follow the main chain along a run exactly if no chain
  change replaces a block that a lookup has met.
* `getBlockHash_current_iff` : **two nodes follow their chains, and compute the same scores whenever
  these are the same, exactly if both runs are of this kind.**
-/

namespace Espers

open List Option Forest Function BlockMap AList

/-- `std::map<int64_t, uint256>`. -/
abbrev HashCache := AList (fun _ : ℤ => Uint256)

/-- The two services, each with a lookup function and a map of its own. -/
inductive Service where
  /-- `GetBlockHash` with `mapCacheBlockHashes`. -/
  | xnode
  /-- `GetBlockHashPAS` with `mapCacheBlockHashesPAS`. -/
  | pas
  deriving DecidableEq, Repr

/-- What the lookups read and write. -/
structure HashNode where
  mapBlockIndex : BlockMap := ∅
  pindexBest : Option Uint256 := none
  caches : Service → HashCache := fun _ => ∅

/-- The loop of the lookups: `nBlocksAgo - n` more steps back, as long as the block read is above
genesis. -/
def readBack (m : BlockMap) : ℕ → Uint256 → Option Uint256
  | nBlocksAgo, blockReading =>
    match m.lookup blockReading with
    | none => none
    | some e =>
      if e.nHeight > 0 then
        match nBlocksAgo with
        | 0 => some e.hashBlock
        | k + 1 =>
          match e.pprev with
          | none => none
          | some q => readBack m k q
      else none

/-- The answer that is computed for a height that is not 0. -/
def computeBlockHash (m : BlockMap) (best : Uint256) (nBlockHeight : ℤ) : Option Uint256 :=
  let nBestHeight := height m best
  if nBestHeight = 0 ∨ nBestHeight + 1 < nBlockHeight then none
  else
    let nBlocksAgo := if nBlockHeight > 0 then (nBestHeight + 1 - nBlockHeight).toNat else 0
    readBack m nBlocksAgo best

/-- The height under which an answer is kept. -/
def cacheKey (m : BlockMap) (best : Uint256) (nBlockHeight : ℤ) : ℤ :=
  if nBlockHeight = 0 then height m best else nBlockHeight

/-- `GetBlockHash` and `GetBlockHashPAS`, which differ in the map: the answer, and the map. -/
def lookupBlockHash (m : BlockMap) (pindexBest : Option Uint256) (cache : HashCache)
    (nBlockHeight : ℤ) : Option Uint256 × HashCache :=
  match pindexBest with
  | none => (none, cache)
  | some best =>
    let nBlockHeight := cacheKey m best nBlockHeight
    match cache.lookup nBlockHeight with
    | some hash => (some hash, cache)
    | none =>
      match computeBlockHash m best nBlockHeight with
      | some hash => (some hash, cache.insert nBlockHeight hash)
      | none => (none, cache)

/-- `GetBlockHash`. -/
def getBlockHash (n : HashNode) (nBlockHeight : ℤ) : Option Uint256 × HashCache :=
  lookupBlockHash n.mapBlockIndex n.pindexBest (n.caches .xnode) nBlockHeight

/-- `GetBlockHashPAS`. -/
def getBlockHashPAS (n : HashNode) (nBlockHeight : ℤ) : Option Uint256 × HashCache :=
  lookupBlockHash n.mapBlockIndex n.pindexBest (n.caches .pas) nBlockHeight

/-- `CXNode::CalculateScore`, with the hash of one and of two 256-bit numbers; what it leaves in the
map is what a lookup leaves. -/
def CXNode.calculateScore (hash1 : Uint256 → Uint256) (hash₂ : Uint256 → Uint256 → Uint256)
    (n : HashNode) (prevout : COutPoint) (nBlockHeight : ℤ) : Uint256 :=
  let aux := prevout.hash + BitVec.ofNat 256 prevout.n
  match (getBlockHash n nBlockHeight).1 with
  | none => 0
  | some hash =>
    let hash2 := hash1 hash
    let hash3 := hash₂ hash aux
    if hash3 > hash2 then hash3 - hash2 else hash2 - hash3

/-- What happens to a node: a chain change leaves another index and best block, and heights are
looked up. -/
inductive HashEvent where
  | chain (m : BlockMap) (best : Uint256)
  | lookup (service : Service) (nBlockHeight : ℤ)

namespace HashNode

/-- One event. -/
def step (n : HashNode) : HashEvent → HashNode
  | .chain m best => { n with mapBlockIndex := m, pindexBest := some best }
  | .lookup s nBlockHeight =>
    let answer := lookupBlockHash n.mapBlockIndex n.pindexBest (n.caches s) nBlockHeight
    { n with caches := update n.caches s answer.2 }

/-- A node after a run of events, the maps being empty at first. -/
def after (events : List HashEvent) : HashNode := events.foldl step {}

/-- `p` is the block of the main chain at height `k`. -/
def OnChain (n : HashNode) (p : Uint256) (k : ℤ) : Prop :=
  ∃ best, n.pindexBest = some best ∧ Anc (parent n.mapBlockIndex) best p ∧
    (height n.mapBlockIndex p : ℤ) = k

/-- A height `nBlockHeight` is above 1 and at most one above the best block. -/
def InRange (n : HashNode) (nBlockHeight : ℤ) : Prop :=
  1 < nBlockHeight ∧ ∃ best, n.pindexBest = some best ∧
    nBlockHeight ≤ height n.mapBlockIndex best + 1

/-- Both lookups answer every height in range with the block of the main chain one below. -/
def Current (n : HashNode) : Prop :=
  ∀ nBlockHeight, n.InRange nBlockHeight → ∃ p, n.OnChain p (nBlockHeight - 1) ∧
    (getBlockHash n nBlockHeight).1 = some p ∧ (getBlockHashPAS n nBlockHeight).1 = some p

/-- The nodes have the same main chain. -/
def SameChain (n n' : HashNode) : Prop := ∀ p k, n.OnChain p k ↔ n'.OnChain p k

/-- The height under which a lookup keeps its answer. -/
def key (n : HashNode) (nBlockHeight : ℤ) : ℤ :=
  match n.pindexBest with
  | none => nBlockHeight
  | some best => cacheKey n.mapBlockIndex best nBlockHeight

end HashNode

/-- No chain change of the run replaces a block that a lookup has met: the block one below the
height of a lookup is the block there in every later state in which the height is in range. -/
def HashNode.Undisturbed (events : List HashEvent) : Prop :=
  ∀ before s h later, before ++ .lookup s h :: later <+: events →
    ∀ k, (after before).key h = k → (after before).InRange k →
      (after (before ++ .lookup s h :: later)).InRange k →
      ∀ p, (after before).OnChain p (k - 1) →
        (after (before ++ .lookup s h :: later)).OnChain p (k - 1)

/-- The best block is an entry of a well-formed index. -/
def HasChain (m : BlockMap) (best : Uint256) : Prop :=
  ∃ root, IndexTree m root ∧ (m.lookup best).isSome

/-- A chain change leaves a well-formed index. -/
def HashEvent.Valid : HashEvent → Prop
  | .chain m best => HasChain m best
  | .lookup _ _ => True

/-! ### One lookup -/

section Lookup

variable {m : BlockMap} {root best p : Uint256} {cache : HashCache} {k h : ℤ}

/-- The loop walks back and stops at a block above genesis. -/
theorem readBack_eq (ht : IndexTree m root) {k : ℕ} {b : Uint256} (hb : (m.lookup b).isSome)
    (hw : walk (parent m) k b = some p) (hp : 0 < height m p) :
    readBack m k b = some p := by
  induction k generalizing b with
  | zero =>
    obtain rfl : b = p := some.inj hw
    obtain ⟨e, he⟩ := isSome_iff_exists.1 hb
    rw [height_of_lookup he] at hp
    simp [readBack, he, hp, ht.hash b e he]
  | succ k ih =>
    obtain ⟨e, he⟩ := isSome_iff_exists.1 hb
    have hheight := height_of_walk ht.graded hw
    rw [walk, bind_eq_some_iff] at hw
    obtain ⟨q, hq, hwq⟩ := hw
    have hq' : e.pprev = some q := by rw [← hq, parent_of_lookup he]
    obtain ⟨d, hd, -⟩ := ht.prev b e q he hq'
    rw [height_of_lookup he] at hheight
    have hpos : 0 < e.nHeight := by omega
    rw [readBack, he]
    simp only [hpos, hq']
    exact ih (by simp [hd]) hwq

/-- **A computed answer is the block of the main chain one below the height.** -/
theorem computeBlockHash_eq (hc : HasChain m best) (h1 : 1 < h)
    (hle : h ≤ height m best + 1) :
    ∃ p, Anc (parent m) best p ∧ (height m p : ℤ) = h - 1 ∧ computeBlockHash m best h = some p := by
  obtain ⟨root, ht, hbest⟩ := hc
  obtain ⟨k, hk⟩ : ∃ k : ℕ, (k : ℤ) = height m best + 1 - h :=
    ⟨_, Int.toNat_of_nonneg (by omega)⟩
  obtain ⟨p, hw, hp⟩ := exists_walk ht.graded (P := fun q => (m.lookup q).isSome)
    (fun q hq hpos => ht.exists_parent hq hpos) hbest (k := k) (by omega)
  obtain ⟨hanc, hheight⟩ := (walk_eq_some ht.graded).1 hw
  refine ⟨p, hanc, by omega, ?_⟩
  have hno : ¬ (height m best = 0 ∨ (height m best : ℤ) + 1 < h) := by omega
  have hago : (if h > 0 then ((height m best : ℤ) + 1 - h).toNat else 0) = k := by
    rw [if_pos (by omega), ← hk, Int.toNat_natCast]
  simp only [computeBlockHash, hno, hago]
  exact readBack_eq ht hbest hw (by omega)

theorem le_of_computeBlockHash (hp : computeBlockHash m best h = some p) :
    h ≤ height m best + 1 := by
  by_contra hlt
  have hno : height m best = 0 ∨ (height m best : ℤ) + 1 < h := .inr (by omega)
  simp [computeBlockHash, hno] at hp

theorem lookupBlockHash_of_cached (hv : cache.lookup (cacheKey m best h) = some p) :
    lookupBlockHash m (some best) cache h = (some p, cache) := by
  simp [lookupBlockHash, hv]

theorem lookupBlockHash_of_absent (hv : cache.lookup (cacheKey m best h) = none) :
    (lookupBlockHash m (some best) cache h).1 = computeBlockHash m best (cacheKey m best h) := by
  unfold lookupBlockHash
  simp only [hv]
  cases computeBlockHash m best (cacheKey m best h) <;> rfl

/-- What a lookup leaves in the map: what was there, and its own answer if it had to be computed. -/
theorem lookupBlockHash_cache {v : Uint256} :
    (lookupBlockHash m (some best) cache h).2.lookup k = some v ↔
      cache.lookup k = some v ∨ cache.lookup k = none ∧ cacheKey m best h = k ∧
        computeBlockHash m best k = some v := by
  unfold lookupBlockHash
  cases hv : cache.lookup (cacheKey m best h) with
  | some w =>
    simp only [hv]
    refine ⟨.inl, ?_⟩
    rintro (hk | ⟨hk, rfl, -⟩)
    · exact hk
    · rw [hv] at hk
      cases hk
  | none =>
    simp only [hv]
    cases hcomp : computeBlockHash m best (cacheKey m best h) with
    | none =>
      refine ⟨.inl, ?_⟩
      rintro (hk | ⟨-, rfl, hk⟩)
      · exact hk
      · rw [hcomp] at hk
        cases hk
    | some w =>
      by_cases hk : k = cacheKey m best h
      · subst hk
        simp [hv, hcomp]
      · rw [lookup_insert_ne hk]
        simp [Ne.symm hk]

end Lookup

/-! ### Runs -/

namespace HashNode

variable {n : HashNode} {events before : List HashEvent} {e : HashEvent} {s : Service}
  {p q : Uint256} {k h : ℤ}

@[simp] theorem after_nil : after [] = {} := rfl

@[simp] theorem after_snoc : after (events ++ [e]) = (after events).step e := by
  simp [after]

theorem step_lookup_self : (n.step (.lookup s h)).caches s =
    (lookupBlockHash n.mapBlockIndex n.pindexBest (n.caches s) h).2 := by
  simp [step]

theorem step_lookup_ne {s' : Service} (hs : s ≠ s') :
    (n.step (.lookup s' h)).caches s = n.caches s := by
  simp [step, update_of_ne hs]

variable {best : Uint256}

theorem key_of_best (hb : n.pindexBest = some best) :
    n.key h = cacheKey n.mapBlockIndex best h := by
  rw [key, hb]

theorem after_hasChain (hvalid : ∀ e ∈ events, e.Valid)
    (hb : (after events).pindexBest = some best) : HasChain (after events).mapBlockIndex best := by
  induction events using List.reverseRecOn with
  | nil => cases hb
  | append_singleton events e ih =>
    rw [after_snoc] at hb ⊢
    cases e with
    | chain m b =>
      obtain rfl : b = best := some.inj hb
      exact hvalid (.chain m b) (by simp)
    | lookup s h => exact ih (fun e he => hvalid e (by simp [he])) hb

theorem OnChain.unique (hc : ∀ best, n.pindexBest = some best → HasChain n.mapBlockIndex best)
    (hp : n.OnChain p k) (hq : n.OnChain q k) : p = q := by
  obtain ⟨best, hb, hanc, hk⟩ := hp
  obtain ⟨best', hb', hanc', hk'⟩ := hq
  obtain rfl := some.inj (hb.symm.trans hb')
  obtain ⟨root, ht, -⟩ := hc best hb
  exact hanc.eq_of_height ht.graded hanc' (by omega)

/-- The map of a service for a height above 1 holds the block that was on the main chain when a
lookup met it. -/
theorem exists_lookup_of_cached (hvalid : ∀ e ∈ events, e.Valid) (hk : 1 < k)
    (hv : ((after events).caches s).lookup k = some p) :
    ∃ before h later, events = before ++ .lookup s h :: later ∧ (after before).key h = k ∧
      (after before).InRange k ∧ (after before).OnChain p (k - 1) := by
  induction events using List.reverseRecOn with
  | nil => cases hv
  | append_singleton events e ih =>
    have hvalid' : ∀ e ∈ events, e.Valid := fun e he => hvalid e (by simp [he])
    -- what was in the map before is older
    have hold : ((after events).caches s).lookup k = some p → ∃ before h later,
        events ++ [e] = before ++ .lookup s h :: later ∧ (after before).key h = k ∧
          (after before).InRange k ∧ (after before).OnChain p (k - 1) := by
      intro hv
      obtain ⟨before, h, later, rfl, hrest⟩ := ih hvalid' hv
      exact ⟨before, h, later ++ [e], by simp, hrest⟩
    rw [after_snoc] at hv
    cases e with
    | chain m b => exact hold hv
    | lookup s' h =>
      by_cases hs : s = s'
      · subst hs
        rw [step] at hv
        simp only [update_self] at hv
        cases hb : (after events).pindexBest with
        | none =>
          rw [hb] at hv
          exact hold hv
        | some best =>
          rw [hb, lookupBlockHash_cache] at hv
          rcases hv with hv | ⟨-, hkey, hv⟩
          · exact hold hv
          · have hle := le_of_computeBlockHash hv
            obtain ⟨q, hanc, hq, hcomp⟩ := computeBlockHash_eq (after_hasChain hvalid' hb) hk hle
            obtain rfl : q = p := some.inj (hcomp.symm.trans hv)
            exact ⟨events, h, [], rfl, (key_of_best hb).trans hkey, ⟨hk, best, hb, hle⟩,
              best, hb, hanc, hq⟩
      · rw [step_lookup_ne hs] at hv
        exact hold hv

/-- An answer that is kept stays. -/
theorem cached_append (hv : ((after before).caches s).lookup k = some p) (later : List HashEvent) :
    ((after (before ++ later)).caches s).lookup k = some p := by
  induction later using List.reverseRecOn with
  | nil => simpa using hv
  | append_singleton later e ih =>
    rw [← append_assoc, after_snoc]
    cases e with
    | chain m b => exact ih
    | lookup s' h =>
      by_cases hs : s = s'
      · subst hs
        rw [step_lookup_self]
        cases hb : (after (before ++ later)).pindexBest with
        | none => exact ih
        | some best => exact lookupBlockHash_cache.2 (.inl ih)
      · rw [step_lookup_ne hs]
        exact ih

/-- The lookup of a service. -/
def answer (n : HashNode) (s : Service) (nBlockHeight : ℤ) : Option Uint256 :=
  (lookupBlockHash n.mapBlockIndex n.pindexBest (n.caches s) nBlockHeight).1

theorem InRange.key_eq (hr : n.InRange k) : n.key k = k := by
  obtain ⟨hk, best, hb, -⟩ := hr
  have h0 : k ≠ 0 := by omega
  rw [key_of_best hb, cacheKey, if_neg h0]

theorem answer_of_cached (hb : n.pindexBest = some best)
    (hv : (n.caches s).lookup (n.key h) = some p) : n.answer s h = some p := by
  rw [key_of_best hb] at hv
  rw [answer, hb, lookupBlockHash_of_cached hv]

theorem answer_of_absent (hc : ∀ best, n.pindexBest = some best → HasChain n.mapBlockIndex best)
    (hr : n.InRange k) (hv : (n.caches s).lookup k = none) :
    ∃ p, n.OnChain p (k - 1) ∧ n.answer s k = some p := by
  have hkey := hr.key_eq
  obtain ⟨hk, best, hb, hle⟩ := hr
  obtain ⟨p, hanc, hp, hcomp⟩ := computeBlockHash_eq (hc best hb) hk hle
  refine ⟨p, ⟨best, hb, hanc, hp⟩, ?_⟩
  rw [key_of_best hb] at hkey
  rw [answer, hb, lookupBlockHash_of_absent (by rw [hkey]; exact hv), hkey, hcomp]

theorem Current.answer_eq (hcur : n.Current) (hr : n.InRange k) (s : Service) :
    ∃ p, n.OnChain p (k - 1) ∧ n.answer s k = some p := by
  obtain ⟨p, hp, hx, hpas⟩ := hcur k hr
  cases s with
  | xnode => exact ⟨p, hp, hx⟩
  | pas => exact ⟨p, hp, hpas⟩

theorem Current.of_answers (hc : ∀ best, n.pindexBest = some best → HasChain n.mapBlockIndex best)
    (h : ∀ s k, n.InRange k → ∃ p, n.OnChain p (k - 1) ∧ n.answer s k = some p) : n.Current := by
  intro k hr
  obtain ⟨p, hp, hx⟩ := h .xnode k hr
  obtain ⟨q, hq, hpas⟩ := h .pas k hr
  obtain rfl := hp.unique hc hq
  exact ⟨p, hp, hx, hpas⟩

theorem cached_of_lookup (hb : n.pindexBest = some best) (hkey : n.key h = k)
    (hr : n.InRange k) (ha : n.answer s k = some p) :
    ((n.step (.lookup s h)).caches s).lookup k = some p := by
  have hkk := hr.key_eq
  rw [step_lookup_self, hb, lookupBlockHash_cache]
  cases hv : (n.caches s).lookup k with
  | some v =>
    rw [answer_of_cached hb (by rw [hkk]; exact hv)] at ha
    exact .inl ha
  | none =>
    rw [key_of_best hb] at hkey hkk
    rw [answer, hb, lookupBlockHash_of_absent (by rw [hkk]; exact hv), hkk] at ha
    exact .inr ⟨rfl, hkey, ha⟩

/-- A lookup changes no answer. -/
theorem answer_step_lookup : (n.step (.lookup s h)).answer s k = n.answer s k := by
  cases hb : n.pindexBest with
  | none => simp [answer, step, hb, lookupBlockHash]
  | some best =>
    have hb' : (n.step (.lookup s h)).pindexBest = some best := hb
    have hkey : (n.step (.lookup s h)).key k = cacheKey n.mapBlockIndex best k := key_of_best hb'
    have hcache : ∀ v, ((n.step (.lookup s h)).caches s).lookup (cacheKey n.mapBlockIndex best k) =
      some v ↔ (n.caches s).lookup (cacheKey n.mapBlockIndex best k) = some v ∨
          (n.caches s).lookup (cacheKey n.mapBlockIndex best k) = none ∧
            cacheKey n.mapBlockIndex best h = cacheKey n.mapBlockIndex best k ∧
            computeBlockHash n.mapBlockIndex best (cacheKey n.mapBlockIndex best k) = some v := by
      intro v
      rw [step_lookup_self, hb, lookupBlockHash_cache]
    cases hv : (n.caches s).lookup (cacheKey n.mapBlockIndex best k) with
    | some v =>
      have hnew := (hcache v).2 (.inl hv)
      rw [answer_of_cached hb' (by rw [hkey]; exact hnew),
        answer_of_cached hb (by rw [key_of_best hb]; exact hv)]
    | none =>
      have hold : n.answer s k =
          computeBlockHash n.mapBlockIndex best (cacheKey n.mapBlockIndex best k) := by
        rw [answer, hb, lookupBlockHash_of_absent hv]
      cases hnew : ((n.step (.lookup s h)).caches s).lookup (cacheKey n.mapBlockIndex best k) with
      | none =>
        rw [hold, answer, hb']
        exact lookupBlockHash_of_absent hnew
      | some v =>
        -- the lookup has kept what would be computed
        rcases (hcache v).1 hnew with h' | ⟨-, -, hcomp⟩
        · rw [hv] at h'
          cases h'
        · rw [answer_of_cached hb' (by rw [hkey]; exact hnew), hold, hcomp]

end HashNode

open HashNode

/-- The answers follow the chain along a run exactly if no lookup is disturbed. -/
theorem current_iff_undisturbed {events : List HashEvent} (hvalid : ∀ e ∈ events, e.Valid) :
    (∀ before, before <+: events → (after before).Current) ↔ HashNode.Undisturbed events := by
  have hchain : ∀ before, before <+: events → ∀ best, (after before).pindexBest = some best →
      HasChain (after before).mapBlockIndex best := by
    intro before hpre best hb
    exact after_hasChain (fun e he => hvalid e (hpre.subset he)) hb
  constructor
  · intro hcur before s h later hpre k hkey hr hr' p hp
    have hbefore : before <+: events := (prefix_append _ _).trans hpre
    obtain ⟨q, hq, ha⟩ := (hcur before hbefore).answer_eq hr s
    obtain rfl := hp.unique (hchain before hbefore) hq
    obtain ⟨best, hb, -⟩ := hr.2
    -- the answer is kept, and it is what is found later
    have hkept := cached_of_lookup hb hkey hr ha
    rw [← after_snoc] at hkept
    have hkept' := cached_append hkept later
    rw [append_assoc, singleton_append] at hkept'
    obtain ⟨q, hq', ha'⟩ := (hcur _ hpre).answer_eq hr' s
    have hkk := hr'.key_eq
    obtain ⟨-, best', hb', -⟩ := hr'
    rw [answer_of_cached hb' (by rw [hkk]; exact hkept'), some.injEq] at ha'
    exact ha'.symm ▸ hq'
  · intro hundisturbed before hpre
    refine Current.of_answers (hchain before hpre) fun s k hr => ?_
    cases hv : ((after before).caches s).lookup k with
    | none => exact answer_of_absent (hchain before hpre) hr hv
    | some p =>
      have hkk := hr.key_eq
      obtain ⟨earlier, h, later, rfl, hkey, hr0, hp⟩ :=
        exists_lookup_of_cached (fun e he => hvalid e (hpre.subset he)) hr.1 hv
      obtain ⟨best, hb, -⟩ := hr.2
      exact ⟨p, hundisturbed earlier s h later hpre k hkey hr0 hr p hp,
        answer_of_cached hb (by rw [hkk]; exact hv)⟩

/-- The nodes have the same heights in range. -/
theorem HashNode.SameChain.inRange {n n' : HashNode} {k : ℤ} (hsame : n.SameChain n')
    (hc : ∀ best, n'.pindexBest = some best → HasChain n'.mapBlockIndex best) (hr : n.InRange k) :
    n'.InRange k := by
  obtain ⟨hk, best, hb, hle⟩ := hr
  obtain ⟨best', hb', hanc, hheight⟩ := (hsame best _).1 ⟨best, hb, .refl best, rfl⟩
  obtain ⟨root, ht, -⟩ := hc best' hb'
  have hmono := hanc.height_le ht.graded
  exact ⟨hk, best', hb', by omega⟩

/-- **The scores of two nodes that follow the same chain are the same.** -/
theorem CXNode.calculateScore_congr {n n' : HashNode} {k : ℤ} (hcur : n.Current)
    (hcur' : n'.Current) (hsame : n.SameChain n')
    (hc : ∀ best, n'.pindexBest = some best → HasChain n'.mapBlockIndex best) (hr : n.InRange k)
    (hash1 : Uint256 → Uint256) (hash₂ : Uint256 → Uint256 → Uint256) (prevout : COutPoint) :
    calculateScore hash1 hash₂ n prevout k = calculateScore hash1 hash₂ n' prevout k := by
  obtain ⟨p, hp, hx, -⟩ := hcur k hr
  obtain ⟨p', hp', hx', -⟩ := hcur' k (hsame.inRange hc hr)
  obtain rfl := ((hsame p _).1 hp).unique hc hp'
  rw [calculateScore, calculateScore, hx, hx']

/-- **When the lookups follow the chain.**  For every two runs of chain changes and lookups: in all
states of both runs both lookups answer every height in range from the current main chain, and in
any two states with the same main chain the scores of every xnode at every height in range are the
same, if and only if in both runs the block one below the height of a lookup is never found replaced
later. -/
theorem getBlockHash_current_iff (events events' : List HashEvent) (hvalid : ∀ e ∈ events, e.Valid)
    (hvalid' : ∀ e ∈ events', e.Valid) :
    (∀ before, before <+: events → (after before).Current) ∧
      (∀ before, before <+: events' → (after before).Current) ∧
      (∀ before before', before <+: events → before' <+: events' →
        (after before).SameChain (after before') → ∀ hash1 hash₂ prevout k,
          (after before).InRange k → CXNode.calculateScore hash1 hash₂ (after before) prevout k =
            CXNode.calculateScore hash1 hash₂ (after before') prevout k) ↔
      HashNode.Undisturbed events ∧ HashNode.Undisturbed events' := by
  rw [← current_iff_undisturbed hvalid, ← current_iff_undisturbed hvalid']
  refine ⟨fun h => ⟨h.1, h.2.1⟩, fun ⟨hcur, hcur'⟩ => ⟨hcur, hcur', ?_⟩⟩
  intro before before' hpre hpre' hsame hash1 hash₂ prevout k hr
  exact CXNode.calculateScore_congr (hcur _ hpre) (hcur' _ hpre') hsame
    (fun best hb => after_hasChain (fun e he => hvalid' e (hpre'.subset he)) hb) hr _ _ _

/-! ### A branch of two blocks that replaces one -/

/-- Genesis, a block on it, and on that one block and a branch of two. -/
def forkedIndex : BlockMap :=
  ⟨[⟨10, linkEntry 10 none 0⟩, ⟨11, linkEntry 11 (some 10) 1⟩, ⟨12, linkEntry 12 (some 11) 2⟩,
    ⟨22, linkEntry 22 (some 11) 2⟩, ⟨23, linkEntry 23 (some 22) 3⟩],
    by unfold List.NodupKeys List.keys; decide⟩

theorem forkedIndex_lookup {p : Uint256} {e : CBlockIndex} : forkedIndex.lookup p = some e ↔
    p = 10 ∧ e = linkEntry 10 none 0 ∨ p = 11 ∧ e = linkEntry 11 (some 10) 1 ∨
      p = 12 ∧ e = linkEntry 12 (some 11) 2 ∨ p = 22 ∧ e = linkEntry 22 (some 11) 2 ∨
      p = 23 ∧ e = linkEntry 23 (some 22) 3 := by
  rw [← mem_def, mem_lookup_iff]
  simp [forkedIndex]

theorem forkedIndex_tree : IndexTree forkedIndex 10 where
  hash p e h := by
    rcases forkedIndex_lookup.1 h with ⟨rfl, rfl⟩ | ⟨rfl, rfl⟩ | ⟨rfl, rfl⟩ | ⟨rfl,
      rfl⟩ | ⟨rfl, rfl⟩ <;> rfl
  prev p e q h hq := by
    rcases forkedIndex_lookup.1 h with ⟨rfl, rfl⟩ | ⟨rfl, rfl⟩ | ⟨rfl, rfl⟩ | ⟨rfl,
      rfl⟩ | ⟨rfl, rfl⟩ <;>
      cases hq <;> exact ⟨_, rfl, rfl⟩
  root_eq p e h hq := by
    rcases forkedIndex_lookup.1 h with ⟨rfl, rfl⟩ | ⟨rfl, rfl⟩ | ⟨rfl, rfl⟩ | ⟨rfl,
      rfl⟩ | ⟨rfl, rfl⟩ <;>
      cases hq
    exact ⟨rfl, rfl⟩

theorem forkedIndex_hasChain {best : Uint256} (h : (forkedIndex.lookup best).isSome) :
    HasChain forkedIndex best := ⟨10, forkedIndex_tree, h⟩

theorem forkedIndex_anc_11 : Anc (parent forkedIndex) 23 11 :=
  have h22 : parent forkedIndex 23 = some 22 := rfl
  have h11 : parent forkedIndex 22 = some 11 := rfl
  (Anc.of_parent h22).trans (.of_parent h11)

/-- A lookup that meets a block below the fork. -/
def undisturbedRun : List HashEvent :=
  [.chain forkedIndex 12, .lookup .xnode 2, .chain forkedIndex 23]

theorem undisturbedRun_valid : ∀ e ∈ undisturbedRun, e.Valid := by
  have h12 : HasChain forkedIndex 12 := forkedIndex_hasChain rfl
  have h23 : HasChain forkedIndex 23 := forkedIndex_hasChain rfl
  unfold undisturbedRun
  rw [forall_mem_cons, forall_mem_cons, forall_mem_cons]
  exact ⟨h12, trivial, h23, forall_mem_nil _⟩

theorem undisturbedRun_undisturbed : HashNode.Undisturbed undisturbedRun := by
  rintro before s h later ⟨rest, hrest⟩ k hkey - - p hp
  -- the lookup stands behind the first chain change
  obtain ⟨rfl, rfl, rfl, hlater⟩ : before = [.chain forkedIndex 12] ∧ s = .xnode ∧ h = 2 ∧
      later ++ rest = [.chain forkedIndex 23] := by
    rcases before with _ | ⟨e1, _ | ⟨e2, _ | ⟨e3, before⟩⟩⟩ <;> simp [undisturbedRun] at hrest ⊢
    exact ⟨hrest.1, hrest.2.1.1.symm ▸ rfl, hrest.2.1.2, hrest.2.2⟩
  have hk : k = 2 := hkey.symm
  subst hk
  have hp' : (after [.chain forkedIndex 12]).OnChain 11 1 :=
    ⟨12, rfl, Anc.of_parent rfl, by decide⟩
  obtain rfl : p = 11 := hp.unique (fun best hb => by
    obtain rfl := some.inj hb
    exact forkedIndex_hasChain rfl) hp'
  rcases later with _ | ⟨e, later⟩
  · exact ⟨12, rfl, Anc.of_parent rfl, by decide⟩
  · obtain ⟨rfl, hnil⟩ : e = .chain forkedIndex 23 ∧ later ++ rest = [] := by simpa using hlater
    obtain rfl := (append_eq_nil_iff.1 hnil).1
    exact ⟨23, rfl, forkedIndex_anc_11, by decide⟩

/-- A node that looks the best block up after the change of the branch. -/
def laterRun : List HashEvent := [.chain forkedIndex 23, .lookup .xnode 0]

theorem laterRun_valid : ∀ e ∈ laterRun, e.Valid := by
  have h23 : HasChain forkedIndex 23 := forkedIndex_hasChain rfl
  unfold laterRun
  rw [forall_mem_cons, forall_mem_cons]
  exact ⟨h23, trivial, forall_mem_nil _⟩

theorem laterRun_undisturbed : HashNode.Undisturbed laterRun := by
  rintro before s h later ⟨rest, hrest⟩ k - - - p hp
  -- no chain change follows
  obtain ⟨rfl, rfl⟩ : before = [.chain forkedIndex 23] ∧ later = [] := by
    rcases before with _ | ⟨e1, _ | ⟨e2, before⟩⟩ <;> simp [laterRun] at hrest ⊢
    exact ⟨hrest.1, hrest.2.2.1⟩
  exact hp

/-- Two nodes reach the same chain, one of them by a change of the branch, after different
lookups. -/
theorem getBlockHash_current_undisturbed :
    (∀ e ∈ undisturbedRun, e.Valid) ∧ (∀ e ∈ laterRun, e.Valid) ∧
      (after undisturbedRun).Current ∧ ∀ hash1 hash₂ prevout,
        CXNode.calculateScore hash1 hash₂ (after undisturbedRun) prevout 3 =
          CXNode.calculateScore hash1 hash₂ (after laterRun) prevout 3 := by
  obtain ⟨hcur, -, hscore⟩ := (getBlockHash_current_iff undisturbedRun laterRun
    undisturbedRun_valid laterRun_valid).2 ⟨undisturbedRun_undisturbed, laterRun_undisturbed⟩
  refine ⟨undisturbedRun_valid, laterRun_valid, hcur _ prefix_rfl, fun hash1 hash₂ prevout => ?_⟩
  exact hscore _ _ prefix_rfl prefix_rfl (fun _ _ => Iff.rfl) hash1 hash₂ prevout 3
    ⟨by decide, 23, rfl, by decide⟩

/-- The best block is looked up and then replaced. -/
def staleRun : List HashEvent :=
  [.chain forkedIndex 12, .lookup .xnode 3, .lookup .pas 3, .chain forkedIndex 23]

/-- **Both lookups still answer with the replaced block**, and the scores are not those of a node
that has the same chain and has looked nothing up. -/
theorem getBlockHash_stale :
    (∀ e ∈ staleRun, e.Valid) ∧ (after staleRun).InRange 3 ∧ (after staleRun).OnChain 22 2 ∧
      (getBlockHash (after staleRun) 3).1 = some 12 ∧
      (getBlockHashPAS (after staleRun) 3).1 = some 12 ∧
      (after staleRun).SameChain (after [.chain forkedIndex 23]) ∧
      CXNode.calculateScore id (fun _ aux => aux) (after staleRun) ⟨0, 0⟩ 3 = 12 ∧
      CXNode.calculateScore id (fun _ aux => aux) (after [.chain forkedIndex 23]) ⟨0, 0⟩ 3 =
        22 := by
  have h12 : HasChain forkedIndex 12 := forkedIndex_hasChain rfl
  have h23 : HasChain forkedIndex 23 := forkedIndex_hasChain rfl
  refine ⟨?_, ⟨by decide, 23, rfl, by decide⟩, ⟨23, rfl, ?_, by decide⟩, by decide, by decide,
    fun _ _ => Iff.rfl, by decide, by decide⟩
  · unfold staleRun
    rw [forall_mem_cons, forall_mem_cons, forall_mem_cons, forall_mem_cons]
    exact ⟨h12, trivial, trivial, h23, forall_mem_nil _⟩
  · exact Anc.of_parent rfl

end Espers
