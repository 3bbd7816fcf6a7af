import Espers.Chain.SizeWindow
import Espers.Retarget.Target
import Espers.Stake.Kernel

/-!
# Stake modifiers

Every ten minutes of block time a new stake modifier is made of one bit each of up to 64 blocks of
the last hours.  The blocks are selected in rounds: each round scans the candidates in the order of
their times, skips those that have been selected, and takes the one with the least hash among those
up to the end of the round's interval, or the first one when all are later.

* `selectBlock_spec` : a round selects an unselected candidate when there is one.
* `selectRounds_spec` : rounds no more than candidates all select, each another block.
* `collectCandidates_spec` : the candidates are the blocks of the branch down to the first early
  one.
* `computeNextStakeModifier_spec` : **a modifier is found**, made of the bits of distinct blocks and
  by the branch alone, **exactly if** the network has a target spacing or no new one is due.
-/

namespace Espers

open Exec List Option Nat BlockMap AList Forest Prod Except

namespace Kernel

/-! ### The source -/

/-- `nModifierInterval`. -/
def nModifierInterval : ℕ := 10 * 60

/-- `MODIFIER_INTERVAL_RATIO`. -/
def modifierIntervalRatio : ℕ := 3

end Kernel

/-- `CBlockIndex::GetStakeEntropyBit`. -/
def CBlockIndex.getStakeEntropyBit (e : CBlockIndex) : ℕ := (e.nFlags &&& 2) >>> 1

/-- `CBlockIndex::GeneratedStakeModifier`: `BLOCK_STAKE_MODIFIER` is set. -/
def CBlockIndex.generatedStakeModifier (e : CBlockIndex) : Bool := e.nFlags.testBit 2

namespace Kernel

/-- `GetLastStakeModifier`: the modifier and its time. -/
def getLastStakeModifier (m : BlockMap) : ℕ → Uint256 → Except Stop (ℕ × ℤ)
  | 0, _ => .error (.crash "GetLastStakeModifier: the walk does not end")
  | fuel + 1, pindex =>
    match m.lookup pindex with
    | none => .error (.crash "null pointer")
    | some e =>
      if e.generatedStakeModifier then .ok (e.nStakeModifier, e.nTime)
      else
        match e.pprev with
        | none => .error (.error "GetLastStakeModifier: no generation at genesis block")
        | some q => getLastStakeModifier m fuel q

/-- `GetStakeModifierSelectionIntervalSection`, for the sections below 64 it asserts. -/
def getStakeModifierSelectionIntervalSection (nSection : ℕ) : ℤ :=
  (nModifierInterval * 63 / (63 + (63 - nSection) * (modifierIntervalRatio - 1)) : ℕ)

/-- `GetStakeModifierSelectionInterval`. -/
def getStakeModifierSelectionInterval : ℤ :=
  ((List.range 64).map getStakeModifierSelectionIntervalSection).sum

/-- The selection hash of a block; `H` hashes a proof and a modifier.  Proof-of-stake blocks are
favored. -/
def selectionHash (H : Uint256 → ℕ → Uint256) (e : CBlockIndex) (nStakeModifierPrev : ℕ) :
    Uint256 :=
  let hashSelection := H e.hashProof nStakeModifierPrev
  if e.isProofOfStake then hashSelection >>> 32 else hashSelection

/-- `hashBest` and `*pindexSelected`, which are set once `fSelected` is, after another block. -/
def keepBest (hashSelection pindex : Uint256) : Option (Uint256 × Uint256) → Uint256 × Uint256
  | none => (hashSelection, pindex)
  | some (hashBest, p) =>
    if hashSelection < hashBest then (hashSelection, pindex) else (hashBest, p)

/-- The loop of `SelectBlockFromCandidates` over the candidates. -/
def selectBlockFromCandidates (H : Uint256 → ℕ → Uint256) (m : BlockMap)
    (mapSelectedBlocks : List Uint256) (nSelectionIntervalStop : ℤ) (nStakeModifierPrev : ℕ) :
    List (ℤ × Uint256) → Option (Uint256 × Uint256) → Except Stop (Option (Uint256 × Uint256))
  | [], best => .ok best
  | item :: vSorted, best =>
    match m.lookup item.2 with
    | none =>
      .error (.error "SelectBlockFromCandidates: failed to find block index for candidate block")
    | some e =>
      if best.isSome ∧ e.nTime > nSelectionIntervalStop then .ok best
      else if e.hashBlock ∈ mapSelectedBlocks then
        selectBlockFromCandidates H m mapSelectedBlocks nSelectionIntervalStop
          nStakeModifierPrev vSorted best
      else
        selectBlockFromCandidates H m mapSelectedBlocks nSelectionIntervalStop
          nStakeModifierPrev vSorted
          (some (keepBest (selectionHash H e nStakeModifierPrev) item.2 best))

/-- The loop of `ComputeNextStakeModifier` that collects the candidates. -/
def collectCandidates (m : BlockMap) (nSelectionIntervalStart : ℤ) :
    ℕ → Option Uint256 → Except Stop (List (ℤ × Uint256))
  | _, none => .ok []
  | 0, some _ => .error (.crash "ComputeNextStakeModifier: the walk does not end")
  | fuel + 1, some pindex =>
    match m.lookup pindex with
    | none => .error (.crash "null pointer")
    | some e =>
      if nSelectionIntervalStart ≤ e.nTime then
        (collectCandidates m nSelectionIntervalStart fuel e.pprev).map ((e.nTime, e.hashBlock) :: ·)
      else .ok []

/-- The order of pairs of a time and a hash. -/
def candidateLe (a b : ℤ × Uint256) : Bool := decide (a.1 < b.1 ∨ a.1 = b.1 ∧ a.2 ≤ b.2)

/-- `vSortedByTimestamp`. -/
def sortByTimestamp (l : List (ℤ × Uint256)) : List (ℤ × Uint256) :=
    l.reverse.insertionSort fun a b => candidateLe a b

/-- The rounds of `ComputeNextStakeModifier`: the selected blocks, in order, and the new
modifier. -/
def selectRounds (H : Uint256 → ℕ → Uint256) (m : BlockMap)
    (vSortedByTimestamp : List (ℤ × Uint256)) (nStakeModifier : ℕ) : ℕ → ℕ → ℤ → List Uint256 → ℕ →
    Except Stop (List Uint256 × ℕ)
  | 0, _, _, mapSelectedBlocks, nStakeModifierNew => .ok (mapSelectedBlocks, nStakeModifierNew)
  | rounds + 1, nRound, nSelectionIntervalStop, mapSelectedBlocks, nStakeModifierNew => do
    let nSelectionIntervalStop :=
      nSelectionIntervalStop + getStakeModifierSelectionIntervalSection nRound
    let selected ← (selectBlockFromCandidates H m mapSelectedBlocks nSelectionIntervalStop
      nStakeModifier vSortedByTimestamp none).mapError <|
        Stop.report (.error "ComputeNextStakeModifier: unable to select block at round")
    match selected with
    | none => .error (.error "ComputeNextStakeModifier: unable to select block at round")
    | some (_, pindex) =>
      match m.lookup pindex with
      | none => .error (.crash "null pointer")
      | some e =>
        selectRounds H m vSortedByTimestamp nStakeModifier rounds (nRound + 1)
          nSelectionIntervalStop (mapSelectedBlocks ++ [e.hashBlock])
          (nStakeModifierNew ||| e.getStakeEntropyBit <<< nRound)

/-- `nSelectionIntervalStart`, for a block with time `nTime`. -/
def selectionIntervalStart (nTime : ℤ) : ℤ :=
  nTime / nModifierInterval * nModifierInterval - getStakeModifierSelectionInterval

/-- `ComputeNextStakeModifier`: the modifier and whether it is a new one.  (All times are positive,
so that the divisions are those of C.) -/
def computeNextStakeModifier (H : Uint256 → ℕ → Uint256) (N : Network) (m : BlockMap) :
    Option Uint256 → Except Stop (ℕ × Bool)
  | none => .ok (0, true)
  | some pindexPrev => do
    let fuel := height m pindexPrev + 1
    let (nStakeModifier, nModifierTime) ← (getLastStakeModifier m fuel pindexPrev).mapError <|
      Stop.report (.error "ComputeNextStakeModifier: unable to get last modifier")
    match m.lookup pindexPrev with
    | none => .error (.crash "null pointer")
    | some e =>
      if nModifierTime / nModifierInterval ≥ (e.nTime : ℤ) / nModifierInterval then
        .ok (nStakeModifier, false)
      -- the room that is reserved for the candidates
      else if N.targetSpacing = 0 then .error (.crash "division by zero")
      else do
        let nSelectionIntervalStart := selectionIntervalStart e.nTime
        let candidates ← collectCandidates m nSelectionIntervalStart fuel (some pindexPrev)
        let vSortedByTimestamp := sortByTimestamp candidates
        let (_, nStakeModifierNew) ← selectRounds H m vSortedByTimestamp nStakeModifier
          (min 64 vSortedByTimestamp.length) 0 nSelectionIntervalStart [] 0
        .ok (nStakeModifierNew, true)

/-! ### One round -/

variable {H : Uint256 → ℕ → Uint256} {m m' : BlockMap} {g p q : Uint256} {l : List (ℤ × Uint256)}

/-- The candidates are entries of the index, filed under their own hashes. -/
def Known (m : BlockMap) (l : List (ℤ × Uint256)) : Prop :=
  ∀ item ∈ l, ∃ e, m.lookup item.2 = some e ∧ e.hashBlock = item.2

/-- What a round has selected, when it started the scan of `l` with `best`. -/
def Picked (mapSelectedBlocks : List Uint256) (l : List (ℤ × Uint256))
    (best r : Option (Uint256 × Uint256)) : Prop :=
  ∀ b q, r = some (b, q) → (∃ b', best = some (b', q)) ∨
  (q ∈ l.map snd ∧ q ∉ mapSelectedBlocks)

variable {sel : List Uint256}

theorem Picked.cons {item : ℤ × Uint256}
    {best best' r : Option (Uint256 × Uint256)} (h : Picked sel l best' r)
    (hbest : ∀ b q, best' = some (b, q) → (∃ b', best = some (b', q)) ∨ (q = item.2 ∧ q ∉ sel)) :
    Picked sel (item :: l) best r := by
  intro b q hr
  rcases h b q hr with ⟨b', hb'⟩ | ⟨hmem, hsel⟩
  · rcases hbest b' q hb' with hbest | ⟨rfl, hsel⟩
    · exact .inl hbest
    · exact .inr ⟨mem_cons_self, hsel⟩
  · exact .inr ⟨mem_cons_of_mem _ hmem, hsel⟩

theorem keepBest_cases (hashSelection pindex : Uint256) (best : Option (Uint256 × Uint256)) :
    keepBest hashSelection pindex best = (hashSelection, pindex) ∨
      ∃ a, best = some a ∧ keepBest hashSelection pindex best = a := by
  cases best with
  | none => exact .inl rfl
  | some a =>
    by_cases hlt : hashSelection < a.1
    · exact .inl (if_pos hlt)
    · exact .inr ⟨a, rfl, if_neg hlt⟩

/-- **A round selects a candidate that has not been selected, when there is one.** -/
theorem selectBlock_spec (sel : List Uint256) (stop : ℤ) (modifier : ℕ) (hk : Known m l)
    (best : Option (Uint256 × Uint256)) :
    ∃ r, selectBlockFromCandidates H m sel stop modifier l best = .ok r ∧ Picked sel l best r ∧
      (best.isSome ∨ (∃ q ∈ l.map snd, q ∉ sel) → r.isSome) := by
  induction l generalizing best with
  | nil =>
    refine ⟨best, rfl, fun b q hr => .inl ⟨b, hr⟩, ?_⟩
    rintro (h | ⟨q, hq, -⟩)
    · exact h
    · cases hq
  | cons item l ih =>
    have hkl : Known m l := fun x hx => hk x (mem_cons_of_mem _ hx)
    obtain ⟨e, he, hhash⟩ := hk item mem_cons_self
    rw [selectBlockFromCandidates, he]
    simp only [hhash]
    by_cases hbreak : best.isSome ∧ (e.nTime : ℤ) > stop
    · -- the scan ends only once a block has been selected
      rw [if_pos hbreak]
      exact ⟨best, rfl, fun b q hr => .inl ⟨b, hr⟩, fun _ => hbreak.1⟩
    · rw [if_neg hbreak]
      by_cases hsel : item.2 ∈ sel
      · rw [if_pos hsel]
        obtain ⟨r, hr, hpicked, hsome⟩ := ih hkl best
        refine ⟨r, hr, hpicked.cons fun b q hb => .inl ⟨b, hb⟩, ?_⟩
        rintro (h | ⟨q, hq, hqs⟩)
        · exact hsome (.inl h)
        · rcases mem_cons.1 hq with rfl | hq
          · exact absurd hsel hqs
          · exact hsome (.inr ⟨q, hq, hqs⟩)
      · rw [if_neg hsel]
        obtain ⟨r, hr, hpicked, hsome⟩ :=
          ih hkl (some (keepBest (selectionHash H e modifier) item.2 best))
        refine ⟨r, hr, hpicked.cons fun b q hb => ?_, fun _ => hsome (.inl rfl)⟩
        rcases keepBest_cases (selectionHash H e modifier) item.2 best with hkeep | ⟨a, rfl, hkeep⟩
        · rw [hkeep] at hb
          obtain ⟨-, rfl⟩ := mk.inj (some.inj hb)
          exact .inr ⟨rfl, hsel⟩
        · rw [hkeep] at hb
          exact .inl ⟨b, hb⟩

/-! ### All rounds -/

/-- The entropy bit of an entry. -/
def entropyBit (m : BlockMap) (p : Uint256) : Bool :=
  (m.lookup p).any fun e => e.getStakeEntropyBit = 1

variable {e : CBlockIndex}

theorem entropyBit_eq (he : m.lookup p = some e) (i : ℕ) :
    e.getStakeEntropyBit.testBit i = (decide (i = 0) && entropyBit m p) := by
  have hcases : e.getStakeEntropyBit = 0 ∨ e.getStakeEntropyBit = 1 := by
    have hle : e.nFlags &&& 2 ≤ 2 := and_le_right
    have hdef : e.getStakeEntropyBit = (e.nFlags &&& 2) / 2 := by
      rw [CBlockIndex.getStakeEntropyBit, shiftRight_eq_div_pow, pow_one]
    omega
  rw [entropyBit, he, any_some]
  rcases hcases with h | h
  · simp [h]
  · rw [h]
    cases i with
    | zero => rfl
    | succ i => simp [testBit_succ]

/-- The blocks selected so far, and the modifier made of their bits. -/
structure Selected (m : BlockMap) (l : List (ℤ × Uint256)) (sel : List Uint256) (modifier : ℕ) :
    Prop where
  nodup : sel.Nodup
  subset : sel ⊆ l.map snd
  bits : ∀ i, modifier.testBit i = (sel[i]?).any (entropyBit m)

theorem Selected.nil (m : BlockMap) (l : List (ℤ × Uint256)) : Selected m l [] 0 :=
  ⟨nodup_nil, nil_subset _, fun i => by simp⟩

theorem Selected.snoc {modifier : ℕ} (h : Selected m l sel modifier) (he : m.lookup q = some e)
    (hq : q ∈ l.map snd) (hsel : q ∉ sel) :
    Selected m l (sel ++ [q]) (modifier ||| e.getStakeEntropyBit <<< sel.length) := by
  refine ⟨?_, ?_, fun i => ?_⟩
  · exact nodup_append.2 ⟨h.nodup, nodup_singleton q, fun a ha b hb hab => by
      rw [mem_singleton.1 hb] at hab
      exact hsel (hab ▸ ha)⟩
  · exact append_subset.2 ⟨h.subset, fun a ha => mem_singleton.1 ha ▸ hq⟩
  · rw [testBit_or, h.bits, testBit_shiftLeft, entropyBit_eq he]
    rcases lt_trichotomy i sel.length with hi | rfl | hi
    · rw [getElem?_append_left hi]
      simp [not_le.2 hi]
    · simp
    · have hne : i - sel.length ≠ 0 := by omega
      rw [getElem?_eq_none (by omega), getElem?_eq_none (by simp; omega)]
      simp [hne]

/-- **As many rounds as there are candidates left all select**, each another block. -/
theorem selectRounds_spec (hk : Known m l) (hnodup : (l.map snd).Nodup)
    (prev rounds : ℕ) (stop : ℤ) {modifier : ℕ} (h : Selected m l sel modifier)
    (hlen : sel.length + rounds ≤ l.length) :
    ∃ sel' modifier', selectRounds H m l prev rounds sel.length stop sel modifier =
    .ok (sel', modifier') ∧ Selected m l sel' modifier' ∧ sel'.length = sel.length + rounds := by
  induction rounds generalizing stop sel modifier with
  | zero => exact ⟨sel, modifier, rfl, h, rfl⟩
  | succ rounds ih =>
    -- fewer blocks have been selected than there are candidates
    have hleft : ∃ q ∈ l.map snd, q ∉ sel := by
      by_contra hall
      simp only [not_exists, not_and, not_not] at hall
      have := (hnodup.subperm hall).length_le
      rw [length_map] at this
      omega
    obtain ⟨r, hr, hpicked, hsome⟩ := selectBlock_spec (H := H) sel
      (stop + getStakeModifierSelectionIntervalSection sel.length) prev hk none
    obtain ⟨⟨b, q⟩, rfl⟩ := isSome_iff_exists.1 (hsome (.inr hleft))
    obtain ⟨hq, hqsel⟩ : q ∈ l.map snd ∧ q ∉ sel := by
      rcases hpicked b q rfl with ⟨b', hb'⟩ | hq
      · cases hb'
      · exact hq
    obtain ⟨item, hitem, rfl⟩ := mem_map.1 hq
    obtain ⟨e, he, hhash⟩ := hk item hitem
    have hstep : (sel ++ [item.2]).length = sel.length + 1 := length_append
    obtain ⟨sel', modifier', hrun, hselected, hlength⟩ := ih
      (stop + getStakeModifierSelectionIntervalSection sel.length) (h.snoc he hq hqsel) (by omega)
    refine ⟨sel', modifier', ?_, hselected, by omega⟩
    rw [selectRounds, hr]
    simp only [Except.mapError, except_ok_bind, he, hhash]
    rw [← hstep]
    exact hrun

/-! ### The candidates -/

/-- The time of an entry. -/
def blockTime (m : BlockMap) (p : Uint256) : ℤ := ((m.lookup p).map fun e => (e.nTime : ℤ)).getD 0

theorem blockTime_of_lookup (he : m.lookup p = some e) : blockTime m p = e.nTime := by
  rw [blockTime, he]
  rfl

/-- `l` holds the times and hashes of the blocks of the branch of `p`, from `p` down to the first
one with a time before `start`. -/
structure Candidates (m : BlockMap) (start : ℤ) (p : Uint256) (l : List (ℤ × Uint256)) : Prop where
  item : ∀ j a, l[j]? = some a → walk (parent m) j p = some a.2 ∧
    a.1 = blockTime m a.2 ∧ start ≤ a.1
  next : ∀ q, walk (parent m) l.length p = some q → blockTime m q < start

/-- **The candidates are collected** along the branch. -/
theorem collectCandidates_spec (ht : IndexTree m g) (start : ℤ) {fuel : ℕ}
    (hp : (m.lookup p).isSome) (hfuel : height m p < fuel) :
    ∃ l, collectCandidates m start fuel (some p) = .ok l ∧ Candidates m start p l := by
  induction fuel generalizing p with
  | zero => omega
  | succ fuel ih =>
    obtain ⟨e, he⟩ := isSome_iff_exists.1 hp
    have hparent := parent_of_lookup he
    rw [collectCandidates, he]
    simp only
    by_cases hstart : start ≤ (e.nTime : ℤ)
    · rw [if_pos hstart, ht.hash p e he]
      have hitem : (e.nTime : ℤ) = blockTime m p := (blockTime_of_lookup he).symm
      cases hq : e.pprev with
      | none =>
        refine ⟨[((e.nTime : ℤ), p)],
          by rw [collectCandidates]; rfl, fun j a ha => ?_, fun q hw => ?_⟩
        · cases j with
          | zero => obtain rfl := some.inj ha; exact ⟨rfl, hitem, hstart⟩
          | succ j => cases ha
        · rw [length_singleton, walk, hparent, hq] at hw
          cases hw
      | some q =>
        have hpq : parent m p = some q := hparent.trans hq
        have hheight := ht.graded hpq
        obtain ⟨l, hl, hc⟩ := ih (p := q) (ht.mem_of_anc (.of_parent hpq) hp) (by omega)
        refine ⟨((e.nTime : ℤ), p) :: l, by rw [hl]; rfl, fun j a ha => ?_, fun x hx => ?_⟩
        · cases j with
          | zero => obtain rfl := some.inj ha; exact ⟨rfl, hitem, hstart⟩
          | succ j =>
            rw [walk, hpq, bind_some]
            exact hc.item j a ha
        · rw [length_cons, walk, hpq, bind_some] at hx
          exact hc.next x hx
    · rw [if_neg hstart]
      refine ⟨[], rfl, fun j a ha => absurd ha (by simp), fun q hw => ?_⟩
      obtain rfl := some.inj hw
      rw [blockTime_of_lookup he]
      omega

namespace Candidates

variable {start : ℤ}

theorem of_mem (h : Candidates m start p l) (hq : q ∈ l.map snd) :
    Anc (parent m) p q ∧ start ≤ blockTime m q := by
  obtain ⟨a, ha, rfl⟩ := mem_map.1 hq
  obtain ⟨j, hj⟩ := mem_iff_getElem?.1 ha
  obtain ⟨hwalk, htime, hstart⟩ := h.item j a hj
  exact ⟨anc_of_walk hwalk, htime ▸ hstart⟩

theorem nodup (ht : IndexTree m g) (h : Candidates m start p l) : (l.map snd).Nodup := by
  refine pairwise_iff_getElem.2 fun i j hi hj hij heq => ?_
  rw [length_map] at hi hj
  have hwi := height_of_walk ht.graded (h.item i _ (getElem?_eq_getElem hi)).1
  have hwj := height_of_walk ht.graded (h.item j _ (getElem?_eq_getElem hj)).1
  rw [getElem_map, getElem_map] at heq
  rw [heq] at hwi
  omega

theorem known (ht : IndexTree m g) (hp : (m.lookup p).isSome) (h : Candidates m start p l) :
    Known m l := by
  intro a ha
  obtain ⟨e, he⟩ := isSome_iff_exists.1
    (ht.mem_of_anc (h.of_mem (mem_map_of_mem ha)).1 hp)
  exact ⟨e, he, ht.hash _ e he⟩

end Candidates

theorem sortByTimestamp_perm (l : List (ℤ × Uint256)) : (sortByTimestamp l).Perm l :=
  (perm_insertionSort _ _).trans (reverse_perm l)

/-- `q` is the last block of the branch of `p` with a generated modifier. -/
structure LastGenerated (m : BlockMap) (p q : Uint256) : Prop where
  anc : Anc (parent m) p q
  generated : ∃ e, m.lookup q = some e ∧ e.generatedStakeModifier = true
  last : ∀ x e, Anc (parent m) p x → m.lookup x = some e →
    e.generatedStakeModifier = true → Anc (parent m) q x

/-- A new modifier is due: the block is in a later interval than the last one with a generated
modifier. -/
def Due (m : BlockMap) (p : Uint256) : Prop :=
  ∃ q, LastGenerated m p q ∧ blockTime m q / nModifierInterval < blockTime m p / nModifierInterval

theorem LastGenerated.unique (ht : IndexTree m g) {q' : Uint256} (h : LastGenerated m p q)
    (h' : LastGenerated m p q') : q = q' := by
  obtain ⟨e, he, hgen⟩ := h.generated
  obtain ⟨e', he', hgen'⟩ := h'.generated
  have hle := (h'.last q e h.anc he hgen).height_le ht.graded
  exact (h.last q' e' h'.anc he' hgen').eq_of_height_le ht.graded hle

theorem LastGenerated.due_iff (ht : IndexTree m g) (h : LastGenerated m p q) :
    Due m p ↔ blockTime m q / nModifierInterval < blockTime m p / nModifierInterval := by
  refine ⟨fun ⟨x, hx, hlt⟩ => ?_, fun hlt => ⟨q, h, hlt⟩⟩
  rwa [h.unique ht hx]

/-- **The walk ends at the last block with a generated modifier.** -/
theorem getLastStakeModifier_spec (ht : IndexTree m g)
    (hg : ∀ e, m.lookup g = some e → e.generatedStakeModifier = true) {fuel : ℕ}
    (hp : (m.lookup p).isSome) (hfuel : height m p < fuel) :
    ∃ prev q, getLastStakeModifier m fuel p = .ok (prev, blockTime m q) ∧ LastGenerated m p q := by
  induction fuel generalizing p with
  | zero => omega
  | succ fuel ih =>
    obtain ⟨e, he⟩ := isSome_iff_exists.1 hp
    rw [getLastStakeModifier, he]
    simp only
    by_cases hgen : e.generatedStakeModifier = true
    · rw [if_pos hgen, ← blockTime_of_lookup he]
      exact ⟨_, p, rfl, .refl p, ⟨e, he, hgen⟩, fun _ _ hx _ _ => hx⟩
    · rw [if_neg hgen]
      cases hq : e.pprev with
      | none =>
        -- the root carries a generated modifier
        obtain ⟨rfl, -⟩ := ht.root_eq p e he hq
        exact absurd (hg e he) hgen
      | some q =>
        have hpq : parent m p = some q := (parent_of_lookup he).trans hq
        have hheight := ht.graded hpq
        obtain ⟨prev, x, hx, hlast⟩ := ih (p := q) (ht.mem_of_anc (.of_parent hpq) hp) (by omega)
        refine ⟨prev, x, hx, .head hpq hlast.anc, hlast.generated, fun y d hy hd hgen' => ?_⟩
        refine hlast.last y d (hy.of_ne ?_ hpq) hd hgen'
        rintro rfl
        exact hgen (some.inj (hd.symm.trans he) ▸ hgen')

/-! ### Nodes with the same branch -/

/-- The entries agree in what the modifier is computed from. -/
structure SameStake (e e' : CBlockIndex) : Prop where
  hashBlock : e'.hashBlock = e.hashBlock
  pprev : e'.pprev = e.pprev
  nHeight : e'.nHeight = e.nHeight
  nTime : e'.nTime = e.nTime
  nFlags : e'.nFlags = e.nFlags
  nStakeModifier : e'.nStakeModifier = e.nStakeModifier
  hashProof : e'.hashProof = e.hashProof

/-- `m'` has the branch of `p` in `m`. -/
def SameBranch (m m' : BlockMap) (p : Uint256) : Prop :=
  ∀ q e, Anc (parent m) p q → m.lookup q = some e → ∃ e', m'.lookup q = some e' ∧ SameStake e e'

theorem SameBranch.parent (h : SameBranch m m' p) (hq : parent m p = some q) : SameBranch m m' q :=
  fun x e hx he => h x e (.head hq hx) he

theorem getLastStakeModifier_congr (ht : IndexTree m g) (hp : (m.lookup p).isSome)
    (h : SameBranch m m' p) (fuel : ℕ) : getLastStakeModifier m' fuel p =
    getLastStakeModifier m fuel p := by
  induction fuel generalizing p with
  | zero => rfl
  | succ fuel ih =>
    obtain ⟨e, he⟩ := isSome_iff_exists.1 hp
    obtain ⟨e', he', hs⟩ := h p e (.refl p) he
    have hgen : e'.generatedStakeModifier = e.generatedStakeModifier := by
      rw [CBlockIndex.generatedStakeModifier, CBlockIndex.generatedStakeModifier, hs.nFlags]
    rw [getLastStakeModifier, getLastStakeModifier, he, he']
    simp only [hgen, hs.nStakeModifier, hs.nTime, hs.pprev]
    cases hq : e.pprev with
    | none => rfl
    | some q =>
      have hpq : parent m p = some q := (parent_of_lookup he).trans hq
      simp only [ih (ht.mem_of_anc (.of_parent hpq) hp) (h.parent hpq)]

theorem collectCandidates_congr (ht : IndexTree m g) (hp : (m.lookup p).isSome)
    (h : SameBranch m m' p) (start : ℤ) (fuel : ℕ) : collectCandidates m' start fuel (some p) =
    collectCandidates m start fuel (some p) := by
  induction fuel generalizing p with
  | zero => rfl
  | succ fuel ih =>
    obtain ⟨e, he⟩ := isSome_iff_exists.1 hp
    obtain ⟨e', he', hs⟩ := h p e (.refl p) he
    rw [collectCandidates, collectCandidates, he, he']
    simp only [hs.nTime, hs.hashBlock, hs.pprev]
    cases hq : e.pprev with
    | none => cases fuel <;> rfl
    | some q =>
      have hpq : parent m p = some q := (parent_of_lookup he).trans hq
      rw [ih (ht.mem_of_anc (.of_parent hpq) hp) (h.parent hpq)]

/-- The candidates are entries of both nodes. -/
def SameEntries (m m' : BlockMap) (l : List (ℤ × Uint256)) : Prop :=
  ∀ item ∈ l, ∃ e e', m.lookup item.2 = some e ∧ m'.lookup item.2 = some e' ∧ SameStake e e'

theorem selectBlock_congr (hs : SameEntries m m' l) (sel : List Uint256) (stop : ℤ) (modifier : ℕ)
    (best : Option (Uint256 × Uint256)) : selectBlockFromCandidates H m' sel stop modifier l best =
      selectBlockFromCandidates H m sel stop modifier l best := by
  induction l generalizing best with
  | nil => rfl
  | cons item l ih =>
    obtain ⟨e, e', he, he', hsame⟩ := hs item mem_cons_self
    have hl : SameEntries m m' l := fun x hx => hs x (mem_cons_of_mem _ hx)
    have hhash : selectionHash H e' modifier = selectionHash H e modifier := by
      rw [selectionHash, selectionHash, CBlockIndex.isProofOfStake,
        CBlockIndex.isProofOfStake, hsame.nFlags, hsame.hashProof]
    rw [selectBlockFromCandidates, selectBlockFromCandidates, he, he']
    simp only [hsame.nTime, hsame.hashBlock, hhash, ih hl]

theorem selectRounds_congr (hk : Known m l) (hs : SameEntries m m' l)
    (prev rounds nRound : ℕ) (stop : ℤ) (sel : List Uint256) (modifier : ℕ) :
    selectRounds H m' l prev rounds nRound stop sel modifier =
      selectRounds H m l prev rounds nRound stop sel modifier := by
  induction rounds generalizing nRound stop sel modifier with
  | zero => rfl
  | succ rounds ih =>
    obtain ⟨r, hr, hpicked, -⟩ := selectBlock_spec (H := H) sel
      (stop + getStakeModifierSelectionIntervalSection nRound) prev hk none
    rw [selectRounds, selectRounds, selectBlock_congr hs, hr]
    simp only [Except.mapError, except_ok_bind]
    cases r with
    | none => rfl
    | some a =>
      obtain ⟨b, q⟩ := a
      rcases hpicked b q rfl with ⟨b', hb'⟩ | ⟨hq, -⟩
      · cases hb'
      · obtain ⟨item, hitem, rfl⟩ := mem_map.1 hq
        obtain ⟨e, e', he, he', hsame⟩ := hs item hitem
        simp only [he, he', hsame.hashBlock, CBlockIndex.getStakeEntropyBit, hsame.nFlags]
        exact ih _ _ _ _

/-! ### The next modifier -/

/-- How a new modifier is made: `sel` are the blocks selected from the candidates `l`. -/
structure NewModifier (H : Uint256 → ℕ → Uint256) (m : BlockMap) (p : Uint256) (prev : ℕ)
    (l : List (ℤ × Uint256)) (sel : List Uint256) (modifier : ℕ) : Prop where
  candidates : Candidates m (selectionIntervalStart (blockTime m p)) p l
  rounds : selectRounds H m (sortByTimestamp l) prev (min 64 l.length) 0
    (selectionIntervalStart (blockTime m p)) [] 0 = .ok (sel, modifier)
  length : sel.length = min 64 l.length
  nodup : sel.Nodup
  ancestors : ∀ q ∈ sel, Anc (parent m) p q ∧ selectionIntervalStart (blockTime m p) ≤ blockTime m q
  bits : ∀ i, modifier.testBit i = (sel[i]?).any (entropyBit m)

theorem exists_newModifier (H : Uint256 → ℕ → Uint256) (ht : IndexTree m g)
    (hp : (m.lookup p).isSome) (prev : ℕ)
    (h : Candidates m (selectionIntervalStart (blockTime m p)) p l) :
    ∃ sel modifier, NewModifier H m p prev l sel modifier := by
  have hperm := sortByTimestamp_perm l
  have hmap : ((sortByTimestamp l).map snd).Perm (l.map snd) := hperm.map _
  have hk : Known m (sortByTimestamp l) := fun a ha => h.known ht hp a (hperm.mem_iff.1 ha)
  have hlen : ([] : List Uint256).length + min 64 l.length ≤ (sortByTimestamp l).length := by
    rw [hperm.length_eq, length_nil, zero_add]
    exact min_le_right _ _
  obtain ⟨sel, modifier, hrun, hsel, hlength⟩ := selectRounds_spec (H := H) hk
    (hmap.nodup_iff.2 (h.nodup ht)) prev (min 64 l.length) (selectionIntervalStart (blockTime m p))
    (.nil m _) hlen
  refine ⟨sel, modifier, h, hrun, by simpa using hlength, hsel.nodup, fun q hq => ?_, hsel.bits⟩
  exact h.of_mem (hmap.mem_iff.1 (hsel.subset hq))

section Next

variable {prev fuel : ℕ} {N : Network}

theorem computeNextStakeModifier_of_not_due (H : Uint256 → ℕ → Uint256) (N : Network)
    (he : m.lookup p = some e)
    (hlast : getLastStakeModifier m (height m p + 1) p = .ok (prev, blockTime m q))
    (hold : ¬blockTime m q / nModifierInterval < blockTime m p / nModifierInterval) :
    computeNextStakeModifier H N m (some p) = .ok (prev, false) := by
  rw [blockTime_of_lookup he] at hold
  simp only [computeNextStakeModifier, hlast, he, Except.mapError, except_ok_bind]
  exact if_pos (not_lt.1 hold)

/-- Without a target spacing the candidates are not collected. -/
theorem computeNextStakeModifier_crash (H : Uint256 → ℕ → Uint256) (hN : N.targetSpacing = 0)
    (he : m.lookup p = some e)
    (hlast : getLastStakeModifier m (height m p + 1) p = .ok (prev, blockTime m q))
    (hdue : blockTime m q / nModifierInterval < blockTime m p / nModifierInterval) :
    computeNextStakeModifier H N m (some p) = .error (.crash "division by zero") := by
  rw [blockTime_of_lookup he] at hdue
  simp only [computeNextStakeModifier, hlast, he, Except.mapError, except_ok_bind]
  rw [if_neg (not_le.2 hdue), if_pos hN]

theorem computeNextStakeModifier_new (H : Uint256 → ℕ → Uint256) (hN : N.targetSpacing ≠ 0)
    (ht : IndexTree m g) (he : m.lookup p = some e)
    (hlast : getLastStakeModifier m (height m p + 1) p = .ok (prev, blockTime m q))
    (hdue : blockTime m q / nModifierInterval < blockTime m p / nModifierInterval) :
    ∃ modifier l sel, computeNextStakeModifier H N m (some p) = .ok (modifier, true) ∧
      NewModifier H m p prev l sel modifier := by
  have htime := blockTime_of_lookup he
  have hp : (m.lookup p).isSome := by rw [he]; rfl
  obtain ⟨l, hl, hc⟩ := collectCandidates_spec ht (selectionIntervalStart (blockTime m p)) hp
    (lt_succ_self _)
  obtain ⟨sel, modifier, hnew⟩ := exists_newModifier H ht hp prev hc
  have hrounds := hnew.rounds
  rw [htime] at hl hrounds hdue
  refine ⟨modifier, l, sel, ?_, hnew⟩
  simp only [computeNextStakeModifier, hlast, he, Except.mapError, except_ok_bind]
  rw [if_neg (not_le.2 hdue), if_neg hN]
  simp only [hl, except_ok_bind, (sortByTimestamp_perm l).length_eq, hrounds]

end Next

theorem computeNextStakeModifier_congr (H : Uint256 → ℕ → Uint256) (N : Network)
    (ht : IndexTree m g) (hp : (m.lookup p).isSome) (h : SameBranch m m' p) :
    computeNextStakeModifier H N m' (some p) = computeNextStakeModifier H N m (some p) := by
  obtain ⟨e, he⟩ := isSome_iff_exists.1 hp
  obtain ⟨e', he', hs⟩ := h p e (.refl p) he
  have hheight : height m' p = height m p := by
    rw [height_of_lookup he, height_of_lookup he', hs.nHeight]
  simp only [computeNextStakeModifier, hheight, getLastStakeModifier_congr ht hp h,
    collectCandidates_congr ht hp h, he, he', hs.nTime]
  -- the rounds look the candidates up
  obtain ⟨l, hl, hc⟩ :=
    collectCandidates_spec ht (selectionIntervalStart e.nTime) hp (lt_succ_self _)
  have hperm := sortByTimestamp_perm l
  have hk : Known m (sortByTimestamp l) := fun a ha => hc.known ht hp a (hperm.mem_iff.1 ha)
  have hsame : SameEntries m m' (sortByTimestamp l) := by
    intro a ha
    have hanc := (hc.of_mem (mem_map_of_mem (hperm.mem_iff.1 ha))).1
    obtain ⟨d, hd, -⟩ := hk a ha
    obtain ⟨d', hd', hs'⟩ := h a.2 d hanc hd
    exact ⟨d, d', hd, hd', hs'⟩
  simp only [hl, except_ok_bind, selectRounds_congr hk hsame]

/-- **When a stake modifier is found.**  In a block tree whose genesis block carries a generated
modifier, exactly if the network has a target spacing or no new modifier is due:
`ComputeNextStakeModifier` does not fail, a new modifier holds the entropy bits of as many distinct
blocks of the branch as there are candidates, up to 64, all from the start of the selection interval
on, and a node with the same branch finds the same modifier. -/
theorem computeNextStakeModifier_spec (H : Uint256 → ℕ → Uint256) (N : Network) (ht : IndexTree m g)
    (hg : ∀ e, m.lookup g = some e → e.generatedStakeModifier = true) (pindexPrev : Option Uint256)
    (hp : ∀ p ∈ pindexPrev, (m.lookup p).isSome) :
    ((∃ r, computeNextStakeModifier H N m pindexPrev = .ok r) ∧
    ∀ p ∈ pindexPrev,
      (∀ modifier, computeNextStakeModifier H N m pindexPrev = .ok (modifier, true) →
        ∃ prev l sel, NewModifier H m p prev l sel modifier) ∧
      ∀ m', SameBranch m m' p →
        computeNextStakeModifier H N m' pindexPrev = computeNextStakeModifier H N m pindexPrev) ↔
    N.targetSpacing ≠ 0 ∨ ∀ p ∈ pindexPrev, ¬Due m p := by
  cases pindexPrev with
  | none =>
    exact ⟨fun _ => .inr fun p h => absurd h (not_mem_none p),
      fun _ => ⟨⟨_, rfl⟩, fun p h => absurd h (not_mem_none p)⟩⟩
  | some p =>
    have hmem := hp p rfl
    obtain ⟨e, he⟩ := isSome_iff_exists.1 hmem
    obtain ⟨prev, q, hlast, hq⟩ := getLastStakeModifier_spec ht hg hmem (lt_succ_self _)
    have hone : (∀ x ∈ some p, ¬Due m x) ↔
        ¬blockTime m q / nModifierInterval < blockTime m p / nModifierInterval := by
      rw [← hq.due_iff ht]
      exact ⟨fun h => h p rfl, fun h x hx => some.inj hx ▸ h⟩
    rw [hone]
    constructor
    · rintro ⟨⟨r, hr⟩, -⟩
      by_contra hnot
      rw [not_or, not_not, not_not] at hnot
      rw [computeNextStakeModifier_crash H hnot.1 he hlast hnot.2] at hr
      cases hr
    · intro hok
      have hcongr : ∀ m', SameBranch m m' p → computeNextStakeModifier H N m' (some p) =
          computeNextStakeModifier H N m (some p) :=
        fun m' h => computeNextStakeModifier_congr H N ht hmem h
      by_cases hdue : blockTime m q / nModifierInterval < blockTime m p / nModifierInterval
      · obtain ⟨modifier, l, sel, hrun, hnew⟩ := computeNextStakeModifier_new H
          (hok.resolve_right (not_not.2 hdue)) ht he hlast hdue
        refine ⟨⟨_, hrun⟩, fun x hx => ?_⟩
        obtain rfl := some.inj hx
        refine ⟨fun modifier' hmod => ?_, hcongr⟩
        obtain ⟨rfl, -⟩ := mk.inj (ok.inj (hrun.symm.trans hmod))
        exact ⟨prev, l, sel, hnew⟩
      · have hrun := computeNextStakeModifier_of_not_due H N he hlast hdue
        refine ⟨⟨_, hrun⟩, fun x hx => ?_⟩
        obtain rfl := some.inj hx
        refine ⟨fun modifier' hmod => ?_, hcongr⟩
        obtain ⟨-, hfalse⟩ := mk.inj (ok.inj (hrun.symm.trans hmod))
        cases hfalse

/-! ### Three blocks -/

open Simnet

/-- The entry of a block of a short chain. -/
def stakedEntry (i nTime nFlags : ℕ) : CBlockIndex :=
  { chainEntry 3 i with nTime := nTime, nFlags := nFlags }

/-- A genesis block with a generated modifier and the entropy bit, and two blocks; the last one
begins a new interval and has the bit too. -/
def stakedMap : BlockMap :=
  (((∅ : BlockMap).insert (Simnet.hash 0) (stakedEntry 0 1 6)).insert (Simnet.hash 1)
    (stakedEntry 1 100 0)).insert (hash 2) (stakedEntry 2 700 2)

theorem stakedMap_tree : IndexTree stakedMap (hash 0) := by
  have hroot : IndexTree ((∅ : BlockMap).insert (hash 0) (stakedEntry 0 1 6))
    (hash 0) := by
    have hone : ∀ p e, ((∅ : BlockMap).insert (Simnet.hash 0) (stakedEntry 0 1 6)).lookup p =
      some e → p = Simnet.hash 0 ∧ e = stakedEntry 0 1 6 := by
      intro p e he
      by_cases hp : p = Simnet.hash 0
      · subst hp
        exact ⟨rfl, (some.inj he).symm⟩
      · rw [lookup_insert_ne hp, lookup_empty] at he
        cases he
    refine ⟨fun p e he => ?_, fun p e q he hq => ?_, fun p e he _ => ?_⟩
    · obtain ⟨rfl, rfl⟩ := hone p e he
      rfl
    · obtain ⟨rfl, rfl⟩ := hone p e he
      cases hq
    · obtain ⟨rfl, rfl⟩ := hone p e he
      exact ⟨rfl, rfl⟩
  have hsecond : IndexTree (((∅ : BlockMap).insert (Simnet.hash 0) (stakedEntry 0 1 6)).insert
    (hash 1)
      (stakedEntry 1 100 0)) (hash 0) :=
    hroot.insert (by decide) rfl rfl (lookup_insert _) rfl
  exact hsecond.insert (by decide) rfl rfl (lookup_insert _) rfl

theorem stakedMap_generated :
    ∀ e, stakedMap.lookup (Simnet.hash 0) = some e → e.generatedStakeModifier = true := by
  intro e he
  have hlookup : stakedMap.lookup (Simnet.hash 0) = some (stakedEntry 0 1 6) := by decide
  obtain rfl := some.inj (hlookup.symm.trans he)
  rfl

theorem stakedMap_mem : ∀ p ∈ some (Simnet.hash 2), (stakedMap.lookup p).isSome := by
  intro p hp
  obtain rfl := some.inj hp
  rfl

/-- On the main network the new modifier has the bits of the first and the last selected block. -/
theorem computeNextStakeModifier_three :
    ∃ prev l sel, NewModifier (fun x _ => x) stakedMap (hash 2) prev l sel 5 := by
  have hnew : computeNextStakeModifier (fun x _ => x) .main stakedMap (some (hash 2)) =
    .ok (5, true) := by
    rfl
  exact (((computeNextStakeModifier_spec (fun x _ => x) .main stakedMap_tree stakedMap_generated
    (some (Simnet.hash 2)) stakedMap_mem).2 (.inl (by decide))).2 (Simnet.hash 2) rfl).1 5 hnew

/-- **The test network has no target spacing**: the first new modifier is a division by zero. -/
theorem computeNextStakeModifier_testnet :
    ¬(∀ (H : Uint256 → ℕ → Uint256) (N : Network) (m : BlockMap) (g p : Uint256), IndexTree m g →
      (∀ e, m.lookup g = some e → e.generatedStakeModifier = true) → (m.lookup p).isSome →
      ∃ r, computeNextStakeModifier H N m (some p) = .ok r) ∧
    computeNextStakeModifier (fun x _ => x) .testnet stakedMap (some (hash 2)) =
      .error (.crash "division by zero") := by
  have hcrash : computeNextStakeModifier (fun x _ => x) .testnet stakedMap (some (hash 2)) =
      .error (.crash "division by zero") := by
    rfl
  refine ⟨fun h => ?_, hcrash⟩
  obtain ⟨r, hr⟩ := h (fun x _ => x) .testnet stakedMap (hash 0) (hash 2)
    stakedMap_tree stakedMap_generated rfl
  rw [hcrash] at hr
  cases hr

end Kernel

end Espers
