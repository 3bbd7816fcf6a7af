import Espers.Core.Data
import Mathlib.Data.BitVec

/-!
# A random node of the list

`CXNodeMan::FindRandomNotInVec` counts the enabled nodes, takes off the number of the excluded
inputs, draws a number below the difference and steps through the nodes that are not excluded until
the number is used up.

The difference is one of an `int` and a `size_t`, so of 64 bits without a sign; `GetRandInt` takes
an `int` and returns one.  The counters of nodes do not overflow, and neither does the number drawn
when it is the least `int` (which is undefined in the source).  A pointer to a node is its position.

* `pick_eq` : a number drawn leads to the node of that number, and 0 to the first one as 1 does.
* `findRandomNotInVec_iff` : **every eligible node can be drawn, and only these are, exactly if**
  there is none, or there are as many as the greatest number that can be drawn.
-/

namespace Espers

open List Nat Bool

/-! ### The source -/

/-- `CXNode::state`. -/
inductive XNodeState where
  | enabled
  | expired
  | vinSpent
  | remove
  | posError
  deriving DecidableEq, Repr

/-- A node of the list. -/
structure CXNode where
  vin : CTxIn
  activeState : XNodeState
  lastTimeSeen : ℤ
  protocolVersion : ℤ
  nLastPaid : ℤ
  deriving DecidableEq, Repr

/-- What `Check` asks of the node it runs on. -/
structure XNodeEnv where
  /-- `ShutdownRequested()`. -/
  fShutdown : Bool
  /-- `TRY_LOCK(cs_main, ..)` succeeds. -/
  fLockMain : Bool
  /-- `GetAdjustedTime()`. -/
  adjustedTime : ℤ

namespace CXNode

/-- `UpdatedWithin`. -/
def updatedWithin (env : XNodeEnv) (xn : CXNode) (seconds : ℤ) : Bool :=
  env.adjustedTime - xn.lastTimeSeen < seconds

/-- `IsEnabled()`. -/
def isEnabled (xn : CXNode) : Bool := xn.activeState = .enabled

/-- `Check()`. -/
def check (env : XNodeEnv) (xn : CXNode) : CXNode :=
  if env.fShutdown then xn
  else if !env.fLockMain then xn
  -- once spent, stop doing the checks
  else if xn.activeState = .vinSpent then xn
  else if !xn.updatedWithin env (70 * 60) then { xn with activeState := .remove }
  else if !xn.updatedWithin env (65 * 60) then { xn with activeState := .expired }
  else { xn with activeState := .enabled }

/-- `protocolVersion < .. || !IsEnabled()`, the nodes that the loops pass over. -/
def passedOver (protocolVersion : ℤ) (xn : CXNode) : Bool :=
  xn.protocolVersion < protocolVersion || !xn.isEnabled

end CXNode

/-- The protocol version asked for, with `GetMinXNodePaymentsProto()` for -1. -/
def effectiveProtocol (minPaymentsProto protocolVersion : ℤ) : ℤ :=
  if protocolVersion = -1 then minPaymentsProto else protocolVersion

/-- `CXNodeMan::CountEnabled`: the nodes after their checks, and how many count. -/
def countEnabled (env : ℕ → XNodeEnv) (minPaymentsProto : ℤ) (vXNodes : List CXNode)
    (protocolVersion : ℤ) : List CXNode × ℕ :=
  let protocolVersion := effectiveProtocol minPaymentsProto protocolVersion
  let vXNodes := vXNodes.mapIdx fun i xn => xn.check (env i)
  (vXNodes, vXNodes.countP fun xn => !xn.passedOver protocolVersion)

/-- `GetRand`, for a number `nRand` from the random source. -/
def getRand (nRand : ℕ) (nMax : BitVec 64) : BitVec 64 :=
  if nMax = 0 then 0 else BitVec.ofNat 64 (nRand % nMax.toNat)

/-- `GetRandInt`, of machine integers. -/
def getRandInt32 (nRand : ℕ) (nMax : BitVec 32) : BitVec 32 :=
  (getRand nRand (nMax.signExtend 64)).setWidth 32

/-- The loop of `FindRandomNotInVec`, from the node at position `i` on. -/
def pick (protocolVersion : ℤ) (vecToExclude : List CTxIn) : ℕ → List CXNode → ℤ → Option ℕ
  | _, [], _ => none
  | i, xn :: rest, rand =>
    if xn.passedOver protocolVersion then pick protocolVersion vecToExclude (i + 1) rest rand
    else if vecToExclude.any fun usedVin => xn.vin.prevout = usedVin.prevout then
      pick protocolVersion vecToExclude (i + 1) rest rand
    else if rand - 1 < 1 then some i
    else pick protocolVersion vecToExclude (i + 1) rest (rand - 1)

/-- `CXNodeMan::FindRandomNotInVec`: the nodes after the call, and the position of the node that the
pointer returned points to. -/
def findRandomNotInVec (env : ℕ → XNodeEnv) (minPaymentsProto : ℤ) (nRand : ℕ)
    (vXNodes : List CXNode) (vecToExclude : List CTxIn) (protocolVersion : ℤ) :
    List CXNode × Option ℕ :=
  let protocolVersion := effectiveProtocol minPaymentsProto protocolVersion
  let (vXNodes, nCountEnabled) := countEnabled env minPaymentsProto vXNodes protocolVersion
  let left := BitVec.ofNat 64 nCountEnabled - BitVec.ofNat 64 vecToExclude.length
  if left < 1 then (vXNodes, none)
  else
    let rand := getRandInt32 nRand (left.setWidth 32)
    (vXNodes, pick protocolVersion vecToExclude 0 vXNodes rand.toInt)

/-! ### The property -/

/-- The node is enabled, speaks the protocol and is not excluded. -/
structure CXNode.Eligible (protocolVersion : ℤ) (vecToExclude : List CTxIn) (xn : CXNode) :
    Prop where
  enabled : xn.isEnabled = true
  protocol : protocolVersion ≤ xn.protocolVersion
  allowed : ∀ usedVin ∈ vecToExclude, xn.vin.prevout ≠ usedVin.prevout

/-- The node at the position is eligible once it has been checked. -/
def EligibleAt (env : ℕ → XNodeEnv) (minPaymentsProto : ℤ) (l : List CXNode)
    (vecToExclude : List CTxIn) (protocolVersion : ℤ) (i : ℕ) : Prop :=
  ∃ xn : CXNode, l[i]? = some xn ∧ (xn.check (env i)).Eligible
    (effectiveProtocol minPaymentsProto protocolVersion) vecToExclude

/-- The nodes that can be drawn are the eligible ones, and one is drawn whenever there is one. -/
structure DrawsEligible (env : ℕ → XNodeEnv) (minPaymentsProto : ℤ) (l : List CXNode)
    (vecToExclude : List CTxIn) (protocolVersion : ℤ) : Prop where
  nonnull : ∀ nRand,
    (findRandomNotInVec env minPaymentsProto nRand l vecToExclude protocolVersion).2.isSome ↔
      ∃ i, EligibleAt env minPaymentsProto l vecToExclude protocolVersion i
  sound : ∀ nRand i,
    (findRandomNotInVec env minPaymentsProto nRand l vecToExclude protocolVersion).2 = some i →
      EligibleAt env minPaymentsProto l vecToExclude protocolVersion i
  drawn : ∀ i, EligibleAt env minPaymentsProto l vecToExclude protocolVersion i → ∃ nRand,
    (findRandomNotInVec env minPaymentsProto nRand l vecToExclude protocolVersion).2 = some i

/-- The test of the loop. -/
def CXNode.fits (protocolVersion : ℤ) (vecToExclude : List CTxIn) (xn : CXNode) : Bool :=
  !xn.passedOver protocolVersion &&
    !vecToExclude.any fun usedVin => xn.vin.prevout = usedVin.prevout

/-- The greatest number that `GetRandInt` draws, where 0 counts as 1. -/
def topDraw (nMax : BitVec 32) : ℕ :=
  if nMax.toInt < 0 then 2 ^ 31 - 1 else max (nMax.toNat - 1) 1

variable {env : ℕ → XNodeEnv} {minPaymentsProto protocolVersion rand : ℤ} {l : List CXNode}
  {vecToExclude : List CTxIn} {xn : CXNode} {nRand i : ℕ}

theorem CXNode.fits_iff : xn.fits protocolVersion vecToExclude = true ↔
    xn.Eligible protocolVersion vecToExclude := by
  unfold CXNode.fits CXNode.passedOver
  constructor
  · intro h
    simp only [and_eq_true, not_eq_true', or_eq_false_iff, decide_eq_false_iff_not,
      not_eq_false', any_eq_false, decide_eq_true_eq, not_lt] at h
    exact ⟨h.1.2, h.1.1, h.2⟩
  · rintro ⟨henabled, hproto, hallowed⟩
    simpa [henabled, hproto] using hallowed

/-- **A number leads to the eligible node of that number**, and 0 to the first one as 1 does. -/
theorem pick_eq : pick protocolVersion vecToExclude i l rand =
    (l.findIdxs (CXNode.fits protocolVersion vecToExclude) i)[rand.toNat - 1]? := by
  induction l generalizing i rand with
  | nil => rfl
  | cons xn rest ih =>
    rw [pick, findIdxs_cons, CXNode.fits]
    cases xn.passedOver protocolVersion with
    | true => simp [ih]
    | false =>
      cases vecToExclude.any fun usedVin => xn.vin.prevout = usedVin.prevout with
      | true => simp [ih]
      | false =>
        by_cases hrand : rand - 1 < 1
        · simp [hrand, show rand.toNat - 1 = 0 by omega]
        · have hpred : rand.toNat - 1 = (rand - 1).toNat - 1 + 1 := by omega
          rw [if_neg Bool.false_ne_true, if_neg Bool.false_ne_true, if_neg hrand, ih, hpred]
          rfl

/-! ### The numbers drawn -/

theorem toInt_setWidth_ofNat {n : ℕ} (h : n < 2 ^ 31) :
    ((BitVec.ofNat 64 n).setWidth 32).toInt = n := by
  rw [BitVec.toInt_eq_toNat_of_lt]
  · simp
    omega
  · simp
    omega

theorem toNat_signExtend_int (nMax : BitVec 32) :
    (nMax.signExtend 64).toNat = nMax.toNat + if nMax.toInt < 0 then 2 ^ 64 - 2 ^ 32 else 0 := by
  rw [BitVec.toNat_signExtend, BitVec.msb_eq_toInt, BitVec.toNat_setWidth]
  simp only [decide_eq_true_eq]
  omega

theorem getRandInt32_eq (nRand : ℕ) (nMax : BitVec 32) :
    getRandInt32 nRand nMax = if nMax.signExtend 64 = 0 then 0 else
      (BitVec.ofNat 64 (nRand % (nMax.signExtend 64).toNat)).setWidth 32 := by
  rw [getRandInt32, getRand]
  split_ifs <;> rfl

theorem getRandInt32_of_lt {r : ℕ} {nMax : BitVec 32} (h : r < (nMax.signExtend 64).toNat)
    (hr : r < 2 ^ 31) : (getRandInt32 r nMax).toInt = r := by
  have hne : nMax.signExtend 64 ≠ 0 := by
    rintro h0
    rw [h0] at h
    exact absurd h (not_lt_zero r)
  rw [getRandInt32_eq, if_neg hne, mod_eq_of_lt h, toInt_setWidth_ofNat hr]

/-- The positions that can be drawn are those below the top. -/
theorem getRandInt32_lt (nRand : ℕ) (nMax : BitVec 32) :
    (getRandInt32 nRand nMax).toInt.toNat - 1 < topDraw nMax := by
  have hint : (getRandInt32 nRand nMax).toInt < 2 ^ 31 := BitVec.toInt_lt
  have hsext := toNat_signExtend_int nMax
  unfold topDraw
  split_ifs with hneg
  · omega
  · rw [if_neg hneg, add_zero] at hsext
    rw [getRandInt32_eq]
    split_ifs with h0
    · simp
    · have hpos : 0 < nMax.toNat := by
        rw [← hsext]
        exact Nat.pos_of_ne_zero fun h => h0 (BitVec.eq_of_toNat_eq h)
      have hlt := mod_lt nRand hpos
      have hmax : 2 * nMax.toNat < 2 ^ 32 := by
        by_contra hge
        exact hneg (BitVec.toInt_neg_iff.2 (not_lt.1 hge))
      rw [hsext, toInt_setWidth_ofNat (by omega)]
      omega

theorem exists_getRandInt32 {k : ℕ} {nMax : BitVec 32} (h : k < topDraw nMax) :
    ∃ nRand, (getRandInt32 nRand nMax).toInt.toNat - 1 = k := by
  have hsext := toNat_signExtend_int nMax
  unfold topDraw at h
  split_ifs at h with hneg
  · rw [if_pos hneg] at hsext
    exact ⟨k + 1, by rw [getRandInt32_of_lt (by omega) (by omega)]; omega⟩
  · rw [if_neg hneg, add_zero] at hsext
    have hmax : 2 * nMax.toNat < 2 ^ 32 := by
      by_contra hge
      exact hneg (BitVec.toInt_neg_iff.2 (not_lt.1 hge))
    by_cases hk : k + 1 < nMax.toNat
    · exact ⟨k + 1, by rw [getRandInt32_of_lt (by omega) (by omega)]; omega⟩
    · -- the first node is drawn by 0 if by nothing else
      have hlt := getRandInt32_lt 0 nMax
      rw [topDraw, if_neg hneg] at hlt
      exact ⟨0, by omega⟩

/-! ### The nodes drawn -/

/-- Draws below a number reach all members of a list, and nothing else, exactly if it is empty or
has that many. -/
theorem draws_iff {L : List ℕ} (hL : L.Nodup) {draw : ℕ → ℕ} {top : ℕ} (hlt : ∀ r, draw r < top)
    (hsurj : ∀ k < top, ∃ r, draw r = k) :
    ((∀ r, L[draw r]?.isSome ↔ L ≠ []) ∧ ∀ i ∈ L, ∃ r, L[draw r]? = some i) ↔
      L = [] ∨ L.length = top := by
  constructor
  · rintro ⟨hsome, hall⟩
    by_cases hnil : L = []
    · exact .inl hnil
    · have hpos := length_pos_iff.2 hnil
      -- the greatest draw hits the list, and its last member is drawn
      have htop := hlt 0
      obtain ⟨r, hr⟩ := hsurj (top - 1) (by omega)
      have hge : draw r < L.length := by simpa using (hsome r).2 hnil
      obtain ⟨r', hr'⟩ := hall (L[L.length - 1]) (getElem_mem _)
      obtain ⟨hlt', heq⟩ := List.getElem?_eq_some_iff.1 hr'
      have hlast := (List.Nodup.getElem_inj_iff hL).1 heq
      have := hlt r'
      exact .inr (by omega)
  · rintro (rfl | hlen)
    · simp
    · have hnil : L ≠ [] := length_pos_iff.1 (hlen ▸ (zero_le _).trans_lt (hlt 0))
      refine ⟨fun r => by simp [hnil, hlen, hlt r], fun i hi => ?_⟩
      obtain ⟨k, hk, rfl⟩ := mem_iff_getElem.1 hi
      obtain ⟨r, rfl⟩ := hsurj k (hlen ▸ hk)
      exact ⟨r, getElem?_eq_getElem hk⟩

/-- The difference of the counters. -/
def drawsLeft (env : ℕ → XNodeEnv) (minPaymentsProto : ℤ) (l : List CXNode)
    (vecToExclude : List CTxIn) (protocolVersion : ℤ) : BitVec 64 :=
  BitVec.ofNat 64 (countEnabled env minPaymentsProto l
    (effectiveProtocol minPaymentsProto protocolVersion)).2 - BitVec.ofNat 64 vecToExclude.length

/-- How many nodes are eligible. -/
def countEligible (env : ℕ → XNodeEnv) (minPaymentsProto : ℤ) (l : List CXNode)
    (vecToExclude : List CTxIn) (protocolVersion : ℤ) : ℕ :=
  (l.mapIdx fun i xn => xn.check (env i)).countP
    (CXNode.fits (effectiveProtocol minPaymentsProto protocolVersion) vecToExclude)

/-- The positions of the eligible nodes. -/
def eligibleNodes (env : ℕ → XNodeEnv) (minPaymentsProto : ℤ) (l : List CXNode)
    (vecToExclude : List CTxIn) (protocolVersion : ℤ) : List ℕ :=
  (l.mapIdx fun i xn => xn.check (env i)).findIdxs
    (CXNode.fits (effectiveProtocol minPaymentsProto protocolVersion) vecToExclude)

theorem length_eligibleNodes :
    (eligibleNodes env minPaymentsProto l vecToExclude protocolVersion).length =
      countEligible env minPaymentsProto l vecToExclude protocolVersion :=
  length_findIdxs

theorem mem_eligibleNodes : i ∈ eligibleNodes env minPaymentsProto l vecToExclude protocolVersion ↔
    EligibleAt env minPaymentsProto l vecToExclude protocolVersion i := by
  rw [eligibleNodes, mem_findIdxs_iff_exists_getElem_pos, EligibleAt]
  constructor
  · rintro ⟨hi, hfits⟩
    rw [length_mapIdx] at hi
    rw [getElem_mapIdx] at hfits
    exact ⟨l[i], getElem?_eq_getElem hi, CXNode.fits_iff.1 hfits⟩
  · rintro ⟨xn, hget, helig⟩
    obtain ⟨hi, rfl⟩ := List.getElem?_eq_some_iff.1 hget
    refine ⟨by rwa [length_mapIdx], ?_⟩
    rw [getElem_mapIdx]
    exact CXNode.fits_iff.2 helig

/-- **The call returns the eligible node of the number drawn**, unless the difference is zero. -/
theorem findRandomNotInVec_eq :
    (findRandomNotInVec env minPaymentsProto nRand l vecToExclude protocolVersion).2 =
      if drawsLeft env minPaymentsProto l vecToExclude protocolVersion = 0 then none
      else (eligibleNodes env minPaymentsProto l vecToExclude protocolVersion)[
        (getRandInt32 nRand ((drawsLeft env minPaymentsProto l vecToExclude
          protocolVersion).setWidth 32)).toInt.toNat - 1]? := by
  have hzero : ∀ d : BitVec 64, d < 1 ↔ d = 0 := fun d => by
    rw [BitVec.lt_def, ← BitVec.toNat_inj]
    simp
  rw [findRandomNotInVec]
  simp only [hzero]
  rw [← drawsLeft]
  split_ifs with h
  · rfl
  · rw [pick_eq]
    rfl

/-- **Every eligible node can be drawn, and only these are, exactly if** there is none, or the
difference of the counters is not zero and there are as many as the greatest number drawn. -/
theorem findRandomNotInVec_iff (env : ℕ → XNodeEnv) (minPaymentsProto : ℤ) (l : List CXNode)
    (vecToExclude : List CTxIn) (protocolVersion : ℤ) :
    DrawsEligible env minPaymentsProto l vecToExclude protocolVersion ↔
      countEligible env minPaymentsProto l vecToExclude protocolVersion = 0 ∨
        drawsLeft env minPaymentsProto l vecToExclude protocolVersion ≠ 0 ∧
          countEligible env minPaymentsProto l vecToExclude protocolVersion =
            topDraw ((drawsLeft env minPaymentsProto l vecToExclude protocolVersion).setWidth
              32) := by
  obtain ⟨L, hL⟩ : ∃ L, L = eligibleNodes env minPaymentsProto l vecToExclude protocolVersion :=
    ⟨_, rfl⟩
  obtain ⟨left, hleft⟩ : ∃ d, d = drawsLeft env minPaymentsProto l vecToExclude protocolVersion :=
    ⟨_, rfl⟩
  have hfind : ∀ nRand,
      (findRandomNotInVec env minPaymentsProto nRand l vecToExclude protocolVersion).2 =
        if left = 0 then none
        else L[(getRandInt32 nRand (left.setWidth 32)).toInt.toNat - 1]? := by
    rw [hL, hleft]
    exact fun _ => findRandomNotInVec_eq
  have hmem : ∀ i, EligibleAt env minPaymentsProto l vecToExclude protocolVersion i ↔ i ∈ L := by
    rw [hL]
    exact fun _ => mem_eligibleNodes.symm
  have hexists : (∃ i, EligibleAt env minPaymentsProto l vecToExclude protocolVersion i) ↔
      L ≠ [] := by
    simp only [hmem]
    exact ⟨fun ⟨_, hi⟩ => ne_nil_of_mem hi, exists_mem_of_ne_nil L⟩
  rw [← length_eligibleNodes, ← hL, ← hleft, length_eq_zero_iff]
  by_cases hzero : left = 0
  · simp only [hzero] at hfind
    constructor
    · intro h
      have hnone := h.nonnull 0
      rw [hfind, hexists] at hnone
      simp at hnone
      exact .inl hnone
    · rintro (hnil | ⟨hne, -⟩)
      · have hnot : ∀ i, ¬EligibleAt env minPaymentsProto l vecToExclude protocolVersion i :=
          fun i hi => by simpa [hnil] using (hmem i).1 hi
        exact ⟨fun r => by simp [hfind, hnot], fun r i h => by simp [hfind] at h,
          fun i hi => absurd hi (hnot i)⟩
      · exact absurd hzero hne
  · simp only [hzero, if_false] at hfind
    have hnodup : L.Nodup := hL ▸ nodup_findIdxs
    have hdraws := draws_iff hnodup (fun r => getRandInt32_lt r (left.setWidth 32))
      fun k hk => exists_getRandInt32 hk
    rw [and_iff_right hzero, ← hdraws]
    constructor
    · intro h
      refine ⟨fun r => ?_, fun i hi => ?_⟩
      · rw [← hfind, ← hexists]
        exact h.nonnull r
      · obtain ⟨r, hr⟩ := h.drawn i ((hmem i).2 hi)
        exact ⟨r, (hfind r).symm.trans hr⟩
    · rintro ⟨hsome, hall⟩
      refine ⟨fun r => ?_, fun r i hr => ?_, fun i hi => ?_⟩
      · rw [hfind, hexists]
        exact hsome r
      · rw [hfind] at hr
        exact (hmem i).2 (mem_of_getElem? hr)
      · obtain ⟨r, hr⟩ := hall i ((hmem i).1 hi)
        exact ⟨r, (hfind r).trans hr⟩

/-- The checks run on a node in operation. -/
def runningNode : XNodeEnv := ⟨false, true, 1700000000⟩

/-- Two nodes that have just been seen. -/
def twoXNodes : List CXNode :=
  [⟨⟨⟨7, 0⟩, [], uintMax⟩, .enabled, 1700000000, 62042, 0⟩,
    ⟨⟨⟨7, 1⟩, [], uintMax⟩, .enabled, 1700000000, 62042, 0⟩]

/-- The second of two eligible nodes is never drawn. -/
theorem second_never_drawn :
    (∀ nRand, (findRandomNotInVec (fun _ => runningNode) 60036 nRand twoXNodes [] (-1)).2 =
        some 0) ∧
      ¬DrawsEligible (fun _ => runningNode) 60036 twoXNodes [] (-1) := by
  have hleft : drawsLeft (fun _ => runningNode) 60036 twoXNodes [] (-1) = 2 := by decide
  have hnodes : eligibleNodes (fun _ => runningNode) 60036 twoXNodes [] (-1) = [0, 1] := by
    decide
  have hfirst : ∀ nRand,
      (findRandomNotInVec (fun _ => runningNode) 60036 nRand twoXNodes [] (-1)).2 = some 0 := by
    intro nRand
    have hlt := getRandInt32_lt nRand ((2 : BitVec 64).setWidth 32)
    rw [show topDraw ((2 : BitVec 64).setWidth 32) = 1 by decide, lt_one_iff] at hlt
    rw [findRandomNotInVec_eq, hleft, hnodes, if_neg (by decide), hlt]
    rfl
  refine ⟨hfirst, fun h => ?_⟩
  obtain ⟨nRand, hdraw⟩ := h.drawn 1 (mem_eligibleNodes.1 (by rw [hnodes]; decide))
  rw [hfirst] at hdraw
  exact absurd (Option.some.inj hdraw) (by decide)

end Espers
