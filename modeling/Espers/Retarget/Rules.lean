import Espers.Retarget.Target

/-!
# What the required target depends on

Beside the branch of `pindexLast`, a call of `getNextTargetRequired` depends on the best block and
on the globals that earlier calls left behind, but only through a `Rule`: which algorithm runs, and
with which of its patches.

* `Rule.target` : the target under a rule, a function of the branch alone.
* `getNextTargetRequired_eq` : a call returns the target under `Globals.rule`, the rule in force.
-/

namespace Espers

open Exec Bool List Binary64

/-! ### Branches -/

/-- The genesis block of the network. -/
def Network.genesis : Network → Stamp
  | .main => ⟨0, 1473058800, getCompact (Network.main.limit false), false⟩
  | .testnet => ⟨0, 1473058800, getCompact (Network.testnet.limit false), false⟩
  | .regtest => ⟨0, 1473059000, getCompact (Network.regtest.limit false), false⟩

/-- The heights count the blocks down to the genesis block of the network. -/
def Branch.Valid (N : Network) : Branch → Prop
  | [] => False
  | [b] => b = N.genesis
  | b :: p :: rest => b.nHeight = p.nHeight + 1 ∧ Branch.Valid N (p :: rest)

variable {N : Network}

theorem Branch.Valid.length {b : Stamp} {rest : Branch}
    (h : Branch.Valid N (b :: rest)) : rest.length = b.nHeight := by
  induction rest generalizing b with
  | nil =>
    obtain rfl : b = N.genesis := h
    cases N <;> rfl
  | cons p rest ih =>
    obtain ⟨hb, hp⟩ := h
    rw [length_cons, ih hp, hb]

/-! ### Rules -/

/-- The algorithm in force, and its patches. -/
inductive Rule where
  /-- Peercoin. -/
  | ppc
  /-- Dark Gravity Wave, with the low gravity fix or without it. -/
  | dgw (fix : Bool)
  /-- The easiest target, whatever the branch. -/
  | dry
  /-- Terminal-Velocity before the swing patch. -/
  | plain
  /-- Terminal-Velocity with the curve; with the skew or without it, and with a best block whose
  difficulty is too low for the extended curve or not. -/
  | curve (skew low : Bool)
  deriving DecidableEq, Repr

/-- The target under Peercoin's rule. -/
def peercoinTarget (N : Network) (pindexLast : Branch) (fProofOfStake : Bool) : Except Stop ℕ :=
  let limit := N.limit fProofOfStake
  match getLastBlockIndex fProofOfStake pindexLast with
  | [] | [_] => .ok (getCompact limit)
  | prev :: below =>
    match getLastBlockIndex fProofOfStake below with
    | [] | [_] => .ok (getCompact limit)
    | prevPrev :: _ =>
      if N.targetSpacing = 0 then .error (.crash "division by zero")
      else
        let spacing : ℤ := prev.nTime - prevPrev.nTime
        let actual := if spacing < 0 then N.targetSpacing else spacing
        let n := N.targetTimespan.tdiv N.targetSpacing
        let bn := (setCompact prev.nBits * ((n - 1) * N.targetSpacing + actual + actual)).tdiv
          ((n + 1) * N.targetSpacing)
        .ok (getCompact (if bn ≤ 0 ∨ bn > limit then limit else bn))

/-- The average of the factors of the last five spacings. -/
def branchAverage : Branch → Binary64
  | b0 :: b1 :: b2 :: b3 :: b4 :: b5 :: _ =>
    let factor (b p : Stamp) : Binary64 := .quarters (roundFactor (b.nTime - p.nTime))
    let sum := ((((factor b0 b1).add (factor b1 b2)).add (factor b2 b3)).add (factor b3 b4)).add
      (factor b4 b5)
    sum.div (.ofNat 5)
  | _ => .nan

/-- The last five blocks below the branch are all of the other type. -/
def othersOnly (fProofOfStake : Bool) (pindexLast : Branch) : Bool :=
  ((pindexLast.drop 1).take 5).all (·.fProofOfStake != fProofOfStake)

/-- The average after the skew, which halves the difficulty at most. -/
def skewAverage (others : Bool) (average : Binary64) : Binary64 :=
  let a := if others then average.div (.ofNat 3) else average
  if a.lt (.quarters 2) then .quarters 2 else a

/-- The target of a simulated retarget. -/
def simulate (average : Binary64) (nBits : ℕ) : Except Stop ℤ :=
  let d := ((Binary64.ofNat 10000).mul average).toInt64
  if d = 0 then .error (.exception "CBigNum::operator/ : BN_div failed")
  else .ok ((setCompact nBits).tdiv d * 10000)

/-- The extended curve with `r` rounds left; `none` when the target is reset. -/
def curveRounds (low : Bool) (nBits difTime : ℕ) : ℕ → Binary64 → Except Stop (Option Binary64)
  | 0, a => if difTime > 21 * 60 then .ok (if low then some a else none) else .ok (some a)
  | r + 1, a =>
    if difTime > (20 - r) * 60 then
      if low then .ok (some a)
      else
        let a := a.div (.ofNat (7 - r))
        (simulate a nBits).bind fun _ => curveRounds low nBits difTime r a
    else .ok (some a)

/-- The standard curve. -/
def hourCurve (difTime : ℕ) (a : Binary64) : Binary64 :=
  [0, 1, 2, 3].foldl
    (fun a n => if difTime > (1 + n) * 60 * 60 then a.div (.ofNat 2) else a) a

/-- The average after the curve, for the block `b` with parent `prev`, and the last block `t` of the
type with parent `tprev`. -/
def threadCurve (low : Bool) (b prev t tprev : Stamp) (a : Binary64) :
    Except Stop (Option Binary64) :=
  if b.nTime > vrxV36 then
    let d := subTime b.nTime t.nTime
    let d := if b.nTime > vrxV37 then (d + subTime b.nTime prev.nTime) % 2 ^ 64 else d
    curveRounds low t.nBits d 6 a
  else .ok (some (hourCurve (subTime t.nTime tprev.nTime) a))

/-- The target for an average. -/
def averageTarget (limit : ℤ) (a : Binary64) (nBits : ℕ) : Except Stop ℕ :=
  (simulate a nBits).map fun bn => getCompact (if bn > limit then limit else bn)

/-- The target after the curve. -/
def curvedTarget (limit : ℤ) (nBits : ℕ) : Option Binary64 → Except Stop ℕ
  | none => .ok (getCompact limit)
  | some a => averageTarget limit a nBits

/-- The target under the rule of the curve. -/
def curveTarget (limit : ℤ) (skew low fProofOfStake : Bool) (pindexLast : Branch) : Except Stop ℕ :=
  match pindexLast, getLastBlockIndex fProofOfStake pindexLast with
  | b :: prev :: _, t :: tprev :: _ =>
    let a := branchAverage pindexLast
    let a := if skew then skewAverage (othersOnly fProofOfStake pindexLast) a else a
    (threadCurve low b prev t tprev a).bind (curvedTarget limit t.nBits)
  | _, _ => .error (.crash "null pointer")

/-- The target of the block after `pindexLast` under a rule. -/
def Rule.target (N : Network) (pindexLast : Branch) (fProofOfStake : Bool) : Rule → Except Stop ℕ
  | .ppc => peercoinTarget N pindexLast fProofOfStake
  | .dgw fix => gravityTarget N fix pindexLast fProofOfStake
  | .dry => .ok (getCompact (N.limit fProofOfStake))
  | .plain =>
    if (pindexLast.headD N.genesis).nHeight < scanheight then
      .ok (getCompact (N.limit fProofOfStake))
    else averageTarget (N.limit fProofOfStake) (branchAverage pindexLast)
      ((getLastBlockIndex fProofOfStake pindexLast).headD N.genesis).nBits
  | .curve skew low =>
    if (pindexLast.headD N.genesis).nHeight < scanheight then
      .ok (getCompact (N.limit fProofOfStake))
    else curveTarget (N.limit fProofOfStake) skew low fProofOfStake pindexLast

/-- The algorithm that a call chooses. -/
def Globals.mode (g : Globals) (tip : Tip) : DiffMode :=
  if tip.pindexBest.nHeight < nGravityFork then .ppc
  else if tip.pindexBest.nHeight < velocityTdiff then .dgw
  else g.retarget

/-- The rule of Terminal-Velocity in force; before the swing patch a reset that an earlier call
asked for is still in force. -/
def Globals.vrxRule (g : Globals) (tip : Tip) (fProofOfStake : Bool) : Rule :=
  if resetHeight tip.nBestHeight then .dry
  else if tip.pindexBest.nTime > swingPatch then
    .curve (decide (tip.nBestHeight > sysUpgrade01)) (lowDifficulty tip fProofOfStake)
  else if g.fCRVreset then .dry
  else .plain

/-- The rule in force; where the spacing is zero, Dark Gravity Wave fails with the fix as without
it. -/
def Globals.rule (g : Globals) (N : Network) (tip : Tip) (fProofOfStake : Bool) : Rule :=
  match g.mode tip with
  | .ppc => .ppc
  | .dgw => .dgw (decide (N = .main) && decide (tip.pindexBest.nHeight > nlowGravity))
  | _ => g.vrxRule tip fProofOfStake

/-! ### The algorithms compute the targets -/

theorem peercoinDiff_answer (N : Network) (pindexLast : Branch) (f : Bool) (g : Globals) :
    answer (peercoinDiff N pindexLast f g) = peercoinTarget N pindexLast f := by
  unfold peercoinDiff peercoinTarget
  generalize getLastBlockIndex f pindexLast = last
  obtain _ | ⟨prev, _ | ⟨p, below⟩⟩ := last
  · rfl
  · rfl
  · simp only
    generalize getLastBlockIndex f (p :: below) = last
    obtain _ | ⟨prevPrev, _ | ⟨q, below'⟩⟩ := last
    · rfl
    · rfl
    · by_cases hs : N.targetSpacing = 0
      · simp only [hs]
        rfl
      · simp only [hs]
        rfl

/-- The values that the last steps of `VRX_Retarget` read. -/
structure Primed (g : Globals) (limit : ℤ) (type : Branch) (a : Binary64) : Prop where
  bnVelocity : g.bnVelocity = limit
  blockVelocityType : g.blockVelocityType = type
  terminalFactor : g.engine.terminalFactor = .ofNat 10000
  terminalAverage : g.engine.terminalAverage = a

variable {g : Globals} {a : Binary64} {limit : ℤ} {below : Branch}

theorem vrxSimulateRetarget_spec {t : Stamp} (h : Primed g limit (t :: below) a) :
    (∃ e g', simulate a t.nBits = .error e ∧ vrxSimulateRetarget g = .error e g') ∨
    ∃ bn g', simulate a t.nBits = .ok bn ∧ vrxSimulateRetarget g = .ok () g' ∧
      Primed g' limit (t :: below) a ∧ g'.bnNew = bn ∧ g'.curve = g.curve ∧
      g'.fCRVreset = g.fCRVreset := by
  obtain ⟨hv, hb, hf, ha⟩ := h
  by_cases hd : ((Binary64.ofNat 10000).mul a).toInt64 = 0
  · refine .inl ⟨.exception "CBigNum::operator/ : BN_div failed", ?_⟩
    simp [simulate, vrxSimulateRetarget, bind_apply, hb, hf, ha, hd]
  · refine .inr ⟨(setCompact t.nBits).tdiv ((Binary64.ofNat 10000).mul a).toInt64 * 10000, ?_⟩
    simp only [simulate, vrxSimulateRetarget, bind_apply, modify_apply, get_apply, hb, hf, ha, hd,
      if_false]
    exact ⟨_, trivial, rfl, ⟨hv, rfl, rfl, rfl⟩, rfl, rfl, rfl⟩

/-- How the curve ends: with an exception, with the target reset, or with an average. -/
def Curved (limit : ℤ) (type : Branch) (res : EStateM.Result Stop Globals Unit) :
    Except Stop (Option Binary64) → Prop
  | .error e => ∃ g', res = .error e g'
  | .ok none => ∃ g', res = .ok () g' ∧ g'.bnVelocity = limit ∧ g'.fCRVreset = true
  | .ok (some a) => ∃ g', res = .ok () g' ∧ Primed g' limit type a ∧ g'.fCRVreset = false

/-- With `r` rounds left the loop computes `curveRounds`. -/
theorem curveLoop_spec {tip : Tip} {f : Bool} {t : Stamp} {r : ℕ} (hr : r ≤ 6)
    (h : Primed g limit (t :: below) a) (hreset : g.fCRVreset = false)
    (hm : g.curve.minuteRounds = 21 - r) (hc : g.curve.difCurve = 8 - r) :
    Curved limit (t :: below) (curveLoop tip f (r + 1) g)
      (curveRounds (lowDifficulty tip f) t.nBits g.curve.difTime r a) := by
  induction r generalizing a g with
  | zero =>
    by_cases hd : g.curve.difTime > 21 * 60
    · cases hlow : lowDifficulty tip f
      · simp only [curveLoop, curveRounds, bind_apply, get_apply, hm, hd, hlow]
        exact ⟨_, rfl, h.bnVelocity, rfl⟩
      · simp only [curveLoop, curveRounds, bind_apply, get_apply, hm, hd, hlow]
        exact ⟨_, rfl, h, hreset⟩
    · simp only [curveLoop, curveRounds, bind_apply, get_apply, hm, hd]
      exact ⟨_, rfl, h, hreset⟩
  | succ r ih =>
    have hm' : g.curve.minuteRounds = 20 - r := by omega
    by_cases hd : g.curve.difTime > (20 - r) * 60
    · cases hlow : lowDifficulty tip f
      · have hdrop : Primed g.drop limit (t :: below) (a.div (.ofNat (7 - r))) := by
          refine ⟨h.bnVelocity, h.blockVelocityType, h.terminalFactor, ?_⟩
          show g.engine.terminalAverage.div (.ofNat g.curve.difCurve) = _
          rw [h.terminalAverage, hc, show 8 - (r + 1) = 7 - r by omega]
        have hle : ¬ 20 - r > 5 + 15 := by omega
        rw [curveLoop, curveRounds]
        simp only [bind_apply, get_apply, hm', hd, hlow, if_true, if_false, hle, modify_apply,
          false_eq_true]
        rcases vrxSimulateRetarget_spec hdrop with ⟨e, g', hs, hx⟩ | ⟨bn, g', hs, hx,
          hp, -, hcv, hcr⟩
        · rw [hx, hs]
          exact ⟨g', rfl⟩
        · rw [hx, hs]
          have hcurve : g'.curve = g.curve := hcv
          have := ih (by omega) (g := { g' with curve := { g'.curve with
              difCurve := g'.curve.difCurve + 1, minuteRounds := g'.curve.minuteRounds + 1 } })
            ⟨hp.bnVelocity, hp.blockVelocityType, hp.terminalFactor, hp.terminalAverage⟩
            (hcr.trans hreset) (by simp only [hcurve]; omega)
              (by simp only [hcurve]; omega)
          simpa only [hlow, hcurve, Except.bind] using this
      · rw [curveLoop, curveRounds]
        simp only [bind_apply, get_apply, hm', hd, hlow]
        exact ⟨_, rfl, h, hreset⟩
    · rw [curveLoop, curveRounds]
      simp only [bind_apply, get_apply, hm', hd]
      exact ⟨_, rfl, h, hreset⟩

theorem roundFactor_range (rate : ℤ) : 2 ≤ roundFactor rate ∧ roundFactor rate ≤ 8 := by
  unfold roundFactor
  split_ifs <;> simp

/-- The factors of the last five spacings, in quarters, summed up. -/
def quarterSum : Branch → ℕ
  | b0 :: b1 :: b2 :: b3 :: b4 :: b5 :: _ =>
    roundFactor (b0.nTime - b1.nTime) + roundFactor (b1.nTime - b2.nTime) +
      roundFactor (b2.nTime - b3.nTime) + roundFactor (b3.nTime - b4.nTime) +
      roundFactor (b4.nTime - b5.nTime)
  | _ => 0

section

variable {b0 b1 b2 b3 b4 b5 : Stamp} {rest l : Branch}
  (hl : l = b0 :: b1 :: b2 :: b3 :: b4 :: b5 :: rest)
include hl

theorem quarterSum_range : 10 ≤ quarterSum l ∧ quarterSum l ≤ 40 := by
  have r1 := roundFactor_range (b0.nTime - b1.nTime)
  have r2 := roundFactor_range (b1.nTime - b2.nTime)
  have r3 := roundFactor_range (b2.nTime - b3.nTime)
  have r4 := roundFactor_range (b3.nTime - b4.nTime)
  have r5 := roundFactor_range (b4.nTime - b5.nTime)
  simp only [hl, quarterSum]
  omega

theorem branchAverage_eq : branchAverage l = (quarters (quarterSum l)).div (.ofNat 5) := by
  have r1 := roundFactor_range (b0.nTime - b1.nTime)
  have r2 := roundFactor_range (b1.nTime - b2.nTime)
  have r3 := roundFactor_range (b2.nTime - b3.nTime)
  have r4 := roundFactor_range (b3.nTime - b4.nTime)
  have r5 := roundFactor_range (b4.nTime - b5.nTime)
  simp only [hl, branchAverage, quarterSum]
  rw [quarters_add (by omega) (by omega), quarters_add (by omega) (by omega),
    quarters_add (by omega) (by omega), quarters_add (by omega) (by omega)]

theorem branchAverage_not_lt : (branchAverage l).lt (.quarters 2) = false := by
  obtain ⟨h10, h40⟩ := quarterSum_range hl
  rw [branchAverage_eq hl]
  exact fifth_not_lt_half h10 h40

end

/-- The counts of the two types as the skew reads them: it applies only when the blocks below are
all of the other type, and then only if it is they that were counted. -/
def SkewsLike (e : Engine) (f : Bool) (others : Bool) : Prop :=
  (e.prevPoW < e.prevPoS ∧ f = false ∧ e.prevPoS - e.prevPoW > 3 ∨
    e.prevPoW > e.prevPoS ∧ f = true ∧ e.prevPoW - e.prevPoS > 3) ↔ others = true

theorem Engine.skew_average {e : Engine} {f others : Bool} (h : SkewsLike e f others) :
    (e.skew f).terminalAverage = skewAverage others e.terminalAverage := by
  unfold SkewsLike at h
  unfold Engine.skew skewAverage
  cases others <;> cases f <;> simp only [reduceCtorEq] at h ⊢ <;>
    split_ifs <;> grind

theorem scanBlocks_six (bestTime : ℕ) (f : Bool) (b0 b1 b2 b3 b4 b5 : Stamp) (rest : Branch) :
    ∃ e, scanBlocks bestTime f 5 (.base b0.nTime (b0 :: b1 :: b2 :: b3 :: b4 :: b5 :: rest)) =
        some e ∧
      e.terminalFactor = .ofNat 10000 ∧
      e.average.terminalAverage = branchAverage (b0 :: b1 :: b2 :: b3 :: b4 :: b5 :: rest) ∧
      SkewsLike e.average f (decide (bestTime > swingPatch) &&
        othersOnly f (b0 :: b1 :: b2 :: b3 :: b4 :: b5 :: rest)) := by
  simp only [scanBlocks, Engine.base, Engine.scan]
  refine ⟨_, rfl, rfl, ?_, ?_⟩
  · simp [Engine.average, branchAverage]
  · rcases Nat.lt_trichotomy bestTime swingPatch with ht | ht | ht
    · have ht' : ¬ bestTime > swingPatch := by omega
      cases f <;> simp [SkewsLike, Engine.average, countedType, ht']
    · have ht' : ¬ bestTime > swingPatch := by omega
      have ht'' : ¬ bestTime < swingPatch := by omega
      simp [SkewsLike, Engine.average, countedType, ht', ht'']
    · have ht' : ¬ bestTime < swingPatch := by omega
      simp only [SkewsLike, Engine.average, countedType, ht, ht', othersOnly,
        drop_succ_cons, drop_zero, take_succ_cons, take_zero, all_cons]
      -- what is left is about the types of the five blocks and the one asked for
      generalize b1.fProofOfStake = p1, b2.fProofOfStake = p2, b3.fProofOfStake = p3,
        b4.fProofOfStake = p4, b5.fProofOfStake = p5
      revert f p1 p2 p3 p4 p5
      decide

/-- The state of the standard curve: one hour and a divisor of two. -/
structure OnHours (g : Globals) (difTime : ℕ) : Prop where
  difTime : g.curve.difTime = difTime
  hourRounds : g.curve.hourRounds = 1
  difCurve : g.curve.difCurve = 2
  fCRVreset : g.fCRVreset = false

theorem Globals.hour_spec {d : ℕ} {type : Branch}
    (n : ℕ) (h : Primed g limit type a ∧ OnHours g d) :
    Primed (g.hour n) limit type (if d > (1 + n) * 60 * 60 then a.div (.ofNat 2) else a) ∧
      OnHours (g.hour n) d := by
  obtain ⟨hp, hd, hh, hc, hr⟩ := h
  unfold Globals.hour
  rw [hd, hh]
  split_ifs with hlt
  · refine ⟨⟨hp.bnVelocity, hp.blockVelocityType, hp.terminalFactor, ?_⟩, hd, hh, hc, hr⟩
    show g.engine.terminalAverage.div (.ofNat g.curve.difCurve) = _
    rw [hp.terminalAverage, hc]
  · exact ⟨hp, hd, hh, hc, hr⟩

theorem Globals.standardCurve_spec {d : ℕ} {type : Branch}
    (h : Primed g limit type a) (hh : OnHours g d) :
    Primed g.standardCurve limit type (hourCurve d a) ∧ OnHours g.standardCurve d := by
  exact Globals.hour_spec 3 (Globals.hour_spec 2 (Globals.hour_spec 1
    (Globals.hour_spec 0 ⟨h, hh⟩)))

/-- The curve computes `threadCurve`. -/
theorem vrxCurve_spec (tip : Tip) (f : Bool) (b prev : Stamp) (rest : Branch) {t tprev : Stamp}
    (h : Primed g limit (t :: tprev :: below) a) :
    Curved limit (t :: tprev :: below) (vrxCurve tip (b :: prev :: rest) f g)
      (threadCurve (lowDifficulty tip f) b prev t tprev a) := by
  obtain ⟨hv, hb, hf, ha⟩ := h
  unfold vrxCurve threadCurve
  simp only [bind_apply, get_apply, hb, modify_apply]
  by_cases h36 : b.nTime > vrxV36
  · by_cases h37 : b.nTime > vrxV37
    · simp only [h36, h37]
      exact curveLoop_spec (r := 6) (by omega) ⟨hv, rfl, hf, ha⟩ rfl rfl rfl
    · simp only [h36, h37]
      exact curveLoop_spec (r := 6) (by omega) ⟨hv, rfl, hf, ha⟩ rfl rfl rfl
  · simp only [h36]
    obtain ⟨hp, hh⟩ := Globals.standardCurve_spec (g := { g with
        curve := ⟨b.nTime, t.nTime, tprev.nTime, prev.nTime, subTime t.nTime tprev.nTime, 1, 15, 2⟩
        fCRVreset := false
        blockVelocityType := t :: tprev :: below }) ⟨hv, rfl, hf, ha⟩ ⟨rfl, rfl, rfl, rfl⟩
    exact ⟨_, rfl, hp, hh.fCRVreset⟩

theorem Branch.Valid.exists_six {b0 : Stamp} {rest : Branch}
    (h : Branch.Valid N (b0 :: rest)) (hh : ¬ b0.nHeight < scanheight) :
    ∃ b1 b2 b3 b4 b5 below, rest = b1 :: b2 :: b3 :: b4 :: b5 :: below := by
  have hl := h.length
  unfold scanheight at hh
  obtain _ | ⟨b1, _ | ⟨b2, _ | ⟨b3, _ | ⟨b4, _ | ⟨b5, below⟩⟩⟩⟩⟩ := rest <;>
    simp only [length_nil, length_cons] at hl
  · omega
  · omega
  · omega
  · omega
  · omega
  · exact ⟨b1, b2, b3, b4, b5, below, rfl⟩

theorem Engine.skew_factor (e : Engine) (f : Bool) :
    (e.skew f).terminalFactor = e.terminalFactor := by
  unfold Engine.skew
  simp only
  split_ifs <;> rfl

/-- The average that the curve starts from. -/
def startAverage (tip : Tip) (f : Bool) (pindexLast : Branch) : Binary64 :=
  if tip.nBestHeight > sysUpgrade01 then
    skewAverage (decide (tip.pindexBest.nTime > swingPatch) && othersOnly f pindexLast)
      (branchAverage pindexLast)
  else branchAverage pindexLast

/-- Up to the curve, `vrxThreadCurve` computes the average. -/
theorem vrxThreadCurve_eq (tip : Tip) (f : Bool) {b : Stamp} {rest type : Branch}
    (hpl : Branch.Valid N (b :: rest)) (hh : ¬ b.nHeight < scanheight)
    (hv : g.bnVelocity = limit) (hb : g.blockVelocityType = type) :
    ∃ g', Primed g' limit type (startAverage tip f (b :: rest)) ∧ g'.fCRVreset = g.fCRVreset ∧
      vrxThreadCurve tip (b :: rest) f g =
        if tip.pindexBest.nTime > swingPatch then vrxCurve tip (b :: rest) f g' else .ok () g' := by
  obtain ⟨b1, b2, b3, b4, b5, below, rfl⟩ := hpl.exists_six hh
  obtain ⟨e, he, hf, ha, hs⟩ :=
    scanBlocks_six tip.pindexBest.nTime f b b1 b2 b3 b4 b5 below
  have hbase : vrxBaseEngine tip (b :: b1 :: b2 :: b3 :: b4 :: b5 :: below) f g =
      .ok () { g with engine := e.average } := by
    unfold vrxBaseEngine
    simp only [scanheight, he]
    rfl
  unfold vrxThreadCurve startAverage
  rw [bind_of_ok hbase]
  by_cases hsk : tip.nBestHeight > sysUpgrade01
  · refine ⟨{ g with engine := e.average.skew f }, ⟨hv, hb, ?_, ?_⟩, rfl, ?_⟩
    · show (e.average.skew f).terminalFactor = _
      rw [Engine.skew_factor]
      exact hf
    · show (e.average.skew f).terminalAverage = _
      rw [if_pos hsk, Engine.skew_average hs, ha]
    · rw [if_pos hsk, bind_apply, modify_apply]
      split_ifs <;> rfl
  · refine ⟨{ g with engine := e.average }, ⟨hv, hb, hf, ?_⟩, rfl, ?_⟩
    · rw [if_neg hsk]
      exact ha
    · rw [if_neg hsk]
      split_ifs <;> rfl

theorem vrxFinish_answer {t : Stamp}
    (h : Primed g limit (t :: below) a) (hr : g.fCRVreset = false) :
    answer (vrxFinish g) = averageTarget limit a t.nBits := by
  simp only [vrxFinish, bind_apply, get_apply, hr, false_eq_true, if_false, averageTarget]
  rcases vrxSimulateRetarget_spec h with ⟨e, g', hs, hx⟩ | ⟨bn, g', hs, hx, hp, hbn, -, -⟩
  · rw [hs, hx]
    rfl
  · rw [hs, hx]
    simp only [modify_apply, pure_apply, answer_ok, Except.map, hp.bnVelocity, hbn]

theorem vrxFinish_reset (hr : g.fCRVreset = true) :
    answer (vrxFinish g) = .ok (getCompact g.bnVelocity) := by
  simp only [vrxFinish, bind_apply, get_apply, hr, if_true, pure_apply, answer_ok]

theorem getLastBlockIndex_cons (f : Bool) (b : Stamp) (rest : Branch) :
    ∃ t below, getLastBlockIndex f (b :: rest) = t :: below := by
  induction rest generalizing b with
  | nil => exact ⟨b, [], rfl⟩
  | cons p rest ih =>
    rw [getLastBlockIndex]
    split_ifs
    · exact ih p
    · exact ⟨b, p :: rest, rfl⟩

/-- The curve and what follows it. -/
theorem vrxCurve_answer (tip : Tip) (f : Bool) (b prev : Stamp) (rest : Branch) {t tprev : Stamp}
    (h : Primed g limit (t :: tprev :: below) a) :
    answer ((vrxCurve tip (b :: prev :: rest) f >>= fun _ => vrxFinish) g) =
    (threadCurve (lowDifficulty tip f) b prev t tprev a).bind (curvedTarget limit t.nBits) := by
  have hcurved := vrxCurve_spec tip f b prev rest h
  rw [bind_apply]
  cases hc : threadCurve (lowDifficulty tip f) b prev t tprev a with
  | error e =>
    rw [hc] at hcurved
    obtain ⟨g', hx⟩ := hcurved
    rw [hx]
    rfl
  | ok o =>
    rw [hc] at hcurved
    cases o with
    | none =>
      obtain ⟨g', hx, hlim, hreset⟩ := hcurved
      rw [hx]
      simp only [Except.bind, curvedTarget, vrxFinish_reset hreset, hlim]
    | some a =>
      obtain ⟨g', hx, hprimed, hreset⟩ := hcurved
      rw [hx]
      simp only [Except.bind, curvedTarget, vrxFinish_answer hprimed hreset]

theorem vrxRetarget_wet (N : Network) {tip : Tip} (f : Bool) {b : Stamp} (rest : Branch)
    (hreset : resetHeight tip.nBestHeight = false) (hh : ¬ b.nHeight < scanheight) (g : Globals) :
    ∃ g', g'.bnVelocity = N.limit f ∧ g'.blockVelocityType = getLastBlockIndex f (b :: rest) ∧
      g'.fCRVreset = g.fCRVreset ∧
      vrxRetarget N tip (b :: rest) f g =
      (vrxThreadCurve tip (b :: rest) f >>= fun _ => vrxFinish) g' := by
  refine ⟨{ g with
    bnVelocity := N.limit f
    blockVelocityType := getLastBlockIndex f (b :: rest)
    fDryRun := false }, rfl, rfl, rfl, ?_⟩
  simp only [vrxRetarget, bind_apply, modify_apply, vrxDryRun, get_apply, hh, hreset, decide_false,
    Bool.or_false, Bool.false_eq_true, if_false]

theorem vrxRetarget_answer {pindexLast : Branch} (h : Branch.Valid N pindexLast)
    (tip : Tip) (f : Bool) (g : Globals) :
    answer (vrxRetarget N tip pindexLast f g) = (g.vrxRule tip f).target N pindexLast f := by
  obtain _ | ⟨b, rest⟩ := pindexLast
  · exact h.elim
  by_cases hreset : resetHeight tip.nBestHeight = true
  · simp [vrxRetarget, bind_apply, vrxDryRun, Globals.vrxRule, hreset, Rule.target]
  by_cases hh : b.nHeight < scanheight
  · simp only [vrxRetarget, bind_apply, vrxDryRun, hh, decide_true, Bool.true_or, Globals.vrxRule]
    split_ifs <;> simp [Rule.target, hh]
  obtain ⟨g1, hv, hb, hr, heq⟩ := vrxRetarget_wet N f rest
    (Bool.not_eq_true _ ▸ hreset) hh g
  obtain ⟨g2, hp, hr', hthread⟩ := vrxThreadCurve_eq tip f h hh hv hb
  obtain ⟨t, below, ht⟩ := getLastBlockIndex_cons f b rest
  rw [ht] at hp
  unfold Globals.vrxRule
  rw [heq, if_neg hreset]
  by_cases hswing : tip.pindexBest.nTime > swingPatch
  · rw [if_pos hswing] at hthread ⊢
    rw [bind_apply, hthread, ← bind_apply]
    have hstart : startAverage tip f (b :: rest) = if decide (tip.nBestHeight > sysUpgrade01) then
        skewAverage (othersOnly f (b :: rest)) (branchAverage (b :: rest))
        else branchAverage (b :: rest) := by
      simp only [startAverage, hswing, decide_true, Bool.true_and, decide_eq_true_eq]
    have htarget : Rule.target N (b :: rest) f (.curve (decide (tip.nBestHeight > sysUpgrade01))
        (lowDifficulty tip f)) = curveTarget (N.limit f) (decide (tip.nBestHeight > sysUpgrade01))
        (lowDifficulty tip f) f (b :: rest) := by
      simp only [Rule.target, List.headD_cons, hh, if_false]
    obtain ⟨prev, _, _, _, _, _, rfl⟩ := h.exists_six hh
    rw [htarget]
    unfold curveTarget
    simp only [ht, ← hstart]
    cases below with
    | nil =>
      -- no block of the type: the genesis block has no parent
      simp only [vrxCurve, bind_apply, get_apply, hp.blockVelocityType]
      rfl
    | cons tprev below => exact vrxCurve_answer tip f b prev _ hp
  · rw [if_neg hswing] at hthread ⊢
    rw [bind_of_ok hthread]
    have hstart : startAverage tip f (b :: rest) = branchAverage (b :: rest) := by
      obtain ⟨_, _, _, _, _, _, rfl⟩ := h.exists_six hh
      simp only [startAverage, hswing, decide_false, Bool.false_and, skewAverage,
        Bool.false_eq_true, if_false, branchAverage_not_lt rfl, ite_self]
    rw [hstart] at hp
    cases hstale : g.fCRVreset with
    | true =>
      simp only [if_true, Rule.target]
      rw [vrxFinish_reset (by rw [hr', hr, hstale]), hp.bnVelocity]
    | false =>
      simp only [Rule.target, List.headD_cons, hh, ht]
      exact vrxFinish_answer hp (by rw [hr', hr, hstale])

theorem gravityTarget_fix (hN : N ≠ .main) (fix : Bool) (pindexLast : Branch)
    (f : Bool) : gravityTarget N fix pindexLast f = gravityTarget N false pindexLast f := by
  have hs : N.targetSpacing = 0 := by cases N <;> first | rfl | exact absurd rfl hN
  unfold gravityTarget
  cases pindexLast with
  | nil => rfl
  | cons b rest => simp only [hs, mul_zero, if_true]

theorem getNextTargetRequired_mode (N : Network) (tip : Tip) (pindexLast : Branch) (f : Bool)
    (g : Globals) : getNextTargetRequired N tip pindexLast f g = (match g.mode tip with
      | .dgw => darkGravityWave N tip pindexLast f
      | .ppc => peercoinDiff N pindexLast f
      | _ => vrxRetarget N tip pindexLast f) { g with retarget := g.mode tip } := by
  unfold getNextTargetRequired Globals.mode
  by_cases h1 : tip.pindexBest.nHeight < velocityTdiff
  · by_cases h2 : tip.pindexBest.nHeight < nGravityFork
    · simp only [h1, h2, if_true, bind_apply, modify_apply, get_apply]
    · simp only [h1, h2, if_true, if_false, bind_apply, modify_apply, get_apply]
  · have h2 : ¬ tip.pindexBest.nHeight < nGravityFork := by
      unfold velocityTdiff at h1
      unfold nGravityFork
      omega
    simp only [h1, h2]
    rfl

/-- **A call returns the target under the rule in force**, whatever else the globals hold. -/
theorem getNextTargetRequired_eq {pindexLast : Branch}
    (h : Branch.Valid N pindexLast) (tip : Tip) (f : Bool) (g : Globals) :
    answer (getNextTargetRequired N tip pindexLast f g) =
      (g.rule N tip f).target N pindexLast f := by
  rw [getNextTargetRequired_mode]
  unfold Globals.rule
  cases hm : g.mode tip with
  | ppc => exact peercoinDiff_answer N pindexLast f _
  | dgw =>
    simp only [darkGravityWave, Rule.target]
    by_cases hN : N = .main
    · simp only [hN, decide_true, Bool.true_and]
      cases gravityTarget Network.main (decide (tip.pindexBest.nHeight > nlowGravity))
        pindexLast f <;> rfl
    · rw [gravityTarget_fix hN]
      simp only [hN, decide_false, Bool.false_and]
      cases gravityTarget N false pindexLast f <;> rfl
  | vrx => exact vrxRetarget_answer h tip f _
  | default => exact vrxRetarget_answer h tip f _

end Espers
