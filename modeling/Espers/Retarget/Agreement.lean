import Espers.Retarget.Rules

/-!
# Do two calls require the same target?

Two calls on the same branch, with other globals or another best block, agree on every branch
exactly when the same rule is in force in both (`sameTargets_iff_rule`): four branches tell any two
rules apart (`Rule.eq_of_probes`).

Within one process the globals come from the calls before.  The choice of the algorithm sticks: once
a call was made with a best block below `VELOCITY_TDIFF`, Terminal-Velocity is never chosen again
(`Globals.run_retarget`).

* `getNextTargetRequired_memoryless_iff` : when the calls before do not matter.
* `getNextTargetRequired_ancestors_iff` : when the best block does not matter.
-/

namespace Espers

open Exec List

/-! ### Branches that tell the rules apart -/

/-- A branch on the genesis block, from the time, the target and the type of its blocks. -/
def branchOf (N : Network) : List (ℕ × ℕ × Bool) → Branch
  | [] => [N.genesis]
  | (nTime, nBits, f) :: rest => ⟨rest.length + 1, nTime, nBits, f⟩ :: branchOf N rest

theorem branchOf_valid (N : Network) (l : List (ℕ × ℕ × Bool)) : Branch.Valid N (branchOf N l) := by
  induction l with
  | nil => exact rfl
  | cons x l ih =>
    cases l with
    | nil =>
      refine ⟨?_, ih⟩
      cases N <;> rfl
    | cons y l => exact ⟨rfl, ih⟩

/-- Blocks of the given types, the first at `nTime`, with a fixed spacing and a target for each
type. -/
def evenly (nTime spacing : ℕ) (bits : Bool → ℕ) : List Bool → List (ℕ × ℕ × Bool)
  | [] => []
  | f :: types => (nTime, bits f, f) :: evenly (nTime - spacing) spacing bits types

/-- Slow blocks of one type; slower ones, which the curve treats differently; blocks of the other
type below a block of this one, for the skew; and blocks of the other type on top, for the extended
curve. -/
def probes (f : Bool) : List (List (ℕ × ℕ × Bool)) :=
  let bits (p : Bool) := if p = f then 0x1b010000 else 0x1b020000
  [evenly 1600000000 2000 bits (replicate 30 f), evenly 1600000000 4000 bits (replicate 30 f),
   evenly 1600000000 300 bits (f :: (replicate 5 (!f) ++ replicate 24 f)),
   evenly 1700000000 310 bits (replicate 3 (!f) ++ replicate 27 f)]

/-- All rules. -/
def Rule.all : List Rule :=
  [.ppc, .dgw false, .dgw true, .dry, .plain, .curve false false, .curve false true,
   .curve true false, .curve true true]

theorem Rule.mem_all (r : Rule) : r ∈ Rule.all := by
  cases r with
  | dgw fix => cases fix <;> decide
  | curve skew low => cases skew <;> cases low <;> decide
  | _ => decide

/-- The rules that `Globals.rule` returns: off the main network the low gravity fix does not
count. -/
def Rule.Normal (N : Network) (r : Rule) : Bool := decide (r ≠ .dgw true) || decide (N = .main)

theorem Globals.rule_normal (g : Globals) (N : Network) (tip : Tip) (f : Bool) :
    (g.rule N tip f).Normal N = true := by
  unfold Globals.rule
  cases g.mode tip with
  | ppc => rfl
  | dgw => by_cases hN : N = .main <;> simp [Rule.Normal, hN]
  | vrx | default =>
    simp only [Globals.vrxRule]
    split_ifs <;> rfl

/-- The targets of the probes under a rule. -/
def Rule.signature (N : Network) (f : Bool) (r : Rule) : List (Except Stop ℕ) :=
  (probes f).map fun l => r.target N (branchOf N l) f

variable {N : Network}

/-- **Different rules have different targets on some probe.** -/
theorem Rule.eq_of_probes {f : Bool} {r r' : Rule} (h : r.Normal N = true)
    (h' : r'.Normal N = true) (heq : r.signature N f = r'.signature N f) : r = r' := by
  have hall : ∀ r ∈ Rule.all, ∀ r' ∈ Rule.all, r.Normal N = true → r'.Normal N = true →
      r.signature N f = r'.signature N f → r = r' := by
    cases N <;> cases f <;> decide +kernel
  exact hall r r.mem_all r' r'.mem_all h h' heq

/-- What a call depends on beside the branch: the globals and the best block. -/
structure Site where
  globals : Globals
  tip : Tip

/-- The rule in force. -/
def Site.rule (s : Site) (N : Network) (fProofOfStake : Bool) : Rule :=
  s.globals.rule N s.tip fProofOfStake

/-- What a call returns for a branch. -/
def Site.required (s : Site) (N : Network) (pindexLast : Branch) (fProofOfStake : Bool) :
    Except Stop ℕ :=
  answer (getNextTargetRequired N s.tip pindexLast fProofOfStake s.globals)

/-- What `AcceptBlock` says to the target of a block. -/
def Site.verdict (s : Site) (N : Network) (pindexLast : Branch) (fProofOfStake : Bool) (nBits : ℕ) :
    Except Stop Bool :=
  answer (acceptBits N s.tip pindexLast fProofOfStake nBits s.globals)

theorem Site.required_eq {s : Site} {pindexLast : Branch}
    (h : Branch.Valid N pindexLast) (f : Bool) :
    s.required N pindexLast f = (s.rule N f).target N pindexLast f :=
  getNextTargetRequired_eq h s.tip f s.globals

theorem Site.verdict_eq (s : Site) (N : Network) (pindexLast : Branch) (f : Bool) (nBits : ℕ) :
    s.verdict N pindexLast f nBits = (s.required N pindexLast f).map (nBits == ·) := by
  unfold Site.verdict Site.required acceptBits
  rw [bind_apply]
  cases getNextTargetRequired N s.tip pindexLast f s.globals <;> rfl

/-- Two calls on the same branch agree, and so does the verdict on every block, for every branch. -/
def SameTargets (N : Network) (s s' : Site) : Prop :=
  ∀ pindexLast, Branch.Valid N pindexLast → ∀ f,
    s.required N pindexLast f = s'.required N pindexLast f ∧
    ∀ nBits, s.verdict N pindexLast f nBits = s'.verdict N pindexLast f nBits

theorem sameTargets_iff_rule {s s' : Site} :
    SameTargets N s s' ↔ ∀ f, s.rule N f = s'.rule N f := by
  constructor
  · intro h f
    refine Rule.eq_of_probes (f := f) (s.globals.rule_normal N s.tip f)
      (s'.globals.rule_normal N s'.tip f) ?_
    refine map_congr_left fun l _ => ?_
    have hl := (h _ (branchOf_valid N l) f).1
    rwa [Site.required_eq (branchOf_valid N l), Site.required_eq (branchOf_valid N l)] at hl
  · intro h pindexLast hv f
    have heq : s.required N pindexLast f = s'.required N pindexLast f := by
      rw [Site.required_eq hv, Site.required_eq hv, h f]
    exact ⟨heq, fun nBits => by rw [Site.verdict_eq, Site.verdict_eq, heq]⟩

/-! ### The calls before -/

/-- The globals when the program starts. -/
def Globals.start : Globals where
  engine := .base 0 []
  curve := ⟨0, 0, 0, 0, 0, 0, 0, 0⟩
  fDryRun := false
  fCRVreset := false
  blockVelocityType := []
  bnVelocity := 0
  bnOld := 0
  bnNew := 0
  oldBN := 0
  newBN := 0
  retarget := .vrx

/-- The best block lies on a branch of the network. -/
def Tip.Valid (N : Network) (tip : Tip) : Prop :=
  Branch.Valid N tip.branch ∧ tip.nBestHeight = tip.pindexBest.nHeight

/-- A call of `GetNextTargetRequired`. -/
structure RetargetCall (N : Network) where
  tip : Tip
  pindexLast : Branch
  fProofOfStake : Bool
  tip_valid : tip.Valid N
  pindexLast_valid : Branch.Valid N pindexLast

/-- The globals after a call; an exception is caught by the message loop, a crash ends the
process. -/
def Globals.call {N : Network} (g : Globals) (c : RetargetCall N) : Option Globals :=
  match getNextTargetRequired N c.tip c.pindexLast c.fProofOfStake g with
  | .ok _ g' => some g'
  | .error (.crash _) _ => none
  | .error _ g' => some g'

/-- The globals after a list of calls. -/
def Globals.run {N : Network} : Globals → List (RetargetCall N) → Option Globals
  | g, [] => some g
  | g, c :: calls => (g.call c).bind fun g' => g'.run calls

/-- The algorithm chosen is the same. -/
def SameMode (g g' : Globals) : Prop := g'.retarget = g.retarget

instance : IsPreorder Globals SameMode where
  refl _ := rfl
  trans _ _ _ h h' := Eq.trans h' h

theorem peercoinDiff_keeps (N : Network) (pindexLast : Branch) (f : Bool) :
    Keeps SameMode (peercoinDiff N pindexLast f) := by
  unfold peercoinDiff
  split
  · exact .pure _
  · exact .pure _
  · split
    · exact .pure _
    · exact .pure _
    · refine .bind (.modify fun _ => rfl) fun _ => .ite (.throw _) ?_
      exact .bind (.modify fun _ => rfl) fun _ => .bind (.modify fun _ => rfl) fun _ =>
        .bind .get fun _ => .pure _

theorem vrxSimulateRetarget_keeps : Keeps SameMode vrxSimulateRetarget := by
  refine .bind (.modify fun _ => rfl) fun _ => .bind (.modify fun _ => rfl) fun _ =>
    .bind .get fun g => ?_
  split
  · exact .throw _
  · refine .bind (.modify fun _ => rfl) fun _ => .bind .get fun _ => .ite (.throw _) ?_
    exact .modify fun _ => rfl

theorem curveLoop_keeps (tip : Tip) (f : Bool) (n : ℕ) : Keeps SameMode (curveLoop tip f n) := by
  induction n with
  | zero => exact .throw _
  | succ n ih =>
    refine .bind .get fun g => .ite (.ite (.pure _) (.ite (.modify fun _ => rfl) ?_)) (.pure _)
    exact .bind (.modify fun _ => rfl) fun _ => .bind vrxSimulateRetarget_keeps fun _ =>
      .bind (.modify fun _ => rfl) fun _ => ih

theorem standardCurve_retarget (g : Globals) : g.standardCurve.retarget = g.retarget := by
  have hour : ∀ (g : Globals) (n : ℕ), (g.hour n).retarget = g.retarget := by
    intro g n
    unfold Globals.hour
    split_ifs <;> rfl
  unfold Globals.standardCurve
  rw [hour, hour, hour, hour]

theorem vrxCurve_keeps (tip : Tip) (pindexLast : Branch) (f : Bool) :
    Keeps SameMode (vrxCurve tip pindexLast f) := by
  refine .bind .get fun g => ?_
  split
  · refine .bind (.modify fun _ => rfl) fun _ => .ite ?_ (.modify standardCurve_retarget)
    refine .bind (.modify fun _ => rfl) fun _ => ?_
    exact .ite (.bind (.modify fun _ => rfl) fun _ => curveLoop_keeps tip f 7)
      (curveLoop_keeps tip f 7)
  · exact .throw _

theorem vrxThreadCurve_keeps (tip : Tip) (pindexLast : Branch) (f : Bool) :
    Keeps SameMode (vrxThreadCurve tip pindexLast f) := by
  have hcurve : Keeps SameMode (if tip.pindexBest.nTime > swingPatch then
      vrxCurve tip pindexLast f else pure ()) := .ite (vrxCurve_keeps tip pindexLast f) (.pure _)
  unfold vrxThreadCurve vrxBaseEngine
  refine .bind ?_ fun _ => .ite (.bind (.modify fun _ => rfl) fun _ => hcurve) hcurve
  split
  · exact .throw _
  · split
    · exact .throw _
    · exact .modify fun _ => rfl

theorem vrxRetarget_keeps (N : Network) (tip : Tip) (pindexLast : Branch) (f : Bool) :
    Keeps SameMode (vrxRetarget N tip pindexLast f) := by
  unfold vrxRetarget vrxDryRun vrxFinish
  refine .bind (.modify fun _ => rfl) fun _ => .bind ?_ fun _ => .bind .get fun _ =>
    .ite (.pure _) (.bind (vrxThreadCurve_keeps tip pindexLast f) fun _ => .bind .get fun _ =>
      .ite (.pure _) (.bind vrxSimulateRetarget_keeps fun _ => ?_))
  · split
    · exact .throw _
    · exact .modify fun _ => rfl
  · exact .bind (.modify fun _ => rfl) fun _ => .bind (.modify fun _ => rfl) fun _ =>
      .bind .get fun _ => .pure _

theorem getNextTargetRequired_retarget (N : Network) (tip : Tip) (pindexLast : Branch) (f : Bool)
    (g : Globals) :
    (finalState (getNextTargetRequired N tip pindexLast f g)).retarget = g.mode tip := by
  rw [getNextTargetRequired_mode]
  cases hm : g.mode tip with
  | ppc => exact peercoinDiff_keeps N pindexLast f _
  | dgw => exact (Keeps.lift (R := SameMode) (gravityTarget N _ pindexLast f)) _
  | vrx => exact vrxRetarget_keeps N tip pindexLast f _
  | default => exact vrxRetarget_keeps N tip pindexLast f _

theorem Globals.call_retarget {g g' : Globals} {c : RetargetCall N}
    (h : g.call c = some g') : g'.retarget = g.mode c.tip := by
  have hm := getNextTargetRequired_retarget N c.tip c.pindexLast c.fProofOfStake g
  unfold Globals.call at h
  cases hx : getNextTargetRequired N c.tip c.pindexLast c.fProofOfStake g with
  | ok n g1 =>
    rw [hx] at h hm
    cases h
    exact hm
  | error e g1 =>
    rw [hx] at h hm
    cases e <;> cases h <;> exact hm

/-- Once Terminal-Velocity has been left it is not chosen again. -/
theorem Globals.run_retarget_left {g g' : Globals} {calls : List (RetargetCall N)}
    (h : g.run calls = some g') (hg : g.retarget = .ppc ∨ g.retarget = .dgw) :
    g'.retarget = .ppc ∨ g'.retarget = .dgw := by
  induction calls generalizing g with
  | nil =>
    cases h
    exact hg
  | cons c calls ih =>
    simp only [Globals.run, Option.bind_eq_some_iff] at h
    obtain ⟨g1, hc, hr⟩ := h
    refine ih hr ?_
    rw [Globals.call_retarget hc]
    unfold Globals.mode
    split_ifs
    · exact .inl rfl
    · exact .inr rfl
    · exact hg

/-- Terminal-Velocity is still chosen exactly when no call was made with a best block below
`VELOCITY_TDIFF`. -/
theorem Globals.run_retarget {g g' : Globals} {calls : List (RetargetCall N)}
    (h : g.run calls = some g') (hg : g.retarget = .vrx) :
    (∀ c ∈ calls, velocityTdiff ≤ c.tip.pindexBest.nHeight) ∧ g'.retarget = .vrx ∨
    (∃ c ∈ calls, c.tip.pindexBest.nHeight < velocityTdiff) ∧
      (g'.retarget = .ppc ∨ g'.retarget = .dgw) := by
  induction calls generalizing g with
  | nil =>
    cases h
    exact .inl ⟨by simp, hg⟩
  | cons c calls ih =>
    simp only [Globals.run, Option.bind_eq_some_iff] at h
    obtain ⟨g1, hc, hr⟩ := h
    have hmode := Globals.call_retarget hc
    by_cases hlow : c.tip.pindexBest.nHeight < velocityTdiff
    · refine .inr ⟨⟨c, mem_cons_self, hlow⟩, Globals.run_retarget_left hr ?_⟩
      rw [hmode, Globals.mode]
      split_ifs
      · exact .inl rfl
      · exact .inr rfl
    · have hmode' : g1.retarget = .vrx := by
        have : ¬ c.tip.pindexBest.nHeight < nGravityFork := by
          unfold velocityTdiff at hlow
          unfold nGravityFork
          omega
        rw [hmode, Globals.mode, if_neg this, if_neg hlow, hg]
      rcases ih hr hmode' with ⟨hall, hv⟩ | ⟨⟨c', hc', hlow'⟩, hv⟩
      · refine .inl ⟨?_, hv⟩
        intro d hd
        rcases mem_cons.1 hd with rfl | hd
        · exact Nat.le_of_not_lt hlow
        · exact hall d hd
      · exact .inr ⟨⟨c', mem_cons_of_mem _ hc', hlow'⟩, hv⟩

theorem start_rule {tip : Tip} (h : ¬ tip.pindexBest.nHeight < velocityTdiff)
    (f : Bool) : Globals.start.rule N tip f = Globals.start.vrxRule tip f := by
  have h2 : ¬ tip.pindexBest.nHeight < nGravityFork := by
    unfold velocityTdiff at h
    unfold nGravityFork
    omega
  simp only [Globals.rule, Globals.mode, h, h2, if_false, Globals.start]

theorem vrxRule_ne_old (g : Globals) (tip : Tip) (f : Bool) :
    g.vrxRule tip f ≠ .ppc ∧ ∀ fix, g.vrxRule tip f ≠ .dgw fix := by
  unfold Globals.vrxRule
  split_ifs <;> simp

theorem mode_of_low {g : Globals} {tip : Tip} (h : tip.pindexBest.nHeight < velocityTdiff)
    (g' : Globals) : g.mode tip = g'.mode tip := by
  unfold Globals.mode
  split_ifs <;> rfl

/-- **The calls before matter.**  After any calls in the same process, a call gives what it would
give in a process just started, whatever the branch and the type, exactly when the best block is
below `VELOCITY_TDIFF`, or no call before was made with such a best block and no curve reset is left
over that the call would take for its own. -/
theorem getNextTargetRequired_memoryless_iff {N : Network} {calls : List (RetargetCall N)}
    {g : Globals} (hrun : Globals.start.run calls = some g) (tip : Tip) :
    SameTargets N ⟨g, tip⟩ ⟨.start, tip⟩ ↔ tip.pindexBest.nHeight < velocityTdiff ∨
      (∀ c ∈ calls, velocityTdiff ≤ c.tip.pindexBest.nHeight) ∧
        (resetHeight tip.nBestHeight = true ∨ swingPatch < tip.pindexBest.nTime ∨
          g.fCRVreset = false) := by
  rw [sameTargets_iff_rule]
  simp only [Site.rule]
  by_cases hlow : tip.pindexBest.nHeight < velocityTdiff
  · -- the choice does not read the globals
    refine iff_of_true (fun f => ?_) (.inl hlow)
    have hmode := mode_of_low (g := g) hlow .start
    have hold : Globals.start.mode tip = .ppc ∨ Globals.start.mode tip = .dgw := by
      unfold Globals.mode
      split_ifs
      · exact .inl rfl
      · exact .inr rfl
    unfold Globals.rule
    rw [hmode]
    rcases hold with h | h <;> rw [h]
  have h2 : ¬ tip.pindexBest.nHeight < nGravityFork := by
    unfold velocityTdiff at hlow
    unfold nGravityFork
    omega
  have hmode : g.mode tip = g.retarget := by
    simp only [Globals.mode, hlow, h2, if_false]
  rcases Globals.run_retarget hrun rfl with ⟨hall, hv⟩ | ⟨⟨c, hc, hclow⟩, hv⟩
  · have hrule : ∀ f, g.rule N tip f = g.vrxRule tip f := by
      intro f
      simp only [Globals.rule, hmode, hv]
    have hstale : (∀ f, g.vrxRule tip f = Globals.start.vrxRule tip f) ↔
        (resetHeight tip.nBestHeight = true ∨ swingPatch < tip.pindexBest.nTime ∨
          g.fCRVreset = false) := by
      unfold Globals.vrxRule
      by_cases hr : resetHeight tip.nBestHeight = true
      · simp [hr]
      · by_cases ht : tip.pindexBest.nTime > swingPatch
        · simp [ht]
        · cases hcr : g.fCRVreset <;> simp [ht, Globals.start]
    simp only [hrule, start_rule hlow, hstale, hlow, false_or]
    exact ⟨fun h => ⟨hall, h⟩, fun h => h.2⟩
  · refine iff_of_false (fun h => ?_) ?_
    · have hne := vrxRule_ne_old .start tip true
      have h := h true
      rw [start_rule hlow, Globals.rule, hmode] at h
      rcases hv with hv | hv <;> rw [hv] at h
      · exact hne.1 h.symm
      · exact hne.2 _ h.symm
    · rintro (h | ⟨h, -⟩)
      · exact hlow h
      · exact absurd (h c hc) (by omega)

/-- A best block of the main network with a block every 40 s below it. -/
def tipAt (n : ℕ) : Tip where
  pindexBest := ⟨n + 1, 1473058800 + 40 * (n + 1), 0x1c010000, false⟩
  ancestors := branchOf .main (evenly (1473058800 + 40 * (n + 1) - 40) 40 (fun _ => 0x1c010000)
    (replicate n false))
  nBestHeight := n + 1

theorem evenly_length (nTime spacing : ℕ) (bits : Bool → ℕ) (types : List Bool) :
    (evenly nTime spacing bits types).length = types.length := by
  induction types generalizing nTime with
  | nil => rfl
  | cons f types ih => rw [evenly, length_cons, ih, length_cons]

theorem tipAt_valid (n : ℕ) : (tipAt n).Valid .main := by
  refine ⟨?_, rfl⟩
  have h := branchOf_valid .main (evenly (1473058800 + 40 * (n + 1)) 40 (fun _ => 0x1c010000)
    (replicate (n + 1) false))
  rw [replicate_succ, evenly, branchOf, evenly_length, length_replicate] at h
  exact h

/-- A side branch of thirty slow proof-of-work blocks. -/
def slowBranch : Branch :=
  branchOf .main (evenly 1600000000 2000 (fun _ => 0x1b010000) (replicate 30 false))

theorem slowBranch_valid : Branch.Valid .main slowBranch := branchOf_valid _ _

/-- A call for the block after the side branch. -/
def slowCall (n : ℕ) : RetargetCall .main :=
  ⟨tipAt n, slowBranch, false, tipAt_valid n, slowBranch_valid⟩

theorem Globals.call_of_answer {g : Globals} {c : RetargetCall N} {n : ℕ}
    (h : (g.rule N c.tip c.fProofOfStake).target N c.pindexLast c.fProofOfStake = .ok n) :
    ∃ g', g.call c = some g' := by
  rw [← getNextTargetRequired_eq c.pindexLast_valid] at h
  unfold Globals.call
  cases hx : getNextTargetRequired N c.tip c.pindexLast c.fProofOfStake g with
  | ok n g' => exact ⟨g', rfl⟩
  | error e g' =>
    rw [hx] at h
    cases h

theorem slowBranch_gravity : Rule.target .main slowBranch false (.dgw true) = .ok 0x1b030000 := by
  decide

theorem slowBranch_velocity : Rule.target .main slowBranch false .plain = .ok 0x1b01ffff := by
  decide +kernel

theorem slowCall_rule (g : Globals) : g.rule .main (tipAt 667348) false = .dgw true := by
  have h1 : (tipAt 667348).pindexBest.nHeight < velocityTdiff := by decide
  have h2 : ¬ (tipAt 667348).pindexBest.nHeight < nGravityFork := by decide
  have h3 : (tipAt 667348).pindexBest.nHeight > nlowGravity := by decide
  simp [Globals.rule, Globals.mode, h1, h2, h3]

theorem startRule_plain : Globals.start.rule .main (tipAt 667349) false = .plain := by
  decide

theorem slowCall_run : ∃ g, Globals.start.run [slowCall 667348] = some g ∧ g.retarget = .dgw := by
  obtain ⟨g, hg⟩ := Globals.call_of_answer (g := .start) (c := slowCall 667348)
    (n := 0x1b030000) (by
      show Rule.target .main slowBranch false (Globals.start.rule .main (tipAt 667348) false) = _
      rw [slowCall_rule, slowBranch_gravity])
  refine ⟨g, by simp only [Globals.run, hg, Option.bind_some], ?_⟩
  rw [Globals.call_retarget hg]
  decide

theorem getNextTargetRequired_memoryless_low : ∃ g, Globals.start.run [slowCall 667348] = some g ∧
      SameTargets .main ⟨g, tipAt 667300⟩ ⟨.start, tipAt 667300⟩ := by
  obtain ⟨g, hg, -⟩ := slowCall_run
  exact ⟨g, hg, (getNextTargetRequired_memoryless_iff hg _).2 (.inl (by decide))⟩

/-- A node that has retargeted the last block under Dark Gravity Wave goes on with it; one started
at the same best block uses Terminal-Velocity. -/
theorem getNextTargetRequired_remembers :
    ¬ ∀ (N : Network) (calls : List (RetargetCall N)) (g : Globals) (tip : Tip)
      (pindexLast : Branch) (f : Bool), Globals.start.run calls = some g → tip.Valid N →
      Branch.Valid N pindexLast →
      Site.required ⟨g, tip⟩ N pindexLast f = Site.required ⟨.start, tip⟩ N pindexLast f := by
  intro h
  obtain ⟨g, hg, hret⟩ := slowCall_run
  have heq := h .main [slowCall 667348] g (tipAt 667349) slowBranch false hg (tipAt_valid _)
    slowBranch_valid
  have h1 : ¬ (tipAt 667349).pindexBest.nHeight < velocityTdiff := by decide
  have h2 : ¬ (tipAt 667349).pindexBest.nHeight < nGravityFork := by decide
  have h3 : (tipAt 667349).pindexBest.nHeight > nlowGravity := by decide
  have hrule : g.rule .main (tipAt 667349) false = .dgw true := by
    simp [Globals.rule, Globals.mode, h2, h3, hret]
  rw [Site.required_eq slowBranch_valid, Site.required_eq slowBranch_valid] at heq
  simp only [Site.rule, hrule, startRule_plain, slowBranch_velocity] at heq
  exact absurd heq (by decide)

/-! ### Two nodes -/

/-- Terminal-Velocity asks for the easiest target whatever the branch. -/
def Site.Resets (s : Site) : Prop :=
  resetHeight s.tip.nBestHeight = true ∨
    s.tip.pindexBest.nTime ≤ swingPatch ∧ s.globals.fCRVreset = true

/-- Terminal-Velocity runs with the curve. -/
def Site.Curves (s : Site) : Prop :=
  resetHeight s.tip.nBestHeight = false ∧ swingPatch < s.tip.pindexBest.nTime

/-- The best blocks and the globals of two nodes lie in the same era of the retarget. -/
def SameEra (N : Network) (s s' : Site) : Prop :=
  match s.globals.mode s.tip, s'.globals.mode s'.tip with
  | .ppc, .ppc => True
  | .dgw, .dgw => N = .main →
    (nlowGravity < s.tip.pindexBest.nHeight ↔ nlowGravity < s'.tip.pindexBest.nHeight)
  | .ppc, _ | .dgw, _ | _, .ppc | _, .dgw => False
  | _, _ =>
    (s.Resets ↔ s'.Resets) ∧ (s.Curves ↔ s'.Curves) ∧
    (s.Curves → (sysUpgrade01 < s.tip.nBestHeight ↔ sysUpgrade01 < s'.tip.nBestHeight) ∧
      ∀ f, lowDifficulty s.tip f = lowDifficulty s'.tip f)

instance (s : Site) : Decidable s.Resets := inferInstanceAs (Decidable (_ ∨ _))

instance (s : Site) : Decidable s.Curves := inferInstanceAs (Decidable (_ ∧ _))

theorem vrxRule_eq (s : Site) (f : Bool) : s.globals.vrxRule s.tip f = if s.Resets then .dry
      else if s.Curves then
        .curve (decide (sysUpgrade01 < s.tip.nBestHeight)) (lowDifficulty s.tip f)
      else .plain := by
  unfold Globals.vrxRule Site.Resets Site.Curves
  by_cases hr : resetHeight s.tip.nBestHeight = true
  · simp [hr]
  · by_cases ht : s.tip.pindexBest.nTime > swingPatch
    · have ht' : ¬ s.tip.pindexBest.nTime ≤ swingPatch := by omega
      simp [hr, ht]
    · have ht' : s.tip.pindexBest.nTime ≤ swingPatch := by omega
      by_cases hc : s.globals.fCRVreset = true
      · simp [hr, ht, ht']
      · simp [hr, hc]

theorem not_curves_of_resets {s : Site} (h : s.Resets) : ¬ s.Curves := by
  rintro ⟨hr, ht⟩
  rcases h with h | ⟨h, -⟩
  · simp [hr] at h
  · omega

theorem vrxRule_eq_iff {s s' : Site} :
    (∀ f, s.globals.vrxRule s.tip f = s'.globals.vrxRule s'.tip f) ↔
    (s.Resets ↔ s'.Resets) ∧ (s.Curves ↔ s'.Curves) ∧
    (s.Curves → (sysUpgrade01 < s.tip.nBestHeight ↔ sysUpgrade01 < s'.tip.nBestHeight) ∧
      ∀ f, lowDifficulty s.tip f = lowDifficulty s'.tip f) := by
  simp only [vrxRule_eq]
  by_cases hr : s.Resets
  · have hc := not_curves_of_resets hr
    by_cases hr' : s'.Resets
    · simp [hr, hc, not_curves_of_resets hr']
    · by_cases hc' : s'.Curves <;> simp [hr, hr', hc']
  · by_cases hr' : s'.Resets
    · by_cases hc : s.Curves <;> simp [hr, hr', hc]
    · by_cases hc : s.Curves <;> by_cases hc' : s'.Curves <;>
        simp [hr, hr', hc, hc', forall_and]

/-- **The required target depends on the best block.**  Two nodes that hold the same branch require
the same target for the block after it, whatever the branch and the type, exactly when their best
blocks and what earlier calls have left lie in the same era. -/
theorem getNextTargetRequired_ancestors_iff (N : Network) (s s' : Site) :
    SameTargets N s s' ↔ SameEra N s s' := by
  rw [sameTargets_iff_rule]
  unfold SameEra Site.rule Globals.rule
  have hold := fun f => vrxRule_ne_old s.globals s.tip f
  have hold' := fun f => vrxRule_ne_old s'.globals s'.tip f
  cases s.globals.mode s.tip with
  | ppc =>
    cases s'.globals.mode s'.tip with
    | ppc => simp
    | dgw => simp
    | vrx | default => exact iff_of_false (fun h => (hold' true).1 (h true).symm) id
  | dgw =>
    cases s'.globals.mode s'.tip with
    | ppc => simp
    | dgw => by_cases hN : N = .main <;> simp [hN]
    | vrx | default => exact iff_of_false (fun h => (hold' true).2 _ (h true).symm) id
  | vrx | default =>
    cases s'.globals.mode s'.tip with
    | ppc => exact iff_of_false (fun h => (hold true).1 (h true)) id
    | dgw => exact iff_of_false (fun h => (hold true).2 _ (h true)) id
    | vrx | default => exact vrxRule_eq_iff

/-- One block apart at `VELOCITY_TDIFF`, two nodes just started disagree on the same side branch. -/
theorem getNextTargetRequired_depends_on_tip :
    ¬ ∀ (N : Network) (g : Globals) (tip tip' : Tip) (pindexLast : Branch) (f : Bool),
      tip.Valid N → tip'.Valid N → Branch.Valid N pindexLast →
      Site.required ⟨g, tip⟩ N pindexLast f = Site.required ⟨g, tip'⟩ N pindexLast f := by
  intro h
  have heq := h .main .start (tipAt 667348) (tipAt 667349) slowBranch false (tipAt_valid _)
    (tipAt_valid _) slowBranch_valid
  rw [Site.required_eq slowBranch_valid, Site.required_eq slowBranch_valid] at heq
  simp only [Site.rule, startRule_plain, slowBranch_velocity] at heq
  exact absurd heq (by decide)

end Espers
