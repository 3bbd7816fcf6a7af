import Espers.Core.Block
import Espers.Lib.Binary64

/-!
# The next required target

`blockparams.cpp`: `getNextTargetRequired` chooses one of three algorithms by the height of the best
block, `peercoinDiff`, `darkGravityWave` or `vrxRetarget`, and asks it for the compact target of the
block after `pindexLast`.

The choice and the intermediate values of the third algorithm are globals of the source that keep
their values between calls.  They are the state `Globals` here, and a function of the source that
works on them is a `Retarget α`.

A `CBlockIndex*` is read down its `pprev` pointers only, so it is the list of what the functions
read of the entries from it to the genesis block; the null pointer is the empty list.
-/

namespace Espers

open Exec

/-- `CBigNum::GetCompact`: the size in bytes, with room for a sign bit, and the three highest
bytes. -/
def getCompact (bn : ℤ) : ℕ :=
  let m := bn.natAbs
  let nSize := if m = 0 then 0 else (m.log2 + 1) / 8 + 1
  let mantissa := if nSize ≤ 3 then m * 256 ^ (3 - nSize) else m / 256 ^ (nSize - 3)
  (nSize * 2 ^ 24) % 2 ^ 32 + mantissa + if bn < 0 then 2 ^ 23 else 0

/-! ### Block index entries -/

/-- What the retarget functions read of an entry of the block index. -/
structure Stamp where
  nHeight : ℕ
  nTime : ℕ
  nBits : ℕ
  fProofOfStake : Bool
  deriving DecidableEq, Repr, Inhabited

/-- An entry with the entries below it. -/
abbrev Branch := List Stamp

/-- `GetLastBlockIndex`: the last block of the type, the genesis block when there is none. -/
def getLastBlockIndex (fProofOfStake : Bool) : Branch → Branch
  | [] => []
  | [b] => [b]
  | b :: p :: rest =>
    if b.fProofOfStake ≠ fProofOfStake then getLastBlockIndex fProofOfStake (p :: rest)
    else b :: p :: rest

/-- The best block: `pindexBest` with its ancestors, and `nBestHeight`. -/
structure Tip where
  pindexBest : Stamp
  ancestors : Branch
  nBestHeight : ℤ

/-- `pindexBest`, as a pointer. -/
def Tip.branch (tip : Tip) : Branch := tip.pindexBest :: tip.ancestors

/-- The networks. -/
inductive Network where
  | main
  | testnet
  | regtest
  deriving DecidableEq, Repr

namespace Network

/-- `Params().ProofOfStakeLimit()` or `Params().ProofOfWorkLimit()`. -/
def limit : Network → Bool → ℤ
  | .main, _ => 2 ^ 236 - 1
  | .testnet, _ => 2 ^ 240 - 1
  | .regtest, fProofOfStake => if fProofOfStake then 2 ^ 240 - 1 else 2 ^ 255 - 1

/-- `Params().TargetSpacing()`; the parameters are built before the best height is known. -/
def targetSpacing : Network → ℤ
  | .main => 40
  | .testnet | .regtest => 0

/-- `Params().TargetTimespan()`. -/
def targetTimespan (_ : Network) : ℤ := 400

end Network

def nGravityFork : ℕ := 615000
def nlowGravity : ℕ := 642000
def velocityTdiff : ℕ := 667350
def swingPatch : ℕ := 1509537600
def vrxV36 : ℕ := 1696576027
def vrxV37 : ℕ := 1723506989

/-- `DiffMode`. -/
inductive DiffMode where
  | default
  | ppc
  | dgw
  | vrx
  deriving DecidableEq, Repr

/-! ### Globals -/

/-- The globals that `VRX_BaseEngine` sets, all of them, before it reads any.  `VLF1` to `VLF5` and
`VLrate1` to `VLrate5` are numbered like the rounds that set them. -/
structure Engine where
  vlf : ℕ → Binary64
  vlfTmp : Binary64
  terminalAverage : Binary64
  terminalFactor : Binary64
  vlRate : ℕ → ℤ
  vlrTemp : ℤ
  difficultyfactor : ℤ
  scanblocks : ℕ
  scantime1 : ℤ
  scantime2 : ℤ
  prevPoW : ℕ
  prevPoS : ℕ
  pindexPrev : Branch

/-- The times and the counters of the curve. -/
structure Curve where
  blkTime : ℕ
  typeTime : ℕ
  prvTime : ℕ
  prvTime2 : ℕ
  difTime : ℕ
  hourRounds : ℕ
  minuteRounds : ℕ
  difCurve : ℕ

/-- The globals of the retarget. -/
structure Globals where
  engine : Engine
  curve : Curve
  fDryRun : Bool
  fCRVreset : Bool
  blockVelocityType : Branch
  bnVelocity : ℤ
  bnOld : ℤ
  bnNew : ℤ
  oldBN : ℤ
  newBN : ℤ
  retarget : DiffMode

/-- A function that works on the globals. -/
abbrev Retarget := EStateM Stop Globals

/-- A null pointer is followed. -/
def nullPointer {α : Type} : Retarget α := throw (.crash "null pointer")

/-- `PeercoinDiff`. -/
def peercoinDiff (N : Network) (pindexLast : Branch) (fProofOfStake : Bool) : Retarget ℕ :=
  let bnTargetLimit := N.limit fProofOfStake
  match getLastBlockIndex fProofOfStake pindexLast with
  | [] | [_] => pure (getCompact bnTargetLimit)
  | prev :: below =>
    match getLastBlockIndex fProofOfStake below with
    | [] | [_] => pure (getCompact bnTargetLimit)
    | prevPrev :: _ => do
      let spacing : ℤ := prev.nTime - prevPrev.nTime
      let nActualSpacing := if spacing < 0 then N.targetSpacing else spacing
      modify fun g => { g with bnNew := setCompact prev.nBits }
      if N.targetSpacing = 0 then throw (.crash "division by zero")
      else do
        let nInterval := N.targetTimespan.tdiv N.targetSpacing
        modify fun g => { g with
          bnNew := (g.bnNew * ((nInterval - 1) * N.targetSpacing + nActualSpacing + nActualSpacing)).tdiv
            ((nInterval + 1) * N.targetSpacing) }
        modify fun g => { g with
          bnNew := if g.bnNew ≤ 0 ∨ g.bnNew > bnTargetLimit then bnTargetLimit else g.bnNew }
        let g ← get
        pure (getCompact g.bnNew)

/-! ### Dark Gravity Wave -/

/-- The local variables of the loop. -/
structure Wave where
  nActualTimespan : ℤ
  lastBlockTime : ℤ
  countBlocks : ℕ
  pastDifficultyAverage : ℤ

/-- One pass of the loop, up to the move to the next block; the average of the previous pass is the
one of this pass until it is set again. -/
def Wave.read (v : Wave) (b : Stamp) : Wave :=
  let countBlocks := v.countBlocks + 1
  { countBlocks
    pastDifficultyAverage :=
      if countBlocks ≤ 7 then
        if countBlocks = 1 then setCompact b.nBits
        else (v.pastDifficultyAverage * countBlocks + setCompact b.nBits).tdiv (countBlocks + 1)
      else v.pastDifficultyAverage
    nActualTimespan :=
      if v.lastBlockTime > 0 then v.nActualTimespan + (v.lastBlockTime - b.nTime)
      else v.nActualTimespan
    lastBlockTime := b.nTime }

/-- The loop, for at most as many blocks as given; with the low gravity fix it reads the blocks of
one type only. -/
def waveLoop (fix fProofOfStake : Bool) : ℕ → Branch → Wave → Wave
  | 0, _, v => v
  | _ + 1, [], v => v
  | n + 1, b :: below, v =>
    if b.nHeight = 0 then v
    else if fix then waveLoop fix fProofOfStake n (getLastBlockIndex fProofOfStake below) (v.read b)
    else waveLoop fix fProofOfStake n below (v.read b)

/-- `DarkGravityWave`, with the low gravity fix or without it. -/
def gravityTarget (N : Network) (fix : Bool) (pindexLast : Branch) (fProofOfStake : Bool) :
    Except Stop ℕ :=
  let nProofOfWorkLimit := N.limit fProofOfStake
  match pindexLast with
  | [] => .ok (getCompact nProofOfWorkLimit)
  | blockLastSolved :: _ =>
    if blockLastSolved.nHeight < 24 then .ok (getCompact nProofOfWorkLimit)
    else
      let blockReading := if fix then getLastBlockIndex fProofOfStake pindexLast else pindexLast
      let v := waveLoop fix fProofOfStake 24 blockReading ⟨0, 0, 0, 0⟩
      let nTargetTimespan := v.countBlocks * N.targetSpacing
      let t := if v.nActualTimespan < nTargetTimespan.tdiv 3 then nTargetTimespan.tdiv 3
        else v.nActualTimespan
      let nActualTimespan := if t > nTargetTimespan * 3 then nTargetTimespan * 3 else t
      if nTargetTimespan = 0 then .error (.exception "CBigNum::operator/= : BN_div failed")
      else
        let bnNew := (v.pastDifficultyAverage * nActualTimespan).tdiv nTargetTimespan
        .ok (getCompact (if bnNew > nProofOfWorkLimit then nProofOfWorkLimit else bnNew))

/-- `DarkGravityWave`; its `bnNew` is a local variable that hides the global. -/
def darkGravityWave (N : Network) (tip : Tip) (pindexLast : Branch) (fProofOfStake : Bool) :
    Retarget ℕ :=
  lift (gravityTarget N (decide (tip.pindexBest.nHeight > nlowGravity)) pindexLast fProofOfStake)

/-! ### Terminal-Velocity-RateX -/

def scanheight : ℕ := 6

/-- The base values. -/
def Engine.base (scantime2 : ℤ) (pindexLast : Branch) : Engine where
  vlf _ := .fin 0
  vlfTmp := .fin 0
  terminalAverage := .fin 0
  terminalFactor := Binary64.ofNat 10000
  vlRate _ := 0
  vlrTemp := 0
  difficultyfactor := 0
  scanblocks := 1
  scantime1 := 0
  scantime2 := scantime2
  prevPoW := 0
  prevPoS := 0
  pindexPrev := pindexLast

/-- The factor for a spacing, in quarters: the desired spacing is 300 s, at most 450 s. -/
def roundFactor (vlrTemp : ℤ) : ℕ :=
  if vlrTemp ≥ 300 then
    if vlrTemp > 450 then if vlrTemp > 1350 then 2 else 3 else 4
  else if vlrTemp < 240 then if vlrTemp < 220 then 8 else 6 else 5

/-- The type that a round counts: the type asked for before the swing patch, the one of the block
after it, and none at the very second of it. -/
def countedType (bestTime : ℕ) (fProofOfStake : Bool) (p : Stamp) : Option Bool :=
  if bestTime < swingPatch then some fProofOfStake
  else if bestTime > swingPatch then some p.fProofOfStake
  else none

/-- A round of the loop, which moves to the block `p`. -/
def Engine.scan (e : Engine) (bestTime : ℕ) (fProofOfStake : Bool) (p : Stamp) (below : Branch) :
    Engine :=
  let rate := e.scantime2 - p.nTime
  let factor := Binary64.quarters (roundFactor rate)
  let counted := countedType bestTime fProofOfStake p
  { e with
    scantime1 := e.scantime2
    pindexPrev := p :: below
    scantime2 := p.nTime
    vlRate := Function.update e.vlRate e.scanblocks rate
    vlrTemp := rate
    vlfTmp := factor
    vlf := Function.update e.vlf e.scanblocks factor
    prevPoS := if counted = some true then e.prevPoS + 1 else e.prevPoS
    prevPoW := if counted = some false then e.prevPoW + 1 else e.prevPoW
    scanblocks := e.scanblocks + 1 }

/-- The loop of `VRX_BaseEngine`, for the given number of rounds; `none` when a null pointer is
followed. -/
def scanBlocks (bestTime : ℕ) (fProofOfStake : Bool) : ℕ → Engine → Option Engine
  | 0, e => some e
  | n + 1, e =>
    match e.pindexPrev with
    | _ :: p :: below => scanBlocks bestTime fProofOfStake n (e.scan bestTime fProofOfStake p below)
    | _ => none

/-- The final mathematics of `VRX_BaseEngine`. -/
def Engine.average (e : Engine) : Engine :=
  let sum := ((((e.vlf 1).add (e.vlf 2)).add (e.vlf 3)).add (e.vlf 4)).add (e.vlf 5)
  { e with terminalAverage := sum.div (.ofNat 5) }

/-- `VRX_BaseEngine`. -/
def vrxBaseEngine (tip : Tip) (pindexLast : Branch) (fProofOfStake : Bool) : Retarget Unit :=
  match pindexLast with
  | [] => nullPointer
  | b :: below =>
    match scanBlocks tip.pindexBest.nTime fProofOfStake (scanheight - 1)
        (.base b.nTime (b :: below)) with
    | none => nullPointer
    | some e => modify fun g => { g with engine := e.average }

/-- `VRX_Simulate_Retarget`. -/
def vrxSimulateRetarget : Retarget Unit := do
  modify fun g => { g with engine := { g.engine with
    terminalFactor := g.engine.terminalFactor.mul g.engine.terminalAverage } }
  modify fun g => { g with engine := { g.engine with
    difficultyfactor := g.engine.terminalFactor.toInt64 } }
  let g ← get
  match g.blockVelocityType with
  | [] => nullPointer
  | b :: _ => do
    modify fun g => { g with bnOld := setCompact b.nBits }
    let g ← get
    if g.engine.difficultyfactor = 0 then throw (.exception "CBigNum::operator/ : BN_div failed")
    else modify fun g => { g with
      bnNew := g.bnOld.tdiv g.engine.difficultyfactor * 10000
      engine := { g.engine with terminalFactor := .ofNat 10000 } }

/-- `VRX_GetPrevDiff`. -/
def vrxGetPrevDiff (pindexBest : Branch) (fPoS : Bool) : Binary64 :=
  match getLastBlockIndex fPoS pindexBest with
  | [] => .ofNat 1
  | b :: _ =>
    let nShift := b.nBits / 2 ^ 24 % 256
    let dDiff := Binary64.div (.ofNat 0xffff) (.ofNat (b.nBits % 2 ^ 24))
    (Binary64.div · (.ofNat 256))^[nShift - 29] ((Binary64.mul · (.ofNat 256))^[29 - nShift] dDiff)

/-- The test of the curve for a difficulty too low for it. -/
def lowDifficulty (tip : Tip) (fProofOfStake : Bool) : Bool :=
  (vrxGetPrevDiff tip.branch fProofOfStake).lt (.ofNat 1)

/-- The skew for the less selected block type. -/
def Engine.skew (e : Engine) (fProofOfStake : Bool) : Engine :=
  let third := { e with terminalAverage := e.terminalAverage.div (.ofNat 3) }
  let e :=
    if e.prevPoW < e.prevPoS ∧ fProofOfStake = false then
      if e.prevPoS - e.prevPoW > 3 then third else e
    else if e.prevPoW > e.prevPoS ∧ fProofOfStake = true then
      if e.prevPoW - e.prevPoS > 3 then third else e
    else e
  if e.terminalAverage.lt (.quarters 2) then { e with terminalAverage := .quarters 2 } else e

/-- Divide the average by the curve. -/
def Globals.drop (g : Globals) : Globals :=
  { g with engine := { g.engine with
      terminalAverage := g.engine.terminalAverage.div (.ofNat g.curve.difCurve) } }

/-- The loop of the extended curve.  The counter of minutes starts at 15 and the loop is left above
20, so seven tests are enough. -/
def curveLoop (tip : Tip) (fProofOfStake : Bool) : ℕ → Retarget Unit
  | 0 => throw (.crash "endless loop")
  | n + 1 => do
    let g ← get
    if g.curve.difTime > g.curve.minuteRounds * 60 then
      if lowDifficulty tip fProofOfStake then pure ()
      else if g.curve.minuteRounds > 5 + 15 then modify fun g => { g with fCRVreset := true }
      else do
        modify Globals.drop
        vrxSimulateRetarget
        modify fun g => { g with curve := { g.curve with
          difCurve := g.curve.difCurve + 1
          minuteRounds := g.curve.minuteRounds + 1 } }
        curveLoop tip fProofOfStake n
    else pure ()

/-- A step of the standard curve: one division if the time is longer than so many more hours. -/
def Globals.hour (g : Globals) (n : ℕ) : Globals :=
  if g.curve.difTime > (g.curve.hourRounds + n) * 60 * 60 then g.drop else g

/-- The standard curve. -/
def Globals.standardCurve (g : Globals) : Globals := (((g.hour 0).hour 1).hour 2).hour 3

/-- `uint64_t` subtraction of times. -/
def subTime (a b : ℕ) : ℕ := (((a : ℤ) - b) % 2 ^ 64).toNat

/-- The curve of `VRX_ThreadCurve`, from the swing patch on. -/
def vrxCurve (tip : Tip) (pindexLast : Branch) (fProofOfStake : Bool) : Retarget Unit := do
  let g ← get
  match pindexLast, g.blockVelocityType with
  | b :: prev :: _, t :: tprev :: _ => do
    modify fun g => { g with
      curve := ⟨b.nTime, t.nTime, tprev.nTime, prev.nTime, subTime t.nTime tprev.nTime, 1, 15, 2⟩
      fCRVreset := false }
    if b.nTime > vrxV36 then do
      modify fun g => { g with curve := { g.curve with
        difTime := subTime g.curve.blkTime g.curve.typeTime } }
      if b.nTime > vrxV37 then
        modify fun g => { g with curve := { g.curve with
          difTime := (g.curve.difTime + subTime g.curve.blkTime g.curve.prvTime2) % 2 ^ 64 } }
      else pure ()
      curveLoop tip fProofOfStake 7
    else modify Globals.standardCurve
  | _, _ => nullPointer

/-- `VRX_ThreadCurve`. -/
def vrxThreadCurve (tip : Tip) (pindexLast : Branch) (fProofOfStake : Bool) : Retarget Unit := do
  vrxBaseEngine tip pindexLast fProofOfStake
  if tip.nBestHeight > sysUpgrade01 then
    modify fun g => { g with engine := g.engine.skew fProofOfStake }
  else pure ()
  if tip.pindexBest.nTime > swingPatch then vrxCurve tip pindexLast fProofOfStake else pure ()

/-- The heights at which the difficulty was reset. -/
def resetHeight (nBestHeight : ℤ) : Bool :=
  (decide (nBestHeight < 729000) && decide (nBestHeight ≥ 704195)) ||
    decide (nBestHeight = 980950) || decide (nBestHeight = 980951)

/-- `VRX_Dry_Run`. -/
def vrxDryRun (tip : Tip) (pindexLast : Branch) : Retarget Unit :=
  match pindexLast with
  | [] => nullPointer
  | b :: _ => modify fun g => { g with
      fDryRun := decide (b.nHeight < scanheight) || resetHeight tip.nBestHeight }

/-- The part of `VRX_Retarget` after the curve. -/
def vrxFinish : Retarget ℕ := do
  let g ← get
  if g.fCRVreset then pure (getCompact g.bnVelocity)
  else do
    vrxSimulateRetarget
    modify fun g => { g with bnNew := if g.bnNew > g.bnVelocity then g.bnVelocity else g.bnNew }
    modify fun g => { g with oldBN := getCompact g.bnOld, newBN := getCompact g.bnNew }
    let g ← get
    pure (getCompact g.bnNew)

/-- `VRX_Retarget`. -/
def vrxRetarget (N : Network) (tip : Tip) (pindexLast : Branch) (fProofOfStake : Bool) :
    Retarget ℕ := do
  modify fun g => { g with
    bnVelocity := N.limit fProofOfStake
    blockVelocityType := getLastBlockIndex fProofOfStake pindexLast }
  vrxDryRun tip pindexLast
  let g ← get
  if g.fDryRun then pure (getCompact g.bnVelocity)
  else do
    vrxThreadCurve tip pindexLast fProofOfStake
    vrxFinish

/-- `GetNextTargetRequired`. -/
def getNextTargetRequired (N : Network) (tip : Tip) (pindexLast : Branch) (fProofOfStake : Bool) :
    Retarget ℕ := do
  if tip.pindexBest.nHeight < velocityTdiff then modify fun g => { g with retarget := .dgw }
  else pure ()
  if tip.pindexBest.nHeight < nGravityFork then modify fun g => { g with retarget := .ppc }
  else pure ()
  let g ← get
  match g.retarget with
  | .dgw => darkGravityWave N tip pindexLast fProofOfStake
  | .ppc => peercoinDiff N pindexLast fProofOfStake
  | _ => vrxRetarget N tip pindexLast fProofOfStake

/-- The test of `AcceptBlock` for the target of a block on `pindexLast`. -/
def acceptBits (N : Network) (tip : Tip) (pindexLast : Branch) (fProofOfStake : Bool) (nBits : ℕ) :
    Retarget Bool := do
  let required ← getNextTargetRequired N tip pindexLast fProofOfStake
  pure (nBits == required)

end Espers
