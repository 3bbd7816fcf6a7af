import Espers.Chain.TxFactor

/-!
# Velocity

The parameters of Velocity are tables with one entry each.  `VelocityI` is to find the index into
them for a height, and returns the height.  Every lookup above height 0 therefore reads memory
behind a table: `TableMemory` says what is found there, or that the read crashes.

* `velocity_never_enforced` : **from the activation height on neither are the lookups inside the
  tables, nor is the spacing kept**.
-/

namespace Espers

open Exec Simnet

/-! ### The source -/

/-- The tables of `velocity.h` that are read. -/
inductive VelocityTable where
  | height
  | rate
  | minRate
  | minTx
  | minValue
  | minFee
  | explicit
  deriving DecidableEq

/-- `BLOCK_SPACING_MIN`. -/
def blockSpacingMin : ℤ := 210

/-- `VELOCITY_TOGGLE`. -/
def velocityToggle : ℤ := 650000

/-- The entries of a table. -/
def VelocityTable.entries : VelocityTable → List ℤ
  | height => [velocityToggle]
  | rate => [5 * 60]
  | minRate => [blockSpacingMin]
  | minTx => [0]
  | minValue => [1 * coin]
  | minFee => [10000]
  | explicit => [0]

/-- What a read outside a table finds. -/
abbrev TableMemory := VelocityTable → ℤ → Except Stop ℤ

/-- The index lies in the table. -/
def VelocityTable.Inside (table : VelocityTable) (i : ℤ) : Prop := 0 ≤ i ∧ i < table.entries.length

instance (table : VelocityTable) (i : ℤ) : Decidable (table.Inside i) :=
    inferInstanceAs (Decidable (_ ∧ _))

/-- `table[i]`. -/
def TableMemory.read (mem : TableMemory) (table : VelocityTable) (i : ℤ) : Except Stop ℤ :=
  if table.Inside i then .ok (table.entries.getD i.toNat 0) else mem table i

/-- The end of a run that reads outside a table. -/
def outsideTable : Stop := .crash "read outside a table"

/-- The memory in which every read outside a table ends the run. -/
def strictMemory : TableMemory := fun _ _ => .error outsideTable

/-- `FACTOR_TOGGLE`. -/
def factorToggle (E : Env) (nHeight : ℤ) : Bool := E.testNet || decide (nHeight > 985000)

/-- `VelocityI`: the index, and `VELOCITY_FACTOR` after the call. -/
def velocityI (E : Env) (nHeight : ℤ) (VELOCITY_FACTOR : Bool) : ℤ × Bool :=
  (nHeight, VELOCITY_FACTOR || factorToggle E nHeight)

/-- `Velocity_check`. -/
def velocityCheck (E : Env) (mem : TableMemory) (nHeight : ℤ) (VELOCITY_FACTOR : Bool) :
    Except Stop Bool := do
  let velocityHeight ← mem.read .height nHeight
  .ok (decide ((velocityI E nHeight VELOCITY_FACTOR).1 ≥ velocityHeight))

/-- The blocks whose transactions `Velocity` does not factor in. -/
def unsupportedBlock (nHeight : ℤ) : Bool :=
  (decide (nHeight < 1024000) && decide (nHeight > 981144)) ||
    [1051651, 1052063, 1061153, 1061319, 1062201, 1065588, 1069792, 1088564,
    1094595].contains nHeight

/-- Factor in the transactions, or not. -/
def factorTxs (E : Env) (w : World) (ctx : Ctx) (fFactor_tx : Bool) (prevBlock best : CBlockIndex)
    (block : CBlock) : Except Stop Unit :=
  if fFactor_tx then
    (txFactor E w ctx prevBlock best block).mapError <|
      Stop.report (.error "DENIED: Velocity denied block")
  else .ok ()

/-- `VELOCITY_EXPLICIT[i]` and what it asks for. -/
def constrainVelocity (mem : TableMemory) (i : ℤ) : Except Stop Unit := do
  let explicit ← mem.read .explicit i
  if explicit ≠ 0 then do
    let minTx ← mem.read .minTx i
    rejectIf (minTx > 0) .refuse
    let minValue ← mem.read .minValue i
    rejectIf (minValue > 0) .refuse
    let minFee ← mem.read .minFee i
    rejectIf (minFee > 0) .refuse
  else .ok ()

/-- `Velocity` from the computation of its index on.  (The entries are read as often as they are
used; `block->nTime` and `block->GetBlockTime()` are one number, and so are those of the parent.) -/
def velocityAt (E : Env) (w : World) (ctx : Ctx) (mem : TableMemory) (i : ℤ)
    (VELOCITY_FACTOR : Bool) (prevBlock best : CBlockIndex) (block : CBlock) (fFactor_tx : Bool) :
    Except Stop Unit := do
  let nHeight : ℤ := prevBlock.nHeight + 1
  let TXrate : ℤ := block.nTime - prevBlock.nTime
  let minRate ← mem.read .minRate i
  let CURvalstamp : ℤ := prevBlock.nTime + minRate
  match prevBlock.pprev.bind w.mapBlockIndex.lookup with
  | none => .error (.crash "null pointer")
  | some pprev => do
    let OLDvalstamp : ℤ := pprev.nTime + minRate
    let SYScrntstamp := ctx.getAdjustedTime + minRate
    let SYSbaseStamp := ctx.getTime + minRate
    let velocityHeight ← mem.read .height i
    -- the activation block is not checked
    if nHeight = velocityHeight then .ok ()
    else do
      factorTxs E w ctx (VELOCITY_FACTOR && fFactor_tx && !unsupportedBlock nHeight)
        prevBlock best block
      let velocityRate ← mem.read .rate i
      rejectIf (velocityRate > 0 ∧ TXrate < minRate)
        (.error "DENIED: Minimum block spacing not met for Velocity")
      rejectIf ((block.nTime : ℤ) < CURvalstamp) (.error "DENIED: Block timestamp is not logical")
      rejectIf ((prevBlock.nTime : ℤ) < OLDvalstamp)
        (.error "DENIED: Block timestamp is not logical")
      rejectIf ((block.nTime : ℤ) > SYSbaseStamp ∨ (block.nTime : ℤ) > SYScrntstamp)
        (.error "DENIED: Block timestamp is not logical")
      constrainVelocity mem i

/-- `Velocity`. -/
def velocity (E : Env) (w : World) (ctx : Ctx) (mem : TableMemory) (VELOCITY_FACTOR : Bool)
    (prevBlock best : CBlockIndex) (block : CBlock) (fFactor_tx : Bool) : Except Stop Unit :=
  let r := velocityI E (prevBlock.nHeight + 1) VELOCITY_FACTOR
  velocityAt E w ctx mem r.1 r.2 prevBlock best block fFactor_tx

variable {E : Env} {w : World} {ctx : Ctx} {mem : TableMemory} {i nHeight : ℤ} {f g : Bool}
  {prevBlock best : CBlockIndex} {block : CBlock}

/-! ### The lookups -/

theorem VelocityTable.entries_length (table : VelocityTable) : table.entries.length = 1 := by
  cases table <;> rfl

theorem read_outside (mem : TableMemory) (table : VelocityTable) (h : 0 < i) :
    mem.read table i = mem table i := by
  rw [TableMemory.read, if_neg]
  intro hin
  have := hin.2
  rw [table.entries_length] at this
  omega

/-- No lookup that `Velocity_check` or `Velocity` makes for a block of height `nHeight` is outside
its table. -/
structure LookupsInside (nHeight : ℤ) : Prop where
  check : ∀ (E : Env) (f : Bool), velocityCheck E strictMemory nHeight f ≠ .error outsideTable
  velocity : ∀ (E : Env) (w : World) (ctx : Ctx) (f : Bool) (prevBlock best : CBlockIndex) (block : CBlock)
    (g : Bool), (prevBlock.nHeight + 1 : ℤ) = nHeight →
    velocity E w ctx strictMemory f prevBlock best block g ≠ .error outsideTable

/-- Whatever lies behind the tables, a block of height `nHeight` that passes `Velocity` keeps the
minimum spacing. -/
def SpacingKept (nHeight : ℤ) : Prop :=
  ∀ (E : Env) (w : World) (ctx : Ctx) (mem : TableMemory) (f : Bool) (prevBlock best : CBlockIndex)
    (block : CBlock) (g : Bool), (prevBlock.nHeight + 1 : ℤ) = nHeight →
    velocity E w ctx mem f prevBlock best block g = .ok () →
    (block.nTime : ℤ) - prevBlock.nTime ≥ blockSpacingMin

theorem not_lookupsInside (h : 0 < nHeight) : ¬ LookupsInside nHeight := by
  intro hin
  refine hin.check env false ?_
  rw [velocityCheck, read_outside _ _ h]
  rfl

/-- A memory in which every height is the activation height. -/
def indexMemory : TableMemory := fun _ i => .ok i

/-- An entry over the bank. -/
def overBank (nHeight : ℕ) : CBlockIndex := { bankEntry with pprev := some 1, nHeight := nHeight }

theorem not_spacingKept (h : 0 < nHeight) : ¬ SpacingKept nHeight := by
  intro hkept
  obtain ⟨n, hn⟩ : ∃ n : ℕ, (n + 1 : ℤ) = nHeight := ⟨(nHeight - 1).toNat, by omega⟩
  have hpass : velocity env (vaultWorld 0) (context false false) indexMemory false
    (overBank n) bankEntry
      (passBlock 0 0) false = .ok () := by
    have hheight : ((overBank n).nHeight + 1 : ℤ) = nHeight := hn
    have hprev : (overBank n).pprev.bind (vaultWorld 0).mapBlockIndex.lookup =
      some (vaultEntry 0) := by rfl
    simp only [velocity, velocityI, velocityAt, hheight, read_outside _ _ h, indexMemory,
      except_ok_bind, hprev, if_true]
  have hspacing := hkept _ _ _ _ _ _ _ _ _ hn hpass
  have hearly : ((passBlock 0 0).nTime : ℤ) - (overBank n).nTime = 8 := rfl
  rw [hearly] at hspacing
  exact absurd hspacing (by decide)

/-- **Velocity never works**: from the activation height on the lookups are outside the tables, and
a block that follows its parent at once may pass. -/
theorem velocity_never_enforced (h : velocityToggle ≤ nHeight) :
    ¬ LookupsInside nHeight ∧ ¬ SpacingKept nHeight := by
  have hpos : 0 < nHeight := by
    unfold velocityToggle at h
    omega
  exact ⟨not_lookupsInside hpos, not_spacingKept hpos⟩

/-- The first height after the activation. -/
theorem velocity_never_enforced_next : ¬ LookupsInside 650001 ∧ ¬ SpacingKept 650001 :=
  velocity_never_enforced (by decide)

/-- **The height is no index**, not at the first height after the activation. -/
theorem velocity_outside : ¬ ∀ nHeight, velocityToggle ≤ nHeight → nHeight ≠ velocityToggle →
      LookupsInside nHeight ∧ SpacingKept nHeight :=
  fun hall => not_lookupsInside (by decide) (hall 650001 (by decide) (by decide)).1

end Espers
