import Espers.Core.Keys
import Espers.Core.SigOps
import Espers.Lib.Triple
import Espers.Lib.Wire
import Espers.Script.Encoding

/-!
# The script machine

`EvalScript` runs a script on a stack of byte vectors, and `VerifyScript` the two or three scripts
of an input.  An evaluation stops when the source returns `false`, when a number is too long, or at
an access outside a stack; the source makes no difference between the first two.

The functions have the names of the source.  Stacks are listed from their top, so that `stacktop i`
is `stacktop(-i)`.  The opcodes that are disabled stop the script before they are looked at; what
the source has for them is never reached.
-/

namespace Espers

open Exec

/-- `valtype`. -/
abbrev Valtype := List UInt8

/-- Why the evaluation of a script ends early. -/
inductive ScriptStop where
  /-- `return false`. -/
  | returnFalse
  /-- `CastToBigNum() : overflow`. -/
  | overflow
  /-- An access outside a stack or another vector. -/
  | outOfRange
  deriving DecidableEq

/-- The variables of `EvalScript`. -/
structure Machine where
  /-- From its top. -/
  stack : List Valtype
  /-- From its top. -/
  altstack : List Valtype
  /-- From the innermost conditional. -/
  vfExec : List Bool
  nOpCount : ℕ
  /-- What is left of the script. -/
  pc : CScript
  /-- What follows the last `OP_CODESEPARATOR`. -/
  pbegincodehash : CScript
  /-- How often `CheckSig` was called; the source does not count it. -/
  nCheckSig : ℕ

/-- An instruction of the script machine. -/
abbrev ScriptM := EStateM ScriptStop Machine

/-- The hashes and the signatures. -/
structure ScriptEnv extends KeyFunctions where
  ripemd160 : Valtype → BitVec 160
  sha1 : Valtype → BitVec 160
  sha256 : Valtype → BitVec 256
  /-- `CPubKey::Verify` of a valid public key. -/
  verify : PubKey → Uint256 → Valtype → Bool
  /-- The hash of a serialized transaction and a hash type. -/
  hashTx : CTransaction → ℤ → Uint256

/-- The other arguments of `EvalScript`. -/
structure EvalContext where
  txTo : CTransaction
  nIn : ℕ
  flags : ℕ
  nHashType : ℤ

/-! ### Stacks -/

/-- `if (c) return false`. -/
def returnIf (c : Bool) : ScriptM Unit := if c then throw .returnFalse else pure ()

/-- `if (stack.size() < n) return false`. -/
def needs (n : ℕ) : ScriptM Unit := do
  let s ← get
  returnIf (decide (s.stack.length < n))

/-- The element at a depth, from one on. -/
def elementAt (stack : List Valtype) : ℕ → Option Valtype
  | 0 => none
  | i + 1 => stack[i]?

/-- `stacktop(-i)`. -/
def stacktop (i : ℕ) : ScriptM Valtype := do
  let s ← get
  match elementAt s.stack i with
  | none => throw .outOfRange
  | some vch => pure vch

/-- `popstack(stack)`. -/
def popstack : ScriptM Unit := do
  let s ← get
  match s.stack with
  | [] => throw .outOfRange
  | _ :: stack => set { s with stack := stack }

/-- `stack.push_back(vch)`. -/
def pushBack (vch : Valtype) : ScriptM Unit := modify fun s => { s with stack := vch :: s.stack }

/-- `fValue ? vchTrue : vchFalse`. -/
def vchBool (fValue : Bool) : Valtype := if fValue then [1] else []

/-- `stacktop(-i) = vch`. -/
def setTop (i : ℕ) (vch : Valtype) : ScriptM Unit := do
  let _ ← stacktop i
  modify fun s => { s with stack := s.stack.set (i - 1) vch }

/-- `swap(stacktop(-i), stacktop(-j))`. -/
def swapTop (i j : ℕ) : ScriptM Unit := do
  let vch1 ← stacktop i
  let vch2 ← stacktop j
  setTop i vch2
  setTop j vch1

/-- `stack.erase(stack.end() - i)`. -/
def eraseTop (i : ℕ) : ScriptM Unit := do
  let _ ← stacktop i
  modify fun s => { s with stack := s.stack.eraseIdx (i - 1) }

/-- `stack.insert(stack.end() - i, vch)`. -/
def insertTop (i : ℕ) (vch : Valtype) : ScriptM Unit := do
  let s ← get
  if i ≤ s.stack.length then set { s with stack := s.stack.insertIdx i vch } else throw .outOfRange

/-- `altstacktop(-1)` and `popstack(altstack)`. -/
def popAltstack : ScriptM Valtype := do
  let s ← get
  match s.altstack with
  | [] => throw .outOfRange
  | vch :: altstack => do
    set { s with altstack := altstack }
    pure vch

/-- `vfExec.back()` and `vfExec.pop_back()`. -/
def popExec : ScriptM Bool := do
  let s ← get
  match s.vfExec with
  | [] => throw .outOfRange
  | fValue :: vfExec => do
    set { s with vfExec := vfExec }
    pure fValue

/-- `nOpCount += n`, and `return false` above the limit. -/
def addOps (n : ℕ) : ScriptM Unit := do
  modify fun s => { s with nOpCount := s.nOpCount + n }
  let s ← get
  returnIf (decide (s.nOpCount > 201))

/-- `CastToBigNum`. -/
def castToBigNum (vch : Valtype) (nMaxNumSize : ℕ) : ScriptM ℤ :=
  if vch.length > nMaxNumSize then throw .overflow else pure (bnSetvch vch)

/-! ### Signatures -/

/-- The loop of `CScript::FindAndDelete`. -/
def findAndDeleteLoop (b : CScript) : ℕ → CScript → CScript
  | 0, s => s
  | fuel + 1, s =>
    if b.isPrefixOf s then findAndDeleteLoop b fuel (s.drop b.length)
    else
      match getOp s with
      | none => s
      | some (_, _, rest) => s.take (s.length - rest.length) ++ findAndDeleteLoop b fuel rest

/-- `CScript::FindAndDelete`. -/
def findAndDelete (b s : CScript) : CScript :=
  if b.isEmpty then s else findAndDeleteLoop b (s.length + 1) s

/-- `SignatureHash`. -/
def signatureHash (E : ScriptEnv) (scriptCode : CScript) (txTo : CTransaction) (nIn : ℕ)
    (nHashType : ℤ) : Uint256 :=
  if nIn ≥ txTo.vin.length then 1
  else
    let scriptCode := findAndDelete [0xab] scriptCode
    -- blank out other inputs' signatures
    let vin := (txTo.vin.map fun txin => { txin with scriptSig := [] }).modify nIn
      fun txin => { txin with scriptSig := scriptCode }
    -- let the others update at will
    let updatable := vin.mapIdx fun i txin => if i ≠ nIn then { txin with nSequence := 0 } else txin
    -- blank out other inputs completely
    let hashAs := fun (vin : List CTxIn) (vout : List CTxOut) =>
      E.hashTx { txTo with
        vin := if nHashType / 128 % 2 = 1 then (vin.drop nIn).take 1 else vin
        vout := vout } nHashType
    if nHashType % 32 = 2 then hashAs updatable []
    else if nHashType % 32 = 3 then
      if nIn ≥ txTo.vout.length then 1
      else hashAs updatable ((txTo.vout.take (nIn + 1)).mapIdx fun i txout => if i < nIn then
        ⟨-1, []⟩ else txout)
    else hashAs vin txTo.vout

/-- `CPubKey::GetLen`. -/
def pubKeyLen (chHeader : UInt8) : ℕ :=
  if chHeader == 2 || chHeader == 3 then 33
  else if chHeader == 4 || chHeader == 6 || chHeader == 7 then 65
  else 0

/-- `CPubKey(vch)`; nothing counts of an invalid key. -/
def pubKeyOfBytes (vch : Valtype) : PubKey :=
  match vch with
  | [] => []
  | chHeader :: _ => if pubKeyLen chHeader ≠ 0 ∧ pubKeyLen chHeader = vch.length then vch else []

/-- `CheckSig`; its cache holds only what `Verify` accepts. -/
def checkSig (E : ScriptEnv) (vchSig vchPubKey : Valtype) (scriptCode : CScript)
    (txTo : CTransaction) (nIn : ℕ) (nHashType : ℤ) : Bool :=
  let pubkey := pubKeyOfBytes vchPubKey
  if pubkey.isEmpty then false
  else
    match vchSig.getLast? with
    | none => false
    | some last =>
      if nHashType ≠ 0 ∧ nHashType ≠ last.toNat then false
      else E.verify pubkey (signatureHash E scriptCode txTo nIn last.toNat) vchSig.dropLast

/-- `LOCKTIME_THRESHOLD`. -/
def locktimeThreshold : ℕ := 500000000

/-- `CheckLockTime`. -/
def checkLockTime (txTo : CTransaction) (nIn : ℕ) (nLockTime : ℤ) : ScriptM Bool :=
  -- compare apples to apples
  if ¬ (txTo.nLockTime < locktimeThreshold ∧ nLockTime < locktimeThreshold ∨
      txTo.nLockTime ≥ locktimeThreshold ∧ nLockTime ≥ locktimeThreshold) then pure false
  else if nLockTime > txTo.nLockTime then pure false
  else
    match txTo.vin[nIn]? with
    | none => throw .outOfRange
    | some txin => pure (!txin.isFinal)

/-! ### Opcodes -/

/-- The operations on one number. -/
inductive UnaryOp where
  | op1Add | op1Sub | opNegate | opAbs | opNot | op0NotEqual

/-- The operations on two numbers. -/
inductive BinaryOp where
  | opAdd | opSub | opBoolAnd | opBoolOr | opNumEqual | opNumNotEqual | opLessThan | opGreaterThan
  | opLessThanOrEqual | opGreaterThanOrEqual | opMin | opMax

/-- The hashes. -/
inductive HashOp where
  | opRipemd160 | opSha1 | opSha256 | opHash160 | opHash256

/-- What an opcode above `OP_PUSHDATA4` stands for. -/
inductive Opcode where
  /-- `OP_1NEGATE`, and `OP_1` to `OP_16`. -/
  | opN (n : ℤ)
  | opNop | opCheckLockTimeVerify
  /-- `OP_NOP1`, and `OP_NOP3` to `OP_NOP10`. -/
  | opUpgradableNop
  /-- `OP_IF` and `OP_NOTIF`. -/
  | opIf (fNot : Bool)
  | opElse | opEndIf | opVerify | opReturn
  | opToAltStack | opFromAltStack
  | op2Drop | op2Dup | op3Dup | op2Over | op2Rot | op2Swap | opIfDup | opDepth | opDrop | opDup | opNip
  | opOver
  /-- `OP_PICK` and `OP_ROLL`. -/
  | opPick (fRoll : Bool)
  | opRot | opSwap | opTuck | opSize
  | opEqual (fVerify : Bool)
  | unary (op : UnaryOp)
  | binary (op : BinaryOp) (fVerify : Bool)
  | opWithin
  | hash (op : HashOp)
  | opCodeSeparator
  | opCheckSig (fVerify : Bool)
  | opCheckMultiSig (fVerify : Bool)
  /-- Everything else. -/
  | invalid

/-- The opcodes by their codes. -/
def opcodeOf (opcode : UInt8) : Opcode :=
  match opcode.toNat with
  | 0x61 => .opNop
  | 0x63 => .opIf false
  | 0x64 => .opIf true
  | 0x67 => .opElse
  | 0x68 => .opEndIf
  | 0x69 => .opVerify
  | 0x6a => .opReturn
  | 0x6b => .opToAltStack
  | 0x6c => .opFromAltStack
  | 0x6d => .op2Drop
  | 0x6e => .op2Dup
  | 0x6f => .op3Dup
  | 0x70 => .op2Over
  | 0x71 => .op2Rot
  | 0x72 => .op2Swap
  | 0x73 => .opIfDup
  | 0x74 => .opDepth
  | 0x75 => .opDrop
  | 0x76 => .opDup
  | 0x77 => .opNip
  | 0x78 => .opOver
  | 0x79 => .opPick false
  | 0x7a => .opPick true
  | 0x7b => .opRot
  | 0x7c => .opSwap
  | 0x7d => .opTuck
  | 0x82 => .opSize
  | 0x87 => .opEqual false
  | 0x88 => .opEqual true
  | 0x8b => .unary .op1Add
  | 0x8c => .unary .op1Sub
  | 0x8f => .unary .opNegate
  | 0x90 => .unary .opAbs
  | 0x91 => .unary .opNot
  | 0x92 => .unary .op0NotEqual
  | 0x93 => .binary .opAdd false
  | 0x94 => .binary .opSub false
  | 0x9a => .binary .opBoolAnd false
  | 0x9b => .binary .opBoolOr false
  | 0x9c => .binary .opNumEqual false
  | 0x9d => .binary .opNumEqual true
  | 0x9e => .binary .opNumNotEqual false
  | 0x9f => .binary .opLessThan false
  | 0xa0 => .binary .opGreaterThan false
  | 0xa1 => .binary .opLessThanOrEqual false
  | 0xa2 => .binary .opGreaterThanOrEqual false
  | 0xa3 => .binary .opMin false
  | 0xa4 => .binary .opMax false
  | 0xa5 => .opWithin
  | 0xa6 => .hash .opRipemd160
  | 0xa7 => .hash .opSha1
  | 0xa8 => .hash .opSha256
  | 0xa9 => .hash .opHash160
  | 0xaa => .hash .opHash256
  | 0xab => .opCodeSeparator
  | 0xac => .opCheckSig false
  | 0xad => .opCheckSig true
  | 0xae => .opCheckMultiSig false
  | 0xaf => .opCheckMultiSig true
  | 0xb1 => .opCheckLockTimeVerify
  | n =>
    if n = 0x4f ∨ 0x51 ≤ n ∧ n ≤ 0x60 then .opN (n - 0x50)
    else if 0xb0 ≤ n ∧ n ≤ 0xb9 then .opUpgradableNop
    else .invalid

/-- The opcodes that stop a script even where they are not executed: `OP_CAT`, `OP_SUBSTR`,
`OP_LEFT`, `OP_RIGHT`, `OP_INVERT`, `OP_AND`, `OP_OR`, `OP_XOR`, `OP_2MUL`, `OP_2DIV`, `OP_MUL`,
`OP_DIV`, `OP_MOD`, `OP_LSHIFT`, `OP_RSHIFT`. -/
def disabledOpcodes : List UInt8 :=
  [0x7e, 0x7f, 0x80, 0x81, 0x83, 0x84, 0x85, 0x86, 0x8d, 0x8e, 0x95, 0x96, 0x97, 0x98, 0x99]

/-- `CBigNum(b)`. -/
def bnOfBool (b : Bool) : ℤ := if b then 1 else 0

/-- The operation on one number. -/
def UnaryOp.eval (bn : ℤ) : UnaryOp → ℤ
  | op1Add => bn + 1
  | op1Sub => bn - 1
  | opNegate => -bn
  | opAbs => if bn < 0 then -bn else bn
  | opNot => bnOfBool (bn == 0)
  | op0NotEqual => bnOfBool (bn != 0)

/-- The operation on two numbers. -/
def BinaryOp.eval (bn1 bn2 : ℤ) : BinaryOp → ℤ
  | opAdd => bn1 + bn2
  | opSub => bn1 - bn2
  | opBoolAnd => bnOfBool (bn1 != 0 && bn2 != 0)
  | opBoolOr => bnOfBool (bn1 != 0 || bn2 != 0)
  | opNumEqual => bnOfBool (bn1 == bn2)
  | opNumNotEqual => bnOfBool (bn1 != bn2)
  | opLessThan => bnOfBool (decide (bn1 < bn2))
  | opGreaterThan => bnOfBool (decide (bn1 > bn2))
  | opLessThanOrEqual => bnOfBool (decide (bn1 ≤ bn2))
  | opGreaterThanOrEqual => bnOfBool (decide (bn1 ≥ bn2))
  | opMin => if bn1 < bn2 then bn1 else bn2
  | opMax => if bn1 > bn2 then bn1 else bn2

/-- The hash, as bytes. -/
def HashOp.eval (E : ScriptEnv) (vch : Valtype) : HashOp → Valtype
  | opRipemd160 => Wire.writeBits 20 (E.ripemd160 vch)
  | opSha1 => Wire.writeBits 20 (E.sha1 vch)
  | opSha256 => Wire.writeBits 32 (E.sha256 vch)
  | opHash160 => Wire.writeBits 20 (E.hash160 vch)
  | opHash256 => Wire.writeBits 32 (E.hash vch)

/-! ### Checking signatures -/

/-- The call of `CheckSig`, behind the checks of the encodings. -/
def callCheckSig (E : ScriptEnv) (c : EvalContext) (vchSig vchPubKey : Valtype)
    (scriptCode : CScript) : ScriptM Bool :=
  if checkSigEncoding vchSig c.flags && isCompressedOrUncompressedPubKey vchPubKey then do
    modify fun s => { s with nCheckSig := s.nCheckSig + 1 }
    pure (checkSig E vchSig vchPubKey scriptCode c.txTo c.nIn c.nHashType)
  else pure false

/-- What strict encoding asks of a signature and a public key. -/
def strictEncoding (c : EvalContext) (vchSig vchPubKey : Valtype) : ScriptM Unit :=
  returnIf (hasFlag c.flags scriptVerifyStrictEnc &&
    (!checkSigEncoding vchSig c.flags || !isCompressedOrUncompressedPubKey vchPubKey))

/-- The loop of `OP_CHECKMULTISIG`, over the keys that are left; there are at least as many of them
as signatures. -/
def multiSigLoop (E : ScriptEnv) (c : EvalContext) (scriptCode : CScript) :
    ℕ → ℕ → ℕ → ℕ → ScriptM Bool
  | _, 0, _, _ => pure true
  | 0, _ + 1, _, _ => pure false
  | nKeysCount + 1, nSigsCount + 1, isig, ikey => do
    let vchSig ← stacktop isig
    let vchPubKey ← stacktop ikey
    strictEncoding c vchSig vchPubKey
    let fOk ← callCheckSig E c vchSig vchPubKey scriptCode
    let isig := if fOk then isig + 1 else isig
    let nSigsCount := if fOk then nSigsCount else nSigsCount + 1
    -- too many signatures have failed
    if nSigsCount > nKeysCount then pure false
    else multiSigLoop E c scriptCode nKeysCount nSigsCount isig (ikey + 1)

/-- The signatures are dropped from the script, since a signature cannot sign itself. -/
def dropSignatures (isig : ℕ) : ℕ → CScript → ScriptM CScript
  | 0, scriptCode => pure scriptCode
  | k + 1, scriptCode => do
    let scriptCode ← dropSignatures isig k scriptCode
    let vchSig ← stacktop (isig + k)
    pure (findAndDelete (pushData vchSig) scriptCode)

/-- `while (i-- > 1) popstack(stack)`. -/
def popMany : ℕ → ScriptM Unit
  | 0 => pure ()
  | i + 1 => do
    popstack
    popMany i

/-- The result of an operation that may verify it. -/
def pushResult (fSuccess fVerify : Bool) : ScriptM Unit := do
  pushBack (vchBool fSuccess)
  if fVerify then
    if fSuccess then popstack else throw .returnFalse
  else pure ()

/-- `OP_CHECKMULTISIG` after the number of keys has been read. -/
def checkMultiSigKeys (E : ScriptEnv) (c : EvalContext) (fVerify : Bool) (nKeysCount : ℤ) :
    ScriptM Unit := do
  returnIf (decide (nKeysCount < 0) || decide (nKeysCount > 20))
  addOps nKeysCount.toNat
  let ikey := 2
  let i := ikey + nKeysCount.toNat
  needs i
  let bnSigs ← castToBigNum (← stacktop i) 4
  let nSigsCount := getint bnSigs
  returnIf (decide (nSigsCount < 0) || decide (nSigsCount > nKeysCount))
  let isig := i + 1
  let i := isig + nSigsCount.toNat
  needs i
  let s ← get
  let scriptCode ← dropSignatures isig nSigsCount.toNat s.pbegincodehash
  let fSuccess ← multiSigLoop E c scriptCode nKeysCount.toNat nSigsCount.toNat isig ikey
  popMany (i - 1)
  -- one extra argument is consumed
  needs 1
  let dummy ← stacktop 1
  returnIf (hasFlag c.flags scriptVerifyNullDummy && !dummy.isEmpty)
  popstack
  pushResult fSuccess fVerify

/-- `OP_CHECKMULTISIG`. -/
def checkMultiSig (E : ScriptEnv) (c : EvalContext) (fVerify : Bool) : ScriptM Unit := do
  needs 1
  let bnKeys ← castToBigNum (← stacktop 1) 4
  checkMultiSigKeys E c fVerify (getint bnKeys)

/-! ### Executing an opcode -/

/-- The switch of `EvalScript`. -/
def execOpcode (E : ScriptEnv) (c : EvalContext) (fExec : Bool) : Opcode → ScriptM Unit
  | .opN n => pushBack (bnGetvch n)
  | .opNop => pure ()
  | .opCheckLockTimeVerify =>
    if !hasFlag c.flags scriptVerifyCheckLockTimeVerify then
      -- not enabled; treat as a NOP2
      returnIf (hasFlag c.flags scriptVerifyDiscourageUpgradableNops)
    else do
      needs 1
      let nLockTime ← castToBigNum (← stacktop 1) 5
      returnIf (decide (nLockTime < 0))
      let fOk ← checkLockTime c.txTo c.nIn nLockTime
      returnIf (!fOk)
  | .opUpgradableNop => returnIf (hasFlag c.flags scriptVerifyDiscourageUpgradableNops)
  | .opIf fNot =>
    if fExec then do
      needs 1
      let vch ← stacktop 1
      popstack
      modify fun s => { s with vfExec := (castToBool vch ^^ fNot) :: s.vfExec }
    else modify fun s => { s with vfExec := false :: s.vfExec }
  | .opElse => do
    let s ← get
    returnIf s.vfExec.isEmpty
    let fValue ← popExec
    modify fun s => { s with vfExec := (!fValue) :: s.vfExec }
  | .opEndIf => do
    let s ← get
    returnIf s.vfExec.isEmpty
    let _ ← popExec
    pure ()
  | .opVerify => do
    needs 1
    let vch ← stacktop 1
    if castToBool vch then popstack else throw .returnFalse
  | .opReturn => throw .returnFalse
  | .opToAltStack => do
    needs 1
    let vch ← stacktop 1
    modify fun s => { s with altstack := vch :: s.altstack }
    popstack
  | .opFromAltStack => do
    let s ← get
    returnIf s.altstack.isEmpty
    let vch ← popAltstack
    pushBack vch
  | .op2Drop => do
    needs 2
    popstack
    popstack
  | .op2Dup => do
    needs 2
    let vch1 ← stacktop 2
    let vch2 ← stacktop 1
    pushBack vch1
    pushBack vch2
  | .op3Dup => do
    needs 3
    let vch1 ← stacktop 3
    let vch2 ← stacktop 2
    let vch3 ← stacktop 1
    pushBack vch1
    pushBack vch2
    pushBack vch3
  | .op2Over => do
    needs 4
    let vch1 ← stacktop 4
    let vch2 ← stacktop 3
    pushBack vch1
    pushBack vch2
  | .op2Rot => do
    needs 6
    let vch1 ← stacktop 6
    let vch2 ← stacktop 5
    eraseTop 6
    eraseTop 5
    pushBack vch1
    pushBack vch2
  | .op2Swap => do
    needs 4
    swapTop 4 2
    swapTop 3 1
  | .opIfDup => do
    needs 1
    let vch ← stacktop 1
    if castToBool vch then pushBack vch else pure ()
  | .opDepth => do
    let s ← get
    pushBack (bnGetvch s.stack.length)
  | .opDrop => do
    needs 1
    popstack
  | .opDup => do
    needs 1
    let vch ← stacktop 1
    pushBack vch
  | .opNip => do
    needs 2
    eraseTop 2
  | .opOver => do
    needs 2
    let vch ← stacktop 2
    pushBack vch
  | .opPick fRoll => do
    needs 2
    let bn ← castToBigNum (← stacktop 1) 4
    let n := getint bn
    popstack
    let s ← get
    returnIf (decide (n < 0) || decide (n ≥ s.stack.length))
    let vch ← stacktop (n.toNat + 1)
    if fRoll then eraseTop (n.toNat + 1) else pure ()
    pushBack vch
  | .opRot => do
    needs 3
    swapTop 3 2
    swapTop 2 1
  | .opSwap => do
    needs 2
    swapTop 2 1
  | .opTuck => do
    needs 2
    let vch ← stacktop 1
    insertTop 2 vch
  | .opSize => do
    needs 1
    let vch ← stacktop 1
    pushBack (bnGetvch vch.length)
  | .opEqual fVerify => do
    needs 2
    let vch1 ← stacktop 2
    let vch2 ← stacktop 1
    popstack
    popstack
    pushResult (vch1 == vch2) fVerify
  | .unary op => do
    needs 1
    let bn ← castToBigNum (← stacktop 1) 4
    popstack
    pushBack (bnGetvch (op.eval bn))
  | .binary op fVerify => do
    needs 2
    let bn1 ← castToBigNum (← stacktop 2) 4
    let bn2 ← castToBigNum (← stacktop 1) 4
    popstack
    popstack
    pushBack (bnGetvch (op.eval bn1 bn2))
    if fVerify then do
      let vch ← stacktop 1
      if castToBool vch then popstack else throw .returnFalse
    else pure ()
  | .opWithin => do
    needs 3
    let bn1 ← castToBigNum (← stacktop 3) 4
    let bn2 ← castToBigNum (← stacktop 2) 4
    let bn3 ← castToBigNum (← stacktop 1) 4
    popstack
    popstack
    popstack
    pushBack (vchBool (decide (bn2 ≤ bn1) && decide (bn1 < bn3)))
  | .hash op => do
    needs 1
    let vch ← stacktop 1
    popstack
    pushBack (op.eval E vch)
  | .opCodeSeparator => modify fun s => { s with pbegincodehash := s.pc }
  | .opCheckSig fVerify => do
    needs 2
    let vchSig ← stacktop 2
    let vchPubKey ← stacktop 1
    let s ← get
    let scriptCode := findAndDelete (pushData vchSig) s.pbegincodehash
    strictEncoding c vchSig vchPubKey
    let fSuccess ← callCheckSig E c vchSig vchPubKey scriptCode
    popstack
    popstack
    pushResult fSuccess fVerify
  | .opCheckMultiSig fVerify => checkMultiSig E c fVerify
  | .invalid => throw .returnFalse

/-! ### Evaluating a script -/

/-- An instruction is counted, and stops the script when there are too many of them. -/
def countOpcode (opcode : UInt8) : ScriptM Unit :=
  if 0x60 < opcode.toNat then addOps 1 else pure ()

/-- An instruction is pushed or executed. -/
def execInstruction (E : ScriptEnv) (c : EvalContext) (opcode : UInt8) (vchPushValue : Valtype) :
    ScriptM Unit := do
  let s ← get
  let fExec := s.vfExec.all id
  if fExec && decide (opcode.toNat ≤ 0x4e) then pushBack vchPushValue
  else if fExec || decide (0x63 ≤ opcode.toNat) && decide (opcode.toNat ≤ 0x68) then
    execOpcode E c fExec (opcodeOf opcode)
  else pure ()

/-- One pass of the loop of `EvalScript`. -/
def evalStep (E : ScriptEnv) (c : EvalContext) : ScriptM Unit := do
  let s ← get
  match getOp s.pc with
  | none => throw .returnFalse
  | some (opcode, vchPushValue, pc) => do
    set { s with pc := pc }
    returnIf (decide (vchPushValue.length > maxScriptElementSize))
    countOpcode opcode
    returnIf (disabledOpcodes.contains opcode)
    execInstruction E c opcode vchPushValue
    let s ← get
    returnIf (decide (s.stack.length + s.altstack.length > 1000))

/-- The loop of `EvalScript`; every pass reads a byte at least. -/
def evalLoop (E : ScriptEnv) (c : EvalContext) : ℕ → ScriptM Unit
  | 0 => pure ()
  | fuel + 1 => do
    let s ← get
    if s.pc.isEmpty then pure ()
    else do
      evalStep E c
      evalLoop E c fuel

/-- The variables of `EvalScript` before its loop. -/
def Machine.start (stack : List Valtype) (script : CScript) : Machine :=
    ⟨stack, [], [], 0, script, script, 0⟩

/-- The loop of `EvalScript` over a whole script. -/
def runScript (E : ScriptEnv) (c : EvalContext) (stack : List Valtype) (script : CScript) :
    EStateM.Result ScriptStop Machine Unit :=
  evalLoop E c script.length (.start stack script)

/-- `EvalScript`: the answer, and the stack. -/
def evalScript (E : ScriptEnv) (c : EvalContext) (stack : List Valtype) (script : CScript) :
    Bool × List Valtype :=
  if script.length > 10000 then (false, stack)
  else
    match runScript E c stack script with
    | .ok _ s => (s.vfExec.isEmpty, s.stack)
    | .error _ s => (false, s.stack)

/-! ### Verifying an input -/

/-- The loop of `CScript::IsPushOnly`. -/
def pushOnlyLoop : ℕ → CScript → Bool
  | _, [] => true
  | 0, _ => false
  | fuel + 1, s =>
    match getOp s with
    | none => false
    | some (opcode, _, s) => if 0x60 < opcode.toNat then false else pushOnlyLoop fuel s

/-- `CScript::IsPushOnly`. -/
def isPushOnly (s : CScript) : Bool := pushOnlyLoop s.length s

/-- `VerifyScript` with the evaluations it makes: the stacks and the scripts. -/
abbrev Verify := EStateM ScriptStop (List (List Valtype × CScript))

/-- A call of `EvalScript`. -/
def callEvalScript (E : ScriptEnv) (c : EvalContext) (stack : List Valtype) (script : CScript) :
    Verify (Bool × List Valtype) := do
  modify (· ++ [(stack, script)])
  pure (evalScript E c stack script)

/-- The end of an evaluation: there is a true element on the top of the stack. -/
def trueOnTop : List Valtype → Bool
  | [] => false
  | vch :: _ => castToBool vch

/-- `VerifyScript`. -/
def verifyScript (E : ScriptEnv) (c : EvalContext) (scriptSig scriptPubKey : CScript) :
    Verify Bool := do
  let (fOk, stackCopy) ← callEvalScript E c [] scriptSig
  if !fOk then pure false
  else do
    let (fOk, stack) ← callEvalScript E c stackCopy scriptPubKey
    if !fOk || !trueOnTop stack then pure false
    else if !isPayToScriptHash scriptPubKey then pure true
    else if !isPushOnly scriptSig then pure false
    else
      match stackCopy with
      | [] => throw .outOfRange
      | pubKeySerialized :: stackCopy => do
        let (fOk, stack) ← callEvalScript E c stackCopy pubKeySerialized
        pure (fOk && trueOnTop stack)

/-- The answer of `VerifyScript`. -/
def verifies (E : ScriptEnv) (c : EvalContext) (scriptSig scriptPubKey : CScript) : Bool :=
  match verifyScript E c scriptSig scriptPubKey [] with
  | .ok fOk _ => fOk
  | .error _ _ => false

/-- `VerifySignature`, with no hash type. -/
def verifySignature (E : ScriptEnv) (txHash : CTransaction → Uint256) (txFrom txTo : CTransaction)
    (nIn flags : ℕ) : Bool :=
  match txTo.vin[nIn]? with
  | none => false
  | some txin =>
    match txFrom.vout[txin.prevout.n]? with
    | none => false
    | some txout =>
      if txin.prevout.hash ≠ txHash txFrom then false
      else verifies E ⟨txTo, nIn, flags, 0⟩ txin.scriptSig txout.scriptPubKey

end Espers
