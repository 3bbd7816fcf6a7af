import Espers.Script.Instructions

/-!
# Pushing and parsing

`GetOp2` with its iterator: what it reads is part of the model, and so is the cast to 32 bits in the
check that there is enough data.  A script read from the network or from a file has at most
`MAX_SIZE` bytes, where the cast makes no difference (`getOp2_of_getOp`).

* `getOp2_ne_none` : **nothing is read past the end**.
* `eq_pushAll_of_canonical` : a script of canonical pushes is rebuilt from what it pushes.
* `pushAll_parses_back` : **what is pushed is parsed, and the other way round**.
-/

namespace Espers

open List Option Nat

/-! ### `GetOp2` -/

/-- What `GetOp2` returns, and where it leaves the iterator. -/
structure GetOpResult where
  fRet : Bool
  opcodeRet : UInt8
  vchRet : Valtype
  pc : ℕ
  deriving DecidableEq

/-- `return false`, with `OP_INVALIDOPCODE`. -/
def GetOpResult.failed (pc : ℕ) : GetOpResult := ⟨false, 0xff, [], pc⟩

/-- The `n` bytes at `pc`; `none` when some of them are past the end. -/
def readBytes (s : CScript) (pc n : ℕ) : Option (List UInt8) :=
  if pc + n ≤ s.length then some ((s.drop pc).take n) else none

/-- The end of `GetOp2`, for an immediate operand of `nSize` bytes. -/
def getOperand (s : CScript) (opcode : UInt8) (nSize pc : ℕ) : Option GetOpResult :=
  -- (unsigned int)(end() - pc) < nSize
  if (s.length - pc) % 2 ^ 32 < nSize then some (.failed pc)
  else do
    let vchRet ← readBytes s pc nSize
    return ⟨true, opcode, vchRet, pc + nSize⟩

/-- `GetOp2`; `none` when it reads past the end. -/
def getOp2 (s : CScript) (pc : ℕ) : Option GetOpResult :=
  if pc ≥ s.length then some (.failed pc)
  else do
    let byte ← readBytes s pc 1
    let opcode := byte.headD 0
    let pc := pc + 1
    if opcode.toNat ≤ 0x4e then
      if opcode.toNat < 0x4c then getOperand s opcode opcode.toNat pc
      else
        let k := if opcode.toNat = 0x4c then 1 else if opcode.toNat = 0x4d then 2 else 4
        if s.length - pc < k then return .failed pc
        else do
          let size ← readBytes s pc k
          getOperand s opcode (ofBytes size) (pc + k)
    else return ⟨true, opcode, [], pc⟩

/-- The loop `while (pc < end())` around `GetOp`: the opcodes and their data, if all can be read. -/
def parseLoop : ℕ → CScript → ℕ → Option (List (UInt8 × Valtype))
  | 0, _, _ => none
  | fuel + 1, s, pc =>
    if pc ≥ s.length then some []
    else do
      let r ← getOp2 s pc
      if r.fRet then do
        let ops ← parseLoop fuel s r.pc
        return (r.opcodeRet, r.vchRet) :: ops
      else none

/-- The opcodes of a script with their data. -/
def parseOps (s : CScript) : Option (List (UInt8 × Valtype)) := parseLoop (s.length + 1) s 0

/-- The loop of `IsPushOnly` and `HasCanonicalPushes`, which stops at the first instruction that
cannot be read or fails the test. -/
def testLoop (test : UInt8 → Valtype → Bool) : ℕ → CScript → ℕ → Bool
  | 0, _, _ => false
  | fuel + 1, s, pc =>
    if pc ≥ s.length then true
    else
      match getOp2 s pc with
      | none => false
      | some r => r.fRet && test r.opcodeRet r.vchRet && testLoop test fuel s r.pc

/-- The test of `IsPushOnly`: `opcode > OP_16` fails. -/
def pushOnlyTest (opcode : UInt8) (_data : Valtype) : Bool := decide (opcode.toNat ≤ 0x60)

/-- The test of `HasCanonicalPushes`. -/
def canonicalTest (opcode : UInt8) (data : Valtype) : Bool :=
  if opcode.toNat > 0x60 then true
  -- could have used an OP_n code, rather than a 1-byte push
  else if opcode.toNat < 0x4c ∧ opcode.toNat > 0 ∧ data.length = 1 ∧ (data.headD 0).toNat ≤ 16 then
    false
  -- could have used a normal n-byte push, rather than OP_PUSHDATA1
  else if opcode.toNat = 0x4c ∧ data.length < 0x4c then false
  -- could have used an OP_PUSHDATA1
  else if opcode.toNat = 0x4d ∧ data.length ≤ 0xff then false
  -- could have used an OP_PUSHDATA2
  else if opcode.toNat = 0x4e ∧ data.length ≤ 0xffff then false
  else true

/-- `CScript::IsPushOnly`, with the iterator. -/
def scriptIsPushOnly (s : CScript) : Bool := testLoop pushOnlyTest (s.length + 1) s 0

/-- `CScript::HasCanonicalPushes`. -/
def hasCanonicalPushes (s : CScript) : Bool := testLoop canonicalTest (s.length + 1) s 0

variable {s script : CScript} {pc n : ℕ} {opcode : UInt8} {vch : Valtype}

theorem readBytes_of_le (h : pc + n ≤ s.length) : readBytes s pc n = some ((s.drop pc).take n) :=
  if_pos h

theorem getOperand_ne_none (s : CScript) (opcode : UInt8) (nSize : ℕ) (hpc : pc ≤ s.length) :
    getOperand s opcode nSize pc ≠ none := by
  rw [getOperand]
  split_ifs with hshort
  · exact some_ne_none _
  · -- the cast makes the number of bytes that are left smaller, if anything
    rw [readBytes_of_le (by omega)]
    exact some_ne_none _

/-- **Nothing is read past the end**, from any position in any script. -/
theorem getOp2_ne_none (s : CScript) (pc : ℕ) : getOp2 s pc ≠ none := by
  rw [getOp2]
  split_ifs with hend
  · exact some_ne_none _
  · rw [readBytes_of_le (by omega)]
    simp only [bind_eq_bind, bind_some]
    generalize ((s.drop pc).take 1).headD 0 = opcode
    generalize (if opcode.toNat = 0x4c then 1 else if opcode.toNat = 0x4d then 2 else 4) = k
    split_ifs with hpush hshort hlen
    · exact getOperand_ne_none s opcode _ (by omega)
    · exact some_ne_none _
    · rw [readBytes_of_le (by omega)]
      exact getOperand_ne_none s opcode _ (by omega)
    · exact some_ne_none _

/-! ### The iterator and the rest of the script -/

theorem getOperand_true {r : GetOpResult} (hpc : pc ≤ s.length)
    (h : getOperand s opcode n pc = some r) (htrue : r.fRet = true) :
    n ≤ (s.drop pc).length ∧ r = ⟨true, opcode, (s.drop pc).take n, pc + n⟩ := by
  rw [getOperand] at h
  split_ifs at h with hshort
  · cases h
    cases htrue
  · have hle := mod_le (s.length - pc) (2 ^ 32)
    rw [readBytes_of_le (by omega)] at h
    cases h
    exact ⟨by rw [length_drop]; omega, rfl⟩

theorem getOperand_of_le (hs : s.length < 2 ^ 32) (hpc : pc ≤ s.length)
    (h : n ≤ (s.drop pc).length) :
    getOperand s opcode n pc = some ⟨true, opcode, (s.drop pc).take n, pc + n⟩ := by
  rw [length_drop] at h
  rw [getOperand, if_neg, readBytes_of_le (by omega)]
  · rfl
  · rw [mod_eq_of_lt (by omega)]
    omega

theorem getOp_drop (hpc : pc < s.length) :
    ∃ opcode, ((s.drop pc).take 1).headD 0 = opcode ∧ s.drop pc = opcode :: s.drop (pc + 1) := by
  refine ⟨s[pc], ?_, drop_eq_getElem_cons hpc⟩
  rw [drop_eq_getElem_cons hpc]
  rfl

/-- What `GetOp2` reads is there. -/
theorem getOp_of_getOp2 {r : GetOpResult} (h : getOp2 s pc = some r) (htrue : r.fRet = true) :
    getOp (s.drop pc) = some (r.opcodeRet, r.vchRet, s.drop r.pc) ∧ pc < r.pc ∧
      r.pc ≤ s.length := by
  rw [getOp2] at h
  split_ifs at h with hend
  · cases h
    cases htrue
  obtain ⟨opcode, hhead, hdrop⟩ := getOp_drop (Nat.lt_of_not_le hend)
  rw [readBytes_of_le (by omega)] at h
  simp only [bind_eq_bind, bind_some, hhead] at h
  rw [hdrop, getOp]
  by_cases hpush : opcode.toNat ≤ 0x4e
  · rw [if_pos hpush] at h ⊢
    rw [pushLength]
    by_cases hshort : opcode.toNat < 0x4c
    · rw [if_pos hshort] at h ⊢
      obtain ⟨hle, rfl⟩ := getOperand_true (by omega) h htrue
      rw [bind_some, if_neg (show ¬ (s.drop (pc + 1)).length < opcode.toNat by omega),
        drop_drop]
      rw [length_drop] at hle
      exact ⟨rfl, by simp only; omega, by simp only; omega⟩
    · rw [if_neg hshort] at h
      simp only [if_neg hshort]
      generalize (if opcode.toNat = 0x4c then 1 else if opcode.toNat = 0x4d then 2 else 4) = k
        at h ⊢
      split_ifs at h with hlen
      · cases h
        cases htrue
      · rw [readBytes_of_le (by omega)] at h
        obtain ⟨hle, rfl⟩ := getOperand_true (by omega) h htrue
        rw [if_neg (by rw [length_drop]; omega), bind_some]
        simp only [drop_drop]
        rw [if_neg (by omega)]
        rw [length_drop] at hle
        exact ⟨rfl, by omega, by omega⟩
  · rw [if_neg hpush] at h ⊢
    cases h
    exact ⟨rfl, by simp only; omega, by simp only; omega⟩

/-- In a script of less than `2 ^ 32` bytes, `GetOp2` reads what is there. -/
theorem getOp2_of_getOp (hs : s.length < 2 ^ 32) {rest : CScript}
    (h : getOp (s.drop pc) = some (opcode, vch, rest)) :
    ∃ pc', getOp2 s pc = some ⟨true, opcode, vch, pc'⟩ ∧ s.drop pc' = rest ∧ pc < pc' ∧
      pc' ≤ s.length := by
  have hlt : pc < s.length := by
    rcases lt_or_ge pc s.length with hlt | hge
    · exact hlt
    · rw [drop_eq_nil_of_le hge] at h
      cases h
  obtain ⟨op, hhead, hdrop⟩ := getOp_drop hlt
  rw [hdrop, getOp] at h
  rw [getOp2, if_neg (by omega), readBytes_of_le (by omega)]
  simp only [bind_eq_bind, bind_some, hhead]
  by_cases hpush : op.toNat ≤ 0x4e
  · rw [if_pos hpush] at h ⊢
    rw [pushLength] at h
    by_cases hshort : op.toNat < 0x4c
    · rw [if_pos hshort, bind_some] at h
      split_ifs at h with hle
      cases h
      simp only [not_lt] at hle
      refine ⟨pc + 1 + opcode.toNat, ?_, by rw [drop_drop], by omega, ?_⟩
      · rw [if_pos hshort, getOperand_of_le hs (by omega) hle]
      · rw [length_drop] at hle
        omega
    · simp only [if_neg hshort] at h ⊢
      generalize (if op.toNat = 0x4c then 1 else if op.toNat = 0x4d then 2 else 4) = k at h ⊢
      by_cases hlen : (s.drop (pc + 1)).length < k
      · rw [if_pos hlen] at h
        cases h
      · rw [if_neg hlen, bind_some] at h
        split_ifs at h with hle
        cases h
        simp only [not_lt, drop_drop] at hle
        rw [length_drop] at hlen
        refine ⟨pc + 1 + k + ofBytes ((s.drop (pc + 1)).take k), ?_, by simp [drop_drop],
          by omega, ?_⟩
        · rw [if_neg (by omega), readBytes_of_le (by omega), bind_some,
            getOperand_of_le hs (by omega) hle, drop_drop]
        · rw [length_drop] at hle
          omega
  · rw [if_neg hpush] at h ⊢
    cases h
    exact ⟨pc + 1, rfl, rfl, by omega, by omega⟩

/-! ### Loops over a script -/

section Loops

variable {fuel : ℕ} {ops : List (UInt8 × Valtype)} {test : UInt8 → Valtype → Bool}

theorem parses_of_parseLoop (h : parseLoop fuel s pc = some ops) : Parses (s.drop pc) ops := by
  induction fuel generalizing pc ops with
  | zero => cases h
  | succ fuel ih =>
    rw [parseLoop] at h
    split_ifs at h with hend
    · cases h
      rw [drop_eq_nil_of_le hend]
      exact .nil
    · obtain ⟨r, hget, h⟩ := bind_eq_some_iff.mp h
      split_ifs at h with htrue
      obtain ⟨ops', hrest, heq⟩ := bind_eq_some_iff.mp h
      cases heq
      exact .cons (getOp_of_getOp2 hget htrue).1 (ih hrest)

theorem parseLoop_of_parses (hs : s.length < 2 ^ 32) (h : Parses (s.drop pc) ops)
    (hfuel : s.length - pc < fuel) : parseLoop fuel s pc = some ops := by
  induction fuel generalizing pc ops with
  | zero => omega
  | succ fuel ih =>
    rw [parseLoop]
    generalize hrest : s.drop pc = rest at h
    cases h with
    | nil => rw [if_pos (drop_eq_nil_iff.mp hrest)]
    | cons hget hmore =>
      obtain ⟨pc', hop, hpc', hlt, hle⟩ := getOp2_of_getOp hs (hrest ▸ hget)
      rw [if_neg (by omega), hop]
      simp only [bind_eq_bind, bind_some, if_true,
        ih (hpc' ▸ hmore) (by omega), Option.pure_def]

/-- A script that is parsed passes a test if its instructions do. -/
theorem testLoop_eq (hparse : parseLoop fuel s pc = some ops) :
    testLoop test fuel s pc = ops.all fun op => test op.1 op.2 := by
  induction fuel generalizing pc ops with
  | zero => cases hparse
  | succ fuel ih =>
    rw [testLoop]
    rw [parseLoop] at hparse
    split_ifs at hparse ⊢ with hend
    · cases hparse
      rfl
    · obtain ⟨r, hget, hparse⟩ := bind_eq_some_iff.mp hparse
      split_ifs at hparse with htrue
      obtain ⟨ops', hrest, heq⟩ := bind_eq_some_iff.mp hparse
      cases heq
      simp only [hget, htrue, Bool.true_and, ih hrest, all_cons]

theorem testLoop_of_parses (hs : s.length < 2 ^ 32) (h : Parses (s.drop pc) ops)
    (htest : ∀ op ∈ ops, test op.1 op.2 = true) (hfuel : s.length - pc < fuel) :
    testLoop test fuel s pc = true :=
  (testLoop_eq (parseLoop_of_parses hs h hfuel)).trans (all_eq_true.2 htest)

theorem test_of_testLoop (h : testLoop test fuel s pc = true)
    (hparse : parseLoop fuel s pc = some ops) : ∀ op ∈ ops, test op.1 op.2 = true :=
  all_eq_true.1 ((testLoop_eq hparse).symm.trans h)

end Loops

/-! ### What is pushed -/

theorem parses_pushAll {vs : List Valtype} (hvs : ∀ d ∈ vs, d.length < 2 ^ 32) :
    ∃ ops, Parses (pushAll vs) ops ∧ ops.map Prod.snd = vs ∧ ∀ op ∈ ops, op.1.toNat ≤ 0x4e := by
  induction vs with
  | nil => exact ⟨[], .nil, rfl, by simp⟩
  | cons d vs ih =>
    obtain ⟨ops, hparse, hmap, hops⟩ := ih fun d hmem => hvs d (.tail _ hmem)
    obtain ⟨opcode, hop, hget⟩ := getOp_pushData_of_lt (hvs d mem_cons_self) (pushAll vs)
    refine ⟨(opcode, d) :: ops, .cons hget hparse, by rw [map_cons, hmap], ?_⟩
    rintro op (_ | ⟨_, hmem⟩)
    · exact hop
    · exact hops op hmem

/-- The bytes of a push: the opcode, the bytes of the length, and the data. -/
theorem getOp_push_shape (h : getOp script = some (opcode, vch, s)) (hop : opcode.toNat ≤ 0x4e) :
    ∃ pre, script = opcode :: (pre ++ (vch ++ s)) ∧
      (opcode.toNat < 0x4c → pre = [] ∧ vch.length = opcode.toNat) ∧
      (¬ opcode.toNat < 0x4c → vch.length = ofBytes pre ∧ pre.length =
        if opcode.toNat = 0x4c then 1 else if opcode.toNat = 0x4d then 2 else 4) := by
  obtain ⟨script, rfl, ⟨-, n, rest, hlen, hshort, rfl, rfl⟩ | ⟨hlt, -⟩⟩ := getOp_cases h
  · have hn : (rest.take n).length = n := by
      rw [length_take]
      omega
    rw [pushLength] at hlen
    by_cases hdirect : opcode.toNat < 0x4c
    · rw [if_pos hdirect] at hlen
      cases hlen
      exact ⟨[], by simp, fun _ => ⟨rfl, hn⟩, fun hnot => absurd hdirect hnot⟩
    · simp only [if_neg hdirect] at hlen
      generalize (if opcode.toNat = 0x4c then 1 else if opcode.toNat = 0x4d then 2 else 4) = k
        at hlen ⊢
      split_ifs at hlen with hk
      cases hlen
      refine ⟨script.take k, ?_, fun hlt => absurd hlt hdirect, fun _ => ⟨hn, ?_⟩⟩
      · rw [take_append_drop, take_append_drop]
      · rw [length_take]
        omega
  · omega

/-- **A canonical push is the push of its data**: every length has one encoding that passes. -/
theorem eq_pushData_of_canonical (h : getOp script = some (opcode, vch, s))
    (hop : opcode.toNat ≤ 0x4e) (hcanonical : canonicalTest opcode vch = true) :
    script = pushData vch ++ s := by
  obtain ⟨pre, rfl, hdirect, hlong⟩ := getOp_push_shape h hop
  rw [canonicalTest, if_neg (by omega)] at hcanonical
  split_ifs at hcanonical with hsmall h4c h4d h4e
  unfold pushData
  by_cases hlt : opcode.toNat < 0x4c
  · obtain ⟨rfl, hlen⟩ := hdirect hlt
    rw [if_pos (by omega), hlen, UInt8.ofNat_toNat]
    rfl
  · obtain ⟨hlen, hpre⟩ := hlong hlt
    by_cases h76 : opcode.toNat = 0x4c
    · rw [if_pos h76] at hpre
      obtain ⟨a, rfl⟩ := length_eq_one_iff.mp hpre
      have ha := a.toNat_lt
      have hbytes : ofBytes [a] = a.toNat := by simp [ofBytes]
      have hcode : opcode = 0x4c := UInt8.toNat_inj.mp h76
      rw [hbytes] at hlen
      rw [if_neg (fun hshort => h4c ⟨h76, hshort⟩), if_pos (by omega), hlen, UInt8.ofNat_toNat,
        hcode]
      rfl
    · by_cases h77 : opcode.toNat = 0x4d
      · rw [if_neg h76, if_pos h77] at hpre
        obtain ⟨a, b, rfl⟩ := length_eq_two.mp hpre
        have ha := a.toNat_lt
        have hb := b.toNat_lt
        have hbytes : ofBytes [a, b] = a.toNat + 256 * b.toNat := by
          simp [ofBytes, ofDigits_cons]
        have hcode : opcode = 0x4d := UInt8.toNat_inj.mp h77
        have hlow : vch.length % 256 = a.toNat := by omega
        have hhigh : vch.length / 256 = b.toNat := by omega
        have hge : ¬ vch.length ≤ 0xff := fun hshort => h4d ⟨h77, hshort⟩
        rw [if_neg (by omega), if_neg hge, if_pos (by omega), hlow, hhigh, UInt8.ofNat_toNat,
          UInt8.ofNat_toNat, hcode]
        rfl
      · have h78 : opcode.toNat = 0x4e := by omega
        rw [if_neg h76, if_neg h77] at hpre
        obtain ⟨a, pre, rfl⟩ := exists_cons_of_length_eq_add_one hpre
        obtain ⟨b, c, d, rfl⟩ := length_eq_three.mp (Nat.succ.inj hpre)
        have ha := a.toNat_lt
        have hb := b.toNat_lt
        have hc := c.toNat_lt
        have hd := d.toNat_lt
        have hbytes : ofBytes [a, b, c, d] =
            a.toNat + 256 * (b.toNat + 256 * (c.toNat + 256 * d.toNat)) := by
          simp [ofBytes, ofDigits_cons]
        have hcode : opcode = 0x4e := UInt8.toNat_inj.mp h78
        have h0 : vch.length % 256 = a.toNat := by omega
        have h1 : vch.length / 256 % 256 = b.toNat := by omega
        have h2 : vch.length / 65536 % 256 = c.toNat := by omega
        have h3 : vch.length / 16777216 % 256 = d.toNat := by omega
        have hge : ¬ vch.length ≤ 0xffff := fun hshort => h4e ⟨h78, hshort⟩
        rw [if_neg (by omega), if_neg (by omega), if_neg hge, h0, h1, h2, h3, UInt8.ofNat_toNat,
          UInt8.ofNat_toNat, UInt8.ofNat_toNat, UInt8.ofNat_toNat, hcode]
        rfl

/-- **A script of canonical pushes is rebuilt from what it pushes.** -/
theorem eq_pushAll_of_canonical {ops : List (UInt8 × Valtype)} (h : Parses script ops)
    (hops : ∀ op ∈ ops, op.1.toNat ≤ 0x4e)
    (hcanonical : ∀ op ∈ ops, canonicalTest op.1 op.2 = true) :
    script = pushAll (ops.map Prod.snd) := by
  induction h with
  | nil => rfl
  | cons hget _ ih =>
    rw [map_cons, pushAll_cons, ← ih (fun op hmem => hops op (.tail _ hmem))
      fun op hmem => hcanonical op (.tail _ hmem)]
    exact eq_pushData_of_canonical hget (hops _ mem_cons_self)
      (hcanonical _ mem_cons_self)

theorem length_le_pushAll {vs : List Valtype} {d : Valtype} (hd : d ∈ vs) :
    d.length ≤ (pushAll vs).length := by
  have hpush : d.length ≤ (pushData d).length := by
    unfold pushData
    split_ifs <;> simp only [length_cons] <;> omega
  obtain ⟨vs1, vs2, rfl⟩ := append_of_mem hd
  rw [pushAll, map_append, map_cons, flatten_append, flatten_cons, length_append, length_append]
  omega

/-- **Pushing and parsing are inverse**, for scripts of less than `2 ^ 32` bytes: the script that
pushes vectors parses into exactly these and is push-only.  A script that parses into pushes of data
and satisfies `HasCanonicalPushes` is the one rebuilt from what it pushes, and `GetOp2` never reads
past the end, whatever the length. -/
theorem pushAll_parses_back :
    (∀ vs : List Valtype, (pushAll vs).length < 2 ^ 32 → ∃ ops, parseOps (pushAll vs) = some ops ∧
      ops.map Prod.snd = vs ∧ (∀ op ∈ ops, op.1.toNat ≤ 0x4e) ∧
      scriptIsPushOnly (pushAll vs) = true) ∧
    (∀ s ops, parseOps s = some ops → (∀ op ∈ ops, op.1.toNat ≤ 0x4e) →
      hasCanonicalPushes s = true → s = pushAll (ops.map Prod.snd)) ∧
    ∀ s pc, getOp2 s pc ≠ none := by
  refine ⟨fun vs hlen => ?_, fun s ops hparse hops hcanonical => ?_, getOp2_ne_none⟩
  · obtain ⟨ops, hparse, hmap, hops⟩ := parses_pushAll fun d hd =>
      (length_le_pushAll hd).trans_lt hlen
    refine ⟨ops, parseLoop_of_parses hlen hparse (by omega), hmap, hops,
      testLoop_of_parses hlen hparse (fun op hmem => ?_) (by omega)⟩
    have := hops op hmem
    exact decide_eq_true (by omega)
  · exact eq_pushAll_of_canonical (parses_of_parseLoop hparse) hops
      (test_of_testLoop hcanonical hparse)

theorem getOp2_direct {rest : CScript} (h : s.drop pc = opcode :: rest)
    (hop : opcode.toNat < 0x4c) : getOp2 s pc = getOperand s opcode opcode.toNat (pc + 1) := by
  have hlt : pc < s.length := by
    by_contra hge
    rw [drop_eq_nil_of_le (Nat.le_of_not_lt hge)] at h
    cases h
  obtain ⟨op, hhead, hdrop⟩ := getOp_drop hlt
  obtain rfl : op = opcode := by
    rw [hdrop] at h
    exact (cons.inj h).1
  rw [getOp2, if_neg (by omega), readBytes_of_le (by omega)]
  simp only [bind_eq_bind, bind_some, hhead]
  rw [if_pos (by omega), if_pos hop]

theorem getOp2_of_long {d : Valtype} (hd : d.length = 4294967290) :
    getOp2 (pushAll [[0x11], d]) 0 = some (.failed 1) := by
  have hscript : pushAll [[0x11], d] = 0x01 :: 0x11 :: pushData d := by
    rw [pushAll_cons, pushAll_cons, show pushAll [] = [] from rfl, append_nil]
    rfl
  have hlen : (pushData d).length = d.length + 5 := by
    rw [pushData, if_neg (by omega), if_neg (by omega), if_neg (by omega)]
    rfl
  have htotal : (pushAll [[0x11], d]).length = d.length + 7 := by
    rw [hscript, length_cons, length_cons, hlen]
  generalize pushAll [[0x11], d] = s at hscript htotal
  rw [getOp2_direct (show s.drop 0 = 0x01 :: _ from hscript) (by decide)]
  have hnat : (0x01 : UInt8).toNat = 1 := rfl
  rw [hnat, getOperand, if_pos (by omega)]

theorem parse_of_long {d : Valtype} (hd : d.length = 4294967290) :
    parseOps (pushAll [[0x11], d]) = none ∧ scriptIsPushOnly (pushAll [[0x11], d]) = false := by
  have hget := getOp2_of_long hd
  have hne : ¬ 0 ≥ (pushAll [[0x11], d]).length := by
    have hle : d.length ≤ (pushAll [[0x11], d]).length := length_le_pushAll (.tail _ (.head _))
    omega
  constructor
  · rw [parseOps, parseLoop, if_neg hne, hget]
    rfl
  · rw [scriptIsPushOnly, testLoop, if_neg hne, hget]
    rfl

/-- The length of a vector that is too long. -/
def longSize : ℕ := 4294967290

/-- Two vectors of less than `2 ^ 32` bytes whose script cannot be parsed: the cast takes the bytes
that are left for none. -/
theorem pushAll_too_long : (∀ d ∈ [[0x11], replicate longSize (0 : UInt8)], d.length < 2 ^ 32) ∧
      parseOps (pushAll [[0x11], replicate longSize 0]) = none ∧
      scriptIsPushOnly (pushAll [[0x11], replicate longSize 0]) = false := by
  have hd : (replicate longSize (0 : UInt8)).length = longSize := length_replicate
  generalize replicate longSize (0 : UInt8) = d at hd ⊢
  rw [longSize] at hd
  refine ⟨?_, parse_of_long hd⟩
  intro v hv
  rcases mem_cons.mp hv with rfl | hv
  · exact lt_of_le_of_lt (le_refl 1) (by norm_num)
  · rw [mem_singleton.mp hv]
    omega

end Espers
