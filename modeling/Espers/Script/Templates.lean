import Espers.Script.Spending

/-!
# What `Solver` recognizes

A template is compared with a script opcode by opcode, and some opcodes of templates stand for data
or for several opcodes.

* `Form script type vSolutions` : the script has the form of a template of that type.
* `form_of_match`, `Form.matches` : the comparison succeeds exactly for scripts of this form.
* `solver_of_form`, `solver_of_not_form` : `Solver`, in terms of forms.
* `standard_of_solver` : what scripts with a standard type read as.
* `solver_grammar` : **the grammar of each type.**
-/

namespace Espers

open Exec List Option Prod

variable {script pc : CScript} {opcode : UInt8} {vch : Valtype} {fuel : ℕ}
  {vSolutions vSolutionsRet : List Valtype} {type : TxnOutType}

/-! ### What the templates match -/

variable {template : CScript}

theorem getOp_of_template (h : 0x4e < opcode.toNat) :
    getOp (opcode :: template) = some (opcode, [], template) := by
  rw [getOp, if_neg (by omega)]

theorem matchTemplate_nil (h : matchTemplate fuel script [] vSolutions = some vSolutionsRet) :
    script = [] ∧ vSolutionsRet = vSolutions := by
  cases fuel with
  | zero => cases h
  | succ fuel =>
    rw [matchTemplate] at h
    split_ifs at h with hempty
    · cases h
      simp only [List.isEmpty_nil, Bool.and_true, List.isEmpty_iff] at hempty
      exact ⟨hempty, rfl⟩
    · rw [show getOp [] = none from rfl] at h
      cases hget : getOp script <;> simp [hget] at h

variable {opcode2 : UInt8}

/-- An opcode of a template matches one of the script. -/
theorem matchTemplate_cons (hop : 0x4e < opcode2.toNat) (hne : opcode2 ≠ opPubKeys)
    (h : matchTemplate fuel script (opcode2 :: template) vSolutions = some vSolutionsRet) :
    ∃ opcode1 vch1 pc fuel' vSolutions', getOp script = some (opcode1, vch1, pc) ∧
      matchOpcode opcode1 vch1 opcode2 [] vSolutions = some vSolutions' ∧
      matchTemplate fuel' pc template vSolutions' = some vSolutionsRet := by
  cases fuel with
  | zero => cases h
  | succ fuel =>
    rw [matchTemplate, getOp_of_template hop, if_neg (by simp)] at h
    cases hget : getOp script with
    | none => simp [hget] at h
    | some r =>
      obtain ⟨opcode1, vch1, pc⟩ := r
      simp only [hget] at h
      rw [if_neg hne] at h
      obtain ⟨vSolutions', hmatch, hrest⟩ := bind_eq_some_iff.mp h
      exact ⟨opcode1, vch1, pc, fuel, vSolutions', rfl, hmatch, hrest⟩

/-- The place of the public keys, with the opcode after them. -/
theorem matchTemplate_pubKeys (hop : 0x4e < opcode2.toNat)
    (h : matchTemplate fuel script (opPubKeys :: opcode2 :: template) vSolutions =
    some vSolutionsRet) : ∃ opcode1 vch1 pc opcode1' vch1' pc' vSolutions' fuel' vSolutions'',
      getOp script = some (opcode1, vch1, pc) ∧
      collectPubKeys (pc.length + 1) opcode1 vch1 pc vSolutions =
      (opcode1', vch1', pc', vSolutions') ∧ matchOpcode opcode1' vch1' opcode2 [] vSolutions' =
      some vSolutions'' ∧ matchTemplate fuel' pc' template vSolutions'' = some vSolutionsRet := by
  cases fuel with
  | zero => cases h
  | succ fuel =>
    rw [matchTemplate, getOp_of_template (by decide), if_neg (by simp)] at h
    cases hget : getOp script with
    | none => simp [hget] at h
    | some r =>
      obtain ⟨opcode1, vch1, pc⟩ := r
      simp only [hget] at h
      rw [if_pos trivial, getOp_of_template hop] at h
      cases hcollect : collectPubKeys (pc.length + 1) opcode1 vch1 pc vSolutions with
      | mk opcode1' r =>
        simp only [hcollect] at h
        obtain ⟨vSolutions'', hmatch, hrest⟩ := bind_eq_some_iff.mp h
        exact ⟨_, _, _, _, _, _, _, fuel, vSolutions'', rfl, hcollect, hmatch, hrest⟩

/-- The public keys are read one after the other, up to what is no public key. -/
theorem collectPubKeys_spec {opcode' : UInt8} {vch' : Valtype} {pc' : CScript}
    {vSolutions' : List Valtype} (hfuel : pc.length < fuel)
    (h : collectPubKeys fuel opcode vch pc vSolutions = (opcode', vch', pc', vSolutions')) :
    opcode' = 0xff ∨ ∃ ops : List (UInt8 × Valtype),
    (∀ op ∈ ops, 33 ≤ op.2.length ∧ op.2.length ≤ 120) ∧
      vSolutions' = vSolutions ++ ops.map snd ∧
      ∀ script more, getOp script = some (opcode, vch, pc) → Parses pc' more →
        Parses script (ops ++ (opcode', vch') :: more) := by
  induction fuel generalizing opcode vch pc vSolutions with
  | zero => omega
  | succ fuel ih =>
    rw [collectPubKeys] at h
    split_ifs at h with hkey
    · cases hget : getOp pc with
      | none =>
        simp only [hget] at h
        cases h
        exact .inl rfl
      | some r =>
        simp only [hget] at h
        have hlt := length_of_getOp hget
        rcases ih (by omega) h with hinvalid | ⟨ops, hops, hsol, hparse⟩
        · exact .inl hinvalid
        · refine .inr ⟨(opcode, vch) :: ops, ?_, ?_, ?_⟩
          · rintro op (_ | ⟨_, hmem⟩)
            · exact hkey
            · exact hops op hmem
          · rw [hsol, append_assoc]
            rfl
          · intro script more hscript hmore
            exact .cons hscript (hparse pc more hget hmore)
    · cases h
      refine .inr ⟨[], by simp, by simp, ?_⟩
      intro script more hscript hmore
      exact .cons hscript hmore

theorem matchOpcode_exact {opcode1 opcode2 : UInt8} {vch1 : Valtype} (hop : opcode2.toNat < 0xf9)
    (h : matchOpcode opcode1 vch1 opcode2 [] vSolutions = some vSolutionsRet) :
    opcode1 = opcode2 ∧ vch1 = [] ∧ vSolutionsRet = vSolutions := by
  have hne : ∀ op : UInt8, 0xf9 ≤ op.toNat → opcode2 ≠ op := by
    rintro op hle rfl
    omega
  rw [matchOpcode, if_neg (hne _ (by decide)), if_neg (hne _ (by decide)),
    if_neg (hne _ (by decide)), if_neg (hne _ (by decide))] at h
  split_ifs at h with hdiffer
  cases h
  simp only [not_or, not_not] at hdiffer
  exact ⟨hdiffer.1, hdiffer.2, rfl⟩

theorem matchTemplate_exact (hlow : 0x4e < opcode2.toNat) (hhigh : opcode2.toNat < 0xf9)
    (h : matchTemplate fuel script (opcode2 :: template) vSolutions = some vSolutionsRet) :
    ∃ pc fuel', getOp script = some (opcode2, [], pc) ∧
      matchTemplate fuel' pc template vSolutions = some vSolutionsRet := by
  have hne : opcode2 ≠ opPubKeys := by
    rintro rfl
    exact absurd hhigh (by decide)
  obtain ⟨opcode1, vch1, pc, fuel', vSolutions', hget, hmatch, hrest⟩ :=
    matchTemplate_cons hlow hne h
  obtain ⟨rfl, rfl, rfl⟩ := matchOpcode_exact hhigh hmatch
  exact ⟨pc, fuel', hget, hrest⟩

theorem matchOpcode_pubKey (h : matchOpcode opcode vch opPubKey [] vSolutions =
    some vSolutionsRet) : (33 ≤ vch.length ∧ vch.length ≤ 120) ∧ vSolutionsRet =
    vSolutions ++ [vch] := by
  rw [matchOpcode, if_pos rfl] at h
  split_ifs at h with hlen
  cases h
  exact ⟨by omega, rfl⟩

theorem matchOpcode_pubKeyHash (h : matchOpcode opcode vch opPubKeyHash [] vSolutions =
    some vSolutionsRet) : vch.length = 20 ∧ vSolutionsRet = vSolutions ++ [vch] := by
  rw [matchOpcode, if_neg (by decide), if_pos rfl] at h
  split_ifs at h with hlen
  cases h
  exact ⟨by omega, rfl⟩

theorem matchOpcode_smallInteger
    (h : matchOpcode opcode vch opSmallInteger [] vSolutions = some vSolutionsRet) :
    SmallInteger opcode ∧ vSolutionsRet = vSolutions ++ [[UInt8.ofNat (decodeOpN opcode)]] := by
  rw [matchOpcode, if_neg (by decide), if_neg (by decide), if_pos rfl] at h
  split_ifs at h with hop
  cases h
  exact ⟨hop, rfl⟩

theorem matchOpcode_smallData (h : matchOpcode opcode vch opSmallData [] vSolutions =
    some vSolutionsRet) : vch.length ≤ maxOpReturnRelay ∧ vSolutionsRet = vSolutions := by
  rw [matchOpcode, if_neg (by decide), if_neg (by decide), if_neg (by decide), if_pos rfl] at h
  split_ifs at h with hlen
  cases h
  exact ⟨by omega, rfl⟩

/-! ### What is matched -/

/-- The rest of a template matches the rest of a script, with any number of steps that is enough. -/
def Matches (script template : CScript) (vSolutions vSolutionsRet : List Valtype) : Prop :=
  ∀ fuel, script.length < fuel → matchTemplate fuel script template vSolutions = some vSolutionsRet

namespace Matches

theorem nil : Matches [] [] vSolutions vSolutions := by
  intro fuel hfuel
  obtain ⟨fuel, rfl⟩ := Nat.exists_eq_succ_of_ne_zero (Nat.ne_zero_of_lt hfuel)
  rfl

theorem cons {opcode2 : UInt8} {template : CScript} {vSolutions' : List Valtype}
    (hget : getOp script = some (opcode, vch, pc)) (hop : 0x4e < opcode2.toNat)
    (hne : opcode2 ≠ opPubKeys) (hmatch : matchOpcode opcode vch opcode2 [] vSolutions =
    some vSolutions') (hrest : Matches pc template vSolutions' vSolutionsRet) :
    Matches script (opcode2 :: template) vSolutions vSolutionsRet := by
  intro fuel hfuel
  obtain ⟨fuel, rfl⟩ := Nat.exists_eq_succ_of_ne_zero (Nat.ne_zero_of_lt hfuel)
  have hlt := length_of_getOp hget
  rw [matchTemplate, getOp_of_template hop, hget, if_neg (by simp)]
  simp only
  rw [if_neg hne, hmatch]
  exact hrest fuel (by omega)

theorem exact {opcode2 : UInt8} {template : CScript} (hget : getOp script = some (opcode2, [], pc))
    (hlow : 0x4e < opcode2.toNat) (hhigh : opcode2.toNat < 0xf9)
    (hrest : Matches pc template vSolutions vSolutionsRet) :
    Matches script (opcode2 :: template) vSolutions vSolutionsRet := by
  have hne : ∀ op : UInt8, 0xf9 ≤ op.toNat → opcode2 ≠ op := by
    rintro op hle rfl
    omega
  refine cons hget hlow (hne _ (by decide)) ?_ hrest
  rw [matchOpcode, if_neg (hne _ (by decide)), if_neg (hne _ (by decide)),
    if_neg (hne _ (by decide)), if_neg (hne _ (by decide)), if_neg (by simp)]

end Matches

variable {ops more : List (UInt8 × Valtype)}

theorem collectPubKeys_of_parses {opcode' : UInt8}
    {vch' : Valtype} (hops : ∀ op ∈ ops, 33 ≤ op.2.length ∧ op.2.length ≤ 120)
    (hstop : ¬ (33 ≤ vch'.length ∧ vch'.length ≤ 120))
    (hparse : Parses script (ops ++ (opcode', vch') :: more)) :
    ∃ opcode vch pc, getOp script = some (opcode, vch, pc) ∧ ∀ fuel vSolutions, pc.length < fuel →
      ∃ pc', Parses pc' more ∧ pc'.length ≤ pc.length ∧
        collectPubKeys fuel opcode vch pc vSolutions =
          (opcode', vch', pc', vSolutions ++ ops.map snd) := by
  induction ops generalizing script with
  | nil =>
    cases hparse with
    | cons hget hrest =>
      refine ⟨_, _, _, hget, fun fuel vSolutions hfuel => ⟨_, hrest, le_rfl, ?_⟩⟩
      obtain ⟨fuel, rfl⟩ := Nat.exists_eq_succ_of_ne_zero (Nat.ne_zero_of_lt hfuel)
      rw [collectPubKeys, if_neg hstop, map_nil, append_nil]
  | cons op ops ih =>
    obtain ⟨opcode, vch⟩ := op
    cases hparse with
    | cons hget hrest =>
      obtain ⟨opcode1, vch1, pc1, hget1, hcollect⟩ := ih (fun op' h => hops op' (.tail _ h)) hrest
      refine ⟨_, _, _, hget, fun fuel vSolutions hfuel => ?_⟩
      obtain ⟨fuel, rfl⟩ := Nat.exists_eq_succ_of_ne_zero (Nat.ne_zero_of_lt hfuel)
      have hlt := length_of_getOp hget1
      obtain ⟨pc', hmore, hle, hrun⟩ := hcollect fuel (vSolutions ++ [vch]) (by omega)
      refine ⟨pc', hmore, by omega, ?_⟩
      rw [collectPubKeys, if_pos (hops _ (.head _)), hget1]
      simp only
      rw [hrun, append_assoc]
      rfl

/-- The place of the public keys. -/
theorem Matches.pubKeys {opcode' opcode2 : UInt8}
    {vch' : Valtype} {vSolutions' : List Valtype}
    (hops : ∀ op ∈ ops, 33 ≤ op.2.length ∧ op.2.length ≤ 120)
    (hstop : ¬ (33 ≤ vch'.length ∧ vch'.length ≤ 120))
    (hparse : Parses script (ops ++ (opcode', vch') :: more)) (hop : 0x4e < opcode2.toNat)
    (hmatch : matchOpcode opcode' vch' opcode2 [] (vSolutions ++ ops.map snd) =
    some vSolutions')
    (hrest : ∀ pc, Parses pc more → Matches pc template vSolutions' vSolutionsRet) :
    Matches script (opPubKeys :: opcode2 :: template) vSolutions vSolutionsRet := by
  intro fuel hfuel
  obtain ⟨fuel, rfl⟩ := Nat.exists_eq_succ_of_ne_zero (Nat.ne_zero_of_lt hfuel)
  obtain ⟨opcode, vch, pc, hget, hcollect⟩ := collectPubKeys_of_parses hops hstop hparse
  have hlt := length_of_getOp hget
  obtain ⟨pc', hmore, hle, hrun⟩ := hcollect (pc.length + 1) vSolutions (Nat.lt_succ_self _)
  rw [matchTemplate, getOp_of_template (by decide), hget, if_neg (by simp)]
  simp only
  rw [if_pos trivial, getOp_of_template hop, hrun]
  simp only
  rw [hmatch]
  exact hrest pc' hmore fuel (by omega)

/-! ### Forms -/

/-- A script has the form of a template: what it reads as, and what the template notes of it. -/
inductive Form (script : CScript) : TxnOutType → List Valtype → Prop
  | pubKey {op : UInt8} {v : Valtype} (hparse : Parses script [(op, v), (0xac, [])])
      (hlen : 33 ≤ v.length ∧ v.length ≤ 120) : Form script .pubKey [v]
  | pubKeyHash {op : UInt8} {v : Valtype}
      (hparse : Parses script [(0x76, []), (0xa9, []), (op, v), (0x88, []), (0xac, [])])
      (hlen : v.length = 20) : Form script .pubKeyHash [v]
  | multiSig {opm opn : UInt8} {vm vn : Valtype} {ops : List (UInt8 × Valtype)}
      (hparse : Parses script ((opm, vm) :: (ops ++ [(opn, vn), (0xae, [])])))
      (hm : SmallInteger opm) (hn : SmallInteger opn)
      (hops : ∀ op ∈ ops, 33 ≤ op.2.length ∧ op.2.length ≤ 120) :
      Form script .multiSig
        ([UInt8.ofNat (decodeOpN opm)] :: (ops.map snd ++ [[UInt8.ofNat (decodeOpN opn)]]))
  | nullData {op : UInt8} {v : Valtype} (hparse : Parses script [(0x6a, []), (op, v)])
      (hlen : v.length ≤ maxOpReturnRelay) : Form script .nullData []
  | noData (hparse : Parses script [(0x6a, [])]) : Form script .nullData []

/-- A script that a template matches has its form. -/
theorem form_of_match (hmem : (type, template) ∈ mTemplates)
    (hmatch : matchTemplate fuel script template [] = some vSolutions) :
    Form script type vSolutions := by
  simp only [mTemplates, mem_cons, not_mem_nil, or_false] at hmem
  rcases hmem with ⟨rfl, rfl⟩ | ⟨rfl, rfl⟩ | ⟨rfl, rfl⟩ | ⟨rfl, rfl⟩ | ⟨rfl, rfl⟩
  · obtain ⟨op, v, pc, _, _, hget, hkey, hmatch⟩ := matchTemplate_cons (by decide)
      (by decide) hmatch
    obtain ⟨hlen, rfl⟩ := matchOpcode_pubKey hkey
    obtain ⟨pc', _, hget', hmatch⟩ := matchTemplate_exact (by decide) (by decide) hmatch
    obtain ⟨rfl, rfl⟩ := matchTemplate_nil hmatch
    exact .pubKey (.cons hget (.cons hget' .nil)) hlen
  · obtain ⟨pc1, _, hget1, hmatch⟩ := matchTemplate_exact (by decide) (by decide) hmatch
    obtain ⟨pc2, _, hget2, hmatch⟩ := matchTemplate_exact (by decide) (by decide) hmatch
    obtain ⟨op, v, pc3, _, _, hget3, hkey, hmatch⟩ := matchTemplate_cons (by decide)
      (by decide) hmatch
    obtain ⟨hlen, rfl⟩ := matchOpcode_pubKeyHash hkey
    obtain ⟨pc4, _, hget4, hmatch⟩ := matchTemplate_exact (by decide) (by decide) hmatch
    obtain ⟨pc5, _, hget5, hmatch⟩ := matchTemplate_exact (by decide) (by decide) hmatch
    obtain ⟨rfl, rfl⟩ := matchTemplate_nil hmatch
    exact .pubKeyHash (.cons hget1 (.cons hget2 (.cons hget3 (.cons hget4 (.cons hget5 .nil)))))
      hlen
  · obtain ⟨opm, vm, pc1, _, _, hget1, hmatchM, hmatch⟩ := matchTemplate_cons (by decide)
      (by decide) hmatch
    obtain ⟨hm, rfl⟩ := matchOpcode_smallInteger hmatchM
    obtain ⟨op, v, pc2, opn, vn, pc3, _, _, _, hget2, hkeys, hmatchN, hmatch⟩ :=
      matchTemplate_pubKeys (by decide) hmatch
    obtain ⟨hn, rfl⟩ := matchOpcode_smallInteger hmatchN
    rcases collectPubKeys_spec (Nat.lt_succ_self _) hkeys with rfl | ⟨ops, hops, rfl, hparse⟩
    · clear hmatchN
      exact absurd hn (by unfold SmallInteger; decide)
    obtain ⟨pc4, _, hget4, hmatch⟩ := matchTemplate_exact (by decide) (by decide) hmatch
    obtain ⟨rfl, rfl⟩ := matchTemplate_nil hmatch
    exact .multiSig (.cons hget1 (hparse _ _ hget2 (.cons hget4 .nil))) hm hn hops
  · obtain ⟨pc1, _, hget1, hmatch⟩ := matchTemplate_exact (by decide) (by decide) hmatch
    obtain ⟨op, v, pc2, _, _, hget2, hdata, hmatch⟩ := matchTemplate_cons (by decide)
      (by decide) hmatch
    obtain ⟨hlen, rfl⟩ := matchOpcode_smallData hdata
    obtain ⟨rfl, rfl⟩ := matchTemplate_nil hmatch
    exact .nullData (.cons hget1 (.cons hget2 .nil)) hlen
  · obtain ⟨pc1, _, hget1, hmatch⟩ := matchTemplate_exact (by decide) (by decide) hmatch
    obtain ⟨rfl, rfl⟩ := matchTemplate_nil hmatch
    exact .noData (.cons hget1 .nil)

theorem SmallInteger.matchOpcode (hop : SmallInteger opcode) :
    matchOpcode opcode vch opSmallInteger [] vSolutions =
      some (vSolutions ++ [[UInt8.ofNat (decodeOpN opcode)]]) := by
  exact if_pos hop

/-- A script with the form of a template is matched by it. -/
theorem Form.matches (h : Form script type vSolutions) : ∃ template,
    (type, template) ∈ mTemplates ∧ Matches script template [] vSolutions := by
  cases h with
  | pubKey hparse hlen =>
    obtain _ | ⟨hget1, _ | ⟨hget2, _ | _⟩⟩ := hparse
    refine ⟨[opPubKey, 0xac], .head _, .cons hget1 (by decide) (by decide) ?_
      (.exact hget2 (by decide) (by decide) .nil)⟩
    rw [matchOpcode, if_pos rfl, if_neg (by omega)]
    rfl
  | pubKeyHash hparse hlen =>
    obtain _ | ⟨hget1, _ | ⟨hget2, _ | ⟨hget3, _ | ⟨hget4, _ | ⟨hget5, _ | _⟩⟩⟩⟩⟩ := hparse
    refine ⟨[0x76, 0xa9, opPubKeyHash, 0x88, 0xac], .tail _ (.head _),
      .exact hget1 (by decide) (by decide) (.exact hget2 (by decide) (by decide)
      (.cons hget3 (by decide) (by decide) ?_ (.exact hget4 (by decide) (by decide)
      (.exact hget5 (by decide) (by decide) .nil))))⟩
    rw [matchOpcode, if_neg (by decide), if_pos rfl, if_neg (by omega)]
    rfl
  | @multiSig opm opn vm vn ops hparse hm hn hops =>
    obtain _ | ⟨hget, hrest⟩ := hparse
    obtain ⟨script', pc', hgetN⟩ := hrest.getOp_of_mem (opn, vn)
      (mem_append_right _ (mem_cons_self))
    have hvn : vn = [] := hn.data_eq_nil hgetN
    refine ⟨[opSmallInteger, opPubKeys, opSmallInteger, 0xae], .tail _ (.tail _ (.head _)),
      .cons hget (by decide) (by decide) hm.matchOpcode
        (.pubKeys hops ?_ hrest (by decide) hn.matchOpcode fun pc hparse => ?_)⟩
    · rw [hvn]
      simp
    · obtain _ | ⟨hget', _ | _⟩ := hparse
      exact .exact hget' (by decide) (by decide) .nil
  | nullData hparse hlen =>
    obtain _ | ⟨hget1, _ | ⟨hget2, _ | _⟩⟩ := hparse
    refine ⟨[0x6a, opSmallData], .tail _ (.tail _ (.tail _ (.head _))),
      .exact hget1 (by decide) (by decide) (.cons hget2 (by decide) (by decide) ?_ .nil)⟩
    rw [matchOpcode, if_neg (by decide), if_neg (by decide), if_neg (by decide), if_pos rfl,
      if_neg (by omega)]
  | noData hparse =>
    obtain _ | ⟨hget, _ | _⟩ := hparse
    exact ⟨[0x6a], .tail _ (.tail _ (.tail _ (.tail _ (.head _)))),
      .exact hget (by decide) (by decide) .nil⟩

/-- The type that the number of opcodes and the last of them show. -/
def typeOf (ops : List (UInt8 × Valtype)) : TxnOutType :=
  if 3 ≤ ops.length ∧ ops.getLast?.map fst = some 0xae then .multiSig
  else if ops.length = 3 then .scriptHash
  else if ops.length = 5 then .pubKeyHash
  else if ops.length = 2 ∧ ops.head?.map snd ≠ some [] then .pubKey
  else .nullData

theorem Form.typeOf_eq (h : Form script type vSolutions) :
    ∃ ops, Parses script ops ∧ typeOf ops = type := by
  cases h with
  | pubKey hparse hlen =>
    refine ⟨_, hparse, ?_⟩
    rw [typeOf, if_neg (by simp), if_neg (by simp), if_neg (by simp), if_pos]
    refine ⟨rfl, fun hnil => ?_⟩
    simp only [head?_cons, map_some, some.injEq] at hnil
    rw [hnil, length_nil] at hlen
    omega
  | pubKeyHash hparse hlen =>
    refine ⟨_, hparse, ?_⟩
    rw [typeOf, if_neg (by simp), if_neg (by simp), if_pos (by simp)]
  | multiSig hparse hm hn hops =>
    refine ⟨_, hparse, ?_⟩
    rw [← cons_append, append_cons, typeOf, getLast?_concat, if_pos ⟨by simp, rfl⟩]
  | nullData hparse hlen =>
    refine ⟨_, hparse, ?_⟩
    rw [typeOf, if_neg (by simp), if_neg (by simp), if_neg (by simp), if_neg (by simp)]
  | noData hparse =>
    refine ⟨_, hparse, ?_⟩
    rw [typeOf, if_neg (by simp), if_neg (by simp), if_neg (by simp), if_neg (by simp)]

/-- A script has one form at most. -/
theorem Form.unique {type' : TxnOutType} (h : Form script type vSolutions)
    (h' : Form script type' vSolutionsRet) : type' = type ∧ vSolutionsRet = vSolutions := by
  obtain ⟨ops, hparse, htype⟩ := h.typeOf_eq
  obtain ⟨ops', hparse', htype'⟩ := h'.typeOf_eq
  obtain rfl := hparse.unique hparse'
  obtain rfl : type' = type := htype'.symm.trans htype
  refine ⟨rfl, ?_⟩
  cases h with
  | pubKey hparse _ =>
    cases h' with
    | pubKey hparse' _ =>
      cases hparse.unique hparse'
      rfl
  | pubKeyHash hparse _ =>
    cases h' with
    | pubKeyHash hparse' _ =>
      cases hparse.unique hparse'
      rfl
  | multiSig hparse _ _ _ =>
    cases h' with
    | multiSig hparse' _ _ _ =>
      have heq := cons.inj (hparse.unique hparse')
      have htail := append_inj' heq.2 rfl
      cases heq.1
      cases htail.1
      cases htail.2
      rfl
  | nullData _ _ => cases h' <;> rfl
  | noData _ => cases h' <;> rfl

/-! ### Scans -/

/-- The check of the numbers of a multisig script. -/
def fitsMultiSig (vSolutions : List Valtype) : Bool :=
  let m := ((vSolutions.headD []).getD 0 0).toNat
  let n := ((vSolutions.getLastD []).getD 0 0).toNat
  !(decide (m < 1) || decide (n < 1) || decide (m > n) || decide (vSolutions.length - 2 ≠ n))

theorem scanTemplates_cases (script : CScript) (templates : List (TxnOutType × CScript)) :
    (scanTemplates script templates = (false, .nonStandard, []) ∧ ∀ t ∈ templates,
      matchTemplate (script.length + 1) script t.2 [] = none) ∨
    ∃ type template vSolutions, (type, template) ∈ templates ∧
      matchTemplate (script.length + 1) script template [] = some vSolutions ∧
      scanTemplates script templates =
        (decide (type ≠ .multiSig) || fitsMultiSig vSolutions, type, vSolutions) := by
  induction templates with
  | nil => exact .inl ⟨rfl, fun _ h => absurd h not_mem_nil⟩
  | cons t templates ih =>
    obtain ⟨type, template⟩ := t
    rw [scanTemplates]
    cases hmatch : matchTemplate (script.length + 1) script template [] with
    | none =>
      rcases ih with ⟨hscan, hnone⟩ | ⟨type', template', vSolutions, hmem, hrest⟩
      · refine .inl ⟨hscan, fun t ht => ?_⟩
        rcases mem_cons.mp ht with rfl | ht
        · exact hmatch
        · exact hnone t ht
      · exact .inr ⟨type', template', vSolutions, .tail _ hmem, hrest⟩
    | some vSolutions =>
      refine .inr ⟨type, template, vSolutions, .head _, hmatch, ?_⟩
      by_cases htype : type = .multiSig
      · simp only [htype]
        rfl
      · simp only
        rw [if_neg htype, decide_eq_true htype, Bool.true_or]

theorem parses_of_isPayToScriptHash (h : isPayToScriptHash script = true) :
    Parses script [(0xa9, []), (0x14, (script.drop 2).take 20), (0x87, [])] := by
  unfold isPayToScriptHash at h
  simp only [Bool.and_eq_true, beq_iff_eq] at h
  obtain ⟨⟨⟨hlen, h0⟩, h1⟩, h22⟩ := h
  match script, hlen with
  | op0 :: op1 :: rest, hlen =>
    simp only [length_cons, Nat.reduceEqDiff] at hlen
    subst h0 h1
    have hdrop : rest.drop 20 = [0x87] := by
      rw [← h22, drop_eq_getElem_cons (by omega), drop_eq_nil_of_le (by omega)]
      simp [hlen]
    refine .cons (getOp_of_template (by decide))
      (.cons ?_ (.cons (show getOp [0x87] = _ from rfl) .nil))
    rw [getOp, if_pos (by decide), show pushLength 0x14 rest = some (20, rest) from rfl]
    simp [hlen, hdrop]

theorem length_of_isPayToScriptHash (h : isPayToScriptHash script = true) :
    ((script.drop 2).take 20).length = 20 := by
  unfold isPayToScriptHash at h
  simp only [Bool.and_eq_true, beq_iff_eq] at h
  rw [length_take, length_drop, h.1.1.1]
  rfl

theorem Form.not_payToScriptHash (h : Form script type vSolutions) :
    isPayToScriptHash script = false := by
  rw [← Bool.not_eq_true]
  intro hp2sh
  obtain ⟨ops, hparse, htype⟩ := h.typeOf_eq
  rw [hparse.unique (parses_of_isPayToScriptHash hp2sh)] at htype
  cases h <;> cases htype

theorem solver_of_form (h : Form script type vSolutions) :
    solver script = (decide (type ≠ .multiSig) || fitsMultiSig vSolutions, type, vSolutions) := by
  rw [solver, h.not_payToScriptHash, if_neg Bool.false_ne_true]
  rcases scanTemplates_cases script mTemplates with
    ⟨-, hnone⟩ | ⟨type', template, vSolutions', hmem, hmatch, hscan⟩
  · obtain ⟨template, hmem, hmatches⟩ := h.matches
    have := hnone _ hmem
    rw [hmatches _ (Nat.lt_succ_self _)] at this
    cases this
  · obtain ⟨rfl, rfl⟩ := h.unique (form_of_match hmem hmatch)
    exact hscan

theorem solver_of_not_form (hp2sh : isPayToScriptHash script = false)
    (h : ∀ type vSolutions, ¬ Form script type vSolutions) :
    solver script = (false, .nonStandard, []) := by
  rw [solver, hp2sh, if_neg Bool.false_ne_true]
  rcases scanTemplates_cases script mTemplates with
    ⟨hscan, -⟩ | ⟨type, template, vSolutions, hmem, hmatch, -⟩
  · exact hscan
  · exact absurd (form_of_match hmem hmatch) (h type vSolutions)

theorem solver_cases (script : CScript) : (isPayToScriptHash script = true ∧
      solver script = (true, .scriptHash, [(script.drop 2).take 20])) ∨
    (∃ type vSolutions, Form script type vSolutions ∧
      solver script = (decide (type ≠ .multiSig) || fitsMultiSig vSolutions, type, vSolutions)) ∨
    (isPayToScriptHash script = false ∧ (∀ type vSolutions, ¬ Form script type vSolutions) ∧
      solver script = (false, .nonStandard, [])) := by
  cases hp2sh : isPayToScriptHash script with
  | true => exact .inl ⟨rfl, by rw [solver, if_pos hp2sh]⟩
  | false =>
    by_cases h : ∃ type vSolutions, Form script type vSolutions
    · obtain ⟨type, vSolutions, hform⟩ := h
      exact .inr (.inl ⟨type, vSolutions, hform, solver_of_form hform⟩)
    · have hnone : ∀ type vSolutions, ¬ Form script type vSolutions :=
        fun type vSolutions hform => h ⟨type, vSolutions, hform⟩
      exact .inr (.inr ⟨rfl, hnone, solver_of_not_form hp2sh hnone⟩)

theorem solver_eq_true (h : solver script = (true, type, vSolutions)) :
    isPayToScriptHash script = true ∧ type = .scriptHash ∧ vSolutions = [(script.drop 2).take 20] ∨
      Form script type vSolutions ∧ (type = .multiSig → fitsMultiSig vSolutions = true) := by
  rcases solver_cases script with ⟨hp2sh, hsolver⟩ | ⟨type', vSolutions', hform, hsolver⟩ |
    ⟨-, -, hsolver⟩
  · rw [hsolver] at h
    cases h
    exact .inl ⟨hp2sh, rfl, rfl⟩
  · rw [hsolver] at h
    injection h with hfits hrest
    cases hrest
    exact .inr ⟨hform, fun htype => by simpa [htype] using hfits⟩
  · rw [hsolver] at h
    cases h

/-! ### Standard scripts -/

theorem decodeOpN_le (h : SmallInteger opcode) : decodeOpN opcode ≤ 16 := by
  rw [decodeOpN]
  split_ifs with hzero
  · omega
  · rcases h with rfl | h
    · exact absurd rfl hzero
    · omega

theorem toNat_decodeOpN (h : SmallInteger opcode) :
    (UInt8.ofNat (decodeOpN opcode)).toNat = decodeOpN opcode := by
  have := decodeOpN_le h
  rw [UInt8.toNat_ofNat']
  omega

theorem fitsMultiSig_iff {opm opn : UInt8} (keys : List Valtype) (hm : SmallInteger opm)
    (hn : SmallInteger opn) :
    fitsMultiSig ([UInt8.ofNat (decodeOpN opm)] :: (keys ++ [[UInt8.ofNat (decodeOpN opn)]])) =
      true ↔ 1 ≤ decodeOpN opm ∧ decodeOpN opm ≤ decodeOpN opn ∧ keys.length = decodeOpN opn := by
  simp only [fitsMultiSig, headD_cons, getLastD_cons, getLastD_concat,
    getD_cons_zero, toNat_decodeOpN hm, toNat_decodeOpN hn, length_cons,
    length_append, length_nil, Bool.not_eq_true', Bool.or_eq_false_iff,
    decide_eq_false_iff_not]
  omega

/-- A script has a standard type: what it reads as, and what `Solver` returns of it. -/
inductive Standard (script : CScript) : TxnOutType → List Valtype → Prop
  | pubKey {op : UInt8} {v : Valtype} (hparse : Parses script [(op, v), (0xac, [])])
      (hlen : 33 ≤ v.length ∧ v.length ≤ 120) : Standard script .pubKey [v]
  | pubKeyHash {op : UInt8} {v : Valtype}
      (hparse : Parses script [(0x76, []), (0xa9, []), (op, v), (0x88, []), (0xac, [])])
      (hlen : v.length = 20) : Standard script .pubKeyHash [v]
  | scriptHash {op : UInt8} {v : Valtype} (hparse : Parses script [(0xa9, []), (op, v), (0x87, [])])
      (hlen : v.length = 20) : Standard script .scriptHash [v]
  | multiSig {opm opn : UInt8} {vm vn : Valtype} {ops : List (UInt8 × Valtype)}
      (hparse : Parses script ((opm, vm) :: (ops ++ [(opn, vn), (0xae, [])])))
      (hm : opm = 0 ∨ 0x51 ≤ opm.toNat ∧ opm.toNat ≤ 0x60)
      (hn : opn = 0 ∨ 0x51 ≤ opn.toNat ∧ opn.toNat ≤ 0x60)
      (hops : ∀ op ∈ ops, 33 ≤ op.2.length ∧ op.2.length ≤ 120)
      (hle : decodeOpN opm ≤ ops.length) (hdecode : decodeOpN opn = ops.length) :
      Standard script .multiSig
        ([UInt8.ofNat (decodeOpN opm)] :: (ops.map snd ++ [[UInt8.ofNat (decodeOpN opn)]]))
  | nullData (vSolutions : List Valtype) : Standard script .nullData vSolutions

/-- **What `Solver` recognizes.** -/
theorem standard_of_solver (h : solver script = (true, type, vSolutions)) :
    Standard script type vSolutions := by
  rcases solver_eq_true h with ⟨hp2sh, rfl, rfl⟩ | ⟨hform, hfits⟩
  · exact .scriptHash (parses_of_isPayToScriptHash hp2sh) (length_of_isPayToScriptHash hp2sh)
  · cases hform with
    | pubKey hparse hlen => exact .pubKey hparse hlen
    | pubKeyHash hparse hlen => exact .pubKeyHash hparse hlen
    | multiSig hparse hm hn hops =>
      obtain ⟨hone, hle, hlen⟩ := (fitsMultiSig_iff _ hm hn).mp (hfits rfl)
      rw [length_map] at hlen
      exact .multiSig hparse hm hn hops (by omega) hlen.symm
    | nullData _ _ => exact .nullData _
    | noData _ => exact .nullData _

/-! ### The grammar -/

/-- One push of data of some length. -/
structure IsPush (op : UInt8 × Valtype) (low high : ℕ) : Prop where
  opcode : op.1.toNat ≤ 0x4e
  low : low ≤ op.2.length
  high : op.2.length ≤ high

theorem IsPush.of_getOp {v : Valtype} {low high : ℕ} (hget : getOp script = some (opcode, v, pc))
    (hpos : 0 < low) (hlow : low ≤ v.length) (hhigh : v.length ≤ high) :
    IsPush (opcode, v) low high := by
  refine ⟨?_, hlow, hhigh⟩
  by_contra hop
  rw [data_eq_nil hget (.inr (Nat.lt_of_not_le hop)), length_nil] at hlow
  omega

theorem isPush_of_parses {ops : List (UInt8 × Valtype)} {op : UInt8 × Valtype} {low high : ℕ}
    (h : Parses script ops) (hop : op ∈ ops) (hpos : 0 < low) (hlow : low ≤ op.2.length)
    (hhigh : op.2.length ≤ high) : IsPush op low high := by
  obtain ⟨script', pc, hget⟩ := h.getOp_of_mem op hop
  exact .of_getOp hget hpos hlow hhigh

/-- `OP_m`, for a number from 1 to 16. -/
def opOfNumber (m : ℕ) : UInt8 := UInt8.ofNat (0x50 + m)

variable {m : ℕ}

theorem toNat_opOfNumber (hm : m ≤ 16) : (opOfNumber m).toNat = 0x50 + m := by
  rw [opOfNumber, UInt8.toNat_ofNat']
  omega

theorem smallInteger_opOfNumber (h1 : 1 ≤ m) (hm : m ≤ 16) : SmallInteger (opOfNumber m) := by
  have := toNat_opOfNumber hm
  exact .inr ⟨by omega, by omega⟩

theorem decodeOpN_opOfNumber (h1 : 1 ≤ m) (hm : m ≤ 16) : decodeOpN (opOfNumber m) = m := by
  have := toNat_opOfNumber hm
  have hne : opOfNumber m ≠ 0 := by
    intro hzero
    rw [hzero] at this
    simp at this
    omega
  rw [decodeOpN, if_neg hne]
  omega

theorem SmallInteger.eq_opOfNumber (h : SmallInteger opcode) (h1 : 1 ≤ decodeOpN opcode) :
    opcode = opOfNumber (decodeOpN opcode) := by
  rcases h with rfl | h
  · exact absurd h1 (by decide)
  · have hne : opcode ≠ 0 := by
      rintro rfl
      exact absurd h.1 (by decide)
    have hdecode : decodeOpN opcode = opcode.toNat - 0x50 := by rw [decodeOpN, if_neg hne]
    rw [hdecode, opOfNumber, Nat.add_sub_cancel' (by omega), UInt8.ofNat_toNat]

/-- A multisig script: `OP_m`, the keys, `OP_n` and `OP_CHECKMULTISIG`. -/
structure IsMultiSig (script : CScript) (m : ℕ) (keys : List (UInt8 × Valtype)) : Prop where
  parses : Parses script ((opOfNumber m, []) ::
    (keys ++ [(opOfNumber keys.length, []), (0xae, [])]))
  pushes : ∀ key ∈ keys, IsPush key 33 120
  one : 1 ≤ m
  le : m ≤ keys.length
  sixteen : keys.length ≤ 16

theorem IsMultiSig.form {keys : List (UInt8 × Valtype)} (h : IsMultiSig script m keys) :
    Form script .multiSig
      ([UInt8.ofNat m] :: (keys.map snd ++ [[UInt8.ofNat keys.length]])) := by
  have hm := h.le.trans h.sixteen
  have hform := Form.multiSig h.parses (smallInteger_opOfNumber h.one hm)
    (smallInteger_opOfNumber (h.one.trans h.le) h.sixteen)
    fun op hop => ⟨(h.pushes op hop).low, (h.pushes op hop).high⟩
  rwa [decodeOpN_opOfNumber h.one hm, decodeOpN_opOfNumber (h.one.trans h.le) h.sixteen] at hform

theorem IsMultiSig.fits {keys : List (UInt8 × Valtype)} (h : IsMultiSig script m keys) :
    fitsMultiSig ([UInt8.ofNat m] :: (keys.map snd ++ [[UInt8.ofNat keys.length]])) =
      true := by
  have hm := h.le.trans h.sixteen
  have hfits := fitsMultiSig_iff (keys.map snd) (smallInteger_opOfNumber h.one hm)
    (smallInteger_opOfNumber (h.one.trans h.le) h.sixteen)
  rw [decodeOpN_opOfNumber h.one hm, decodeOpN_opOfNumber (h.one.trans h.le) h.sixteen,
    length_map] at hfits
  exact hfits.mpr ⟨h.one, h.le, rfl⟩

/-- `Solver` gives a type for the scripts of a form, when numbers of multisig scripts fit. -/
theorem solver_eq_true_iff (hp2sh : type ≠ .scriptHash) : solver script = (true, type, vSolutions) ↔
      Form script type vSolutions ∧ (type = .multiSig → fitsMultiSig vSolutions = true) := by
  constructor
  · exact fun h => (solver_eq_true h).resolve_left fun hs => hp2sh hs.2.1
  · rintro ⟨hform, hfits⟩
    rw [solver_of_form hform]
    by_cases htype : type = .multiSig
    · rw [hfits htype, Bool.or_true]
    · rw [decide_eq_true htype, Bool.true_or]

theorem isPayToScriptHash_iff : isPayToScriptHash script = true ↔
    ∃ h : Valtype, h.length = 20 ∧ script = 0xa9 :: 0x14 :: (h ++ [0x87]) := by
  constructor
  · intro hp2sh
    have hlength := length_of_isPayToScriptHash hp2sh
    refine ⟨_, hlength, ?_⟩
    unfold isPayToScriptHash at hp2sh
    simp only [Bool.and_eq_true, beq_iff_eq] at hp2sh
    obtain ⟨⟨⟨hlen, h0⟩, h1⟩, h22⟩ := hp2sh
    obtain _ | ⟨a, _ | ⟨b, rest⟩⟩ := script
    · cases hlen
    · cases hlen
    · simp only [length_cons, Nat.reduceEqDiff] at hlen
      simp only [getD_cons_zero, getD_cons_succ] at h0 h1 h22
      have hdrop : rest.drop 20 = [0x87] := by
        rw [← h22, drop_eq_getElem_cons (by omega), drop_eq_nil_of_le (by omega)]
        simp [hlen]
      rw [h0, h1, drop_succ_cons, drop_succ_cons, drop_zero, ← hdrop, take_append_drop]
  · rintro ⟨h, hlen, rfl⟩
    simp only [isPayToScriptHash, length_cons, length_append, hlen, length_nil,
      getD_cons_zero, getD_cons_succ, Bool.and_eq_true, beq_iff_eq]
    refine ⟨⟨⟨trivial, trivial⟩, trivial⟩, ?_⟩
    rw [getD_eq_getElem?_getD, getElem?_append_right (by omega), hlen]
    rfl

theorem solver_scriptHash_iff : solver script = (true, .scriptHash, vSolutions) ↔
    ∃ h : Valtype, h.length = 20 ∧ script = 0xa9 :: 0x14 :: (h ++ [0x87]) ∧ vSolutions = [h] := by
  constructor
  · intro h
    rcases solver_eq_true h with ⟨hp2sh, -, rfl⟩ | ⟨hform, -⟩
    · obtain ⟨v, hlen, rfl⟩ := isPayToScriptHash_iff.mp hp2sh
      refine ⟨v, hlen, rfl, ?_⟩
      rw [drop_succ_cons, drop_succ_cons, drop_zero, ← hlen, take_left]
    · cases hform
  · rintro ⟨v, hlen, rfl, rfl⟩
    rw [solver, if_pos (isPayToScriptHash_iff.mpr ⟨v, hlen, rfl⟩), drop_succ_cons,
      drop_succ_cons, drop_zero, ← hlen, take_left]

theorem solver_pubKey_iff : solver script = (true, .pubKey, vSolutions) ↔
    ∃ op : UInt8 × Valtype, IsPush op 33 120 ∧ Parses script [op, (0xac, [])] ∧
      vSolutions = [op.2] := by
  rw [solver_eq_true_iff (show TxnOutType.pubKey ≠ .scriptHash by decide)]
  constructor
  · rintro ⟨hform, -⟩
    cases hform with
    | pubKey hparse hlen =>
      exact ⟨_, isPush_of_parses hparse (.head _) (by decide) hlen.1 hlen.2, hparse, rfl⟩
  · rintro ⟨op, hpush, hparse, rfl⟩
    exact ⟨.pubKey hparse ⟨hpush.low, hpush.high⟩, fun h => absurd h (by decide)⟩

theorem solver_pubKeyHash_iff : solver script = (true, .pubKeyHash, vSolutions) ↔
    ∃ op : UInt8 × Valtype, IsPush op 20 20 ∧
      Parses script [(0x76, []), (0xa9, []), op, (0x88, []), (0xac, [])] ∧
      vSolutions = [op.2] := by
  rw [solver_eq_true_iff (show TxnOutType.pubKeyHash ≠ .scriptHash by decide)]
  constructor
  · rintro ⟨hform, -⟩
    cases hform with
    | pubKeyHash hparse hlen =>
      exact ⟨_, isPush_of_parses hparse (.tail _ (.tail _ (.head _))) (by decide) hlen.ge hlen.le,
        hparse, rfl⟩
  · rintro ⟨op, hpush, hparse, rfl⟩
    exact ⟨.pubKeyHash hparse (le_antisymm hpush.high hpush.low), fun h => absurd h (by decide)⟩

theorem solver_multiSig_iff : solver script = (true, .multiSig, vSolutions) ↔
    ∃ m keys, IsMultiSig script m keys ∧
      vSolutions = [UInt8.ofNat m] :: (keys.map snd ++ [[UInt8.ofNat keys.length]]) := by
  rw [solver_eq_true_iff (show TxnOutType.multiSig ≠ .scriptHash by decide)]
  constructor
  · rintro ⟨hform, hfits⟩
    cases hform with
    | @multiSig opm opn vm vn ops hparse hm hn hops =>
      obtain ⟨hone, hle, hlen⟩ := (fitsMultiSig_iff _ hm hn).mp (hfits rfl)
      rw [length_map] at hlen
      obtain ⟨script1, pc1, hgetM⟩ := hparse.getOp_of_mem (opm, vm) (.head _)
      obtain ⟨script2, pc2, hgetN⟩ := hparse.getOp_of_mem (opn, vn)
        (.tail _ (mem_append_right _ mem_cons_self))
      obtain rfl : vm = [] := hm.data_eq_nil hgetM
      obtain rfl : vn = [] := hn.data_eq_nil hgetN
      refine ⟨decodeOpN opm, ops, ⟨?_, fun key hkey => ?_, hone, by omega, ?_⟩, by rw [hlen]⟩
      · rw [hlen, ← hm.eq_opOfNumber hone, ← hn.eq_opOfNumber (hone.trans hle)]
        exact hparse
      · exact isPush_of_parses hparse (.tail _ (mem_append_left _ hkey)) (by decide)
          (hops key hkey).1 (hops key hkey).2
      · rw [hlen]
        exact decodeOpN_le hn
  · rintro ⟨m, keys, hmulti, rfl⟩
    exact ⟨hmulti.form, fun _ => hmulti.fits⟩

theorem solver_nullData_iff
    (hdata : ∀ op : UInt8 × Valtype, Parses script [(0x6a, []), op] → op.1.toNat ≤ 0x4e) :
    solver script = (true, .nullData, vSolutions) ↔
      (Parses script [(0x6a, [])] ∨ ∃ op : UInt8 × Valtype, IsPush op 0 maxOpReturnRelay ∧
        Parses script [(0x6a, []), op]) ∧ vSolutions = [] := by
  rw [solver_eq_true_iff (show TxnOutType.nullData ≠ .scriptHash by decide)]
  constructor
  · rintro ⟨hform, -⟩
    cases hform with
    | nullData hparse hlen => exact ⟨.inr ⟨_, ⟨hdata _ hparse, Nat.zero_le _, hlen⟩, hparse⟩, rfl⟩
    | noData hparse => exact ⟨.inl hparse, rfl⟩
  · rintro ⟨hparse | ⟨op, hpush, hparse⟩, rfl⟩
    · exact ⟨.noData hparse, fun h => absurd h (by decide)⟩
    · exact ⟨.nullData hparse hpush.high, fun h => absurd h (by decide)⟩

/-- When `Solver` fails on a script that does not look like a multisig script, it notes nothing. -/
theorem solver_false (h : solver script = (false, type, vSolutions))
    (hmulti : ∀ vSolutions, ¬ Form script .multiSig vSolutions) :
    type = .nonStandard ∧ vSolutions = [] := by
  rcases solver_cases script with ⟨-, hsolver⟩ | ⟨type', vSolutions', hform, hsolver⟩ |
    ⟨-, -, hsolver⟩
  · rw [hsolver] at h
    cases h
  · rw [hsolver] at h
    injection h with hfits hrest
    cases hrest
    by_cases htype : type = .multiSig
    · exact absurd (htype ▸ hform) (hmulti _)
    · rw [decide_eq_true htype, Bool.true_or] at hfits
      cases hfits
  · rw [hsolver] at h
    cases h
    exact ⟨rfl, rfl⟩

/-- **The grammar of each type**, with the data in order as the solutions but for `OP_RETURN`, whose
data is not noted. -/
theorem solver_grammar (script : CScript) (vSolutions : List Valtype) :
    (solver script = (true, .scriptHash, vSolutions) ↔
      ∃ h : Valtype, h.length = 20 ∧ script = 0xa9 :: 0x14 :: (h ++ [0x87]) ∧ vSolutions = [h]) ∧
    (solver script = (true, .pubKey, vSolutions) ↔
      ∃ op : UInt8 × Valtype, IsPush op 33 120 ∧ Parses script [op, (0xac, [])] ∧
        vSolutions = [op.2]) ∧
    (solver script = (true, .pubKeyHash, vSolutions) ↔ ∃ op : UInt8 × Valtype, IsPush op 20 20 ∧
        Parses script [(0x76, []), (0xa9, []), op, (0x88, []), (0xac, [])] ∧
        vSolutions = [op.2]) ∧
    (solver script = (true, .multiSig, vSolutions) ↔ ∃ m keys, IsMultiSig script m keys ∧
        vSolutions = [UInt8.ofNat m] :: (keys.map snd ++ [[UInt8.ofNat keys.length]])) ∧
    ((∀ op : UInt8 × Valtype, Parses script [(0x6a, []), op] → op.1.toNat ≤ 0x4e) →
      (solver script = (true, .nullData, vSolutions) ↔
        (Parses script [(0x6a, [])] ∨ ∃ op : UInt8 × Valtype, IsPush op 0 maxOpReturnRelay ∧
          Parses script [(0x6a, []), op]) ∧ vSolutions = [])) ∧
    ((∀ vSolutions, ¬ Form script .multiSig vSolutions) →
      ∀ type, solver script = (false, type, vSolutions) → type = .nonStandard ∧ vSolutions = []) :=
  ⟨solver_scriptHash_iff, solver_pubKey_iff, solver_pubKeyHash_iff, solver_multiSig_iff,
    solver_nullData_iff, fun hmulti _ h => solver_false h hmulti⟩

/-- The data behind `OP_RETURN` is no solution. -/
theorem solver_drops_data : Parses [0x6a, 0x01, 0x11] [(0x6a, []), (0x01, [0x11])] ∧
    solver [0x6a, 0x01, 0x11] = (true, .nullData, []) ∧
    solver [0x6a, 0x01, 0x11] ≠ (true, .nullData, [[0x11]]) :=
  ⟨.cons rfl (.cons rfl .nil), by decide, by decide⟩

end Espers
