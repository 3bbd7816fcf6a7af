import Espers.Script.Templates

/-!
# Destinations of payments

A destination is the hash of a public key or of a script.  It has a script that pays to it, and is
read back from such a script through `Solver`; so are the keys of a multisig script.

* `extractDestination_scriptFor` : a destination is read back from its script.
* `isMultiSig_setMultisig` : what `SetMultisig` writes is a multisig script.
* `destination_roundTrip` : **destinations and keys are read back as they were written**.
-/

namespace Espers

open List Function Wire UInt8

/-! ### Destinations -/

/-- `CTxDestination`. -/
inductive CTxDestination where
  | noDestination
  | keyID (id : CKeyID)
  | scriptID (id : BitVec 160)
  deriving DecidableEq

/-- `CScript << uint160`. -/
def pushHash (b : BitVec 160) : CScript := 20 :: writeBits 20 b

/-- `GetScriptForDestination`, with `CScriptVisitor`. -/
def getScriptForDestination : CTxDestination → CScript
  | .noDestination => []
  | .keyID keyID => [0x76, 0xa9] ++ pushHash keyID ++ [0x88, 0xac]
  | .scriptID scriptID => [0xa9] ++ pushHash scriptID ++ [0x87]

/-- `ExtractDestination`. -/
def extractDestination (E : KeyFunctions) (scriptPubKey : CScript) : Option CTxDestination :=
  match solver scriptPubKey with
  | (false, _, _) => none
  | (true, whichType, vSolutions) =>
    match whichType with
    | .pubKey => some (.keyID (keyIdOfBytes E (vSolutions.headD [])))
    | .pubKeyHash => some (.keyID (uint160OfBytes (vSolutions.headD [])))
    | .scriptHash => some (.scriptID (uint160OfBytes (vSolutions.headD [])))
    -- multisig transactions have more than one address
    | .multiSig | .nullData | .nonStandard => none

/-- `ExtractDestinations`: whether there are any, the type, the destinations, and the number of
signatures where it is set. -/
def extractDestinations (E : KeyFunctions) (scriptPubKey : CScript) :
    Bool × TxnOutType × List CTxDestination × Option ℕ :=
  match solver scriptPubKey with
  | (false, typeRet, _) => (false, typeRet, [], none)
  | (true, typeRet, vSolutions) =>
    match typeRet with
    -- this is data, not addresses
    | .nullData => (false, typeRet, [], none)
    | .multiSig =>
      (true, typeRet, (vSolutions.drop 1).dropLast.map fun vch => .keyID (keyIdOfBytes E vch),
        some ((vSolutions.headD []).getD 0 0).toNat)
    | .pubKey | .pubKeyHash | .scriptHash | .nonStandard =>
      match extractDestination E scriptPubKey with
      | none => (false, typeRet, [], some 1)
      | some address => (true, typeRet, [address], some 1)

/-- `CScript::EncodeOP_N`. -/
def encodeOpN (n : ℤ) : Except Stop UInt8 :=
  if 0 ≤ n ∧ n ≤ 16 then .ok (if n = 0 then 0 else ofNat (0x50 + n.toNat))
  else .error (.crash "assert(n >= 0 && n <= 16)")

/-- `CScript << CPubKey`. -/
def pushPubKey (key : PubKey) : Except Stop CScript :=
  if key.length < 0x4c then .ok (ofNat key.length :: key)
  else .error (.crash "assert(key.size() < OP_PUSHDATA1)")

/-- `CScript::SetMultisig`. -/
def setMultisig (nRequired : ℤ) (keys : List PubKey) : Except Stop CScript := do
  let opRequired ← encodeOpN nRequired
  let pushes ← keys.mapM pushPubKey
  let opKeys ← encodeOpN keys.length
  return opRequired :: pushes.flatten ++ [opKeys, 0xae]

/-- `CPubKey::IsValid`, of the bytes that count. -/
def IsValidPubKey (key : PubKey) : Prop := pubKeyOfBytes key = key ∧ key ≠ []

/-! ### What is written -/

variable {E : KeyFunctions} {keys : List PubKey} {m : ℕ}

theorem length_of_valid {key : PubKey} (h : IsValidPubKey key) :
    key.length = 33 ∨ key.length = 65 := by
  obtain ⟨hkey, hne⟩ := h
  cases key with
  | nil => exact absurd rfl hne
  | cons chHeader rest =>
    rw [pubKeyOfBytes] at hkey
    split_ifs at hkey with hlen
    obtain ⟨hzero, hlen⟩ := hlen
    rw [← hlen]
    rw [pubKeyLen] at hzero ⊢
    split_ifs at hzero ⊢ with h1 h2
    · exact .inl rfl
    · exact .inr rfl
    · exact absurd rfl hzero

theorem getOp_direct {d : Valtype} (hlen : d.length < 0x4c) (rest : CScript) :
    getOp (ofNat d.length :: (d ++ rest)) = some (ofNat d.length, d, rest) := by
  have hnat := toNat_ofNat_lt (show d.length < 256 by omega)
  rw [getOp, if_pos (by omega), pushLength, hnat, if_pos hlen]
  simp

theorem uint160OfBytes_writeBits (b : BitVec 160) : uint160OfBytes (writeBits 20 b) = b := by
  rw [uint160OfBytes, if_pos (length_writeBits 20 b), writeBits,
    valueLE_bytesLE (b.isLt.trans_eq (by decide)), BitVec.ofNat_toNat, BitVec.setWidth_eq]

theorem solver_keyID (keyID : CKeyID) : solver (getScriptForDestination (.keyID keyID)) =
    (true, .pubKeyHash, [writeBits 20 keyID]) := by
  have hlen := length_writeBits 20 keyID
  have hget := getOp_direct (d := writeBits 20 keyID) (by omega) [0x88, 0xac]
  refine solver_pubKeyHash_iff.mpr ⟨(20, writeBits 20 keyID),
    ⟨show (20 : UInt8).toNat ≤ 0x4e by decide, hlen.ge, hlen.le⟩, ?_, rfl⟩
  exact .cons rfl (.cons rfl (.cons hget (.cons rfl (.cons rfl .nil))))

theorem solver_scriptID (scriptID : BitVec 160) :
    solver (getScriptForDestination (.scriptID scriptID)) =
      (true, .scriptHash, [writeBits 20 scriptID]) :=
  solver_scriptHash_iff.mpr ⟨_, length_writeBits 20 scriptID, rfl, rfl⟩

theorem extractDestination_scriptFor {d : CTxDestination} (hd : d ≠ .noDestination) :
    extractDestination E (getScriptForDestination d) = some d := by
  cases d with
  | noDestination => exact absurd rfl hd
  | keyID keyID =>
    rw [extractDestination, solver_keyID]
    simp only [headD_cons, uint160OfBytes_writeBits]
  | scriptID scriptID =>
    rw [extractDestination, solver_scriptID]
    simp only [headD_cons, uint160OfBytes_writeBits]

/-- Different destinations have different scripts. -/
theorem getScriptForDestination_injective : Injective getScriptForDestination := by
  have hhash : ∀ a b : BitVec 160, writeBits 20 a = writeBits 20 b → a = b := by
    intro a b h
    rw [← uint160OfBytes_writeBits a, h, uint160OfBytes_writeBits]
  intro d d' h
  cases d with
  | noDestination => cases d' <;> first | rfl | cases h
  | keyID keyID =>
    cases d' with
    | noDestination => cases h
    | keyID keyID' =>
      have hsolver := solver_keyID keyID
      rw [h, solver_keyID] at hsolver
      simp only [Prod.mk.injEq, cons.injEq, and_true, true_and] at hsolver
      rw [hhash _ _ hsolver]
    | scriptID scriptID => cases h
  | scriptID scriptID =>
    cases d' with
    | noDestination => cases h
    | keyID keyID => cases h
    | scriptID scriptID' =>
      have hsolver := solver_scriptID scriptID
      rw [h, solver_scriptID] at hsolver
      simp only [Prod.mk.injEq, cons.injEq, and_true, true_and] at hsolver
      rw [hhash _ _ hsolver]

/-! ### Keys -/

theorem encodeOpN_eq (h1 : 1 ≤ m) (hm : m ≤ 16) : encodeOpN m = .ok (opOfNumber m) := by
  rw [encodeOpN, if_pos (by omega), if_neg (by omega), Int.toNat_natCast, opOfNumber]

theorem mapM_pushPubKey (hkeys : ∀ key ∈ keys, IsValidPubKey key) :
    keys.mapM pushPubKey = .ok (keys.map fun key => ofNat key.length :: key) := by
  induction keys with
  | nil => rfl
  | cons key keys ih =>
    have hlen := length_of_valid (hkeys key (.head _))
    rw [mapM_cons, ih fun key hkey => hkeys key (.tail _ hkey), pushPubKey, if_pos (by omega)]
    rfl

theorem parses_pushes {more : List (UInt8 × Valtype)} {rest : CScript}
    (hkeys : ∀ key ∈ keys, IsValidPubKey key) (hrest : Parses rest more) :
    Parses ((keys.map fun key => ofNat key.length :: key).flatten ++ rest)
      ((keys.map fun key => (ofNat key.length, key)) ++ more) := by
  induction keys with
  | nil => exact hrest
  | cons key keys ih =>
    have hlen := length_of_valid (hkeys key (.head _))
    rw [map_cons, flatten_cons, append_assoc, cons_append, map_cons, cons_append]
    exact .cons (getOp_direct (by omega) _) (ih fun key hkey => hkeys key (.tail _ hkey))

/-- What `SetMultisig` writes is a multisig script. -/
theorem isMultiSig_setMultisig (h1 : 1 ≤ m) (hle : m ≤ keys.length) (h16 : keys.length ≤ 16)
    (hkeys : ∀ key ∈ keys, IsValidPubKey key) :
    ∃ script, setMultisig m keys = .ok script ∧
      IsMultiSig script m (keys.map fun key => (ofNat key.length, key)) := by
  refine ⟨opOfNumber m :: (keys.map fun key => ofNat key.length :: key).flatten ++
    [opOfNumber keys.length, 0xae], ?_, ?_, fun op hop => ?_, h1, by rwa [length_map],
    by rwa [length_map]⟩
  · rw [setMultisig, encodeOpN_eq h1 (hle.trans h16), mapM_pushPubKey hkeys,
      encodeOpN_eq (h1.trans hle) h16]
    rfl
  · have hop : ∀ n, n ≤ 16 → ∀ rest,
        getOp (opOfNumber n :: rest) = some (opOfNumber n, [], rest) := by
      intro n hn rest
      exact getOp_of_template (by rw [toNat_opOfNumber hn]; omega)
    rw [length_map]
    exact .cons (hop m (hle.trans h16) _)
      (parses_pushes hkeys (.cons (hop _ h16 _) (.cons rfl .nil)))
  · obtain ⟨key, hkey, rfl⟩ := mem_map.mp hop
    have hlen := length_of_valid (hkeys key hkey)
    have hnat := toNat_ofNat_lt (show key.length < 256 by omega)
    exact ⟨by simp only [hnat]; omega, by simp only; omega, by simp only; omega⟩

/-- **Destinations and keys are read back as they were written**, and no two destinations have the
same script. -/
theorem destination_roundTrip (E : KeyFunctions) :
    (∀ keyID : CKeyID, extractDestination E (getScriptForDestination (.keyID keyID)) =
      some (.keyID keyID)) ∧
    (∀ scriptID : BitVec 160, extractDestination E (getScriptForDestination (.scriptID scriptID)) =
      some (.scriptID scriptID)) ∧
    (∀ (m : ℕ) (keys : List PubKey), 1 ≤ m → m ≤ keys.length → keys.length ≤ 16 →
      (∀ key ∈ keys, IsValidPubKey key) →
      ∃ script, setMultisig m keys = .ok script ∧ extractDestinations E script =
        (true, .multiSig, keys.map fun key => .keyID (E.hash160 key), some m)) ∧
    ∀ d d' : CTxDestination, getScriptForDestination d = getScriptForDestination d' → d = d' := by
  refine ⟨fun _ => extractDestination_scriptFor (by simp),
    fun _ => extractDestination_scriptFor (by simp), ?_,
    fun _ _ h => getScriptForDestination_injective h⟩
  intro m keys h1 hle h16 hkeys
  obtain ⟨script, hset, hmulti⟩ := isMultiSig_setMultisig h1 hle h16 hkeys
  refine ⟨script, hset, ?_⟩
  have hm : (ofNat m).toNat = m := toNat_ofNat_lt (by omega)
  rw [extractDestinations, solver_multiSig_iff.mpr ⟨m, _, hmulti, rfl⟩]
  simp only [drop_succ_cons, drop_zero, dropLast_concat, headD_cons,
    getD_cons_zero, hm, map_map, Prod.mk.injEq, and_true, true_and]
  refine map_congr_left fun key hkey => ?_
  rw [comp_apply, comp_apply, keyIdOfBytes, (hkeys key hkey).1]

end Espers
