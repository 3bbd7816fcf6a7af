import Espers.Script.Templates

/-!
# What a key store owns, it can spend

`IsMine` and `SignSignature` are two recursions over the standard scripts.

* `KeyStore.Unlocked` and `SignLaws` : what is asked of a key store and of signatures.
* `solverSign_owned` : the signatures for a script whose keys are owned satisfy it.
* `signSignature_of_isMine` : **what is owned can be spent**, unless it pays to the hash of a script
  that pays to the hash of a script.
-/

namespace Espers

open Exec List Option Nat Wire

variable {script pc : CScript} {opcode : UInt8} {vch : Valtype} {fuel : ℕ}
  {vSolutions vSolutionsRet : List Valtype}

/-! ### Key stores and signatures -/

/-- An unlocked key store: what it says to have, it returns, under the hash of what it is. -/
structure KeyStore.Unlocked (E : SignEnv) (keystore : KeyStore) : Prop where
  key : ∀ keyID, keystore.haveKey keyID = true → ∃ key, key.fValid = true ∧
    keystore.getKey keyID = some key ∧
    keystore.getPubKey keyID = some (E.pubKeyOf key.vch key.fCompressed) ∧
    E.hash160 (E.pubKeyOf key.vch key.fCompressed) = keyID
  /-- `AddCScript` checks the size. -/
  script : ∀ scriptID subscript, keystore.getCScript scriptID = some subscript →
    E.hash160 subscript = scriptID ∧ subscript.length ≤ maxScriptElementSize

/-- What `CKey::Sign` promises: low-S DER signatures, which verify.  Public keys have one of two
forms. -/
structure SignLaws (E : SignEnv) : Prop where
  pubKey : ∀ secret fCompressed, isCompressedOrUncompressedPubKey (E.pubKeyOf secret fCompressed) =
    true
  sign : ∀ key hash, key.fValid = true → ∃ vchSig, E.sign key hash = some vchSig ∧
    isLowDERSignature (vchSig ++ [1]) = true ∧
    E.verify (E.pubKeyOf key.vch key.fCompressed) hash vchSig = true

/-- The hash tells the keys of the store from all other bytes, and no signature is such a hash. -/
structure NoCollisions (E : SignEnv) (keystore : KeyStore) : Prop where
  pubKey : ∀ vch, keystore.haveKey (E.hash160 vch) = true →
    keystore.getPubKey (E.hash160 vch) = some vch
  signature : ∀ key hash vchSig, E.sign key hash = some vchSig → ∀ keyID,
    keystore.haveKey keyID = true → vchSig ++ [1] ≠ writeBits 20 keyID

variable {E : SignEnv} {keystore : KeyStore} {c : EvalContext} {hash : Uint256}
  {vchSig pubkey : Valtype}

/-- An evaluation with the standard flags, whose signatures are of this hash. -/
structure EvalContext.Asks (E : ScriptEnv) (c : EvalContext) (scriptCode : CScript)
    (hash : Uint256) : Prop where
  flags : c.flags = standardScriptVerifyFlags
  nHashType : c.nHashType = 0
  hash : signatureHash E scriptCode c.txTo c.nIn 1 = hash

/-- A good signature of a hash, with its hash type. -/
structure Signs (E : SignEnv) (hash : Uint256) (vchSig pubkey : Valtype) : Prop where
  encoding : isLowDERSignature vchSig = true
  pubKey : isCompressedOrUncompressedPubKey pubkey = true
  verifies : ∃ sig, vchSig = sig ++ [1] ∧ E.verify pubkey hash sig = true

theorem length_of_isPubKey (h : isCompressedOrUncompressedPubKey vch = true) : 33 ≤ vch.length := by
  unfold isCompressedOrUncompressedPubKey at h
  split_ifs at h <;> omega

/-- A key in one of the two forms is read as it is. -/
theorem pubKeyOfBytes_of_isPubKey (h : isCompressedOrUncompressedPubKey vch = true) :
    pubKeyOfBytes vch = vch := by
  have hlen := length_of_isPubKey h
  unfold isCompressedOrUncompressedPubKey at h
  rw [if_neg (by omega)] at h
  cases vch with
  | nil => cases h
  | cons chHeader rest =>
    refine if_pos ?_
    rw [getD_cons_zero] at h
    split_ifs at h with h4 h23
    · simp only [beq_iff_eq] at h4 h
      subst h4
      exact ⟨by decide, h.symm⟩
    · rw [beq_iff_eq] at h
      rw [pubKeyLen, if_pos h23]
      exact ⟨by decide, h.symm⟩

theorem eq_of_pubKeyOfBytes (h : isCompressedOrUncompressedPubKey (pubKeyOfBytes vch) = true) :
    pubKeyOfBytes vch = vch := by
  have hlen := length_of_isPubKey h
  cases vch with
  | nil => simp [pubKeyOfBytes] at hlen
  | cons chHeader rest =>
    rw [pubKeyOfBytes] at hlen ⊢
    split_ifs at hlen ⊢
    · rfl
    · simp at hlen

theorem length_of_isLowDER (h : isLowDERSignature vchSig = true) : 9 ≤ vchSig.length ∧
    vchSig.length ≤ 73 := by
  simp only [isLowDERSignature, isDERSignature, Bool.and_eq_true, decide_eq_true_eq] at h
  omega

theorem ne_pubKey_of_isLowDER (h : isLowDERSignature vchSig = true) {v : Valtype}
    (hv : isCompressedOrUncompressedPubKey v = true) : v ≠ vchSig := by
  rintro rfl
  simp only [isLowDERSignature, isDERSignature, Bool.and_eq_true, beq_iff_eq] at h
  unfold isCompressedOrUncompressedPubKey at hv
  rw [h.1.1.1.1.1.1.2] at hv
  split_ifs at hv <;> contradiction

theorem findAndDelete_of_isLowDER (h : isLowDERSignature vchSig = true)
    {ops : List (UInt8 × Valtype)} (hparse : Parses script ops)
    (hops : ∀ op ∈ ops, op.2 = [] ∨ isCompressedOrUncompressedPubKey op.2 = true ∨ op.2 ≠ vchSig) :
    findAndDelete (pushData vchSig) script = script := by
  obtain ⟨hlow, hhigh⟩ := length_of_isLowDER h
  refine findAndDelete_of_parses (by omega) hparse fun op hmem => ?_
  rcases hops op hmem with hnil | hkey | hne
  · rintro rfl
    rw [hnil] at hlow
    simp at hlow
  · exact ne_pubKey_of_isLowDER h hkey
  · exact hne

/-- Numbers, keys and `OP_CHECKMULTISIG`, with signatures that are accepted in the order of the
keys. -/
theorem evalScript_multiSig_of_isLowDER {E : ScriptEnv} {opm opn : UInt8} {vm vn : Valtype}
    {ops : List (UInt8 × Valtype)} {sigs : List Valtype}
    (hparse : Parses script ((opm, vm) :: (ops ++ [(opn, vn), (0xae, [])])))
    (hm : SmallInteger opm) (hn : SmallInteger opn)
    (hops : ∀ op ∈ ops, 33 ≤ op.2.length ∧ op.2.length ≤ 120)
    (hdecodeM : decodeOpN opm = sigs.length) (hdecodeN : decodeOpN opn = ops.length)
    (hmatch : List.SublistForall₂ (Accepts E c script) sigs (ops.map Prod.snd))
    (hsigs : ∀ sig ∈ sigs, isLowDERSignature sig = true)
    (hkeys : ∀ op ∈ ops, isCompressedOrUncompressedPubKey op.2 = true) :
    evalScript E c (sigs.reverse ++ [[]]) script = (true, [[1]]) := by
  obtain ⟨_, _, hgetM⟩ := hparse.getOp_of_mem (opm, vm) (by simp)
  obtain ⟨_, _, hgetN⟩ := hparse.getOp_of_mem (opn, vn) (by simp)
  obtain rfl := hm.data_eq_nil hgetM
  obtain rfl := hn.data_eq_nil hgetN
  have hbound := decodeOpN_le hn
  refine evalScript_multiSig hparse hm hn hops hdecodeM hdecodeN (by omega) hmatch ?_ hkeys
  intro sig hmem
  refine findAndDelete_of_isLowDER (hsigs sig hmem) hparse fun op hop => ?_
  simp only [mem_cons, mem_append, not_mem_nil, or_false] at hop
  rcases hop with rfl | hop | rfl | rfl
  · exact .inl rfl
  · exact .inr (.inl (hkeys op hop))
  · exact .inl rfl
  · exact .inl rfl

namespace Signs

/-- It is good wherever it is asked for. -/
theorem accepts (h : Signs E hash vchSig pubkey) {scriptCode : CScript}
    (hc : c.Asks E.toScriptEnv scriptCode hash) :
    Accepts E.toScriptEnv c scriptCode vchSig pubkey := by
  obtain ⟨sig, rfl, hverify⟩ := h.verifies
  have hlen := length_of_isPubKey h.pubKey
  refine ⟨?_, h.pubKey, ?_⟩
  · rw [checkSigEncoding, h.encoding, hc.flags]
    have hfix : hasFlag standardScriptVerifyFlags scriptVerifyFixHashtype = true := by decide
    simp [hfix]
  · rw [checkSig, pubKeyOfBytes_of_isPubKey h.pubKey]
    have hne : pubkey.isEmpty = false := by
      cases pubkey with
      | nil => exact absurd hlen (by simp)
      | cons => rfl
    simp only [hne, Bool.false_eq_true, if_false, getLast?_concat,
      dropLast_concat, hc.nHashType, ne_eq, not_true_eq_false, false_and]
    rw [show (((1 : UInt8).toNat : ℕ) : ℤ) = 1 from rfl, hc.hash, hverify]

end Signs

theorem sign1_owned (hstore : keystore.Unlocked E) (hlaws : SignLaws E)
    (hcoll : NoCollisions E keystore) {keyID : CKeyID} (hkey : keystore.haveKey keyID = true)
    (hash : Uint256) :
    ∃ vchSig pubkey, Signs E hash vchSig pubkey ∧ keystore.getPubKey keyID = some pubkey ∧
      E.hash160 pubkey = keyID ∧ vchSig ≠ writeBits 20 keyID ∧
      ∀ scriptSig, sign1 E keystore hash 1 keyID scriptSig =
      some (scriptSig ++ pushData vchSig) := by
  obtain ⟨key, hvalid, hget, hpub, hid⟩ := hstore.key keyID hkey
  obtain ⟨sig, hsign, hder, hverify⟩ := hlaws.sign key hash hvalid
  refine ⟨sig ++ [1], _, ⟨hder, hlaws.pubKey _ _, sig, rfl, hverify⟩, hpub, hid,
    hcoll.signature key hash sig hsign keyID hkey, ?_⟩
  intro scriptSig
  rw [sign1, hget]
  simp only [hsign]

theorem sign1_pubKey (hstore : keystore.Unlocked E) (hlaws : SignLaws E)
    (hcoll : NoCollisions E keystore) {v : Valtype}
    (hkey : keystore.haveKey (keyIdOfBytes E.toKeyFunctions v) = true) (hash : Uint256) :
    ∃ vchSig, Signs E hash vchSig v ∧ ∀ scriptSig,
      sign1 E keystore hash 1 (keyIdOfBytes E.toKeyFunctions v) scriptSig =
        some (scriptSig ++ pushData vchSig) := by
  obtain ⟨vchSig, pubkey, hsigns, hpub, -, -, hsign⟩ := sign1_owned hstore hlaws hcoll hkey hash
  have hsame := hcoll.pubKey (pubKeyOfBytes v) hkey
  rw [show E.hash160 (pubKeyOfBytes v) = keyIdOfBytes E.toKeyFunctions v from rfl, hpub] at hsame
  injection hsame with hsame
  have hv := eq_of_pubKeyOfBytes (hsame ▸ hsigns.pubKey)
  rw [hsame, hv] at hsigns
  exact ⟨vchSig, hsigns, hsign⟩

/-- The loop over keys that are owned stops at the number of signatures required. -/
theorem signLoop_owned {R : Valtype → Valtype → Prop} {nRequired nSigned : ℕ}
    {pubkeys : List Valtype} (hkeys : ∀ v ∈ pubkeys, ∃ vchSig, R vchSig v ∧ ∀ scriptSig,
      sign1 E keystore hash 1 (keyIdOfBytes E.toKeyFunctions v) scriptSig =
      some (scriptSig ++ pushData vchSig))
    (hle : nSigned ≤ nRequired) (hge : nRequired ≤ nSigned + pubkeys.length) (scriptSig : CScript) :
    ∃ sigs, signLoop E keystore hash 1 nRequired pubkeys nSigned scriptSig =
        (nRequired, scriptSig ++ pushAll sigs) ∧
      List.Forall₂ R sigs (pubkeys.take (nRequired - nSigned)) := by
  induction pubkeys generalizing nSigned scriptSig with
  | nil =>
    rw [length_nil] at hge
    obtain rfl : nSigned = nRequired := by omega
    exact ⟨[], by simp [signLoop, pushAll], by simp⟩
  | cons v pubkeys ih =>
    rw [length_cons] at hge
    rw [signLoop]
    split_ifs with hlt
    · obtain ⟨vchSig, hR, hsign⟩ := hkeys v mem_cons_self
      simp only [hsign]
      obtain ⟨sigs, hloop, hall⟩ := ih (fun v hmem => hkeys v (.tail _ hmem))
        (show nSigned + 1 ≤ nRequired by omega) (by omega) (scriptSig ++ pushData vchSig)
      refine ⟨vchSig :: sigs, ?_, ?_⟩
      · rw [hloop, pushAll_cons, append_assoc]
      · obtain ⟨k, hk⟩ : ∃ k, nRequired - nSigned = k + 1 := ⟨nRequired - nSigned - 1, by omega⟩
        rw [show nRequired - (nSigned + 1) = k by omega] at hall
        rw [hk, take_succ_cons]
        exact .cons hR hall
    · obtain rfl : nSigned = nRequired := by omega
      exact ⟨[], by simp [pushAll], by simp⟩

/-! ### Scripts that are owned -/

theorem not_scriptHash_of_plain (hplain : isPayToScriptHash script = false) :
    solver script ≠ (true, .scriptHash, vSolutions) := by
  intro h
  obtain ⟨v, hlen, hscript, -⟩ := solver_scriptHash_iff.mp h
  rw [isPayToScriptHash_iff.mpr ⟨v, hlen, hscript⟩] at hplain
  cases hplain

theorem length_pushAll_le {args : List Valtype} (hargs : ∀ d ∈ args, d.length ≤ 73) :
    (pushAll args).length ≤ 74 * args.length := by
  induction args with
  | nil => simp [pushAll]
  | cons d args ih =>
    have hd := hargs d mem_cons_self
    have hrest := ih fun d hmem => hargs d (.tail _ hmem)
    have hpush : (pushData d).length = d.length + 1 := by
      rw [pushData, if_pos (by omega)]
      rfl
    rw [pushAll_cons, length_append, length_cons]
    omega

theorem writeBits_uint160OfBytes {v : Valtype} (h : v.length = 20) :
    writeBits 20 (uint160OfBytes v) = v := by
  have hlt := valueLE_lt v
  rw [h, show (256 : ℕ) ^ 20 = 2 ^ 160 from by decide] at hlt
  rw [uint160OfBytes, if_pos h, writeBits, BitVec.toNat_ofNat, mod_eq_of_lt hlt]
  have hbytes := bytesLE_valueLE v
  rwa [h] at hbytes

/-- Signatures for a script: the elements that satisfy it, wherever its signatures are of this
hash. -/
structure Satisfies (E : ScriptEnv) (hash : Uint256) (script : CScript) (args : List Valtype) :
    Prop where
  count : args.length ≤ 17
  size : ∀ d ∈ args, d.length ≤ 73
  eval : ∀ c : EvalContext, c.Asks E script hash →
    evalScript E c args.reverse script = (true, [[1]])

section Owned

variable (hstore : keystore.Unlocked E) (hlaws : SignLaws E) (hcoll : NoCollisions E keystore)
include hstore hlaws hcoll

theorem satisfies_pubKey {op : UInt8} {v : Valtype} (hparse : Parses script [(op, v), (0xac, [])])
    (hlen : 33 ≤ v.length ∧ v.length ≤ 120)
    (hkey : keystore.haveKey (keyIdOfBytes E.toKeyFunctions v) = true) (hash : Uint256) :
    ∃ args, sign1 E keystore hash 1 (keyIdOfBytes E.toKeyFunctions v) [] = some (pushAll args) ∧
      Satisfies E.toScriptEnv hash script args := by
  obtain ⟨vchSig, hsigns, hsign⟩ := sign1_pubKey hstore hlaws hcoll hkey hash
  have hdel := findAndDelete_of_isLowDER hsigns.encoding hparse (by
    intro op hmem
    simp only [mem_cons, not_mem_nil, or_false] at hmem
    rcases hmem with rfl | rfl
    · exact .inr (.inl hsigns.pubKey)
    · exact .inl rfl)
  refine ⟨[vchSig], by rw [hsign]; simp [pushAll], by simp, ?_, fun c hc => ?_⟩
  · simpa using (length_of_isLowDER hsigns.encoding).2
  · exact evalScript_pubKey hparse (by omega) hlen.2 hdel (hsigns.accepts hc)

/-- A script that pays to the hash of a key. -/
theorem satisfies_pubKeyHash {op : UInt8} {v : Valtype}
    (hparse : Parses script [(0x76, []), (0xa9, []), (op, v), (0x88, []), (0xac, [])])
    (hlen : v.length = 20) (hkey : keystore.haveKey (uint160OfBytes v) = true) (hash : Uint256) :
    ∃ scriptSig args, sign1 E keystore hash 1 (uint160OfBytes v) [] = some scriptSig ∧
      scriptSig ++ pushData ((keystore.getPubKey (uint160OfBytes v)).getD []) = pushAll args ∧
      Satisfies E.toScriptEnv hash script args := by
  obtain ⟨vchSig, pubkey, hsigns, hpub, hid, hne, hsign⟩ := sign1_owned hstore hlaws hcoll hkey hash
  obtain ⟨key, -, -, hpub', -⟩ := hstore.key _ hkey
  have hlenKey : pubkey.length ≤ 65 := by
    rw [hpub] at hpub'
    injection hpub' with hpub'
    rw [hpub', E.length_pubKeyOf]
    split_ifs <;> omega
  have hv := writeBits_uint160OfBytes hlen
  have hdel := findAndDelete_of_isLowDER hsigns.encoding hparse (by
    intro op hmem
    simp only [mem_cons, not_mem_nil, or_false] at hmem
    rcases hmem with rfl | rfl | rfl | rfl | rfl
    · exact .inl rfl
    · exact .inl rfl
    · exact .inr (.inr (hv ▸ hne.symm))
    · exact .inl rfl
    · exact .inl rfl)
  rw [← hv, ← hid] at hparse
  refine ⟨_, [vchSig, pubkey], hsign [], by rw [hpub]; simp [pushAll], by simp, ?_, fun c hc => ?_⟩
  · simp only [mem_cons, not_mem_nil, or_false, forall_eq_or_imp, forall_eq]
    exact ⟨(length_of_isLowDER hsigns.encoding).2, by omega⟩
  · exact evalScript_pubKeyHash hparse hdel (hsigns.accepts hc)

/-- A script that asks for signatures of several keys. -/
theorem satisfies_multiSig {opm opn : UInt8} {vm vn : Valtype} {ops : List (UInt8 × Valtype)}
    (hparse : Parses script ((opm, vm) :: (ops ++ [(opn, vn), (0xae, [])])))
    (hm : SmallInteger opm) (hn : SmallInteger opn)
    (hops : ∀ op ∈ ops, 33 ≤ op.2.length ∧ op.2.length ≤ 120) (hle : decodeOpN opm ≤ ops.length)
    (hdecode : decodeOpN opn = ops.length)
    (hkeys : ∀ v ∈ ops.map Prod.snd, keystore.haveKey (keyIdOfBytes E.toKeyFunctions v) = true)
    (hash : Uint256) :
    ∃ args, signLoop E keystore hash 1 (decodeOpN opm) (ops.map Prod.snd) 0 [0x00] =
        (decodeOpN opm, pushAll args) ∧ Satisfies E.toScriptEnv hash script args := by
  have hsignKeys := fun v hmem => sign1_pubKey hstore hlaws hcoll (hkeys v hmem) hash
  obtain ⟨sigs, hloop, hall⟩ := signLoop_owned hsignKeys (zero_le (decodeOpN opm))
    (by rw [length_map]; omega) [0x00]
  have hcanonical : ∀ op ∈ ops, isCompressedOrUncompressedPubKey op.2 = true := by
    intro op hmem
    obtain ⟨_, hsigns, -⟩ := hsignKeys op.2 (mem_map_of_mem hmem)
    exact hsigns.pubKey
  have hcount : sigs.length = decodeOpN opm := by
    rw [hall.length_eq, length_take, length_map]
    omega
  have hbound := decodeOpN_le hm
  have hsigs : ∀ vchSig ∈ sigs, isLowDERSignature vchSig = true := by
    intro vchSig hmem
    obtain ⟨i, hi, rfl⟩ := mem_iff_getElem.mp hmem
    exact (hall.get hi (hall.length_eq ▸ hi)).encoding
  refine ⟨[] :: sigs, by rw [hloop]; rfl, ?_, ?_, fun c hc => ?_⟩
  · rw [length_cons]
    omega
  · rintro d (_ | ⟨_, hmem⟩)
    · exact zero_le _
    · exact (length_of_isLowDER (hsigs d hmem)).2
  · rw [reverse_cons]
    refine evalScript_multiSig_of_isLowDER hparse hm hn hops hcount.symm hdecode ?_ hsigs hcanonical
    exact sublistForall₂_iff.mpr
      ⟨_, hall.imp fun _ _ hsigns => hsigns.accepts hc, take_sublist _ _⟩

/-- **The signatures for a script whose keys are owned satisfy it.** -/
theorem solverSign_owned {depth : ℕ}
    (hmine : isMineTo E.toKeyFunctions keystore depth script = some true)
    (hplain : isPayToScriptHash script = false) (hash : Uint256) :
    ∃ args type, type ≠ .scriptHash ∧ solverSign E keystore hash 1 script =
    (true, pushAll args, type) ∧ Satisfies E.toScriptEnv hash script args := by
  cases depth with
  | zero => cases hmine
  | succ depth =>
    rw [isMineTo] at hmine
    cases hsolve : solver script with
    | mk fSolved r =>
      obtain ⟨type, vSolutions⟩ := r
      cases fSolved with
      | false => simp [hsolve] at hmine
      | true =>
        simp only [hsolve] at hmine
        unfold solverSign
        simp only [hsolve]
        cases standard_of_solver hsolve with
        | pubKey hparse hlen =>
          simp only [some.injEq] at hmine
          obtain ⟨args, hsign, hgood⟩ := satisfies_pubKey hstore hlaws hcoll hparse hlen hmine hash
          refine ⟨args, .pubKey, by decide, ?_, hgood⟩
          simp only [headD_cons, hsign]
        | pubKeyHash hparse hlen =>
          simp only [some.injEq] at hmine
          obtain ⟨scriptSig, args, hsign, hargs, hgood⟩ :=
            satisfies_pubKeyHash hstore hlaws hcoll hparse hlen hmine hash
          refine ⟨args, .pubKeyHash, by decide, ?_, hgood⟩
          simp only [headD_cons, hsign, hargs]
        | scriptHash => exact absurd hsolve (not_scriptHash_of_plain hplain)
        | nullData => cases hmine
        | @multiSig opm opn _ _ ops hparse hm hn hops hle hdecode =>
          simp only [drop_one, tail_cons, dropLast_concat, some.injEq, beq_iff_eq,
            haveKeys, countP_eq_length] at hmine
          obtain ⟨args, hloop, hgood⟩ :=
            satisfies_multiSig hstore hlaws hcoll hparse hm hn hops hle hdecode hmine hash
          refine ⟨args, .multiSig, by decide, ?_, hgood⟩
          simp only [signN, headD_cons, getD_cons_zero, toNat_decodeOpN hm, drop_one,
            tail_cons, dropLast_concat, hloop, beq_self_eq_true]

end Owned

/-! ### Signing an input -/

variable {txTo : CTransaction} {nIn : ℕ}

theorem signatureHash_withScriptSig (E : ScriptEnv) (scriptCode scriptSig : CScript)
    (txTo : CTransaction) (nIn n : ℕ) (nHashType : ℤ) :
    signatureHash E scriptCode (txTo.withScriptSig nIn scriptSig) n nHashType =
      signatureHash E scriptCode txTo n nHashType := by
  have hlen : (txTo.withScriptSig nIn scriptSig).vin.length = txTo.vin.length := by
    rw [CTransaction.withScriptSig, length_modify]
  have hblank : (txTo.withScriptSig nIn scriptSig).vin.map
    (fun txin => { txin with scriptSig := [] }) =
      txTo.vin.map fun txin => { txin with scriptSig := [] } := by
    refine ext_getElem (by simp [hlen]) fun i hi hi' => ?_
    simp only [CTransaction.withScriptSig, getElem_map, getElem_modify]
    split_ifs <;> rfl
  simp only [signatureHash, hlen, hblank]
  rfl

theorem withScriptSig_withScriptSig (txTo : CTransaction) (nIn : ℕ)
    (scriptSig scriptSig' : CScript) : (txTo.withScriptSig nIn scriptSig).withScriptSig nIn
    scriptSig' = txTo.withScriptSig nIn scriptSig' := by
  have hvin : ((txTo.withScriptSig nIn scriptSig).withScriptSig nIn scriptSig').vin =
      (txTo.withScriptSig nIn scriptSig').vin := by
    refine ext_getElem (by simp [CTransaction.withScriptSig]) fun i hi hi' => ?_
    simp only [CTransaction.withScriptSig, getElem_modify]
    split_ifs <;> rfl
  exact congrArg (fun vin => { txTo with vin := vin }) hvin

/-- `SignSignature` is true: it leaves a script that `VerifyScript` accepts under the standard
flags. -/
def SignsInput (E : SignEnv) (keystore : KeyStore) (scriptPubKey : CScript) (txTo : CTransaction)
    (nIn : ℕ) : Prop :=
  ∃ scriptSig, signSignature E keystore scriptPubKey txTo nIn 1 =
    .ok (true, txTo.withScriptSig nIn scriptSig) ∧ verifies E.toScriptEnv
    ⟨txTo.withScriptSig nIn scriptSig, nIn, standardScriptVerifyFlags, 0⟩ scriptSig
      scriptPubKey = true

/-- The script pays to the hash of a stored script, which pays to the hash of a script itself. -/
def Nested (keystore : KeyStore) (scriptPubKey : CScript) : Prop :=
  isPayToScriptHash scriptPubKey = true ∧ ∃ subscript,
    keystore.getCScript (uint160OfBytes ((scriptPubKey.drop 2).take 20)) = some subscript ∧
    isPayToScriptHash subscript = true

theorem asks_withScriptSig (scriptCode scriptSig : CScript) :
    EvalContext.Asks E.toScriptEnv ⟨txTo.withScriptSig nIn scriptSig, nIn,
    standardScriptVerifyFlags, 0⟩ scriptCode
      (signatureHash E.toScriptEnv scriptCode txTo nIn 1) :=
  ⟨rfl, rfl, signatureHash_withScriptSig _ _ _ _ _ _ _⟩

section SmallArgs

variable {E : ScriptEnv} {args : List Valtype} (hcount : args.length ≤ 17)
  (hsize : ∀ d ∈ args, d.length ≤ 73)
include hcount hsize

theorem evalScript_pushAll_small : evalScript E c [] (pushAll args) = (true, args.reverse) := by
  have hlen := length_pushAll_le hsize
  refine evalScript_pushAll (fun d hmem => ?_) (by omega) (by omega)
  exact (hsize d hmem).trans (by decide)

theorem verifies_pushAll (heval : evalScript E c args.reverse script = (true, [[1]]))
    (hplain : isPayToScriptHash script = false) : verifies E c (pushAll args) script = true := by
  refine verifies_eq_true.mpr ⟨_, _, evalScript_pushAll_small hcount hsize, heval, by decide, ?_⟩
  intro hp2sh
  rw [hplain] at hp2sh
  cases hp2sh

/-- The elements satisfy the script behind its hash. -/
theorem verifies_pushAll_scriptHash {subscript : CScript}
    (heval : evalScript E c args.reverse subscript = (true, [[1]]))
    (hp2sh : isPayToScriptHash script = true)
    (hhash : writeBits 20 (E.hash160 subscript) = (script.drop 2).take 20)
    (hsub : subscript.length ≤ maxScriptElementSize) :
    verifies E c (pushAll (args ++ [subscript])) script = true := by
  have hargs : ∀ d ∈ args ++ [subscript], d.length ≤ maxScriptElementSize := by
    intro d hmem
    rcases mem_append.mp hmem with hmem | hmem
    · exact (hsize d hmem).trans (by decide)
    · rw [mem_singleton] at hmem
      rwa [hmem]
  have hlen := length_pushAll_le hsize
  have hpush : (pushData subscript).length ≤ 600 := by
    rw [maxScriptElementSize] at hsub
    unfold pushData
    split_ifs <;> simp only [length_cons] <;> omega
  have hparse := parses_of_isPayToScriptHash hp2sh
  rw [← hhash] at hparse
  have hstack := evalScript_pushAll (E := E) (c := c) hargs
    (by rw [pushAll_append, pushAll_singleton, length_append]; omega) (by simp; omega)
  rw [reverse_append, reverse_singleton, singleton_append] at hstack
  refine verifies_eq_true.mpr ⟨_, _, hstack, evalScript_scriptHash hparse (by simp; omega), rfl, ?_⟩
  intro _
  exact ⟨isPushOnly_pushAll hargs, _, _, _, rfl, heval, by decide⟩

end SmallArgs

namespace Satisfies

variable {args : List Valtype}

theorem verifies {E : ScriptEnv} (h : Satisfies E hash script args) (hc : c.Asks E script hash)
    (hplain : isPayToScriptHash script = false) : verifies E c (pushAll args) script = true :=
  verifies_pushAll h.count h.size (h.eval c hc) hplain

theorem verifies_scriptHash {E : ScriptEnv} {subscript : CScript}
    (h : Satisfies E hash subscript args) (hc : c.Asks E subscript hash)
    (hp2sh : isPayToScriptHash script = true)
    (hhash : writeBits 20 (E.hash160 subscript) = (script.drop 2).take 20)
    (hsize : subscript.length ≤ maxScriptElementSize) :
    Espers.verifies E c (pushAll args ++ pushData subscript) script = true := by
  rw [← pushAll_singleton, ← pushAll_append]
  exact verifies_pushAll_scriptHash h.count h.size (h.eval c hc) hp2sh hhash hsize

end Satisfies

section Owned

variable (hstore : keystore.Unlocked E) (hlaws : SignLaws E) (hcoll : NoCollisions E keystore)
  (hin : nIn < txTo.vin.length)
include hstore hlaws hcoll hin

theorem signSignature_plain {depth : ℕ}
    (hmine : isMineTo E.toKeyFunctions keystore depth script = some true)
    (hplain : isPayToScriptHash script = false) : SignsInput E keystore script txTo nIn := by
  obtain ⟨args, type, htype, hsolve, hgood⟩ := solverSign_owned hstore hlaws hcoll hmine hplain
    (signatureHash E.toScriptEnv script txTo nIn 1)
  have hverify := hgood.verifies (asks_withScriptSig script (pushAll args)) hplain
  refine ⟨pushAll args, ?_, hverify⟩
  rw [signSignature, if_neg (by omega)]
  rw [show (((1 : UInt8).toNat : ℕ) : ℤ) = 1 from rfl]
  simp only [hsolve, Bool.not_true, Bool.false_eq_true, if_false, htype, hverify]

/-- The hash of a script that is owned. -/
theorem signSignature_scriptHash {depth : ℕ} {subscript : CScript}
    (hp2sh : isPayToScriptHash script = true)
    (hget : keystore.getCScript (uint160OfBytes ((script.drop 2).take 20)) = some subscript)
    (hmine : isMineTo E.toKeyFunctions keystore depth subscript = some true)
    (hplain : isPayToScriptHash subscript = false) : SignsInput E keystore script txTo nIn := by
  obtain ⟨args, type, htype, hsolve, hgood⟩ := solverSign_owned hstore hlaws hcoll hmine hplain
    (signatureHash E.toScriptEnv subscript txTo nIn 1)
  obtain ⟨hid, hsize⟩ := hstore.script _ _ hget
  have hlen : ((script.drop 2).take 20).length = 20 := by
    unfold isPayToScriptHash at hp2sh
    simp only [Bool.and_eq_true, beq_iff_eq] at hp2sh
    rw [length_take, length_drop, hp2sh.1.1.1]
    rfl
  have hverify := hgood.verifies_scriptHash
    (asks_withScriptSig subscript (pushAll args ++ pushData subscript)) hp2sh
    (by rw [hid, writeBits_uint160OfBytes hlen]) hsize
  have hsub : solverSign E keystore (signatureHash E.toScriptEnv script txTo nIn 1) 1 script =
      (true, subscript, .scriptHash) := by
    rw [solverSign, solver, if_pos hp2sh]
    simp only [headD_cons, hget]
  refine ⟨pushAll args ++ pushData subscript, ?_, hverify⟩
  rw [signSignature, if_neg (by omega)]
  rw [show (((1 : UInt8).toNat : ℕ) : ℤ) = 1 from rfl]
  simp only [hsub, Bool.not_true, Bool.false_eq_true, if_false, if_true,
    signatureHash_withScriptSig, withScriptSig_withScriptSig, hsolve, Bool.true_and, ne_eq, htype,
    not_false_eq_true, decide_true, hverify]

end Owned

/-- The hash of the hash of a script is refused. -/
theorem signSignature_nested (hnested : Nested keystore script) :
    ¬ SignsInput E keystore script txTo nIn := by
  obtain ⟨hp2sh, subscript, hget, hsub⟩ := hnested
  rintro ⟨scriptSig, hsign, -⟩
  unfold signSignature at hsign
  split_ifs at hsign
  have hsolve : ∀ hash, solverSign E keystore hash 1 script = (true, subscript, .scriptHash) := by
    intro hash
    rw [solverSign, solver, if_pos hp2sh]
    simp only [headD_cons, hget]
  have htype : ∀ hash, (solverSign E keystore hash 1 subscript).2.2 = .scriptHash := by
    intro hash
    rw [solverSign, solver, if_pos hsub]
    simp only [headD_cons]
    cases keystore.getCScript (uint160OfBytes ((subscript.drop 2).take 20)) <;> rfl
  simp only [hsolve] at hsign
  rw [htype] at hsign
  simp at hsign

/-- **What a key store owns, it can spend**, except for the hash of a script that is a script hash
itself: `IsMine` follows script hashes to any depth, and `SignSignature` follows one. -/
theorem signSignature_of_isMine (hstore : keystore.Unlocked E) (hlaws : SignLaws E)
    (hcoll : NoCollisions E keystore) (hin : nIn < txTo.vin.length)
    (hmine : IsMine E.toKeyFunctions keystore script) :
    SignsInput E keystore script txTo nIn ↔ ¬ Nested keystore script := by
  refine ⟨fun hsign hnested => signSignature_nested hnested hsign, fun hnested => ?_⟩
  obtain ⟨depth, hmine⟩ := hmine
  cases hp2sh : isPayToScriptHash script with
  | false => exact signSignature_plain hstore hlaws hcoll hin hmine hp2sh
  | true =>
    cases depth with
    | zero => cases hmine
    | succ depth =>
      rw [isMineTo, solver, if_pos hp2sh] at hmine
      simp only [headD_cons] at hmine
      cases hget : keystore.getCScript (uint160OfBytes ((script.drop 2).take 20)) with
      | none => simp [hget] at hmine
      | some subscript =>
        simp only [hget] at hmine
        cases hsub : isPayToScriptHash subscript with
        | false => exact signSignature_scriptHash hstore hlaws hcoll hin hp2sh hget hmine hsub
        | true => exact absurd ⟨hp2sh, subscript, hget, hsub⟩ hnested

/-! ### A store with one key -/

namespace OneKey

/-- The public key, in its two forms. -/
def pubKey (fCompressed : Bool) : PubKey := if fCompressed then 2 :: replicate 32 1 else
    4 :: replicate 64 1

/-- A signature whose numbers are small. -/
def signature : Valtype := [0x30, 0x44, 0x02, 0x20] ++ replicate 32 1 ++ [0x02, 0x20] ++
    replicate 32 1

/-- Scripts that pay to the key, to the hash of the script before, and to the hash of that one. -/
def payToKey : CScript := pushData (pubKey true) ++ [0xac]
def payToScript : CScript := [0xa9, 0x14] ++ writeBits 20 (2 : BitVec 160) ++ [0x87]
def payToScriptHash : CScript := [0xa9, 0x14] ++ writeBits 20 (3 : BitVec 160) ++ [0x87]

def env : SignEnv where
  pubKeyOf _ fCompressed := pubKey fCompressed
  hash160 vch := if vch = pubKey true then 1 else if vch = payToKey then 2 else if vch =
    payToScript then 3 else 0
  hash _ := 0
  length_pubKeyOf _ fCompressed := by cases fCompressed <;> rfl
  ripemd160 _ := 0
  sha1 _ := 0
  sha256 _ := 0
  verify _ _ vchSig := vchSig == signature
  hashTx _ _ := 0
  sign _ _ := some signature

/-- The secret is 1. -/
def key : CKey := ⟨true, true, 1 :: replicate 31 0, fun _ => by decide⟩

def store : KeyStore where
  haveKey keyID := keyID == 1
  getKey keyID := if keyID = 1 then some key else none
  getPubKey keyID := if keyID = 1 then some (pubKey true) else none
  getCScript scriptID := if scriptID = 2 then some payToKey else if scriptID = 3 then
    some payToScript else none

def payment : CTransaction := ⟨1, 0, [⟨⟨7, 0⟩, [], uintMax⟩], [⟨1, [0x51]⟩], 0⟩

theorem unlocked : store.Unlocked env where
  key keyID hkey := by
    obtain rfl : keyID = 1 := by simpa [store] using hkey
    exact ⟨key, rfl, rfl, rfl, rfl⟩
  script scriptID subscript hget := by
    simp only [store] at hget
    split_ifs at hget with h2 h3
    · cases hget
      subst h2
      exact ⟨by decide, by decide⟩
    · cases hget
      subst h3
      exact ⟨by decide, by decide⟩

theorem laws : SignLaws env where
  pubKey _ fCompressed := by
    show isCompressedOrUncompressedPubKey (pubKey fCompressed) = true
    revert fCompressed
    decide
  sign _ _ _ := ⟨signature, rfl, by decide, beq_self_eq_true signature⟩

theorem noCollisions : NoCollisions env store where
  pubKey vch hkey := by
    have hid : env.hash160 vch = 1 := by simpa [store] using hkey
    rw [hid]
    simp only [env] at hid
    split_ifs at hid with h1
    · rw [h1]
      rfl
    · exact absurd hid (by decide)
    · exact absurd hid (by decide)
    · exact absurd hid (by decide)
  signature _ _ vchSig hsign keyID _ := by
    cases hsign
    intro h
    have hlen := congrArg List.length h
    rw [show (signature ++ [(1 : UInt8)]).length =
      71 from by decide, writeBits, length_bytesLE] at hlen
    cases hlen

end OneKey

theorem signSignature_of_isMine_payToScript :
    SignsInput OneKey.env OneKey.store OneKey.payToScript OneKey.payment 0 :=
  (signSignature_of_isMine OneKey.unlocked OneKey.laws OneKey.noCollisions (by decide)
    ⟨2, by decide⟩).mpr (by
      rintro ⟨-, subscript, hget, hsub⟩
      obtain rfl : OneKey.payToKey = subscript := by
        injection hget
      exact absurd hsub (by decide))

/-- The hash of a script hash: the store counts it as its own, and does not sign for it. -/
theorem nested_not_signed :
    OneKey.store.Unlocked OneKey.env ∧ SignLaws OneKey.env ∧ NoCollisions OneKey.env OneKey.store ∧
      0 < OneKey.payment.vin.length ∧
      IsMine OneKey.env.toKeyFunctions OneKey.store OneKey.payToScriptHash ∧
      ¬ SignsInput OneKey.env OneKey.store OneKey.payToScriptHash OneKey.payment 0 := by
  refine ⟨OneKey.unlocked, OneKey.laws, OneKey.noCollisions, by decide, ⟨3, by decide⟩, ?_⟩
  exact signSignature_nested
    ⟨by decide, OneKey.payToScript, by decide, by decide⟩

end Espers
