import Espers.Script.Signing

/-!
# `OP_CHECKMULTISIG` decides matching

The loop tries the keys from the last one on, each with the signature that is its turn, and gives up
when there are more signatures than keys left.

* `multiSigLoop_iff_matching` : **the loop succeeds exactly if the signatures can be assigned to
  keys in order**, whatever signature is valid for whatever key.
-/

namespace Espers

open List

/-- **The loop of `OP_CHECKMULTISIG` succeeds exactly if every signature can be assigned to a key it
is valid for, in the order of both.** -/
theorem multiSigLoop_iff_matching (E : ScriptEnv) (c : EvalContext) (scriptCode : CScript)
    (sigs keys rest : List Valtype) {s : Machine}
    (hstack : s.stack = bnGetvch keys.length ::
      (keys.reverse ++ bnGetvch sigs.length :: (sigs.reverse ++ rest)))
    (hsigs : ∀ sig ∈ sigs, checkSigEncoding sig c.flags = true)
    (hkeys : ∀ key ∈ keys, isCompressedOrUncompressedPubKey key = true) :
    ∃ fSuccess n, multiSigLoop E c scriptCode keys.length sigs.length (keys.length + 3) 2 s =
        .ok fSuccess { s with nCheckSig := n } ∧
      (fSuccess = true ↔ ∃ f : Fin sigs.length → Fin keys.length, StrictMono f ∧ ∀ i,
        checkSig E (sigs.get i) (keys.get (f i)) scriptCode c.txTo c.nIn c.nHashType = true) := by
  have hkeysAt : keys.reverse <+: s.stack.drop 1 := by
    rw [hstack]
    exact ⟨_, rfl⟩
  have hsigsAt : sigs.reverse <+: s.stack.drop (keys.length + 2) := by
    rw [hstack, show keys.length + 2 = (keys.length + 1) + 1 from rfl, drop_succ_cons]
    refine ⟨rest, ?_⟩
    simp [drop_append]
  obtain ⟨n, hloop⟩ := multiSigLoop_eq (E := E) (c := c) scriptCode hsigsAt hkeysAt
    (fun sig hmem => hsigs sig (mem_reverse.mp hmem))
    (fun key hmem => hkeys key (mem_reverse.mp hmem))
  rw [length_reverse, length_reverse] at hloop
  refine ⟨_, n, hloop, ?_⟩
  rw [Matching.greedy_eq_true_iff, Matching.reverse_iff, Matching.sublistForall₂_iff_strictMono]

namespace OneKey

/-- A signature with its hash type. -/
def signed : Valtype := signature ++ [1]

/-- The stack of two signatures of three keys. -/
def twoOfThree : Machine := .plain
  (bnGetvch 3 :: ([pubKey true, pubKey false, pubKey true].reverse ++
    bnGetvch 2 :: ([signed, signed].reverse ++ [[]]))) 0 [] [] 0

theorem signed_encoding : checkSigEncoding signed 0 = true := by decide

theorem pubKey_encoding (fCompressed : Bool) :
    isCompressedOrUncompressedPubKey (pubKey fCompressed) = true := by
  cases fCompressed <;> decide

end OneKey

theorem multiSigLoop_iff_matching_twoOfThree :
    ∃ fSuccess n, multiSigLoop OneKey.env.toScriptEnv ⟨OneKey.payment, 0, 0, 0⟩ [] 3 2 6 2
        OneKey.twoOfThree = .ok fSuccess { OneKey.twoOfThree with nCheckSig := n } ∧
      (fSuccess = true ↔ ∃ f : Fin 2 → Fin 3, StrictMono f ∧ ∀ i,
        checkSig OneKey.env.toScriptEnv ([OneKey.signed, OneKey.signed].get i)
          ([OneKey.pubKey true, OneKey.pubKey false, OneKey.pubKey true].get (f i)) []
          OneKey.payment 0 0 = true) :=
  multiSigLoop_iff_matching OneKey.env.toScriptEnv ⟨OneKey.payment, 0, 0, 0⟩ []
    [OneKey.signed, OneKey.signed]
    [OneKey.pubKey true, OneKey.pubKey false, OneKey.pubKey true] [[]] (s := OneKey.twoOfThree) rfl
    (by
      intro sig hmem
      simp only [mem_cons, not_mem_nil, or_false, or_self] at hmem
      exact hmem ▸ OneKey.signed_encoding)
    (by
      intro key hmem
      simp only [mem_cons, not_mem_nil, or_false] at hmem
      rcases hmem with rfl | rfl | rfl <;> exact OneKey.pubKey_encoding _)

end Espers
