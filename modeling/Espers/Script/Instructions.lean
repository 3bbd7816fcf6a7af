import Espers.Lib.Lexer
import Espers.Lib.Loop
import Espers.Script.Spending

/-!
# Instructions of a script

A script is its instructions and a rest that cannot be read.  `FindAndDelete` compares bytes at a
cursor that moves by instructions, in a vector that shrinks under it.

* `scriptLexer` : `GetOp` takes the first instruction off a script.
* `findAndDeleteBody` : the loop of `FindAndDelete`, with what is before the cursor and behind it.
* `findAndDelete_instructions` : **exactly the equal instructions are deleted**, and in any order.
-/

namespace Espers

open List Nat Prod

variable {script pc : CScript} {opcode : UInt8} {vch : Valtype}

/-! ### The first instruction -/

/-- The length of a push is read from the bytes in front of it. -/
theorem pushLength_append {rest : CScript} {n : ℕ} (h : pushLength opcode script = some (n, rest)) :
    ∃ pre, script = pre ++ rest ∧ ∀ r, pushLength opcode (pre ++ r) = some (n, r) := by
  unfold pushLength at h ⊢
  by_cases hop : opcode.toNat < 0x4c
  · rw [if_pos hop] at h
    cases h
    exact ⟨[], rfl, fun r => if_pos hop⟩
  · simp only [if_neg hop] at h ⊢
    generalize (if opcode.toNat = 0x4c then 1 else if opcode.toNat = 0x4d then 2 else 4) = k at h ⊢
    split_ifs at h with hlen
    cases h
    have hk : (script.take k).length = k := by
      rw [length_take]
      omega
    refine ⟨script.take k, (take_append_drop k script).symm, fun r => ?_⟩
    rw [if_neg (by rw [length_append]; omega), take_append_of_le_length hk.ge,
      take_of_length_le hk.le, drop_left' hk]

/-- **What follows an instruction makes no difference to it.** -/
theorem getOp_append (h : getOp script = some (opcode, vch, pc)) :
    ∃ head, script = head ++ pc ∧ head ≠ [] ∧ ∀ r, getOp (head ++ r) = some (opcode, vch, r) := by
  obtain ⟨s, rfl, ⟨hpush, n, rest, hlen, hshort, rfl, rfl⟩ | ⟨hop, rfl, rfl⟩⟩ := getOp_cases h
  · obtain ⟨pre, rfl, hpre⟩ := pushLength_append hlen
    have hn : (rest.take n).length = n := by
      rw [length_take]
      omega
    refine ⟨opcode :: (pre ++ rest.take n), ?_, cons_ne_nil _ _, fun r => ?_⟩
    · rw [cons_append, append_assoc, take_append_drop]
    · rw [cons_append, getOp, if_pos hpush, append_assoc, hpre, Option.bind_some,
        if_neg (by rw [length_append]; omega), take_append_of_le_length hn.ge,
        take_of_length_le hn.le, drop_left' hn]
  · refine ⟨[opcode], rfl, cons_ne_nil _ _, fun r => ?_⟩
    rw [singleton_append, getOp, if_neg (not_le.mpr hop)]

/-- `GetOp` takes the first instruction off a script. -/
def scriptLexer : Lexer UInt8 where
  next s := (getOp s).map fun r => (s.take (s.length - r.2.2.length), r.2.2)
  split h := by
    obtain ⟨⟨opcode, vch, pc⟩, hget, heq⟩ := Option.map_eq_some_iff.mp h
    obtain ⟨head, rfl, hne, -⟩ := getOp_append hget
    cases heq
    simpa using hne
  alone r h := by
    obtain ⟨⟨opcode, vch, pc⟩, hget, heq⟩ := Option.map_eq_some_iff.mp h
    obtain ⟨head, rfl, -, happend⟩ := getOp_append hget
    cases heq
    simp [happend]

/-- The bytes of a single complete instruction. -/
def IsInstruction (b : CScript) : Prop := ∃ opcode vch, getOp b = some (opcode, vch, [])

theorem isToken_iff {b : CScript} : scriptLexer.IsToken b ↔ IsInstruction b := by
  constructor
  · intro h
    obtain ⟨⟨opcode, vch, pc⟩, hget, heq⟩ := Option.map_eq_some_iff.mp h
    obtain rfl : pc = [] := (mk.inj heq).2
    exact ⟨opcode, vch, hget⟩
  · rintro ⟨opcode, vch, hget⟩
    show (getOp b).map _ = _
    rw [hget]
    simp

theorem next_eq_none_iff {s : CScript} : scriptLexer.next s = none ↔ getOp s = none :=
  Option.map_eq_none_iff

/-! ### `FindAndDelete` -/

/-- The loop of `FindAndDelete`: `nFound`, what is before the cursor, and what is behind it. -/
def findAndDeleteBody (b : CScript) : ℕ × CScript × CScript → (ℕ × CScript × CScript) ⊕ ℕ × CScript
  | (nFound, before, after) =>
    -- the bytes are erased, and the cursor stays where it is
    if b.isPrefixOf after then .inl (nFound + 1, before, after.drop b.length)
    else
      match getOp after with
      | none => .inr (nFound, before ++ after)
      | some (_, _, pc) => .inl (nFound, before ++ after.take (after.length - pc.length), pc)

/-- `FindAndDelete` ends with the number of deletions and the script. -/
def FindsAndDeletes (b s : CScript) (r : ℕ × CScript) : Prop :=
  if b.isEmpty then r = (0, s) else Loop.Ends (findAndDeleteBody b) (0, [], s) r

section Delete

variable {b s tail : CScript} {is : List CScript}

theorem findAndDeleteBody_equal (nFound : ℕ) (before after : CScript) :
    findAndDeleteBody b (nFound, before, b ++ after) = .inl (nFound + 1, before, after) := by
  rw [findAndDeleteBody, if_pos (List.isPrefixOf_iff_prefix.mpr ⟨after, rfl⟩), drop_left]

theorem not_isPrefixOf_other (hb : scriptLexer.IsToken b) {i : CScript}
    (hi : scriptLexer.IsToken i) (hne : i ≠ b) (after : CScript) :
    ¬ b.isPrefixOf (i ++ after) = true := by
  intro hprefix
  obtain ⟨rest, hrest⟩ := (Lexer.prefix_iff hb).mp (List.isPrefixOf_iff_prefix.mp hprefix)
  rw [hi.next_append after] at hrest
  exact hne (mk.inj (Option.some.inj hrest)).1

theorem not_isPrefixOf_tail (hb : scriptLexer.IsToken b) (htail : scriptLexer.next tail = none) :
    ¬ b.isPrefixOf tail = true := by
  intro hprefix
  obtain ⟨rest, hrest⟩ := (Lexer.prefix_iff hb).mp (List.isPrefixOf_iff_prefix.mp hprefix)
  rw [htail] at hrest
  cases hrest

theorem getOp_of_token {i : CScript} (hi : scriptLexer.IsToken i) (after : CScript) :
    ∃ opcode vch, getOp (i ++ after) = some (opcode, vch, after) := by
  obtain ⟨⟨opcode, vch, pc⟩, hget, heq⟩ := Option.map_eq_some_iff.mp (hi.next_append after)
  obtain rfl : pc = after := (mk.inj heq).2
  exact ⟨opcode, vch, hget⟩

theorem take_before (i after : CScript) :
    (i ++ after).take ((i ++ after).length - after.length) = i := by
  rw [length_append, Nat.add_sub_cancel, take_left]

section

variable (hb : scriptLexer.IsToken b)
include hb

theorem findAndDeleteBody_other {i : CScript}
    (hi : scriptLexer.IsToken i) (hne : i ≠ b) (nFound : ℕ) (before after : CScript) :
    findAndDeleteBody b (nFound, before, i ++ after) = .inl (nFound, before ++ i, after) := by
  obtain ⟨opcode, vch, hget⟩ := getOp_of_token hi after
  rw [findAndDeleteBody, if_neg (not_isPrefixOf_other hb hi hne after), hget]
  simp only [take_before]

theorem findAndDeleteBody_tail (htail : scriptLexer.next tail = none)
    (nFound : ℕ) (before : CScript) :
    findAndDeleteBody b (nFound, before, tail) = .inr (nFound, before ++ tail) := by
  rw [findAndDeleteBody, if_neg (not_isPrefixOf_tail hb htail), next_eq_none_iff.mp htail]

/-- The loop deletes the equal instructions, one after the other. -/
theorem findAndDeleteBody_ends
    (his : ∀ i ∈ is, scriptLexer.IsToken i) (htail : scriptLexer.next tail = none) (nFound : ℕ)
    (before : CScript) : Loop.Ends (findAndDeleteBody b) (nFound, before, is.flatten ++ tail)
      (nFound + is.count b, before ++ ((is.filter (· ≠ b)).flatten ++ tail)) := by
  induction is generalizing nFound before with
  | nil => exact Loop.ends_of_exit (findAndDeleteBody_tail hb htail nFound before)
  | cons i is ih =>
    have hrest := fun j hj => his j (.tail _ hj)
    rw [flatten_cons, append_assoc]
    by_cases hi : i = b
    · subst hi
      rw [Loop.ends_iff_of_next (findAndDeleteBody_equal nFound before _), count_cons_self,
        filter_cons_of_neg (by simp), ← add_assoc, add_right_comm]
      exact ih hrest (nFound + 1) before
    · rw [Loop.ends_iff_of_next (findAndDeleteBody_other hb (his i mem_cons_self) hi nFound
        before _), count_cons_of_ne hi, filter_cons_of_pos (by simpa using hi),
        flatten_cons, append_assoc, ← append_assoc before]
      exact ih hrest nFound (before ++ i)

/-- The function that the script machine calls goes on in the same way. -/
theorem findAndDeleteLoop_eq (his : ∀ i ∈ is, scriptLexer.IsToken i)
    (htail : scriptLexer.next tail = none) {fuel : ℕ} (hfuel : is.length < fuel) :
    findAndDeleteLoop b fuel (is.flatten ++ tail) = (is.filter (· ≠ b)).flatten ++ tail := by
  induction is generalizing fuel with
  | nil =>
    obtain ⟨fuel, rfl⟩ : ∃ n, fuel = n + 1 := ⟨fuel - 1, by simp at hfuel; omega⟩
    rw [flatten_nil, nil_append, findAndDeleteLoop,
      if_neg (not_isPrefixOf_tail hb htail), next_eq_none_iff.mp htail]
    rfl
  | cons i is ih =>
    obtain ⟨fuel, rfl⟩ : ∃ n, fuel = n + 1 := ⟨fuel - 1, by simp at hfuel; omega⟩
    have hrest := fun j hj => his j (.tail _ hj)
    have hmore := ih hrest (show is.length < fuel by simpa using hfuel)
    rw [flatten_cons, append_assoc, findAndDeleteLoop]
    by_cases hi : i = b
    · subst hi
      rw [if_pos (List.isPrefixOf_iff_prefix.mpr ⟨_, rfl⟩), drop_left, hmore,
        filter_cons_of_neg (by simp)]
    · obtain ⟨opcode, vch, hget⟩ := getOp_of_token (his i mem_cons_self) (is.flatten ++ tail)
      rw [if_neg (not_isPrefixOf_other hb (his i mem_cons_self) hi _), hget]
      simp only [take_before]
      rw [hmore, filter_cons_of_pos (by simpa using hi), flatten_cons, append_assoc]

/-- **`FindAndDelete` ends, with the equal instructions deleted and counted.** -/
theorem findsAndDeletes_iff (hs : scriptLexer.Splits s is tail) (r : ℕ × CScript) :
    FindsAndDeletes b s r ↔ r = (is.count b, (is.filter (· ≠ b)).flatten ++ tail) := by
  have hends := findAndDeleteBody_ends hb hs.tokens hs.stuck 0 []
  rw [← hs.eq, zero_add, nil_append] at hends
  rw [FindsAndDeletes, if_neg (by simpa using hb.ne_nil)]
  exact ⟨fun h => h.unique hends, fun h => h ▸ hends⟩

theorem findAndDelete_eq (hs : scriptLexer.Splits s is tail) :
    findAndDelete b s = (is.filter (· ≠ b)).flatten ++ tail := by
  have hfuel : is.length < s.length + 1 := by
    have hlen : is.length ≤ is.flatten.length := by
      rw [length_flatten]
      have hmap : (is.map List.length).length = is.length := length_map _
      refine hmap.ge.trans (length_le_sum_of_one_le _ ?_)
      intro n hn
      obtain ⟨i, hi, rfl⟩ := mem_map.mp hn
      exact length_pos_iff.mpr (hs.tokens i hi).ne_nil
    rw [hs.eq, length_append]
    omega
  rw [findAndDelete, if_neg (by simpa using hb.ne_nil)]
  have hloop := findAndDeleteLoop_eq hb hs.tokens hs.stuck hfuel
  rwa [← hs.eq] at hloop

theorem findAndDelete_deletes (s : CScript) : scriptLexer.Deletes b s (findAndDelete b s) := by
  obtain ⟨is, tail, hs⟩ := scriptLexer.exists_splits s
  exact hs.deletes_iff.mpr (findAndDelete_eq hb hs)

theorem findAndDelete_comm {b' : CScript} (hb' : scriptLexer.IsToken b') (s : CScript) :
    findAndDelete b' (findAndDelete b s) = findAndDelete b (findAndDelete b' s) := by
  obtain ⟨is, tail, hs⟩ := scriptLexer.exists_splits s
  have hcomm := (findAndDelete_deletes hb s).comm (findAndDelete_deletes hb' _)
    (findAndDelete_deletes hb' s)
  have hs' : scriptLexer.Splits (findAndDelete b' s) (is.filter (· ≠ b')) tail := by
    rw [findAndDelete_eq hb' hs]
    exact hs.filter _
  rw [findAndDelete_eq hb hs']
  exact hs'.deletes_iff.mp hcomm

end

theorem isToken_pushData {d : Valtype} (hd : d.length ≤ maxScriptElementSize) :
    scriptLexer.IsToken (pushData d) := by
  obtain ⟨opcode, -, hget⟩ := getOp_pushData hd []
  rw [append_nil] at hget
  exact isToken_iff.mpr ⟨opcode, d, hget⟩

/-- **The order in which the signatures are dropped makes no difference.** -/
theorem withoutSignatures_perm {sigs sigs' : List Valtype} (h : sigs.Perm sigs')
    (hsigs : ∀ sig ∈ sigs, sig.length ≤ maxScriptElementSize) (s : CScript) :
    withoutSignatures sigs s = withoutSignatures sigs' s := by
  induction h generalizing s with
  | nil => rfl
  | cons sig _ ih => exact ih (fun sig' hmem => hsigs sig' (.tail _ hmem)) _
  | swap sig sig' sigs =>
    have hsig := isToken_pushData (hsigs sig (.tail _ (.head _)))
    have hsig' := isToken_pushData (hsigs sig' (.head _))
    rw [withoutSignatures, withoutSignatures, foldl_cons, foldl_cons, foldl_cons,
      foldl_cons, findAndDelete_comm hsig hsig']
  | trans h _ ih ih' =>
    exact (ih hsigs s).trans (ih' (fun sig hmem => hsigs sig (h.mem_iff.mpr hmem)) s)

end Delete

/-- **`FindAndDelete` removes whole instructions only.**  For a single complete instruction it ends
with exactly the equal instructions of the script removed and counted, and the rest that cannot be
read kept; doing it again finds nothing, and two deletions commute, so the signatures of
`OP_CHECKMULTISIG` are dropped in any order. -/
theorem findAndDelete_instructions {b : CScript} (hb : IsInstruction b) (s : CScript) :
    (∃ is tail, scriptLexer.Splits s is tail ∧
      (∀ r, FindsAndDeletes b s r ↔ r = (is.count b, (is.filter (· ≠ b)).flatten ++ tail)) ∧
      findAndDelete b s = (is.filter (· ≠ b)).flatten ++ tail ∧
      scriptLexer.Splits (findAndDelete b s) (is.filter (· ≠ b)) tail) ∧
    (∀ r, FindsAndDeletes b (findAndDelete b s) r ↔ r = (0, findAndDelete b s)) ∧
    (∀ b', IsInstruction b' →
      findAndDelete b' (findAndDelete b s) = findAndDelete b (findAndDelete b' s)) ∧
    ∀ sigs sigs' : List Valtype, sigs.Perm sigs' →
      (∀ sig ∈ sigs, sig.length ≤ maxScriptElementSize) →
        withoutSignatures sigs s = withoutSignatures sigs' s := by
  have hb := isToken_iff.mpr hb
  obtain ⟨is, tail, hs⟩ := scriptLexer.exists_splits s
  have heq := findAndDelete_eq hb hs
  have hs' : scriptLexer.Splits (findAndDelete b s) (is.filter (· ≠ b)) tail := by
    rw [heq]
    exact hs.filter _
  have hcount : (is.filter (· ≠ b)).count b = 0 := by
    rw [count_eq_zero]
    simp
  have hagain : ((is.filter (· ≠ b)).filter (· ≠ b)).flatten ++ tail = findAndDelete b s := by
    rw [filter_filter, heq]
    simp only [Bool.and_self]
  refine ⟨⟨is, tail, hs, findsAndDeletes_iff hb hs, heq, hs'⟩, fun r => ?_, fun b' hb' => ?_,
    fun sigs sigs' h hsigs => withoutSignatures_perm h hsigs s⟩
  · rw [findsAndDeletes_iff hb hs', hcount, hagain]
  · exact findAndDelete_comm hb (isToken_iff.mpr hb') s

/-- A script with two equal instructions, data that looks like them, and a push that is cut off. -/
def lookalike : CScript := [0x01, 0x01, 0x02, 0x01, 0x01, 0x01, 0x01, 0x02, 0x01]

theorem findAndDelete_instructions_lookalike :
    findAndDelete [0x01, 0x01] lookalike = [0x02, 0x01, 0x01, 0x02, 0x01] ∧
    (∃ is tail, scriptLexer.Splits lookalike is tail ∧
      (∀ r, FindsAndDeletes [0x01, 0x01] lookalike r ↔
        r = (is.count [0x01, 0x01], (is.filter (· ≠ [0x01, 0x01])).flatten ++ tail)) ∧
      findAndDelete [0x01, 0x01] lookalike = (is.filter (· ≠ [0x01, 0x01])).flatten ++ tail ∧
      scriptLexer.Splits (findAndDelete [0x01, 0x01] lookalike) (is.filter (· ≠ [0x01, 0x01]))
        tail) ∧
    (∀ r, FindsAndDeletes [0x01, 0x01] (findAndDelete [0x01, 0x01] lookalike) r ↔
      r = (0, findAndDelete [0x01, 0x01] lookalike)) ∧
    (∀ b', IsInstruction b' → findAndDelete b' (findAndDelete [0x01, 0x01] lookalike) =
      findAndDelete [0x01, 0x01] (findAndDelete b' lookalike)) ∧
    ∀ sigs sigs' : List Valtype, sigs.Perm sigs' →
      (∀ sig ∈ sigs, sig.length ≤ maxScriptElementSize) →
        withoutSignatures sigs lookalike = withoutSignatures sigs' lookalike :=
  ⟨by decide, findAndDelete_instructions ⟨0x01, [0x01], by decide⟩ lookalike⟩

end Espers
