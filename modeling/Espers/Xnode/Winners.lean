import Espers.Xnode.BlockHash
import Espers.Lib.KeepBest

/-!
# The votes on who is paid

A vote (`xnw`) names the xnode to be paid at a height.  The handler of `xnodereward.cpp` drops a
vote whose hash it has seen and keeps the best vote of a height: a newcomer needs a higher score.
The hash covers the height and the transaction of the collateral, not its output nor the payee; the
score covers the transaction of the collateral.

* `deliverVotes_find?` : after any deliveries the vote kept for a height is the first of the highest
  score among those that got through the filter.
* `winners_converge_iff` : **two nodes agree on every payee, whatever the orders of delivery,
  exactly if** all votes that can come out for a height are alike and the filter cannot hide them
  all.
-/

namespace Espers

open KeepBest HashNode List BlockMap

/-- A vote. -/
structure CXNodePaymentWinner where
  nBlockHeight : ℤ
  vin : CTxIn
  payee : CScript
  vchSig : List UInt8
  score : ℕ
  deriving DecidableEq, Repr

/-- What the votes rest on: the hash of a height, the hash of a 256-bit number, and the check of a
signature. -/
structure VoteParams where
  hashHeight : ℤ → Uint256
  hash : Uint256 → Uint256
  checkSignature : CXNodePaymentWinner → Bool

/-- The difference of two numbers without sign. -/
def distance (a b : Uint256) : Uint256 := if a > b then a - b else b - a

/-- `CXNodePaymentWinner::GetHash`. -/
def CXNodePaymentWinner.getHash (P : VoteParams) (winner : CXNodePaymentWinner) : Uint256 :=
  distance winner.vin.prevout.hash (P.hashHeight winner.nBlockHeight)

/-- `CXNodePayments::CalculateScore`. -/
def CXNodePayments.calculateScore (P : VoteParams) (blockHash : Uint256) (vin : CTxIn) : ℕ :=
  -- `Get64()`
  (distance (P.hash vin.prevout.hash) (P.hash blockHash)).toNat % 2 ^ 64

/-- What a node keeps for the votes. -/
structure PaymentNode where
  chain : HashNode
  mapSeenXNodeVotes : AList (fun _ : Uint256 => CXNodePaymentWinner) := ∅
  vWinning : List CXNodePaymentWinner := []

/-- `map::insert`, which leaves an entry that is there. -/
def PaymentNode.see (P : VoteParams) (s : PaymentNode) (winner : CXNodePaymentWinner) :
    PaymentNode :=
  if winner.getHash P ∈ s.mapSeenXNodeVotes then s
  else { s with mapSeenXNodeVotes := s.mapSeenXNodeVotes.insert (winner.getHash P) winner }

/-- The loop of `AddWinningXNode`: whether a vote for the height was met, and the list if one was
replaced. -/
def challenge (winnerIn : CXNodePaymentWinner) :
    List CXNodePaymentWinner → Bool × Option (List CXNodePaymentWinner)
  | [] => (false, none)
  | winner :: rest =>
    if winner.nBlockHeight = winnerIn.nBlockHeight then
      if winner.score < winnerIn.score then
        (true, some ({ winner with
          score := winnerIn.score, vin := winnerIn.vin, payee := winnerIn.payee,
          vchSig := winnerIn.vchSig } :: rest))
      else (true, (challenge winnerIn rest).2.map (winner :: ·))
    else ((challenge winnerIn rest).1, (challenge winnerIn rest).2.map (winner :: ·))

/-- `CXNodePayments::AddWinningXNode`. -/
def addWinningXNode (P : VoteParams) (s : PaymentNode) (winnerIn : CXNodePaymentWinner) :
    Bool × PaymentNode :=
  let lookup := (getBlockHash s.chain (winnerIn.nBlockHeight - 576)).1
  let s := { s with chain := s.chain.step (.lookup .xnode (winnerIn.nBlockHeight - 576)) }
  match lookup with
  | none => (false, s)
  | some blockHash =>
    let winnerIn :=
      { winnerIn with score := CXNodePayments.calculateScore P blockHash winnerIn.vin }
    match challenge winnerIn s.vWinning with
    | (_, some vWinning) => (true, { s with vWinning := vWinning }.see P winnerIn)
    | (false, none) => (true, { s with vWinning := s.vWinning ++ [winnerIn] }.see P winnerIn)
    | (true, none) => (false, s)

/-- The tests of the handler that look at the vote alone: its height is close to the best height,
its input is final, and it is signed. -/
def CXNodePaymentWinner.acceptable (P : VoteParams) (winner : CXNodePaymentWinner)
    (nBestHeight : ℤ) : Bool :=
  !(winner.nBlockHeight < nBestHeight - 10 || winner.nBlockHeight > nBestHeight + 20) &&
    winner.vin.nSequence == uintMax && P.checkSignature winner

/-- The `xnw` branch of `ProcessMessageXNodePayments`. -/
def processXnw (P : VoteParams) (s : PaymentNode) (winner : CXNodePaymentWinner) : PaymentNode :=
  match s.chain.pindexBest with
  | none => s
  | some best =>
    if winner.getHash P ∈ s.mapSeenXNodeVotes then s
    else if winner.acceptable P (height s.chain.mapBlockIndex best) then
      (addWinningXNode P (s.see P winner) winner).2
    else s

/-- `CXNodePayments::GetBlockPayee`. -/
def getBlockPayee (vWinning : List CXNodePaymentWinner) (nBlockHeight : ℤ) :
    Option (CScript × CTxIn) :=
  (vWinning.find? (fun winner => winner.nBlockHeight = nBlockHeight)).map
    fun winner => (winner.payee, winner.vin)

/-- A node to which votes have been delivered. -/
def deliverVotes (P : VoteParams) (chain : HashNode) (votes : List CXNodePaymentWinner) :
    PaymentNode :=
  votes.foldl (processXnw P) { chain := chain }

/-! ### What a vote counts for -/

section View

variable (P : VoteParams) (n : HashNode)

/-- A vote that passes the tests of the handler. -/
def CXNodePaymentWinner.Counts (winner : CXNodePaymentWinner) : Prop :=
  ∃ best, n.pindexBest = some best ∧ winner.acceptable P (height n.mapBlockIndex best) = true

instance : DecidablePred (CXNodePaymentWinner.Counts P n) := fun winner =>
  match h : n.pindexBest with
  | none => isFalse (by rintro ⟨best, hb, -⟩; rw [h] at hb; cases hb)
  | some best => decidable_of_iff
      (winner.acceptable P (height n.mapBlockIndex best) = true) (by
        constructor
        · exact fun ha => ⟨best, h, ha⟩
        · rintro ⟨best', hb, ha⟩
          rw [h, Option.some.injEq] at hb
          exact hb.symm ▸ ha)

/-- The votes that pass the tests of the handler. -/
def counted (votes : List CXNodePaymentWinner) : List CXNodePaymentWinner :=
  votes.filter (fun winner => winner.Counts P n)

/-- The score that a vote is given. -/
def CXNodePaymentWinner.scoreAt (winner : CXNodePaymentWinner) : ℕ :=
  match n.answer .xnode (winner.nBlockHeight - 576) with
  | none => 0
  | some blockHash => CXNodePayments.calculateScore P blockHash winner.vin

/-- The vote as it is stored. -/
def CXNodePaymentWinner.scored (winner : CXNodePaymentWinner) : CXNodePaymentWinner :=
  { winner with score := winner.scoreAt P n }

end View

/-! ### One vote -/

section Vote

variable {P : VoteParams} {n : HashNode} {s : PaymentNode} {l : List CXNodePaymentWinner}
  {w winnerIn : CXNodePaymentWinner} {h : Uint256} {H : ℤ}

@[simp] theorem see_chain : (s.see P w).chain = s.chain := by
  unfold PaymentNode.see
  split <;> rfl

@[simp] theorem see_vWinning : (s.see P w).vWinning = s.vWinning := by
  unfold PaymentNode.see
  split <;> rfl

theorem mem_see : h ∈ (s.see P w).mapSeenXNodeVotes ↔ h = w.getHash P ∨
    h ∈ s.mapSeenXNodeVotes := by
  unfold PaymentNode.see
  split
  · rename_i hseen
    refine ⟨.inr, ?_⟩
    rintro (rfl | hm)
    · exact hseen
    · exact hm
  · exact AList.mem_insert _

theorem challenge_absent (hl : ∀ w ∈ l, w.nBlockHeight ≠ winnerIn.nBlockHeight) :
    challenge winnerIn l = (false, none) := by
  induction l with
  | nil => rfl
  | cons w l ih =>
    have hw := hl w (by simp)
    rw [challenge, if_neg hw, ih fun w' hw' => hl w' (by simp [hw'])]
    rfl

/-- The vote of the height is replaced by one of a higher score. -/
theorem challenge_present {a b : List CXNodePaymentWinner}
    (ha : ∀ w ∈ a, w.nBlockHeight ≠ winnerIn.nBlockHeight)
    (hb : ∀ w ∈ b, w.nBlockHeight ≠ winnerIn.nBlockHeight)
    (hw : w.nBlockHeight = winnerIn.nBlockHeight) :
    challenge winnerIn (a ++ w :: b) =
      (true, if w.score < winnerIn.score then some (a ++ winnerIn :: b) else none) := by
  induction a with
  | nil =>
    rw [nil_append, challenge, if_pos hw]
    by_cases hlt : w.score < winnerIn.score
    · rw [if_pos hlt, if_pos hlt]
      simp only [hw, nil_append]
    · rw [if_neg hlt, if_neg hlt, challenge_absent hb]
      rfl
  | cons c a ih =>
    have hc := ha c (by simp)
    rw [cons_append, challenge, if_neg hc, ih fun w' hw' => ha w' (by simp [hw'])]
    by_cases hlt : w.score < winnerIn.score
    · simp [hlt]
    · simp [hlt]

/-- The votes of a list are for different heights. -/
def Distinct (l : List CXNodePaymentWinner) : Prop :=
  (l.map CXNodePaymentWinner.nBlockHeight).Nodup

/-- The vote for a height. -/
def voteFor (l : List CXNodePaymentWinner) (H : ℤ) : Option CXNodePaymentWinner :=
  l.find? (fun w => w.nBlockHeight = H)

/-- What `AddWinningXNode` makes of the list for a vote with its score. -/
def enter (winnerIn : CXNodePaymentWinner) (l : List CXNodePaymentWinner) :
    List CXNodePaymentWinner :=
  match challenge winnerIn l with
  | (_, some l') => l'
  | (false, none) => l ++ [winnerIn]
  | (true, none) => l

theorem voteFor_eq_some (hl : Distinct l) (hw : voteFor l H = some w) :
    ∃ a b, l = a ++ w :: b ∧ w.nBlockHeight = H ∧ (∀ w' ∈ a, w'.nBlockHeight ≠ H) ∧
      ∀ w' ∈ b, w'.nBlockHeight ≠ H := by
  obtain ⟨hH, a, b, rfl, ha⟩ := find?_eq_some_iff_append.1 hw
  have hH' : w.nBlockHeight = H := by simpa using hH
  refine ⟨a, b, rfl, hH', fun w' hw' => by simpa using ha w' hw', fun w' hw' heq => ?_⟩
  unfold Distinct at hl
  rw [map_append, map_cons, nodup_append] at hl
  refine (nodup_cons.1 hl.2.1).1 ?_
  rw [hH', ← heq]
  exact mem_map_of_mem hw'

theorem voteFor_eq_none : voteFor l H = none ↔ ∀ w ∈ l, w.nBlockHeight ≠ H := by
  simp [voteFor]

/-- **A vote enters the list if there is none for its height or one of a lower score.** -/
theorem enter_spec (hl : Distinct l) (winnerIn : CXNodePaymentWinner) :
    Distinct (enter winnerIn l) ∧ ∀ H, voteFor (enter winnerIn l) H =
      if H = winnerIn.nBlockHeight then
        match voteFor l H with
        | none => some winnerIn
        | some w => if w.score < winnerIn.score then some winnerIn else some w
      else voteFor l H := by
  unfold enter
  cases hv : voteFor l winnerIn.nBlockHeight with
  | none =>
    have hne := voteFor_eq_none.1 hv
    rw [challenge_absent hne]
    refine ⟨?_, fun H => ?_⟩
    · unfold Distinct
      rw [map_append, map_singleton, nodup_append]
      refine ⟨hl, nodup_singleton _, ?_⟩
      rintro x hx y hy rfl
      obtain ⟨w, hw, rfl⟩ := mem_map.1 hx
      exact hne w hw (mem_singleton.1 hy)
    · by_cases hH : H = winnerIn.nBlockHeight
      · subst hH
        unfold voteFor at hv ⊢
        rw [find?_append, hv]
        simp
      · have hH' : ¬ winnerIn.nBlockHeight = H := fun h => hH h.symm
        rw [if_neg hH]
        unfold voteFor
        simp [hH']
  | some w =>
    obtain ⟨a, b, rfl, hwH, ha, hb⟩ := voteFor_eq_some hl hv
    rw [challenge_present ha hb hwH]
    by_cases hlt : w.score < winnerIn.score
    · rw [if_pos hlt]
      refine ⟨?_, fun H => ?_⟩
      · unfold Distinct at hl ⊢
        simpa [hwH] using hl
      · by_cases hH : H = winnerIn.nBlockHeight
        · subst hH
          have hnone := voteFor_eq_none.2 ha
          rw [if_pos rfl, hv]
          unfold voteFor at hnone ⊢
          rw [find?_append, hnone]
          simp [hlt]
        · have hH' : ¬ winnerIn.nBlockHeight = H := fun h => hH h.symm
          have hwH' : ¬ w.nBlockHeight = H := hwH ▸ hH'
          rw [if_neg hH]
          unfold voteFor
          simp [hH', hwH']
    · rw [if_neg hlt]
      refine ⟨hl, fun H => ?_⟩
      by_cases hH : H = winnerIn.nBlockHeight
      · subst hH
        rw [if_pos rfl, hv]
        simp [hlt]
      · rw [if_neg hH]

end Vote

/-! ### All votes -/

section Votes

variable {P : VoteParams} {n : HashNode} {s : PaymentNode} {votes : List CXNodePaymentWinner}
  {w : CXNodePaymentWinner} {H : ℤ}

/-- Two nodes see the same chain: the best height, and the answers to lookups. -/
structure SameView (n n' : HashNode) : Prop where
  best : n.pindexBest.map (height n.mapBlockIndex) = n'.pindexBest.map (height n'.mapBlockIndex)
  answer : ∀ h, n.answer .xnode h = n'.answer .xnode h

theorem SameView.step (h : SameView s.chain n) (k : ℤ) :
    SameView (s.chain.step (.lookup .xnode k)) n :=
  ⟨h.best, fun j => answer_step_lookup.trans (h.answer j)⟩

theorem counts_iff : w.Counts P n ↔
    ∃ height, n.pindexBest.map (BlockMap.height n.mapBlockIndex) = some height ∧
      w.acceptable P height = true := by
  simp [CXNodePaymentWinner.Counts]

theorem SameView.counts {n' : HashNode} (h : SameView n n') : w.Counts P n ↔ w.Counts P n' := by
  rw [counts_iff, counts_iff, h.best]

theorem SameView.scoreAt {n' : HashNode} (h : SameView n n') : w.scoreAt P n = w.scoreAt P n' := by
  unfold CXNodePaymentWinner.scoreAt
  rw [h.answer]

/-- The vote that is kept for a height, by the specification: of those that count and get through
the filter, the first one of the highest score. -/
def winnerFor (P : VoteParams) (n : HashNode) (votes : List CXNodePaymentWinner) (H : ℤ) :
    Option CXNodePaymentWinner :=
  if (n.answer .xnode (H - 576)).isSome then
    (kept (CXNodePaymentWinner.getHash P) (fun w => w.nBlockHeight = H)
      (CXNodePaymentWinner.scoreAt P n) (counted P n votes)).map (CXNodePaymentWinner.scored P n)
  else none

/-- What a node that saw the chain as `n` does holds after the votes. -/
structure Standing (P : VoteParams) (n : HashNode) (votes : List CXNodePaymentWinner)
    (s : PaymentNode) : Prop where
  view : SameView s.chain n
  seen : ∀ h, h ∈ s.mapSeenXNodeVotes ↔
    h ∈ (novel (CXNodePaymentWinner.getHash P) (counted P n votes)).map
    (CXNodePaymentWinner.getHash P)
  distinct : Distinct s.vWinning
  vote : ∀ H, voteFor s.vWinning H = winnerFor P n votes H

theorem Standing.start : Standing P n [] { chain := n } where
  view := ⟨rfl, fun _ => rfl⟩
  seen h := by simp [counted]
  distinct := nodup_nil
  vote H := by
    unfold winnerFor
    split <;> rfl

theorem addWinningXNode_vWinning (hv : SameView s.chain n) (w : CXNodePaymentWinner) :
    (addWinningXNode P s w).2.vWinning =
      if (n.answer .xnode (w.nBlockHeight - 576)).isSome then enter (w.scored P n) s.vWinning
      else s.vWinning := by
  have hans : (getBlockHash s.chain (w.nBlockHeight - 576)).1 =
      n.answer .xnode (w.nBlockHeight - 576) := hv.answer _
  unfold addWinningXNode
  simp only [hans]
  cases ha : n.answer .xnode (w.nBlockHeight - 576) with
  | none => rfl
  | some blockHash =>
    have hscored : w.scored P n =
        { w with score := CXNodePayments.calculateScore P blockHash w.vin } := by
      simp [CXNodePaymentWinner.scored, CXNodePaymentWinner.scoreAt, ha]
    simp only [enter]
    split <;> simp_all

theorem addWinningXNode_chain (w : CXNodePaymentWinner) : (addWinningXNode P s w).2.chain =
    s.chain.step (.lookup .xnode (w.nBlockHeight - 576)) := by
  unfold addWinningXNode
  simp only
  split
  · rfl
  · split <;> simp

/-- The filter knows the votes it knew and, at most, the new one. -/
theorem addWinningXNode_seen (w : CXNodePaymentWinner) (h : Uint256) :
    (h ∈ (addWinningXNode P (s.see P w) w).2.mapSeenXNodeVotes) ↔
      h = w.getHash P ∨ h ∈ s.mapSeenXNodeVotes := by
  have hscore : ∀ score, CXNodePaymentWinner.getHash P { w with score := score } = w.getHash P :=
    fun _ => rfl
  unfold addWinningXNode
  simp only
  split
  · exact mem_see
  · split
    · rw [mem_see, hscore]
      simp only [mem_see]
      tauto
    · rw [mem_see, hscore]
      simp only [mem_see]
      tauto
    · exact mem_see

theorem counted_snoc : counted P n (votes ++ [w]) =
    if w.Counts P n then counted P n votes ++ [w] else counted P n votes := by
  unfold counted
  by_cases hc : w.Counts P n <;> simp [hc]

/-- A vote that gets through competes for its height only. -/
theorem winnerFor_snoc (hc : w.Counts P n)
    (hnew : w.getHash P ∉ (novel (CXNodePaymentWinner.getHash P) (counted P n votes)).map
      (CXNodePaymentWinner.getHash P)) (H : ℤ) :
    winnerFor P n (votes ++ [w]) H = if H = w.nBlockHeight ∧ (n.answer .xnode (H - 576)).isSome then
        match winnerFor P n votes H with
        | none => some (w.scored P n)
        | some v => if v.score < (w.scored P n).score then some (w.scored P n) else some v
      else winnerFor P n votes H := by
  unfold winnerFor
  rw [counted_snoc, if_pos hc, kept_snoc_new hnew]
  by_cases ha : (n.answer .xnode (H - 576)).isSome
  · simp only [ha, if_true, and_true]
    by_cases hH : H = w.nBlockHeight
    · rw [if_pos hH.symm, if_pos hH]
      cases hk : kept (CXNodePaymentWinner.getHash P) (fun w => w.nBlockHeight = H)
          (CXNodePaymentWinner.scoreAt P n) (counted P n votes) with
      | none => rfl
      | some v =>
        have hv : (v.scored P n).score = v.scoreAt P n := rfl
        have hw : (w.scored P n).score = w.scoreAt P n := rfl
        simp only [Option.map_some, hv, hw]
        split <;> rfl
    · rw [if_neg (fun h => hH h.symm), if_neg hH]
  · rw [if_neg ha, if_neg fun h => ha h.2, if_neg ha]

/-- **One vote keeps a node in step with the specification.** -/
theorem Standing.snoc (hs : Standing P n votes s) (w : CXNodePaymentWinner) :
    Standing P n (votes ++ [w]) (processXnw P s w) := by
  unfold processXnw
  cases hb : s.chain.pindexBest with
  | none =>
    have hc : ¬ w.Counts P n := by
      rw [← hs.view.counts]
      rintro ⟨best, hbest, -⟩
      rw [hb] at hbest
      cases hbest
    refine ⟨hs.view, ?_, hs.distinct, fun H => ?_⟩
    · rw [counted_snoc, if_neg hc]
      exact hs.seen
    · rw [hs.vote, winnerFor, winnerFor, counted_snoc, if_neg hc]
  | some best =>
    have hcounts : w.Counts P n ↔
        w.acceptable P (BlockMap.height s.chain.mapBlockIndex best) = true := by
      rw [← hs.view.counts, counts_iff, hb]
      simp
    simp only
    by_cases hseen : w.getHash P ∈ s.mapSeenXNodeVotes
    · rw [if_pos hseen]
      have hnovel := (hs.seen _).1 hseen
      refine ⟨hs.view, ?_, hs.distinct, fun H => ?_⟩
      · rw [counted_snoc]
        split
        · rw [novel_snoc, if_pos hnovel]
          exact hs.seen
        · exact hs.seen
      · rw [hs.vote, winnerFor, winnerFor, counted_snoc]
        split
        · split
          · rw [kept_snoc_seen hnovel]
          · rfl
        · rfl
    · rw [if_neg hseen]
      by_cases hacc : w.acceptable P (height s.chain.mapBlockIndex best) = true
      · rw [if_pos hacc]
        have hc := hcounts.2 hacc
        have hnew := fun h => hseen ((hs.seen _).2 h)
        have hview : SameView (s.see P w).chain n := by simpa using hs.view
        refine ⟨?_, fun h => ?_, ?_, fun H => ?_⟩
        · rw [addWinningXNode_chain]
          exact hview.step _
        · rw [addWinningXNode_seen, hs.seen, counted_snoc, if_pos hc, novel_snoc, if_neg hnew,
            map_append, mem_append, map_singleton, mem_singleton]
          exact or_comm
        · rw [addWinningXNode_vWinning hview, see_vWinning]
          split
          · exact (enter_spec hs.distinct _).1
          · exact hs.distinct
        · rw [winnerFor_snoc hc hnew, addWinningXNode_vWinning hview, see_vWinning]
          by_cases ha : (n.answer .xnode (w.nBlockHeight - 576)).isSome
          · have hheight : (w.scored P n).nBlockHeight = w.nBlockHeight := rfl
            rw [if_pos ha, (enter_spec hs.distinct _).2, hs.vote, hheight]
            by_cases hH : H = w.nBlockHeight
            · subst hH
              rw [if_pos rfl, if_pos ⟨rfl, ha⟩]
            · rw [if_neg hH, if_neg fun h => hH h.1]
          · rw [if_neg ha, hs.vote, if_neg]
            rintro ⟨rfl, h⟩
            exact ha h
      · rw [if_neg hacc]
        have hc : ¬ w.Counts P n := fun h => hacc (hcounts.1 h)
        refine ⟨hs.view, ?_, hs.distinct, fun H => ?_⟩
        · rw [counted_snoc, if_neg hc]
          exact hs.seen
        · rw [hs.vote, winnerFor, winnerFor, counted_snoc, if_neg hc]

theorem deliverVotes_standing (P : VoteParams) (n : HashNode) (votes : List CXNodePaymentWinner) :
    Standing P n votes (deliverVotes P n votes) := by
  induction votes using List.reverseRecOn with
  | nil => exact .start
  | append_singleton votes w ih =>
    have hsnoc : deliverVotes P n (votes ++ [w]) = processXnw P (deliverVotes P n votes) w := by
      simp [deliverVotes]
    rw [hsnoc]
    exact ih.snoc w

/-- **The payee of a height is that of the best vote that got through.** -/
theorem getBlockPayee_deliverVotes : getBlockPayee (deliverVotes P n votes).vWinning H =
    if (n.answer .xnode (H - 576)).isSome then
      (kept (CXNodePaymentWinner.getHash P) (fun w => w.nBlockHeight = H)
        (CXNodePaymentWinner.scoreAt P n) (counted P n votes)).map fun w => (w.payee, w.vin)
    else none := by
  have hvote := (deliverVotes_standing P n votes).vote H
  unfold voteFor winnerFor at hvote
  rw [getBlockPayee, hvote]
  split
  · rw [Option.map_map]
    rfl
  · rfl

end Votes

/-- `w` can come out as the vote for its height: among the votes that count, each other hash is that
of a vote for another height or of no higher score. -/
def CXNodePaymentWinner.CanWin (P : VoteParams) (n : HashNode) (votes : List CXNodePaymentWinner)
    (w : CXNodePaymentWinner) : Prop :=
  w ∈ counted P n votes ∧ ∀ u ∈ counted P n votes, u.getHash P ≠ w.getHash P →
    ∃ v ∈ counted P n votes, v.getHash P = u.getHash P ∧
      (v.nBlockHeight = w.nBlockHeight → v.scoreAt P n ≤ w.scoreAt P n)

variable {votes : List CXNodePaymentWinner} {P : VoteParams}

theorem CXNodePaymentWinner.CanWin.contender {n : HashNode} {w : CXNodePaymentWinner} {H : ℤ}
    (h : w.CanWin P n votes) (hH : w.nBlockHeight = H) :
    Contender (getHash P) (fun w => w.nBlockHeight = H) (scoreAt P n) (counted P n votes) w := by
  subst hH
  exact ⟨h.1, rfl, h.2⟩

theorem CXNodePaymentWinner.CanWin.of_contender {n : HashNode}
    {w : CXNodePaymentWinner} {H : ℤ}
    (h : Contender (getHash P) (fun w => w.nBlockHeight = H) (scoreAt P n) (counted P n votes) w) :
    w.CanWin P n votes ∧ w.nBlockHeight = H := by
  obtain ⟨hmem, rfl, hrivals⟩ := h
  exact ⟨⟨hmem, hrivals⟩, rfl⟩

theorem getBlockPayee_of_sameView {n1 n2 : HashNode} (h : SameView n1 n2) {H : ℤ} :
    getBlockPayee (deliverVotes P n1 votes).vWinning H =
      getBlockPayee (deliverVotes P n2 votes).vWinning H := by
  have hcounted : counted P n1 votes = counted P n2 votes := by
    exact filter_congr fun w _ => decide_eq_decide.2 h.counts
  have hscore : CXNodePaymentWinner.scoreAt P n1 = CXNodePaymentWinner.scoreAt P n2 := by
    funext w
    exact h.scoreAt
  rw [getBlockPayee_deliverVotes, getBlockPayee_deliverVotes, h.answer, hcounted, hscore]

/-- **When payee votes converge.**  For every set of votes: two nodes that see the same chain name
the same payee and input for every height after any two orders of delivery, if and only if, for
every height whose lookup is answered, the votes that can come out name the same payee and input
and, if there is a vote for the height, some hash is that of votes for this height only. -/
theorem winners_converge_iff (P : VoteParams) (n1 n2 : HashNode) (hview : SameView n1 n2)
    (votes : List CXNodePaymentWinner) :
    (∀ order1 order2 : List CXNodePaymentWinner, order1.Perm votes → order2.Perm votes →
        ∀ H, getBlockPayee (deliverVotes P n1 order1).vWinning H =
          getBlockPayee (deliverVotes P n2 order2).vWinning H) ↔
      ∀ H, (n1.answer .xnode (H - 576)).isSome →
        (∀ v w : CXNodePaymentWinner, v.CanWin P n1 votes → w.CanWin P n1 votes →
          v.nBlockHeight = H → w.nBlockHeight = H → v.payee = w.payee ∧ v.vin = w.vin) ∧
        ((∃ v ∈ counted P n1 votes, v.nBlockHeight = H) →
          ∃ v ∈ counted P n1 votes, ∀ w ∈ counted P n1 votes, w.getHash P = v.getHash P →
            w.nBlockHeight = H) := by
  let out : CXNodePaymentWinner → CScript × CTxIn := fun w => (w.payee, w.vin)
  let best : ℤ → List CXNodePaymentWinner → Option CXNodePaymentWinner := fun H l =>
    kept (CXNodePaymentWinner.getHash P) (fun w => w.nBlockHeight = H)
      (CXNodePaymentWinner.scoreAt P n1) l
  have hpayee : ∀ order H, getBlockPayee (deliverVotes P n1 order).vWinning H =
      if (n1.answer .xnode (H - 576)).isSome then (best H (counted P n1 order)).map out else none :=
    fun _ _ => getBlockPayee_deliverVotes
  simp only [← getBlockPayee_of_sameView hview, hpayee]
  constructor
  · intro h H ha
    -- an order of the votes that count is part of an order of all votes
    have hagree : ∀ l1 l2 : List CXNodePaymentWinner, l1.Perm (counted P n1 votes) →
        l2.Perm (counted P n1 votes) → (best H l1).map out = (best H l2).map out := by
      intro l1 l2 hp1 hp2
      obtain ⟨order1, ho1, hf1⟩ := exists_perm_filter hp1
      obtain ⟨order2, ho2, hf2⟩ := exists_perm_filter hp2
      have hH := h order1 order2 ho1 ho2 H
      rw [if_pos ha, if_pos ha] at hH
      unfold counted at hH
      rwa [hf1, hf2] at hH
    obtain ⟨halike, hsure⟩ := (kept_agree_iff _ _ _ out _).1 hagree
    refine ⟨fun v w hv hw hvH hwH => ?_, hsure⟩
    have heq := halike v w (hv.contender hvH) (hw.contender hwH)
    exact ⟨congrArg Prod.fst heq, congrArg Prod.snd heq⟩
  · intro h order1 order2 ho1 ho2 H
    by_cases ha : (n1.answer .xnode (H - 576)).isSome
    · rw [if_pos ha, if_pos ha]
      obtain ⟨halike, hsure⟩ := h H ha
      refine (kept_agree_iff _ _ _ out (counted P n1 votes)).2 ⟨fun v w hv hw => ?_, hsure⟩ _ _
        (ho1.filter _) (ho2.filter _)
      obtain ⟨hvw, hvH⟩ := CXNodePaymentWinner.CanWin.of_contender hv
      obtain ⟨hww, hwH⟩ := CXNodePaymentWinner.CanWin.of_contender hw
      obtain ⟨hpay, hvin⟩ := halike v w hvw hww hvH hwH
      exact Prod.ext hpay hvin
    · rw [if_neg ha, if_neg ha]

/-! ### Two votes on one collateral -/

theorem getBlockPayee_first {n : HashNode} {v w : CXNodePaymentWinner}
    (hv : v.Counts P n) (hw : w.Counts P n) (hhash : w.getHash P = v.getHash P)
    (ha : (n.answer .xnode (v.nBlockHeight - 576)).isSome) :
    getBlockPayee (deliverVotes P n [v, w]).vWinning v.nBlockHeight = some (v.payee, v.vin) := by
  have hnovel : novel (CXNodePaymentWinner.getHash P) [v, w] = [v] := by
    simp [novel, hhash]
  rw [getBlockPayee_deliverVotes, if_pos ha]
  simp [counted, hv, hw, kept, hnovel]

/-- A node at height 2. -/
def voteNode : HashNode := after [.chain forkedIndex 12]

/-- The collateral of the votes. -/
def voteInput : CTxIn := ⟨⟨0xabcdef, 0⟩, [], uintMax⟩

/-- A vote for height 5. -/
def voteOn (payee : CScript) : CXNodePaymentWinner := ⟨5, voteInput, payee, [], 0⟩

theorem voteOn_counts {payee : CScript}
    (h : P.checkSignature (voteOn payee) = true) : (voteOn payee).Counts P voteNode := by
  refine ⟨12, rfl, ?_⟩
  have hheight : height voteNode.mapBlockIndex 12 = 2 := by decide
  rw [hheight, CXNodePaymentWinner.acceptable, h]
  simp [voteOn, voteInput]

theorem voteNode_answers : (voteNode.answer .xnode (5 - 576)).isSome := by decide

/-- A vote for the same height with another collateral. -/
def rivalVote : CXNodePaymentWinner := ⟨5, ⟨⟨0xabc, 0⟩, [], uintMax⟩, [2], [], 0⟩

/-- Votes of two collaterals, delivered in any order to a node that has looked up another height
before and to one that has not. -/
theorem winners_converge_two : SameView voteNode (voteNode.step (.lookup .xnode 2)) ∧
      ∀ order1 order2 : List CXNodePaymentWinner, order1.Perm [voteOn [1], rivalVote] →
      order2.Perm [voteOn [1], rivalVote] →
        ∀ H, getBlockPayee (deliverVotes ⟨BitVec.ofInt 256, id, fun _ => true⟩ voteNode
        order1).vWinning H = getBlockPayee (deliverVotes ⟨BitVec.ofInt 256, id, fun _ => true⟩
            (voteNode.step (.lookup .xnode 2)) order2).vWinning H := by
  have hview : SameView voteNode (voteNode.step (.lookup .xnode 2)) :=
    ⟨rfl, fun _ => answer_step_lookup.symm⟩
  have hall : counted ⟨BitVec.ofInt 256, id, fun _ => true⟩ voteNode [voteOn [1], rivalVote] =
      [voteOn [1], rivalVote] := by decide
  have hfirst : ∀ v, v.CanWin ⟨BitVec.ofInt 256, id, fun _ => true⟩ voteNode
      [voteOn [1], rivalVote] → v = voteOn [1] := by
    rintro v ⟨hv, hrivals⟩
    rw [hall] at hv hrivals
    rcases mem_pair.1 hv with rfl | rfl
    · rfl
    · -- the score of the other vote is higher
      exact absurd (hrivals (voteOn [1]) mem_cons_self) (by decide)
  refine ⟨hview, (winners_converge_iff _ _ _ hview [voteOn [1], rivalVote]).2 fun H _ => ⟨?_, ?_⟩⟩
  · intro v w hv hw _ _
    obtain rfl := hfirst v hv
    obtain rfl := hfirst w hw
    exact ⟨rfl, rfl⟩
  · rw [hall]
    rintro ⟨v, hv, rfl⟩
    refine ⟨v, hv, fun w hw _ => ?_⟩
    rcases mem_pair.1 hv with rfl | rfl <;> rcases mem_pair.1 hw with rfl | rfl <;> rfl

/-- Two signed votes for one height and one collateral name different payees: each node pays the
payee of the vote that it got first. -/
theorem winners_diverge_on_payee : [voteOn [1], voteOn [2]].Perm [voteOn [2], voteOn [1]] ∧
      ∀ P : VoteParams, P.checkSignature (voteOn [1]) = true →
      P.checkSignature (voteOn [2]) = true →
        getBlockPayee (deliverVotes P voteNode [voteOn [1], voteOn [2]]).vWinning 5 =
            some ([1], voteInput) ∧
          getBlockPayee (deliverVotes P voteNode [voteOn [2], voteOn [1]]).vWinning 5 =
            some ([2], voteInput) := by
  refine ⟨List.Perm.swap _ _ _, fun P h1 h2 => ⟨?_, ?_⟩⟩
  · exact getBlockPayee_first (voteOn_counts h1) (voteOn_counts h2) rfl voteNode_answers
  · exact getBlockPayee_first (voteOn_counts h2) (voteOn_counts h1) rfl voteNode_answers

end Espers
