import Espers.Core.Data
import Espers.Lib.KeepBest
import Mathlib.Order.ConditionallyCompleteLattice.Basic
import Mathlib.Data.Int.ConditionallyCompleteOrder

/-!
# Spork messages

A spork is a network setting.  A `spork` message replaces the stored message of its ID if its
signing time is later (`fork.cpp`, `ProcessSpork`); one that is as old as the stored message has
been "seen" and is dropped.  `CheckSignature` accepts every message.  `mapSporks`, which is only
written here, is left out.

* `deliver_lookup` : after any deliveries the stored message of an ID is the first one among those
  of the latest signing time.
* `sporks_converge_iff` : **two nodes agree on every spork, whatever the orders of delivery, exactly
  if for each ID the messages of the latest signing time carry one value.**
-/

namespace Espers

open KeepBest List

/-- A `spork` message. -/
structure CSporkMessage where
  vchSig : List UInt8
  nSporkID : ℤ
  nValue : ℤ
  nTimeSigned : ℤ
  deriving DecidableEq, Repr

/-- `mapSporksActive`: the message that is in force for an ID. -/
abbrev SporkMap := AList (fun _ : ℤ => CSporkMessage)

/-- `CSporkManager::CheckSignature`. -/
def CSporkMessage.checkSignature (_spork : CSporkMessage) : Bool := true

/-- The `spork` branch of `ProcessSpork`. -/
def processSpork (pindexBest : Option Uint256) (mapSporksActive : SporkMap)
    (spork : CSporkMessage) : SporkMap :=
  let fSeen := match mapSporksActive.lookup spork.nSporkID with
    | some active => decide (active.nTimeSigned ≥ spork.nTimeSigned)
    | none => false
  if pindexBest.isNone || fSeen || !spork.checkSignature then mapSporksActive
  else mapSporksActive.insert spork.nSporkID spork

/-- The map of a node with a best block, empty at first, after messages have been delivered. -/
def deliverSporks (best : Uint256) (messages : List CSporkMessage) : SporkMap :=
  messages.foldl (processSpork (some best)) ∅

/-- The value of a spork for which no message is stored, -1 if its ID is unknown. -/
def sporkDefault (nSporkID : ℤ) : ℤ :=
  if nSporkID = 10000 then 4070908800 else  -- SPORK_1_XNODE_PAYMENTS_ENFORCEMENT
  if nSporkID = 10005 then 0 else           -- SPORK_6_REPLAY_BLOCKS
  if nSporkID = 10006 then 10006 else       -- SPORK_7_XNODE_SCANNING, which has no default of its own
  if nSporkID = 10007 then 4070908800 else  -- SPORK_8_XNODE_PAYMENT_ENFORCEMENT
  if nSporkID = 10009 then 4070908800 else  -- SPORK_10_XNODE_PAY_UPDATED_NODES
  if nSporkID = 10011 then 0 else           -- SPORK_12_RECONSIDER_BLOCKS
  -1

/-- `GetSporkValue`. -/
def getSporkValue (mapSporksActive : SporkMap) (nSporkID : ℤ) : ℤ :=
  match mapSporksActive.lookup nSporkID with
  | some spork => spork.nValue
  | none => sporkDefault nSporkID

/-- `IsSporkActive`, with `now` for `GetTime()`. -/
def isSporkActive (mapSporksActive : SporkMap) (nSporkID : ℤ) (now : ℤ) : Bool :=
  let r := getSporkValue mapSporksActive nSporkID
  -- an unknown spork and a stored -1 are off until 2099
  let r := if r = -1 then 4070908800 else r
  r < now

variable {best : Uint256} {messages : List CSporkMessage} {id : ℤ}

variable {spork : CSporkMessage}

theorem deliverSporks_snoc : deliverSporks best (messages ++ [spork]) =
      processSpork (some best) (deliverSporks best messages) spork := by
  simp [deliverSporks]

/-- A message concerns its own ID only, and the later one stays. -/
theorem processSpork_lookup (mapSporksActive : SporkMap) (spork : CSporkMessage) :
    (processSpork (some best) mapSporksActive spork).lookup id = if spork.nSporkID = id then
        match mapSporksActive.lookup id with
        | some active => if active.nTimeSigned < spork.nTimeSigned then some spork else some active
        | none => some spork
      else mapSporksActive.lookup id := by
  unfold processSpork
  by_cases hid : spork.nSporkID = id
  · subst hid
    cases h : mapSporksActive.lookup spork.nSporkID with
    | none => simp [CSporkMessage.checkSignature]
    | some active =>
      by_cases hlt : active.nTimeSigned < spork.nTimeSigned
      · simp [CSporkMessage.checkSignature, not_le.2 hlt]
      · simp [not_lt.1 hlt, h]
  · have hne : id ≠ spork.nSporkID := fun h => hid h.symm
    rw [if_neg hid, apply_ite (AList.lookup id), AList.lookup_insert_ne hne, ite_self]

/-- **The stored message is the first of the latest signing time.** -/
theorem deliver_lookup (messages : List CSporkMessage) (id : ℤ) :
    (deliverSporks best messages).lookup id =
      (messages.filter (fun m => m.nSporkID = id)).argmax CSporkMessage.nTimeSigned := by
  induction messages using List.reverseRecOn with
  | nil => rfl
  | append_singleton messages spork ih =>
    rw [deliverSporks_snoc, processSpork_lookup, ih, filter_append]
    by_cases hid : spork.nSporkID = id
    · rw [if_pos hid, filter_cons_of_pos (by simpa using hid), filter_nil, argmax_concat]
      cases (messages.filter (fun m => m.nSporkID = id)).argmax CSporkMessage.nTimeSigned <;> rfl
    · rw [if_neg hid, filter_cons_of_neg (by simpa using hid), filter_nil, append_nil]

theorem getSporkValue_deliver : getSporkValue (deliverSporks best messages) id =
    (((messages.filter (fun m => m.nSporkID = id)).argmax CSporkMessage.nTimeSigned).map
      CSporkMessage.nValue).getD (sporkDefault id) := by
  unfold getSporkValue
  rw [deliver_lookup]
  cases (messages.filter (fun m => m.nSporkID = id)).argmax CSporkMessage.nTimeSigned <;> rfl

/-- A message of the latest signing time among those for its spork. -/
def CSporkMessage.Latest (messages : List CSporkMessage) (spork : CSporkMessage) : Prop :=
  spork ∈ messages ∧ ∀ m ∈ messages, m.nSporkID = spork.nSporkID → m.nTimeSigned ≤ spork.nTimeSigned

theorem CSporkMessage.Latest.highest (h : spork.Latest messages) : Highest CSporkMessage.nTimeSigned
      (messages.filter (fun m => m.nSporkID = spork.nSporkID)) spork := by
  refine ⟨by simp [h.1], fun m hm => ?_⟩
  rw [mem_filter, decide_eq_true_iff] at hm
  exact h.2 m hm.1 hm.2

theorem CSporkMessage.Latest.of_highest
    (h : Highest CSporkMessage.nTimeSigned (messages.filter (fun m => m.nSporkID = id)) spork) :
    spork.Latest messages ∧ spork.nSporkID = id := by
  obtain ⟨hmem, hmax⟩ := h
  rw [mem_filter, decide_eq_true_iff] at hmem
  obtain ⟨hmem, rfl⟩ := hmem
  exact ⟨⟨hmem, fun m hm hid => hmax m (by simp [hm, hid])⟩, rfl⟩

/-- **When spork messages converge.**  For every multiset of messages: two nodes with empty maps
agree on the value and the activity of every spork after any two orders of delivery, if and only if
the messages of the latest signing time for one spork all carry the same value. -/
theorem sporks_converge_iff (best1 best2 : Uint256)
    (messages : List CSporkMessage) :
    (∀ order1 order2 : List CSporkMessage, order1.Perm messages → order2.Perm messages →
        ∀ id now, getSporkValue (deliverSporks best1 order1) id =
            getSporkValue (deliverSporks best2 order2) id ∧
          isSporkActive (deliverSporks best1 order1) id now =
            isSporkActive (deliverSporks best2 order2) id now) ↔
      ∀ a b : CSporkMessage, a.Latest messages → b.Latest messages → a.nSporkID = b.nSporkID →
        a.nValue = b.nValue := by
  constructor
  · intro h a b ha hb hid
    have hb' := hb.highest
    rw [← hid] at hb'
    -- an order in which the message arrives before the others of its spork
    obtain ⟨l1, hp1, h1⟩ := ha.highest.exists_perm
    obtain ⟨l2, hp2, h2⟩ := hb'.exists_perm
    obtain ⟨order1, ho1, hf1⟩ := exists_perm_filter hp1
    obtain ⟨order2, ho2, hf2⟩ := exists_perm_filter hp2
    have hval := (h order1 order2 ho1 ho2 a.nSporkID 0).1
    rw [getSporkValue_deliver, getSporkValue_deliver, hf1, hf2, h1, h2] at hval
    exact hval
  · intro h order1 order2 ho1 ho2 id now
    have hval : getSporkValue (deliverSporks best1 order1) id =
        getSporkValue (deliverSporks best2 order2) id := by
      rw [getSporkValue_deliver, getSporkValue_deliver]
      refine congrArg (Option.getD · _) ?_
      refine (argmax_agree_iff _ _ (messages.filter (fun m => m.nSporkID = id))).2 ?_ _ _
        (ho1.filter _) (ho2.filter _)
      intro a b ha hb
      obtain ⟨ha, haid⟩ := CSporkMessage.Latest.of_highest ha
      obtain ⟨hb, hbid⟩ := CSporkMessage.Latest.of_highest hb
      exact h a b ha hb (haid.trans hbid.symm)
    refine ⟨hval, ?_⟩
    unfold isSporkActive
    rw [hval]

/-- Two messages of one signing time for `SPORK_7_XNODE_SCANNING` that carry different values. -/
theorem sporks_diverge_on_ties : isSporkActive (deliverSporks 1 [⟨[], 10006, 1, 1700000000⟩,
    ⟨[], 10006, 4070908800, 1700000000⟩])
        10006 1700000001 = true ∧
      isSporkActive (deliverSporks 1 [⟨[], 10006, 4070908800, 1700000000⟩,
        ⟨[], 10006, 1, 1700000000⟩]) 10006 1700000001 = false := by
  constructor
  · simp [isSporkActive, getSporkValue_deliver, argmax_cons]
  · simp [isSporkActive, getSporkValue_deliver, argmax_cons]

end Espers
