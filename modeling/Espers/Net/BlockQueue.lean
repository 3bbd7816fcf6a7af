import Espers.Core.Transaction
import Espers.Lib.CellList
import Espers.Lib.Store

/-!
# The block download queue

Each connected peer has a list of blocks to be asked from it and a list of blocks that have been
asked and not arrived; two global maps lead from a block hash to the peer and the list element that
hold it (`main.cpp`, `InitializeNode` to `MarkBlockAsInFlight`).  An iterator is the address of a
list cell, an address is never used again.  The `int` counters are integers: a list of `2^31`
elements does not fit into memory.  Reading the state of a peer that is gone, or erasing
through an iterator that is in no list, is a crash.

* `NetState.Inv` : the maps and the lists agree, no hash is in both maps, the counters are the
  lengths.
* `blockQueue_invariant` : **it holds after every run of the five operations**, and the `getdata`
  loop of `SendMessages` then returns and has asked each block once.
-/

namespace Espers

open Exec CellList List Function AList Nat Except Option

/-- The number of a peer. -/
abbrev NodeId := ℤ

/-- A block that has been asked from a peer. -/
structure QueuedBlock where
  hash : Uint256
  /-- Time of the request in microseconds. -/
  nTime : ℤ
  /-- Number of blocks in flight at the time of the request. -/
  nQueuedBefore : ℤ
  deriving DecidableEq, Repr

/-- What the validation code knows about a peer. -/
structure CNodeState where
  nMisbehavior : ℤ := 0
  fShouldBan : Bool := false
  name : String := ""
  vBlocksInFlight : List (Cell QueuedBlock) := []
  nBlocksInFlight : ℤ := 0
  vBlocksToDownload : List (Cell Uint256) := []
  nBlocksToDownload : ℤ := 0
  nLastBlockReceive : ℤ := 0
  deriving DecidableEq, Repr

/-- The counters of a peer are the lengths of its lists. -/
structure CNodeState.Counts (st : CNodeState) : Prop where
  toDownload : st.nBlocksToDownload = st.vBlocksToDownload.length
  inFlight : st.nBlocksInFlight = st.vBlocksInFlight.length

/-- The peers and the two maps. -/
structure NetState where
  mapNodeState : AList fun _ : NodeId => CNodeState
  mapBlocksInFlight : AList fun _ : Uint256 => NodeId × ℕ
  mapBlocksToDownload : AList fun _ : Uint256 => NodeId × ℕ
  /-- The address of the next list cell. -/
  nextCell : ℕ

namespace NetState

/-- Before the first peer. -/
def empty : NetState := ⟨∅, ∅, ∅, 0⟩

/-- `State(pnode)`. -/
def state (s : NetState) (pnode : NodeId) : Option CNodeState := s.mapNodeState.lookup pnode

/-- Assignments through the pointer to the state of a peer. -/
def setState (s : NetState) (pnode : NodeId) (st : CNodeState) : NetState :=
  { s with mapNodeState := s.mapNodeState.insert pnode st }

/-- A peer connects. -/
def initializeNode (s : NetState) (nodeid : NodeId) (addrName : String) : NetState :=
  -- `insert` leaves a state that is already there
  let st := (s.state nodeid).getD {}
  s.setState nodeid { st with name := addrName }

/-- A peer is gone. -/
def finalizeNode (s : NetState) (nodeid : NodeId) : Except Stop NetState :=
  match s.state nodeid with
  | none => .error (.crash "FinalizeNode() : no state")
  | some st => .ok
    { s with
      mapBlocksInFlight :=
        st.vBlocksInFlight.foldl (fun m entry => m.erase entry.val.hash) s.mapBlocksInFlight
      mapBlocksToDownload :=
        st.vBlocksToDownload.foldl (fun m hash => m.erase hash.val) s.mapBlocksToDownload
      mapNodeState := s.mapNodeState.erase nodeid }

/-- The first half of `MarkBlockAsReceived`. -/
def receiveQueued (s : NetState) (hash : Uint256) : Except Stop NetState :=
  match s.mapBlocksToDownload.lookup hash with
  | none => .ok s
  | some (node, it) =>
    match s.state node with
    | none => .error (.crash "MarkBlockAsReceived() : no state")
    | some st =>
      if st.vBlocksToDownload.any fun c => c.addr = it then
        let st := { st with
          vBlocksToDownload := eraseCell st.vBlocksToDownload it
          nBlocksToDownload := st.nBlocksToDownload - 1 }
        .ok { s.setState node st with mapBlocksToDownload := s.mapBlocksToDownload.erase hash }
      else .error (.crash "MarkBlockAsReceived() : bad iterator")

/-- The second half of `MarkBlockAsReceived`, at the time `now`. -/
def receiveInFlight (s : NetState) (hash : Uint256) (nodeFrom : NodeId) (now : ℤ) :
    Except Stop NetState :=
  match s.mapBlocksInFlight.lookup hash with
  | none => .ok s
  | some (node, it) =>
    match s.state node with
    | none => .error (.crash "MarkBlockAsReceived() : no state")
    | some st =>
      if st.vBlocksInFlight.any fun c => c.addr = it then
        let st := { st with
          vBlocksInFlight := eraseCell st.vBlocksInFlight it
          nBlocksInFlight := st.nBlocksInFlight - 1
          nLastBlockReceive := if node = nodeFrom then now else st.nLastBlockReceive }
        .ok { s.setState node st with mapBlocksInFlight := s.mapBlocksInFlight.erase hash }
      else .error (.crash "MarkBlockAsReceived() : bad iterator")

/-- A block has arrived, from the peer `nodeFrom`. -/
def markBlockAsReceived (s : NetState) (hash : Uint256) (nodeFrom : NodeId) (now : ℤ) :
    Except Stop NetState := do
  let s ← s.receiveQueued hash
  s.receiveInFlight hash nodeFrom now

/-- `Misbehaving`, with the value of `-banscore`. -/
def misbehaving (banscore : ℤ) (s : NetState) (pnode : NodeId) (howmuch : ℤ) : NetState :=
  if howmuch = 0 then s
  else match s.state pnode with
    | none => s
    | some st =>
      let nMisbehavior := st.nMisbehavior + howmuch
      s.setState pnode { st with
        nMisbehavior := nMisbehavior
        fShouldBan := if nMisbehavior ≥ banscore then true else st.fShouldBan }

/-- A peer has announced a block; the answer tells whether it is now queued there. -/
def addBlockToQueue (banscore : ℤ) (s : NetState) (nodeid : NodeId) (hash : Uint256) :
    Bool × NetState :=
  if (s.mapBlocksToDownload.lookup hash).isSome || (s.mapBlocksInFlight.lookup hash).isSome then
    (false, s)
  else match s.state nodeid with
    | none => (false, s)
    | some st =>
      let it := s.nextCell
      let st := { st with
        vBlocksToDownload := st.vBlocksToDownload ++ [⟨it, hash⟩]
        nBlocksToDownload := st.nBlocksToDownload + 1 }
      let s := { s.setState nodeid st with nextCell := it + 1 }
      let s := if st.nBlocksToDownload > 5000 then s.misbehaving banscore nodeid 10 else s
      (true, { s with mapBlocksToDownload := s.mapBlocksToDownload.insert hash (nodeid, it) })

/-- A block is asked from a peer; the clock is read in `MarkBlockAsReceived` and once more. -/
def markBlockAsInFlight (s : NetState) (nodeid : NodeId) (hash : Uint256) (nowReceived now : ℤ) :
    Except Stop NetState := do
  rejectIf (s.state nodeid = none) (.crash "MarkBlockAsInFlight() : assert(state != NULL)")
  -- Make sure it's not listed somewhere already.
  let s ← s.markBlockAsReceived hash (-1) nowReceived
  match s.state nodeid with
  | none => .error (.crash "MarkBlockAsInFlight() : no state")
  | some st =>
    let it := s.nextCell
    let newentry : QueuedBlock := ⟨hash, now, st.nBlocksInFlight⟩
    let st := { st with
      nLastBlockReceive := if st.nBlocksInFlight = 0 then newentry.nTime else st.nLastBlockReceive
      vBlocksInFlight := st.vBlocksInFlight ++ [⟨it, newentry⟩]
      nBlocksInFlight := st.nBlocksInFlight + 1 }
    .ok { s.setState nodeid st with
      nextCell := it + 1
      mapBlocksInFlight := s.mapBlocksInFlight.insert hash (nodeid, it) }

/-! ### The invariant -/

/-- The blocks to be asked from a peer; none when it is gone. -/
def toDownload (s : NetState) (n : NodeId) : List (Cell Uint256) :=
  ((s.state n).map CNodeState.vBlocksToDownload).getD []

/-- The blocks asked from a peer; none when it is gone. -/
def inFlight (s : NetState) (n : NodeId) : List (Cell QueuedBlock) :=
  ((s.state n).map CNodeState.vBlocksInFlight).getD []

variable {s : NetState} {n : NodeId} {st : CNodeState}

theorem toDownload_of_state (h : s.state n = some st) : s.toDownload n = st.vBlocksToDownload := by
  simp [toDownload, h]

theorem inFlight_of_state (h : s.state n = some st) : s.inFlight n = st.vBlocksInFlight := by
  simp [inFlight, h]

/-- The maps and the lists agree. -/
structure Inv (s : NetState) : Prop where
  linkedToDownload : Linked id s.mapBlocksToDownload s.toDownload
  linkedInFlight : Linked QueuedBlock.hash s.mapBlocksInFlight s.inFlight
  disjoint : ∀ hash, s.mapBlocksToDownload.lookup hash = none ∨
    s.mapBlocksInFlight.lookup hash = none
  counts : ∀ n st, s.state n = some st → st.Counts
  freshToDownload : ∀ n, ∀ c ∈ s.toDownload n, c.addr < s.nextCell
  freshInFlight : ∀ n, ∀ c ∈ s.inFlight n, c.addr < s.nextCell

theorem empty_inv : empty.Inv := by
  constructor
  · exact ⟨by simp [empty, toDownload, state], by simp [empty, toDownload, state]⟩
  · exact ⟨by simp [empty, inFlight, state], by simp [empty, inFlight, state]⟩
  · simp [empty]
  · simp [empty, state]
  · simp [empty, toDownload, state]
  · simp [empty, inFlight, state]

section Write

variable {s s' : NetState} {n : NodeId} {st st' : CNodeState}

section

variable (hs : s'.mapNodeState = s.mapNodeState.insert n st')
include hs

theorem state_write (n' : NodeId) : s'.state n' = if n' = n then some st' else s.state n' := by
  unfold state
  rw [hs]
  split_ifs with h
  · rw [h, lookup_insert]
  · rw [lookup_insert_ne h]

theorem toDownload_write : s'.toDownload = update s.toDownload n st'.vBlocksToDownload := by
  funext n'
  rw [update_apply, toDownload, state_write hs]
  split_ifs <;> rfl

theorem inFlight_write : s'.inFlight = update s.inFlight n st'.vBlocksInFlight := by
  funext n'
  rw [update_apply, inFlight, state_write hs]
  split_ifs <;> rfl

end

/-- What has to be shown when one peer and the maps are written. -/
theorem Inv.write (hi : s.Inv) (hs : s'.mapNodeState = s.mapNodeState.insert n st')
    (hq : Linked id s'.mapBlocksToDownload (update s.toDownload n st'.vBlocksToDownload))
    (hf : Linked QueuedBlock.hash s'.mapBlocksInFlight (update s.inFlight n st'.vBlocksInFlight))
    (hd : ∀ hash, s'.mapBlocksToDownload.lookup hash = none ∨
      s'.mapBlocksInFlight.lookup hash = none)
    (hc : st'.Counts) (hle : s.nextCell ≤ s'.nextCell)
    (hfq : ∀ c ∈ st'.vBlocksToDownload, c.addr < s'.nextCell)
    (hff : ∀ c ∈ st'.vBlocksInFlight, c.addr < s'.nextCell) : s'.Inv := by
  refine ⟨toDownload_write hs ▸ hq, inFlight_write hs ▸ hf, hd, ?_, ?_, ?_⟩
  · intro n' st'' h
    rw [state_write hs] at h
    split_ifs at h with hn
    · cases h
      exact hc
    · exact hi.counts n' st'' h
  · intro n' c h
    rw [toDownload_write hs, update_apply] at h
    split_ifs at h with hn
    · exact hfq c h
    · exact (hi.freshToDownload n' c h).trans_le hle
  · intro n' c h
    rw [inFlight_write hs, update_apply] at h
    split_ifs at h with hn
    · exact hff c h
    · exact (hi.freshInFlight n' c h).trans_le hle

theorem update_toDownload {l : List (Cell Uint256)} (h : s.toDownload n = l) :
    update s.toDownload n l = s.toDownload := by
  rw [← h, update_eq_self]

theorem update_inFlight {l : List (Cell QueuedBlock)} (h : s.inFlight n = l) :
    update s.inFlight n l = s.inFlight := by
  rw [← h, update_eq_self]

/-- The queue of a peer is written, what is in flight is not. -/
theorem Inv.writeToDownload (hi : s.Inv) (hst : s.state n = some st)
    (hs : s'.mapNodeState = s.mapNodeState.insert n st')
    (hvf : st'.vBlocksInFlight = st.vBlocksInFlight)
    (hnf : st'.nBlocksInFlight = st.nBlocksInFlight)
    (hmf : s'.mapBlocksInFlight = s.mapBlocksInFlight)
    (hq : Linked id s'.mapBlocksToDownload (update s.toDownload n st'.vBlocksToDownload))
    (hd : ∀ hash, s'.mapBlocksToDownload.lookup hash = none ∨
      s.mapBlocksInFlight.lookup hash = none)
    (hc : st'.nBlocksToDownload = st'.vBlocksToDownload.length) (hle : s.nextCell ≤ s'.nextCell)
    (hfq : ∀ c ∈ st'.vBlocksToDownload, c.addr < s'.nextCell) : s'.Inv := by
  have hsame : s.inFlight n = st'.vBlocksInFlight := (inFlight_of_state hst).trans hvf.symm
  refine hi.write hs hq ?_ (hmf ▸ hd) ⟨hc, ?_⟩ hle hfq ?_
  · rw [hmf, update_inFlight hsame]
    exact hi.linkedInFlight
  · rw [hnf, hvf, (hi.counts _ _ hst).inFlight]
  · intro c h
    exact (hi.freshInFlight n c (hsame ▸ h)).trans_le hle

/-- What is in flight from a peer is written, its queue is not. -/
theorem Inv.writeInFlight (hi : s.Inv) (hst : s.state n = some st)
    (hs : s'.mapNodeState = s.mapNodeState.insert n st')
    (hvq : st'.vBlocksToDownload = st.vBlocksToDownload)
    (hnq : st'.nBlocksToDownload = st.nBlocksToDownload)
    (hmq : s'.mapBlocksToDownload = s.mapBlocksToDownload)
    (hf : Linked QueuedBlock.hash s'.mapBlocksInFlight (update s.inFlight n st'.vBlocksInFlight))
    (hd : ∀ hash, s.mapBlocksToDownload.lookup hash = none ∨
      s'.mapBlocksInFlight.lookup hash = none)
    (hc : st'.nBlocksInFlight = st'.vBlocksInFlight.length) (hle : s.nextCell ≤ s'.nextCell)
    (hff : ∀ c ∈ st'.vBlocksInFlight, c.addr < s'.nextCell) : s'.Inv := by
  have hsame : s.toDownload n = st'.vBlocksToDownload := (toDownload_of_state hst).trans hvq.symm
  refine hi.write hs ?_ hf (hmq ▸ hd) ⟨?_, hc⟩ hle ?_ hff
  · rw [hmq, update_toDownload hsame]
    exact hi.linkedToDownload
  · rw [hnq, hvq, (hi.counts _ _ hst).toDownload]
  · intro c h
    exact (hi.freshToDownload n c (hsame ▸ h)).trans_le hle

theorem Inv.touch (hi : s.Inv) (hs : s' = s.setState n st')
    (hq : s.toDownload n = st'.vBlocksToDownload) (hf : s.inFlight n = st'.vBlocksInFlight)
    (hc : st'.Counts) : s'.Inv := by
  subst hs
  refine hi.write rfl ?_ ?_ hi.disjoint hc le_rfl ?_ ?_
  · rw [update_toDownload hq]
    exact hi.linkedToDownload
  · rw [update_inFlight hf]
    exact hi.linkedInFlight
  · rw [← hq]
    exact hi.freshToDownload n
  · rw [← hf]
    exact hi.freshInFlight n

end Write

/-! ### The operations keep the invariant -/

theorem initializeNode_inv (hi : s.Inv) (nodeid : NodeId) (addrName : String) :
    (s.initializeNode nodeid addrName).Inv := by
  cases hst : s.state nodeid with
  | none =>
    refine hi.touch rfl ?_ ?_ ?_
    · simp [toDownload, hst]
    · simp [inFlight, hst]
    · rw [hst]
      exact ⟨rfl, rfl⟩
  | some st =>
    refine hi.touch rfl ?_ ?_ ?_
    · simp [toDownload, hst]
    · simp [inFlight, hst]
    · rw [hst]
      exact ⟨(hi.counts _ _ hst).toDownload, (hi.counts _ _ hst).inFlight⟩

theorem finalizeNode_inv {s s' : NetState} (hi : s.Inv) {nodeid : NodeId}
    (h : s.finalizeNode nodeid = .ok s') : s'.Inv := by
  unfold finalizeNode at h
  cases hst : s.state nodeid with
  | none => simp [hst] at h
  | some st =>
    simp only [hst, ok.injEq] at h
    have hstate : ∀ n, s'.state n = if n = nodeid then none else s.state n := by
      intro n
      subst h
      unfold state
      split_ifs with hn
      · rw [hn, lookup_erase]
      · rw [lookup_erase_ne hn]
    have hq : s'.toDownload = update s.toDownload nodeid [] := by
      funext n
      rw [update_apply, toDownload, hstate]
      split_ifs <;> rfl
    have hf : s'.inFlight = update s.inFlight nodeid [] := by
      funext n
      rw [update_apply, inFlight, hstate]
      split_ifs <;> rfl
    refine ⟨?_, ?_, ?_, ?_, ?_, ?_⟩
    · rw [hq, ← h]
      have := hi.linkedToDownload.dropOwner nodeid
      rwa [toDownload_of_state hst] at this
    · rw [hf, ← h]
      have := hi.linkedInFlight.dropOwner nodeid
      rwa [inFlight_of_state hst] at this
    · intro hash
      -- an entry that is left was there before
      rw [← h]
      exact (hi.disjoint hash).imp (Linked.lookup_foldl_erase_none id st.vBlocksToDownload)
        (Linked.lookup_foldl_erase_none QueuedBlock.hash st.vBlocksInFlight)
    · intro n st' hn
      rw [hstate] at hn
      split_ifs at hn
      exact hi.counts n st' hn
    · intro n c hc
      rw [hq, update_apply] at hc
      split_ifs at hc
      · cases hc
      · rw [← h]
        exact hi.freshToDownload n c hc
    · intro n c hc
      rw [hf, update_apply] at hc
      split_ifs at hc
      · cases hc
      · rw [← h]
        exact hi.freshInFlight n c hc

/-- What either half of `MarkBlockAsReceived` keeps. -/
structure Received (s s' : NetState) : Prop where
  inv : s'.Inv
  node : ∀ n, (s'.state n).isSome = (s.state n).isSome

variable {hash : Uint256}

theorem receiveQueued_of_entry (hi : s.Inv) {node : NodeId} {it : ℕ}
    (hl : s.mapBlocksToDownload.lookup hash = some (node, it)) :
    ∃ st c, s.state node = some st ∧ c ∈ st.vBlocksToDownload ∧ c.addr = it ∧ c.val = hash ∧
      s.receiveQueued hash = .ok { s.setState node { st with
          vBlocksToDownload := eraseCell st.vBlocksToDownload it
          nBlocksToDownload := st.nBlocksToDownload - 1 } with
        mapBlocksToDownload := s.mapBlocksToDownload.erase hash } := by
  obtain ⟨c, hc, ha, hv⟩ := (hi.linkedToDownload.entry _ _ _).1 hl
  -- the peer of an entry is there, since its list is not empty
  cases hst : s.state node with
  | none => simp [toDownload, hst] at hc
  | some st =>
    rw [toDownload_of_state hst] at hc
    have hany : (st.vBlocksToDownload.any fun c => decide (c.addr = it)) = true := by
      simpa using ⟨c, hc, ha⟩
    refine ⟨st, c, rfl, hc, ha, hv, ?_⟩
    simp only [receiveQueued, hl, hst, hany, if_true]

theorem receiveInFlight_of_entry (hi : s.Inv) {node : NodeId}
    {it : ℕ} (hl : s.mapBlocksInFlight.lookup hash = some (node, it))
    (nodeFrom : NodeId) (now : ℤ) : ∃ st c, s.state node = some st ∧ c ∈ st.vBlocksInFlight ∧
    c.addr = it ∧ c.val.hash = hash ∧
      s.receiveInFlight hash nodeFrom now = .ok { s.setState node { st with
          vBlocksInFlight := eraseCell st.vBlocksInFlight it
          nBlocksInFlight := st.nBlocksInFlight - 1
          nLastBlockReceive := if node = nodeFrom then now else st.nLastBlockReceive } with
        mapBlocksInFlight := s.mapBlocksInFlight.erase hash } := by
  obtain ⟨c, hc, ha, hv⟩ := (hi.linkedInFlight.entry _ _ _).1 hl
  cases hst : s.state node with
  | none => simp [inFlight, hst] at hc
  | some st =>
    rw [inFlight_of_state hst] at hc
    have hany : (st.vBlocksInFlight.any fun c => decide (c.addr = it)) = true := by
      simpa using ⟨c, hc, ha⟩
    refine ⟨st, c, rfl, hc, ha, hv, ?_⟩
    simp only [receiveInFlight, hl, hst, hany, if_true]

theorem state_isSome_write {s s' : NetState} {st st' : CNodeState}
    (hs : s'.mapNodeState = s.mapNodeState.insert n st') (hst : s.state n = some st) (n' : NodeId) :
    (s'.state n').isSome = (s.state n').isSome := by
  rw [state_write hs]
  split_ifs with h
  · rw [h, hst]
    rfl
  · rfl

theorem receiveQueued_spec (hi : s.Inv) (hash : Uint256) :
    ∃ s', s.receiveQueued hash = .ok s' ∧ Received s s' ∧
      s'.mapBlocksToDownload.lookup hash = none ∧ s'.mapBlocksInFlight = s.mapBlocksInFlight := by
  cases hl : s.mapBlocksToDownload.lookup hash with
  | none => exact ⟨s, by simp only [receiveQueued, hl], ⟨hi, fun _ => rfl⟩, hl, rfl⟩
  | some e =>
    obtain ⟨node, it⟩ := e
    obtain ⟨st, c, hst, hc, ha, hv, hr⟩ := receiveQueued_of_entry hi hl
    refine ⟨_, hr, ⟨?_, state_isSome_write rfl hst⟩, lookup_erase hash _, rfl⟩
    have hcount := (hi.counts _ _ hst).toDownload
    have hlen := length_eraseCell hc
    have hq := hi.linkedToDownload.erase hl
    rw [toDownload_of_state hst] at hq
    refine hi.writeToDownload hst rfl rfl rfl rfl hq ?_ ?_ le_rfl ?_
    · exact fun hash' => (hi.disjoint hash').imp_left (Store.lookup_erase_none · hash)
    · subst ha
      simp only
      omega
    · intro d hd
      exact hi.freshToDownload node d (toDownload_of_state hst ▸ mem_of_mem_eraseP hd)

theorem receiveInFlight_spec (hi : s.Inv) (hash : Uint256) (nodeFrom : NodeId) (now : ℤ) :
    ∃ s', s.receiveInFlight hash nodeFrom now = .ok s' ∧ Received s s' ∧
      s'.mapBlocksInFlight.lookup hash = none ∧ s'.mapBlocksToDownload = s.mapBlocksToDownload := by
  cases hl : s.mapBlocksInFlight.lookup hash with
  | none => exact ⟨s, by simp only [receiveInFlight, hl], ⟨hi, fun _ => rfl⟩, hl, rfl⟩
  | some e =>
    obtain ⟨node, it⟩ := e
    obtain ⟨st, c, hst, hc, ha, hv, hr⟩ := receiveInFlight_of_entry hi hl nodeFrom now
    refine ⟨_, hr, ⟨?_, state_isSome_write rfl hst⟩, lookup_erase hash _, rfl⟩
    have hcount := (hi.counts _ _ hst).inFlight
    have hlen := length_eraseCell hc
    have hf := hi.linkedInFlight.erase hl
    rw [inFlight_of_state hst] at hf
    refine hi.writeInFlight hst rfl rfl rfl rfl hf ?_ ?_ le_rfl ?_
    · exact fun hash' => (hi.disjoint hash').imp_right (Store.lookup_erase_none · hash)
    · subst ha
      simp only
      omega
    · intro d hd
      exact hi.freshInFlight node d (inFlight_of_state hst ▸ mem_of_mem_eraseP hd)

/-- **A received block is nowhere in the queues.** -/
theorem markBlockAsReceived_spec (hi : s.Inv) (hash : Uint256) (nodeFrom : NodeId) (now : ℤ) :
    ∃ s', s.markBlockAsReceived hash nodeFrom now = .ok s' ∧ Received s s' ∧
      s'.mapBlocksToDownload.lookup hash = none ∧ s'.mapBlocksInFlight.lookup hash = none := by
  obtain ⟨s1, h1, hr1, hq1, -⟩ := receiveQueued_spec hi hash
  obtain ⟨s2, h2, hr2, hf2, hq2⟩ := receiveInFlight_spec hr1.inv hash nodeFrom now
  refine ⟨s2, ?_, ⟨hr2.inv, fun n => (hr2.node n).trans (hr1.node n)⟩, ?_, hf2⟩
  · rw [markBlockAsReceived, h1]
    exact h2
  · rw [hq2]
    exact hq1

/-- The peer and the maps after a block has been queued: its score is written beside its lists. -/
theorem addBlockToQueue_eq (banscore : ℤ) (hq : s.mapBlocksToDownload.lookup hash = none)
    (hf : s.mapBlocksInFlight.lookup hash = none) (hst : s.state n = some st) :
    ∃ st' s', s.addBlockToQueue banscore n hash = (true, s') ∧
      s'.mapNodeState = s.mapNodeState.insert n st' ∧
      s'.mapBlocksToDownload = s.mapBlocksToDownload.insert hash (n, s.nextCell) ∧
      s'.mapBlocksInFlight = s.mapBlocksInFlight ∧ s'.nextCell = s.nextCell + 1 ∧
      st'.vBlocksToDownload = st.vBlocksToDownload ++ [⟨s.nextCell, hash⟩] ∧
      st'.nBlocksToDownload = st.nBlocksToDownload + 1 ∧
      st'.vBlocksInFlight = st.vBlocksInFlight ∧ st'.nBlocksInFlight = st.nBlocksInFlight := by
  simp only [addBlockToQueue, hq, hf, hst]
  by_cases hmany : st.nBlocksToDownload + 1 > 5000
  · -- `Misbehaving` writes the same peer once more
    have hst' : ∀ st' : CNodeState, ({ s.setState n st' with nextCell := s.nextCell + 1 } :
        NetState).state n = some st' := fun st' => lookup_insert _
    rw [if_pos hmany, misbehaving, if_neg (by decide), hst']
    exact ⟨_, _, rfl, insert_insert _, rfl, rfl, rfl, rfl, rfl, rfl, rfl⟩
  · rw [if_neg hmany]
    exact ⟨_, _, rfl, rfl, rfl, rfl, rfl, rfl, rfl, rfl, rfl⟩

theorem addBlockToQueue_inv (hi : s.Inv) (banscore : ℤ) (n : NodeId)
    (hash : Uint256) : (s.addBlockToQueue banscore n hash).2.Inv := by
  by_cases hknown : (s.mapBlocksToDownload.lookup hash).isSome ||
      (s.mapBlocksInFlight.lookup hash).isSome
  · simpa only [addBlockToQueue, hknown, if_true] using hi
  cases hst : s.state n with
  | none =>
    simp only [addBlockToQueue, hknown, hst]
    exact hi
  | some st =>
    obtain ⟨hq, hf⟩ : s.mapBlocksToDownload.lookup hash = none ∧
        s.mapBlocksInFlight.lookup hash = none := by simpa using hknown
    obtain ⟨st', s', h, hs, hmq, hmf, hnext, hvq, hnq, hvf, hnf⟩ :=
      addBlockToQueue_eq banscore hq hf hst
    rw [h]
    change s'.Inv
    have hfresh := hi.freshToDownload n
    have hlink := hi.linkedToDownload.append (o := n) (a := s.nextCell) (v := hash) hq
      fun c hc => (hfresh c hc).ne
    rw [toDownload_of_state hst] at hlink hfresh
    refine hi.writeToDownload hst hs hvf hnf hmf ?_ ?_ ?_ (by omega) ?_
    · rw [hmq, hvq]
      exact hlink
    · intro hash'
      rw [hmq]
      by_cases heq : hash' = hash
      · subst heq
        exact .inr hf
      · rw [lookup_insert_ne heq]
        exact hi.disjoint hash'
    · rw [hnq, hvq, (hi.counts _ _ hst).toDownload]
      simp
    · intro c hc
      rw [hvq, mem_append, mem_singleton] at hc
      rw [hnext]
      rcases hc with hc | rfl
      · exact (hfresh c hc).trans (lt_succ_self _)
      · exact lt_succ_self _

/-- The peer and the maps after a block has been asked. -/
theorem markBlockAsInFlight_eq {s s1 : NetState}
    {nowReceived : ℤ} {st1 : CNodeState} (now : ℤ) (hst : (s.state n).isSome)
    (h1 : s.markBlockAsReceived hash (-1) nowReceived = .ok s1) (hst1 : s1.state n = some st1) :
    ∃ st' s', s.markBlockAsInFlight n hash nowReceived now = .ok s' ∧
      s'.mapNodeState = s1.mapNodeState.insert n st' ∧
      s'.mapBlocksToDownload = s1.mapBlocksToDownload ∧
      s'.mapBlocksInFlight = s1.mapBlocksInFlight.insert hash (n, s1.nextCell) ∧
      s'.nextCell = s1.nextCell + 1 ∧
      st'.vBlocksToDownload = st1.vBlocksToDownload ∧
      st'.nBlocksToDownload = st1.nBlocksToDownload ∧
      st'.vBlocksInFlight =
        st1.vBlocksInFlight ++ [⟨s1.nextCell, ⟨hash, now, st1.nBlocksInFlight⟩⟩] ∧
      st'.nBlocksInFlight = st1.nBlocksInFlight + 1 := by
  have hne : ¬ s.state n = none := by
    intro h
    simp [h] at hst
  simp only [markBlockAsInFlight, rejectIf_of_not hne, except_ok_bind, h1, hst1]
  exact ⟨_, _, rfl, rfl, rfl, rfl, rfl, rfl, rfl, rfl, rfl⟩

/-- **A block is asked from a peer that is there.** -/
theorem markBlockAsInFlight_spec (hi : s.Inv) (hst : (s.state n).isSome)
    (hash : Uint256) (nowReceived now : ℤ) :
    ∃ s', s.markBlockAsInFlight n hash nowReceived now = .ok s' ∧ s'.Inv := by
  obtain ⟨s1, h1, hr, hq1, hf1⟩ := markBlockAsReceived_spec hi hash (-1) nowReceived
  obtain ⟨st1, hst1⟩ := isSome_iff_exists.1 ((hr.node n).trans hst)
  obtain ⟨st', s', h, hs, hmq, hmf, hnext, hvq, hnq, hvf, hnf⟩ :=
    markBlockAsInFlight_eq now hst h1 hst1
  refine ⟨s', h, ?_⟩
  have hfresh := hr.inv.freshInFlight n
  have hlink := hr.inv.linkedInFlight.append (o := n) (a := s1.nextCell)
    (v := ⟨hash, now, st1.nBlocksInFlight⟩) hf1 fun c hc => (hfresh c hc).ne
  rw [inFlight_of_state hst1] at hlink hfresh
  refine hr.inv.writeInFlight hst1 hs hvq hnq hmq ?_ ?_ ?_ (by omega) ?_
  · rw [hmf, hvf]
    exact hlink
  · intro hash'
    rw [hmf]
    by_cases heq : hash' = hash
    · subst heq
      exact .inl hq1
    · rw [lookup_insert_ne heq]
      exact hr.inv.disjoint hash'
  · rw [hnf, hvf, (hr.inv.counts _ _ hst1).inFlight]
    simp
  · intro c hc
    rw [hvf, mem_append, mem_singleton] at hc
    rw [hnext]
    rcases hc with hc | rfl
    · exact (hfresh c hc).trans (lt_succ_self _)
    · exact lt_succ_self _

end NetState

/-! ### The `getdata` loop -/

/-- `MAX_BLOCKS_IN_TRANSIT_PER_PEER`. -/
def maxBlocksInTransitPerPeer : ℤ := 128

/-- What a turn of the loop reads from outside: whether the peer is being disconnected, and the
clock. -/
structure Tick where
  fDisconnect : Bool
  nowReceived : ℤ
  now : ℤ

/-- The loop's state: the requests gathered and the messages pushed so far. -/
structure GetData where
  net : NetState
  vGetData : List Uint256
  pushed : List (List Uint256)

/-- Everything asked so far, in order. -/
def GetData.requested (r : GetData) : List Uint256 := r.pushed.flatten ++ r.vGetData

/-- One more request; a full message is pushed. -/
def GetData.request (r : GetData) (net : NetState) (hash : Uint256) : GetData :=
  let vGetData := r.vGetData ++ [hash]
  if vGetData.length ≥ 1000 then ⟨net, [], r.pushed ++ [vGetData]⟩ else ⟨net, vGetData, r.pushed⟩

@[simp] theorem GetData.request_net (r : GetData) (net : NetState) (hash : Uint256) :
    (r.request net hash).net = net := by
  simp only [request]
  split_ifs <;> rfl

@[simp] theorem GetData.request_requested (r : GetData) (net : NetState) (hash : Uint256) :
    (r.request net hash).requested = r.requested ++ [hash] := by
  simp only [request, requested]
  split_ifs <;> simp

/-- The loop of `SendMessages` that asks the peer `nodeid` for queued blocks, from its turn `i`
on. -/
def getDataLoop (nodeid : NodeId) (tick : ℕ → Tick) : ℕ → ℕ → GetData → Except Stop GetData
  | 0, _, _ => .error (.crash "SendMessages() : the loop does not end")
  | fuel + 1, i, r =>
    match r.net.state nodeid with
    | none => .error (.crash "SendMessages() : no state")
    | some st =>
      if (tick i).fDisconnect = false ∧ st.nBlocksToDownload ≠ 0 ∧
          st.nBlocksInFlight < maxBlocksInTransitPerPeer then
        match st.vBlocksToDownload with
        | [] => .error (.crash "SendMessages() : front() of an empty list")
        | hash :: _ => do
          let net ← r.net.markBlockAsInFlight nodeid hash.val (tick i).nowReceived (tick i).now
          getDataLoop nodeid tick fuel (i + 1) (r.request net hash.val)
      else .ok r

/-- The loop in a state; a turn more than there are queued blocks is enough. -/
def NetState.getData (s : NetState) (nodeid : NodeId) (tick : ℕ → Tick) : Except Stop GetData :=
  getDataLoop nodeid tick ((s.toDownload nodeid).length + 1) 0 ⟨s, [], []⟩

namespace NetState

/-- Asking for the first queued block moves it to the end of those in flight. -/
theorem markBlockAsInFlight_front {s : NetState} (hi : s.Inv) {n : NodeId} {st : CNodeState}
    (hst : s.state n = some st) {c : Cell Uint256} {rest : List (Cell Uint256)}
    (hq : st.vBlocksToDownload = c :: rest) (nowReceived now : ℤ) :
    ∃ s' st', s.markBlockAsInFlight n c.val nowReceived now = .ok s' ∧ s'.Inv ∧
      s'.state n = some st' ∧ st'.vBlocksToDownload = rest ∧
      st'.vBlocksInFlight.map (·.val.hash) = st.vBlocksInFlight.map (·.val.hash) ++ [c.val] := by
  have hc : c ∈ s.toDownload n := by
    rw [toDownload_of_state hst, hq]
    exact mem_cons_self
  have hl : s.mapBlocksToDownload.lookup c.val = some (n, c.addr) := hi.linkedToDownload.lookup hc
  have hnf : s.mapBlocksInFlight.lookup c.val = none := by
    rcases hi.disjoint c.val with h | h
    · rw [h] at hl
      cases hl
    · exact h
  -- `MarkBlockAsReceived` erases the front of the list and finds nothing in flight
  obtain ⟨st0, -, hst0, -, -, -, hr⟩ := receiveQueued_of_entry hi hl
  obtain rfl : st = st0 := some.inj (hst.symm.trans hst0)
  have hrest : eraseCell st.vBlocksToDownload c.addr = rest := by
    rw [hq, eraseCell, eraseP_cons_of_pos (by simp)]
  have hreceived : ∃ s1, s.markBlockAsReceived c.val (-1) nowReceived = .ok s1 ∧
      ∃ st1, s1.state n = some st1 ∧ st1.vBlocksToDownload = rest ∧
        st1.vBlocksInFlight = st.vBlocksInFlight := by
    rw [markBlockAsReceived, hr, except_ok_bind, receiveInFlight]
    simp only [setState, hnf]
    exact ⟨_, rfl, _, lookup_insert _, hrest, rfl⟩
  obtain ⟨s1, h1, st1, hst1, hq1, hf1⟩ := hreceived
  have hsome : (s.state n).isSome := by
    rw [hst]
    rfl
  obtain ⟨st', s', h, hs, -, -, -, hvq, -, hvf, -⟩ := markBlockAsInFlight_eq now hsome h1 hst1
  obtain ⟨s'', h', hi'⟩ := markBlockAsInFlight_spec hi hsome c.val nowReceived now
  obtain rfl : s' = s'' := ok.inj (h.symm.trans h')
  refine ⟨s', st', h, hi', ?_, hvq.trans hq1, ?_⟩
  · rw [state_write hs, if_pos rfl]
  · rw [hvf, hf1]
    simp

end NetState

theorem getDataLoop_spec {n : NodeId} (tick : ℕ → Tick) (fuel i : ℕ) (r : GetData) {st : CNodeState}
    (hi : r.net.Inv) (hst : r.net.state n = some st) (hfuel : st.vBlocksToDownload.length < fuel) :
    ∃ r' k st', getDataLoop n tick fuel i r = .ok r' ∧ r'.net.Inv ∧ r'.net.state n = some st' ∧
      r'.requested = r.requested ++ (st.vBlocksToDownload.map Cell.val).take k ∧
      st'.vBlocksToDownload = st.vBlocksToDownload.drop k ∧
      st'.vBlocksInFlight.map (·.val.hash) =
        st.vBlocksInFlight.map (·.val.hash) ++ (st.vBlocksToDownload.map Cell.val).take k ∧
      k ≤ min st.vBlocksToDownload.length (128 - st.vBlocksInFlight.length) ∧
      ((∀ j, (tick j).fDisconnect = false) →
        k = min st.vBlocksToDownload.length (128 - st.vBlocksInFlight.length)) := by
  induction fuel generalizing i r st with
  | zero => exact absurd hfuel (not_lt_zero _)
  | succ fuel ih =>
    have hcount := hi.counts _ _ hst
    by_cases hgo : (tick i).fDisconnect = false ∧ st.nBlocksToDownload ≠ 0 ∧
        st.nBlocksInFlight < maxBlocksInTransitPerPeer
    · cases hq : st.vBlocksToDownload with
      | nil =>
        have := hcount.toDownload
        rw [hq] at this
        exact absurd this hgo.2.1
      | cons c rest =>
        obtain ⟨s', st1, h1, hi1, hst1, hq1, hf1⟩ := NetState.markBlockAsInFlight_front hi hst hq
          (tick i).nowReceived (tick i).now
        have hlen : st1.vBlocksToDownload.length < fuel := by
          rw [hq1]
          rw [hq, length_cons] at hfuel
          omega
        obtain ⟨r', k, st', h2, hi', hst', hreq, hdrop, hfl, hle, hk⟩ :=
          ih (i + 1) (r.request s' c.val) (by simpa using hi1) (by simpa using hst1) hlen
        -- one block more is in flight
        have hflight : st1.vBlocksInFlight.length = st.vBlocksInFlight.length + 1 := by
          have := congrArg List.length hf1
          simpa using this
        have hroom := hgo.2.2
        rw [hcount.inFlight, maxBlocksInTransitPerPeer] at hroom
        rw [hq1] at hreq hdrop hfl hle hk
        refine ⟨r', k + 1, st', ?_, hi', hst', ?_, ?_, ?_, ?_, ?_⟩
        · simp only [getDataLoop, hst, if_pos hgo, hq, h1]
          exact h2
        · rw [hreq]
          simp
        · rw [hdrop]
          simp
        · rw [hfl, hf1]
          simp
        · rw [length_cons]
          omega
        · intro hopen
          have := hk hopen
          rw [length_cons]
          omega
    · refine ⟨r, 0, st, ?_, hi, hst, by simp, by simp, by simp, zero_le _, ?_⟩
      · simp only [getDataLoop, hst, if_neg hgo]
      · intro hopen
        have h1 := hcount.toDownload
        have h2 := hcount.inFlight
        simp only [hopen, true_and, not_and, maxBlocksInTransitPerPeer] at hgo
        by_cases hzero : st.nBlocksToDownload = 0
        · omega
        · have := hgo hzero
          omega

/-! ### Runs -/

/-- A call of one of the five operations. -/
inductive NetOp where
  | initializeNode (nodeid : NodeId) (addrName : String)
  | finalizeNode (nodeid : NodeId)
  | addBlockToQueue (nodeid : NodeId) (hash : Uint256)
  | markBlockAsReceived (hash : Uint256) (nodeFrom : NodeId) (now : ℤ)
  | markBlockAsInFlight (nodeid : NodeId) (hash : Uint256) (nowReceived now : ℤ)
  deriving DecidableEq

namespace NetOp

/-- The state after a call. -/
def exec (banscore : ℤ) (s : NetState) : NetOp → Except Stop NetState
  | .initializeNode nodeid addrName => .ok (s.initializeNode nodeid addrName)
  | .finalizeNode nodeid => s.finalizeNode nodeid
  | .addBlockToQueue nodeid hash => .ok (s.addBlockToQueue banscore nodeid hash).2
  | .markBlockAsReceived hash nodeFrom now => s.markBlockAsReceived hash nodeFrom now
  | .markBlockAsInFlight nodeid hash nowReceived now =>
    s.markBlockAsInFlight nodeid hash nowReceived now

/-- The state after a list of calls. -/
def run (banscore : ℤ) (s : NetState) (ops : List NetOp) : Except Stop NetState :=
  ops.foldlM (exec banscore) s

/-- The peer whose state a call takes for granted. -/
def node? : NetOp → Option NodeId
  | .finalizeNode nodeid => some nodeid
  | .markBlockAsInFlight nodeid _ _ _ => some nodeid
  | _ => none

theorem exec_inv {banscore : ℤ} {s s' : NetState} (hi : s.Inv) {op : NetOp}
    (h : op.exec banscore s = .ok s') : s'.Inv := by
  cases op with
  | initializeNode nodeid addrName =>
    cases h
    exact NetState.initializeNode_inv hi nodeid addrName
  | finalizeNode nodeid => exact NetState.finalizeNode_inv hi h
  | addBlockToQueue nodeid hash =>
    cases h
    exact NetState.addBlockToQueue_inv hi banscore nodeid hash
  | markBlockAsReceived hash nodeFrom now =>
    obtain ⟨s1, h1, hr, -, -⟩ := NetState.markBlockAsReceived_spec hi hash nodeFrom now
    obtain rfl : s1 = s' := ok.inj (h1.symm.trans h)
    exact hr.inv
  | markBlockAsInFlight nodeid hash nowReceived now =>
    cases hst : s.state nodeid with
    | none => simp [exec, NetState.markBlockAsInFlight, hst, rejectIf] at h
    | some st =>
      obtain ⟨s1, h1, hi1⟩ := NetState.markBlockAsInFlight_spec hi (n := nodeid)
        (by rw [hst]; rfl) hash nowReceived now
      obtain rfl : s1 = s' := ok.inj (h1.symm.trans h)
      exact hi1

/-- A call returns unless it takes a peer for granted that is not there. -/
theorem exec_isOk_iff {banscore : ℤ} {s : NetState} (hi : s.Inv) (op : NetOp) :
    (∃ s', op.exec banscore s = .ok s') ↔ ∀ n, op.node? = some n → (s.state n).isSome := by
  cases op with
  | initializeNode nodeid addrName => simp [exec, node?]
  | finalizeNode nodeid =>
    cases hst : s.state nodeid with
    | none => simp [exec, node?, NetState.finalizeNode, hst]
    | some st => simp [exec, node?, NetState.finalizeNode, hst]
  | addBlockToQueue nodeid hash => simp [exec, node?]
  | markBlockAsReceived hash nodeFrom now =>
    obtain ⟨s1, h1, -⟩ := NetState.markBlockAsReceived_spec hi hash nodeFrom now
    simp [exec, node?, h1]
  | markBlockAsInFlight nodeid hash nowReceived now =>
    cases hst : s.state nodeid with
    | none => simp [exec, node?, NetState.markBlockAsInFlight, hst, rejectIf]
    | some st =>
      obtain ⟨s1, h1, -⟩ := NetState.markBlockAsInFlight_spec hi (n := nodeid)
        (by rw [hst]; rfl) hash nowReceived now
      simp [exec, node?, h1, hst]

theorem run_inv {banscore : ℤ} {s s' : NetState} (hi : s.Inv) {ops : List NetOp}
    (h : run banscore s ops = .ok s') : s'.Inv := by
  induction ops generalizing s with
  | nil =>
    cases h
    exact hi
  | cons op ops ih =>
    rw [run, foldlM_cons, except_bind_eq_ok] at h
    obtain ⟨s1, h1, h2⟩ := h
    exact ih (exec_inv hi h1) h2

end NetOp

/-! ### What every run keeps -/

/-- Each entry of a map points to exactly one element of the list of a peer that is there, and each
element of a list has its entry. -/
structure NetState.Indexed {V : Type} (s : NetState) (key : V → Uint256)
    (m : AList fun _ : Uint256 => NodeId × ℕ) (list : CNodeState → List (Cell V)) : Prop where
  entry : ∀ hash n it, m.lookup hash = some (n, it) → ∃ st, s.state n = some st ∧
    ∃ c ∈ list st, c.addr = it ∧ key c.val = hash ∧
      ∀ d ∈ list st, d.addr = it ∨ key d.val = hash → d = c
  element : ∀ n st, s.state n = some st → ∀ c ∈ list st, m.lookup (key c.val) = some (n, c.addr)

theorem NetState.Indexed.of_linked {V : Type} {s : NetState} {key : V → Uint256}
    {m : AList fun _ : Uint256 => NodeId × ℕ} {list : CNodeState → List (Cell V)}
    (h : Linked key m fun n => ((s.state n).map list).getD []) : s.Indexed key m list := by
  constructor
  · intro hash n it hl
    obtain ⟨c, hc, ha, hv⟩ := (h.entry _ _ _).1 hl
    cases hst : s.state n with
    | none => simp [hst] at hc
    | some st =>
      have hlist : ((s.state n).map list).getD [] = list st := by simp [hst]
      refine ⟨st, rfl, c, hlist ▸ hc, ha, hv, ?_⟩
      rintro d hd (hda | hdv)
      · exact h.eq_of_addr (o := n) (by simpa [hst] using hd) hc (hda.trans ha.symm)
      · exact (h.unique (o := n) (by simpa [hst] using hd) hc (hdv.trans hv.symm)).2
  · intro n st hst c hc
    exact h.lookup (o := n) (by simpa [hst] using hc)

/-- **The block download queue.**  After every run of the five operations no hash is in both maps,
the entries of each map and the elements of the matching lists are the same, and the counters are
the lengths.  The next call returns unless it takes a peer for granted that is not there.  For a
peer that is there the `getdata` loop returns: it asks for the blocks at the front of the queue, as
many as may be in flight, each of them once, and moves them to the end of the blocks in flight. -/
theorem blockQueue_invariant {banscore : ℤ} {ops : List NetOp} {s : NetState}
    (h : NetOp.run banscore .empty ops = .ok s) :
    (∀ hash, s.mapBlocksToDownload.lookup hash = none ∨ s.mapBlocksInFlight.lookup hash = none) ∧
    s.Indexed id s.mapBlocksToDownload CNodeState.vBlocksToDownload ∧
    s.Indexed QueuedBlock.hash s.mapBlocksInFlight CNodeState.vBlocksInFlight ∧
    (∀ n st, s.state n = some st → st.Counts) ∧
    (∀ op : NetOp, (∃ s', op.exec banscore s = .ok s') ↔
      ∀ n, op.node? = some n → (s.state n).isSome) ∧
    ∀ n st, s.state n = some st → ∀ tick, ∃ r k st', s.getData n tick = .ok r ∧ r.net.Inv ∧
      r.net.state n = some st' ∧ r.requested = (st.vBlocksToDownload.map Cell.val).take k ∧
      r.requested.Nodup ∧ st'.vBlocksToDownload = st.vBlocksToDownload.drop k ∧
      st'.vBlocksInFlight.map (·.val.hash) = st.vBlocksInFlight.map (·.val.hash) ++ r.requested ∧
      k ≤ min st.vBlocksToDownload.length (128 - st.vBlocksInFlight.length) ∧
      ((∀ i, (tick i).fDisconnect = false) →
        k = min st.vBlocksToDownload.length (128 - st.vBlocksInFlight.length)) := by
  have hi : s.Inv := NetOp.run_inv NetState.empty_inv h
  refine ⟨hi.disjoint, .of_linked hi.linkedToDownload, .of_linked hi.linkedInFlight, hi.counts,
    NetOp.exec_isOk_iff hi, ?_⟩
  intro n st hst tick
  obtain ⟨r, k, st', hr, hi', hst', hreq, hdrop, hfl, hle, hk⟩ :=
    getDataLoop_spec tick ((s.toDownload n).length + 1) 0 ⟨s, [], []⟩ hi hst
      (by rw [NetState.toDownload_of_state hst]; exact lt_succ_self _)
  have hreq' : r.requested = (st.vBlocksToDownload.map Cell.val).take k := by
    simpa [GetData.requested] using hreq
  -- a hash is queued once
  have hnodup : (st.vBlocksToDownload.map Cell.val).Nodup := by
    have haddr := hi.linkedToDownload.nodup n
    rw [NetState.toDownload_of_state hst] at haddr
    refine (List.Nodup.of_map _ haddr).map_on fun c hc d hd hv => ?_
    rw [← NetState.toDownload_of_state hst] at hc hd
    exact (hi.linkedToDownload.unique hc hd hv).2
  refine ⟨r, k, st', hr, hi', hst', hreq', ?_, hdrop, ?_, hle, hk⟩
  · rw [hreq']
    exact hnodup.sublist (take_sublist _ _)
  · rw [hfl, hreq']

/-- Two peers announce two blocks; the second block is asked from the peer that announced the first
one, and the first block is left in its queue. -/
def twoPeers : List NetOp :=
  [.initializeNode 1 "a", .initializeNode 2 "b", .addBlockToQueue 1 7, .addBlockToQueue 2 8,
    .addBlockToQueue 2 7, .markBlockAsInFlight 1 8 0 50]

theorem blockQueue_invariant_twoPeers :
    ∃ s st r, NetOp.run 100 .empty twoPeers = .ok s ∧ s.state 1 = some st ∧
      st.vBlocksToDownload.map Cell.val = [7] ∧ st.nBlocksInFlight = 1 ∧
      s.getData 1 (fun i => ⟨false, i, i⟩) = .ok r ∧ r.requested = [7] := by
  obtain ⟨s, hrun, st, hst, hq, hf⟩ : ∃ s, NetOp.run 100 .empty twoPeers = .ok s ∧
      ∃ st, s.state 1 = some st ∧ st.vBlocksToDownload.map Cell.val = [7] ∧
        st.nBlocksInFlight = 1 := ⟨_, rfl, _, rfl, rfl, rfl⟩
  obtain ⟨-, -, -, hcounts, -, hloop⟩ := blockQueue_invariant hrun
  obtain ⟨r, k, st', hr, -, -, hreq, -, -, -, -, hk⟩ := hloop 1 st hst fun i => ⟨false, i, i⟩
  have hlenq : st.vBlocksToDownload.length = 1 := by simpa using congrArg List.length hq
  have hlenf := (hcounts 1 st hst).inFlight
  refine ⟨s, st, r, hrun, hst, hq, hf, hr, ?_⟩
  obtain rfl : k = 1 := by
    have := hk fun _ => rfl
    omega
  rw [hreq, hq]
  rfl

end Espers
