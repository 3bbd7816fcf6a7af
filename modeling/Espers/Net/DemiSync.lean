import Espers.Core.Data
import Espers.Net.DemiRegistry

/-!
# Synchronisation with demi-nodes

`startDemiSync` looks for a demi-node among the peers, `getDemiBlock` asks all of them for a block.
The first reports through parameters that are passed by value, the second through `fDemiFound`,
which every lookup in the registry resets.

* `requestLoop_eq` : every demi-node is sent the request, and `fDemiFound` is what the last lookup
  has left.
* `demi_reports_iff` : **both report what they did exactly if no peer is a demi-node**; the request
  alone is reported if the last peer that is looked up is one.
-/

namespace Espers

open List Option Bool Function

/-- `DEMINODE_VERSION`. -/
def demiNodeVersion : ℤ := 60039

/-- `NOBLKS_VERSION_START`. -/
def noBlksVersionStart : ℤ := 0

/-- `NOBLKS_VERSION_END`. -/
def noBlksVersionEnd : ℤ := 60048

/-- `MSG_DEMIBLOCK`. -/
def msgDemiBlock : ℕ := 6

/-- A message that is pushed to a peer; a `getblocks` has the locator of a block. -/
inductive SyncMessage where
  | getblocks (pindexBegin : Option Uint256) (hashEnd : Uint256)
  | getdata (type : ℕ) (hash : Uint256)
  deriving DecidableEq

/-- What the synchronisation uses of a `CNode`. -/
structure SyncNode where
  nVersion : ℤ
  addrName : String
  fClient : Bool
  fOneShot : Bool
  fDisconnect : Bool
  fSuccessfullyConnected : Bool
  nStartingHeight : ℤ
  fStartSync : Bool
  pindexLastGetBlocksBegin : Option Uint256
  hashLastGetBlocksEnd : Uint256

/-- What is read of the rest of the node. -/
structure SyncContext where
  pindexBest : Option Uint256
  nBestHeight : ℤ
  fImporting : Bool
  fReindex : Bool
  fDemiNodes : Bool

/-- The nodes by their pointers, the list of the connected ones, the globals of the synchronisation,
and the messages that were pushed. -/
structure SyncState where
  node : ℕ → SyncNode
  vNodes : List ℕ
  vecRegisteredDemiNodes : List String
  fDemiFound : Bool
  pnodeSync : Option ℕ
  sent : List (ℕ × SyncMessage)

/-- A node takes part in a synchronisation. -/
def SyncNode.mayStart (C : SyncContext) (n : SyncNode) : Bool :=
  !n.fClient && !n.fOneShot && !n.fDisconnect && n.fSuccessfullyConnected &&
    decide (n.nStartingHeight > C.nBestHeight - 100) &&
    (decide (n.nVersion < noBlksVersionStart) || decide (n.nVersion ≥ noBlksVersionEnd))

namespace SyncState

/-- `PushGetBlocks`. -/
def pushGetBlocks (pnode : ℕ) (pindexBegin : Option Uint256) (hashEnd : Uint256) (s : SyncState) :
    SyncState :=
  -- Filter out duplicate requests
  if pindexBegin = (s.node pnode).pindexLastGetBlocksBegin ∧
    hashEnd = (s.node pnode).hashLastGetBlocksEnd then s
  else
    { s with
      node := update s.node pnode { s.node pnode with
        pindexLastGetBlocksBegin := pindexBegin
        hashLastGetBlocksEnd := hashEnd }
      sent := s.sent ++ [(pnode, .getblocks pindexBegin hashEnd)] }

/-- The result of `fDemiPeerRelay` for a node. -/
def relays (s : SyncState) (pnode : ℕ) : Bool :=
  fDemiPeerRelay s.vecRegisteredDemiNodes (s.node pnode).addrName

/-- The loop of `DemiNodeSelect`, with the value that its `demiSelectStatus` is left with. -/
def selectLoop (C : SyncContext) : List ℕ → SyncState → Bool × SyncState
  | [], s => (false, s)
  | pnode :: vNodes, s =>
    -- Skip obsolete nodes
    if (s.node pnode).nVersion < demiNodeVersion then selectLoop C vNodes s
    else if s.relays pnode then
      (true, pushGetBlocks pnode C.pindexBest 0
        { s with fDemiFound := true, pnodeSync := some pnode })
    else selectLoop C vNodes { s with fDemiFound := false }

/-- `DemiNodeSelect`: `demiSelectStatus` and `demiSelectAddr` are its own copies. -/
def demiNodeSelect (C : SyncContext) (s : SyncState) : SyncState :=
  (selectLoop C s.vNodes { s with fDemiFound := false }).2

/-- `startDemiSync`. -/
def startDemiSync (C : SyncContext) (s : SyncState) : Bool × SyncState :=
  let demiSelectStatus := false
  let s := s.demiNodeSelect C
  if !demiSelectStatus then (false, s) else (true, s)

/-- `SyncSelectStart`. -/
def syncSelectStart (C : SyncContext) (pnodepeer : ℕ) (s : SyncState) : Bool × SyncState :=
  let s := if (s.node pnodepeer).mayStart C then
      { s with
        pnodeSync := some pnodepeer
        node := update s.node pnodepeer { s.node pnodepeer with fStartSync := true } }
    else s
  if (s.node pnodepeer).fStartSync && !C.fImporting && !C.fReindex then
    let s := { s with
      node := update s.node pnodepeer { s.node pnodepeer with fStartSync := false } }
    if !C.fDemiNodes then (true, s.pushGetBlocks pnodepeer C.pindexBest 0)
    -- "Syncing from legacy peers is no longer supported."
    else if (s.node pnodepeer).nVersion < demiNodeVersion then (false, s)
    else if s.relays pnodepeer then
      (true, pushGetBlocks pnodepeer C.pindexBest 0 { s with fDemiFound := true })
    else
      let r := startDemiSync C { s with fDemiFound := false }
      if !r.1 then (false, { r.2 with pnodeSync := none }) else (true, r.2)
  else (false, s)

/-- `DemiDataRequestHandler`; `fDemiFetched` is its own copy. -/
def requestLoop (peerAddr : String) (fDemiSingleShot : Bool) (dinv : SyncMessage) :
    List ℕ → SyncState → SyncState
  | [], s => s
  | pnode :: vNodes, s =>
    -- Skip obsolete nodes
    if (s.node pnode).nVersion < demiNodeVersion then
      requestLoop peerAddr fDemiSingleShot dinv vNodes s
    else if fDemiSingleShot then
      if (s.node pnode).addrName = peerAddr then { s with sent := s.sent ++ [(pnode, dinv)] }
      else requestLoop peerAddr fDemiSingleShot dinv vNodes s
    else if s.relays pnode then
      requestLoop peerAddr fDemiSingleShot dinv vNodes
        { s with fDemiFound := true, sent := s.sent ++ [(pnode, dinv)] }
    else requestLoop peerAddr fDemiSingleShot dinv vNodes { s with fDemiFound := false }

/-- `DemiFetchBlock`. -/
def demiFetchBlock (blockHash : Uint256) (s : SyncState) : SyncState :=
  requestLoop "127.0.0.1" false (.getdata msgDemiBlock blockHash) s.vNodes
    { s with fDemiFound := false }

/-- `getDemiBlock`. -/
def getDemiBlock (blockHash : Uint256) (s : SyncState) : Bool × SyncState :=
  let s := s.demiFetchBlock blockHash
  if !s.fDemiFound then (false, s) else (true, s)

/-! ### Reports -/

/-- A connected peer that is a demi-node. -/
structure DemiPeer (s : SyncState) (p : ℕ) : Prop where
  connected : p ∈ s.vNodes
  version : demiNodeVersion ≤ (s.node p).nVersion
  registered : (s.node p).addrName ∈ s.vecRegisteredDemiNodes

/-- `SyncSelectStart` calls `startDemiSync` for a peer. -/
structure Scans (C : SyncContext) (s : SyncState) (pnodepeer : ℕ) : Prop where
  starts : (s.node pnodepeer).mayStart C = true ∨ (s.node pnodepeer).fStartSync = true
  fImporting : C.fImporting = false
  fReindex : C.fReindex = false
  fDemiNodes : C.fDemiNodes = true
  version : demiNodeVersion ≤ (s.node pnodepeer).nVersion
  registered : (s.node pnodepeer).addrName ∉ s.vecRegisteredDemiNodes

/-- `startDemiSync` reports whether a peer is a demi-node, and such a peer is the one that is synced
with. -/
structure StartReports (C : SyncContext) (s : SyncState) : Prop where
  returned : (s.startDemiSync C).1 = true ↔ ∃ p, s.DemiPeer p
  selected : ∀ pnodepeer, s.Scans C pnodepeer → (∃ p, s.DemiPeer p) →
    ∃ p, s.DemiPeer p ∧ (s.syncSelectStart C pnodepeer).2.pnodeSync = some p

/-- `getDemiBlock` reports whether a demi-node was sent the request. -/
def RequestReports (blockHash : Uint256) (s : SyncState) : Prop :=
  (s.getDemiBlock blockHash).1 = true ↔ ∃ p, s.DemiPeer p ∧
    (p, SyncMessage.getdata msgDemiBlock blockHash) ∈
      (s.getDemiBlock blockHash).2.sent.drop s.sent.length

/-- The peers that are looked up in the registry. -/
def lookedUp (s : SyncState) : List ℕ :=
  s.vNodes.filter fun p => demiNodeVersion ≤ (s.node p).nVersion

variable {C : SyncContext} {s : SyncState} {p pnode pnodepeer : ℕ} {vNodes : List ℕ}
  {blockHash : Uint256} {dinv : SyncMessage} {peerAddr : String}

theorem relays_eq_true : s.relays p = true ↔ (s.node p).addrName ∈ s.vecRegisteredDemiNodes :=
  findRegisteredDemi_eq_true

theorem demiPeer_iff : s.DemiPeer p ↔ p ∈ s.lookedUp ∧ s.relays p = true := by
  rw [lookedUp, mem_filter, decide_eq_true_iff, relays_eq_true]
  exact ⟨fun h => ⟨⟨h.connected, h.version⟩, h.registered⟩, fun h => ⟨h.1.1, h.1.2, h.2⟩⟩

/-! ### The request -/

/-- Every demi-node is asked, and the last lookup decides about `fDemiFound`. -/
theorem requestLoop_eq (vNodes : List ℕ) (s : SyncState) :
    requestLoop peerAddr false dinv vNodes s =
      let asked := vNodes.filter fun p => demiNodeVersion ≤ (s.node p).nVersion
      { s with
        fDemiFound := (asked.getLast?.map s.relays).getD s.fDemiFound
        sent := s.sent ++ (asked.filter s.relays).map fun p => (p, dinv) } := by
  induction vNodes generalizing s with
  | nil =>
    change s = { s with sent := s.sent ++ [] }
    rw [append_nil]
  | cons pnode vNodes ih =>
    rw [requestLoop]
    by_cases hversion : (s.node pnode).nVersion < demiNodeVersion
    · rw [if_pos hversion, ih, filter_cons_of_neg (by simpa using hversion)]
    · rw [if_neg hversion, if_neg Bool.false_ne_true, filter_cons_of_pos (by simpa using hversion)]
      dsimp only
      rw [getLast?_cons, Option.map_some, Option.getD_some]
      cases hrelays : s.relays pnode with
      | true =>
        rw [if_pos rfl, ih, filter_cons_of_pos hrelays, map_cons, ← hrelays]
        simp only [← Option.getD_map, append_assoc]
        rfl
      | false =>
        rw [if_neg Bool.false_ne_true, ih,
          filter_cons_of_neg (by rw [hrelays]; exact Bool.false_ne_true), ← hrelays]
        simp only [← Option.getD_map]
        rfl

theorem getDemiBlock_spec (blockHash : Uint256) (s : SyncState) :
    (s.getDemiBlock blockHash).1 = (s.lookedUp.getLast?.map s.relays).getD false ∧
      (s.getDemiBlock blockHash).2.sent = s.sent ++
        (s.lookedUp.filter s.relays).map fun p => (p, .getdata msgDemiBlock blockHash) := by
  have hreport : ∀ t : SyncState, (if !t.fDemiFound then (false, t) else (true, t)) =
      (t.fDemiFound, t) := by
    intro t
    cases t.fDemiFound <;> rfl
  rw [getDemiBlock, hreport, demiFetchBlock, requestLoop_eq]
  exact ⟨rfl, rfl⟩

/-- The request is reported if the last peer that is looked up is a demi-node, or none is. -/
theorem requestReports_iff : s.RequestReports blockHash ↔
    ∀ p, s.DemiPeer p → ∃ q, s.lookedUp.getLast? = some q ∧ s.DemiPeer q := by
  obtain ⟨hreturned, hsent⟩ := getDemiBlock_spec blockHash s
  have hasked : (∃ p, s.DemiPeer p ∧ (p, SyncMessage.getdata msgDemiBlock blockHash) ∈
      (s.getDemiBlock blockHash).2.sent.drop s.sent.length) ↔ ∃ p, s.DemiPeer p := by
    rw [hsent, drop_left]
    refine exists_congr fun p => and_iff_left_of_imp fun hp => ?_
    exact mem_map_of_mem (mem_filter.2 (demiPeer_iff.1 hp))
  have hlast : (s.lookedUp.getLast?.map s.relays).getD false = true ↔
      ∃ q, s.lookedUp.getLast? = some q ∧ s.DemiPeer q := by
    cases hq : s.lookedUp.getLast? with
    | none => simp
    | some q =>
      have hmem := mem_of_getLast? hq
      simp [demiPeer_iff, hmem]
  rw [RequestReports, hasked, hreturned, hlast]
  constructor
  · rintro h p hp
    exact h.2 ⟨p, hp⟩
  · intro h
    exact ⟨fun ⟨q, _, hq⟩ => ⟨q, hq⟩, fun ⟨p, hp⟩ => h p hp⟩

/-! ### The synchronisation -/

theorem startDemiSync_returns (C : SyncContext) (s : SyncState) :
    (s.startDemiSync C).1 = false := rfl

theorem startReports_iff : s.StartReports C ↔ ∀ p, ¬s.DemiPeer p := by
  constructor
  · intro h p hp
    exact false_ne_true ((startDemiSync_returns C s).symm.trans (h.returned.2 ⟨p, hp⟩))
  · intro h
    refine ⟨⟨fun hret => ?_, fun ⟨p, hp⟩ => absurd hp (h p)⟩, fun _ _ ⟨p, hp⟩ => absurd hp (h p)⟩
    exact absurd hret false_ne_true

/-- **When the selection and the request report what they did.**  Both do so only if no peer is a
demi-node; the request also if the last peer that is looked up is one. -/
theorem demi_reports_iff (C : SyncContext) (blockHash : Uint256) (s : SyncState) :
    (s.StartReports C ∧ s.RequestReports blockHash ↔ ∀ p, ¬s.DemiPeer p) ∧
      (s.RequestReports blockHash ↔
        ∀ p, s.DemiPeer p → ∃ q, s.lookedUp.getLast? = some q ∧ s.DemiPeer q) := by
  refine ⟨⟨fun h => startReports_iff.1 h.1, fun h => ?_⟩, requestReports_iff⟩
  exact ⟨startReports_iff.2 h, requestReports_iff.2 fun p hp => absurd hp (h p)⟩

end SyncState

/-- A demi-node, and a peer that is none, are connected. -/
def demiPeers : SyncState where
  node p := {
    nVersion := 60050
    addrName := if p = 0 then "95.39.17.203" else "127.0.0.1"
    fClient := false
    fOneShot := false
    fDisconnect := false
    fSuccessfullyConnected := true
    nStartingHeight := 1000
    fStartSync := false
    pindexLastGetBlocksBegin := none
    hashLastGetBlocksEnd := 0 }
  vNodes := [0, 1]
  vecRegisteredDemiNodes := ["95.39.17.203"]
  fDemiFound := false
  pnodeSync := none
  sent := []

/-- A node that syncs with demi-nodes. -/
def demiSyncing : SyncContext := ⟨some 1, 1000, false, false, true⟩

/-- The demi-node is sent both requests, and both calls return false. -/
theorem demi_reports_neither : (¬∀ (C : SyncContext) (blockHash : Uint256) (s : SyncState),
      s.StartReports C ∧ s.RequestReports blockHash) ∧
    (demiPeers.startDemiSync demiSyncing).1 = false ∧
    (demiPeers.startDemiSync demiSyncing).2.sent = [(0, .getblocks (some 1) 0)] ∧
    (demiPeers.syncSelectStart demiSyncing 1).2.pnodeSync = none ∧
    (demiPeers.getDemiBlock 1).1 = false ∧
    (demiPeers.getDemiBlock 1).2.sent = [(0, .getdata msgDemiBlock 1)] := by
  refine ⟨fun h => ?_, rfl, rfl, rfl, rfl, rfl⟩
  have hstart := (h demiSyncing 1 demiPeers).1.returned.2
    ⟨0, by simp [demiPeers], by simp [demiPeers, demiNodeVersion], by simp [demiPeers]⟩
  cases hstart

end Espers
