import Espers.Chain.Simnet
import Espers.Net.Orphans

/-!
# Received blocks

`ProcessBlock` checks a block that has been received and accepts it, or keeps it as an orphan when
its parent is unknown.  A block that has been accepted is followed by the orphans that waited for
it, and by those that waited for them.

* `OrphanNode.Inv` : the two maps of the orphans hold the same records, and no orphan is in the
  index.
* `orphanStore_invariant` : **it holds after every sequence of calls**, with a bound on the number
  of orphans, unless an exception leaves the loop over the orphans of a block after one of them has
  been taken out (`Tears`); the loops of the calls end if no block is its own ancestor.
* `orphanStore_torn` : such an exception leaves a record in one map only.
-/

namespace Espers

open Exec Relation List Nat AList

/-! ### `ProcessBlock` -/

/-- What a call of `ProcessBlock` depends on beside the globals. -/
structure Arrival where
  /-- What `AcceptBlock` of a block depends on. -/
  ctx : Uint256 → Ctx
  /-- The version of the peer `pfrom`, if the block has been received from one. -/
  pfrom : Option ℤ
  fReindex : Bool
  fImporting : Bool
  /-- The time of `Checkpoints::AutoSelectSyncCheckpoint()`. -/
  checkpointTime : ℤ
  /-- `IsDERSignature(vchBlockSig, false)`. -/
  isDERSignature : List UInt8 → Bool
  /-- `IsLowDERSignature(vchBlockSig, false)`. -/
  isLowDERSignature : List UInt8 → Bool
  /-- `EnsureLowS`: the signature rewritten. -/
  ensureLowS : List UInt8 → Option (List UInt8)
  insecureRand : ℕ
  isInitialBlockDownload : Bool

/-- `CANONICAL_BLOCK_SIG_LOW_S_VERSION`. -/
def canonicalBlockSigLowSVersion : ℤ := 60046

/-- `IsCanonicalBlockSignature`. -/
def isCanonicalBlockSignature (a : Arrival) (block : CBlock) (checkLowS : Bool) : Bool :=
  if block.isProofOfWork then block.vchBlockSig.isEmpty
  else if checkLowS then a.isLowDERSignature block.vchBlockSig
  else a.isDERSignature block.vchBlockSig

/-- The checks of the encoding of the signature, which may be rewritten. -/
def checkSignatureEncoding (a : Arrival) (block : CBlock) : Except Stop CBlock := do
  rejectIf (¬ isCanonicalBlockSignature a block false)
    (.error "ProcessBlock(): bad block signature encoding")
  if isCanonicalBlockSignature a block true then .ok block
  else do
    rejectIf (∃ nVersion ∈ a.pfrom, nVersion ≥ canonicalBlockSigLowSVersion)
      (.error "ProcessBlock(): bad block signature encoding (low-s)")
    match a.ensureLowS block.vchBlockSig with
    | none => .error (.error "ProcessBlock(): EnsureLowS failed")
    | some vchBlockSig => .ok { block with vchBlockSig := vchBlockSig }

/-- The globals and the orphans. -/
structure OrphanNode where
  world : World
  orphans : OrphanStore

/-- What a call has done: the orphan is kept, and its peer asked for what is missing. -/
inductive Processed where
  | accepted
  | orphan (root : Uint256) (wanted : Option Uint256)
  | dropped

/-- Run a function of the chain. -/
def onWorld {α : Type} (x : Node α) : EStateM Stop OrphanNode α :=
  focus OrphanNode.world (fun w s => { s with world := w }) x

/-- The loop of `ProcessBlock` over the orphans that waited for one block; the result are those that
have been accepted. -/
def acceptOrphans (E : Env) (a : Arrival) :
    List (Uint256 × COrphanBlock) → EStateM Stop OrphanNode (List Uint256)
  | [] => pure []
  | mi :: range => do
    let block := mi.2.vchBlock
    let accepted ← onWorld (returned (acceptBlock E (a.ctx mi.2.hashBlock) block))
    modify fun s => { s with orphans := { s.orphans with
      mapOrphanBlocks := s.orphans.mapOrphanBlocks.erase mi.2.hashBlock
      setStakeSeenOrphan := s.orphans.setStakeSeenOrphan.filter (· ≠ block.getProofOfStake) } }
    let later ← acceptOrphans E a range
    pure (if accepted then mi.2.hashBlock :: later else later)

/-- The loop of `ProcessBlock` over `vWorkQueue`; the answer is `false` when it does not end. -/
def workQueue (E : Env) (a : Arrival) : ℕ → List Uint256 → EStateM Stop OrphanNode Bool
  | _, [] => pure true
  | 0, _ :: _ => pure false
  | fuel + 1, hashPrev :: vWorkQueue => do
    let s ← get
    let accepted ← acceptOrphans E a
      (s.orphans.mapOrphanBlocksByPrev.filter fun mi => mi.1 = hashPrev)
    modify fun s => { s with orphans := { s.orphans with
      mapOrphanBlocksByPrev := s.orphans.mapOrphanBlocksByPrev.filter fun mi =>
        ¬ mi.1 = hashPrev } }
    workQueue E a fuel (vWorkQueue ++ accepted)

/-- The branch of `ProcessBlock` for a block whose parent is unknown. -/
def keepOrphan (maxorphanblocks : ℤ) (a : Arrival) (hash : Uint256) (block : CBlock) :
    EStateM Stop OrphanNode Processed := do
  let s ← get
  let o := s.orphans
  lift (rejectIf (block.isProofOfStake ∧ block.getProofOfStake ∈ o.setStakeSeenOrphan ∧
      ¬ o.mapOrphanBlocksByPrev.any fun mi => mi.1 = hash)
    (.error "ProcessBlock() : duplicate proof-of-stake for orphan block"))
  match o.pruneOrphanBlocks maxorphanblocks a.insecureRand with
  | none => throw (.crash "PruneOrphanBlocks() : the loop does not end")
  | some o => do
    let pblock2 : COrphanBlock := ⟨hash, block.hashPrevBlock, block.getProofOfStake, block⟩
    let o := o.insert pblock2 block.isProofOfStake
    set { s with orphans := o }
    match o.getOrphanRoot hash with
    | none => throw (.crash "GetOrphanRoot() : the loop does not end")
    | some root =>
      if a.isInitialBlockDownload then pure (.orphan root none)
      else match o.wantedByOrphan pblock2 with
        | none => throw (.crash "WantedByOrphan() : the loop does not end")
        | some wanted => pure (.orphan root (some wanted))

/-- `CheckBlock` of a block that has arrived. -/
def checkBlockNow (E : Env) (w : World) (adjustedTime : ℤ) (block : CBlock) : Except Stop Unit :=
  match w.pindexBest.bind fun best => w.mapBlockIndex.lookup best with
  | none => .error (.crash "null pointer")
  | some best => checkBlock E ⟨w.maxBlockSize, w.maxBlockSigops, adjustedTime⟩ best.nHeight block
      true true true

/-- The checks of `ProcessBlock`; the block may get a new signature. -/
def checkArrival (E : Env) (a : Arrival) (s : OrphanNode) (block : CBlock) :
    Except Stop CBlock := do
  let hash := block.getHash E
  let w := s.world
  rejectIf (w.mapBlockIndex.lookup hash).isSome (.error "ProcessBlock() : already have block")
  rejectIf (s.orphans.mapOrphanBlocks.lookup hash).isSome
    (.error "ProcessBlock() : already have block (orphan)")
  rejectIf (¬ a.fReindex ∧ ¬ a.fImporting ∧ block.isProofOfStake ∧
      block.getProofOfStake ∈ w.setStakeSeen ∧
      ¬ s.orphans.mapOrphanBlocksByPrev.any fun mi => mi.1 = hash)
    (.error "ProcessBlock() : duplicate proof-of-stake for block")
  rejectIf (block.hashPrevBlock ≠ w.hashBestChain ∧ (block.nTime : ℤ) - a.checkpointTime < 0)
    (.error "ProcessBlock() : block with timestamp before last checkpoint")
  let block ← checkSignatureEncoding a block
  (checkBlockNow E w (a.ctx hash).getAdjustedTime block).mapError
    (Stop.report (.error "ProcessBlock() : CheckBlock FAILED"))
  .ok block

/-- The branch of `ProcessBlock` for a block whose parent is in the index. -/
def acceptArrived (E : Env) (a : Arrival) (hash : Uint256) (block : CBlock) :
    EStateM Stop OrphanNode Processed := do
  onWorld (mapError (Stop.report (.error "ProcessBlock() : AcceptBlock FAILED"))
    (acceptBlock E (a.ctx hash) block))
  -- Recursively process any orphan blocks that depended on this one
  let s ← get
  let ended ← workQueue E a (s.orphans.mapOrphanBlocksByPrev.length + 1) [hash]
  if ended then pure .accepted else throw (.crash "ProcessBlock() : the loop does not end")

/-- `ProcessBlock`. -/
def processBlock (E : Env) (maxorphanblocks : ℤ) (a : Arrival) (block : CBlock) :
    EStateM Stop OrphanNode Processed := do
  let s ← get
  let hash := block.getHash E
  let block ← lift (checkArrival E a s block)
  -- If we don't already have its previous block, shunt it off to holding area until we get it
  if (s.world.mapBlockIndex.lookup block.hashPrevBlock).isNone then
    -- Accept orphans as long as there is a node to request its parents from
    if a.pfrom.isSome then keepOrphan maxorphanblocks a hash block else pure .dropped
  else acceptArrived E a hash block

/-! ### The invariant -/

/-- The two maps hold the same records, each of which is about the block it contains, and none of
these blocks is in the index. -/
structure OrphanInv (E : Env) (link : Uint256 → Uint256 → Prop) (w : World)
    (m : AList fun _ : Uint256 => COrphanBlock) (l : List (Uint256 × COrphanBlock)) : Prop where
  holds : OrphanStore.Holds m l
  block : ∀ hash r, m.lookup hash = some r → r.vchBlock.getHash E = hash
  linked : ∀ hash r, m.lookup hash = some r → link hash r.hashPrev
  fresh : ∀ hash r, m.lookup hash = some r → w.mapBlockIndex.lookup hash = none

variable {E : Env} {link : Uint256 → Uint256 → Prop} {w w' : World}
  {m : AList fun _ : Uint256 => COrphanBlock} {l : List (Uint256 × COrphanBlock)}
  {x : Uint256 × COrphanBlock} {a : Arrival} {maxorphanblocks : ℤ} {s s' : OrphanNode}
  {block : CBlock}

namespace OrphanInv

theorem world {hash : Uint256} (h : OrphanInv E link w m l) (hw : IndexOnly hash w w')
    (hnot : m.lookup hash = none) : OrphanInv E link w' m l := by
  refine ⟨h.holds, h.block, h.linked, ?_⟩
  intro hash' r hr
  have hne : hash' ≠ hash := by
    rintro rfl
    rw [hnot] at hr
    cases hr
  have hsome := hw hash' hne
  rw [h.fresh hash' r hr] at hsome
  simpa using hsome

/-- The block of an orphan has been tried and has not come into the index. -/
theorem unindexed {hash : Uint256} (h : OrphanInv E link w m l) (hw : IndexOnly hash w w')
    (hnone : w'.mapBlockIndex.lookup hash = none) : OrphanInv E link w' m l := by
  refine ⟨h.holds, h.block, h.linked, fun hash' r hr => ?_⟩
  by_cases heq : hash' = hash
  · rw [heq]
    exact hnone
  · have hsome := hw hash' heq
    rw [h.fresh hash' r hr] at hsome
    simpa using hsome

theorem erase {l' : List (Uint256 × COrphanBlock)} {r : COrphanBlock} (h : OrphanInv E link w m l)
    (hl : l.Perm (r.byPrev :: l')) : OrphanInv E link w (m.erase r.hashBlock) l' :=
  ⟨h.holds.erase hl, fun hash r' hr => h.block hash r' (Store.lookup_of_erase hr),
    fun hash r' hr => h.linked hash r' (Store.lookup_of_erase hr),
    fun hash r' hr => h.fresh hash r' (Store.lookup_of_erase hr)⟩

theorem consume (h : OrphanInv E link w m (x :: l)) (hw : IndexOnly x.2.hashBlock w w') :
    OrphanInv E link w' (m.erase x.2.hashBlock) l := by
  have hx : x.2.byPrev = x :=
    Prod.ext (h.holds.mem_iff.1 mem_cons_self).1.symm rfl
  have herased : OrphanInv E link w (m.erase x.2.hashBlock) l :=
    h.erase (by rw [hx])
  exact herased.world hw (lookup_erase _ _)

theorem insert {r : COrphanBlock} (h : OrphanInv E link w m l) (hnew : m.lookup r.hashBlock = none)
    (hblock : r.vchBlock.getHash E = r.hashBlock) (hlink : link r.hashBlock r.hashPrev)
    (hfresh : w.mapBlockIndex.lookup r.hashBlock = none) :
    OrphanInv E link w (m.insert r.hashBlock r)
      (l.orderedInsert (fun a b => a.1 < b.1) r.byPrev) := by
  have hcases : ∀ hash r', (m.insert r.hashBlock r).lookup hash = some r' →
      hash = r.hashBlock ∧ r' = r ∨ m.lookup hash = some r' := by
    intro hash r' hr'
    by_cases heq : hash = r.hashBlock
    · subst heq
      rw [lookup_insert] at hr'
      exact .inl ⟨rfl, (Option.some.inj hr').symm⟩
    · rw [lookup_insert_ne heq] at hr'
      exact .inr hr'
  refine ⟨h.holds.insert hnew, ?_, ?_, ?_⟩
  · intro hash r' hr'
    rcases hcases hash r' hr' with ⟨rfl, rfl⟩ | hr'
    · exact hblock
    · exact h.block hash r' hr'
  · intro hash r' hr'
    rcases hcases hash r' hr' with ⟨rfl, rfl⟩ | hr'
    · exact hlink
    · exact h.linked hash r' hr'
  · intro hash r' hr'
    rcases hcases hash r' hr' with ⟨rfl, rfl⟩ | hr'
    · exact hfresh
    · exact h.fresh hash r' hr'

end OrphanInv

/-! ### The loops -/

theorem returned_acceptBlock {ctx : Ctx} {accepted : Bool}
    (h : returned (acceptBlock E ctx block) w = .ok accepted w') :
    IndexOnly (block.getHash E) w w' :=
  (Keeps.attempt _ acceptBlock_indexOnly).ok h

variable {range : List (Uint256 × COrphanBlock)}

theorem acceptOrphans_cons_eq_ok {mi : Uint256 × COrphanBlock} {accepted : List Uint256}
    (h : acceptOrphans E a (mi :: range) s = .ok accepted s') :
    ∃ ok w' later, returned (acceptBlock E (a.ctx mi.2.hashBlock) mi.2.vchBlock) s.world =
    .ok ok w' ∧ acceptOrphans E a range ⟨w', { s.orphans with
        mapOrphanBlocks := s.orphans.mapOrphanBlocks.erase mi.2.hashBlock
        setStakeSeenOrphan :=
          s.orphans.setStakeSeenOrphan.filter (· ≠ mi.2.vchBlock.getProofOfStake) }⟩ =
            .ok later s' ∧
      accepted = if ok then mi.2.hashBlock :: later else later := by
  obtain ⟨ok, s1, h1, h⟩ := bind_eq_ok.1 h
  obtain ⟨w', haccept, rfl⟩ := focus_eq_ok.1 h1
  rw [modify_bind_apply] at h
  obtain ⟨later, s3, h3, hend⟩ := bind_eq_ok.1 h
  cases hend
  exact ⟨ok, w', later, haccept, h3, rfl⟩

theorem acceptOrphans_spec {accepted : List Uint256}
    (hi : OrphanInv E link s.world s.orphans.mapOrphanBlocks (range ++ l))
    (h : acceptOrphans E a range s = .ok accepted s') :
    OrphanInv E link s'.world s'.orphans.mapOrphanBlocks l ∧
      s'.orphans.mapOrphanBlocksByPrev = s.orphans.mapOrphanBlocksByPrev ∧
      accepted.length ≤ range.length := by
  induction range generalizing s accepted with
  | nil =>
    cases h
    exact ⟨hi, rfl, le_refl _⟩
  | cons mi range ih =>
    obtain ⟨ok, w1, later, haccept, h3, rfl⟩ := acceptOrphans_cons_eq_ok h
    -- the record is found in the map under the hash of its block
    have hmi := (hi.holds.mem_iff.1 (mem_append_left l mem_cons_self)).2
    have hw := returned_acceptBlock haccept
    rw [hi.block _ _ hmi] at hw
    obtain ⟨h4, h5, h6⟩ := ih (hi.consume hw) h3
    refine ⟨h4, h5, ?_⟩
    split_ifs <;> simp only [length_cons] <;> omega

variable {q : List Uint256}

theorem workQueue_cons_eq_ok {fuel : ℕ} {hashPrev : Uint256} {ended : Bool}
    (h : workQueue E a (fuel + 1) (hashPrev :: q) s = .ok ended s') :
    ∃ accepted s1,
      acceptOrphans E a (s.orphans.mapOrphanBlocksByPrev.filter fun mi => mi.1 = hashPrev) s =
        .ok accepted s1 ∧
      workQueue E a fuel (q ++ accepted) ⟨s1.world, { s1.orphans with
        mapOrphanBlocksByPrev :=
          s1.orphans.mapOrphanBlocksByPrev.filter fun mi => ¬ mi.1 = hashPrev }⟩ =
            .ok ended s' := by
  rw [workQueue, get_bind_apply] at h
  obtain ⟨accepted, s1, h2, hrest⟩ := bind_eq_ok.1 h
  exact ⟨accepted, s1, h2, hrest⟩

theorem OrphanInv.split (hi : OrphanInv E link w m l) (hashPrev : Uint256) :
    OrphanInv E link w m ((l.filter fun mi => mi.1 = hashPrev) ++ l.filter fun mi => ¬ mi.1 =
    hashPrev) := by
  have hsplit := filter_append_perm (fun mi : Uint256 × COrphanBlock => mi.1 = hashPrev) l
  simp only [← decide_not] at hsplit
  exact ⟨⟨hi.holds.key, hsplit.trans hi.holds.perm⟩, hi.block, hi.linked, hi.fresh⟩

/-- One pass of the loop over `vWorkQueue`. -/
theorem acceptOrphans_round {hashPrev : Uint256} {accepted : List Uint256} {s1 : OrphanNode}
    (hi : OrphanInv E link s.world s.orphans.mapOrphanBlocks s.orphans.mapOrphanBlocksByPrev)
    (h : acceptOrphans E a (s.orphans.mapOrphanBlocksByPrev.filter fun mi => mi.1 = hashPrev) s =
      .ok accepted s1) :
    OrphanInv E link s1.world s1.orphans.mapOrphanBlocks
      (s1.orphans.mapOrphanBlocksByPrev.filter fun mi => ¬ mi.1 = hashPrev) ∧
    (s1.orphans.mapOrphanBlocksByPrev.filter fun mi => ¬ mi.1 = hashPrev).length +
      accepted.length ≤ s.orphans.mapOrphanBlocksByPrev.length := by
  have hi' := hi.split hashPrev
  have hlen := hi'.holds.length_eq.symm.trans hi.holds.length_eq
  rw [length_append] at hlen
  obtain ⟨h4, h5, h6⟩ := acceptOrphans_spec hi' h
  rw [← h5] at h4 h6 hlen
  exact ⟨h4, by rw [← h5]; omega⟩

theorem workQueue_spec {fuel : ℕ} {ended : Bool}
    (hi : OrphanInv E link s.world s.orphans.mapOrphanBlocks s.orphans.mapOrphanBlocksByPrev)
    (hfuel : q.length + s.orphans.mapOrphanBlocksByPrev.length ≤ fuel)
    (h : workQueue E a fuel q s = .ok ended s') :
    OrphanInv E link s'.world s'.orphans.mapOrphanBlocks s'.orphans.mapOrphanBlocksByPrev ∧
      s'.orphans.mapOrphanBlocksByPrev.length ≤ s.orphans.mapOrphanBlocksByPrev.length ∧
      ended = true := by
  induction fuel generalizing q s with
  | zero =>
    obtain rfl : q = [] := eq_nil_of_length_eq_zero (by omega)
    cases h
    exact ⟨hi, le_refl _, rfl⟩
  | succ fuel ih =>
    cases q with
    | nil =>
      cases h
      exact ⟨hi, le_refl _, rfl⟩
    | cons hashPrev q =>
      obtain ⟨accepted, s1, h2, hrest⟩ := workQueue_cons_eq_ok h
      -- each record that is accepted has left the multimap
      obtain ⟨h4, h6⟩ := acceptOrphans_round hi h2
      have hless : (q ++ accepted).length + (s1.orphans.mapOrphanBlocksByPrev.filter fun mi =>
          ¬ mi.1 = hashPrev).length ≤ fuel := by
        rw [length_append]
        rw [length_cons] at hfuel
        omega
      obtain ⟨h7, h8, h9⟩ := ih h4 hless hrest
      refine ⟨h7, ?_, h9⟩
      simp only at h8
      omega

/-! ### A call -/

/-- The error ends a run of `AcceptBlock`: it is not an answer `false`. -/
def StopsAccept (E : Env) (e : Stop) : Prop :=
  e.returnsFalse = false ∧ ∃ ctx block w w', acceptBlock E ctx block w = .error e w'

theorem acceptOrphans_error {e : Stop}
    (h : acceptOrphans E a range s = .error e s') : StopsAccept E e := by
  induction range generalizing s with
  | nil => cases h
  | cons mi range ih =>
    rcases bind_eq_error.1 h with h1 | ⟨ok, s1, -, h1⟩
    · obtain ⟨w', hx, -⟩ := focus_eq_error.1 h1
      obtain ⟨haccept, he⟩ := attempt_eq_error.1 hx
      exact ⟨he, _, _, _, _, haccept⟩
    · rw [modify_bind_apply] at h1
      rcases bind_eq_error.1 h1 with h2 | ⟨later, s2, -, h2⟩
      · exact ih h2
      · cases h2

theorem workQueue_error {fuel : ℕ} {e : Stop}
    (h : workQueue E a fuel q s = .error e s') : StopsAccept E e := by
  induction fuel generalizing q s with
  | zero => cases q <;> cases h
  | succ fuel ih =>
    cases q with
    | nil => cases h
    | cons hashPrev q =>
      rw [workQueue, get_bind_apply] at h
      rcases bind_eq_error.1 h with h1 | ⟨accepted, s1, -, h1⟩
      · exact acceptOrphans_error h1
      · rw [modify_bind_apply] at h1
        exact ih h1

/-! ### Exceptions -/

theorem checkSignatureEncoding_eq_ok {block' : CBlock}
    (h : checkSignatureEncoding a block = .ok block') :
    ∃ vchBlockSig, block' = { block with vchBlockSig := vchBlockSig } := by
  obtain ⟨_, -, h⟩ := except_bind_eq_ok.1 h
  split_ifs at h with hlow
  · cases h
    exact ⟨block.vchBlockSig, rfl⟩
  · obtain ⟨_, -, h⟩ := except_bind_eq_ok.1 h
    cases he : a.ensureLowS block.vchBlockSig with
    | none => simp [he] at h
    | some vchBlockSig =>
      simp only [he, Except.ok.injEq] at h
      exact ⟨vchBlockSig, h.symm⟩

theorem checkArrival_spec {block' : CBlock} (h : checkArrival E a s block = .ok block') :
    s.world.mapBlockIndex.lookup (block.getHash E) = none ∧
      s.orphans.mapOrphanBlocks.lookup (block.getHash E) = none ∧
      ∃ vchBlockSig, block' = { block with vchBlockSig := vchBlockSig } := by
  unfold checkArrival at h
  simp only [except_bind_eq_ok, rejectIf_eq_ok, exists_const] at h
  obtain ⟨h1, h2, -, -, b, h3, h4⟩ := h
  refine ⟨by simpa using h1, by simpa using h2, ?_⟩
  obtain ⟨_, -, rfl⟩ : ∃ u, _ ∧ b = block' := by simpa using h4
  exact checkSignatureEncoding_eq_ok h3

/-- The node goes on: `ProcessMessages` catches an exception. -/
def Stop.survives : Stop → Bool
  | .crash _ => false
  | _ => true

/-- The error of `AcceptBlock` that leaves the loop over these orphans does so after one of them has
been taken from `mapOrphanBlocks`, or with the block of the first one in the index. -/
def TearsRange (E : Env) (a : Arrival) (range : List (Uint256 × COrphanBlock)) (s : OrphanNode) :
    Prop :=
  match range with
  | [] => False
  | mi :: _ =>
    match returned (acceptBlock E (a.ctx mi.2.hashBlock) mi.2.vchBlock) s.world with
    | .ok _ _ => True
    | .error _ w => (w.mapBlockIndex.lookup mi.2.hashBlock).isSome = true

/-- The same for the loop over `vWorkQueue`. -/
def TearsQueue (E : Env) (a : Arrival) : ℕ → List Uint256 → OrphanNode → Prop
  | 0, _, _ => False
  | _ + 1, [], _ => False
  | fuel + 1, hashPrev :: vWorkQueue, s =>
    let range := s.orphans.mapOrphanBlocksByPrev.filter fun mi => mi.1 = hashPrev
    match acceptOrphans E a range s with
    | .error _ _ => TearsRange E a range s
    | .ok accepted s => TearsQueue E a fuel (vWorkQueue ++ accepted)
      { s with orphans := { s.orphans with
        mapOrphanBlocksByPrev := s.orphans.mapOrphanBlocksByPrev.filter fun mi =>
          ¬ mi.1 = hashPrev } }

/-- The block is accepted, and then an exception leaves the call when an orphan has been taken from
one of the two maps only, or while an orphan is in the index. -/
def Tears (E : Env) (a : Arrival) (block : CBlock) (s : OrphanNode) : Prop :=
  ∃ block' w, checkArrival E a s block = .ok block' ∧
    acceptBlock E (a.ctx (block.getHash E)) block' s.world = .ok () w ∧
    TearsQueue E a (s.orphans.mapOrphanBlocksByPrev.length + 1) [block.getHash E] ⟨w, s.orphans⟩

theorem acceptBlock_parent {ctx : Ctx} (h : acceptBlock E ctx block w = .ok () w') :
    w.mapBlockIndex.lookup block.hashPrevBlock ≠ none := by
  intro hnone
  unfold acceptBlock at h
  rw [get_bind_apply] at h
  obtain ⟨_, w1, h1, h⟩ := bind_eq_ok.1 h
  obtain ⟨_, w2, h2, h⟩ := bind_eq_ok.1 h
  rw [hnone] at h
  cases h

/-- A block that becomes an orphan itself tears nothing. -/
theorem not_tears_of_orphan (h : s.world.mapBlockIndex.lookup block.hashPrevBlock = none) :
    ¬ Tears E a block s := by
  rintro ⟨block', w, hcheck, haccept, -⟩
  obtain ⟨-, -, vchBlockSig, rfl⟩ := checkArrival_spec hcheck
  exact acceptBlock_parent haccept h

theorem acceptOrphans_throws {e : Stop} (h : acceptOrphans E a range s = .error e s')
    (hno : ¬ TearsRange E a range s) : ∃ mi ∈ range, ∃ w',
      returned (acceptBlock E (a.ctx mi.2.hashBlock) mi.2.vchBlock) s.world = .error e w' ∧
        w'.mapBlockIndex.lookup mi.2.hashBlock = none ∧ s' = ⟨w', s.orphans⟩ := by
  cases range with
  | nil => cases h
  | cons mi range =>
    rcases bind_eq_error.1 h with h1 | ⟨ok, s1, h1, -⟩
    · obtain ⟨w', hx, rfl⟩ := focus_eq_error.1 h1
      simp only [TearsRange, hx] at hno
      exact ⟨mi, mem_cons_self, w', hx, by simpa using hno, rfl⟩
    · obtain ⟨w', hx, -⟩ := focus_eq_ok.1 h1
      simp only [TearsRange, hx] at hno
      exact absurd trivial hno

/-- **An error that tears nothing** comes from the first orphan of a block: the orphans are those
that the passes before have left, so what the passes keep holds of them. -/
theorem workQueue_throws {P : OrphanNode → Prop} {fuel : ℕ} {e : Stop}
    (hround : ∀ (s s1 : OrphanNode) hashPrev accepted, P s →
      acceptOrphans E a (s.orphans.mapOrphanBlocksByPrev.filter fun mi => mi.1 = hashPrev) s =
        .ok accepted s1 →
      P { s1 with orphans := { s1.orphans with
        mapOrphanBlocksByPrev := s1.orphans.mapOrphanBlocksByPrev.filter fun mi =>
          ¬ mi.1 = hashPrev } })
    (hs : P s) (h : workQueue E a fuel q s = .error e s') (hno : ¬ TearsQueue E a fuel q s) :
    ∃ s1 mi w', P s1 ∧ mi ∈ s1.orphans.mapOrphanBlocksByPrev ∧
      returned (acceptBlock E (a.ctx mi.2.hashBlock) mi.2.vchBlock) s1.world = .error e w' ∧
      w'.mapBlockIndex.lookup mi.2.hashBlock = none ∧ s' = ⟨w', s1.orphans⟩ := by
  induction fuel generalizing q s with
  | zero => cases q <;> cases h
  | succ fuel ih =>
    cases q with
    | nil => cases h
    | cons hashPrev q =>
      rw [workQueue, get_bind_apply] at h
      rw [TearsQueue] at hno
      rcases bind_eq_error.1 h with h1 | ⟨accepted, s1, h1, h2⟩
      · simp only [h1] at hno
        obtain ⟨mi, hmi, w', hx, hnone, rfl⟩ := acceptOrphans_throws h1 hno
        exact ⟨s, mi, w', hs, (mem_filter.1 hmi).1, hx, hnone, rfl⟩
      · simp only [h1] at hno
        rw [modify_bind_apply] at h2
        exact ih (hround s s1 hashPrev accepted hs h1) h2 hno

/-- What holds of the maps after an error that tears nothing. -/
theorem OrphanInv.thrown {e : Stop} {mi : Uint256 × COrphanBlock}
    (hi : OrphanInv E link w m l) (hmi : mi ∈ l)
    (hx : returned (acceptBlock E (a.ctx mi.2.hashBlock) mi.2.vchBlock) w = .error e w')
    (hnone : w'.mapBlockIndex.lookup mi.2.hashBlock = none) : OrphanInv E link w' m l := by
  have hw : IndexOnly (mi.2.vchBlock.getHash E) w w' :=
    (Keeps.attempt _ acceptBlock_indexOnly).error hx
  rw [hi.block _ _ (hi.holds.mem_iff.1 hmi).2] at hw
  exact hi.unindexed hw hnone

/-! ### What a call keeps -/

/-- `ProcessBlock` keeps at most one orphan more than `-maxorphanblocks`. -/
def orphanLimit (maxorphanblocks : ℤ) : ℕ := (max 0 maxorphanblocks).toNat + 1

/-- What holds between two calls. -/
structure OrphanNode.Inv (E : Env) (link : Uint256 → Uint256 → Prop) (maxorphanblocks : ℤ)
    (s : OrphanNode) : Prop where
  orphans : OrphanInv E link s.world s.orphans.mapOrphanBlocks s.orphans.mapOrphanBlocksByPrev
  limit : s.orphans.mapOrphanBlocksByPrev.length ≤ orphanLimit maxorphanblocks

theorem pruneOrphanBlocks_inv {o o' : OrphanStore} {rand : ℕ}
    (hi : OrphanInv E link w o.mapOrphanBlocks o.mapOrphanBlocksByPrev)
    (hacyclic : ∀ h, ¬ TransGen link h h)
    (hlimit : o.mapOrphanBlocksByPrev.length ≤ orphanLimit maxorphanblocks)
    (h : o.pruneOrphanBlocks maxorphanblocks rand = some o') :
    OrphanInv E link w o'.mapOrphanBlocks o'.mapOrphanBlocksByPrev ∧
      o'.mapOrphanBlocksByPrev.length < orphanLimit maxorphanblocks ∧
      ∀ hash, o.mapOrphanBlocks.lookup hash = none → o'.mapOrphanBlocks.lookup hash = none := by
  rcases OrphanStore.pruneOrphanBlocks_spec hi.holds hi.linked hacyclic maxorphanblocks rand with
    ⟨hfew, hsame⟩ | ⟨hmany, r, hr, hprune, -⟩
  · obtain rfl : o = o' := Option.some.inj (hsame.symm.trans h)
    exact ⟨hi, lt_succ_of_le hfew, fun _ hn => hn⟩
  · obtain rfl : o.remove r.byPrev = o' := Option.some.inj (hprune.symm.trans h)
    refine ⟨hi.erase (perm_cons_erase hr), ?_, ?_⟩
    · simp only [OrphanStore.remove]
      rw [length_erase_of_mem hr]
      omega
    · exact fun hash hn => Store.lookup_erase_none hn _

theorem pruneOrphanBlocks_isSome {o : OrphanStore} (maxorphanblocks : ℤ) (rand : ℕ)
    (hi : OrphanInv E link w o.mapOrphanBlocks o.mapOrphanBlocksByPrev)
    (hacyclic : ∀ h, ¬ TransGen link h h) :
    ∃ o', o.pruneOrphanBlocks maxorphanblocks rand = some o' := by
  rcases OrphanStore.pruneOrphanBlocks_spec hi.holds hi.linked hacyclic maxorphanblocks rand with
    ⟨-, h⟩ | ⟨-, r, -, h, -⟩
  · exact ⟨_, h⟩
  · exact ⟨_, h⟩

/-- **An orphan is refused or kept**, and the loops of the call end. -/
theorem keepOrphan_spec {hash : Uint256} (hi : s.Inv E link maxorphanblocks)
    (hacyclic : ∀ h, ¬ TransGen link h h) (hhash : block.getHash E = hash)
    (hlink : link hash block.hashPrevBlock) (hworld : s.world.mapBlockIndex.lookup hash = none)
    (hnew : s.orphans.mapOrphanBlocks.lookup hash = none) :
    (∃ e, e.returnsFalse = true ∧ keepOrphan maxorphanblocks a hash block s = .error e s) ∨
      ∃ p s', keepOrphan maxorphanblocks a hash block s = .ok p s' ∧
        s'.Inv E link maxorphanblocks := by
  unfold keepOrphan
  rw [get_bind_apply]
  by_cases hdup : block.isProofOfStake ∧ block.getProofOfStake ∈ s.orphans.setStakeSeenOrphan ∧
      ¬ s.orphans.mapOrphanBlocksByPrev.any fun mi => mi.1 = hash
  · rw [rejectIf, if_pos hdup]
    exact .inl ⟨_, rfl, rfl⟩
  obtain ⟨o, ho⟩ := pruneOrphanBlocks_isSome maxorphanblocks a.insecureRand hi.orphans hacyclic
  obtain ⟨hi1, hlimit, hleft⟩ := pruneOrphanBlocks_inv hi.orphans hacyclic hi.limit ho
  set r : COrphanBlock := ⟨hash, block.hashPrevBlock, block.getProofOfStake, block⟩
  have hi2 := hi1.insert (r := r) (hleft hash hnew) hhash hlink hworld
  obtain ⟨root, hroot⟩ := OrphanStore.getOrphanRoot_isSome (o := o.insert r block.isProofOfStake)
    hi2.linked hacyclic hash
  obtain ⟨wanted, hwanted⟩ := OrphanStore.wantedByOrphan_isSome
    (o := o.insert r block.isProofOfStake) hi2.linked hacyclic r
  have hinv : OrphanNode.Inv E link maxorphanblocks
      { s with orphans := o.insert r block.isProofOfStake } := by
    refine ⟨hi2, ?_⟩
    have hlen := (perm_orderedInsert (fun a b : Uint256 × COrphanBlock => a.1 < b.1) r.byPrev
      o.mapOrphanBlocksByPrev).length_eq
    simp only [OrphanStore.insert]
    rw [hlen, length_cons]
    exact hlimit
  rw [rejectIf, if_neg hdup]
  simp only [ho]
  cases a.isInitialBlockDownload with
  | true =>
    simp only [hroot]
    exact .inr ⟨_, _, rfl, hinv⟩
  | false =>
    simp only [hroot, hwanted]
    exact .inr ⟨_, _, rfl, hinv⟩

/-- The block and the orphans that waited for it. -/
theorem acceptArrived_spec {hash : Uint256} (hi : s.Inv E link maxorphanblocks)
    (hhash : block.getHash E = hash) (hnew : s.orphans.mapOrphanBlocks.lookup hash = none) :
    (∀ p s', acceptArrived E a hash block s = .ok p s' → s'.Inv E link maxorphanblocks) ∧
    ∀ e s', acceptArrived E a hash block s = .error e s' →
      (e.returnsFalse = true ∨ StopsAccept E e) ∧
      ((∀ w, acceptBlock E (a.ctx hash) block s.world = .ok () w →
        ¬ TearsQueue E a (s.orphans.mapOrphanBlocksByPrev.length + 1) [hash] ⟨w, s.orphans⟩) →
        s'.Inv E link maxorphanblocks) := by
  have hw : ∀ {x : EStateM.Result Stop World Unit},
      acceptBlock E (a.ctx hash) block s.world = x → IndexOnly hash s.world (finalState x) := by
    rintro _ rfl
    exact hhash ▸ acceptBlock_indexOnly s.world
  have hstep : ∀ {w'}, IndexOnly hash s.world w' →
      OrphanNode.Inv E link maxorphanblocks { s with world := w' } := fun h =>
    ⟨hi.orphans.world h hnew, hi.limit⟩
  constructor
  · intro p s' h
    obtain ⟨_, s1, h1, h2⟩ := bind_eq_ok.1 h
    obtain ⟨w1, h3, rfl⟩ := focus_eq_ok.1 h1
    have hi1 := hstep (hw (mapError_eq_ok.1 h3))
    rw [get_bind_apply] at h2
    obtain ⟨ended, s2, h4, h5⟩ := bind_eq_ok.1 h2
    obtain ⟨h6, h7, rfl⟩ := workQueue_spec hi1.orphans (by simp; omega) h4
    cases h5
    exact ⟨h6, h7.trans hi1.limit⟩
  · intro e s' h
    rcases bind_eq_error.1 h with h1 | ⟨_, s1, h1, h2⟩
    · -- an error of the block itself: it is no orphan
      obtain ⟨w1, h3, rfl⟩ := focus_eq_error.1 h1
      obtain ⟨e', h4, rfl⟩ := mapError_eq_error.1 h3
      refine ⟨?_, fun _ => hstep (hw h4)⟩
      unfold Stop.report
      split_ifs with he
      · exact .inl rfl
      · exact .inr ⟨by simpa using he, _, _, _, _, h4⟩
    · obtain ⟨w1, h3, rfl⟩ := focus_eq_ok.1 h1
      have hi1 := hstep (hw (mapError_eq_ok.1 h3))
      rw [get_bind_apply] at h2
      rcases bind_eq_error.1 h2 with h4 | ⟨ended, s2, h4, h5⟩
      · refine ⟨.inr (workQueue_error h4), fun hno => ?_⟩
        obtain ⟨s2, mi, w', ⟨hi2, hlimit⟩, hmi, hx, hnone, rfl⟩ := workQueue_throws
          (P := OrphanNode.Inv E link maxorphanblocks)
          (fun s s1 hashPrev accepted ⟨hi, hlimit⟩ h => by
            obtain ⟨h4, h6⟩ := acceptOrphans_round hi h
            exact ⟨h4, by simp only; omega⟩)
          hi1 h4 (hno w1 (mapError_eq_ok.1 h3))
        exact ⟨hi2.thrown hmi hx hnone, hlimit⟩
      · obtain ⟨-, -, rfl⟩ := workQueue_spec hi1.orphans (by simp; omega) h4
        cases h5

theorem processBlock_cases (E : Env) (maxorphanblocks : ℤ) (a : Arrival) (block : CBlock)
    (s : OrphanNode) :
    (∃ e, checkArrival E a s block = .error e ∧
      processBlock E maxorphanblocks a block s = .error e s) ∨
    ∃ block', checkArrival E a s block = .ok block' ∧
      (processBlock E maxorphanblocks a block s = .ok .dropped s ∧ a.pfrom.isSome = false ∨
        (s.world.mapBlockIndex.lookup block'.hashPrevBlock = none ∧ a.pfrom.isSome = true ∧
          processBlock E maxorphanblocks a block s =
            keepOrphan maxorphanblocks a (block.getHash E) block' s) ∨
        (s.world.mapBlockIndex.lookup block'.hashPrevBlock ≠ none ∧
          processBlock E maxorphanblocks a block s =
            acceptArrived E a (block.getHash E) block' s)) := by
  unfold processBlock
  rw [get_bind_apply]
  cases checkArrival E a s block with
  | error e => exact .inl ⟨e, rfl, rfl⟩
  | ok block' =>
    refine .inr ⟨block', rfl, ?_⟩
    simp only [bind_apply, lift_ok]
    split_ifs with hprev hfrom
    · exact .inr (.inl ⟨Option.isNone_iff_eq_none.1 hprev, hfrom, rfl⟩)
    · exact .inl ⟨rfl, by simpa using hfrom⟩
    · exact .inr (.inr ⟨fun h => hprev (Option.isNone_iff_eq_none.2 h), rfl⟩)

/-- **A call of `ProcessBlock`** keeps the invariant unless it tears the maps, and it returns unless
`CheckBlock` or a call of `AcceptBlock` does not. -/
theorem processBlock_spec (hi : s.Inv E link maxorphanblocks) (hacyclic : ∀ h, ¬ TransGen link h h)
    (hlink : link (block.getHash E) block.hashPrevBlock) :
    (∀ p s', processBlock E maxorphanblocks a block s = .ok p s' → s'.Inv E link maxorphanblocks) ∧
    ∀ e s', processBlock E maxorphanblocks a block s = .error e s' →
      (e.returnsFalse = true ∨ StopsAccept E e ∨ checkArrival E a s block = .error e) ∧
      (¬ Tears E a block s → s'.Inv E link maxorphanblocks) := by
  rcases processBlock_cases E maxorphanblocks a block s with ⟨e, hcheck, h⟩ | ⟨block', hcheck, h⟩
  · rw [h]
    refine ⟨fun p s' h => (nomatch h), fun e' s' h => ?_⟩
    cases h
    exact ⟨.inr (.inr hcheck), fun _ => hi⟩
  · obtain ⟨hworld, hnew, vchBlockSig, hsig⟩ := checkArrival_spec hcheck
    have hhash : block'.getHash E = block.getHash E := by
      rw [hsig]
      rfl
    have hprev : link (block.getHash E) block'.hashPrevBlock := by
      rw [hsig]
      exact hlink
    rcases h with ⟨h, -⟩ | ⟨-, -, h⟩ | ⟨-, h⟩
    · rw [h]
      refine ⟨fun p s' h => ?_, fun e s' h => (nomatch h)⟩
      cases h
      exact hi
    · rw [h]
      rcases keepOrphan_spec (a := a) hi hacyclic hhash hprev hworld hnew with ⟨e, he,
        h'⟩ | ⟨p, s', h', hi'⟩
      · rw [h']
        refine ⟨fun p s' h => (nomatch h), fun e' s' h => ?_⟩
        cases h
        exact ⟨.inl he, fun _ => hi⟩
      · rw [h']
        refine ⟨fun p s' h => ?_, fun e s' h => (nomatch h)⟩
        cases h
        exact hi'
    · rw [h]
      obtain ⟨hok, herr⟩ := acceptArrived_spec (a := a) hi hhash hnew
      refine ⟨hok, fun e s' h => ?_⟩
      obtain ⟨hstop, hkeeps⟩ := herr e s' h
      refine ⟨hstop.imp_right .inl, fun hno => hkeeps fun w hw htear => hno ?_⟩
      exact ⟨block', w, hcheck, hw, htear⟩

/-! ### Runs -/

/-- One of the blocks has the hash `h` and the parent `p`. -/
def ParentOf (E : Env) (blocks : Set CBlock) (h p : Uint256) : Prop :=
  ∃ block ∈ blocks, block.getHash E = h ∧ block.hashPrevBlock = p

/-- The states a node goes through from a state without orphans on, by calls of `ProcessBlock` that
meet the condition `C`; a call returns, with `true` or `false`, or an exception leaves it. -/
inductive OrphanRun (E : Env) (maxorphanblocks : ℤ) (C : Arrival → CBlock → OrphanNode → Prop) :
    OrphanNode → Prop
  | start (w : World) : OrphanRun E maxorphanblocks C ⟨w, .empty⟩
  | accepted {s s' : OrphanNode} {a : Arrival} {block : CBlock} {p : Processed} :
      OrphanRun E maxorphanblocks C s → C a block s →
      processBlock E maxorphanblocks a block s = .ok p s' → OrphanRun E maxorphanblocks C s'
  | failed {s s' : OrphanNode} {a : Arrival} {block : CBlock} {e : Stop} :
      OrphanRun E maxorphanblocks C s → C a block s →
      processBlock E maxorphanblocks a block s = .error e s' → e.survives = true →
      OrphanRun E maxorphanblocks C s'

/-- A run in which the calls are for some of the `blocks` and tear nothing. -/
abbrev WholeRun (E : Env) (maxorphanblocks : ℤ) (blocks : Set CBlock) : OrphanNode → Prop :=
  OrphanRun E maxorphanblocks fun a block s => block ∈ blocks ∧ ¬ Tears E a block s

theorem WholeRun.inv {blocks : Set CBlock} (hacyclic : ∀ h, ¬ TransGen (ParentOf E blocks) h h)
    (h : WholeRun E maxorphanblocks blocks s) : s.Inv E (ParentOf E blocks) maxorphanblocks := by
  induction h with
  | start w =>
    refine ⟨⟨OrphanStore.Holds.nil, ?_, ?_, ?_⟩, zero_le _⟩ <;>
    · intro hash r hr
      simp [OrphanStore.empty] at hr
  | accepted _ hb h ih => exact (processBlock_spec ih hacyclic ⟨_, hb.1, rfl, rfl⟩).1 _ _ h
  | failed _ hb h _ ih => exact ((processBlock_spec ih hacyclic ⟨_, hb.1, rfl, rfl⟩).2 _ _ h).2 hb.2

/-- **The orphan blocks.**  If no block is its own ancestor, after every sequence of calls of
`ProcessBlock` that tear nothing the two maps hold the same records, under the hash of the block and
under the hash of its parent; no block of a record is in the index; there is at most one record more
than `-maxorphanblocks`. `PruneOrphanBlocks` then removes a record on which no other depends, if
there are too many, and the loops of the next call end. -/
theorem orphanStore_invariant {E : Env} {maxorphanblocks : ℤ} {blocks : Set CBlock} {s : OrphanNode}
    (hacyclic : ∀ h, ¬ TransGen (ParentOf E blocks) h h)
    (h : WholeRun E maxorphanblocks blocks s) :
    OrphanStore.Holds s.orphans.mapOrphanBlocks s.orphans.mapOrphanBlocksByPrev ∧
    (∀ x, x ∈ s.orphans.mapOrphanBlocksByPrev ↔
      x.1 = x.2.hashPrev ∧ s.orphans.mapOrphanBlocks.lookup x.2.hashBlock = some x.2) ∧
    (∀ hash r, s.orphans.mapOrphanBlocks.lookup hash = some r →
      r.hashBlock = hash ∧ r.vchBlock.getHash E = hash ∧ s.world.mapBlockIndex.lookup hash = none) ∧
    s.orphans.mapOrphanBlocks.entries.length = s.orphans.mapOrphanBlocksByPrev.length ∧
    (s.orphans.mapOrphanBlocksByPrev.length : ℤ) ≤ max 0 maxorphanblocks + 1 ∧
    (∀ rand, (s.orphans.mapOrphanBlocksByPrev.length : ℤ) ≤ max 0 maxorphanblocks ∧
        s.orphans.pruneOrphanBlocks maxorphanblocks rand = some s.orphans ∨
      ∃ r, s.orphans.mapOrphanBlocks.lookup r.hashBlock = some r ∧
        s.orphans.pruneOrphanBlocks maxorphanblocks rand = some (s.orphans.remove r.byPrev) ∧
        ∀ hash r', s.orphans.mapOrphanBlocks.lookup hash = some r' → r'.hashPrev ≠ r.hashBlock) ∧
    (∀ hash, (s.orphans.getOrphanRoot hash).isSome) ∧ (∀ r, (s.orphans.wantedByOrphan r).isSome) ∧
    ∀ a block e s', block ∈ blocks → processBlock E maxorphanblocks a block s = .error e s' →
      e.returnsFalse = true ∨ StopsAccept E e ∨ checkArrival E a s block = .error e := by
  have hi := h.inv hacyclic
  have hlimit := hi.limit
  unfold orphanLimit at hlimit
  refine ⟨hi.orphans.holds, fun x => hi.orphans.holds.mem_iff, ?_, hi.orphans.holds.length_eq,
    by omega, ?_, ?_, ?_, ?_⟩
  · intro hash r hr
    exact ⟨hi.orphans.holds.key hash r hr, hi.orphans.block hash r hr, hi.orphans.fresh hash r hr⟩
  · intro rand
    rcases OrphanStore.pruneOrphanBlocks_spec hi.orphans.holds hi.orphans.linked hacyclic
      maxorphanblocks rand with ⟨hfew, hprune⟩ | ⟨-, r, hr, hprune, hlast⟩
    · exact .inl ⟨by omega, hprune⟩
    · exact .inr ⟨r, (hi.orphans.holds.mem_iff.1 hr).2, hprune, hlast⟩
  · intro hash
    obtain ⟨root, hroot⟩ := OrphanStore.getOrphanRoot_isSome hi.orphans.linked hacyclic hash
    rw [hroot]
    rfl
  · intro r
    obtain ⟨wanted, hwanted⟩ := OrphanStore.wantedByOrphan_isSome hi.orphans.linked hacyclic r
    rw [hwanted]
    rfl
  · intro a block e s' hb he
    exact ((processBlock_spec hi hacyclic ⟨block, hb, rfl, rfl⟩).2 e s' he).1

/-! ### Two orphans -/

namespace Simnet

/-- A block arrives from a peer. -/
def arrival : Arrival where
  ctx _ := context false false
  pfrom := some 70000
  fReindex := false
  fImporting := false
  checkpointTime := 0
  isDERSignature _ := true
  isLowDERSignature _ := true
  ensureLowS := some
  insecureRand := 0
  isInitialBlockDownload := false

/-- A node that knows the genesis block only. -/
def loneNode : OrphanNode := ⟨{ emptyWorld with
  mapBlockIndex := AList.insert (hash 0) (newIndexEntry env (context false false) emptyWorld
    (Shape.block ⟨0, 1⟩ 0) 1 8 0 one_lt_uintMax (0, false)) ∅
  pindexBest := some (hash 0) }, .empty⟩

/-- The blocks of height 4 and 3 of the main chain, as orphans. -/
def orphan8 : COrphanBlock := ⟨hash 8, hash 6, (.null, 0), Shape.block ⟨0, 1⟩ 8⟩
def orphan6 : COrphanBlock := ⟨hash 6, hash 4, (.null, 0), Shape.block ⟨0, 1⟩ 6⟩

/-- The node has kept the first, and then the second. -/
def oneOrphan : OrphanNode := ⟨loneNode.world, OrphanStore.empty.insert orphan8 false⟩
def twoOrphans : OrphanNode := ⟨loneNode.world, oneOrphan.orphans.insert orphan6 false⟩

theorem process_8 : processBlock env 1 arrival (Shape.block ⟨0, 1⟩ 8) loneNode =
    .ok (.orphan (hash 8) (some (hash 6))) oneOrphan := by
  rfl

theorem process_6 : processBlock env 1 arrival (Shape.block ⟨0, 1⟩ 6) oneOrphan =
    .ok (.orphan (hash 6) (some (hash 4))) twoOrphans := by
  rfl

/-- The two blocks. -/
def lateBlocks : Set CBlock := {Shape.block ⟨0, 1⟩ 8, Shape.block ⟨0, 1⟩ 6}

theorem run_twoOrphans : WholeRun env 1 lateBlocks twoOrphans := by
  refine .accepted (.accepted (.start loneNode.world) ⟨.inl rfl, ?_⟩ process_8) ⟨.inr rfl, ?_⟩
    process_6
  · exact not_tears_of_orphan rfl
  · exact not_tears_of_orphan rfl

theorem lateBlocks_acyclic (h : Uint256) : ¬ TransGen (ParentOf env lateBlocks) h h := by
  -- a parent has the smaller hash
  have hlt : ∀ a b, TransGen (ParentOf env lateBlocks) a b → b.toNat < a.toNat := by
    intro a b hab
    induction hab with
    | single hab =>
      obtain ⟨block, rfl | rfl, rfl, rfl⟩ := hab <;> decide
    | tail _ hbc ih =>
      refine lt_trans ?_ ih
      obtain ⟨block, rfl | rfl, rfl, rfl⟩ := hbc <;> decide
  intro hh
  exact lt_irrefl _ (hlt h h hh)

end Simnet

open Simnet

theorem orphanStore_invariant_twoOrphans : WholeRun env 1 lateBlocks twoOrphans ∧
      ∃ r, twoOrphans.orphans.mapOrphanBlocks.lookup r.hashBlock = some r ∧
        twoOrphans.orphans.pruneOrphanBlocks 1 0 = some (twoOrphans.orphans.remove r.byPrev) ∧
        ∀ hash r', twoOrphans.orphans.mapOrphanBlocks.lookup hash = some r' →
          r'.hashPrev ≠ r.hashBlock := by
  obtain ⟨-, -, -, -, -, hprune, -⟩ :=
    orphanStore_invariant lateBlocks_acyclic run_twoOrphans
  refine ⟨run_twoOrphans, ?_⟩
  rcases hprune 0 with ⟨hfew, -⟩ | h
  · exact absurd hfew (by decide)
  · exact h

/-! ### Torn maps -/

namespace Simnet

/-- The node has been started. -/
def startedNode : OrphanNode :=
  ⟨finalState (loadGenesis env (context false false) (Shape.block ⟨0, 1⟩ 0) emptyWorld), .empty⟩

/-- Two children of the block of height 1, the first of them of an old version. -/
def oldSibling : CBlock := { Shape.block ⟨0, 1⟩ 4 with nVersion := 6 }
def sibling : CBlock := { Shape.block ⟨0, 1⟩ 4 with nTime := 6 }

/-- `GetNextTargetRequired` divides by zero on top of the block of height 1. -/
def stuckContext : Ctx := { context false false with
  getNextTargetRequired := fun p _ =>
    if p = hash 2 then .error (.exception "CBigNum::operator/ : BN_div failed")
    else .ok 0x207fffff }

def stuckArrival : Arrival := { arrival with ctx := fun _ => stuckContext }

/-- The two children and their parent. -/
def tornBlocks : List CBlock := [oldSibling, sibling, Shape.block ⟨0, 1⟩ 2]

/-- The node after each of the three calls. -/
def oldKept : OrphanNode := finalState (processBlock env 750 stuckArrival oldSibling startedNode)
def bothKept : OrphanNode := finalState (processBlock env 750 stuckArrival sibling oldKept)
def torn : OrphanNode :=
  finalState (processBlock env 750 stuckArrival (Shape.block ⟨0, 1⟩ 2) bothKept)

theorem tornBlocks_acyclic (h : Uint256) : ¬ TransGen (ParentOf env {b | b ∈ tornBlocks}) h h := by
  -- a parent has the smaller hash
  have hlt : ∀ a b, TransGen (ParentOf env {b | b ∈ tornBlocks}) a b → b.toNat < a.toNat := by
    have hstep : ∀ block ∈ tornBlocks, block.hashPrevBlock.toNat < (block.getHash env).toNat := by
      decide
    intro a b hab
    induction hab with
    | single hab =>
      obtain ⟨block, hb, rfl, rfl⟩ := hab
      exact hstep block hb
    | tail _ hbc ih =>
      obtain ⟨block, hb, rfl, rfl⟩ := hbc
      exact lt_trans (hstep block hb) ih
  exact fun hh => lt_irrefl _ (hlt h h hh)

end Simnet

/-- The call does not end the node. -/
def Continues (x : EStateM.Result Stop OrphanNode Processed) : Bool :=
  match x with
  | .ok _ _ => true
  | .error e _ => e.survives

theorem OrphanRun.call {C : Arrival → CBlock → OrphanNode → Prop} (a : Arrival) (block : CBlock)
    (h : OrphanRun E maxorphanblocks C s) (hC : C a block s)
    (hs : Continues (processBlock E maxorphanblocks a block s) = true) :
    OrphanRun E maxorphanblocks C (finalState (processBlock E maxorphanblocks a block s)) := by
  cases hx : processBlock E maxorphanblocks a block s with
  | ok p s' => exact h.accepted hC hx
  | error e s' =>
    rw [hx] at hs
    exact h.failed hC hx hs

/-- **An exception tears the maps.**  Two orphans wait for one parent. When it arrives, the first of
them is refused and leaves `mapOrphanBlocks`; an exception leaves `AcceptBlock` of the second, and
`mapOrphanBlocksByPrev` still holds the record of the first. -/
theorem orphanStore_torn : (∀ h, ¬ TransGen (ParentOf env {b | b ∈ tornBlocks}) h h) ∧
    ∃ s, OrphanRun env 750 (fun _ block _ => block ∈ tornBlocks) s ∧
      ∃ x ∈ s.orphans.mapOrphanBlocksByPrev,
        s.orphans.mapOrphanBlocks.lookup x.2.hashBlock = none := by
  have h1 : OrphanRun env 750 (fun _ block _ => block ∈ tornBlocks) oldKept :=
    OrphanRun.call stuckArrival oldSibling (.start _) mem_cons_self
      (by decide +kernel)
  have h2 : OrphanRun env 750 (fun _ block _ => block ∈ tornBlocks) bothKept :=
    h1.call stuckArrival sibling (mem_cons_of_mem _ mem_cons_self)
      (by decide +kernel)
  have h3 : OrphanRun env 750 (fun _ block _ => block ∈ tornBlocks) torn :=
    h2.call stuckArrival (Shape.block ⟨0, 1⟩ 2)
      (mem_cons_of_mem _ (mem_cons_of_mem _ mem_cons_self)) (by decide +kernel)
  have hany : torn.orphans.mapOrphanBlocksByPrev.any (fun x =>
      (torn.orphans.mapOrphanBlocks.lookup x.2.hashBlock).isNone) = true := by
    decide +kernel
  exact ⟨tornBlocks_acyclic, torn, h3, by simpa only [any_eq_true,
    Option.isNone_iff_eq_none] using hany⟩

end Espers
