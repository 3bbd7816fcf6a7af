import Espers.Lib.SeenKeys
import Espers.Net.ProcessBlock

/-!
# The stakes of the orphan blocks

`setStakeSeenOrphan` keeps the stakes of the proof-of-stake blocks among the orphans, so that no
second orphan is kept for a stake; only a block that an orphan waits for may repeat one.  The set
does not count: the stake of two orphans leaves it with the first of them.

* `OrphanStore.StakesExact` : a stake is in the set exactly when an orphan carries it.
* `orphanStakes_exact` : **the set is exact as long as no block is kept that repeats the stake of an
  orphan** and no exception tears the maps of the orphans; after such a block the removal of either
  of the two makes it forget the other.
-/

namespace Espers

open Exec SeenKeys AList List Set

namespace OrphanStore

/-- A proof-of-stake block stored in `mapOrphanBlocks` carries the stake. -/
def Carried (o : OrphanStore) (stake : COutPoint × ℕ) : Prop :=
  ∃ hash r, o.mapOrphanBlocks.lookup hash = some r ∧ r.vchBlock.isProofOfStake = true ∧
    r.vchBlock.getProofOfStake = stake

/-- The stakes in `setStakeSeenOrphan` are those of the stored proof-of-stake blocks. -/
def StakesExact (o : OrphanStore) : Prop := ∀ stake, stake ∈ o.setStakeSeenOrphan ↔ o.Carried stake

end OrphanStore

/-! ### Stored records and their stakes -/

theorem CTransaction.isCoinStake_prevout {tx : CTransaction} {txin : CTxIn} {vin : List CTxIn}
    (hvin : tx.vin = txin :: vin) (h : tx.isCoinStake = true) : txin.prevout ≠ .null := by
  intro hnull
  have hisNull : txin.prevout.isNull = true := by
    rw [hnull]
    rfl
  unfold CTransaction.isCoinStake at h
  rw [hvin] at h
  rcases hvout : tx.vout with _ | ⟨_, _ | _⟩ <;> rw [hvout] at h <;> simp [hisNull] at h

theorem CBlock.getProofOfStake_eq_null_iff {block : CBlock} :
    block.getProofOfStake = (.null, 0) ↔ block.isProofOfStake = false := by
  unfold CBlock.getProofOfStake CBlock.isProofOfStake
  rcases block.vtx with _ | ⟨_, _ | ⟨tx, _⟩⟩
  · simp
  · simp
  · cases hvin : tx.vin with
    | nil => simp [CTransaction.isCoinStake, hvin]
    | cons txin vin =>
      by_cases hstake : tx.isCoinStake = true
      · have hnull := CTransaction.isCoinStake_prevout hvin hstake
        simp [hvin, hnull]
      · simp [hstake, hvin]

/-- The stake of a record, if its block is a proof-of-stake block. -/
def COrphanBlock.key (r : COrphanBlock) : Option (COutPoint × ℕ) :=
  if r.vchBlock.isProofOfStake then some r.vchBlock.getProofOfStake else none

theorem COrphanBlock.key_eq_some {r : COrphanBlock} {stake : COutPoint × ℕ} :
    r.key = some stake ↔ r.vchBlock.isProofOfStake = true ∧ r.vchBlock.getProofOfStake = stake := by
  unfold key
  split_ifs with h <;> simp [h]

theorem COrphanBlock.key_mark (r : COrphanBlock) : r.key = some r.vchBlock.getProofOfStake ∨
      r.key = none ∧ ∀ r' : COrphanBlock, r'.key ≠ some r.vchBlock.getProofOfStake := by
  cases h : r.vchBlock.isProofOfStake with
  | true => exact .inl (key_eq_some.2 ⟨h, rfl⟩)
  | false =>
    refine .inr ⟨by simp [key, h], fun r' hr' => ?_⟩
    rw [CBlock.getProofOfStake_eq_null_iff.2 h] at hr'
    obtain ⟨hpos, hnull⟩ := key_eq_some.1 hr'
    rw [CBlock.getProofOfStake_eq_null_iff.1 hnull] at hpos
    cases hpos

/-- The records of a map, each under its own hash. -/
def recordsOf (m : AList fun _ : Uint256 => COrphanBlock) : Set COrphanBlock :=
  {r | m.lookup r.hashBlock = some r}

variable {E : Env} {link : Uint256 → Uint256 → Prop} {w w' : World} {block block' : CBlock}
  {m : AList fun _ : Uint256 => COrphanBlock} {l l' : List (Uint256 × COrphanBlock)}
  {r : COrphanBlock} {seen : List (COutPoint × ℕ)} {a : Arrival} {maxorphanblocks : ℤ}
  {s s' : OrphanNode} {o o' : OrphanStore} {hash : Uint256} {p : Processed} {e : Stop}

theorem mem_recordsOf : r ∈ recordsOf m ↔ m.lookup r.hashBlock = some r := Iff.rfl

theorem recordsOf_erase (hr : r ∈ recordsOf m) : recordsOf (m.erase r.hashBlock) =
    recordsOf m \ {r} := by
  ext r'
  by_cases heq : r'.hashBlock = r.hashBlock
  · have hnone : (m.erase r.hashBlock).lookup r'.hashBlock = none := by
      rw [← heq]
      exact lookup_erase _ _
    constructor
    · intro h
      rw [mem_recordsOf, hnone] at h
      cases h
    · rintro ⟨h, hne⟩
      rw [mem_recordsOf, heq, hr] at h
      exact absurd (Option.some.inj h).symm hne
  · rw [mem_recordsOf, lookup_erase_ne heq, ← mem_recordsOf]
    refine ⟨fun h => ⟨h, ?_⟩, And.left⟩
    rintro rfl
    exact heq rfl

theorem recordsOf_insert (hr : m.lookup r.hashBlock = none) :
    recordsOf (m.insert r.hashBlock r) = insert r (recordsOf m) := by
  ext r'
  rw [mem_insert_iff]
  by_cases heq : r'.hashBlock = r.hashBlock
  · have hsome : (m.insert r.hashBlock r).lookup r'.hashBlock = some r :=
      heq ▸ lookup_insert m
    have hnone : m.lookup r'.hashBlock = none := heq ▸ hr
    rw [mem_recordsOf, mem_recordsOf, hsome, hnone]
    simp [eq_comm]
  · rw [mem_recordsOf, lookup_insert_ne heq, ← mem_recordsOf]
    refine ⟨.inr, ?_⟩
    rintro (rfl | h)
    · exact absurd rfl heq
    · exact h

theorem carried_iff (hholds : OrphanStore.Holds o.mapOrphanBlocks l) {stake : COutPoint × ℕ} :
    o.Carried stake ↔ ∃ r ∈ recordsOf o.mapOrphanBlocks, r.key = some stake := by
  constructor
  · rintro ⟨hash, r, hr, hstake⟩
    obtain rfl := hholds.key hash r hr
    exact ⟨r, hr, COrphanBlock.key_eq_some.2 hstake⟩
  · rintro ⟨r, hr, hstake⟩
    exact ⟨_, r, hr, COrphanBlock.key_eq_some.1 hstake⟩

theorem stakesExact_iff (hholds : OrphanStore.Holds o.mapOrphanBlocks l) : o.StakesExact ↔
      Exact COrphanBlock.key (recordsOf o.mapOrphanBlocks) {stake | stake ∈ o.setStakeSeenOrphan} :=
  forall_congr' fun _ => iff_congr Iff.rfl (carried_iff hholds)

/-! ### What the operations of the store keep -/

/-- Each record has the stake of its block, and the set holds these stakes, each of one record. -/
structure StakeInv (m : AList fun _ : Uint256 => COrphanBlock) (seen : List (COutPoint × ℕ)) :
    Prop where
  stake : ∀ hash r, m.lookup hash = some r → r.stake = r.vchBlock.getProofOfStake
  sound : Sound COrphanBlock.key (recordsOf m) {stake | stake ∈ seen}

namespace StakeInv

theorem empty : StakeInv ∅ [] := by
  refine ⟨by simp, ?_⟩
  have hempty : recordsOf ∅ = ∅ := eq_empty_of_forall_notMem fun r hr => by
    cases hr
  rw [hempty, show {stake : COutPoint × ℕ | stake ∈ []} = ∅ by simp]
  exact .empty

theorem setOf_filter (stake : COutPoint × ℕ) :
    {k | k ∈ seen.filter (· ≠ stake)} = {k | k ∈ seen} \ {stake} := by
  ext k
  simp

theorem setOf_insert (hstake : r.stake = r.vchBlock.getProofOfStake) :
    {k | k ∈ if r.vchBlock.isProofOfStake then r.stake :: seen else seen} =
      {k | r.key = some k} ∪ {k | k ∈ seen} := by
  ext k
  rw [hstake, COrphanBlock.key]
  split_ifs <;> simp [eq_comm]

theorem erase (h : StakeInv m seen) (hr : r ∈ recordsOf m) :
    StakeInv (m.erase r.hashBlock) (seen.filter (· ≠ r.vchBlock.getProofOfStake)) := by
  constructor
  · exact fun hash r' hr' => h.stake hash r' (Store.lookup_of_erase hr')
  · rw [setOf_filter, recordsOf_erase hr]
    refine h.sound.remove hr ?_
    exact r.key_mark.imp_right fun hmark => ⟨hmark.1, fun r' _ => hmark.2 r'⟩

theorem insert (h : StakeInv m seen) (hnew : m.lookup r.hashBlock = none)
    (hstake : r.stake = r.vchBlock.getProofOfStake)
    (hfresh : ∀ stake, r.key = some stake → stake ∉ seen) : StakeInv (m.insert r.hashBlock r)
    (if r.vchBlock.isProofOfStake then r.stake :: seen else seen) := by
  constructor
  · intro hash r' hr'
    by_cases heq : hash = r.hashBlock
    · subst heq
      rw [lookup_insert] at hr'
      cases hr'
      exact hstake
    · rw [lookup_insert_ne heq] at hr'
      exact h.stake hash r' hr'
  · rw [setOf_insert hstake, recordsOf_insert hnew]
    exact h.sound.insert hfresh

end StakeInv

/-! ### What a call keeps -/

theorem acceptOrphans_stakes {range : List (Uint256 × COrphanBlock)} {accepted : List Uint256}
    (hi : OrphanInv E link s.world s.orphans.mapOrphanBlocks (range ++ l))
    (hs : StakeInv s.orphans.mapOrphanBlocks s.orphans.setStakeSeenOrphan)
    (h : acceptOrphans E a range s = .ok accepted s') :
    StakeInv s'.orphans.mapOrphanBlocks s'.orphans.setStakeSeenOrphan := by
  induction range generalizing s accepted with
  | nil =>
    cases h
    exact hs
  | cons mi range ih =>
    obtain ⟨ok, w1, later, haccept, h3, rfl⟩ := acceptOrphans_cons_eq_ok h
    have hmi := (hi.holds.mem_iff.1 (mem_append_left l mem_cons_self)).2
    have hw := returned_acceptBlock haccept
    rw [hi.block _ _ hmi] at hw
    exact ih (hi.consume hw) (hs.erase hmi) h3

theorem workQueue_stakes {fuel : ℕ} {q : List Uint256} {ended : Bool}
    (hi : OrphanInv E link s.world s.orphans.mapOrphanBlocks s.orphans.mapOrphanBlocksByPrev)
    (hs : StakeInv s.orphans.mapOrphanBlocks s.orphans.setStakeSeenOrphan)
    (h : workQueue E a fuel q s = .ok ended s') :
    StakeInv s'.orphans.mapOrphanBlocks s'.orphans.setStakeSeenOrphan := by
  induction fuel generalizing q s with
  | zero => cases q <;> cases h <;> exact hs
  | succ fuel ih =>
    cases q with
    | nil =>
      cases h
      exact hs
    | cons hashPrev q =>
      obtain ⟨accepted, s1, h2, hrest⟩ := workQueue_cons_eq_ok h
      have hi' := hi.split hashPrev
      obtain ⟨h4, h5, -⟩ := acceptOrphans_spec hi' h2
      rw [← h5] at h4
      have hs' := acceptOrphans_stakes hi' hs h2
      refine ih ?_ ?_ hrest
      · exact h4
      · exact hs'

/-- An orphan is refused, or kept beside what `PruneOrphanBlocks` leaves, if the loops end. -/
theorem keepOrphan_cases (maxorphanblocks : ℤ) (a : Arrival) (hash : Uint256) (block : CBlock)
    (s : OrphanNode) :
    (∃ e, keepOrphan maxorphanblocks a hash block s = .error e s) ∨
    (∃ e s', e.survives = false ∧ keepOrphan maxorphanblocks a hash block s = .error e s') ∨
    ∃ o p, (block.isProofOfStake = true → block.getProofOfStake ∈ s.orphans.setStakeSeenOrphan →
        (s.orphans.mapOrphanBlocksByPrev.any fun mi => mi.1 = hash) = true) ∧
      s.orphans.pruneOrphanBlocks maxorphanblocks a.insecureRand = some o ∧
      keepOrphan maxorphanblocks a hash block s =
        .ok p ⟨s.world, o.insert ⟨hash, block.hashPrevBlock, block.getProofOfStake, block⟩
          block.isProofOfStake⟩ := by
  unfold keepOrphan
  rw [get_bind_apply]
  by_cases hdup : block.isProofOfStake ∧ block.getProofOfStake ∈ s.orphans.setStakeSeenOrphan ∧
      ¬ s.orphans.mapOrphanBlocksByPrev.any fun mi => mi.1 = hash
  · rw [rejectIf, if_pos hdup]
    exact .inl ⟨_, rfl⟩
  rw [rejectIf, if_neg hdup]
  have hwaits : block.isProofOfStake = true → block.getProofOfStake ∈ s.orphans.setStakeSeenOrphan →
      (s.orphans.mapOrphanBlocksByPrev.any fun mi => mi.1 = hash) = true := fun hpos hseen =>
    by_contra fun hno => hdup ⟨hpos, hseen, hno⟩
  cases hprune : s.orphans.pruneOrphanBlocks maxorphanblocks a.insecureRand with
  | none => exact .inr (.inl ⟨_, _, rfl, rfl⟩)
  | some o =>
    set r : COrphanBlock := ⟨hash, block.hashPrevBlock, block.getProofOfStake, block⟩
    simp only [bind_apply]
    -- what is asked from the peer leaves the state alone
    cases hroot : (o.insert r block.isProofOfStake).getOrphanRoot hash with
    | none => exact .inr (.inl ⟨_, _, rfl, rfl⟩)
    | some root =>
      by_cases hinitial : a.isInitialBlockDownload = true
      · simp only [hinitial]
        exact .inr (.inr ⟨o, _, hwaits, rfl, rfl⟩)
      · simp only [hinitial]
        cases hwanted : (o.insert r block.isProofOfStake).wantedByOrphan r with
        | none => exact .inr (.inl ⟨_, _, rfl, rfl⟩)
        | some wanted => exact .inr (.inr ⟨o, _, hwaits, rfl, rfl⟩)

theorem pruneOrphanBlocks_stakes {rand : ℕ}
    (hi : OrphanInv E link w o.mapOrphanBlocks o.mapOrphanBlocksByPrev)
    (hs : StakeInv o.mapOrphanBlocks o.setStakeSeenOrphan)
    (h : o.pruneOrphanBlocks maxorphanblocks rand = some o') :
    OrphanInv E link w o'.mapOrphanBlocks o'.mapOrphanBlocksByPrev ∧
      StakeInv o'.mapOrphanBlocks o'.setStakeSeenOrphan ∧
      (∀ hash, o.mapOrphanBlocks.lookup hash = none → o'.mapOrphanBlocks.lookup hash = none) ∧
      ∀ stake, o'.Carried stake → o.Carried stake := by
  rcases OrphanStore.pruneOrphanBlocks_cases hi.holds h with rfl | ⟨r, hr, rfl⟩
  · exact ⟨hi, hs, fun _ hn => hn, fun _ hc => hc⟩
  · have hmem : r ∈ recordsOf o.mapOrphanBlocks := (hi.holds.mem_iff.1 hr).2
    refine ⟨hi.erase (perm_cons_erase hr), ?_, ?_, ?_⟩
    · have herase := hs.erase hmem
      rw [← hs.stake _ r hmem] at herase
      exact herase
    · exact fun hash hn => Store.lookup_erase_none hn _
    · rintro stake ⟨hash, r', hr', hstake⟩
      exact ⟨hash, r', Store.lookup_of_erase hr', hstake⟩

/-- What holds between two calls. -/
structure OrphanNode.Stakes (E : Env) (s : OrphanNode) : Prop where
  orphans : OrphanInv E (fun _ _ => True) s.world s.orphans.mapOrphanBlocks
    s.orphans.mapOrphanBlocksByPrev
  stakes : StakeInv s.orphans.mapOrphanBlocks s.orphans.setStakeSeenOrphan

/-- The call keeps a proof-of-stake block, as an orphan waits for it, that repeats the stake of an
orphan left by `PruneOrphanBlocks`. -/
def RepeatsStake (E : Env) (maxorphanblocks : ℤ) (a : Arrival) (block : CBlock) (s : OrphanNode) :
    Prop :=
  (∃ block', checkArrival E a s block = .ok block') ∧ block.isProofOfStake = true ∧
    a.pfrom.isSome = true ∧ s.world.mapBlockIndex.lookup block.hashPrevBlock = none ∧
    (s.orphans.mapOrphanBlocksByPrev.any fun mi => mi.1 = block.getHash E) = true ∧
    ∃ o, s.orphans.pruneOrphanBlocks maxorphanblocks a.insecureRand = some o ∧
      o.Carried block.getProofOfStake

namespace OrphanNode.Stakes

theorem exact (h : s.Stakes E) : s.orphans.StakesExact :=
  (stakesExact_iff h.orphans.holds).2 h.stakes.sound.exact

theorem keep (h : s.Stakes E) (hhash : block.getHash E = hash)
    (hworld : s.world.mapBlockIndex.lookup hash = none)
    (hnew : s.orphans.mapOrphanBlocks.lookup hash = none)
    (ho : s.orphans.pruneOrphanBlocks maxorphanblocks a.insecureRand = some o)
    (hfresh : block.isProofOfStake = true → ¬ o.Carried block.getProofOfStake) :
    Stakes E ⟨s.world, o.insert ⟨hash, block.hashPrevBlock, block.getProofOfStake, block⟩
      block.isProofOfStake⟩ := by
  obtain ⟨hi, hs, hleft, -⟩ := pruneOrphanBlocks_stakes h.orphans h.stakes ho
  refine ⟨hi.insert (hleft hash hnew) hhash trivial hworld, ?_⟩
  refine hs.insert (hleft hash hnew) rfl fun stake hkey hseen => ?_
  obtain ⟨hpos, rfl⟩ := COrphanBlock.key_eq_some.1 hkey
  exact hfresh hpos ((carried_iff hi.holds).2 ((hs.sound.exact _).1 hseen))

theorem accept (h : s.Stakes E) (hhash : block.getHash E = hash)
    (hnew : s.orphans.mapOrphanBlocks.lookup hash = none)
    (hok : acceptArrived E a hash block s = .ok p s') : s'.Stakes E := by
  obtain ⟨_, s1, h1, h2⟩ := bind_eq_ok.1 hok
  obtain ⟨w1, h3, rfl⟩ := focus_eq_ok.1 h1
  have hw : IndexOnly hash s.world w1 := hhash ▸ acceptBlock_indexOnly.ok (mapError_eq_ok.1 h3)
  have hi1 := h.orphans.world hw hnew
  rw [get_bind_apply] at h2
  obtain ⟨ended, s2, h4, h5⟩ := bind_eq_ok.1 h2
  obtain ⟨h6, -, rfl⟩ := workQueue_spec hi1 (by simp; omega) h4
  have hs := workQueue_stakes (s := ⟨w1, s.orphans⟩) hi1 h.stakes h4
  cases h5
  exact ⟨h6, hs⟩

/-- One pass of the loop over `vWorkQueue`. -/
theorem round {s1 : OrphanNode} {hashPrev : Uint256} {accepted : List Uint256} (h : s.Stakes E)
    (hok : acceptOrphans E a (s.orphans.mapOrphanBlocksByPrev.filter fun mi => mi.1 = hashPrev) s =
      .ok accepted s1) :
    Stakes E { s1 with orphans := { s1.orphans with
      mapOrphanBlocksByPrev := s1.orphans.mapOrphanBlocksByPrev.filter fun mi =>
        ¬ mi.1 = hashPrev } } := by
  have hs := acceptOrphans_stakes (h.orphans.split hashPrev) h.stakes hok
  exact ⟨(acceptOrphans_round h.orphans hok).1, hs⟩

/-- An error that tears nothing leaves the stakes as they are. -/
theorem fail (h : s.Stakes E) (hhash : block.getHash E = hash)
    (hnew : s.orphans.mapOrphanBlocks.lookup hash = none)
    (herr : acceptArrived E a hash block s = .error e s')
    (hno : ∀ w, acceptBlock E (a.ctx hash) block s.world = .ok () w →
      ¬ TearsQueue E a (s.orphans.mapOrphanBlocksByPrev.length + 1) [hash] ⟨w, s.orphans⟩) :
    s'.Stakes E := by
  rcases bind_eq_error.1 herr with h1 | ⟨_, s1, h1, h2⟩
  · obtain ⟨w1, h3, rfl⟩ := focus_eq_error.1 h1
    obtain ⟨e', h4, -⟩ := mapError_eq_error.1 h3
    have hw : IndexOnly hash s.world w1 := hhash ▸ acceptBlock_indexOnly.error h4
    exact ⟨h.orphans.world hw hnew, h.stakes⟩
  · obtain ⟨w1, h3, rfl⟩ := focus_eq_ok.1 h1
    have hw : IndexOnly hash s.world w1 := hhash ▸ acceptBlock_indexOnly.ok (mapError_eq_ok.1 h3)
    have hi1 := h.orphans.world hw hnew
    have hs1 : Stakes E ⟨w1, s.orphans⟩ := ⟨hi1, h.stakes⟩
    rw [get_bind_apply] at h2
    rcases bind_eq_error.1 h2 with h4 | ⟨ended, s2, h4, h5⟩
    · obtain ⟨s2, mi, w', h6, hmi, hx, hnone, rfl⟩ := workQueue_throws (P := Stakes E)
        (fun _ _ _ _ => round) hs1 h4 (hno w1 (mapError_eq_ok.1 h3))
      exact ⟨h6.orphans.thrown hmi hx hnone, h6.stakes⟩
    · obtain ⟨-, -, rfl⟩ := workQueue_spec hi1 (by simp; omega) h4
      cases h5

/-- **A call of `ProcessBlock`** that repeats no stake and tears nothing keeps the set exact. -/
theorem call (h : s.Stakes E) (hno : ¬ RepeatsStake E maxorphanblocks a block s) :
    (∀ p s', processBlock E maxorphanblocks a block s = .ok p s' → s'.Stakes E) ∧
    ∀ e s', processBlock E maxorphanblocks a block s = .error e s' → e.survives = true →
      ¬ Tears E a block s → s'.Stakes E := by
  rcases processBlock_cases E maxorphanblocks a block s with ⟨e, -, hcall⟩ | ⟨block', hcheck, hcall⟩
  · rw [hcall]
    refine ⟨fun p s' h' => (nomatch h'), fun e' s' h' _ _ => ?_⟩
    cases h'
    exact h
  obtain ⟨hworld, hnew, vchBlockSig, hsig⟩ := checkArrival_spec hcheck
  have hhash : block'.getHash E = block.getHash E := by
    rw [hsig]
    rfl
  rcases hcall with ⟨hcall, -⟩ | ⟨hprev, hfrom, hcall⟩ | ⟨-, hcall⟩
  · rw [hcall]
    refine ⟨fun p s' h' => ?_, fun e s' h' => (nomatch h')⟩
    cases h'
    exact h
  · rw [hcall]
    rcases keepOrphan_cases maxorphanblocks a (block.getHash E) block' s with
      ⟨e, hkeep⟩ | ⟨e, t, hfalse, hkeep⟩ | ⟨o, p, hwaits, ho, hkeep⟩
    · rw [hkeep]
      refine ⟨fun p s' h' => (nomatch h'), fun e' s' h' _ _ => ?_⟩
      cases h'
      exact h
    · rw [hkeep]
      refine ⟨fun p s' h' => (nomatch h'), fun e' s' h' he _ => ?_⟩
      cases h'
      rw [hfalse] at he
      cases he
    · rw [hkeep]
      refine ⟨fun p' s' h' => ?_, fun e' s' h' => (nomatch h')⟩
      cases h'
      refine h.keep hhash hworld hnew ho fun hpos hcarried => hno ?_
      -- the stake is known, so the block has been let through for the orphan that waits for it
      obtain ⟨-, -, -, hleft⟩ := pruneOrphanBlocks_stakes h.orphans h.stakes ho
      have hany := hwaits hpos ((h.exact _).2 (hleft _ hcarried))
      -- the signature is no part of the stake
      rw [hsig] at hpos hcarried hprev
      exact ⟨⟨_, hcheck⟩, hpos, hfrom, hprev, hany, o, ho, hcarried⟩
  · rw [hcall]
    refine ⟨fun p s' h' => h.accept hhash hnew h', fun e s' h' _ hno => ?_⟩
    exact h.fail hhash hnew h' fun w hw htear => hno ⟨block', w, hcheck, hw, htear⟩

end OrphanNode.Stakes

/-! ### Repeated stakes -/

/-- **The removal of an orphan keeps the set exact only when no other orphan carries its stake.** -/
theorem stakesExact_remove_iff (hi : OrphanInv E link w o.mapOrphanBlocks o.mapOrphanBlocksByPrev)
    (hexact : o.StakesExact) (hr : r ∈ recordsOf o.mapOrphanBlocks) (hkey : r.key = some r.stake) :
    (o.remove r.byPrev).StakesExact ↔
      ∀ r' ∈ recordsOf o.mapOrphanBlocks, r'.key = some r.stake → r' = r := by
  have hmem : r.byPrev ∈ o.mapOrphanBlocksByPrev := hi.holds.mem_iff.2 ⟨rfl, hr⟩
  have hholds := (hi.erase (perm_cons_erase hmem)).holds
  rw [stakesExact_iff (o := o.remove r.byPrev) hholds]
  show Exact COrphanBlock.key (recordsOf (o.mapOrphanBlocks.erase r.hashBlock))
    {k | k ∈ o.setStakeSeenOrphan.filter (· ≠ r.stake)} ↔ _
  rw [StakeInv.setOf_filter, recordsOf_erase hr]
  exact ((stakesExact_iff hi.holds).1 hexact).remove_iff hkey

/-- A block that repeats a stake leaves two orphans of which neither can go. -/
theorem OrphanNode.Stakes.repeated (h : s.Stakes E)
    (hrep : RepeatsStake E maxorphanblocks a block s)
    (hok : processBlock E maxorphanblocks a block s = .ok p s') :
    ∃ r r', r ≠ r' ∧ r ∈ recordsOf s'.orphans.mapOrphanBlocks ∧
      r' ∈ recordsOf s'.orphans.mapOrphanBlocks ∧ ¬ (s'.orphans.remove r.byPrev).StakesExact ∧
      ¬ (s'.orphans.remove r'.byPrev).StakesExact := by
  obtain ⟨-, hpos, hfrom, hprev, -, o, ho, hcarried⟩ := hrep
  rcases processBlock_cases E maxorphanblocks a block s with ⟨e, -, hcall⟩ | ⟨block', hcheck, hcall⟩
  · rw [hcall] at hok
    cases hok
  obtain ⟨hworld, hnew, vchBlockSig, hsig⟩ := checkArrival_spec hcheck
  rcases hcall with ⟨-, hno⟩ | ⟨-, -, hcall⟩ | ⟨hparent, -⟩
  · rw [hfrom] at hno
    cases hno
  swap
  · rw [hsig] at hparent
    exact absurd hprev hparent
  rw [hcall] at hok
  rcases keepOrphan_cases maxorphanblocks a (block.getHash E) block' s with
    ⟨e, hkeep⟩ | ⟨e, t, -, hkeep⟩ | ⟨o', p', -, ho', hkeep⟩
  · rw [hkeep] at hok
    cases hok
  · rw [hkeep] at hok
    cases hok
  rw [hkeep] at hok
  cases hok
  obtain rfl : o = o' := Option.some.inj (ho.symm.trans ho')
  obtain ⟨hi, hs, hleft, -⟩ := pruneOrphanBlocks_stakes h.orphans h.stakes ho
  obtain ⟨r', hr', hkey'⟩ := (carried_iff hi.holds).1 hcarried
  set r : COrphanBlock :=
    ⟨block.getHash E, block'.hashPrevBlock, block'.getProofOfStake, block'⟩ with hr
  have hnone : o.mapOrphanBlocks.lookup r.hashBlock = none := hleft _ hnew
  have hpos' : block'.isProofOfStake = true := by
    rw [hsig]
    exact hpos
  have hhash : block'.getHash E = block.getHash E := by
    rw [hsig]
    rfl
  have hkey : r.key = some r.stake := COrphanBlock.key_eq_some.2 ⟨hpos', rfl⟩
  have hstake : r'.key = some r.stake := by
    rw [hkey', hr, hsig]
    rfl
  have hstake' : r'.stake = r.stake :=
    (hs.stake _ r' hr').trans (COrphanBlock.key_eq_some.1 hstake).2
  have hne : r ≠ r' := by
    rintro heq
    rw [heq, hr'] at hnone
    cases hnone
  -- both are stored, and the set is exact still
  have hi2 := hi.insert hnone hhash trivial hworld
  have hrecords := recordsOf_insert hnone
  have hmem : r ∈ recordsOf (o.mapOrphanBlocks.insert r.hashBlock r) :=
    hrecords ▸ mem_insert _ _
  have hmem' : r' ∈ recordsOf (o.mapOrphanBlocks.insert r.hashBlock r) :=
    hrecords ▸ mem_insert_of_mem _ hr'
  have hexact : (o.insert r block'.isProofOfStake).StakesExact := by
    rw [stakesExact_iff (o := o.insert r block'.isProofOfStake) hi2.holds]
    show Exact COrphanBlock.key (recordsOf (o.mapOrphanBlocks.insert r.hashBlock r))
      {k | k ∈ if r.vchBlock.isProofOfStake then r.stake :: o.setStakeSeenOrphan
        else o.setStakeSeenOrphan}
    rw [StakeInv.setOf_insert rfl, hrecords]
    exact hs.sound.exact.insert
  refine ⟨r, r', hne, hmem, hmem', ?_, ?_⟩
  · rw [stakesExact_remove_iff (o := o.insert r block'.isProofOfStake) hi2 hexact hmem hkey]
    exact fun h => hne (h r' hmem' hstake).symm
  · rw [stakesExact_remove_iff (o := o.insert r block'.isProofOfStake) hi2 hexact hmem'
      (hstake'.symm ▸ hstake)]
    exact fun h => hne (h r hmem (hstake'.symm ▸ hkey))

/-- A run whose calls tear nothing and repeat no stake of an orphan. -/
abbrev StakeRun (E : Env) (maxorphanblocks : ℤ) : OrphanNode → Prop :=
  OrphanRun E maxorphanblocks fun a block s =>
    ¬ Tears E a block s ∧ ¬ RepeatsStake E maxorphanblocks a block s

theorem StakeRun.stakes (h : StakeRun E maxorphanblocks s) : s.Stakes E := by
  induction h with
  | start w =>
    refine ⟨⟨.nil, ?_, ?_, ?_⟩, .empty⟩ <;>
    · intro hash r hr
      simp [OrphanStore.empty] at hr
  | accepted _ hno hok ih => exact (ih.call hno.2).1 _ _ hok
  | failed _ hno herr he ih => exact (ih.call hno.2).2 _ _ herr he hno.1

/-- **The stakes of the orphans.**  After every sequence of calls of `ProcessBlock` that tear
nothing and none of which keeps a block that repeats the stake of an orphan, a stake is in
`setStakeSeenOrphan` exactly when a proof-of-stake block in `mapOrphanBlocks` carries it. After a
call that keeps such a block two orphans share a stake, and the removal of either of them takes the
stake of the other away. -/
theorem orphanStakes_exact {E : Env} {maxorphanblocks : ℤ} {s : OrphanNode}
    (h : StakeRun E maxorphanblocks s) :
    s.orphans.StakesExact ∧
    ∀ a block p s', RepeatsStake E maxorphanblocks a block s →
      processBlock E maxorphanblocks a block s = .ok p s' →
      ∃ r r', r ≠ r' ∧ s'.orphans.mapOrphanBlocks.lookup r.hashBlock = some r ∧
        s'.orphans.mapOrphanBlocks.lookup r'.hashBlock = some r' ∧
        ¬ (s'.orphans.remove r.byPrev).StakesExact ∧ ¬ (s'.orphans.remove r'.byPrev).StakesExact :=
  ⟨h.stakes.exact, fun _ _ _ _ hrep hok => h.stakes.repeated hrep hok⟩

/-! ### A stake that is forgotten -/

namespace Simnet

/-- A coinbase for a proof-of-stake block, and the coinstake of all of them. -/
def emptyCoinbase : CTransaction := ⟨1, 2, [⟨.null, [1, 0], uintMax⟩], [⟨0, []⟩], 0⟩

def coinstake : CTransaction :=
  ⟨1, 3, [⟨⟨BitVec.ofNat 256 77, 0⟩, [], uintMax⟩], [⟨0, []⟩, ⟨1, [0x51]⟩], 0⟩

/-- A block with a given hash and parent. -/
def lateBlock (nTime : ℕ) (hashPrev : Uint256) (vtx : List CTransaction) : CBlock where
  nVersion := 7
  hashPrevBlock := hashPrev
  hashMerkleRoot := (merkleRows env vtx.length (vtx.map env.txHash) 0 vtx.length).getLastD 0
  nTime := nTime
  nBits := 0x207fffff
  nNonce := 0
  vtx := vtx
  vchBlockSig := []

/-- Two blocks with one stake, a child of the second, and one more. -/
def stakeA : CBlock := lateBlock 11 5 [emptyCoinbase, coinstake]
def stakeB : CBlock := lateBlock 12 30 [emptyCoinbase, coinstake]
def childB : CBlock := lateBlock 13 12 [coinbase 4]
def oneMore : CBlock := lateBlock 14 40 [coinbase 4]

def kept (block : CBlock) : COrphanBlock :=
  ⟨block.getHash env, block.hashPrevBlock, block.getProofOfStake, block⟩

/-- The orphans after each of the calls; the last one prunes the first orphan. -/
def keptA : OrphanNode := ⟨loneNode.world, OrphanStore.empty.insert (kept stakeA) true⟩
def keptChild : OrphanNode := ⟨loneNode.world, keptA.orphans.insert (kept childB) false⟩
def keptB : OrphanNode := ⟨loneNode.world, keptChild.orphans.insert (kept stakeB) true⟩
def forgotten : OrphanNode := ⟨loneNode.world,
  (keptB.orphans.remove (kept stakeA).byPrev).insert (kept oneMore) false⟩

theorem process_A : processBlock env 2 arrival stakeA loneNode =
    .ok (.orphan 11 (some 5)) keptA := by
  rfl

theorem process_child :
    processBlock env 2 arrival childB keptA = .ok (.orphan 13 (some 12)) keptChild := by
  rfl

theorem process_B : processBlock env 2 arrival stakeB keptChild =
    .ok (.orphan 12 (some 30)) keptB := by
  rfl

theorem process_oneMore :
    processBlock env 2 arrival oneMore keptB = .ok (.orphan 14 (some 40)) forgotten := by
  rfl

theorem run_keptChild : StakeRun env 2 keptChild := by
  refine .accepted (.accepted (.start loneNode.world) ⟨not_tears_of_orphan rfl, ?_⟩ process_A)
    ⟨not_tears_of_orphan rfl, ?_⟩ process_child
  · rintro ⟨-, -, -, -, -, o, ho, hash, r, hr, -⟩
    cases ho
    cases hr
  · rintro ⟨-, hpos, -⟩
    exact absurd hpos (by decide)

/-- Another block of the stake comes without an orphan that waits for it, and is refused. -/
def refusedA : CBlock := lateBlock 15 5 [emptyCoinbase, coinstake]

theorem process_refusedA : processBlock env 2 arrival refusedA keptChild =
    .error (.error "ProcessBlock() : duplicate proof-of-stake for orphan block") keptChild := by
  rfl

theorem run_refusedA : StakeRun env 2 keptChild := by
  refine .failed run_keptChild ⟨not_tears_of_orphan rfl, ?_⟩ process_refusedA rfl
  rintro ⟨-, -, -, -, hany, -⟩
  exact absurd hany (by decide)

theorem run_forgotten : OrphanRun env 2 (fun _ _ _ => True) forgotten :=
  .accepted (.accepted (.accepted (.accepted (.start loneNode.world) trivial process_A) trivial
    process_child) trivial process_B) trivial process_oneMore

end Simnet

open Simnet

/-- Two orphans with one stake have been kept, and the first of them has been pruned: the set does
not know the stake of the second. -/
theorem orphanStakes_forgotten : OrphanRun env 2 (fun _ _ _ => True) forgotten ∧
      forgotten.orphans.Carried stakeB.getProofOfStake ∧
      stakeB.getProofOfStake ∉ forgotten.orphans.setStakeSeenOrphan :=
  ⟨run_forgotten, ⟨12, kept stakeB, by decide, by decide, rfl⟩, by decide⟩

theorem orphanStakes_exact_keptChild : StakeRun env 2 keptChild ∧ keptChild.orphans.StakesExact ∧
      ∃ r r', r ≠ r' ∧ keptB.orphans.mapOrphanBlocks.lookup r.hashBlock = some r ∧
        keptB.orphans.mapOrphanBlocks.lookup r'.hashBlock = some r' ∧
        ¬ (keptB.orphans.remove r.byPrev).StakesExact ∧
        ¬ (keptB.orphans.remove r'.byPrev).StakesExact := by
  obtain ⟨hexact, hrepeat⟩ := orphanStakes_exact run_refusedA
  refine ⟨run_refusedA, hexact, hrepeat arrival stakeB _ _ ?_ process_B⟩
  exact ⟨⟨stakeB, by rfl⟩, by decide, rfl, by decide, by decide, keptChild.orphans,
    rfl, 11, kept stakeA, by decide, by decide, rfl⟩

end Espers
