import Espers.Pas.Message

/-!
# The gossip of election entries

A node that gets a `pasee` message for an input it has an entry of takes it for an update if its
count is -1, its key is that of the entry and its registration time is newer ("take the newest
entry"); it then relays the message to all its peers, the sender among them.  The time of the entry
is not touched: the next copy is newer again.

What the handler asks of the node's clock and chain is its environment (`PasEnv`), which may be
another one at each delivery.  Nothing writes `prevPubKey` of an input, which is empty therefore.
The integers of the times do not overflow here.

* `CPubkeyaliasservice.relays_again` : what has been relayed once is relayed again.
* `gossip_quiesces_iff` : **the gossip of an announcement quiesces, whatever the order of delivery,
  exactly if** no node that could relay it is sent two copies or is connected to one that could,
  too.
-/

namespace Espers

open List Function Bool

/-! ### The handler -/

/-- `CPubkeyaliasservice::state`. -/
inductive PasState where
  | enabled
  | expired
  | vinError
  | remove
  | posError
  deriving DecidableEq, Repr

/-- An entry of the list. -/
structure CPubkeyaliasservice where
  vin : CTxIn
  pubkey : CPubKey
  activeStatePAS : PasState
  ioTestPAS : Bool
  protocolVersion : BitVec 32
  regTime : BitVec 64
  deriving DecidableEq, Repr

/-- What the handler asks of the node when it processes a message. -/
structure PasEnv where
  /-- `pasEnginePool.IsBlockchainSynced()`. -/
  fBlockchainSynced : Bool
  fPubkeyAliasService : Bool
  /-- `GetAdjustedTime()`. -/
  adjustedTime : ℤ
  /-- `GetTime()`. -/
  time : ℤ
  /-- `ShutdownRequested()`. -/
  fShutdown : Bool
  /-- `TRY_LOCK(cs_main, ..)` succeeds. -/
  fLockMain : Bool
  /-- The outputs of a transaction that `GetTransaction` finds. -/
  getTransaction : Uint256 → Option (List CTxOut)
  /-- `PubkeyaliasserviceFEE(pindexBest->nHeight)*COIN`. -/
  serviceFee : ℤ
  /-- `GetScriptForDestination(pubkey.GetID())`. -/
  scriptForKey : CPubKey → CScript
  /-- `IsVinAssociatedWithPubkey` for the fee address. -/
  vinAssociated : CTxIn → Bool
  /-- `IsVoutAssociatedWithPubkey`. -/
  voutAssociated : CTxIn → CPubKey → Bool
  /-- `GetInputAge`. -/
  inputAge : CTxIn → ℤ
  /-- The time of the block in which the input was confirmed often enough, if it is found. -/
  confTime : CTxIn → Option ℤ

/-- `vin.prevPubKey`. -/
def CTxIn.prevPubKey (_vin : CTxIn) : CScript := []

namespace CPubkeyaliasservice

/-- `IsEnabled()`. -/
def isEnabled (pas : CPubkeyaliasservice) : Bool := pas.activeStatePAS = .enabled

/-- `Check()`. -/
def check (env : PasEnv) (pas : CPubkeyaliasservice) : CPubkeyaliasservice :=
  if env.fShutdown then pas
  else if !env.fLockMain then pas
  -- once spent, stop doing the checks
  else if pas.activeStatePAS = .vinError then pas
  -- `UpdatedWithin` is always true
  else if pas.regTime.toInt + 31600000 < env.time then { pas with activeStatePAS := .expired }
  else if !pas.ioTestPAS then
    let pasAddr := if pas.pubkey.isValid then env.scriptForKey pas.pubkey else []
    match env.getTransaction pas.vin.prevout.hash with
    | none => { pas with activeStatePAS := .vinError }
    | some vout =>
      if vout.any (fun out => out.nValue = env.serviceFee) && pas.vin.prevPubKey == pasAddr then
        { pas with activeStatePAS := .enabled }
      else pas
  else { pas with activeStatePAS := .enabled }

end CPubkeyaliasservice

/-- `Find`. -/
def findPAS (vPubkeyaliasservices : List CPubkeyaliasservice) (vin : CTxIn) :
    Option CPubkeyaliasservice :=
  vPubkeyaliasservices.find? (fun pas => pas.vin.prevout = vin.prevout)

/-- The list after the entry that `Find` points to has been changed. -/
def updatePAS (vin : CTxIn) (f : CPubkeyaliasservice → CPubkeyaliasservice) :
    List CPubkeyaliasservice → List CPubkeyaliasservice
  | [] => []
  | pas :: rest =>
    if pas.vin.prevout = vin.prevout then f pas :: rest else pas :: updatePAS vin f rest

/-- `AddPAS`. -/
def addPAS (vPubkeyaliasservices : List CPubkeyaliasservice) (pas : CPubkeyaliasservice) :
    List CPubkeyaliasservice :=
  if !pas.isEnabled then vPubkeyaliasservices
  else if (findPAS vPubkeyaliasservices pas.vin).isNone then vPubkeyaliasservices ++ [pas]
  else vPubkeyaliasservices

/-- The handler for an input that has no entry: the list, and whether the message is relayed. -/
def handleNewPasee (env : PasEnv) (vPubkeyaliasservices : List CPubkeyaliasservice) (m : Pasee) :
    List CPubkeyaliasservice × Bool :=
  if !env.vinAssociated m.vin || !env.voutAssociated m.vin m.pubkey then
    (vPubkeyaliasservices, false)
  else if !env.fLockMain then (vPubkeyaliasservices, false)
  else if (env.getTransaction m.vin.prevout.hash).isNone then (vPubkeyaliasservices, false)
  else if env.inputAge m.vin < 7 then (vPubkeyaliasservices, false)
  else if (env.confTime m.vin).any (fun t => t > m.regTime.toInt) then (vPubkeyaliasservices, false)
  else
    (addPAS vPubkeyaliasservices ⟨m.vin, m.pubkey, .enabled, false, m.protocolVersion, m.regTime⟩,
      m.count = -1)

/-- The tests of the handler before it looks for the entry.  (The script of a key has 25 bytes
always.) -/
def paseeAdmitted (env : PasEnv) (m : Pasee) : Bool :=
  env.fBlockchainSynced && env.fPubkeyAliasService &&
    !(m.regTime.toInt > env.adjustedTime + 1 * 60) && !(m.protocolVersion.toInt < 62042) &&
    m.vin.scriptSig.isEmpty

/-- The message is taken for an update of the entry: "count == -1 when it's a new entry", "take the
newest entry". -/
def CPubkeyaliasservice.updatedBy (pas : CPubkeyaliasservice) (m : Pasee) : Bool :=
  m.count = -1 && pas.pubkey.same m.pubkey && pas.regTime.toInt < m.regTime.toInt

/-- The entry after an update; its time stays. -/
def CPubkeyaliasservice.update (env : PasEnv) (m : Pasee) (pas : CPubkeyaliasservice) :
    CPubkeyaliasservice :=
  { pas with protocolVersion := m.protocolVersion }.check env

/-- The `pasee` branch of `ProcessMessagePAS`: the list, and whether the message is relayed. -/
def handlePasee (env : PasEnv) (vPubkeyaliasservices : List CPubkeyaliasservice) (m : Pasee) :
    List CPubkeyaliasservice × Bool :=
  if !paseeAdmitted env m then (vPubkeyaliasservices, false)
  else
    match findPAS vPubkeyaliasservices m.vin with
    | none => handleNewPasee env vPubkeyaliasservices m
    | some pas =>
      if pas.updatedBy m then
        (updatePAS m.vin (CPubkeyaliasservice.update env m) vPubkeyaliasservices,
          (pas.update env m).isEnabled)
      else (vPubkeyaliasservices, false)

/-- The nodes and the messages on their way. -/
structure PasNet (ι : Type) where
  entries : ι → List CPubkeyaliasservice
  inFlight : List (ι × Pasee)
  /-- The nodes that have relayed, once for each time. -/
  relayed : List ι

variable {ι : Type} [DecidableEq ι]

/-- The message is taken out of the queue and handled; a relay goes to all peers. -/
def PasNet.deliver (peers : ι → List ι) (net : PasNet ι) (before later : List (ι × Pasee)) (v : ι)
    (m : Pasee) (env : PasEnv) : PasNet ι :=
  let r := handlePasee env (net.entries v) m
  { entries := update net.entries v r.1
    inFlight := before ++ later ++ if r.2 then (peers v).map (·, m) else []
    relayed := net.relayed ++ if r.2 then [v] else [] }

/-- Any message in flight may be the next one to arrive. -/
inductive PasNet.Step (peers : ι → List ι) (net : PasNet ι) : PasNet ι → Prop where
  | deliver (before later : List (ι × Pasee)) (v : ι) (m : Pasee) (env : PasEnv)
      (h : net.inFlight = before ++ (v, m) :: later) :
      Step peers net (net.deliver peers before later v m env)

/-- The copies of an announcement are on their way to some nodes. -/
def PasNet.announce (entries : ι → List CPubkeyaliasservice) (a : Pasee) (starts : List ι) :
    PasNet ι :=
  ⟨entries, starts.map (·, a), []⟩

/-- The states that are reached from an announcement. -/
def PasNet.Reaches (peers : ι → List ι) (entries : ι → List CPubkeyaliasservice) (a : Pasee)
    (starts : List ι) (net : PasNet ι) : Prop :=
  Relation.ReflTransGen (PasNet.Step peers) (PasNet.announce entries a starts) net

/-- A node would relay the message at some time. -/
def CouldRelay (l : List CPubkeyaliasservice) (m : Pasee) : Prop :=
  ∃ env, (handlePasee env l m).2 = true

/-! ### One entry -/

namespace CPubkeyaliasservice

variable {env env' : PasEnv} {m : Pasee} {pas : CPubkeyaliasservice}

/-- What `Check` would make of the state of an entry that is not in error; `none` is to leave it. -/
def verdict (env : PasEnv) (pas : CPubkeyaliasservice) : Option PasState :=
  if env.fShutdown || !env.fLockMain then none
  else if pas.regTime.toInt + 31600000 < env.time then some .expired
  else if !pas.ioTestPAS then
    match env.getTransaction pas.vin.prevout.hash with
    | none => some .vinError
    | some vout =>
      if vout.any (fun out => out.nValue = env.serviceFee) && pas.vin.prevPubKey ==
        (if pas.pubkey.isValid then env.scriptForKey pas.pubkey else []) then
        some .enabled else none
  else some .enabled

/-- The check gives an entry that is not in error the state of the verdict. -/
theorem check_eq : pas.check env =
    { pas with activeStatePAS := if pas.activeStatePAS = .vinError then .vinError
        else (pas.verdict env).getD pas.activeStatePAS } := by
  obtain ⟨vin, pubkey, active, ioTest, version, regTime⟩ := pas
  unfold check verdict
  by_cases herr : active = .vinError
  · subst herr
    simp
  · simp only [herr]
    by_cases hs : env.fShutdown
    · simp [hs]
    · by_cases hl : env.fLockMain
      · simp only [hs, hl, Bool.not_true, Bool.or_false, Bool.false_eq_true]
        by_cases htime : regTime.toInt + 31600000 < env.time
        · simp [htime]
        · cases ioTest with
          | true => simp [htime]
          | false =>
            simp only [htime, if_false]
            cases env.getTransaction vin.prevout.hash with
            | none => rfl
            | some vout =>
              simp only
              split_ifs <;> rfl
      · simp [hl]

theorem update_eq : pas.update env m = { pas with
      protocolVersion := m.protocolVersion
      activeStatePAS := if pas.activeStatePAS = .vinError then .vinError
        else (pas.verdict env).getD pas.activeStatePAS } := by
  rw [update, check_eq]
  rfl

@[simp] theorem update_vin : (pas.update env m).vin = pas.vin := by
  rw [update_eq]

@[simp] theorem updatedBy_update : (pas.update env m).updatedBy m = pas.updatedBy m := by
  rw [update_eq]
  rfl

@[simp] theorem verdict_update : (pas.update env m).verdict env' = pas.verdict env' := by
  rw [update_eq]
  rfl

theorem isEnabled_update : (pas.update env m).isEnabled = true ↔
    pas.activeStatePAS ≠ .vinError ∧ (pas.verdict env).getD pas.activeStatePAS = .enabled := by
  rw [update_eq, isEnabled, decide_eq_true_iff]
  by_cases herr : pas.activeStatePAS = .vinError
  · simp [herr]
  · simp [herr]

/-- The message is admitted, updates the entry, and leaves it enabled. -/
def Relays (env : PasEnv) (m : Pasee) (pas : CPubkeyaliasservice) : Prop :=
  paseeAdmitted env m = true ∧ pas.updatedBy m = true ∧ (pas.update env m).isEnabled = true

/-- **What has been relayed once is relayed again.** -/
theorem relays_again (h : pas.Relays env m) : (pas.update env m).Relays env m := by
  obtain ⟨hadm, hupd, hen⟩ := h
  refine ⟨hadm, by rw [updatedBy_update, hupd], ?_⟩
  have hstate : (pas.update env m).activeStatePAS = .enabled := by
    simpa [isEnabled] using hen
  obtain ⟨-, hverdict⟩ := isEnabled_update.1 hen
  rw [isEnabled_update, hstate, verdict_update]
  refine ⟨by decide, ?_⟩
  cases hv : pas.verdict env with
  | none => rfl
  | some st =>
    rw [hv] at hverdict
    exact hverdict

/-- An update that was not relayed does not make the entry one that is relayed: it would have been,
with the one environment or with the other. -/
theorem relays_of_update (hadm : paseeAdmitted env m = true) (hupd : pas.updatedBy m = true)
    (h : (pas.update env m).Relays env' m) : pas.Relays env m ∨ pas.Relays env' m := by
  obtain ⟨hadm', -, hen'⟩ := h
  rw [isEnabled_update, verdict_update] at hen'
  obtain ⟨hne, hverdict⟩ := hen'
  have herr : pas.activeStatePAS ≠ .vinError := by
    intro herr
    rw [update_eq] at hne
    simp [herr] at hne
  cases hv : pas.verdict env' with
  | none =>
    -- the state is the one that the first environment has left
    rw [hv, Option.getD_none] at hverdict
    exact .inl ⟨hadm, hupd, by rw [isEnabled, hverdict]; rfl⟩
  | some st =>
    rw [hv, Option.getD_some] at hverdict
    exact .inr ⟨hadm', hupd, isEnabled_update.2 ⟨herr, by rw [hv, Option.getD_some, hverdict]⟩⟩

end CPubkeyaliasservice

/-! ### One node -/

section Node

variable {env env' : PasEnv} {m : Pasee} {pas : CPubkeyaliasservice} {l : List CPubkeyaliasservice}

theorem findPAS_updatePAS {vin : CTxIn} {f : CPubkeyaliasservice → CPubkeyaliasservice}
    (hf : ∀ pas, (f pas).vin = pas.vin) : findPAS (updatePAS vin f l) vin =
    (findPAS l vin).map f := by
  unfold findPAS
  induction l with
  | nil => rfl
  | cons pas l ih =>
    by_cases h : pas.vin.prevout = vin.prevout
    · rw [updatePAS, if_pos h, find?_cons_of_pos (by simp [hf, h]), find?_cons_of_pos (by simp [h])]
      rfl
    · rw [updatePAS, if_neg h, find?_cons_of_neg (by simp [h]), find?_cons_of_neg (by simp [h]), ih]

section

variable (hl : findPAS l m.vin = some pas)
include hl

theorem handlePasee_find : findPAS (handlePasee env l m).1 m.vin = some
      (if paseeAdmitted env m = true ∧ pas.updatedBy m = true then pas.update env m else pas) := by
  unfold handlePasee
  by_cases hadm : paseeAdmitted env m = true
  · by_cases hupd : pas.updatedBy m = true
    · simp only [hadm, hl, hupd, Bool.not_true, if_true, if_false, Bool.false_eq_true]
      rw [findPAS_updatePAS (fun _ => CPubkeyaliasservice.update_vin), hl]
      rfl
    · simp [hl, hupd]
  · simp [hadm, hl]

theorem handlePasee_relays : (handlePasee env l m).2 = true ↔ pas.Relays env m := by
  unfold handlePasee CPubkeyaliasservice.Relays
  by_cases hadm : paseeAdmitted env m = true
  · by_cases hupd : pas.updatedBy m = true
    · simp [hadm, hl, hupd]
    · simp [hl, hupd]
  · simp [hadm]

theorem couldRelay_iff : CouldRelay l m ↔ ∃ env, pas.Relays env m := by
  unfold CouldRelay
  simp only [handlePasee_relays hl]

theorem couldRelay_of_handlePasee (h : CouldRelay (handlePasee env l m).1 m) : CouldRelay l m := by
  rw [couldRelay_iff hl]
  obtain ⟨env', hrel⟩ := (couldRelay_iff (handlePasee_find hl)).1 h
  split at hrel
  · rename_i hboth
    rcases CPubkeyaliasservice.relays_of_update hboth.1 hboth.2 hrel with h' | h'
    · exact ⟨env, h'⟩
    · exact ⟨env', h'⟩
  · exact ⟨env', hrel⟩

theorem handlePasee_again (h : (handlePasee env l m).2 = true) :
    (handlePasee env (handlePasee env l m).1 m).2 = true := by
  have hrel := (handlePasee_relays hl).1 h
  rw [handlePasee_relays (handlePasee_find hl), if_pos ⟨hrel.1, hrel.2.1⟩]
  exact CPubkeyaliasservice.relays_again hrel

end

end Node

/-! ### The exchange -/

section Exchange

variable {peers : ι → List ι} {entries : ι → List CPubkeyaliasservice} {a : Pasee} {starts : List ι}
  {net : PasNet ι}

/-- Every node has an entry for the input of the announcement. -/
def AllKnow (entries : ι → List CPubkeyaliasservice) (a : Pasee) : Prop :=
  ∀ v, (findPAS (entries v) a.vin).isSome

/-- No node that could relay the announcement gets two copies or has a peer that could. -/
def Scattered (peers : ι → List ι) (entries : ι → List CPubkeyaliasservice) (a : Pasee)
    (starts : List ι) : Prop :=
  ∀ u ∈ starts, CouldRelay (entries u) a →
    starts.count u = 1 ∧ ∀ v ∈ peers u, ¬ CouldRelay (entries v) a

/-- The copies of the announcement that are on their way to a node. -/
def PasNet.copies (net : PasNet ι) (v : ι) : ℕ := (net.inFlight.map Prod.fst).count v

/-- What holds while an announcement goes round. -/
structure GossipInv (peers : ι → List ι) (entries : ι → List CPubkeyaliasservice) (a : Pasee)
    (starts : List ι) (net : PasNet ι) : Prop where
  know : AllKnow net.entries a
  copy : ∀ c ∈ net.inFlight, c.2 = a
  could : ∀ v, CouldRelay (net.entries v) a → CouldRelay (entries v) a
  once : ∀ v, CouldRelay (entries v) a → net.copies v + net.relayed.count v ≤ starts.count v
  relayed : ∀ v ∈ net.relayed, CouldRelay (entries v) a
  bound : net.inFlight.length ≤ starts.length + (net.relayed.map fun v => (peers v).length).sum

theorem GossipInv.start (hknow : AllKnow entries a) :
    GossipInv peers entries a starts (PasNet.announce entries a starts) where
  know := hknow
  copy c hc := by
    obtain ⟨v, -, rfl⟩ := mem_map.1 hc
    rfl
  could _ h := h
  once v _ := by
    have hfst : (Prod.fst ∘ fun v : ι => (v, a)) = id := rfl
    simp [PasNet.copies, PasNet.announce, hfst]
  relayed v h := by cases h
  bound := by simp [PasNet.announce]

/-- **One delivery.** -/
theorem GossipInv.step (hsc : Scattered peers entries a starts)
    (h : GossipInv peers entries a starts net) {net' : PasNet ι}
    (hstep : PasNet.Step peers net net') : GossipInv peers entries a starts net' := by
  obtain ⟨before, later, w, m, env, hflight⟩ := hstep
  obtain rfl : m = a := h.copy (w, m) (by simp [hflight])
  obtain ⟨pas, hpas⟩ := Option.isSome_iff_exists.1 (h.know w)
  have hcopies : ∀ v, net.copies v =
      ((before ++ later).map Prod.fst).count v + if w = v then 1 else 0 := by
    intro v
    by_cases hv : w = v
    · subst hv
      simp [PasNet.copies, hflight]
      omega
    · simp [PasNet.copies, hflight, hv]
  have hknow' : AllKnow (net.deliver peers before later w m env).entries m := by
    intro v
    by_cases hv : v = w
    · subst hv
      simp only [PasNet.deliver, update_self]
      rw [handlePasee_find hpas]
      rfl
    · simp only [PasNet.deliver, update_of_ne hv]
      exact h.know v
  have hcould' : ∀ v, CouldRelay ((net.deliver peers before later w m env).entries v) m →
      CouldRelay (entries v) m := by
    intro v hv
    by_cases hvw : v = w
    · subst hvw
      simp only [PasNet.deliver, update_self] at hv
      exact h.could v (couldRelay_of_handlePasee hpas hv)
    · simp only [PasNet.deliver, update_of_ne hvw] at hv
      exact h.could v hv
  by_cases hrel : (handlePasee env (net.entries w) m).2 = true
  · -- a relay: the node was one of the starts, and no peer of it could relay
    have hw : CouldRelay (entries w) m := h.could w ⟨env, hrel⟩
    have honce := h.once w hw
    have hself := hcopies w
    rw [if_pos rfl] at hself
    have hstart : w ∈ starts := count_pos_iff.1 (by omega)
    obtain ⟨-, hpeers⟩ := hsc w hstart hw
    refine ⟨hknow', ?_, hcould', fun v hv => ?_, ?_, ?_⟩
    · intro c hc
      simp only [PasNet.deliver, hrel] at hc
      rcases mem_append.1 hc with hc | hc
      · refine h.copy c ?_
        rw [hflight]
        exact ((sublist_cons_self _ _).append_left _).subset hc
      · obtain ⟨v, -, rfl⟩ := mem_map.1 hc
        rfl
    · have hnot : v ∉ peers w := fun hmem => hpeers v hmem hv
      have hfst : (Prod.fst ∘ fun v : ι => (v, m)) = id := rfl
      have hvcopies := hcopies v
      have hvonce := h.once v hv
      have hnew : ((peers w).map (Prod.fst ∘ fun v : ι => (v, m))).count v = 0 := by
        rw [hfst, map_id]
        exact count_eq_zero_of_not_mem hnot
      simp only [PasNet.copies, PasNet.deliver, hrel, if_true, map_append, map_map,
        count_append, hnew] at hvcopies hvonce ⊢
      rw [count_singleton]
      by_cases hvw : w = v
      · simp only [hvw, beq_self_eq_true, if_true] at hvcopies ⊢
        omega
      · simp only [beq_iff_eq] at hvcopies ⊢
        omega
    · intro v hv
      simp only [PasNet.deliver, hrel] at hv
      rcases mem_append.1 hv with hv | hv
      · exact h.relayed v hv
      · rw [mem_singleton.1 hv]
        exact hw
    · have hbound := h.bound
      rw [hflight] at hbound
      simp only [PasNet.deliver, hrel, if_true, length_append, length_cons,
        length_map, map_append, sum_append, map_cons,
        sum_cons] at hbound ⊢
      omega
  · refine ⟨hknow', ?_, hcould', fun v hv => ?_, ?_, ?_⟩
    · intro c hc
      simp only [PasNet.deliver, hrel, if_false, append_nil, false_eq_true] at hc
      refine h.copy c ?_
      rw [hflight]
      exact ((sublist_cons_self _ _).append_left _).subset hc
    · have hvcopies := hcopies v
      have hvonce := h.once v hv
      simp only [PasNet.copies, PasNet.deliver, hrel, if_false, append_nil,
        false_eq_true] at hvcopies hvonce ⊢
      omega
    · intro v hv
      simp only [PasNet.deliver, hrel, if_false, append_nil, false_eq_true] at hv
      exact h.relayed v hv
    · have hbound := h.bound
      rw [hflight] at hbound
      simp only [PasNet.deliver, hrel, if_false, append_nil, false_eq_true,
        length_append, length_cons] at hbound ⊢
      omega

theorem GossipInv.of_reaches (hsc : Scattered peers entries a starts) (hknow : AllKnow entries a)
    (h : PasNet.Reaches peers entries a starts net) : GossipInv peers entries a starts net := by
  induction h with
  | refl => exact .start hknow
  | tail _ hstep ih => exact ih.step hsc hstep

theorem PasNet.exists_relay (peers : ι → List ι) {v : ι} {env : PasEnv}
    (hmem : (v, a) ∈ net.inFlight) (hrel : (handlePasee env (net.entries v) a).2 = true) :
    ∃ net' before later, PasNet.Step peers net net' ∧ net.inFlight = before ++ (v, a) :: later ∧
      net'.inFlight = before ++ later ++ (peers v).map (·, a) ∧ net'.relayed = net.relayed ++ [v] ∧
      net'.entries = update net.entries v (handlePasee env (net.entries v) a).1 := by
  obtain ⟨before, later, hflight⟩ := append_of_mem hmem
  refine ⟨net.deliver peers before later v a env, before, later,
    .deliver _ _ _ _ _ hflight, hflight, ?_, ?_, rfl⟩
  · simp only [PasNet.deliver, hrel, if_true]
  · simp only [PasNet.deliver, hrel, if_true]

theorem PasNet.relays_twice (hknow : AllKnow entries a) {u : ι} {env : PasEnv} {net0 : PasNet ι}
    (hreach : PasNet.Reaches peers entries a starts net0) (hrelayed : 0 < net0.relayed.count u)
    (hentries : net0.entries u = (handlePasee env (entries u) a).1)
    (hrel : (handlePasee env (entries u) a).2 = true) (hmem : (u, a) ∈ net0.inFlight) :
    ∃ net, PasNet.Reaches peers entries a starts net ∧ 1 < net.relayed.count u := by
  obtain ⟨pas, hpas⟩ := Option.isSome_iff_exists.1 (hknow u)
  have hagain : (handlePasee env (net0.entries u) a).2 = true := by
    rw [hentries]
    exact handlePasee_again hpas hrel
  obtain ⟨net, -, -, hstep, -, -, hlog, -⟩ := PasNet.exists_relay peers hmem hagain
  refine ⟨net, hreach.tail hstep, ?_⟩
  rw [hlog, count_append, count_singleton_self]
  omega

/-- If the nodes that could relay the announcement are not scattered, one of them relays it twice in
some order of delivery. -/
theorem exists_relays_twice (hsym : ∀ u v, v ∈ peers u → u ∈ peers v) (hknow : AllKnow entries a)
    (h : ¬ Scattered peers entries a starts) :
    ∃ net, PasNet.Reaches peers entries a starts net ∧ ∃ v, 1 < net.relayed.count v := by
  unfold Scattered at h
  push Not at h
  obtain ⟨u, hu, ⟨env, hrel⟩, hnot⟩ := h
  have hmem : (u, a) ∈ (PasNet.announce entries a starts).inFlight := mem_map_of_mem hu
  obtain ⟨net1, before, later, hstep1, hflight, hflight1, hlog1, hentries1⟩ :=
    PasNet.exists_relay peers hmem hrel
  have hreach1 : PasNet.Reaches peers entries a starts net1 := .single hstep1
  have hself1 : net1.entries u = (handlePasee env (entries u) a).1 := by
    rw [hentries1, update_self]
    rfl
  have hcount1 : 0 < net1.relayed.count u := by
    rw [hlog1, count_append, count_singleton_self]
    omega
  by_cases hone : starts.count u = 1
  · -- the copy goes to a peer, which sends one back
    obtain ⟨v, hv, env', hrel'⟩ := hnot hone
    by_cases hvu : v = u
    · subst hvu
      obtain ⟨net, hreach, htwice⟩ := PasNet.relays_twice hknow hreach1 hcount1 hself1 hrel
        (by rw [hflight1]; exact mem_append_right _ (mem_map_of_mem hv))
      exact ⟨net, hreach, v, htwice⟩
    · have hmem' : (v, a) ∈ net1.inFlight := by
        rw [hflight1]
        exact mem_append_right _ (mem_map_of_mem hv)
      have hrel1 : (handlePasee env' (net1.entries v) a).2 = true := by
        rw [hentries1, update_of_ne hvu]
        exact hrel'
      obtain ⟨net2, before2, later2, hstep2, -, hflight2, hlog2, hentries2⟩ :=
        PasNet.exists_relay peers hmem' hrel1
      obtain ⟨net, hreach, htwice⟩ := PasNet.relays_twice hknow (hreach1.tail hstep2)
        (by rw [hlog2, count_append]; omega)
        (by rw [hentries2, update_of_ne (Ne.symm hvu)]; exact hself1) hrel
        (by rw [hflight2]; exact mem_append_right _ (mem_map_of_mem (hsym u v hv)))
      exact ⟨net, hreach, u, htwice⟩
  · -- another copy was sent to the node itself
    have hcount : starts.count u = ((before ++ later).map Prod.fst).count u + 1 := by
      have hfst : (Prod.fst ∘ fun v : ι => (v, a)) = id := rfl
      have heq := congrArg (fun l => (l.map Prod.fst).count u) hflight
      simp only [PasNet.announce, map_map, hfst, map_id, map_append, map_cons,
        count_append, count_cons_self] at heq ⊢
      omega
    have hmem' : u ∈ (before ++ later).map Prod.fst := count_pos_iff.1 (by omega)
    obtain ⟨⟨v, m⟩, hc, rfl⟩ := mem_map.1 hmem'
    have hcopy : (v, m) ∈ (PasNet.announce entries a starts).inFlight := by
      rw [hflight]
      exact ((sublist_cons_self _ _).append_left _).subset hc
    obtain rfl : m = a := by
      obtain ⟨w, -, hw⟩ := mem_map.1 hcopy
      exact (Prod.mk.inj hw).2.symm
    obtain ⟨net, hreach, htwice⟩ := PasNet.relays_twice hknow hreach1 hcount1 hself1 hrel
      (by rw [hflight1]; exact mem_append_left _ hc)
    exact ⟨net, hreach, v, htwice⟩

/-- The relays of scattered nodes are among the starts, so that their messages can be counted. -/
theorem GossipInv.relays_le (hsc : Scattered peers entries a starts)
    (h : GossipInv peers entries a starts net) :
    (∀ v, net.relayed.count v ≤ 1) ∧
      net.inFlight.length ≤ starts.length + (starts.map fun v => (peers v).length).sum := by
  have hle : ∀ v, net.relayed.count v ≤ starts.count v ∧ net.relayed.count v ≤ 1 := by
    intro v
    rcases Nat.eq_zero_or_pos (net.relayed.count v) with h0 | hpos
    · omega
    · have hv := h.relayed v (count_pos_iff.1 hpos)
      have honce := h.once v hv
      have hstart : v ∈ starts := count_pos_iff.1 (by omega)
      have := (hsc v hstart hv).1
      omega
  refine ⟨fun v => (hle v).2, h.bound.trans ?_⟩
  obtain ⟨l, hperm, hsub⟩ := subperm_iff_count.2 fun v => (hle v).1
  obtain ⟨r, hr⟩ := hsub.exists_perm_append
  have hsum : (starts.map fun v => (peers v).length).sum =
      (net.relayed.map fun v => (peers v).length).sum + (r.map fun v => (peers v).length).sum := by
    rw [← (hperm.map fun v => (peers v).length).sum_nat, (hr.map fun v => (peers v).length).sum_nat,
      map_append, sum_append]
  omega

end Exchange

/-- **When the gossip of an announcement quiesces.**  For all nodes that have an entry for its
input, with two-way connections, and all copies on their way at first: no node relays the
announcement more than once and the messages in flight are bounded, in any order of delivery, if and
only if no node that could relay it is sent two copies or is connected to one that could, too. -/
theorem gossip_quiesces_iff (peers : ι → List ι) (hsym : ∀ u v, v ∈ peers u → u ∈ peers v)
    (entries : ι → List CPubkeyaliasservice) (a : Pasee) (hknow : AllKnow entries a)
    (starts : List ι) :
    ((∀ net, PasNet.Reaches peers entries a starts net → ∀ v, net.relayed.count v ≤ 1) ∧
        ∃ bound, ∀ net, PasNet.Reaches peers entries a starts net → net.inFlight.length ≤ bound) ↔
      Scattered peers entries a starts := by
  constructor
  · rintro ⟨honce, -⟩
    by_contra hsc
    obtain ⟨net, hreach, v, htwice⟩ := exists_relays_twice hsym hknow hsc
    have := honce net hreach v
    omega
  · intro hsc
    refine ⟨fun net hreach => ((GossipInv.of_reaches hsc hknow hreach).relays_le hsc).1, _,
      fun net hreach => ((GossipInv.of_reaches hsc hknow hreach).relays_le hsc).2⟩

/-! ### Two connected nodes -/

/-- A node that is in step with its chain. -/
def calmEnv : PasEnv where
  fBlockchainSynced := true
  fPubkeyAliasService := true
  adjustedTime := 1700000000
  time := 1700000000
  fShutdown := false
  fLockMain := true
  getTransaction _ := some []
  serviceFee := 0
  scriptForKey _ := []
  vinAssociated _ := false
  voutAssociated _ _ := false
  inputAge _ := 0
  confTime _ := none

/-- An entry that has been registered earlier. -/
def storedEntry (regTime : BitVec 64) : CPubkeyaliasservice :=
  ⟨aliasEntry.vin, aliasKey, .enabled, false, 70047, regTime⟩

/-- The announcement of a newer registration. -/
def newerEntry : Pasee := { aliasEntry with count := -1 }

/-- The two nodes are connected with each other. -/
def eachOther (v : Bool) : List Bool := [!v]

theorem eachOther_symm : ∀ u v, v ∈ eachOther u → u ∈ eachOther v := by decide

theorem storedEntry_known (regTime : Bool → BitVec 64) :
    AllKnow (fun v => [storedEntry (regTime v)]) newerEntry := fun _ => rfl

theorem storedEntry_relays : (handlePasee calmEnv [storedEntry 1690000000] newerEntry).2 =
    true := by
  decide

/-- One node has the newer registration, the other one relays it once. -/
theorem gossip_quiesces_known : (∀ u v, v ∈ eachOther u → u ∈ eachOther v) ∧
      AllKnow (fun v : Bool => [storedEntry (if v then 1690000000 else 1700000000)]) newerEntry ∧
      ∀ net, PasNet.Reaches eachOther (fun v : Bool =>
      [storedEntry (if v then 1690000000 else 1700000000)])
        newerEntry [true] net → ∀ v, net.relayed.count v ≤ 1 := by
  refine ⟨eachOther_symm, storedEntry_known _,
    ((gossip_quiesces_iff eachOther eachOther_symm _ newerEntry (storedEntry_known _)
    [true]).2 ?_).1⟩
  intro u hu _
  obtain rfl := mem_singleton.1 hu
  refine ⟨rfl, fun v hv => ?_⟩
  obtain rfl : v = false := mem_singleton.1 hv
  -- the stored time is the announced one
  rintro ⟨env, hrel⟩
  have hupd := ((handlePasee_relays rfl).1 hrel).2.1
  exact absurd hupd (by decide)

/-- The announcement goes to and fro between the two nodes for ever. -/
theorem gossip_echoes :
    (∃ net, PasNet.Reaches eachOther (fun _ => [storedEntry 1690000000]) newerEntry [true] net ∧
        ∃ v, 1 < net.relayed.count v) ∧
      ∀ n, ∃ net, PasNet.Reaches eachOther (fun _ => [storedEntry 1690000000])
        newerEntry [true] net ∧ net.relayed.length = n := by
  constructor
  · refine exists_relays_twice eachOther_symm (storedEntry_known fun _ => 1690000000) ?_
    intro hsc
    exact (hsc true (by simp) ⟨calmEnv, storedEntry_relays⟩).2 false (by decide)
      ⟨calmEnv, storedEntry_relays⟩
  · intro n
    suffices h : ∃ net v, PasNet.Reaches eachOther (fun _ => [storedEntry 1690000000])
      newerEntry [true] net ∧
        net.relayed.length = n ∧ net.inFlight = [(v, newerEntry)] ∧ AllKnow net.entries newerEntry ∧
        ∀ w, (handlePasee calmEnv (net.entries w) newerEntry).2 = true by
      obtain ⟨net, -, hreach, hlen, -⟩ := h
      exact ⟨net, hreach, hlen⟩
    induction n with
    | zero =>
      exact ⟨_, true, .refl, rfl, rfl, storedEntry_known fun _ => 1690000000,
        fun _ => storedEntry_relays⟩
    | succ n ih =>
      obtain ⟨net, v, hreach, hlen, hflight, hknow, hrel⟩ := ih
      obtain ⟨pas, hpas⟩ := Option.isSome_iff_exists.1 (hknow v)
      obtain ⟨net', before, later, hstep, hsplit, hflight', hlog, hentries⟩ :=
        PasNet.exists_relay eachOther (by rw [hflight]; exact mem_singleton_self _) (hrel v)
      have hrest : before ++ later = [] := by
        rw [hflight] at hsplit
        have hl := congrArg List.length hsplit
        simp only [length_append, length_cons, length_nil] at hl
        exact length_eq_zero_iff.1 (by rw [length_append]; omega)
      refine ⟨net', !v, hreach.tail hstep, by rw [hlog, length_append, hlen]; rfl,
        by rw [hflight', hrest]; rfl, fun w => ?_, fun w => ?_⟩
      · rw [hentries]
        by_cases hw : w = v
        · subst hw
          rw [update_self, handlePasee_find hpas]
          rfl
        · rw [update_of_ne hw]
          exact hknow w
      · rw [hentries]
        by_cases hw : w = v
        · subst hw
          rw [update_self]
          exact handlePasee_again hpas (hrel w)
        · rw [update_of_ne hw]
          exact hrel w

end Espers
