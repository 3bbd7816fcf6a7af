import Espers.Core.Transaction
import Mathlib.Data.Finset.Max

/-!
# The key pool of the wallet

The pool is a set of indices; the keys are records of the wallet's database.  A reservation takes an
index out of the set, and puts it back or erases its record.  New keys are written behind the
largest index of the set.

* `KeyPool.topUpLoop_eq` : topping up writes consecutive indices.
* `reserveKeyFromKeyPool_eq` : what a reservation gets when its record is there.

The database works, keys are generated while the wallet is unlocked, and indices do not overflow.
-/

namespace Espers

open Exec Function Finset Bool

/-- A key taken from the pool; `none` is the invalid key `CPubKey()`. -/
structure CReserveKey (Key : Type) where
  nIndex : ℤ
  vchPubKey : Option Key
  deriving DecidableEq

/-- What the pool depends on. -/
structure KeyPoolEnv (Key : Type) where
  /-- The keys that `GenerateNewKey` makes, one after the other. -/
  newKey : ℕ → Key
  vchDefaultKey : Option Key
  /-- `GetArg("-keypool", 100)`. -/
  keypool : ℤ
  /-- `IsCrypted()`. -/
  crypted : Bool

/-- The key pool, with the reservations. -/
structure KeyPool (Key : Type) where
  setKeyPool : Finset ℤ
  /-- The pool records of the wallet's database. -/
  pool : ℤ → Option Key
  haveKey : Key → Bool
  /-- How many keys were generated. -/
  nGenerated : ℕ
  locked : Bool
  reserve : ℕ → CReserveKey Key

variable {Key : Type} {E : KeyPoolEnv Key} {s t : KeyPool Key}

/-- The index behind the largest one. -/
def KeyPool.nEnd (s : KeyPool Key) : ℤ :=
  if h : s.setKeyPool.Nonempty then s.setKeyPool.max' h + 1 else 1

theorem KeyPool.lt_nEnd {i : ℤ} (h : i ∈ s.setKeyPool) : i < s.nEnd := by
  rw [nEnd, dif_pos ⟨i, h⟩]
  have hle := s.setKeyPool.le_max' i h
  omega

theorem KeyPool.nEnd_notMem : s.nEnd ∉ s.setKeyPool := fun h => (lt_nEnd h).false

/-- `CWallet::KeepKey` erases the record. -/
def KeyPool.erasePool (nIndex : ℤ) (s : KeyPool Key) : KeyPool Key :=
  { s with pool := update s.pool nIndex none }

/-- The reservation is what is given. -/
def KeyPool.setReserve (r : ℕ) (k : CReserveKey Key) (s : KeyPool Key) : KeyPool Key :=
  { s with reserve := update s.reserve r k }

theorem KeyPool.reserve_self {r : ℕ} {k : CReserveKey Key} : (s.setReserve r k).reserve r = k :=
  update_self _ _ _

theorem KeyPool.reserve_of_ne {r r' : ℕ} {k : CReserveKey Key} (h : r' ≠ r) :
    (s.setReserve r k).reserve r' = s.reserve r' := update_of_ne h _ _

variable [DecidableEq Key]

/-! ### Topping up -/

/-- `GenerateNewKey`. -/
def generateNewKey (E : KeyPoolEnv Key) : EStateM Stop (KeyPool Key) Key := do
  let s ← get
  if s.locked then throw (.exception "CWallet::GenerateNewKey() : AddKey failed")
  else do
    let key := E.newKey s.nGenerated
    set { s with nGenerated := s.nGenerated + 1, haveKey := update s.haveKey key true }
    return key

/-- A new key is written behind the others. -/
def writeNewKey (E : KeyPoolEnv Key) : EStateM Stop (KeyPool Key) Unit := do
  let nEnd := (← get).nEnd
  let key ← generateNewKey E
  modify fun s => { s with
    pool := update s.pool nEnd (some key), setKeyPool := insert nEnd s.setKeyPool }

/-- The loop of `TopUpKeyPool`. -/
def topUpLoop (E : KeyPoolEnv Key) (nWanted : ℕ) : ℕ → EStateM Stop (KeyPool Key) Unit
  | 0 => pure ()
  | fuel + 1 => do
    if (← get).setKeyPool.card < nWanted then
      writeNewKey E
      topUpLoop E nWanted fuel
    else pure ()

/-- `nTargetSize + 1`, an `unsigned int`. -/
def KeyPoolEnv.wanted (E : KeyPoolEnv Key) (nSize : ℕ) : ℕ :=
  ((if 0 < nSize then nSize else (max E.keypool 0).toNat) + 1) % 2 ^ 32

/-- `TopUpKeyPool`: every round of the loop adds one index. -/
def topUpKeyPool (E : KeyPoolEnv Key) (nSize : ℕ) : EStateM Stop (KeyPool Key) Bool := do
  let s ← get
  if s.locked then return false
  else do
    topUpLoop E (E.wanted nSize) (E.wanted nSize - s.setKeyPool.card)
    return true

/-! ### Reserving, keeping and returning -/

/-- `ReserveKeyFromKeyPool`; `assign` sets the caller's `nIndex`. -/
def reserveKeyFromKeyPool (E : KeyPoolEnv Key)
    (assign : ℤ → (ℕ → CReserveKey Key) → ℕ → CReserveKey Key) :
    EStateM Stop (KeyPool Key) (ℤ × Option Key) := do
  modify fun s => { s with reserve := assign (-1) s.reserve }
  let _ ← (if (← get).locked then pure false else topUpKeyPool E 0)
  let s ← get
  if h : s.setKeyPool.Nonempty then
    let nIndex := s.setKeyPool.min' h
    modify fun s => { s with
      setKeyPool := s.setKeyPool.erase nIndex, reserve := assign nIndex s.reserve }
    match s.pool nIndex with
    | none => throw (.exception "ReserveKeyFromKeyPool() : read failed")
    | some key =>
      if s.haveKey key then return (nIndex, some key)
      else throw (.exception "ReserveKeyFromKeyPool() : unknown key in key pool")
  else return (-1, none)

/-- `nIndex` of the reservation is what is given. -/
def setIndex (r : ℕ) (nIndex : ℤ) (reserve : ℕ → CReserveKey Key) : ℕ → CReserveKey Key :=
  update reserve r { reserve r with nIndex }

/-- `GetKeyFromPool`; `none` when it returns false. -/
def getKeyFromPool (E : KeyPoolEnv Key) : EStateM Stop (KeyPool Key) (Option Key) := do
  let (nIndex, vchPubKey) ← reserveKeyFromKeyPool E fun _ reserve => reserve
  if nIndex = -1 then
    if (← get).locked then return none
    else do
      let key ← generateNewKey E
      return some key
  else do
    modify (KeyPool.erasePool nIndex)
    return vchPubKey

/-- The end of `GetReservedKey`. -/
def handOut (r : ℕ) : EStateM Stop (KeyPool Key) (Option Key) := do
  match ((← get).reserve r).vchPubKey with
  | some key => return some key
  | none => throw (.crash "assert(vchPubKey.IsValid())")

/-- `CReserveKey::GetReservedKey`; `none` when it returns false. -/
def getReservedKey (E : KeyPoolEnv Key) (r : ℕ) : EStateM Stop (KeyPool Key) (Option Key) := do
  let s ← get
  if (s.reserve r).nIndex = -1 then do
    let (nIndex, vchPubKey) ← reserveKeyFromKeyPool E (setIndex r)
    if nIndex ≠ -1 then do
      modify fun s => s.setReserve r { s.reserve r with vchPubKey }
      handOut r
    else if E.vchDefaultKey.isSome then do
      modify fun s => s.setReserve r { s.reserve r with vchPubKey := E.vchDefaultKey }
      handOut r
    else return none
  else handOut r

/-- `CReserveKey::KeepKey`. -/
def keepKey (r : ℕ) (s : KeyPool Key) : KeyPool Key :=
  (if (s.reserve r).nIndex ≠ -1 then s.erasePool (s.reserve r).nIndex else
    s).setReserve r ⟨-1, none⟩

/-- `CReserveKey::ReturnKey`, also when the reservation is destroyed. -/
def returnKey (r : ℕ) (s : KeyPool Key) : KeyPool Key :=
  (if (s.reserve r).nIndex ≠ -1 then
    { s with setKeyPool := insert (s.reserve r).nIndex s.setKeyPool } else
      s).setReserve r ⟨-1, none⟩

/-! ### What the commands do -/

namespace KeyPool

/-- The pool after one more key was generated. -/
def generate (E : KeyPoolEnv Key) (s : KeyPool Key) : KeyPool Key :=
  { s with
    nGenerated := s.nGenerated + 1
    haveKey := update s.haveKey (E.newKey s.nGenerated) true }

/-- The key is written behind the others. -/
def write (key : Key) (s : KeyPool Key) : KeyPool Key :=
  { s with
    pool := update s.pool s.nEnd (some key)
    setKeyPool := insert s.nEnd s.setKeyPool }

/-- The pool after one more key was written. -/
def topUp (E : KeyPoolEnv Key) (s : KeyPool Key) : KeyPool Key :=
  (s.generate E).write (E.newKey s.nGenerated)

theorem generateNewKey_eq (h : s.locked = false) :
    generateNewKey E s = .ok (E.newKey s.nGenerated) (s.generate E) := by
  have hne : ¬ s.locked = true := by rw [h]; exact false_ne_true
  rw [generateNewKey, get_bind_apply, if_neg hne]
  rfl

theorem nEnd_topUp : (s.topUp E).nEnd = s.nEnd + 1 := by
  have hne : (s.topUp E).setKeyPool.Nonempty := ⟨s.nEnd, mem_insert_self _ _⟩
  have hmax : (s.topUp E).setKeyPool.max' hne = s.nEnd := by
    refine le_antisymm (max'_le _ _ _ fun i hi => ?_) (le_max' _ _ (mem_insert_self _ _))
    obtain rfl | hi := mem_insert.1 hi
    · exact le_rfl
    · exact (lt_nEnd hi).le
  rw [nEnd, dif_pos hne, hmax]

theorem card_topUp : (s.topUp E).setKeyPool.card = s.setKeyPool.card + 1 :=
  card_insert_of_notMem nEnd_notMem

theorem writeNewKey_eq (h : s.locked = false) : writeNewKey E s = .ok () (s.topUp E) := by
  rw [writeNewKey, get_bind_apply, bind_of_ok (generateNewKey_eq h)]
  rfl

theorem topUpLoop_eq {nWanted : ℕ} (n : ℕ) (h : s.locked = false)
    (hn : n = nWanted - s.setKeyPool.card) : topUpLoop E nWanted n s = .ok ()
    ((topUp E)^[n] s) := by
  induction n generalizing s with
  | zero => rfl
  | succ n ih =>
    have hcard : (s.topUp E).setKeyPool.card = s.setKeyPool.card + 1 := card_topUp
    rw [topUpLoop, get_bind_apply, if_pos (by omega), bind_of_ok (writeNewKey_eq h)]
    exact ih h (by omega)

/-- The pool after `TopUpKeyPool`. -/
def toppedUp (E : KeyPoolEnv Key) (nSize : ℕ) (s : KeyPool Key) : KeyPool Key :=
  if s.locked then s else (topUp E)^[E.wanted nSize - s.setKeyPool.card] s

theorem topUpKeyPool_eq (nSize : ℕ) : topUpKeyPool E nSize s = .ok (!s.locked)
    (s.toppedUp E nSize) := by
  rw [topUpKeyPool, get_bind_apply, toppedUp]
  cases h : s.locked with
  | true => rfl
  | false =>
    rw [if_neg Bool.false_ne_true, if_neg Bool.false_ne_true, bind_of_ok (topUpLoop_eq _ h rfl)]
    rfl

theorem reserve_iterate (n : ℕ) : ((topUp E)^[n] s).reserve = s.reserve := by
  induction n generalizing s with
  | zero => rfl
  | succ n ih => exact ih

@[simp] theorem reserve_toppedUp {nSize : ℕ} : (s.toppedUp E nSize).reserve = s.reserve := by
  unfold toppedUp
  split_ifs
  · rfl
  · exact reserve_iterate _

/-- The key can be read and is the wallet's. -/
def Recorded (s : KeyPool Key) (i : ℤ) : Prop := ∃ key, s.pool i = some key ∧ s.haveKey key = true

/-- The index leaves the set. -/
def take (i : ℤ) (reserve : ℕ → CReserveKey Key) (s : KeyPool Key) : KeyPool Key :=
  { s with setKeyPool := s.setKeyPool.erase i, reserve }

end KeyPool

open KeyPool

/-- A reservation gets the smallest index, when its record is there. -/
theorem reserveKeyFromKeyPool_eq (assign : ℤ → (ℕ → CReserveKey Key) → ℕ → CReserveKey Key)
    (s : KeyPool Key) (ht : { s with reserve := assign (-1) s.reserve }.toppedUp E 0 = t)
    (hrec : ∀ i ∈ t.setKeyPool, t.Recorded i) :
    (∃ i ∈ t.setKeyPool, ∃ key, t.pool i = some key ∧
      reserveKeyFromKeyPool E assign s = .ok (i, some key) (t.take i (assign i t.reserve))) ∨
    t.setKeyPool = ∅ ∧ reserveKeyFromKeyPool E assign s = .ok (-1, none) t := by
  have htop : (if s.locked then pure false else topUpKeyPool E 0 : EStateM Stop (KeyPool Key) Bool)
      { s with reserve := assign (-1) s.reserve } = .ok (!s.locked) t := by
    by_cases hl : s.locked = true
    · rw [toppedUp, if_pos hl] at ht
      rw [if_pos hl, pure_apply, ht, hl]
      rfl
    · rw [if_neg hl, topUpKeyPool_eq, ht]
  rw [reserveKeyFromKeyPool, modify_bind_apply, get_bind_apply, bind_of_ok htop, get_bind_apply]
  by_cases hne : t.setKeyPool.Nonempty
  · refine .inl ⟨t.setKeyPool.min' hne, min'_mem _ hne, ?_⟩
    obtain ⟨key, hkey, hhave⟩ := hrec _ (min'_mem _ hne)
    refine ⟨key, hkey, ?_⟩
    rw [dif_pos hne, modify_bind_apply]
    simp only [hkey, hhave]
    rfl
  · rw [dif_neg hne]
    exact .inr ⟨not_nonempty_iff_eq_empty.1 hne, rfl⟩

end Espers
