import Espers.Lib.KeepBest
import Espers.Pas.Gossip
import Mathlib.Data.Int.ConditionallyCompleteOrder

/-!
# The oldest alias service

`CPubkeyaliasserviceMan::FindOldestNotInVec` checks every entry of the list and keeps the best one
of those that are enabled, old enough by their input and not excluded.  It replaces the one it has
by an entry with a later registration time.

A check may find the node in another state than the one before (`env`); the best block is the same
for all of them.

* `findOldest_eq_argmax` : the entry returned is the first with the latest registration time.
* `findOldest_iff` : **the entry has the earliest registration time exactly if all eligible entries
  have the same**.
-/

namespace Espers

open List Option Nat

/-! ### The source -/

/-- An entry with the age of its input, as far as it has been looked up. -/
structure CachedPAS extends CPubkeyaliasservice where
  cacheInputAge : ℤ
  cacheInputAgeBlock : ℤ

namespace CachedPAS

/-- `Check()`. -/
def check (env : PasEnv) (pas : CachedPAS) : CachedPAS :=
  { pas with toCPubkeyaliasservice := pas.toCPubkeyaliasservice.check env }

/-- `GetPubkeyaliasserviceInputAge()`: the entry with its cache filled, and the age. -/
def getInputAge (env : PasEnv) (nBestHeight : ℤ) (pas : CachedPAS) : CachedPAS × ℤ :=
  let pas :=
    if pas.cacheInputAge = 0 then
      { pas with cacheInputAge := env.inputAge pas.vin, cacheInputAgeBlock := nBestHeight }
    else pas
  (pas, pas.cacheInputAge + (nBestHeight - pas.cacheInputAgeBlock))

end CachedPAS

/-- The filters of `FindOldestNotInVec`: the entry after them, and whether it passes. -/
def pasCandidate (env : PasEnv) (nBestHeight : ℤ) (vVins : List CTxIn) (nMinimumAge : ℤ)
    (pas : CachedPAS) : CachedPAS × Bool :=
  let pas := pas.check env
  if !pas.isEnabled then (pas, false)
  else
    let (pas, age) := pas.getInputAge env nBestHeight
    if age < nMinimumAge then (pas, false)
    else (pas, !vVins.any fun vin => pas.vin.prevout = vin.prevout)

/-- The loop of `FindOldestNotInVec` from position `i` on, with the pointer to the best entry so far
and the entry it points to. -/
def oldestLoop (env : ℕ → PasEnv) (nBestHeight : ℤ) (vVins : List CTxIn) (nMinimumAge : ℤ) :
    ℕ → Option (ℕ × CachedPAS) → List CachedPAS → List CachedPAS × Option (ℕ × CachedPAS)
  | _, pOldest, [] => ([], pOldest)
  | i, pOldest, pas :: rest =>
    let (pas, fits) := pasCandidate (env i) nBestHeight vVins nMinimumAge pas
    let pOldest :=
      if !fits then pOldest
      else
        match pOldest with
        | none => some (i, pas)
        | some (j, oldest) =>
          if oldest.regTime.toInt < pas.regTime.toInt then some (i, pas) else some (j, oldest)
    let (rest, pOldest) := oldestLoop env nBestHeight vVins nMinimumAge (i + 1) pOldest rest
    (pas :: rest, pOldest)

/-- `CPubkeyaliasserviceMan::FindOldestNotInVec`: the list after the call, and the position of the
entry that the pointer returned points to. -/
def findOldestNotInVec (env : ℕ → PasEnv) (nBestHeight : ℤ)
    (vPubkeyaliasservices : List CachedPAS) (vVins : List CTxIn) (nMinimumAge : ℤ) :
    List CachedPAS × Option ℕ :=
  let r := oldestLoop env nBestHeight vVins nMinimumAge 0 none vPubkeyaliasservices
  (r.1, r.2.map Prod.fst)

/-- The entry is enabled once it has been checked, its input is old enough, and its outpoint is not
excluded. -/
structure PasEligible (env : PasEnv) (nBestHeight : ℤ) (vVins : List CTxIn) (nMinimumAge : ℤ)
    (pas : CachedPAS) : Prop where
  enabled : (pas.check env).isEnabled = true
  aged : nMinimumAge ≤ ((pas.check env).getInputAge env nBestHeight).2
  allowed : ∀ vin ∈ vVins, pas.vin.prevout ≠ vin.prevout

/-- The entry found is an eligible one of the earliest registration time, and there is none exactly
if no entry is eligible. -/
structure FindsOldest (env : ℕ → PasEnv) (nBestHeight : ℤ) (l : List CachedPAS)
    (vVins : List CTxIn) (nMinimumAge : ℤ) : Prop where
  null : (findOldestNotInVec env nBestHeight l vVins nMinimumAge).2 = none ↔
    ∀ i pas, l[i]? = some pas → ¬PasEligible (env i) nBestHeight vVins nMinimumAge pas
  oldest : ∀ i, (findOldestNotInVec env nBestHeight l vVins nMinimumAge).2 = some i →
    ∃ pas, l[i]? = some pas ∧ PasEligible (env i) nBestHeight vVins nMinimumAge pas ∧
      ∀ j q, l[j]? = some q → PasEligible (env j) nBestHeight vVins nMinimumAge q →
        pas.regTime.toInt ≤ q.regTime.toInt

variable {env : ℕ → PasEnv} {e : PasEnv} {nBestHeight : ℤ} {vVins : List CTxIn} {nMinimumAge : ℤ}
  {l : List CachedPAS} {pas : CachedPAS} {i : ℕ}

@[simp] theorem CachedPAS.check_vin : (pas.check e).vin = pas.vin := by
  rw [CachedPAS.check, CPubkeyaliasservice.check_eq]

@[simp] theorem CachedPAS.check_regTime : (pas.check e).regTime = pas.regTime := by
  rw [CachedPAS.check, CPubkeyaliasservice.check_eq]

@[simp] theorem CachedPAS.getInputAge_toPAS :
    (pas.getInputAge e nBestHeight).1.toCPubkeyaliasservice = pas.toCPubkeyaliasservice := by
  unfold CachedPAS.getInputAge
  split_ifs <;> rfl

theorem pasCandidate_regTime :
    (pasCandidate e nBestHeight vVins nMinimumAge pas).1.regTime = pas.regTime := by
  unfold pasCandidate
  simp only
  split_ifs <;> simp

theorem pasCandidate_iff : (pasCandidate e nBestHeight vVins nMinimumAge pas).2 = true ↔
    PasEligible e nBestHeight vVins nMinimumAge pas := by
  unfold pasCandidate
  simp only
  split_ifs with henabled hage
  · exact iff_of_false not_false fun h => by simp [h.enabled] at henabled
  · exact iff_of_false not_false fun h => by have := h.aged; omega
  · refine ⟨fun h => ⟨by simpa using henabled, not_lt.1 hage, ?_⟩, fun h => ?_⟩
    · simpa using h
    · simpa using h.allowed

/-! ### The loop -/

/-- The eligible entries with their positions, the first of them at `i`. -/
def pasEligibleFrom (env : ℕ → PasEnv) (nBestHeight : ℤ) (vVins : List CTxIn) (nMinimumAge : ℤ) :
    ℕ → List CachedPAS → List (ℕ × CachedPAS)
  | _, [] => []
  | i, pas :: rest =>
    let r := pasCandidate (env i) nBestHeight vVins nMinimumAge pas
    let later := pasEligibleFrom env nBestHeight vVins nMinimumAge (i + 1) rest
    if r.2 then (i, r.1) :: later else later

theorem oldestLoop_eq (p : Option (ℕ × CachedPAS)) :
    (oldestLoop env nBestHeight vVins nMinimumAge i p l).2 =
      (pasEligibleFrom env nBestHeight vVins nMinimumAge i l).foldl
        (List.argAux fun b c => c.2.regTime.toInt < b.2.regTime.toInt) p := by
  induction l generalizing i p with
  | nil => rfl
  | cons pas rest ih =>
    simp only [oldestLoop, pasEligibleFrom, ih]
    cases (pasCandidate (env i) nBestHeight vVins nMinimumAge pas).2 with
    | false => rfl
    | true =>
      cases p <;> rfl

/-- **The entry returned is the first eligible one with the latest registration time.** -/
theorem findOldest_eq_argmax : (findOldestNotInVec env nBestHeight l vVins nMinimumAge).2 =
    ((pasEligibleFrom env nBestHeight vVins nMinimumAge 0 l).argmax fun c => c.2.regTime.toInt).map
      Prod.fst := by
  rw [findOldestNotInVec, oldestLoop_eq]
  rfl

theorem mem_pasEligibleFrom {c : ℕ × CachedPAS} :
    c ∈ pasEligibleFrom env nBestHeight vVins nMinimumAge i l ↔
      ∃ k pas, c.1 = i + k ∧ l[k]? = some pas ∧
        PasEligible (env c.1) nBestHeight vVins nMinimumAge pas ∧
        c.2 = (pasCandidate (env c.1) nBestHeight vVins nMinimumAge pas).1 := by
  induction l generalizing i with
  | nil => simp [pasEligibleFrom]
  | cons pas rest ih =>
    have hlater : c ∈ pasEligibleFrom env nBestHeight vVins nMinimumAge (i + 1) rest ↔
        ∃ k q, c.1 = i + (k + 1) ∧ (pas :: rest)[k + 1]? = some q ∧
          PasEligible (env c.1) nBestHeight vVins nMinimumAge q ∧
          c.2 = (pasCandidate (env c.1) nBestHeight vVins nMinimumAge q).1 := by
      rw [ih]
      simp only [List.getElem?_cons_succ, add_assoc, add_comm 1]
    have hhere : c = (i, (pasCandidate (env i) nBestHeight vVins nMinimumAge pas).1) ↔
        c.1 = i ∧ c.2 = (pasCandidate (env c.1) nBestHeight vVins nMinimumAge pas).1 := by
      rw [Prod.ext_iff]
      exact ⟨fun h => ⟨h.1, h.1 ▸ h.2⟩, fun h => ⟨h.1, h.1 ▸ h.2⟩⟩
    simp only [pasEligibleFrom]
    split_ifs with hfits
    · rw [mem_cons, hhere, hlater]
      constructor
      · rintro (⟨h1, h2⟩ | ⟨k, q, h⟩)
        · exact ⟨0, pas, h1, rfl, h1 ▸ pasCandidate_iff.1 hfits, h2⟩
        · exact ⟨k + 1, q, h⟩
      · rintro ⟨_ | k, q, h1, h2, h3, h4⟩
        · cases h2
          exact .inl ⟨h1, h4⟩
        · exact .inr ⟨k, q, h1, h2, h3, h4⟩
    · rw [hlater]
      constructor
      · rintro ⟨k, q, h⟩
        exact ⟨k + 1, q, h⟩
      · rintro ⟨_ | k, q, h1, h2, h3, h4⟩
        · cases h2
          rw [add_zero] at h1
          exact absurd (pasCandidate_iff.2 (h1 ▸ h3)) hfits
        · exact ⟨k, q, h1, h2, h3, h4⟩

theorem exists_pasCandidate (hget : l[i]? = some pas)
    (helig : PasEligible (env i) nBestHeight vVins nMinimumAge pas) :
    ∃ c ∈ pasEligibleFrom env nBestHeight vVins nMinimumAge 0 l, c.1 = i ∧
      c.2.regTime = pas.regTime :=
  ⟨(i, (pasCandidate (env i) nBestHeight vVins nMinimumAge pas).1),
    mem_pasEligibleFrom.2 ⟨i, pas, (zero_add i).symm, hget, helig, rfl⟩, rfl,
    pasCandidate_regTime⟩

theorem of_mem_pasEligible {c : ℕ × CachedPAS}
    (hc : c ∈ pasEligibleFrom env nBestHeight vVins nMinimumAge 0 l) :
    ∃ pas, l[c.1]? = some pas ∧ PasEligible (env c.1) nBestHeight vVins nMinimumAge pas ∧
      c.2.regTime = pas.regTime := by
  obtain ⟨k, pas, hk, hget, helig, hval⟩ := mem_pasEligibleFrom.1 hc
  rw [zero_add] at hk
  exact ⟨pas, hk ▸ hget, helig, hval ▸ pasCandidate_regTime⟩

/-- **The entry found has the earliest registration time exactly if all eligible entries have the
same**; there is none exactly if no entry is eligible, in any case. -/
theorem findOldest_iff (env : ℕ → PasEnv) (nBestHeight : ℤ) (l : List CachedPAS)
    (vVins : List CTxIn) (nMinimumAge : ℤ) :
    FindsOldest env nBestHeight l vVins nMinimumAge ↔ ∀ i j p q, l[i]? = some p → l[j]? = some q →
        PasEligible (env i) nBestHeight vVins nMinimumAge p →
        PasEligible (env j) nBestHeight vVins nMinimumAge q → p.regTime = q.regTime := by
  have hnull : (findOldestNotInVec env nBestHeight l vVins nMinimumAge).2 = none ↔
      ∀ i pas, l[i]? = some pas → ¬PasEligible (env i) nBestHeight vVins nMinimumAge pas := by
    rw [findOldest_eq_argmax, map_eq_none_iff, argmax_eq_none, eq_nil_iff_forall_not_mem]
    constructor
    · intro h i pas hget helig
      obtain ⟨c, hc, -⟩ := exists_pasCandidate hget helig
      exact h c hc
    · intro h c hc
      obtain ⟨pas, hget, helig, -⟩ := of_mem_pasEligible hc
      exact h c.1 pas hget helig
  constructor
  · intro h
    -- no entry is later than the one returned, and none is earlier
    have hsame : ∀ i p, l[i]? = some p → PasEligible (env i) nBestHeight vVins nMinimumAge p →
        ∀ c, (pasEligibleFrom env nBestHeight vVins nMinimumAge 0 l).argmax
          (fun c => c.2.regTime.toInt) = some c → p.regTime = c.2.regTime := by
      intro i p hp hep c hc
      obtain ⟨d, hd, -, hdp⟩ := exists_pasCandidate hp hep
      have hle : d.2.regTime.toInt ≤ c.2.regTime.toInt :=
        le_of_mem_argmax (f := fun c : ℕ × CachedPAS => c.2.regTime.toInt) hd hc
      rw [hdp] at hle
      have hfound : (findOldestNotInVec env nBestHeight l vVins nMinimumAge).2 = some c.1 :=
        findOldest_eq_argmax.trans (congrArg (Option.map Prod.fst) hc)
      obtain ⟨pas, hget, -, hmin⟩ := h.oldest c.1 hfound
      obtain ⟨pas', hget', -, hval⟩ := of_mem_pasEligible (argmax_mem hc)
      obtain rfl : pas = pas' := some.inj (hget.symm.trans hget')
      have hge := hmin i p hp hep
      rw [← hval] at hge
      exact BitVec.eq_of_toInt_eq (le_antisymm hle hge)
    intro i j p q hp hq hep heq
    obtain ⟨d, hd, -⟩ := exists_pasCandidate hp hep
    obtain ⟨c, hc⟩ := KeepBest.exists_argmax (fun c : ℕ × CachedPAS => c.2.regTime.toInt)
      (ne_nil_of_mem hd)
    rw [hsame i p hp hep c hc, hsame j q hq heq c hc]
  · intro h
    refine ⟨hnull, fun i hi => ?_⟩
    rw [findOldest_eq_argmax] at hi
    obtain ⟨c, hc, rfl⟩ := map_eq_some_iff.1 hi
    obtain ⟨pas, hget, helig, -⟩ := of_mem_pasEligible (argmax_mem hc)
    exact ⟨pas, hget, helig, fun j q hq heq =>
      (congrArg BitVec.toInt (h c.1 j pas q hget hq helig heq)).le⟩

/-- Two entries of the list, the first of them registered earlier. -/
def earlierAndLater : List CachedPAS :=
  [⟨storedEntry 1690000000, 0, 0⟩,
    ⟨{ storedEntry 1695000000 with vin := ⟨⟨0xabcdef, 1⟩, [], uintMax⟩ }, 0, 0⟩]

/-- The later of the two entries is taken for the oldest. -/
theorem findOldest_newest :
    (findOldestNotInVec (fun _ => calmEnv) 5000 earlierAndLater [] 0).2 = some 1 ∧
      ¬FindsOldest (fun _ => calmEnv) 5000 earlierAndLater [] 0 := by
  have hfound : (findOldestNotInVec (fun _ => calmEnv) 5000 earlierAndLater [] 0).2 = some 1 := by
    decide
  refine ⟨hfound, fun h => ?_⟩
  obtain ⟨pas, hget, -, hmin⟩ := h.oldest 1 hfound
  obtain rfl := some.inj hget
  have hfirst : PasEligible calmEnv 5000 [] 0 ⟨storedEntry 1690000000, 0, 0⟩ :=
    ⟨by decide, by decide, fun _ hvin => absurd hvin not_mem_nil⟩
  exact absurd (hmin 0 _ rfl hfirst) (by decide)

end Espers
