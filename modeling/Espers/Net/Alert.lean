import Espers.Core.Codec

/-!
# Alerts

An alert is a signed message that shows a status text to every node.  Its ID `INT_MAX` is reserved
for the **final alert**, which says that the alert key is compromised and is meant to be there for
good.

`ProcessAlert` first lets the alert cancel stored ones, and only then asks whether a stored one
cancels it.

* `cancelPrevious_getElem?`, `processAlert_eq_ok` : what a call does with the stored alerts.
* `AlertRun E fFinal m` : the runs of `ProcessAlert`; `fFinal` notes that a final alert was
  accepted.
* `finalAlert_kept_iff` : **the final alert stays exactly as long as no alert in effect cancels
  `INT_MAX`.**
-/

namespace Espers

open Exec Wire List Option

/-- `std::numeric_limits<int>::max()`. -/
def maxInt : ℤ := 2 ^ 31 - 1

/-- `CUnsignedAlert`; a set is the list of its elements. -/
structure CUnsignedAlert where
  nVersion : ℤ
  nRelayUntil : ℤ
  nExpiration : ℤ
  nID : ℤ
  nCancel : ℤ
  setCancel : List ℤ
  nMinVer : ℤ
  nMaxVer : ℤ
  setSubVer : List (List UInt8)
  nPriority : ℤ
  strComment : List UInt8
  strStatusBar : List UInt8
  strReserved : List UInt8

/-- A `CAlert` as it was received. -/
structure CAlert where
  vchMsg : List UInt8
  vchSig : List UInt8

/-- The alert key, and the hash of messages. -/
structure AlertEnv where
  verify : List UInt8 → List UInt8 → Bool
  hash : List UInt8 → Uint256

/-- A `std::set` behind its length. -/
def readSet {α : Type} (read : Reader α) : Reader (List α) := fun b =>
  (readCompactSize maxSize b).bind fun n => readMany read n.1 n.2

/-- The fields of an alert are read one by one. -/
def CUnsignedAlert.unserialize : Reader CUnsignedAlert := fun b =>
  (readInt 4 b).bind fun (nVersion, b) =>
  (readInt 8 b).bind fun (nRelayUntil, b) =>
  (readInt 8 b).bind fun (nExpiration, b) =>
  (readInt 4 b).bind fun (nID, b) =>
  (readInt 4 b).bind fun (nCancel, b) =>
  (readSet (readInt 4) b).bind fun (setCancel, b) =>
  (readInt 4 b).bind fun (nMinVer, b) =>
  (readInt 4 b).bind fun (nMaxVer, b) =>
  (readSet (readVector maxSize) b).bind fun (setSubVer, b) =>
  (readInt 4 b).bind fun (nPriority, b) =>
  (readVector maxSize b).bind fun (strComment, b) =>
  (readVector maxSize b).bind fun (strStatusBar, b) =>
  (readVector maxSize b).bind fun (strReserved, b) =>
  some (⟨nVersion, nRelayUntil, nExpiration, nID, nCancel, setCancel, nMinVer, nMaxVer,
    setSubVer, nPriority, strComment, strStatusBar, strReserved⟩, b)

/-- The fields of an alert one by one. -/
def CUnsignedAlert.serialize (alert : CUnsignedAlert) : List UInt8 :=
  writeInt 4 alert.nVersion ++ (writeInt 8 alert.nRelayUntil ++ (writeInt 8 alert.nExpiration ++
    (writeInt 4 alert.nID ++ (writeInt 4 alert.nCancel ++ (writeList (writeInt 4) alert.setCancel ++
      (writeInt 4 alert.nMinVer ++
      (writeInt 4 alert.nMaxVer ++ (writeList writeVector alert.setSubVer ++
        (writeInt 4 alert.nPriority ++
        (writeVector alert.strComment ++ (writeVector alert.strStatusBar ++
          writeVector alert.strReserved)))))))))))

/-- "URGENT: Alert key compromised, upgrade required". -/
def urgent : List UInt8 :=
  "URGENT: Alert key compromised, upgrade required".toList.map fun c => UInt8.ofNat c.toNat

namespace CUnsignedAlert

/-- `IsInEffect`. -/
def isInEffect (alert : CUnsignedAlert) (now : ℤ) : Bool := now < alert.nExpiration

/-- `Cancels`. -/
def cancels (self : CUnsignedAlert) (now : ℤ) (alert : CUnsignedAlert) : Bool :=
  if !self.isInEffect now then false
  else alert.nID ≤ self.nCancel || self.setCancel.contains alert.nID

/-- The fields that are reserved for the final alert. -/
def isReserved (alert : CUnsignedAlert) : Bool :=
  alert.nExpiration = maxInt && alert.nCancel = maxInt - 1 && alert.nMinVer = 0 &&
    alert.nMaxVer = maxInt && alert.setSubVer.isEmpty && alert.nPriority = maxInt &&
    alert.strStatusBar = urgent

/-- The final alert. -/
def isFinal (alert : CUnsignedAlert) : Bool := alert.nID = maxInt && alert.isReserved

end CUnsignedAlert

/-- `mapAlerts`. -/
abbrev AlertMap := Std.TreeMap Uint256 CUnsignedAlert

/-- The loop that cancels previous alerts and drops expired ones. -/
def cancelPrevious (now : ℤ) (self : CUnsignedAlert) (mapAlerts : AlertMap) : AlertMap :=
  mapAlerts.toList.foldl (fun mapAlerts item =>
    if self.cancels now item.2 then mapAlerts.erase item.1
    else if !item.2.isInEffect now then mapAlerts.erase item.1
    else mapAlerts) mapAlerts

/-- `CheckSignature`: the alert that was signed. -/
def CAlert.checkSignature (E : AlertEnv) (alert : CAlert) :
    EStateM Stop AlertMap (Option CUnsignedAlert) :=
  if !E.verify alert.vchMsg alert.vchSig then return none
  else
    match CUnsignedAlert.unserialize alert.vchMsg with
    | some (self, _) => return some self
    | none => throw (.exception "CDataStream::read() : end of data")

/-- `ProcessAlert` at the adjusted time `now`, without notifications. -/
def CAlert.processAlert (E : AlertEnv) (now : ℤ) (alert : CAlert) : EStateM Stop AlertMap Bool := do
  match ← alert.checkSignature E with
  | none => return false
  | some self =>
    if !self.isInEffect now then return false
    else if self.nID = maxInt ∧ !self.isReserved then return false
    else do
      modify (cancelPrevious now self)
      -- check if this alert has been cancelled
      if (← get).toList.any fun item => item.2.cancels now self then return false
      else do
        modify fun mapAlerts => mapAlerts.insertIfNew (E.hash alert.vchMsg) self
        return true

/-! ### The bytes of an alert -/

/-- The numbers of an alert fit, and its texts and sets are not too long. -/
structure CUnsignedAlert.Fits (alert : CUnsignedAlert) : Prop where
  nVersion : -2 ^ 31 ≤ alert.nVersion ∧ alert.nVersion < 2 ^ 31
  nRelayUntil : -2 ^ 63 ≤ alert.nRelayUntil ∧ alert.nRelayUntil < 2 ^ 63
  nExpiration : -2 ^ 63 ≤ alert.nExpiration ∧ alert.nExpiration < 2 ^ 63
  nID : -2 ^ 31 ≤ alert.nID ∧ alert.nID < 2 ^ 31
  nCancel : -2 ^ 31 ≤ alert.nCancel ∧ alert.nCancel < 2 ^ 31
  setCancel : alert.setCancel.length ≤ maxSize ∧ ∀ n ∈ alert.setCancel, -2 ^ 31 ≤ n ∧ n < 2 ^ 31
  nMinVer : -2 ^ 31 ≤ alert.nMinVer ∧ alert.nMinVer < 2 ^ 31
  nMaxVer : -2 ^ 31 ≤ alert.nMaxVer ∧ alert.nMaxVer < 2 ^ 31
  setSubVer : alert.setSubVer.length ≤ maxSize ∧ ∀ s ∈ alert.setSubVer, s.length ≤ maxSize
  nPriority : -2 ^ 31 ≤ alert.nPriority ∧ alert.nPriority < 2 ^ 31
  strComment : alert.strComment.length ≤ maxSize
  strStatusBar : alert.strStatusBar.length ≤ maxSize
  strReserved : alert.strReserved.length ≤ maxSize

theorem reads_int8 : Wire.Reads (readInt 8) (writeInt 8) (fun z => -2 ^ 63 ≤ z ∧ z < 2 ^ 63) := by
  intro b z r
  rw [reads_int 8 b z r]
  constructor <;> rintro ⟨hlow, hhigh⟩ <;> constructor <;> omega

theorem reads_text : Wire.Reads (readVector maxSize) writeVector (·.length ≤ maxSize) :=
  reads_vector (by decide)

theorem reads_set {α : Type} {read : Reader α} {write : α → List UInt8} {P : α → Prop}
    (h : Wire.Reads read write P) : Wire.Reads (readSet read) (writeList write)
    (fun xs => xs.length ≤ maxSize ∧ ∀ x ∈ xs, P x) :=
  reads_counted (by decide) h

/-- What is read is what was written. -/
theorem reads_alert : Wire.Reads CUnsignedAlert.unserialize CUnsignedAlert.serialize
    CUnsignedAlert.Fits := by
  intro b alert r
  constructor
  · intro h
    unfold CUnsignedAlert.unserialize at h
    rw [reads_int4.bind_eq_some] at h
    obtain ⟨nVersion, _, h1, rfl, h⟩ := h
    rw [reads_int8.bind_eq_some] at h
    obtain ⟨nRelayUntil, _, h2, rfl, h⟩ := h
    rw [reads_int8.bind_eq_some] at h
    obtain ⟨nExpiration, _, h3, rfl, h⟩ := h
    rw [reads_int4.bind_eq_some] at h
    obtain ⟨nID, _, h4, rfl, h⟩ := h
    rw [reads_int4.bind_eq_some] at h
    obtain ⟨nCancel, _, h5, rfl, h⟩ := h
    rw [(reads_set reads_int4).bind_eq_some] at h
    obtain ⟨setCancel, _, h6, rfl, h⟩ := h
    rw [reads_int4.bind_eq_some] at h
    obtain ⟨nMinVer, _, h7, rfl, h⟩ := h
    rw [reads_int4.bind_eq_some] at h
    obtain ⟨nMaxVer, _, h8, rfl, h⟩ := h
    rw [(reads_set reads_text).bind_eq_some] at h
    obtain ⟨setSubVer, _, h9, rfl, h⟩ := h
    rw [reads_int4.bind_eq_some] at h
    obtain ⟨nPriority, _, h10, rfl, h⟩ := h
    rw [reads_text.bind_eq_some] at h
    obtain ⟨strComment, _, h11, rfl, h⟩ := h
    rw [reads_text.bind_eq_some] at h
    obtain ⟨strStatusBar, _, h12, rfl, h⟩ := h
    rw [reads_text.bind_eq_some] at h
    obtain ⟨strReserved, _, h13, rfl, h⟩ := h
    obtain ⟨rfl, rfl⟩ := Prod.mk.inj (some.inj h)
    refine ⟨⟨h1, h2, h3, h4, h5, h6, h7, h8, h9, h10, h11, h12, h13⟩, ?_⟩
    simp only [CUnsignedAlert.serialize, append_assoc]
  · rintro ⟨h, rfl⟩
    simp only [CUnsignedAlert.serialize, append_assoc]
    unfold CUnsignedAlert.unserialize
    refine reads_int4.bind_eq_some.2 ⟨_, _, h.nVersion, rfl, ?_⟩
    refine reads_int8.bind_eq_some.2 ⟨_, _, h.nRelayUntil, rfl, ?_⟩
    refine reads_int8.bind_eq_some.2 ⟨_, _, h.nExpiration, rfl, ?_⟩
    refine reads_int4.bind_eq_some.2 ⟨_, _, h.nID, rfl, ?_⟩
    refine reads_int4.bind_eq_some.2 ⟨_, _, h.nCancel, rfl, ?_⟩
    refine (reads_set reads_int4).bind_eq_some.2 ⟨_, _, h.setCancel, rfl, ?_⟩
    refine reads_int4.bind_eq_some.2 ⟨_, _, h.nMinVer, rfl, ?_⟩
    refine reads_int4.bind_eq_some.2 ⟨_, _, h.nMaxVer, rfl, ?_⟩
    refine (reads_set reads_text).bind_eq_some.2 ⟨_, _, h.setSubVer, rfl, ?_⟩
    refine reads_int4.bind_eq_some.2 ⟨_, _, h.nPriority, rfl, ?_⟩
    refine reads_text.bind_eq_some.2 ⟨_, _, h.strComment, rfl, ?_⟩
    refine reads_text.bind_eq_some.2 ⟨_, _, h.strStatusBar, rfl, ?_⟩
    exact reads_text.bind_eq_some.2 ⟨_, _, h.strReserved, rfl, rfl⟩

/-! ### One call -/

/-- The alert is correctly signed. -/
def CAlert.Signed (E : AlertEnv) (alert : CAlert) (self : CUnsignedAlert) : Prop :=
  E.verify alert.vchMsg alert.vchSig = true ∧ ∃ r, CUnsignedAlert.unserialize alert.vchMsg =
    some (self, r)

section Call

variable {E : AlertEnv} {now : ℤ} {alert : CAlert} {self b : CUnsignedAlert}
  {m : AlertMap} {h : Uint256}

theorem CAlert.Signed.nID_le (hsigned : alert.Signed E self) : self.nID ≤ maxInt := by
  obtain ⟨-, r, hread⟩ := hsigned
  have hfits := ((reads_alert _ _ _).mp hread).1.nID
  rw [maxInt]
  omega

/-- What is left of the stored alerts. -/
theorem cancelPrevious_getElem? : (cancelPrevious now self m)[h]? = some b ↔
    m[h]? = some b ∧ self.cancels now b = false ∧ b.isInEffect now = true := by
  have hfold : ∀ (items : List (Uint256 × CUnsignedAlert)) (m : AlertMap),
      (items.foldl (fun mapAlerts item =>
        if self.cancels now item.2 then mapAlerts.erase item.1
        else if !item.2.isInEffect now then mapAlerts.erase item.1
        else mapAlerts) m)[h]? =
      if ∃ item ∈ items, item.1 = h ∧ (self.cancels now item.2 || !item.2.isInEffect now) =
        true then none
      else m[h]? := by
    intro items
    induction items with
    | nil => simp
    | cons item items ih =>
      intro m
      rw [foldl_cons, ih]
      by_cases hlater : ∃ item ∈ items, item.1 = h ∧
        (self.cancels now item.2 || !item.2.isInEffect now) = true
      · have hex : ∃ item' ∈ item :: items, item'.1 = h ∧
          (self.cancels now item'.2 || !item'.2.isInEffect now) = true := by
          obtain ⟨item', hmem, hdrop⟩ := hlater
          exact ⟨item', .tail _ hmem, hdrop⟩
        rw [if_pos hlater, if_pos hex]
      · rw [if_neg hlater]
        simp only [exists_mem_cons_iff, hlater]
        cases hcancels : self.cancels now item.2 <;> cases heffect : item.2.isInEffect now <;>
          simp [Std.TreeMap.getElem?_erase]
  rw [cancelPrevious, hfold]
  by_cases hdrop : ∃ item ∈ m.toList, item.1 = h ∧
    (self.cancels now item.2 || !item.2.isInEffect now) = true
  · rw [if_pos hdrop]
    obtain ⟨⟨h', b'⟩, hmem, rfl, hdrop⟩ := hdrop
    have hb' := Std.TreeMap.mem_toList_iff_getElem?_eq_some.mp hmem
    constructor
    · intro hnone
      cases hnone
    · rintro ⟨hb, hcancels, heffect⟩
      rw [hb'] at hb
      cases hb
      rw [hcancels, heffect] at hdrop
      cases hdrop
  · rw [if_neg hdrop]
    refine ⟨fun hb => ⟨hb, ?_⟩, And.left⟩
    have hmem : (h, b) ∈ m.toList := Std.TreeMap.mem_toList_iff_getElem?_eq_some.mpr hb
    have hkeep := fun hd => hdrop ⟨(h, b), hmem, rfl, hd⟩
    simpa using hkeep

/-- **A call with a correctly signed alert.** -/
theorem processAlert_eq (hsigned : alert.Signed E self) : alert.processAlert E now m =
    if self.isInEffect now = false ∨ self.nID = maxInt ∧ self.isReserved = false then .ok false m
    else if ∃ (h : Uint256) (b : CUnsignedAlert), (cancelPrevious now self m)[h]? = some b ∧
      b.cancels now self = true then
      .ok false (cancelPrevious now self m)
    else .ok true ((cancelPrevious now self m).insertIfNew (E.hash alert.vchMsg) self) := by
  obtain ⟨hverify, r, hread⟩ := hsigned
  have hcheck : alert.checkSignature E m = .ok (some self) m := by
    unfold CAlert.checkSignature
    rw [hverify]
    simp only [hread]
    rfl
  have hany : (cancelPrevious now self m).toList.any (fun item => item.2.cancels now self) = true ↔
      ∃ (h : Uint256) (b : CUnsignedAlert), (cancelPrevious now self m)[h]? = some b ∧
      b.cancels now self = true := by
    rw [List.any_eq_true]
    constructor
    · rintro ⟨⟨h, b⟩, hmem, hcancels⟩
      exact ⟨h, b, Std.TreeMap.mem_toList_iff_getElem?_eq_some.mp hmem, hcancels⟩
    · rintro ⟨h, b, hb, hcancels⟩
      exact ⟨(h, b), Std.TreeMap.mem_toList_iff_getElem?_eq_some.mpr hb, hcancels⟩
  unfold CAlert.processAlert
  rw [bind_of_ok hcheck]
  dsimp only
  cases heffect : self.isInEffect now with
  | false => simp
  | true =>
    by_cases hreserved : self.nID = maxInt ∧ self.isReserved = false
    · simp [hreserved]
    · have hreserved' : ¬ (self.nID = maxInt ∧ (!self.isReserved) = true) :=
        by simpa using hreserved
      simp only [Bool.not_true, Bool.false_eq_true, if_false, Bool.true_eq_false, false_or,
        if_neg hreserved, if_neg hreserved']
      rw [modify_bind_apply, get_bind_apply]
      by_cases hcancelled :
        (cancelPrevious now self m).toList.any (fun item => item.2.cancels now self) = true
      · rw [if_pos hcancelled, if_pos (hany.mp hcancelled)]
        rfl
      · rw [if_neg hcancelled, if_neg fun hex => hcancelled (hany.mpr hex)]
        rfl

end Call

/-! ### Runs -/

/-- The alert does not cancel the ID `INT_MAX`, or it is a final alert itself, or it is no longer in
effect. -/
def CUnsignedAlert.Spares (self : CUnsignedAlert) (now : ℤ) : Prop :=
  self.isInEffect now = true → self.nID ≠ maxInt →
    ¬ (maxInt ≤ self.nCancel ∨ maxInt ∈ self.setCancel)

/-- A final alert is stored. -/
def HasFinal (m : AlertMap) : Prop := ∃ (h : Uint256) (b : CUnsignedAlert), m[h]? = some b ∧
    b.isFinal = true

/-- Runs of `ProcessAlert` on correctly signed alerts, at adjusted times before `INT_MAX`, in which
every alert after a final alert spares it.  The flag notes that a final alert was accepted. -/
inductive AlertRun (E : AlertEnv) : Bool → AlertMap → Prop
  | start : AlertRun E false ∅
  | step {fFinal answer : Bool} {m m' : AlertMap} {now : ℤ} {alert : CAlert} {self : CUnsignedAlert}
      (hrun : AlertRun E fFinal m) (hnow : now < maxInt) (hsigned : alert.Signed E self)
      (hspares : fFinal = true → self.Spares now)
      (hcall : alert.processAlert E now m = .ok answer m') :
      AlertRun E (fFinal || (answer && self.isFinal)) m'

/-- The stored alerts: the reserved ID is the final alert's, and after a final alert there is
nothing else. -/
structure AlertsKept (fFinal : Bool) (m : AlertMap) : Prop where
  bound : ∀ (h : Uint256) (b : CUnsignedAlert), m[h]? = some b → b.nID ≤ maxInt
  reserved : ∀ (h : Uint256) (b : CUnsignedAlert), m[h]? = some b → b.nID = maxInt →
    b.isFinal = true
  only : fFinal = true → ∀ (h : Uint256) (b : CUnsignedAlert), m[h]? = some b → b.nID = maxInt
  kept : fFinal = true → HasFinal m

section Step

variable {E : AlertEnv} {now : ℤ} {alert : CAlert} {self b : CUnsignedAlert}
  {m m' : AlertMap} {h : Uint256} {fFinal answer : Bool}

theorem isFinal_iff : b.isFinal = true ↔ b.nID = maxInt ∧ b.isReserved = true := by
  simp [CUnsignedAlert.isFinal]

theorem isFinal_inEffect (hfinal : b.isFinal = true) (hnow : now < maxInt) :
    b.isInEffect now = true := by
  obtain ⟨-, hreserved⟩ := isFinal_iff.mp hfinal
  simp only [CUnsignedAlert.isReserved, Bool.and_eq_true, decide_eq_true_eq] at hreserved
  rw [CUnsignedAlert.isInEffect, decide_eq_true_eq, hreserved.1.1.1.1.1.1]
  exact hnow

theorem isFinal_cancels (hfinal : b.isFinal = true) (hnow : now < maxInt)
    (hid : self.nID < maxInt) : b.cancels now self = true := by
  obtain ⟨-, hreserved⟩ := isFinal_iff.mp hfinal
  simp only [CUnsignedAlert.isReserved, Bool.and_eq_true, decide_eq_true_eq] at hreserved
  have hle : self.nID ≤ maxInt - 1 := by omega
  rw [CUnsignedAlert.cancels, isFinal_inEffect hfinal hnow, hreserved.1.1.1.1.1.2]
  simp [hle]

theorem cancelPrevious_of_final (hkept : AlertsKept fFinal m) (hfinal : self.isFinal = true)
    (hnow : now < maxInt) (hb : (cancelPrevious now self m)[h]? = some b) :
    m[h]? = some b ∧ b.isFinal = true := by
  obtain ⟨hold, hcancels, -⟩ := cancelPrevious_getElem?.mp hb
  refine ⟨hold, hkept.reserved h b hold ?_⟩
  by_contra hne
  have hle := hkept.bound h b hold
  rw [isFinal_cancels hfinal hnow (by omega)] at hcancels
  cases hcancels

theorem getElem?_insertIfNew {k : Uint256} (hb : (m.insertIfNew k self)[h]? = some b) :
    b = self ∨ m[h]? = some b := by
  rw [Std.TreeMap.getElem?_insertIfNew] at hb
  split_ifs at hb
  · cases hb
    exact .inl rfl
  · exact .inr hb

theorem exists_insertIfNew (m : AlertMap) (k : Uint256) (self : CUnsignedAlert) :
    ∃ b, (m.insertIfNew k self)[k]? = some b := by
  rw [Std.TreeMap.getElem?_insertIfNew]
  split_ifs with hk
  · exact ⟨_, rfl⟩
  · by_contra hnone
    push Not at hnone
    refine hk ⟨Std.compare_eq_iff_eq.mpr rfl, ?_⟩
    rw [Std.TreeMap.mem_iff_isSome_getElem?, isSome_iff_exists]
    push Not
    exact hnone

/-- The cases of a call. -/
theorem processAlert_cases (hsigned : alert.Signed E self)
    (hcall : alert.processAlert E now m = .ok answer m') :
    ((self.isInEffect now = false ∨ self.nID = maxInt ∧ self.isReserved = false) ∧ answer =
    false ∧ m' = m) ∨ (self.isInEffect now = true ∧ (self.nID = maxInt → self.isFinal = true) ∧
        ((∃ (h : Uint256) (b : CUnsignedAlert), (cancelPrevious now self m)[h]? = some b ∧
        b.cancels now self = true) ∧ answer = false ∧ m' = cancelPrevious now self m ∨
          (∀ (h : Uint256) (b : CUnsignedAlert), (cancelPrevious now self m)[h]? = some b →
            b.cancels now self = false) ∧ answer = true ∧
            m' = (cancelPrevious now self m).insertIfNew (E.hash alert.vchMsg) self)) := by
  rw [processAlert_eq hsigned] at hcall
  split_ifs at hcall with hrefused hcancelled
  · cases hcall
    exact .inl ⟨hrefused, rfl, rfl⟩
  · cases hcall
    push Not at hrefused
    refine .inr ⟨by simpa using hrefused.1, fun hid =>
      isFinal_iff.mpr ⟨hid, by simpa using hrefused.2 hid⟩, .inl ⟨hcancelled, rfl, rfl⟩⟩
  · cases hcall
    push Not at hrefused hcancelled
    refine .inr ⟨by simpa using hrefused.1, fun hid =>
      isFinal_iff.mpr ⟨hid, by simpa using hrefused.2 hid⟩,
      .inr ⟨fun h b hb => by simpa using hcancelled h b hb, rfl, rfl⟩⟩

end Step

section Kept

variable {E : AlertEnv} {now : ℤ} {alert : CAlert} {self b : CUnsignedAlert}
  {m m' : AlertMap} {h : Uint256} {fFinal answer : Bool}

theorem cancels_maxInt (heffect : self.isInEffect now = true) (hid : b.nID = maxInt) :
    self.cancels now b = true ↔ maxInt ≤ self.nCancel ∨ maxInt ∈ self.setCancel := by
  rw [CUnsignedAlert.cancels, heffect, hid]
  simp

theorem CUnsignedAlert.Spares.final_left (hspares : self.Spares now)
    (heffect : self.isInEffect now = true) (hid : self.nID < maxInt) (hb : m[h]? = some b)
    (hfinal : b.isFinal = true) (hnow : now < maxInt) :
    (cancelPrevious now self m)[h]? = some b ∧ b.cancels now self = true := by
  refine ⟨cancelPrevious_getElem?.mpr ⟨hb, ?_, isFinal_inEffect hfinal hnow⟩,
    isFinal_cancels hfinal hnow hid⟩
  rw [← Bool.not_eq_true, cancels_maxInt heffect (isFinal_iff.mp hfinal).1]
  exact hspares heffect hid.ne

/-- **What is stored stays in order.** -/
theorem AlertsKept.step (hkept : AlertsKept fFinal m) (hnow : now < maxInt)
    (hsigned : alert.Signed E self) (hspares : fFinal = true → self.Spares now)
    (hcall : alert.processAlert E now m = .ok answer m') :
    AlertsKept (fFinal || (answer && self.isFinal)) m' := by
  have hle := hsigned.nID_le
  rcases processAlert_cases hsigned hcall with ⟨-, rfl, rfl⟩ | ⟨heffect, hself, hcases⟩
  · rwa [Bool.false_and, Bool.or_false]
  rcases hcases with ⟨⟨h0, b0, hb0, hcancels0⟩, rfl, rfl⟩ | ⟨hnone, rfl, rfl⟩
  · -- the alert was cancelled
    rw [Bool.false_and, Bool.or_false]
    refine ⟨fun h b hb => hkept.bound h b (cancelPrevious_getElem?.mp hb).1,
      fun h b hb => hkept.reserved h b (cancelPrevious_getElem?.mp hb).1,
      fun hf h b hb => hkept.only hf h b (cancelPrevious_getElem?.mp hb).1, fun hf => ?_⟩
    by_cases hid : self.nID = maxInt
    · exact ⟨h0, b0, hb0, (cancelPrevious_of_final hkept (hself hid) hnow hb0).2⟩
    · obtain ⟨h, b, hb, hfinal⟩ := hkept.kept hf
      exact ⟨h, b, ((hspares hf).final_left heffect (by omega) hb hfinal hnow).1, hfinal⟩
  · -- the alert was accepted
    have hfinalOf : (fFinal || (true && self.isFinal)) = true → self.isFinal = true := by
      intro hflag
      by_cases hid : self.nID = maxInt
      · exact hself hid
      · rcases Bool.or_eq_true_iff.mp hflag with hf | hself'
        · obtain ⟨h, b, hb, hfinal⟩ := hkept.kept hf
          obtain ⟨hleft, hcancels⟩ := (hspares hf).final_left heffect (by omega) hb hfinal hnow
          rw [hnone h b hleft] at hcancels
          cases hcancels
        · exact hself'
    refine ⟨fun h b hb => ?_, fun h b hb hid => ?_, fun hflag h b hb => ?_, fun hflag => ?_⟩
    · rcases getElem?_insertIfNew hb with rfl | hb
      · exact hle
      · exact hkept.bound h b (cancelPrevious_getElem?.mp hb).1
    · rcases getElem?_insertIfNew hb with rfl | hb
      · exact hself hid
      · exact hkept.reserved h b (cancelPrevious_getElem?.mp hb).1 hid
    · have hfinal := hfinalOf hflag
      rcases getElem?_insertIfNew hb with rfl | hb
      · exact (isFinal_iff.mp hfinal).1
      · exact (isFinal_iff.mp (cancelPrevious_of_final hkept hfinal hnow hb).2).1
    · have hfinal := hfinalOf hflag
      obtain ⟨b, hb⟩ := exists_insertIfNew (cancelPrevious now self m) (E.hash alert.vchMsg) self
      refine ⟨_, b, hb, ?_⟩
      rcases getElem?_insertIfNew hb with rfl | hb
      · exact hfinal
      · exact (cancelPrevious_of_final hkept hfinal hnow hb).2

theorem AlertRun.kept (h : AlertRun E fFinal m) : AlertsKept fFinal m := by
  induction h with
  | start =>
    have hempty : ∀ (h : Uint256) (b : CUnsignedAlert), ¬ (∅ : AlertMap)[h]? = some b := by
      intro h b hb
      cases hb
    exact ⟨fun h b hb => absurd hb (hempty h b), fun h b hb => absurd hb (hempty h b), nofun, nofun⟩
  | step _ hnow hsigned hspares hcall ih => exact ih.step hnow hsigned hspares hcall

/-- **The final alert stays exactly as long as it is spared.**  After any run: a final alert is
accepted, or one is stored; and once one was accepted one is stored, which the next call keeps,
accepting no smaller ID, if and only if its alert spares it. -/
theorem finalAlert_kept_iff (h : AlertRun E fFinal m) (hnow : now < maxInt)
    (hsigned : alert.Signed E self) : ∃ answer m', alert.processAlert E now m = .ok answer m' ∧
      (self.isFinal = true → answer = true ∨ HasFinal m) ∧
      (fFinal = true → HasFinal m ∧
        (HasFinal m' ∧ (answer = true → ¬ self.nID < maxInt) ↔ self.Spares now)) := by
  have hkept := h.kept
  have hle := hsigned.nID_le
  obtain ⟨answer, m', hcall⟩ : ∃ answer m', alert.processAlert E now m = .ok answer m' := by
    rw [processAlert_eq hsigned]
    split_ifs <;> exact ⟨_, _, rfl⟩
  refine ⟨answer, m', hcall, fun hfinal => ?_, fun hf =>
    ⟨hkept.kept hf, ⟨fun hgood heffect hid hcancels => ?_, fun hspares => ?_⟩⟩⟩
  · have hin := isFinal_inEffect hfinal hnow
    rcases processAlert_cases hsigned hcall with ⟨hrefused, -, -⟩ | ⟨-, -, hcases⟩
    · rw [hin, (isFinal_iff.mp hfinal).2] at hrefused
      simp at hrefused
    · rcases hcases with ⟨⟨h0, b0, hb0, -⟩, -, -⟩ | ⟨-, hanswer, -⟩
      · obtain ⟨hold, hfinal0⟩ := cancelPrevious_of_final hkept hfinal hnow hb0
        exact .inr ⟨h0, b0, hold, hfinal0⟩
      · exact .inl hanswer
  · -- everything that is stored is cancelled, and the alert is accepted
    have hempty : ∀ (h : Uint256) (b : CUnsignedAlert),
      ¬ (cancelPrevious now self m)[h]? = some b := by
      intro h b hb
      obtain ⟨hold, hnot, -⟩ := cancelPrevious_getElem?.mp hb
      rw [(cancels_maxInt heffect (hkept.only hf h b hold)).mpr hcancels] at hnot
      cases hnot
    rcases processAlert_cases hsigned hcall with ⟨hrefused, -, -⟩ | ⟨-, -, hcases⟩
    · rcases hrefused with hout | ⟨hid', -⟩
      · rw [heffect] at hout
        cases hout
      · exact hid hid'
    · rcases hcases with ⟨⟨h0, b0, hb0, -⟩, -, -⟩ | ⟨-, hanswer, -⟩
      · exact hempty h0 b0 hb0
      · exact hgood.2 hanswer (by omega)
  · have hnext := hkept.step hnow hsigned (fun _ => hspares) hcall
    rw [hf, Bool.true_or] at hnext
    refine ⟨hnext.kept rfl, fun hanswer hlt => ?_⟩
    rcases processAlert_cases hsigned hcall with ⟨-, hno, -⟩ | ⟨heffect, -, hcases⟩
    · rw [hanswer] at hno
      cases hno
    · rcases hcases with ⟨-, hno, -⟩ | ⟨hnone, -, -⟩
      · rw [hanswer] at hno
        cases hno
      · obtain ⟨h, b, hb, hfinal⟩ := hkept.kept hf
        obtain ⟨hleft, hcancels⟩ := hspares.final_left heffect hlt hb hfinal hnow
        rw [hnone h b hleft] at hcancels
        cases hcancels

end Kept

/-! ### A final alert that is cancelled -/

/-- A key that signs everything. -/
def AlertEnv.compromised : AlertEnv where
  verify _ _ := true
  hash vchMsg := BitVec.ofNat 256 (valueLE vchMsg)

/-- The final alert. -/
def finalAlert : CUnsignedAlert :=
  ⟨1, maxInt, maxInt, maxInt, maxInt - 1, [], 0, maxInt, [], maxInt, [], urgent, []⟩

/-- An alert that cancels every ID. -/
def everythingIsOk : CUnsignedAlert :=
  ⟨1, 2000000000, 2000000000, 1, maxInt, [], 0, maxInt, [], 0, [], [], []⟩

/-- An alert as it is signed. -/
def CUnsignedAlert.signed (self : CUnsignedAlert) : CAlert := ⟨self.serialize, []⟩

theorem CUnsignedAlert.Fits.signed {self : CUnsignedAlert} (h : self.Fits) :
    self.signed.Signed .compromised self :=
  ⟨rfl, [], (reads_alert _ _ _).mpr ⟨h, (append_nil _).symm⟩⟩

theorem finalAlert_fits : finalAlert.Fits := by
  refine ⟨?_, ?_, ?_, ?_, ?_, ?_, ?_, ?_, ?_, ?_, ?_, ?_, ?_⟩ <;> decide

theorem everythingIsOk_fits : everythingIsOk.Fits := by
  refine ⟨?_, ?_, ?_, ?_, ?_, ?_, ?_, ?_, ?_, ?_, ?_, ?_, ?_⟩ <;> decide

theorem finalAlert_accepted : ∃ m, finalAlert.signed.processAlert .compromised 1700000000 ∅ =
    .ok true m ∧ AlertRun .compromised true m := by
  have hcall := @processAlert_eq _ 1700000000 _ _ ∅ finalAlert_fits.signed
  have hrefused : ¬ (finalAlert.isInEffect 1700000000 = false ∨
      finalAlert.nID = maxInt ∧ finalAlert.isReserved = false) := by decide
  rw [if_neg hrefused, if_neg] at hcall
  · exact ⟨_, hcall, .step .start (by decide) finalAlert_fits.signed nofun hcall⟩
  · rintro ⟨h, b, hb, -⟩
    have hold := (cancelPrevious_getElem?.mp hb).1
    cases hold

theorem finalAlert_kept_everythingIsOk : ∃ m, AlertRun .compromised true m ∧ ∃ answer m',
    everythingIsOk.signed.processAlert .compromised 1700000000 m = .ok answer m' ∧
      (everythingIsOk.isFinal = true → answer = true ∨ HasFinal m) ∧
      (true = true → HasFinal m ∧ (HasFinal m' ∧ (answer = true → ¬ everythingIsOk.nID < maxInt) ↔
        everythingIsOk.Spares 1700000000)) := by
  obtain ⟨m, -, hrun⟩ := finalAlert_accepted
  exact ⟨m, hrun, finalAlert_kept_iff hrun (by decide) everythingIsOk_fits.signed⟩

/-- The final alert is accepted, and then an alert with the ID 1, after which no final alert is
stored. -/
theorem finalAlert_overridden : ∃ m m', finalAlert.isFinal = true ∧ everythingIsOk.nID < maxInt ∧
    finalAlert.signed.processAlert .compromised 1700000000 ∅ = .ok true m ∧
    everythingIsOk.signed.processAlert .compromised 1700000000 m = .ok true m' ∧ ¬ HasFinal m' := by
  obtain ⟨m, hfirst, hrun⟩ := finalAlert_accepted
  have hempty : ∀ (h : Uint256) (b : CUnsignedAlert),
    ¬ (cancelPrevious 1700000000 everythingIsOk m)[h]? = some b := by
    intro h b hb
    obtain ⟨hold, hnot, -⟩ := cancelPrevious_getElem?.mp hb
    rw [(cancels_maxInt (by decide) (hrun.kept.only rfl h b hold)).mpr (.inl (by decide))] at hnot
    cases hnot
  have hcall := @processAlert_eq _ 1700000000 _ _ m everythingIsOk_fits.signed
  have hrefused : ¬ (everythingIsOk.isInEffect 1700000000 = false ∨
      everythingIsOk.nID = maxInt ∧ everythingIsOk.isReserved = false) := by decide
  rw [if_neg hrefused, if_neg fun ⟨h, b, hb, _⟩ => hempty h b hb] at hcall
  refine ⟨m, _, by decide, by decide, hfirst, hcall, ?_⟩
  rintro ⟨h, b, hb, hfinal⟩
  rcases getElem?_insertIfNew hb with rfl | hb
  · cases hfinal
  · exact hempty h b hb

end Espers
