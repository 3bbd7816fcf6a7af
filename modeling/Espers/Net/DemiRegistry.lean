import Espers.Lib.AddRemove
import Mathlib.Data.List.GetD

/-!
# The lists of demi-nodes

A demi-node is a peer whose address is in `vecRegisteredDemiNodes`; only such a peer may force a
reorganisation (`demimodule.cpp`, `deminet.cpp`).  The source erases through an iterator of the copy
that it searched: here the element at the matched index is erased.  `fHaveDemi` is passed by value,
what is stored in it reaches no caller.

* `registeredDemi_tracks_iff` : **the list of registered addresses does so along a run exactly if no
  removal is requested while it is empty**: that request registers the address.
-/

namespace Espers

open AddRemove List

/-- `UpdateRegisteredDemi` on a list that is not empty. -/
def updateListedDemi (vecDemiNodes : List String) (peerReadAddr : String) (fAddDemi : Bool) :
    List String :=
  match vecDemiNodes.findIdx? (peerReadAddr == ·) with
  | some vecLoopList => if fAddDemi then vecDemiNodes else vecDemiNodes.eraseIdx vecLoopList
  | none => if fAddDemi then vecDemiNodes ++ [peerReadAddr] else vecDemiNodes

/-- `UpdateRegisteredDemi`. -/
def updateRegisteredDemi (vecRegisteredDemiNodes : List String) (peerReadAddr : String)
    (fAddDemi : Bool) : List String :=
  -- "Check if adding initial value": `fAddDemi` is not read
  if vecRegisteredDemiNodes.isEmpty then vecRegisteredDemiNodes ++ [peerReadAddr]
  else updateListedDemi vecRegisteredDemiNodes peerReadAddr fAddDemi

/-- `FindRegisteredDemi`: the value that `fDemiFound` is left with. -/
def findRegisteredDemi (vecRegisteredDemiNodes : List String) (peerReadAddr : String) : Bool :=
  vecRegisteredDemiNodes.any (peerReadAddr == ·)

/-- `fDemiPeerRelay`. -/
def fDemiPeerRelay (vecRegisteredDemiNodes : List String) (peerAddr : String) : Bool :=
  findRegisteredDemi vecRegisteredDemiNodes peerAddr

/-- The registered addresses after a run of calls of `UpdateRegisteredDemi`. -/
def registeredAfter (init : List String) (calls : List (Request String)) : List String :=
  calls.foldl (fun l r => updateRegisteredDemi l r.val r.add) init

variable {l init : List String} {calls : List (Request String)} {addr : String} {r : Request String}

@[simp] theorem findRegisteredDemi_eq_true : findRegisteredDemi l addr = true ↔ addr ∈ l := by
  simp [findRegisteredDemi]

@[simp] theorem registeredAfter_nil : registeredAfter init [] = init := rfl

@[simp] theorem registeredAfter_snoc : registeredAfter init (calls ++ [r]) =
    updateRegisteredDemi (registeredAfter init calls) r.val r.add := by
  simp [registeredAfter]

/-- The search serves a request as a set does. -/
theorem updateListedDemi_serves (hl : l.Nodup) (r : Request String) :
    Serves l r (updateListedDemi l r.val r.add) := by
  obtain ⟨addr, add⟩ := r
  unfold updateListedDemi
  cases hfind : l.findIdx? (addr == ·) with
  | none =>
    have habs : addr ∉ l := by
      intro h
      have hne := List.findIdx?_eq_none_iff.1 hfind addr h
      simp at hne
    cases add
    · exact serves_absent hl habs
    · exact serves_append hl habs
  | some i =>
    obtain ⟨hi, heq, -⟩ := List.findIdx?_eq_some_iff_getElem.1 hfind
    have ha : l[i] = addr := (eq_of_beq heq).symm
    cases add
    · exact serves_eraseIdx hl hi ha
    · exact serves_present hl (ha ▸ getElem_mem hi)

theorem updateRegisteredDemi_serves (hl : l.Nodup) (hne : l = [] → r.add = true) :
    Serves l r (updateRegisteredDemi l r.val r.add) := by
  cases l with
  | nil =>
    obtain ⟨addr, add⟩ := r
    obtain rfl : add = true := hne rfl
    exact serves_append hl not_mem_nil
  | cons a l => exact updateListedDemi_serves hl r

theorem updateRegisteredDemi_nil (addr : String) (fAddDemi : Bool) :
    updateRegisteredDemi [] addr fAddDemi = [addr] := rfl

theorem registeredDemi_tracks (hinit : init.Nodup)
    (h : ∀ before addr, before ++ [⟨addr, false⟩] <+: calls → registeredAfter init before ≠ []) :
    AddRemove.Tracks init calls (registeredAfter init calls) := by
  induction calls using List.reverseRecOn with
  | nil => exact .start hinit
  | append_singleton calls r ih =>
    have hcalls : AddRemove.Tracks init calls (registeredAfter init calls) :=
      ih fun before addr hpre => h before addr (hpre.trans (prefix_append calls [r]))
    rw [registeredAfter_snoc]
    refine hcalls.snoc (updateRegisteredDemi_serves hcalls.nodup ?_)
    intro hnil
    -- otherwise the request is a removal from the empty list
    by_contra hadd
    obtain ⟨addr, add⟩ := r
    obtain rfl : add = false := by simpa using hadd
    exact h calls addr prefix_rfl hnil

/-- **When the registry behaves as a set.**  For every initial list without repetition and every run
of `UpdateRegisteredDemi`: in all states of the run `FindRegisteredDemi` finds exactly the addresses
that were there or added and not removed since, if and only if no removal was requested while the
list was empty. -/
theorem registeredDemi_tracks_iff (init : List String) (hinit : init.Nodup)
    (calls : List (Request String)) :
    (∀ before, before <+: calls → ∀ addr,
        (findRegisteredDemi (registeredAfter init before) addr = true ↔ Listed init before addr)) ↔
      ∀ before addr, before ++ [⟨addr, false⟩] <+: calls → registeredAfter init before ≠ [] := by
  constructor
  · intro h before addr hpre hnil
    have hfound := h _ hpre addr
    rw [registeredAfter_snoc, hnil, updateRegisteredDemi_nil] at hfound
    exact not_listed_snoc_remove (hfound.1 (by simp))
  · intro h before hpre addr
    have htracks : AddRemove.Tracks init before (registeredAfter init before) :=
      registeredDemi_tracks hinit fun b a hb => h b a (hb.trans hpre)
    rw [findRegisteredDemi_eq_true, htracks.mem]

/-- The last address is removed and another one added. -/
theorem registeredDemi_tracks_handover : ["95.39.17.203"].Nodup ∧ ∀ addr,
      (findRegisteredDemi (registeredAfter ["95.39.17.203"]
          [⟨"95.39.17.203", false⟩, ⟨"46.18.47.191", true⟩]) addr = true ↔
        Listed ["95.39.17.203"] [⟨"95.39.17.203", false⟩, ⟨"46.18.47.191", true⟩] addr) := by
  refine ⟨nodup_singleton _, ?_⟩
  refine (registeredDemi_tracks_iff ["95.39.17.203"] (List.nodup_singleton _) _).2 ?_ _
    prefix_rfl
  intro before addr hpre
  -- only the first request is a removal
  obtain ⟨after, hafter⟩ := hpre
  cases before with
  | nil => simp
  | cons r before =>
    cases before with
    | nil => simp at hafter
    | cons s before => simp at hafter

/-- The removal of an address from the empty list, and the address is found. -/
theorem registeredDemi_removal_registers :
    findRegisteredDemi (registeredAfter [] [⟨"46.18.47.191", false⟩]) "46.18.47.191" = true ∧
      ¬ Listed [] [⟨"46.18.47.191", false⟩] "46.18.47.191" := by
  refine ⟨by simp [registeredAfter, updateRegisteredDemi_nil], ?_⟩
  exact @not_listed_snoc_remove _ [] [] _

end Espers
