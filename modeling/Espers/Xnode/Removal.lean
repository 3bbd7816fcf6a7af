import Espers.Lib.Loop
import Espers.Pas.Gossip
import Espers.Xnode.Random

/-!
# Removing an entry

`RemovePAS` and `CXNodeMan::Remove` look for the entry with an iterator that they never move: an
entry that is not the one looked for is looked at again.

`erase` assigns the entries behind the one erased to their predecessors.  The assignment of an alias
service does not carry the state over (`swap` has no line for it), and a copy of a node is paid last
at the time of the copy.

* `removes_first_iff` : **an entry is removed, and nothing else, exactly if** it is the first of the
  list, and the entries behind it survive being moved.
-/

namespace Espers

open Loop

/-! ### The source -/

/-- The entries behind an erased one: `d` is the entry that is assigned to next, `i` the number of
assignments so far. -/
def closeGap {α : Type} (assign : ℕ → α → α → α) : ℕ → α → List α → List α
  | _, _, [] => []
  | i, d, s :: rest => assign i d s :: closeGap assign (i + 1) s rest

/-- `std::vector::erase`. -/
def eraseAt {α : Type} (assign : ℕ → α → α → α) : List α → ℕ → List α
  | [], _ => []
  | d :: rest, 0 => closeGap assign 0 d rest
  | a :: rest, i + 1 => a :: eraseAt assign rest i

/-- `CPubkeyaliasservice::operator=`. -/
def CPubkeyaliasservice.assign (d s : CPubkeyaliasservice) : CPubkeyaliasservice :=
  { s with activeStatePAS := d.activeStatePAS }

/-- `CXNode::CXNode(const CXNode&)`. -/
def CXNode.copy (adjustedTime : ℤ) (other : CXNode) : CXNode :=
  { other with nLastPaid := adjustedTime }

/-- One round of the loop of `RemovePAS`, at the position of the iterator. -/
def removePAS (vin : CTxIn) (s : List CPubkeyaliasservice × ℕ) :
    (List CPubkeyaliasservice × ℕ) ⊕ List CPubkeyaliasservice :=
  match s.1[s.2]? with
  | none => .inr s.1
  | some pas =>
    if pas.vin = vin then
      if pas.vin.prevPubKey = vin.prevPubKey then
        .inr (eraseAt (fun _ => CPubkeyaliasservice.assign) s.1 s.2)
      else .inl s
    else .inl s

/-- One round of the loop of `CXNodeMan::Remove`; the clock may go on between two copies. -/
def removeXNode (adjustedTime : ℕ → ℤ) (vin : CTxIn) (s : List CXNode × ℕ) :
    (List CXNode × ℕ) ⊕ List CXNode :=
  match s.1[s.2]? with
  | none => .inr s.1
  | some xn =>
    if xn.vin = vin then .inr (eraseAt (fun i _ => CXNode.copy (adjustedTime i)) s.1 s.2)
    else .inl s

theorem closeGap_assign_iff {i : ℕ} {d : CPubkeyaliasservice} {l : List CPubkeyaliasservice} :
    closeGap (fun _ => CPubkeyaliasservice.assign) i d l = l ↔
      ∀ pas ∈ l, pas.activeStatePAS = d.activeStatePAS := by
  induction l generalizing i d with
  | nil => simp [closeGap]
  | cons s rest ih =>
    have hassign : d.assign s = s ↔ s.activeStatePAS = d.activeStatePAS := by
      rw [CPubkeyaliasservice.assign, CPubkeyaliasservice.mk.injEq]
      simp [eq_comm]
    rw [closeGap, List.cons.injEq, hassign, ih, List.forall_mem_cons]
    exact and_congr_right fun h => by rw [h]

/-- Nodes are as before when they have been paid last at the time of their copy. -/
theorem closeGap_copy_iff {adjustedTime : ℕ → ℤ} {i : ℕ} {d : CXNode} {l : List CXNode} :
    closeGap (fun i _ => CXNode.copy (adjustedTime i)) i d l = l ↔
      ∀ k xn, l[k]? = some xn → xn.nLastPaid = adjustedTime (i + k) := by
  induction l generalizing i d with
  | nil => simp [closeGap]
  | cons s rest ih =>
    have hcopy : s.copy (adjustedTime i) = s ↔ s.nLastPaid = adjustedTime i := by
      rw [CXNode.copy, CXNode.mk.injEq]
      simp [eq_comm]
    rw [closeGap, List.cons.injEq, hcopy, ih]
    constructor
    · rintro ⟨hs, hrest⟩ (_ | k) xn hget
      · cases hget
        exact hs
      · rw [hrest k xn hget]
        congr 1
        omega
    · intro h
      refine ⟨h 0 s rfl, fun k xn hget => ?_⟩
      rw [h (k + 1) xn hget]
      congr 1
      omega

/-! ### The loops -/

theorem ends_iff_first {α : Type} {body : List α × ℕ → (List α × ℕ) ⊕ List α} {p : α → Prop}
    {assign : ℕ → α → α → α} (hnil : body ([], 0) = .inr [])
    (hhit : ∀ d rest, p d → body (d :: rest, 0) = .inr (closeGap assign 0 d rest))
    (hmiss : ∀ d rest, ¬p d → body (d :: rest, 0) = .inl (d :: rest, 0)) {l r : List α} :
    Ends body (l, 0) r ↔
      l = [] ∧ r = [] ∨ ∃ d rest, l = d :: rest ∧ p d ∧ r = closeGap assign 0 d rest := by
  cases l with
  | nil => simp [ends_iff_of_exit hnil]
  | cons d rest =>
    by_cases hd : p d
    · simp [ends_iff_of_exit (hhit d rest hd), hd]
    · simp [not_ends_of_stuck (hmiss d rest hd), hd]

variable {vin : CTxIn} {adjustedTime : ℕ → ℤ}

theorem removePAS_ends_iff {l r : List CPubkeyaliasservice} : Ends (removePAS vin) (l, 0) r ↔
    l = [] ∧ r = [] ∨ ∃ d rest, l = d :: rest ∧ d.vin = vin ∧
      r = closeGap (fun _ => CPubkeyaliasservice.assign) 0 d rest := by
  refine ends_iff_first rfl (fun d rest hd => ?_) fun d rest hd => ?_
  · simp [removePAS, hd, eraseAt]
  · simp [removePAS, hd]

theorem removeXNode_ends_iff {l r : List CXNode} : Ends (removeXNode adjustedTime vin) (l, 0) r ↔
      l = [] ∧ r = [] ∨ ∃ d rest, l = d :: rest ∧ d.vin = vin ∧
        r = closeGap (fun i _ => CXNode.copy (adjustedTime i)) 0 d rest := by
  refine ends_iff_first rfl (fun d rest hd => ?_) fun d rest hd => ?_
  · simp [removeXNode, hd, eraseAt]
  · simp [removeXNode, hd]

/-- **`RemovePAS` removes the entry and nothing else exactly if** the list is empty, or its first
entry is the one and all entries have the same state; it ends in no other case than that the list is
empty or its first entry the one. -/
theorem removePAS_first_iff (vin : CTxIn) (l : List CPubkeyaliasservice) :
    ((∃ r, Ends (removePAS vin) (l, 0) r) ↔ ∀ d ∈ l.head?, d.vin = vin) ∧
      (Ends (removePAS vin) (l, 0) (l.eraseP fun pas => pas.vin = vin) ↔
        ∀ d ∈ l.head?, d.vin = vin ∧ ∀ pas ∈ l, pas.activeStatePAS = d.activeStatePAS) := by
  simp only [removePAS_ends_iff]
  cases l with
  | nil => simp
  | cons d rest =>
    by_cases hd : d.vin = vin
    · have hgap : rest = closeGap (fun _ => CPubkeyaliasservice.assign) 0 d rest ↔ _ :=
        eq_comm.trans closeGap_assign_iff
      simp [hd, hgap]
    · simp [hd]

/-- **`CXNodeMan::Remove` removes the node and nothing else exactly if** the list is empty, or its
first node is the one and every other one has been paid last at the time at which it is copied. -/
theorem removeXNode_first_iff (adjustedTime : ℕ → ℤ) (vin : CTxIn) (l : List CXNode) :
    ((∃ r, Ends (removeXNode adjustedTime vin) (l, 0) r) ↔ ∀ d ∈ l.head?, d.vin = vin) ∧
      (Ends (removeXNode adjustedTime vin) (l, 0) (l.eraseP fun xn => xn.vin = vin) ↔
        ∀ d ∈ l.head?, d.vin = vin ∧
          ∀ k xn, l[k + 1]? = some xn → xn.nLastPaid = adjustedTime k) := by
  simp only [removeXNode_ends_iff]
  cases l with
  | nil => simp
  | cons d rest =>
    by_cases hd : d.vin = vin
    · have hgap : rest = closeGap (fun i _ => CXNode.copy (adjustedTime i)) 0 d rest ↔ _ :=
        eq_comm.trans closeGap_copy_iff
      simp [hd, hgap]
    · simp [hd]

/-- **The two functions end, and remove the first entry with the input and nothing else**, exactly
if the list is empty, or its first entry is the one and the entries behind it survive being moved:
alias services that have its state, and nodes that have been paid last when they are copied. -/
theorem removes_first_iff (vin : CTxIn) (adjustedTime : ℕ → ℤ)
    (vPubkeyaliasservices : List CPubkeyaliasservice) (vXNodes : List CXNode) :
    (Ends (removePAS vin) (vPubkeyaliasservices, 0)
        (vPubkeyaliasservices.eraseP fun pas => pas.vin = vin) ↔
      ∀ d ∈ vPubkeyaliasservices.head?, d.vin = vin ∧
        ∀ pas ∈ vPubkeyaliasservices, pas.activeStatePAS = d.activeStatePAS) ∧
    (Ends (removeXNode adjustedTime vin) (vXNodes, 0) (vXNodes.eraseP fun xn => xn.vin = vin) ↔
      ∀ d ∈ vXNodes.head?, d.vin = vin ∧
        ∀ k xn, vXNodes[k + 1]? = some xn → xn.nLastPaid = adjustedTime k) ∧
    ((∃ r, Ends (removePAS vin) (vPubkeyaliasservices, 0) r) ↔
      ∀ d ∈ vPubkeyaliasservices.head?, d.vin = vin) ∧
    ((∃ r, Ends (removeXNode adjustedTime vin) (vXNodes, 0) r) ↔
      ∀ d ∈ vXNodes.head?, d.vin = vin) := by
  obtain ⟨hpas, hpas'⟩ := removePAS_first_iff vin vPubkeyaliasservices
  obtain ⟨hxn, hxn'⟩ := removeXNode_first_iff adjustedTime vin vXNodes
  exact ⟨hpas', hxn', hpas, hxn⟩

/-- The second of two entries is looked for and never found. -/
theorem remove_second_diverges : (¬∃ r, Ends (removePAS ⟨⟨0xabcdef, 1⟩, [], uintMax⟩)
      ([storedEntry 1690000000,
        { storedEntry 1695000000 with vin := ⟨⟨0xabcdef, 1⟩, [], uintMax⟩ }], 0) r) ∧
    ¬∃ r, Ends (removeXNode (fun _ => 1700000000) ⟨⟨7, 1⟩, [], uintMax⟩) (twoXNodes, 0) r := by
  refine ⟨fun ⟨r, h⟩ => not_ends_of_stuck ?_ h, fun ⟨r, h⟩ => not_ends_of_stuck ?_ h⟩
  · simp [removePAS, storedEntry, aliasEntry]
  · simp [removeXNode, twoXNodes]

end Espers
