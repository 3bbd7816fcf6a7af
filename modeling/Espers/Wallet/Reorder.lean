import Espers.Core.Amount
import Espers.Core.Data
import Espers.Lib.Exec
import Mathlib.Data.List.Sort

/-!
# The order of old wallets

`ReorderTransactions` gives a position to every transaction and every accounting entry that has
none.  It visits all of them by time; one without a position takes the next one, and one with a
position moves up by the number of the positions taken that are not above its own.

* `Positioned` : the invariant of the loop; items that had a position are where `shifted` puts them.
* `reorderTransactions_consistent_iff` : **the new positions are consistent exactly if** no item
  moves to a position that was taken.
-/

namespace Espers

open Exec List Function Nat Int

/-- `TxPair`: a transaction of the wallet or an accounting entry. -/
inductive TxPair where
  | tx (hash : Uint256)
  | entry (nEntryNo : ℕ)
  deriving DecidableEq

/-- `DB_LOAD_FAIL`. -/
inductive DBErrors where
  | loadFail

/-- What `ReorderTransactions` reads and writes of a wallet. -/
structure OrderWallet where
  /-- The transactions by their hashes, with `nTimeReceived`. -/
  mapWallet : List (Uint256 × ℤ)
  /-- The entries of the default account in the database, with `nTime`. -/
  acentries : List (ℕ × ℤ)
  nOrderPos : TxPair → ℤ
  nOrderPosNext : ℤ

namespace OrderWallet

/-- `txByTime`, in the order of its iterator. -/
def txByTime (w : OrderWallet) : List TxPair :=
  let txByTime := w.mapWallet.map (fun e => (e.2, TxPair.tx e.1)) ++
    w.acentries.map fun e => (e.2, TxPair.entry e.1)
  (txByTime.insertionSort fun a b => a.1 ≤ b.1).map Prod.snd

/-- An item is at a position. -/
def place (item : TxPair) (nOrderPos : ℤ) (w : OrderWallet) : OrderWallet :=
  { w with nOrderPos := update w.nOrderPos item nOrderPos }

/-- The next position. -/
def withNext (nOrderPosNext : ℤ) (w : OrderWallet) : OrderWallet := { w with nOrderPosNext }

end OrderWallet

section Operations

variable (writes : TxPair → ℤ → Bool)

/-- The position of an item is set and written; an accounting entry that cannot be written is left
in the database as it was. -/
def writeOrderPos (item : TxPair) (nOrderPos : ℤ) : EStateM DBErrors OrderWallet Unit := do
  if writes item nOrderPos then modify (OrderWallet.place item nOrderPos)
  else
    match item with
    | .tx hash => do
      modify (OrderWallet.place (.tx hash) nOrderPos)
      throw .loadFail
    | .entry _ => throw .loadFail

/-- The loop of `ReorderTransactions`. -/
def reorderLoop : List ℤ → List TxPair → EStateM DBErrors OrderWallet Unit
  | _, [] => return ()
  | nOrderPosOffsets, item :: items => do
    let w ← get
    let nOrderPos := w.nOrderPos item
    if nOrderPos = -1 then do
      modify (OrderWallet.withNext (add64 w.nOrderPosNext 1))
      writeOrderPos writes item w.nOrderPosNext
      reorderLoop (nOrderPosOffsets ++ [w.nOrderPosNext]) items
    else do
      let nOrderPosOff := nOrderPosOffsets.countP (· ≤ nOrderPos)
      let nOrderPos := add64 nOrderPos nOrderPosOff
      modify (OrderWallet.withNext (max w.nOrderPosNext (add64 nOrderPos 1)))
      if nOrderPosOff = 0 then reorderLoop nOrderPosOffsets items
      else do
        -- since we're changing the order, write it back
        writeOrderPos writes item nOrderPos
        reorderLoop nOrderPosOffsets items

/-- `ReorderTransactions`. -/
def reorderTransactions : EStateM DBErrors OrderWallet Unit := do
  let w ← get
  modify (OrderWallet.withNext 0)
  reorderLoop writes [] w.txByTime

end Operations

/-! ### Consistency -/

/-- The items are different, and positions that are assigned are different numbers of 63 bits. -/
structure OrderWallet.Valid (w : OrderWallet) : Prop where
  hashes : (w.mapWallet.map Prod.fst).Nodup
  entries : (w.acentries.map Prod.fst).Nodup
  size : w.txByTime.length < 2 ^ 63
  range : ∀ item ∈ w.txByTime, w.nOrderPos item = -1 ∨
    0 ≤ w.nOrderPos item ∧ w.nOrderPos item < 2 ^ 63
  distinct : ∀ a ∈ w.txByTime, ∀ b ∈ w.txByTime, w.nOrderPos a ≠ -1 →
    w.nOrderPos a = w.nOrderPos b → a = b

/-- The positions of the items are different, and below the next one. -/
structure OrderWallet.Ordered (w : OrderWallet) (items : List TxPair) : Prop where
  distinct : ∀ a ∈ items, ∀ b ∈ items, w.nOrderPos a = w.nOrderPos b → a = b
  below : ∀ a ∈ items, 0 ≤ w.nOrderPos a ∧ w.nOrderPos a < w.nOrderPosNext

/-- The positions in a wallet are a consistent order that keeps another one. -/
structure ReordersConsistently (writes : TxPair → ℤ → Bool) (w w' : OrderWallet) : Prop where
  ordered : w'.Ordered w.txByTime
  keeps : ∀ a ∈ w.txByTime, ∀ b ∈ w.txByTime, w.nOrderPos a ≠ -1 → w.nOrderPos b ≠ -1 →
    (w.nOrderPos a < w.nOrderPos b ↔ w'.nOrderPos a < w'.nOrderPos b)
  again : reorderTransactions writes w' = .ok () w'

/-- Where a position moves when the given ones are taken. -/
def shifted (nOrderPosOffsets : List ℤ) (nOrderPos : ℤ) : ℤ :=
  nOrderPos + nOrderPosOffsets.countP (· ≤ nOrderPos)

/-- By the old positions, by time: with the next position and those that were taken, no item moves
to one that was taken, and no number overflows. -/
def Unclashing : ℤ → List ℤ → List ℤ → Prop
  | _, _, [] => True
  | nOrderPosNext, taken, nOrderPos :: items =>
    if nOrderPos = -1 then
      nOrderPosNext + 1 < 2 ^ 63 ∧ Unclashing (nOrderPosNext + 1) (taken ++ [nOrderPosNext]) items
    else
      shifted taken nOrderPos ∉ taken ∧ shifted taken nOrderPos + 1 < 2 ^ 63 ∧
        Unclashing (max nOrderPosNext (shifted taken nOrderPos + 1)) taken items

/-! ### The loop without the database -/

variable {writes : TxPair → ℤ → Bool} {w0 w w' : OrderWallet} {taken : List ℤ}
  {item : TxPair} {done items : List TxPair}

namespace OrderWallet

/-- An item without a position takes the next one. -/
def taking (item : TxPair) (w : OrderWallet) : OrderWallet :=
  (w.withNext (add64 w.nOrderPosNext 1)).place item w.nOrderPosNext

/-- An item with a position moves. -/
def moving (taken : List ℤ) (item : TxPair) (w : OrderWallet) : OrderWallet :=
  let nOrderPosOff := taken.countP (· ≤ w.nOrderPos item)
  let nOrderPos := add64 (w.nOrderPos item) nOrderPosOff
  let w := w.withNext (max w.nOrderPosNext (add64 nOrderPos 1))
  if nOrderPosOff = 0 then w else w.place item nOrderPos

/-- The wallet after the loop. -/
def reordered : List ℤ → List TxPair → OrderWallet → OrderWallet
  | _, [], w => w
  | taken, item :: items, w =>
    if w.nOrderPos item = -1 then reordered (taken ++ [w.nOrderPosNext]) items (w.taking item)
    else reordered taken items (w.moving taken item)

theorem taking_nOrderPos (item : TxPair) (w : OrderWallet) :
    (w.taking item).nOrderPos item = w.nOrderPosNext := update_self _ _ _

theorem taking_of_ne {a : TxPair} (h : a ≠ item) : (w.taking item).nOrderPos a = w.nOrderPos a :=
  update_of_ne h _ _

theorem moving_of_ne {a : TxPair} (h : a ≠ item) :
    (w.moving taken item).nOrderPos a = w.nOrderPos a := by
  rw [moving]
  split_ifs
  · rfl
  · exact update_of_ne h _ _

theorem moving_nOrderPosNext (taken : List ℤ) (item : TxPair) (w : OrderWallet) :
    (w.moving taken item).nOrderPosNext =
      max w.nOrderPosNext (add64 (add64 (w.nOrderPos item) (taken.countP (· ≤ w.nOrderPos item)))
        1) := by
  rw [moving]
  split_ifs <;> rfl

theorem moving_nOrderPos (h : -9223372036854775808 ≤ w.nOrderPos item)
    (h' : w.nOrderPos item < 9223372036854775808) : (w.moving taken item).nOrderPos item =
      add64 (w.nOrderPos item) (taken.countP (· ≤ w.nOrderPos item)) := by
  have hzero : add64 (w.nOrderPos item) 0 = w.nOrderPos item := by
    rw [add64, add_zero, wrap64_of_range h h']
  rw [moving]
  split_ifs with hoff
  · rw [hoff, Nat.cast_zero, hzero]
    rfl
  · exact update_self _ _ _

theorem reordered_of_notMem {a : TxPair} (h : a ∉ items) :
    (w.reordered taken items).nOrderPos a = w.nOrderPos a := by
  induction items generalizing taken w with
  | nil => rfl
  | cons item items ih =>
    obtain ⟨hne, hnot⟩ := ne_and_not_mem_of_not_mem_cons h
    rw [reordered]
    split_ifs
    · rw [ih hnot, taking_of_ne hne]
    · rw [ih hnot, moving_of_ne hne]

theorem reordered_nOrderPosNext_lt (h : w.nOrderPosNext < 9223372036854775808) :
    (w.reordered taken items).nOrderPosNext < 9223372036854775808 := by
  induction items generalizing taken w with
  | nil => exact h
  | cons item items ih =>
    rw [reordered]
    split_ifs
    · exact ih (wrap64_range _).2
    · refine ih ?_
      rw [moving_nOrderPosNext]
      exact max_lt h (wrap64_range _).2

theorem reordered_txByTime : (w.reordered taken items).txByTime = w.txByTime := by
  induction items generalizing taken w with
  | nil => rfl
  | cons item items ih =>
    rw [reordered]
    split_ifs
    · exact ih
    · rw [ih, moving]
      split_ifs <;> rfl

end OrderWallet

theorem eq_of_writeOrderPos {nOrderPos : ℤ}
    (h : writeOrderPos writes item nOrderPos w = .ok () w') : w' = w.place item nOrderPos := by
  unfold writeOrderPos at h
  split_ifs at h
  · cases h
    rfl
  · cases item with
    | tx hash => cases h
    | entry nEntryNo => cases h

theorem eq_of_reorderLoop (h : reorderLoop writes taken items w = .ok () w') :
    w' = w.reordered taken items := by
  induction items generalizing taken w with
  | nil =>
    cases h
    rfl
  | cons item items ih =>
    rw [reorderLoop, get_bind_apply] at h
    dsimp only at h
    rw [OrderWallet.reordered]
    split_ifs at h ⊢ with hnone hoff
    · rw [modify_bind_apply] at h
      obtain ⟨_, w1, hwrite, hloop⟩ := bind_eq_ok.1 h
      obtain rfl := eq_of_writeOrderPos hwrite
      exact ih hloop
    · rw [modify_bind_apply] at h
      rw [ih h, OrderWallet.moving, if_pos hoff]
    · rw [modify_bind_apply] at h
      obtain ⟨_, w1, hwrite, hloop⟩ := bind_eq_ok.1 h
      obtain rfl := eq_of_writeOrderPos hwrite
      rw [ih hloop, OrderWallet.moving, if_neg hoff]

theorem OrderWallet.Valid.nodup (h : w.Valid) : w.txByTime.Nodup := by
  have hperm := (perm_insertionSort (fun a b : ℤ × TxPair => a.1 ≤ b.1)
    (w.mapWallet.map (fun e => (e.2, .tx e.1)) ++
      w.acentries.map fun e => (e.2, .entry e.1))).map Prod.snd
  refine hperm.nodup_iff.2 ?_
  rw [map_append, map_map, map_map]
  refine List.Nodup.append ?_ ?_ ?_
  · have hmap := h.hashes.map (f := TxPair.tx) fun a b heq => TxPair.tx.inj heq
    rwa [map_map] at hmap
  · have hmap := h.entries.map (f := TxPair.entry) fun a b heq => TxPair.entry.inj heq
    rwa [map_map] at hmap
  · intro item htx hentry
    obtain ⟨e, -, rfl⟩ := mem_map.1 htx
    obtain ⟨e', -, heq⟩ := mem_map.1 hentry
    cases heq

/-! ### Where items move -/

theorem le_shifted (taken : List ℤ) (p : ℤ) : p ≤ shifted taken p :=
  le_add_of_nonneg_right (natCast_nonneg _)

theorem shifted_lt_shifted (taken : List ℤ) {p q : ℤ} (h : p < q) :
    shifted taken p < shifted taken q := by
  have hcount : taken.countP (· ≤ p) ≤ taken.countP (· ≤ q) := by
    refine countP_mono_left fun s _ hs => ?_
    rw [decide_eq_true_eq] at hs ⊢
    exact hs.trans h.le
  rw [shifted, shifted]
  omega

theorem shifted_lt_shifted_iff (taken : List ℤ) (p q : ℤ) :
    shifted taken p < shifted taken q ↔ p < q := by
  constructor
  · intro h
    by_contra hle
    rcases (not_lt.1 hle).lt_or_eq with hlt | rfl
    · exact absurd (shifted_lt_shifted taken hlt) (not_lt.2 h.le)
    · exact lt_irrefl _ h
  · exact shifted_lt_shifted taken

theorem shifted_injective (taken : List ℤ) {p q : ℤ} (h : shifted taken p = shifted taken q) :
    p = q := by
  rcases lt_trichotomy p q with hlt | heq | hgt
  · exact absurd h (shifted_lt_shifted taken hlt).ne
  · exact heq
  · exact absurd h (shifted_lt_shifted taken hgt).ne'

theorem shifted_append {p s : ℤ} (h : p < s) (taken : List ℤ) :
    shifted (taken ++ [s]) p = shifted taken p := by
  have hnot : ¬(decide (s ≤ p) = true) := by
    rw [decide_eq_true_eq]
    exact not_le.2 h
  rw [shifted, shifted, countP_append, countP_singleton, if_neg hnot, add_zero]

theorem add64_countP {p : ℤ} (hlow : 0 ≤ p) (hfits : shifted taken p < 2 ^ 63) :
    add64 p (taken.countP (· ≤ p)) = shifted taken p := by
  have hle := le_shifted taken p
  exact wrap64_of_range (by rw [shifted] at hle; omega) (by rw [shifted] at hfits; omega)

theorem OrderWallet.moving_eq_shifted (hlow : 0 ≤ w.nOrderPos item)
    (hfits : shifted taken (w.nOrderPos item) + 1 < 2 ^ 63) :
    (w.moving taken item).nOrderPos item = shifted taken (w.nOrderPos item) ∧
      (w.moving taken item).nOrderPosNext =
        max w.nOrderPosNext (shifted taken (w.nOrderPos item) + 1) := by
  have hle := le_shifted taken (w.nOrderPos item)
  have hadd : add64 (w.nOrderPos item) (taken.countP (· ≤ w.nOrderPos item)) =
      shifted taken (w.nOrderPos item) := add64_countP hlow (by omega)
  constructor
  · rw [moving_nOrderPos (by omega) (by omega), hadd]
  · rw [moving_nOrderPosNext, hadd, add64, wrap64_of_range (by omega) (by omega)]

theorem OrderWallet.taking_nOrderPosNext (hlow : 0 ≤ w.nOrderPosNext)
    (hnext : w.nOrderPosNext + 1 < 2 ^ 63) (item : TxPair) :
    (w.taking item).nOrderPosNext = w.nOrderPosNext + 1 :=
  wrap64_of_range (by omega) (by omega)

/-! ### The invariant -/

/-- What the loop keeps: the items that are done have different positions below the next one, and
those that had one are where the positions taken have moved them. -/
structure Positioned (w0 : OrderWallet) (taken : List ℤ) (done : List TxPair) (w : OrderWallet) :
    Prop where
  next : 0 ≤ w.nOrderPosNext ∧ w.nOrderPosNext < 2 ^ 63
  ordered : w.Ordered done
  size : taken.length ≤ done.length
  taken_iff : ∀ s, s ∈ taken ↔ ∃ a ∈ done, w0.nOrderPos a = -1 ∧ w.nOrderPos a = s
  moved : ∀ a ∈ done, w0.nOrderPos a ≠ -1 → w.nOrderPos a = shifted taken (w0.nOrderPos a)
  /-- The next position is not larger than necessary. -/
  top : w.nOrderPosNext = 0 ∨ ∃ a ∈ done, w.nOrderPos a + 1 = w.nOrderPosNext

theorem Positioned.start (w0 : OrderWallet) : Positioned w0 [] [] (w0.withNext 0) where
  next := ⟨le_rfl, show (0 : ℤ) < 2 ^ 63 by norm_num⟩
  ordered := ⟨fun a ha => absurd ha not_mem_nil, fun a ha => absurd ha not_mem_nil⟩
  size := le_rfl
  taken_iff s := by simp
  moved a ha := absurd ha not_mem_nil
  top := .inl rfl

theorem mem_done_or_eq {a : TxPair} (h : a ∈ done ++ [item]) : a ∈ done ∨ a = item :=
  (mem_append.1 h).imp_right mem_singleton.1

/-- One more item has another position than those that are done. -/
theorem OrderWallet.Ordered.snoc (h : w.Ordered done)
    (hsame : ∀ a ∈ done, w'.nOrderPos a = w.nOrderPos a)
    (hother : ∀ a ∈ done, w.nOrderPos a ≠ w'.nOrderPos item)
    (hnext : w.nOrderPosNext ≤ w'.nOrderPosNext)
    (hitem : 0 ≤ w'.nOrderPos item ∧ w'.nOrderPos item < w'.nOrderPosNext) :
    w'.Ordered (done ++ [item]) := by
  constructor
  · intro a ha b hb heq
    rcases mem_done_or_eq ha with hda | rfl
    · rcases mem_done_or_eq hb with hdb | rfl
      · rw [hsame a hda, hsame b hdb] at heq
        exact h.distinct a hda b hdb heq
      · rw [hsame a hda] at heq
        exact absurd heq (hother a hda)
    · rcases mem_done_or_eq hb with hdb | rfl
      · rw [hsame b hdb] at heq
        exact absurd heq.symm (hother b hdb)
      · rfl
  · intro a ha
    rcases mem_done_or_eq ha with ha | rfl
    · rw [hsame a ha]
      exact ⟨(h.below a ha).1, (h.below a ha).2.trans_le hnext⟩
    · exact hitem

/-- An item takes the next position. -/
theorem Positioned.taking (h : Positioned w0 taken done w) (hitem : item ∉ done)
    (hnone : w0.nOrderPos item = -1) (hnext : w.nOrderPosNext + 1 < 2 ^ 63) :
    Positioned w0 (taken ++ [w.nOrderPosNext]) (done ++ [item]) (w.taking item) := by
  have hlow := h.next.1
  have hposNext := OrderWallet.taking_nOrderPosNext hlow hnext item
  have hsame : ∀ a ∈ done, (w.taking item).nOrderPos a = w.nOrderPos a := fun a ha =>
    OrderWallet.taking_of_ne fun heq => hitem (heq ▸ ha)
  have hself := OrderWallet.taking_nOrderPos item w
  constructor
  · rw [hposNext]
    omega
  · refine h.ordered.snoc hsame (fun a ha => ?_) ?_ ?_
    · rw [hself]
      exact (h.ordered.below a ha).2.ne
    · rw [hposNext]
      omega
    · rw [hself, hposNext]
      omega
  · rw [length_append, length_append]
    exact Nat.add_le_add_right h.size 1
  · intro s
    rw [mem_append, mem_singleton, h.taken_iff]
    constructor
    · rintro (⟨a, ha, ha', rfl⟩ | rfl)
      · exact ⟨a, mem_append_left _ ha, ha', hsame a ha⟩
      · exact ⟨item, mem_append_right _ mem_cons_self, hnone, hself⟩
    · rintro ⟨a, ha, ha', rfl⟩
      rcases mem_done_or_eq ha with ha | rfl
      · exact .inl ⟨a, ha, ha', (hsame a ha).symm⟩
      · exact .inr hself
  · intro a ha hpos
    rcases mem_done_or_eq ha with ha | rfl
    · have hmoved := h.moved a ha hpos
      have hbelow := (h.ordered.below a ha).2
      have hle := le_shifted taken (w0.nOrderPos a)
      rw [hsame a ha, hmoved, shifted_append (by omega)]
    · exact absurd hnone hpos
  · exact .inr ⟨item, mem_append_right _ mem_cons_self, by rw [hself, hposNext]⟩

/-- An item moves to a position that is not taken. -/
theorem Positioned.moving (hvalid : w0.Valid) (hsub : ∀ a ∈ done ++ [item], a ∈ w0.txByTime)
    (h : Positioned w0 taken done w) (hitem : item ∉ done) (hpos : w0.nOrderPos item ≠ -1)
    (hw : w.nOrderPos item = w0.nOrderPos item) (hfree : shifted taken (w0.nOrderPos item) ∉ taken)
    (hfits : shifted taken (w0.nOrderPos item) + 1 < 2 ^ 63) :
    Positioned w0 taken (done ++ [item]) (w.moving taken item) := by
  have hmem : item ∈ w0.txByTime := hsub item (mem_append_right _ mem_cons_self)
  obtain ⟨hlow, hhigh⟩ := (hvalid.range item hmem).resolve_left hpos
  have hle := le_shifted taken (w0.nOrderPos item)
  rw [← hw] at hlow hfits
  obtain ⟨hself, hposNext⟩ := OrderWallet.moving_eq_shifted hlow hfits
  rw [hw] at hlow hfits hself hposNext
  have hsame : ∀ a ∈ done, (w.moving taken item).nOrderPos a = w.nOrderPos a := fun a ha =>
    OrderWallet.moving_of_ne fun heq => hitem (heq ▸ ha)
  -- an item that is done is elsewhere
  have hother : ∀ a ∈ done, w.nOrderPos a ≠ shifted taken (w0.nOrderPos item) := by
    intro a ha heq
    by_cases hold : w0.nOrderPos a = -1
    · exact hfree ((h.taken_iff _).2 ⟨a, ha, hold, heq⟩)
    · rw [h.moved a ha hold] at heq
      have hsamePos := shifted_injective taken heq
      obtain rfl := hvalid.distinct a (hsub a (mem_append_left _ ha)) item hmem hold hsamePos
      exact hitem ha
  have hnext := h.next
  constructor
  · rw [hposNext]
    omega
  · refine h.ordered.snoc hsame (fun a ha => ?_) ?_ ?_
    · rw [hself]
      exact hother a ha
    · rw [hposNext]
      exact le_max_left _ _
    · rw [hself, hposNext]
      omega
  · rw [length_append]
    exact h.size.trans (le_add_right _ _)
  · intro s
    rw [h.taken_iff]
    constructor
    · rintro ⟨a, ha, ha', rfl⟩
      exact ⟨a, mem_append_left _ ha, ha', hsame a ha⟩
    · rintro ⟨a, ha, ha', rfl⟩
      rcases mem_done_or_eq ha with ha | rfl
      · exact ⟨a, ha, ha', (hsame a ha).symm⟩
      · exact absurd ha' hpos
  · intro a ha hold
    rcases mem_done_or_eq ha with ha | rfl
    · rw [hsame a ha, h.moved a ha hold]
    · exact hself
  · rw [hposNext]
    rcases le_total (shifted taken (w0.nOrderPos item) + 1) w.nOrderPosNext with hmax | hmax
    · rw [max_eq_left hmax]
      refine h.top.imp_right ?_
      rintro ⟨a, ha, htop⟩
      exact ⟨a, mem_append_left _ ha, by rw [hsame a ha, htop]⟩
    · rw [max_eq_right hmax]
      exact .inr ⟨item, mem_append_right _ mem_cons_self, by rw [hself]⟩

/-! ### Whole runs -/

/-- What is known of the items that are left. -/
structure Unvisited (w0 : OrderWallet) (done items : List TxPair) (w : OrderWallet) : Prop where
  nodup : (done ++ items).Nodup
  sub : ∀ a ∈ done ++ items, a ∈ w0.txByTime
  same : ∀ a ∈ items, w.nOrderPos a = w0.nOrderPos a

namespace Unvisited

theorem notMem (h : Unvisited w0 done (item :: items) w) : item ∉ done ∧ item ∉ items := by
  obtain ⟨-, hnodup, hdisjoint⟩ := nodup_append.1 h.nodup
  exact ⟨fun hmem => hdisjoint item hmem item mem_cons_self rfl, (nodup_cons.1 hnodup).1⟩

theorem tail (h : Unvisited w0 done (item :: items) w)
    (hw : ∀ a ≠ item, w'.nOrderPos a = w.nOrderPos a) :
    Unvisited w0 (done ++ [item]) items w' where
  nodup := by
    rw [append_assoc]
    exact h.nodup
  sub a ha := by
    rw [append_assoc] at ha
    exact h.sub a ha
  same a ha := by
    rw [hw a fun heq => h.notMem.2 (heq ▸ ha), h.same a (.tail _ ha)]

theorem sub_concat (h : Unvisited w0 done (item :: items) w) :
    ∀ a ∈ done ++ [item], a ∈ w0.txByTime := by
  intro a ha
  refine h.sub a ?_
  rw [← singleton_append, ← append_assoc]
  exact mem_append_left _ ha

end Unvisited

/-- Without clashes every item is placed. -/
theorem Positioned.reordered (hvalid : w0.Valid) (hrest : Unvisited w0 done items w)
    (h : Positioned w0 taken done w)
    (hclear : Unclashing w.nOrderPosNext taken (items.map w0.nOrderPos)) :
    ∃ taken', Positioned w0 taken' (done ++ items) (w.reordered taken items) := by
  induction items generalizing taken done w with
  | nil =>
    rw [append_nil]
    exact ⟨taken, h⟩
  | cons item items ih =>
    have hitem := hrest.notMem.1
    have hw := hrest.same item mem_cons_self
    rw [map_cons, Unclashing] at hclear
    rw [OrderWallet.reordered, ← singleton_append, ← append_assoc, hw]
    split_ifs at hclear ⊢ with hnone
    · obtain ⟨hnext, hclear'⟩ := hclear
      have hposNext := OrderWallet.taking_nOrderPosNext h.next.1 hnext item
      exact ih (hrest.tail fun a => OrderWallet.taking_of_ne)
        (h.taking hitem hnone hnext) (hposNext ▸ hclear')
    · obtain ⟨hfree, hfits, hclear'⟩ := hclear
      have hmoved := h.moving hvalid hrest.sub_concat hitem hnone hw hfree hfits
      have hlow := ((hvalid.range item (hrest.sub item
        (mem_append_right _ mem_cons_self))).resolve_left hnone).1
      rw [← hw] at hlow hfits
      have hposNext := (OrderWallet.moving_eq_shifted hlow hfits).2
      rw [hw] at hposNext
      exact ih (hrest.tail fun a => OrderWallet.moving_of_ne) hmoved (hposNext ▸ hclear')

/-- If the items are placed in the end, there was no clash. -/
theorem Positioned.unclashing (hvalid : w0.Valid) (hrest : Unvisited w0 done items w)
    (h : Positioned w0 taken done w) (hord : (w.reordered taken items).Ordered (done ++ items)) :
    Unclashing w.nOrderPosNext taken (items.map w0.nOrderPos) := by
  induction items generalizing taken done w with
  | nil => exact trivial
  | cons item items ih =>
    have hitem := hrest.notMem.1
    have hw := hrest.same item mem_cons_self
    have hmem : item ∈ done ++ item :: items := mem_append_right _ mem_cons_self
    have hbelow := hord.below item hmem
    rw [map_cons, Unclashing]
    rw [OrderWallet.reordered, hw] at hord hbelow
    have hconcat : done ++ item :: items = done ++ [item] ++ items := by
      rw [append_assoc, singleton_append]
    split_ifs at hord hbelow ⊢ with hnone
    · have hlast : ((w.taking item).reordered (taken ++ [w.nOrderPosNext]) items).nOrderPosNext <
          9223372036854775808 := OrderWallet.reordered_nOrderPosNext_lt (wrap64_range _).2
      rw [OrderWallet.reordered_of_notMem hrest.notMem.2, OrderWallet.taking_nOrderPos] at hbelow
      have hnext : w.nOrderPosNext + 1 < 2 ^ 63 := by omega
      refine ⟨hnext, ?_⟩
      rw [← OrderWallet.taking_nOrderPosNext h.next.1 hnext item]
      exact ih (hrest.tail fun a => OrderWallet.taking_of_ne) (h.taking hitem hnone hnext)
        (hconcat ▸ hord)
    · have hlast : ((w.moving taken item).reordered taken items).nOrderPosNext <
          9223372036854775808 := by
        refine OrderWallet.reordered_nOrderPosNext_lt ?_
        rw [OrderWallet.moving_nOrderPosNext]
        exact max_lt h.next.2 (wrap64_range _).2
      obtain ⟨hlow, hhigh⟩ := (hvalid.range item (hrest.sub item hmem)).resolve_left hnone
      -- a sum that overflows is negative
      have hfits : shifted taken (w0.nOrderPos item) + 1 < 2 ^ 63 := by
        have hsize := hvalid.size
        have hdone : (done ++ item :: items).length ≤ w0.txByTime.length :=
          (subperm_of_subset hrest.nodup hrest.sub).length_le
        have hcount : taken.countP (· ≤ w0.nOrderPos item) ≤ taken.length := countP_le_length
        have htaken := h.size
        rw [length_append] at hdone
        rw [OrderWallet.reordered_of_notMem hrest.notMem.2,
          OrderWallet.moving_nOrderPos (by omega) (by omega), hw, add64, wrap64] at hbelow
        rw [shifted]
        omega
      rw [← hw] at hlow hfits
      obtain ⟨hself, hposNext⟩ := OrderWallet.moving_eq_shifted hlow hfits
      rw [hw] at hlow hfits hself hposNext
      have hfree : shifted taken (w0.nOrderPos item) ∉ taken := by
        intro hclash
        obtain ⟨a, ha, -, hpos⟩ := (h.taken_iff _).1 hclash
        have hne : a ≠ item := fun heq => hitem (heq ▸ ha)
        have hnot : a ∉ items := fun hmem' => disjoint_of_nodup_append hrest.nodup ha
          (.tail _ hmem')
        refine hne (hord.distinct a (mem_append_left _ ha) item hmem ?_)
        rw [OrderWallet.reordered_of_notMem hnot, OrderWallet.reordered_of_notMem hrest.notMem.2,
          OrderWallet.moving_of_ne hne, hself, hpos]
      refine ⟨hfree, hfits, ?_⟩
      rw [← hposNext]
      exact ih (hrest.tail fun a => OrderWallet.moving_of_ne)
        (h.moving hvalid hrest.sub_concat hitem hnone hw hfree hfits) (hconcat ▸ hord)

/-- When every item has a position, the loop only finds the next one. -/
theorem reorderLoop_settled {nOrderPosNext : ℤ}
    (hpos : ∀ a ∈ items, 0 ≤ w.nOrderPos a ∧ w.nOrderPos a < nOrderPosNext)
    (hfits : nOrderPosNext < 2 ^ 63) (hle : w.nOrderPosNext ≤ nOrderPosNext)
    (htop : w.nOrderPosNext = nOrderPosNext ∨ ∃ a ∈ items, w.nOrderPos a + 1 = nOrderPosNext) :
    reorderLoop writes [] items w = .ok () (w.withNext nOrderPosNext) := by
  induction items generalizing w with
  | nil =>
    obtain rfl : w.nOrderPosNext = nOrderPosNext :=
      htop.resolve_right fun ⟨a, ha, _⟩ => absurd ha not_mem_nil
    rfl
  | cons item items ih =>
    obtain ⟨hlow, hhigh⟩ := hpos item mem_cons_self
    have hzero : add64 (w.nOrderPos item) 0 = w.nOrderPos item := by
      rw [add64, add_zero, wrap64_of_range (by omega) (by omega)]
    have hone : add64 (w.nOrderPos item) 1 = w.nOrderPos item + 1 :=
      wrap64_of_range (by omega) (by omega)
    rw [reorderLoop, get_bind_apply]
    rw [if_neg (by omega), modify_bind_apply, countP_nil, if_pos rfl, Nat.cast_zero, hzero, hone]
    refine ih (w := w.withNext (max w.nOrderPosNext (w.nOrderPos item + 1)))
      (fun a ha => hpos a (.tail _ ha)) (max_le hle hhigh) ?_
    rcases htop with htop | ⟨a, ha, htop⟩
    · exact .inl ((max_eq_left (by omega)).trans htop)
    · rcases mem_cons.1 ha with rfl | hmem
      · exact .inl ((max_eq_right (by omega)).trans htop)
      · exact .inr ⟨a, hmem, htop⟩

theorem eq_of_reorderTransactions (h : reorderTransactions writes w = .ok () w') :
    w' = (w.withNext 0).reordered [] w.txByTime := by
  exact eq_of_reorderLoop h

/-- If `ReorderTransactions` succeeds, the new positions are consistent exactly if no item moved to
a position that was taken, and no number overflowed. -/
theorem reorderTransactions_consistent_iff (hvalid : w.Valid)
    (hrun : reorderTransactions writes w = .ok () w') :
    ReordersConsistently writes w w' ↔ Unclashing 0 [] (w.txByTime.map w.nOrderPos) := by
  have hrest : Unvisited w [] w.txByTime (w.withNext 0) :=
    ⟨hvalid.nodup, fun _ ha => ha, fun _ _ => rfl⟩
  have heq := eq_of_reorderTransactions hrun
  constructor
  · intro h
    have hord := h.ordered
    rw [heq] at hord
    exact (Positioned.start w).unclashing hvalid hrest hord
  · intro hclear
    obtain ⟨taken, hplaced⟩ := (Positioned.start w).reordered hvalid hrest hclear
    rw [nil_append, ← heq] at hplaced
    refine ⟨hplaced.ordered, fun a ha b hb hposa hposb => ?_, ?_⟩
    · rw [hplaced.moved a ha hposa, hplaced.moved b hb hposb, shifted_lt_shifted_iff]
    · have hitems : w'.txByTime = w.txByTime := by
        rw [heq, OrderWallet.reordered_txByTime]
        rfl
      rw [reorderTransactions, get_bind_apply, modify_bind_apply, hitems]
      exact reorderLoop_settled (w := w'.withNext 0) hplaced.ordered.below hplaced.next.2
        hplaced.next.1 (hplaced.top.imp_left Eq.symm)

/-- Two transactions, the first at position 0, and an entry between them. -/
def entryBetween : OrderWallet where
  mapWallet := [(1, 100), (2, 300)]
  acentries := [(1, 200)]
  nOrderPos
    | .tx 1 => 0
    | .tx 2 => 1
    | _ => -1
  nOrderPosNext := 0

/-- A transaction at position 0 and two earlier entries. -/
def entriesBefore : OrderWallet where
  mapWallet := [(1, 300)]
  acentries := [(1, 100), (2, 200)]
  nOrderPos
    | .tx 1 => 0
    | _ => -1
  nOrderPosNext := 0

theorem reorderTransactions_consistent_iff_between : ∃ w',
    reorderTransactions (fun _ _ => true) entryBetween = .ok () w' ∧
      ReordersConsistently (fun _ _ => true) entryBetween w' := by
  have hvalid : entryBetween.Valid :=
    ⟨by decide, by decide, by decide, by decide, by decide⟩
  have hpos : entryBetween.txByTime.map entryBetween.nOrderPos = [0, -1, 1] := by decide
  have hclear : Unclashing 0 [] [0, -1, 1] := by norm_num [Unclashing, shifted]
  exact ⟨_, rfl, (reorderTransactions_consistent_iff hvalid rfl).2 (hpos ▸ hclear)⟩

/-- The transaction moves to the position of the second entry. -/
theorem reorderTransactions_clash : entriesBefore.Valid ∧ ∃ w',
    reorderTransactions (fun _ _ => true) entriesBefore = .ok () w' ∧
      w'.nOrderPos (.entry 2) = 1 ∧ w'.nOrderPos (.tx 1) = 1 ∧
      ¬ReordersConsistently (fun _ _ => true) entriesBefore w' := by
  refine ⟨⟨by decide, by decide, by decide, by decide, by decide⟩, _, rfl, by decide, by decide, ?_⟩
  intro h
  have hsame := h.ordered.distinct (.entry 2) (by decide) (.tx 1) (by decide) (by decide)
  cases hsame

end Espers
