import Mathlib.Data.Int.ConditionallyCompleteOrder
import Espers.Wallet.KeyPool

/-!
# Who holds which key

An index that a reservation holds has left the set, and may be larger than all indices that are
left.

* `KeyPoolRun` : the states that are reached from a consistent pool.
* `Unheld` : topping up writes no record that a reservation holds.
* `keyPool_safe` : **in a run in which every step is unheld, no key is held twice, or after it was
  kept, and no step throws**.
-/

namespace Espers

open Exec KeyPool Function Finset Option Set

variable {Key : Type} {E : KeyPoolEnv Key} {s t : KeyPool Key} {kept : Set Key} {i j : ℤ} {r : ℕ}
  {key : Key}

/-! ### The invariant -/

/-- A pool that no reservation took a key from. -/
structure KeyPool.Consistent (E : KeyPoolEnv Key) (s : KeyPool Key) : Prop where
  pos : ∀ i ∈ s.setKeyPool, 0 < i
  recorded : ∀ i ∈ s.setKeyPool, s.Recorded i
  inj : ∀ i ∈ s.setKeyPool, ∀ j ∈ s.setKeyPool, s.pool i = s.pool j → i = j
  /-- The keys are not made again. -/
  old : ∀ i ∈ s.setKeyPool, ∀ n, s.nGenerated ≤ n → s.pool i ≠ some (E.newKey n)
  unreserved : ∀ r, (s.reserve r).nIndex = -1

/-- The index is in the pool, or a reservation holds it. -/
def KeyPool.Live (s : KeyPool Key) (i : ℤ) : Prop :=
  i ∈ s.setKeyPool ∨ i ≠ -1 ∧ ∃ r, (s.reserve r).nIndex = i

/-- Every live index has a record of its own, and one owner. -/
structure Owned (E : KeyPoolEnv Key) (s : KeyPool Key) (kept : Set Key) : Prop where
  pos : ∀ i, s.Live i → 0 < i
  recorded : ∀ i, s.Live i → s.Recorded i
  unkept : ∀ i key, s.Live i → s.pool i = some key → key ∉ kept
  inj : ∀ i j, s.Live i → s.Live j → s.pool i = s.pool j → i = j
  old : ∀ i n, s.Live i → s.nGenerated ≤ n → s.pool i ≠ some (E.newKey n)
  keptOld : ∀ key ∈ kept, ∀ n, s.nGenerated ≤ n → key ≠ E.newKey n
  held : ∀ r, (s.reserve r).nIndex ≠ -1 →
    (s.reserve r).nIndex ∉ s.setKeyPool ∧ (s.reserve r).vchPubKey = s.pool (s.reserve r).nIndex
  alone : ∀ r r', (s.reserve r).nIndex ≠ -1 → (s.reserve r).nIndex = (s.reserve r').nIndex → r = r'

namespace Owned

theorem start (h : s.Consistent E) : Owned E s ∅ := by
  have hlive : ∀ i, s.Live i → i ∈ s.setKeyPool := by
    rintro i (hi | ⟨hne, r, hr⟩)
    · exact hi
    · exact absurd (hr.symm.trans (h.unreserved r)) hne
  exact {
    pos := fun i hi => h.pos i (hlive i hi)
    recorded := fun i hi => h.recorded i (hlive i hi)
    unkept := fun _ _ _ _ => id
    inj := fun i j hi hj => h.inj i (hlive i hi) j (hlive j hj)
    old := fun i n hi => h.old i (hlive i hi) n
    keptOld := fun _ hk => absurd hk (notMem_empty _)
    held := fun r hr => absurd (h.unreserved r) hr
    alone := fun r _ hr => absurd (h.unreserved r) hr }

/-- No index becomes live, live records stay, and what is kept was the key of an index that is not
live any more. -/
theorem shrink {kept' : Set Key} (h : Owned E s kept) (hlive : ∀ i, t.Live i → s.Live i)
    (hpool : ∀ i, t.Live i → t.pool i = s.pool i) (hhave : t.haveKey = s.haveKey)
    (hgen : t.nGenerated = s.nGenerated)
    (hkept : ∀ key ∈ kept', key ∈ kept ∨ ∃ i, s.Live i ∧ ¬ t.Live i ∧ s.pool i = some key)
    (hheld : ∀ r, (t.reserve r).nIndex ≠ -1 →
      (t.reserve r).nIndex ∉ t.setKeyPool ∧ (t.reserve r).vchPubKey = t.pool (t.reserve r).nIndex)
    (halone : ∀ r r', (t.reserve r).nIndex ≠ -1 →
      (t.reserve r).nIndex = (t.reserve r').nIndex → r = r') : Owned E t kept' where
  pos i hi := h.pos i (hlive i hi)
  recorded i hi := by
    rw [KeyPool.Recorded, hpool i hi, hhave]
    exact h.recorded i (hlive i hi)
  unkept i key hi hkey hk := by
    rw [hpool i hi] at hkey
    obtain hk | ⟨j, hj, hdead, hkey'⟩ := hkept key hk
    · exact h.unkept i key (hlive i hi) hkey hk
    · obtain rfl := h.inj i j (hlive i hi) hj (hkey.trans hkey'.symm)
      exact hdead hi
  inj i j hi hj := by
    rw [hpool i hi, hpool j hj]
    exact h.inj i j (hlive i hi) (hlive j hj)
  old i n hi := by
    rw [hpool i hi, hgen]
    exact h.old i n (hlive i hi)
  keptOld key hk n hn := by
    rw [hgen] at hn
    obtain hk | ⟨j, hj, -, hkey⟩ := hkept key hk
    · exact h.keptOld key hk n hn
    · rintro rfl
      exact h.old j n hj hn hkey
  held := hheld
  alone := halone

/-! ### New keys -/

/-- A key of the wallet that nobody has. -/
structure Unused (E : KeyPoolEnv Key) (s : KeyPool Key) (kept : Set Key) (key : Key) : Prop where
  haveKey : s.haveKey key = true
  pool : ∀ i, s.Live i → s.pool i ≠ some key
  unkept : key ∉ kept
  old : ∀ n, s.nGenerated ≤ n → key ≠ E.newKey n

section

variable (h : Owned E s kept)
include h

theorem discard (hu : Unused E s kept key) : Owned E s (kept ∪ {key}) where
  pos := h.pos
  recorded := h.recorded
  unkept i key' hi hkey' := by
    rintro (hk | rfl)
    · exact h.unkept i key' hi hkey' hk
    · exact hu.pool i hi hkey'
  inj := h.inj
  old := h.old
  keptOld key' := by
    rintro (hk | rfl)
    · exact h.keptOld key' hk
    · exact hu.old
  held := h.held
  alone := h.alone

theorem nEnd_pos : 0 < s.nEnd := by
  unfold KeyPool.nEnd
  split_ifs with hne
  · have hpos := h.pos _ (.inl (s.setKeyPool.max'_mem hne))
    omega
  · exact one_pos

/-- A key is written where no reservation is. -/
theorem write (hu : Unused E s kept key)
    (hfree : ∀ r, (s.reserve r).nIndex ≠ s.nEnd) : Owned E (s.write key) kept := by
  have hdead : ¬ s.Live s.nEnd := by
    rintro (hmem | ⟨-, r, hr⟩)
    · exact nEnd_notMem hmem
    · exact hfree r hr
  have hnew : (s.write key).pool s.nEnd = some key := update_self _ _ _
  have hother : ∀ i, s.Live i → (s.write key).pool i = s.pool i := fun i hi => by
    refine update_of_ne ?_ _ _
    rintro rfl
    exact hdead hi
  have hlive : ∀ i, (s.write key).Live i → i = s.nEnd ∨ s.Live i := by
    rintro i (hmem | hheld)
    · obtain rfl | hmem := mem_insert.1 hmem
      · exact .inl rfl
      · exact .inr (.inl hmem)
    · exact .inr (.inr hheld)
  refine ⟨fun i hi => ?_, fun i hi => ?_, fun i key' hi hkey' => ?_, fun i j hi hj hij => ?_,
    fun i n hi hn hkey' => ?_, h.keptOld, fun r hr => ?_, h.alone⟩
  · obtain rfl | hi := hlive i hi
    · exact h.nEnd_pos
    · exact h.pos i hi
  · obtain rfl | hi := hlive i hi
    · exact ⟨key, hnew, hu.haveKey⟩
    · rw [KeyPool.Recorded, hother i hi]
      exact h.recorded i hi
  · obtain rfl | hi := hlive i hi
    · obtain rfl := some.inj (hnew.symm.trans hkey')
      exact hu.unkept
    · exact h.unkept i key' hi ((hother i hi).symm.trans hkey')
  · obtain rfl | hi := hlive i hi <;> obtain rfl | hj := hlive j hj
    · rfl
    · rw [hnew, hother j hj] at hij
      exact absurd hij.symm (hu.pool j hj)
    · rw [hnew, hother i hi] at hij
      exact absurd hij (hu.pool i hi)
    · rw [hother i hi, hother j hj] at hij
      exact h.inj i j hi hj hij
  · obtain rfl | hi := hlive i hi
    · exact hu.old n hn (some.inj (hnew.symm.trans hkey'))
    · exact h.old i n hi hn ((hother i hi).symm.trans hkey')
  · obtain ⟨hout, hkey'⟩ := h.held r hr
    refine ⟨fun hmem => ?_, hkey'.trans (hother _ (.inr ⟨hr, r, rfl⟩)).symm⟩
    obtain heq | hmem := mem_insert.1 hmem
    · exact hfree r heq
    · exact hout hmem

/-! ### Reserving, keeping and returning -/

/-- The smallest index, or any other, goes to a reservation. -/
theorem take (hi : i ∈ s.setKeyPool) (r : ℕ) :
    Owned E ((s.take i s.reserve).setReserve r ⟨i, s.pool i⟩) kept := by
  have hself : ((s.take i s.reserve).setReserve r ⟨i, s.pool i⟩).reserve r = ⟨i, s.pool i⟩ :=
    reserve_self
  have hother : ∀ r', r' ≠ r →
      ((s.take i s.reserve).setReserve r ⟨i, s.pool i⟩).reserve r' = s.reserve r' := fun r' hne =>
    reserve_of_ne hne
  -- no other reservation holds the index
  have hfree : ∀ r', (s.reserve r').nIndex ≠ i := by
    rintro r' rfl
    have hpos := h.pos _ (.inl hi)
    exact (h.held r' (by omega)).1 hi
  refine h.shrink ?_ (fun _ _ => rfl) rfl rfl (fun _ hk => .inl hk) (fun r' hne => ?_)
    fun r1 r2 hne heq => ?_
  · rintro j (hmem | ⟨hne, r', hr'⟩)
    · exact .inl (mem_of_mem_erase hmem)
    · by_cases heq : r' = r
      · rw [heq, hself] at hr'
        exact .inl (hr' ▸ hi)
      · rw [hother r' heq] at hr'
        exact .inr ⟨hne, r', hr'⟩
  · by_cases heq : r' = r
    · rw [heq, hself]
      exact ⟨notMem_erase _ _, rfl⟩
    · rw [hother r' heq] at hne ⊢
      exact ⟨fun hmem => (h.held r' hne).1 (mem_of_mem_erase hmem), (h.held r' hne).2⟩
  · by_cases h1 : r1 = r <;> by_cases h2 : r2 = r
    · rw [h1, h2]
    · rw [h1, hself, hother r2 h2] at heq
      exact absurd heq.symm (hfree r2)
    · rw [h2, hself, hother r1 h1] at heq
      exact absurd heq (hfree r1)
    · rw [hother r1 h1] at hne heq
      rw [hother r2 h2] at heq
      exact h.alone r1 r2 hne heq

/-- The record of an index of the set is erased, and its key is given away. -/
theorem takeErased (hi : i ∈ s.setKeyPool) (hkey : s.pool i = some key) :
    Owned E ((s.take i s.reserve).erasePool i) (kept ∪ {key}) := by
  have hlive : ∀ j, ((s.take i s.reserve).erasePool i).Live j → s.Live j ∧ j ≠ i := by
    rintro j (hmem | ⟨hne, r', hr'⟩)
    · exact ⟨.inl (mem_of_mem_erase hmem), ne_of_mem_erase hmem⟩
    · refine ⟨.inr ⟨hne, r', hr'⟩, ?_⟩
      rintro rfl
      rw [← hr'] at hi hne
      exact (h.held r' hne).1 hi
  refine h.shrink (fun j hj => (hlive j hj).1)
    (fun j hj => update_of_ne (hlive j hj).2 _ _) rfl rfl ?_ (fun r' hne =>
    ⟨fun hmem => (h.held r' hne).1 (mem_of_mem_erase hmem), ?_⟩) h.alone
  · rintro key' (hk | rfl)
    · exact .inl hk
    · exact .inr ⟨i, .inl hi, fun hl => (hlive i hl).2 rfl, hkey⟩
  · refine (h.held r' hne).2.trans (update_of_ne ?_ _ _).symm
    exact (hlive _ (.inr ⟨hne, r', rfl⟩)).2

/-- The reservation without an index may have any key. -/
theorem setPubKey (hr : (s.reserve r).nIndex = -1) (k : Option Key) :
    Owned E (s.setReserve r ⟨-1, k⟩) kept := by
  have hindex : ∀ r', ((s.setReserve r ⟨-1, k⟩).reserve r').nIndex = (s.reserve r').nIndex :=
    fun r' => by
    by_cases heq : r' = r
    · rw [heq, reserve_self, hr]
    · rw [reserve_of_ne heq]
  refine h.shrink ?_ (fun _ _ => rfl) rfl rfl (fun _ hk => .inl hk) (fun r' hne => ?_)
    fun r1 r2 hne heq => ?_
  · rintro j (hmem | ⟨hne, r', hr'⟩)
    · exact .inl hmem
    · exact .inr ⟨hne, r', (hindex r').symm.trans hr'⟩
  · rw [hindex] at hne ⊢
    have heq : r' ≠ r := by
      rintro rfl
      exact hne hr
    rw [reserve_of_ne heq]
    exact h.held r' hne
  · rw [hindex] at hne heq
    rw [hindex] at heq
    exact h.alone r1 r2 hne heq

theorem returnKey (r : ℕ) : Owned E (returnKey r s) kept := by
  unfold Espers.returnKey
  split_ifs with hne
  · have hself : ((({ s with setKeyPool := insert (s.reserve r).nIndex s.setKeyPool } :
        KeyPool Key).setReserve r ⟨-1, none⟩).reserve r) = ⟨-1, none⟩ := reserve_self
    have hother : ∀ r', r' ≠ r →
      ((({ s with setKeyPool := insert (s.reserve r).nIndex s.setKeyPool } :
        KeyPool Key).setReserve r ⟨-1, none⟩).reserve r') = s.reserve r' := fun r' heq =>
      reserve_of_ne heq
    refine h.shrink ?_ (fun _ _ => rfl) rfl rfl (fun _ hk => .inl hk) (fun r' hne' => ?_)
      fun r1 r2 hne' heq => ?_
    · rintro j (hmem | ⟨hne', r', hr'⟩)
      · obtain rfl | hmem := mem_insert.1 hmem
        · exact .inr ⟨hne, r, rfl⟩
        · exact .inl hmem
      · by_cases heq : r' = r
        · rw [heq, hself] at hr'
          exact absurd hr'.symm hne'
        · rw [hother r' heq] at hr'
          exact .inr ⟨hne', r', hr'⟩
    · have heq : r' ≠ r := by
        rintro rfl
        rw [hself] at hne'
        exact hne' rfl
      rw [hother r' heq] at hne' ⊢
      refine ⟨fun hmem => ?_, (h.held r' hne').2⟩
      obtain hsame | hmem := mem_insert.1 hmem
      · exact heq (h.alone r' r hne' hsame)
      · exact (h.held r' hne').1 hmem
    · have h1 : r1 ≠ r := by
        rintro rfl
        rw [hself] at hne'
        exact hne' rfl
      have h2 : r2 ≠ r := by
        rintro rfl
        rw [heq, hself] at hne'
        exact hne' rfl
      rw [hother r1 h1] at hne' heq
      rw [hother r2 h2] at heq
      exact h.alone r1 r2 hne' heq
  · exact h.setPubKey (not_not.1 hne) none

theorem keepKey (r : ℕ) : Owned E (keepKey r s)
      (kept ∪ {key | (s.reserve r).nIndex ≠ -1 ∧ (s.reserve r).vchPubKey = some key}) := by
  unfold Espers.keepKey
  split_ifs with hne
  · have hself : (((s.erasePool (s.reserve r).nIndex).setReserve r ⟨-1, none⟩).reserve r) =
      ⟨-1, none⟩ :=
      reserve_self
    have hother : ∀ r', r' ≠ r →
      (((s.erasePool (s.reserve r).nIndex).setReserve r ⟨-1, none⟩).reserve r') =
        s.reserve r' := fun r' heq => reserve_of_ne heq
    have hdistinct : ∀ r', (((s.erasePool (s.reserve r).nIndex).setReserve r ⟨-1, none⟩).reserve
        r').nIndex ≠ -1 → r' ≠ r := by
      rintro r' hne' rfl
      rw [hself] at hne'
      exact hne' rfl
    have hlive : ∀ j, ((s.erasePool (s.reserve r).nIndex).setReserve r ⟨-1, none⟩).Live j →
        s.Live j ∧ j ≠ (s.reserve r).nIndex := by
      rintro j (hmem | ⟨hne', r', hr'⟩)
      · refine ⟨.inl hmem, ?_⟩
        rintro rfl
        exact (h.held r hne).1 hmem
      · have heq : r' ≠ r := hdistinct r' (hr' ▸ hne')
        rw [hother r' heq] at hr'
        refine ⟨.inr ⟨hne', r', hr'⟩, ?_⟩
        rintro rfl
        exact heq (h.alone r' r (hr' ▸ hne) hr')
    refine h.shrink (fun j hj => (hlive j hj).1)
      (fun j hj => update_of_ne (hlive j hj).2 _ _) rfl rfl ?_ (fun r' hne' => ?_)
      fun r1 r2 hne' heq => ?_
    · rintro key' (hk | ⟨-, hkey⟩)
      · exact .inl hk
      · exact .inr ⟨_, .inr ⟨hne, r, rfl⟩, fun hl => (hlive _ hl).2 rfl,
          (h.held r hne).2.symm.trans hkey⟩
    · have heq := hdistinct r' hne'
      have hl := (hlive _ (.inr ⟨hne', r', rfl⟩)).2
      rw [hother r' heq] at hne' hl ⊢
      exact ⟨(h.held r' hne').1, (h.held r' hne').2.trans (update_of_ne hl _ _).symm⟩
    · have h1 := hdistinct r1 hne'
      have h2 := hdistinct r2 (heq ▸ hne')
      rw [hother r1 h1] at hne' heq
      rw [hother r2 h2] at heq
      exact h.alone r1 r2 hne' heq
  · have hempty : kept ∪ {key | (s.reserve r).nIndex ≠ -1 ∧ (s.reserve r).vchPubKey = some key} =
      kept := by
      refine union_eq_self_of_subset_right fun key' hkey' => ?_
      exact absurd hkey'.1 hne
    rw [hempty]
    exact h.setPubKey (not_not.1 hne) none

end

/-! ### Topping up -/

variable [DecidableEq Key]

theorem generate (hinj : Injective E.newKey) (h : Owned E s kept) :
    Owned E (s.generate E) kept ∧ Unused E (s.generate E) kept (E.newKey s.nGenerated) := by
  refine ⟨?_, ?_⟩
  · exact {
      pos := h.pos
      recorded := fun i hi => by
        obtain ⟨key, hkey, hhave⟩ := h.recorded i hi
        refine ⟨key, hkey, ?_⟩
        by_cases hnew : key = E.newKey s.nGenerated
        · rw [hnew]
          exact update_self _ _ _
        · exact (update_of_ne hnew _ _).trans hhave
      unkept := h.unkept
      inj := h.inj
      old := fun i n hi hn => h.old i n hi (Nat.le_of_succ_le hn)
      keptOld := fun key hk n hn => h.keptOld key hk n (Nat.le_of_succ_le hn)
      held := h.held
      alone := h.alone }
  · exact {
      haveKey := update_self _ _ _
      pool := fun i hi => h.old i _ hi le_rfl
      unkept := fun hk => h.keptOld _ hk _ le_rfl rfl
      old := fun n hn heq => by
        have hlt : s.nGenerated < n := hn
        exact hlt.ne (hinj heq) }

theorem topUp (hinj : Injective E.newKey) (h : Owned E s kept)
    (hfree : ∀ r, (s.reserve r).nIndex ≠ s.nEnd) : Owned E (s.topUp E) kept :=
  (h.generate hinj).1.write (h.generate hinj).2 hfree

theorem iterate (hinj : Injective E.newKey) (n : ℕ) (h : Owned E s kept)
    (hfree : ∀ r, (s.reserve r).nIndex ∉ Set.Ico s.nEnd (s.nEnd + n)) :
    Owned E ((KeyPool.topUp E)^[n] s) kept := by
  induction n generalizing s with
  | zero => exact h
  | succ n ih =>
    have hend : (s.topUp E).nEnd = s.nEnd + 1 := nEnd_topUp
    refine ih (h.topUp hinj fun r hr => hfree r ?_) fun r hr => hfree r ?_
    · rw [hr]
      exact ⟨le_rfl, by push_cast; omega⟩
    · obtain ⟨hle, hlt⟩ := hr
      rw [hend] at hle hlt
      change s.nEnd + 1 ≤ (s.reserve r).nIndex at hle
      change (s.reserve r).nIndex < s.nEnd + 1 + n at hlt
      exact ⟨by omega, by push_cast; omega⟩

end Owned

variable [DecidableEq Key]

/-- Topping up writes no record that a reservation holds. -/
def Unwritten (E : KeyPoolEnv Key) (nSize : ℕ) (s : KeyPool Key) : Prop :=
  s.locked = true ∨
    ∀ r, (s.reserve r).nIndex ∉ Set.Ico s.nEnd (s.nEnd + (E.wanted nSize - s.setKeyPool.card : ℕ))

theorem Owned.toppedUp {nSize : ℕ} (hinj : Injective E.newKey) (h : Owned E s kept)
    (hun : Unwritten E nSize s) : Owned E (s.toppedUp E nSize) kept := by
  unfold KeyPool.toppedUp
  split_ifs with hl
  · exact h
  · exact h.iterate hinj _ (hun.resolve_left hl)

/-! ### Runs -/

/-- What the wallet is asked to do. -/
inductive KeyPoolStep where
  | getReservedKey (r : ℕ)
  | keepKey (r : ℕ)
  | returnKey (r : ℕ)
  | getKeyFromPool
  | topUpKeyPool (nSize : ℕ)
  | lock
  | unlock

namespace KeyPoolStep

/-- A step of the wallet. -/
def exec (E : KeyPoolEnv Key) : KeyPoolStep → EStateM Stop (KeyPool Key) (Option Key)
  | .getReservedKey r => Espers.getReservedKey E r
  | .keepKey r => do
    modify (Espers.keepKey r)
    return none
  | .returnKey r => do
    modify (Espers.returnKey r)
    return none
  | .getKeyFromPool => Espers.getKeyFromPool E
  | .topUpKeyPool nSize => do
    let _ ← Espers.topUpKeyPool E nSize
    return none
  | .lock => do
    modify fun s => { s with locked := s.locked || E.crypted }
    return none
  | .unlock => do
    modify fun s => { s with locked := false }
    return none

/-- The keys that were kept, after a step. -/
def keeps (E : KeyPoolEnv Key) (s : KeyPool Key) (before : Set Key) : KeyPoolStep → Set Key
  | .keepKey r => before ∪ {key | (s.reserve r).nIndex ≠ -1 ∧ (s.reserve r).vchPubKey = some key}
  | .getKeyFromPool => before ∪ {key | answer (Espers.getKeyFromPool E s) = .ok (some key)}
  | _ => before

end KeyPoolStep

/-- A step that tops up writes no record that a reservation holds. -/
def Unheld (E : KeyPoolEnv Key) (s : KeyPool Key) : KeyPoolStep → Prop
  | .getReservedKey r => (s.reserve r).nIndex = -1 → Unwritten E 0 s
  | .getKeyFromPool => Unwritten E 0 s
  | .topUpKeyPool nSize => Unwritten E nSize s
  | _ => True

/-- The states that are reached from a consistent pool by steps that satisfy a condition, with the
keys that were kept.  An exception ends a step, not the run. -/
inductive KeyPoolRun (E : KeyPoolEnv Key) (condition : KeyPool Key → KeyPoolStep → Prop) :
    KeyPool Key → Set Key → Prop
  | start {s : KeyPool Key} (h : s.Consistent E) : KeyPoolRun E condition s ∅
  | step {s : KeyPool Key} {kept : Set Key} {a : KeyPoolStep} (hrun : KeyPoolRun E condition s kept)
      (hstep : condition s a) : KeyPoolRun E condition (finalState (a.exec E s)) (a.keeps E s kept)

/-! ### One step -/

omit [DecidableEq Key] in
theorem eq_some_setOf (key : Key) : {key' | some key = some key'} = {key} := by
  ext key'
  exact ⟨fun h => (some.inj h).symm, fun h => congrArg some h.symm⟩

omit [DecidableEq Key] in
theorem handOut_eq {k : CReserveKey Key} (hk : k.vchPubKey = some key) :
    handOut r (s.setReserve r k) = .ok (some key) (s.setReserve r k) := by
  rw [handOut, get_bind_apply, reserve_self, hk]
  rfl

namespace Owned

section

variable (hinj : Injective E.newKey) (h : Owned E s kept)
include hinj h

/-- `GetReservedKey` returns, and hands out the key of an index that nobody holds. -/
theorem getReservedKey (hun : Unheld E s (.getReservedKey r)) :
    ∃ x t, getReservedKey E r s = .ok x t ∧ Owned E t kept := by
  rw [Espers.getReservedKey, get_bind_apply]
  by_cases hr : (s.reserve r).nIndex = -1
  · rw [if_pos hr]
    have hsame : { s with reserve := setIndex r (-1) s.reserve } = s := by
      have hself : { s.reserve r with nIndex := -1 } = s.reserve r := by rw [← hr]
      rw [setIndex, hself, update_eq_self]
    have ht := h.toppedUp hinj (hun hr)
    obtain ⟨i, hi, key, hkey, heq⟩ | ⟨-, heq⟩ := reserveKeyFromKeyPool_eq (setIndex r) s
      (congrArg (KeyPool.toppedUp E 0) hsame) fun i hi => ht.recorded i (.inl hi)
    · have hpos := ht.pos i (.inl hi)
      have hstate : (((s.toppedUp E 0).take i (setIndex r i (s.toppedUp E 0).reserve)).setReserve r
          { ((s.toppedUp E 0).take i (setIndex r i (s.toppedUp E 0).reserve)).reserve r with
            vchPubKey := some key }) =
          ((s.toppedUp E 0).take i (s.toppedUp E 0).reserve).setReserve r
            ⟨i, (s.toppedUp E 0).pool i⟩ := by
        simp only [KeyPool.setReserve, KeyPool.take, setIndex, update_idem, update_self, hkey]
      refine ⟨some key, _, ?_, hstate ▸ ht.take hi r⟩
      rw [bind_of_ok heq]
      dsimp only
      rw [if_pos (by omega), modify_bind_apply]
      exact handOut_eq rfl
    · rw [bind_of_ok heq]
      dsimp only
      rw [if_neg (not_not.2 rfl)]
      have hindex : ((s.toppedUp E 0).reserve r).nIndex = -1 := by rw [reserve_toppedUp, hr]
      cases hdefault : E.vchDefaultKey with
      | none => exact ⟨none, _, rfl, ht⟩
      | some key =>
        refine ⟨some key, _, ?_, ht.setPubKey hindex (some key)⟩
        rw [if_pos isSome_some, modify_bind_apply, hindex]
        exact handOut_eq rfl
  · rw [if_neg hr]
    obtain ⟨key, hkey, -⟩ := h.recorded _ (.inr ⟨hr, r, rfl⟩)
    refine ⟨some key, s, ?_, h⟩
    rw [handOut, get_bind_apply, (h.held r hr).2, hkey]
    rfl

/-- `GetKeyFromPool` returns, and the key it gives away is kept. -/
theorem getKeyFromPool (hun : Unwritten E 0 s) :
    ∃ x t, getKeyFromPool E s = .ok x t ∧ Owned E t (kept ∪ {key | x = some key}) := by
  have ht := h.toppedUp hinj hun
  rw [Espers.getKeyFromPool]
  obtain ⟨i, hi, key, hkey, heq⟩ | ⟨-, heq⟩ := reserveKeyFromKeyPool_eq (fun _ reserve => reserve) s
    rfl fun i hi => ht.recorded i (.inl hi)
  · have hpos := ht.pos i (.inl hi)
    refine ⟨some key, _, ?_, (eq_some_setOf key) ▸ ht.takeErased hi hkey⟩
    rw [bind_of_ok heq]
    dsimp only
    rw [if_neg (by omega), modify_bind_apply]
    rfl
  · rw [bind_of_ok heq]
    dsimp only
    rw [if_pos rfl, get_bind_apply]
    by_cases hl : (s.toppedUp E 0).locked = true
    · rw [if_pos hl]
      refine ⟨none, _, rfl, ?_⟩
      have hkept : {key : Key | none = some key} = ∅ := by
        ext key
        exact iff_of_false (fun h => nomatch h) id
      rw [hkept, union_empty]
      exact ht
    · rw [if_neg hl, bind_of_ok (generateNewKey_eq (Bool.eq_false_of_not_eq_true hl))]
      exact ⟨some _, _, rfl, (eq_some_setOf _) ▸ (ht.generate hinj).1.discard (ht.generate hinj).2⟩

/-- **A step that writes no held record returns, and every key keeps its one owner.** -/
theorem exec (a : KeyPoolStep)
    (hun : Unheld E s a) : ∃ x t, a.exec E s = .ok x t ∧ Owned E t (a.keeps E s kept) := by
  cases a with
  | getReservedKey r => exact h.getReservedKey hinj hun
  | keepKey r => exact ⟨none, _, rfl, h.keepKey r⟩
  | returnKey r => exact ⟨none, _, rfl, h.returnKey r⟩
  | getKeyFromPool =>
    obtain ⟨x, t, hx, ht⟩ := h.getKeyFromPool hinj hun
    refine ⟨x, t, hx, ?_⟩
    have hkept : KeyPoolStep.getKeyFromPool.keeps E s kept = kept ∪ {key | x = some key} := by
      rw [KeyPoolStep.keeps, hx]
      simp only [answer_ok, Except.ok.injEq]
    rw [hkept]
    exact ht
  | topUpKeyPool nSize =>
    exact ⟨none, _, bind_of_ok (topUpKeyPool_eq nSize), h.toppedUp hinj hun⟩
  | lock => exact ⟨none, _, rfl, h.shrink (fun _ => id) (fun _ _ => rfl) rfl rfl (fun _ => .inl)
    h.held h.alone⟩
  | unlock => exact ⟨none, _, rfl, h.shrink (fun _ => id) (fun _ _ => rfl) rfl rfl (fun _ => .inl)
    h.held h.alone⟩

end

end Owned

theorem KeyPoolRun.owned (hinj : Injective E.newKey) (h : KeyPoolRun E (Unheld E) s kept) :
    Owned E s kept := by
  induction h with
  | start h => exact .start h
  | step _ hstep ih =>
    obtain ⟨x, t, hx, ht⟩ := ih.exec hinj _ hstep
    rw [hx]
    exact ht

/-- What is promised of the pool. -/
structure KeyPool.Safe (E : KeyPoolEnv Key) (s : KeyPool Key) (kept : Set Key) : Prop where
  /-- No key of the pool is held by two reservations. -/
  unshared : ∀ r r', r ≠ r' → (s.reserve r).nIndex ≠ -1 → (s.reserve r').nIndex ≠ -1 →
    (s.reserve r).vchPubKey ≠ (s.reserve r').vchPubKey
  /-- A key that was kept is neither held nor in the pool. -/
  unkept : ∀ key ∈ kept, (∀ r, (s.reserve r).nIndex ≠ -1 → (s.reserve r).vchPubKey ≠ some key) ∧
    ∀ i ∈ s.setKeyPool, s.pool i ≠ some key
  recorded : ∀ i ∈ s.setKeyPool, (s.pool i).isSome = true

/-- **In a run in which topping up never writes a record that a reservation holds, no key of the
pool is held twice, or handed out after it was kept; every index has its record; and no step
throws.** -/
theorem keyPool_safe (hinj : Injective E.newKey) (hrun : KeyPoolRun E (Unheld E) s kept) :
    s.Safe E kept ∧ ∀ a, Unheld E s a → ∃ x t, a.exec E s = .ok x t := by
  have h := hrun.owned hinj
  refine ⟨⟨fun r r' hne hr hr' heq => ?_, fun key hk => ⟨fun r hr hkey => ?_, fun i hi hkey => ?_⟩,
    fun i hi => ?_⟩, fun a hun => ?_⟩
  · rw [(h.held r hr).2, (h.held r' hr').2] at heq
    exact hne (h.alone r r' hr (h.inj _ _ (.inr ⟨hr, r, rfl⟩) (.inr ⟨hr', r', rfl⟩) heq))
  · rw [(h.held r hr).2] at hkey
    exact h.unkept _ key (.inr ⟨hr, r, rfl⟩) hkey hk
  · exact h.unkept i key (.inl hi) hkey hk
  · obtain ⟨key, hkey, -⟩ := h.recorded i (.inl hi)
    rw [hkey]
    rfl
  · obtain ⟨x, t, hx, -⟩ := h.exec hinj a hun
    exact ⟨x, t, hx⟩

/-! ### Reusing an index -/

/-- Keys are numbers, and the pool is asked to hold none in reserve. -/
def smallPoolEnv : KeyPoolEnv ℕ where
  newKey := id
  vchDefaultKey := none
  keypool := 0
  crypted := false

/-- A wallet that never made a key. -/
def emptyPool : KeyPool ℕ where
  setKeyPool := ∅
  pool := fun _ => none
  haveKey := fun _ => false
  nGenerated := 0
  locked := false
  reserve := fun _ => ⟨-1, none⟩

theorem emptyPool_consistent : emptyPool.Consistent smallPoolEnv where
  pos _ hi := absurd hi (notMem_empty _)
  recorded _ hi := absurd hi (notMem_empty _)
  inj _ hi := absurd hi (notMem_empty _)
  old _ hi := absurd hi (notMem_empty _)
  unreserved _ := rfl

theorem keyPool_safe_kept : ∃ s kept, KeyPoolRun smallPoolEnv (Unheld smallPoolEnv) s kept ∧
    (s.reserve 0 = ⟨-1, none⟩ ∧ s.reserve 1 = ⟨2, some 1⟩ ∧ 0 ∈ kept) ∧ s.Safe smallPoolEnv kept ∧
      ∀ a, Unheld smallPoolEnv s a → ∃ x t, a.exec smallPoolEnv s = .ok x t := by
  have h0 : KeyPoolRun smallPoolEnv (Unheld smallPoolEnv) emptyPool ∅ := .start emptyPool_consistent
  have h1 := h0.step (a := .topUpKeyPool 2) (.inr fun _ hr => absurd hr.1 fun hle : (1 : ℤ) ≤ -1 =>
    absurd hle (by decide))
  -- the pool is large enough now
  have h2 := h1.step (a := .getReservedKey 0) fun _ =>
    .inr fun _ hr => absurd (hr.1.trans_lt hr.2) (by decide)
  have h3 := h2.step (a := .getReservedKey 1) fun _ =>
    .inr fun _ hr => absurd (hr.1.trans_lt hr.2) (by decide)
  have h₄ := h3.step (a := .keepKey 0) trivial
  exact ⟨_, _, h₄, ⟨by decide, by decide, .inr (by decide)⟩, keyPool_safe injective_id h₄⟩

/-- The state after some steps. -/
def runKeyPool (E : KeyPoolEnv Key) (steps : List KeyPoolStep) (s : KeyPool Key) : KeyPool Key :=
  steps.foldl (fun s a => finalState (a.exec E s)) s

theorem KeyPoolRun.runKeyPool (h : KeyPoolRun E (fun _ _ => True) s kept)
    (steps : List KeyPoolStep) : ∃ kept', KeyPoolRun E (fun _ _ => True)
    (runKeyPool E steps s) kept' := by
  induction steps generalizing s kept with
  | nil => exact ⟨kept, h⟩
  | cons a steps ih => exact ih (h.step (a := a) trivial)

/-- Two reservations take index 1 one after the other, since it is free again once the first has
taken it. When the first one puts it back, the key of the second is handed out again; when the
second one keeps its key before that, the record of the index is missing. -/
theorem keyPool_index_reused : (∃ s kept, KeyPoolRun smallPoolEnv (fun _ _ => True) s kept ∧
      s.reserve 1 = ⟨1, some 1⟩ ∧ s.reserve 2 = ⟨1, some 1⟩) ∧
    ∃ s kept, KeyPoolRun smallPoolEnv (fun _ _ => True) s kept ∧ 1 ∈ s.setKeyPool ∧
      s.pool 1 = none ∧ answer (getReservedKey smallPoolEnv 2 s) =
        .error (.exception "ReserveKeyFromKeyPool() : read failed") := by
  refine ⟨?_, ?_⟩
  · obtain ⟨kept, h⟩ := KeyPoolRun.runKeyPool (.start emptyPool_consistent)
      [.getReservedKey 0, .getReservedKey 1, .returnKey 0, .getReservedKey 2]
    exact ⟨_, kept, h, by decide, by decide⟩
  · obtain ⟨kept, h⟩ := KeyPoolRun.runKeyPool (.start emptyPool_consistent)
      [.getReservedKey 0, .getReservedKey 1, .keepKey 1, .returnKey 0]
    exact ⟨_, kept, h, by decide, by decide, by decide⟩

end Espers
