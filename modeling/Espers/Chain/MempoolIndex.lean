import Espers.Chain.Mempool
import Espers.Lib.Prune
import Mathlib.Data.Set.Card

/-!
# The index of the memory pool

`mapNextTx` lists, for each outpoint, the transaction of the pool that spends it and the number of
the input.  `CTxMemPool.Indexed` says that it does so exactly; every operation on the pool keeps
this.

The operations also never fail, as long as the transactions that occur have different hashes and do
not depend on each other in a circle (`PoolHashes`): the recursion of `remove` goes down the
transactions that spend its outputs, and the pool is finite (`remove_spec`).
-/

namespace Espers

open Exec Prune List AList
open Option (some map_eq_some_iff)

/-! ### The two maps -/

namespace CTxMemPool

/-- The pool when the program starts. -/
def empty : CTxMemPool := ⟨∅, ∅, 0⟩

/-- The transactions in the pool. -/
def members (E : Env) (pool : CTxMemPool) : Set CTransaction :=
  {tx | pool.mapTx.lookup (E.txHash tx) = some tx}

/-- The transactions are filed under their hashes, and `mapNextTx` has an entry for each input of
each of them and no other. -/
structure Indexed (E : Env) (pool : CTxMemPool) : Prop where
  keyed : ∀ hash tx, pool.mapTx.lookup hash = some tx → E.txHash tx = hash
  next : ∀ o hash i, pool.mapNextTx.lookup o = some (hash, i) ↔
    ∃ tx, pool.mapTx.lookup hash = some tx ∧ (tx.vin[i]?).map CTxIn.prevout = some o

end CTxMemPool

theorem lookup_foldl_insert {hash : Uint256} {l : List (CTxIn × ℕ)}
    (hl : (l.map fun x => x.1.prevout).Nodup) (m : AList fun _ : COutPoint => Uint256 × ℕ)
    (o : COutPoint) (r : Uint256 × ℕ) :
    (l.foldl (fun m x => m.insert x.1.prevout (hash, x.2)) m).lookup o = some r ↔
      (∃ x ∈ l, x.1.prevout = o ∧ r = (hash, x.2)) ∨
      (∀ x ∈ l, x.1.prevout ≠ o) ∧ m.lookup o = some r := by
  induction l generalizing m with
  | nil => simp
  | cons x l ih =>
    rw [map_cons, nodup_cons] at hl
    rw [foldl_cons, ih hl.2]
    by_cases ho : x.1.prevout = o
    · -- no later input spends the same outpoint
      have hne : ∀ y ∈ l, y.1.prevout ≠ o := by
        intro y hy he
        exact hl.1 (mem_map.2 ⟨y, hy, he.trans ho.symm⟩)
      have hno : ¬ ∃ y ∈ l, y.1.prevout = o ∧ r = (hash, y.2) := by
        rintro ⟨y, hy, he, -⟩
        exact hne y hy he
      subst ho
      simp only [hno, false_or, lookup_insert, some.injEq, mem_cons,
        exists_eq_or_imp, true_and, or_false, forall_eq_or_imp, ne_eq, not_true_eq_false, false_and]
      constructor
      · rintro ⟨-, rfl⟩
        rfl
      · rintro rfl
        exact ⟨fun y hy => hne y hy, rfl⟩
    · rw [lookup_insert_ne (Ne.symm ho)]
      simp [ho]

theorem lookup_foldl_erase (vin : List CTxIn) (m : AList fun _ : COutPoint => Uint256 × ℕ)
    (o : COutPoint) :
    (vin.foldl (fun m txin => m.erase txin.prevout) m).lookup o =
      if o ∈ vin.map CTxIn.prevout then none else m.lookup o := by
  induction vin generalizing m with
  | nil => simp
  | cons txin vin ih =>
    rw [foldl_cons, ih]
    by_cases ho : txin.prevout = o
    · subst ho
      simp
    · rw [lookup_erase_ne (Ne.symm ho)]
      simp [Ne.symm ho]

namespace CTxMemPool

variable {E : Env} {pool : CTxMemPool} {tx : CTransaction}

theorem mem_members : tx ∈ pool.members E ↔ pool.mapTx.lookup (E.txHash tx) = some tx := Iff.rfl

theorem Indexed.mem (h : pool.Indexed E) {hash : Uint256} (hl : pool.mapTx.lookup hash = some tx) :
    tx ∈ pool.members E := by
  rw [mem_members, h.keyed hash tx hl, hl]

theorem Indexed.lookup (h : pool.Indexed E) (htx : tx ∈ pool.members E) {txin : CTxIn}
    (hin : txin ∈ tx.vin) :
    ∃ i, pool.mapNextTx.lookup txin.prevout = some (E.txHash tx, i) := by
  obtain ⟨i, hi⟩ := mem_iff_getElem?.1 hin
  exact ⟨i, (h.next _ _ _).2 ⟨tx, htx, by rw [hi]; rfl⟩⟩

/-- **No two transactions of the pool spend the same outpoint**, and none spends one twice. -/
theorem Indexed.spends_once (h : pool.Indexed E) {tx tx' : CTransaction} (htx : tx ∈ pool.members E)
    (htx' : tx' ∈ pool.members E) {i j : ℕ} {txin txin' : CTxIn} (hi : tx.vin[i]? = some txin)
    (hj : tx'.vin[j]? = some txin') (ho : txin.prevout = txin'.prevout) : tx = tx' ∧ i = j := by
  have h1 := (h.next txin.prevout (E.txHash tx) i).2 ⟨tx, htx, by rw [hi]; rfl⟩
  have h2 := (h.next txin.prevout (E.txHash tx') j).2 ⟨tx', htx', by rw [hj, ho]; rfl⟩
  rw [h1, some.injEq, Prod.mk.injEq] at h2
  refine ⟨?_, h2.2⟩
  have h3 : pool.mapTx.lookup (E.txHash tx) = some tx' := by rw [h2.1]; exact htx'
  exact some.inj (htx.symm.trans h3)

theorem empty_indexed : empty.Indexed E where
  keyed hash tx h := by simp [empty] at h
  next o hash i := by simp [empty]

/-! ### Adding -/

theorem addUnchecked_indexed (h : pool.Indexed E) (hnew : pool.mapTx.lookup (E.txHash tx) = none)
    (hin : ∀ txin ∈ tx.vin, pool.mapNextTx.lookup txin.prevout = none)
    (hnd : (tx.vin.map CTxIn.prevout).Nodup) : (pool.addUnchecked (E.txHash tx) tx).Indexed E := by
  have hzip : (tx.vin.zipIdx.map fun x => x.1.prevout) = tx.vin.map CTxIn.prevout := by
    rw [show (fun x : CTxIn × ℕ => x.1.prevout) = CTxIn.prevout ∘ Prod.fst from rfl,
      ← map_map, zipIdx_map_fst]
  refine ⟨fun hash t hl => ?_, fun o hash i => ?_⟩
  · by_cases hh : hash = E.txHash tx
    · subst hh
      simp only [addUnchecked, lookup_insert, some.injEq] at hl
      rw [hl]
    · simp only [addUnchecked, lookup_insert_ne hh] at hl
      exact h.keyed hash t hl
  · simp only [addUnchecked]
    rw [lookup_foldl_insert (by rw [hzip]; exact hnd)]
    constructor
    · rintro (⟨x, hx, rfl, hr⟩ | ⟨-, hl⟩)
      · obtain ⟨rfl, rfl⟩ := Prod.mk.inj hr
        rw [mem_zipIdx_iff_getElem?] at hx
        exact ⟨tx, lookup_insert _, by rw [hx]; rfl⟩
      · obtain ⟨t, ht, hi⟩ := (h.next _ _ _).1 hl
        refine ⟨t, ?_, hi⟩
        rw [lookup_insert_ne, ht]
        rintro rfl
        rw [hnew] at ht
        cases ht
    · rintro ⟨t, ht, hi⟩
      by_cases hh : hash = E.txHash tx
      · subst hh
        rw [lookup_insert, some.injEq] at ht
        subst ht
        rw [map_eq_some_iff] at hi
        obtain ⟨txin, hi, ho⟩ := hi
        exact .inl ⟨(txin, i), mem_zipIdx_iff_getElem?.2 hi, ho, rfl⟩
      · rw [lookup_insert_ne hh] at ht
        have hl := (h.next o hash i).2 ⟨t, ht, hi⟩
        refine .inr ⟨fun x hx he => ?_, hl⟩
        have := hin x.1 (fst_mem_of_mem_zipIdx hx)
        rw [he, hl] at this
        cases this

theorem addUnchecked_members (hnew : pool.mapTx.lookup (E.txHash tx) = none) :
    (pool.addUnchecked (E.txHash tx) tx).members E = insert tx (pool.members E) := by
  ext t
  simp only [mem_members, Set.mem_insert_iff, addUnchecked]
  by_cases hh : E.txHash t = E.txHash tx
  · rw [hh, lookup_insert, hnew, some.injEq]
    simp [eq_comm]
  · rw [lookup_insert_ne hh]
    simp only [iff_or_self]
    rintro rfl
    exact absurd rfl hh

theorem drop_members (htx : tx ∈ pool.members E) :
    (pool.drop E tx).members E = pool.members E \ {tx} := by
  ext t
  simp only [mem_members, Set.mem_sdiff, drop]
  by_cases hh : E.txHash t = E.txHash tx
  · rw [hh, lookup_erase, htx, some.injEq]
    simp [eq_comm]
  · rw [lookup_erase_ne hh]
    refine (and_iff_left ?_).symm
    rintro rfl
    exact hh rfl

theorem drop_indexed (h : pool.Indexed E) (htx : tx ∈ pool.members E) :
    (pool.drop E tx).Indexed E := by
  refine ⟨fun hash t hl => ?_, fun o hash i => ?_⟩
  · exact h.keyed hash t (Store.lookup_of_erase hl)
  · simp only [drop]
    rw [lookup_foldl_erase]
    constructor
    · intro hl
      split_ifs at hl with ho
      obtain ⟨t, ht, hi⟩ := (h.next _ _ _).1 hl
      refine ⟨t, ?_, hi⟩
      rw [lookup_erase_ne, ht]
      rintro rfl
      -- an input of the removed transaction
      obtain rfl : t = tx := some.inj (ht.symm.trans htx)
      obtain ⟨txin, hin, rfl⟩ := map_eq_some_iff.1 hi
      exact ho (mem_map.2 ⟨txin, mem_of_getElem? hin, rfl⟩)
    · rintro ⟨t, ht, hi⟩
      by_cases hh : hash = E.txHash tx
      · subst hh
        simp at ht
      · rw [lookup_erase_ne hh] at ht
        have hl := (h.next o hash i).2 ⟨t, ht, hi⟩
        rw [if_neg, hl]
        intro ho
        obtain ⟨txin, hin, rfl⟩ := mem_map.1 ho
        obtain ⟨j, hj⟩ := h.lookup htx hin
        rw [hj, some.injEq, Prod.mk.injEq] at hl
        exact hh hl.1.symm

end CTxMemPool

/-! ### Removing a transaction with what depends on it -/

/-- `b` spends the output `i` of `a`. -/
def SpendsAt (E : Env) (a : CTransaction) (i : ℕ) (b : CTransaction) : Prop :=
  ∃ txin ∈ b.vin, txin.prevout = ⟨E.txHash a, i⟩

/-- `b` spends an output of `a`. -/
def Spends (E : Env) (a b : CTransaction) : Prop := ∃ i < a.vout.length, SpendsAt E a i b

/-- What is assumed of the hash function on the transactions that occur: different transactions have
different hashes, and no transaction depends on itself, directly or through others. -/
structure PoolHashes (E : Env) (T : Set CTransaction) : Prop where
  inj : Set.InjOn E.txHash T
  acyclic : ∃ rank : CTransaction → ℕ, ∀ a ∈ T, ∀ b ∈ T, Spends E a b → rank a < rank b

/-- The number of nodes of `S` above a rank. -/
noncomputable def above (rank : CTransaction → ℕ) (r : ℕ) (S : Set CTransaction) : ℕ :=
  {t | t ∈ S ∧ r < rank t}.ncard

theorem above_mono (rank : CTransaction → ℕ) (r : ℕ) {S S' : Set CTransaction} (h : S ⊆ S')
    (hf : S'.Finite) : above rank r S ≤ above rank r S' :=
  Set.ncard_le_ncard (fun _ ht => ⟨h ht.1, ht.2⟩) (hf.subset fun _ ht => ht.1)

theorem above_lt {rank : CTransaction → ℕ} {r : ℕ} {S : Set CTransaction} {c : CTransaction}
    (hc : c ∈ S) (hr : r < rank c) (hf : S.Finite) : above rank (rank c) S < above rank r S := by
  refine Set.ncard_lt_ncard ⟨fun t ht => ⟨ht.1, hr.trans ht.2⟩, fun h => ?_⟩
    (hf.subset fun _ ht => ht.1)
  exact absurd (h ⟨hc, hr⟩ : c ∈ S ∧ rank c < rank c).2 (lt_irrefl _)

theorem rank_le_of_below {E : Env} {T S : Set CTransaction} {rank : CTransaction → ℕ}
    (hrank : ∀ a ∈ T, ∀ b ∈ T, Spends E a b → rank a < rank b) (hsub : S ⊆ T) {a b : CTransaction}
    (ha : a ∈ S) (h : Below (Spends E) S a b) : rank a ≤ rank b := by
  induction h with
  | refl => exact le_rfl
  | tail hac hcb ih =>
    exact ih.trans (hrank _ (hsub (Below.mem hac ha)) _ (hsub hcb.2) hcb.1).le

namespace CTxMemPool

variable {E : Env} {T : Set CTransaction} {pool : CTxMemPool} {tx : CTransaction}

theorem members_injOn : Set.InjOn E.txHash (pool.members E) := by
  intro a ha b hb hab
  have ha' : pool.mapTx.lookup (E.txHash b) = some a := hab ▸ ha
  exact some.inj (ha'.symm.trans hb)

theorem members_mapsTo : ∀ t ∈ pool.members E, E.txHash t ∈ (pool.mapTx.keys.toFinset : Set _) := by
  intro t ht
  rw [coe_toFinset]
  exact mem_keys.1 (lookup_isSome.1 (by rw [mem_members.1 ht]; rfl))

theorem members_finite (E : Env) (pool : CTxMemPool) : (pool.members E).Finite :=
  Set.Finite.of_injOn members_mapsTo members_injOn (Finset.finite_toSet _)

theorem above_lt_keys (rank : CTransaction → ℕ) (r : ℕ) :
    above rank r (pool.members E) < pool.mapTx.keys.length + 1 := by
  have h1 : above rank r (pool.members E) ≤ (pool.members E).ncard :=
    Set.ncard_le_ncard (fun _ ht => ht.1) (pool.members_finite E)
  have h2 : (pool.members E).ncard ≤ (pool.mapTx.keys.toFinset : Set Uint256).ncard :=
    Set.ncard_le_ncard_of_injOn E.txHash members_mapsTo members_injOn (Finset.finite_toSet _)
  rw [Set.ncard_coe_finset] at h2
  have h3 := toFinset_card_le pool.mapTx.keys
  omega

theorem Indexed.mem_of_contains (hT : Set.InjOn E.txHash T) (h : pool.Indexed E)
    (hsub : pool.members E ⊆ T) (htx : tx ∈ T) (hc : pool.contains (E.txHash tx) = true) :
    tx ∈ pool.members E := by
  obtain ⟨t, ht⟩ := Option.isSome_iff_exists.1 hc
  have hmem := h.mem ht
  obtain rfl : t = tx := hT (hsub hmem) htx (h.keyed _ _ ht)
  exact hmem

theorem not_mem_of_not_contains (hc : pool.contains (E.txHash tx) = false) :
    tx ∉ pool.members E := by
  intro h
  rw [contains, mem_members.1 h] at hc
  cases hc

/-- A pass of the loop of `remove` over the outputs; `removeTx` is the recursive call. -/
def removeSpender (E : Env) (tx : CTransaction)
    (removeTx : CTransaction → CTxMemPool → Except Stop CTxMemPool) (pool : CTxMemPool) (i : ℕ) :
    Except Stop CTxMemPool :=
  match pool.mapNextTx.lookup ⟨E.txHash tx, i⟩ with
  | none => .ok pool
  | some (hash, _) =>
    match pool.mapTx.lookup hash with
    | none => .error (.crash "CTxMemPool::remove() : dangling CInPoint")
    | some ptx => removeTx ptx pool

/-- The loop of `remove` over the outputs, when `removeTx` removes a dependent transaction. -/
theorem removeOutputs_spec (tx : CTransaction)
    (removeTx : CTransaction → CTxMemPool → Except Stop CTxMemPool) (P : CTxMemPool → Prop)
    (outputs : List ℕ)
    (hrm : ∀ pool c, pool.Indexed E → P pool → c ∈ pool.members E →
      (∃ i ∈ outputs, SpendsAt E tx i c) →
      ∃ pool', removeTx c pool = .ok pool' ∧ pool'.Indexed E ∧ P pool' ∧
        pool'.members E = prune (Spends E) (pool.members E) {c})
    (hi : pool.Indexed E) (hP : P pool) :
    ∃ pool', outputs.foldlM (removeSpender E tx removeTx) pool = .ok pool' ∧ pool'.Indexed E ∧
      P pool' ∧ pool'.members E =
        prune (Spends E) (pool.members E) {c | ∃ i ∈ outputs, SpendsAt E tx i c} := by
  induction outputs generalizing pool with
  | nil =>
    refine ⟨pool, rfl, hi, hP, ?_⟩
    rw [prune_of_disjoint]
    rintro c ⟨i, hi, -⟩
    cases hi
  | cons i outputs ih =>
    have hrm' : ∀ pool c, pool.Indexed E → P pool → c ∈ pool.members E →
        (∃ i ∈ outputs, SpendsAt E tx i c) →
        ∃ pool', removeTx c pool = .ok pool' ∧ pool'.Indexed E ∧ P pool' ∧
          pool'.members E = prune (Spends E) (pool.members E) {c} := by
      rintro pool c h1 h2 h3 ⟨j, hj, hs⟩
      exact hrm pool c h1 h2 h3 ⟨j, mem_cons_of_mem _ hj, hs⟩
    have hset : {c | ∃ j ∈ i :: outputs, SpendsAt E tx j c} =
        {c | SpendsAt E tx i c} ∪ {c | ∃ j ∈ outputs, SpendsAt E tx j c} := by
      ext c
      simp
    -- the step for output `i`
    have hstep : ∃ pool1, removeSpender E tx removeTx pool i = .ok pool1 ∧ pool1.Indexed E ∧
        P pool1 ∧ pool1.members E = prune (Spends E) (pool.members E) {c | SpendsAt E tx i c} := by
      unfold removeSpender
      cases hl : pool.mapNextTx.lookup ⟨E.txHash tx, i⟩ with
      | none =>
        refine ⟨pool, rfl, hi, hP, ?_⟩
        rw [prune_of_disjoint]
        rintro c ⟨txin, hin, ho⟩ hc
        obtain ⟨j, hj⟩ := hi.lookup hc hin
        rw [ho, hl] at hj
        cases hj
      | some r =>
        obtain ⟨ptx, hp, hj⟩ := (hi.next _ _ _).1 hl
        obtain ⟨txin, hin, ho⟩ := map_eq_some_iff.1 hj
        have hspends : SpendsAt E tx i ptx := ⟨txin, mem_of_getElem? hin, ho⟩
        obtain ⟨pool1, h1, h2, h3, h4⟩ := hrm pool ptx hi hP (hi.mem hp)
          ⟨i, mem_cons_self, hspends⟩
        refine ⟨pool1, by simp only [hp, h1], h2, h3, ?_⟩
        rw [h4]
        refine prune_congr fun c hc => ?_
        constructor
        · rintro rfl
          exact hspends
        · rintro ⟨txin', hin', ho'⟩
          obtain ⟨k, hk⟩ := hi.lookup hc hin'
          rw [ho', hl, some.injEq, Prod.mk.injEq] at hk
          rw [hk.1] at hp
          exact some.inj (hc.symm.trans hp)
    obtain ⟨pool1, h1, h2, h3, h4⟩ := hstep
    obtain ⟨pool2, h5, h6, h7, h8⟩ := ih hrm' h2 h3
    refine ⟨pool2, ?_, h6, h7, ?_⟩
    · rw [foldlM_cons, h1]
      exact h5
    · rw [h8, h4, prune_prune, hset]

theorem remove_recursive (fuel : ℕ) (tx : CTransaction) (pool : CTxMemPool)
    (hc : pool.contains (E.txHash tx) = true) :
    remove E (fuel + 1) true tx pool =
      ((List.range tx.vout.length).foldlM (removeSpender E tx (remove E fuel true)) pool).map
        (·.drop E tx) := by
  rw [remove, hc]
  rfl

/-- **`remove(tx, true)` removes the transaction and what depends on it**: the recursion ends, as
long as the fuel is not less than the number of transactions that can depend on it. -/
theorem removeFuel_spec (hinj : Set.InjOn E.txHash T) {rank : CTransaction → ℕ}
    (hrank : ∀ a ∈ T, ∀ b ∈ T, Spends E a b → rank a < rank b) {fuel : ℕ} (hi : pool.Indexed E)
    (hsub : pool.members E ⊆ T) (htx : tx ∈ T)
    (hfuel : above rank (rank tx) (pool.members E) < fuel) :
    ∃ pool', remove E fuel true tx pool = .ok pool' ∧ pool'.Indexed E ∧
      pool'.members E = prune (Spends E) (pool.members E) {tx} := by
  induction fuel generalizing pool tx with
  | zero => omega
  | succ fuel ih =>
    cases hc : pool.contains (E.txHash tx) with
    | false =>
      refine ⟨pool, by rw [remove, hc]; rfl, hi, ?_⟩
      rw [prune_of_disjoint]
      rintro c rfl
      exact not_mem_of_not_contains hc
    | true =>
      have hmem := hi.mem_of_contains hinj hsub htx hc
      -- the spenders are of higher rank, so less fuel is enough for them
      have hrm : ∀ (p : CTxMemPool) c, p.Indexed E →
          (p.members E ⊆ T ∧ above rank (rank tx) (p.members E) < fuel + 1) → c ∈ p.members E →
          (∃ i ∈ List.range tx.vout.length, SpendsAt E tx i c) →
          ∃ p', remove E fuel true c p = .ok p' ∧ p'.Indexed E ∧
            (p'.members E ⊆ T ∧ above rank (rank tx) (p'.members E) < fuel + 1) ∧
            p'.members E = prune (Spends E) (p.members E) {c} := by
        rintro p c hpi ⟨hpT, hpf⟩ hcm ⟨i, hi, hs⟩
        have hlt := hrank tx htx c (hpT hcm) ⟨i, mem_range.1 hi, hs⟩
        have habove := above_lt hcm hlt (p.members_finite E)
        obtain ⟨p', hr, hpi', hm⟩ := ih hpi hpT (hpT hcm) (by omega)
        have hsub' : p'.members E ⊆ p.members E := hm ▸ prune_subset
        have hle := above_mono rank (rank tx) hsub' (p.members_finite E)
        exact ⟨p', hr, hpi', ⟨hsub'.trans hpT, by omega⟩, hm⟩
      obtain ⟨pool1, h1, h2, -, h4⟩ := removeOutputs_spec tx _ _ _ hrm hi ⟨hsub, hfuel⟩
      have hkeep : tx ∈ pool1.members E := by
        rw [h4]
        refine ⟨hmem, ?_⟩
        rintro ⟨c, ⟨i, hi, hs⟩, hcm, hbelow⟩
        have hlt := hrank tx htx c (hsub hcm) ⟨i, mem_range.1 hi, hs⟩
        have hle := rank_le_of_below hrank hsub hcm hbelow
        omega
      refine ⟨pool1.drop E tx, ?_, drop_indexed h2 hkeep, ?_⟩
      · rw [remove_recursive fuel tx pool hc, h1]
        rfl
      · rw [drop_members hkeep, h4, prune_self hmem]
        simp only [mem_range, Spends]

/-- The depth of the recursion is bounded by the size of the pool. -/
def removeFuel (pool : CTxMemPool) : ℕ := pool.mapTx.keys.length + 1

theorem removeRecursive_spec (hT : PoolHashes E T) (hi : pool.Indexed E) (hsub : pool.members E ⊆ T)
    (htx : tx ∈ T) :
    ∃ pool', remove E pool.removeFuel true tx pool = .ok pool' ∧ pool'.Indexed E ∧
      pool'.members E = prune (Spends E) (pool.members E) {tx} := by
  obtain ⟨rank, hrank⟩ := hT.acyclic
  exact removeFuel_spec hT.inj hrank hi hsub htx (above_lt_keys rank (rank tx))

theorem removeOne_spec (hT : PoolHashes E T) (hi : pool.Indexed E) (hsub : pool.members E ⊆ T)
    (htx : tx ∈ T) :
    ∃ pool', remove E pool.removeFuel false tx pool = .ok pool' ∧ pool'.Indexed E ∧
      pool'.members E = pool.members E \ {tx} := by
  cases hc : pool.contains (E.txHash tx) with
  | false =>
    refine ⟨pool, by rw [removeFuel, remove, hc]; rfl, hi, ?_⟩
    rw [sdiff_eq_left.2]
    rw [Set.disjoint_singleton_right]
    exact not_mem_of_not_contains hc
  | true =>
    have hmem := hi.mem_of_contains hT.inj hsub htx hc
    refine ⟨pool.drop E tx, by rw [removeFuel, remove, hc]; rfl, drop_indexed hi hmem, ?_⟩
    exact drop_members hmem

/-- The transactions that spend an input of `tx`, other than `tx`. -/
def Conflicts (tx : CTransaction) (vin : List CTxIn) : Set CTransaction :=
  {c | c ≠ tx ∧ ∃ txin ∈ vin, ∃ txin' ∈ c.vin, txin'.prevout = txin.prevout}

/-- A pass of the loop of `removeConflicts`. -/
def removeConflict (E : Env) (tx : CTransaction) (pool : CTxMemPool) (txin : CTxIn) :
    Except Stop CTxMemPool :=
  match pool.mapNextTx.lookup txin.prevout with
  | none => .ok pool
  | some (hash, _) =>
    match pool.mapTx.lookup hash with
    | none => .error (.crash "CTxMemPool::removeConflicts() : dangling CInPoint")
    | some txConflict =>
      if txConflict ≠ tx then remove E pool.removeFuel true txConflict pool else .ok pool

theorem removeConflict_spec (hT : PoolHashes E T) (hi : pool.Indexed E)
    (hsub : pool.members E ⊆ T) (txin : CTxIn) :
    ∃ pool', removeConflict E tx pool txin = .ok pool' ∧ pool'.Indexed E ∧
      pool'.members E = prune (Spends E) (pool.members E) (Conflicts tx [txin]) := by
  unfold removeConflict
  cases hl : pool.mapNextTx.lookup txin.prevout with
  | none =>
    refine ⟨pool, rfl, hi, ?_⟩
    rw [prune_of_disjoint]
    rintro c ⟨-, _, h, txin', hin, ho⟩ hc
    obtain rfl := mem_singleton.1 h
    obtain ⟨j, hj⟩ := hi.lookup hc hin
    rw [ho, hl] at hj
    cases hj
  | some r =>
    obtain ⟨c, hp, hj⟩ := (hi.next _ _ _).1 hl
    obtain ⟨txin', hin, ho⟩ := map_eq_some_iff.1 hj
    -- `c` is the only transaction of the pool that spends the outpoint
    have honly : ∀ d ∈ pool.members E, d ∈ Conflicts tx [txin] → d = c := by
      rintro d hd ⟨-, _, h, txin'', hin'', ho''⟩
      obtain rfl := mem_singleton.1 h
      obtain ⟨k, hk⟩ := hi.lookup hd hin''
      rw [ho'', hl, some.injEq, Prod.mk.injEq] at hk
      rw [hk.1] at hp
      exact some.inj (hd.symm.trans hp)
    simp only [hp]
    by_cases hne : c ≠ tx
    · obtain ⟨pool1, h1, h2, h3⟩ := removeRecursive_spec hT hi hsub (hsub (hi.mem hp))
      refine ⟨pool1, by rw [if_pos hne, h1], h2, ?_⟩
      rw [h3]
      refine prune_congr fun d hd => ?_
      constructor
      · rintro rfl
        exact ⟨hne, txin, mem_singleton_self _, txin', mem_of_getElem? hin, ho⟩
      · exact honly d hd
    · refine ⟨pool, by rw [if_neg hne], hi, ?_⟩
      rw [prune_of_disjoint]
      intro d hd hdm
      exact hne (honly d hdm hd ▸ hd.1)

/-- `removeConflicts` removes the transactions that spend an input of `tx`, with what depends on
them. -/
theorem removeConflicts_spec (hT : PoolHashes E T) (hi : pool.Indexed E)
    (hsub : pool.members E ⊆ T) (tx : CTransaction) :
    ∃ pool', removeConflicts E tx pool = .ok pool' ∧ pool'.Indexed E ∧
      pool'.members E = prune (Spends E) (pool.members E) (Conflicts tx tx.vin) := by
  have hloop : ∀ vin : List CTxIn, ∃ pool', vin.foldlM (removeConflict E tx) pool = .ok pool' ∧
      pool'.Indexed E ∧ pool'.members E = prune (Spends E) (pool.members E) (Conflicts tx vin) := by
    intro vin
    induction vin generalizing pool with
    | nil =>
      refine ⟨pool, rfl, hi, ?_⟩
      rw [prune_of_disjoint]
      rintro c ⟨-, txin, h, -⟩
      cases h
    | cons txin vin ih =>
      obtain ⟨pool1, h1, h2, h3⟩ := removeConflict_spec hT hi hsub txin
      obtain ⟨pool2, h4, h5, h6⟩ := ih h2 (h3 ▸ prune_subset.trans hsub)
      refine ⟨pool2, ?_, h5, ?_⟩
      · rw [foldlM_cons, h1]
        exact h4
      · rw [h6, h3, prune_prune]
        congr 1
        ext c
        simp only [Conflicts, Set.mem_union, Set.mem_ofPred_eq, mem_cons, not_mem_nil,
          exists_eq_or_imp, exists_eq_left, or_false, and_or_left]
  exact hloop tx.vin

end CTxMemPool

end Espers
