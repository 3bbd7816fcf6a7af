import Espers.Chain.Failure
import Espers.Chain.Files
import Espers.Lib.Ledger

/-!
# The path to a block and its ledger

The blocks from genesis to a block of the index, connected one after the other, give a view of the
transaction index (`Chained`).  Their transactions form a ledger, and the view tracks it: there is a
record for each transaction, and the slots that are null are those of the outputs that nobody has
consumed (`Tracks`).

* `Tracks.connectTxs` : connecting the transactions of a block keeps the view and the ledger in
  step; a transaction that is connected had no record.
* `Chained.tracks` : **the view of a path tracks its ledger**, so on a path no output is consumed
  twice and every consumed output was made before.
* `Chained.supply` : **the supply at a block is the total of the unspent outputs** of the view of
  its path, in 64-bit arithmetic.
-/

namespace Espers

open Exec List BlockMap Forest

variable {E : Env} {v : View} {e : CBlockIndex} {pos : ℕ} {tx : CTransaction}
  {vtx L : List CTransaction} {p q g : Uint256} {m m' : BlockMap} {fs fs' : BlockFiles}

/-! ### Views and ledgers -/

/-- The outpoint names an output of the transaction. -/
def Makes (E : Env) (tx : CTransaction) (o : COutPoint) : Prop :=
  o.hash = E.txHash tx ∧ o.n < tx.vout.length

/-- The output exists in the ledger and has not been consumed. -/
abbrev Unspent (E : Env) (L : List CTransaction) (o : COutPoint) : Prop :=
  Ledger.Unspent CTransaction.spends (Makes E) L o

/-- The view has one record for each transaction of the ledger, and the null slots are the unspent
outputs. -/
structure Tracks (E : Env) (v : View) (L : List CTransaction) : Prop where
  mem : ∀ h, v h = none ↔ ∀ tx ∈ L, E.txHash tx ≠ h
  slots : ∀ o, slot v o = some .null ↔ Unspent E L o
  wellFormed : Ledger.WellFormed CTransaction.spends (Makes E) L

theorem Tracks.empty : Tracks E (fun _ => none) [] :=
  ⟨by simp, by simp [slot, Ledger.Unspent], .nil⟩

theorem slot_connectTx_self {p : CDiskTxPos} {o : COutPoint} (h : o.hash = E.txHash tx) :
    slot (connectTx E p tx v) o = some .null ↔ o.n < tx.vout.length := by
  simp only [slot, h, connectTx, Function.update_self, Option.bind_some, CTxIndex.ofOutputs,
    getElem?_replicate]
  split_ifs with hn
  · simp [hn]
  · simp [hn]

/-- Connecting a transaction keeps the view and the ledger in step. -/
theorem Tracks.connectTx {p : CDiskTxPos} (h : Tracks E v L) (hs : Spendable v tx)
    (hnd : tx.spends.Nodup) (hn : v (E.txHash tx) = none) (hp : p ≠ .null) :
    Tracks E (connectTx E p tx v) (tx :: L) := by
  have hnew := (h.mem _).1 hn
  refine ⟨fun k => ?_, fun o => ?_, h.wellFormed.cons hnd fun o ho => (h.slots o).1 (hs o ho)⟩
  · rw [connectTx_eq_none, h.mem]
    simp only [mem_cons, forall_eq_or_imp]
    exact ⟨fun ⟨h1, h2⟩ => ⟨h2.symm, h1⟩, fun ⟨h1, h2⟩ => ⟨h2, h1.symm⟩⟩
  · rcases eq_or_ne o.hash (E.txHash tx) with ho | ho
    · -- an output of the new transaction: no earlier transaction has its hash
      have hL : ∀ t ∈ L, ¬ Makes E t o := fun t ht hm => hnew t ht (hm.1.symm.trans ho)
      have hspent : o ∉ Ledger.spent CTransaction.spends (tx :: L) := by
        rw [Ledger.spent_cons, mem_append, not_or]
        refine ⟨fun hsp => hs.hash_ne hn hsp ho, fun hsp => ?_⟩
        obtain ⟨t, ht, hm⟩ := h.wellFormed.made hsp
        exact hL t ht hm
      rw [slot_connectTx_self ho]
      refine ⟨fun hlt => ⟨⟨tx, mem_cons_self, ho, hlt⟩, hspent⟩, ?_⟩
      rintro ⟨⟨t, ht, hm⟩, -⟩
      rcases mem_cons.1 ht with rfl | ht
      · exact hm.2
      · exact absurd hm (hL t ht)
    · have hmakes : (∃ t ∈ tx :: L, Makes E t o) ↔ ∃ t ∈ L, Makes E t o := by
        simp only [mem_cons, exists_eq_or_imp]
        exact or_iff_right fun hm => ho hm.1
      rw [slot_connectTx_of_ne ho, Unspent, Ledger.Unspent, hmakes, Ledger.spent_cons,
        mem_append, not_or]
      split_ifs with hsp
      · rw [hs o hsp]
        simp [hp, hsp]
      · rw [h.slots o]
        simp [Ledger.Unspent, hsp]

/-- No two transactions of the list have the same hash, unless they are equal. -/
def NoCollision (E : Env) (txs : List CTransaction) : Prop :=
  ∀ a ∈ txs, ∀ b ∈ txs, E.txHash a = E.txHash b → a = b

theorem NoCollision.subset {l l' : List CTransaction} (h : NoCollision E l) (hs : l' ⊆ l) :
    NoCollision E l' := fun a ha b hb => h a (hs ha) b (hs hb)

theorem Tracks.absent_spender (h : Tracks E v L) (hs : Spendable v tx) (hcb : tx.isCoinBase = false)
    (hsane : TxSane tx) (hnc : NoCollision E (tx :: L)) : v (E.txHash tx) = none := by
  rw [h.mem]
  intro t ht heq
  have ht' : t = tx := hnc t (mem_cons_of_mem _ ht) tx mem_cons_self heq
  rw [ht'] at ht
  have hne : tx.spends ≠ [] := by simp [CTransaction.spends, hcb, hsane.vin_ne]
  exact Ledger.WellFormed.not_again ht hne fun o ho => (h.slots o).1 (hs o ho)

theorem Tracks.spenders (h : Tracks E v L) (hs : AllSpendable E e pos vtx v)
    (hcb : ∀ tx ∈ vtx, tx.isCoinBase = false) (hsane : ∀ tx ∈ vtx, TxSane tx)
    (hnc : NoCollision E (vtx ++ L)) :
    (∀ tx ∈ vtx, v (E.txHash tx) = none) ∧ Tracks E (connectTxs E e pos vtx v)
    (vtx.reverse ++ L) := by
  induction vtx generalizing pos v L with
  | nil => exact ⟨by simp, h⟩
  | cons tx vtx ih =>
    have habs : v (E.txHash tx) = none := by
      refine h.absent_spender hs.1 (hcb tx mem_cons_self) (hsane tx mem_cons_self)
        (hnc.subset ?_)
      exact cons_subset_cons _ (subset_append_right _ _)
    have hstep := h.connectTx hs.1 (hsane tx mem_cons_self).spends_nodup habs
      (e.txPos_ne_null pos)
    obtain ⟨hrest, htr⟩ := ih hstep hs.2 (fun x hx => hcb x (mem_cons_of_mem _ hx))
      (fun x hx => hsane x (mem_cons_of_mem _ hx)) (hnc.subset (by
        intro x hx
        simp only [mem_append, mem_cons] at hx ⊢
        tauto))
    refine ⟨fun x hx => ?_, by simpa [Espers.connectTxs] using htr⟩
    rcases mem_cons.1 hx with rfl | hx
    · exact habs
    · exact (connectTx_eq_none.1 (hrest x hx)).1

/-- Connecting a block keeps the view and the ledger in step: none of its transactions had a
record, given that its coinbase had none. -/
theorem Tracks.connectTxs {block : CBlock} (h : Tracks E v L) (hsane : BlockSane E block)
    (hs : AllSpendable E e pos block.vtx v) (hnc : NoCollision E (block.vtx ++ L))
    (hcb : ∀ tx ∈ L, tx.isCoinBase = true → (tx.vin.getD 0 default).scriptSig ≠
        ((block.vtx.getD 0 default).vin.getD 0 default).scriptSig) :
    Fresh E block.vtx v ∧ Tracks E (connectTxs E e pos block.vtx v) (block.vtx.reverse ++ L) := by
  obtain ⟨cb, rest, hv, hcbt, hrest⟩ := hsane.coinbase
  have htxs := hsane.txs
  have hnd := hsane.nodup
  rw [hv] at hs hnc htxs hnd hcb ⊢
  have habs : v (E.txHash cb) = none := by
    rw [h.mem]
    intro t ht heq
    obtain rfl : t = cb := hnc t (mem_append_right _ ht) cb (by simp) heq
    exact hcb t ht hcbt rfl
  have hstep := h.connectTx hs.1 (htxs cb mem_cons_self).spends_nodup habs
    (e.txPos_ne_null pos)
  obtain ⟨hab, htr⟩ := hstep.spenders hs.2 hrest (fun x hx => htxs x (mem_cons_of_mem _ hx))
    (hnc.subset (by
      intro x hx
      simp only [mem_append, mem_cons] at hx ⊢
      tauto))
  refine ⟨⟨fun x hx => ?_, hnd⟩, by simpa [Espers.connectTxs] using htr⟩
  rcases mem_cons.1 hx with rfl | hx
  · exact habs
  · exact (connectTx_eq_none.1 (hab x hx)).1

/-! ### The path to a block -/

/-- The entry without the fields that change after it is made. -/
def CBlockIndex.fixed (e : CBlockIndex) : CBlockIndex :=
  { e with pnext := none, nMint := 0, nMoneySupply := 0 }

section Fixed

variable {e e' : CBlockIndex} (h : e'.fixed = e.fixed)
include h

theorem CBlockIndex.fixed_hashBlock : e'.hashBlock = e.hashBlock :=
  (CBlockIndex.mk.inj h).1

theorem CBlockIndex.fixed_pprev : e'.pprev = e.pprev := (CBlockIndex.mk.inj h).2.1

theorem CBlockIndex.fixed_nFile : e'.nFile = e.nFile := (CBlockIndex.mk.inj h).2.2.2.1

theorem CBlockIndex.fixed_nBlockPos : e'.nBlockPos = e.nBlockPos := (CBlockIndex.mk.inj h).2.2.2.2.1

theorem CBlockIndex.fixed_nChainTrust : e'.nChainTrust = e.nChainTrust :=
  (CBlockIndex.mk.inj h).2.2.2.2.2.1

theorem CBlockIndex.fixed_nHeight : e'.nHeight = e.nHeight := (CBlockIndex.mk.inj h).2.2.2.2.2.2.1

theorem CBlockIndex.fixed_nTime : e'.nTime = e.nTime := by
  simpa [CBlockIndex.fixed] using congrArg CBlockIndex.nTime h

theorem CBlockIndex.fixed_txPos : e'.txPos = e.txPos :=
  CBlockIndex.txPos_congr (CBlockIndex.fixed_nFile h) (CBlockIndex.fixed_nBlockPos h)

end Fixed

/-- The view after a block that lies at the place of the entry is connected. -/
def blockView (E : Env) (e : CBlockIndex) (block : CBlock) (v : View) : View :=
  connectTxs E e (firstTxPos e.nBlockPos block) block.vtx v

theorem blockView_congr {e e' : CBlockIndex} {block : CBlock} (h : e'.fixed = e.fixed) (v : View) :
    blockView E e' block v = blockView E e block v := by
  have hp := CBlockIndex.fixed_nBlockPos h
  rw [blockView, blockView, hp, connectTxs_congr (CBlockIndex.fixed_txPos h)]

/-- The script of the coinbase of a block. -/
def CBlock.coinbaseScript (block : CBlock) : CScript :=
  ((block.vtx.getD 0 default).vin.getD 0 default).scriptSig

/-- The entry `e`, filed under `p`, is that of a block with parent `q` in the files, and its
coinbase starts with the height. -/
structure Stored (E : Env) (fs : BlockFiles) (p q : Uint256) (e : CBlockIndex) (block : CBlock) :
    Prop where
  read : fs.readBlock e.nFile e.nBlockPos = some block
  located : Located fs.diskTx e (firstTxPos e.nBlockPos block) block.vtx
  hash : block.getHash E = p
  prev : block.hashPrevBlock = q
  height : pushInt e.nHeight <+: block.coinbaseScript

theorem Stored.mono {e e' : CBlockIndex} {block : CBlock} (h : Stored E fs p q e block)
    (he : e'.fixed = e.fixed) (hg : fs.Grows fs') : Stored E fs' p q e' block := by
  have hf := CBlockIndex.fixed_nFile he
  have hp := CBlockIndex.fixed_nBlockPos he
  have hh := CBlockIndex.fixed_nHeight he
  refine ⟨?_, ?_, h.hash, h.prev, ?_⟩
  · rw [hf, hp]
    exact hg.readBlock _ _ _ h.read
  · rw [hp]
    exact (h.located.congr (CBlockIndex.fixed_txPos he)).mono hg.diskTx
  · rw [hh]
    exact h.height

/-- The entries stay in the index and keep their fixed fields. -/
def BlockMap.Grows (m m' : BlockMap) : Prop :=
  ∀ x e, m.lookup x = some e → ∃ e', m'.lookup x = some e' ∧ e'.fixed = e.fixed

theorem BlockMap.Grows.refl (m : BlockMap) : m.Grows m := fun _ e he => ⟨e, he, rfl⟩

/-- A block connected by a call of `ConnectBlock` in the state `w`, which lies in the past of the
index and the files. -/
structure ConnectedIn (E : Env) (m : BlockMap) (fs : BlockFiles) (p : Uint256) (block : CBlock)
    (ctx : Ctx) (w w' : World) : Prop where
  index : w.mapBlockIndex.Grows m
  files : w.files.Grows fs
  call : connectBlock E ctx block p w = .ok () w'

theorem ConnectedIn.mono {block : CBlock} {ctx : Ctx} {w w' : World}
    (h : ConnectedIn E m fs p block ctx w w') (hm : m.Grows m') (hg : fs.Grows fs') :
    ConnectedIn E m' fs' p block ctx w w' where
  index x e he := by
    obtain ⟨e1, he1, hfix1⟩ := h.index x e he
    obtain ⟨e2, he2, hfix2⟩ := hm x e1 he1
    exact ⟨e2, he2, hfix2.trans hfix1⟩
  files := ⟨fun f n b hb => hg.readBlock f n b (h.files.readBlock f n b hb),
    fun p tx htx => hg.diskTx p tx (h.files.diskTx p tx htx)⟩
  call := h.call

theorem blockSubsidy_congr {e e' : CBlockIndex} (h : e'.fixed = e.fixed) (ctx : Ctx) (w : World)
    (block : CBlock) : blockSubsidy E ctx w block e' = blockSubsidy E ctx w block e := by
  rw [blockSubsidy, blockSubsidy, CBlockIndex.fixed_pprev h, CBlockIndex.fixed_nHeight h]

/-- The block filed under `p` has been connected on top of the view `v` of its parent `q`. -/
structure Connected (E : Env) (m : BlockMap) (fs : BlockFiles) (p q : Uint256) (e : CBlockIndex)
    (block : CBlock) (v : View) : Prop where
  entry : m.lookup p = some e
  prev : e.pprev = some q
  stored : Stored E fs p q e block
  sane : BlockSane E block
  spendable : AllSpendable E e (firstTxPos e.nBlockPos block) block.vtx v
  supply : e.nMoneySupply = wrap64 (totalUnspent fs.diskTx (blockView E e block v))
  /-- A call of `ConnectBlock` has turned the one view into the other, and the block has minted no
  more than its subsidy in this call. -/
  connected : ∃ ctx w1 w2 subsidy, ConnectedIn E m fs p block ctx w1 w2 ∧ w1.txdb.view = v ∧
    w2.txdb.view = blockView E e block v ∧ blockSubsidy E ctx w1 block e = some subsidy ∧
    totalUnspent fs.diskTx (blockView E e block v) ≤ totalUnspent fs.diskTx v + subsidy

/-- `l` lists the blocks of the path from `p` down to genesis, which is not listed; each of them has
been connected, in turn, and `v` is the view that results. -/
inductive Chained (E : Env) (m : BlockMap) (fs : BlockFiles) (g : Uint256) :
    Uint256 → List CBlock → View → Prop
  | genesis {e : CBlockIndex} : m.lookup g = some e → e.pprev = none → e.nMoneySupply = 0 →
      Chained E m fs g g [] fun _ => none
  | block {p q : Uint256} {e : CBlockIndex} {block : CBlock} {l : List CBlock} {v : View} :
      Chained E m fs g q l v → Connected E m fs p q e block v →
      Chained E m fs g p (block :: l) (blockView E e block v)

/-- The transactions of the blocks of a path, latest first. -/
def ledger (l : List CBlock) : List CTransaction := l.flatMap fun block => block.vtx.reverse

@[simp] theorem ledger_cons (block : CBlock) (l : List CBlock) :
    ledger (block :: l) = block.vtx.reverse ++ ledger l := rfl

theorem totalUnspent_empty (rd : CDiskTxPos → Option CTransaction) :
    totalUnspent rd (fun _ => none) = 0 := by
  simp [totalUnspent, recordValue]

namespace Chained

variable {l : List CBlock}

section

variable (h : Chained E m fs g p l v)
include h

theorem onDisk : OnDisk E fs.diskTx v := by
  induction h with
  | genesis => intro k i hi; cases hi
  | block _ hc ih => exact ih.connectTxs hc.stored.located hc.sane.txs

/-- **The supply at a block is the total of the unspent outputs of the view of its path.** -/
theorem supply : ∃ e, m.lookup p = some e ∧ e.nMoneySupply = wrap64 (totalUnspent fs.diskTx v) := by
  cases h with
  | genesis he _ hs => exact ⟨_, he, by rw [hs, totalUnspent_empty]; decide⟩
  | block _ hc => exact ⟨_, hc.entry, hc.supply⟩

/-- A path stays what it is while the files and the index grow, as long as the entries on it keep
their supply. -/
theorem mono (hg : fs.Grows fs') (hall : m.Grows m')
    (hm : ∀ x e, Anc (parent m) p x → m.lookup x = some e →
      ∃ e', m'.lookup x = some e' ∧ e'.fixed = e.fixed ∧ e'.nMoneySupply = e.nMoneySupply) :
    Chained E m' fs' g p l v := by
  induction h with
  | genesis he hp hs =>
    obtain ⟨e', he', hfix, hsup⟩ := hm _ _ (.refl _) he
    exact .genesis he' ((CBlockIndex.fixed_pprev hfix).trans hp) (hsup.trans hs)
  | @block p q e b l v hq hc ih =>
    obtain ⟨e', he', hfix, hsup⟩ := hm _ _ (.refl _) hc.entry
    have hprev : parent m p = some q := parent_eq_some.2 ⟨e, hc.entry, hc.prev⟩
    have hq' := ih fun x d hx => hm x d (.head hprev hx)
    have hdisk : OnDisk E fs.diskTx (blockView E e b v) := (hq.block hc).onDisk
    have hv : blockView E e' b v = blockView E e b v := blockView_congr hfix v
    rw [← hv]
    refine hq'.block ⟨he', (CBlockIndex.fixed_pprev hfix).trans hc.prev, hc.stored.mono hfix hg,
      hc.sane, ?_, ?_, ?_⟩
    · have hp := CBlockIndex.fixed_nBlockPos hfix
      rw [hp]
      exact hc.spendable.congr (CBlockIndex.fixed_txPos hfix)
    · rw [hsup, hc.supply, hv, hdisk.totalUnspent_eq hg.diskTx]
    · obtain ⟨ctx, w1, w2, subsidy, hcall, hv1, hv2, hsub, hle⟩ := hc.connected
      refine ⟨ctx, w1, w2, subsidy, hcall.mono hall hg, hv1, by rw [hv, hv2], ?_, ?_⟩
      · rw [blockSubsidy_congr hfix, hsub]
      · rw [hv, hdisk.totalUnspent_eq hg.diskTx, hq.onDisk.totalUnspent_eq hg.diskTx]
        exact hle

theorem lookup_isSome : (m.lookup p).isSome := by
  obtain ⟨e, he, -⟩ := h.supply
  simp [he]

/-- The coinbases on a path start with the heights of ancestors. -/
theorem coinbase {tx : CTransaction} (ht : tx ∈ ledger l)
    (hcb : tx.isCoinBase = true) : ∃ x e, Anc (parent m) p x ∧
      m.lookup x = some e ∧ pushInt e.nHeight <+: (tx.vin.getD 0 default).scriptSig := by
  induction h with
  | genesis => cases ht
  | @block p q e b l v hq hc ih =>
    rw [ledger_cons, mem_append, mem_reverse] at ht
    rcases ht with ht | ht
    · obtain ⟨cb, rest, hv, -, hrest⟩ := hc.sane.coinbase
      rw [hv] at ht
      rcases mem_cons.1 ht with rfl | ht
      · have hh := hc.stored.height
        rw [CBlock.coinbaseScript, hv] at hh
        exact ⟨p, e, .refl _, hc.entry, hh⟩
      · rw [hrest tx ht] at hcb
        cases hcb
    · obtain ⟨x, d, hx, hd, hp⟩ := ih ht
      exact ⟨x, d, Anc.head (parent_eq_some.2 ⟨e, hc.entry, hc.prev⟩) hx, hd, hp⟩

end

/-- No coinbase on the path to the parent of a block has the script of the block's coinbase: the
heights differ. -/
theorem coinbase_ne (h : Chained E m fs g q l v) (ht : IndexTree m g) {block : CBlock}
    (hsane : BlockSane E block) (he : m.lookup p = some e) (hprev : e.pprev = some q)
    (hh : pushInt e.nHeight <+: block.coinbaseScript) :
    ∀ tx ∈ ledger l, tx.isCoinBase = true →
      (tx.vin.getD 0 default).scriptSig ≠ block.coinbaseScript := by
  intro tx htx hcb heq
  obtain ⟨x, d, hx, hd, hp⟩ := h.coinbase htx hcb
  obtain ⟨cb, rest, hv, hcbt, -⟩ := hsane.coinbase
  have hlen : block.coinbaseScript.length ≤ 100 := by
    rw [CBlock.coinbaseScript, hv]
    exact (hsane.txs cb (by rw [hv]; exact mem_cons_self)).script_le hcbt
  rw [heq] at hp
  have hhe := pushInt_prefix_unique hh hp hlen
  have hle := hx.height_le ht.graded
  obtain ⟨c, hc, hlt⟩ := ht.prev p e q he hprev
  rw [height_of_lookup hd, height_of_lookup hc] at hle
  omega

/-- **The view of a path tracks its ledger.** -/
theorem tracks (h : Chained E m fs g p l v) (ht : IndexTree m g) (hnc : NoCollision E (ledger l)) :
    Tracks E v (ledger l) := by
  induction h with
  | genesis => exact .empty
  | @block p q e b l v hq hc ih =>
    have hq' := ih (hnc.subset (subset_append_right _ _))
    refine (hq'.connectTxs hc.sane hc.spendable (hnc.subset ?_)
      (hq.coinbase_ne ht hc.sane hc.entry hc.prev hc.stored.height)).2
    simp

theorem fresh (h : Chained E m fs g q l v) (ht : IndexTree m g) {block : CBlock}
    (hsane : BlockSane E block) (he : m.lookup p = some e) (hprev : e.pprev = some q)
    (hh : pushInt e.nHeight <+: block.coinbaseScript)
    (hs : AllSpendable E e (firstTxPos e.nBlockPos block) block.vtx v)
    (hnc : NoCollision E (ledger (block :: l))) : Fresh E block.vtx v := by
  refine ((h.tracks ht (hnc.subset (subset_append_right _ _))).connectTxs hsane hs
    (hnc.subset ?_) (h.coinbase_ne ht hsane he hprev hh)).1
  simp

end Chained

end Espers
