import Espers.Wallet.Spent

/-!
# The cached amounts of wallet transactions

A wallet transaction caches its debit, its credit and its available credit.  The debit depends on
other transactions of the wallet, and all three on the scripts the wallet takes for its own; the
caches of a transaction are dropped when the transaction itself is touched.

* `Amount.fromScratch` : what would be computed.
* `cachedQuery`, `addToWalletCached`, `walletUpdateSpentCached`, `CachedWallet.eraseFromWallet`,
  `CachedWallet.addCScript` : the functions with their caches.
-/

namespace Espers

open Exec

/-- The caches of a wallet transaction; `none` when the flag of the cache is off. -/
structure TxCache where
  nDebitCached : Option ℤ
  nCreditCached : Option ℤ
  nAvailableCreditCached : Option ℤ
  deriving DecidableEq

/-- The caches after `CWalletTx::MarkDirty`. -/
def TxCache.dirty : TxCache := ⟨none, none, none⟩

/-- The wallet with the caches of its transactions, and the scripts of its key store. -/
structure CachedWallet where
  wallet : Wallet
  cache : Uint256 → TxCache
  mapScripts : List CScript

/-- What the amounts depend on. -/
structure CacheEnv where
  /-- `::IsMine` with the scripts of the key store. -/
  isMine : List CScript → CTxOut → Bool
  nMinimumInputValue : ℤ
  /-- A coinbase or a coinstake that is not deep enough. -/
  immature : CWalletTx → Bool

/-- What the wallet takes for its own. -/
def CacheEnv.keystore (E : CacheEnv) (mapScripts : List CScript) : Keystore :=
  ⟨E.isMine mapScripts, E.nMinimumInputValue⟩

/-! ### Computing the amounts -/

/-- `CWallet::GetCredit` of an output. -/
def Keystore.getCredit (K : Keystore) (txout : CTxOut) : Except Stop ℤ :=
  if !moneyRange txout.nValue then .error (.exception "CWallet::GetCredit() : value out of range")
  else .ok (if K.isMine txout then txout.nValue else 0)

/-- The loop of `CWallet::GetCredit`. -/
def Keystore.sumCredit (K : Keystore) (nCredit : ℤ) : List CTxOut → Except Stop ℤ
  | [] => .ok nCredit
  | txout :: vout => do
    let n ← K.getCredit txout
    let nCredit := add64 nCredit n
    rejectIf (!moneyRange nCredit) (.exception "CWallet::GetCredit() : value out of range")
    K.sumCredit nCredit vout

/-- The loop of `GetAvailableCredit`. -/
def Keystore.sumAvailable (K : Keystore) (vfSpent : List Bool) (i : ℕ) (nCredit : ℤ) :
    List CTxOut → Except Stop ℤ
  | [] => .ok nCredit
  | txout :: vout =>
    if vfSpent.getD i false then K.sumAvailable vfSpent (i + 1) nCredit vout
    else do
      let n ← K.getCredit txout
      let nCredit := add64 nCredit n
      rejectIf (!moneyRange nCredit)
        (.exception "CWalletTx::GetAvailableCredit() : value out of range")
      K.sumAvailable vfSpent (i + 1) nCredit vout

/-- The three amounts. -/
inductive Amount where
  | debit
  | credit
  | availableCredit
  deriving DecidableEq

namespace Amount

/-- The cache of an amount. -/
def read : Amount → TxCache → Option ℤ
  | debit, c => c.nDebitCached
  | credit, c => c.nCreditCached
  | availableCredit, c => c.nAvailableCreditCached

/-- The cache with an amount. -/
def write : Amount → ℤ → TxCache → TxCache
  | debit, n, c => { c with nDebitCached := some n }
  | credit, n, c => { c with nCreditCached := some n }
  | availableCredit, n, c => { c with nAvailableCreditCached := some n }

/-- The amount is computed. -/
def compute (K : Keystore) (w : Wallet) (wtx : CWalletTx) : Amount → Except Stop ℤ
  | debit => w.sumDebit K 0 wtx.vin
  | credit => K.sumCredit 0 wtx.vout
  | availableCredit => K.sumAvailable wtx.vfSpent 0 0 wtx.vout

/-- The amount is zero without looking at the cache. -/
def isZero (E : CacheEnv) (wtx : CWalletTx) : Amount → Bool
  | debit => wtx.vin.isEmpty
  | credit | availableCredit => E.immature wtx

/-- The amount that would be computed for a transaction of the wallet. -/
def fromScratch (E : CacheEnv) (s : CachedWallet) (wtx : CWalletTx) (x : Amount) : Except Stop ℤ :=
  if x.isZero E wtx then .ok 0 else x.compute (E.keystore s.mapScripts) s.wallet wtx

end Amount

/-! ### The functions with caches -/

section Operations

variable (E : CacheEnv)

/-- The caches of a transaction are changed. -/
def CachedWallet.setCache (hash : Uint256) (c : TxCache) (s : CachedWallet) : CachedWallet :=
  { s with cache := Function.update s.cache hash c }

/-- An entry of `mapWallet` is replaced. -/
def CachedWallet.put (hash : Uint256) (wtx : CWalletTx) (s : CachedWallet) : CachedWallet :=
  { s with wallet := s.wallet.put hash wtx }

/-- `GetDebit`, `GetCredit` and `GetAvailableCredit` of a transaction of the wallet; the debit is
always looked up. -/
def cachedQuery (x : Amount) (hash : Uint256) (fUseCache : Bool) : EStateM Stop CachedWallet ℤ := do
  let s ← get
  match s.wallet.mapWallet.lookup hash with
  | none => throw (.crash "mapWallet.end()")
  | some wtx =>
    if x.isZero E wtx then return 0
    else
      match if fUseCache || decide (x = .debit) then x.read (s.cache hash) else none with
      | some n => return n
      | none => do
        let n ← lift (x.compute (E.keystore s.mapScripts) s.wallet wtx)
        set (s.setCache hash (x.write n (s.cache hash)))
        return n

/-- The available credit is not known any more. -/
def TxCache.dropAvailable (c : TxCache) : TxCache := { c with nAvailableCreditCached := none }

/-- The first loop of `WalletUpdateSpent`. -/
def markInputsCached : List CTxIn → EStateM Stop CachedWallet Unit
  | [] => pure ()
  | txin :: vin => do
    let s ← get
    match s.wallet.mapWallet.lookup txin.prevout.hash with
    | none => markInputsCached vin
    | some wtx =>
      match wtx.vout[txin.prevout.n]? with
      | none => markInputsCached vin
      | some txout => do
        let fSpent ← lift (wtx.isSpent txin.prevout.n)
        if !fSpent && E.isMine s.mapScripts txout then do
          -- the credit is printed
          let _ ← cachedQuery E .credit txin.prevout.hash true
          let wtx ← lift (wtx.markSpent txin.prevout.n)
          modify fun s => (s.put txin.prevout.hash wtx).setCache txin.prevout.hash
            (s.cache txin.prevout.hash).dropAvailable
          markInputsCached vin
        else markInputsCached vin

/-- The second loop of `WalletUpdateSpent`. -/
def unmarkOutputsCached (hash : Uint256) : ℕ → List CTxOut → EStateM Stop CachedWallet Unit
  | _, [] => pure ()
  | i, txout :: vout => do
    let s ← get
    if E.isMine s.mapScripts txout then
      match s.wallet.mapWallet.lookup hash with
      | none => throw (.crash "WalletUpdateSpent() : mapWallet.end()")
      | some wtx => do
        let wtx' ← lift (wtx.markUnspent i)
        set ((s.put hash wtx').setCache hash
          (if wtx.vfSpent.getD i false then (s.cache hash).dropAvailable else s.cache hash))
        unmarkOutputsCached hash (i + 1) vout
    else unmarkOutputsCached hash (i + 1) vout

/-- `CWallet::WalletUpdateSpent`. -/
def walletUpdateSpentCached (txHash : CTransaction → Uint256) (tx : CTransaction) (fBlock : Bool) :
    EStateM Stop CachedWallet Unit := do
  markInputsCached E tx.vin
  if fBlock then unmarkOutputsCached E (txHash tx) 0 tx.vout else pure ()

/-- `CWallet::AddToWallet`: the entry is bound to the wallet, which drops its caches. -/
def addToWalletCached (txHash : CTransaction → Uint256) (writes : Bool) (wtxIn : CWalletTx) :
    EStateM Stop CachedWallet Bool := do
  let hash := txHash wtxIn.toCTransaction
  let s ← get
  let merged := match s.wallet.mapWallet.lookup hash with
    | none => (wtxIn, true)
    | some wtx => mergeTx wtx wtxIn
  set ((s.put hash merged.1).setCache hash .dirty)
  if merged.2 && !writes then pure false
  else do
    walletUpdateSpentCached E txHash merged.1.toCTransaction (decide (wtxIn.hashBlock ≠ 0))
    pure true

/-- `CWallet::EraseFromWallet`. -/
def CachedWallet.eraseFromWallet (hash : Uint256) (s : CachedWallet) : CachedWallet :=
  { s with
    wallet := ⟨s.wallet.mapWallet.erase hash⟩
    cache := Function.update s.cache hash .dirty }

/-- `CWallet::AddCScript`. -/
def CachedWallet.addCScript (redeemScript : CScript) (s : CachedWallet) : CachedWallet :=
  if redeemScript.length > maxScriptElementSize then s
  else { s with mapScripts := redeemScript :: s.mapScripts }

end Operations

end Espers
