import Espers.Lib.Store
import Espers.Lib.Forest
import Espers.Lib.Exec
import Espers.Lib.Ledger
import Espers.Lib.Binary64
import Espers.Lib.Prune
import Espers.Lib.CellList
import Espers.Lib.Walk
import Espers.Lib.AddRemove
import Espers.Lib.KeepBest
import Espers.Lib.SeenKeys
import Espers.Lib.Inverted
import Espers.Lib.Wire
import Espers.Lib.Spends
import Espers.Lib.Tokens
import Espers.Lib.Mutual
import Espers.Lib.Buckets
import Espers.Core.Amount
import Espers.Core.Data
import Espers.Core.Script
import Espers.Core.Transaction
import Espers.Core.Codec
import Espers.Core.Keys
import Espers.Core.SigOps
import Espers.Core.Block
import Espers.Chain.World
import Espers.Chain.BlockSize
import Espers.Chain.Inputs
import Espers.Chain.Joins
import Espers.Chain.View
import Espers.Chain.Reward
import Espers.Chain.Connect
import Espers.Chain.Undo
import Espers.Chain.Supply
import Espers.Chain.Files
import Espers.Chain.Mempool
import Espers.Chain.Offer
import Espers.Chain.MempoolIndex
import Espers.Chain.Fork
import Espers.Chain.Reorganize
import Espers.Chain.BestChain
import Espers.Chain.Failure
import Espers.Chain.Path
import Espers.Chain.Links
import Espers.Chain.Coherence
import Espers.Chain.Accept
import Espers.Chain.Run
import Espers.Chain.Progress
import Espers.Chain.Growth
import Espers.Chain.Postponed
import Espers.Chain.Simnet
import Espers.Chain.Simfork
import Espers.Chain.Calls
import Espers.Chain.Invariants
import Espers.Chain.Cap
import Espers.Chain.Notify
import Espers.Chain.MempoolRun
import Espers.Chain.SizeWindow
import Espers.Retarget.Target
import Espers.Retarget.Rules
import Espers.Retarget.Agreement
import Espers.Net.BlockQueue
import Espers.Net.Orphans
import Espers.Net.ProcessBlock
import Espers.Net.OrphanStakes
import Espers.Net.OrphanTxs
import Espers.Net.DemiRegistry
import Espers.Net.DemiSync
import Espers.Net.Spork
import Espers.Net.Alert
import Espers.Xnode.BlockHash
import Espers.Xnode.Winners
import Espers.Pas.Message
import Espers.Pas.Gossip
import Espers.Miner.Template
import Espers.Miner.Bounds
import Espers.Miner.Limits
import Espers.Wallet.Sync
import Espers.Wallet.Spent
import Espers.Wallet.Run
import Espers.Wallet.KeyPool
import Espers.Wallet.Reservations
import Espers.Wallet.CryptoKeyStore
import Espers.Wallet.Passphrase
import Espers.Wallet.Reorder
import Espers.Wallet.Records
import Espers.Wallet.Coins
import Espers.Wallet.LockedCoins
import Espers.Wallet.Select
import Espers.Wallet.Caches
import Espers.Wallet.CacheCoherence
import Espers.Script.Encoding
import Espers.Script.Machine
import Espers.Script.Frame
import Espers.Script.Safety
import Espers.Script.Policy
import Espers.Miner.Taken
import Espers.Miner.Mined
import Espers.Script.Checks
import Espers.Script.Solver
import Espers.Script.Spending
import Espers.Script.Signing
import Espers.Script.Commits
import Espers.Fractal.Obfuscation
import Espers.Fractal.RoundTrip
import Espers.Addr.Manager
import Espers.Addr.Book
import Espers.Addr.Operations
import Espers.Addr.Consistency
import Espers.Addr.Peers
import Espers.Addr.Reload
import Espers.Addr.PeersFile
import Espers.Retarget.Factors
import Espers.Chain.RewardRule
import Espers.Chain.ReorgSettings
import Espers.Lib.Framing
import Espers.Net.Framing
import Espers.Net.Segmentation
import Espers.Net.Dispatch
import Espers.Lib.Base32
import Espers.Net.Address
import Espers.Net.Ban
import Espers.Lib.Merkle
import Espers.Core.Merkle
import Espers.Chain.Amounts
import Espers.Stake.Reward
import Espers.Chain.Locator
import Espers.Stake.Kernel
import Espers.Stake.Modifier
import Espers.Chain.TxFactor
import Espers.Chain.Velocity
import Espers.Chain.Parents
import Espers.Stake.CoinStake
import Espers.Stake.Credit
import Espers.Wallet.Payment
import Espers.Lib.Components
import Espers.Wallet.Groupings
import Espers.Wallet.CoinAge
import Espers.Wallet.SelectByAge
import Espers.Chain.Relink
import Espers.Chain.Batch
import Espers.Retarget.Compact
import Espers.Lib.Loop
import Espers.Pas.Oldest
import Espers.Xnode.Random
import Espers.Xnode.Removal
import Espers.Fractal.Bvac
import Espers.Lib.Rounding
import Espers.Fractal.Flameout
import Espers.Fractal.Seed
import Espers.Fractal.Moves
import Espers.Fractal.Reversal
import Espers.Fractal.Ignition
import Espers.Fractal.TableBounds
import Espers.Lib.Matching
import Espers.Script.MultiSig
import Espers.Lib.Collect
import Espers.Script.Combine
import Espers.Script.Templates
import Espers.Script.Destination
import Espers.Chain.Positions
import Espers.Script.StrictDER
import Espers.Lib.Lexer
import Espers.Script.Instructions
import Espers.Script.Pushes
import Espers.Addr.Stalest
import Espers.Wallet.Money
import Espers.Lib.Radix
import Espers.Wallet.Base58
import Espers.Lib.Median
import Espers.Net.LimitedMap
import Espers.Net.TimeData
import Espers.Net.TextCodes
