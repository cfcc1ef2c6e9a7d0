import BitcoinPR.Core.Coinbase
import BitcoinPR.Core.Difficulty
import BitcoinPR.Core.Ledger
import BitcoinPR.Core.Lifecycle
import BitcoinPR.Core.MerkleTree
import BitcoinPR.Mempool.Select
import BitcoinPR.Mining.OwnBlocks
import BitcoinPR.Node.AddressIndex
import BitcoinPR.Node.AssumeValid
import BitcoinPR.Node.HeaderRounds
import BitcoinPR.Node.Replay
import BitcoinPR.Node.SharedCache
import BitcoinPR.Node.SplitMonitor
import BitcoinPR.Node.Startup
import BitcoinPR.P2P.Garbage
import BitcoinPR.P2P.Taint
import BitcoinPR.Script.Agreement
import BitcoinPR.Script.Budget
import BitcoinPR.Script.Numbers
import BitcoinPR.Script.SigopCharge
import BitcoinPR.Script.SoftForks
import BitcoinPR.Script.TimeLocks
import BitcoinPR.Storage.BufferAccounts
import BitcoinPR.Storage.Concurrency
import BitcoinPR.Storage.PruneRestart
import BitcoinPR.Storage.ReadYourWrites
import BitcoinPR.Storage.UndoRecord
