import MatchingEngine.Engine.BestPrice
import MatchingEngine.Engine.Entry
import MatchingEngine.Engine.Journal
import MatchingEngine.Engine.Matching
import MatchingEngine.Engine.MemoryPool
import MatchingEngine.Engine.Order
import MatchingEngine.Engine.OrderBook
import MatchingEngine.Engine.PriceLevel
import MatchingEngine.Engine.Validation
import MatchingEngine.Ledger.Announcements
import MatchingEngine.Ledger.Holdings
import MatchingEngine.Ledger.Ledger
import MatchingEngine.Ledger.Matching
import MatchingEngine.Ledger.Mirror
import MatchingEngine.Ledger.Restore
import MatchingEngine.Ledger.Step
import MatchingEngine.Machine.Bytes
import MatchingEngine.Machine.Checked
import MatchingEngine.Machine.Coalesce
import MatchingEngine.Machine.Ensures
import MatchingEngine.Machine.Greedy
import MatchingEngine.Machine.Linked
import MatchingEngine.Machine.Ring
import MatchingEngine.Machine.Runs
import MatchingEngine.Machine.TwoLevel
import MatchingEngine.Machine.Word
import MatchingEngine.Market.Amortized
import MatchingEngine.Market.Bystanders
import MatchingEngine.Market.Capacity
import MatchingEngine.Market.Limits
import MatchingEngine.Market.Liquidity
import MatchingEngine.Market.Market
import MatchingEngine.Market.Renaming
import MatchingEngine.Market.Service
import MatchingEngine.Market.Snapshot
import MatchingEngine.Properties.Amortized
import MatchingEngine.Properties.BestEvents
import MatchingEngine.Properties.BlindSpots
import MatchingEngine.Properties.Builds
import MatchingEngine.Properties.Bulk
import MatchingEngine.Properties.Bystanders
import MatchingEngine.Properties.Canary
import MatchingEngine.Properties.Capacity
import MatchingEngine.Properties.ChainFree
import MatchingEngine.Properties.CleanReport
import MatchingEngine.Properties.Clock
import MatchingEngine.Properties.Conservation
import MatchingEngine.Properties.Differential
import MatchingEngine.Properties.Discipline
import MatchingEngine.Properties.Follower
import MatchingEngine.Properties.Fuzzing
import MatchingEngine.Properties.Getters
import MatchingEngine.Properties.Invariant
import MatchingEngine.Properties.JournalWindow
import MatchingEngine.Properties.Liquidity
import MatchingEngine.Properties.Market
import MatchingEngine.Properties.Mirror
import MatchingEngine.Properties.NextBest
import MatchingEngine.Properties.Ownership
import MatchingEngine.Properties.Priority
import MatchingEngine.Properties.Queues
import MatchingEngine.Properties.Recovery
import MatchingEngine.Properties.Reentrancy
import MatchingEngine.Properties.Refusal
import MatchingEngine.Properties.Replay
import MatchingEngine.Properties.Restoration
import MatchingEngine.Properties.Safety
import MatchingEngine.Properties.Sizes
import MatchingEngine.Properties.Snapshot
import MatchingEngine.Properties.Splitting
import MatchingEngine.Properties.Threads
import MatchingEngine.Properties.Validation
import MatchingEngine.Reference.FuzzDriver
import MatchingEngine.Reference.PlainFill
import MatchingEngine.Reference.StdOrderBook
import MatchingEngine.Verification.Book
import MatchingEngine.Verification.Cancelling
import MatchingEngine.Verification.Construction
import MatchingEngine.Verification.Determined
import MatchingEngine.Verification.Entry
import MatchingEngine.Verification.Filling
import MatchingEngine.Verification.Index
import MatchingEngine.Verification.Level
import MatchingEngine.Verification.Market
import MatchingEngine.Verification.Matching
import MatchingEngine.Verification.Observation
import MatchingEngine.Verification.Ownership
import MatchingEngine.Verification.PlainFill
import MatchingEngine.Verification.Pool
import MatchingEngine.Verification.Posting
import MatchingEngine.Verification.Queues
import MatchingEngine.Verification.Reentrancy
import MatchingEngine.Verification.Search
import MatchingEngine.Verification.Shape
import MatchingEngine.Verification.StdOrderBook
import MatchingEngine.Verification.StdTables
import MatchingEngine.Verification.Validation
import MatchingEngine.Verification.Writes
