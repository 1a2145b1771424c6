import OptionsEngine.Framework.Loop
import OptionsEngine.Framework.LinkedQueue
import OptionsEngine.Framework.LiveArray
import OptionsEngine.Framework.ProbeTable
import OptionsEngine.OrderBook
import OptionsEngine.LevelBook
import OptionsEngine.OrderBook.Index
import OptionsEngine.OrderBook.FiniteMap
import OptionsEngine.OrderBook.Represents
import OptionsEngine.OrderBook.Updates
import OptionsEngine.OrderBook.Operations
import OptionsEngine.LevelBook.Invariant
import OptionsEngine.OrderBook.Matching
import OptionsEngine.OrderBook.Refinement
import OptionsEngine.OrderBook.Termination
import OptionsEngine.Framework.Simd
import OptionsEngine.OrderBook.VectorSearch
import OptionsEngine.OrderBook.Observe
import OptionsEngine.OrderBook.Depth
import OptionsEngine.OrderBook.Resting
import OptionsEngine.OrderBook.Capacity
import OptionsEngine.LevelBook.Thinned
import OptionsEngine.OrderBook.Uncrossed
import OptionsEngine.OrderBook.Callback
import OptionsEngine.OrderBook.BestQuote
import OptionsEngine.LevelBook.Liquidity
import OptionsEngine.OrderBook.Conservation
import OptionsEngine.OrderBook.FillOrKill
import OptionsEngine.OrderBook.Priority
import OptionsEngine.OrderBook.SelfTrade
import OptionsEngine.OrderBook.ReportStream
import OptionsEngine.LevelBook.Exact
import OptionsEngine.OrderBook.Cancel
import OptionsEngine.LevelBook.Inverse
import OptionsEngine.OrderBook.Undo
import OptionsEngine.LevelBook.Determined
import OptionsEngine.LevelBook.Relabel
import OptionsEngine.OrderBook.Symmetry
import OptionsEngine.LevelBook.Slicing
import OptionsEngine.OrderBook.Slicing
import OptionsEngine.RefBook
import OptionsEngine.RefBook.Simulation
import OptionsEngine.RefBook.Equivalence
import OptionsEngine.RefBook.Driver
import OptionsEngine.RefBook.DriverPasses
import OptionsEngine.Framework.Ring
import OptionsEngine.SpscQueue
import OptionsEngine.SpscQueue.Interleaving
import OptionsEngine.SpscQueue.Linear
import OptionsEngine.SpscQueue.Worker
import OptionsEngine.MpmcQueue
import OptionsEngine.MpmcQueue.Protocol
import OptionsEngine.MpmcQueue.Delivery
import OptionsEngine.MpmcQueue.Emptiness
import OptionsEngine.MpmcQueue.Fullness
import OptionsEngine.MpmcQueue.StressTest
import OptionsEngine.MpmcQueue.Progress
import OptionsEngine.Framework.Span
import OptionsEngine.Framework.Keyed
import OptionsEngine.MarketData
import OptionsEngine.MarketData.Bounds
import OptionsEngine.MarketData.Exits
import OptionsEngine.MarketData.Ledger
import OptionsEngine.MarketData.Corpus
import OptionsEngine.MatchingEngine
import OptionsEngine.MatchingEngine.Isolation
import OptionsEngine.MatchingEngine.SyntheticIds
import OptionsEngine.MatchingEngine.Session
import OptionsEngine.MatchingEngine.Reports
import OptionsEngine.MatchingEngine.Shutdown
import OptionsEngine.MatchingEngine.Pipeline
import OptionsEngine.MatchingEngine.Reference
import OptionsEngine.MultiSymbolEngine
import OptionsEngine.MultiSymbolEngine.Routing
import OptionsEngine.MultiSymbolEngine.Threads
import OptionsEngine.ExecutionLayer
import OptionsEngine.ExecutionLayer.Positions
import OptionsEngine.LatencyHistogram
import OptionsEngine.LatencyHistogram.Buckets
import OptionsEngine.Framework.Rank
import OptionsEngine.LatencyHistogram.Percentile
import OptionsEngine.LatencyHistogram.Concurrent
import OptionsEngine.LatencyHistogram.Snapshots
import OptionsEngine.PoolAllocator
import OptionsEngine.PoolAllocator.FreeList
import OptionsEngine.ExecutionLayer.Overflow
import OptionsEngine.ExecutionLayer.Thread
import OptionsEngine.Logger
import OptionsEngine.Framework.File
import OptionsEngine.Replay
import OptionsEngine.Replay.Reading
import OptionsEngine.Replay.RoundTrip
import OptionsEngine.Replay.Pacing
import OptionsEngine.Replay.Live
import OptionsEngine.ReplayTrace
import OptionsEngine.ReplayTrace.Determinism
