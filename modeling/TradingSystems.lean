import TradingSystems.Library.Runs
import TradingSystems.Library.StableInsert
import TradingSystems.Phase1.IndexRange
import TradingSystems.Phase1.InPlace
import TradingSystems.Phase2.Delivery
import TradingSystems.Phase2.HitProtocol
import TradingSystems.Phase2.JunkOrders
import TradingSystems.Phase2.HonestClients
import TradingSystems.Phase4.OrderBook
import TradingSystems.Phase4.Priority
import TradingSystems.Phase4.Symbols
import TradingSystems.Phase4.TickLoop
import TradingSystems.Phase4.Settlement
import TradingSystems.Phase4.Termination
import TradingSystems.Phase4.OrderLifecycle
import TradingSystems.Phase4.AddRemove
import TradingSystems.Phase4.PoolRuns
import TradingSystems.Phase4.SharedIds
import TradingSystems.Phase4.TradeLogger
import TradingSystems.Phase4.Sweep
import TradingSystems.Phase4.Printing
import TradingSystems.Phase4.AddsOnly
import TradingSystems.Phase4.IncomingOrder
import TradingSystems.Phase4.LatencyReport
import TradingSystems.Phase3.OutputLog
import TradingSystems.Phase3.RealLevels
import TradingSystems.Phase5.OrderBook
import TradingSystems.Phase5.StressTests
import TradingSystems.Phase5.PriceLevels
import TradingSystems.Session7.ConcurrentQueue
import TradingSystems.Session7.SingleProducer
import TradingSystems.Session7.Shutdown
import TradingSystems.Session7.WholeCalls
import TradingSystems.Session7.BooksBalance
import TradingSystems.Session7.Permits
import TradingSystems.Session7.Completion
import TradingSystems.Session7.OrderFlow
import TradingSystems.Session7.Analytics
import TradingSystems.Session7.BenchmarkCompletion
import TradingSystems.Session7.Linearizable
import TradingSystems.Session7.MemoryOrders
import TradingSystems.Session7.Synchronisation
import TradingSystems.Session7.Interleavings
import TradingSystems.FinalProject.Winner
import TradingSystems.FinalProject.Malformed
import TradingSystems.FinalProject.Codec
import TradingSystems.FinalProject.LineFraming
import TradingSystems.FinalProject.ParseDouble
import TradingSystems.FinalProject.Fragments
import TradingSystems.FinalProject.Buffer
import TradingSystems.FinalProject.TradeInterface
import TradingSystems.FinalProject.TradeEngine
import TradingSystems.FinalProject.Contest
import TradingSystems.Phase1.RoundedKernels
import TradingSystems.Phase1.RoundedProducts
import TradingSystems.Phase1.Rounding
