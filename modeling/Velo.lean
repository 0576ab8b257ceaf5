import Velo.Book.Simulation
import Velo.Book.Matching
import Velo.Book.Representation
import Velo.Book.Timestamps
import Velo.Book.Refinement
import Velo.Book.Invariant
import Velo.Book.Uncrossed
import Velo.Book.Conservation
import Velo.Lib.Bytes
import Velo.Lib.Framing
import Velo.Lib.Machine
import Velo.Wire.Protocol
import Velo.Book.Residence
import Velo.Server.Routing
import Velo.Server.Session
import Velo.Server.Ownership
import Velo.Server.Acknowledgement
import Velo.Server.FanOut
import Velo.Server.Confinement
import Velo.Server.Reading
import Velo.Server.Segmentation
import Velo.Server.Sockets
import Velo.Risk.Engine
import Velo.Risk.Flattening
import Velo.Lib.Socket
import Velo.Risk.Protocol
import Velo.Lib.Struct
import Velo.Strategy.Protocol
import Velo.Wire.Agreement
import Velo.Fix.Agreement
import Velo.Fix.Builder
import Velo.Fix.Completeness
import Velo.Fix.Corruption
import Velo.Book.Remainder
import Velo.Server.Holding
import Velo.Strategy.Backtest
import Velo.Strategy.Resting
import Velo.Risk.PricingBatch
import Velo.Risk.Breach
import Velo.Risk.MachineTracker
import Velo.Strategy.BacktestReport
import Velo.Book.Traceless
import Velo.Book.Mirror
import Velo.Book.Snapshot
import Velo.Book.Cancellation
import Velo.Wire.Decoders
import Velo.Book.MarketOrders
import Velo.Book.Requote
import Velo.Risk.Splitting
import Velo.Risk.Episode
import Velo.Risk.NormCdf
import Velo.Risk.Greeks
import Velo.Strategy.Report
import Velo.Strategy.HistoricalFeed
import Velo.Strategy.Repricing
import Velo.Wire.Codecs
import Velo.Strategy.PricingClient
import Velo.Strategy.Drawdown
import Velo.Book.Execution
import Velo.Book.Relabel
import Velo.Strategy.SyntheticFeed
import Velo.Risk.Settled
import Velo.Strategy.EventQueue
import Velo.Risk.MainLoop
import Velo.Strategy.OptionBook
import Velo.Strategy.HedgeReport
import Velo.Strategy.HedgePosition
import Velo.Strategy.LoggedSession
import Velo.Server.Ledger
import Velo.Book.Commute
import Velo.Lib.Potential
import Velo.Risk.DeltaMonotone
import Velo.Server.Race
import Velo.Server.Traffic
import Velo.Strategy.HedgeGains
import Velo.Lib.Binary64
import Velo.Strategy.FloatReport
