import HftLatencyLab.AxiStream
import HftLatencyLab.ByteOrder
import HftLatencyLab.MealyRun
import HftLatencyLab.BoundedFifo
import HftLatencyLab.CounterLoop
import HftLatencyLab.StreamPump
import HftLatencyLab.BestKey
import HftLatencyLab.KeyedFold
import HftLatencyLab.ProbeStream
import HftLatencyLab.LatencyTimer
import HftLatencyLab.FixedWidth
import HftLatencyLab.LobWire
import HftLatencyLab.FeatureParser
import HftLatencyLab.LobPacket
import HftLatencyLab.FeatureBook
import HftLatencyLab.FeatureMath
import HftLatencyLab.FeaturePipeline
import HftLatencyLab.TopOfBook
import HftLatencyLab.FeatureReset
import HftLatencyLab.RestingPrice
import HftLatencyLab.FeatureBeat
import HftLatencyLab.ServerHeader
import HftLatencyLab.PythonBook
import HftLatencyLab.FeatureFeed
import HftLatencyLab.ExactBook
import HftLatencyLab.FeaturesRef
import HftLatencyLab.PacketValidator
import HftLatencyLab.ServerFallback
import HftLatencyLab.WeightLoad
import HftLatencyLab.MlpLayers
import HftLatencyLab.FeatureReply
import HftLatencyLab.TimingTrailer
import HftLatencyLab.ScorePath
import HftLatencyLab.ServerReply
import HftLatencyLab.CDriverServer
import HftLatencyLab.SimpleBook
import HftLatencyLab.SimpleBookLevels
import HftLatencyLab.ReplayRunner
import HftLatencyLab.PartialFold
import HftLatencyLab.EntryDict
import HftLatencyLab.ReplayLoop
import HftLatencyLab.PacketDump
import HftLatencyLab.FeatureDump
import HftLatencyLab.LobsterLoader
import HftLatencyLab.TwoLanes
import HftLatencyLab.LobsterEncoders
import HftLatencyLab.LobsterSnapshot
import HftLatencyLab.ProbeChain
import HftLatencyLab.Rounding
import HftLatencyLab.Fxp
import HftLatencyLab.Quantise
import HftLatencyLab.NormFold
import HftLatencyLab.DueQueue
import HftLatencyLab.BuildLabels
import HftLatencyLab.LabelJoin
import HftLatencyLab.BookSaturation
import HftLatencyLab.Relaxation
import HftLatencyLab.DecayOvershoot
import HftLatencyLab.PumpTurns
import HftLatencyLab.BurstBound
import HftLatencyLab.ImbalanceBound
import HftLatencyLab.BookView
import HftLatencyLab.ThreeBooks
import HftLatencyLab.StaleScore
import HftLatencyLab.QuadraticLabels
import HftLatencyLab.DotError
import HftLatencyLab.LinearInt8
import HftLatencyLab.BiasScale
import HftLatencyLab.LoaderSync
import HftLatencyLab.LoaderStream
import HftLatencyLab.QueueStages
import HftLatencyLab.ServerThreads
import HftLatencyLab.MlpInfer
import HftLatencyLab.SocRunner
import HftLatencyLab.ReplayedReflex
import HftLatencyLab.TwoLaneRunner
import HftLatencyLab.PingMode
import HftLatencyLab.LobStream
import HftLatencyLab.TraceCompare
import HftLatencyLab.ModelUsefulness
import HftLatencyLab.MlpParity
import HftLatencyLab.EchoIo
import HftLatencyLab.DiagTimer
import HftLatencyLab.TextPattern
import HftLatencyLab.SocLogs
import HftLatencyLab.SocSummaries
import HftLatencyLab.ScoreCapture
import HftLatencyLab.LatencyLog
import HftLatencyLab.TrainingSplits
