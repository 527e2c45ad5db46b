import WorkloadReplay.Manager
import WorkloadReplay.Progress
import WorkloadReplay.Proofs.DoubleRounding
import WorkloadReplay.Replay.Simulation
import WorkloadReplay.Proofs.DoubleText
import WorkloadReplay.Proofs.TraceTimes
import WorkloadReplay.Proofs.ValueRoundTrip
import WorkloadReplay.Proofs.LineGrammar
import WorkloadReplay.Proofs.RecordRoundTrip
import WorkloadReplay.Proofs.ScanStability
import WorkloadReplay.Proofs.BufferedReading
import WorkloadReplay.Proofs.ReaderAnswers
import WorkloadReplay.Proofs.ReaderRequests
import WorkloadReplay.Proofs.TransactionGrammar
import WorkloadReplay.Proofs.SectionReading
import WorkloadReplay.Proofs.TraceMeaning
import WorkloadReplay.Proofs.CachedClock
import WorkloadReplay.Proofs.LoggedParams
import WorkloadReplay.Proofs.LogMeaning
import WorkloadReplay.Proofs.SessionGathering
import WorkloadReplay.Proofs.SessionInvariant
import WorkloadReplay.Proofs.SessionMeaning
import WorkloadReplay.Proofs.WrittenTrace
import WorkloadReplay.Proofs.FileReplacement
import WorkloadReplay.Proofs.ConvertedTrace
import WorkloadReplay.Proofs.SameTransactions
import WorkloadReplay.Proofs.SessionIndependence
import WorkloadReplay.Proofs.CrewHistory
import WorkloadReplay.Proofs.PlayedStatements
import WorkloadReplay.Proofs.QueueSharing
import WorkloadReplay.Proofs.ClockedRuns
import WorkloadReplay.Proofs.TransactionBlocks
import WorkloadReplay.Proofs.LoadedTransactions
import WorkloadReplay.Proofs.WrittenRows
import WorkloadReplay.Proofs.AtomicConversion
import WorkloadReplay.Proofs.ManagerLifeCycle
import WorkloadReplay.Proofs.StopRequests
import WorkloadReplay.Proofs.RecordLines
import WorkloadReplay.Proofs.TruncatedTraces
import WorkloadReplay.Proofs.CalendarDays
import WorkloadReplay.Proofs.WrittenTimestamps
import WorkloadReplay.Proofs.WordSplitting
import WorkloadReplay.Proofs.BoundaryWords
import WorkloadReplay.Proofs.Placeholders
import WorkloadReplay.Proofs.InternedStatements
import WorkloadReplay.Proofs.LogPrefixes
import WorkloadReplay.Proofs.ScanFaults
import WorkloadReplay.Proofs.RenderedDetails
import WorkloadReplay.Proofs.PlayingOrder
import WorkloadReplay.Proofs.RepeatedReads
import WorkloadReplay.Proofs.SummaryCounts
import WorkloadReplay.Proofs.EntryLines
import WorkloadReplay.Proofs.NumberTexts
import WorkloadReplay.Proofs.DelimiterSkipping
import WorkloadReplay.Proofs.ParamsGrammar
import WorkloadReplay.Proofs.ReencodedRecords
import WorkloadReplay.Proofs.TimestampOrder
import WorkloadReplay.Proofs.FieldEnds
import WorkloadReplay.Proofs.BlockWindow
import WorkloadReplay.Proofs.BufferGrowth
