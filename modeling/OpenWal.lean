import OpenWal.Library.ByteSeq
import OpenWal.Library.Castagnoli
import OpenWal.Library.CrashProg
import OpenWal.Library.CheckedRuns
import OpenWal.Library.Posix
import OpenWal.Library.PowerCut
import OpenWal.Library.FailingCalls
import OpenWal.Library.Simulation
import OpenWal.Model.Types
import OpenWal.Model.Record
import OpenWal.Model.Segment
import OpenWal.Model.Recovery
import OpenWal.Model.Reader
import OpenWal.Model.Wal
import OpenWal.Model.System
import OpenWal.Model.Checked
import OpenWal.Model.CheckedWal
import OpenWal.Model.Differential
import OpenWal.Model.Oracle
import OpenWal.Model.Processes
import OpenWal.Model.Contention
import OpenWal.Model.PowerPull
import OpenWal.Theory.Frames
import OpenWal.Theory.Scan
import OpenWal.Theory.Runs
import OpenWal.Theory.SegmentRecovery
import OpenWal.Theory.Reading
import OpenWal.Theory.Names
import OpenWal.Theory.Headers
import OpenWal.Theory.CalmCalls
import OpenWal.Theory.Directory
import OpenWal.Theory.Opening
import OpenWal.Theory.OpenedLog
import OpenWal.Theory.Verdicts
import OpenWal.Theory.Damage
import OpenWal.Theory.Interrupted
import OpenWal.Theory.FailingOpen
import OpenWal.Theory.Replay
import OpenWal.Theory.Recovered
import OpenWal.Theory.Packing
import OpenWal.Theory.Written
import OpenWal.Theory.Commit
import OpenWal.Theory.Calls
import OpenWal.Theory.Carried
import OpenWal.Theory.FailingCommit
import OpenWal.Theory.CrashPoints
import OpenWal.Theory.FailingCalls
import OpenWal.Spec.LogModel
import OpenWal.Theory.CalmRuns
import OpenWal.Theory.FailingRuns
import OpenWal.Theory.KeptCalls
import OpenWal.Theory.Coverage
import OpenWal.Theory.Adopted
import OpenWal.Theory.Reopen
import OpenWal.Theory.Growth
import OpenWal.Results.Refinement
import OpenWal.Results.ReplayAgreement
import OpenWal.Results.HandleInvariant
import OpenWal.Results.Resurrection
import OpenWal.Results.SealedSegments
import OpenWal.Results.Discarding
import OpenWal.Results.Idempotence
import OpenWal.Results.Restart
import OpenWal.Results.FatalVerdicts
import OpenWal.Results.DamagedRecords
import OpenWal.Results.TornRecord
import OpenWal.Results.FailureDiscipline
import OpenWal.Results.DurableNames
import OpenWal.Results.Immutability
import OpenWal.Results.SealedSynced
import OpenWal.Results.HonestWatermark
import OpenWal.Results.AlteredByte
import OpenWal.Results.SegmentNames
import OpenWal.Results.Encodings
import OpenWal.Results.BurstErrors
import OpenWal.Results.Classification
import OpenWal.Results.DenseReader
import OpenWal.Results.Checkpointing
import OpenWal.Results.GreedyCommit
import OpenWal.Results.CommitGrouping
import OpenWal.Theory.CrashStates
import OpenWal.Theory.CutWrites
import OpenWal.Theory.CutBatches
import OpenWal.Theory.CutNames
import OpenWal.Theory.Resting
import OpenWal.Theory.Firm
import OpenWal.Results.InterruptedCreation
import OpenWal.Results.LostUnlinks
import OpenWal.Results.ProcessDeath
import OpenWal.Results.CrashRuns
import OpenWal.Results.PowerCuts
import OpenWal.Results.PowerPull
import OpenWal.Results.Provenance
import OpenWal.Results.TornBatch
import OpenWal.Theory.CheckedScan
import OpenWal.Results.ScannedRecords
import OpenWal.Theory.CheckedRecovery
import OpenWal.Theory.CheckedReading
import OpenWal.Results.Totality
import OpenWal.Results.Differential
import OpenWal.Results.OracleHarness
import OpenWal.Results.SingleWriter
import OpenWal.Results.Contention
import OpenWal.Model.CrashMatrix
import OpenWal.Results.Allocation
import OpenWal.Results.CrashMatrix
