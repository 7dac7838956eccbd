import DigBlockstore.Library.Faulty
import DigBlockstore.Library.Within
import DigBlockstore.Library.Uncut
import DigBlockstore.Library.Bytes
import DigBlockstore.Library.Columns
import DigBlockstore.Library.Lru
import DigBlockstore.Library.Trace
import DigBlockstore.Library.KeyTable
import DigBlockstore.Library.PartialMap
import DigBlockstore.Library.Segment
import DigBlockstore.Types
import DigBlockstore.CanonicalBin
import DigBlockstore.Sharded
import DigBlockstore.Store
import DigBlockstore.Compression
import DigBlockstore.Reads
import DigBlockstore.Ingest
import DigBlockstore.Reorg
import DigBlockstore.Prune
import DigBlockstore.Pipeline
import DigBlockstore.Snapshot
import DigBlockstore.Open
import DigBlockstore.Calls
import DigBlockstore.Slots
import DigBlockstore.Tier
import DigBlockstore.Lookup
import DigBlockstore.ReadEffects
import DigBlockstore.WriteEffects
import DigBlockstore.Indexed
import DigBlockstore.IngestEffects
import DigBlockstore.IngestShift
import DigBlockstore.RollbackEffects
import DigBlockstore.ReorgEffects
import DigBlockstore.PruneEffects
import DigBlockstore.PipelineEffects
import DigBlockstore.OpenEffects
import DigBlockstore.CallEffects
import DigBlockstore.Coherence
import DigBlockstore.Filed
import DigBlockstore.FiledCalls
import DigBlockstore.Sample
import DigBlockstore.Lookups
import DigBlockstore.Linked
import DigBlockstore.LinkedSteps
import DigBlockstore.Checkpoints
import DigBlockstore.PipelineAcks
import DigBlockstore.PipelineWorker
import DigBlockstore.ImportEffects
import DigBlockstore.Imports
import DigBlockstore.RowFrames
import DigBlockstore.RowRuns
import DigBlockstore.Dictionary
import DigBlockstore.Library.Upholds
import DigBlockstore.Presence
import DigBlockstore.PresenceRuns
import DigBlockstore.BatchReads
import DigBlockstore.Seats
import DigBlockstore.Answers
import DigBlockstore.Epochs
import DigBlockstore.Ancestors
import DigBlockstore.Previews
import DigBlockstore.Streams
import DigBlockstore.BatchSwitch
import DigBlockstore.Library.Interleave
import DigBlockstore.Steps
import DigBlockstore.StepRules
import DigBlockstore.LinkedRuns
import DigBlockstore.WellFormed
import DigBlockstore.Switches
import DigBlockstore.Recovery
import DigBlockstore.Resizes
import DigBlockstore.Offsets
import DigBlockstore.Ranges
import DigBlockstore.Exports
import DigBlockstore.Manifests
import DigBlockstore.RoundTrips
import DigBlockstore.Races
import DigBlockstore.ReorgMoments
import DigBlockstore.Retained
import DigBlockstore.RetainedRuns
import DigBlockstore.KeyOrder
import DigBlockstore.Shards
import DigBlockstore.DenseArray
import DigBlockstore.Library.Greatest
import DigBlockstore.HeightBounds
import DigBlockstore.PruneSteps
import DigBlockstore.Compactions
import DigBlockstore.Training
import DigBlockstore.DictionarySwitch
import DigBlockstore.CompactedReads
import DigBlockstore.PruneClears
import DigBlockstore.FlushSteps
import DigBlockstore.Novelty
import DigBlockstore.Rollbacks
import DigBlockstore.Trees
import DigBlockstore.Crashes
import DigBlockstore.Stats
import DigBlockstore.Heads
import DigBlockstore.Retries
import DigBlockstore.Batches
import DigBlockstore.Carried
