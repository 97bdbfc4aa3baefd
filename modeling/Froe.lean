import Froe.Compaction.WalkOutcome
import Froe.Writer.SegmentInverse
import Froe.Writer.RoundTrips
import Froe.Reclaim.ParallelCertification
import Froe.Journal.GcJournalReads
import Froe.Tar.MachineTrailers
import Froe.Tooling.Subtree
import Froe.Lucene.FstBuild
import Froe.Reclaim.SweepOpen
import Froe.Reclaim.HeadSafety
import Froe.Tar.WriteFailures
import Froe.Index.DefinitionsRoundTrip
import Froe.Tooling.DigestWalks
import Froe.Tooling.DiffExact
import Froe.Lucene.SegmentFiles
import Froe.Store.Manifest
import Froe.Content.BinaryStreams
import Froe.ExternalSort.Faults
import Froe.Journal.Replacement
import Froe.Store.Installation
import Froe.Lucene.Postings
import Froe.Analysis.Numeric
import Froe.Index.PathFilter
import Froe.Analysis.WordDelimiter
import Froe.Lucene.SpillRecords
import Froe.Lucene.StoredFields
import Froe.Content.TraversalLimits
import Froe.Lucene.NamePatternExact
import Froe.Store.Cache
import Froe.Compaction.PackedRecords
import Froe.Java.Iso8601
import Froe.Store.RepositoryLock
