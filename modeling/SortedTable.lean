import SortedTable.Main
import SortedTable.Proofs.Codec.Numbers
import SortedTable.Proofs.Codec.Records
import SortedTable.Proofs.Codec.Columns
import SortedTable.Proofs.Codec.Filters
import SortedTable.Proofs.Codec.Histograms
import SortedTable.Proofs.Bisecting
import SortedTable.Proofs.Counting
import SortedTable.Proofs.Bracketing
import SortedTable.Proofs.Membership
import SortedTable.Proofs.Disk.Running
import SortedTable.Proofs.Disk.Trees
import SortedTable.Proofs.Disk.Walks
import SortedTable.Proofs.Naming
import SortedTable.Proofs.Disk.Outputs
import SortedTable.Proofs.Rows
import SortedTable.Proofs.Tails
import SortedTable.Proofs.Stacking
import SortedTable.Proofs.Appending
import SortedTable.Proofs.Segments
import SortedTable.Proofs.Files
import SortedTable.Proofs.Parsing
import SortedTable.Proofs.Listing
import SortedTable.Proofs.Publishing
import SortedTable.Proofs.Fidelity
import SortedTable.Proofs.Opening
import SortedTable.Proofs.Rebuilding
import SortedTable.Proofs.Recovering
import SortedTable.Proofs.Crashes
import SortedTable.Proofs.Losses
import SortedTable.Proofs.TornRows
import SortedTable.Proofs.Reopening
import SortedTable.Proofs.Shelves
import SortedTable.Proofs.Honesty
import SortedTable.Proofs.Lives
import SortedTable.Proofs.Puts
import SortedTable.Proofs.Sites
import SortedTable.Proofs.Keeping
import SortedTable.Proofs.RecoveredScans
import SortedTable.Proofs.Ledgers
import SortedTable.Proofs.Restoring
import SortedTable.Proofs.Sessions
import SortedTable.Proofs.Passing
import SortedTable.Proofs.Moving
import SortedTable.Proofs.Anchors
import SortedTable.Proofs.Footprints
import SortedTable.Proofs.Preparing
import SortedTable.Proofs.CommitPoint
import SortedTable.Proofs.FailedRecoveries
import SortedTable.Proofs.FailedAppends
import SortedTable.Proofs.Generations
import SortedTable.Proofs.Directories
import SortedTable.Proofs.Ahead
import SortedTable.Proofs.Tenures
import SortedTable.Proofs.Rejections
import SortedTable.Proofs.Variants
import SortedTable.Proofs.Shadowing
import SortedTable.Proofs.Zones
import SortedTable.Proofs.Mirrors
import SortedTable.Proofs.Tandem
import SortedTable.Proofs.Lockstep
import SortedTable.Proofs.Interleaving
import SortedTable.Proofs.Sampling
import SortedTable.Proofs.Gathering
import SortedTable.Proofs.Lookups
import SortedTable.Proofs.RebuiltFiles
import SortedTable.Proofs.Repeating
import SortedTable.Proofs.Segmenting
import SortedTable.Proofs.SegmentReads
import SortedTable.Proofs.Framing
import SortedTable.Proofs.Grammar
import SortedTable.Proofs.Calling
import SortedTable.Proofs.Straying
import SortedTable.Proofs.Codec.Listings
import SortedTable.Proofs.Reconciling
import SortedTable.Proofs.Flushing
import SortedTable.Proofs.Spelling
import SortedTable.Proofs.Estimating
import SortedTable.Proofs.Rewinding
import SortedTable.Proofs.Codec.Indexes
import SortedTable.Proofs.Ordering
