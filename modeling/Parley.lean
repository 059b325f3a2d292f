import Parley.Artifact.Indexed
import Parley.Batch.Pool
import Parley.CommandLine
import Parley.Main
import Parley.Script.Printer
import Parley.Proofs.Calendar
import Parley.Proofs.Encoding
import Parley.Proofs.StampTables
import Parley.Proofs.Names
import Parley.Proofs.Walks
import Parley.Proofs.Writes
import Parley.Proofs.Compilations
import Parley.Proofs.Planning
import Parley.Proofs.Persistence
import Parley.Proofs.Blocks
import Parley.Proofs.Errors
import Parley.Proofs.History
import Parley.Proofs.NextRun
import Parley.Proofs.Vocabulary
import Parley.Proofs.Unambiguity
import Parley.Proofs.Artifacts
import Parley.Proofs.Printing
import Parley.Proofs.RoundTrips
import Parley.Proofs.CanonicalScripts
import Parley.Proofs.StoredTables
import Parley.Proofs.TableOrder
import Parley.Proofs.Retries
import Parley.Proofs.Schedules
import Parley.Proofs.Frames
import Parley.Proofs.Independence
import Parley.Proofs.Pools
import Parley.Proofs.Layout
import Parley.Proofs.Concatenation
import Parley.Proofs.Comments
import Parley.Proofs.Parentheses
import Parley.Proofs.Partitions
import Parley.Proofs.Snapshots
import Parley.Proofs.Spellings
import Parley.Proofs.Records
import Parley.Proofs.ForeignTables
import Parley.Proofs.AdvisoryTables
import Parley.Proofs.Buffers
import Parley.Proofs.Indexes
import Parley.Proofs.CleanDialogues
import Parley.Proofs.SingleFiles
