import VersionedTables.Binary64
import VersionedTables.Binary64.Layout
import VersionedTables.Binary64.Reading
import VersionedTables.Binary64.Shortest
import VersionedTables.Command
import VersionedTables.Database
import VersionedTables.Diff
import VersionedTables.Disk
import VersionedTables.Document
import VersionedTables.Document.Fingerprint
import VersionedTables.Document.Literal
import VersionedTables.Document.Printer
import VersionedTables.Document.Raw
import VersionedTables.Document.Reader
import VersionedTables.Edit
import VersionedTables.Edit.Branches
import VersionedTables.Edit.Garbage
import VersionedTables.Edit.Rows
import VersionedTables.Edit.Sharing
import VersionedTables.Edit.Tables
import VersionedTables.Fault
import VersionedTables.History
import VersionedTables.Id
import VersionedTables.Instant
import VersionedTables.Instant.Text
import VersionedTables.Links
import VersionedTables.Name
import VersionedTables.Record
import VersionedTables.Sha256
import VersionedTables.Snapshot.Reader
import VersionedTables.Snapshot.Writer
import VersionedTables.Sorting
import VersionedTables.Store
import VersionedTables.Store.Integrity
import VersionedTables.Supply
import VersionedTables.Transaction
import VersionedTables.View
import VersionedTables.Proofs.Identifiers
import VersionedTables.Proofs.Links
import VersionedTables.Proofs.Store
import VersionedTables.Proofs.Transaction
import VersionedTables.Proofs.Writes
import VersionedTables.Proofs.Material
import VersionedTables.Proofs.Edit
import VersionedTables.Proofs.Commands
import VersionedTables.Proofs.Built
import VersionedTables.Proofs.Rollback
import VersionedTables.Proofs.Graph
import VersionedTables.Proofs.Changes.Rows
import VersionedTables.Proofs.Changes.Branches
import VersionedTables.Proofs.DeepCopy
import VersionedTables.Proofs.Views
import VersionedTables.Proofs.Outlines
import VersionedTables.Proofs.Maps
import VersionedTables.Proofs.Differences
import VersionedTables.Proofs.Edit.Sharing
import VersionedTables.Proofs.Edit.Drafts
import VersionedTables.Proofs.Edit.Garbage
import VersionedTables.Proofs.Edit.Tables
import VersionedTables.Proofs.Edit.Requests
import VersionedTables.Proofs.Edit.Admission
import VersionedTables.Proofs.Edit.Vetting
import VersionedTables.Proofs.Edit.Rows
import VersionedTables.Proofs.Edit.Renames
import VersionedTables.Proofs.Edit.Branches
import VersionedTables.Proofs.Effects
import VersionedTables.Proofs.Runs
import VersionedTables.Proofs.Attempts
import VersionedTables.Proofs.Refusals
import VersionedTables.Proofs.Leaks
import VersionedTables.Proofs.Sweeping
import VersionedTables.Proofs.Ownership
import VersionedTables.Proofs.Naming
import VersionedTables.Proofs.Ancestry
import VersionedTables.Proofs.Isolation
import VersionedTables.Proofs.Refinement
import VersionedTables.Proofs.Marks
import VersionedTables.Proofs.Lifecycle
import VersionedTables.Proofs.Housing
import VersionedTables.Proofs.Document.Literals
import VersionedTables.Proofs.Document.Reading
import VersionedTables.Proofs.Document.Storing
import VersionedTables.Proofs.Instant.Calendar
import VersionedTables.Proofs.Instant.Text
import VersionedTables.Proofs.Snapshot.Reading
import VersionedTables.Proofs.Snapshot.RoundTrip
import VersionedTables.Proofs.Snapshot.Restoring
import VersionedTables.Proofs.Mirror
import VersionedTables.Proofs.Snapshot.Acceptance
import VersionedTables.Proofs.Twins
import VersionedTables.Proofs.Edit.Overlooking
import VersionedTables.Proofs.Sight
import VersionedTables.Proofs.Collections
import VersionedTables.Proofs.Snapshot.Loading
import VersionedTables.Proofs.Undoing
import VersionedTables.Proofs.Snapshot.Reopening
import VersionedTables.Proofs.Patches
import VersionedTables.Proofs.Document.Canonical
import VersionedTables.Proofs.Document.Encoding
import VersionedTables.Proofs.Edit.Exchanges
import VersionedTables.Proofs.Batches
import VersionedTables.Proofs.Deletions
import VersionedTables.Proofs.Histories
import VersionedTables.Proofs.Binary64.Intervals
import VersionedTables.Proofs.Binary64.Shortest
import VersionedTables.Proofs.Document.Numbers
import VersionedTables.Proofs.Renaming
import VersionedTables.Proofs.CopyOnWrite
