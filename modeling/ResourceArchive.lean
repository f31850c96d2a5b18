import ResourceArchive.Bytes
import ResourceArchive.Content
import ResourceArchive.Text
import ResourceArchive.Text.Hidden
import ResourceArchive.Text.Quoted
import ResourceArchive.Error
import ResourceArchive.Hash
import ResourceArchive.Varint
import ResourceArchive.Record
import ResourceArchive.Name
import ResourceArchive.Pool
import ResourceArchive.Location
import ResourceArchive.Header
import ResourceArchive.Index.Words
import ResourceArchive.Index.Tables
import ResourceArchive.Index.Assignment
import ResourceArchive.Binary64
import ResourceArchive.Decimal
import ResourceArchive.Options
import ResourceArchive.Draft
import ResourceArchive.Archive
import ResourceArchive.Path
import ResourceArchive.Extraction
import ResourceArchive.FileSystem.Node
import ResourceArchive.FileSystem.Basic
import ResourceArchive.FileSystem.Change
import ResourceArchive.FileSystem.Access
import ResourceArchive.Registry
import ResourceArchive.Command.Arguments
import ResourceArchive.Command.Outcome
import ResourceArchive.Command.Run
import ResourceArchive.Main
import ResourceArchive.Proofs.Text
import ResourceArchive.Proofs.Name
import ResourceArchive.Proofs.Parts
import ResourceArchive.Proofs.Varint
import ResourceArchive.Proofs.Shifts
import ResourceArchive.Proofs.Record
import ResourceArchive.Proofs.Delimited
import ResourceArchive.Proofs.Header
import ResourceArchive.Proofs.Pool
import ResourceArchive.Proofs.Interning
import ResourceArchive.Proofs.Hash
import ResourceArchive.Proofs.Index.Buckets
import ResourceArchive.Proofs.Index.Placement
import ResourceArchive.Proofs.Index.Lookup
import ResourceArchive.Proofs.Index.Seeding
import ResourceArchive.Proofs.Index.Greedy
import ResourceArchive.Proofs.Index.Invariance
import ResourceArchive.Proofs.Draft
import ResourceArchive.Proofs.Layout
import ResourceArchive.Proofs.Find
import ResourceArchive.Proofs.Packed
import ResourceArchive.Proofs.RoundTrip
import ResourceArchive.Proofs.Refusals
import ResourceArchive.Proofs.Slices
import ResourceArchive.Proofs.Bounds
import ResourceArchive.Proofs.Regions
import ResourceArchive.Proofs.Listing
import ResourceArchive.Proofs.Verification
import ResourceArchive.Proofs.Modules
import ResourceArchive.Proofs.Truncation
import ResourceArchive.Proofs.FileBacked
import ResourceArchive.Proofs.Accepted
import ResourceArchive.Proofs.Options
import ResourceArchive.Proofs.Destination
import ResourceArchive.Proofs.Tiling
import ResourceArchive.Proofs.Path
import ResourceArchive.Proofs.Ancestors
import ResourceArchive.Proofs.Walking
import ResourceArchive.Proofs.Descent
import ResourceArchive.Proofs.Making
import ResourceArchive.Proofs.Conflicts
import ResourceArchive.Proofs.Confinement
import ResourceArchive.Proofs.Files
import ResourceArchive.Proofs.Naming
import ResourceArchive.Proofs.Extraction
import ResourceArchive.Proofs.NewDestinations
import ResourceArchive.Proofs.AllOrNothing
import ResourceArchive.Proofs.Sharing
import ResourceArchive.Proofs.Pairing
import ResourceArchive.Proofs.Runs
import ResourceArchive.Proofs.Trees
import ResourceArchive.Proofs.Failures
import ResourceArchive.Proofs.Packing
import ResourceArchive.Proofs.Overwriting
import ResourceArchive.Proofs.Copies
