import MessageDocs.Main
import MessageDocs.Message.Schema
import MessageDocs.Proofs.Association
import MessageDocs.Proofs.Association.Ties
import MessageDocs.Proofs.Draft
import MessageDocs.Proofs.Schema.Reading
import MessageDocs.Proofs.Schema.Conservation
import MessageDocs.Proofs.Schema.Accounting
import MessageDocs.Proofs.Text.Split
import MessageDocs.Proofs.Text.Words
import MessageDocs.Proofs.Declaration
import MessageDocs.Proofs.Metadata
import MessageDocs.Proofs.Header
import MessageDocs.Proofs.Schema.RoundTrip
import MessageDocs.Proofs.Disk
import MessageDocs.Proofs.Batch
import MessageDocs.Proofs.Command.Build
import MessageDocs.Proofs.Schema.FirstError
import MessageDocs.Proofs.Discovery.Overlap
import MessageDocs.Proofs.Discovery.Sources
import MessageDocs.Proofs.Schema.Remarks
import MessageDocs.Proofs.Batch.LooseConstants
import MessageDocs.Proofs.Page.Links
import MessageDocs.Proofs.Command.Init
import MessageDocs.Proofs.Schema.Reordering
import MessageDocs.Proofs.Draft.Keyed
import MessageDocs.Proofs.Discovery.AllSources
import MessageDocs.Proofs.Discovery.Excluded
import MessageDocs.Proofs.Schema.Collecting
import MessageDocs.Proofs.Schema.References
import MessageDocs.Proofs.Discovery.Opening
import MessageDocs.Proofs.Command.Rebuild
import MessageDocs.Proofs.Metadata.Grammar
import MessageDocs.Proofs.Metadata.Slices
import MessageDocs.Proofs.Page.Rows
import MessageDocs.Proofs.Schema.Matching
import MessageDocs.Proofs.Schema.Spacing
import MessageDocs.Proofs.Schema.Descriptions
import MessageDocs.Proofs.Discovery.Nearest
import MessageDocs.Proofs.Page.Index
import MessageDocs.Proofs.Page.Fence
import MessageDocs.Proofs.Manifest.Directories
import MessageDocs.Proofs.Discovery.Exact
import MessageDocs.Proofs.Command.Covering
import MessageDocs.Proofs.Command.Inspect
