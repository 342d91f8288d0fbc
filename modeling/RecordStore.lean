import RecordStore.Catalog
import RecordStore.Proofs.Agreement
import RecordStore.Proofs.AliasOptions
import RecordStore.Proofs.Atomicity
import RecordStore.Proofs.Blocks
import RecordStore.Proofs.Committed
import RecordStore.Proofs.Comparing
import RecordStore.Proofs.Conflicts
import RecordStore.Proofs.Constraints
import RecordStore.Proofs.DateFormats
import RecordStore.Proofs.DeclarationOrder
import RecordStore.Proofs.Defaults
import RecordStore.Proofs.FilterKeys
import RecordStore.Proofs.Flattening
import RecordStore.Proofs.Freshness
import RecordStore.Proofs.Generated
import RecordStore.Proofs.Hidden
import RecordStore.Proofs.KeyField
import RecordStore.Proofs.KeyLists
import RecordStore.Proofs.Lengths
import RecordStore.Proofs.Links
import RecordStore.Proofs.Loading
import RecordStore.Proofs.Meaning
import RecordStore.Proofs.Members
import RecordStore.Proofs.Operators
import RecordStore.Proofs.PageBounds
import RecordStore.Proofs.Pairs
import RecordStore.Proofs.Patterns
import RecordStore.Proofs.Projections
import RecordStore.Proofs.References
import RecordStore.Proofs.Removing
import RecordStore.Proofs.Reordering
import RecordStore.Proofs.Required
import RecordStore.Proofs.Retention
import RecordStore.Proofs.RoundTrip
import RecordStore.Proofs.SortTexts
import RecordStore.Proofs.Spellings
import RecordStore.Proofs.TableTexts
import RecordStore.Proofs.Updating
import RecordStore.Proofs.WholeNumbers
import RecordStore.Proofs.Writing
