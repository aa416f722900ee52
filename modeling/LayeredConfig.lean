import LayeredConfig.Entries.Ordered
import LayeredConfig.Configuration
import LayeredConfig.Leaves
import LayeredConfig.Proofs.Data.Outcome
import LayeredConfig.Proofs.Data.Walk
import LayeredConfig.Proofs.Leaves.Agreement
import LayeredConfig.Proofs.Completion.Inheritance
import LayeredConfig.Proofs.Completion.Conformance
import LayeredConfig.Proofs.Completion.Shape
import LayeredConfig.Proofs.Merging.Precedence
import LayeredConfig.Proofs.Merging.Associativity
import LayeredConfig.Proofs.Merging.LastWriter
import LayeredConfig.Proofs.Merging.NamedProfiles
import LayeredConfig.Proofs.Merging.Faults
import LayeredConfig.Proofs.Data.Canonical
import LayeredConfig.Proofs.Data.Copies
import LayeredConfig.Proofs.Merging.ValidOverlays
import LayeredConfig.Proofs.Completion.Settled
import LayeredConfig.Proofs.Configuration.Revalidation
import LayeredConfig.Proofs.Completion.Reordering
import LayeredConfig.Proofs.Completion.Provenance
import LayeredConfig.Proofs.Completion.Blame
import LayeredConfig.Proofs.Completion.FirstViolation
import LayeredConfig.Proofs.Leaves.Validated
import LayeredConfig.Proofs.Completion.Location
import LayeredConfig.Proofs.Leaves.Relocation
import LayeredConfig.Proofs.Leaves.Settled
import LayeredConfig.Proofs.Leaves.Components
import LayeredConfig.Proofs.Configuration.Differences
import LayeredConfig.Proofs.Configuration.Subconfigurations
import LayeredConfig.Proofs.Configuration.Trace
import LayeredConfig.Proofs.Merging.IdleProfiles
import LayeredConfig.Proofs.Merging.RepeatedNames
import LayeredConfig.Proofs.Merging.Idempotence
import LayeredConfig.Proofs.Completion.Sets
import LayeredConfig.Proofs.Completion.Tables
import LayeredConfig.Proofs.Completion.Sequences
import LayeredConfig.Proofs.Completion.Isolation
import LayeredConfig.Proofs.Schema.Construction
import LayeredConfig.Proofs.Text.Digits
import LayeredConfig.Proofs.Text.Paths
import LayeredConfig.Proofs.Text.Significands
import LayeredConfig.Proofs.Json.Reading
import LayeredConfig.Proofs.Json.RoundTrip
import LayeredConfig.Proofs.Json.Numerals
import LayeredConfig.Proofs.Json.Encodable
import LayeredConfig.Proofs.Log.Lines
