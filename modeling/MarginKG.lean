import MarginKG.System
import MarginKG.Graph.Neo4j
import MarginKG.Theory.Overwrite
import MarginKG.Verify.Ontology
import MarginKG.Verify.Writes
import MarginKG.Verify.Labels
import MarginKG.Verify.History
import MarginKG.Verify.Spine
import MarginKG.Verify.Escalation
import MarginKG.Verify.AliasIndex
import MarginKG.Verify.Learning
import MarginKG.Verify.Resume
import MarginKG.Verify.Delivery
import MarginKG.Verify.Stores
import MarginKG.Verify.Asserts
import MarginKG.Verify.Visibility
import MarginKG.Verify.RateLimit
import MarginKG.Verify.Cypher
import MarginKG.Verify.Ledger
import MarginKG.Verify.Synthetic
import MarginKG.Verify.Throttle
import MarginKG.Verify.Identity
import MarginKG.Verify.WriteBack
import MarginKG.Verify.RoundTrip
import MarginKG.Verify.LoadOrder
import MarginKG.Verify.Namespaces
import MarginKG.Verify.ConfirmedLinks
import MarginKG.Verify.Ownership
import MarginKG.Verify.Waiting
import MarginKG.Verify.Tiers
import MarginKG.Verify.Backends
import MarginKG.Verify.Schema
import MarginKG.Verify.Workers
import MarginKG.Verify.Reports
import MarginKG.Verify.Interchange
import MarginKG.Verify.Setup
import MarginKG.Verify.Documents
import MarginKG.Verify.Review
import MarginKG.Verify.Readers
import MarginKG.Verify.Similarity
