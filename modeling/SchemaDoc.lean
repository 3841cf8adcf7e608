import SchemaDoc.Store.Column
import SchemaDoc.Embedding.Row
import SchemaDoc.Document.Checked
import SchemaDoc.Registry
import SchemaDoc.Schema.KindName
import SchemaDoc.Proofs.Document.Conforming
import SchemaDoc.Proofs.Document.Normalization
import SchemaDoc.Proofs.Document.Reference
import SchemaDoc.Proofs.Document.Readability
import SchemaDoc.Proofs.Document.Splicing
import SchemaDoc.Proofs.Document.Ingestion
import SchemaDoc.Proofs.Store.Exchange
import SchemaDoc.Proofs.Document.States
import SchemaDoc.Proofs.Schema.Paths
import SchemaDoc.Proofs.Registry.Calls
import SchemaDoc.Proofs.Registry.Saving
import SchemaDoc.Proofs.Document.Audit
import SchemaDoc.Proofs.Document.LocalChecks
import SchemaDoc.Proofs.Schema.Widening
import SchemaDoc.Proofs.Schema.Horizon
import SchemaDoc.Proofs.Document.Commuting
import SchemaDoc.Proofs.Registry.Loading
import SchemaDoc.Proofs.Registry.Confinement
import SchemaDoc.Proofs.Schema.Acceptance
import SchemaDoc.Proofs.Log.Line
import SchemaDoc.Proofs.Log.Output
import SchemaDoc.Proofs.Log.Events
import SchemaDoc.Proofs.Log.World
import SchemaDoc.Proofs.Log.Threshold
import SchemaDoc.Proofs.Document.Conversion
import SchemaDoc.Proofs.Config.Reader
import SchemaDoc.Proofs.Config.Acceptance
