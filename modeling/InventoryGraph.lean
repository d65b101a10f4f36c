import InventoryGraph.Binary64.Basic
import InventoryGraph.Binary64.Shortest
import InventoryGraph.Text.Split
import InventoryGraph.Text.PercentEncoding
import InventoryGraph.Json.Basic
import InventoryGraph.Json.Read
import InventoryGraph.Json.Write
import InventoryGraph.Error
import InventoryGraph.Identifier
import InventoryGraph.SchemaVersion
import InventoryGraph.Property.Value
import InventoryGraph.Property.Map
import InventoryGraph.Schema.PropertyDef
import InventoryGraph.Schema.NodeType
import InventoryGraph.Rule.Basic
import InventoryGraph.Catalog.Basic
import InventoryGraph.Catalog.Query
import InventoryGraph.Catalog.Resolve
import InventoryGraph.Catalog.Reference
import InventoryGraph.Graph.Element
import InventoryGraph.Graph.Clock
import InventoryGraph.Graph.Basic
import InventoryGraph.Graph.Uri
import InventoryGraph.Graph.Cascade
import InventoryGraph.Object.Basic
import InventoryGraph.Graph.RuleEdge
import InventoryGraph.Json.Decode
import InventoryGraph.Config.Basic
import InventoryGraph.Serializer.Basic
import InventoryGraph.Serializer.DataCopy
import InventoryGraph.Serializer.Write
import InventoryGraph.Serializer.Read
import InventoryGraph.Document.Encode
import InventoryGraph.Serializer.Format
import InventoryGraph.Schema.Store
import InventoryGraph.Schema.Sync
import InventoryGraph.Toml.Basic
import InventoryGraph.Toml.Text
import InventoryGraph.Toml.Number
import InventoryGraph.Toml.Document
import InventoryGraph.Document.Decode
import InventoryGraph.Service.Answer
import InventoryGraph.Service.Builder
import InventoryGraph.Service.Catalogs
import InventoryGraph.Service.Stateless
import InventoryGraph.Service.Session.Basic
import InventoryGraph.Service.Session.Ops
import InventoryGraph.Service.Line
import InventoryGraph.Proofs.Store.Consistent
import InventoryGraph.Proofs.Store.Writes
import InventoryGraph.Proofs.Cascade.Walk
import InventoryGraph.Proofs.Cascade.Plan
import InventoryGraph.Proofs.Serializer.Delete
import InventoryGraph.Proofs.Rules.Catalog
import InventoryGraph.Proofs.Rules.Multiplicity
import InventoryGraph.Proofs.Property.Lookup
import InventoryGraph.Proofs.Serializer.Stages
import InventoryGraph.Proofs.Serializer.Forest
import InventoryGraph.Proofs.Serializer.RoundTrip
import InventoryGraph.Proofs.Text.PercentEncoding
import InventoryGraph.Proofs.Serializer.Addresses
import InventoryGraph.Proofs.Serializer.DistinctAddresses
import InventoryGraph.Proofs.Serializer.References
import InventoryGraph.Proofs.Rules.Selection
import InventoryGraph.Proofs.Schema.Sync
import InventoryGraph.Proofs.Serializer.Counter
import InventoryGraph.Proofs.Serializer.StaleVersions
import InventoryGraph.Proofs.Serializer.Relationships
import InventoryGraph.Proofs.Rules.Lookup
import InventoryGraph.Proofs.Uri.Walk
import InventoryGraph.Proofs.Uri.Refresh
import InventoryGraph.Proofs.Schema.Declared
import InventoryGraph.Proofs.Serializer.Nesting
import InventoryGraph.Proofs.Serializer.DataReferences
import InventoryGraph.Proofs.Serializer.Rewrite
import InventoryGraph.Proofs.Serializer.Layout
import InventoryGraph.Proofs.Serializer.Laying
import InventoryGraph.Proofs.Serializer.Replay
import InventoryGraph.Proofs.Rules.Loading
import InventoryGraph.Proofs.Schema.Declarations
import InventoryGraph.Proofs.Rules.Orientation
import InventoryGraph.Proofs.Serializer.Templates
import InventoryGraph.Proofs.Rules.PairKey
import InventoryGraph.Proofs.Serializer.Validation
