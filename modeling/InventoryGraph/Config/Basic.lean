import InventoryGraph.Json.Decode
import InventoryGraph.SchemaVersion
import InventoryGraph.Error
import InventoryGraph.Toml.Document

/-!
Configuration of an inventory: who writes (the source of truth stamped on vertices), how
resource versions are checked, how deep the serializer expands containment, and which
storage engine holds the graph. Every field has a default, so an empty configuration is
the default one. Configurations are read from JSON values and TOML tables alike: unknown
keys are ignored, a present key must hold a value of the field's kind, depths are natural
numbers of at most 64 bits, and a version is written as text. A TOML document is read as a
JSON value first; a section may then be an array of its fields in order, with more items
ignored, and the storage engine may be named by a table with one empty member.

The resource-version policy: a create must quote no version; an update must quote the
current one; a delete passes when checking is disabled, when it quotes the disabling
token, or when it quotes nothing, and otherwise must quote the current one.
-/
namespace InventoryGraph

def defaultDisabledToken : String := "38cf3090-6a0c-4e9d-8142-4332a7352846"

/-- How resource versions are checked on deletes. -/
structure ResourceVersionConfig where
  enabled : Bool := true
  disabledToken : String := defaultDisabledToken
  deriving DecidableEq

/-- How the serializer writes objects. -/
structure SerializerConfig where
  edgeLabelSince : SchemaVersion := SchemaVersion.v12
  defaultDepth : Nat := 1
  maxDepth : Nat := 10000
  deriving DecidableEq

/-- The storage engines. -/
inductive StorageEngine where
  | inMemory
  deriving DecidableEq

def StorageEngine.name : StorageEngine → String
  | .inMemory => "inmemory"

/-- Which storage engine holds the graph. -/
structure StorageConfig where
  engineType : StorageEngine := .inMemory
  deriving DecidableEq

/-- The whole configuration. -/
structure InventoryConfig where
  sourceOfTruth : String := "inventory"
  resourceVersion : ResourceVersionConfig := {}
  serializer : SerializerConfig := {}
  storage : StorageConfig := {}
  deriving DecidableEq

namespace ResourceVersionConfig

/-- Checks the version a write quotes against the current one. -/
def verify (c : ResourceVersionConfig) (op : WriteOperation) (supplied current : Option String)
    (uri : String) : Outcome Unit :=
  let failure : Option VersionFailure := match op, supplied with
    | .create, none => none
    | .create, some _ => some .passed
    | .update, none => some .notPassed
    | .update, some s => if some s = current then none else some .mismatch
    | .delete, s =>
      if !c.enabled then none
      else match s with
        | none => none
        | some s =>
          if s = c.disabledToken then none
          else if some s = current then none
          else some .mismatch
  match failure with
  | none => .ok ()
  | some f => .error (.optimisticLock op f uri)

def decode (src : Json.Source) (j : Json) : Option ResourceVersionConfig := do
  let [enabled, token] ← Json.recordFields src ["enabled", "disabled_token"] j | none
  let d : ResourceVersionConfig := {}
  pure {
    enabled := ← Json.withDefault enabled d.enabled Json.boolean
    disabledToken := ← Json.withDefault token d.disabledToken Json.string }

end ResourceVersionConfig

def SchemaVersion.decode (j : Json) : Option SchemaVersion :=
  (Json.string j).bind fun s => (SchemaVersion.ofString s).toOption

def SerializerConfig.decode (src : Json.Source) (j : Json) : Option SerializerConfig := do
  let [since, depth, most] ←
    Json.recordFields src ["edge_label_since", "default_depth", "max_depth"] j | none
  let d : SerializerConfig := {}
  pure {
    edgeLabelSince := ← Json.withDefault since d.edgeLabelSince SchemaVersion.decode
    defaultDepth := ← Json.withDefault depth d.defaultDepth Json.natural
    maxDepth := ← Json.withDefault most d.maxDepth Json.natural }

def StorageConfig.decode (src : Json.Source) (j : Json) : Option StorageConfig := do
  let [engine] ← Json.recordFields src ["engine_type"] j | none
  let engineType ← Json.withDefault engine .inMemory (Json.variantIn src [("inmemory", .inMemory)])
  pure { engineType }

/-- Reads a whole configuration. -/
def InventoryConfig.decode (src : Json.Source) (j : Json) : Option InventoryConfig := do
  let [source, versions, serializer, storage] ←
    Json.recordFields src ["source_of_truth", "resource_version", "serializer", "storage"] j
    | none
  let d : InventoryConfig := {}
  pure {
    sourceOfTruth := ← Json.withDefault source d.sourceOfTruth Json.string
    resourceVersion := ← Json.withDefault versions d.resourceVersion
      (ResourceVersionConfig.decode src)
    serializer := ← Json.withDefault serializer d.serializer (SerializerConfig.decode src)
    storage := ← Json.withDefault storage d.storage (StorageConfig.decode src) }

def InventoryConfig.ofToml? (s : String) : Option InventoryConfig :=
  (Toml.parse s).bind fun t => InventoryConfig.decode Json.Source.toml (.obj (Toml.membersToJson t))

end InventoryGraph
