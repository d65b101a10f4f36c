import InventoryGraph.Service.Catalogs
import InventoryGraph.Schema.Sync
import InventoryGraph.Config.Basic
import InventoryGraph.Serializer.DataCopy

namespace InventoryGraph

def PropertyKeyDef.toJson (k : PropertyKeyDef) : Json :=
  .obj [("name", .str k.name), ("data_type", .str k.dataType.name),
    ("cardinality", .str k.cardinality.name)]

def IndexDef.toJson (i : IndexDef) : Json :=
  .obj [("name", .str i.name), ("keys", Json.ofStrings i.keys), ("unique", .bool i.unique)]

def DeclaredSchema.toJson (d : DeclaredSchema) : Json :=
  .obj [("property_keys", .arr (d.propertyKeys.map PropertyKeyDef.toJson)),
    ("indexes", .arr (d.indexes.map IndexDef.toJson)),
    ("edge_labels", Json.ofStrings d.edgeLabels)]

def SyncReport.toJson (r : SyncReport) : Json :=
  .obj [("created_keys", Json.ofStrings r.createdKeys),
    ("conflicting_keys", Json.ofStrings r.conflictingKeys),
    ("created_indexes", Json.ofStrings r.createdIndexes),
    ("changed_indexes", Json.ofStrings r.changedIndexes),
    ("created_labels", Json.ofStrings r.createdLabels), ("is_noop", .bool r.isNoop)]

def InventoryConfig.toJson (c : InventoryConfig) : Json :=
  .obj [("source_of_truth", .str c.sourceOfTruth),
    ("resource_version", .obj [("enabled", .bool c.resourceVersion.enabled),
      ("disabled_token", .str c.resourceVersion.disabledToken)]),
    ("serializer", .obj [("edge_label_since", .str c.serializer.edgeLabelSince.display),
      ("default_depth", .int c.serializer.defaultDepth),
      ("max_depth", .int c.serializer.maxDepth)]),
    ("storage", .obj [("engine_type", .str c.storage.engineType.name)])]

def orderingTitle : Ordering → String
  | .lt => "Less"
  | .eq => "Equal"
  | .gt => "Greater"

namespace Service

def propertyValue (j : Json) (k : String) : Reply PropertyValue := do
  Reply.decoded (Document.propertyValue (← Request.given j k))

def objectOf (j : Json) : Reply SchemaObject :=
  match j.get? "object_build" with
  | none | some .null => do Reply.decoded (Document.schemaObject (← Request.field j "object"))
  | some b => Builder.object b

def runnerOf (name : String) : Option (List SideEffect) :=
  match name with
  | "default" => some SideEffect.defaults
  | "none" => some []
  | _ => none

def compareNames (j : Json) : Reply Json := do
  let x ← Reply.ofValidation (Identifier.ofString (← Request.string j "a"))
  let b ← Request.string j "b"
  let y ← Reply.ofValidation (Identifier.ofString b)
  let c := orderingTitle (compare x.text y.text)
  pure (.obj [("cmp", .str c), ("partial_cmp", .str c), ("eq", .bool (x == y)),
    ("eq_str", .bool (x.text == b)), ("eq_ref", .bool (x.text == b)),
    ("len", .int x.byteLength), ("display", .str x.text), ("string", .str x.text)])

def versionInfo (j : Json) : Reply Json := do
  let v ← match j.get? "number" with
    | none | some .null => Reply.ofValidation (SchemaVersion.ofString (← Request.string j "value"))
    | some (.int n) =>
      match (if 0 ≤ n then SchemaVersion.ofNat? n.toNat else none) with
      | some v => pure v
      | none => Reply.malformed "number must be a u32"
    | some _ => Reply.malformed "number must be a u32"
  pure (.obj [("number", .int v.number), ("display", .str v.display)])

def accessors (j : Json) : Reply Json := do
  let v ← propertyValue j "value"
  pure (.obj [("as_str", Json.ofOption v.str?), ("as_i64", (v.int?.map Json.int).getD .null),
    ("as_list", (v.list?.map fun xs => Json.ofStrings (xs.map (·.display))).getD .null),
    ("rebuilt_kind", .str v.kind), ("rebuilt_eq", .bool true)])

def buildObject (j : Json) : Reply Json := do
  let o ← objectOf j
  let keys := Request.strings j "get_str"
  let found := keys.foldl (fun ms k => Json.setMember ms k (Json.ofOption (o.getStr? k))) []
  pure (.obj [("object", o.toJson), ("get_str", .obj found)])

def sideEffectsInfo (j : Json) : Reply Json := do
  let name := (← Request.string? j "runner").getD "default"
  match runnerOf name with
  | some effects => pure (.obj [("names", Json.ofStrings (effects.map (·.name))),
      ("debug", .str (SideEffect.describe effects))])
  | none => Reply.malformed ("bad runner " ++ name)

def latestOf (c : Catalog) : Json := Json.ofOption (c.latestVersion?.map (·.display))

/-- A catalog handle through a series of replacements. -/
def catalogHandle (j : Json) : Reply Json := do
  match ← Request.list j "catalogs" with
  | [] => Reply.malformed "catalogs must not be empty"
  | first :: rest =>
    let h : CatalogHandle := ⟨← catalogOf first⟩
    let step := fun (acc : CatalogHandle × List Json) (c : Json) =>
      match catalogOf c with
      | .ok c =>
        let (old, h) := acc.1.replace c
        (h, acc.2 ++ [.obj [("previous", latestOf old), ("current", latestOf h.current),
          ("rule_count", .int h.current.ruleCount)]])
      | .error e => (acc.1, acc.2 ++ [e.toJson])
    let (_, steps) := rest.foldl step (h, [.obj [("current", latestOf h.current)]])
    pure (.obj [("steps", .arr steps)])

def compareVersions (j : Json) : Reply Json := do
  let a ← Reply.ofValidation (SchemaVersion.ofString (← Request.string j "a"))
  let b ← Reply.ofValidation (SchemaVersion.ofString (← Request.string j "b"))
  pure (.obj [("cmp", .str (orderingTitle (compare a b)))])

def validateProperty (j : Json) : Reply Json := do
  let d ← Reply.decoded (Document.propertyDef false (← Request.field j "def"))
  let v ← propertyValue j "value"
  Reply.ofValidation (d.validate v)
  pure (.obj [("ok", .bool true), ("display", .str v.display), ("kind", .str v.kind)])

/-- Checks a supplied resource version. -/
def verifyVersion (j : Json) : Reply Json := do
  let c ← match j.get? "config" with
    | none | some .null => pure {}
    | some c => Reply.decoded (ResourceVersionConfig.decode .json c)
  let op ← Reply.decoded (Document.writeOperation (← Request.field j "operation"))
  let supplied ← Request.string? j "supplied"
  let current ← Request.string? j "current"
  let uri ← Request.string? j "uri"
  Reply.ofOutcome (c.verify op supplied current (uri.getD ""))
  pure (.obj [("ok", .bool true)])

/-- Resolves a data-copy template against properties. -/
def resolveTemplate (j : Json) : Reply Json := do
  let props ← match j.get? "properties" with
    | none | some .null => pure PropertyMap.empty
    | some p => Reply.decoded (Document.propertyMap p)
  let t ← Request.string j "template"
  let selfUri ← Request.string? j "self_uri"
  let r ← Reply.ofOutcome (DataCopy.resolve t props selfUri)
  pure (.obj [("ok", match r with
    | some (uri, p) => .arr [.str uri, .str p]
    | none => .null)])

def blockedDelete (j : Json) : Reply Json := do
  let ts ← Reply.decoded (Json.list Json.string (← Request.field j "types"))
  .error (.failed (GraphError.blocked ts))

def catalogQueries (j : Json) : Reply Json := do
  let c ← catalogOf (← Request.field j "catalog")
  let qs ← Request.list j "queries"
  pure (.obj [("answers", .arr (qs.map fun q => (ask c q).toJson))])

def declaredSchema (j : Json) : Reply Json := do
  let c ← catalogOf (← Request.field j "catalog")
  return (← Reply.ofOutcome (DeclaredSchema.ofCatalog c)).toJson

def decodedItems {α : Type} (j : Json) (k : String) (f : Json → Option α) : Option (List α) :=
  match j.get? k with
  | none | some .null => some []
  | some (.arr xs) => xs.mapM f
  | some _ => none

def declaredOf (j : Json) : Reply DeclaredSchema :=
  Reply.decoded do
    pure {
      propertyKeys := ← decodedItems j "property_keys" Document.propertyKeyDef
      indexes := ← decodedItems j "indexes" Document.indexDef
      edgeLabels := ← decodedItems j "edge_labels" Json.string }

/-- The names a probe asks for under a key: none unless it is a list, in which an item
    that is not a string names the empty string. -/
def probeNames (j : Json) (k : String) : List String :=
  match j.get? k with
  | some (.arr xs) => xs.map fun x => (Json.str? x).getD ""
  | _ => []

/-- What the live schema holds of the names a probe asks for. -/
def probe (s : SchemaStore) (j : Json) : Json :=
  let keys := probeNames j "property_keys"
  let indexes := probeNames j "indexes"
  let labels := probeNames j "edge_labels"
  let entries := fun (names : List String) (f : String → Json) =>
    Json.obj (names.foldl (fun ms n => Json.setMember ms n (f n)) [])
  .obj [
    ("property_keys", entries keys fun n => ((s.propertyKey? n).map PropertyKeyDef.toJson).getD .null),
    ("indexes", entries indexes fun n => ((s.index? n).map IndexDef.toJson).getD .null),
    ("edge_labels", entries labels fun n => .bool (s.containsEdgeLabel n))]

def schemaOp (s : SchemaStore) (j : Json) : Reply SchemaStore :=
  match Request.present? j "make_property_key", Request.present? j "build_index", Request.present? j "make_edge_label" with
  | some k, _, _ => do Reply.ofOutcome (s.makePropertyKey (← Reply.decoded (Document.propertyKeyDef k)))
  | none, some i, _ => do Reply.ofOutcome (s.buildIndex (← Reply.decoded (Document.indexDef i)))
  | none, none, some (.str l) => Reply.ofOutcome (s.makeEdgeLabel l)
  | none, none, some _ => Reply.malformed "label must be a string"
  | none, none, none => Reply.malformed "unknown raw schema op"

def schemaTransaction (s : SchemaStore) (j : Json) : Reply (Json × SchemaStore) := do
  let ops ← Request.list j "raw"
  let commit ← Request.bool j "commit" true
  let step := fun (acc : SchemaStore × List Json) (op : Json) =>
    match schemaOp acc.1 op with
    | .ok s => (s, acc.2 ++ [.obj [("ok", .bool true)]])
    | .error e => (acc.1, acc.2 ++ [e.toJson])
  let (t, results) := ops.foldl step (s, [])
  pure (.obj [("results", .arr results), ("committed", .bool commit)], if commit then t else s)

/-- One step of a schema synchronisation: a probe, else a raw transaction, else a
    reconciliation with a catalog's declared schema, else with the declared schema given. -/
def syncStep (s : SchemaStore) (j : Json) : Reply (Json × SchemaStore) :=
  match Request.present? j "probe", Request.present? j "raw", Request.present? j "catalog" with
  | some p, _, _ => pure (probe s p, s)
  | none, some _, _ => schemaTransaction s j
  | none, none, some c => do
    let d ← Reply.ofOutcome (DeclaredSchema.ofCatalog (← catalogOf c))
    let (r, s) ← Reply.ofOutcome (s.reconcile d)
    pure (r.toJson, s)
  | none, none, none => do
    let (r, s) ← Reply.ofOutcome (s.reconcile (← declaredOf (← Request.field j "declared")))
    pure (r.toJson, s)

def schemaSync (j : Json) : Reply Json := do
  let steps ← Request.list j "steps"
  let step := fun (acc : SchemaStore × List Json) (st : Json) =>
    match syncStep acc.1 st with
    | .ok (r, s) => (s, acc.2 ++ [r])
    | .error e => (acc.1, acc.2 ++ [e.toJson])
  let (_, answers) := steps.foldl step ({}, [])
  pure (.obj [("steps", .arr answers)])

def configToml (j : Json) : Reply Json := do
  let c ← match ← Request.string? j "toml" with
    | some text =>
      match InventoryConfig.ofToml? text with
      | some c => pure c
      | none => .error .unloadable
    | none => pure {}
  pure (.obj [("config", c.toJson)])

end Service
end InventoryGraph
