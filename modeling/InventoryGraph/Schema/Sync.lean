import InventoryGraph.Schema.Store
import InventoryGraph.Catalog.Basic
import InventoryGraph.Graph.Element

/-!
Schema synchronisation. A catalog declares a structural schema: string keys for the
bookkeeping properties and integer keys for the timestamps, a key for every declared
property (one name declared with two types or cardinalities is a configuration error),
indexes on the node type, the address and the synthetic id, an index for every indexed
property and a composite key index for every node type with keys, and a label for every
rule. Versions are read oldest first and a later index of a name replaces an earlier one;
keys, indexes and labels are listed by name.

Reconciling a store with a declared schema only adds: keys, indexes and labels that are
missing are made, a key or index defined differently is reported and left alone. A failure
leaves the store's schema as it was.
-/
namespace InventoryGraph

def PrimitiveType.title : PrimitiveType → String
  | .string => "String"
  | .integer => "Integer"
  | .float => "Float"
  | .boolean => "Boolean"

def Cardinality.title : Cardinality → String
  | .single => "Single"
  | .list => "List"
  | .set => "Set"

/-- The structural schema a catalog asks for. -/
structure DeclaredSchema where
  propertyKeys : List PropertyKeyDef := []
  indexes : List IndexDef := []
  edgeLabels : List String := []
  deriving DecidableEq, Repr

/-- What a reconciliation did, and what it left for an operator. -/
structure SyncReport where
  createdKeys : List String := []
  conflictingKeys : List String := []
  createdIndexes : List String := []
  changedIndexes : List String := []
  createdLabels : List String := []
  deriving DecidableEq, Repr

def SyncReport.isNoop (r : SyncReport) : Bool :=
  r.createdKeys.isEmpty && r.createdIndexes.isEmpty && r.createdLabels.isEmpty

namespace DeclaredSchema

def insertByName {α : Type} (name : α → String) (x : α) : List α → List α
  | [] => [x]
  | y :: ys =>
    if name x < name y then x :: y :: ys
    else if name x = name y then x :: ys
    else y :: insertByName name x ys

/-- Declares a property key; a name declared before with another type or cardinality is
    refused. -/
def declareKey (keys : List PropertyKeyDef) (k : PropertyKeyDef) : Outcome (List PropertyKeyDef) :=
  match keys.find? (·.name == k.name) with
  | some old =>
    if old = k then .ok keys
    else .error (.configuration ("property " ++ k.name ++ " declared as " ++ old.dataType.title ++
      "/" ++ old.cardinality.title ++ " and " ++ k.dataType.title ++ "/" ++ k.cardinality.title))
  | none => .ok (insertByName (·.name) k keys)

def bookkeepingKeys : List PropertyKeyDef :=
  [Bookkeeping.nodeType, Bookkeeping.syntheticId, Bookkeeping.sourceOfTruth,
    Bookkeeping.lastModSourceOfTruth, Bookkeeping.resourceVersion, Bookkeeping.uri].map
      (fun n => ⟨n, .string, .single⟩) ++
  [Bookkeeping.createdTs, Bookkeeping.lastModTs].map fun n => ⟨n, .integer, .single⟩

def bookkeepingIndexes : List IndexDef :=
  [(Bookkeeping.nodeType, false), (Bookkeeping.uri, true), (Bookkeeping.syntheticId, true)].map
    fun (n, u) => ⟨n ++ "-index", [n], u⟩

/-- Keys and indexes after one node type's declaration. -/
def declareType (acc : List PropertyKeyDef × List IndexDef) (t : NodeType) :
    Outcome (List PropertyKeyDef × List IndexDef) := do
  let (keys, indexes) ← t.properties.foldlM (fun (keys, indexes) p => do
    let keys ← declareKey keys ⟨p.name.text, p.dataType, p.cardinality⟩
    let indexes := if p.indexed then
      insertByName (·.name) ⟨p.name.text ++ "-index", [p.name.text], p.unique⟩ indexes
      else indexes
    pure (keys, indexes)) acc
  if t.keyProperties.isEmpty then pure (keys, indexes)
  else
    pure (keys, insertByName (·.name)
      ⟨t.name.text ++ "-key-index", Bookkeeping.nodeType :: t.keyProperties.map (·.text), false⟩
      indexes)

def ofCatalog (c : Catalog) : Outcome DeclaredSchema := do
  let keys ← bookkeepingKeys.foldlM declareKey []
  let indexes := bookkeepingIndexes.foldl (fun is i => insertByName (·.name) i is) []
  let (keys, indexes) ← c.versions.foldlM (fun acc v => (c.nodeTypesOf v).foldlM declareType acc)
    (keys, indexes)
  let labels := GraphError.sortedUnique ((c.versions.flatMap c.rulesOf).map (·.label.text))
  pure { propertyKeys := keys, indexes, edgeLabels := labels }

end DeclaredSchema

namespace SchemaStore

/-- Adds what the declared schema lacks in the store, reporting what differs. -/
def apply (s : SchemaStore) (d : DeclaredSchema) : Outcome (SyncReport × SchemaStore) := do
  let (r, s) ← d.propertyKeys.foldlM (fun (r, s) k =>
    match s.propertyKey? k.name with
    | none => do
      let s ← s.makePropertyKey k
      pure ({ r with createdKeys := r.createdKeys ++ [k.name] }, s)
    | some live =>
      if live ≠ k then pure ({ r with conflictingKeys := r.conflictingKeys ++ [k.name] }, s)
      else pure (r, s)) (({} : SyncReport), s)
  let (r, s) ← d.indexes.foldlM (fun (r, s) i =>
    match s.index? i.name with
    | none => do
      let s ← s.buildIndex i
      pure ({ r with createdIndexes := r.createdIndexes ++ [i.name] }, s)
    | some live =>
      if live.keys ≠ i.keys ∨ live.unique ≠ i.unique then
        pure ({ r with changedIndexes := r.changedIndexes ++ [i.name] }, s)
      else pure (r, s)) (r, s)
  d.edgeLabels.foldlM (fun (r, s) l =>
    if s.containsEdgeLabel l then pure (r, s)
    else do
      let s ← s.makeEdgeLabel l
      pure ({ r with createdLabels := r.createdLabels ++ [l] }, s)) (r, s)

/-- Reconciles the store with a declared schema in one schema transaction; a failure is
    reported as a failed sync and changes nothing. -/
def reconcile (s : SchemaStore) (d : DeclaredSchema) : Outcome (SyncReport × SchemaStore) :=
  match s.apply d with
  | .ok r => .ok r
  | .error e => .error (.schemaSync e.message)

end SchemaStore
end InventoryGraph
