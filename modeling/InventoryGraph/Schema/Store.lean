import InventoryGraph.Schema.PropertyDef
import InventoryGraph.Error

/-!
The structural schema of a store: typed property keys, composite indexes over property
keys, and edge labels, each looked up by name. Making one that exists is refused, and an
index over a key the schema lacks is refused before the name is checked.
-/
namespace InventoryGraph

/-- A property key with its type and cardinality. -/
structure PropertyKeyDef where
  name : String
  dataType : PrimitiveType
  cardinality : Cardinality
  deriving DecidableEq, Repr

/-- An index over property keys. -/
structure IndexDef where
  name : String
  keys : List String
  unique : Bool
  deriving DecidableEq, Repr

/-- The live schema of a store. -/
structure SchemaStore where
  propertyKeys : List PropertyKeyDef := []
  indexes : List IndexDef := []
  edgeLabels : List String := []
  deriving DecidableEq, Repr

namespace SchemaStore

def propertyKey? (s : SchemaStore) (name : String) : Option PropertyKeyDef :=
  s.propertyKeys.find? (·.name == name)

def index? (s : SchemaStore) (name : String) : Option IndexDef :=
  s.indexes.find? (·.name == name)

def containsEdgeLabel (s : SchemaStore) (label : String) : Bool := s.edgeLabels.contains label

def makePropertyKey (s : SchemaStore) (k : PropertyKeyDef) : Outcome SchemaStore :=
  if (s.propertyKey? k.name).isSome then .error (.alreadyExists ("property key " ++ k.name))
  else .ok { s with propertyKeys := s.propertyKeys ++ [k] }

def buildIndex (s : SchemaStore) (i : IndexDef) : Outcome SchemaStore :=
  match i.keys.find? fun k => (s.propertyKey? k).isNone with
  | some k =>
    .error (.storage ("index " ++ i.name ++ " references undefined property key " ++ k))
  | none =>
    if (s.index? i.name).isSome then .error (.alreadyExists ("index " ++ i.name))
    else .ok { s with indexes := s.indexes ++ [i] }

def makeEdgeLabel (s : SchemaStore) (label : String) : Outcome SchemaStore :=
  if s.containsEdgeLabel label then .error (.alreadyExists ("edge label " ++ label))
  else .ok { s with edgeLabels := s.edgeLabels ++ [label] }

end SchemaStore
end InventoryGraph
