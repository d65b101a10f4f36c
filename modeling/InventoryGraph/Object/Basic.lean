import InventoryGraph.Property.Map
import InventoryGraph.Identifier
import InventoryGraph.Text.Split

/-!
Schema objects: what a caller writes and reads. An object names its node type and holds
properties, optionally the resource version it was read at, optionally its lateral
relationships (absent leaves the vertex's cousin edges alone, a list is authoritative),
and the objects it contains.

A relationship names the target's node type and finds the target by its address
(`related-link`) or by key data: entries `type.property = value` that must hold on the
target or on the ancestor of that type.
-/
namespace InventoryGraph

/-- A `type.property = value` entry naming part of a relationship target. -/
structure RelationshipData where
  key : String
  value : String
  deriving DecidableEq, Repr

namespace RelationshipData

def new (nodeType property value : String) : RelationshipData :=
  ⟨nodeType ++ "." ++ property, value⟩

def splitKey? (d : RelationshipData) : Option (String × String) :=
  (Text.splitOnce '.' d.key.toList).map fun p => (String.ofList p.1, String.ofList p.2)

end RelationshipData

/-- A lateral reference from an object to another vertex. -/
structure RelationshipRef where
  relatedTo : Identifier
  relatedLink : Option String := none
  label : Option String := none
  data : List RelationshipData := []
  relatedToProperty : List RelationshipData := []
  deriving DecidableEq

namespace RelationshipRef

def new (t : Identifier) : RelationshipRef := { relatedTo := t }

def withLink (r : RelationshipRef) (link : String) : RelationshipRef :=
  { r with relatedLink := some link }

def withLabel (r : RelationshipRef) (l : String) : RelationshipRef := { r with label := some l }

def withData (r : RelationshipRef) (property value : String) : RelationshipRef :=
  { r with data := r.data ++ [RelationshipData.new r.relatedTo.text property value] }

/-- How error messages name the target: its address, else its key entries. -/
def describe (r : RelationshipRef) : String :=
  match r.relatedLink with
  | some link => link
  | none => ", ".intercalate (r.data.map fun d => d.key ++ ":" ++ d.value)

def ownKey? (r : RelationshipRef) (d : RelationshipData) : Option (String × String) :=
  d.splitKey?.bind fun (ty, k) => if ty == r.relatedTo.text then some (k, d.value) else none

def ownData (r : RelationshipRef) : List (String × String) := r.data.filterMap r.ownKey?

/-- The property and value the target is looked up by: the first of the keys that an own
    entry names, with the value of the first entry naming it. -/
def probe (r : RelationshipRef) (keys : List Identifier) : Option (String × String) :=
  keys.findSome? fun k => r.ownData.find? (·.1 == k.text)

def metadata (r : RelationshipRef) : PropertyMap :=
  PropertyMap.ofList (r.data.map fun d => (d.key, .str d.value))

end RelationshipRef

/-- The attributes of one node as a caller sees them, with the nodes it contains. -/
structure SchemaObject where
  nodeType : Identifier
  properties : PropertyMap := PropertyMap.empty
  resourceVersion : Option String := none
  relationships : Option (List RelationshipRef) := none
  children : List SchemaObject := []

namespace SchemaObject

def new (t : Identifier) : SchemaObject := { nodeType := t }

def withProperty (o : SchemaObject) (k : String) (x : PropertyValue) : SchemaObject :=
  { o with properties := o.properties.insert k x }

def withResourceVersion (o : SchemaObject) (v : String) : SchemaObject :=
  { o with resourceVersion := some v }

def withRelationship (o : SchemaObject) (r : RelationshipRef) : SchemaObject :=
  { o with relationships := some (o.relationships.getD [] ++ [r]) }

def withChild (o : SchemaObject) (c : SchemaObject) : SchemaObject :=
  { o with children := o.children ++ [c] }

def getStr? (o : SchemaObject) (k : String) : Option String :=
  (o.properties.get? k).bind PropertyValue.str?

end SchemaObject
end InventoryGraph
