import InventoryGraph.Schema.PropertyDef
import InventoryGraph.SchemaVersion

/-!
Node types: a name in a schema version with declared properties, the key properties that
identify a vertex among its siblings, and the name properties shown beside references.
-/
namespace InventoryGraph

/-- A node type of one schema version. -/
structure NodeType where
  name : Identifier
  version : SchemaVersion
  properties : List PropertyDef
  keyProperties : List Identifier
  nameProperties : List Identifier := []
  deriving DecidableEq

namespace NodeType

def new (name : Identifier) (v : SchemaVersion) : NodeType := ⟨name, v, [], [], []⟩

/-- Adds a key: a string property of that name is declared unless one exists, and the key
    is appended, so a repeated key is listed twice. -/
def withKey (t : NodeType) (k : Identifier) : NodeType :=
  { t with
    properties := if t.properties.any (·.name == k) then t.properties
      else t.properties ++ [PropertyDef.new k .string]
    keyProperties := t.keyProperties ++ [k] }

/-- Declares a property, replacing one of the same name and placing it last. -/
def withProperty (t : NodeType) (p : PropertyDef) : NodeType :=
  { t with properties := t.properties.filter (·.name != p.name) ++ [p] }

def withNameProperty (t : NodeType) (n : Identifier) : NodeType :=
  { t with nameProperties := t.nameProperties ++ [n] }

def property? (t : NodeType) (name : String) : Option PropertyDef :=
  t.properties.find? (·.name.text == name)

def declares (t : NodeType) (name : String) : Bool := (t.property? name).isSome

end NodeType
end InventoryGraph
