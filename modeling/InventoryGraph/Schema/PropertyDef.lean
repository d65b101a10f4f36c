import InventoryGraph.Identifier
import InventoryGraph.Property.Value

/-!
Declared properties. A declaration names a primitive type and a cardinality: a single
value, or a list or set held as a list value. A single declaration accepts a value of its
type, where a float declaration also accepts an integer; a list or set declaration accepts
a list whose items its type accepts, so lists do not nest.
-/
namespace InventoryGraph

/-- The primitive type of a declared property. -/
inductive PrimitiveType where
  | string
  | integer
  | float
  | boolean
  deriving DecidableEq, Repr, Inhabited

namespace PrimitiveType

/-- The value is of this type; a float also takes an integer. -/
def accepts : PrimitiveType → PropertyValue → Bool
  | .string, .str _ => true
  | .integer, .int _ => true
  | .float, .float _ => true
  | .float, .int _ => true
  | .boolean, .bool _ => true
  | _, _ => false

def name : PrimitiveType → String
  | .string => "string"
  | .integer => "integer"
  | .float => "float"
  | .boolean => "boolean"

end PrimitiveType

/-- How many values a declared property holds. -/
inductive Cardinality where
  | single
  | list
  | set
  deriving DecidableEq, Repr, Inhabited

def Cardinality.name : Cardinality → String
  | .single => "single"
  | .list => "list"
  | .set => "set"

/-- A declared property. -/
structure PropertyDef where
  name : Identifier
  dataType : PrimitiveType
  cardinality : Cardinality := .single
  indexed : Bool := false
  unique : Bool := false
  dataCopy : Option String := none
  deriving DecidableEq

namespace PropertyDef

def new (name : Identifier) (t : PrimitiveType) : PropertyDef := ⟨name, t, .single, false, false, none⟩

def withCardinality (p : PropertyDef) (c : Cardinality) : PropertyDef := { p with cardinality := c }

def withIndex (p : PropertyDef) : PropertyDef := { p with indexed := true }

def withDataCopy (p : PropertyDef) (t : String) : PropertyDef := { p with dataCopy := some t }

def validate (p : PropertyDef) (v : PropertyValue) : Except ValidationError Unit :=
  match p.cardinality, v with
  | .single, .list _ => .error (.propertyTypeMismatch p.name.text p.dataType.name)
  | .single, v =>
    if p.dataType.accepts v then .ok () else .error (.invalidPropertyValue p.name.text)
  | _, .list items =>
    if items.all p.dataType.accepts then .ok () else .error (.invalidPropertyValue p.name.text)
  | _, _ => .error (.propertyTypeMismatch p.name.text "list")

end PropertyDef
end InventoryGraph
