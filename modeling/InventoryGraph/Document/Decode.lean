import InventoryGraph.Json.Decode
import InventoryGraph.Object.Basic
import InventoryGraph.Catalog.Basic
import InventoryGraph.Config.Basic
import InventoryGraph.Schema.Store

/-!
Reading the model's values from their JSON documents. Names must be valid names and
versions valid versions, written as strings; enumerations are written by name. A property
value is read by its JSON kind: a string, an integer of the 64-bit signed range, any other
number as a binary64 value (an integer above that range rounded to the nearest), a boolean,
or an array of values; `null` and objects are no property values. Records follow
`Json.fields`: `strict` is set when the document is read from text, where a field given
twice is refused.
-/
namespace InventoryGraph

namespace Document

def identifier (j : Json) : Option Identifier :=
  (Json.string j).bind fun s => (Identifier.ofString s).toOption

mutual
def propertyValue : Json → Option PropertyValue
  | .str s => some (.str s)
  | .int i =>
    if PropertyValue.minInt ≤ i ∧ i ≤ PropertyValue.maxInt then some (.int i)
    else some (.float (Binary64.ofNat i.toNat))
  | .float x => some (.float x)
  | .bool b => some (.bool b)
  | .arr xs => (propertyValues xs).map .list
  | _ => none

def propertyValues : List Json → Option (List PropertyValue)
  | [] => some []
  | x :: xs => do
    let v ← propertyValue x
    let vs ← propertyValues xs
    pure (v :: vs)
end

def propertyMap : Json → Option PropertyMap
  | .obj ms => (ms.mapM fun m => (propertyValue m.2).map (m.1, ·)).map PropertyMap.ofList
  | _ => none

def primitiveType : Json → Option PrimitiveType :=
  Json.variant [("string", .string), ("integer", .integer), ("float", .float),
    ("boolean", .boolean)]

def cardinality : Json → Option Cardinality :=
  Json.variant [("single", .single), ("list", .list), ("set", .set)]

def flagDirection : Json → Option FlagDirection :=
  Json.variant [("NONE", .none), ("OUT", .out), ("IN", .into)]

def direction : Json → Option Direction := Json.variant [("OUT", .out), ("IN", .into)]

def multiplicity : Json → Option Multiplicity :=
  Json.variant [("ONE_TO_ONE", .oneToOne), ("ONE_TO_MANY", .oneToMany),
    ("MANY_TO_ONE", .manyToOne), ("MANY_TO_MANY", .manyToMany)]

def writeOperation : Json → Option WriteOperation :=
  Json.variant [("create", .create), ("update", .update), ("delete", .delete)]

/-- A declared property. -/
def propertyDef (strict : Bool) (j : Json) : Option PropertyDef := do
  let [name, dataType, card, indexed, unique, dataCopy] ← j.fields strict
    ["name", "data_type", "cardinality", "indexed", "unique", "data_copy"] | none
  pure {
    name := ← Json.required name identifier
    dataType := ← Json.required dataType primitiveType
    cardinality := ← Json.withDefault card .single cardinality
    indexed := ← Json.withDefault indexed false Json.boolean
    unique := ← Json.withDefault unique false Json.boolean
    dataCopy := ← Json.withDefault dataCopy none (Json.nullable Json.string) }

def nodeType (strict : Bool) (j : Json) : Option NodeType := do
  let [name, version, props, keys, names] ← j.fields strict
    ["name", "version", "properties", "key_properties", "name_properties"] | none
  pure {
    name := ← Json.required name identifier
    version := ← Json.required version SchemaVersion.decode
    properties := ← Json.required props (Json.list (propertyDef strict))
    keyProperties := ← Json.required keys (Json.list identifier)
    nameProperties := ← Json.withDefault names [] (Json.list identifier) }

/-- A rule. -/
def rule (strict : Bool) (j : Json) : Option Rule := do
  let [source, target, label, dir, mult, contains, deleteOther, prevent, isDefault, version,
      description] ← j.fields strict
    ["from", "to", "label", "direction", "multiplicity", "contains", "delete_other_v",
      "prevent_delete", "is_default", "version", "description"] | none
  pure {
    source := ← Json.required source identifier
    target := ← Json.required target identifier
    label := ← Json.required label identifier
    direction := ← Json.required dir direction
    multiplicity := ← Json.required mult multiplicity
    contains := ← Json.required contains flagDirection
    deleteOtherV := ← Json.required deleteOther flagDirection
    preventDelete := ← Json.required prevent flagDirection
    isDefault := ← Json.withDefault isDefault false Json.boolean
    version := ← Json.required version SchemaVersion.decode
    description := ← Json.withDefault description "" Json.string }

def catalogDocument (strict : Bool) (j : Json) : Option (List NodeType × List Rule) := do
  let [types, rules] ← j.fields strict ["node_types", "rules"] | none
  pure (← Json.withDefault types [] (Json.list (nodeType strict)),
    ← Json.withDefault rules [] (Json.list (rule strict)))

def relationshipData (j : Json) : Option RelationshipData := do
  let [key, value] ← j.fields false ["relationship-key", "relationship-value"] | none
  pure ⟨← Json.required key Json.string, ← Json.required value Json.string⟩

/-- A reference. -/
def relationshipRef (j : Json) : Option RelationshipRef := do
  let [relatedTo, link, label, data, names] ← j.fields false
    ["related-to", "related-link", "relationship-label", "relationship-data",
      "related-to-property"] | none
  pure {
    relatedTo := ← Json.required relatedTo identifier
    relatedLink := ← Json.withDefault link none (Json.nullable Json.string)
    label := ← Json.withDefault label none (Json.nullable Json.string)
    data := ← Json.withDefault data [] (Json.list relationshipData)
    relatedToProperty := ← Json.withDefault names [] (Json.list relationshipData) }

/-- An object with its children, nested at most `fuel` deep. -/
def schemaObjectWithin : Nat → Json → Option SchemaObject
  | 0, _ => none
  | fuel + 1, j => do
    let [nodeType, props, rv, rels, children] ← j.fields false
      ["node-type", "properties", "resource-version", "relationships", "children"] | none
    pure {
      nodeType := ← Json.required nodeType identifier
      properties := ← Json.withDefault props PropertyMap.empty propertyMap
      resourceVersion := ← Json.withDefault rv none (Json.nullable Json.string)
      relationships := ← Json.withDefault rels none (Json.nullable (Json.list relationshipRef))
      children := ← Json.withDefault children [] (Json.list (schemaObjectWithin fuel)) }

def schemaObject (j : Json) : Option SchemaObject := schemaObjectWithin j.depth j

def propertyKeyDef (j : Json) : Option PropertyKeyDef := do
  let [name, dataType, card] ← j.fields false ["name", "data_type", "cardinality"] | none
  pure ⟨← Json.required name Json.string, ← Json.required dataType primitiveType,
    ← Json.required card cardinality⟩

def indexDef (j : Json) : Option IndexDef := do
  let [name, keys, unique] ← j.fields false ["name", "keys", "unique"] | none
  pure ⟨← Json.required name Json.string, ← Json.required keys (Json.list Json.string),
    ← Json.required unique Json.boolean⟩

end Document
end InventoryGraph
