import InventoryGraph.Json.Basic
import InventoryGraph.Object.Basic
import InventoryGraph.Schema.NodeType
import InventoryGraph.Rule.Basic

namespace InventoryGraph

mutual
def PropertyValue.toJson : PropertyValue → Json
  | .str s => .str s
  | .int i => .int i
  | .float x => .float x
  | .bool b => .bool b
  | .list items => .arr (PropertyValue.itemsToJson items)

def PropertyValue.itemsToJson : List PropertyValue → List Json
  | [] => []
  | x :: xs => PropertyValue.toJson x :: PropertyValue.itemsToJson xs
end

def PropertyMap.toJson (m : PropertyMap) : Json :=
  .obj (m.toList.map fun e => (e.1, e.2.toJson))

def PropertyDef.toJson (p : PropertyDef) : Json :=
  .obj [("name", .str p.name.text), ("data_type", .str p.dataType.name),
    ("cardinality", .str p.cardinality.name), ("indexed", .bool p.indexed),
    ("unique", .bool p.unique), ("data_copy", Json.ofOption p.dataCopy)]

def Identifier.listToJson (xs : List Identifier) : Json := Json.ofStrings (xs.map (·.text))

def NodeType.toJson (t : NodeType) : Json :=
  .obj [("name", .str t.name.text), ("version", .str t.version.display),
    ("properties", .arr (t.properties.map PropertyDef.toJson)),
    ("key_properties", Identifier.listToJson t.keyProperties),
    ("name_properties", Identifier.listToJson t.nameProperties)]

def Rule.toJson (r : Rule) : Json :=
  .obj [("from", .str r.source.text), ("to", .str r.target.text), ("label", .str r.label.text),
    ("direction", .str r.direction.name), ("multiplicity", .str r.multiplicity.name),
    ("contains", .str r.contains.name), ("delete_other_v", .str r.deleteOtherV.name),
    ("prevent_delete", .str r.preventDelete.name), ("is_default", .bool r.isDefault),
    ("version", .str r.version.display), ("description", .str r.description)]

def RelationshipData.toJson (d : RelationshipData) : Json :=
  .obj [("relationship-key", .str d.key), ("relationship-value", .str d.value)]

def RelationshipRef.toJson (r : RelationshipRef) : Json :=
  .obj <| [("related-to", .str r.relatedTo.text)] ++
    (r.relatedLink.map fun l => [("related-link", Json.str l)]).getD [] ++
    (r.label.map fun l => [("relationship-label", Json.str l)]).getD [] ++
    (if r.data.isEmpty then []
      else [("relationship-data", .arr (r.data.map RelationshipData.toJson))]) ++
    (if r.relatedToProperty.isEmpty then []
      else [("related-to-property", .arr (r.relatedToProperty.map RelationshipData.toJson))])

mutual
def SchemaObject.toJson : SchemaObject → Json
  | ⟨t, props, rv, rels, children⟩ =>
    .obj <| [("node-type", .str t.text), ("properties", props.toJson)] ++
      (rv.map fun v => [("resource-version", Json.str v)]).getD [] ++
      (rels.map fun rs => [("relationships", Json.arr (rs.map RelationshipRef.toJson))]).getD [] ++
      (match children with
        | [] => []
        | c :: cs => [("children", .arr (SchemaObject.listToJson (c :: cs)))])

def SchemaObject.listToJson : List SchemaObject → List Json
  | [] => []
  | o :: os => SchemaObject.toJson o :: SchemaObject.listToJson os
end

end InventoryGraph
