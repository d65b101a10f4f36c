import InventoryGraph.Serializer.Write

/-!
Reading objects out of the graph. A vertex becomes an object of its node type holding the
declared properties it has (every non-bookkeeping property when its type is undeclared)
and its resource version. With relationships asked for, and not nodes only, its cousin
edges become references, sorted by target type, address and label. Below the requested
depth, its children become nested objects, sorted by node type and address; a child
already on the path from the root is referenced instead of nested, which stops cycles.

A reference carries the target's address, the key entries of its lineage root first (of
declared types only) and the target's name properties; it carries the edge's label from
the version the configuration names on.
-/
namespace InventoryGraph

/-- Whether one object or a list is asked for. -/
inductive Shape where
  | single
  | collection
  deriving DecidableEq, Repr

/-- Objects read out of the graph. -/
inductive Serialized where
  | single (o : SchemaObject)
  | collection (os : List SchemaObject)

namespace Serialized

def intoSingle? : Serialized → Option SchemaObject
  | .single o => some o
  | .collection _ => none

def toList : Serialized → List SchemaObject
  | .single o => [o]
  | .collection os => os

end Serialized

def compareOption (a b : Option String) : Ordering :=
  match a, b with
  | none, none => .eq
  | none, some _ => .lt
  | some _, none => .gt
  | some x, some y => compare x y

def Vertex.typeUriLe (a b : Vertex) : Bool :=
  (compare a.nodeType.text b.nodeType.text).then (compareOption a.uri? b.uri?) != .gt

def RelationshipRef.orderLe (a b : RelationshipRef) : Bool :=
  ((compare a.relatedTo.text b.relatedTo.text).then (compareOption a.relatedLink b.relatedLink)).then
    (compareOption a.label b.label) != .gt

namespace Serializer

def keyData (s : Serializer) (v : Vertex) : List RelationshipData :=
  match s.scope.nodeType? v.nodeType.text with
  | none => []
  | some t => t.keyProperties.filterMap fun k =>
    (v.property? k.text).map fun x => RelationshipData.new v.nodeType.text k.text x.display

def referenceTo (s : Serializer) (g : Graph) (t : Vertex) : RelationshipRef :=
  let names := match s.scope.nodeType? t.nodeType.text with
    | none => []
    | some nt => nt.nameProperties.filterMap fun n =>
      (t.property? n.text).map fun x => RelationshipData.new t.nodeType.text n.text x.display
  { relatedTo := t.nodeType, relatedLink := some t.uriOrUnknown,
    data := (g.lineage t).reverse.flatMap s.keyData, relatedToProperty := names }

/-- References for the vertex's cousin edges to live vertices, sorted. -/
def relationshipRefs (s : Serializer) (g : Graph) (v : Vertex) : List RelationshipRef :=
  let withLabel := s.config.serializer.edgeLabelSince ≤ s.scope.version
  let refs := (g.edgesOf v.id .both).filterMap fun e =>
    if e.edgeType ≠ .cousin then none
    else do
      let o ← e.otherEnd? v.id
      let t ← g.vertex? o
      let r := s.referenceTo g t
      pure (if withLabel then { r with label := some e.label.text } else r)
  refs.mergeSort RelationshipRef.orderLe

/-- The object of a vertex without its children. -/
def objectOf (s : Serializer) (g : Graph) (v : Vertex) (nodesOnly includeRel : Bool) :
    SchemaObject :=
  let properties := match s.scope.nodeType? v.nodeType.text with
    | some t => t.properties.foldl (fun m d => match v.property? d.name.text with
      | some x => m.insert d.name.text x
      | none => m) PropertyMap.empty
    | none => PropertyMap.ofList v.declaredProperties
  let refs := if includeRel && !nodesOnly then s.relationshipRefs g v else []
  { nodeType := v.nodeType, properties, resourceVersion := v.resourceVersion?,
    relationships := if refs.isEmpty then none else some refs }

/-- The object of a vertex with `depth` levels of children; `path` holds the vertices
    between the root and this one. -/
def serializeVertex (s : Serializer) (g : Graph) (nodesOnly includeRel : Bool) :
    Nat → List VertexId → Vertex → SchemaObject
  | 0, _, v => s.objectOf g v nodesOnly includeRel
  | d + 1, path, v =>
    let path := v.id :: path
    let o := s.objectOf g v nodesOnly includeRel
    let below := (g.treeChildren v.id).filterMap g.vertex?
    let seen := below.filter fun c => path.contains c.id
    let fresh := (below.filter fun c => !path.contains c.id).mergeSort Vertex.typeUriLe
    let o := if seen.isEmpty then o
      else { o with relationships := some (o.relationships.getD [] ++ seen.map (s.referenceTo g)) }
    { o with children := fresh.map (s.serializeVertex g nodesOnly includeRel d path) }

/-- Serializes vertices into one object or a list, expanding at most the configured
    maximum depth. -/
def fromGraph (s : Serializer) (g : Graph) (vs : List Vertex) (shape : Shape) (depth : Nat)
    (nodesOnly includeRel : Bool) : Outcome Serialized :=
  let depth := min depth s.config.serializer.maxDepth
  let one := s.serializeVertex g nodesOnly includeRel depth []
  match shape with
  | .single =>
    match vs with
    | [] => .error (.notFound "no vertex to serialize")
    | [v] => .ok (.single (one v))
    | _ => .error .containerMismatch
  | .collection => .ok (.collection (vs.map one))

end Serializer
end InventoryGraph
