import InventoryGraph.Property.Map
import InventoryGraph.Rule.Basic

/-!
Vertices and edges of an inventory graph. A vertex has an id, a node type, the instant
the store created it, and a property map that always names its node type; eight property
names are bookkeeping that the store and the serializer maintain. An edge runs from its out vertex to its in vertex under a
label, is a tree or a cousin edge, and carries the three flags of the rule that made it:
which end contains the other, which end's deletion takes the other along, and which end's
deletion the other end prevents.
-/
namespace InventoryGraph

/-- A vertex id: the `n`-th vertex added to a store has id `n`, counting from 1. -/
structure VertexId where
  index : Nat
  deriving DecidableEq, Hashable, Repr, Inhabited

def VertexId.handle (v : VertexId) : String := "v" ++ toString v.index

instance : ToString VertexId := ⟨VertexId.handle⟩

/-- An edge id: the `n`-th edge added to a store has id `n`, counting from 1. -/
structure EdgeId where
  index : Nat
  deriving DecidableEq, Repr, Inhabited

def EdgeId.handle (e : EdgeId) : String := "e" ++ toString e.index

instance : ToString EdgeId := ⟨EdgeId.handle⟩

/-! Names of the properties that the store and the serializer maintain. -/
namespace Bookkeeping

def nodeType : String := "node-type"
def syntheticId : String := "synthetic-id"
def createdTs : String := "created-ts"
def lastModTs : String := "last-mod-ts"
def sourceOfTruth : String := "source-of-truth"
def lastModSourceOfTruth : String := "last-mod-source-of-truth"
def resourceVersion : String := "resource-version"
def uri : String := "uri"

def names : List String :=
  [nodeType, syntheticId, createdTs, lastModTs, sourceOfTruth, lastModSourceOfTruth,
    resourceVersion, uri]

def contains (k : String) : Bool := names.contains k

end Bookkeeping

/-- A vertex of the graph. -/
structure Vertex where
  id : VertexId
  nodeType : Identifier
  createdAt : Int
  properties : PropertyMap
  deriving DecidableEq

namespace Vertex

def new (id : VertexId) (t : Identifier) (now : Int) : Vertex :=
  ⟨id, t, now, PropertyMap.empty.insert Bookkeeping.nodeType (.str t.text)⟩

def property? (v : Vertex) (k : String) : Option PropertyValue := v.properties.get? k

def str? (v : Vertex) (k : String) : Option String := (v.property? k).bind PropertyValue.str?

def set (v : Vertex) (k : String) (x : PropertyValue) : Vertex :=
  { v with properties := v.properties.insert k x }

def remove (v : Vertex) (k : String) : Vertex :=
  { v with properties := v.properties.erase k }

def uri? (v : Vertex) : Option String := v.str? Bookkeeping.uri

def resourceVersion? (v : Vertex) : Option String := v.str? Bookkeeping.resourceVersion

def declaredProperties (v : Vertex) : List (String × PropertyValue) :=
  v.properties.toList.filter fun e => !Bookkeeping.contains e.1

end Vertex

/-- Which edges of a vertex are meant: those leaving it, those entering it, or both. -/
inductive EdgeDirection where
  | outbound
  | inbound
  | both
  deriving DecidableEq, Repr

/-- An edge of the graph, from `outV` to `inV`. -/
structure Edge where
  id : EdgeId
  outV : VertexId
  inV : VertexId
  label : Identifier
  edgeType : EdgeType
  contains : FlagDirection
  deleteOtherV : FlagDirection
  preventDelete : FlagDirection
  properties : PropertyMap
  deriving DecidableEq

namespace Edge

def touches (e : Edge) (v : VertexId) : Bool := e.outV == v || e.inV == v

/-- The end that is not `v`, if `v` is an end; a loop's other end is `v` itself. -/
def otherEnd? (e : Edge) (v : VertexId) : Option VertexId :=
  if e.outV = v then some e.inV else if e.inV = v then some e.outV else none

def parentEnd? (e : Edge) : Option VertexId :=
  match e.contains with
  | .out => some e.outV
  | .into => some e.inV
  | .none => none

def childEnd? (e : Edge) : Option VertexId :=
  match e.contains with
  | .out => some e.inV
  | .into => some e.outV
  | .none => none

def flaggedFrom? (e : Edge) (f : FlagDirection) (v : VertexId) : Option VertexId :=
  match f with
  | .out => if e.outV = v then some e.inV else none
  | .into => if e.inV = v then some e.outV else none
  | .none => none

def cascadesFrom? (e : Edge) (v : VertexId) : Option VertexId := e.flaggedFrom? e.deleteOtherV v

def blockedBy? (e : Edge) (v : VertexId) : Option VertexId := e.flaggedFrom? e.preventDelete v

def runs (e : Edge) (v : VertexId) : EdgeDirection → Bool
  | .outbound => e.outV == v
  | .inbound => e.inV == v
  | .both => e.outV == v || e.inV == v

end Edge
end InventoryGraph
