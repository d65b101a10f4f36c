import InventoryGraph.Graph.Basic
import InventoryGraph.Catalog.Resolve
import InventoryGraph.Text.PercentEncoding

/-!
Addresses of vertices. A vertex's segment is `/` and its node type, then `/` and the
percent-encoded text of each key property in key order; a vertex of an undeclared type,
or missing a key, or with a list as a key, has none. Its address is the segments of its
containment chain, root first, where the chain stops at the first ancestor with a known
cached address and takes that address instead of the ancestor's segments. A cycle in
the chain, a missing segment or a missing parent makes the address unknown.

Containment is read off tree edges: a vertex's parent is the containing end of its first
tree edge in which it is contained, and its children are the contained ends of its tree
edges in which it contains, in edge order.
-/
namespace InventoryGraph

def unknownUri : String := "/unknown-uri"

def Vertex.uriOrUnknown (v : Vertex) : String := v.uri?.getD unknownUri

namespace Graph

/-- The containing end of the vertex's first tree edge in which it is contained. -/
def treeParent? (g : Graph) (v : VertexId) : Option VertexId :=
  (g.edgesOf v .both).findSome? fun e =>
    if e.edgeType = .tree ∧ e.childEnd? = some v then e.parentEnd? else none

def treeChildren (g : Graph) (v : VertexId) : List VertexId :=
  (g.edgesOf v .both).filterMap fun e =>
    if e.edgeType = .tree ∧ e.parentEnd? = some v then e.childEnd? else none

end Graph

namespace Scope

def segment? (s : Scope) (v : Vertex) : Option String := do
  let t ← s.nodeType? v.nodeType.text
  let parts ← t.keyProperties.mapM fun k => do
    let x ← v.property? k.text
    match x with
    | .list _ => none
    | _ => some ("/" ++ Text.percentEncode x.display)
  pure ("/" ++ v.nodeType.text ++ String.join parts)

/-- Walks up the containment chain from `v` gathering segments, nearest first; `seen`
    holds the ids walked so far. -/
def climb (s : Scope) (g : Graph) : Nat → List VertexId → List String → Vertex → String
  | 0, _, _, _ => unknownUri
  | fuel + 1, seen, acc, v =>
    if seen.contains v.id then unknownUri
    else
      match s.segment? v with
      | none => unknownUri
      | some seg =>
        let acc := seg :: acc
        match g.treeParent? v.id with
        | none => String.join acc
        | some p =>
          match g.vertex? p with
          | none => unknownUri
          | some pv =>
            match pv.uri? with
            | some cached =>
              if cached ≠ unknownUri then String.join (cached :: acc)
              else climb s g fuel (v.id :: seen) acc pv
            | none => climb s g fuel (v.id :: seen) acc pv

def computeUri (s : Scope) (g : Graph) (v : Vertex) : String :=
  s.climb g (g.vertices.length + 2) [] [] v

/-- Recomputes the cached addresses of the vertices in the queue and of everything they
    contain, breadth first, and answers the new address of `root` if it is known. -/
def refreshQueue (s : Scope) (root : VertexId) :
    Nat → List VertexId → List VertexId → Option String → GraphM (Option String)
  | 0, _, _, own => pure own
  | _ + 1, [], _, own => pure own
  | fuel + 1, id :: queue, seen, own => do
    if seen.contains id then s.refreshQueue root fuel queue seen own
    else
      let g ← get
      match g.vertex? id with
      | none => GraphM.fail (.notFound id.handle)
      | some v =>
        let v := v.remove Bookkeeping.uri
        GraphM.updateVertex v
        let uri := s.computeUri (← get) v
        let known := if uri = unknownUri then none else some uri
        if let some u := known then GraphM.updateVertex (v.set Bookkeeping.uri (.str u))
        let own := if id = root then known else own
        let children := (← get).treeChildren id
        s.refreshQueue root fuel (queue ++ children) (id :: seen) own

/-- Recomputes the cached address of a vertex and of everything below it, answering the
    vertex's new address if it is known. -/
def refreshUri (s : Scope) (root : VertexId) : GraphM (Option String) := do
  let g ← get
  s.refreshQueue root (g.vertices.length + g.edges.length + 2) [root] [] none

def normalizeUri (u : String) : String :=
  String.ofList (u.toList.reverse.dropWhile (· = '/')).reverse

def findByUri (g : Graph) (u : String) : Outcome (Option Vertex) :=
  let n := normalizeUri u
  if n.isEmpty || n == unknownUri then .ok none
  else
    match g.verticesWith Bookkeeping.uri (.str n) with
    | [] => .ok none
    | [v] => .ok (some v)
    | vs => .error (.invalidData (toString vs.length ++ " vertices share the uri " ++ n))

end Scope
end InventoryGraph
