import InventoryGraph.Graph.Basic

/-!
Cascading deletes. Deleting a vertex takes along, breadth first, every vertex that an edge
flagged to cascade from it names, and so on from those; the plan lists them leaves first
and the root last. A cousin edge flagged to prevent the deletion of a planned vertex
blocks the plan when its other end is live and not planned itself; the plan is refused
with the node types of those ends.
-/
namespace InventoryGraph
namespace Graph

/-- One edge of the vertex `x` being walked: the vertex its delete flag names from `x`, when
    not seen yet, is marked seen and, if it exists, queued. -/
def cascadeVisit (g : Graph) (x : VertexId) (acc : List Vertex × List VertexId) (e : Edge) :
    List Vertex × List VertexId :=
  match e.cascadesFrom? x with
  | none => acc
  | some next =>
    if acc.2.contains next then acc
    else
      match g.vertex? next with
      | some w => (acc.1 ++ [w], next :: acc.2)
      | none => (acc.1, next :: acc.2)

/-- The breadth-first walk of cascading deletes: `visited` holds every id queued so far,
    `order` the vertices taken, latest first. -/
def cascadeWalk (g : Graph) : Nat → List Vertex → List VertexId → List Vertex → List Vertex
  | 0, _, _, order => order
  | _ + 1, [], _, order => order
  | fuel + 1, v :: queue, visited, order =>
    let step := (g.edgesOf v.id .both).foldl (g.cascadeVisit v.id) (queue, visited)
    g.cascadeWalk fuel step.1 step.2 (v :: order)

/-- The vertices a delete of `root` takes along, leaves first and the root last. -/
def collectCascade (g : Graph) (root : Vertex) : List Vertex :=
  g.cascadeWalk (g.vertices.length + 2) [root] [root.id] []

/-- The node types, sorted and each once, of the live vertices that prevent deleting the
    planned vertices without being planned themselves. -/
def blockingTypes (g : Graph) (planned : List Vertex) : List String :=
  let ids := planned.map (·.id)
  GraphError.sortedUnique <| planned.flatMap fun v =>
    (g.edgesOf v.id .both).filterMap fun e =>
      if e.edgeType ≠ .cousin then none
      else
        match e.blockedBy? v.id with
        | none => none
        | some other =>
          if ids.contains other then none
          else (g.vertex? other).map (·.nodeType.text)

def planCascade (g : Graph) (root : Vertex) : Outcome (List Vertex) :=
  let planned := g.collectCascade root
  match g.blockingTypes planned with
  | [] => .ok planned
  | types => .error (GraphError.blocked types)

end Graph
end InventoryGraph
