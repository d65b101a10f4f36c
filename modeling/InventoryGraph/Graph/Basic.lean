import InventoryGraph.Graph.Element
import InventoryGraph.Graph.Clock

/-!
The graph store. Vertices and edges are kept in the order they were added, each under an
id that counts up from 1, so ascending ids are creation order. Beside them the store keeps
four indexes: the edges leaving and the edges entering each vertex, the vertices of each
node type, and the vertices holding each property value. An index slot is a set of ids,
kept ascending; a query reads slots and looks their ids up, so it answers in creation
order. A store also counts the ids it has handed out, and carries the process clock.

A write is a step of `GraphM`, a state of the store that a failure abandons: when a write
fails, the store is the one before it, but the clock is the one the failure reports.
-/
namespace InventoryGraph

namespace IdSet

def insert (i : Nat) : List Nat → List Nat
  | [] => [i]
  | j :: s => if i < j then i :: j :: s else if i = j then j :: s else j :: insert i s

def union (s t : List Nat) : List Nat := t.foldl (fun acc i => insert i acc) s

end IdSet

/-- Index slots: id sets under keys, an entry per key, where a key without an entry holds
    no id. -/
structure Slots (κ : Type) where
  entries : List (κ × List Nat) := []

namespace Slots

variable {κ : Type} [DecidableEq κ]

def contains (m : Slots κ) (k : κ) : Bool := m.entries.any (·.1 = k)

def get (m : Slots κ) (k : κ) : List Nat :=
  match m.entries.find? (·.1 = k) with
  | some e => e.2
  | none => []

def put (m : Slots κ) (k : κ) (s : List Nat) : Slots κ :=
  if m.contains k then ⟨m.entries.map fun e => if e.1 = k then (k, s) else e⟩
  else ⟨m.entries ++ [(k, s)]⟩

def erase (m : Slots κ) (k : κ) : Slots κ := ⟨m.entries.filter (·.1 ≠ k)⟩

def add (m : Slots κ) (k : κ) (i : Nat) : Slots κ := m.put k (IdSet.insert i (get m k))

def remove (m : Slots κ) (k : κ) (i : Nat) : Slots κ :=
  if m.contains k then m.put k ((get m k).erase i) else m

def removeDropEmpty (m : Slots κ) (k : κ) (i : Nat) : Slots κ :=
  if m.contains k then
    if ((get m k).erase i).isEmpty then m.erase k else m.put k ((get m k).erase i)
  else m

end Slots

/-- A graph store. -/
structure Graph where
  vertices : List Vertex
  edges : List Edge
  outEdges : Slots VertexId
  inEdges : Slots VertexId
  byType : Slots Identifier
  byProperty : Slots (String × PropertyValue)
  nextVertex : Nat
  nextEdge : Nat
  clock : Clock

/-- Writes on a graph store. A failure leaves the store as it was and reports the clock, which
    outlives it. -/
abbrev GraphM := StateT Graph (Except (GraphError × Clock))

namespace Graph

def startingAt (c : Clock) : Graph :=
  { vertices := [], edges := [], outEdges := {}, inEdges := {}, byType := {}, byProperty := {},
    nextVertex := 1, nextEdge := 1, clock := c }

def vertex? (g : Graph) (id : VertexId) : Option Vertex := g.vertices.find? (·.id == id)

def edge? (g : Graph) (id : EdgeId) : Option Edge := g.edges.find? (·.id == id)

def collect (g : Graph) (ids : List Nat) : List Vertex := ids.filterMap fun i => g.vertex? ⟨i⟩

def verticesOfType (g : Graph) (t : Identifier) : List Vertex := g.collect (Slots.get g.byType t)

def verticesWith (g : Graph) (k : String) (x : PropertyValue) : List Vertex :=
  g.collect (Slots.get g.byProperty (k, x))

def edgesOf (g : Graph) (v : VertexId) (d : EdgeDirection) : List Edge :=
  let out := match d with
    | .inbound => []
    | _ => Slots.get g.outEdges v
  let inn := match d with
    | .outbound => []
    | _ => Slots.get g.inEdges v
  (IdSet.union out inn).filterMap fun i => g.edge? ⟨i⟩

def vertexCount (g : Graph) : Nat := g.vertices.length

def edgeCount (g : Graph) : Nat := g.edges.length

def indexVertex (g : Graph) (v : Vertex) : Graph :=
  { g with
    byType := Slots.add g.byType v.nodeType v.id.index
    byProperty := v.properties.toList.foldl (fun m e => Slots.add m e v.id.index) g.byProperty }

def unindexVertex (g : Graph) (v : Vertex) : Graph :=
  { g with
    byType := Slots.remove g.byType v.nodeType v.id.index
    byProperty := v.properties.toList.foldl (fun m e => Slots.removeDropEmpty m e v.id.index)
      g.byProperty }

def addVertex (g : Graph) (t : Identifier) : Vertex × Graph :=
  let v := Vertex.new ⟨g.nextVertex⟩ t g.clock.read.1
  let g := g.indexVertex v
  (v, { g with
    vertices := g.vertices ++ [v]
    nextVertex := g.nextVertex + 1
    clock := g.clock.read.2 })

/-- Replaces a live vertex by a new state of it, which keeps the old creation instant; its
    node type may not change. -/
def updateVertex (g : Graph) (v : Vertex) : Outcome Graph :=
  match g.vertex? v.id with
  | none => .error (.notFound v.id.handle)
  | some old =>
    if old.nodeType = v.nodeType then
      let v := { v with createdAt := old.createdAt }
      let g := (g.unindexVertex old).indexVertex v
      .ok { g with vertices := g.vertices.map fun w => if w.id = v.id then v else w }
    else
      .error (.invalidData ("vertex " ++ v.id.handle ++ " cannot change node type from " ++
        old.nodeType.text ++ " to " ++ v.nodeType.text))

def removeEdge (g : Graph) (id : EdgeId) : Option Edge × Graph :=
  match g.edge? id with
  | none => (none, g)
  | some e =>
    (some e, { g with
      edges := g.edges.filter (·.id != id)
      outEdges := Slots.remove g.outEdges e.outV id.index
      inEdges := Slots.remove g.inEdges e.inV id.index })

def removeEdges (g : Graph) : List EdgeId → List Edge × Graph
  | [] => ([], g)
  | i :: is =>
    let (e, g) := g.removeEdge i
    let (es, g) := g.removeEdges is
    (e.toList ++ es, g)

def removeVertex (g : Graph) (id : VertexId) : Outcome (List Edge × Graph) :=
  match g.vertex? id with
  | none => .error (.notFound id.handle)
  | some v =>
    let g := { g with vertices := g.vertices.filter (·.id != id) }.unindexVertex v
    let (removed, g) := g.removeEdges ((g.edgesOf id .both).map (·.id))
    .ok (removed, { g with outEdges := g.outEdges.erase id, inEdges := g.inEdges.erase id })

/-- Adds an edge under the next id; both ends must be live, the out end checked first. -/
def addEdge (g : Graph) (e : Edge) : Outcome (Edge × Graph) :=
  if (g.vertex? e.outV).isNone then .error (.notFound e.outV.handle)
  else if (g.vertex? e.inV).isNone then .error (.notFound e.inV.handle)
  else
    let e := { e with id := ⟨g.nextEdge⟩ }
    .ok (e, { g with
      edges := g.edges ++ [e]
      outEdges := Slots.add g.outEdges e.outV e.id.index
      inEdges := Slots.add g.inEdges e.inV e.id.index
      nextEdge := g.nextEdge + 1 })

end Graph

namespace GraphM

def ofStore {α : Type} (f : Graph → Outcome (α × Graph)) : GraphM α :=
  fun g => (f g).mapError (·, g.clock)

def fail {α : Type} (e : GraphError) : GraphM α := ofStore fun _ => .error e

def lift {α : Type} (r : Outcome α) : GraphM α := ofStore fun g => r.map (·, g)

def read : GraphM Graph := get

def addVertex (t : Identifier) : GraphM Vertex := modifyGet fun g => g.addVertex t

def updateVertex (v : Vertex) : GraphM Unit := ofStore fun g => (g.updateVertex v).map ((), ·)

def removeVertex (id : VertexId) : GraphM (List Edge) := ofStore (·.removeVertex id)

/-- Removes, one after another, each vertex of the list that is still live, with its edges. -/
def removeLive (ds : List Vertex) : GraphM Unit := do
  for d in ds do
    if ((← get).vertex? d.id).isSome then
      let _ ← removeVertex d.id

def addEdge (e : Edge) : GraphM Edge := ofStore (·.addEdge e)

def removeEdge (id : EdgeId) : GraphM (Option Edge) := modifyGet fun g => g.removeEdge id

def nowMillis : GraphM Int :=
  modifyGet fun g => (g.clock.read.1 / 1000, { g with clock := g.clock.read.2 })

def nextSyntheticId : GraphM String :=
  modifyGet fun g => (g.clock.draw.1, { g with clock := g.clock.draw.2 })

def nextResourceVersion : GraphM String :=
  modifyGet fun g => (toString g.clock.issue.1, { g with clock := g.clock.issue.2 })

end GraphM
end InventoryGraph
