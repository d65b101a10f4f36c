import InventoryGraph.Serializer.DataCopy
import InventoryGraph.Graph.RuleEdge
import InventoryGraph.Graph.Cascade

/-!
Writing objects into the graph. An object is checked against its declaration first: its
properties in name order (each declared, each value acceptable), then its keys in key order
(each present). It is then written onto the vertex given, or onto a new vertex unless a
vertex with the same keys already stands where it would go: among the parent's children,
or among the vertices without a parent. Declared properties the object omits are cleared.
A child is placed under its parent by a tree edge; cached addresses are recomputed when the
vertex is new, was just placed, changed a key or had none. Side effects run next, then the
object's relationships (when it lists them) become exactly the vertex's cousin edges, then
its children are written beneath it, and last the vertex is stamped.

Relationship targets are found by address, or by key data: the target's first key entry
picks candidates, and every entry must hold on the candidate or its ancestor of that type.
-/
namespace InventoryGraph

namespace Graph

/-- The vertex and its containment ancestors, nearest first, stopping at a cycle or a
    missing vertex. -/
def lineageFrom (g : Graph) : Nat → List VertexId → Vertex → List Vertex
  | 0, _, v => [v]
  | fuel + 1, seen, v =>
    match g.treeParent? v.id with
    | none => [v]
    | some p =>
      if seen.contains p then [v]
      else
        match g.vertex? p with
        | none => [v]
        | some pv => v :: g.lineageFrom fuel (p :: seen) pv

def lineage (g : Graph) (v : Vertex) : List Vertex := g.lineageFrom (g.vertices.length + 1) [v.id] v

end Graph

namespace Serializer

def validateObject (s : Serializer) (o : SchemaObject) : Outcome NodeType := do
  let t ← s.nodeType o.nodeType
  for (name, x) in o.properties.toList do
    match t.property? name with
    | none => throw (.validation (.unexpectedProperty name))
    | some d => Outcome.ofValidation (d.validate x)
  for k in t.keyProperties do
    if !o.properties.contains k.text then throw (.validation (.requiredPropertyNotFound k.text))
  pure t

def sameKeys (t : NodeType) (v : Vertex) (o : SchemaObject) : Bool :=
  t.keyProperties.all fun k => v.property? k.text == o.properties.get? k.text

/-- The child of `parent` that the object would be written over. -/
def findChild (s : Serializer) (g : Graph) (parent : Vertex) (o : SchemaObject) :
    Outcome (Option Vertex) := do
  let t ← s.nodeType o.nodeType
  pure <| (g.treeChildren parent.id).findSome? fun id =>
    (g.vertex? id).filter fun c => c.nodeType == o.nodeType && sameKeys t c o

/-- The vertex the object would be written over: a child of the parent with its keys, or
    a parentless vertex with its keys found through its first key. -/
def findExisting (s : Serializer) (g : Graph) (parent : Option Vertex) (o : SchemaObject) :
    Outcome (Option Vertex) := do
  match parent with
  | some p => s.findChild g p o
  | none =>
    let t ← s.nodeType o.nodeType
    match t.keyProperties.head? with
    | none => pure none
    | some k =>
      match o.properties.get? k.text with
      | none => pure none
      | some x =>
        pure <| (g.verticesWith k.text x).find? fun c =>
          c.nodeType == o.nodeType && sameKeys t c o && (g.treeParent? c.id).isNone

/-- Writes the declared properties of the object onto the vertex, clearing those it omits. -/
def applyProperties (t : NodeType) (v : Vertex) (props : PropertyMap) : Vertex :=
  t.properties.foldl (fun v d => match props.get? d.name.text with
    | some x => v.set d.name.text x
    | none => v.remove d.name.text) v

/-- Places a vertex under a parent unless it is already there, answering whether an edge
    was added; a vertex under another parent is refused. -/
def ensureTreeEdge (s : Serializer) (parent : Vertex) (child : VertexId) : GraphM Bool := do
  let g ← get
  match g.treeParent? child with
  | some current =>
    if current = parent.id then pure false
    else GraphM.fail (.invalidData ("vertex " ++ child.handle ++ " already belongs to " ++
      current.handle))
  | none =>
    match g.vertex? child with
    | none => GraphM.fail (.notFound child.handle)
    | some c =>
      let _ ← s.scope.addTreeEdge parent c
      pure true

def matchesData (g : Graph) (candidate : Vertex) (r : RelationshipRef) : Bool :=
  let line := g.lineage candidate
  r.data.all fun d =>
    match d.splitKey? with
    | none => false
    | some (t, k) => line.any fun v =>
      v.nodeType.text == t && (v.property? k).map PropertyValue.display == some d.value

/-- The target of a reference found by its key data, if exactly one vertex matches. -/
def findByData (s : Serializer) (g : Graph) (r : RelationshipRef) : Outcome (Option Vertex) :=
  match s.scope.nodeType? r.relatedTo.text with
  | none => .ok none
  | some t =>
    match r.probe t.keyProperties with
    | none => .ok none
    | some (k, x) =>
      let found := (g.verticesWith k (.str x)).filter fun c =>
        c.nodeType == r.relatedTo && matchesData g c r
      match found with
      | [] => .ok none
      | [v] => .ok (some v)
      | _ => .error (.invalidRelationship ("Node of type " ++ r.relatedTo.text ++ ". " ++
          toString found.length ++ " objects match " ++ r.describe))

/-- The vertex a reference points at, which must be of the named type. -/
def locateTarget (s : Serializer) (g : Graph) (r : RelationshipRef) : Outcome Vertex := do
  let found ← match r.relatedLink with
    | some link => Scope.findByUri g link
    | none => s.findByData g r
  match found with
  | none => throw (.invalidRelationship ("Node of type " ++ r.relatedTo.text ++
      ". Could not find object at: " ++ r.describe))
  | some v =>
    if v.nodeType ≠ r.relatedTo then
      throw (.invalidRelationship ("Object at " ++ r.describe ++ " is a " ++ v.nodeType.text ++
        ", not a " ++ r.relatedTo.text))
    else pure v

/-- Makes the vertex's cousin edges exactly the listed relationships: edges already there
    are kept, unlisted ones removed first, and missing ones added. -/
def reconcile (s : Serializer) (v : Vertex) (rels : List RelationshipRef) : GraphM Unit := do
  let g ← get
  let resolved ← GraphM.lift <| rels.mapM fun r => do
    let target ← s.locateTarget g r
    let rule ← s.scope.cousinRule v target r.label
    pure (r, target, rule, g.edgeBetween? .cousin v target (some rule.label.text))
  let keep := resolved.filterMap fun x => x.2.2.2.map (·.id)
  for e in g.edgesOf v.id .both do
    if e.edgeType = .cousin && !keep.contains e.id then
      let _ ← GraphM.removeEdge e.id
  for (r, target, rule, found) in resolved do
    if found.isNone then
      let g ← get
      if (g.edgeBetween? .cousin v target (some rule.label.text)).isNone then
        let _ ← Scope.addEdgeForRule rule v target r.metadata

def stamp (s : Serializer) (v : Vertex) (isNew : Bool) (now : Int) (sid : Option String)
    (version : String) : Vertex :=
  let v := sid.elim v fun i => v.set Bookkeeping.syntheticId (.str i)
  let v := if isNew then
    (v.set Bookkeeping.createdTs (.int now)).set Bookkeeping.sourceOfTruth (.str s.sourceOfTruth)
    else v
  ((v.set Bookkeeping.lastModTs (.int now)).set Bookkeeping.lastModSourceOfTruth
    (.str s.sourceOfTruth)).set Bookkeeping.resourceVersion (.str version)

def freshSyntheticId (v : Vertex) (isNew : Bool) : GraphM (Option String) :=
  if isNew || (v.property? Bookkeeping.syntheticId).isNone then some <$> GraphM.nextSyntheticId
  else pure none

/-- Stamps a written vertex. It reads the time, draws a synthetic id when the vertex is new or
    lacks one, and issues a resource version, in that order. -/
def touch (s : Serializer) (v : Vertex) (isNew : Bool) : GraphM Vertex := do
  let now ← GraphM.nowMillis
  let sid ← freshSyntheticId v isNew
  let version ← GraphM.nextResourceVersion
  pure (s.stamp v isNew now sid version)

/-- The vertex an object is written onto: the one given, which must be live and of the
    object's type, or a new one unless the object already exists where it would go. -/
def target (s : Serializer) (parent : Option Vertex) (o : SchemaObject)
    (existing : Option Vertex) : GraphM (Vertex × Bool) := do
  let g ← get
  match existing with
  | some v =>
    if v.nodeType ≠ o.nodeType then
      GraphM.fail (.invalidData ("cannot write a " ++ o.nodeType.text ++ " object onto a " ++
        v.nodeType.text ++ " vertex"))
    else
      match g.vertex? v.id with
      | none => GraphM.fail (.notFound v.id.handle)
      | some live => pure (live, false)
  | none =>
    match ← GraphM.lift (s.findExisting g parent o) with
    | some found =>
      GraphM.fail (.alreadyExists (o.nodeType.text ++ " already exists at " ++
        found.uriOrUnknown))
    | none => pure (← GraphM.addVertex o.nodeType, true)

/-- Writes the object's properties onto its vertex and places it under the parent,
    recomputing cached addresses when needed; answers the vertex as it now stands. -/
def store (s : Serializer) (t : NodeType) (parent : Option Vertex) (o : SchemaObject)
    (v : Vertex) (isNew : Bool) : GraphM Vertex := do
  let before := t.keyProperties.map fun k => v.property? k.text
  let v := applyProperties t v o.properties
  let keysChanged := (t.keyProperties.zip before).any fun (k, b) => v.property? k.text != b
  let uriMissing := v.uri?.isNone
  GraphM.updateVertex v
  let edgeAdded ← match parent with
    | some p => s.ensureTreeEdge p v.id
    | none => pure false
  if isNew || edgeAdded || keysChanged || uriMissing then
    let _ ← s.scope.refreshUri v.id
  match (← get).vertex? v.id with
  | none => GraphM.fail (.notFound v.id.handle)
  | some v => pure v

/-- The stages of a write before its relationships: the check against the declaration, the
    choice of vertex, storing and the side effects. Answers the object as the side effects
    leave it, the vertex as they leave it, and whether the vertex is new. -/
def prepare (s : Serializer) (parent : Option Vertex) (o : SchemaObject)
    (existing : Option Vertex) : GraphM (SchemaObject × Vertex × Bool) := do
  let t ← GraphM.lift (s.validateObject o)
  let (v, isNew) ← s.target parent o existing
  let v ← s.store t parent o v isNew
  let (working, v) ← GraphM.lift (s.runSideEffects (← get) t o v)
  pure (working, v, isNew)

mutual
/-- Writes an object, under a parent if one is given, onto the vertex given or the one it
    finds or makes; answers the written vertex. -/
def write (s : Serializer) (parent : Option Vertex) (o : SchemaObject) (existing : Option Vertex) :
    GraphM Vertex :=
  match o with
  | ⟨_, _, _, _, children⟩ => do
    let (working, v, isNew) ← s.prepare parent o existing
    if let some rels := working.relationships then s.reconcile v rels
    s.writeChildren v children
    let v ← s.touch v isNew
    GraphM.updateVertex v
    pure v

def writeChildren (s : Serializer) (parent : Vertex) : List SchemaObject → GraphM Unit
  | [] => pure ()
  | c :: cs => do
    let found ← GraphM.lift (s.findChild (← get) parent c)
    let _ ← s.write (some parent) c found
    s.writeChildren parent cs
end

/-- The vertices a delete removes: the cascade, and the live vertex behind it unless the
    cascade lists it. -/
def doomed (cascade : List Vertex) (live : Vertex) : List Vertex :=
  if cascade.any (·.id == live.id) then cascade else cascade ++ [live]

/-- Deletes a vertex with a precomputed cascade. The vertex must be live, quote its current
    resource version when checking is enforced, and not be blocked; then the vertex and the
    cascade go, those already gone skipped. -/
def delete (s : Serializer) (v : Vertex) (cascade : List Vertex) (supplied : Option String)
    (enforce : Bool) : GraphM Unit := do
  let uri := v.uriOrUnknown
  let g ← get
  match g.vertex? v.id with
  | none => GraphM.fail (.notFound uri)
  | some live =>
    if enforce then
      GraphM.lift (s.config.resourceVersion.verify .delete supplied live.resourceVersion? uri)
    match g.blockingTypes (doomed cascade live) with
    | [] => GraphM.removeLive (doomed cascade live)
    | types => GraphM.fail (GraphError.blocked types)

def deleteEdge (s : Serializer) (v : Vertex) (r : RelationshipRef) : GraphM (Option Edge) := do
  let g ← get
  let target ← GraphM.lift (s.locateTarget g r)
  let rule ← GraphM.lift (s.scope.cousinRule v target r.label)
  match g.edgeBetween? .cousin v target (some rule.label.text) with
  | some e =>
    let _ ← GraphM.removeEdge e.id
    pure (some e)
  | none => pure none

end Serializer
end InventoryGraph
