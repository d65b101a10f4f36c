import InventoryGraph.Service.Session.Basic

/-!
Operations of a session. A writing operation runs on the committed graph and, when it
succeeds, its graph becomes the committed one; a failing one leaves the session's graph and
its counters as they were, and only the clock goes on. A reading operation reads the committed
graph. Each answer is an object, to which the session adds the committed graph's vertex
and edge counts.
-/
namespace InventoryGraph
namespace Session

abbrev Effect := Json × Option Graph

def reads (j : Json) : Reply Effect := .ok (j, none)

/-- Runs a write on the committed graph and answers its result. When it fails, the answer is
    its error and the graph to commit is the committed one on the clock the failure reports. -/
def run {α : Type} (s : Session) (m : GraphM α) (answer : α → Json) : Reply Effect :=
  match m.run s.graph with
  | .ok (a, g) => .ok (answer a, some g)
  | .error (e, c) => .ok ((Refusal.failed e).toJson, some { s.graph with clock := c })

def handles (vs : List Vertex) : Json := Json.ofStrings (vs.map (·.id.handle))

def handle? (v : Option VertexId) : Json := Json.ofOption (v.map (·.handle))

def edgeView? (e : Option Edge) : Json := (e.map Edge.view).getD .null

def propertiesAt (j : Json) (k : String) : Reply PropertyMap :=
  match Request.present? j k with
  | none => .ok PropertyMap.empty
  | some m => Reply.decoded (Document.propertyMap m)

def flagAt (j : Json) (k : String) : Reply FlagDirection := do
  match ← Request.string? j k with
  | none => pure .none
  | some f =>
    match Document.flagDirection (.str f) with
    | some d => pure d
    | none => Reply.malformed ("bad flag " ++ f)

def shapeAt (j : Json) : Reply Shape := do
  match ← Request.string? j "shape" with
  | none | some "single" => pure .single
  | some "collection" => pure .collection
  | some x => Reply.malformed ("bad shape " ++ x)

def formatOptions (s : Session) (j : Json) : Reply FormatOptions := do
  let configured ← Request.bool j "configured" false
  let depth ← Request.natural j "depth" 1
  let nodesOnly ← Request.bool j "nodes_only" false
  let includeUrl ← Request.bool j "include_url" false
  if configured then pure (FormatOptions.ofConfig s.config.serializer)
  else pure ⟨depth, nodesOnly, includeUrl⟩

/-- Serializes vertices, answered through the accessor the request names. -/
def serialize (s : Session) (op : Json) : Reply Effect := do
  let vs ← s.verticesAt op "vertices"
  let shape ← shapeAt op
  let depth ← Request.natural op "depth" 0
  let ser ← s.serializer op
  let nodesOnly ← Request.bool op "nodes_only" false
  let includeRel ← Request.bool op "include_relationships" false
  let r ← Reply.ofOutcome (ser.fromGraph s.graph vs shape depth nodesOnly includeRel)
  match ← Request.string? op "accessor", r with
  | none, .single o => reads (.obj [("single", o.toJson)])
  | none, .collection os => reads (.obj [("collection", .arr (os.map SchemaObject.toJson))])
  | some "into_single", r => reads (.obj [("into_single", (r.intoSingle?.map SchemaObject.toJson).getD .null)])
  | some "into_vec", r => reads (.obj [("into_vec", .arr (r.toList.map SchemaObject.toJson))])
  | some x, _ => Reply.malformed ("bad accessor " ++ x)

def deleteVertex (s : Session) (op : Json) : Reply Effect := do
  let v ← s.vertexAt op "vertex"
  let plan ← match Request.present? op "plan" with
    | some _ => s.verticesAt op "plan"
    | none => Reply.ofOutcome (s.graph.planCascade v)
  let supplied ← s.versionInput (op.get? "resource_version")
  let ser ← s.serializer op
  let enforce ← Request.bool op "enforce_version" true
  s.run (ser.delete v plan supplied enforce) fun () => .obj [("plan", handles plan)]

def addRawVertex (s : Session) (op : Json) : Reply Effect := do
  let t ← Builder.name op "node_type"
  let props ← propertiesAt op "properties"
  let (v, g) := s.graph.addVertex t
  let v := props.toList.foldl (fun v (k, x) => v.set k x) v
  let g ← Reply.ofOutcome (g.updateVertex v)
  pure (.obj [("vertex", v.view)], some g)

/-- Changes a vertex straight in the store. -/
def updateRaw (s : Session) (op : Json) : Reply Effect := do
  let v ← s.vertexAt op "vertex"
  let t ← Service.name? op "node_type"
  let set ← propertiesAt op "set"
  let remove := Request.strings op "remove"
  let v := match t with
    | some t => { v with nodeType := t }
    | none => v
  let v := set.toList.foldl (fun v (k, x) => v.set k x) v
  let v := remove.foldl Vertex.remove v
  let g ← Reply.ofOutcome (s.graph.updateVertex v)
  pure (.obj [("vertex", v.view)], some g)

/-- Adds an edge straight to the store. -/
def addRawEdge (s : Session) (op : Json) : Reply Effect := do
  let out ← s.vertexAt op "out"
  let inn ← s.vertexAt op "in"
  let label ← Builder.name op "label"
  let edgeType ← match ← Request.string? op "edge_type" with
    | some t => Service.edgeTypeOf t
    | none => pure .cousin
  let contains ← flagAt op "contains"
  let deleteOtherV ← flagAt op "delete_other_v"
  let preventDelete ← flagAt op "prevent_delete"
  let properties ← propertiesAt op "properties"
  let (e, g) ← Reply.ofOutcome (s.graph.addEdge
    ⟨⟨0⟩, out.id, inn.id, label, edgeType, contains, deleteOtherV, preventDelete, properties⟩)
  pure (.obj [("edge", e.view)], some g)

def edgeInfo (s : Session) (op : Json) : Reply Effect := do
  let id ← s.edgeAt op "edge"
  match s.graph.edge? id with
  | none => Reply.malformed "edge is gone"
  | some e =>
    let v ← s.vertexAt op "vertex"
    reads (.obj [("touches", .bool (e.touches v.id)), ("other_end", handle? (e.otherEnd? v.id)),
      ("parent_end", handle? e.parentEnd?), ("child_end", handle? e.childEnd?),
      ("cascades_from", handle? (e.cascadesFrom? v.id)), ("blocked_by", handle? (e.blockedBy? v.id))])

/-- Answers one operation of the session. -/
def apply (s : Session) (op : Json) : Reply Effect := do
  let name ← Request.string op "op"
  match name with
  | "write" => do
    let o ← Service.objectOf op
    let existing ← s.vertexAt? op "existing"
    let parent ← s.vertexAt? op "parent"
    let ser ← s.serializer op
    s.run (ser.write parent o existing) fun v => .obj [("vertex", v.view)]
  | "validate" => do
    let o ← Service.objectOf op
    let ser ← s.serializer op
    let t ← Reply.ofOutcome (ser.validateObject o)
    reads (.obj [("node_type", .str t.name.text), ("keys", Identifier.listToJson t.keyProperties)])
  | "delete" => s.deleteVertex op
  | "delete_edge" => do
    let v ← s.vertexAt op "vertex"
    let r ← Reply.decoded (Document.relationshipRef (← Request.field op "relationship"))
    let ser ← s.serializer op
    s.run (ser.deleteEdge v r) fun e => .obj [("edge", edgeView? e)]
  | "refresh_uri" => do
    let v ← s.vertexAt op "vertex"
    let ser ← s.serializer op
    s.run (ser.scope.refreshUri v.id) fun u => .obj [("uri", Json.ofOption u)]
  | "from_graph" => s.serialize op
  | "plan_cascade" => do
    let v ← s.vertexAt op "vertex"
    reads (.obj [("plan", handles (← Reply.ofOutcome (s.graph.planCascade v)))])
  | "collect_cascade" => do
    let v ← s.vertexAt op "vertex"
    reads (.obj [("plan", handles (s.graph.collectCascade v))])
  | "blocking_types" => do
    let vs ← s.verticesAt op "vertices"
    reads (.obj [("types", Json.ofStrings (s.graph.blockingTypes vs))])
  | "find_by_uri" => do
    let u ← Request.string op "uri"
    let _ ← s.serializer op
    let v ← Reply.ofOutcome (Scope.findByUri s.graph u)
    reads (.obj [("vertex", handle? (v.map (·.id)))])
  | "compute_uri" => do
    let v ← s.vertexAt op "vertex"
    let ser ← s.serializer op
    reads (.obj [("uri", .str (ser.scope.computeUri s.graph v))])
  | "uri_for_vertex" => do
    let v ← s.vertexAt op "vertex"
    let _ ← s.serializer op
    reads (.obj [("uri", .str v.uriOrUnknown)])
  | "segment" => do
    let v ← s.vertexAt op "vertex"
    let ser ← s.serializer op
    reads (.obj [("segment", Json.ofOption (ser.scope.segment? v))])
  | "tree_parent" => do
    let v ← s.vertexAt op "vertex"
    reads (.obj [("parent", handle? (s.graph.treeParent? v.id))])
  | "tree_children" => do
    let v ← s.vertexAt op "vertex"
    reads (.obj [("children", Json.ofStrings ((s.graph.treeChildren v.id).map (·.handle)))])
  | "locate_target" => do
    let r ← Reply.decoded (Document.relationshipRef (← Request.field op "relationship"))
    let ser ← s.serializer op
    let v ← Reply.ofOutcome (ser.locateTarget s.graph r)
    reads (.obj [("vertex", .str v.id.handle)])
  | "add_tree_edge" => do
    let parent ← s.vertexAt op "parent"
    let child ← s.vertexAt op "child"
    let ser ← s.serializer op
    s.run (ser.scope.addTreeEdge parent child) fun e => .obj [("edge", e.view)]
  | "add_edge" => do
    let a ← s.vertexAt op "a"
    let b ← s.vertexAt op "b"
    let metadata ← propertiesAt op "metadata"
    let ser ← s.serializer op
    let label ← Request.string? op "label"
    s.run (ser.scope.addEdge a b label metadata) fun e => .obj [("edge", e.view)]
  | "cousin_rule" => do
    let a ← s.vertexAt op "a"
    let b ← s.vertexAt op "b"
    let ser ← s.serializer op
    let label ← Request.string? op "label"
    let r ← Reply.ofOutcome (ser.scope.cousinRule a b label)
    reads (.obj [("rule", r.toJson)])
  | "edge_between" => do
    let a ← s.vertexAt op "a"
    let b ← s.vertexAt op "b"
    let t ← Service.edgeTypeOf (← Request.string op "edge_type")
    let _ ← s.serializer op
    let label ← Request.string? op "label"
    reads (.obj [("edge", edgeView? (s.graph.edgeBetween? t a b label))])
  | "raw_format" => do
    let v ← s.vertexAt op "vertex"
    let _ ← s.serializer op
    let opts ← s.formatOptions op
    reads (.obj [("format", rawFormat opts s.graph v)])
  | "resource_format" => do
    let v ← s.vertexAt op "vertex"
    let ser ← s.serializer op
    let opts ← s.formatOptions op
    reads (.obj [("format", ← Reply.ofOutcome (ser.resourceFormat opts s.graph v))])
  | "raw_add_vertex" => s.addRawVertex op
  | "raw_update" => s.updateRaw op
  | "raw_remove_vertex" => do
    let v ← s.vertexAt op "vertex"
    let (es, g) ← Reply.ofOutcome (s.graph.removeVertex v.id)
    pure (.obj [("removed_edges", Json.ofStrings (es.map (·.id.handle)))], some g)
  | "raw_add_edge" => s.addRawEdge op
  | "raw_remove_edge" => do
    let id ← s.edgeAt op "edge"
    let (e, g) := s.graph.removeEdge id
    pure (.obj [("edge", edgeView? e)], some g)
  | "counts" => reads (.obj [("tx", s.graph.counts), ("snapshot", s.graph.counts)])
  | "get_edge" => do
    let id ← s.edgeAt op "edge"
    let e := edgeView? (s.graph.edge? id)
    reads (.obj [("tx", e), ("snapshot", e)])
  | "edge_info" => s.edgeInfo op
  | "serializer_info" => do
    let ser ← s.serializer op
    reads (.obj [("version", .str ser.scope.version.display),
      ("latest", Json.ofOption (s.catalog.latestVersion?.map (·.display)))])
  | "dump" => reads s.graph.dump
  | _ => Reply.malformed ("unknown session op " ++ name)

/-- The session after one operation, with the operation's answer masked with the
    stand-ins known after it. -/
def step (s : Session) (op : Json) : Session × Json :=
  let (s, answer) := match s.apply op with
    | .ok (j, some g) => (s.commit g, j)
    | .ok (j, none) => (s, j)
    | .error e => (s, e.toJson)
  let s := { s with tokens := s.tokens.record s.graph }
  let answer := match answer with
    | .obj ms => .obj (Json.setMember ms "counts" s.graph.counts)
    | j => j
  (s, s.tokens.mask answer)

end Session

namespace Service

/-- Runs a session: every operation in order, then the committed graph, masked with the
    stand-ins known at the end. -/
def session (j : Json) : Reply Json := do
  let c ← catalogOf (← Request.field j "catalog")
  let config ← match j.get? "config" with
    | none | some .null => pure {}
    | some c => Reply.decoded (InventoryConfig.decode .json c)
  let v ← match ← Request.string? j "version" with
    | some t => Reply.ofValidation (SchemaVersion.ofString t)
    | none => pure SchemaVersion.v12
  let _ ← Reply.ofOutcome (Serializer.new c config v)
  let effects ← Request.string? j "side_effects"
  let ops ← Request.list j "ops"
  let start : Session :=
    { catalog := c, version := v, config, effects,
      graph := Graph.startingAt (Clock.session j.texts) }
  let (s, steps) := ops.foldl (fun (acc : Session × List Json) op =>
    let (s, a) := acc.1.step op
    (s, acc.2 ++ [a])) (start, [])
  pure (.obj [("steps", .arr steps), ("graph", s.tokens.mask s.graph.dump)])

end Service
end InventoryGraph
