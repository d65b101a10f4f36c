import InventoryGraph.Serializer.Read
import InventoryGraph.Document.Encode

/-!
Output formats of a vertex. The raw format lists the vertex's id (its synthetic id, else
its store id), node type, address and every stored property, and, when expanding and not
nodes only, every edge to a live vertex as `related-to`, sorted by the neighbour's node type
and address. The resource format is the serialized object under its node type's name,
with the address beside it when asked for.
-/
namespace InventoryGraph

/-- How a format expands a vertex. -/
structure FormatOptions where
  depth : Nat
  nodesOnly : Bool
  includeUrl : Bool
  deriving DecidableEq, Repr

def FormatOptions.ofConfig (c : SerializerConfig) : FormatOptions := ⟨c.defaultDepth, false, false⟩

def Vertex.rawId (v : Vertex) : String := (v.str? Bookkeeping.syntheticId).getD v.id.handle

/-- One `related-to` entry, with its sort key. -/
structure RelatedEntry where
  neighbour : Vertex
  label : String

def RelatedEntry.le (a b : RelatedEntry) : Bool :=
  (compare a.neighbour.nodeType.text b.neighbour.nodeType.text).then
    (compare a.neighbour.uriOrUnknown b.neighbour.uriOrUnknown) != .gt

/-- The raw format of a vertex. -/
def rawFormat (opts : FormatOptions) (g : Graph) (v : Vertex) : Json :=
  let base := [("id", Json.str v.rawId), ("node-type", .str v.nodeType.text),
    ("url", .str v.uriOrUnknown), ("properties", v.properties.toJson)]
  if opts.nodesOnly || opts.depth = 0 then .obj base
  else
    let related := (g.edgesOf v.id .both).filterMap fun e => do
      let o ← e.otherEnd? v.id
      let w ← g.vertex? o
      pure (RelatedEntry.mk w e.label.text)
    let sorted := related.mergeSort RelatedEntry.le
    .obj (base ++ [("related-to", .arr (sorted.map fun r =>
      .obj [("id", .str r.neighbour.rawId), ("node-type", .str r.neighbour.nodeType.text),
        ("relationship-label", .str r.label), ("url", .str r.neighbour.uriOrUnknown)]))])

def Serializer.resourceFormat (s : Serializer) (opts : FormatOptions) (g : Graph) (v : Vertex) :
    Outcome Json := do
  let r ← s.fromGraph g [v] .single opts.depth opts.nodesOnly true
  let body := match r.toList with
    | o :: _ => [(v.nodeType.text, o.toJson)]
    | [] => []
  let url := if opts.includeUrl then [("url", Json.str v.uriOrUnknown)] else []
  pure (.obj (Json.setMembers body url))

end InventoryGraph
