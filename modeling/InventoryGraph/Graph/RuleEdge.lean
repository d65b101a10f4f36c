import InventoryGraph.Graph.Basic
import InventoryGraph.Catalog.Resolve

/-!
Edges made by rules. A tree edge joins a container to what it contains under the one tree
rule that the scope selects for the pair; a cousin edge joins two peers under the cousin
rule selected for the pair and the label, if one is given. Either edge runs from the
rule's out type to its in type, carries the rule's flags, and is refused when the same
labelled edge already runs between the two vertices in that direction, or when the rule's
multiplicity allows no second edge at a constrained end.
-/
namespace InventoryGraph

/-- The ends of an edge of a multiplicity that allow only one edge of a label: the out end
    when each out vertex has one such edge, the in end when each in vertex has one. -/
def Multiplicity.constrained : Multiplicity → List EdgeDirection
  | .oneToOne => [.outbound, .inbound]
  | .oneToMany => [.inbound]
  | .manyToOne => [.outbound]
  | .manyToMany => []

namespace Graph

/-- Refuses a new edge of a rule from `out` to `inn` when a constrained end already has an
    edge of the rule's label to a live vertex of the type at the other end. -/
def checkMultiplicity (g : Graph) (r : Rule) (out inn : Vertex) : Outcome Unit :=
  r.multiplicity.constrained.forM fun d =>
    let (anchor, counterpart) := match d with
      | .outbound => (out, r.inType)
      | _ => (inn, r.outType)
    let existing := (g.edgesOf anchor.id d).filter fun e =>
      e.label == r.label &&
        match e.otherEnd? anchor.id with
        | some o => match g.vertex? o with
          | some w => w.nodeType == counterpart
          | none => false
        | none => false
    if existing.isEmpty then .ok ()
    else
      .error (.multiplicityViolation ("multiplicity rule breaks with this edge. " ++
        anchor.nodeType.text ++ " " ++ anchor.id.handle ++ " already has a " ++ r.label.text ++
        " edge to a " ++ counterpart.text))

/-- The first edge of `a`'s edges of a type whose other end is `b`, with the label if one
    is given. -/
def edgeBetween? (g : Graph) (t : EdgeType) (a b : Vertex) (label : Option String) :
    Option Edge :=
  (g.edgesOf a.id .both).find? fun e =>
    e.edgeType == t && e.otherEnd? a.id == some b.id &&
      match label with
      | some l => e.label.text == l
      | none => true

end Graph

namespace Scope

/-- Adds the edge of a rule from `out` to `inn`, carrying the rule's flags and the given
    properties. -/
def createEdge (r : Rule) (out inn : Vertex) (metadata : PropertyMap) : GraphM Edge := do
  let g ← get
  if (g.edgesOf out.id .outbound).any fun e => e.inV == inn.id && e.label == r.label then
    GraphM.fail (.alreadyExists (r.label.text ++ " edge from " ++ out.nodeType.text ++ " " ++
      out.id.handle ++ " to " ++ inn.nodeType.text ++ " " ++ inn.id.handle))
  else
    GraphM.lift (g.checkMultiplicity r out inn)
    GraphM.addEdge
      { id := ⟨0⟩, outV := out.id, inV := inn.id, label := r.label, edgeType := r.edgeType,
        contains := r.contains, deleteOtherV := r.deleteOtherV, preventDelete := r.preventDelete,
        properties := metadata }

/-- Adds the tree edge that makes `parent` contain `child`. -/
def addTreeEdge (s : Scope) (parent child : Vertex) : GraphM Edge := do
  let r ← GraphM.lift (s.select { RuleQuery.between parent.nodeType child.nodeType with
    edgeType := some .tree })
  if r.containerType ≠ some parent.nodeType then
    GraphM.fail (.invalidRelationship (parent.nodeType.text ++ " cannot contain " ++
      child.nodeType.text))
  else
    match r.contains with
    | .out => createEdge r parent child PropertyMap.empty
    | _ => createEdge r child parent PropertyMap.empty

/-- The cousin rule for an edge between two vertices, with a label if one is given. When
    none exists, the message says whether a tree rule joins the two types instead. -/
def cousinRule (s : Scope) (a b : Vertex) (label : Option String) : Outcome Rule :=
  let q : RuleQuery := { RuleQuery.between a.nodeType b.nodeType with
    label, version := some s.version, edgeType := some .cousin }
  match s.select q with
  | .error (.ruleNotFound _) =>
    if s.hasRule { q with edgeType := some .tree } then
      .error (.invalidRelationship ("Cannot make a relationship between " ++ a.nodeType.text ++
        " and " ++ b.nodeType.text ++ ": they are joined by a parent-child rule"))
    else .error (.invalidRelationship ("No rule found for " ++ q.display))
  | other => other

def addEdgeForRule (r : Rule) (a b : Vertex) (metadata : PropertyMap) : GraphM Edge :=
  if a.nodeType = r.outType then createEdge r a b metadata else createEdge r b a metadata

def addEdge (s : Scope) (a b : Vertex) (label : Option String) (metadata : PropertyMap) :
    GraphM Edge := do
  let r ← GraphM.lift (s.cousinRule a b label)
  addEdgeForRule r a b metadata

end Scope
end InventoryGraph
