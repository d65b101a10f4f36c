import InventoryGraph.Rule.Basic

/-!
Rule queries and rule groups. A query names a node type and optionally a second type, a
label, a version and an edge type; a rule matches when it touches the first type (joins
both, when a second is given) and passes the label and edge-type filters. Found rules are
grouped by pair key: groups in byte order of their keys, rules within a group in the order
they were found.
-/
namespace InventoryGraph

/-- A rule lookup. -/
structure RuleQuery where
  source : Identifier
  target : Option Identifier := none
  label : Option String := none
  version : Option SchemaVersion := none
  edgeType : Option EdgeType := none

namespace RuleQuery

def new (t : Identifier) : RuleQuery := { source := t }

def between (a b : Identifier) : RuleQuery := { source := a, target := some b }

/-- The rule passes every filter but the version. -/
def admits (q : RuleQuery) (r : Rule) : Bool :=
  let pairOk := match q.target with
    | some t => r.joins q.source.text t.text
    | none => r.touches q.source.text
  let labelOk := match q.label with
    | some l => r.label.text == l
    | none => true
  let typeOk := match q.edgeType with
    | some t => r.edgeType == t
    | none => true
  pairOk && labelOk && typeOk

def display (q : RuleQuery) : String :=
  "node type: " ++ q.source.text ++
    (match q.target with | some t => ", node type: " ++ t.text | none => "") ++
    (match q.label with | some l => ", label: " ++ l | none => "") ++
    (match q.version with | some v => ", version: " ++ v.display | none => "") ++
    (match q.edgeType with | some t => ", type: " ++ t.name | none => "")

end RuleQuery

/-- Rules grouped by pair key, keys in byte order. -/
structure RuleGroups where
  groups : List (String × List Rule)

namespace RuleGroups

def insertRule (r : Rule) : List (String × List Rule) → List (String × List Rule)
  | [] => [(r.pairKey, [r])]
  | (k, rs) :: rest =>
    if r.pairKey < k then (r.pairKey, [r]) :: (k, rs) :: rest
    else if r.pairKey = k then (k, rs ++ [r]) :: rest
    else (k, rs) :: insertRule r rest

def ofList (rs : List Rule) : RuleGroups := ⟨rs.foldl (fun g r => insertRule r g) []⟩

def size (g : RuleGroups) : Nat := g.groups.foldl (fun n e => n + e.2.length) 0

def isEmpty (g : RuleGroups) : Bool := g.groups.isEmpty

def containsKey (g : RuleGroups) (k : String) : Bool := g.groups.any (·.1 == k)

def get (g : RuleGroups) (k : String) : List Rule :=
  ((g.groups.find? (·.1 == k)).map (·.2)).getD []

def keys (g : RuleGroups) : List String := g.groups.map (·.1)

def toList (g : RuleGroups) : List Rule := g.groups.flatMap (·.2)

end RuleGroups
end InventoryGraph
