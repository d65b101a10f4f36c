import InventoryGraph.Schema.NodeType
import InventoryGraph.Rule.Basic

/-!
Rule catalogs: the node types and relationship rules of every schema version, as they
were loaded. Loading refuses, in this order, a node type declared twice in one version;
then, version by version from the oldest and rule by rule, a label repeated for a pair and
a rule naming a type its version does not declare (`from` before `to`); and after each
version's rules, a pair with more than one default rule, the first such pair in byte order.
-/
namespace InventoryGraph

def SchemaVersion.insertSorted (v : SchemaVersion) : List SchemaVersion → List SchemaVersion
  | [] => [v]
  | w :: ws =>
    if v.number < w.number then v :: w :: ws
    else if v.number = w.number then w :: ws
    else w :: SchemaVersion.insertSorted v ws

def SchemaVersion.sortedUnique (vs : List SchemaVersion) : List SchemaVersion :=
  vs.foldr SchemaVersion.insertSorted []

/-- The declarations and rules of every version, in loading order. -/
structure Catalog where
  nodeTypes : List NodeType
  rules : List Rule

namespace Catalog

def empty : Catalog := ⟨[], []⟩

def nodeType? (c : Catalog) (name : String) (v : SchemaVersion) : Option NodeType :=
  c.nodeTypes.find? fun t => t.version == v && t.name.text == name

def rulesOf (c : Catalog) (v : SchemaVersion) : List Rule :=
  c.rules.filter (·.version == v)

def versions (c : Catalog) : List SchemaVersion :=
  SchemaVersion.sortedUnique (c.nodeTypes.map (·.version) ++ c.rules.map (·.version))

def ruleVersions (c : Catalog) : List SchemaVersion :=
  SchemaVersion.sortedUnique (c.rules.map (·.version))

def latestVersion? (c : Catalog) : Option SchemaVersion := c.versions.getLast?

def hasVersion (c : Catalog) (v : SchemaVersion) : Bool :=
  c.nodeTypes.any (·.version == v) || c.rules.any (·.version == v)

def rulesNewestFirst (c : Catalog) : List Rule :=
  c.ruleVersions.reverse.flatMap c.rulesOf

def insertByName (t : NodeType) : List NodeType → List NodeType
  | [] => [t]
  | u :: us => if t.name.text ≤ u.name.text then t :: u :: us else u :: insertByName t us

def nodeTypesOf (c : Catalog) (v : SchemaVersion) : List NodeType :=
  (c.nodeTypes.filter (·.version == v)).foldr insertByName []

def allNodeTypes (c : Catalog) : List NodeType :=
  (SchemaVersion.sortedUnique (c.nodeTypes.map (·.version))).flatMap c.nodeTypesOf

def duplicateNodeType? : List NodeType → List NodeType → Option NodeType
  | _, [] => none
  | seen, t :: ts =>
    if seen.any (fun u => u.version == t.version && u.name == t.name) then some t
    else duplicateNodeType? (t :: seen) ts

/-- Checks the rules of one version in order, with the (pair, label) entries seen. -/
def checkRules (c : Catalog) (v : SchemaVersion) :
    List (String × String) → List Rule → Outcome Unit
  | _, [] => .ok ()
  | seen, r :: rs =>
    let pair := r.pairKey
    if seen.contains (pair, r.label.text) then
      .error (.configuration ("duplicate label " ++ r.label.text ++ " for " ++ pair ++ " in " ++
        v.display))
    else match [r.source, r.target].find? (fun e => (c.nodeType? e.text v).isNone) with
      | some e =>
        .error (.configuration ("rule " ++ r.label.text ++ " for " ++ pair ++ " in " ++
          v.display ++ " names undeclared node type " ++ e.text))
      | none => checkRules c v ((pair, r.label.text) :: seen) rs

def multipleDefaults? (rs : List Rule) : Option String :=
  let defaults := (rs.filter (·.isDefault)).map (·.pairKey)
  (GraphError.sortedUnique defaults).find? fun p => 1 < defaults.count p

def checkVersions (c : Catalog) : List SchemaVersion → Outcome Unit
  | [] => .ok ()
  | v :: vs => do
    checkRules c v [] (c.rulesOf v)
    match multipleDefaults? (c.rulesOf v) with
    | some p =>
      .error (.configuration ("Multiple defaults found for " ++ p ++ " in " ++ v.display))
    | none => checkVersions c vs

def load (nodeTypes : List NodeType) (rules : List Rule) : Outcome Catalog :=
  match duplicateNodeType? [] nodeTypes with
  | some t =>
    .error (.configuration ("node type " ++ t.name.text ++ " declared twice in " ++
      t.version.display))
  | none =>
    let c : Catalog := ⟨nodeTypes, rules⟩
    (checkVersions c c.ruleVersions).map fun _ => c

def ruleCount (c : Catalog) : Nat := c.rules.length

end Catalog

/-- A holder of the current catalog, which a reload replaces as a whole. -/
structure CatalogHandle where
  current : Catalog

def CatalogHandle.replace (h : CatalogHandle) (c : Catalog) : Catalog × CatalogHandle :=
  (h.current, ⟨c⟩)

end InventoryGraph
