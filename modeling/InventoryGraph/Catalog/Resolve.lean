import InventoryGraph.Catalog.Basic
import InventoryGraph.Catalog.Query

/-!
Resolving rules against a catalog. With a version, the candidates of a query are that
version's matching rules in loading order; without one, every version is searched newest
first and a (pair key, label) is taken once, from the newest version that has it.
Selecting one rule refuses no candidates, candidates of several pairs, and several
candidates unless exactly one of them is a default. A scope is a catalog seen at one schema
version: the declarations and rules that a serializer bound to that version uses.
-/
namespace InventoryGraph
namespace Catalog

def firstPerLabel : List (String × String) → List Rule → List Rule
  | _, [] => []
  | seen, r :: rs =>
    if seen.contains (r.pairKey, r.label.text) then firstPerLabel seen rs
    else r :: firstPerLabel ((r.pairKey, r.label.text) :: seen) rs

def candidates (c : Catalog) (q : RuleQuery) : List Rule :=
  match q.version with
  | some v => (c.rulesOf v).filter q.admits
  | none => firstPerLabel [] (c.rulesNewestFirst.filter q.admits)

def findRules (c : Catalog) (q : RuleQuery) : Outcome RuleGroups :=
  let g := RuleGroups.ofList (c.candidates q)
  if g.isEmpty then .error (.ruleNotFound ("No rules found for " ++ q.display)) else .ok g

def hasRule (c : Catalog) (q : RuleQuery) : Bool := !(c.candidates q).isEmpty

/-- The one rule a query selects. -/
def select (c : Catalog) (q : RuleQuery) : Outcome Rule :=
  match RuleGroups.ofList (c.candidates q) |>.groups with
  | [] => .error (.ruleNotFound ("No rule found for " ++ q.display))
  | [(_, rs)] =>
    match rs with
    | [r] => .ok r
    | _ =>
      match rs.filter (·.isDefault) with
      | [r] => .ok r
      | [] => .error (.ambiguousRule ("No default found. Query: " ++ q.display))
      | _ => .error (.ambiguousRule ("Multiple defaults found. Query: " ++ q.display))
  | gs =>
    .error (.ambiguousRule ("No way to select single rule from these pairs: [" ++
      ", ".intercalate (gs.map (·.1)) ++ "]"))

def selectRule (c : Catalog) (a b : Identifier) (label : Option String) (v : SchemaVersion) :
    Outcome Rule :=
  c.select { source := a, target := some b, label, version := some v }

def filtered (c : Catalog) (t : Identifier) (v : Option SchemaVersion) (keep : Rule → Bool) :
    RuleGroups :=
  RuleGroups.ofList ((c.candidates { source := t, version := v }).filter keep)

def childRules (c : Catalog) (t : Identifier) (v : Option SchemaVersion) : RuleGroups :=
  c.filtered t v fun r => r.containerType == some t

def parentRules (c : Catalog) (t : Identifier) (v : Option SchemaVersion) : RuleGroups :=
  c.filtered t v fun r => r.containedType == some t

def cousinRules (c : Catalog) (t : Identifier) (v : Option SchemaVersion) : RuleGroups :=
  c.filtered t v fun r => r.edgeType == .cousin

def allRules (c : Catalog) (v : SchemaVersion) : Outcome RuleGroups :=
  let g := RuleGroups.ofList (c.rulesOf v)
  if g.isEmpty then .error (.ruleNotFound ("No rules found for version " ++ v.display ++ "."))
  else .ok g

def allCurrentRules (c : Catalog) : Outcome RuleGroups :=
  match c.latestVersion? with
  | some v => c.allRules v
  | none => .error (.ruleNotFound "No rules found: empty catalog.")

end Catalog

/-- A catalog and the version it is read at. -/
structure Scope where
  catalog : Catalog
  version : SchemaVersion

namespace Scope

def nodeType? (s : Scope) (name : String) : Option NodeType := s.catalog.nodeType? name s.version

def select (s : Scope) (q : RuleQuery) : Outcome Rule :=
  s.catalog.select { q with version := some s.version }

def hasRule (s : Scope) (q : RuleQuery) : Bool :=
  s.catalog.hasRule { q with version := some s.version }

end Scope
end InventoryGraph
