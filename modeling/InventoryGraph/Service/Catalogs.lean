import InventoryGraph.Service.Builder
import InventoryGraph.Catalog.Reference
import InventoryGraph.Catalog.Resolve
import InventoryGraph.Document.Encode
import InventoryGraph.Json.Read

/-!
Catalogs named in a request, and the questions asked of them. A catalog is named by a
reference name, given as a document, built step by step (`{"build": ...}`), or given as
document text (`{"json": text}`). Text is read as a decoder reads it: members that name
no field are checked only for their form, and text that is no JSON, or no catalog
document, is a serialization error, while a document given as a value that does not
decode is undecodable. Questions that look a node type or rule up by name take the name
as it is written. A catalog question names its kind in `q`; each is answered on
its own, so one refused question leaves the others answered.
-/
namespace InventoryGraph

def RuleGroups.toJson (g : RuleGroups) : Json :=
  .obj [("len", .int g.size),
    ("rules", .obj (g.groups.map fun (k, rs) => (k, .arr (rs.map Rule.toJson))))]

namespace Service

def catalogOfText (text : String) : Reply Catalog :=
  match (Json.parseLoose text).bind (Document.catalogDocument true) with
  | some (types, rules) => Reply.ofOutcome (Catalog.load types rules)
  | none => .error (.failed .serialization)

/-- The catalog a request names: a reference catalog by name, or an object that builds
    one (`build`, where `null` builds nothing), holds its text (`json`) or is its
    document. -/
def catalogOf (j : Json) : Reply Catalog :=
  match j with
  | .str name =>
    match Catalog.reference? name with
    | some c => Reply.ofOutcome c
    | none => Reply.malformed ("unknown catalog " ++ name)
  | .obj _ =>
    match j.get? "build" with
    | some b => Builder.catalog b
    | none =>
      if j.has "json" then do catalogOfText (← Request.string j "json")
      else do
        let (types, rules) ← Reply.decoded (Document.catalogDocument false j)
        Reply.ofOutcome (Catalog.load types rules)
  | _ => Reply.malformed "catalog must be a name or a document"

def edgeTypeOf (s : String) : Reply EdgeType :=
  match s with
  | "TREE" => .ok .tree
  | "COUSIN" => .ok .cousin
  | _ => Reply.malformed ("bad edge type " ++ s)

def name? (j : Json) (k : String) : Reply (Option Identifier) := do
  match ← Request.string? j k with
  | some s => return some (← Reply.ofValidation (Identifier.ofString s))
  | none => pure none

def version? (j : Json) (k : String) : Reply (Option SchemaVersion) := do
  match ← Request.string? j k with
  | some s => return some (← Reply.ofValidation (SchemaVersion.ofString s))
  | none => pure none

def ruleQuery (j : Json) : Reply RuleQuery := do
  let source ← Builder.name j "from"
  let target ← name? j "to"
  let label ← Request.string? j "label"
  let version ← version? j "version"
  let edgeType ← match ← Request.string? j "edge_type" with
    | some s => some <$> edgeTypeOf s
    | none => pure none
  pure { source, target, label, version, edgeType }

def found (g : RuleGroups) : Json := .obj [("found", g.toJson)]

def has (b : Bool) : Json := .obj [("has", .bool b)]

def catalogInfo (c : Catalog) : Json :=
  .obj [("versions", Json.ofStrings (c.versions.map (·.display))),
    ("latest", Json.ofOption (c.latestVersion?.map (·.display))),
    ("per_version", .obj (c.versions.map fun v => (v.display, .obj [
      ("node_types", Json.ofStrings ((c.nodeTypesOf v).map (·.name.text))),
      ("rule_count", .int (c.rulesOf v).length)])))]

/-- The answer to one catalog question. -/
def ask (c : Catalog) (j : Json) : Reply Json := do
  let q ← Request.string j "q"
  match q with
  | "find_rules" => return found (← Reply.ofOutcome (c.findRules (← ruleQuery j)))
  | "has_rule" => return has (c.hasRule (← ruleQuery j))
  | "select" => return .obj [("rule", (← Reply.ofOutcome (c.select (← ruleQuery j))).toJson)]
  | "select_rule" => do
    let a ← Builder.name j "from"
    let b ← Builder.name j "to"
    let label ← Request.string? j "label"
    let v ← Builder.version j "version"
    return .obj [("rule", (← Reply.ofOutcome (c.selectRule a b label v)).toJson)]
  | "query_display" => return .obj [("display", .str (← ruleQuery j).display)]
  | "child_rules" => return found (c.childRules (← Builder.name j "node_type") (← version? j "version"))
  | "parent_rules" => return found (c.parentRules (← Builder.name j "node_type") (← version? j "version"))
  | "cousin_rules" => return found (c.cousinRules (← Builder.name j "node_type") (← version? j "version"))
  | "has_child_rule" =>
    return has !(c.childRules (← Builder.name j "node_type") (← version? j "version")).isEmpty
  | "has_parent_rule" =>
    return has !(c.parentRules (← Builder.name j "node_type") (← version? j "version")).isEmpty
  | "has_cousin_rule" =>
    return has !(c.cousinRules (← Builder.name j "node_type") (← version? j "version")).isEmpty
  | "all_rules" => return found (← Reply.ofOutcome (c.allRules (← Builder.version j "version")))
  | "all_current_rules" => return found (← Reply.ofOutcome c.allCurrentRules)
  | "info" => pure (catalogInfo c)
  | "has_version" => return has (c.hasVersion (← Builder.version j "version"))
  | "node_type" => do
    let t ← Request.string j "name"
    let v ← Builder.version j "version"
    return .obj [("node_type", ((c.nodeType? t v).map NodeType.toJson).getD .null)]
  | "rules" => do
    let v ← Builder.version j "version"
    return .obj [("rules", .arr ((c.rulesOf v).map Rule.toJson))]
  | "all_node_types" =>
    return .obj [("node_types", .arr (c.allNodeTypes.map fun t =>
      .arr [.str t.name.text, .str t.version.display]))]
  | "declares" => do
    let t ← Request.string j "name"
    let v ← Builder.version j "version"
    let p ← Request.string j "property"
    match c.nodeType? t v with
    | some d => return .obj [("declares", .bool (d.declares p)),
        ("property", ((d.property? p).map PropertyDef.toJson).getD .null)]
    | none => return .obj [("declares", .null), ("property", .null)]
  | "find_rules_flat" => do
    let query ← ruleQuery j
    let g ← Reply.ofOutcome (c.findRules query)
    let pair ← Request.string? j "pair"
    return .obj [("rules", .arr (g.toList.map Rule.toJson)), ("iterated", .int g.size),
      ("has_pair", match pair with | some p => .bool (g.containsKey p) | none => .null)]
  | "rule_helpers" => do
    let v ← Builder.version j "version"
    let l ← Request.string j "label"
    let a ← Request.string j "from"
    let b ← Request.string j "to"
    match (c.rulesOf v).find? fun r => r.label.text == l && r.joins a b with
    | some r => return .obj [("pair_key", .str r.pairKey), ("out_type", .str r.outType.text),
        ("in_type", .str r.inType.text),
        ("container_type", Json.ofOption (r.containerType.map (·.text))),
        ("contained_type", Json.ofOption (r.containedType.map (·.text))),
        ("edge_type", .str r.edgeType.name)]
    | none => Reply.malformed "no such rule"
  | _ => Reply.malformed ("unknown query " ++ q)

end Service
end InventoryGraph
