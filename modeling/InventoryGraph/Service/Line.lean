import InventoryGraph.Service.Session.Ops

/-!
The request service, one JSON object per line. A request names its operation in `op`; the
answer is the operation's object, or the error object of its refusal, with every binary64
number tagged. Input objects are read as maps are: a key given twice keeps its last value.
-/
namespace InventoryGraph
namespace Service

/-- The answer to a request. -/
def answer (j : Json) : Reply Json := do
  let name ← Request.string j "op"
  match name with
  | "identifier" => do
    let i ← Reply.ofValidation (Identifier.ofString (← Request.string j "value"))
    pure (.obj [("ok", .str i.text)])
  | "version" => versionInfo j
  | "identifier_cmp" => compareNames j
  | "property_eq" => do
    let a ← propertyValue j "a"
    let b ← propertyValue j "b"
    pure (.obj [("eq", .bool (a == b))])
  | "property_accessors" => accessors j
  | "object_build" => buildObject j
  | "side_effects_info" => sideEffectsInfo j
  | "catalog_handle" => catalogHandle j
  | "version_cmp" => compareVersions j
  | "multiplicity" => do
    let m ← Reply.ofValidation (Multiplicity.ofString (← Request.string j "value"))
    pure (.obj [("ok", .str m.name)])
  | "pair_key" => do
    pure (.obj [("ok", .str (pairKey (← Request.string j "a") (← Request.string j "b")))])
  | "property_validate" => validateProperty j
  | "property_display" => do
    let v ← propertyValue j "value"
    pure (.obj [("display", .str v.display), ("kind", .str v.kind), ("value", v.toJson)])
  | "verify_resource_version" => verifyVersion j
  | "resolve_template" => resolveTemplate j
  | "blocked_delete" => blockedDelete j
  | "catalog" => catalogQueries j
  | "declared_schema" => declaredSchema j
  | "schema_sync" => schemaSync j
  | "config_toml" => configToml j
  | "session" => session j
  | _ => Reply.malformed ("unknown op " ++ name)

def answerLine (line : String) : Option String :=
  if line.all Json.isBlank then none
  else
    let reply := match Json.parse line with
      | some j => answer j.collapse
      | none => Reply.malformed "input is not JSON"
    some (Json.render (Reply.toJson reply).tagFloats)

end Service
end InventoryGraph
