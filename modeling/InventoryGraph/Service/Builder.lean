import InventoryGraph.Service.Answer
import InventoryGraph.Document.Decode

namespace InventoryGraph
namespace Builder

def stepItems (j : Json) : Reply (List Json) :=
  match j with
  | .arr xs => .ok xs
  | _ => Reply.malformed "a step must be a list"

def step (xs : List Json) : Reply (String × List Json) :=
  match xs with
  | .str name :: args => .ok (name, args)
  | _ => Reply.malformed "a step must start with its name"

def arg (args : List Json) (i : Nat) : Reply Json :=
  match args[i]? with
  | some a => .ok a
  | none => Reply.malformed "missing step argument"

def stringArg (args : List Json) (i : Nat) : Reply String := do
  match ← arg args i with
  | .str s => pure s
  | _ => Reply.malformed "step argument must be a string"

def nameArg (args : List Json) (i : Nat) : Reply Identifier := do
  Reply.ofValidation (Identifier.ofString (← stringArg args i))

def name (j : Json) (k : String) : Reply Identifier := do
  Reply.ofValidation (Identifier.ofString (← Request.string j k))

def version (j : Json) (k : String) : Reply SchemaVersion := do
  Reply.ofValidation (SchemaVersion.ofString (← Request.string j k))

def run {α : Type} (j : Json) (start : α) (apply : α → String → List Json → Reply α) :
    Reply α := do
  let steps ← (← Request.list? j "steps").mapM fun s => do step (← stepItems s)
  steps.foldlM (fun x (n, args) => apply x n args) start

def relationship (j : Json) : Reply RelationshipRef := do
  let t ← name j "related_to"
  run j (RelationshipRef.new t) fun r n args =>
    match n with
    | "link" => return r.withLink (← stringArg args 0)
    | "label" => return r.withLabel (← stringArg args 0)
    | "data" => return r.withData (← stringArg args 0) (← stringArg args 1)
    | _ => Reply.malformed ("unknown relationship step " ++ n)

/-- An object built from `{node_type, steps}`, with children nested at most `fuel` deep. -/
def objectWithin : Nat → Json → Reply SchemaObject
  | 0, _ => Reply.malformed "object nested too deeply"
  | fuel + 1, j => do
    let t ← name j "node_type"
    run j (SchemaObject.new t) fun o n args =>
      match n with
      | "property" => do
        let k ← stringArg args 0
        let x ← Reply.decoded (Document.propertyValue (← arg args 1))
        pure (o.withProperty k x)
      | "resource_version" => return o.withResourceVersion (← stringArg args 0)
      | "relationship" => return o.withRelationship (← relationship (← arg args 0))
      | "child" => return o.withChild (← objectWithin fuel (← arg args 0))
      | _ => Reply.malformed ("unknown object step " ++ n)

def object (j : Json) : Reply SchemaObject := objectWithin j.depth j

def property (j : Json) : Reply PropertyDef := do
  let t ← Reply.decoded (Document.primitiveType (← Request.field j "data_type"))
  let p ← Reply.ofValidation (Identifier.ofString (← Request.string j "name"))
  run j (PropertyDef.new p t) fun d n args =>
    match n with
    | "cardinality" => return d.withCardinality (← Reply.decoded (Document.cardinality (← arg args 0)))
    | "indexed" => pure d.withIndex
    | "data_copy" => return d.withDataCopy (← stringArg args 0)
    | _ => Reply.malformed ("unknown property step " ++ n)

def nodeType (j : Json) : Reply NodeType := do
  let t ← name j "name"
  let v ← version j "version"
  run j (NodeType.new t v) fun d n args =>
    match n with
    | "key" => return d.withKey (← nameArg args 0)
    | "property" => return d.withProperty (← property (← arg args 0))
    | "name_property" => return d.withNameProperty (← nameArg args 0)
    | _ => Reply.malformed ("unknown node type step " ++ n)

/-- A rule built from `{from, to, label, version, steps}`. -/
def rule (j : Json) : Reply Rule := do
  let a ← name j "from"
  let b ← name j "to"
  let l ← name j "label"
  let v ← version j "version"
  run j (Rule.new a b l v) fun r n args =>
    match n with
    | "direction" => return { r with direction := ← Reply.decoded (Document.direction (← arg args 0)) }
    | "multiplicity" =>
      return { r with multiplicity := ← Reply.ofValidation (Multiplicity.ofString (← stringArg args 0)) }
    | "contains" => return { r with contains := ← Reply.decoded (Document.flagDirection (← arg args 0)) }
    | "delete_other_v" =>
      return { r with deleteOtherV := ← Reply.decoded (Document.flagDirection (← arg args 0)) }
    | "prevent_delete" =>
      return { r with preventDelete := ← Reply.decoded (Document.flagDirection (← arg args 0)) }
    | "default" => pure { r with isDefault := true }
    | "description" => return { r with description := ← stringArg args 0 }
    | _ => Reply.malformed ("unknown rule step " ++ n)

def catalog (j : Json) : Reply Catalog := do
  let types ← (← Request.list? j "node_types").mapM nodeType
  let rules ← (← Request.list? j "rules").mapM rule
  Reply.ofOutcome (Catalog.load types rules)

end Builder
end InventoryGraph
