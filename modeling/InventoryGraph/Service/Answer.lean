import InventoryGraph.Json.Write
import InventoryGraph.Error

/-!
Answers of the request service. A request is answered by a JSON object; a refused request
by an error object. A library error names its kind, its message and its category, and a
blocked delete also lists the blocking node types; a value that does not decode, a
configuration that does not load, and a request that is malformed for the service itself
are answered by their own error shapes. Every binary64 number in an answer is written as
`{"float": text}` with its display text.
-/
namespace InventoryGraph

/-- Why a request was not answered with a result. -/
inductive Refusal where
  | undecodable
  | unloadable
  | malformed (message : String)
  | failed (e : GraphError)

abbrev Reply := Except Refusal

namespace Reply

def ofOutcome {α : Type} (r : Outcome α) : Reply α := r.mapError .failed

def ofValidation {α : Type} (r : Except ValidationError α) : Reply α :=
  r.mapError fun e => .failed (.validation e)

def decoded {α : Type} (o : Option α) : Reply α :=
  match o with
  | some a => .ok a
  | none => .error .undecodable

def malformed {α : Type} (message : String) : Reply α := .error (.malformed message)

end Reply

/-- The kind of a validation error. -/
def ValidationError.kind : ValidationError → String
  | .invalidIdentifier _ => "InvalidIdentifier"
  | .invalidIdentifierLength => "InvalidIdentifierLength"
  | .invalidVersion _ => "InvalidVersion"
  | .propertyTypeMismatch .. => "PropertyTypeMismatch"
  | .requiredPropertyNotFound _ => "RequiredPropertyNotFound"
  | .missingPropertyValue _ => "MissingPropertyValue"
  | .invalidPropertyValue _ => "InvalidPropertyValue"
  | .unexpectedProperty _ => "UnexpectedProperty"
  | .unknownNodeType _ => "UnknownNodeType"

/-- The kind of an error. -/
def GraphError.kind : GraphError → String
  | .ruleNotFound _ => "RuleNotFound"
  | .ambiguousRule _ => "AmbiguousRule"
  | .invalidRelationship _ => "InvalidRelationship"
  | .optimisticLock .. => "OptimisticLock"
  | .blockedDelete _ => "BlockedDelete"
  | .containerMismatch => "ContainerMismatch"
  | .multiplicityViolation _ => "MultiplicityViolation"
  | .schemaSync _ => "SchemaSync"
  | .storage _ => "StorageError"
  | .serialization => "SerializationError"
  | .alreadyExists _ => "AlreadyExists"
  | .invalidData _ => "InvalidData"
  | .notFound _ => "NotFound"
  | .configuration _ => "ConfigurationError"
  | .validation e => "Validation:" ++ e.kind

def ErrorCategory.name : ErrorCategory → String
  | .notFound => "NotFound"
  | .badRequest => "BadRequest"
  | .conflict => "Conflict"
  | .configuration => "Configuration"
  | .internal => "Internal"

def GraphError.toJson (e : GraphError) : Json :=
  let message := match e with
    | .serialization => []
    | _ => [("message", Json.str e.message)]
  let types := match e with
    | .blockedDelete ts => [("node_types", Json.ofStrings ts)]
    | _ => []
  .obj ([("error", .str e.kind)] ++ message ++ [("category", .str e.category.name)] ++ types)

def Refusal.toJson : Refusal → Json
  | .undecodable => .obj [("error", .str "DecodeError")]
  | .unloadable => .obj [("error", .str "ConfigError")]
  | .malformed m => .obj [("error", .str "DriverError"), ("message", .str m)]
  | .failed e => e.toJson

def Reply.toJson (r : Reply Json) : Json :=
  match r with
  | .ok j => j
  | .error e => e.toJson

mutual
def Json.tagFloats : Json → Json
  | .float x => .obj [("float", .str x.display)]
  | .arr xs => .arr (Json.tagFloatsItems xs)
  | .obj ms => .obj (Json.tagFloatsMembers ms)
  | j => j

def Json.tagFloatsItems : List Json → List Json
  | [] => []
  | x :: xs => Json.tagFloats x :: Json.tagFloatsItems xs

def Json.tagFloatsMembers : List (String × Json) → List (String × Json)
  | [] => []
  | (k, v) :: ms => (k, Json.tagFloats v) :: Json.tagFloatsMembers ms
end

mutual
def Json.collapse : Json → Json
  | .arr xs => .arr (Json.collapseItems xs)
  | .obj ms => .obj (Json.collapseMembers [] ms)
  | j => j

def Json.collapseItems : List Json → List Json
  | [] => []
  | x :: xs => Json.collapse x :: Json.collapseItems xs

def Json.collapseMembers (kept : List (String × Json)) : List (String × Json) → List (String × Json)
  | [] => kept.reverse
  | (k, v) :: ms =>
    Json.collapseMembers ((k, Json.collapse v) :: kept.filter (·.1 != k)) ms
end

namespace Request

def field (j : Json) (k : String) : Reply Json :=
  match j.get? k with
  | none | some .null => Reply.malformed ("missing field " ++ k)
  | some v => .ok v

def present? (j : Json) (k : String) : Option Json :=
  match j.get? k with
  | some .null => none
  | v => v

def given (j : Json) (k : String) : Reply Json :=
  match j.get? k with
  | some v => .ok v
  | none => Reply.malformed ("missing field " ++ k)

def wrongKind {α : Type} (k kind : String) : Reply α :=
  Reply.malformed ("field " ++ k ++ " must be " ++ kind)

def string (j : Json) (k : String) : Reply String := do
  match ← field j k with
  | .str s => pure s
  | _ => wrongKind k "a string"

def string? (j : Json) (k : String) : Reply (Option String) :=
  match j.get? k with
  | none | some .null => .ok none
  | some (.str s) => .ok (some s)
  | some _ => wrongKind k "a string"

def list (j : Json) (k : String) : Reply (List Json) := do
  match ← field j k with
  | .arr xs => pure xs
  | _ => Reply.malformed (k ++ " must be a list")

def list? (j : Json) (k : String) : Reply (List Json) :=
  match j.get? k with
  | none | some .null => .ok []
  | some (.arr xs) => .ok xs
  | some _ => Reply.malformed (k ++ " must be a list")

def strings (j : Json) (k : String) : List String :=
  match j.get? k with
  | some (.arr xs) => xs.filterMap Json.str?
  | _ => []

def bool (j : Json) (k : String) (d : Bool) : Reply Bool :=
  match j.get? k with
  | none | some .null => .ok d
  | some (.bool b) => .ok b
  | some _ => wrongKind k "a boolean"

def natural (j : Json) (k : String) (d : Nat) : Reply Nat :=
  match j.get? k with
  | none | some .null => .ok d
  | some (.int i) =>
    if 0 ≤ i ∧ i < Nat.pow 2 64 then .ok i.toNat else wrongKind k "a non-negative integer"
  | some _ => wrongKind k "a non-negative integer"

end Request
end InventoryGraph
