/-!
Errors by cause. `ValidationError` covers names, versions and property values that a
caller supplies; `GraphError` covers everything the catalog, the store and the serializer
refuse. Each error has one message text, written by `message`, and one category that says
how a request handler should answer it.
-/
namespace InventoryGraph

/-- A supplied name, version or property value that is not acceptable. -/
inductive ValidationError where
  | invalidIdentifier (text : String)
  | invalidIdentifierLength
  | invalidVersion (text : String)
  | propertyTypeMismatch (name expected : String)
  | requiredPropertyNotFound (name : String)
  | missingPropertyValue (detail : String)
  | invalidPropertyValue (name : String)
  | unexpectedProperty (name : String)
  | unknownNodeType (name : String)
  deriving DecidableEq, Repr

namespace ValidationError

/-- The message text. -/
def message : ValidationError → String
  | .invalidIdentifier s => "identifier '" ++ s ++ "' is invalid"
  | .invalidIdentifierLength => "identifier has invalid length"
  | .invalidVersion s => "invalid schema version '" ++ s ++ "'"
  | .propertyTypeMismatch n t => "property " ++ n ++ " has unexpected type, expected " ++ t
  | .requiredPropertyNotFound n => "required property with name " ++ n ++ " not found"
  | .missingPropertyValue s => s
  | .invalidPropertyValue n => "invalid value for property " ++ n
  | .unexpectedProperty n => "unexpected property with name " ++ n
  | .unknownNodeType n => "unknown node type " ++ n

end ValidationError

/-- The kind of write a resource version is checked for. -/
inductive WriteOperation where
  | create
  | update
  | delete
  deriving DecidableEq, Repr

def WriteOperation.name : WriteOperation → String
  | .create => "create"
  | .update => "update"
  | .delete => "delete"

/-- Why a resource-version check failed. -/
inductive VersionFailure where
  | passed
  | notPassed
  | mismatch
  deriving DecidableEq, Repr

def VersionFailure.text : VersionFailure → String
  | .passed => "passed"
  | .notPassed => "not passed"
  | .mismatch => "MISMATCH"

/-- How a request handler answers an error. -/
inductive ErrorCategory where
  | notFound
  | badRequest
  | conflict
  | configuration
  | internal
  deriving DecidableEq, Repr

/-- Everything an operation of the catalog, the store or the serializer can refuse. -/
inductive GraphError where
  | ruleNotFound (detail : String)
  | ambiguousRule (detail : String)
  | invalidRelationship (detail : String)
  | optimisticLock (operation : WriteOperation) (failure : VersionFailure) (uri : String)
  | blockedDelete (nodeTypes : List String)
  | containerMismatch
  | multiplicityViolation (detail : String)
  | schemaSync (detail : String)
  | storage (detail : String)
  | serialization
  | alreadyExists (detail : String)
  | invalidData (detail : String)
  | notFound (id : String)
  | configuration (detail : String)
  | validation (e : ValidationError)
  deriving DecidableEq, Repr

namespace GraphError

def insertSorted (s : String) : List String → List String
  | [] => [s]
  | t :: ts => if s < t then s :: t :: ts else if s = t then t :: ts else t :: insertSorted s ts

def sortedUnique (xs : List String) : List String := xs.foldr insertSorted []

def blocked (types : List String) : GraphError := .blockedDelete (sortedUnique types)

/-- The message text. -/
def message : GraphError → String
  | .ruleNotFound s => s
  | .ambiguousRule s => s
  | .invalidRelationship s => s
  | .optimisticLock op f uri =>
    "resource-version " ++ f.text ++ " for " ++ op.name ++ " of " ++ uri
  | .blockedDelete ts =>
    "Object is being reference by additional objects preventing it from being deleted. " ++
      "Please clean up references from the following types [" ++ ", ".intercalate ts ++ "]"
  | .containerMismatch => "query object mismatch: this object cannot hold multiple items."
  | .multiplicityViolation s => "multiplicity violation: " ++ s
  | .schemaSync s => "schema sync failed: " ++ s
  | .storage s => "Storage error: " ++ s
  | .serialization => "Serialization error: JSON processing error"
  | .alreadyExists s => "Entity already exists: " ++ s
  | .invalidData s => "Invalid data provided: " ++ s
  | .notFound s => "entity with identifier " ++ s ++ " was not found"
  | .configuration s => "Configuration error: " ++ s
  | .validation e => e.message

def category : GraphError → ErrorCategory
  | .ruleNotFound _ | .notFound _ => .notFound
  | .invalidRelationship _ | .invalidData _ | .multiplicityViolation _ | .validation _ =>
    .badRequest
  | .optimisticLock .. | .blockedDelete _ | .alreadyExists _ => .conflict
  | .ambiguousRule _ | .configuration _ | .schemaSync _ => .configuration
  | .containerMismatch | .storage _ | .serialization => .internal

end GraphError

abbrev Outcome := Except GraphError

def Outcome.ofValidation {α : Type} (r : Except ValidationError α) : Outcome α :=
  r.mapError .validation

end InventoryGraph
