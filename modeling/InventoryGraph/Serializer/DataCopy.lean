import InventoryGraph.Serializer.Basic

/-!
Data copy. A property declared with a template `address#property` takes its value from the
vertex at the address, which the template builds from the object being written: each
`{name}` placeholder is replaced by the percent-encoded text of the object's property of
that name, a `{` without a closing `}` is kept as text, and an address starting with `./`
is taken relative to the object's own address.

A template whose placeholders are all missing copies nothing; one with only some missing
is an error naming them in template order; a template without `#` is a configuration
error. When no vertex stands at the built address the write is refused; when the vertex
there lacks the property, nothing is copied.
-/
namespace InventoryGraph
namespace DataCopy

/-- A piece of a template address: text, or a placeholder naming a property. -/
inductive Piece where
  | text (s : String)
  | slot (name : String)
  deriving DecidableEq, Repr

def pieces : List Char → List Char → Option (List Char) → List Piece
  | [], lit, none => [.text (String.ofList lit)]
  | [], lit, some name => [.text (String.ofList (lit ++ '{' :: name))]
  | c :: cs, lit, none =>
    if c = '{' then pieces cs lit (some []) else pieces cs (lit ++ [c]) none
  | c :: cs, lit, some name =>
    if c = '}' then .text (String.ofList lit) :: .slot (String.ofList name) :: pieces cs [] none
    else pieces cs lit (some (name ++ [c]))

def slots (ps : List Piece) : List String :=
  ps.filterMap fun p => match p with
    | .slot n => some n
    | .text _ => none

/-- The address a template builds, with the name of the property to copy, if it builds
    one. -/
def resolve (template : String) (props : PropertyMap) (selfUri : Option String) :
    Outcome (Option (String × String)) :=
  match Text.splitOnce '#' template.toList with
  | none =>
    .error (.configuration ("data copy template " ++ template ++ " names no property"))
  | some (address, property) =>
    let property := String.ofList property
    let ps := pieces address [] none
    let missing := (slots ps).filter fun n => !props.contains n
    if !(slots ps).isEmpty && missing.length = (slots ps).length then .ok none
    else if !missing.isEmpty then
      .error (.validation (.missingPropertyValue
        ("Cannot complete data copy uri. Missing properties [" ++ ", ".intercalate missing ++ "]")))
    else
      let uri := String.join (ps.map fun p => match p with
        | .text s => s
        | .slot n => match props.get? n with
          | some x => Text.percentEncode x.display
          | none => "")
      match uri.toList with
      | '.' :: '/' :: relative =>
        match selfUri with
        | none => .ok none
        | some base => .ok (some (Scope.normalizeUri base ++ "/" ++ String.ofList relative, property))
      | _ => .ok (some (uri, property))

/-- Copies the templated properties of a node type into the object and the vertex being
    written, in declaration order, each copy seeing the ones before it. -/
def run (g : Graph) (t : NodeType) (o : SchemaObject) (v : Vertex) :
    Outcome (SchemaObject × Vertex) :=
  let selfUri := v.uri?
  let step (acc : SchemaObject × Vertex) (d : PropertyDef) : Outcome (SchemaObject × Vertex) :=
    let (o, v) := acc
    match d.dataCopy with
    | none => .ok (o, v)
    | some template => do
      match ← resolve template o.properties selfUri with
      | none => .ok (o, v)
      | some (uri, source) =>
        match ← Scope.findByUri g uri with
        | none =>
          .error (.invalidRelationship ("Cannot complete data copy for " ++ d.name.text ++
            ". No object found at " ++ uri))
        | some target =>
          match target.property? source with
          | some x => .ok (o.withProperty d.name.text x, v.set d.name.text x)
          | none => .ok (o, v)
  t.properties.foldlM step (o, v)

end DataCopy

def Serializer.runSideEffects (s : Serializer) (g : Graph) (t : NodeType) (o : SchemaObject)
    (v : Vertex) : Outcome (SchemaObject × Vertex) :=
  let step (acc : SchemaObject × Vertex) (e : SideEffect) : Outcome (SchemaObject × Vertex) :=
    match e with
    | .dataCopy => DataCopy.run g t acc.1 acc.2
  s.sideEffects.foldlM step (o, v)

end InventoryGraph
