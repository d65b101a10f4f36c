import InventoryGraph.Json.Basic

/-!
Reading records and primitive values out of JSON values. A record is read from an object,
field by field by name, or from an array, field by field by position. Members of an
object that name no field are ignored; an array may be shorter than the record, when its
missing fields have defaults, but not longer. Reading a value that was parsed into a map
takes the last member of a repeated key; reading text directly (`strict`) refuses a
repeated field.
-/
namespace InventoryGraph
namespace Json

def countKey (ms : List (String × Json)) (k : String) : Nat := (ms.filter (·.1 == k)).length

def fields (strict : Bool) (names : List String) : Json → Option (List (Option Json))
  | .obj ms =>
    if strict && names.any (fun n => 1 < countKey ms n) then none
    else some (names.map fun n => (Json.obj ms).get? n)
  | .arr xs =>
    if xs.length ≤ names.length then some ((List.range names.length).map fun i => xs[i]?)
    else none
  | _ => none

def required {α : Type} (o : Option Json) (f : Json → Option α) : Option α := o.bind f

def withDefault {α : Type} (o : Option Json) (d : α) (f : Json → Option α) : Option α :=
  match o with
  | some j => f j
  | none => some d

def nullable {α : Type} (f : Json → Option α) : Json → Option (Option α)
  | .null => some none
  | j => (f j).map some

def list {α : Type} (f : Json → Option α) : Json → Option (List α)
  | .arr xs => xs.mapM f
  | _ => none

def string : Json → Option String
  | .str s => some s
  | _ => none

def boolean : Json → Option Bool
  | .bool b => some b
  | _ => none

def natural : Json → Option Nat
  | .int i => if 0 ≤ i then some i.toNat else none
  | _ => none

/-- The name of a variant without data: the name as a string, or an object whose one
    member has the name as its key and `null` as its value. -/
def variantName : Json → Option String
  | .str s => some s
  | .obj [(k, .null)] => some k
  | _ => none

def variant {α : Type} (table : List (String × α)) (j : Json) : Option α :=
  (variantName j).bind fun n => (table.find? (·.1 == n)).map (·.2)

/-- The format a value was read from, which changes two rules of reading records and
    variants. -/
inductive Source where
  | json
  | toml
  deriving DecidableEq

/-- The values of a record's fields in a value from a source, read as `fields` reads a
    parsed value, except that an array from TOML may be longer than the record. -/
def recordFields (src : Source) (names : List String) : Json → Option (List (Option Json))
  | .arr xs =>
    if src = .toml ∨ xs.length ≤ names.length then
      some ((List.range names.length).map fun i => xs[i]?)
    else none
  | j => j.fields false names

def variantNameIn (src : Source) (j : Json) : Option String :=
  match src, j with
  | .toml, .obj [(k, .obj [])] => some k
  | .toml, .obj [(k, .arr [])] => some k
  | _, j => variantName j

def variantIn {α : Type} (src : Source) (table : List (String × α)) (j : Json) : Option α :=
  (variantNameIn src j).bind fun n => (table.find? (·.1 == n)).map (·.2)

end Json
end InventoryGraph
