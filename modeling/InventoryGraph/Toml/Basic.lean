import InventoryGraph.Json.Basic

/-!
TOML documents as trees. A table remembers how it came to be, since that decides what a
later line may add to it: a header defines a table once, and dotted keys under another
header may not reach into it; a table made on the way to a header's table may still get a
header of its own; a table made by dotted keys takes more dotted keys but no header; and an
inline table or an array written in brackets is a value, to which nothing outside its
brackets may add, nor dotted keys inside the braces around it. An array of tables grows by one table per
`[[header]]`, and a path through it goes into its last table.

A document reads as a JSON value for decoding: tables as objects, arrays as arrays, and a
date or time as an object whose one member, `$datetime`, no record field names.
-/
namespace InventoryGraph
namespace Toml

/-- How a table of the document came to be. -/
inductive Origin where
  | implicit
  | header
  | dotted
  deriving DecidableEq, Repr

/-- A TOML value. -/
inductive Value where
  | scalar (j : Json)
  | dateTime (text : String)
  | array (items : List Value)
  | inline (dotted : Bool) (members : List (String × Value))
  | table (origin : Origin) (members : List (String × Value))
  | tables (items : List (List (String × Value)))

abbrev Table := List (String × Value)

def lookup (t : Table) (k : String) : Option Value := (t.find? (·.1 == k)).map (·.2)

def replace (t : Table) (k : String) (v : Value) : Table :=
  t.map fun m => if m.1 == k then (k, v) else m

/-- Changes the table at a path below a table of origin `o`: `f` gets the origin and the
    members of the table at the end of the path. A missing table on the way is made with
    origin `made`, a path through an array of tables goes into its last table, and any
    other value on the way refuses the change; so does a table defined by a header when
    the path is one of dotted keys (`made` is `dotted`). -/
def modifyAt (made : Origin) (f : Origin → Table → Option Table) :
    List String → Origin → Table → Option Table
  | [], o, t => f o t
  | k :: rest, _, t =>
    match lookup t k with
    | none => (modifyAt made f rest made []).map fun sub => t ++ [(k, .table made sub)]
    | some (.table o sub) =>
      if made = .dotted ∧ o = .header then none
      else (modifyAt made f rest o sub).map fun sub => replace t k (.table o sub)
    | some (.tables items) =>
      match items.getLast? with
      | some sub => (modifyAt made f rest .header sub).map fun sub =>
          replace t k (.tables (items.dropLast ++ [sub]))
      | none => none
    | some _ => none

/-- Writes a value at the key `path ++ [k]` of a table of origin `o`. The tables that the
    dotted part names are made by dotted keys, or missing and made so; a key without dots
    writes into the table itself, which must not be one made by dotted keys; and the last
    key must be new. -/
def insertPair (path : List String) (k : String) (v : Value) : Origin → Table → Option Table :=
  modifyAt .dotted (fun o t =>
    if (o == .dotted) == path.isEmpty then none
    else if (lookup t k).isSome then none
    else some (t ++ [(k, v)])) path

/-- Defines the table of the header `[path ++ [k]]` in a document: the key must be new or
    name a table made only on the way to another header's table. -/
def defineTable (path : List String) (k : String) (doc : Table) : Option Table :=
  modifyAt .implicit (fun _ t =>
    match lookup t k with
    | none => some (t ++ [(k, .table .header [])])
    | some (.table .implicit ms) => some (replace t k (.table .header ms))
    | some _ => none) path .header doc

/-- Adds a table to the array of tables of the header `[[path ++ [k]]]` in a document: the
    key must be new or name an array of tables. -/
def appendTable (path : List String) (k : String) (doc : Table) : Option Table :=
  modifyAt .implicit (fun _ t =>
    match lookup t k with
    | none => some (t ++ [(k, .tables [[]])])
    | some (.tables items) => some (replace t k (.tables (items ++ [[]])))
    | some _ => none) path .header doc

def inlineAt (f : Bool → Table → Option Table) : List String → Bool → Table → Option Table
  | [], d, t => f d t
  | k :: rest, _, t =>
    match lookup t k with
    | none => (inlineAt f rest true []).map fun sub => t ++ [(k, .inline true sub)]
    | some (.inline true sub) =>
      (inlineAt f rest true sub).map fun sub => replace t k (.inline true sub)
    | some _ => none

def insertInline (path : List String) (k : String) (v : Value) (t : Table) : Option Table :=
  inlineAt (fun d t =>
    if d == path.isEmpty then none
    else if (lookup t k).isSome then none
    else some (t ++ [(k, v)])) path false t

def dateTimeKey : String := "$datetime"

mutual
def Value.toJson : Value → Json
  | .scalar j => j
  | .dateTime s => .obj [(dateTimeKey, .str s)]
  | .array xs => .arr (valuesToJson xs)
  | .inline _ ms => .obj (membersToJson ms)
  | .table _ ms => .obj (membersToJson ms)
  | .tables ts => .arr (tablesToJson ts)

def valuesToJson : List Value → List Json
  | [] => []
  | v :: vs => v.toJson :: valuesToJson vs

def membersToJson : List (String × Value) → List (String × Json)
  | [] => []
  | (k, v) :: ms => (k, v.toJson) :: membersToJson ms

def tablesToJson : List (List (String × Value)) → List Json
  | [] => []
  | t :: ts => .obj (membersToJson t) :: tablesToJson ts
end

end Toml
end InventoryGraph
