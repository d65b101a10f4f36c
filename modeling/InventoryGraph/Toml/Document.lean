import InventoryGraph.Toml.Text
import InventoryGraph.Toml.Number

/-!
Reading a TOML document. A document is a sequence of lines: blank lines, comments,
`key = value` pairs, `[table]` headers and `[[array]]` headers. Pairs go into the table of
the last header, or the root table before any header; a header of an array of tables adds
a table to it, and its pairs go there. The rules of `Toml.Basic` decide which pairs and
headers a document may hold. Values are strings, numbers, dates and times, booleans,
arrays (blanks, line ends and comments allowed between items, and a comma after the last)
and inline tables (on one line, no comma after the last pair); arrays and inline tables
nest fewer than 80 deep. A leading byte order mark is skipped.
-/
namespace InventoryGraph
namespace Toml

def splitKey (ks : List String) : Option (List String × String) :=
  ks.getLast?.map fun k => (ks.dropLast, k)

mutual
/-- A value at the head of the input, inside `depth` arrays and inline tables. -/
def value : Nat → Nat → List Char → Option (Value × List Char)
  | 0, _, _ => none
  | fuel + 1, depth, cs =>
    match cs with
    | '"' :: '"' :: '"' :: r =>
      let body := dropFirstBreak r
      (multiBasic (body.length + 1) [] body).map fun p => (.scalar (.str p.1), p.2)
    | '"' :: r => (basicString [] r).map fun p => (.scalar (.str p.1), p.2)
    | '\'' :: '\'' :: '\'' :: r =>
      (multiLiteral [] (dropFirstBreak r)).map fun p => (.scalar (.str p.1), p.2)
    | '\'' :: r => (literalString [] r).map fun p => (.scalar (.str p.1), p.2)
    | 't' :: 'r' :: 'u' :: 'e' :: r => some (.scalar (.bool true), r)
    | 'f' :: 'a' :: 'l' :: 's' :: 'e' :: r => some (.scalar (.bool false), r)
    | '[' :: r => if depth + 1 < nestingLimit then items fuel (depth + 1) [] r else none
    | '\x7b' :: r => if depth + 1 < nestingLimit then inlineTable fuel (depth + 1) [] r else none
    | 'i' :: _ | 'n' :: _ =>
      match specialFloat cs with
      | .found j r => some (.scalar j, r)
      | _ => none
    | c :: _ =>
      if c = '+' ∨ c = '-' ∨ c.isDigit then
        match number cs with
        | .found v r => some (v, r)
        | _ => none
      else none
    | [] => none

/-- The items of an array after its opening bracket or a comma, those read so far
    reversed. -/
def items : Nat → Nat → List Value → List Char → Option (Value × List Char)
  | 0, _, _, _ => none
  | fuel + 1, depth, acc, cs =>
    match skipSpace cs.length cs with
    | ']' :: r => some (.array acc.reverse, r)
    | cs =>
      match value fuel depth cs with
      | none => none
      | some (v, r) =>
        match skipSpace r.length r with
        | ',' :: r => items fuel depth (v :: acc) r
        | ']' :: r => some (.array (v :: acc).reverse, r)
        | _ => none

/-- The pairs of an inline table after its opening brace or a comma, the table read so
    far. -/
def inlineTable : Nat → Nat → Table → List Char → Option (Value × List Char)
  | 0, _, _, _ => none
  | fuel + 1, depth, t, cs =>
    match skipBlank cs, t with
    | '\x7d' :: r, [] => some (.inline false [], r)
    | cs, _ => do
      let (path, r) ← dottedKey cs
      let r ← match r with
        | '=' :: r => some r
        | _ => none
      let (v, r) ← value fuel depth (skipBlank r)
      let (front, k) ← splitKey path
      let t ← insertInline front k v t
      match skipBlank r with
      | ',' :: r => inlineTable fuel depth t r
      | '\x7d' :: r => some (.inline false t, r)
      | _ => none
end

/-- The lines of a document from the input on: the document so far and the path of the
    table that pairs go into. -/
def lines : Nat → Table → List String → List Char → Option Table
  | 0, _, _, _ => none
  | fuel + 1, doc, current, cs =>
    match skipBlank cs with
    | [] => some doc
    | '\n' :: r => lines fuel doc current r
    | '\r' :: '\n' :: r => lines fuel doc current r
    | '#' :: r => do
      let r ← endLine ('#' :: r)
      lines fuel doc current r
    | '[' :: '[' :: r => do
      let (path, r) ← dottedKey r
      let r ← match r with
        | ']' :: ']' :: r => some r
        | _ => none
      let r ← endLine r
      let (front, k) ← splitKey path
      let doc ← appendTable front k doc
      lines fuel doc path r
    | '[' :: r => do
      let (path, r) ← dottedKey r
      let r ← match r with
        | ']' :: r => some r
        | _ => none
      let r ← endLine r
      let (front, k) ← splitKey path
      let doc ← defineTable front k doc
      lines fuel doc path r
    | cs => do
      let (path, r) ← dottedKey cs
      let r ← match r with
        | '=' :: r => some r
        | _ => none
      let (v, r) ← value r.length 0 (skipBlank r)
      let r ← endLine r
      let (front, k) ← splitKey path
      let doc ← modifyAt .implicit (insertPair front k v) current .header doc
      lines fuel doc current r

def parse (s : String) : Option Table :=
  let cs := match s.toList with
    | '\uFEFF' :: cs => cs
    | cs => cs
  lines (cs.length + 1) [] [] cs

end Toml
end InventoryGraph
