import InventoryGraph.Json.Read

/-!
The text of TOML documents below the level of values: blanks, comments and line ends,
strings in their four forms, and keys.

Blanks are spaces and tabs, and a line ends with a line feed or a carriage return and a
line feed. A comment runs from `#` to the line's end and may hold tabs, printable ASCII
and any character beyond ASCII; any other control character ends it early, so the line
does not end where it must. A basic string takes the escapes `\b \t \n \f \r \" \\`,
`\uXXXX` and `\UXXXXXXXX` naming a Unicode scalar value; no string holds a control
character other than a tab as itself, a multi-line one besides its line ends. A key is
bare (ASCII letters, digits, `_`, `-`) or quoted, and a dotted key is such keys joined by
dots, blanks around them allowed, fewer than 80 of them.
-/
namespace InventoryGraph
namespace Toml

def isBlank (c : Char) : Bool := c == ' ' || c == '\t'

def skipBlank : List Char → List Char
  | [] => []
  | c :: cs => if isBlank c then skipBlank cs else c :: cs

def isCommentChar (c : Char) : Bool :=
  c == '\t' || (0x20 ≤ c.toNat && c.toNat ≤ 0x7E) || 0x80 ≤ c.toNat

def skipComment : List Char → List Char
  | '#' :: cs => cs.dropWhile isCommentChar
  | cs => cs

def skipSpace : Nat → List Char → List Char
  | 0, cs => cs
  | fuel + 1, cs =>
    match skipBlank cs with
    | '\n' :: r => skipSpace fuel r
    | '\r' :: '\n' :: r => skipSpace fuel r
    | '#' :: r => skipSpace fuel (skipComment ('#' :: r))
    | r => r

def endLine (cs : List Char) : Option (List Char) :=
  match skipComment (skipBlank cs) with
  | [] => some []
  | '\n' :: r => some r
  | '\r' :: '\n' :: r => some r
  | _ => none

def isBareKeyChar (c : Char) : Bool := c.isAlphanum || c == '_' || c == '-'

def unicodeScalar (n : Nat) : Option Char :=
  if n < 0xD800 ∨ (0xDFFF < n ∧ n ≤ 0x10FFFF) then some (Char.ofNat n) else none

def hexValue (ds : List Char) : Option Nat :=
  ds.foldlM (fun n d => (Json.hexValue d).map fun v => n * 16 + v) 0

def simpleEscape (c : Char) : Option Char :=
  if c = 'b' then some (Char.ofNat 8)
  else if c = 't' then some '\t'
  else if c = 'n' then some '\n'
  else if c = 'f' then some (Char.ofNat 12)
  else if c = 'r' then some '\r'
  else if c = '"' then some '"'
  else if c = '\\' then some '\\'
  else none

def isControl (c : Char) : Bool := (c.toNat < 0x20 && c != '\t') || c.toNat == 0x7F

/-- The body of a basic string after its opening quote, characters read so far reversed. -/
def basicString (acc : List Char) : List Char → Option (String × List Char)
  | [] => none
  | '"' :: r => some (String.ofList acc.reverse, r)
  | '\\' :: 'u' :: a :: b :: c :: d :: r =>
    match (hexValue [a, b, c, d]).bind unicodeScalar with
    | some ch => basicString (ch :: acc) r
    | none => none
  | '\\' :: 'U' :: a :: b :: c :: d :: e :: f :: g :: h :: r =>
    match (hexValue [a, b, c, d, e, f, g, h]).bind unicodeScalar with
    | some ch => basicString (ch :: acc) r
    | none => none
  | '\\' :: e :: r =>
    match simpleEscape e with
    | some ch => basicString (ch :: acc) r
    | none => none
  | c :: r => if isControl c then none else basicString (c :: acc) r

def literalString (acc : List Char) : List Char → Option (String × List Char)
  | [] => none
  | '\'' :: r => some (String.ofList acc.reverse, r)
  | c :: r => if isControl c then none else literalString (c :: acc) r

/-- The input after blanks and line ends, as a backslash at a line's end skips them; a
    carriage return without a line feed is no line end and stays. -/
def skipBlankLines : List Char → List Char
  | [] => []
  | '\r' :: '\n' :: cs => skipBlankLines cs
  | c :: cs => if isBlank c || c == '\n' then skipBlankLines cs else c :: cs

/-- The body of a multi-line basic string; up to two quotes may end its text. A backslash
    at the end of a line skips the line end and the blanks and line ends after it. -/
def multiBasic : Nat → List Char → List Char → Option (String × List Char)
  | 0, _, _ => none
  | _ + 1, _, [] => none
  | _ + 1, acc, '"' :: '"' :: '"' :: '"' :: '"' :: r =>
    some (String.ofList ('"' :: '"' :: acc).reverse, r)
  | _ + 1, acc, '"' :: '"' :: '"' :: '"' :: r => some (String.ofList ('"' :: acc).reverse, r)
  | _ + 1, acc, '"' :: '"' :: '"' :: r => some (String.ofList acc.reverse, r)
  | fuel + 1, acc, '\\' :: 'u' :: a :: b :: c :: d :: r =>
    match (hexValue [a, b, c, d]).bind unicodeScalar with
    | some ch => multiBasic fuel (ch :: acc) r
    | none => none
  | fuel + 1, acc, '\\' :: 'U' :: a :: b :: c :: d :: e :: f :: g :: h :: r =>
    match (hexValue [a, b, c, d, e, f, g, h]).bind unicodeScalar with
    | some ch => multiBasic fuel (ch :: acc) r
    | none => none
  | fuel + 1, acc, '\\' :: e :: r =>
    if isBlank e || e == '\n' || e == '\r' then
      match skipBlank (e :: r) with
      | '\n' :: r' => multiBasic fuel acc (skipBlankLines r')
      | '\r' :: '\n' :: r' => multiBasic fuel acc (skipBlankLines r')
      | _ => none
    else
      match simpleEscape e with
      | some ch => multiBasic fuel (ch :: acc) r
      | none => none
  | fuel + 1, acc, '\r' :: '\n' :: r => multiBasic fuel ('\n' :: acc) r
  | fuel + 1, acc, c :: r =>
    if isControl c && c != '\n' then none else multiBasic fuel (c :: acc) r

def multiLiteral (acc : List Char) : List Char → Option (String × List Char)
  | [] => none
  | '\'' :: '\'' :: '\'' :: '\'' :: '\'' :: r =>
    some (String.ofList ('\'' :: '\'' :: acc).reverse, r)
  | '\'' :: '\'' :: '\'' :: '\'' :: r => some (String.ofList ('\'' :: acc).reverse, r)
  | '\'' :: '\'' :: '\'' :: r => some (String.ofList acc.reverse, r)
  | '\r' :: '\n' :: r => multiLiteral ('\n' :: acc) r
  | c :: r => if isControl c && c != '\n' then none else multiLiteral (c :: acc) r

def dropFirstBreak : List Char → List Char
  | '\n' :: r => r
  | '\r' :: '\n' :: r => r
  | r => r

def simpleKey (cs : List Char) : Option (String × List Char) :=
  match cs with
  | '"' :: r => basicString [] r
  | '\'' :: r => literalString [] r
  | _ =>
    let k := cs.takeWhile isBareKeyChar
    if k.isEmpty then none else some (String.ofList k, cs.dropWhile isBareKeyChar)

def dottedKeys : Nat → List String → List Char → Option (List String × List Char)
  | 0, _, _ => none
  | fuel + 1, acc, cs => do
    let (k, r) ← simpleKey (skipBlank cs)
    match skipBlank r with
    | '.' :: r => dottedKeys fuel (k :: acc) r
    | r => some ((k :: acc).reverse, r)

def nestingLimit : Nat := 80

def dottedKey (cs : List Char) : Option (List String × List Char) := do
  let (ks, r) ← dottedKeys cs.length [] cs
  if ks.length < nestingLimit then some (ks, r) else none

end Toml
end InventoryGraph
