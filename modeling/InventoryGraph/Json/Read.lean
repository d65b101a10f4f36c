import InventoryGraph.Json.Basic

/-!
Reading JSON text. Blanks are space, tab, line feed and carriage return; arrays and
objects nest at most 127 deep; a string refuses raw control characters and unpaired
surrogate escapes.

A loose reading checks only the form of the text, as a decoder does with a member it skips:
nesting has no limit, and a string with an unpaired surrogate escape, a number beyond the
doubles, or an object with such a string as a key reads as `Json.unrepresentable`, a NaN
that no document field of text, truth values or lists accepts.

Numbers follow one rule. The digits are gathered into a 64-bit unsigned significand: an
integer digit that no longer fits raises the decimal exponent instead, and a fraction
digit that no longer fits ends the fraction, as do all after it. A number without
fraction or exponent whose digits all fit is an integer, unless it is negative and below
`-2^63` or is `-0`; every other number is `Binary64.ofDecimal` of the significand and
exponent, and is refused when that overflows. An exponent past `2^31 - 1` gives a zero,
or is refused when it is positive and the significand is not zero.
-/
namespace InventoryGraph
namespace Json

def isBlank (c : Char) : Bool := c == ' ' || c == '\t' || c == '\n' || c == '\r'

def skipBlank : List Char → List Char
  | [] => []
  | c :: cs => if isBlank c then skipBlank cs else c :: cs

def hexValue (c : Char) : Option Nat :=
  if '0' ≤ c ∧ c ≤ '9' then some (c.toNat - 48)
  else if 'a' ≤ c ∧ c ≤ 'f' then some (c.toNat - 87)
  else if 'A' ≤ c ∧ c ≤ 'F' then some (c.toNat - 55)
  else none

def hex4 (a b c d : Char) : Option Nat := do
  let a ← hexValue a
  let b ← hexValue b
  let c ← hexValue c
  let d ← hexValue d
  pure (((a * 16 + b) * 16 + c) * 16 + d)

/-- The character a simple escape stands for. -/
def simpleEscape (c : Char) : Option Char :=
  if c = '"' then some '"'
  else if c = '\\' then some '\\'
  else if c = '/' then some '/'
  else if c = 'b' then some (Char.ofNat 8)
  else if c = 'f' then some (Char.ofNat 12)
  else if c = 'n' then some '\n'
  else if c = 'r' then some '\r'
  else if c = 't' then some '\t'
  else none

/-- The body of a string literal after its opening quote, with the characters read so far
    in reverse: the string, or `none` for one whose escapes name no character, which only a
    `loose` reading accepts (`paired` says none was met yet). -/
def readString (loose paired : Bool) (acc : List Char) :
    List Char → Option (Option String × List Char)
  | [] => none
  | '"' :: r => some (if paired then some (String.ofList acc.reverse) else none, r)
  | '\\' :: 'u' :: a :: b :: c :: d :: r =>
    match hex4 a b c d with
    | none => none
    | some n =>
      if 0xD800 ≤ n ∧ n < 0xDC00 then
        match r with
        | '\\' :: 'u' :: e :: f :: g :: h :: r' =>
          match hex4 e f g h with
          | some m =>
            if 0xDC00 ≤ m ∧ m < 0xE000 then
              readString loose paired
                (Char.ofNat (0x10000 + (n - 0xD800) * 0x400 + (m - 0xDC00)) :: acc) r'
            else if loose then readString loose false acc ('\\' :: 'u' :: e :: f :: g :: h :: r')
            else none
          | none => none
        | rest => if loose then readString loose false acc rest else none
      else if 0xDC00 ≤ n ∧ n < 0xE000 then
        if loose then readString loose false acc r else none
      else readString loose paired (Char.ofNat n :: acc) r
  | '\\' :: e :: r =>
    match simpleEscape e with
    | some c => readString loose paired (c :: acc) r
    | none => none
  | c :: r => if c.toNat < 0x20 then none else readString loose paired (c :: acc) r

def maxSignificand : Nat := 18446744073709551615

/-- Integer digits gathered into a significand; once a digit does not fit, it and every
    later one raise the exponent. -/
def gatherInteger : Nat × Nat × Bool → List Char → Nat × Nat × Bool
  | s, [] => s
  | (sig, raised, full), d :: ds =>
    let v := sig * 10 + (d.toNat - 48)
    if !full && v ≤ maxSignificand then gatherInteger (v, raised, false) ds
    else gatherInteger (sig, raised + 1, true) ds

/-- Fraction digits gathered into a significand, with the number taken; the first digit
    that does not fit ends the fraction. -/
def gatherFraction : Nat × Nat → List Char → Nat × Nat
  | s, [] => s
  | (sig, taken), d :: ds =>
    let v := sig * 10 + (d.toNat - 48)
    if v ≤ maxSignificand then gatherFraction (v, taken + 1) ds else (sig, taken)

def digitSpan (cs : List Char) : List Char × List Char :=
  (cs.takeWhile Char.isDigit, cs.dropWhile Char.isDigit)

def digitsValue (ds : List Char) : Nat := ds.foldl (fun n d => n * 10 + (d.toNat - 48)) 0

def clampExponent (e : Int) : Int := max (-2147483648) (min 2147483647 e)

/-- The number, once significand and starting exponent are known, with the exponent part
    (after the `e`) still to read. -/
def readExponent (neg : Bool) (sig : Nat) (start : Int) (cs : List Char) :
    Option (Json × List Char) :=
  let (up, cs) := match cs with
    | '+' :: r => (true, r)
    | '-' :: r => (false, r)
    | r => (true, r)
  let (ds, rest) := digitSpan cs
  if ds.isEmpty then none
  else
    let e := digitsValue ds
    if 2147483647 < e then
      if sig ≠ 0 ∧ up then none else some (.float (Binary64.zero neg), rest)
    else
      let final := clampExponent (if up then start + e else start - e)
      (Binary64.ofDecimal neg sig final).map fun x => (.float x, rest)

/-- A number literal at the head of the input. -/
def readNumber (cs : List Char) : Option (Json × List Char) :=
  let (neg, cs) := match cs with
    | '-' :: r => (true, r)
    | r => (false, r)
  let (ds, rest) := digitSpan cs
  match ds with
  | [] => none
  | d :: more =>
    if d = '0' ∧ !more.isEmpty then none
    else
      let (sig, raised, full) := gatherInteger (0, 0, false) ds
      match rest with
      | '.' :: r =>
        let (fs, r') := digitSpan r
        if fs.isEmpty then none
        else
          let (sig', taken) := gatherFraction (sig, 0) fs
          let start : Int := (raised : Int) - taken
          match r' with
          | 'e' :: r2 => readExponent neg sig' start r2
          | 'E' :: r2 => readExponent neg sig' start r2
          | _ => (Binary64.ofDecimal neg sig' start).map fun x => (.float x, r')
      | 'e' :: r => readExponent neg sig raised r
      | 'E' :: r => readExponent neg sig raised r
      | _ =>
        if full then (Binary64.ofDecimal neg sig raised).map fun x => (.float x, rest)
        else if !neg then some (.int sig, rest)
        else if sig = 0 then some (.float (Binary64.zero true), rest)
        else if sig ≤ Nat.pow 2 63 then some (.int (-(sig : Int)), rest)
        else some (.float (Binary64.ofNat sig).negate, rest)

def skipDigits (cs : List Char) : List Char := cs.dropWhile Char.isDigit

/-- The rest of the input after a number literal of the right form, whatever its value:
    an optional minus, `0` or digits not starting with `0`, an optional fraction and an
    optional exponent, each with digits. -/
def numberForm (cs : List Char) : Option (List Char) :=
  let cs := match cs with
    | '-' :: r => r
    | r => r
  let afterInt := match cs with
    | '0' :: r => some r
    | d :: r => if d.isDigit then some (skipDigits r) else none
    | [] => none
  let afterFraction := afterInt.bind fun r => match r with
    | '.' :: d :: r' => if d.isDigit then some (skipDigits r') else none
    | ['.'] => none
    | r => some r
  afterFraction.bind fun r =>
    let exponent := match r with
      | 'e' :: r' => some r'
      | 'E' :: r' => some r'
      | _ => none
    match exponent with
    | none => some r
    | some r' =>
      let r' := match r' with
        | '+' :: x => x
        | '-' :: x => x
        | x => x
      match r' with
      | d :: x => if d.isDigit then some (skipDigits x) else none
      | [] => none

def unrepresentable : Json := .float ⟨0x7FF8000000000000⟩

/-- A number at the head of the input, read loosely: a literal of the right form whose value
    is out of range is `unrepresentable`. -/
def readLooseNumber (cs : List Char) : Option (Json × List Char) :=
  match readNumber cs with
  | some p => some p
  | none => (numberForm cs).map fun r => (unrepresentable, r)

def maxDepth : Nat := 127

mutual
/-- A value at the head of the input, inside `depth` open arrays and objects. -/
def readValue (loose : Bool) : Nat → Nat → List Char → Option (Json × List Char)
  | 0, _, _ => none
  | fuel + 1, depth, cs =>
    match skipBlank cs with
    | 'n' :: 'u' :: 'l' :: 'l' :: r => some (.null, r)
    | 't' :: 'r' :: 'u' :: 'e' :: r => some (.bool true, r)
    | 'f' :: 'a' :: 'l' :: 's' :: 'e' :: r => some (.bool false, r)
    | '"' :: r =>
      (readString loose true [] r).map fun p => ((p.1.map Json.str).getD unrepresentable, p.2)
    | '[' :: r => if loose ∨ depth < maxDepth then readItems loose fuel (depth + 1) [] r else none
    | '\x7b' :: r =>
      if loose ∨ depth < maxDepth then readMembers loose fuel (depth + 1) true [] r else none
    | r => if loose then readLooseNumber r else readNumber r

/-- The items of an array after its opening bracket or a comma, those read so far in
    reverse. -/
def readItems (loose : Bool) : Nat → Nat → List Json → List Char → Option (Json × List Char)
  | 0, _, _, _ => none
  | fuel + 1, depth, acc, cs =>
    match acc, skipBlank cs with
    | [], ']' :: r => some (.arr [], r)
    | _, _ =>
      match readValue loose fuel depth cs with
      | none => none
      | some (v, r) =>
        match skipBlank r with
        | ',' :: r' => readItems loose fuel depth (v :: acc) r'
        | ']' :: r' => some (.arr (v :: acc).reverse, r')
        | _ => none

/-- The members of an object after its opening brace or a comma, those read so far in
    reverse; `keyed` says every key so far names characters. -/
def readMembers (loose : Bool) :
    Nat → Nat → Bool → List (String × Json) → List Char → Option (Json × List Char)
  | 0, _, _, _, _ => none
  | fuel + 1, depth, keyed, acc, cs =>
    match acc, skipBlank cs with
    | [], '\x7d' :: r => some (.obj [], r)
    | _, '"' :: r =>
      match readString loose true [] r with
      | none => none
      | some (k, r) =>
        match skipBlank r with
        | ':' :: r =>
          match readValue loose fuel depth r with
          | none => none
          | some (v, r) =>
            let keyed := keyed && k.isSome
            let acc := (k.getD "", v) :: acc
            match skipBlank r with
            | ',' :: r' => readMembers loose fuel depth keyed acc r'
            | '\x7d' :: r' => some (if keyed then .obj acc.reverse else unrepresentable, r')
            | _ => none
        | _ => none
    | _, _ => none
end

def parseWith (loose : Bool) (s : String) : Option Json :=
  let cs := s.toList
  match readValue loose (3 * cs.length + 3) 0 cs with
  | some (v, r) => if (skipBlank r).isEmpty then some v else none
  | none => none

def parse (s : String) : Option Json := parseWith false s

def parseLoose (s : String) : Option Json := parseWith true s

end Json
end InventoryGraph
