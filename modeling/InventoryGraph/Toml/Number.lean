import InventoryGraph.Toml.Basic
import InventoryGraph.Json.Read

/-!
The values of TOML that start with a sign or a digit: dates and times, floats and
integers, tried in that order on the same input.

Reading one of them either finds it, finds that the input does not start with it (and the
next kind is tried), or finds the input malformed past a point where no other kind could
start (and the document is refused). A date is `YYYY-MM-DD` with the day in its month,
leap years counted; once `YYYY-` is read, the rest must follow. A time is `HH:MM:SS` with
an optional fraction of digits; an hour above 23 means no time, and once `HH:` is read,
minutes to 59 and seconds to 60 must follow. A date may take `T`, `t` or a space and a
time, and then an offset `Z`, `z` or `±HH:MM`.

Digits may have single underscores between them. A decimal integer is `0` or starts with
a nonzero digit; `0x`, `0o` and `0b` start unsigned hex, octal and binary integers. Every
integer fits 64 signed bits. A float has a fraction, an exponent or both, and is the
double nearest to its decimal value, refused when that is positive infinity; `inf` and
`nan` take a sign.
-/
namespace InventoryGraph
namespace Toml

/-- The outcome of reading one kind of value at the head of the input. -/
inductive Scan (α : Type) where
  | absent
  | malformed
  | found (a : α) (rest : List Char)

def consumed (cs rest : List Char) : String := String.ofList (cs.take (cs.length - rest.length))

/-- A run of digits with single underscores between them, after its first digit: the digits
    without underscores and the rest; `none` when an underscore is not followed by a
    digit. -/
def digitRun (isDigit : Char → Bool) (acc : List Char) : List Char → Option (List Char × List Char)
  | [] => some (acc.reverse, [])
  | '_' :: d :: r => if isDigit d then digitRun isDigit (d :: acc) r else none
  | ['_'] => none
  | c :: r => if isDigit c then digitRun isDigit (c :: acc) r else some (acc.reverse, c :: r)

def requiredRun (isDigit : Char → Bool) (cs : List Char) : Scan (List Char) :=
  match cs with
  | d :: r =>
    if isDigit d then
      match digitRun isDigit [d] r with
      | some (ds, r) => .found ds r
      | none => .malformed
    else .malformed
  | [] => .malformed

def sign : List Char → Bool × List Char
  | '+' :: r => (false, r)
  | '-' :: r => (true, r)
  | r => (false, r)

/-- A decimal integer with an optional sign: whether it is negative, its digits, and the
    rest. Its first digit is `0`, alone, or a nonzero digit that starts a run. -/
def decimalDigits (cs : List Char) : Scan (Bool × List Char) :=
  let (neg, r) := sign cs
  match r with
  | '0' :: r => .found (neg, ['0']) r
  | d :: r' =>
    if d.isDigit then
      match digitRun Char.isDigit [d] r' with
      | some (ds, r') => .found (neg, ds) r'
      | none => .malformed
    else .absent
  | [] => .absent

def digitsIn (base : Nat) (ds : List Char) : Nat :=
  ds.foldl (fun n d => n * base + ((Json.hexValue d).getD 0)) 0

def int64 (i : Int) : Option Json :=
  if -9223372036854775808 ≤ i ∧ i ≤ 9223372036854775807 then some (.int i) else none

def radixInteger (base : Nat) (isDigit : Char → Bool) (cs : List Char) : Scan Json :=
  match requiredRun isDigit cs with
  | .found ds r =>
    match int64 (digitsIn base ds) with
    | some j => .found j r
    | none => .malformed
  | .absent => .absent
  | .malformed => .malformed

def isHexDigit (c : Char) : Bool := (Json.hexValue c).isSome

def isOctDigit (c : Char) : Bool := '0' ≤ c && c ≤ '7'

def isBinDigit (c : Char) : Bool := c == '0' || c == '1'

/-- An integer at the head of the input. -/
def integer (cs : List Char) : Scan Json :=
  match cs with
  | '0' :: 'x' :: r => radixInteger 16 isHexDigit r
  | '0' :: 'o' :: r => radixInteger 8 isOctDigit r
  | '0' :: 'b' :: r => radixInteger 2 isBinDigit r
  | _ =>
    match decimalDigits cs with
    | .found (neg, ds) r =>
      let n : Int := Json.digitsValue ds
      match int64 (if neg then -n else n) with
      | some j => .found j r
      | none => .malformed
    | .absent => .absent
    | .malformed => .malformed

def specialFloat (cs : List Char) : Scan Json :=
  let (neg, r) := sign cs
  match r with
  | 'i' :: 'n' :: 'f' :: r => .found (.float (Binary64.infinity neg)) r
  | 'n' :: 'a' :: 'n' :: r =>
    .found (.float (if neg then (⟨0x7FF8000000000000⟩ : Binary64).negate else ⟨0x7FF8000000000000⟩)) r
  | _ => .absent

def exponentPart (cs : List Char) : Scan Int :=
  let (neg, r) := sign cs
  match requiredRun Char.isDigit r with
  | .found ds r =>
    let e : Int := Json.digitsValue ds
    .found (if neg then -e else e) r
  | .absent => .absent
  | .malformed => .malformed

/-- A float from its sign, its digits with the count of those after the point, and its
    exponent: refused when it rounds to positive infinity. -/
def floatOf (neg : Bool) (ds : List Char) (fractionDigits : Nat) (e : Int) (r : List Char) :
    Scan Json :=
  let x := Binary64.ofDecimalNearest neg (Json.digitsValue ds) (e - fractionDigits)
  if x = Binary64.infinity false then .malformed else .found (.float x) r

def optionalExponent (cs : List Char) : Scan Int :=
  match cs with
  | 'e' :: r => exponentPart r
  | 'E' :: r => exponentPart r
  | r => .found 0 r

/-- A float at the head of the input. -/
def float (cs : List Char) : Scan Json :=
  match decimalDigits cs with
  | .malformed => .malformed
  | .absent => specialFloat cs
  | .found (neg, ds) r =>
    match r with
    | 'e' :: r' | 'E' :: r' =>
      match exponentPart r' with
      | .found e r'' => floatOf neg ds 0 e r''
      | _ => .malformed
    | '.' :: r' =>
      match requiredRun Char.isDigit r' with
      | .found fs r'' =>
        match optionalExponent r'' with
        | .found e r3 => floatOf neg (ds ++ fs) fs.length e r3
        | _ => .malformed
      | _ => .malformed
    | _ => specialFloat cs

def fixedDigits (n : Nat) (cs : List Char) : Option (Nat × List Char) :=
  let ds := cs.take n
  if ds.length = n ∧ ds.all Char.isDigit then some (Json.digitsValue ds, cs.drop n) else none

def isLeapYear (y : Nat) : Bool := y % 4 == 0 && (y % 100 != 0 || y % 400 == 0)

def daysInMonth (y m : Nat) : Nat :=
  if m = 2 then (if isLeapYear y then 29 else 28)
  else if m = 4 ∨ m = 6 ∨ m = 9 ∨ m = 11 then 30
  else 31

/-- A date `YYYY-MM-DD`: absent unless four digits and a dash start the input. -/
def fullDate (cs : List Char) : Scan Unit :=
  match fixedDigits 4 cs with
  | some (y, '-' :: r) =>
    match fixedDigits 2 r with
    | some (m, '-' :: r) =>
      if 1 ≤ m ∧ m ≤ 12 then
        match fixedDigits 2 r with
        | some (d, r) => if 1 ≤ d ∧ d ≤ daysInMonth y m then .found () r else .malformed
        | none => .malformed
      else .malformed
    | _ => .malformed
  | _ => .absent

def skipSecondFraction : List Char → List Char
  | '.' :: d :: r => if d.isDigit then r.dropWhile Char.isDigit else '.' :: d :: r
  | r => r

/-- A time `HH:MM:SS` with an optional fraction: absent unless an hour to 23 and a colon
    start the input. -/
def partialTime (cs : List Char) : Scan Unit :=
  match fixedDigits 2 cs with
  | some (h, ':' :: r) =>
    if h ≤ 23 then
      match fixedDigits 2 r with
      | some (m, ':' :: r) =>
        if m ≤ 59 then
          match fixedDigits 2 r with
          | some (s, r) => if s ≤ 60 then .found () (skipSecondFraction r) else .malformed
          | none => .malformed
        else .malformed
      | _ => .malformed
    else .absent
  | _ => .absent

/-- An offset from UTC: `Z`, `z`, or a sign and `HH:MM`. -/
def timeOffset (cs : List Char) : Scan Unit :=
  match cs with
  | 'Z' :: r => .found () r
  | 'z' :: r => .found () r
  | s :: r =>
    if s = '+' ∨ s = '-' then
      match fixedDigits 2 r with
      | some (h, ':' :: r) =>
        if h ≤ 23 then
          match fixedDigits 2 r with
          | some (m, r) => if m ≤ 59 then .found () r else .malformed
          | none => .malformed
        else .malformed
      | _ => .malformed
    else .absent
  | [] => .absent

/-- The time, with its offset if any, that may follow a date after `T`, `t` or a space. -/
def timeOfDate (cs : List Char) : Scan Unit :=
  match cs with
  | c :: r =>
    if c = 'T' ∨ c = 't' ∨ c = ' ' then
      match partialTime r with
      | .found () r =>
        match timeOffset r with
        | .found () r' => .found () r'
        | .absent => .found () r
        | .malformed => .malformed
      | .absent => .absent
      | .malformed => .malformed
    else .absent
  | [] => .absent

/-- A date, a date and a time, or a time at the head of the input, as written. -/
def dateTime (cs : List Char) : Scan String :=
  match fullDate cs with
  | .found () r =>
    match timeOfDate r with
    | .found () r' => .found (consumed cs r') r'
    | .absent => .found (consumed cs r) r
    | .malformed => .malformed
  | .malformed => .malformed
  | .absent =>
    match partialTime cs with
    | .found () r => .found (consumed cs r) r
    | .absent => .absent
    | .malformed => .malformed

/-- A value that starts with a sign or a digit: a date or time, else a float, else an
    integer. -/
def number (cs : List Char) : Scan Value :=
  match dateTime cs with
  | .found t r => .found (.dateTime t) r
  | .malformed => .malformed
  | .absent =>
    match float cs with
    | .found j r => .found (.scalar j) r
    | .malformed => .malformed
    | .absent =>
      match integer cs with
      | .found j r => .found (.scalar j) r
      | .malformed => .malformed
      | .absent => .absent

end Toml
end InventoryGraph
