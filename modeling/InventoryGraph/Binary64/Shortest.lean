import InventoryGraph.Binary64.Basic

/-!
The shortest decimal that reads back as a given binary64 value, and its positional text.

A finite nonzero value is `mant · 2^exp` with neighbours `mant - minus` and `mant + plus`
on the same scale; the reals between the midpoints to those neighbours read back as the
value. The lower gap is half as wide when the fraction is zero, and the ends count when
`mant` is even (always, for a subnormal, whose significand is doubled). For
`n = 1, 2, …, 17` the two decimals with `n` significant digits around the value are tested
against that interval: the first `n` with a hit wins, of two hits the nearer one is taken,
and an exact tie goes to the larger digits.
-/
namespace InventoryGraph
namespace Binary64

/-- A finite nonzero value with the gaps to its neighbours, all on the scale `2^exp`. -/
structure Bracket where
  mant : Nat
  minus : Nat
  plus : Nat
  exp : Int
  inclusive : Bool

def bracket (x : Binary64) : Bracket :=
  if x.biasedExponent = 0 then ⟨2 * x.fraction, 1, 1, -1075, true⟩
  else if x.fraction = 0 then
    ⟨4 * Nat.pow 2 52, 1, 2, (x.biasedExponent : Int) - 1077, true⟩
  else
    ⟨2 * (x.fraction + Nat.pow 2 52), 1, 1, (x.biasedExponent : Int) - 1076,
      decide (x.fraction % 2 = 0)⟩

def compareScaled (c : Nat) (t : Int) (v : Nat) (e : Int) : Ordering :=
  compare (c * Nat.pow 10 t.toNat * Nat.pow 2 (-e).toNat) (v * Nat.pow 2 e.toNat * Nat.pow 10 (-t).toNat)

def floorScaled (mant : Nat) (exp t : Int) : Nat :=
  mant * Nat.pow 2 exp.toNat * Nat.pow 10 (-t).toNat / (Nat.pow 2 (-exp).toNat * Nat.pow 10 t.toNat)

def decimalExponent (b : Bracket) : Int :=
  (decimalLength (floorScaled b.mant b.exp (-400)) : Int) - 401

/-- The decimal with `n` significant digits that reads back and lies nearest the value,
    if one of the two around it reads back. -/
def pick? (b : Bracket) (e10 : Int) (n : Nat) : Option (Nat × Int) :=
  let t := e10 - n + 1
  let c := floorScaled b.mant b.exp t
  let lowOk := match compareScaled c t (b.mant - b.minus) b.exp with
    | .gt => true
    | .eq => b.inclusive
    | .lt => false
  let highOk := match compareScaled (c + 1) t (b.mant + b.plus) b.exp with
    | .lt => true
    | .eq => b.inclusive
    | .gt => false
  if lowOk && highOk then
    if compareScaled (2 * c + 1) t (2 * b.mant) b.exp == .gt then some (c, t)
    else some (c + 1, t)
  else if lowOk then some (c, t)
  else if highOk then some (c + 1, t)
  else none

def dropTrailingZeros (c : Nat) (t : Int) : Nat × Int :=
  if h : c ≠ 0 ∧ c % 10 = 0 then dropTrailingZeros (c / 10) (t + 1) else (c, t)
termination_by c
decreasing_by omega

/-- The shortest digits `c` and exponent `t` with `c · 10^t` reading back as the finite
    nonzero value `x`, `c` without trailing zeros. -/
def shortest (x : Binary64) : Nat × Int :=
  let b := bracket x
  let e10 := decimalExponent b
  let found := (List.range 17).findSome? fun i => pick? b e10 (i + 1)
  let r := found.getD (floorScaled b.mant b.exp (e10 - 16), e10 - 16)
  dropTrailingZeros r.1 r.2

def zeros (n : Nat) : String := String.ofList (List.replicate n '0')

def positional (c : Nat) (t : Int) : String :=
  let s := toString c
  if 0 ≤ t then s ++ zeros t.toNat
  else
    let k := (-t).toNat
    if k < s.length then
      String.ofList (s.toList.take (s.length - k)) ++ "." ++
        String.ofList (s.toList.drop (s.length - k))
    else "0." ++ zeros (k - s.length) ++ s

def display (x : Binary64) : String :=
  let sign := if x.negative then "-" else ""
  if x.isNaN then "NaN"
  else if !x.isFinite then sign ++ "inf"
  else if x.significand = 0 then sign ++ "0"
  else
    let r := shortest x
    sign ++ positional r.1 r.2

end Binary64
end InventoryGraph
