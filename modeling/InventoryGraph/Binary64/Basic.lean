/-!
Binary64 values kept as their bit pattern: a sign bit, an eleven-bit biased exponent and a
52-bit fraction. Two values are equal exactly when their bits are, so `0.0` and `-0.0`
differ. A finite value is read as `m · 2^q` with a natural `m`; rounding a ratio of
naturals to the nearest value, a tie going to the even significand, is exact `Nat`
arithmetic, and the product and quotient of two values are that rounding of the exact
result.
-/
namespace InventoryGraph

/-- A binary64 floating-point value, kept as its 64 bits. -/
structure Binary64 where
  bits : UInt64
  deriving DecidableEq, Inhabited, Repr

namespace Binary64

def negative (x : Binary64) : Bool := decide (Nat.pow 2 63 ≤ x.bits.toNat)

def biasedExponent (x : Binary64) : Nat := x.bits.toNat / Nat.pow 2 52 % Nat.pow 2 11

def fraction (x : Binary64) : Nat := x.bits.toNat % Nat.pow 2 52

def isFinite (x : Binary64) : Bool := decide (x.biasedExponent < 2047)

def isNaN (x : Binary64) : Bool := x.biasedExponent == 2047 && x.fraction != 0

def significand (x : Binary64) : Nat :=
  if x.biasedExponent = 0 then x.fraction else x.fraction + Nat.pow 2 52

def exponent (x : Binary64) : Int :=
  if x.biasedExponent = 0 then -1074 else (x.biasedExponent : Int) - 1075

def isZero (x : Binary64) : Bool := x.isFinite && x.significand == 0

def ofFields (neg : Bool) (e f : Nat) : Binary64 :=
  ⟨UInt64.ofNat ((if neg then Nat.pow 2 63 else 0) + e % Nat.pow 2 11 * Nat.pow 2 52 + f % Nat.pow 2 52)⟩

def zero (neg : Bool) : Binary64 := ofFields neg 0 0

def infinity (neg : Bool) : Binary64 := ofFields neg 2047 0

def negate (x : Binary64) : Binary64 := ofFields (!x.negative) x.biasedExponent x.fraction

def roundHalfEven (num den : Nat) : Nat :=
  let q := num / den
  let r := num % den
  if den < 2 * r ∨ (2 * r = den ∧ q % 2 = 1) then q + 1 else q

def shiftedRatio (num den : Nat) (k : Int) : Nat × Nat :=
  if 0 ≤ k then (num, den * Nat.pow 2 k.toNat) else (num * Nat.pow 2 (-k).toNat, den)

/-- The exponent of the last of 53 significant bits of `num / den`, never below the
    subnormal exponent `-1074`. With `num` in `[2^A, 2^(A+1))` and `den` in
    `[2^B, 2^(B+1))` the ratio over `2^(A-B-52)` lies in `(2^51, 2^53)`, so one step down
    reaches `[2^52, 2^53)`. -/
def ratioExponent (num den : Nat) : Int :=
  let k : Int := (num.log2 : Int) - den.log2 - 52
  let p := shiftedRatio num den k
  max (if p.1 / p.2 < Nat.pow 2 52 then k - 1 else k) (-1074)

/-- The binary64 value nearest to `num / den` with sign `neg`: a tie goes to the even
    significand, a value past the largest finite one rounds to infinity, and a zero `num`
    (or a zero `den`, which has no ratio) gives the zero of that sign. -/
def ofRatio (neg : Bool) (num den : Nat) : Binary64 :=
  if num = 0 ∨ den = 0 then zero neg
  else
    let k := ratioExponent num den
    let p := shiftedRatio num den k
    let q := roundHalfEven p.1 p.2
    let q' := if q = Nat.pow 2 53 then Nat.pow 2 52 else q
    let k' := if q = Nat.pow 2 53 then k + 1 else k
    if 971 < k' then infinity neg
    else if q' < Nat.pow 2 52 then ofFields neg 0 q'
    else ofFields neg (k' + 1075).toNat (q' - Nat.pow 2 52)

def ofNat (n : Nat) : Binary64 := ofRatio false n 1

def scaleRatio (a : Nat) (k : Int) : Nat × Nat :=
  if 0 ≤ k then (a * Nat.pow 2 k.toNat, 1) else (a, Nat.pow 2 (-k).toNat)

def magnitude (x : Binary64) : Nat × Nat := scaleRatio x.significand x.exponent

def mul (x y : Binary64) : Binary64 :=
  let a := x.magnitude
  let b := y.magnitude
  ofRatio (x.negative != y.negative) (a.1 * b.1) (a.2 * b.2)

def div (x y : Binary64) : Binary64 :=
  let a := x.magnitude
  let b := y.magnitude
  ofRatio (x.negative != y.negative) (a.1 * b.2) (a.2 * b.1)

def powTen (i : Nat) : Binary64 := ofNat (Nat.pow 10 i)

/-- Scaling by powers of ten as the JSON reader does it: an exponent of at most 308 in
    size multiplies or divides once by `powTen`, and a product that overflows is out of
    range (`none`); a smaller exponent first divides by `powTen 308` until it fits, unless
    the value is already zero. -/
def scaleTen (f : Binary64) (e : Int) : Option Binary64 :=
  if small : e.natAbs ≤ 308 then
    if 0 ≤ e then
      let r := mul f (powTen e.toNat)
      if r.isFinite then some r else none
    else some (div f (powTen e.natAbs))
  else if f.isZero then some f
  else if h : 0 ≤ e then none
  else scaleTen (div f (powTen 308)) (e + 308)
termination_by e.natAbs
decreasing_by omega

/-- The value that the JSON reader gives `sig · 10^e` with sign `neg`: the significand is
    rounded to binary64 and then scaled by `scaleTen`, each step rounding to nearest. -/
def ofDecimal (neg : Bool) (sig : Nat) (e : Int) : Option Binary64 :=
  (scaleTen (ofNat sig) e).map fun f => if neg then f.negate else f

def decimalLength (n : Nat) : Nat := (toString n).length

/-- The binary64 value nearest to `sig · 10^e` with sign `neg`, a tie going to the even
    significand. With `d` digits in `sig` the value lies in `[10^(d+e-1), 10^(d+e))`: from
    `10^309` on it is past every finite value and rounds to the infinity, and below
    `10^-324` it is under half the least subnormal and rounds to the zero, so only the
    exponents between are computed exactly. -/
def ofDecimalNearest (neg : Bool) (sig : Nat) (e : Int) : Binary64 :=
  let top : Int := (decimalLength sig : Int) + e
  if sig = 0 then zero neg
  else if 310 ≤ top then infinity neg
  else if top ≤ -324 then zero neg
  else if 0 ≤ e then ofRatio neg (sig * Nat.pow 10 e.toNat) 1
  else ofRatio neg sig (Nat.pow 10 e.natAbs)

end Binary64
end InventoryGraph
