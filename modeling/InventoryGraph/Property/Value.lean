import InventoryGraph.Binary64.Shortest

/-!
Property values: strings, 64-bit integers, binary64 floats, booleans and lists of values.
Values of different kinds are never equal, and floats are equal exactly when their bits
are, so `0.0` and `-0.0` differ. The display text writes a string as itself, numbers in
decimal (floats with their shortest digits, positionally), booleans as `true` and
`false`, and a list as its items' texts between brackets, separated by `, `.
-/
namespace InventoryGraph

/-- A property value. -/
inductive PropertyValue where
  | str (s : String)
  | int (i : Int)
  | float (x : Binary64)
  | bool (b : Bool)
  | list (items : List PropertyValue)
  deriving Repr, Inhabited

namespace PropertyValue

mutual
/-- Equality of values is decided kind by kind and item by item. -/
def decEq : (a b : PropertyValue) → Decidable (a = b)
  | .str s, b => match b with
    | .str t =>
      if h : s = t then isTrue (by rw [h]) else isFalse (fun e => h (PropertyValue.str.inj e))
    | .int _ | .float _ | .bool _ | .list _ => isFalse (fun e => PropertyValue.noConfusion e)
  | .int i, b => match b with
    | .int j =>
      if h : i = j then isTrue (by rw [h]) else isFalse (fun e => h (PropertyValue.int.inj e))
    | .str _ | .float _ | .bool _ | .list _ => isFalse (fun e => PropertyValue.noConfusion e)
  | .float x, b => match b with
    | .float y =>
      if h : x = y then isTrue (by rw [h]) else isFalse (fun e => h (PropertyValue.float.inj e))
    | .str _ | .int _ | .bool _ | .list _ => isFalse (fun e => PropertyValue.noConfusion e)
  | .bool x, b => match b with
    | .bool y =>
      if h : x = y then isTrue (by rw [h]) else isFalse (fun e => h (PropertyValue.bool.inj e))
    | .str _ | .int _ | .float _ | .list _ => isFalse (fun e => PropertyValue.noConfusion e)
  | .list xs, b => match b with
    | .list ys =>
      match decEqItems xs ys with
      | isTrue h => isTrue (by rw [h])
      | isFalse h => isFalse (fun e => h (PropertyValue.list.inj e))
    | .str _ | .int _ | .float _ | .bool _ => isFalse (fun e => PropertyValue.noConfusion e)

/-- Equality of item lists. -/
def decEqItems : (xs ys : List PropertyValue) → Decidable (xs = ys)
  | [], [] => isTrue rfl
  | [], _ :: _ => isFalse (fun e => nomatch e)
  | _ :: _, [] => isFalse (fun e => nomatch e)
  | x :: xs, y :: ys =>
    match decEq x y, decEqItems xs ys with
    | isTrue h, isTrue k => isTrue (by rw [h, k])
    | isFalse h, _ => isFalse (fun e => h (List.cons.inj e).1)
    | _, isFalse k => isFalse (fun e => k (List.cons.inj e).2)
end

instance : DecidableEq PropertyValue := decEq

def minInt : Int := -9223372036854775808

def maxInt : Int := 9223372036854775807

mutual
def display : PropertyValue → String
  | .str s => s
  | .int i => toString i
  | .float x => x.display
  | .bool b => if b then "true" else "false"
  | .list items => "[" ++ displayItems items ++ "]"

def displayItems : List PropertyValue → String
  | [] => ""
  | [x] => display x
  | x :: y :: rest => display x ++ ", " ++ displayItems (y :: rest)
end

def kind : PropertyValue → String
  | .str _ => "string"
  | .int _ => "integer"
  | .float _ => "float"
  | .bool _ => "boolean"
  | .list _ => "list"

/-- Values hash by kind and display text; equal values have equal texts. -/
instance : Hashable PropertyValue := ⟨fun v => mixHash (hash v.kind) (hash v.display)⟩

def str? : PropertyValue → Option String
  | .str s => some s
  | _ => none

def int? : PropertyValue → Option Int
  | .int i => some i
  | _ => none

def list? : PropertyValue → Option (List PropertyValue)
  | .list xs => some xs
  | _ => none

end PropertyValue
end InventoryGraph
