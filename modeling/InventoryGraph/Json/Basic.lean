import InventoryGraph.Binary64.Basic

/-!
JSON values as this library reads and writes them. A number written without fraction or
exponent that fits a 64-bit integer (signed when negative, unsigned otherwise) is an
integer; every other number is a binary64 value, `-0` included. Object members keep their
order and their repetitions: a later member of the same key stands for the value, as when
members are read into a map, and a strict reading may refuse the repetition.
-/
namespace InventoryGraph

/-- A JSON value. -/
inductive Json where
  | null
  | bool (b : Bool)
  | int (i : Int)
  | float (x : Binary64)
  | str (s : String)
  | arr (items : List Json)
  | obj (members : List (String × Json))
  deriving Inhabited

namespace Json

/-- The value of the last member with key `k`, if `j` is an object that has one. -/
def get? (j : Json) (k : String) : Option Json :=
  match j with
  | .obj ms => (ms.reverse.find? fun m => m.1 == k).map (·.2)
  | _ => none

def has (j : Json) (k : String) : Bool := (j.get? k).isSome

def str? : Json → Option String
  | .str s => some s
  | _ => none

def arr? : Json → Option (List Json)
  | .arr xs => some xs
  | _ => none

def bool? : Json → Option Bool
  | .bool b => some b
  | _ => none

def int? : Json → Option Int
  | .int i => some i
  | _ => none

def ofPairs (ms : List (String × Json)) : Json := .obj ms

def ofOption (s : Option String) : Json := match s with
  | some v => .str v
  | none => .null

def ofStrings (xs : List String) : Json := .arr (xs.map .str)

mutual
def depth : Json → Nat
  | .arr xs => depthItems xs + 1
  | .obj ms => depthMembers ms + 1
  | _ => 1

def depthItems : List Json → Nat
  | [] => 0
  | x :: xs => max (depth x) (depthItems xs)

def depthMembers : List (String × Json) → Nat
  | [] => 0
  | (_, v) :: ms => max (depth v) (depthMembers ms)
end

mutual
def texts : Json → List String
  | .str s => [s]
  | .arr xs => textsItems xs
  | .obj ms => textsMembers ms
  | _ => []

def textsItems : List Json → List String
  | [] => []
  | x :: xs => texts x ++ textsItems xs

def textsMembers : List (String × Json) → List String
  | [] => []
  | (k, v) :: ms => k :: (texts v ++ textsMembers ms)
end

/-- Members with key `k` bound to `v`: the first member of that key is replaced, or the
    binding is appended. -/
def setMember (ms : List (String × Json)) (k : String) (v : Json) : List (String × Json) :=
  if ms.any (·.1 == k) then ms.map fun m => if m.1 == k then (k, v) else m
  else ms ++ [(k, v)]

def setMembers (ms extra : List (String × Json)) : List (String × Json) :=
  extra.foldl (fun acc m => setMember acc m.1 m.2) ms

end Json
end InventoryGraph
