import InventoryGraph.Error

/-!
Schema versions `v0`, `v1`, …: a 32-bit unsigned number, written with a `v` in front.
Reading accepts `v` or `V` followed by an optional `+` and at least one ASCII digit, the
value below `2^32`; versions order by their number.
-/
namespace InventoryGraph

/-- A schema version. -/
structure SchemaVersion where
  number : Nat
  lt : number < Nat.pow 2 32

namespace SchemaVersion

instance : DecidableEq SchemaVersion := fun a b =>
  if h : a.number = b.number then
    isTrue (by cases a; cases b; cases h; rfl)
  else isFalse (fun e => h (congrArg SchemaVersion.number e))

instance : Ord SchemaVersion := ⟨fun a b => compare a.number b.number⟩
instance : LT SchemaVersion := ⟨fun a b => a.number < b.number⟩
instance : LE SchemaVersion := ⟨fun a b => a.number ≤ b.number⟩
instance (a b : SchemaVersion) : Decidable (a < b) :=
  inferInstanceAs (Decidable (a.number < b.number))
instance (a b : SchemaVersion) : Decidable (a ≤ b) :=
  inferInstanceAs (Decidable (a.number ≤ b.number))
instance : Inhabited SchemaVersion := ⟨⟨0, by decide⟩⟩

/-- Version 12: the first version whose relationships carry their labels by default, and
    the version a session serves unless it names one. -/
def v12 : SchemaVersion := ⟨12, by decide⟩

def ofNat? (n : Nat) : Option SchemaVersion :=
  if h : n < Nat.pow 2 32 then some ⟨n, h⟩ else none

def display (v : SchemaVersion) : String := "v" ++ toString v.number

instance : ToString SchemaVersion := ⟨display⟩

def readNumber? (s : String) : Option Nat :=
  let ds := match s.toList with
    | '+' :: r => r
    | r => r
  if !ds.isEmpty && ds.all Char.isDigit then
    let n := ds.foldl (fun n d => n * 10 + (d.toNat - 48)) 0
    if n < Nat.pow 2 32 then some n else none
  else none

def ofString (s : String) : Except ValidationError SchemaVersion :=
  let digits := match s.toList with
    | 'v' :: r => some r
    | 'V' :: r => some r
    | _ => none
  match digits.bind (fun r => readNumber? (String.ofList r)) |>.bind ofNat? with
  | some v => .ok v
  | none => .error (.invalidVersion s)

end SchemaVersion
end InventoryGraph
