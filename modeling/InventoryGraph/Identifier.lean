import InventoryGraph.Error

/-!
Names of node types, edge labels and properties. A name is 1 to 255 bytes of UTF-8 and
holds no white-space character and no `|`, which joins two names into a pair key. Names
compare by the byte order of their UTF-8 text, which is the order of their code points.
White space is the Unicode `White_Space` property: 25 code points, of which core's
`Char.isWhitespace` knows six.
-/
namespace InventoryGraph

def Text.whiteSpaceRanges : List (Nat × Nat) :=
  [(0x09, 0x0D), (0x20, 0x20), (0x85, 0x85), (0xA0, 0xA0), (0x1680, 0x1680),
    (0x2000, 0x200A), (0x2028, 0x2029), (0x202F, 0x202F), (0x205F, 0x205F),
    (0x3000, 0x3000)]

def Text.isWhiteSpace (c : Char) : Bool :=
  whiteSpaceRanges.any fun r => decide (r.1 ≤ c.toNat ∧ c.toNat ≤ r.2)

def Identifier.allowed (c : Char) : Bool := !Text.isWhiteSpace c && c != '|'

def Identifier.Valid (s : String) : Prop :=
  0 < s.utf8ByteSize ∧ s.utf8ByteSize ≤ 255 ∧ s.toList.all Identifier.allowed = true

instance (s : String) : Decidable (Identifier.Valid s) := by
  unfold Identifier.Valid; exact inferInstance

/-- A valid name. -/
structure Identifier where
  text : String
  valid : Identifier.Valid text

namespace Identifier

instance : DecidableEq Identifier := fun a b =>
  if h : a.text = b.text then
    isTrue (by cases a; cases b; cases h; rfl)
  else isFalse (fun e => h (congrArg Identifier.text e))

instance : Ord Identifier := ⟨fun a b => compare a.text b.text⟩
instance : LT Identifier := ⟨fun a b => a.text < b.text⟩
instance : LE Identifier := ⟨fun a b => a.text ≤ b.text⟩
instance (a b : Identifier) : Decidable (a < b) := inferInstanceAs (Decidable (a.text < b.text))
instance (a b : Identifier) : Decidable (a ≤ b) := inferInstanceAs (Decidable (a.text ≤ b.text))
instance : ToString Identifier := ⟨Identifier.text⟩
instance : Hashable Identifier := ⟨fun i => hash i.text⟩

/-- The name with this text; the length is checked before the characters. -/
def ofString (s : String) : Except ValidationError Identifier :=
  if hl : 0 < s.utf8ByteSize ∧ s.utf8ByteSize ≤ 255 then
    if hc : s.toList.all Identifier.allowed = true then .ok ⟨s, hl.1, hl.2, hc⟩
    else .error (.invalidIdentifier s)
  else .error .invalidIdentifierLength

def byteLength (i : Identifier) : Nat := i.text.utf8ByteSize

end Identifier

/-- The pair key of two names: both texts in byte order, joined by `|`. -/
def pairKey (a b : String) : String :=
  if a ≤ b then a ++ "|" ++ b else b ++ "|" ++ a

end InventoryGraph
