import InventoryGraph.Identifier
import InventoryGraph.SchemaVersion

/-!
Relationship rules. A rule joins two node types under a label in one schema version. Its
direction says which type an edge leaves (the out type) and which it enters (the in type);
its three flags say which end contains the other, which end's deletion takes the other
end along, and which end's deletion the other end prevents. A rule with a containment
flag makes tree edges, one without makes cousin edges.
-/
namespace InventoryGraph

/-- An end of an edge named by a flag, or none. -/
inductive FlagDirection where
  | none
  | out
  | into
  deriving DecidableEq, Repr, Inhabited

def FlagDirection.name : FlagDirection → String
  | .none => "NONE"
  | .out => "OUT"
  | .into => "IN"

/-- Which way a rule's edges run with respect to its `from` type. -/
inductive Direction where
  | out
  | into
  deriving DecidableEq, Repr, Inhabited

def Direction.name : Direction → String
  | .out => "OUT"
  | .into => "IN"

/-- How many edges of a rule each end may have. -/
inductive Multiplicity where
  | oneToOne
  | oneToMany
  | manyToOne
  | manyToMany
  deriving DecidableEq, Repr, Inhabited

namespace Multiplicity

def name : Multiplicity → String
  | .oneToOne => "ONE_TO_ONE"
  | .oneToMany => "ONE_TO_MANY"
  | .manyToOne => "MANY_TO_ONE"
  | .manyToMany => "MANY_TO_MANY"

/-- Reads a multiplicity leniently: ASCII letters in any case, `_` and `-` ignored, and
    `2` or `TO` between the two ends. -/
def ofString (s : String) : Except ValidationError Multiplicity :=
  let t := String.ofList ((s.toList.map Char.toUpper).filter fun c => c != '_' && c != '-')
  if t = "ONE2ONE" ∨ t = "ONETOONE" then .ok .oneToOne
  else if t = "ONE2MANY" ∨ t = "ONETOMANY" then .ok .oneToMany
  else if t = "MANY2ONE" ∨ t = "MANYTOONE" then .ok .manyToOne
  else if t = "MANY2MANY" ∨ t = "MANYTOMANY" then .ok .manyToMany
  else .error (.invalidIdentifier s)

end Multiplicity

/-- Tree edges express containment; cousin edges are lateral references. -/
inductive EdgeType where
  | tree
  | cousin
  deriving DecidableEq, Repr, Inhabited

def EdgeType.name : EdgeType → String
  | .tree => "TREE"
  | .cousin => "COUSIN"

/-- A relationship rule. -/
structure Rule where
  source : Identifier
  target : Identifier
  label : Identifier
  direction : Direction := .out
  multiplicity : Multiplicity := .manyToMany
  contains : FlagDirection := .none
  deleteOtherV : FlagDirection := .none
  preventDelete : FlagDirection := .none
  isDefault : Bool := false
  version : SchemaVersion
  description : String := ""
  deriving DecidableEq

namespace Rule

def new (source target label : Identifier) (v : SchemaVersion) : Rule :=
  { source, target, label, version := v }

def pairKey (r : Rule) : String := InventoryGraph.pairKey r.source.text r.target.text

def touches (r : Rule) (t : String) : Bool := r.source.text == t || r.target.text == t

def joins (r : Rule) (a b : String) : Bool :=
  (r.source.text == a && r.target.text == b) || (r.source.text == b && r.target.text == a)

def outType (r : Rule) : Identifier := match r.direction with
  | .out => r.source
  | .into => r.target

def inType (r : Rule) : Identifier := match r.direction with
  | .out => r.target
  | .into => r.source

def containerType (r : Rule) : Option Identifier := match r.contains with
  | .out => some r.outType
  | .into => some r.inType
  | .none => none

def containedType (r : Rule) : Option Identifier := match r.contains with
  | .out => some r.inType
  | .into => some r.outType
  | .none => none

def edgeType (r : Rule) : EdgeType := if r.contains = .none then .cousin else .tree

end Rule
end InventoryGraph
