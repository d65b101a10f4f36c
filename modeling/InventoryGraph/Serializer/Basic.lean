import InventoryGraph.Graph.Uri
import InventoryGraph.Config.Basic
import InventoryGraph.Object.Basic

namespace InventoryGraph

/-- The work a serializer does beside writing an object. -/
inductive SideEffect where
  | dataCopy
  deriving DecidableEq, Repr

def SideEffect.name : SideEffect → String
  | .dataCopy => "data-copy"

def SideEffect.defaults : List SideEffect := [.dataCopy]

def SideEffect.describe (effects : List SideEffect) : String :=
  "SideEffectRunner \x7b handlers: [" ++
    ", ".intercalate (effects.map fun e => "\"" ++ e.name ++ "\"") ++ "] \x7d"

/-- A catalog at a version, with what a write does beside storing the object. -/
structure Serializer where
  scope : Scope
  config : InventoryConfig
  sideEffects : List SideEffect := SideEffect.defaults
  sourceOfTruth : String

namespace Serializer

def new (c : Catalog) (config : InventoryConfig) (v : SchemaVersion) : Outcome Serializer :=
  if c.hasVersion v then .ok { scope := ⟨c, v⟩, config, sourceOfTruth := config.sourceOfTruth }
  else .error (.configuration ("schema version " ++ v.display ++ " is not loaded"))

def withSourceOfTruth (s : Serializer) (source : String) : Serializer :=
  { s with sourceOfTruth := source }

def withSideEffects (s : Serializer) (effects : List SideEffect) : Serializer :=
  { s with sideEffects := effects }

def nodeType (s : Serializer) (t : Identifier) : Outcome NodeType :=
  match s.scope.nodeType? t.text with
  | some nt => .ok nt
  | none => .error (.validation (.unknownNodeType t.text))

end Serializer
end InventoryGraph
