import InventoryGraph.Service.Stateless
import InventoryGraph.Serializer.Format
import InventoryGraph.Graph.Cascade

/-!
The state of a session: the catalog and version it serves, its configuration, the graph
its committed operations left, the last committed state of every vertex it has seen, and
the stand-ins of its generated values.

Generated values are named by stand-ins so that answers do not depend on the clock: after
every operation the live vertices are walked in handle order, and a resource version or
synthetic id not met before becomes `rv:vN:k` or `sid:vN:k`, the `k`-th such value of that
kind given to vertex `vN`. Each answer of the session is masked with the stand-ins known
when it is given: a string equal to a generated value is its stand-in, in any other string
every UUID (lower-case hex in groups of 8, 4, 4, 4 and 12) is the stand-in of that value
or else `<uuid>`, and every timestamp property reads `<ts>`.

Requests name vertices by handle (`vN`, the live state, or the last committed one of a
deleted vertex), by address (a string starting with `/`), or by type and position
(`{"type", "index"}`, the position taken modulo the number of live vertices of the type);
they name edges by handle (`eN`).
-/
namespace InventoryGraph

namespace Clock

def secondsEpoch : Nat := 1786403915

def tagEpoch : Nat := 0x6f1c9e2a

def secondText (start : Nat) : String := toString (secondsEpoch + start)

def tagOf (start : Nat) : String := hexDigits 8 ((tagEpoch + start) % 0x100000000)

def occursIn (pat : List Char) : List Char → Bool
  | [] => pat.isEmpty
  | c :: cs => pat.isPrefixOf (c :: cs) || occursIn pat cs

def clashes (texts : List String) (start : Nat) : Bool :=
  texts.any fun t =>
    occursIn (secondText start).toList t.toList || occursIn (tagOf start).toList t.toList

def firstFresh (texts : List String) : Nat → Nat → Nat
  | 0, start => start
  | fuel + 1, start => if clashes texts start then firstFresh texts fuel (start + 1) else start

/-- An offset that clashes with none of the texts. At each place of a text at most one
    offset's second and one offset's tag start, so of twice the texts' length plus one
    offsets some clash with none. -/
def freshStart (texts : List String) : Nat :=
  firstFresh texts (2 * texts.foldl (fun n t => n + t.length) 0 + 1) 0

/-- The clock a session runs on, for a request's texts: it reads from the start of a second
    and tags its ids with an offset that none of the texts mentions, so that every resource
    version and synthetic id of fewer than a million readings and draws contains one of the
    two, and no value a request brings is taken for a generated one. -/
def session (texts : List String) : Clock :=
  steady ((secondsEpoch + freshStart texts) * 1000000) (tagOf (freshStart texts))

end Clock

def Vertex.view (v : Vertex) : Json :=
  .obj [("handle", .str v.id.handle), ("node-type", .str v.nodeType.text),
    ("properties", v.properties.toJson)]

def Edge.view (e : Edge) : Json :=
  .obj [("handle", .str e.id.handle), ("out", .str e.outV.handle), ("in", .str e.inV.handle),
    ("label", .str e.label.text), ("type", .str e.edgeType.name),
    ("contains", .str e.contains.name), ("delete_other_v", .str e.deleteOtherV.name),
    ("prevent_delete", .str e.preventDelete.name), ("properties", e.properties.toJson)]

def Graph.dump (g : Graph) : Json :=
  .obj [("vertices", .arr (g.vertices.map Vertex.view)), ("edges", .arr (g.edges.map Edge.view))]

def Graph.counts (g : Graph) : Json := .arr [.int g.vertexCount, .int g.edgeCount]

/-- Stand-ins for generated values. -/
structure TokenTable where
  entries : List (String × String) := []
  counts : List (String × Nat) := []

namespace TokenTable

def assign (t : TokenTable) (kind : String) (v : Vertex) (value : String) : TokenTable :=
  if t.entries.any (·.1 == value) then t
  else
    let key := kind ++ ":" ++ v.id.handle
    let k := ((t.counts.find? (·.1 == key)).map (·.2)).getD 0 + 1
    { entries := t.entries ++ [(value, key ++ ":" ++ toString k)],
      counts := (key, k) :: t.counts.filter (·.1 != key) }

def record (t : TokenTable) (g : Graph) : TokenTable :=
  g.vertices.foldl (fun t v =>
    let t := match v.resourceVersion? with
      | some r => t.assign "rv" v r
      | none => t
    match v.str? Bookkeeping.syntheticId with
    | some i => t.assign "sid" v i
    | none => t) t

def tokenOf (t : TokenTable) (s : String) : String :=
  ((t.entries.find? (·.1 == s)).map (·.2)).getD s

def valueOf? (t : TokenTable) (token : String) : Option String :=
  (t.entries.find? (·.2 == token)).map (·.1)

def isTimestamp (k : String) : Bool := k == Bookkeeping.createdTs || k == Bookkeeping.lastModTs

def isLowerHex (c : Char) : Bool := c.isDigit || ('a' ≤ c && c ≤ 'f')

def isUuid (cs : List Char) : Bool :=
  cs.length == 36 && cs.zipIdx.all fun (c, i) =>
    if i = 8 ∨ i = 13 ∨ i = 18 ∨ i = 23 then c == '-' else isLowerHex c

/-- Characters with every UUID in them, from the left, replaced by the stand-in of its
    value, or by `<uuid>` when it is no generated value. -/
def maskUuids (t : TokenTable) (cs : List Char) : List Char :=
  match cs with
  | [] => []
  | c :: r =>
    let head := (c :: r).take 36
    if isUuid head then
      let s := String.ofList head
      let standIn := ((t.entries.find? (·.1 == s)).map (·.2)).getD "<uuid>"
      standIn.toList ++ t.maskUuids ((c :: r).drop 36)
    else c :: t.maskUuids r
termination_by cs.length
decreasing_by all_goals (simp only [List.length_drop, List.length_cons]; omega)

def maskString (t : TokenTable) (s : String) : String :=
  match t.entries.find? (·.1 == s) with
  | some (_, token) => token
  | none => String.ofList (t.maskUuids s.toList)

mutual
def mask (t : TokenTable) : Json → Json
  | .str s => .str (t.maskString s)
  | .arr xs => .arr (t.maskItems xs)
  | .obj ms => .obj (t.maskMembers ms)
  | j => j

def maskItems (t : TokenTable) : List Json → List Json
  | [] => []
  | x :: xs => t.mask x :: t.maskItems xs

def maskMembers (t : TokenTable) : List (String × Json) → List (String × Json)
  | [] => []
  | (k, v) :: ms => (k, if isTimestamp k then .str "<ts>" else t.mask v) :: t.maskMembers ms
end

end TokenTable

/-- A session over one catalog and version. -/
structure Session where
  catalog : Catalog
  version : SchemaVersion
  config : InventoryConfig
  effects : Option String
  graph : Graph
  known : List Vertex := []
  tokens : TokenTable := {}

namespace Session

def commit (s : Session) (g : Graph) : Session :=
  let known := g.vertices.foldl (fun ks v =>
    if ks.any (·.id == v.id) then ks.map fun k => if k.id == v.id then v else k
    else ks ++ [v]) s.known
  { s with graph := g, known }

/-- The number a handle gives after its letter: an optional `+` and decimal digits, below
    2^64. -/
def handleIndex? (letter : Char) (h : String) : Option Nat :=
  match h.toList with
  | c :: rest =>
    let ds := match rest with
      | '+' :: ds => ds
      | ds => ds
    if c = letter ∧ ds ≠ [] ∧ ds.all Char.isDigit then
      let n := Json.digitsValue ds
      if n < Nat.pow 2 64 then some n else none
    else none
  | [] => none

def effectsOf (name : String) : Reply (List SideEffect) :=
  match Service.runnerOf name with
  | some es => .ok es
  | none => Reply.malformed ("bad side_effects " ++ name)

def serializerWith (s : Session) (effects : Option String) : Reply Serializer := do
  let base ← Reply.ofOutcome (Serializer.new s.catalog s.config s.version)
  match effects with
  | some name => base.withSideEffects <$> effectsOf name
  | none => pure base

def serializer (s : Session) (op : Json) : Reply Serializer := do
  let base ← s.serializerWith ((← Request.string? op "side_effects") <|> s.effects)
  match ← Request.string? op "source_of_truth" with
  | some t => pure (base.withSourceOfTruth t)
  | none => pure base

/-- The vertex a reference names; an address is looked up through the session's own
    serializer. -/
def vertexOf (s : Session) (j : Json) : Reply Vertex :=
  match j with
  | .str h =>
    if h.startsWith "/" then do
      let _ ← s.serializerWith s.effects
      match Scope.findByUri s.graph h with
      | .error e => .error (.failed e)
      | .ok (some v) => .ok v
      | .ok none => Reply.malformed ("no vertex at " ++ h)
    else
      match handleIndex? 'v' h with
      | none => Reply.malformed ("bad vertex handle " ++ h)
      | some n =>
        match s.graph.vertex? ⟨n⟩ with
        | some v => .ok v
        | none =>
          match s.known.find? (·.id == ⟨n⟩) with
          | some v => .ok v
          | none => Reply.malformed ("unknown vertex handle " ++ h)
  | .obj _ => do
    let t ← Reply.ofValidation (Identifier.ofString (← Request.string j "type"))
    let k ← Request.natural j "index" 0
    let vs := s.graph.vertices.filter (·.nodeType.text == t.text)
    match vs[k % vs.length]? with
    | some v => pure v
    | none => Reply.malformed ("no vertex of type " ++ t.text)
  | _ => Reply.malformed "vertex reference must be a string"

def vertexAt (s : Session) (op : Json) (k : String) : Reply Vertex := do
  s.vertexOf (← Request.field op k)

def vertexAt? (s : Session) (op : Json) (k : String) : Reply (Option Vertex) :=
  match op.get? k with
  | none | some .null => .ok none
  | some r => some <$> s.vertexOf r

def verticesAt (s : Session) (op : Json) (k : String) : Reply (List Vertex) := do
  (← Request.list op k).mapM s.vertexOf

def edgeAt (s : Session) (j : Json) (k : String) : Reply EdgeId := do
  let h ← Request.string j k
  match handleIndex? 'e' h with
  | none => Reply.malformed ("bad edge handle " ++ h)
  | some n =>
    if 1 ≤ n ∧ n < s.graph.nextEdge then pure ⟨n⟩
    else Reply.malformed ("unknown edge handle " ++ h)

def versionInput (s : Session) (j : Option Json) : Reply (Option String) :=
  match j with
  | none | some .null => .ok none
  | some (.str t) => .ok (some ((s.tokens.valueOf? t).getD t))
  | some (.obj ms) => do (·.resourceVersion?) <$> s.vertexOf (← Request.field (.obj ms) "current_of")
  | some _ => Reply.malformed "bad resource_version"

end Session
end InventoryGraph
